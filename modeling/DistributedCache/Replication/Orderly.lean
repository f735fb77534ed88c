import DistributedCache.Replication.Deletion
import DistributedCache.Replication.Progress

/-!
Orderly runs. They are smooth, and no write overlaps another call of its key; calls of
different keys may overlap, and so may reads of one key. The calls, in the order in which
they start, are also operations on one map.
-/
namespace DistributedCache.Replication

open Transition

variable {w : Setup} {now : Int} {s s' u : Sys} {a : Action} {k node : String} {c : Nat}
  {call call' : Call} {p p' : Proc} {past : List (Sys × Int × Action)}

section Trips

/-- The round trips of call `c` with a message under way. -/
def Sys.trips (c : Nat) (s : Sys) : List (String × Request) :=
  (s.net.filter fun msg => msg.call = c).map fun msg => (msg.peer, msg.req)

/-- No message is under way but those of round trips that are waited for. -/
def Sys.Matched (s : Sys) : Prop :=
  ∀ (c : Nat) (call : Call), s.calls[c]? = some call → (s.trips c).Subperm call.running

theorem mem_trips {msg : Msg} (mem : msg ∈ s.net) : (msg.peer, msg.req) ∈ s.trips msg.call :=
  List.mem_map.mpr ⟨msg, List.mem_filter.mpr ⟨mem, decide_eq_true rfl⟩, rfl⟩

/-- A step of a call waits for what it sends, ends the round trip whose response it routed,
or reads the local store. -/
theorem Call.Moves.trips {out : List (String × Request)}
    (m : call.Moves w now p c a p' call' out) (smooth : a.smooth = true) :
    (a = .advance c ∧ (call.running ++ out).Subperm call'.running) ∨
    (∃ msg, a = .deliver msg ∧ msg.call = c ∧ out = [] ∧ (msg.peer, msg.req) ∈ call.running ∧
      call'.running = call.running.erase (msg.peer, msg.req)) ∨
    (a = .getLocal c ∧ out = [] ∧
      call'.running = call.running.erase (call.node, call.request)) := by
  have same : (call.running ++ []).Subperm call.running := by
    rw [List.append_nil]
  cases m with
  | contact phase wanted =>
      refine .inl ⟨rfl, ?_⟩
      split
      · rw [List.append_nil]
        exact (List.sublist_append_left _ _).subperm
      · exact List.Subperm.refl _
  | undo phase idle =>
      refine .inl ⟨rfl, ?_⟩
      rw [idle]
      exact List.Subperm.refl _
  | skip | stored | deleted | short | answered | exhausted | undoneSet | undone =>
      exact .inl ⟨rfl, same⟩
  | cancelSet | cancelRead => cases smooth
  | answer waits ends | fetched _ _ waits ends | refuse waits ends | settle waits _ ends =>
      cases ends with
      | response => exact .inr (.inl ⟨_, rfl, rfl, rfl, waits, rfl⟩)
      | fail => cases smooth
  | getLocal => exact .inr (.inr ⟨rfl, rfl, rfl⟩)

theorem Sys.trips_erase {msg : Msg} (mem : msg ∈ s.net) :
    (s.trips msg.call).Perm
      ((msg.peer, msg.req) :: (s.take msg).trips msg.call) := by
  have perm := ((List.perm_cons_erase mem).filter fun m => decide (m.call = msg.call)).map
    fun m => (m.peer, m.req)
  rw [List.filter_cons_of_pos (by simp)] at perm
  exact perm

theorem Sys.trips_sublist {s s' : Sys} (part : s'.net.Sublist s.net) (c : Nat) :
    (s'.trips c).Sublist (s.trips c) :=
  (part.filter _).map _

theorem Sys.trips_append {msgs : List Msg} (net : s'.net = s.net ++ msgs)
    (others : ∀ msg ∈ msgs, msg.call ≠ c) : s'.trips c = s.trips c := by
  have none : msgs.filter (fun msg => decide (msg.call = c)) = [] :=
    List.filter_eq_nil_iff.mpr fun msg mem => by simpa using others msg mem
  unfold trips
  rw [net, List.filter_append, none, List.append_nil]

theorem Sys.trips_requests {out : List (String × Request)}
    (net : s'.net = s.net ++ out.map fun r => .request c r.1 r.2) :
    s'.trips c = s.trips c ++ out := by
  have ours : (out.map fun r => Msg.request c r.1 r.2).filter (fun msg => decide (msg.call = c)) =
      out.map fun r => Msg.request c r.1 r.2 := by
    refine List.filter_eq_self.mpr fun msg mem => ?_
    obtain ⟨r, _, rfl⟩ := List.mem_map.mp mem
    exact decide_eq_true rfl
  unfold trips
  rw [net, List.filter_append, ours, List.map_append, List.map_map]
  exact congrArg _ (List.map_id' _)

theorem Sys.Matched.move {out : List (String × Request)} (h : s.Matched) (reg : s.Regular w)
    (smooth : a.smooth = true) (found : s.calls[c]? = some call)
    (moves : call.Moves w now (s.procs call.node) c a p call' out)
    (sent : ∀ msg, a = .deliver msg → msg ∈ s.net)
    (net : s'.net = a.remaining s.net ++ out.map fun r => .request c r.1 r.2) :
    (s'.trips c).Subperm call'.running := by
  have before := h c call found
  rcases moves.trips smooth with ⟨rfl, more⟩ | ⟨msg, rfl, rfl, rfl, waits, running⟩ |
    ⟨rfl, rfl, running⟩
  · rw [Sys.trips_requests net]
    exact ((List.subperm_append_right out).mpr before).trans more
  · have same : s'.trips msg.call = (s.take msg).trips msg.call := by
      unfold trips
      rw [net, List.map_nil, List.append_nil]
      rfl
    rw [same, running]
    refine (List.subperm_cons (msg.peer, msg.req)).mp ?_
    have perm := Sys.trips_erase (sent msg rfl)
    exact (perm.symm.subperm.trans before).trans (List.perm_cons_erase waits).subperm
  · have own : (call.node, call.request) ∉ s.trips c := by
      intro mem
      obtain ⟨msg, mem, eq⟩ := List.mem_map.mp mem
      obtain ⟨mem, ours⟩ := List.mem_filter.mp mem
      obtain ⟨call', found', _, other, _⟩ := reg.msgs msg mem
      rw [of_decide_eq_true ours, found] at found'
      obtain rfl := Option.some.inj found'
      exact other (Prod.mk.inj eq).1
    have same : s'.trips c = s.trips c := by
      unfold trips
      rw [net, List.map_nil, List.append_nil]
      rfl
    rw [same, running, ← List.erase_of_not_mem own]
    exact before.erase _

theorem Sys.Regular.trips_new (reg : s.Regular w) : s.trips s.calls.length = [] := by
  unfold trips
  rw [List.filter_eq_nil_iff.mpr, List.map_nil]
  intro msg mem
  have := reg.call_lt mem
  rw [decide_eq_true_iff]
  omega

theorem Sys.Matched.step (h : s.Matched) (reg : s.Regular w) (smooth : a.smooth = true)
    (step : Step w now s a s') : s'.Matched := by
  intro c call there
  cases step with
  | @start node op p begun started =>
      change (s.trips c).Subperm call.running
      by_cases old : c < s.calls.length
      · exact h c call ((List.getElem?_append_left old).symm.trans there)
      · have bound := (List.getElem?_eq_some_iff.mp there).1
        obtain rfl : c = s.calls.length := by
          simp only [List.length_append, List.length_singleton] at bound
          omega
        rw [reg.trips_new]
        exact List.nil_subperm
  | @move _ d mover mover' p out found moves sent =>
      rw [getElem?_set_found found] at there
      split at there
      · rename_i index
        subst index
        cases there
        exact h.move reg smooth found moves sent rfl
      · rename_i other
        rw [Sys.trips_append (s := { s with net := a.remaining s.net }) rfl fun msg mem => ?_]
        · refine (Sys.trips_sublist ?_ c).subperm.trans (h c call there)
          unfold Action.remaining
          split
          · exact List.erase_sublist
          · exact List.Sublist.refl _
        · obtain ⟨r, _, rfl⟩ := List.mem_map.mp mem
          exact other
  | @handle d peer req sent =>
      by_cases index : d = c
      · subst index
        refine List.Subperm.trans (List.Perm.subperm ?_) (h d call there)
        refine List.Perm.trans ?_ (Sys.trips_erase sent).symm
        unfold trips
        rw [List.filter_append, List.map_append, List.filter_cons_of_pos (by simp [Msg.call])]
        exact List.perm_append_singleton _ _
      · rw [Sys.trips_append (s := s.take (.request d peer req)) rfl fun msg mem => ?_]
        · exact (Sys.trips_sublist List.erase_sublist c).subperm.trans (h c call there)
        · obtain rfl := List.mem_singleton.mp mem
          exact index
  | late sent nobody =>
      exact (Sys.trips_sublist List.erase_sublist c).subperm.trans (h c call there)
  | lose => cases smooth
  | mark | cleanupExpired => exact h c call there

end Trips

section Map

/-- What is under each key. -/
abbrev Contents := String → Option (List UInt8)

/-- An operation on one map, and what it returns. -/
def Op.onMap (m : Contents) : Op → Contents × Result
  | .set key value _ => (Function.update m key (some value), .stored)
  | .delete key => (Function.update m key none, .deleted (m key).isSome)
  | .read key => (m, .ofGet (m key))

/-- The map after some operations. -/
def mapAfter (m : Contents) (ops : List Op) : Contents :=
  ops.foldl (fun m op => (op.onMap m).1) m

theorem mapAfter_concat (m : Contents) (ops : List Op) (op : Op) :
    mapAfter m (ops ++ [op]) = (op.onMap (mapAfter m ops)).1 := by
  rw [mapAfter, List.foldl_append]
  rfl

theorem Op.onMap_other {op : Op} (m : Contents) (other : op.writes k = false) :
    (op.onMap m).1 k = m k := by
  cases op with
  | set key value ttl | delete key =>
      have ne : k ≠ key := fun same => of_decide_eq_false other same.symm
      exact Function.update_of_ne ne ..
  | read key => rfl

theorem mapAfter_other (m : Contents) {ops more : List Op}
    (others : ∀ op ∈ more, op.writes k = false) :
    mapAfter m (ops ++ more) k = mapAfter m ops k := by
  induction more using List.reverseRecOn with
  | nil => rw [List.append_nil]
  | append_singleton more op ih =>
      rw [← List.append_assoc, mapAfter_concat,
        Op.onMap_other _ (others op (List.mem_append_right _ List.mem_cons_self))]
      exact ih fun op mem => others op (List.mem_append_left _ mem)

/-- The operations of the calls, in the order in which they have started. -/
def Sys.ops (s : Sys) : List Op :=
  s.calls.map Call.op

theorem Step.ops (step : Step w now s a s') :
    s'.ops = s.ops ∨ ∃ node op, a = .start node op ∧ s'.ops = s.ops ++ [op] := by
  cases step with
  | start started =>
      refine .inr ⟨_, _, rfl, ?_⟩
      rw [← started.same.2.1]
      exact List.map_append
  | @move _ d mover mover' p out found moves sent =>
      refine .inl (List.ext_getElem? fun i => ?_)
      rw [Sys.ops, Sys.ops, List.getElem?_map, List.getElem?_map, getElem?_set_found found]
      split
      · rename_i index
        subst index
        rw [found, Option.map_some, Option.map_some, moves.same.op]
      · rfl
  | handle | late | lose | mark | cleanupExpired => exact .inl rfl

theorem Step.take_ops (step : Step w now s a s') (old : c ≤ s.calls.length) :
    s'.ops.take c = s.ops.take c := by
  rcases step.ops with same | ⟨_, _, _, more⟩
  · rw [same]
  · rw [more, List.take_append_of_le_length]
    rw [Sys.ops, List.length_map]
    exact old

/-- Operations that do not write the key leave it as it is on the map. -/
theorem Step.mapAfter (m : Contents) (step : Step w now s a s') (quiet : NoWrite k s (now, a)) :
    mapAfter m s'.ops k = mapAfter m s.ops k := by
  rcases step.ops with same | ⟨node, op, rfl, more⟩
  · rw [same]
  · rw [more]
    refine mapAfter_other m fun op' mem => ?_
    rw [List.mem_singleton.mp mem]
    exact quiet

/-- The store has this under the key, without expiry. -/
def Proc.Holds (p : Proc) (k : String) : Option (List UInt8) → Prop
  | some v => p.Keeps k v
  | none => p.Lacks k

theorem Proc.Holds.get {x : Option (List UInt8)} (h : p.Holds k x) (now : Int) :
    (p.store.get now k).2 = x := by
  cases x with
  | some v => exact Proc.Keeps.get h now
  | none =>
      refine Option.eq_none_iff_forall_ne_some.mpr fun v got => ?_
      obtain ⟨e, found, _⟩ := (Cache.Store.get_result p.store now k v).mp got
      cases h.symm.trans found

theorem Proc.Holds.acts {x : Option (List UInt8)} (h : p.Holds k x) (sound : p.store.Sound)
    (limit : p.store.maxBytes ≤ 0) (acts : Acts now k False p p') : p'.Holds k x := by
  cases x with
  | some v => exact Proc.Keeps.acts h sound limit acts
  | none => exact Proc.Lacks.acts h sound acts

end Map

section Orderly

/-- The calls that routing leads to a node, without time to live. -/
def Setup.Routed (w : Setup) (node : String) : Op → Prop
  | .set key _ ttl => w.isPrimary node key = true ∧ ttl = 0
  | .delete key => w.isPrimary node key = true
  | .read key => node ∈ w.owners key ∧
      (w.cfg.readConsistency = .primary → w.isPrimary node key = true)

instance (w : Setup) (node : String) (op : Op) : Decidable (w.Routed node op) :=
  match op with
  | .set _ _ _ => inferInstanceAs (Decidable (_ ∧ _))
  | .delete _ => inferInstanceAs (Decidable (_ = _))
  | .read _ => inferInstanceAs (Decidable (_ ∧ (_ → _)))

def Call.hasReturned (call : Call) : Bool :=
  match call.phase with
  | .returned _ => true
  | .visiting _ | .undoing _ => false

theorem Call.hasReturned_of {result : Result} (phase : call.phase = .returned result) :
    call.hasReturned = true := by
  rw [hasReturned, phase]

theorem Call.returned_of (h : call.hasReturned = true) :
    ∃ result, call.phase = .returned result := by
  unfold hasReturned at h
  split at h
  · rename_i result phase
    exact ⟨result, phase⟩
  · cases h
  · cases h

def Op.isRead : Op → Bool
  | .read _ => true
  | .set _ _ _ | .delete _ => false

/-- A smooth step. It starts a call only where routing leads it, and no write while another
call of its key runs, and no read while a write does. -/
def Orderly (w : Setup) (s : Sys) (x : Int × Action) : Prop :=
  x.2.smooth = true ∧ match x.2 with
    | .start node op => w.Routed node op ∧ ∀ call ∈ s.calls, call.op.key = op.key →
        call.hasReturned = true ∨ (call.op.isRead = true ∧ op.isRead = true)
    | _ => True

instance (w : Setup) (s : Sys) (x : Int × Action) : Decidable (Orderly w s x) :=
  match x with
  | (_, .start _ _) => inferInstanceAs (Decidable (_ = _ ∧ _ ∧ _))
  | (_, .advance _) | (_, .cancel _) | (_, .deliver _) | (_, .lose _) | (_, .fail _ _ _)
  | (_, .getLocal _) | (_, .mark _ _ _) | (_, .cleanupExpired _) =>
      inferInstanceAs (Decidable (_ = _ ∧ True))

theorem Calm.orderly {x : Int × Action} (h : Calm s x) : Orderly w s x := by
  refine ⟨h.1, ?_⟩
  split
  · rename_i node op act
    exact absurd act (h.2 node op)
  · trivial

end Orderly

end DistributedCache.Replication
