import DistributedCache.Cache.Eviction
import DistributedCache.Replication.Ledger
import DistributedCache.Replication.Rollback
import DistributedCache.Replication.Smooth

/-!
One write while nothing else runs. What a node has under the key afterwards is what the
last request it has served left there, and what it had before if it has served none.
-/
namespace DistributedCache.Replication

open Transition

variable {w : Setup} {now : Int} {s s' : Sys} {a : Action} {i k : String} {c : Nat}
  {call call' : Call} {p p' : Proc} {past : List (Sys × Int × Action)}

namespace Proc

/-- The value and the expiry of the entry under the key. -/
def slot (p : Proc) (k : String) : Option (List UInt8 × Int) :=
  (p.store.entries.lookup k).map fun e => (e.value.value, e.value.expiresAt)

theorem content_eq_slot (p : Proc) (k : String) : p.content k = (p.slot k).map Prod.fst := by
  rw [content, slot, Option.map_map]
  rfl

theorem slot_congr (same : p'.store.entries.lookup k = p.store.entries.lookup k) :
    p'.slot k = p.slot k := by
  rw [slot, same]
  rfl

theorem slot_set {v : List UInt8} {ttl : Int} (ok : (p.store.set now k v ttl).2 = none) :
    (p.set now k v ttl).slot k = some (v, if ttl > 0 then now + ttl else 0) := by
  obtain ⟨e, found, eq⟩ := Cache.Store.lookup_set_self ok
  rw [slot, Proc.set, found, Option.map_some, eq]

theorem slot_set_failed {v : List UInt8} {ttl : Int} (sound : p.store.Sound)
    (failed : (p.store.set now k v ttl).2 ≠ none) : (p.set now k v ttl).slot k = none := by
  rw [slot, Proc.set, Cache.Store.lookup_set_failed sound failed]
  rfl

theorem slot_delete (sound : p.store.Sound) (now : Int) (k : String) :
    (p.delete now k).slot k = none := by
  rw [slot, Proc.delete, Cache.Store.lookup_delete sound, if_pos rfl]
  rfl

/-- A `Get` that finds the entry leaves it alone. -/
theorem slot_get {v : List UInt8} (sound : p.store.Sound)
    (present : (p.store.get now k).2 = some v) : (p.get now k).slot k = p.slot k := by
  refine slot_congr ?_
  rcases Cache.Store.lookup_get sound now k k with same | ⟨_, _, e, found, old⟩
  · exact same
  · obtain ⟨e', found', live, _⟩ := (Cache.Store.get_result ..).mp present
    obtain rfl := Option.some.inj (found.symm.trans found')
    cases old.symm.trans live

end Proc

def Request.key : Request → String
  | .replSet key _ _ | .replDelete key | .replGet key => key

theorem Call.key_of_ours {req : Request} (ours : req = call.request ∨ req = call.takesBack) :
    req.key = call.op.key := by
  cases ours with
  | inl same =>
      rw [same, request]
      cases call.op <;> rfl
  | inr same =>
      rw [same, takesBack]
      cases call.op <;> rfl

/-- What a node has under the key when a request has been served there. -/
def Request.Leaves (req : Request) (p : Proc) : Prop :=
  match req with
  | .replSet key value ttl =>
      if p.store.Fits key value then
        ∃ expiry, p.slot key = some (value, expiry) ∧ (ttl ≤ 0 → expiry = 0)
      else p.slot key = none
  | .replDelete key => p.slot key = none
  | .replGet _ => True

theorem Cache.Store.fits_congr {s s' : Cache.Store} {key : String} {value : List UInt8}
    (limit : s'.maxBytes = s.maxBytes) : s'.Fits key value ↔ s.Fits key value := by
  rw [Cache.Store.Fits, Cache.Store.Fits, limit]

theorem Proc.fits_set {key : String} {value : List UInt8} {ttl : Int} :
    (p.set now key value ttl).store.Fits key value ↔ p.store.Fits key value :=
  Cache.Store.fits_congr (Cache.Store.maxBytes_set ..)

theorem Request.Leaves.congr {req : Request} (h : req.Leaves p)
    (same : p'.slot req.key = p.slot req.key) (limit : p'.store.maxBytes = p.store.maxBytes) :
    req.Leaves p' := by
  cases req with
  | replSet key value ttl =>
      have same : p'.slot key = p.slot key := same
      unfold Leaves at h ⊢
      simpa only [Cache.Store.fits_congr limit, same] using h
  | replDelete key => exact same.trans h
  | replGet => trivial

theorem serve_leaves (sound : p.store.Sound) {req : Request} (member : i ∈ w.owners req.key) :
    req.Leaves (serve w i now p req).1 := by
  have inside : w.isInReplicaSet i req.key = true := Setup.isInReplicaSet_iff.mpr member
  cases req with
  | replSet key value ttl =>
      have inside : w.isInReplicaSet i key = true := inside
      rw [serve, if_pos inside, Request.Leaves]
      dsimp only
      rw [if_congr Proc.fits_set rfl rfl]
      split
      · rename_i fits
        refine ⟨_, Proc.slot_set (by rw [sound.set_of_fits fits]), fun none => if_neg ?_⟩
        omega
      · rename_i large
        refine Proc.slot_set_failed sound ?_
        rw [Cache.Store.set_of_not_fits large]
        exact Option.some_ne_none _
  | replDelete key =>
      have inside : w.isInReplicaSet i key = true := inside
      rw [serve, if_pos inside]
      exact Proc.slot_delete sound now key
  | replGet => trivial

/-- The step starts nothing, and removes no expired entry of the key. -/
def Lone (k : String) (s : Sys) (x : Int × Action) : Prop :=
  match x.2 with
  | .start _ _ => False
  | .cleanupExpired node => ((s.procs node).store.entries.lookup k).all
      (fun e => !e.value.isExpired x.1) = true
  | _ => True

instance (k : String) (s : Sys) (x : Int × Action) : Decidable (Lone k s x) :=
  match x with
  | (now, .cleanupExpired node) => inferInstanceAs (Decidable
      (((s.procs node).store.entries.lookup k).all (fun e => !e.value.isExpired now) = true))
  | (_, .start _ _) => inferInstanceAs (Decidable False)
  | (_, .advance _) | (_, .cancel _) | (_, .deliver _) | (_, .lose _) | (_, .fail _ _ _)
  | (_, .getLocal _) | (_, .mark _ _ _) => inferInstanceAs (Decidable True)

/-- Nothing is running but call `c`, and nothing else is under way. -/
structure Sys.Only (c : Nat) (s : Sys) : Prop where
  others : ∀ (d : Nat) (call : Call), s.calls[d]? = some call → d = c ∨ call.Over
  net : ∀ msg ∈ s.net, msg.call = c

theorem Sys.Idle.only {u v : Sys} {node : String} {op : Op} (idle : u.Idle)
    (starts : exec w u (now, .start node op) = .ok v) : v.Only u.calls.length := by
  cases starts
  refine ⟨fun d call found => ?_, fun msg mem => ?_⟩
  · by_cases old : d < u.calls.length
    · exact .inr (idle.calls d call ((List.getElem?_append_left old).symm.trans found))
    · obtain ⟨bound, _⟩ := List.getElem?_eq_some_iff.mp found
      rw [List.length_append, List.length_singleton] at bound
      exact .inl (by omega)
  · have mem : msg ∈ u.net := mem
    rw [idle.net] at mem
    cases mem

theorem Sys.Only.step (h : s.Only c) (lone : Lone k s (now, a)) (step : Step w now s a s') :
    s'.Only c where
  others := fun d call there => by
    rcases step.call_cases there with same | ⟨old, _, _, was, moves, _⟩ | ⟨_, _, _, _, rfl, _⟩
    · exact h.others d call same
    · exact .inl ((h.others d old was).resolve_right moves.not_over)
    · exact lone.elim
  net := fun msg mem => by
    rcases step.msg_cases mem with old | ⟨d, mover, _, _, _, _, was, moves, _, _, rfl⟩ |
      ⟨d, _, _, asked, _, rfl, _⟩
    · exact h.net msg old
    · exact (h.others d mover was).resolve_right moves.not_over
    · have own : d = c := h.net _ asked
      exact own

theorem Sys.Regular.leaves (reg : s.Regular w) (now : Int) {req : Request}
    (sent : .request c i req ∈ s.net) (found : s.calls[c]? = some call) :
    (req = call.request ∨ req = call.takesBack) ∧
      req.Leaves (serve w i now (s.procs i) req).1 := by
  obtain ⟨call', found', target, _, ours⟩ := reg.msgs _ sent
  obtain rfl := Option.some.inj (found.symm.trans found')
  have ours : req = call.request ∨ req = call.takesBack := ours
  refine ⟨ours, serve_leaves (reg.sound i) ?_⟩
  rw [Call.key_of_ours ours]
  exact (List.mem_filter.mp target).1

/-- Then a step changes what a node has under the key only as a step of the call at its
own node, or by serving a request of it. -/
theorem Sys.Only.slot_cases (h : s.Only c) (reg : s.Regular w) (lone : Lone k s (now, a))
    (found : s.calls[c]? = some call) (step : Step w now s a s') (i : String) :
    ((s'.procs i).slot k = (s.procs i).slot k ∧ ∀ req, a ≠ .deliver (.request c i req)) ∨
    (call.node = i ∧ ∃ call' q out, s'.calls[c]? = some call' ∧
      call.Moves w now (s.procs i) c a q call' out ∧ s'.procs i = q) ∨
    ∃ req, a = .deliver (.request c i req) ∧ .request c i req ∈ s.net ∧
      (req = call.request ∨ req = call.takesBack) ∧ req.Leaves (s'.procs i) := by
  have elsewhere {n : String} {q : Proc} (other : i ≠ n) :
      (Function.update s.procs n q i).slot k = (s.procs i).slot k := by
    rw [Function.update_of_ne other]
  have put {n : String} {q : Proc} (same : q.slot k = (s.procs n).slot k) :
      (Function.update s.procs n q i).slot k = (s.procs i).slot k :=
    (Function.forall_update_iff s.procs fun i q => q.slot k = (s.procs i).slot k).mpr
      ⟨same, fun _ _ => rfl⟩ i
  cases step with
  | start => exact lone.elim
  | @move _ d mover mover' q out was moves sent =>
      obtain rfl := (h.others d mover was).resolve_right moves.not_over
      obtain rfl := Option.some.inj (was.symm.trans found)
      by_cases here : i = mover.node
      · subst here
        exact .inr (.inl ⟨rfl, mover', q, out, (getElem?_set_found found d).trans (if_pos rfl),
          moves, Function.update_self ..⟩)
      · refine .inl ⟨elsewhere here, fun req act => ?_⟩
        have none := moves.serves (c := d) (s := s)
        rw [serves_eq_some.mpr act] at none
        cases none
  | @handle d peer req sent =>
      obtain rfl : d = c := h.net _ sent
      by_cases here : i = peer
      · subst here
        obtain ⟨ours, leaves⟩ := reg.leaves now sent found
        refine .inr (.inr ⟨req, rfl, sent, ours, ?_⟩)
        dsimp only
        rwa [Function.update_self]
      · refine .inl ⟨elsewhere here, fun req' act => ?_⟩
        cases act
        exact here rfl
  | late | lose => exact .inl ⟨rfl, nofun⟩
  | mark => exact .inl ⟨put (Proc.slot_congr rfl), nofun⟩
  | cleanupExpired node =>
      refine .inl ⟨put (Proc.slot_congr ?_), nofun⟩
      rcases Cache.Store.lookup_cleanupExpired (reg.sound node) now k with same |
        ⟨_, e, found, old⟩
      · exact same
      · have lone : ((s.procs node).store.entries.lookup k).all
            (fun e => !e.value.isExpired now) = true := lone
        rw [found, Option.all_some, old] at lone
        cases lone

/-- What the nodes have under the key of call `c`, by the requests they have served. The
managers before it were `before`. -/
structure Traced (before : String → Proc) (c : Nat) (call : Call)
    (past : List (Sys × Int × Action)) (s : Sys) : Prop where
  taken : ∀ i, (i, call.takesBack) ∈ served c past → call.takesBack.Leaves (s.procs i)
  given : ∀ i, (i, call.takesBack) ∉ served c past → (i, call.request) ∈ served c past →
    call.request.Leaves (s.procs i)
  kept : ∀ i, i ≠ call.node → (i, call.takesBack) ∉ served c past →
    (i, call.request) ∉ served c past →
      (s.procs i).slot call.op.key = (before i).slot call.op.key
  limits : ∀ i, (s.procs i).store.maxBytes = (before i).store.maxBytes

theorem Traced.same {before : String → Proc} (h : Traced before c call past s)
    (same : call.Same call') : Traced before c call' past s := by
  obtain ⟨taken, given, kept, limits⟩ := h
  rw [← same.takesBack] at taken given kept
  rw [← same.request] at given kept
  rw [← same.node, ← same.op] at kept
  exact ⟨taken, given, kept, limits⟩

theorem Traced.step {before : String → Proc} (h : Traced before c call past s)
    (ledger : Ledger w c call past s) (reg : s.Regular w) (only : s.Only c)
    (lone : Lone call.op.key s (now, a)) (found : s.calls[c]? = some call)
    (step : Step w now s a s') : Traced before c call ((s, now, a) :: past) s' := by
  have limit (i : String) := (step.acts i "").maxBytes
  have cases' (i : String) := only.slot_cases reg lone found step i
  have others {i : String} {req : Request} (mem : (i, req) ∈ served c ((s, now, a) :: past)) :
      i ≠ call.node := ledger.others_step reg found step _ mem
  -- What has been left where no request arrives now stays there.
  have stays {i : String} {req : Request} (ours : req = call.request ∨ req = call.takesBack)
      (slot : (s'.procs i).slot call.op.key = (s.procs i).slot call.op.key)
      (left : req.Leaves (s.procs i)) : req.Leaves (s'.procs i) := by
    refine left.congr ?_ (limit i)
    rw [Call.key_of_ours ours]
    exact slot
  have old {i : String} {req : Request} (fresh : (i, req) ∉ served c ((s, now, a) :: past)) :
      (i, req) ∉ served c past := fun before => fresh (mem_served_iff.mpr (.inr before))
  refine ⟨fun i taken => ?_, fun i untaken given => ?_, fun i other untaken fresh => ?_,
    fun i => (limit i).trans (h.limits i)⟩
  · rcases cases' i with ⟨slot, silent⟩ | ⟨own, _⟩ | ⟨req, act, sent, ours, left⟩
    · exact stays (.inr rfl) slot (h.taken i ((mem_served_iff.mp taken).resolve_left (silent _)))
    · exact absurd own.symm (others taken)
    · cases mem_served_iff.mp taken with
      | inl act' =>
          cases act.symm.trans act'
          exact left
      | inr before =>
          cases ours with
          | inl main =>
              subst main
              exact absurd sent (ledger.not_asked before)
          | inr back => exact back ▸ left
  · rcases cases' i with ⟨slot, silent⟩ | ⟨own, _⟩ | ⟨req, act, sent, rfl | rfl, left⟩
    · exact stays (.inl rfl) slot
        (h.given i (old untaken) ((mem_served_iff.mp given).resolve_left (silent _)))
    · exact absurd own.symm (others given)
    · exact left
    · exact absurd (mem_served_iff.mpr (.inl act)) untaken
  · rcases cases' i with ⟨slot, _⟩ | ⟨own, _⟩ | ⟨req, act, _, rfl | rfl, _⟩
    · exact slot.trans (h.kept i other (old untaken) (old fresh))
    · exact absurd own.symm other
    · exact absurd (mem_served_iff.mpr (.inl act)) fresh
    · exact absurd (mem_served_iff.mpr (.inl act)) untaken

/-- How a write stands that was started in the state `u`, with nothing else running since.
What its own node has under the key is left to `P`. -/
structure Single (w : Setup) (u : Sys) (node : String) (op : Op)
    (P : Call → Option (List UInt8 × Int) → Prop) (call : Call)
    (past : List (Sys × Int × Action)) (s : Sys) : Prop where
  found : s.calls[u.calls.length]? = some call
  here : call.node = node
  doing : call.op = op
  regular : s.Regular w
  only : s.Only u.calls.length
  ledger : Ledger w u.calls.length call past s
  traced : Traced u.procs u.calls.length call past s
  own : P call ((s.procs node).slot op.key)

section Single

variable {u v : Sys} {node : String} {op : Op} {P : Call → Option (List UInt8 × Int) → Prop}

theorem Single.start (reg : u.Regular w) (ring : w.ring.Sound) (idle : u.Idle)
    (writes : ∀ key, op ≠ .read key) (starts : exec w u (now, .start node op) = .ok v)
    (begins : ∀ {p call}, Started w now (u.procs node) node op p call → P call (p.slot op.key)) :
    ∃ call, Single w u node op P call [] v := by
  have step := exec_step starts
  obtain ⟨p, call, started, found, others⟩ := exec_start starts
  refine ⟨call, found, started.same.1, started.same.2.1, reg.step step, idle.only starts,
    .start reg ring writes starts found, ⟨nofun, nofun, fun i other _ _ => ?_, fun i => ?_⟩, ?_⟩
  · rw [started.same.1] at other
    rw [others i other]
  · exact (step.acts i "").maxBytes
  · obtain ⟨p', call', started', rfl⟩ := step.started
    rw [List.getElem?_concat_length] at found
    obtain rfl := Option.some.inj found
    change P _ ((Function.update u.procs node p' node).slot op.key)
    rw [Function.update_self]
    exact begins started'

theorem Single.step (h : Single w u node op P call past s) (ring : w.ring.Sound)
    (writes : ∀ key, op ≠ .read key)
    (moves : ∀ {now p c a p' out} {call call' : Call}, p.store.Sound → call.op = op →
      call.Moves w now p c a p' call' out → P call (p.slot op.key) → P call' (p'.slot op.key))
    (lone : Lone op.key s (now, a)) (step : Step w now s a s') :
    ∃ call', Single w u node op P call' ((s, now, a) :: past) s' := by
  obtain ⟨found, rfl, rfl, reg, only, ledger, traced, own⟩ := h
  obtain ⟨call', there, same⟩ := step.persists found
  refine ⟨call', there, same.node, same.op, reg.step step, only.step lone step,
    ledger.step writes reg ring found there step,
    (traced.step ledger reg only lone found step).same same, ?_⟩
  rcases step.on_call found there with rfl | ⟨q, out, moved, rfl⟩
  · rcases only.slot_cases reg lone found step call'.node with ⟨slot, _⟩ |
      ⟨_, call'', q, out, there', moved, rfl⟩ | ⟨req, _, sent, _⟩
    · rwa [slot]
    · obtain rfl := Option.some.inj (there'.symm.trans there)
      exact moves (reg.sound _) rfl moved own
    · obtain ⟨mover, found', _, other, _⟩ := reg.msgs _ sent
      obtain rfl := Option.some.inj (found.symm.trans found')
      exact absurd rfl other
  · exact moves (reg.sound _) rfl moved own

/-- Along a run in which nothing else starts. -/
theorem Single.run (reg : u.Regular w) (ring : w.ring.Sound) (idle : u.Idle)
    (writes : ∀ key, op ≠ .read key) (starts : exec w u (now, .start node op) = .ok v)
    (begins : ∀ {p call}, Started w now (u.procs node) node op p call → P call (p.slot op.key))
    (moves : ∀ {now p c a p' out} {call call' : Call}, p.store.Sound → call.op = op →
      call.Moves w now p c a p' call' out → P call (p.slot op.key) → P call' (p'.slot op.key))
    (run : RunFrom w v past s) (lone : Meets (Lone op.key) past) :
    ∃ call, Single w u node op P call past s :=
  Run.induct_from (I := fun past s => ∃ call, Single w u node op P call past s)
    (Single.start reg ring idle writes starts begins)
    (fun _ _ _ _ ⟨_, h⟩ lone exec => h.step ring writes moves lone (exec_step exec)) run lone

end Single

end DistributedCache.Replication
