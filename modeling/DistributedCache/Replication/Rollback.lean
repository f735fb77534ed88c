import DistributedCache.Replication.Writing

/-!
Any number of `WriteSet` calls of one key at its primary, and nothing else. A call that
fails ends with an unconditional `Delete` on the local store, so the store has the value
of the call that has started last exactly if no other call has failed since then.
-/
namespace DistributedCache.Replication

open Transition

variable {w : Setup} {now : Int} {s s' : Sys} {a : Action} {k node : String} {v : List UInt8}
  {c : Nat} {call call' : Call} {p p' : Proc}

/-- What the store has under the key, expired or not. -/
def Proc.content (p : Proc) (k : String) : Option (List UInt8) :=
  (p.store.entries.lookup k).map fun e => e.value.value

theorem Proc.content_congr (same : p'.store = p.store) : p'.content k = p.content k := by
  rw [content, same]
  rfl

theorem Sys.content_put {n : String} {q : Proc} (same : q.content k = (s.procs n).content k)
    (i : String) : ((s.put n q).procs i).content k = (s.procs i).content k :=
  (Function.forall_update_iff s.procs fun i q => q.content k = (s.procs i).content k).mpr
    ⟨same, fun _ _ => rfl⟩ i

theorem Proc.content_set {ttl : Int} (ok : (p.store.set now k v ttl).2 = none) :
    (p.set now k v ttl).content k = some v := by
  obtain ⟨e, found, eq⟩ := Cache.Store.lookup_set_self ok
  rw [content, Proc.set, found, Option.map_some, eq]

theorem Proc.content_delete (sound : p.store.Sound) (now : Int) (k : String) :
    (p.delete now k).content k = none := by
  rw [content, Proc.delete, Cache.Store.lookup_delete sound, if_pos rfl]
  rfl

/-- The call has returned an error. -/
def Call.Failed (call : Call) : Prop :=
  ∃ err, call.phase = .returned (.error err)

def Sys.Failed (s : Sys) (c : Nat) : Prop :=
  ∃ call : Call, s.calls[c]? = some call ∧ call.Failed

/-- The step is one of `WriteSet` calls of the key at `node`, whose store accepts the
values. -/
def Sets (node k : String) (s : Sys) (x : Int × Action) : Prop :=
  match x.2 with
  | .start i (.set key value ttl) =>
      i = node ∧ key = k ∧ ((s.procs node).store.set x.1 key value ttl).2 = none
  | .start _ _ | .cleanupExpired _ => False
  | _ => True

instance (node k : String) (s : Sys) (x : Int × Action) : Decidable (Sets node k s x) :=
  match x with
  | (now, .start i (.set key value ttl)) => inferInstanceAs (Decidable
      (i = node ∧ key = k ∧ ((s.procs node).store.set now key value ttl).2 = none))
  | (_, .start _ (.delete _)) | (_, .start _ (.read _)) | (_, .cleanupExpired _) =>
      inferInstanceAs (Decidable False)
  | (_, .advance _) | (_, .cancel _) | (_, .deliver _) | (_, .lose _) | (_, .fail _ _ _)
  | (_, .getLocal _) | (_, .mark _ _ _) => inferInstanceAs (Decidable True)

theorem Started.of_primary {self : String} {value : List UInt8} {ttl : Int}
    (h : Started w now p self (.set k value ttl) p' call) (primary : w.isPrimary self k = true)
    (ok : (p.store.set now k value ttl).2 = none) :
    p' = p.set now k value ttl ∧ ¬ call.Failed := by
  obtain ⟨rfl, rfl | ⟨nodes, rfl⟩⟩ := h.set_cases primary ok
  · exact ⟨rfl, nofun⟩
  · exact ⟨rfl, nofun⟩

/-- A step of a write leaves the local store alone, or it is the last one of a write that
fails. -/
theorem Call.Moves.rollback {out : List (String × Request)} {ttl : Int}
    (op : call.op = .set k v ttl) (m : call.Moves w now p c a p' call' out) :
    (p'.store = p.store ∧ (call'.Failed ↔ call.Failed)) ∨
      (¬ call.Failed ∧ call'.Failed ∧ p' = p.delete now k) := by
  have running {phase : Phase} (here : call.phase = phase) (going : ∀ r, phase ≠ .returned r) :
      ¬ call.Failed := by
    rintro ⟨err, returned⟩
    exact going _ (here.symm.trans returned)
  have read {key : String} (h : call.op = .read key) : False := by cases op.symm.trans h
  cases m with
  | skip phase | contact phase | undo phase =>
      exact .inl ⟨rfl, iff_of_false nofun (running phase nofun)⟩
  | stored _ phase | short _ phase =>
      exact .inl ⟨rfl, iff_of_false nofun (running phase nofun)⟩
  | undoneSet set phase =>
      obtain ⟨rfl, _⟩ := Op.set.inj (set.symm.trans op)
      exact .inr ⟨running phase nofun, ⟨_, rfl⟩, rfl⟩
  | cancelSet set phase =>
      obtain ⟨rfl, _⟩ := Op.set.inj (set.symm.trans op)
      exact .inr ⟨running phase nofun, ⟨_, rfl⟩, rfl⟩
  | answer | refuse | settle => exact .inl ⟨rfl, .rfl⟩
  | undone other => exact absurd op (other _ _ _)
  | deleted del => cases op.symm.trans del
  | answered h | exhausted h | cancelRead h | fetched h | getLocal h => exact (read h).elim

/-- Every call is a `WriteSet` of the key at the node. -/
def Sys.Setting (node k : String) (s : Sys) : Prop :=
  ∀ (c : Nat) (call : Call), s.calls[c]? = some call →
    call.node = node ∧ ∃ v ttl, call.op = .set k v ttl

theorem Sys.Setting.step (h : s.Setting node k) (sets : Sets node k s (now, a))
    (step : Step w now s a s') : s'.Setting node k := by
  intro c call there
  rcases step.call_cases there with same | ⟨old, q, out, was, moves, _⟩ |
    ⟨_, n, op, q, rfl, started, _⟩
  · exact h c call same
  · rw [moves.same.node, moves.same.op]
    exact h c old was
  · rw [started.same.1, started.same.2.1]
    cases op with
    | set key value ttl =>
        obtain ⟨rfl, rfl, _⟩ := sets
        exact ⟨rfl, value, ttl, rfl⟩
    | delete | read => exact sets.elim

theorem Sys.failed_set (found : s.calls[c]? = some call) (d : Nat) {procs : String → Proc}
    {net : List Msg} : Sys.Failed ⟨procs, s.calls.set c call', net⟩ d ↔
      if c = d then call'.Failed else s.Failed d := by
  unfold Sys.Failed
  dsimp only
  rw [getElem?_set_found found]
  split
  · simp
  · rfl

/-- What one step does to the store of the node: the `Set` of a call that starts, the
`Delete` of a call that fails, or nothing. -/
inductive Writes (node k : String) (s s' : Sys) : Prop
  | set {v : List UInt8} {ttl : Int} {call : Call} (calls : s'.calls = s.calls ++ [call])
      (op : call.op = .set k v ttl) (goes : ¬ call.Failed)
      (content : (s'.procs node).content k = some v)
  | delete {c : Nat} (length : s'.calls.length = s.calls.length) (goes : ¬ s.Failed c)
      (failed : s'.Failed c) (others : ∀ d, s.Failed d → s'.Failed d)
      (content : (s'.procs node).content k = none)
  | nothing (length : s'.calls.length = s.calls.length)
      (failed : ∀ c, s'.Failed c ↔ s.Failed c)
      (content : (s'.procs node).content k = (s.procs node).content k)

theorem Step.writes (step : Step w now s a s') (sets : Sets node k s (now, a))
    (reg : s.Regular w) (ours : s.Setting node k) (primary : w.isPrimary node k = true) :
    Writes node k s s' := by
  cases step with
  | @start i op q call started =>
      cases op with
      | set key value ttl =>
          obtain ⟨rfl, rfl, ok⟩ := sets
          obtain ⟨rfl, goes⟩ := started.of_primary primary ok
          refine .set rfl started.same.2.1 goes ?_
          change (Function.update s.procs i _ i).content key = some value
          rw [Function.update_self]
          exact Proc.content_set ok
      | delete | read => exact sets.elim
  | @move _ d mover mover' q out here moves sent =>
      obtain ⟨rfl, value, ttl, op⟩ := ours d mover here
      have length : (s.calls.set d mover').length = s.calls.length := List.length_set
      rcases moves.rollback op with ⟨same, iff⟩ | ⟨goes, failed, rfl⟩
      · refine .nothing length (fun e => ?_) ?_
        · rw [Sys.failed_set here]
          split
          · rename_i same
            subst same
            simpa [Sys.Failed, here] using iff
          · rfl
        · change (Function.update s.procs mover.node q mover.node).content k = _
          rw [Function.update_self]
          exact Proc.content_congr same
      · refine .delete (c := d) length ?_ ?_ (fun e was => ?_) ?_
        · simpa [Sys.Failed, here] using goes
        · rw [Sys.failed_set here, if_pos rfl]
          exact failed
        · rw [Sys.failed_set here]
          split
          · exact failed
          · exact was
        · change (Function.update s.procs mover.node _ mover.node).content k = none
          rw [Function.update_self]
          exact Proc.content_delete (reg.sound _) now k
  | @handle d peer req sent =>
      obtain ⟨call, found, _, other, _⟩ := reg.msgs _ sent
      rw [(ours _ call found).1] at other
      refine .nothing rfl (fun _ => .rfl) (congrArg (Proc.content · k) ?_)
      exact Function.update_of_ne other.symm _ _
  | late | lose => exact .nothing rfl (fun _ => .rfl) rfl
  | mark =>
      refine .nothing rfl (fun _ => .rfl) (Sys.content_put ?_ node)
      exact Proc.content_congr rfl
  | cleanupExpired => exact sets.elim

/-- Every call that has failed had failed before call `c` started. -/
def Settled (past : List (Sys × Int × Action)) (s : Sys) (c : Nat) : Prop :=
  ∀ d, s.Failed d → ∃ x ∈ past, x.1.calls.length ≤ c ∧ x.1.Failed d

/-- The local store has the value of the last call, or nothing. -/
structure Recorded (node k : String) (past : List (Sys × Int × Action)) (s : Sys) : Prop where
  failed : ∀ x ∈ past, ∀ d, x.1.Failed d → s.Failed d
  kept : ∀ (c : Nat) (call : Call) v ttl, s.calls.length = c + 1 → s.calls[c]? = some call →
    call.op = .set k v ttl → Settled past s c → (s.procs node).content k = some v
  lost : ∀ c, s.calls.length = c + 1 → ¬ Settled past s c → (s.procs node).content k = none

variable {past : List (Sys × Int × Action)}

theorem Settled.of_start (calls : s'.calls = s.calls ++ [call]) (goes : ¬ call.Failed)
    (x : Int × Action) : Settled ((s, x) :: past) s' s.calls.length := by
  rintro d ⟨other, there, failed⟩
  refine ⟨_, List.mem_cons_self, Nat.le_refl _, other, ?_, failed⟩
  rw [calls] at there
  by_cases old : d < s.calls.length
  · rwa [List.getElem?_append_left old] at there
  · rw [List.getElem?_append_right (Nat.le_of_not_lt old)] at there
    obtain ⟨bound, rfl⟩ := List.getElem?_eq_some_iff.mp there
    rw [List.getElem_singleton] at failed
    exact absurd failed goes

/-- The state before the step has too many calls to count. -/
theorem settled_cons {n : Nat} (length : s.calls.length = n + 1)
    (failed : ∀ d, s'.Failed d ↔ s.Failed d) (x : Int × Action) :
    Settled ((s, x) :: past) s' n ↔ Settled past s n := by
  have more (d : Nat) : (∃ y ∈ (s, x) :: past, y.1.calls.length ≤ n ∧ y.1.Failed d) ↔
      ∃ y ∈ past, y.1.calls.length ≤ n ∧ y.1.Failed d := by
    rw [List.exists_mem_cons_iff, or_iff_right]
    rintro ⟨few, _⟩
    rw [length] at few
    exact Nat.not_succ_le_self n few
  simp only [Settled, more, failed]

theorem Recorded.step (h : Recorded node k past s) (writes : Writes node k s s')
    (same : ∀ (c : Nat) (call : Call), s.calls[c]? = some call →
      ∃ call' : Call, s'.calls[c]? = some call' ∧ call'.op = call.op) (x : Int × Action) :
    Recorded node k ((s, x) :: past) s' := by
  cases writes with
  | @set v ttl call calls op goes content =>
      have failed (d : Nat) (was : s.Failed d) : s'.Failed d := by
        obtain ⟨other, found, failed⟩ := was
        obtain ⟨bound, _⟩ := List.getElem?_eq_some_iff.mp found
        refine ⟨other, ?_, failed⟩
        rw [calls, List.getElem?_append_left bound]
        exact found
      have last {n : Nat} (length : s'.calls.length = n + 1) : n = s.calls.length := by
        rw [calls, List.length_append, List.length_singleton] at length
        omega
      refine ⟨List.forall_mem_cons.mpr ⟨failed, fun y mem d was => failed d (h.failed y mem d was)⟩,
        fun n call' v' ttl' length found op' _ => ?_, fun n length unsettled => ?_⟩
      · obtain rfl := last length
        rw [calls, List.getElem?_concat_length] at found
        obtain rfl := Option.some.inj found
        obtain ⟨_, rfl, _⟩ := Op.set.inj (op.symm.trans op')
        exact content
      · obtain rfl := last length
        exact absurd (.of_start calls goes x) unsettled
  | @delete c length goes failed others content =>
      refine ⟨List.forall_mem_cons.mpr ⟨others, fun y mem d was => others d (h.failed y mem d was)⟩,
        fun n call v ttl long found op settled => ?_, fun _ _ _ => content⟩
      -- The call that fails here had not failed when the last one started.
      obtain ⟨y, mem, few, was⟩ := settled c failed
      cases mem with
      | head => exact absurd was goes
      | tail _ mem => exact absurd (h.failed y mem c was) goes
  | nothing length failed content =>
      refine ⟨List.forall_mem_cons.mpr ⟨fun d was => (failed d).mpr was,
        fun y mem d was => (failed d).mpr (h.failed y mem d was)⟩,
        fun n call v ttl long found op settled => ?_, fun n long unsettled => ?_⟩
      · obtain ⟨old, was⟩ : ∃ old, s.calls[n]? = some old :=
          ⟨_, List.getElem?_eq_getElem (by omega)⟩
        obtain ⟨call', there, same⟩ := same n old was
        obtain rfl := Option.some.inj (there.symm.trans found)
        rw [settled_cons (length.symm.trans long) failed] at settled
        rw [content]
        exact h.kept n old v ttl (length.symm.trans long) was (same.symm.trans op) settled
      · rw [content]
        rw [settled_cons (length.symm.trans long) failed] at unsettled
        exact h.lost n (length.symm.trans long) unsettled

theorem recorded_run {u : Sys} (initial : u.Initial) (primary : w.isPrimary node k = true)
    (run : RunFrom w u past s) (sets : Meets (Sets node k) past) : Recorded node k past s := by
  have inv := Run.induct_from
    (I := fun past s => s.Regular w ∧ s.Setting node k ∧ Recorded node k past s)
    ⟨initial.regular, ?_, ?_⟩ ?_ run sets
  · exact inv.2.2
  · intro c call found
    rw [initial.calls] at found
    cases found
  · refine ⟨nofun, fun c call v ttl length => ?_, fun c length => ?_⟩
    · cases length.symm.trans (congrArg List.length initial.calls)
    · cases length.symm.trans (congrArg List.length initial.calls)
  · rintro past s x s' ⟨reg, ours, recorded⟩ sets exec
    have step := exec_step exec
    refine ⟨reg.step step, ours.step sets step,
      recorded.step (step.writes sets reg ours primary) (fun c call found => ?_) x⟩
    obtain ⟨call', there, same⟩ := step.persists found
    exact ⟨call', there, same.op⟩

/-- Of two `WriteSet` calls of one key at its primary, let one be acknowledged and the
other fail. The store still has the acknowledged value exactly if the failed call had
returned when the acknowledged one started. -/
theorem acknowledged_write_kept {w : Setup} {node key : String} {u s : Sys}
    {past : List (Sys × Int × Action)} {a b : Nat} {v v' : List UInt8} {ttl ttl' : Int}
    {err : Error} (initial : u.Initial) (primary : w.isPrimary node key = true)
    (run : RunFrom w u past s) (sets : Meets (Sets node key) past) (two : s.calls.length = 2)
    (apart : a ≠ b) (acked : s.Returned a node (.set key v ttl) .stored)
    (failed : s.Returned b node (.set key v' ttl') (.error err)) :
    (s.procs node).content key = some v ↔
      ∃ x ∈ past, x.1.calls.length ≤ a ∧ x.1.Failed b := by
  have recorded := recorded_run initial primary run sets
  obtain ⟨winner, won, _, op, ok⟩ := acked
  obtain ⟨loser, lost, _, _, bad⟩ := failed
  have failing : s.Failed b := ⟨loser, lost, err, bad⟩
  obtain ⟨boundA, _⟩ := List.getElem?_eq_some_iff.mp won
  obtain ⟨boundB, _⟩ := List.getElem?_eq_some_iff.mp lost
  rcases (by omega : (a = 1 ∧ b = 0) ∨ (a = 0 ∧ b = 1)) with ⟨rfl, rfl⟩ | ⟨rfl, rfl⟩
  · constructor
    · intro kept
      by_contra none
      have gone := recorded.lost 1 two fun settled => none (settled 0 failing)
      cases kept.symm.trans gone
    · intro before
      refine recorded.kept 1 winner v ttl two won op fun d bad => ?_
      obtain ⟨call, found, err, phase⟩ := bad
      obtain ⟨bound, _⟩ := List.getElem?_eq_some_iff.mp found
      rcases (by omega : d = 0 ∨ d = 1) with rfl | rfl
      · exact before
      · obtain rfl := Option.some.inj (won.symm.trans found)
        cases ok.symm.trans phase
  -- The failed call has started last, so it has taken the value away.
  · have none : ¬ ∃ x ∈ past, x.1.calls.length ≤ 1 ∧ x.1.Failed 1 := by
      rintro ⟨x, _, few, call, found, _⟩
      obtain ⟨bound, _⟩ := List.getElem?_eq_some_iff.mp found
      omega
    have gone := recorded.lost 1 two fun settled => none (settled 1 failing)
    refine iff_of_false ?_ ?_
    · rw [gone]
      nofun
    · rintro ⟨x, mem, few, failed⟩
      exact none ⟨x, mem, by omega, failed⟩

/-- Call `c` at `a` cannot reach its peers and fails. -/
def unreachable (c : Nat) (v : List UInt8) : List (Int × Action) :=
  [.advance c, .advance c, .advance c, .fail c "b" (.replSet "k" v 0),
    .fail c "c" (.replSet "k" v 0), .advance c, .advance c].map fun a => (0, a)

/-- The second call starts when the first one has failed and the peers are back. -/
theorem acknowledged_write_kept_after : ∃ (past : List (Sys × Int × Action)) (s : Sys),
    RunFrom sample (.empty fun _ => 0) past s ∧
      s.Returned 0 "a" (.set "k" [2] 0) (.error (.quorumNotMet 0 1)) ∧
      s.Returned 1 "a" (.set "k" [1] 0) .stored ∧ (s.procs "a").content "k" = some [1] := by
  obtain ⟨past, s, run, seen⟩ := RunFrom.of_steps sample (.empty fun _ => 0)
    ((0, .start "a" (.set "k" [2] 0)) :: unreachable 0 [2] ++
      (0, .mark "a" "b" true) :: (0, .mark "a" "c" true) ::
      (0, .start "a" (.set "k" [1] 0)) :: sampleAcks 1 "k" [1])
    (fun past s => decide (Meets (Sets "a" "k") past ∧ s.calls.length = 2 ∧
      s.Returned 1 "a" (.set "k" [1] 0) .stored ∧
      s.Returned 0 "a" (.set "k" [2] 0) (.error (.quorumNotMet 0 1)) ∧
      ∃ x ∈ past, x.1.calls.length ≤ 1 ∧
        x.1.Returned 0 "a" (.set "k" [2] 0) (.error (.quorumNotMet 0 1)))) (by decide)
  obtain ⟨sets, two, acked, failed, x, mem, few, call, found, _, _, bad⟩ := of_decide_eq_true seen
  exact ⟨past, s, run, failed, acked, (acknowledged_write_kept (Sys.empty_initial _) (by decide)
    run sets two (by decide) acked failed).mpr ⟨x, mem, few, call, found, _, bad⟩⟩

/-- The first call fails when the second one has been acknowledged. -/
theorem acknowledged_write_lost : ∃ (past : List (Sys × Int × Action)) (s : Sys),
    Sys.Initial (.empty fun _ => 0) ∧ sample.isPrimary "a" "k" = true ∧
      RunFrom sample (.empty fun _ => 0) past s ∧ Meets (Sets "a" "k") past ∧
      s.calls.length = 2 ∧ s.Returned 1 "a" (.set "k" [1] 0) .stored ∧
      s.Returned 0 "a" (.set "k" [2] 0) (.error (.quorumNotMet 0 1)) ∧
      (s.procs "a").content "k" = none := by
  obtain ⟨past, s, run, seen⟩ := RunFrom.of_steps sample (.empty fun _ => 0)
    ((0, .start "a" (.set "k" [2] 0)) :: (0, .start "a" (.set "k" [1] 0)) ::
      sampleAcks 1 "k" [1] ++ unreachable 0 [2])
    (fun past s => decide (Meets (Sets "a" "k") past ∧ s.calls.length = 2 ∧
      s.Returned 1 "a" (.set "k" [1] 0) .stored ∧
      s.Returned 0 "a" (.set "k" [2] 0) (.error (.quorumNotMet 0 1)) ∧
      (s.procs "a").content "k" = none)) (by decide)
  exact ⟨past, s, Sys.empty_initial _, by decide, run, of_decide_eq_true seen⟩

end DistributedCache.Replication
