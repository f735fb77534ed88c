import DistributedCache.Replication.InStep

/-!
Orderly steps keep the nodes in step with the map. A key stays settled until a write of it
starts, and settles again when the write returns.
-/
namespace DistributedCache.Replication

open Transition

variable {w : Setup} {now : Int} {s s' u : Sys} {a : Action} {k node : String} {c : Nat}
  {call call' : Call} {p p' : Proc} {past : List (Sys × Int × Action)}

section Keys

variable {m₀ : Contents} {x : Option (List UInt8)} {m : Nat}

/-- When no call of the key runs, it settles with what the replica set has. -/
theorem Sys.Settled.of_returned (reg : s.Regular w)
    (returned : ∀ (d : Nat) (call : Call), s.calls[d]? = some call → call.op.key = k →
      call.hasReturned = true)
    (holds : ∀ i ∈ w.owners k, (s.procs i).Holds k x) : s.Settled w k x s.calls.length where
  bound := Nat.le_refl _
  early := fun d call found key goes => by
    cases goes.symm.trans (returned d call found key)
  quiet := fun d call late found => by
    rw [List.getElem?_eq_none late] at found
    cases found
  holds := holds
  reading := .init reg _
  absent := fun d call found op goes => by
    cases goes.symm.trans (returned d call found (by rw [op]; rfl))

theorem Op.key_of_writes {op : Op} (writes : op.writes k = true) :
    op.key = k ∧ op.isRead = false := by
  cases op with
  | set key value ttl | delete key => exact ⟨of_decide_eq_true writes, rfl⟩
  | read key => cases writes

theorem Sys.InStep.still (h : s.InStep w m₀) (settled : s.Settled w k x m) : s.Still k := by
  have ended (d : Nat) (call : Call) (found : s.calls[d]? = some call)
      (writes : call.op.writes k = true) : call.Over := by
    refine (h.forward d call found).isOver (Bool.not_eq_false _ ▸ fun goes => ?_)
    have late := settled.early d call found (Op.key_of_writes writes).1 goes
    cases (settled.quiet d call late found).symm.trans writes
  refine ⟨ended, fun d peer req sent => Bool.eq_false_iff.mpr fun writes => ?_⟩
  obtain ⟨call, found, _, _, ours⟩ := h.regular.msgs _ sent
  have idle := (ended d call found (Request.writes_of_call call ours writes)).2
  have mem := (h.matched d call found).subset (mem_trips sent)
  rw [idle] at mem
  cases mem

/-- Where no write of the key runs, the stores keep what they have. -/
theorem Sys.InStep.holds_step (h : s.InStep w m₀) (still : s.Still k)
    (quiet : NoWrite k s (now, a)) (step : Step w now s a s') {i : String}
    (holds : (s.procs i).Holds k x) : (s'.procs i).Holds k x := by
  have alone : s.Alone k s.calls.length :=
    ⟨fun d call found writes => .inr (still.calls d call found writes),
      fun d peer req sent writes => by cases (still.net d peer req sent).symm.trans writes⟩
  rcases alone.store_cases quiet step i with acts | ⟨call, _, _, _, found, _⟩ | ⟨req, sent, _⟩
  · exact holds.acts (h.regular.sound i) (h.unlimited i) acts
  · rw [List.getElem?_eq_none (Nat.le_refl _)] at found
    cases found
  · exact absurd (h.regular.call_lt sent) (Nat.lt_irrefl _)

/-- A running read that does not poll has found nothing at its own node. -/
theorem Started.missing (h : Started w now p node (.read k) p' call) (holds : p.Holds k x)
    (goes : call.hasReturned = false) (polls : call.polls w = false) : x = none := by
  cases h with
  | readPeers _ _ missing => exact (holds.get now).symm.trans missing
  | readQuorum mode =>
      cases polls.symm.trans (Call.polls_of_mode rfl mode)
  | refused | lookupFailed | readPrimary | readAny => cases goes

theorem Sys.InStep.settled_step (h : s.InStep w m₀) (settled : s.Settled w k x m)
    (orderly : Orderly w s (now, a)) (quiet : NoWrite k s (now, a))
    (step : Step w now s a s') : s'.Settled w k x m where
  bound := settled.bound.trans step.length_le
  early := fun d call there key goes => by
    rcases step.call_cases there with same | ⟨old, _, _, was, moves, _⟩ | ⟨last, _⟩
    · exact settled.early d call same key goes
    · rw [moves.same.op] at key
      exact settled.early d old was key (moves.goes (h.forward d old was))
    · exact last ▸ settled.bound
  quiet := fun d call late there => by
    rcases step.call_cases there with same | ⟨old, _, _, was, moves, _⟩ |
      ⟨_, _, _, _, rfl, started, _⟩
    · exact settled.quiet d call late same
    · rw [moves.same.op]
      exact settled.quiet d old late was
    · rw [started.same.2.1]
      exact quiet
  holds := fun i member => h.holds_step (h.still settled) quiet step (settled.holds i member)
  reading := settled.reading.step h.regular step fun i member => by
    rw [(settled.holds i member).get now]
  absent := fun d call there op goes polls => by
    rcases step.call_cases there with same | ⟨old, _, _, was, moves, _⟩ |
      ⟨_, node, op', _, rfl, started, _⟩
    · exact settled.absent d call same op goes polls
    · rw [moves.same.polls] at polls
      exact settled.absent d old was (moves.same.op.symm.trans op)
        (moves.goes (h.forward d old was)) polls
    · obtain rfl : op' = .read k := started.same.2.1.symm.trans op
      have routed : w.Routed node (.read k) := orderly.2.1
      exact started.missing (settled.holds node routed.member) goes polls

/-- While a write of the key runs, no other call of it starts. -/
theorem Sys.Busy.unstarted (busy : s.Busy k c) (found : s.calls[c]? = some call)
    (writes : call.op.writes k = true) (orderly : Orderly w s (now, a)) {op : Op}
    (act : a = .start node op) : op.key ≠ k := by
  subst act
  intro same
  have key := Op.key_of_writes writes
  rcases orderly.2.2 call (List.mem_of_getElem? found) (key.1.trans same.symm) with
    returned | ⟨read, _⟩
  · cases (busy.goes call found).symm.trans returned
  · cases key.2.symm.trans read

theorem Sys.InStep.others_step (h : s.InStep w m₀) (busy : s.Busy k c)
    (free : ∀ node op, a = .start node op → op.key ≠ k) (step : Step w now s a s') {d : Nat}
    (there : s'.calls[d]? = some call) (key : call.op.key = k)
    (goes : call.hasReturned = false) : d = c := by
  rcases step.call_cases there with same | ⟨old, _, _, was, moves, _⟩ |
    ⟨_, node, op, _, act, started, _⟩
  · exact busy.others d call same key goes
  · rw [moves.same.op] at key
    exact busy.others d old was key (moves.goes (h.forward d old was))
  · rw [started.same.2.1] at key
    exact absurd key (free node op act)

/-- A step by which the call for which the key waits returns is a step of the call. -/
theorem Sys.Busy.moved (busy : s.Busy k c) (found : s.calls[c]? = some call)
    (step : Step w now s a s') (there : s'.calls[c]? = some call')
    (returned : call'.hasReturned = true) :
    ∃ out, call.Moves w now (s.procs call.node) c a (s'.procs call.node) call' out ∧
      ∀ msg, a = .deliver msg → msg ∈ s.net := by
  rcases step.call_cases there with same | ⟨old, q, out, was, moves, eq, sent⟩ | ⟨last, _⟩
  · cases (busy.goes call' same).symm.trans returned
  · obtain rfl := Option.some.inj (was.symm.trans found)
    exact ⟨out, eq ▸ moves, sent⟩
  · rw [List.getElem?_eq_none (Nat.le_of_eq last.symm)] at found
    cases found

/-- A write that has returned with its acknowledgements leaves the key settled. -/
theorem Sys.Complete.settles {result : Result} (complete : s.Complete w 0) (reg : s.Regular w)
    (ample : w.Ample) (found : s.calls[c]? = some call) (writes : call.op.writes k = true)
    (others : ∀ (d : Nat) (call : Call), s.calls[d]? = some call → call.op.key = k →
      call.hasReturned = false → d = c)
    (done : call.phase = .returned result) (enough : w.required ≤ call.results.length)
    (own : (s.procs call.node).Holds k x)
    (acked : ∀ r ∈ call.results, (s.procs r.1).Holds k x) :
    s.Settled w k x s.calls.length := by
  obtain ⟨key, unread⟩ := Op.key_of_writes writes
  refine .of_returned reg (fun d other there key' => ?_) fun i member => ?_
  · refine Bool.not_eq_false _ ▸ fun goes => ?_
    obtain rfl := others d other there key' goes
    obtain rfl := Option.some.inj (there.symm.trans found)
    cases goes.symm.trans (Call.hasReturned_of done)
  · rw [← key] at member
    have write (key : String) (read : call.op = .read key) : False := by
      rw [read] at unread
      cases unread
    cases complete.reached (Nat.zero_le c) found write done ample.needs enough member with
    | head => exact own
    | tail _ mem =>
        obtain ⟨r, heard, rfl⟩ := List.mem_map.mp mem
        exact acked r heard

section Write

variable (h : s.InStep w m₀) (ample : w.Ample) (orderly : Orderly w s (now, a))
  (step : Step w now s a s')
include h ample orderly step

/-- The end of the write for which a key waits. -/
theorem Sys.InStep.returned_step (busy : s.Busy k c) (found : s.calls[c]? = some call)
    (there : s'.calls[c]? = some call') (returned : call'.hasReturned = true) :
    call'.phase = .returned (call.op.onMap (mapAfter m₀ (s.ops.take c))).2 ∧
      s'.Complete w 0 := by
  obtain ⟨out, moves, sent⟩ := busy.moved found step there returned
  obtain ⟨result, done⟩ := call'.returned_of returned
  obtain rfl := h.result_move ample orderly.1 found moves sent done
  exact ⟨done, h.complete.step h.regular orderly.1 (h.unlimited.accepts h.regular _ _) step⟩

variable (quiet : NoWrite k s (now, a))
include quiet

theorem Sys.InStep.setting_step {v : List UInt8} (value : mapAfter m₀ s.ops k = some v)
    (writing : s.Writing node k v c) (busy : s.Busy k c) : s'.Keeping w m₀ k := by
  have writing' := writing.step h.regular h.unlimited quiet step
  have value' : mapAfter m₀ s'.ops k = some v := (step.mapAfter m₀ quiet).trans value
  obtain ⟨call, found, here, op, _⟩ := writing.caller
  obtain ⟨call', there, same⟩ := step.persists found
  have writes : call.op.writes k = true := by
    rw [op]
    exact decide_eq_true rfl
  have others (d : Nat) (other : Call) (there' : s'.calls[d]? = some other)
      (key : other.op.key = k) (goes : other.hasReturned = false) : d = c :=
    h.others_step busy (fun _ _ act => busy.unstarted found writes orderly act) step there' key goes
  cases returned : call'.hasReturned with
  | false =>
      refine .setting value' writing' ⟨fun other there' => ?_, others⟩
      obtain rfl := Option.some.inj (there'.symm.trans there)
      exact returned
  | true =>
      obtain ⟨done, complete⟩ := h.returned_step ample orderly step busy found there returned
      have stored : call'.phase = .returned .stored := by
        rw [done, op]
        rfl
      have sure : call'.Sure := .inr (.inl stored)
      have regular := h.regular.step step
      have acked := (regular.calls c call' there).stored (by simp [same.op, op]) stored
      rw [← same.op] at writes
      refine .settled (complete.settles regular ample there writes others done acked.1 ?_ ?_)
      · rw [value', same.node, here]
        exact writing'.own call' there sure
      · rw [value']
        exact writing'.results call' there sure

omit ample in
/-- Until it returns, a call that deletes leaves its own store alone. -/
theorem Sys.InStep.own_step {before : String → Proc} {b : List UInt8}
    (deleting : s.Deleting before node k c) (own : (s.procs node).Keeps k b)
    (there : s'.calls[c]? = some call') (goes : call'.hasReturned = false) :
    (s'.procs node).Keeps k b := by
  obtain ⟨call, found, here, op, _⟩ := deleting.caller
  have sound := h.regular.sound node
  have limit := h.unlimited node
  rcases deleting.store_cases quiet step node with acts |
    ⟨mover, q, mover', out, was, _, moves, eq, after⟩ | ⟨req, sent, _⟩
  · exact own.acts sound limit acts
  · obtain rfl := Option.some.inj (was.symm.trans found)
    obtain rfl := Option.some.inj (after.symm.trans there)
    rw [eq]
    cases moves with
    | skip | contact | short | undo | answer | refuse | settle => exact own
    | stored | deleted | answered | exhausted | undoneSet | undone => cases goes
    | cancelSet | cancelRead | fetched => cases goes
    | getLocal read => cases op.symm.trans read
  · obtain ⟨call', found', _, other, _⟩ := h.regular.msgs _ sent
    obtain rfl := Option.some.inj (found'.symm.trans found)
    exact absurd here.symm other

theorem Sys.InStep.deleting_step {before : String → Proc} {b : List UInt8}
    (value : mapAfter m₀ s.ops k = none) (was : mapAfter m₀ (s.ops.take c) k = some b)
    (deleting : s.Deleting before node k c) (own : (s.procs node).Keeps k b)
    (backed : ∀ call : Call, s.calls[c]? = some call → call.Backed w) (busy : s.Busy k c) :
    s'.Keeping w m₀ k := by
  have deleting' := deleting.step h.regular quiet step
  have value' : mapAfter m₀ s'.ops k = none := (step.mapAfter m₀ quiet).trans value
  obtain ⟨call, found, here, op, _⟩ := deleting.caller
  obtain ⟨call', there, same⟩ := step.persists found
  have writes : call.op.writes k = true := by
    rw [op]
    exact decide_eq_true rfl
  have others (d : Nat) (other : Call) (there' : s'.calls[d]? = some other)
      (key : other.op.key = k) (goes : other.hasReturned = false) : d = c :=
    h.others_step busy (fun _ _ act => busy.unstarted found writes orderly act) step there' key goes
  have backed' : call'.Backed w := by
    rcases step.on_call found there with rfl | ⟨_, _, moves, _⟩
    · exact backed call' found
    · exact moves.backed op (backed call found)
  cases returned : call'.hasReturned with
  | false =>
      have kept := h.own_step orderly step quiet deleting own there returned
      refine .deleting value' ?_ deleting' kept (fun other there' => ?_)
        ⟨fun other there' => ?_, others⟩
      · rw [step.take_ops (List.getElem?_eq_some_iff.mp found).1.le]
        exact was
      · obtain rfl := Option.some.inj (there'.symm.trans there)
        exact backed'
      · obtain rfl := Option.some.inj (there'.symm.trans there)
        exact returned
  | true =>
      obtain ⟨done, complete⟩ := h.returned_step ample orderly step busy found there returned
      have deleted : ∃ ok, call'.phase = .returned (.deleted ok) := by
        rw [op] at done
        exact ⟨_, done⟩
      have regular := h.regular.step step
      rw [← same.op] at writes
      refine .settled (complete.settles regular ample there writes others done
        (backed' deleted) ?_ ?_)
      · rw [value', same.node, here]
        exact deleting'.own call' there deleted
      · rw [value']
        exact deleting'.results call' there (.inr (.inr deleted))

end Write

section Start

variable {op : Op} (step : Step w now s (.start node op) s')
include step

theorem Step.begun : ∃ p call, Started w now (s.procs node) node op p call ∧
    s'.calls = s.calls ++ [call] ∧ s'.ops = s.ops ++ [op] ∧
      s'.procs = Function.update s.procs node p := by
  obtain ⟨p, call, started, rfl⟩ := step.started
  refine ⟨p, call, started, rfl, ?_, rfl⟩
  rw [← started.same.2.1]
  exact List.map_append

/-- The call that has just started is the only one of its key that can run. -/
theorem Step.others_begun (free : ∀ call ∈ s.calls, call.op.key = k → call.hasReturned = true)
    {d : Nat} (there : s'.calls[d]? = some call) (key : call.op.key = k)
    (goes : call.hasReturned = false) : d = s.calls.length := by
  obtain ⟨_, begun, _, calls, _⟩ := step.begun
  rw [calls] at there
  by_cases old : d < s.calls.length
  · rw [List.getElem?_append_left old] at there
    cases goes.symm.trans (free call (List.mem_of_getElem? there) key)
  · have bound := (List.getElem?_eq_some_iff.mp there).1
    rw [List.length_append, List.length_singleton] at bound
    omega

end Start

section Write

variable (h : s.InStep w m₀) (ample : w.Ample)
  (free : ∀ call ∈ s.calls, call.op.key = k → call.hasReturned = true)
  (primary : w.isPrimary node k = true)
include h ample free primary

theorem Sys.InStep.set_start {v : List UInt8} (still : s.Still k)
    (step : Step w now s (.start node (.set k v 0)) s') : s'.Keeping w m₀ k := by
  have routed : w.Routed node (.set k v 0) := ⟨primary, rfl⟩
  obtain ⟨p, call, started, calls, ops, _⟩ := step.begun
  have value : mapAfter m₀ s'.ops k = some v := by
    rw [ops, mapAfter_concat]
    exact Function.update_self ..
  refine .setting value (still.writing h.regular h.unlimited step)
    ⟨fun other there => ?_, fun d other => step.others_begun free⟩
  rw [calls, List.getElem?_concat_length] at there
  obtain rfl := Option.some.inj there
  cases started with
  | set => rfl
  | refused why => exact (routed.not_refused why).elim
  | setFailed _ failed =>
      have fits := Cache.Store.set_unlimited (h.regular.sound node) (h.unlimited node) now k v 0
      cases fits.1.symm.trans failed
  | setAlone _ _ zero =>
      have := ample.needs
      omega
  | lookupFailed failed => exact absurd failed (Setup.replicaSet_ne_error routed.member _)

theorem Sys.InStep.delete_start {m : Nat} (settled : s.Settled w k (mapAfter m₀ s.ops k) m)
    (step : Step w now s (.start node (.delete k)) s') : s'.Keeping w m₀ k := by
  have routed : w.Routed node (.delete k) := primary
  have held := settled.holds node routed.member
  have got := held.get now
  have deleting := (h.still settled).deleting h.regular step
  obtain ⟨p, call, started, calls, ops, procs⟩ := step.begun
  have value : mapAfter m₀ s'.ops k = none := by
    rw [ops, mapAfter_concat]
    exact Function.update_self ..
  have last (other : Call) (there : s'.calls[s.calls.length]? = some other) : other = call := by
    rw [calls, List.getElem?_concat_length] at there
    exact (Option.some.inj there).symm
  cases started with
  | refused why => exact (routed.not_refused why).elim
  | lookupFailed failed => exact absurd failed (Setup.replicaSet_ne_error routed.member _)
  | deleteAlone _ _ zero =>
      have := ample.needs
      omega
  | deleteMissing _ missing =>
      -- The map has nothing either, and neither has the replica set.
      have none := got.symm.trans missing
      refine .settled (.of_returned (h.regular.step step) (fun d other there key => ?_) ?_)
      · refine Bool.not_eq_false _ ▸ fun goes => ?_
        obtain rfl := step.others_begun free there key goes
        obtain rfl := last other there
        cases goes
      · intro i member
        rw [value, ← none, procs]
        have held := settled.holds i member
        by_cases same : i = node
        · subst same
          rw [Function.update_self]
          exact held.acts (h.regular.sound i) (h.unlimited i) (.get _ k)
        · rw [Function.update_of_ne same]
          exact held
  | @delete _ existing nodes _ present needs owners =>
      have some := got.symm.trans present
      refine .deleting (b := existing) value ?_ deleting ?_ (fun other there => ?_)
        ⟨fun other there => ?_, fun d other => step.others_begun free⟩
      · rw [ops, List.take_left' (by simp [Sys.ops])]
        exact some
      · rw [procs, Function.update_self]
        rw [some] at held
        exact Proc.Keeps.acts held (h.regular.sound node) (h.unlimited node) (.get _ k)
      · obtain rfl := last other there
        rintro ⟨_, ⟨⟩⟩
      · obtain rfl := last other there
        rfl

end Write

/-- Where a key stands after a step. -/
theorem Sys.InStep.keys_step (h : s.InStep w m₀) (ample : w.Ample)
    (orderly : Orderly w s (now, a)) (step : Step w now s a s') (k : String) :
    s'.Keeping w m₀ k := by
  cases begins : a.begins k with
  | true =>
      unfold Action.begins at begins
      split at begins
      · rename_i node op
        obtain ⟨routed, free⟩ := orderly.2
        obtain ⟨rfl, write⟩ := Op.key_of_writes begins
        have free (call : Call) (mem : call ∈ s.calls) (key : call.op.key = op.key) :
            call.hasReturned = true :=
          (free call mem key).resolve_right fun reads => by cases write.symm.trans reads.2
        obtain ⟨m, settled⟩ := (h.keys op.key).of_free fun call mem key _ => free call mem key
        cases op with
        | set key v ttl =>
            obtain ⟨primary, rfl⟩ := routed
            exact h.set_start ample free primary (h.still settled) step
        | delete key => exact h.delete_start ample free routed settled step
        | read key => cases write
      · cases begins
  | false =>
      have quiet : NoWrite k s (now, a) := begins
      cases h.keys k with
      | settled settled =>
          have settled' := h.settled_step settled orderly quiet step
          rw [← step.mapAfter m₀ quiet] at settled'
          exact .settled settled'
      | setting value writing busy =>
          exact h.setting_step ample orderly step quiet value writing busy
      | deleting value was deleting own backed busy =>
          exact h.deleting_step ample orderly step quiet value was deleting own backed busy

theorem Sys.InStep.results_step {result : Result} (h : s.InStep w m₀) (ample : w.Ample)
    (orderly : Orderly w s (now, a)) (step : Step w now s a s')
    (there : s'.calls[c]? = some call) (done : call.phase = .returned result) :
    result = (call.op.onMap (mapAfter m₀ (s'.ops.take c))).2 := by
  rcases step.call_cases there with same | ⟨old, p, out, was, moves, _, sent⟩ |
    ⟨rfl, node, op, p, rfl, started, _⟩
  · rw [step.take_ops (List.getElem?_eq_some_iff.mp same).1.le]
    exact h.results c call result same done
  · rw [step.take_ops (List.getElem?_eq_some_iff.mp was).1.le, moves.same.op]
    exact h.result_move ample orderly.1 was moves sent done
  · have before : s.ops.take s.calls.length = s.ops := List.take_of_length_le (by simp [Sys.ops])
    obtain ⟨routed, free⟩ := orderly.2
    obtain ⟨m, settled⟩ := (h.keys op.key).of_free fun call mem key write =>
      (free call mem key).resolve_right fun reads => by cases write.symm.trans reads.1
    rw [step.take_ops (Nat.le_refl _), before, started.same.2.1]
    exact started.returns routed (h.regular.roomy h.unlimited node)
      (settled.holds node routed.member) done

theorem Sys.InStep.step (h : s.InStep w m₀) (ample : w.Ample) (orderly : Orderly w s (now, a))
    (step : Step w now s a s') : s'.InStep w m₀ where
  regular := h.regular.step step
  unlimited := h.unlimited.step step
  complete := h.complete.step h.regular orderly.1 (h.unlimited.accepts h.regular _ _) step
  carried := h.carried.step h.regular ample.ring orderly.1 step
  matched := h.matched.step h.regular orderly.1 step
  taken := fun c call there => by
    rcases step.call_cases there with same | ⟨old, _, _, was, moves, _⟩ |
      ⟨_, node, op, _, rfl, started, _⟩
    · exact h.taken c call same
    · rw [moves.same.node, moves.same.op]
      exact h.taken c old was
    · rw [started.same.1, started.same.2.1]
      exact orderly.2.1
  forward := fun c call there => by
    rcases step.call_cases there with same | ⟨old, _, _, was, moves, _, sent⟩ |
      ⟨_, _, _, _, _, started, _⟩
    · exact h.forward c call same
    · exact h.forward_move ample orderly.1 was moves sent
    · exact started.forward
  keys := h.keys_step ample orderly step
  results := fun _ _ _ there done => h.results_step ample orderly step there done

end Keys

/-- The replica set of every key has what the map has. -/
def Sys.Agrees (w : Setup) (m₀ : Contents) (s : Sys) : Prop :=
  ∀ key, ∀ i ∈ w.owners key, (s.procs i).Holds key (m₀ key)

theorem Sys.Initial.inStep {m₀ : Contents} (h : u.Initial) (free : u.Unlimited)
    (healthy : u.Healthy) (agrees : u.Agrees w m₀) : u.InStep w m₀ where
  regular := h.regular
  unlimited := free
  complete := by
    have complete := h.idle.complete (w := w) healthy
    rw [h.calls] at complete
    exact complete
  carried := by
    have carried := u.carried_new
    rw [h.calls] at carried
    exact carried
  matched := fun c call found => by simp [h.calls] at found
  taken := fun c call found => by simp [h.calls] at found
  forward := fun c call found => by simp [h.calls] at found
  keys := fun k => by
    have ops : u.ops = [] := by rw [Sys.ops, h.calls]; rfl
    refine .settled (.of_returned h.regular (fun d call found => by simp [h.calls] at found) ?_)
    rw [ops]
    exact agrees k
  results := fun c call result found => by simp [h.calls] at found

theorem Sys.InStep.run {m₀ : Contents} (h : u.InStep w m₀) (ample : w.Ample)
    (run : RunFrom w u past s) (orderly : Meets (Orderly w) past) : s.InStep w m₀ :=
  Run.invariant_from h (fun _ _ _ h orderly step => h.step ample orderly (exec_step step)) run
    orderly

end DistributedCache.Replication
