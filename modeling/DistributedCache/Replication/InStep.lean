import DistributedCache.Cluster.Ordering
import DistributedCache.Replication.Orderly
import DistributedCache.Replication.ReadYourWrite

/-!
The nodes and one map in step: what holds along an orderly run on unlimited stores. The
replica set of a key has what the map has, or a write is under way that will bring it there.
What a call returns is then what it would return on the map.
-/
namespace DistributedCache.Replication

open Transition

variable {w : Setup} {now : Int} {s s' u : Sys} {a : Action} {k node : String} {c : Nat}
  {call call' : Call} {p p' : Proc} {past : List (Sys × Int × Action)}

/-- Writes wait for somebody, and replica sets are large enough for what reads and writes
wait for. -/
structure Setup.Ample (w : Setup) : Prop where
  ring : w.ring.Sound
  needs : 1 ≤ w.required
  writes : ∀ key, w.required + 1 ≤ (w.owners key).length
  reads : ∀ key, w.cfg.readQuorum ≤ (w.owners key).length
  positive : 1 ≤ w.cfg.readQuorum

/-- On a ring without collisions that has enough members, all replica sets have full size. -/
theorem Setup.length_owners (whole : w.ring.Whole) (apart : w.ring.Apart)
    (on : w.cfg.enabled = true) (members : w.cfg.replicationFactor ≤ w.ring.len) (key : String) :
    ((w.owners key).length : Int) = w.cfg.replicationFactor := by
  have factor : w.cfg.replicationFactor > 1 := of_decide_eq_true on
  obtain ⟨nodes, found, length, _⟩ :=
    whole.lookupN_spec apart (by omega) key (by omega : 1 ≤ w.cfg.replicationFactor)
  have set : w.replicaSet key = .ok nodes := by
    rw [Setup.replicaSet, if_pos on]
    exact found
  rw [Setup.owners_of_ok set, List.length_map]
  omega

theorem Config.requiredWriteAcks_lt {cfg : Config} (valid : cfg.validate = none)
    (on : cfg.enabled = true) : cfg.requiredWriteAcks < cfg.replicationFactor := by
  have factor : cfg.replicationFactor > 1 := of_decide_eq_true on
  unfold Config.validate at valid
  split at valid
  · cases valid
  · split at valid
    · omega
    · split at valid
      · cases valid
      · unfold Config.requiredWriteAcks
        split <;> omega

theorem Setup.Ample.of_ring (valid : w.cfg.validate = none) (on : w.cfg.enabled = true)
    (needs : 1 ≤ w.cfg.requiredWriteAcks) (whole : w.ring.Whole) (apart : w.ring.Apart)
    (members : w.cfg.replicationFactor ≤ w.ring.len) : w.Ample := by
  have required : w.required = w.cfg.requiredWriteAcks := by rw [Setup.required, if_pos on]
  have fewer := Config.requiredWriteAcks_lt valid on
  obtain ⟨positive, most, _⟩ := Config.validate_enabled valid on
  refine ⟨whole.sound, required ▸ needs, fun key => ?_, fun key => ?_, positive⟩
  · rw [Setup.length_owners whole apart on members key, required]
    omega
  · rw [Setup.length_owners whole apart on members key]
    exact most

namespace Call

/-- The call routed nothing back, and waits for nothing when it has returned. -/
structure Forward (call : Call) : Prop where
  ahead : ∀ rest, call.phase ≠ .undoing rest
  joined : call.hasReturned = true → call.running = []
  asks : ∀ r ∈ call.running, r.2 = call.request

theorem Forward.isOver (h : call.Forward) (returned : call.hasReturned = true) : call.Over :=
  ⟨call.returned_of returned, h.joined returned⟩

theorem Forward.visiting (h : call.Forward) (goes : call.hasReturned = false) :
    ∃ rest, call.phase = .visiting rest := by
  cases phase : call.phase with
  | visiting rest => exact ⟨rest, rfl⟩
  | undoing rest => exact absurd phase (h.ahead rest)
  | returned result => cases goes.symm.trans (hasReturned_of phase)

/-- Only a call that has not returned routed a step. -/
theorem Moves.goes {out : List (String × Request)} (m : call.Moves w now p c a p' call' out)
    (h : call.Forward) : call.hasReturned = false := by
  refine Bool.eq_false_iff.mpr fun returned => ?_
  exact m.not_over (h.isOver returned)

theorem targets_of_write (writes : call.op.isRead = false) (ring : w.ring.Sound) :
    call.targets w = (w.owners call.op.key).erase call.node := by
  have silent : call.polls w = false := by
    unfold polls
    split
    · rename_i key op
      rw [op] at writes
      cases writes
    · rfl
  rw [targets, (Setup.nodup_owners ring _).erase_eq_filter]
  refine List.filter_congr fun id _ => ?_
  rw [aims, silent, Bool.false_or]
  by_cases same : id = call.node <;> simp [same]

/-- A write that has heard all nodes has its acknowledgements. -/
theorem Thorough.enough (h : call.Thorough w) (ample : w.Ample) (writes : call.op.isRead = false)
    (primary : w.isPrimary call.node call.op.key = true) (phase : call.phase = .visiting [])
    (idle : call.running = []) : w.required ≤ call.results.length := by
  rcases h.heard_all phase idle with all | ⟨_, zero, _⟩
  · have length := all.length_eq
    have member := Setup.mem_owners_of_isPrimary primary
    have size := ample.writes call.op.key
    rw [List.length_map, targets_of_write writes ample.ring, List.length_erase_of_mem member]
      at length
    have := List.length_pos_of_mem member
    omega
  · have := ample.needs
    omega

end Call

/-- No write of the key is running. The replica set has `x` under it, and so have the reads
heard that have started since call number `m`. -/
structure Sys.Settled (w : Setup) (k : String) (x : Option (List UInt8)) (m : Nat) (s : Sys) :
    Prop where
  bound : m ≤ s.calls.length
  early : ∀ (d : Nat) (call : Call), s.calls[d]? = some call → call.op.key = k →
    call.hasReturned = false → m ≤ d
  quiet : ∀ (d : Nat) (call : Call), m ≤ d → s.calls[d]? = some call → call.op.writes k = false
  holds : ∀ i ∈ w.owners k, (s.procs i).Holds k x
  reading : s.Reading k m fun _ resp => resp = .ofGet x
  absent : ∀ (d : Nat) (call : Call), s.calls[d]? = some call → call.op = .read k →
    call.hasReturned = false → call.polls w = false → x = none

/-- Call `c` is the only one of the key that runs. -/
structure Sys.Busy (k : String) (c : Nat) (s : Sys) : Prop where
  goes : ∀ call : Call, s.calls[c]? = some call → call.hasReturned = false
  others : ∀ (d : Nat) (call : Call), s.calls[d]? = some call → call.op.key = k →
    call.hasReturned = false → d = c

/-- Where a key stands: its replica set has what the map has, or a write is under way that
will bring it there. -/
inductive Sys.Keeping (w : Setup) (m₀ : Contents) (k : String) (s : Sys) : Prop
  | settled {m : Nat} (settled : s.Settled w k (mapAfter m₀ s.ops k) m)
  | setting {c : Nat} {node : String} {v : List UInt8} (value : mapAfter m₀ s.ops k = some v)
      (writing : s.Writing node k v c) (busy : s.Busy k c)
  | deleting {c : Nat} {node : String} {before : String → Proc} {b : List UInt8}
      (value : mapAfter m₀ s.ops k = none) (was : mapAfter m₀ (s.ops.take c) k = some b)
      (deleting : s.Deleting before node k c) (own : (s.procs node).Keeps k b)
      (backed : ∀ call : Call, s.calls[c]? = some call → call.Backed w) (busy : s.Busy k c)

/-- What holds in every state of an orderly run from the contents `m₀`. -/
structure Sys.InStep (w : Setup) (m₀ : Contents) (s : Sys) : Prop where
  regular : s.Regular w
  unlimited : s.Unlimited
  complete : s.Complete w 0
  carried : s.Carried 0
  matched : s.Matched
  taken : ∀ (c : Nat) (call : Call), s.calls[c]? = some call → w.Routed call.node call.op
  forward : ∀ (c : Nat) (call : Call), s.calls[c]? = some call → call.Forward
  keys : ∀ k, s.Keeping w m₀ k
  results : ∀ (c : Nat) (call : Call) (result : Result), s.calls[c]? = some call →
    call.phase = .returned result → result = (call.op.onMap (mapAfter m₀ (s.ops.take c))).2

theorem Sys.Settled.before {x : Option (List UInt8)} {m : Nat} (h : s.Settled w k x m)
    (m₀ : Contents) (late : m ≤ c) : mapAfter m₀ (s.ops.take c) k = mapAfter m₀ s.ops k := by
  conv_rhs => rw [← List.take_append_drop c s.ops]
  refine (mapAfter_other m₀ fun op mem => ?_).symm
  obtain ⟨i, found⟩ := List.mem_iff_getElem?.mp mem
  rw [List.getElem?_drop, Sys.ops, List.getElem?_map, Option.map_eq_some_iff] at found
  obtain ⟨call, there, rfl⟩ := found
  exact h.quiet (c + i) call (by omega) there

section Running

variable {m₀ : Contents} (h : s.Keeping w m₀ k) (found : s.calls[c]? = some call)
  (goes : call.hasReturned = false)
include h found goes

/-- While a read of the key runs, the key is settled. -/
theorem Sys.Keeping.of_read (op : call.op = .read k) :
    ∃ m, s.Settled w k (mapAfter m₀ s.ops k) m ∧ m ≤ c := by
  have key : call.op.key = k := by rw [op]; rfl
  have alone {d : Nat} (busy : s.Busy k d) {other : Call} (there : s.calls[d]? = some other)
      (writes : ∀ key, other.op ≠ .read key) : False := by
    obtain rfl := busy.others c call found key goes
    obtain rfl := Option.some.inj (there.symm.trans found)
    exact writes k op
  cases h with
  | settled settled => exact ⟨_, settled, settled.early c call found key goes⟩
  | setting _ writing busy =>
      obtain ⟨other, there, _, op', _⟩ := writing.caller
      exact (alone busy there (by simp [op'])).elim
  | deleting _ _ deleting _ _ busy =>
      obtain ⟨other, there, _, op', _⟩ := deleting.caller
      exact (alone busy there (by simp [op'])).elim

/-- While a key is deleted, its primary still has what there was before. -/
theorem Sys.Keeping.of_delete (op : call.op = .delete k) :
    ∃ b, mapAfter m₀ (s.ops.take c) k = some b ∧ (s.procs call.node).Keeps k b := by
  have key : call.op.key = k := by rw [op]; rfl
  cases h with
  | settled settled =>
      have silent := settled.quiet c call (settled.early c call found key goes) found
      rw [op] at silent
      exact absurd rfl (of_decide_eq_false silent)
  | setting _ writing busy =>
      obtain rfl := busy.others c call found key goes
      obtain ⟨other, there, _, op', _⟩ := writing.caller
      obtain rfl := Option.some.inj (there.symm.trans found)
      cases op.symm.trans op'
  | @deleting _ _ _ b _ was deleting own _ busy =>
      obtain rfl := busy.others c call found key goes
      obtain ⟨other, there, here, _⟩ := deleting.caller
      obtain rfl := Option.some.inj (there.symm.trans found)
      rw [← here] at own
      exact ⟨b, was, own⟩

end Running

/-- When a call of the key may start that is no read, the key is settled. -/
theorem Sys.Keeping.of_free {m₀ : Contents} (h : s.Keeping w m₀ k)
    (free : ∀ call ∈ s.calls, call.op.key = k → call.op.isRead = false →
      call.hasReturned = true) : ∃ m, s.Settled w k (mapAfter m₀ s.ops k) m := by
  have alone {d : Nat} (busy : s.Busy k d) {other : Call} (there : s.calls[d]? = some other)
      (key : other.op.key = k) (writes : other.op.isRead = false) : False := by
    have returned := free other (List.mem_of_getElem? there) key writes
    cases (busy.goes other there).symm.trans returned
  cases h with
  | settled settled => exact ⟨_, settled⟩
  | setting _ writing busy =>
      obtain ⟨other, there, _, op', _⟩ := writing.caller
      exact (alone busy there (by rw [op']; rfl) (by rw [op']; rfl)).elim
  | deleting _ _ deleting _ _ busy =>
      obtain ⟨other, there, _, op', _⟩ := deleting.caller
      exact (alone busy there (by rw [op']; rfl) (by rw [op']; rfl)).elim

section Routed

variable {op : Op} (routed : w.Routed node op)
include routed

theorem Setup.Routed.member : node ∈ w.owners op.key := by
  cases op with
  | set key value ttl => exact Setup.mem_owners_of_isPrimary routed.1
  | delete key => exact Setup.mem_owners_of_isPrimary routed
  | read key => exact routed.1

/-- A node refuses no call that routing leads to it. -/
theorem Setup.Routed.not_refused
    (why : (w.isPrimary node op.key = false ∧
        ((∀ key, op ≠ .read key) ∨ w.cfg.readConsistency = .primary)) ∨
      w.isInReplicaSet node op.key = false ∨ ∃ failed, w.replicaSet op.key = .error failed) :
    False := by
  rcases why with ⟨other, why⟩ | outside | ⟨err, failed⟩
  · cases op with
    | set key value ttl => cases other.symm.trans routed.1
    | delete key => cases other.symm.trans routed
    | read key =>
        cases why with
        | inl writes => exact writes key rfl
        | inr mode => cases other.symm.trans (routed.2 mode)
  · cases outside.symm.trans (Setup.isInReplicaSet_iff.mpr routed.member)
  · exact Setup.replicaSet_ne_error routed.member err failed

theorem Setup.Routed.primary (writes : op.isRead = false) : w.isPrimary node op.key = true := by
  cases op with
  | set key value ttl => exact routed.1
  | delete key => exact routed
  | read key => cases writes

end Routed

theorem Op.isRead_of_ne {op : Op} (writes : ∀ key, op ≠ .read key) : op.isRead = false := by
  cases op with
  | set key value ttl | delete key => rfl
  | read key => exact absurd rfl (writes key)

section Results

variable {m₀ : Contents} {x : Option (List UInt8)} {result : Result}

/-- Nodes that have all the same make a read return it. -/
theorem Call.count_ofGet (all : ∀ r ∈ call.results, r.2 = .ofGet x)
    (enough : w.cfg.readQuorum ≤ call.results.length) (positive : 1 ≤ w.cfg.readQuorum) :
    countAnswers w.cfg.readQuorum (call.results.map fun r => r.2.answer) ∅ 0 none = .ofGet x := by
  have answers : call.results.map (fun r => r.2.answer) = List.replicate call.results.length x := by
    refine List.eq_replicate_iff.mpr ⟨List.length_map _, fun y mem => ?_⟩
    obtain ⟨r, heard, rfl⟩ := List.mem_map.mp mem
    rw [all r heard]
    cases x <;> rfl
  rw [answers]
  cases x with
  | some v =>
      have votes : (List.replicate call.results.length (some v)).filterMap id =
          List.replicate call.results.length v := List.filterMap_replicate_of_some rfl
      refine countAnswers_of_all (fun y mem => ?_) ?_ ?_
      · rw [votes] at mem
        exact List.eq_of_mem_replicate mem
      · rw [votes, Ne, List.replicate_eq_nil_iff]
        omega
      · rw [votes, List.length_replicate]
        exact enough
  | none =>
      have votes : (List.replicate call.results.length none).filterMap id =
          ([] : List (List UInt8)) := List.filterMap_replicate_of_none rfl
      rcases countAnswers_cases w.cfg.readQuorum (List.replicate call.results.length none) with
        ⟨y, mem, _⟩ | ⟨_, result⟩
      · rw [votes] at mem
        cases mem
      · rw [result, votes, undecided, if_neg (by simp; omega)]
        rfl

theorem Call.targets_of_polls (polls : call.polls w = true) :
    call.targets w = w.owners call.op.key := by
  refine List.filter_eq_self.mpr fun id _ => ?_
  rw [aims, polls, Bool.true_or]

theorem Proc.Keeps.delete {v : List UInt8} (h : p.Keeps k v) (now : Int) :
    (p.store.delete now k).2 = true := by
  obtain ⟨e, found, _, forever⟩ := h
  rw [Cache.Store.delete, found]
  dsimp only
  rw [Cache.Entry.isExpired, if_pos forever]
  rfl

/-- No other node has what the own one lacks. -/
theorem Sys.InStep.not_fetched {key peer : String} {v : List UInt8} (h : s.InStep w m₀)
    (smooth : a.smooth = true) (found : s.calls[c]? = some call)
    (goes : call.hasReturned = false) (op : call.op = .read key) (polls : call.polls w = false)
    (ends : Ends c call.node peer call.request (some (.value v)) a)
    (sent : ∀ msg, a = .deliver msg → msg ∈ s.net) : False := by
  obtain ⟨m, settled, late⟩ := (h.keys key).of_read found goes op
  have none := settled.absent c call found op goes polls
  cases ends with
  | response told =>
      have asked : call.request = .replGet key := by rw [Call.request, op]
      have heard := settled.reading.responses c peer _ (.value v) late (asked ▸ sent _ rfl)
        (asked ▸ told)
      rw [none] at heard
      cases heard
  | fail => cases smooth

/-- What a call returns in a step. -/
theorem Sys.InStep.result_move {out : List (String × Request)} (h : s.InStep w m₀)
    (ample : w.Ample) (smooth : a.smooth = true) (found : s.calls[c]? = some call)
    (moves : call.Moves w now (s.procs call.node) c a p call' out)
    (sent : ∀ msg, a = .deliver msg → msg ∈ s.net) (done : call'.phase = .returned result) :
    result = (call.op.onMap (mapAfter m₀ (s.ops.take c))).2 := by
  have goes := moves.goes (h.forward c call found)
  have waiting (same : call'.phase = call.phase) : False := by
    cases goes.symm.trans (Call.hasReturned_of (same.symm.trans done))
  cases moves with
  | skip | contact | short | undo => cases done
  | stored op =>
      cases done
      rw [op]
      rfl
  | @deleted key op =>
      cases done
      obtain ⟨b, was, kept⟩ := (h.keys key).of_delete found goes op
      rw [op, kept.delete]
      simp only [Op.onMap, was, Option.isSome_some]
  | @answered key op polls phase idle =>
      cases done
      obtain ⟨m, settled, late⟩ := (h.keys key).of_read found goes op
      have thorough := h.complete.calls c call (Nat.zero_le c) found fun _ _ => polls
      rcases thorough.heard_all phase idle with all | ⟨⟨_, del⟩, _⟩
      · have size := all.length_eq
        rw [List.length_map, Call.targets_of_polls polls, op] at size
        have enough := ample.reads key
        rw [op, Call.count_ofGet (settled.reading.results c call late found op) (size ▸ enough)
          ample.positive, ← settled.before m₀ late]
        rfl
      · cases op.symm.trans del
  | @exhausted key op polls =>
      cases done
      obtain ⟨m, settled, late⟩ := (h.keys key).of_read found goes op
      have none := settled.absent c call found op goes polls
      rw [← settled.before m₀ late] at none
      rw [op, Op.onMap, none]
      rfl
  | undoneSet _ phase | undone _ phase => exact absurd phase ((h.forward c call found).ahead _)
  | cancelSet | cancelRead => cases smooth
  | answer | refuse | settle | getLocal => exact (waiting rfl).elim
  | fetched op polls waits ends => exact (h.not_fetched smooth found goes op polls ends sent).elim

theorem Sys.InStep.forward_move {out : List (String × Request)} (h : s.InStep w m₀)
    (ample : w.Ample) (smooth : a.smooth = true) (found : s.calls[c]? = some call)
    (moves : call.Moves w now (s.procs call.node) c a p call' out)
    (sent : ∀ msg, a = .deliver msg → msg ∈ s.net) : call'.Forward := by
  have forward := h.forward c call found
  have goes := moves.goes forward
  have waiting (same : call'.phase = call.phase) (fewer : call'.running ⊆ call.running) :
      call'.Forward := by
    have goes' : call'.hasReturned = false := by
      rw [Call.hasReturned, same]
      exact goes
    refine ⟨fun rest => ?_, fun returned => ?_, fun r mem => ?_⟩
    · rw [same]
      exact forward.ahead rest
    · cases goes'.symm.trans returned
    · rw [moves.same.request]
      exact forward.asks r (fewer mem)
  cases moves with
  | skip =>
      refine ⟨fun rest undoing => ?_, fun returned => ?_, forward.asks⟩
      · cases undoing
      · cases returned
  | contact =>
      refine ⟨fun rest undoing => ?_, fun returned => ?_, fun r mem => ?_⟩
      · cases undoing
      · cases returned
      cases List.mem_append.mp mem with
      | inl old => exact forward.asks r old
      | inr new =>
          rw [List.mem_singleton.mp new]
          rfl
  | stored _ _ idle | deleted _ _ idle | answered _ _ _ idle | exhausted _ _ _ idle =>
      refine ⟨fun rest undoing => ?_, fun _ => idle, forward.asks⟩
      cases undoing
  | short writes phase idle few =>
      have thorough := h.complete.calls c call (Nat.zero_le c) found fun key read =>
        absurd read (writes key)
      have routed := (h.taken c call found).primary (Op.isRead_of_ne writes)
      have enough := thorough.enough ample (Op.isRead_of_ne writes) routed phase idle
      omega
  | undo phase | undoneSet _ phase | undone _ phase => exact absurd phase (forward.ahead _)
  | cancelSet | cancelRead => cases smooth
  | answer | refuse | settle | getLocal => exact waiting rfl List.erase_subset
  | fetched op polls waits ends => exact (h.not_fetched smooth found goes op polls ends sent).elim

/-- What a call returns at once. -/
theorem Started.returns {op : Op} {m : Contents} (h : Started w now p node op p' call)
    (routed : w.Routed node op) (roomy : p.Roomy) (holds : p.Holds op.key (m op.key))
    (done : call.phase = .returned result) : result = (op.onMap m).2 := by
  have got := holds.get now
  cases h with
  | refused why => exact (routed.not_refused why).elim
  | setFailed primary failed =>
      cases (Cache.Store.set_unlimited roomy.1 roomy.2 ..).1.symm.trans failed
  | setAlone =>
      cases done
      rfl
  | deleteMissing primary missing =>
      cases done
      have none := got.symm.trans missing
      simp only [Op.onMap, Op.key] at none ⊢
      rw [none]
      rfl
  | lookupFailed failed => exact absurd failed (Setup.replicaSet_ne_error routed.member _)
  | readPrimary =>
      cases done
      exact congrArg Result.ofGet got
  | readAny mode present =>
      cases done
      have some := got.symm.trans present
      simp only [Op.onMap, Op.key] at some ⊢
      rw [some]
      rfl
  | set | deleteAlone | delete | readPeers | readQuorum => cases done

theorem Started.forward {op : Op} (h : Started w now p node op p' call) : call.Forward := by
  cases h <;> exact ⟨nofun, fun _ => rfl, nofun⟩

end Results

end DistributedCache.Replication
