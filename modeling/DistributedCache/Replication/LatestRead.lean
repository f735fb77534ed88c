import DistributedCache.Lib.Quorum
import DistributedCache.Replication.Polling

/-!
Quorum reads after an acknowledged write, with quorums that overlap. No other value can
get enough votes, so what a read returns turns on how many of the nodes that answer it
have the value: it does not fail whenever they cannot agree.
-/
namespace DistributedCache.Replication

open Transition

variable {w : Setup} {k : String} {v x : List UInt8} {call : Call}

theorem Call.count_votes (call : Call) (x : List UInt8) :
    call.votes.count x = (call.results.filter fun r => r.2.answer = some x).length := by
  unfold Call.votes
  induction call.results with
  | nil => rfl
  | cons r rest ih =>
      rw [List.map_cons]
      cases answer : r.2.answer with
      | none => simpa [answer] using ih
      | some y =>
          by_cases same : y = x
          · subst same
            simpa [answer] using ih
          · simpa [answer, same] using ih

/-- The nodes that hold the value and those that vote for another one are distinct
members of the replica set. -/
theorem Call.Spread.count_other (spread : call.Spread w) (ring : w.ring.Sound)
    (op : call.op = .read k) {holders : List String} (nodup : holders.Nodup)
    (sub : holders ⊆ w.owners k)
    (honest : ∀ r ∈ call.results, r.1 ∈ holders → r.2 = .value v) (other : x ≠ v) :
    holders.length + call.votes.count x ≤ (w.owners k).length := by
  have part : ((call.results.filter fun r => r.2.answer = some x).map Prod.fst).Sublist
      (call.results.map Prod.fst) := List.filter_sublist.map _
  rw [call.count_votes, ← List.length_map (f := Prod.fst)]
  refine Quorum.length_add_le nodup ((spread.nodup_results ring).sublist part) ?_ sub ?_
  · intro n holds mem
    obtain ⟨r, voted, rfl⟩ := List.mem_map.mp mem
    obtain ⟨mem, vote⟩ := List.mem_filter.mp voted
    have vote := of_decide_eq_true vote
    rw [honest r mem holds] at vote
    exact other (Option.some.inj vote).symm
  · intro n mem
    have target := spread.results_subperm.subset (part.subset mem)
    rw [Call.targets, op] at target
    exact (List.mem_filter.mp target).1

theorem Sys.Reading.init {u : Sys} (reg : u.Regular w) (P : String → Response → Prop) :
    u.Reading k u.calls.length P where
  results := fun d call late found => by
    rw [List.getElem?_eq_none late] at found
    cases found
  responses := fun d peer resp resp' late sent => by
    obtain ⟨call, found, _⟩ := reg.msgs _ sent
    have none : u.calls[d]? = none := List.getElem?_eq_none late
    cases none.symm.trans found

/-- The nodes that hold the value of a write that has been acknowledged. -/
def Call.holders (call : Call) : List String :=
  call.node :: call.results.map Prod.fst

section Acknowledged

variable {u s : Sys} {node : String} {c : Nat}

theorem Sys.Writing.stored (h : u.Writing node k v c) (reg : u.Regular w) (ring : w.ring.Sound)
    (primary : w.isPrimary node k = true) (found : u.calls[c]? = some call)
    (ok : call.phase = .returned .stored) :
    call.Over ∧ call.node = node ∧ call.holders.Nodup ∧ call.holders ⊆ w.owners k ∧
      w.required + 1 ≤ call.holders.length := by
  obtain ⟨call', found', here, op, _⟩ := h.caller
  obtain rfl := Option.some.inj (found'.symm.trans found)
  have spread := reg.calls c call' found
  have writes : ∀ key, call'.op ≠ .read key := by
    intro key read
    cases op.symm.trans read
  obtain ⟨enough, idle⟩ := spread.stored writes ok
  refine ⟨⟨⟨_, ok⟩, idle⟩, here, List.nodup_cons.mpr ⟨fun mem => ?_, spread.nodup_results ring⟩,
    fun n mem => ?_, ?_⟩
  · exact Call.ne_node_of_mem_targets writes (spread.results_subperm.subset mem) rfl
  · cases mem with
    | head =>
        rw [here]
        exact Setup.mem_owners_of_isPrimary primary
    | tail _ mem =>
        have target := spread.results_subperm.subset mem
        rw [Call.targets, op] at target
        exact (List.mem_filter.mp target).1
  · rw [Call.holders, List.length_cons, List.length_map]
    omega

/-- From an acknowledged write on, every read that starts hears the value from each node
that has acknowledged it. -/
theorem Sys.Writing.reading (h : u.Writing node k v c) (reg : u.Regular w) (free : u.Unlimited)
    (found : u.calls[c]? = some call) (ok : call.phase = .returned .stored) (finished : call.Over)
    {past : List (Sys × Int × Action)} (run : RunFrom w u past s)
    (quiet : Meets (NoWrite k) past) :
    s.Reading k u.calls.length (fun n resp => n ∈ call.holders → resp = .value v) := by
  have inv := Run.invariant_from
    (I := fun s => s.Writing node k v c ∧ s.Regular w ∧ s.Unlimited ∧
      s.calls[c]? = some call ∧
      s.Reading k u.calls.length (fun n resp => n ∈ call.holders → resp = .value v))
    ⟨h, reg, free, found, .init reg _⟩ ?_ run quiet
  · exact inv.2.2.2.2
  · rintro s x s' ⟨h, reg, free, found, reading⟩ quiet exec
    have step := exec_step exec
    refine ⟨h.step reg free quiet step, reg.step step, free.step step, step.finished found finished,
      reading.step reg step ?_⟩
    intro n _ holds
    obtain ⟨call', found', here, _⟩ := h.caller
    obtain rfl := Option.some.inj (found'.symm.trans found)
    have sure : call'.Sure := .inr (.inl ok)
    have kept : (s.procs n).Keeps k v := by
      cases holds with
      | head =>
          rw [here]
          exact h.own call' found sure
      | tail _ mem =>
          obtain ⟨r, acked, rfl⟩ := List.mem_map.mp mem
          exact h.results call' found sure r acked
    rw [kept.get]
    rfl

end Acknowledged

theorem Setup.length_owners_disabled (off : w.cfg.enabled = false) (key : String) :
    (w.owners key).length ≤ 1 := by
  rw [Setup.owners, Setup.replicaSet, off, if_neg Bool.false_ne_true]
  cases w.ring.owner key <;> simp

/-- No value but the acknowledged one gets enough votes. -/
theorem count_other_lt (overlap : w.cfg.requiredWriteAcks + 1 + w.cfg.readQuorum >
    w.cfg.replicationFactor) {holders votes : Nat} (enough : w.required + 1 ≤ holders)
    (both : holders + votes ≤ (w.owners k).length) (some : 0 < votes) :
    (votes : Int) < w.cfg.readQuorum := by
  cases on : w.cfg.enabled with
  | true =>
      have size := Setup.length_owners_le on k
      rw [Setup.required, on, if_pos rfl] at enough
      omega
  | false =>
      have size := Setup.length_owners_disabled on k
      rw [Setup.required, on, if_neg Bool.false_ne_true] at enough
      omega

/-- Without replication the only node is the one that has written. -/
theorem votes_ne_nil (valid : w.cfg.validate = none) {read : Call} {holders : List String}
    (sub : holders ⊆ w.owners k) (some : holders ≠ [])
    (honest : ∀ r ∈ read.results, r.1 ∈ holders → r.2 = .value v)
    (member : read.node ∈ w.owners k) (asked : read.node ∈ read.results.map Prod.fst)
    (none : w.cfg.readQuorum ≤ 0) : read.votes ≠ [] := by
  cases on : w.cfg.enabled with
  | true =>
      have := (Config.validate_enabled valid on).1
      omega
  | false =>
      obtain ⟨n, holds⟩ := List.exists_mem_of_ne_nil _ some
      have size := Setup.length_owners_disabled on k
      have same : read.node = n := by
        obtain ⟨o, one⟩ := List.length_eq_one_iff.mp
          (Nat.le_antisymm size (List.length_pos_of_mem member))
        have here := sub holds
        rw [one, List.mem_singleton] at member here
        rw [member, here]
      obtain ⟨r, mem, id⟩ := List.mem_map.mp asked
      have vote := honest r mem (by rw [id, same]; exact holds)
      refine List.ne_nil_of_mem (a := v) (List.mem_filterMap.mpr ⟨_, ?_, rfl⟩)
      refine List.mem_map.mpr ⟨r, mem, ?_⟩
      rw [vote]
      rfl

/-- Let a `WriteSet` at the primary, on stores without limit and while no other write of
the key runs, return without error. A later read at a member of the replica set returns
the value or an error exactly if its context ends first or what it hears from the nodes
that answer it is `Decided`. -/
theorem quorum_read_latest {w : Setup} (valid : w.cfg.validate = none)
    (mode : w.cfg.readConsistency = .quorum)
    (overlap : w.cfg.requiredWriteAcks + 1 + w.cfg.readQuorum > w.cfg.replicationFactor)
    (ring : w.ring.Built) {past₀ past₁ past₂ : List (Sys × Int × Action)} {u₀ u₁ u s : Sys}
    {now : Int} {node key : String} {v : List UInt8} {read : Call} {r : Nat}
    {result : Result} (before : Run w past₀ u₀) (free : u₀.Unlimited) (still : u₀.Still key)
    (primary : w.isPrimary node key = true)
    (starts : exec w u₀ (now, .start node (.set key v 0)) = .ok u₁)
    (during : RunFrom w u₁ past₁ u) (quiet₁ : Meets (NoWrite key) past₁)
    (acked : u.Returned u₀.calls.length node (.set key v 0) .stored)
    (later : RunFrom w u past₂ s) (quiet₂ : Meets (NoWrite key) past₂)
    (new : u.calls.length ≤ r) (there : s.calls[r]? = some read) (op : read.op = .read key)
    (member : read.node ∈ w.owners key) (done : read.phase = .returned result) :
    (result = .value v ∨ ∃ err, result = .error err) ↔
      ((∃ x ∈ past₂, x.2.2 = .cancel r) ∨ Decided w.cfg.readQuorum v (heard r past₂)) := by
  have reg₀ := before.regular
  have step := exec_step starts
  obtain ⟨writing, reg, free⟩ := (still.writing reg₀ free step).run (reg₀.step step)
    (free.step step) during quiet₁
  obtain ⟨write, wrote, _, _, ok⟩ := acked
  obtain ⟨finished, _, nodup, sub, enough⟩ := writing.stored reg ring.sound primary wrote ok
  have reading := writing.reading reg free wrote ok finished later quiet₂
  have honest := reading.results r read new there op
  have spread := (reg.run later).calls r read there
  rw [← votes_eq_heard reg (Config.readQuorum_of_quorum mode) later new there op]
  cases polled_run reg (Config.readQuorum_of_quorum mode) later new there op member with
  | visiting phase => cases done.symm.trans phase
  | cancelled phase ended =>
      obtain rfl := Phase.returned.inj (done.symm.trans phase)
      exact iff_of_true (.inr ⟨_, rfl⟩) (.inl ended)
  | counted phase goes idle asked =>
      obtain rfl := Phase.returned.inj (done.symm.trans phase)
      rw [or_iff_right goes]
      refine value_or_error_iff (fun x voted other => ?_) ?_
      · exact count_other_lt overlap enough
          (spread.count_other ring.sound op nodup sub honest other) (List.count_pos_iff.mpr voted)
      · exact votes_ne_nil valid sub (List.cons_ne_nil _ _) honest member asked

/-- Node `c` has an old value, `a` takes `c` for unhealthy, and `b` takes `a` for it. -/
def divided : Sys where
  procs i :=
    { store := if i = "c" then ((Cache.newStore 0).set 0 "k" [9] 0).1 else Cache.newStore 0
      health := if i = "a" then .ofList [("c", false)]
        else if i = "b" then .ofList [("a", false)] else ∅ }
  calls := []
  net := []

theorem divided_initial : divided.Initial where
  calls := rfl
  net := rfl
  sound := fun i => by
    dsimp only [divided]
    split
    · exact (Cache.Store.sound_newStore 0).set 0 "k" [9] 0
    · exact Cache.Store.sound_newStore 0
  self := fun i => by
    dsimp only [divided, Proc.isHealthy]
    split
    · rename_i same
      subst same
      decide
    · split
      · rename_i same
        subst same
        decide
      · rfl

theorem divided_unlimited : divided.Unlimited := by
  intro i
  dsimp only [divided]
  split
  · rw [Cache.Store.maxBytes_set]
    exact Int.le_refl 0
  · exact Int.le_refl 0

/-- The write at `a` up to its return. -/
def dividedWrite : List (Int × Action) :=
  [.advance 0, .advance 0, .advance 0, .deliver (.request 0 "b" (.replSet "k" [1] 0)),
    .deliver (.response 0 "b" (.replSet "k" [1] 0) .ok), .advance 0].map fun a => (0, a)

/-- `a` and `b` answer a read at `a`. -/
theorem quorum_read_latest_agreed : ∃ (past₂ : List (Sys × Int × Action)) (s : Sys)
    (read : Call) (result : Result), s.calls[1]? = some read ∧
      read.phase = .returned result ∧ Decided 2 [1] (heard 1 past₂) ∧
      (result = .value [1] ∨ ∃ err, result = .error err) := by
  obtain ⟨past₁, u, past₂, s, during, wrote, later, seen⟩ := RunFrom.of_steps_then sample
    (divided.started sample 0 "a" (.set "k" [1] 0)) dividedWrite
    ([.start "a" (.read "k"), .advance 1, .advance 1, .advance 1,
      .deliver (.request 1 "b" (.replGet "k")),
      .deliver (.response 1 "b" (.replGet "k") (.value [1])), .getLocal 1,
      .advance 1].map fun a => (0, a))
    (fun past₁ u => decide (Meets (NoWrite "k") past₁ ∧ u.calls.length ≤ 1 ∧
      u.Returned 0 "a" (.set "k" [1] 0) .stored))
    (fun past₂ s => decide (Meets (NoWrite "k") past₂ ∧ Decided 2 [1] (heard 1 past₂)) &&
      s.calls[1]?.any fun read : Call => decide (read.op = .read "k" ∧
        read.node ∈ sample.owners "k" ∧ read.phase = .returned (.value [1]))) (by decide)
  obtain ⟨quiet₁, new, acked⟩ := of_decide_eq_true wrote
  obtain ⟨run, seen⟩ := (Bool.and_eq_true _ _).mp seen
  obtain ⟨quiet₂, decided⟩ := of_decide_eq_true run
  obtain ⟨read, there, seen⟩ := (Option.any_eq_true _ _).mp seen
  obtain ⟨op, member, done⟩ := of_decide_eq_true seen
  exact ⟨past₂, s, read, _, there, done, decided, (quorum_read_latest (by decide) rfl (by decide)
    sampleRing_built (.start divided_initial) divided_unlimited (divided_initial.still "k")
    (by decide) rfl during quiet₁ acked later quiet₂ new there op member
    done).mpr (.inr decided)⟩

/-- A read at `b`, which takes `a` for unhealthy: `c` answers first, then `b` itself. -/
def dividedRead : List (Int × Action) :=
  [.start "b" (.read "k"), .advance 1, .advance 1, .advance 1,
    .deliver (.request 1 "c" (.replGet "k")),
    .deliver (.response 1 "c" (.replGet "k") (.value [9])), .getLocal 1,
    .advance 1].map fun a => (0, a)

theorem quorum_read_stale : ∃ (past₁ past₂ : List (Sys × Int × Action)) (u₁ u s : Sys),
    sample.cfg.validate = none ∧ sample.ring.Built ∧ sample.cfg.readConsistency = .quorum ∧
      sample.cfg.requiredWriteAcks + 1 + sample.cfg.readQuorum > sample.cfg.replicationFactor ∧
      sample.cfg.replicationFactor ≤ sample.ring.nodes.keys.length ∧
      Run sample [] divided ∧ divided.Unlimited ∧ divided.Still "k" ∧
      sample.isPrimary "a" "k" = true ∧
      exec sample divided (0, .start "a" (.set "k" [1] 0)) = .ok u₁ ∧
      RunFrom sample u₁ past₁ u ∧ Meets (NoWrite "k") past₁ ∧
      u.Returned 0 "a" (.set "k" [1] 0) .stored ∧
      RunFrom sample u past₂ s ∧ Meets (NoWrite "k") past₂ ∧ u.calls.length ≤ 1 ∧
      "b" ∈ sample.owners "k" ∧ s.Returned 1 "b" (.read "k") (.value [9]) := by
  obtain ⟨past₁, u, past₂, s, during, wrote, later, read⟩ := RunFrom.of_steps_then sample
    (divided.started sample 0 "a" (.set "k" [1] 0)) dividedWrite dividedRead
    (fun past₁ u => decide (Meets (NoWrite "k") past₁ ∧ u.calls.length ≤ 1 ∧
      u.Returned 0 "a" (.set "k" [1] 0) .stored))
    (fun past₂ s => decide (Meets (NoWrite "k") past₂ ∧
      s.Returned 1 "b" (.read "k") (.value [9]))) (by decide)
  obtain ⟨quiet₁, new, acked⟩ := of_decide_eq_true wrote
  obtain ⟨quiet₂, stale⟩ := of_decide_eq_true read
  exact ⟨past₁, past₂, _, u, s, by decide, sampleRing_built, rfl, by decide, by decide,
    .start divided_initial, divided_unlimited, divided_initial.still "k", by decide, rfl,
    during, quiet₁, acked, later, quiet₂, new, by decide, stale⟩

end DistributedCache.Replication
