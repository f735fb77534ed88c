import DistributedCache.Replication.Polling

/-!
What `readQuorum` makes of the answers of a replica set. Only values are counted, and
the nodes that answer `not found` never are: enough values of any kind are taken for an
agreement, and any value stands in the way of an absence that enough nodes report.
-/
namespace DistributedCache.Replication

variable {w : Setup} {quorum : Int} {given : List (String × Response)} {v : List UInt8}

/-- The nodes that have given an answer. -/
def answering (answer : Response) (given : List (String × Response)) : List String :=
  (given.filter fun a => a.2 = answer).map Prod.fst

/-- The values among the answers. -/
def valued (given : List (String × Response)) : List (List UInt8) :=
  given.filterMap fun a => a.2.answer

/-- The result is what `quorum` nodes agree on, and an error if they do not. -/
structure Agreement (quorum : Int) (given : List (String × Response)) (result : Result) :
    Prop where
  value : ∀ v, result = .value v ↔ quorum ≤ (answering (.value v) given).length
  notFound : result = .notFound ↔ quorum ≤ (answering .notFound given).length
  otherwise : result = .error .readQuorumNotMet ↔
    (∀ v, ((answering (.value v) given).length : Int) < quorum) ∧
      ((answering .notFound given).length : Int) < quorum

/-- Enough nodes agree on a value, or on its absence and none has one. Or some nodes have
values, though too few of them, and too few report the absence. -/
inductive Conclusive (quorum : Int) (given : List (String × Response)) : Prop
  | value (v : List UInt8) (enough : quorum ≤ (answering (.value v) given).length)
  | notFound (none : valued given = []) (enough : quorum ≤ (answering .notFound given).length)
  | neither (some : valued given ≠ []) (few : ((valued given).length : Int) < quorum)
      (missing : ((answering .notFound given).length : Int) < quorum)

theorem answering_cons (answer : Response) (a : String × Response)
    (given : List (String × Response)) : (answering answer (a :: given)).length =
      (answering answer given).length + if a.2 = answer then 1 else 0 := by
  rw [answering, List.filter_cons]
  split
  · rename_i same
    simp [answering, of_decide_eq_true same]
  · rename_i other
    simp [answering, of_decide_eq_false (Bool.not_eq_true _ ▸ other)]

/-- No node gives two answers. -/
theorem answering_add_le {a b : Response} (other : a ≠ b) (given : List (String × Response)) :
    (answering a given).length + (answering b given).length ≤ given.length := by
  induction given with
  | nil => simp [answering]
  | cons x rest ih =>
      have apart : (if x.2 = a then 1 else 0) + (if x.2 = b then 1 else 0) ≤ 1 := by
        split
        · rename_i same
          rw [if_neg fun same' => other (same.symm.trans same')]
        · split <;> omega
      rw [answering_cons, answering_cons, List.length_cons]
      omega

theorem count_valued (v : List UInt8) (given : List (String × Response)) :
    (valued given).count v = (answering (.value v) given).length := by
  induction given with
  | nil => rfl
  | cons a rest ih =>
      rw [answering_cons, ← ih, valued, List.filterMap_cons]
      cases answer : a.2 with
      | value x => simp [Response.answer, valued, List.count_cons]
      | ok | notFound | error => simp [Response.answer, valued]

theorem filterMap_answers (given : List (String × Response)) :
    (given.map fun a => a.2.answer).filterMap id = valued given :=
  List.filterMap_map ..

theorem Agreement.of_value (overlap : (given.length : Int) < 2 * quorum)
    (enough : quorum ≤ (answering (.value v) given).length) :
    Agreement quorum given (.value v) where
  value := fun x => by
    refine ⟨fun same => ?_, fun also => ?_⟩
    · cases same
      exact enough
    · by_contra other
      have := answering_add_le (a := .value v) (b := .value x) (by simpa using other) given
      omega
  notFound := by
    have := answering_add_le (a := .value v) (b := .notFound) nofun given
    simp only [reduceCtorEq, false_iff]
    omega
  otherwise := by
    refine iff_of_false nofun fun few => ?_
    have := few.1 v
    omega

section Scattered

variable (lost : ∀ v, ((answering (.value v) given).length : Int) < quorum)

include lost

theorem Agreement.not_value : ¬ Agreement quorum given (.value v) := fun h =>
  Int.not_le.mpr (lost v) ((h.value v).mp rfl)

theorem Agreement.notFound_iff :
    Agreement quorum given .notFound ↔ quorum ≤ (answering .notFound given).length where
  mp := fun h => h.notFound.mp rfl
  mpr := fun enough => {
    value := fun v => by simpa using lost v
    notFound := by simpa using enough
    otherwise := by simp [Int.not_lt.mpr enough] }

theorem Agreement.error_iff :
    Agreement quorum given (.error .readQuorumNotMet) ↔
      ((answering .notFound given).length : Int) < quorum where
  mp := fun h => (h.otherwise.mp rfl).2
  mpr := fun missing => {
    value := fun v => by simpa using lost v
    notFound := by simpa using missing
    otherwise := by simp [lost, missing] }

theorem conclusive_iff :
    Conclusive quorum given ↔
      (valued given = [] ∧ quorum ≤ (answering .notFound given).length) ∨
      (valued given ≠ [] ∧ ((valued given).length : Int) < quorum ∧
        ((answering .notFound given).length : Int) < quorum) := by
  constructor
  · intro h
    cases h with
    | value v enough => exact absurd enough (Int.not_le.mpr (lost v))
    | notFound none enough => exact .inl ⟨none, enough⟩
    | neither some few missing => exact .inr ⟨some, few, missing⟩
  · intro h
    cases h with
    | inl absent => exact .notFound absent.1 absent.2
    | inr few => exact .neither few.1 few.2.1 few.2.2

end Scattered

/-- The count is right exactly for these answers. -/
theorem agreement_iff (overlap : (given.length : Int) < 2 * quorum) :
    Agreement quorum given (countAnswers quorum (given.map fun a => a.2.answer) ∅ 0 none) ↔
      Conclusive quorum given := by
  have positive : 0 < quorum := by omega
  rcases countAnswers_cases quorum (given.map fun a => a.2.answer) with
    ⟨x, _, enough, result⟩ | ⟨few, result⟩
  · rw [filterMap_answers, count_valued] at enough
    rw [result]
    exact iff_of_true (.of_value overlap enough) (.value x enough)
  rw [filterMap_answers] at few result
  have lost (v : List UInt8) : ((answering (.value v) given).length : Int) < quorum := by
    rw [← count_valued]
    by_cases mem : v ∈ valued given
    · exact few v mem
    · rw [List.count_eq_zero.mpr mem]
      exact positive
  rw [result, undecided, conclusive_iff lost]
  split
  -- Enough values, though no agreement: the first one is returned.
  · rename_i many
    refine iff_of_false (Agreement.not_value lost) fun h => ?_
    cases h with
    | inl absent =>
        rw [absent.1, List.length_nil] at many
        omega
    | inr few => omega
  · rename_i few
    split
    · rename_i none
      rw [Agreement.notFound_iff lost]
      simp [List.length_eq_zero_iff.mp none]
    · rename_i some
      rw [Agreement.error_iff lost]
      simp [List.length_eq_zero_iff.not.mp some, Int.not_le.mp few]

/-- With enough equal values, the result is a value that enough nodes have. -/
theorem countAnswers_of_enough (positive : 0 < quorum)
    (enough : quorum ≤ (answering (.value v) given).length) :
    ∃ x, countAnswers quorum (given.map fun a => a.2.answer) ∅ 0 none = .value x ∧
      quorum ≤ (answering (.value x) given).length := by
  rcases countAnswers_cases quorum (given.map fun a => a.2.answer) with
    ⟨x, _, wins, result⟩ | ⟨few, _⟩
  · rw [filterMap_answers, count_valued] at wins
    exact ⟨x, result, wins⟩
  · rw [filterMap_answers] at few
    rw [← count_valued] at enough
    have := few v (List.count_pos_iff.mp (by omega))
    omega

theorem Setup.length_owners_le_of_pos (factor : 1 ≤ w.cfg.replicationFactor) (key : String) :
    ((w.owners key).length : Int) ≤ w.cfg.replicationFactor := by
  cases on : w.cfg.enabled with
  | true => exact Setup.length_owners_le on key
  | false =>
      refine Int.le_trans ?_ factor
      rw [Setup.owners, Setup.replicaSet, on, if_neg Bool.false_ne_true]
      cases w.ring.owner key with
      | some owner => simp
      | none => simp

theorem Agreement.not_contextDone : ¬ Agreement quorum given (.error .contextDone) := by
  intro h
  have few (v : List UInt8) : ((answering (.value v) given).length : Int) < quorum :=
    Int.not_le.mp fun enough => by cases (h.value v).mpr enough
  have missing : ((answering .notFound given).length : Int) < quorum :=
    Int.not_le.mp fun enough => by cases h.notFound.mpr enough
  cases h.otherwise.mpr ⟨few, missing⟩

/-- The result of a quorum read is what its nodes agree on exactly if its context does not
end first and their answers are `Conclusive`, in whatever order they arrive. -/
theorem quorum_read_counts {w : Setup} (ring : w.ring.Built)
    (mode : w.cfg.readConsistency ≠ .primary ∧ w.cfg.readConsistency ≠ .any)
    (quorum : w.cfg.readQuorum ≤ w.cfg.replicationFactor)
    (overlap : w.cfg.replicationFactor < 2 * w.cfg.readQuorum) {u s : Sys}
    {past : List (Sys × Int × Action)} (initial : u.Initial) (run : RunFrom w u past s) {r : Nat}
    {read : Call} {key : String} {result : Result} (found : s.calls[r]? = some read)
    (op : read.op = .read key) (member : read.node ∈ w.owners key)
    (done : read.phase = .returned result) :
    (∀ answer, (answering answer (answers r past)).Nodup ∧
      ∀ i ∈ answering answer (answers r past), i ∈ w.owners key) ∧
    (Agreement w.cfg.readQuorum (answers r past) result ↔
      (∀ x ∈ past, x.2.2 ≠ .cancel r) ∧ Conclusive w.cfg.readQuorum (answers r past)) := by
  have new : u.calls.length ≤ r := by
    rw [initial.calls]
    exact Nat.zero_le r
  have results := results_eq_answers run new found fun _ _ => Call.polls_of_mode op mode
  have spread := (initial.regular.run run).calls r read found
  have part (answer : Response) :
      (answering answer read.results).Sublist (read.results.map Prod.fst) :=
    List.filter_sublist.map _
  rw [← results]
  refine ⟨fun answer => ⟨(spread.nodup_results ring.sound).sublist (part answer), ?_⟩, ?_⟩
  · intro i mem
    have target := spread.results_subperm.subset ((part answer).subset mem)
    rw [Call.targets, op] at target
    exact (List.mem_filter.mp target).1
  have few : (read.results.length : Int) < 2 * w.cfg.readQuorum := by
    have targets := spread.results_subperm.length_le
    have owners := List.length_filter_le (read.aims w) (w.owners read.op.key)
    have factor := Setup.length_owners_le_of_pos (w := w) (by omega) read.op.key
    rw [List.length_map, Call.targets] at targets
    omega
  rw [goes_iff]
  cases polled_run initial.regular mode run new found op member with
  | visiting phase => cases done.symm.trans phase
  | cancelled phase ended =>
      obtain rfl := Phase.returned.inj (done.symm.trans phase)
      exact iff_of_false Agreement.not_contextDone fun h => h.1 ended
  | counted phase goes =>
      obtain rfl := Phase.returned.inj (done.symm.trans phase)
      rw [and_iff_right goes]
      exact agreement_iff few

/-- A read at `a` that `b` and `c` answer as they can. -/
def fullRead (b c : Response) : List (Int × Action) :=
  [.start "a" (.read "k"), .advance 0, .advance 0, .advance 0,
    .deliver (.request 0 "b" (.replGet "k")), .deliver (.request 0 "c" (.replGet "k")),
    .deliver (.response 0 "c" (.replGet "k") c), .deliver (.response 0 "b" (.replGet "k") b),
    .getLocal 0, .advance 0].map fun a => (0, a)

/-- Two of the three nodes have the same value, and `c` has none. -/
theorem quorum_read_counts_agreed : ∃ (past : List (Sys × Int × Action)) (s : Sys) (read : Call),
    s.calls[0]? = some read ∧ read.phase = .returned (.value [1]) ∧
      Agreement 2 (answers 0 past) (.value [1]) := by
  obtain ⟨past, s, run, seen⟩ := RunFrom.of_steps sample
    (.holding (fun _ => 0) fun i => if i = "c" then none else some ([1], 0))
    (fullRead (.value [1]) .notFound)
    (fun past s => decide ((∀ x ∈ past, x.2.2 ≠ .cancel 0) ∧
      sample.cfg.readQuorum ≤ (answering (.value [1]) (answers 0 past)).length) &&
      s.calls[0]?.any fun read : Call => decide (read.op = .read "k" ∧
        read.node ∈ sample.owners "k" ∧ read.phase = .returned (.value [1]))) (by decide)
  obtain ⟨run', seen⟩ := (Bool.and_eq_true _ _).mp seen
  obtain ⟨goes, enough⟩ := of_decide_eq_true run'
  obtain ⟨read, found, seen⟩ := (Option.any_eq_true _ _).mp seen
  obtain ⟨op, member, done⟩ := of_decide_eq_true seen
  exact ⟨past, s, read, found, done, (quorum_read_counts (w := sample) sampleRing_built
    (by decide) (by decide) (by decide) (Sys.holding_initial _ _) run found op member
    done).2.mpr ⟨goes, .value [1] enough⟩⟩

/-- The three nodes have a value, another value and none. The one that comes first is
returned. -/
theorem quorum_read_disagreed : ∃ (past : List (Sys × Int × Action)) (s : Sys) (u : Sys),
    sample.cfg.validate = none ∧ sample.ring.Built ∧ sample.cfg.readConsistency = .quorum ∧
      sample.cfg.readQuorum ≤ sample.cfg.replicationFactor ∧
      sample.cfg.replicationFactor < 2 * sample.cfg.readQuorum ∧
      u.Initial ∧ RunFrom sample u past s ∧ "a" ∈ sample.owners "k" ∧
      s.Returned 0 "a" (.read "k") (.value [2]) ∧ (∀ x ∈ past, x.2.2 ≠ .cancel 0) ∧
      answers 0 past = [("c", .value [2]), ("b", .notFound), ("a", .value [1])] ∧
      ¬ Agreement 2 (answers 0 past) (.value [2]) := by
  obtain ⟨past, s, run, seen⟩ := RunFrom.of_steps sample
    (.holding (fun _ => 0) fun i =>
      if i = "a" then some ([1], 0) else if i = "c" then some ([2], 0) else none)
    (fullRead .notFound (.value [2]))
    (fun past s => decide (s.Returned 0 "a" (.read "k") (.value [2]) ∧
      (∀ x ∈ past, x.2.2 ≠ .cancel 0) ∧
      answers 0 past = [("c", .value [2]), ("b", .notFound), ("a", .value [1])])) (by decide)
  obtain ⟨returned, goes, given⟩ := of_decide_eq_true seen
  refine ⟨past, s, _, by decide, sampleRing_built, rfl, by decide, by decide,
    Sys.holding_initial _ _, run, by decide, returned, goes, given, fun h => ?_⟩
  have enough := (h.value [2]).mp rfl
  rw [given] at enough
  exact absurd enough (by decide)

end DistributedCache.Replication
