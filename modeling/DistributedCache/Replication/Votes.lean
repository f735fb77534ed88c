import Mathlib.Data.List.Count
import DistributedCache.Replication.Manager

/-!
The count of `readQuorum`. A value with enough votes wins. Without one, the number of
votes alone decides between the first value that came, its absence, and an error.
-/
namespace DistributedCache.Replication

variable {readQuorum : Int} {answers : List (Option (List UInt8))} {v : List UInt8}

/-- The result for the values `votes`, in the order of their arrival, if none of them
comes often enough. -/
def undecided (readQuorum : Int) (votes : List (List UInt8)) : Result :=
  if readQuorum ≤ votes.length then .value (votes.head?.getD [])
  else if votes.length = 0 then .notFound
  else .error .readQuorumNotMet

/-- The loop invariant: `seen` has been counted, and no value in it has won. -/
theorem countAnswers_from (answers : List (Option (List UInt8))) (values : GoMap (List UInt8) Nat)
    (seen : List (List UInt8)) (counted : ∀ v, (values.lookup v).getD 0 = seen.count v)
    (open' : ∀ v ∈ seen, (seen.count v : Int) < readQuorum) :
    (∃ v ∈ seen ++ answers.filterMap id,
      readQuorum ≤ ((seen ++ answers.filterMap id).count v : Int) ∧
        countAnswers readQuorum answers values seen.length seen.head? = .value v) ∨
    ((∀ v ∈ seen ++ answers.filterMap id,
      ((seen ++ answers.filterMap id).count v : Int) < readQuorum) ∧
        countAnswers readQuorum answers values seen.length seen.head? =
          undecided readQuorum (seen ++ answers.filterMap id)) := by
  induction answers generalizing values seen with
  | nil =>
      refine .inr ⟨?_, ?_⟩
      · simpa using open'
      · simp [countAnswers, undecided]
  | cons answer rest ih =>
      cases answer with
      | none => simpa [countAnswers] using ih values seen counted open'
      | some x =>
          have votes : (values.lookup x).getD 0 + 1 = (seen ++ [x]).count x := by
            rw [counted, List.count_append, List.count_singleton_self]
          have all : seen ++ (some x :: rest).filterMap id =
              (seen ++ [x]) ++ rest.filterMap id := by simp
          rw [all, countAnswers, votes]
          split
          · rename_i wins
            refine .inl ⟨x, by simp, ?_, rfl⟩
            rw [List.count_append]
            omega
          · rename_i loses
            have length : seen.length + 1 = (seen ++ [x]).length := by simp
            have head : seen.head?.or (some x) = (seen ++ [x]).head? := by
              cases seen <;> rfl
            have others (v : List UInt8) (ne : v ≠ x) : (seen ++ [x]).count v = seen.count v := by
              rw [List.count_append, List.count_singleton]
              simp [ne.symm]
            rw [length, head]
            refine ih _ (seen ++ [x]) ?_ ?_
            · intro v
              by_cases same : v = x
              · subst same
                rw [AList.lookup_insert]
                rfl
              · rw [AList.lookup_insert_ne same, counted, others v same]
            · intro v mem
              by_cases same : v = x
              · subst same
                exact Int.not_le.mp loses
              · rw [others v same]
                exact open' v (by simpa [same] using mem)

theorem countAnswers_cases (readQuorum : Int) (answers : List (Option (List UInt8))) :
    (∃ v ∈ answers.filterMap id, readQuorum ≤ ((answers.filterMap id).count v : Int) ∧
      countAnswers readQuorum answers ∅ 0 none = .value v) ∨
    ((∀ v ∈ answers.filterMap id, ((answers.filterMap id).count v : Int) < readQuorum) ∧
      countAnswers readQuorum answers ∅ 0 none =
        undecided readQuorum (answers.filterMap id)) :=
  countAnswers_from answers ∅ [] (by simp) (by simp)

/-- The votes make the read return `v` or an error: enough of them are for `v`, or there
are some but too few, or none has enough and the first is for `v`. -/
def Decided (readQuorum : Int) (v : List UInt8) (votes : List (List UInt8)) : Prop :=
  readQuorum ≤ votes.count v ∨
    (votes ≠ [] ∧ ((votes.length : Int) < readQuorum ∨ votes.head? = some v))

instance (readQuorum : Int) (v : List UInt8) (votes : List (List UInt8)) :
    Decidable (Decided readQuorum v votes) :=
  inferInstanceAs (Decidable (_ ∨ (_ ∧ (_ ∨ _))))

theorem value_or_error_iff
    (others : ∀ x ∈ answers.filterMap id, x ≠ v →
      ((answers.filterMap id).count x : Int) < readQuorum)
    (asked : readQuorum ≤ 0 → answers.filterMap id ≠ []) :
    (countAnswers readQuorum answers ∅ 0 none = .value v ∨
      ∃ err, countAnswers readQuorum answers ∅ 0 none = .error err) ↔
      Decided readQuorum v (answers.filterMap id) := by
  rcases countAnswers_cases readQuorum answers with ⟨x, mem, enough, result⟩ | ⟨few, result⟩
  · have same : x = v := by
      by_contra ne
      have := others x mem ne
      omega
    subst same
    exact iff_of_true (.inl result) (.inl enough)
  · rw [result]
    generalize answers.filterMap id = votes at few others asked
    unfold undecided Decided
    cases votes with
    | nil =>
        have positive : ¬ readQuorum ≤ 0 := fun h => asked h rfl
        refine iff_of_false ?_ ?_
        · simp [positive]
        · simp [positive]
    | cons first rest =>
        have lost : ¬ readQuorum ≤ (List.count v (first :: rest) : Int) := by
          intro enough
          by_cases mem : v ∈ first :: rest
          · have := few v mem
            omega
          · have := few first List.mem_cons_self
            rw [List.count_eq_zero.mpr mem] at enough
            omega
        by_cases many : readQuorum ≤ ((first :: rest).length : Int)
        · rw [if_pos many, or_iff_right lost, and_iff_right (List.cons_ne_nil _ _),
            or_iff_right (Int.not_lt.mpr many)]
          simp
        · rw [if_neg many, if_neg (by simp)]
          refine iff_of_true (.inr ⟨_, rfl⟩) (.inr ⟨by simp, .inl (Int.not_le.mp many)⟩)

/-- Fewer values than the quorum never make the read return one. -/
theorem countAnswers_ne_value (few : ((answers.filterMap id).length : Int) < readQuorum) :
    countAnswers readQuorum answers ∅ 0 none ≠ .value v := by
  rcases countAnswers_cases readQuorum answers with ⟨x, mem, enough, _⟩ | ⟨_, result⟩
  · have := List.count_le_length (a := x) (l := answers.filterMap id)
    omega
  · rw [result, undecided, if_neg (Int.not_le.mpr few)]
    split <;> nofun

/-- Enough votes for one value and none for another make the read return it. -/
theorem countAnswers_of_all (all : ∀ x ∈ answers.filterMap id, x = v)
    (some : answers.filterMap id ≠ [])
    (enough : readQuorum ≤ (answers.filterMap id).length) :
    countAnswers readQuorum answers ∅ 0 none = .value v := by
  rcases countAnswers_cases readQuorum answers with ⟨x, mem, _, result⟩ | ⟨few, _⟩
  · rw [result, all x mem]
  · obtain ⟨x, mem⟩ := List.exists_mem_of_ne_nil _ some
    have same := few x mem
    rw [all x mem, List.count_eq_length.mpr fun y hy => (all y hy).symm] at same
    omega

end DistributedCache.Replication
