import Mathlib.Algebra.Ring.Parity
import Mathlib.Data.Finset.Card
import Mathlib.Data.List.Perm.Subperm

/-!
Strict majorities of a finite set of members. Any two of them meet; that is the
only combinatorial fact the agreement arguments of the library rest on. For members
given as lists, two disjoint groups do not outnumber them.
-/
namespace Quorum

variable {ι : Type*} [DecidableEq ι]

/-- `Q` holds more than half of the members. -/
structure Majority (members Q : Finset ι) : Prop where
  subset : Q ⊆ members
  half_lt : members.card < 2 * Q.card

theorem Majority.meet {members Q R : Finset ι}
    (hQ : Majority members Q) (hR : Majority members R) : ∃ x ∈ Q, x ∈ R := by
  by_contra none
  have disjoint : Disjoint Q R :=
    Finset.disjoint_left.mpr fun x hx hx' => none ⟨x, hx, hx'⟩
  have both : (Q ∪ R).card = Q.card + R.card := Finset.card_union_of_disjoint disjoint
  have bound := Finset.card_le_card (Finset.union_subset hQ.subset hR.subset)
  have := hQ.half_lt
  have := hR.half_lt
  omega

omit [DecidableEq ι] in
/-- With an odd number of members, half of the others rounded down, plus one,
is a majority as soon as the member itself is counted too. -/
theorem Majority.of_threshold {members Q : Finset ι} (odd : Odd members.card)
    (subset : Q ⊆ members) (enough : (members.card - 1) / 2 + 1 ≤ Q.card) :
    Majority members Q := by
  refine ⟨subset, ?_⟩
  obtain ⟨m, hm⟩ := odd
  omega

omit [DecidableEq ι] in
theorem length_add_le {members Q R : List ι} (hQ : Q.Nodup) (hR : R.Nodup)
    (disjoint : ∀ x ∈ Q, x ∉ R) (subQ : Q ⊆ members) (subR : R ⊆ members) :
    Q.length + R.length ≤ members.length := by
  have nodup : (Q ++ R).Nodup :=
    List.nodup_append'.mpr ⟨hQ, hR, fun x hx hx' => disjoint x hx hx'⟩
  rw [← List.length_append]
  exact (nodup.subperm (List.append_subset.mpr ⟨subQ, subR⟩)).length_le

end Quorum
