import Mathlib.Algebra.Group.Nat.Defs
import Mathlib.Data.List.Pairwise
import Mathlib.Data.List.Perm.Basic

/-!
The circle of 32-bit positions, walked in the direction of growing positions.

The first half compares a sorted list of positions, cut at a point and joined the
other way round, with the distances from that point. The second half is about the
order in which a walk meets the labels of what it passes.
-/
namespace Circle

/-- How far a position lies ahead of the start. -/
def distance (start position : UInt32) : Nat :=
  (position - start).toNat

variable {start p q : UInt32} {l : List UInt32}

theorem distance_ahead (ahead : start ≤ p) : distance start p = p.toNat - start.toNat := by
  have le : start.toNat ≤ p.toNat := UInt32.le_iff_toNat_le.mp ahead
  have bound := p.toNat_lt
  unfold distance
  rw [UInt32.toNat_sub]
  omega

theorem distance_behind (behind : p < start) :
    distance start p = 2 ^ 32 - start.toNat + p.toNat := by
  have lt : p.toNat < start.toNat := UInt32.lt_iff_toNat_lt.mp behind
  have bound := start.toNat_lt
  unfold distance
  rw [UInt32.toNat_sub]
  omega

theorem eq_of_distance_eq (same : distance start p = distance start q) : p = q := by
  have boundp := p.toNat_lt
  have boundq := q.toNat_lt
  have bound := start.toNat_lt
  unfold distance at same
  rw [UInt32.toNat_sub, UInt32.toNat_sub] at same
  exact UInt32.toNat_inj.mp (by omega)

/-- The positions from the first one at or after the start, then those before it. -/
def turn (start : UInt32) (l : List UInt32) : List UInt32 :=
  l.drop (l.findIdx (start ≤ ·)) ++ l.take (l.findIdx (start ≤ ·))

theorem perm_turn (start : UInt32) (l : List UInt32) : (turn start l).Perm l :=
  List.perm_append_comm.trans (by rw [List.take_append_drop])

theorem mem_turn : p ∈ turn start l ↔ p ∈ l :=
  (perm_turn start l).mem_iff

theorem le_of_mem_drop (sorted : l.Pairwise (· ≤ ·))
    (mem : p ∈ l.drop (l.findIdx (start ≤ ·))) : start ≤ p := by
  induction l with
  | nil => simp at mem
  | cons x rest ih =>
      rw [List.findIdx_cons] at mem
      rw [List.pairwise_cons] at sorted
      by_cases here : start ≤ x
      · rw [decide_eq_true here, cond_true, List.drop_zero] at mem
        cases List.mem_cons.mp mem with
        | inl first => exact first ▸ here
        | inr later => exact UInt32.le_trans here (sorted.1 p later)
      · rw [decide_eq_false here, cond_false, List.drop_succ_cons] at mem
        exact ih sorted.2 mem

theorem lt_of_mem_take (mem : p ∈ l.take (l.findIdx (start ≤ ·))) : p < start := by
  induction l with
  | nil => simp at mem
  | cons x rest ih =>
      rw [List.findIdx_cons] at mem
      by_cases here : start ≤ x
      · rw [decide_eq_true here, cond_true, List.take_zero] at mem
        exact absurd mem List.not_mem_nil
      · rw [decide_eq_false here, cond_false, List.take_succ_cons] at mem
        cases List.mem_cons.mp mem with
        | inl first => exact first ▸ UInt32.not_le.mp here
        | inr later => exact ih later

/-- A walk that starts in a sorted list at a point meets the positions in the order of
their distances from it. -/
theorem pairwise_turn (start : UInt32) (sorted : l.Pairwise (· ≤ ·)) :
    (turn start l).Pairwise fun p q => distance start p ≤ distance start q := by
  refine List.pairwise_append.mpr ⟨?_, ?_, ?_⟩
  · refine (sorted.sublist (List.drop_sublist _ l)).imp_of_mem ?_
    intro p q memp memq le
    have nat := UInt32.le_iff_toNat_le.mp le
    rw [distance_ahead (le_of_mem_drop sorted memp), distance_ahead (le_of_mem_drop sorted memq)]
    omega
  · refine (sorted.sublist (List.take_sublist _ l)).imp_of_mem ?_
    intro p q memp memq le
    have nat := UInt32.le_iff_toNat_le.mp le
    rw [distance_behind (lt_of_mem_take memp), distance_behind (lt_of_mem_take memq)]
    omega
  · intro p memp q memq
    rw [distance_ahead (le_of_mem_drop sorted memp), distance_behind (lt_of_mem_take memq)]
    have bound := p.toNat_lt
    have above := UInt32.le_iff_toNat_le.mp (le_of_mem_drop sorted memp)
    omega

/-- The distance to the nearest of some positions. -/
def nearest (start : UInt32) (l : List UInt32) : Nat :=
  (l.map (distance start)).min?.getD 0

theorem nearest_le (mem : p ∈ l) : nearest start l ≤ distance start p :=
  List.min?_getD_le_of_mem (List.mem_map_of_mem mem)

theorem exists_nearest (start : UInt32) (some : l ≠ []) :
    ∃ p ∈ l, nearest start l = distance start p := by
  cases least : (l.map (distance start)).min? with
  | none => exact absurd (List.map_eq_nil_iff.mp (List.min?_eq_none_iff.mp least)) some
  | some d =>
      obtain ⟨p, mem, rfl⟩ := List.mem_map.mp (List.min?_mem least)
      exact ⟨p, mem, by rw [nearest, least, Option.getD_some]⟩

section FirstSeen

variable {α β : Type*} [DecidableEq β] {label : α → Option β} {l : List α} {seen : List β}

/-- The labels along a list in the order in which they are first met, except those that
have been seen before. -/
def firstSeen (label : α → Option β) : List α → List β → List β
  | [], _ => []
  | a :: rest, seen =>
      match label a with
      | none => firstSeen label rest seen
      | some b =>
          if b ∈ seen then firstSeen label rest seen
          else b :: firstSeen label rest (b :: seen)

theorem mem_firstSeen {b : β} :
    b ∈ firstSeen label l seen ↔ b ∉ seen ∧ ∃ a ∈ l, label a = some b := by
  induction l generalizing seen with
  | nil => simp [firstSeen]
  | cons a rest ih =>
      unfold firstSeen
      split
      · rename_i unlabelled
        simp [ih, unlabelled]
      · rename_i x labelled
        split
        · rename_i known
          rw [ih]
          by_cases same : b = x
          · subst same
            simp [known]
          · simp [labelled, Ne.symm same]
        · rename_i new
          rw [List.mem_cons, ih]
          by_cases same : b = x
          · subst same
            simp [labelled, new]
          · simp [labelled, same, Ne.symm same]

theorem nodup_firstSeen (label : α → Option β) (l : List α) (seen : List β) :
    (firstSeen label l seen).Nodup := by
  induction l generalizing seen with
  | nil => exact List.nodup_nil
  | cons a rest ih =>
      unfold firstSeen
      split
      · exact ih seen
      · split
        · exact ih seen
        · refine List.nodup_cons.mpr ⟨?_, ih _⟩
          intro again
          exact (mem_firstSeen.mp again).1 List.mem_cons_self

theorem firstSeen_congr {seen' : List β} (same : ∀ b, b ∈ seen ↔ b ∈ seen') :
    firstSeen label l seen = firstSeen label l seen' := by
  induction l generalizing seen seen' with
  | nil => rfl
  | cons a rest ih =>
      unfold firstSeen
      split
      · exact ih same
      · rename_i b _
        have more : ∀ x, x ∈ b :: seen ↔ x ∈ b :: seen' := by
          intro x
          rw [List.mem_cons, List.mem_cons, same]
        rw [ih same, ih more]
        exact if_congr (same b) rfl rfl

/-- One of two labels is met before the other only at a place that comes before all
places of the other. -/
theorem pairwise_firstSeen {R : α → α → Prop} (ordered : l.Pairwise R) :
    (firstSeen label l seen).Pairwise fun b b' =>
      ∃ a ∈ l, label a = some b ∧ ∀ a' ∈ l, label a' = some b' → R a a' := by
  induction l generalizing seen with
  | nil => exact List.Pairwise.nil
  | cons a rest ih =>
      obtain ⟨ahead, ordered⟩ := List.pairwise_cons.mp ordered
      -- What holds of the rest holds of the whole list for labels that `a` does not have.
      have widen (known : List β) (other : ∀ b' ∈ firstSeen label rest known, label a ≠ some b') :
          (firstSeen label rest known).Pairwise fun b b' =>
            ∃ x ∈ a :: rest, label x = some b ∧ ∀ x' ∈ a :: rest, label x' = some b' → R x x' := by
        refine (ih ordered).imp_of_mem ?_
        intro b b' _ mem' found
        obtain ⟨x, mem, labelled, before⟩ := found
        refine ⟨x, List.mem_cons_of_mem a mem, labelled, ?_⟩
        intro x' memx' labelled'
        cases List.mem_cons.mp memx' with
        | inl first => exact absurd (first ▸ labelled') (other b' mem')
        | inr later => exact before x' later labelled'
      unfold firstSeen
      split
      · rename_i unlabelled
        exact widen seen fun b' _ => by simp [unlabelled]
      · rename_i b labelled
        split
        · rename_i known
          refine widen seen fun b' mem' same => ?_
          rw [labelled] at same
          cases same
          exact (mem_firstSeen.mp mem').1 known
        · have fresh : ∀ b' ∈ firstSeen label rest (b :: seen), label a ≠ some b' := by
            intro b' mem' same
            rw [labelled] at same
            cases same
            exact (mem_firstSeen.mp mem').1 List.mem_cons_self
          refine List.pairwise_cons.mpr ⟨?_, widen _ fresh⟩
          intro b' mem'
          refine ⟨a, List.mem_cons_self, labelled, ?_⟩
          intro x' memx' labelled'
          cases List.mem_cons.mp memx' with
          | inl first => exact absurd (first ▸ labelled') (fresh b' mem')
          | inr later => exact ahead x' later

end FirstSeen

end Circle
