import Mathlib.Algebra.BigOperators.Group.Finset.Basic
import Mathlib.Algebra.Order.BigOperators.Group.Finset
import Mathlib.Algebra.Ring.Int.Defs
import Mathlib.Data.List.Induction

/-!
Lists in order of use, most recent first, and the suffixes cut off from them.

Each step of a history uses one key or none. A step that moves the key it uses to the
front and otherwise only drops keys keeps a list in the order of the last uses. Where a use
comes with a size, what stands before a key in the list needs no more than all keys that have
been used since, each at its largest.
-/
namespace Recency

variable {κ α : Type*} [DecidableEq κ] {uses : List (Option κ)} {keys kept : List κ} {k : κ}

/-- The number of the last step that used the key, counted from one, or zero. The history
has its latest step first. -/
def lastUse : List (Option κ) → κ → Nat
  | [], _ => 0
  | use :: earlier, k => if use = some k then earlier.length + 1 else lastUse earlier k

theorem lastUse_le (uses : List (Option κ)) (k : κ) : lastUse uses k ≤ uses.length := by
  induction uses with
  | nil => simp [lastUse]
  | cons use earlier ih =>
      rw [lastUse, List.length_cons]
      split
      · exact Nat.le_refl _
      · exact Nat.le_succ_of_le ih

theorem lastUse_none (uses : List (Option κ)) (k : κ) :
    lastUse (none :: uses) k = lastUse uses k := by
  simp [lastUse]

theorem lastUse_self (uses : List (Option κ)) (k : κ) :
    lastUse (some k :: uses) k = uses.length + 1 := by
  simp [lastUse]

theorem lastUse_other {k' : κ} (other : k' ≠ k) :
    lastUse (some k :: uses) k' = lastUse uses k' := by
  simp [lastUse, other.symm]

/-- Every key of the list has been used, and a key stands before those last used earlier. -/
structure Ordered (uses : List (Option κ)) (keys : List κ) : Prop where
  used : ∀ k ∈ keys, 0 < lastUse uses k
  decreasing : keys.Pairwise fun k k' => lastUse uses k' < lastUse uses k

theorem Ordered.nil (uses : List (Option κ)) : Ordered uses [] :=
  ⟨nofun, .nil⟩

theorem Ordered.drop (h : Ordered uses keys) (part : kept.Sublist keys) :
    Ordered (none :: uses) kept where
  used := fun k mem => by
    rw [lastUse_none]
    exact h.used k (part.subset mem)
  decreasing := by
    simp only [lastUse_none]
    exact h.decreasing.sublist part

theorem Ordered.use (h : Ordered uses keys) (part : kept.Sublist keys) (new : k ∉ kept) :
    Ordered (some k :: uses) (k :: kept) where
  used := fun k' mem => by
    by_cases same : k' = k
    · subst same
      simp [lastUse_self]
    · rw [lastUse_other same]
      exact h.used k' (part.subset ((List.mem_cons.mp mem).resolve_left same))
  decreasing := by
    have others (k' : κ) (mem : k' ∈ kept) : lastUse (some k :: uses) k' = lastUse uses k' :=
      lastUse_other fun same => new (same ▸ mem)
    refine List.pairwise_cons.mpr ⟨fun k' mem => ?_, ?_⟩
    · rw [others k' mem, lastUse_self]
      exact Nat.lt_succ_of_le (lastUse_le uses k')
    · refine (h.decreasing.sublist part).imp_of_mem fun {k₁ k₂} mem₁ mem₂ less => ?_
      rw [others k₁ mem₁, others k₂ mem₂]
      exact less

/-- What is left of a list without its shortest suffix that leaves something with `P`. -/
structure Cut (P : List α → Prop) (l kept dropped : List α) : Prop where
  split : l = kept ++ dropped
  holds : P kept
  shortest : ∀ kept' dropped', l = kept' ++ dropped' → P kept' → dropped.length ≤ dropped'.length

theorem Cut.refl {P : List α → Prop} {l : List α} (holds : P l) : Cut P l l [] where
  split := (List.append_nil l).symm
  holds := holds
  shortest := fun _ _ _ _ => Nat.zero_le _

/-- A list without `P` loses its last element. -/
theorem Cut.concat {P : List α → Prop} {l kept dropped : List α} {x : α}
    (fails : ¬ P (l ++ [x])) (cut : Cut P l kept dropped) :
    Cut P (l ++ [x]) kept (dropped ++ [x]) where
  split := by rw [cut.split, List.append_assoc]
  holds := cut.holds
  shortest := fun kept' dropped' split holds => by
    cases dropped' using List.reverseRecOn with
    | nil =>
        rw [List.append_nil] at split
        exact absurd (split ▸ holds) fails
    | append_singleton init last =>
        rw [← List.append_assoc] at split
        obtain ⟨same, _⟩ := List.append_inj' split rfl
        have := cut.shortest kept' init same holds
        simp only [List.length_append, List.length_singleton]
        omega

section Demand

variable {sized : List (Option (κ × Int))} {use : Option (κ × Int)} {k' : κ} {size : Int}

/-- The keys of the uses. -/
def keysOf (sized : List (Option (κ × Int))) : List (Option κ) :=
  sized.map (Option.map Prod.fst)

/-- The steps since the last use of the key, with that use. -/
def since (k : κ) : List (Option (κ × Int)) → List (Option (κ × Int))
  | [] => []
  | use :: earlier => if use.map Prod.fst = some k then [use] else use :: since k earlier

/-- The size with which the key was used last. -/
def lastSize : List (Option (κ × Int)) → κ → Option Int
  | [], _ => none
  | use :: earlier, k => if use.map Prod.fst = some k then use.map Prod.snd else lastSize earlier k

/-- The largest size with which the key has been used. -/
def peak : List (Option (κ × Int)) → κ → Int
  | [], _ => 0
  | use :: earlier, k =>
      if use.map Prod.fst = some k then max ((use.map Prod.snd).getD 0) (peak earlier k)
      else peak earlier k

/-- What all keys that have been used need together, each at its largest. -/
def demand (sized : List (Option (κ × Int))) : Int :=
  ∑ k ∈ ((keysOf sized).filterMap id).toFinset, peak sized k

theorem since_other (other : use.map Prod.fst ≠ some k) :
    since k (use :: sized) = use :: since k sized :=
  if_neg other

theorem lastSize_other (other : use.map Prod.fst ≠ some k) :
    lastSize (use :: sized) k = lastSize sized k :=
  if_neg other

theorem lastSize_self : lastSize (some (k, size) :: sized) k = some size :=
  if_pos rfl

theorem peak_le_cons (use : Option (κ × Int)) (sized : List (Option (κ × Int))) (k : κ) :
    peak sized k ≤ peak (use :: sized) k := by
  rw [peak]
  split
  · exact le_max_right _ _
  · exact le_refl _

theorem peak_nonneg (sized : List (Option (κ × Int))) (k : κ) : 0 ≤ peak sized k := by
  induction sized with
  | nil => exact le_refl _
  | cons use earlier ih => exact ih.trans (peak_le_cons use earlier k)

theorem le_peak_cons (here : use.map Prod.fst = some k') (size' : use.map Prod.snd = some size)
    (sized : List (Option (κ × Int))) : size ≤ peak (use :: sized) k' := by
  rw [peak, if_pos here, size']
  exact le_max_left _ _

theorem mem_used : k' ∈ ((keysOf sized).filterMap id).toFinset ↔ some k' ∈ keysOf sized := by
  simp

theorem demand_le_cons (use : Option (κ × Int)) (sized : List (Option (κ × Int))) :
    demand sized ≤ demand (use :: sized) := by
  refine (Finset.sum_le_sum fun k _ => peak_le_cons use sized k).trans ?_
  refine Finset.sum_le_sum_of_subset_of_nonneg (fun k mem => ?_) fun k _ _ => peak_nonneg _ k
  rw [mem_used] at mem ⊢
  exact List.mem_cons_of_mem _ mem

/-- A key that has been used after another one counts for what that one has to stand beside. -/
theorem lastSize_le_peak (found : lastSize sized k' = some size)
    (recent : lastUse (keysOf sized) k ≤ lastUse (keysOf sized) k') :
    some k' ∈ keysOf (since k sized) ∧ size ≤ peak (since k sized) k' := by
  induction sized with
  | nil => cases found
  | cons use earlier ih =>
      by_cases here : use.map Prod.fst = some k'
      · rw [lastSize, if_pos here] at found
        rw [since]
        split
        · exact ⟨here ▸ List.mem_cons_self, le_peak_cons here found _⟩
        · exact ⟨here ▸ List.mem_cons_self, le_peak_cons here found _⟩
      · rw [lastSize_other here] at found
        have other : use.map Prod.fst ≠ some k := by
          intro same
          have := lastUse_le (keysOf earlier) k'
          rw [keysOf, List.map_cons, lastUse, lastUse, if_pos same, if_neg here] at recent
          unfold keysOf at this
          omega
        rw [keysOf, List.map_cons, lastUse, lastUse, if_neg other, if_neg here] at recent
        obtain ⟨mem, le⟩ := ih found recent
        rw [since_other other]
        exact ⟨List.mem_cons_of_mem _ mem, le.trans (peak_le_cons use _ k')⟩

/-- Distinct keys that have been used since the last use of a key need no more than all of
them. -/
theorem sum_le_demand {items : List (κ × Int)} (distinct : (items.map Prod.fst).Nodup)
    (sizes : ∀ x ∈ items, lastSize sized x.1 = some x.2 ∧
      lastUse (keysOf sized) k ≤ lastUse (keysOf sized) x.1) :
    (items.map Prod.snd).sum ≤ demand (since k sized) := by
  have each (x : κ × Int) (mem : x ∈ items) :=
    lastSize_le_peak (sizes x mem).1 (sizes x mem).2
  calc (items.map Prod.snd).sum
      ≤ (items.map fun x => peak (since k sized) x.1).sum :=
        List.sum_le_sum fun x mem => (each x mem).2
    _ = ((items.map Prod.fst).map (peak (since k sized))).sum := by rw [List.map_map]; rfl
    _ = ∑ k' ∈ (items.map Prod.fst).toFinset, peak (since k sized) k' :=
        (List.sum_toFinset _ distinct).symm
    _ ≤ demand (since k sized) := by
        refine Finset.sum_le_sum_of_subset_of_nonneg (fun k' mem => ?_)
          fun k' _ _ => peak_nonneg _ k'
        obtain ⟨x, listed, rfl⟩ := List.mem_map.mp (List.mem_toFinset.mp mem)
        exact mem_used.mpr (each x listed).1

end Demand

end Recency
