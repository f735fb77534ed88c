import Mathlib.Data.List.AList

/-!
Finite maps as Go programs use them: built by inserting key and value pairs one
after another, read with a default, iterated over without a fixed order.
-/

/-- A Go `map[K]V`. The nil map reads as the empty one. -/
abbrev GoMap (K V : Type) := AList (fun _ : K => V)

namespace GoMap

variable {K V : Type} [DecidableEq K]

/-- The map after inserting the pairs of a list in order. -/
def ofList (pairs : List (K × V)) : GoMap K V :=
  pairs.foldl (fun m p => m.insert p.1 p.2) ∅

theorem mem_foldl_insert (pairs : List (K × V)) (m : GoMap K V) (k : K) :
    k ∈ pairs.foldl (fun m p => m.insert p.1 p.2) m ↔ k ∈ m ∨ k ∈ pairs.map Prod.fst := by
  induction pairs generalizing m with
  | nil => simp
  | cons p rest ih =>
      rw [List.foldl_cons, ih, AList.mem_insert, List.map_cons, List.mem_cons]
      tauto

theorem of_lookup_foldl_insert (pairs : List (K × V)) (m : GoMap K V) {k : K} {v : V}
    (h : (pairs.foldl (fun m p => m.insert p.1 p.2) m).lookup k = some v) :
    m.lookup k = some v ∨ (k, v) ∈ pairs := by
  induction pairs generalizing m with
  | nil => exact .inl h
  | cons p rest ih =>
      rcases ih _ h with hin | hin
      · by_cases hk : k = p.1
        · subst hk
          rw [AList.lookup_insert, Option.some_inj] at hin
          exact .inr (by simp [← hin])
        · rw [AList.lookup_insert_ne hk] at hin
          exact .inl hin
      · exact .inr (List.mem_cons_of_mem _ hin)

theorem mem_ofList (pairs : List (K × V)) (k : K) :
    k ∈ ofList pairs ↔ k ∈ pairs.map Prod.fst := by
  simp [ofList, mem_foldl_insert]

theorem of_lookup_ofList {pairs : List (K × V)} {k : K} {v : V}
    (h : (ofList pairs).lookup k = some v) : (k, v) ∈ pairs := by
  rcases of_lookup_foldl_insert pairs ∅ h with hin | hin
  · simp at hin
  · exact hin

theorem mem_iff {m : GoMap K V} {k : K} : k ∈ m ↔ ∃ v, m.lookup k = some v := by
  rw [← AList.lookup_isSome, Option.isSome_iff_exists]

theorem of_lookup_erase {m : GoMap K V} {a k : K} {v : V}
    (h : (m.erase a).lookup k = some v) : m.lookup k = some v := by
  by_cases hk : k = a
  · subst hk
    simp at h
  · rwa [AList.lookup_erase_ne hk] at h

end GoMap
