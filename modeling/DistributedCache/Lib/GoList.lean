import Mathlib.Data.List.Nodup
import Mathlib.Data.List.Perm.Basic

/-!
Doubly linked lists as Go's `container/list` has them. An element keeps its
identity while it is moved, so a map can hold elements of a list and hand them
back to it. The list numbers its elements in the order in which it makes them.
-/

structure GoList.Element (α : Type) where
  id : Nat
  value : α
  deriving DecidableEq, Repr

/-- A list, front first. Every element was made by this list, once. -/
structure GoList (α : Type) where
  elements : List (GoList.Element α)
  made : Nat
  fresh : ∀ e ∈ elements, e.id < made
  distinct : (elements.map GoList.Element.id).Nodup

namespace GoList

variable {α : Type} {l : GoList α} {e x : Element α}

/-- The call `list.New()`. -/
def new : GoList α where
  elements := []
  made := 0
  fresh := by simp
  distinct := List.nodup_nil

/-- The element that `PushFront` makes and returns. -/
def pushed (l : GoList α) (v : α) : Element α :=
  ⟨l.made, v⟩

def pushFront (l : GoList α) (v : α) : GoList α where
  elements := l.pushed v :: l.elements
  made := l.made + 1
  fresh := by
    intro e he
    rcases List.mem_cons.mp he with rfl | he
    · exact Nat.lt_succ_self _
    · exact Nat.lt_succ_of_lt (l.fresh e he)
  distinct := by
    refine List.nodup_cons.mpr ⟨fun mem => ?_, l.distinct⟩
    obtain ⟨e, he, same⟩ := List.mem_map.mp mem
    exact absurd same (Nat.ne_of_lt (l.fresh e he))

/-- Removing an element that is not in the list does nothing. -/
def remove (l : GoList α) (e : Element α) : GoList α where
  elements := l.elements.eraseP fun x => x.id = e.id
  made := l.made
  fresh x hx := l.fresh x (List.eraseP_subset hx)
  distinct := l.distinct.sublist (List.eraseP_sublist.map Element.id)

theorem remove_middle {l₁ l₂ : List (Element α)} (split : l.elements = l₁ ++ e :: l₂) :
    (l.remove e).elements = l₁ ++ l₂ := by
  have distinct := l.distinct
  rw [split, List.map_append, List.nodup_append] at distinct
  have before : ∀ x ∈ l₁, ¬ decide (x.id = e.id) = true := by
    intro x hx same
    exact distinct.2.2 _ (List.mem_map_of_mem hx) _ List.mem_cons_self (of_decide_eq_true same)
  change l.elements.eraseP _ = _
  rw [split, List.eraseP_append_right _ before, List.eraseP_cons_of_pos (by simp)]

theorem perm_remove (he : e ∈ l.elements) : l.elements.Perm (e :: (l.remove e).elements) := by
  obtain ⟨l₁, l₂, split⟩ := List.append_of_mem he
  rw [remove_middle split, split]
  exact List.perm_middle

theorem remove_sublist (l : GoList α) (e : Element α) :
    (l.remove e).elements.Sublist l.elements :=
  List.eraseP_sublist

theorem mem_remove (he : e ∈ l.elements) : x ∈ (l.remove e).elements ↔ x ∈ l.elements ∧ x ≠ e := by
  have perm := perm_remove he
  have nodup : (e :: (l.remove e).elements).Nodup :=
    perm.nodup_iff.mp (List.Nodup.of_map Element.id l.distinct)
  constructor
  · intro hx
    refine ⟨perm.mem_iff.mpr (List.mem_cons_of_mem _ hx), ?_⟩
    rintro rfl
    exact (List.nodup_cons.mp nodup).1 hx
  · rintro ⟨hx, ne⟩
    exact (List.mem_cons.mp (perm.mem_iff.mp hx)).resolve_left ne

/-- `MoveToFront` leaves the list alone if the element is not in it. -/
def moveToFront [DecidableEq α] (l : GoList α) (e : Element α) : GoList α :=
  if he : e ∈ l.elements then
    { elements := e :: (l.remove e).elements
      made := l.made
      fresh := fun _ hx => l.fresh _ ((perm_remove he).mem_iff.mpr hx)
      distinct := ((perm_remove he).map Element.id).nodup_iff.mp l.distinct }
  else l

theorem moveToFront_of_mem [DecidableEq α] (he : e ∈ l.elements) :
    (l.moveToFront e).elements = e :: (l.remove e).elements := by
  rw [moveToFront, dif_pos he]

theorem perm_moveToFront [DecidableEq α] (l : GoList α) (e : Element α) :
    (l.moveToFront e).elements.Perm l.elements := by
  unfold moveToFront
  split
  · rename_i he
    exact (perm_remove he).symm
  · exact List.Perm.refl _

end GoList
