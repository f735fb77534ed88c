import Mathlib.Data.List.Basic

/-!
Slices as Go programs use them: a part of an array that begins at some element of it, with
room for more elements up to the end of the array.

`append` writes into that room if it is enough, and copies into a new array otherwise. How
much room a new array has is up to the runtime and given as a function of the length.
-/

/-- A Go `[]T`: the array from the first element of the slice on, and the length. -/
structure GoSlice (α : Type) where
  array : List α
  length : Nat
  fits : length ≤ array.length
  deriving DecidableEq, Repr

namespace GoSlice

variable {α : Type}

def toList (s : GoSlice α) : List α :=
  s.array.take s.length

def nil : GoSlice α where
  array := []
  length := 0
  fits := Nat.le_refl 0

/-- `s[:0]`. -/
def clear (s : GoSlice α) : GoSlice α where
  array := s.array
  length := 0
  fits := Nat.zero_le _

/-- `s[1:]`, which is out of bounds for an empty slice. -/
def tail? (s : GoSlice α) : Option (GoSlice α) :=
  if nonempty : 1 ≤ s.length then
    some {
      array := s.array.drop 1
      length := s.length - 1
      fits := by
        have fits := s.fits
        rw [List.length_drop]
        omega }
  else none

/-- `append(s, xs...)`. The elements are moved as a whole, so they may be those of the array
that is written. -/
def append [Inhabited α] (growth : Nat → Nat) (s : GoSlice α) (xs : List α) : GoSlice α :=
  if room : s.length + xs.length ≤ s.array.length then
    { array := s.toList ++ xs ++ s.array.drop (s.length + xs.length)
      length := s.length + xs.length
      fits := by
        simp only [toList, List.length_append, List.length_take, List.length_drop]
        omega }
  else
    { array := s.toList ++ xs ++ List.replicate (growth (s.length + xs.length)) default
      length := s.length + xs.length
      fits := by
        have fits := s.fits
        simp only [toList, List.length_append, List.length_take, List.length_replicate]
        omega }

@[simp]
theorem length_toList (s : GoSlice α) : s.toList.length = s.length :=
  List.length_take_of_le s.fits

@[simp]
theorem toList_clear (s : GoSlice α) : s.clear.toList = [] :=
  rfl

theorem tail?_eq {s : GoSlice α} (nonempty : 1 ≤ s.length) :
    ∃ t, s.tail? = some t ∧ t.toList = s.toList.tail := by
  refine ⟨_, dif_pos nonempty, ?_⟩
  simp [toList, ← List.drop_one, List.drop_take]

/-- Whether or not there is room, the elements come behind those of the slice. -/
@[simp]
theorem toList_append [Inhabited α] (growth : Nat → Nat) (s : GoSlice α) (xs : List α) :
    (s.append growth xs).toList = s.toList ++ xs := by
  have size : (s.toList ++ xs).length = s.length + xs.length := by simp
  unfold append
  split
  · exact List.take_left' size
  · exact List.take_left' size

end GoSlice

/-- The last elements of a list, at most so many. -/
def lastN {α : Type} (n : Nat) (l : List α) : List α :=
  l.drop (l.length - n)

section LastN

variable {α : Type} {n : Nat} {l : List α}

theorem length_lastN : (lastN n l).length = min l.length n := by
  simp [lastN]
  omega

theorem lastN_eq_self (short : l.length ≤ n) : lastN n l = l := by
  rw [lastN, Nat.sub_eq_zero_of_le short, List.drop_zero]

theorem lastN_min (l : List α) : lastN (min l.length n) l = lastN n l := by
  rw [lastN, lastN]
  congr 1
  omega

/-- A new element pushes the oldest one out, once there are so many. -/
theorem lastN_concat (some : 1 ≤ n) (l : List α) (a : α) :
    lastN n (l ++ [a]) = if l.length < n then l ++ [a] else (lastN n l).tail ++ [a] := by
  split
  · exact lastN_eq_self (by simp; omega)
  · have left : (l ++ [a]).length - n = l.length - n + 1 := by simp; omega
    rw [lastN, lastN, left, List.drop_append_of_le_length (by omega), List.tail_drop]

end LastN
