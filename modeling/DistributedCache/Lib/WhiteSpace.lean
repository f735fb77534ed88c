import DistributedCache.Lib.GoText

/-!
White space around a string.

A blank string is a row of white space characters. `TrimSpace` takes off the blank strings
at both ends, however they are put there, and nothing else.
-/
namespace GoText

/-- One white space character. -/
inductive IsSpace : Bytes → Prop
  | one {a : UInt8} (space : space1 a = true) : IsSpace [a]
  | two {a b : UInt8} (space : space2 a b = true) : IsSpace [a, b]
  | three {a b c : UInt8} (space : space3 a b c = true) : IsSpace [a, b, c]

/-- A row of white space characters. -/
inductive Blank : Bytes → Prop
  | nil : Blank []
  | cons {w rest : Bytes} (space : IsSpace w) (later : Blank rest) : Blank (w ++ rest)

def trimLeft (s : Bytes) : Bytes :=
  dropSpaces spaceWidth 0 s

def trimRight (s : Bytes) : Bytes :=
  (dropSpaces lastSpaceWidth 0 s.reverse).reverse

theorem trimSpace_eq (s : Bytes) : trimSpace s = trimRight (trimLeft s) :=
  rfl

section Width

variable {two : UInt8 → UInt8 → Bool} {three : UInt8 → UInt8 → UInt8 → Bool} {a b c : UInt8}

theorem widthBy_one (space : space1 a = true) (s : Bytes) : widthBy two three (a :: s) = 1 := by
  match s with
  | [] | [_] | _ :: _ :: _ => simp [widthBy, space]

theorem widthBy_two (other : space1 a = false) (space : two a b = true) (s : Bytes) :
    widthBy two three (a :: b :: s) = 2 := by
  cases s <;> simp [widthBy, other, space]

theorem widthBy_three (other : space1 a = false) (other' : two a b = false)
    (space : three a b c = true) (s : Bytes) : widthBy two three (a :: b :: c :: s) = 3 := by
  simp [widthBy, other, other', space]

/-- The bytes that a width counts are those of one of the three kinds. -/
theorem widthBy_cases (s : Bytes) :
    widthBy two three s = 0 ∨
    (∃ a rest, s = a :: rest ∧ space1 a = true ∧ widthBy two three s = 1) ∨
    (∃ a b rest, s = a :: b :: rest ∧ two a b = true ∧ widthBy two three s = 2) ∨
    ∃ a b c rest, s = a :: b :: c :: rest ∧ three a b c = true ∧ widthBy two three s = 3 := by
  match s with
  | [] => exact .inl rfl
  | [a] => grind [widthBy]
  | [a, b] => grind [widthBy]
  | a :: b :: c :: rest => grind [widthBy]

end Width

section IsSpace

variable {w : Bytes}

/-- A white space character is seen whatever follows. -/
theorem IsSpace.spaceWidth_append (space : IsSpace w) (s : Bytes) :
    spaceWidth (w ++ s) = w.length := by
  cases space with
  | one space => exact widthBy_one space s
  | two space => exact widthBy_two (by grind [space1, space2]) space s
  | three space =>
      exact widthBy_three (by grind [space1, space3]) (by grind [space2, space3]) space s

/-- It is seen from the end whatever is in front of it. -/
theorem IsSpace.lastSpaceWidth_append (space : IsSpace w) (s : Bytes) :
    lastSpaceWidth (w.reverse ++ s) = w.length := by
  unfold lastSpaceWidth
  cases space with
  | one space => exact widthBy_one space s
  | @two a b space =>
      have other : space1 b = false := by grind [space1, space2]
      rw [List.reverse_cons, List.reverse_singleton]
      exact widthBy_two other space s
  | @three a b c space =>
      have other : space1 c = false := by grind [space1, space3]
      have other' : space2 b c = false := by grind [space2, space3]
      simp only [List.reverse_cons, List.reverse_nil, List.nil_append, List.cons_append]
      exact widthBy_three other other' space s

/-- It starts with a byte that starts a character. -/
theorem IsSpace.start (space : IsSpace w) : ∃ b rest, w = b :: rest ∧ (b < 128 ∨ 192 ≤ b) := by
  cases space with
  | one space => exact ⟨_, _, rfl, by grind [space1]⟩
  | two space => exact ⟨_, _, rfl, by grind [space2]⟩
  | three space => exact ⟨_, _, rfl, by grind [space3]⟩

theorem IsSpace.not_mem (space : IsSpace w) {b : UInt8} (low : 33 ≤ b) (high : b < 128) :
    b ∉ w := by
  intro mem
  cases space with
  | one space => exact List.mem_singleton.mp mem ▸ not_plain_of_space1 space <| ⟨low, high⟩
  | two space => exact not_plain_of_space2 space b mem ⟨low, high⟩
  | three space => exact not_plain_of_space3 space b mem ⟨low, high⟩

end IsSpace

section Drop

variable {width : Bytes → Nat} {w s : Bytes}

theorem dropSpaces_length_append (w s : Bytes) :
    dropSpaces width w.length (w ++ s) = dropSpaces width 0 s := by
  induction w with
  | nil => rfl
  | cons b w ih => exact ih

/-- A white space character in front is dropped as a whole. -/
theorem dropSpaces_char (some : w ≠ []) (seen : width (w ++ s) = w.length) :
    dropSpaces width 0 (w ++ s) = dropSpaces width 0 s := by
  cases w with
  | nil => exact absurd rfl some
  | cons b w =>
      rw [List.cons_append, dropSpaces, ← List.cons_append, seen]
      exact dropSpaces_length_append w s

theorem IsSpace.ne_nil (space : IsSpace w) : w ≠ [] := by
  obtain ⟨b, rest, rfl, _⟩ := space.start
  exact List.cons_ne_nil b rest

theorem IsSpace.trimLeft_append (space : IsSpace w) (s : Bytes) :
    trimLeft (w ++ s) = trimLeft s :=
  dropSpaces_char space.ne_nil (space.spaceWidth_append s)

theorem IsSpace.dropLast_append (space : IsSpace w) (s : Bytes) :
    dropSpaces lastSpaceWidth 0 (w.reverse ++ s) = dropSpaces lastSpaceWidth 0 s := by
  refine dropSpaces_char (List.reverse_ne_nil_iff.mpr space.ne_nil) ?_
  rw [List.length_reverse]
  exact space.lastSpaceWidth_append s

end Drop

section Blank

variable {l r s : Bytes}

theorem IsSpace.blank {w : Bytes} (space : IsSpace w) : Blank w := by
  rw [← List.append_nil w]
  exact .cons space .nil

theorem Blank.not_mem (blank : Blank l) {b : UInt8} (low : 33 ≤ b) (high : b < 128) : b ∉ l := by
  induction blank with
  | nil => exact List.not_mem_nil
  | cons space _ ih =>
      rw [List.mem_append]
      exact fun mem => mem.elim (space.not_mem low high) ih

theorem Blank.trimLeft_append (blank : Blank l) (s : Bytes) : trimLeft (l ++ s) = trimLeft s := by
  induction blank with
  | nil => rfl
  | cons space _ ih => rw [List.append_assoc, space.trimLeft_append, ih]

theorem Blank.trimRight_append (blank : Blank r) (s : Bytes) :
    trimRight (s ++ r) = trimRight s := by
  induction blank generalizing s with
  | nil => rw [List.append_nil]
  | cons space _ ih =>
      rw [← List.append_assoc, ih, trimRight, List.reverse_append, space.dropLast_append]
      rfl

/-- A blank string does not continue a white space character in front of it. -/
theorem Blank.apart (blank : Blank r) (some : s ≠ []) : spaceWidth (s ++ r) = spaceWidth s := by
  cases blank with
  | nil => rw [List.append_nil]
  | cons space _ =>
      obtain ⟨b, rest, rfl, start⟩ := space.start
      exact spaceWidth_append start some _

theorem Blank.trimSpace_append_left (blank : Blank l) (s : Bytes) :
    trimSpace (l ++ s) = trimSpace s := by
  rw [trimSpace_eq, blank.trimLeft_append, trimSpace_eq]

theorem Blank.trimSpace_append_right (blank : Blank r) (s : Bytes) :
    trimSpace (s ++ r) = trimSpace s := by
  have empty : trimLeft r = [] := by
    have dropped := blank.trimLeft_append []
    rwa [List.append_nil] at dropped
  have left : trimLeft (s ++ r) = if trimLeft s = [] then trimLeft r else trimLeft s ++ r :=
    dropSpaces_append spaceWidth_le (fun s some => blank.apart some) (Nat.zero_le _)
  rw [trimSpace_eq, trimSpace_eq, left]
  split
  · rename_i none
    rw [none, empty]
  · exact blank.trimRight_append _

theorem Blank.trimSpace_eq_nil (blank : Blank l) : trimSpace l = [] := by
  have trimmed := blank.trimSpace_append_left []
  rwa [List.append_nil] at trimmed

end Blank

section Decompose

/-- What a width counts is a piece at the front, of one of the three kinds. -/
theorem widthBy_starts {two : UInt8 → UInt8 → Bool} {three : UInt8 → UInt8 → UInt8 → Bool}
    {P : Bytes → Prop} (single : ∀ a, space1 a = true → P [a])
    (double : ∀ a b, two a b = true → P [a, b])
    (triple : ∀ a b c, three a b c = true → P [a, b, c]) (s : Bytes) :
    widthBy two three s = 0 ∨ ∃ w rest, P w ∧ s = w ++ rest := by
  rcases widthBy_cases s with none | ⟨a, rest, rfl, space, _⟩ | ⟨a, b, rest, rfl, space, _⟩ |
    ⟨a, b, c, rest, rfl, space, _⟩
  · exact .inl none
  · exact .inr ⟨[a], rest, single a space, rfl⟩
  · exact .inr ⟨[a, b], rest, double a b space, rfl⟩
  · exact .inr ⟨[a, b, c], rest, triple a b c space, rfl⟩

theorem spaceWidth_cases (s : Bytes) :
    spaceWidth s = 0 ∨ ∃ w rest, IsSpace w ∧ s = w ++ rest :=
  widthBy_starts (fun _ => .one) (fun _ _ => .two) (fun _ _ _ => .three) s

theorem lastSpaceWidth_cases (s : Bytes) :
    lastSpaceWidth s = 0 ∨ ∃ w rest, IsSpace w.reverse ∧ s = w ++ rest :=
  widthBy_starts (fun _ => .one) (fun _ _ => .two) (fun _ _ _ => .three) s

/-- What is dropped is a row of pieces, where each piece that is seen is dropped as a whole. -/
theorem exists_dropSpaces {width : Bytes → Nat} {P : Bytes → Prop}
    (seen : ∀ s, width s = 0 ∨ ∃ w rest, P w ∧ s = w ++ rest) (some : ∀ w, P w → w ≠ [])
    (dropped : ∀ w s, P w → dropSpaces width 0 (w ++ s) = dropSpaces width 0 s) (s : Bytes) :
    ∃ ws : List Bytes, (∀ w ∈ ws, P w) ∧ s = ws.flatten ++ dropSpaces width 0 s := by
  induction n : s.length using Nat.strong_induction_on generalizing s with
  | _ n ih =>
      subst n
      cases seen s with
      | inl none => exact ⟨[], by simp, (dropSpaces_of_width none).symm⟩
      | inr starts =>
          obtain ⟨w, rest, piece, rfl⟩ := starts
          have less := List.length_pos_iff.mpr (some w piece)
          obtain ⟨ws, pieces, whole⟩ := ih rest.length (by rw [List.length_append]; omega) rest rfl
          refine ⟨w :: ws, List.forall_mem_cons.mpr ⟨piece, pieces⟩, ?_⟩
          rw [dropped w rest piece, List.flatten_cons, List.append_assoc, ← whole]

theorem blank_flatten {ws : List Bytes} (spaces : ∀ w ∈ ws, IsSpace w) : Blank ws.flatten := by
  induction ws with
  | nil => exact .nil
  | cons w ws ih =>
      obtain ⟨space, spaces⟩ := List.forall_mem_cons.mp spaces
      exact .cons space (ih spaces)

/-- What is dropped in front is blank. -/
theorem exists_trimLeft (s : Bytes) : ∃ l, Blank l ∧ s = l ++ trimLeft s := by
  obtain ⟨ws, spaces, whole⟩ := exists_dropSpaces spaceWidth_cases (fun w => IsSpace.ne_nil)
    (fun w s space => space.trimLeft_append s) s
  exact ⟨ws.flatten, blank_flatten spaces, whole⟩

/-- What is dropped at the end is blank. -/
theorem exists_trimRight (s : Bytes) : ∃ r, Blank r ∧ s = trimRight s ++ r := by
  have some (w : Bytes) (space : IsSpace w.reverse) : w ≠ [] :=
    List.reverse_ne_nil_iff.mp space.ne_nil
  have dropped (w s : Bytes) (space : IsSpace w.reverse) :
      dropSpaces lastSpaceWidth 0 (w ++ s) = dropSpaces lastSpaceWidth 0 s := by
    have gone := space.dropLast_append s
    rwa [List.reverse_reverse] at gone
  obtain ⟨ws, spaces, whole⟩ := exists_dropSpaces lastSpaceWidth_cases some dropped s.reverse
  refine ⟨ws.flatten.reverse, ?_, ?_⟩
  · rw [List.reverse_flatten]
    refine blank_flatten fun reversed mem => ?_
    obtain ⟨w, piece, rfl⟩ := List.mem_map.mp (List.mem_reverse.mp mem)
    exact spaces w piece
  · rw [trimRight, ← List.reverse_append, ← whole, List.reverse_reverse]

theorem exists_trimSpace (s : Bytes) :
    ∃ l r, Blank l ∧ Blank r ∧ s = l ++ (trimSpace s ++ r) := by
  obtain ⟨l, blank, left⟩ := exists_trimLeft s
  obtain ⟨r, blank', right⟩ := exists_trimRight (trimLeft s)
  exact ⟨l, r, blank, blank', by rw [trimSpace_eq, ← right, ← left]⟩

end Decompose

section Separator

variable {b : UInt8} {s x y : Bytes}

theorem lastSpaceWidth_le (s : Bytes) : lastSpaceWidth s ≤ s.length := by
  match s with
  | [] => exact Nat.le_refl 0
  | [a] => grind [lastSpaceWidth, widthBy]
  | [a, b] => grind [lastSpaceWidth, widthBy]
  | a :: b :: c :: rest => grind [lastSpaceWidth, widthBy]

/-- An ASCII byte is not part of a longer white space character behind it. -/
theorem lastSpaceWidth_append (ascii : b < 128) (some : s ≠ []) (rest : Bytes) :
    lastSpaceWidth (s ++ b :: rest) = lastSpaceWidth s := by
  have two (a : UInt8) : space2 b a = false := by
    unfold space2
    grind
  have three (a c : UInt8) : space3 b c a = false := by
    unfold space3
    grind
  have three' (a c : UInt8) : space3 c b a = false := by
    unfold space3
    grind
  match s with
  | [] => exact absurd rfl some
  | [a] => cases rest <;> simp [lastSpaceWidth, widthBy, two, three']
  | [a, c] => simp [lastSpaceWidth, widthBy, three]
  | a :: c :: d :: more => rfl

/-- Nothing is dropped from a string that no white space stands in front of. -/
theorem dropSpaces_append_stop {width : Bytes → Nat} {t : Bytes}
    (short : ∀ s, width s ≤ s.length) (apart : ∀ s, s ≠ [] → width (s ++ t) = width s)
    (stop : width t = 0) (s : Bytes) :
    dropSpaces width 0 (s ++ t) = dropSpaces width 0 s ++ t := by
  rw [dropSpaces_append short apart (Nat.zero_le _), dropSpaces_of_width stop]
  split
  · rename_i none
    rw [none, List.nil_append]
  · rfl

/-- A printing ASCII character stops the trimming from either side. -/
theorem trimSpace_append_cons (low : 33 ≤ b) (high : b < 128) (x y : Bytes) :
    trimSpace (x ++ b :: y) = trimLeft x ++ b :: trimRight y := by
  have left : trimLeft (x ++ b :: y) = trimLeft x ++ b :: y :=
    dropSpaces_append_stop spaceWidth_le (fun s some => spaceWidth_append (.inl high) some y)
      (spaceWidth_plain low high y) x
  have right (z : Bytes) : dropSpaces lastSpaceWidth 0 (y.reverse ++ b :: z) =
      dropSpaces lastSpaceWidth 0 y.reverse ++ b :: z :=
    dropSpaces_append_stop lastSpaceWidth_le (fun s some => lastSpaceWidth_append high some z)
      (lastSpaceWidth_plain low high z) y.reverse
  rw [trimSpace_eq, left, trimRight, List.reverse_append, List.reverse_cons, List.append_assoc,
    List.singleton_append, right, List.reverse_append, List.reverse_cons, List.reverse_reverse,
    trimRight, List.append_assoc, List.singleton_append]

theorem trimSpace_trimLeft (s : Bytes) : trimSpace (trimLeft s) = trimSpace s := by
  obtain ⟨l, blank, whole⟩ := exists_trimLeft s
  conv_rhs => rw [whole]
  exact (blank.trimSpace_append_left _).symm

theorem trimSpace_trimRight (s : Bytes) : trimSpace (trimRight s) = trimSpace s := by
  obtain ⟨r, blank, whole⟩ := exists_trimRight s
  conv_rhs => rw [whole]
  exact (blank.trimSpace_append_right _).symm

end Separator

section Split

variable {α : Type} [DecidableEq α] {sep : α} {l r : List α}

theorem splitOn_cons (sep b : α) (s : List α) :
    (b :: s).splitOn sep =
      if b = sep then [] :: s.splitOn sep else (s.splitOn sep).modifyHead (b :: ·) := by
  simp [List.splitOn, List.splitOnP_cons_eq_if_modifyHead]

/-- What stands in front belongs to the first part. -/
theorem splitOn_append_left (free : sep ∉ l) (s : List α) :
    (l ++ s).splitOn sep = (s.splitOn sep).modifyHead (l ++ ·) := by
  induction l with
  | nil => cases same : s.splitOn sep <;> simp [same]
  | cons b l ih =>
      have other : b ≠ sep := fun same => free (same ▸ List.mem_cons_self)
      rw [List.cons_append, splitOn_cons, if_neg other, ih fun mem => free (.tail b mem),
        List.modifyHead_modifyHead]
      rfl

/-- What stands at the end belongs to the last part. -/
theorem splitOn_append_right (free : sep ∉ r) (s : List α) :
    ∃ parts last, s.splitOn sep = parts ++ [last] ∧
      (s ++ r).splitOn sep = parts ++ [last ++ r] := by
  induction s with
  | nil => exact ⟨[], [], rfl, by simpa using List.splitOn_eq_singleton free⟩
  | cons b s ih =>
      obtain ⟨parts, last, without, behind⟩ := ih
      rw [List.cons_append, splitOn_cons, splitOn_cons, without, behind]
      split
      · exact ⟨[] :: parts, last, rfl, rfl⟩
      · cases parts with
        | nil => exact ⟨[], b :: last, rfl, rfl⟩
        | cons part parts => exact ⟨(b :: part) :: parts, last, rfl, rfl⟩

end Split

/-- Trimming a string before it is split makes no difference to the trimmed parts. -/
theorem map_trimSpace_splitOn {sep : UInt8} (low : 33 ≤ sep) (high : sep < 128) (s : Bytes) :
    ((trimSpace s).splitOn sep).map trimSpace = (s.splitOn sep).map trimSpace := by
  obtain ⟨l, r, blank, blank', whole⟩ := exists_trimSpace s
  obtain ⟨parts, last, without, behind⟩ :=
    splitOn_append_right (blank'.not_mem low high) (trimSpace s)
  have split : s.splitOn sep = (parts ++ [last ++ r]).modifyHead (l ++ ·) := by
    rw [← behind, ← splitOn_append_left (blank.not_mem low high), ← whole]
  rw [split, without]
  cases parts with
  | nil => simp [blank.trimSpace_append_left, blank'.trimSpace_append_right]
  | cons part parts => simp [blank.trimSpace_append_left, blank'.trimSpace_append_right]

end GoText
