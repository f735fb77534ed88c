import Mathlib.Algebra.Group.Nat.Defs
import Mathlib.Algebra.Ring.Int.Defs
import Mathlib.Data.List.Basic

/-!
Go strings as lists of bytes, and the functions of Go's `strings` and `strconv` that a
line protocol uses.

White space is what `unicode.IsSpace` accepts. Its UTF-8 encodings take one, two or three
bytes, and a byte that starts one of them is never in the middle of another character, so
looking for an encoding at a byte finds what decoding the runes one by one finds.
-/
namespace GoText

abbrev Bytes := List UInt8

/-- Membership in a list of strings is decided with this. -/
instance : LawfulBEq Bytes :=
  inferInstance

/-- The bytes of an ASCII literal. -/
def ascii (s : String) : Bytes :=
  s.toList.map fun c => UInt8.ofNat c.toNat

/-- The string with one character for each byte. -/
def text (s : Bytes) : String :=
  String.ofList (s.map fun b => Char.ofNat b.toNat)

theorem ascii_text (s : Bytes) : ascii (text s) = s := by
  rw [ascii, text, String.toList_ofList, List.map_map]
  refine (List.map_congr_left fun b _ => ?_).trans (List.map_id s)
  have small : b.toNat < 256 := b.toNat_lt
  have valid : b.toNat.isValidChar := .inl (by omega)
  have same : (Char.ofNat b.toNat).toNat = b.toNat := by
    rw [Char.ofNat, dif_pos valid]
    rfl
  change UInt8.ofNat (Char.ofNat b.toNat).toNat = b
  rw [same, UInt8.ofNat_toNat]

def space1 (a : UInt8) : Bool :=
  (9 ≤ a && a ≤ 13) || a == 32

/-- U+0085 and U+00A0. -/
def space2 (a b : UInt8) : Bool :=
  a == 0xC2 && (b == 0x85 || b == 0xA0)

/-- U+1680, U+2000 to U+200A, U+2028, U+2029, U+202F, U+205F and U+3000. -/
def space3 (a b c : UInt8) : Bool :=
  (a == 0xE1 && b == 0x9A && c == 0x80) ||
  (a == 0xE2 && b == 0x80 && ((0x80 ≤ c && c ≤ 0x8A) || c == 0xA8 || c == 0xA9 || c == 0xAF)) ||
  (a == 0xE2 && b == 0x81 && c == 0x9F) ||
  (a == 0xE3 && b == 0x80 && c == 0x80)

/-- How many bytes the white space character at the front takes, zero if there is none,
for a way to see the characters of two and of three bytes. -/
def widthBy (two : UInt8 → UInt8 → Bool) (three : UInt8 → UInt8 → UInt8 → Bool) : Bytes → Nat
  | [] => 0
  | [a] => if space1 a then 1 else 0
  | [a, b] => if space1 a then 1 else if two a b then 2 else 0
  | a :: b :: c :: _ => if space1 a then 1 else if two a b then 2 else if three a b c then 3 else 0

def spaceWidth (s : Bytes) : Nat :=
  widthBy space2 space3 s

/-- The same for the white space character at the end of a reversed string. -/
def lastSpaceWidth (s : Bytes) : Nat :=
  widthBy (fun c b => space2 b c) (fun c b a => space3 a b c) s

/-- Drops white space from the front. The number is what is left of the character that
is being dropped. -/
def dropSpaces (width : Bytes → Nat) : Nat → Bytes → Bytes
  | _, [] => []
  | k + 1, _ :: rest => dropSpaces width k rest
  | 0, b :: rest =>
      match width (b :: rest) with
      | 0 => b :: rest
      | w + 1 => dropSpaces width w rest

/-- Go's `strings.TrimSpace`. -/
def trimSpace (s : Bytes) : Bytes :=
  (dropSpaces lastSpaceWidth 0 (dropSpaces spaceWidth 0 s).reverse).reverse

/-- The loop of `strings.Fields`, with the field it is in. -/
def fieldsFrom : Nat → Bytes → Bytes → List Bytes
  | _, field, [] => if field = [] then [] else [field]
  | k + 1, field, _ :: rest => fieldsFrom k field rest
  | 0, field, b :: rest =>
      match spaceWidth (b :: rest) with
      | 0 => fieldsFrom 0 (field ++ [b]) rest
      | w + 1 => if field = [] then fieldsFrom w [] rest else field :: fieldsFrom w [] rest

/-- Go's `strings.Fields`. -/
def fields (s : Bytes) : List Bytes :=
  fieldsFrom 0 [] s

/-- No white space character starts anywhere in the string. -/
def spaceFree : Bytes → Bool
  | [] => true
  | b :: rest => spaceWidth (b :: rest) == 0 && spaceFree rest

/-- Go's `strings.Cut` with a separator of one byte. -/
def cut (sep : UInt8) : Bytes → Option (Bytes × Bytes)
  | [] => none
  | b :: rest =>
      if b = sep then some ([], rest)
      else (cut sep rest).map fun p => (b :: p.1, p.2)

/-- Go's `strings.TrimSuffix` with a suffix of one byte. -/
def trimSuffix (b : UInt8) (s : Bytes) : Bytes :=
  if s.getLast? = some b then s.dropLast else s

def isDigit (b : UInt8) : Bool :=
  48 ≤ b && b ≤ 57

/-- The digits of a number in a format with `%d`. -/
def decimal (n : Nat) : Bytes :=
  (Nat.toDigits 10 n).map fun c => UInt8.ofNat c.toNat

def parseDigits (s : Bytes) : Option Nat :=
  if s = [] then none
  else if s.all isDigit then some (s.foldl (fun n b => 10 * n + (b.toNat - 48)) 0)
  else none

/-- Go's `strconv.ParseInt` with base 10 and 64 bits, and `strconv.Atoi`. -/
def parseInt (s : Bytes) : Option Int :=
  let parsed :=
    if s.head? = some 43 then (parseDigits s.tail).map Int.ofNat
    else if s.head? = some 45 then (parseDigits s.tail).map fun n => -Int.ofNat n
    else (parseDigits s).map Int.ofNat
  parsed.filter fun n => -2 ^ 63 ≤ n ∧ n < 2 ^ 63

section Trim

variable {width : Bytes → Nat} {s t : Bytes} {b : UInt8}

theorem dropSpaces_suffix (width : Bytes → Nat) (k : Nat) (s : Bytes) :
    dropSpaces width k s <:+ s := by
  induction s generalizing k with
  | nil => exact List.suffix_rfl
  | cons b rest ih =>
      cases k with
      | zero =>
          unfold dropSpaces
          split
          · exact List.suffix_rfl
          · exact (ih _).trans (List.suffix_cons b rest)
      | succ k => exact (ih k).trans (List.suffix_cons b rest)

theorem mem_of_mem_trimSpace (mem : b ∈ trimSpace s) : b ∈ s := by
  have back := (dropSpaces_suffix lastSpaceWidth 0 _).subset (List.mem_reverse.mp mem)
  exact (dropSpaces_suffix spaceWidth 0 s).subset (List.mem_reverse.mp back)

/-- What is left does not start with white space. -/
theorem width_dropSpaces (width : Bytes → Nat) (empty : width [] = 0) (k : Nat) (s : Bytes) :
    width (dropSpaces width k s) = 0 := by
  induction s generalizing k with
  | nil => exact empty
  | cons b rest ih =>
      cases k with
      | zero =>
          unfold dropSpaces
          split
          · assumption
          · exact ih _
      | succ k => exact ih k

theorem dropSpaces_of_width (none : width s = 0) : dropSpaces width 0 s = s := by
  cases s with
  | nil => rfl
  | cons b rest =>
      unfold dropSpaces
      rw [none]

theorem trimSpace_of_width (front : spaceWidth s = 0) (back : lastSpaceWidth s.reverse = 0) :
    trimSpace s = s := by
  rw [trimSpace, dropSpaces_of_width front, dropSpaces_of_width back, List.reverse_reverse]

theorem lastSpaceWidth_trimSpace (s : Bytes) : lastSpaceWidth (trimSpace s).reverse = 0 := by
  rw [trimSpace, List.reverse_reverse]
  exact width_dropSpaces _ rfl 0 _

/-- A string that begins like one without white space in front has none either. -/
theorem spaceWidth_of_prefix (begins : t <+: s) (none : spaceWidth s = 0) : spaceWidth t = 0 := by
  obtain ⟨rest, rfl⟩ := begins
  match t with
  | [] => rfl
  | [a] =>
      cases rest with
      | nil => exact none
      | cons b rest => cases rest <;> grind [spaceWidth, widthBy]
  | [a, b] => cases rest <;> grind [spaceWidth, widthBy]
  | a :: b :: c :: more => exact none

theorem spaceWidth_trimSpace (s : Bytes) : spaceWidth (trimSpace s) = 0 := by
  have front := width_dropSpaces spaceWidth rfl 0 s
  obtain ⟨dropped, whole⟩ := dropSpaces_suffix lastSpaceWidth 0 (dropSpaces spaceWidth 0 s).reverse
  refine spaceWidth_of_prefix ⟨dropped.reverse, ?_⟩ front
  rw [trimSpace, ← List.reverse_append, whole, List.reverse_reverse]

theorem trimSpace_trimSpace (s : Bytes) : trimSpace (trimSpace s) = trimSpace s :=
  trimSpace_of_width (spaceWidth_trimSpace s) (lastSpaceWidth_trimSpace s)

theorem spaceWidth_le (s : Bytes) : spaceWidth s ≤ s.length := by
  match s with
  | [] => exact Nat.le_refl 0
  | [a] => grind [spaceWidth, widthBy]
  | [a, b] => grind [spaceWidth, widthBy]
  | a :: b :: c :: rest => grind [spaceWidth, widthBy]

/-- A byte that starts a character is not part of the white space character before it. -/
theorem spaceWidth_append (start : b < 128 ∨ 192 ≤ b) (some : s ≠ []) (rest : Bytes) :
    spaceWidth (s ++ b :: rest) = spaceWidth s := by
  have two (a : UInt8) : space2 a b = false := by
    unfold space2
    grind
  have three (a c : UInt8) : space3 a b c = false := by
    unfold space3
    grind
  have three' (a c : UInt8) : space3 a c b = false := by
    unfold space3
    grind
  match s with
  | [] => exact absurd rfl some
  | [a] => cases rest <;> simp [spaceWidth, widthBy, two, three]
  | [a, c] => simp [spaceWidth, widthBy, three']
  | a :: c :: d :: more => rfl

/-- White space in front of a string is dropped whatever follows, if what follows does not
continue a white space character. -/
theorem dropSpaces_append (short : ∀ s, width s ≤ s.length)
    (apart : ∀ s, s ≠ [] → width (s ++ t) = width s) {k : Nat} (inside : k ≤ s.length) :
    dropSpaces width k (s ++ t) =
      if dropSpaces width k s = [] then dropSpaces width 0 t else dropSpaces width k s ++ t := by
  induction s generalizing k with
  | nil =>
      obtain rfl : k = 0 := Nat.le_zero.mp inside
      rfl
  | cons a rest ih =>
      cases k with
      | zero =>
          have same := apart (a :: rest) (List.cons_ne_nil a rest)
          cases found : width (a :: rest) with
          | zero =>
              rw [dropSpaces_of_width (same.trans found), dropSpaces_of_width found, if_neg]
              exact List.cons_ne_nil a rest
          | succ w =>
              have less := short (a :: rest)
              rw [found, List.length_cons] at less
              rw [found] at same
              have left : dropSpaces width 0 (a :: rest ++ t) = dropSpaces width w (rest ++ t) := by
                rw [List.cons_append, dropSpaces, ← List.cons_append, same]
              rw [left, dropSpaces, found]
              exact ih (by omega)
      | succ k =>
          rw [List.cons_append, dropSpaces, dropSpaces]
          exact ih (Nat.le_of_succ_le_succ inside)

theorem lastSpaceWidth_cr (rest : Bytes) : lastSpaceWidth (13 :: rest) = 1 := by
  match rest with
  | [] | [_] | _ :: _ :: _ => rfl

/-- A carriage return at the end is white space. -/
theorem trimSpace_append_cr (s : Bytes) : trimSpace (s ++ [13]) = trimSpace s := by
  unfold trimSpace
  rw [dropSpaces_append spaceWidth_le (fun s some => spaceWidth_append (by decide) some [])
    (Nat.zero_le _)]
  split
  · rename_i blank
    rw [blank]
    rfl
  · rw [List.reverse_append, List.reverse_singleton, List.singleton_append, dropSpaces,
      lastSpaceWidth_cr]

theorem mem_of_mem_trimSuffix {c : UInt8} (mem : b ∈ trimSuffix c s) : b ∈ s := by
  unfold trimSuffix at mem
  split at mem
  · exact List.dropLast_subset s mem
  · exact mem

theorem trimSpace_trimSuffix (s : Bytes) : trimSpace (trimSuffix 13 s) = trimSpace s := by
  unfold trimSuffix
  split
  · rename_i last
    conv_rhs => rw [← List.dropLast_append_getLast? 13 last]
    exact (trimSpace_append_cr _).symm
  · rfl

theorem trimSuffix_of_trimSpace (trimmed : trimSpace s = s) : trimSuffix 13 s = s := by
  refine if_neg ?_
  intro last
  have back := lastSpaceWidth_trimSpace s
  rw [trimmed] at back
  rw [List.getLast?_eq_head?_reverse, List.head?_eq_some_iff] at last
  obtain ⟨rest, reversed⟩ := last
  rw [reversed, lastSpaceWidth_cr] at back
  cases back

end Trim

section Plain

variable {b : UInt8}

theorem not_plain_of_space1 {a : UInt8} (h : space1 a) : ¬ (33 ≤ a ∧ a < 128) := by
  unfold space1 at h
  grind

theorem not_plain_of_space2 {a b : UInt8} (h : space2 a b) :
    ∀ x ∈ [a, b], ¬ (33 ≤ x ∧ x < 128) := by
  unfold space2 at h
  grind

theorem not_plain_of_space3 {a b c : UInt8} (h : space3 a b c) :
    ∀ x ∈ [a, b, c], ¬ (33 ≤ x ∧ x < 128) := by
  unfold space3 at h
  grind

/-- A printing ASCII character is not white space and not a part of it. -/
theorem widthBy_plain {two : UInt8 → UInt8 → Bool} {three : UInt8 → UInt8 → UInt8 → Bool}
    (blank2 : ∀ a b, two a b → ∀ x ∈ [a, b], ¬ (33 ≤ x ∧ x < 128))
    (blank3 : ∀ a b c, three a b c → ∀ x ∈ [a, b, c], ¬ (33 ≤ x ∧ x < 128))
    (low : 33 ≤ b) (high : b < 128) (rest : Bytes) : widthBy two three (b :: rest) = 0 := by
  have plain : 33 ≤ b ∧ b < 128 := ⟨low, high⟩
  have no1 : ¬ space1 b := fun found => not_plain_of_space1 found plain
  have no2 (c : UInt8) : ¬ two b c := fun found => blank2 b c found b List.mem_cons_self plain
  have no3 (c d : UInt8) : ¬ three b c d := fun found =>
    blank3 b c d found b List.mem_cons_self plain
  match rest with
  | [] => simp [widthBy, no1]
  | [c] => simp [widthBy, no1, no2]
  | c :: d :: rest => simp [widthBy, no1, no2, no3]

theorem spaceWidth_plain (low : 33 ≤ b) (high : b < 128) (rest : Bytes) :
    spaceWidth (b :: rest) = 0 :=
  widthBy_plain (fun _ _ => not_plain_of_space2) (fun _ _ _ => not_plain_of_space3) low high rest

theorem lastSpaceWidth_plain (low : 33 ≤ b) (high : b < 128) (rest : Bytes) :
    lastSpaceWidth (b :: rest) = 0 :=
  widthBy_plain
    (fun _ _ found x mem => not_plain_of_space2 found x (List.mem_reverse.mpr mem))
    (fun _ _ _ found x mem => not_plain_of_space3 found x (List.mem_reverse.mpr mem)) low high rest

/-- A text of printing ASCII characters has no white space around it. -/
theorem trimSpace_plain {s : Bytes} (plain : ∀ b ∈ s, 33 ≤ b ∧ b < 128) : trimSpace s = s := by
  refine trimSpace_of_width ?_ ?_
  · cases s with
    | nil => rfl
    | cons b rest =>
        have here := plain b List.mem_cons_self
        exact spaceWidth_plain here.1 here.2 rest
  · cases reversed : s.reverse with
    | nil => rfl
    | cons b rest =>
        have here := plain b (List.mem_reverse.mp (reversed ▸ List.mem_cons_self))
        exact lastSpaceWidth_plain here.1 here.2 rest

/-- Only bytes that are not printing ASCII characters count as white space. -/
def DropsBlank (width : Bytes → Nat) : Prop :=
  ∀ s : Bytes, ∀ b ∈ s.take (width s), ¬ (33 ≤ b ∧ b < 128)

theorem dropsBlank_widthBy {two : UInt8 → UInt8 → Bool} {three : UInt8 → UInt8 → UInt8 → Bool}
    (blank2 : ∀ a b, two a b → ∀ x ∈ [a, b], ¬ (33 ≤ x ∧ x < 128))
    (blank3 : ∀ a b c, three a b c → ∀ x ∈ [a, b, c], ¬ (33 ≤ x ∧ x < 128)) :
    DropsBlank (widthBy two three) := by
  intro s b mem
  unfold widthBy at mem
  split at mem
  · cases mem
  · split at mem
    · rename_i one
      exact List.mem_singleton.mp mem ▸ not_plain_of_space1 one
    · cases mem
  · split at mem
    · rename_i one
      exact List.mem_singleton.mp mem ▸ not_plain_of_space1 one
    · split at mem
      · rename_i found
        exact blank2 _ _ found b mem
      · cases mem
  · split at mem
    · rename_i one
      exact List.mem_singleton.mp mem ▸ not_plain_of_space1 one
    · split at mem
      · rename_i found
        exact blank2 _ _ found b mem
      · split at mem
        · rename_i found
          exact blank3 _ _ _ found b mem
        · cases mem

theorem dropsBlank_spaceWidth : DropsBlank spaceWidth :=
  dropsBlank_widthBy (fun _ _ => not_plain_of_space2) fun _ _ _ => not_plain_of_space3

theorem dropsBlank_lastSpaceWidth : DropsBlank lastSpaceWidth :=
  dropsBlank_widthBy
    (fun _ _ found x mem => not_plain_of_space2 found x (List.mem_reverse.mpr mem))
    fun _ _ _ found x mem => not_plain_of_space3 found x (List.mem_reverse.mpr mem)

theorem count_dropSpaces {width : Bytes → Nat} (drops : DropsBlank width) (low : 33 ≤ b)
    (high : b < 128) {k : Nat} {s : Bytes} (blank : ∀ c ∈ s.take k, ¬ (33 ≤ c ∧ c < 128)) :
    (dropSpaces width k s).count b = s.count b := by
  induction s generalizing k with
  | nil => rfl
  | cons a rest ih =>
      cases k with
      | zero =>
          unfold dropSpaces
          split
          · rfl
          · rename_i w found
            have dropped := drops (a :: rest)
            rw [found, List.take_succ_cons] at dropped
            have other : a ≠ b := fun same => dropped a List.mem_cons_self (same ▸ ⟨low, high⟩)
            rw [ih fun c mem => dropped c (List.mem_cons_of_mem a mem), List.count_cons_of_ne other]
      | succ k =>
          rw [List.take_succ_cons] at blank
          have other : a ≠ b := fun same => blank a List.mem_cons_self (same ▸ ⟨low, high⟩)
          rw [dropSpaces, ih fun c mem => blank c (List.mem_cons_of_mem a mem),
            List.count_cons_of_ne other]

/-- Trimming keeps every printing ASCII character. -/
theorem count_trimSpace (low : 33 ≤ b) (high : b < 128) (s : Bytes) :
    (trimSpace s).count b = s.count b := by
  unfold trimSpace
  rw [List.count_reverse, count_dropSpaces dropsBlank_lastSpaceWidth low high (by simp),
    List.count_reverse, count_dropSpaces dropsBlank_spaceWidth low high (by simp)]

end Plain

section Fields

variable {x y : Bytes}

theorem fieldsFrom_spaceFree (free : spaceFree x) (field : Bytes) :
    fieldsFrom 0 field x = if field ++ x = [] then [] else [field ++ x] := by
  induction x generalizing field with
  | nil => rw [fieldsFrom, List.append_nil]
  | cons b rest ih =>
      unfold spaceFree at free
      rw [Bool.and_eq_true, beq_iff_eq] at free
      rw [fieldsFrom, free.1]
      dsimp only
      rw [ih free.2, List.append_assoc, List.singleton_append]

theorem fieldsFrom_append (free : spaceFree x) (field : Bytes) :
    fieldsFrom 0 field (x ++ 32 :: y) = fieldsFrom 0 (field ++ x) (32 :: y) := by
  induction x generalizing field with
  | nil => rw [List.nil_append, List.append_nil]
  | cons b rest ih =>
      unfold spaceFree at free
      rw [Bool.and_eq_true, beq_iff_eq] at free
      have width := spaceWidth_append (b := 32) (by decide) (List.cons_ne_nil b rest) y
      rw [List.cons_append] at width
      rw [List.cons_append, fieldsFrom, width, free.1]
      dsimp only
      rw [ih free.2, List.append_assoc, List.singleton_append]

theorem spaceWidth_blank (rest : Bytes) : spaceWidth (32 :: rest) = 1 := by
  match rest with
  | [] | [_] | _ :: _ :: _ => rfl

/-- Two texts without white space and a blank between them are read back as two fields. -/
theorem fields_pair (freex : spaceFree x) (freey : spaceFree y) (somex : x ≠ []) (somey : y ≠ []) :
    fields (x ++ 32 :: y) = [x, y] := by
  rw [fields, fieldsFrom_append freex, List.nil_append, fieldsFrom, spaceWidth_blank]
  dsimp only
  rw [if_neg somex, fieldsFrom_spaceFree freey, List.nil_append, if_neg somey]

/-- A text without white space has no byte that is white space by itself. -/
theorem space1_of_spaceFree (free : spaceFree x) {b : UInt8} (mem : b ∈ x) : space1 b = false := by
  induction x with
  | nil => cases mem
  | cons a rest ih =>
      unfold spaceFree at free
      rw [Bool.and_eq_true, beq_iff_eq] at free
      cases mem with
      | head =>
          by_contra blank
          rw [Bool.not_eq_false] at blank
          have width := free.1
          match rest with
          | [] | [_] | _ :: _ :: _ => simp [spaceWidth, widthBy, blank] at width
      | tail _ mem => exact ih free.2 mem

end Fields

section Cut

variable {sep : UInt8} {x y s : Bytes}

theorem cut_append (free : sep ∉ x) (y : Bytes) : cut sep (x ++ sep :: y) = some (x, y) := by
  induction x with
  | nil => rw [List.nil_append, cut, if_pos rfl]
  | cons b rest ih =>
      rw [List.mem_cons, not_or] at free
      rw [List.cons_append, cut, if_neg (Ne.symm free.1), ih free.2]
      rfl

theorem cut_eq_none_iff : cut sep s = none ↔ sep ∉ s := by
  induction s with
  | nil => simp [cut]
  | cons b rest ih =>
      rw [cut, List.mem_cons, not_or]
      split
      · rename_i here
        simp [here]
      · rename_i away
        rw [Option.map_eq_none_iff, ih]
        exact ⟨fun free => ⟨Ne.symm away, free⟩, And.right⟩

theorem eq_of_cut (h : cut sep s = some (x, y)) : s = x ++ sep :: y ∧ sep ∉ x := by
  induction s generalizing x with
  | nil => cases h
  | cons b rest ih =>
      rw [cut] at h
      split at h
      · rename_i here
        cases h
        exact ⟨by rw [here]; rfl, List.not_mem_nil⟩
      · rename_i away
        obtain ⟨p, found, same⟩ := Option.map_eq_some_iff.mp h
        cases same
        obtain ⟨whole, free⟩ := ih found
        refine ⟨congrArg (b :: ·) whole, ?_⟩
        intro mem
        cases List.mem_cons.mp mem with
        | inl first => exact away first.symm
        | inr later => exact free later

end Cut

section Decimal

theorem toNat_ofNat_digit {n : Nat} {c : Char} (mem : c ∈ Nat.toDigits 10 n) :
    (UInt8.ofNat c.toNat).toNat = c.toNat ∧ 48 ≤ c.toNat ∧ c.toNat ≤ 57 := by
  have digit := Nat.isDigit_of_mem_toDigits (by decide) (by decide) mem
  rw [Char.isDigit_iff_toNat] at digit
  have low : 48 ≤ c.toNat := digit.1
  have high : c.toNat ≤ 57 := digit.2
  refine ⟨?_, low, high⟩
  rw [UInt8.toNat_ofNat']
  omega

theorem isDigit_of_mem_decimal {n : Nat} {b : UInt8} (mem : b ∈ decimal n) : isDigit b = true := by
  obtain ⟨c, digit, rfl⟩ := List.mem_map.mp mem
  obtain ⟨same, low, high⟩ := toNat_ofNat_digit digit
  unfold isDigit
  rw [Bool.and_eq_true, decide_eq_true_eq, decide_eq_true_eq, UInt8.le_iff_toNat_le,
    UInt8.le_iff_toNat_le, same]
  exact ⟨low, high⟩

theorem decimal_ne_nil (n : Nat) : decimal n ≠ [] :=
  fun none => Nat.toDigits_ne_nil (List.map_eq_nil_iff.mp none)

theorem parseDigits_decimal (n : Nat) : parseDigits (decimal n) = some n := by
  have all : (decimal n).all isDigit = true :=
    List.all_eq_true.mpr fun b mem => isDigit_of_mem_decimal mem
  unfold parseDigits
  rw [if_neg (decimal_ne_nil n), if_pos all]
  have value : (decimal n).foldl (fun n b => 10 * n + (b.toNat - 48)) 0 =
      Nat.ofDigitChars 10 (Nat.toDigits 10 n) 0 := by
    unfold decimal Nat.ofDigitChars
    rw [List.foldl_map]
    refine List.foldl_ext _ _ _ ?_
    intro sum c mem
    rw [(toNat_ofNat_digit mem).1]
    rfl
  rw [value, Nat.ofDigitChars_toDigits (by decide) (by decide)]

theorem plain_of_isDigit {b : UInt8} (digit : isDigit b = true) : 33 ≤ b ∧ b < 128 := by
  unfold isDigit at digit
  grind

theorem trimSpace_decimal (n : Nat) : trimSpace (decimal n) = decimal n :=
  trimSpace_plain fun _ mem => plain_of_isDigit (isDigit_of_mem_decimal mem)

theorem newline_not_mem_decimal (n : Nat) : 10 ∉ decimal n := by
  intro mem
  exact absurd (isDigit_of_mem_decimal mem) (by decide)

theorem parseInt_range {s : Bytes} {n : Int} (h : parseInt s = some n) :
    -2 ^ 63 ≤ n ∧ n < 2 ^ 63 :=
  of_decide_eq_true (Option.filter_eq_some_iff.mp h).2

theorem parseInt_decimal {n : Nat} (bound : n < 2 ^ 63) :
    parseInt (decimal n) = some (n : Int) := by
  have unsigned (b : UInt8) (sign : isDigit b = false) : (decimal n).head? ≠ some b := by
    intro first
    have digit := isDigit_of_mem_decimal (List.mem_of_mem_head? (Option.mem_def.mpr first))
    rw [sign] at digit
    cases digit
  unfold parseInt
  rw [if_neg (unsigned 43 (by decide)), if_neg (unsigned 45 (by decide)), parseDigits_decimal,
    Option.map_some, Option.filter_some, if_pos]
  · rfl
  · have value : Int.ofNat n = (n : Int) := rfl
    exact decide_eq_true ⟨by omega, by omega⟩

end Decimal

end GoText
