import DistributedCache.Lib.GoText

/-!
The characters of a text in UTF-8, as Go's `utf8.DecodeRune` finds them.

A byte that does not start a character stands by itself, so that every text is the sequence of
its characters. A text is valid if there are no such bytes in it.
-/
namespace Utf8

open GoText

/-- A byte behind the first one of a character. -/
def isContinuation (b : UInt8) : Bool :=
  0x80 ≤ b && b ≤ 0xBF

/-- What the first byte of a longer character asks for: the range of the second byte, and how
many bytes follow that one. -/
def lead (b : UInt8) : Option (UInt8 × UInt8 × Nat) :=
  if 0xC2 ≤ b ∧ b ≤ 0xDF then some (0x80, 0xBF, 0)
  else if b = 0xE0 then some (0xA0, 0xBF, 1)
  else if b = 0xED then some (0x80, 0x9F, 1)
  else if 0xE1 ≤ b ∧ b ≤ 0xEF then some (0x80, 0xBF, 1)
  else if b = 0xF0 then some (0x90, 0xBF, 2)
  else if 0xF1 ≤ b ∧ b ≤ 0xF3 then some (0x80, 0xBF, 2)
  else if b = 0xF4 then some (0x80, 0x8F, 2)
  else none

/-- How many bytes the character at the front takes, zero if there is none. -/
def width : Bytes → Nat
  | [] => 0
  | [a] => if a < 0x80 then 1 else 0
  | a :: b :: rest =>
      if a < 0x80 then 1
      else match lead a with
        | none => 0
        | some (low, high, more) =>
            if low ≤ b ∧ b ≤ high ∧ more ≤ rest.length ∧ (rest.take more).all isContinuation
            then more + 2 else 0

/-- The characters of a text, where the number bounds how many there are. -/
def charsFrom : Nat → Bytes → List Bytes
  | 0, _ => []
  | _ + 1, [] => []
  | n + 1, b :: rest =>
      (b :: rest.take (width (b :: rest) - 1)) :: charsFrom n (rest.drop (width (b :: rest) - 1))

def chars (s : Bytes) : List Bytes :=
  charsFrom s.length s

/-- The bytes are one character. -/
def IsChar (c : Bytes) : Prop :=
  c ≠ [] ∧ width c = c.length

def Valid (s : Bytes) : Prop :=
  ∀ c ∈ chars s, IsChar c

instance (s : Bytes) : Decidable (Valid s) :=
  inferInstanceAs (Decidable (∀ c ∈ chars s, c ≠ [] ∧ width c = c.length))

/-- The bytes of a character, as `utf8.AppendRune` writes them. -/
def encodeRune (r : Nat) : Bytes :=
  if r < 0x80 then [UInt8.ofNat r]
  else if r < 0x800 then [UInt8.ofNat (0xC0 + r / 64), UInt8.ofNat (0x80 + r % 64)]
  else if r < 0x10000 then
    [UInt8.ofNat (0xE0 + r / 4096), UInt8.ofNat (0x80 + r / 64 % 64), UInt8.ofNat (0x80 + r % 64)]
  else
    [UInt8.ofNat (0xF0 + r / 262144), UInt8.ofNat (0x80 + r / 4096 % 64),
      UInt8.ofNat (0x80 + r / 64 % 64), UInt8.ofNat (0x80 + r % 64)]

/-- U+FFFD, which stands for what is no character. -/
def replacement : Bytes :=
  [0xEF, 0xBF, 0xBD]

theorem width_of_lt {b : UInt8} (small : b < 0x80) (rest : Bytes) : width (b :: rest) = 1 := by
  cases rest with
  | nil => rw [width, if_pos small]
  | cons => rw [width, if_pos small]

theorem IsChar.short {b : UInt8} (char : IsChar [b]) : b < 0x80 := by
  by_contra large
  have taken := char.2
  rw [width, if_neg large] at taken
  cases taken

theorem IsChar.long {a b : UInt8} {more : Bytes} (char : IsChar (a :: b :: more)) : 0x80 ≤ a := by
  refine UInt8.not_lt.mp fun small => ?_
  have taken := char.2
  rw [width_of_lt small] at taken
  cases taken

/-- A character is found whatever follows it. -/
theorem IsChar.width_append {c : Bytes} (char : IsChar c) (rest : Bytes) :
    width (c ++ rest) = c.length := by
  match c with
  | [] => exact absurd rfl char.1
  | [a] => exact width_of_lt char.short rest
  | a :: b :: more =>
      have large : ¬ a < 0x80 := UInt8.not_lt.mpr char.long
      have taken := char.2
      rw [width, if_neg large] at taken
      rw [List.cons_append, List.cons_append, width, if_neg large]
      cases first : lead a with
      | none =>
          rw [first] at taken
          cases taken
      | some asks =>
          obtain ⟨low, high, k⟩ := asks
          rw [first] at taken
          dsimp only at taken ⊢
          split at taken
          · rename_i fits
            obtain ⟨lower, upper, _, all⟩ := fits
            obtain rfl : k = more.length := by simpa using taken
            rw [List.take_length] at all
            have same : (more ++ rest).take more.length = more := List.take_left
            rw [if_pos ⟨lower, upper, by simp, same.symm ▸ all⟩, taken]
          · cases taken

theorem flatten_charsFrom {n : Nat} {s : Bytes} (enough : s.length ≤ n) :
    (charsFrom n s).flatten = s := by
  induction n generalizing s with
  | zero =>
      rw [List.length_eq_zero_iff.mp (Nat.le_zero.mp enough)]
      rfl
  | succ n ih =>
      cases s with
      | nil => rfl
      | cons b rest =>
          have shorter : (rest.drop (width (b :: rest) - 1)).length ≤ n := by
            rw [List.length_drop]
            rw [List.length_cons] at enough
            omega
          rw [charsFrom, List.flatten_cons, ih shorter, List.cons_append, List.take_append_drop]

theorem flatten_chars (s : Bytes) : (chars s).flatten = s :=
  flatten_charsFrom (Nat.le_refl _)

/-- In a text of seven bits every byte is a character. -/
theorem charsFrom_of_lt {n : Nat} {s : Bytes} (small : ∀ b ∈ s, b < 0x80)
    (enough : s.length ≤ n) : charsFrom n s = s.map fun b => [b] := by
  induction n generalizing s with
  | zero =>
      rw [List.length_eq_zero_iff.mp (Nat.le_zero.mp enough)]
      rfl
  | succ n ih =>
      cases s with
      | nil => rfl
      | cons b rest =>
          obtain ⟨here, small⟩ := List.forall_mem_cons.mp small
          rw [charsFrom, width_of_lt here]
          exact congrArg ([b] :: ·) (ih small (Nat.le_of_succ_le_succ enough))

theorem valid_of_lt {s : Bytes} (small : ∀ b ∈ s, b < 0x80) : Valid s := by
  intro c mem
  rw [chars, charsFrom_of_lt small (Nat.le_refl _)] at mem
  obtain ⟨b, listed, rfl⟩ := List.mem_map.mp mem
  exact ⟨List.cons_ne_nil b [], width_of_lt (small b listed) []⟩

end Utf8
