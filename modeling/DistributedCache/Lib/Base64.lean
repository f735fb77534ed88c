import DistributedCache.Lib.GoText

/-!
Base64 with the standard alphabet and padding, as Go's `base64.StdEncoding` writes and reads it.

Three bytes are four characters of six bits each. The decoder passes over line ends, and does
not look at the bits of a last character that belong to no byte.
-/
namespace Base64

open GoText

/-- The character for six bits. -/
def letter (n : Nat) : UInt8 :=
  if n < 26 then UInt8.ofNat (n + 65)
  else if n < 52 then UInt8.ofNat (n + 71)
  else if n < 62 then UInt8.ofNat (n - 4)
  else if n = 62 then 43
  else 47

/-- The six bits of a character. -/
def sextet (c : UInt8) : Option Nat :=
  if 65 ≤ c ∧ c ≤ 90 then some (c.toNat - 65)
  else if 97 ≤ c ∧ c ≤ 122 then some (c.toNat - 71)
  else if 48 ≤ c ∧ c ≤ 57 then some (c.toNat + 4)
  else if c = 43 then some 62
  else if c = 47 then some 63
  else none

def encode : Bytes → Bytes
  | [] => []
  | [x] => [letter (x.toNat / 4), letter (x.toNat % 4 * 16), 61, 61]
  | [x, y] =>
      [letter (x.toNat / 4), letter (x.toNat % 4 * 16 + y.toNat / 16),
        letter (y.toNat % 16 * 4), 61]
  | x :: y :: z :: rest =>
      letter (x.toNat / 4) :: letter (x.toNat % 4 * 16 + y.toNat / 16) ::
        letter (y.toNat % 16 * 4 + z.toNat / 64) :: letter (z.toNat % 64) :: encode rest

/-- The bytes of groups of four characters. Only the last group may be padded. -/
def decodeGroups : Bytes → Option Bytes
  | [] => some []
  | a :: b :: c :: d :: rest => do
      let x ← sextet a
      let y ← sextet b
      if c = 61 ∧ d = 61 ∧ rest = [] then some [UInt8.ofNat (x * 4 + y / 16)]
      else do
        let z ← sextet c
        if d = 61 ∧ rest = [] then
          some [UInt8.ofNat (x * 4 + y / 16), UInt8.ofNat (y % 16 * 16 + z / 4)]
        else do
          let w ← sextet d
          let more ← decodeGroups rest
          some (UInt8.ofNat (x * 4 + y / 16) :: UInt8.ofNat (y % 16 * 16 + z / 4) ::
            UInt8.ofNat (z % 4 * 64 + w) :: more)
  | _ => none

def decode (s : Bytes) : Option Bytes :=
  decodeGroups (s.filter fun c => c ≠ 10 ∧ c ≠ 13)

theorem letter_plain : ∀ n < 64, 43 ≤ letter n ∧ letter n < 123 ∧ letter n ≠ 61 := by
  decide

theorem sextet_letter : ∀ n < 64, sextet (letter n) = some n := by
  decide

theorem ofNat_eq {n : Nat} {x : UInt8} (same : n = x.toNat) : UInt8.ofNat n = x := by
  rw [same, UInt8.ofNat_toNat]

/-- The characters of a text are printable. -/
theorem encode_plain (s : Bytes) : ∀ c ∈ encode s, 43 ≤ c ∧ c < 123 := by
  have plain {n : Nat} (small : n < 64) : 43 ≤ letter n ∧ letter n < 123 :=
    ⟨(letter_plain n small).1, (letter_plain n small).2.1⟩
  fun_induction encode s with
  | case1 => exact List.forall_mem_nil _
  | case2 x =>
      have := x.toNat_lt
      simp only [List.forall_mem_cons]
      exact ⟨plain (by omega), plain (by omega), by decide, by decide, List.forall_mem_nil _⟩
  | case3 x y =>
      have := x.toNat_lt
      have := y.toNat_lt
      simp only [List.forall_mem_cons]
      exact ⟨plain (by omega), plain (by omega), plain (by omega), by decide,
        List.forall_mem_nil _⟩
  | case4 x y z rest ih =>
      have := x.toNat_lt
      have := y.toNat_lt
      have := z.toNat_lt
      simp only [List.forall_mem_cons]
      exact ⟨plain (by omega), plain (by omega), plain (by omega), plain (by omega), ih⟩

theorem decodeGroups_encode (s : Bytes) : decodeGroups (encode s) = some s := by
  fun_induction encode s with
  | case1 => rfl
  | case2 x =>
      have := x.toNat_lt
      rw [decodeGroups, sextet_letter _ (by omega), sextet_letter _ (by omega)]
      dsimp only [Option.bind_eq_bind, Option.bind_some]
      rw [if_pos ⟨rfl, rfl, rfl⟩, ofNat_eq (x := x) (by omega)]
  | case3 x y =>
      have := x.toNat_lt
      have := y.toNat_lt
      rw [decodeGroups, sextet_letter _ (by omega), sextet_letter _ (by omega),
        sextet_letter _ (by omega)]
      dsimp only [Option.bind_eq_bind, Option.bind_some]
      rw [if_neg fun h => (letter_plain _ (by omega)).2.2 h.1, if_pos ⟨rfl, rfl⟩,
        ofNat_eq (x := x) (by omega), ofNat_eq (x := y) (by omega)]
  | case4 x y z rest ih =>
      have := x.toNat_lt
      have := y.toNat_lt
      have := z.toNat_lt
      rw [decodeGroups, sextet_letter _ (by omega), sextet_letter _ (by omega),
        sextet_letter _ (by omega), sextet_letter _ (by omega), ih]
      dsimp only [Option.bind_eq_bind, Option.bind_some]
      rw [if_neg fun h => (letter_plain _ (by omega)).2.2 h.1,
        if_neg fun h => (letter_plain _ (by omega)).2.2 h.1, ofNat_eq (x := x) (by omega),
        ofNat_eq (x := y) (by omega), ofNat_eq (x := z) (by omega)]

theorem decode_encode (s : Bytes) : decode (encode s) = some s := by
  have kept : (encode s).filter (fun c => decide (c ≠ 10 ∧ c ≠ 13)) = encode s := by
    refine List.filter_eq_self.mpr fun c mem => decide_eq_true ?_
    have plain := (encode_plain s c mem).1
    constructor
    · rintro rfl
      exact absurd plain (by decide)
    · rintro rfl
      exact absurd plain (by decide)
  rw [decode, kept, decodeGroups_encode]

example : decode (ascii "aGk=\n") = some (ascii "hi") := by decide

end Base64
