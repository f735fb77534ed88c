import DistributedCache.Lib.Base64
import DistributedCache.Lib.GoJson

/-!
How `json.Unmarshal` stores a value in a variable.

It stores over what is there. So `null` changes nothing but a slice, a member of an object that
comes twice is stored twice, and the elements of an array go one by one over those of the array
behind a slice, of which a shorter slice may have left some. A member finds its field by name,
if need be without regard to case, and one that finds none is passed over.
-/
namespace GoJson

open GoText

/-- Stores a value over the contents of a variable, unless it is of another kind. -/
abbrev Into (α : Type) :=
  α → Value → Option α

section Scalars

/-- An unsigned integer below the bound. -/
def intoUint (bound : Nat) : Into Nat
  | old, .null => some old
  | _, .number literal => (parseDigits literal).filter fun n => n < bound
  | _, _ => none

/-- A signed integer of 64 bits. -/
def intoInt : Into Int
  | old, .null => some old
  | _, .number literal => parseInt literal
  | _, _ => none

def intoBool : Into Bool
  | old, .null => some old
  | _, .bool b => some b
  | _, _ => none

def intoString : Into Bytes
  | old, .null => some old
  | _, .string s => some s
  | _, _ => none

end Scalars

section Slices

/-- A slice, and what the array behind it holds further on. -/
structure Slice (α : Type) where
  shown : List α := []
  hidden : List α := []

variable {α : Type}

/-- The elements of an array, over those that are there. -/
def elementsInto (zero : α) (into : Into α) : List α → List Value → Option (List α)
  | _, [] => some []
  | old, v :: rest => do
      let a ← into (old.headD zero) v
      let more ← elementsInto zero into old.tail rest
      some (a :: more)

/-- An empty array makes a new slice. -/
def intoSlice (zero : α) (into : Into α) : Into (Slice α)
  | _, .null => some {}
  | _, .array [] => some {}
  | old, .array elements =>
      (elementsInto zero into (old.shown ++ old.hidden) elements).map fun shown =>
        ⟨shown, (old.shown ++ old.hidden).drop shown.length⟩
  | _, _ => none

def intoByte : Into UInt8 := fun old v =>
  (intoUint 256 old.toNat v).map UInt8.ofNat

/-- Bytes are a string in Base64, or an array of numbers. -/
def intoBytes : Into (Slice UInt8)
  | _, .string s => (Base64.decode s).map fun bytes => { shown := bytes }
  | old, v => intoSlice 0 intoByte old v

end Slices

section Structs

/-- A field with the name of its tag. -/
structure StructField (σ : Type) where
  name : Bytes
  into : Into σ

variable {σ α : Type}

def StructField.of (name : String) (get : σ → α) (set : σ → α → σ) (into : Into α) :
    StructField σ where
  name := ascii name
  into s v := (into (get s) v).map (set s)

/-- The capital letter of a letter. The Kelvin sign and the long s are small letters of `K`
and `S`, and no other character is one of an ASCII letter. -/
def foldChar : Bytes → Bytes
  | [b] => [if 97 ≤ b ∧ b ≤ 122 then b - 32 else b]
  | c => if c = [0xE2, 0x84, 0xAA] then [75] else if c = [0xC5, 0xBF] then [83] else c

def foldName (s : Bytes) : Bytes :=
  (Utf8.chars s).flatMap foldChar

def findField (fields : List (StructField σ)) (key : Bytes) : Option (StructField σ) :=
  (fields.find? fun f => f.name = key).or
    (fields.find? fun f => foldName f.name = foldName key)

def storeMember (fields : List (StructField σ)) (s : σ) (m : Bytes × Value) : Option σ :=
  match findField fields m.1 with
  | none => some s
  | some f => f.into s m.2

def intoStruct (fields : List (StructField σ)) : Into σ
  | old, .null => some old
  | old, .object members => members.foldlM (storeMember fields) old
  | _, _ => none

end Structs

section Write

/-- A member that is left out where its value is the empty one. -/
def omitEmpty (empty : Prop) [Decidable empty] (key : String) (v : Value) : List (Bytes × Value) :=
  if empty then [] else [(ascii key, v)]

def natural (n : Nat) : Value :=
  .number (integer n)

end Write

section Lemmas

variable {σ α : Type}

theorem intoUint_natural {bound n : Nat} (small : n < bound) (old : Nat) :
    intoUint bound old (natural n) = some n := by
  have spelled : integer n = decimal n := by rw [integer, if_neg (by omega), Int.toNat_natCast]
  rw [natural, spelled, intoUint, parseDigits_decimal, Option.filter_some, if_pos (by simpa)]

theorem intoInt_integer {n : Int} (low : -2 ^ 63 ≤ n) (high : n < 2 ^ 63) (old : Int) :
    intoInt old (.number (integer n)) = some n := by
  rw [intoInt, integer]
  split
  · rename_i negative
    have positive : ((-n).toNat : Int) = -n := Int.toNat_of_nonneg (by omega)
    rw [parseInt, List.head?_cons, if_neg (by decide), if_pos rfl, List.tail_cons,
      parseDigits_decimal]
    simp only [Option.map_some, Int.ofNat_eq_natCast, positive, Int.neg_neg, Option.filter_some]
    rw [if_pos (by simpa using ⟨low, high⟩)]
  · rw [parseInt_decimal (by omega), Int.toNat_of_nonneg (by omega)]

theorem intoBytes_encode (bytes : Bytes) (old : Slice UInt8) :
    intoBytes old (.string (Base64.encode bytes)) = some { shown := bytes } := by
  rw [intoBytes, Base64.decode_encode]
  rfl

/-- New elements, each over the zero value. -/
theorem elementsInto_nil {β : Type} (zero : α) (into : Into α) {text : β → Value} {var : β → α}
    {list : List β} (reads : ∀ b ∈ list, into zero (text b) = some (var b)) :
    elementsInto zero into [] (list.map text) = some (list.map var) := by
  induction list with
  | nil => rfl
  | cons b list ih =>
      obtain ⟨read, reads⟩ := List.forall_mem_cons.mp reads
      rw [List.map_cons, elementsInto, List.headD_nil, read, List.tail_nil, ih reads]
      rfl

theorem fits_omitEmpty {depth : Nat} (empty : Prop) [Decidable empty] {key : String} {v : Value}
    {members : List (Bytes × Value)} (valid : Utf8.Valid (ascii key)) (fits : Fits depth v)
    (rest : Fits (depth + 1) (.object members)) :
    Fits (depth + 1) (.object (omitEmpty empty key v ++ members)) := by
  unfold omitEmpty
  split
  · exact rest
  · exact .member valid fits rest

theorem foldlM_omitEmpty {fields : List (StructField σ)} {empty : Prop} [Decidable empty]
    {key : String} {v : Value} {s s' : σ} (omitted : empty → s' = s)
    (stored : ¬ empty → storeMember fields s (ascii key, v) = some s') :
    (omitEmpty empty key v).foldlM (storeMember fields) s = some s' := by
  unfold omitEmpty
  split
  · rename_i here
    rw [omitted here]
    rfl
  · rename_i here
    rw [List.foldlM_cons, stored here]
    rfl

end Lemmas

end GoJson
