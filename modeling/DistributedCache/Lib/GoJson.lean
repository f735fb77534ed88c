import DistributedCache.Lib.Utf8

/-!
JSON texts, as Go's `encoding/json` writes and reads them.

Texts are written without white space, and with escapes that make them safe inside HTML. The
reader takes every text of the grammar whose arrays and objects are nested at most 10000 deep.
It does not refuse what is no UTF-8 in a string, but replaces it.
-/
namespace GoJson

open GoText

inductive Value
  | null
  | bool (b : Bool)
  /-- A number, by its spelling. -/
  | number (literal : Bytes)
  | string (s : Bytes)
  | array (elements : List Value)
  | object (members : List (Bytes × Value))

section Write

def hexDigit (n : Nat) : UInt8 :=
  UInt8.ofNat (if n < 10 then n + 48 else n + 87)

/-- The bytes that are written as a backslash and a letter. -/
def shortEscapes : List (UInt8 × UInt8) :=
  [(92, 92), (34, 34), (8, 98), (12, 102), (10, 110), (13, 114), (9, 116)]

/-- A byte of seven bits inside a string. -/
def escapeByte (b : UInt8) : Bytes :=
  match shortEscapes.find? fun e => e.1 = b with
  | some e => [92, e.2]
  | none =>
      if b < 32 ∨ b = 60 ∨ b = 62 ∨ b = 38 then
        ascii "\\u00" ++ [hexDigit (b.toNat / 16), hexDigit (b.toNat % 16)]
      else [b]

/-- A character inside a string. A byte that is none is replaced, and the line separators U+2028
and U+2029 are written as numbers. -/
def escapeChar : Bytes → Bytes
  | [b] => if b < 0x80 then escapeByte b else ascii "\\ufffd"
  | c =>
      if c = [0xE2, 0x80, 0xA8] then ascii "\\u2028"
      else if c = [0xE2, 0x80, 0xA9] then ascii "\\u2029"
      else c

def quote (s : Bytes) : Bytes :=
  34 :: ((Utf8.chars s).flatMap escapeChar ++ [34])

mutual

/-- The text that `json.Marshal` writes. -/
def print : Value → Bytes
  | .null => ascii "null"
  | .bool true => ascii "true"
  | .bool false => ascii "false"
  | .number literal => literal
  | .string s => quote s
  | .array elements => 91 :: ([44].intercalate (elementTexts elements) ++ [93])
  | .object members => 123 :: ([44].intercalate (memberTexts members) ++ [125])

def elementTexts : List Value → List Bytes
  | [] => []
  | v :: rest => print v :: elementTexts rest

def memberTexts : List (Bytes × Value) → List Bytes
  | [] => []
  | (key, v) :: rest => (quote key ++ 58 :: print v) :: memberTexts rest

end

theorem elementTexts_eq (elements : List Value) : elementTexts elements = elements.map print := by
  induction elements with
  | nil => rfl
  | cons v rest ih => rw [elementTexts, ih, List.map_cons]

theorem memberTexts_eq (members : List (Bytes × Value)) :
    memberTexts members = members.map fun m => quote m.1 ++ 58 :: print m.2 := by
  induction members with
  | nil => rfl
  | cons m rest ih =>
      obtain ⟨key, v⟩ := m
      rw [memberTexts, ih, List.map_cons]

end Write

section Read

def spaces : Bytes :=
  [32, 9, 13, 10]

def skipSpace : Bytes → Bytes
  | [] => []
  | b :: rest => if b ∈ spaces then skipSpace rest else b :: rest

def hexValue (c : UInt8) : Option Nat :=
  if 48 ≤ c ∧ c ≤ 57 then some (c.toNat - 48)
  else if 97 ≤ c ∧ c ≤ 102 then some (c.toNat - 87)
  else if 65 ≤ c ∧ c ≤ 70 then some (c.toNat - 55)
  else none

/-- The number behind a `\u`. -/
def hex4 : Bytes → Option (Nat × Bytes)
  | a :: b :: c :: d :: rest => do
      let a ← hexValue a
      let b ← hexValue b
      let c ← hexValue c
      let d ← hexValue d
      some (a * 4096 + b * 256 + c * 16 + d, rest)
  | _ => none

/-- What a letter behind a backslash stands for. -/
def unescape (c : UInt8) : Option UInt8 :=
  if c = 34 ∨ c = 92 ∨ c = 47 then some c
  else if c = 98 then some 8
  else if c = 102 then some 12
  else if c = 110 then some 10
  else if c = 114 then some 13
  else if c = 116 then some 9
  else none

/-- The character of a `\u` escape with the number `r`. One half of a surrogate pair looks for
the other one, and is replaced if it is not there. -/
def unicode (r : Nat) (rest : Bytes) : Bytes × Bytes :=
  if 0xD800 ≤ r ∧ r < 0xE000 then
    match (ascii "\\u").isPrefixOf? rest >>= hex4 with
    | some (r', rest') =>
        if r < 0xDC00 ∧ 0xDC00 ≤ r' ∧ r' < 0xE000 then
          (Utf8.encodeRune (0x10000 + (r - 0xD800) * 1024 + (r' - 0xDC00)), rest')
        else (Utf8.replacement, rest)
    | none => (Utf8.replacement, rest)
  else (Utf8.encodeRune r, rest)

/-- The character of an escape, behind the backslash. -/
def escaped : Bytes → Option (Bytes × Bytes)
  | [] => none
  | c :: rest =>
      if c = 117 then (hex4 rest).map fun (r, rest) => unicode r rest
      else (unescape c).map fun b => ([b], rest)

/-- The next character of a string, or its end. -/
def piece : Bytes → Option (Option Bytes × Bytes)
  | [] => none
  | b :: rest =>
      if b = 34 then some (none, rest)
      else if b = 92 then (escaped rest).map fun (char, rest) => (some char, rest)
      else if b < 32 then none
      else match Utf8.width (b :: rest) with
        | 0 => some (some Utf8.replacement, rest)
        | w + 1 => some (some (b :: rest.take w), rest.drop w)

/-- A string behind its first quotation mark, where the number bounds its characters. -/
def stringFrom : Nat → Bytes → Option (Bytes × Bytes)
  | 0, _ => none
  | n + 1, s =>
      match piece s with
      | none => none
      | some (none, rest) => some ([], rest)
      | some (some char, rest) => (stringFrom n rest).map fun (more, rest) => (char ++ more, rest)

def string (s : Bytes) : Option (Bytes × Bytes) :=
  stringFrom s.length s

/-- One digit or more. -/
def digits (s : Bytes) : Option (Bytes × Bytes) :=
  if s.takeWhile isDigit = [] then none else some (s.takeWhile isDigit, s.dropWhile isDigit)

/-- The byte at the front, if it is one of those. -/
def oneOf (bytes : Bytes) : Bytes → Bytes × Bytes
  | [] => ([], [])
  | b :: rest => if b ∈ bytes then ([b], rest) else ([], b :: rest)

/-- The digits in front of a fraction. No others follow a zero. -/
def whole : Bytes → Option (Bytes × Bytes)
  | [] => none
  | b :: rest => if b = 48 then some ([b], rest) else digits (b :: rest)

def fraction (s : Bytes) : Option (Bytes × Bytes) :=
  match oneOf [46] s with
  | ([], s) => some ([], s)
  | (point, s) => (digits s).map fun (ds, s) => (point ++ ds, s)

def exponent (s : Bytes) : Option (Bytes × Bytes) :=
  match oneOf [101, 69] s with
  | ([], s) => some ([], s)
  | (letter, s) =>
      let (sign, s) := oneOf [43, 45] s
      (digits s).map fun (ds, s) => (letter ++ sign ++ ds, s)

def number (s : Bytes) : Option (Bytes × Bytes) := do
  let (minus, s) := oneOf [45] s
  let (w, s) ← whole s
  let (f, s) ← fraction s
  let (e, s) ← exponent s
  some (minus ++ w ++ f ++ e, s)

def literal (word : Bytes) (v : Value) (s : Bytes) : Option (Value × Bytes) :=
  (word.isPrefixOf? s).map fun rest => (v, rest)

/-- A value that is neither an array nor an object. -/
def scalar : Bytes → Option (Value × Bytes)
  | [] => none
  | b :: rest =>
      if b = 34 then (string rest).map fun (s, rest) => (.string s, rest)
      else if b = 110 then literal (ascii "ull") .null rest
      else if b = 116 then literal (ascii "rue") (.bool true) rest
      else if b = 102 then literal (ascii "alse") (.bool false) rest
      else (number (b :: rest)).map fun (n, rest) => (.number n, rest)

/-- One item or more with commas between them, up to the closing bracket. The number bounds
how many there are. -/
def itemsFrom {α : Type} (item : Bytes → Option (α × Bytes)) (close : UInt8) :
    Nat → Bytes → Option (List α × Bytes)
  | 0, _ => none
  | n + 1, s => do
      let (a, s) ← item s
      match skipSpace s with
      | [] => none
      | c :: s =>
          if c = close then some ([a], s)
          else if c = 44 then (itemsFrom item close n s).map fun (more, s) => (a :: more, s)
          else none

def items {α : Type} (item : Bytes → Option (α × Bytes)) (close : UInt8) (s : Bytes) :
    Option (List α × Bytes) :=
  match skipSpace s with
  | [] => none
  | c :: rest => if c = close then some ([], rest) else itemsFrom item close s.length s

/-- A member of an object: a key and a value. -/
def member (value : Bytes → Option (Value × Bytes)) (s : Bytes) :
    Option ((Bytes × Value) × Bytes) := do
  let s ← [34].isPrefixOf? (skipSpace s)
  let (key, s) ← string s
  let s ← [58].isPrefixOf? (skipSpace s)
  let (v, s) ← value s
  some ((key, v), s)

/-- A value with at most so many brackets around one place. -/
def value : Nat → Bytes → Option (Value × Bytes)
  | 0, s => scalar (skipSpace s)
  | depth + 1, s =>
      match skipSpace s with
      | [] => none
      | b :: rest =>
          if b = 91 then (items (value depth) 93 rest).map fun (vs, s) => (.array vs, s)
          else if b = 123 then
            (items (member (value depth)) 125 rest).map fun (ms, s) => (.object ms, s)
          else scalar (b :: rest)

/-- The value of a text, if `json.Unmarshal` finds no error in its syntax. -/
def parse (s : Bytes) : Option Value := do
  let (v, rest) ← value 10000 s
  if skipSpace rest = [] then some v else none

end Read

section Strings

variable {c rest : Bytes} {b : UInt8}

theorem hexValue_hexDigit : ∀ n < 16, hexValue (hexDigit n) = some n := by
  decide

theorem unescape_shortEscapes : ∀ e ∈ shortEscapes, e.2 ≠ 117 ∧ unescape e.2 = some e.1 := by
  have all : (shortEscapes.all fun e => e.2 ≠ 117 ∧ unescape e.2 = some e.1) = true := by decide
  exact fun e mem => of_decide_eq_true (List.all_eq_true.mp all e mem)

/-- A character that is written as a number. -/
theorem piece_hex (r : Nat) (hex : Bytes) (read : hex4 (hex ++ rest) = some (r, rest))
    (whole : r < 0xD800) (char : Utf8.encodeRune r = c) :
    piece (92 :: 117 :: (hex ++ rest)) = some (some c, rest) := by
  rw [piece, if_neg (by decide), if_pos rfl, escaped, if_pos rfl, read]
  dsimp only [Option.map_some]
  rw [unicode, if_neg (by omega), char]

theorem hex4_byte (small : b < 0x80) (rest : Bytes) :
    hex4 ([48, 48, hexDigit (b.toNat / 16), hexDigit (b.toNat % 16)] ++ rest) =
      some (b.toNat, rest) := by
  have low : b.toNat < 128 := UInt8.lt_iff_toNat_lt.mp small
  have zero : hexValue 48 = some 0 := by decide
  have number : 0 * 4096 + 0 * 256 + b.toNat / 16 * 16 + b.toNat % 16 = b.toNat := by omega
  change hex4 (48 :: 48 :: hexDigit (b.toNat / 16) :: hexDigit (b.toNat % 16) :: rest) = _
  rw [hex4, zero, hexValue_hexDigit _ (by omega), hexValue_hexDigit _ (by omega)]
  dsimp only [Option.bind_eq_bind, Option.bind_some]
  rw [number]

theorem piece_escapeByte (small : b < 0x80) (rest : Bytes) :
    piece (escapeByte b ++ rest) = some (some [b], rest) := by
  unfold escapeByte
  cases found : shortEscapes.find? fun e => e.1 = b with
  | some e =>
      obtain ⟨other, back⟩ := unescape_shortEscapes e (List.mem_of_find?_eq_some found)
      obtain rfl : e.1 = b := by simpa using List.find?_some found
      change piece (92 :: e.2 :: rest) = _
      rw [piece, if_neg (by decide), if_pos rfl, escaped, if_neg other, back]
      rfl
  | none =>
      have plain : ∀ e ∈ shortEscapes, e.1 ≠ b := by simpa using found
      dsimp only
      split
      · have low : b.toNat < 128 := UInt8.lt_iff_toNat_lt.mp small
        refine piece_hex b.toNat _ (hex4_byte small rest) (by omega) ?_
        rw [Utf8.encodeRune, if_pos low, UInt8.ofNat_toNat]
      · rename_i safe
        change piece (b :: rest) = _
        have quote : b ≠ 34 := (plain (34, 34) (by decide)).symm
        have backslash : b ≠ 92 := (plain (92, 92) (by decide)).symm
        rw [piece, if_neg quote, if_neg backslash, if_neg fun h => safe (.inl h),
          Utf8.width_of_lt small]
        rfl

/-- A longer character is written as it is. -/
theorem piece_long {a b : UInt8} {more : Bytes} (char : Utf8.IsChar (a :: b :: more))
    (rest : Bytes) : piece (a :: b :: more ++ rest) = some (some (a :: b :: more), rest) := by
  have other {x : UInt8} (low : x < 0x80) : a ≠ x := by
    rintro rfl
    exact UInt8.lt_irrefl _ (UInt8.lt_of_lt_of_le low char.long)
  have width := char.width_append rest
  rw [List.cons_append, List.length_cons] at width
  rw [List.cons_append, piece, if_neg (other (by decide)), if_neg (other (by decide)),
    if_neg (UInt8.not_lt.mpr (UInt8.le_trans (by decide) char.long)), width]
  dsimp only
  rw [List.take_left, List.drop_left]

theorem piece_escapeChar (char : Utf8.IsChar c) (rest : Bytes) :
    piece (escapeChar c ++ rest) = some (some c, rest) := by
  match c with
  | [] => exact absurd rfl char.1
  | [b] =>
      rw [escapeChar, if_pos char.short]
      exact piece_escapeByte char.short rest
  | a :: b :: more =>
      rw [escapeChar.eq_def]
      dsimp only
      split
      · rename_i same
        rw [same]
        exact piece_hex 0x2028 (ascii "2028") rfl (by decide) (by decide)
      · split
        · rename_i same
          rw [same]
          exact piece_hex 0x2029 (ascii "2029") rfl (by decide) (by decide)
        · exact piece_long char rest

theorem escapeChar_ne_nil (char : Utf8.IsChar c) : escapeChar c ≠ [] := by
  intro empty
  have read := piece_escapeChar char []
  rw [empty] at read
  cases read

theorem stringFrom_escaped {cs : List Bytes} (chars : ∀ c ∈ cs, Utf8.IsChar c) {n : Nat}
    (enough : cs.length < n) (rest : Bytes) :
    stringFrom n (cs.flatMap escapeChar ++ 34 :: rest) = some (cs.flatten, rest) := by
  induction cs generalizing n with
  | nil =>
      obtain ⟨n, rfl⟩ := Nat.exists_eq_succ_of_ne_zero (Nat.ne_of_gt enough)
      rfl
  | cons c cs ih =>
      obtain ⟨n, rfl⟩ := Nat.exists_eq_succ_of_ne_zero (Nat.ne_of_gt (Nat.zero_lt_of_lt enough))
      obtain ⟨char, chars⟩ := List.forall_mem_cons.mp chars
      rw [stringFrom, List.flatMap_cons, List.append_assoc, piece_escapeChar char]
      dsimp only
      rw [ih chars (Nat.lt_of_succ_lt_succ enough)]
      rfl

theorem length_le_escaped {cs : List Bytes} (chars : ∀ c ∈ cs, Utf8.IsChar c) :
    cs.length ≤ (cs.flatMap escapeChar).length := by
  induction cs with
  | nil => exact Nat.le_refl 0
  | cons c cs ih =>
      obtain ⟨char, chars⟩ := List.forall_mem_cons.mp chars
      have positive := List.length_pos_iff.mpr (escapeChar_ne_nil char)
      have more := ih chars
      rw [List.flatMap_cons, List.length_append, List.length_cons]
      omega

/-- A string is read back. -/
theorem string_quote {s : Bytes} (valid : Utf8.Valid s) (rest : Bytes) :
    string ((Utf8.chars s).flatMap escapeChar ++ 34 :: rest) = some (s, rest) := by
  have room := length_le_escaped valid
  rw [string, stringFrom_escaped valid ?_, Utf8.flatten_chars]
  rw [List.length_append, List.length_cons]
  omega

end Strings

section Numbers

/-- What follows does not go on with a number. -/
def Stops (s : Bytes) : Prop :=
  ∀ b ∈ s.head?, isDigit b = false ∧ b ∉ [46, 101, 69]

/-- An integer, as it is written. -/
def integer (n : Int) : Bytes :=
  if n < 0 then 45 :: decimal (-n).toNat else decimal n.toNat

variable {rest : Bytes}

theorem oneOf_other {bytes s : Bytes} (other : ∀ b ∈ s.head?, b ∉ bytes) :
    oneOf bytes s = ([], s) := by
  cases s with
  | nil => rfl
  | cons b rest => rw [oneOf, if_neg (other b rfl)]

theorem digits_append {ds : Bytes} (some : ds ≠ []) (all : ∀ b ∈ ds, isDigit b = true)
    (stops : Stops rest) : digits (ds ++ rest) = Option.some (ds, rest) := by
  have none : rest.takeWhile isDigit = [] ∧ rest.dropWhile isDigit = rest := by
    cases rest with
    | nil => exact ⟨rfl, rfl⟩
    | cons b rest =>
        have other := (stops b rfl).1
        rw [List.takeWhile_cons, List.dropWhile_cons, other]
        exact ⟨rfl, rfl⟩
  rw [digits, List.takeWhile_append_of_pos all, List.dropWhile_append_of_pos all, none.1, none.2,
    List.append_nil, if_neg some]

theorem head?_decimal_ne {n : Nat} (positive : 0 < n) : (decimal n).head? ≠ some 48 := by
  induction n using Nat.strongRecOn with
  | ind n ih =>
      have split := Nat.toDigits_eq_if (b := 10) (n := n) (by decide)
      by_cases small : n < 10
      · have digit : ∀ m < 10, 0 < m → (decimal m).head? ≠ some 48 := by decide
        exact digit n small positive
      · rw [if_neg small] at split
        have front := ih (n / 10) (by omega) (by omega)
        have some := decimal_ne_nil (n / 10)
        rw [decimal, split, List.map_append, ← decimal, List.head?_append_of_ne_nil _ some]
        exact front

theorem whole_decimal (n : Nat) (stops : Stops rest) :
    whole (decimal n ++ rest) = some (decimal n, rest) := by
  by_cases zero : n = 0
  · subst zero
    rfl
  · have all : ∀ b ∈ decimal n, isDigit b = true := fun b mem => isDigit_of_mem_decimal mem
    have front := head?_decimal_ne (Nat.pos_of_ne_zero zero)
    have read := digits_append (decimal_ne_nil n) all stops
    cases spelled : decimal n with
    | nil => exact absurd spelled (decimal_ne_nil n)
    | cons b ds =>
        rw [spelled] at front read
        rw [List.cons_append, whole, if_neg fun h => front (congrArg some h)]
        exact read

theorem fraction_stops (stops : Stops rest) : fraction rest = some ([], rest) := by
  rw [fraction, oneOf_other fun b mem point => (stops b mem).2 (by simp_all)]

theorem exponent_stops (stops : Stops rest) : exponent rest = some ([], rest) := by
  rw [exponent, oneOf_other fun b mem letter => (stops b mem).2 (by simp_all)]

theorem number_of_whole {s s' minus w : Bytes} (sign : oneOf [45] s = (minus, s'))
    (read : whole s' = some (w, rest)) (stops : Stops rest) :
    number s = some (minus ++ w, rest) := by
  rw [number, sign]
  dsimp only
  rw [read]
  dsimp only [Option.bind_eq_bind, Option.bind_some]
  rw [fraction_stops stops]
  dsimp only [Option.bind_some]
  rw [exponent_stops stops]
  simp

theorem number_integer (n : Int) (stops : Stops rest) :
    number (integer n ++ rest) = some (integer n, rest) := by
  unfold integer
  split
  · exact number_of_whole (s := 45 :: decimal (-n).toNat ++ rest) rfl (whole_decimal _ stops) stops
  · refine number_of_whole (oneOf_other fun b mem minus => ?_) (whole_decimal _ stops) stops
    obtain rfl := List.mem_singleton.mp minus
    rw [List.head?_append_of_ne_nil _ (decimal_ne_nil _)] at mem
    exact absurd (isDigit_of_mem_decimal (List.mem_of_mem_head? mem)) (by decide)

end Numbers

section Values

/-- The values whose texts are read back, with at most so many brackets around one place. -/
inductive Fits : Nat → Value → Prop
  | null {depth : Nat} : Fits depth .null
  | bool {depth : Nat} (b : Bool) : Fits depth (.bool b)
  | integer {depth : Nat} (n : Int) : Fits depth (.number (integer n))
  | string {depth : Nat} {s : Bytes} (valid : Utf8.Valid s) : Fits depth (.string s)
  | array {depth : Nat} {elements : List Value} (all : ∀ v ∈ elements, Fits depth v) :
      Fits (depth + 1) (.array elements)
  | object {depth : Nat} {members : List (Bytes × Value)} (keys : ∀ m ∈ members, Utf8.Valid m.1)
      (all : ∀ m ∈ members, Fits depth m.2) : Fits (depth + 1) (.object members)

theorem Fits.noMembers {depth : Nat} : Fits (depth + 1) (.object []) :=
  .object (List.forall_mem_nil _) (List.forall_mem_nil _)

theorem Fits.member {depth : Nat} {key : Bytes} {v : Value} {members : List (Bytes × Value)}
    (valid : Utf8.Valid key) (fits : Fits depth v) (rest : Fits (depth + 1) (.object members)) :
    Fits (depth + 1) (.object ((key, v) :: members)) := by
  cases rest with
  | object keys all =>
      exact .object (List.forall_mem_cons.mpr ⟨valid, keys⟩) (List.forall_mem_cons.mpr ⟨fits, all⟩)

/-- A text starts with something else than white space or a closing bracket. -/
def Starts (s : Bytes) : Prop :=
  ∃ b rest, s = b :: rest ∧ b ∉ spaces ∧ b ≠ 93 ∧ b ≠ 125

theorem skipSpace_cons {b : UInt8} (other : b ∉ spaces) (rest : Bytes) :
    skipSpace (b :: rest) = b :: rest := by
  rw [skipSpace, if_neg other]

section Items

variable {α : Type} {item : Bytes → Option (α × Bytes)} {close : UInt8} {text : α → Bytes}
  {list : List α} {rest : Bytes}

theorem stops_close (closes : close = 93 ∨ close = 125) (rest : Bytes) :
    Stops (close :: rest) ∧ close ∉ spaces ∧ (44 : UInt8) ≠ close := by
  rcases closes with rfl | rfl
  · exact ⟨fun b mem => by cases mem; decide, by decide, by decide⟩
  · exact ⟨fun b mem => by cases mem; decide, by decide, by decide⟩

theorem itemsFrom_texts (closes : close = 93 ∨ close = 125) (some : list ≠ [])
    (reads : ∀ a ∈ list, ∀ rest, Stops rest → item (text a ++ rest) = Option.some (a, rest))
    {n : Nat} (enough : list.length ≤ n) (rest : Bytes) :
    itemsFrom item close n ([44].intercalate (list.map text) ++ close :: rest) =
      Option.some (list, rest) := by
  obtain ⟨stops, plain, comma⟩ := stops_close closes rest
  induction list generalizing n with
  | nil => exact absurd rfl some
  | cons a list ih =>
      obtain ⟨n, rfl⟩ := Nat.exists_eq_succ_of_ne_zero
        (Nat.ne_of_gt (Nat.zero_lt_of_lt (Nat.lt_of_lt_of_le (Nat.lt_succ_self _) enough)))
      obtain ⟨read, reads⟩ := List.forall_mem_cons.mp reads
      cases list with
      | nil =>
          rw [List.map_cons, List.map_nil, List.intercalate_singleton, itemsFrom, read _ stops]
          dsimp only [Option.bind_eq_bind, Option.bind_some]
          rw [skipSpace_cons plain]
          dsimp only
          rw [if_pos rfl]
      | cons b list =>
          have more := ih (List.cons_ne_nil b list) reads (Nat.le_of_succ_le_succ enough)
          rw [List.map_cons] at more
          have stops' (s : Bytes) : Stops (44 :: s) := fun b mem => by cases mem; decide
          rw [List.map_cons, List.map_cons, List.intercalate_cons_cons, List.append_assoc,
            List.append_assoc, List.singleton_append, itemsFrom, read _ (stops' _)]
          dsimp only [Option.bind_eq_bind, Option.bind_some]
          rw [skipSpace_cons (by decide)]
          dsimp only
          rw [if_neg comma, if_pos rfl, more]
          rfl

theorem length_le_intercalate (texts : List Bytes) :
    texts.length ≤ ([44].intercalate texts).length + 1 := by
  induction texts with
  | nil => exact Nat.zero_le _
  | cons t texts ih =>
      cases texts with
      | nil => exact Nat.succ_le_succ (Nat.zero_le _)
      | cons t' texts =>
          rw [List.intercalate_cons_cons, List.length_append, List.length_append, List.length_cons,
            List.length_singleton]
          omega

theorem intercalate_cons (t : Bytes) (texts : List Bytes) :
    ∃ more, [44].intercalate (t :: texts) = t ++ more := by
  cases texts with
  | nil => exact ⟨[], by rw [List.intercalate_singleton, List.append_nil]⟩
  | cons t' texts => exact ⟨_, List.intercalate_cons_cons.trans (List.append_assoc _ _ _)⟩

theorem items_texts (closes : close = 93 ∨ close = 125) (starts : ∀ a ∈ list, Starts (text a))
    (reads : ∀ a ∈ list, ∀ rest, Stops rest → item (text a ++ rest) = some (a, rest))
    (rest : Bytes) :
    items item close ([44].intercalate (list.map text) ++ close :: rest) = some (list, rest) := by
  obtain ⟨_, plain, _⟩ := stops_close closes rest
  cases list with
  | nil =>
      rw [List.map_nil, List.intercalate_nil, List.nil_append, items, skipSpace_cons plain]
      dsimp only
      rw [if_pos rfl]
  | cons a list =>
      have room := length_le_intercalate ((a :: list).map text)
      have enough : (a :: list).length ≤
          ([44].intercalate ((a :: list).map text) ++ close :: rest).length := by
        rw [List.length_map] at room
        rw [List.length_append, List.length_cons (a := close)]
        omega
      have read := itemsFrom_texts closes (List.cons_ne_nil a list) reads enough rest
      obtain ⟨b, tail, first, space, bracket⟩ := starts a List.mem_cons_self
      obtain ⟨more, whole⟩ := intercalate_cons (text a) (list.map text)
      have front : [44].intercalate ((a :: list).map text) ++ close :: rest =
          b :: (tail ++ (more ++ close :: rest)) := by
        rw [List.map_cons, whole, first]
        simp only [List.append_assoc, List.cons_append]
      have other : b ≠ close := by
        rcases closes with rfl | rfl
        · exact bracket.1
        · exact bracket.2
      rw [front] at read
      rw [items, front, skipSpace_cons space]
      dsimp only
      rw [if_neg other, read]

end Items

theorem head_integer (n : Int) : ∃ b rest, integer n = b :: rest ∧ (b = 45 ∨ isDigit b = true) := by
  unfold integer
  split
  · exact ⟨45, _, rfl, .inl rfl⟩
  · obtain ⟨b, ds, spelled⟩ := List.exists_cons_of_ne_nil (decimal_ne_nil n.toNat)
    refine ⟨b, ds, spelled, .inr (isDigit_of_mem_decimal (n := n.toNat) ?_)⟩
    rw [spelled]
    exact List.mem_cons_self

/-- A byte that starts a number starts nothing else. -/
theorem ne_of_number {b : UInt8} (first : b = 45 ∨ isDigit b = true) :
    ∀ c ∈ spaces ++ [93, 125, 91, 123, 34, 110, 116, 102], b ≠ c := by
  have known : ∀ c ∈ spaces ++ [93, 125, 91, 123, 34, 110, 116, 102],
      c ≠ 45 ∧ isDigit c = false := by decide +kernel
  rintro c mem rfl
  obtain ⟨minus, digit⟩ := known b mem
  cases first with
  | inl same => exact minus same
  | inr first =>
      rw [digit] at first
      cases first

theorem Fits.starts {depth : Nat} {v : Value} (fits : Fits depth v) : Starts (print v) := by
  cases fits with
  | null | string | array | object => exact ⟨_, _, rfl, by decide, by decide, by decide⟩
  | bool b =>
      cases b with
      | true | false => exact ⟨_, _, rfl, by decide, by decide, by decide⟩
  | integer n =>
      obtain ⟨b, rest, spelled, first⟩ := head_integer n
      have other := ne_of_number first
      exact ⟨b, rest, spelled, fun mem => other b (List.mem_append_left _ mem) rfl,
        other 93 (by decide), other 125 (by decide)⟩

/-- What is no bracket is a scalar, at any depth. -/
theorem value_scalar (depth : Nat) {b : UInt8} (space : b ∉ spaces) (array : b ≠ 91)
    (object : b ≠ 123) (rest : Bytes) : value depth (b :: rest) = scalar (b :: rest) := by
  cases depth with
  | zero => rw [value, skipSpace_cons space]
  | succ depth =>
      rw [value, skipSpace_cons space]
      dsimp only
      rw [if_neg array, if_neg object]

theorem member_text {read : Bytes → Option (Value × Bytes)} {key rest : Bytes} {v : Value}
    (valid : Utf8.Valid key) (reads : read (print v ++ rest) = some (v, rest)) :
    member read (quote key ++ 58 :: print v ++ rest) = some ((key, v), rest) := by
  have front : quote key ++ 58 :: print v ++ rest =
      34 :: ((Utf8.chars key).flatMap escapeChar ++ 34 :: 58 :: (print v ++ rest)) := by
    simp only [quote, List.cons_append, List.append_assoc, List.nil_append]
  have mark (b : UInt8) (s : Bytes) : [b].isPrefixOf? (b :: s) = some s := by simp
  rw [front, member, skipSpace_cons (by decide), mark]
  dsimp only [Option.bind_eq_bind, Option.bind_some]
  rw [string_quote valid]
  dsimp only [Option.bind_some]
  rw [skipSpace_cons (by decide), mark]
  dsimp only [Option.bind_some]
  rw [reads]
  rfl

/-- What is written is read back, whatever follows it. -/
theorem Fits.value_print {depth : Nat} {v : Value} (fits : Fits depth v) :
    ∀ rest, Stops rest → value depth (print v ++ rest) = some (v, rest) := by
  induction fits with
  | null =>
      intro rest _
      exact value_scalar _ (by decide) (by decide) (by decide) _
  | bool b =>
      intro rest _
      cases b with
      | true | false => exact value_scalar _ (by decide) (by decide) (by decide) _
  | @string depth s valid =>
      intro rest _
      have front : print (.string s) ++ rest =
          34 :: ((Utf8.chars s).flatMap escapeChar ++ 34 :: rest) := by
        simp only [print, quote, List.cons_append, List.append_assoc, List.nil_append]
      rw [front, value_scalar _ (by decide) (by decide) (by decide), scalar, if_pos rfl,
        string_quote valid]
      rfl
  | @integer depth n =>
      intro rest stops
      obtain ⟨b, tail, spelled, first⟩ := head_integer n
      have other := ne_of_number first
      have space : b ∉ spaces := fun mem => other b (List.mem_append_left _ mem) rfl
      have read := number_integer n stops
      rw [print, spelled, List.cons_append] at *
      rw [value_scalar _ space (other 91 (by decide)) (other 123 (by decide)), scalar,
        if_neg (other 34 (by decide)), if_neg (other 110 (by decide)),
        if_neg (other 116 (by decide)), if_neg (other 102 (by decide)), read]
      rfl
  | @array depth elements all ih =>
      intro rest _
      have front : print (.array elements) ++ rest =
          91 :: ([44].intercalate (elements.map print) ++ 93 :: rest) := by
        simp only [print, elementTexts_eq, List.cons_append, List.append_assoc, List.nil_append]
      rw [front, value, skipSpace_cons (by decide)]
      dsimp only
      rw [if_pos rfl, items_texts (.inl rfl) (fun v mem => (all v mem).starts) ih]
      rfl
  | @object depth members keys all ih =>
      intro rest _
      have front : print (.object members) ++ rest = 123 :: ([44].intercalate
          (members.map fun m => quote m.1 ++ 58 :: print m.2) ++ 125 :: rest) := by
        simp only [print, memberTexts_eq, List.cons_append, List.append_assoc, List.nil_append]
      have starts : ∀ m ∈ members, Starts (quote m.1 ++ 58 :: print m.2) :=
        fun m _ => ⟨34, _, rfl, by decide, by decide, by decide⟩
      rw [front, value, skipSpace_cons (by decide)]
      dsimp only
      rw [if_neg (by decide), if_pos rfl, items_texts (.inr rfl) starts fun m mem rest stops =>
        member_text (keys m mem) (ih m mem rest stops)]
      rfl

theorem parse_print {v : Value} (fits : Fits 10000 v) : parse (print v) = some v := by
  have read := fits.value_print [] (fun b mem => by cases mem)
  rw [List.append_nil] at read
  rw [parse, read]
  rfl

end Values

end GoJson
