import Mathlib.Data.List.Induction
import DistributedCache.Lib.Framing
import DistributedCache.Lib.GoText

/-!
The lines of the text protocol of `internal/protocol`: a tag, a body and a line feed.

`readLine` takes a line without its line feed and without one carriage return before it.
An error of the stream is the end of the bytes.
-/
namespace DistributedCache.Protocol

open GoText Framing

inductive DecodeError
  | eof
  | unexpectedEOF
  | missingCmd
  | emptyCommand
  | missingKey
  | emptyKey
  | missingVal
  | invalidLength
  | invalidTTL
  | missingEnd
  | unknownCommand (command : Bytes)
  | invalidMembersCount
  | invalidMemberLine
  | invalidNodeLine (line : Bytes)
  | unknownLine (line : Bytes)
  deriving DecidableEq, Repr

abbrev Reader := Decoder UInt8 DecodeError

/-- What a format with a tag, `%s` or `%d`, and a line feed writes. -/
def line (tag body : Bytes) : Bytes :=
  tag ++ body ++ [10]

def readLine : Reader Bytes := fun s =>
  match cut 10 s with
  | some (text, rest) => .ok (trimSuffix 13 text, rest)
  | none => .error .eof

/-- Go's `io.ReadFull` into a slice of some length. -/
def readFull (length : Nat) : Reader Bytes := fun s =>
  if length ≤ s.length then .ok (s.take length, s.drop length)
  else .error (if s = [] then .eof else .unexpectedEOF)

/-- A line that has to be the last one of a message. -/
def readEnd : Reader Unit := do
  let endLine ← readLine
  if endLine = ascii "END" then pure () else throw .missingEnd

/-- The length in front of raw bytes. -/
def parseLength (text : Bytes) : Option Nat :=
  match parseInt (trimSpace text) with
  | some n => if n < 0 then none else some n.toNat
  | none => none

/-- Raw bytes of a length, and the rest of the line behind them. -/
def readRaw (length : Nat) : Reader Bytes := do
  let value ← readFull length
  let _ ← readLine
  pure value

variable {tag body text rest s : Bytes}

theorem run_readLine (free : 10 ∉ text) (rest : Bytes) :
    readLine.run (text ++ 10 :: rest) = .ok (trimSuffix 13 text, rest) := by
  change (match cut 10 (text ++ 10 :: rest) with
    | some (text, rest) => Except.ok (trimSuffix 13 text, rest)
    | none => .error DecodeError.eof) = _
  rw [cut_append free]

theorem of_run_readLine (h : readLine.run s = .ok (text, rest)) :
    ∃ raw, 10 ∉ raw ∧ s = raw ++ 10 :: rest ∧ text = trimSuffix 13 raw := by
  change (match cut 10 s with
    | some (text, rest) => Except.ok (trimSuffix 13 text, rest)
    | none => .error DecodeError.eof) = _ at h
  split at h
  · rename_i raw rest' found
    cases h
    obtain ⟨whole, free⟩ := eq_of_cut found
    exact ⟨raw, free, whole, rfl⟩
  · cases h

theorem consumes_readLine : Consumes readLine := by
  intro s text rest h
  obtain ⟨raw, _, whole, _⟩ := of_run_readLine h
  rw [whole, List.length_append, List.length_cons]
  omega

theorem shrinks_readFull (length : Nat) : Shrinks (readFull length) := by
  intro s value rest h
  change (if length ≤ s.length then Except.ok (s.take length, s.drop length) else _) = _ at h
  split at h
  · cases h
    rw [List.length_drop]
    omega
  · cases h

theorem shrinks_readEnd : Shrinks readEnd := by
  refine consumes_readLine.shrinks.bind ?_
  intro endLine
  split
  · exact shrinks_pure ()
  · exact shrinks_throw _

theorem shrinks_readRaw (length : Nat) : Shrinks (readRaw length) :=
  (shrinks_readFull length).bind fun value =>
    consumes_readLine.shrinks.bind fun _ => shrinks_pure value

/-- A carriage return at the end of a body is taken off with the line feed. -/
theorem trimSuffix_append (some : tag.getLast? ≠ some 13) :
    trimSuffix 13 (tag ++ body) = tag ++ trimSuffix 13 body := by
  unfold trimSuffix
  cases body using List.reverseRecOn with
  | nil => rw [List.append_nil, if_neg some, List.getLast?_nil, if_neg (by simp), List.append_nil]
  | append_singleton front b =>
      rw [← List.append_assoc, List.getLast?_concat, List.getLast?_concat]
      split
      · rw [List.dropLast_concat, List.dropLast_concat]
      · rw [List.append_assoc]

/-- Reading a line back. -/
theorem run_readLine_line (freeTag : 10 ∉ tag) (some : tag.getLast? ≠ some 13)
    (free : 10 ∉ body) (rest : Bytes) :
    readLine.run (line tag body ++ rest) = .ok (tag ++ trimSuffix 13 body, rest) := by
  have both : 10 ∉ tag ++ body := by
    rw [List.mem_append]
    exact fun mem => mem.elim freeTag free
  rw [line, List.append_assoc (tag ++ body), List.singleton_append, run_readLine both,
    trimSuffix_append some]

theorem isPrefixOf?_append (tag body : Bytes) : tag.isPrefixOf? (tag ++ body) = some body :=
  List.isPrefixOf?_eq_some_iff_append_eq.mpr rfl

theorem run_readFull (value rest : Bytes) :
    (readFull value.length).run (value ++ rest) = .ok (value, rest) := by
  change (if value.length ≤ (value ++ rest).length then
    Except.ok ((value ++ rest).take value.length, (value ++ rest).drop value.length)
    else _) = _
  rw [if_pos (by simp), List.take_left, List.drop_left]

theorem run_readRaw (value rest : Bytes) :
    (readRaw value.length).run (value ++ 10 :: rest) = .ok (value, rest) := by
  unfold readRaw
  have free : (10 : UInt8) ∉ [] := List.not_mem_nil
  rw [run_bind (run_readFull value (10 :: rest))]
  exact run_bind (run_readLine free rest)

theorem run_readEnd (rest : Bytes) :
    readEnd.run (ascii "END\n" ++ rest) = .ok ((), rest) := by
  unfold readEnd
  have free : (10 : UInt8) ∉ ascii "END" := by decide
  change StateT.run _ (ascii "END" ++ 10 :: rest) = _
  rw [run_bind (run_readLine free rest)]
  rfl

theorem parseLength_lt {n : Nat} (h : parseLength text = some n) : n < 2 ^ 63 := by
  unfold parseLength at h
  split at h
  · rename_i m parsed
    have range := parseInt_range parsed
    split at h
    · cases h
    · cases h
      omega
  · cases h

theorem parseLength_decimal {n : Nat} (bound : n < 2 ^ 63) : parseLength (decimal n) = some n := by
  unfold parseLength
  rw [trimSpace_decimal, parseInt_decimal bound]
  dsimp only
  rw [if_neg (by omega), Int.toNat_natCast]

end DistributedCache.Protocol
