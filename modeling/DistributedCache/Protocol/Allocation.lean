import DistributedCache.Lib.Panic
import DistributedCache.Protocol.Grammar
import DistributedCache.Protocol.Response

/-!
The slices that the decoders allocate.

`DecodeRequest` and `DecodeResponse` call `make` with a length from the stream before they
read what it announces. A length is checked for its sign only, and `make` panics if the
slice does not fit into the address space. The decoders below are those of the protocol
with these calls.
-/
namespace DistributedCache.Protocol

open GoText Framing

/-- Decoding with `make`. -/
abbrev AllocReader := Decoder UInt8 (Failure DecodeError)

/-- Go's `make` for elements of some size, with so many bytes of address space. -/
def make (limit size count : Nat) : AllocReader Unit :=
  if size * count ≤ limit then pure () else throw .panic

/-- The size of a `Member`: two string headers of two words. -/
def memberSize : Nat :=
  32

namespace Allocating

variable (limit : Nat)

def decodeValueBody (req : Request) : AllocReader Request := do
  let valLine ← lift readLine
  match (ascii "VAL ").isPrefixOf? valLine with
  | none => throw (.error .missingVal)
  | some text =>
      match parseLength text with
      | none => throw (.error .invalidLength)
      | some length => do
          make limit 1 length
          let value ← lift (readRaw length)
          pure { req with value := some value }

def decodeSetRequest (req : Request) : AllocReader Request := do
  let req ← decodeValueBody limit req
  let ttlLine ← lift readLine
  match (ascii "TTL ").isPrefixOf? ttlLine with
  | none => if ttlLine = ascii "END" then pure req else throw (.error .missingEnd)
  | some text =>
      match parseInt (trimSpace text) with
      | none => throw (.error .invalidTTL)
      | some seconds =>
          if seconds ≤ 0 then throw (.error .invalidTTL)
          else do
            lift readEnd
            pure { req with ttl := durationOfSeconds seconds }

def decodeValueRequest (req : Request) : AllocReader Request := do
  let req ← decodeValueBody limit req
  lift readEnd
  pure req

def decodeArguments (req : Request) : AllocReader Request :=
  if req.command ∈ setCommands then decodeSetRequest limit req
  else if req.command ∈ valueCommands then decodeValueRequest limit req
  else if req.command ∈ keyCommands then do
    lift readEnd
    pure req
  else throw (.error (.unknownCommand req.command))

def decodeCommand (command : Bytes) : AllocReader Request :=
  if command = [] then throw (.error .emptyCommand)
  else if command ∈ keylessCommands then do
    lift readEnd
    pure { command := command }
  else do
    let keyLine ← lift readLine
    match (ascii "KEY ").isPrefixOf? keyLine with
    | none => throw (.error .missingKey)
    | some text =>
        if trimSpace text = [] then throw (.error .emptyKey)
        else decodeArguments limit { command := command, key := trimSpace text }

def decodeRequest : AllocReader Request := do
  let cmdLine ← lift readLine
  match (ascii "CMD ").isPrefixOf? cmdLine with
  | none => throw (.error .missingCmd)
  | some text => decodeCommand limit (trimSpace text)

def decodeBody (line : Bytes) : AllocReader Response :=
  if line = ascii "OK" then pure { kind := .ok }
  else if line = ascii "NIL" then pure { kind := .notFound }
  else match (ascii "ERR ").isPrefixOf? line with
  | some text => pure { kind := .error, message := trimSpace text }
  | none =>
  match (ascii "MOVED ").isPrefixOf? line with
  | some text => lift (decodeNodeLine .moved text line)
  | none =>
  match (ascii "OWNER ").isPrefixOf? line with
  | some text => lift (decodeNodeLine .owner text line)
  | none =>
  match (ascii "MEMBERS ").isPrefixOf? line with
  | some text =>
      match parseLength text with
      | none => throw (.error .invalidMembersCount)
      | some count => do
          make limit memberSize count
          let members ← lift (decodeMembers count)
          pure { kind := .members, members := members }
  | none =>
  match (ascii "NOT_LEADER ").isPrefixOf? line with
  | some text => lift (decodeNodeLine .notLeader text line)
  | none =>
  match (ascii "VAL ").isPrefixOf? line with
  | some text =>
      match parseLength text with
      | none => throw (.error .invalidLength)
      | some length => do
          make limit 1 length
          let value ← lift (readRaw length)
          pure { kind := .value, value := value }
  | none => throw (.error (.unknownLine line))

def decodeResponse : AllocReader Response := do
  let line ← lift readLine
  let resp ← decodeBody limit line
  lift readEnd
  pure resp

end Allocating

section Refinement

variable {limit : Nat} {β : Type}

theorem refines_make {x : AllocReader β} {y : Reader β} (refines : Refines x y)
    (size count : Nat) : Refines (make limit size count >>= fun _ => x) y := by
  unfold make
  split
  · exact refines
  · exact fun s => .inl rfl

theorem refines_decodeValueBody (req : Request) :
    Refines (Allocating.decodeValueBody limit req) (decodeValueBody req) := by
  refine (refines_lift readLine).bind fun valLine => ?_
  cases (ascii "VAL ").isPrefixOf? valLine with
  | none => exact refines_throw _
  | some text =>
      dsimp only
      cases parseLength text with
      | none => exact refines_throw _
      | some length =>
          exact refines_make ((refines_lift (readRaw length)).bind fun _ => refines_pure _) 1 length

theorem refines_decodeSetRequest (req : Request) :
    Refines (Allocating.decodeSetRequest limit req) (decodeSetRequest req) := by
  refine (refines_decodeValueBody req).bind fun req =>
    (refines_lift readLine).bind fun ttlLine => ?_
  cases (ascii "TTL ").isPrefixOf? ttlLine with
  | none =>
      dsimp only
      split
      · exact refines_pure req
      · exact refines_throw _
  | some text =>
      dsimp only
      cases parseInt (trimSpace text) with
      | none => exact refines_throw _
      | some seconds =>
          dsimp only
          split
          · exact refines_throw _
          · exact (refines_lift readEnd).bind fun _ => refines_pure _

theorem refines_decodeArguments (req : Request) :
    Refines (Allocating.decodeArguments limit req) (decodeArguments req) := by
  unfold Allocating.decodeArguments decodeArguments
  split
  · exact refines_decodeSetRequest req
  · split
    · exact (refines_decodeValueBody req).bind fun req =>
        (refines_lift readEnd).bind fun _ => refines_pure req
    · split
      · exact (refines_lift readEnd).bind fun _ => refines_pure req
      · exact refines_throw _

theorem refines_decodeCommand (command : Bytes) :
    Refines (Allocating.decodeCommand limit command) (decodeCommand command) := by
  unfold Allocating.decodeCommand decodeCommand
  split
  · exact refines_throw _
  · split
    · exact (refines_lift readEnd).bind fun _ => refines_pure _
    · refine (refines_lift readLine).bind fun keyLine => ?_
      cases (ascii "KEY ").isPrefixOf? keyLine with
      | none => exact refines_throw _
      | some text =>
          dsimp only
          split
          · exact refines_throw _
          · exact refines_decodeArguments _

/-- Unless it panics, the decoder of requests returns what the one without allocations does. -/
theorem refines_decodeRequest : Refines (Allocating.decodeRequest limit) decodeRequest := by
  refine (refines_lift readLine).bind fun cmdLine => ?_
  cases (ascii "CMD ").isPrefixOf? cmdLine with
  | none => exact refines_throw _
  | some text => exact refines_decodeCommand _

theorem refines_decodeBody (line : Bytes) :
    Refines (Allocating.decodeBody limit line) (decodeBody line) := by
  unfold Allocating.decodeBody decodeBody
  split
  · exact refines_pure _
  split
  · exact refines_pure _
  cases (ascii "ERR ").isPrefixOf? line with
  | some text => exact refines_pure _
  | none =>
  cases (ascii "MOVED ").isPrefixOf? line with
  | some text => exact refines_lift _
  | none =>
  cases (ascii "OWNER ").isPrefixOf? line with
  | some text => exact refines_lift _
  | none =>
  cases (ascii "MEMBERS ").isPrefixOf? line with
  | some text =>
      dsimp only
      cases parseLength text with
      | none => exact refines_throw _
      | some count =>
          exact refines_make ((refines_lift (decodeMembers count)).bind fun _ => refines_pure _) _ _
  | none =>
  cases (ascii "NOT_LEADER ").isPrefixOf? line with
  | some text => exact refines_lift _
  | none =>
  cases (ascii "VAL ").isPrefixOf? line with
  | some text =>
      dsimp only
      cases parseLength text with
      | none => exact refines_throw _
      | some length =>
          exact refines_make ((refines_lift (readRaw length)).bind fun _ => refines_pure _) _ _
  | none => exact refines_throw _

theorem refines_decodeResponse : Refines (Allocating.decodeResponse limit) decodeResponse :=
  (refines_lift readLine).bind fun line => (refines_decodeBody line).bind fun resp =>
    (refines_lift readEnd).bind fun _ => refines_pure resp

end Refinement

section Panics

variable {limit size : Nat} {β : Type} {s : Bytes}

theorem panics_make (count : Nat) : Panics (make limit size count) s ↔ limit < size * count := by
  unfold make
  rw [panics_ite]
  simp [not_panics_pure, panics_throw]

/-- A step that reads a number and makes room for so many elements. -/
theorem panics_parsed {text : Bytes} {x : AllocReader β} {next : Nat → AllocReader β}
    (missing : parseLength text = none → ¬ Panics x s)
    (found : ∀ n, parseLength text = some n → x = make limit size n >>= fun _ => next n)
    (safe : ∀ n rest, ¬ Panics (next n) rest) :
    Panics x s ↔ ∃ n, parseLength text = some n ∧ limit < size * n := by
  cases parsed : parseLength text with
  | none => simp [missing parsed]
  | some n =>
      rw [found n parsed, panics_bind_of_not fun _ => safe n, panics_make]
      simp

/-- A step that needs a line with a tag. -/
theorem panics_tagged (tag : Bytes) {x : Bytes → AllocReader β} {P : Bytes → Bytes → Prop}
    (missing : ∀ read rest, tag.isPrefixOf? read = none → ¬ Panics (x read) rest)
    (found : ∀ body rest, Panics (x (tag ++ body)) rest ↔ P body rest) :
    Panics (lift readLine >>= x) s ↔
      ∃ body front back, IsLine tag body front ∧ s = front ++ back ∧ P body back := by
  rw [panics_lift_bind]
  constructor
  · rintro ⟨read, back, run, panics⟩
    obtain ⟨front, line, rfl⟩ := (reads_readLine s read back).mp run
    cases start : tag.isPrefixOf? read with
    | none => exact absurd panics (missing read back start)
    | some body =>
        obtain rfl := List.isPrefixOf?_eq_some_iff_append_eq.mp start
        exact ⟨body, front, back, isLine_append.mp line, rfl, (found body back).mp panics⟩
  · rintro ⟨body, front, back, line, rfl, panics⟩
    exact ⟨tag ++ body, back, line.run back, (found body back).mpr panics⟩

theorem panics_decodeValueBody (req : Request) :
    Panics (Allocating.decodeValueBody limit req) s ↔
      ∃ length front back, IsLength length front ∧ s = front ++ back ∧ limit < length := by
  unfold Allocating.decodeValueBody
  rw [panics_tagged (P := fun body _ => ∃ n, parseLength body = some n ∧ limit < 1 * n)
    (ascii "VAL ")]
  · constructor
    · rintro ⟨body, front, back, line, rfl, length, parsed, exceeds⟩
      exact ⟨length, front, back, ⟨body, line, parsed⟩, rfl, by omega⟩
    · rintro ⟨length, front, back, ⟨body, line, parsed⟩, rfl, exceeds⟩
      exact ⟨body, front, back, line, rfl, length, parsed, by omega⟩
  · intro read rest none
    rw [none]
    exact not_panics_throw _ rest
  · intro body rest
    rw [isPrefixOf?_append]
    refine panics_parsed (fun none => ?_) (fun length found => ?_) fun length =>
      not_panics_lift_bind (readRaw length) fun value =>
        not_panics_pure { req with value := some value }
    · dsimp only
      rw [none]
      exact not_panics_throw _ rest
    · dsimp only
      rw [found]

/-- Only the value of a request is allocated. -/
theorem panics_decodeArguments (req : Request) :
    Panics (Allocating.decodeArguments limit req) s ↔
      req.command ∈ setCommands ++ valueCommands ∧
        Panics (Allocating.decodeValueBody limit req) s := by
  have set : Panics (Allocating.decodeSetRequest limit req) s ↔
      Panics (Allocating.decodeValueBody limit req) s := by
    refine panics_bind_of_not fun req => not_panics_lift_bind readLine fun ttlLine rest => ?_
    cases (ascii "TTL ").isPrefixOf? ttlLine with
    | none =>
        dsimp only
        split
        · exact not_panics_pure _ rest
        · exact not_panics_throw _ rest
    | some text =>
        dsimp only
        cases parseInt (trimSpace text) with
        | none => exact not_panics_throw _ rest
        | some seconds =>
            dsimp only
            split
            · exact not_panics_throw _ rest
            · exact not_panics_lift_bind readEnd (fun _ => not_panics_pure _) rest
  have value : Panics (Allocating.decodeValueRequest limit req) s ↔
      Panics (Allocating.decodeValueBody limit req) s :=
    panics_bind_of_not fun req => not_panics_lift_bind readEnd fun _ => not_panics_pure req
  have key : ¬ Panics (do lift readEnd; pure req : AllocReader Request) s :=
    not_panics_lift_bind readEnd (fun _ => not_panics_pure req) s
  unfold Allocating.decodeArguments
  rw [panics_ite, panics_ite, panics_ite, set, value, List.mem_append]
  have unknown : ¬ Panics (throw (.error (.unknownCommand req.command)) : AllocReader Request) s :=
    not_panics_throw _ s
  tauto

theorem panics_decodeCommand (command : Bytes) :
    Panics (Allocating.decodeCommand limit command) s ↔
      ∃ key front back, IsKey key front ∧ s = front ++ back ∧
        Panics (Allocating.decodeArguments limit { command := command, key := key }) back := by
  have key : ¬ Panics (do lift readEnd; pure { command := command } : AllocReader Request) s :=
    not_panics_lift_bind readEnd (fun _ => not_panics_pure _) s
  have others : ∀ c ∈ setCommands ++ valueCommands, c ≠ [] ∧ c ∉ keylessCommands := by decide
  unfold Allocating.decodeCommand
  rw [panics_ite, panics_ite, panics_tagged (P := fun body rest => trimSpace body ≠ [] ∧
    Panics (Allocating.decodeArguments limit { command := command, key := trimSpace body }) rest)
    (ascii "KEY ")]
  · constructor
    · rintro (⟨_, panics⟩ | ⟨_, ⟨_, panics⟩ | ⟨_, body, front, back, line, rfl, some, panics⟩⟩)
      · exact absurd panics (not_panics_throw _ s)
      · exact absurd panics key
      · exact ⟨_, front, back, ⟨body, line, rfl, some⟩, rfl, panics⟩
    · rintro ⟨_, front, back, ⟨body, line, rfl, some⟩, rfl, panics⟩
      obtain ⟨named, keyed⟩ := others _ ((panics_decodeArguments _).mp panics).1
      exact .inr ⟨named, .inr ⟨keyed, body, front, back, line, rfl, some, panics⟩⟩
  · intro read rest none
    rw [none]
    exact not_panics_throw _ rest
  · intro body rest
    rw [isPrefixOf?_append]
    dsimp only
    rw [panics_ite]
    have empty : ¬ Panics (throw (.error .emptyKey) : AllocReader Request) rest :=
      not_panics_throw _ rest
    tauto

/-- The decoder of requests panics exactly if the value that a request announces does not
fit into the address space. -/
theorem panics_decodeRequest :
    Panics (Allocating.decodeRequest limit) s ↔
      ∃ length front back, RequestFront length front ∧ s = front ++ back ∧ limit < length := by
  unfold Allocating.decodeRequest
  rw [panics_tagged (P := fun body rest =>
    Panics (Allocating.decodeCommand limit (trimSpace body)) rest) (ascii "CMD ")]
  · simp only [panics_decodeCommand, panics_decodeArguments, panics_decodeValueBody]
    constructor
    · rintro ⟨body, front, _, line, rfl, key, mid, _, keyed, rfl, mem, length, last, back,
        announced, rfl, exceeds⟩
      exact ⟨length, front ++ mid ++ last, back, ⟨_, key, front ++ mid, last,
        ⟨front, mid, ⟨body, line, rfl⟩, keyed, rfl⟩, mem, announced, rfl⟩, by simp, exceeds⟩
    · rintro ⟨length, _, back, ⟨_, key, _, last, ⟨front, mid, ⟨body, line, rfl⟩, keyed, rfl⟩, mem,
        announced, rfl⟩, rfl, exceeds⟩
      exact ⟨body, front, mid ++ (last ++ back), line, by simp, key, mid, last ++ back, keyed, rfl,
        mem, length, last, back, announced, rfl, exceeds⟩
  · intro read rest none
    rw [none]
    exact not_panics_throw _ rest
  · intro body rest
    rw [isPrefixOf?_append]

theorem panics_decodeBody_value (body : Bytes) :
    Panics (Allocating.decodeBody limit (ascii "VAL " ++ body)) s ↔
      ∃ n, parseLength body = some n ∧ limit < 1 * n := by
  change Panics (match parseLength body with
    | none => throw (.error .invalidLength)
    | some length => do
        make limit 1 length
        let value ← lift (readRaw length)
        pure { kind := .value, value := value } : AllocReader Response) s ↔ _
  refine panics_parsed (fun none => ?_) (fun length found => ?_) fun length =>
    not_panics_lift_bind (readRaw length) fun value =>
      not_panics_pure { kind := .value, value := value }
  · rw [none]
    exact not_panics_throw _ s
  · rw [found]

theorem panics_decodeBody_members (body : Bytes) :
    Panics (Allocating.decodeBody limit (ascii "MEMBERS " ++ body)) s ↔
      ∃ n, parseLength body = some n ∧ limit < memberSize * n := by
  change Panics (match parseLength body with
    | none => throw (.error .invalidMembersCount)
    | some count => do
        make limit memberSize count
        let members ← lift (decodeMembers count)
        pure { kind := .members, members := members } : AllocReader Response) s ↔ _
  refine panics_parsed (fun none => ?_) (fun count found => ?_) fun count =>
    not_panics_lift_bind (decodeMembers count) fun members =>
      not_panics_pure { kind := .members, members := members }
  · rw [none]
    exact not_panics_throw _ s
  · rw [found]

/-- The other responses are read without an allocation. -/
theorem not_panics_decodeBody {line : Bytes} (value : (ascii "VAL ").isPrefixOf? line = none)
    (members : (ascii "MEMBERS ").isPrefixOf? line = none) :
    ¬ Panics (Allocating.decodeBody limit line) s := by
  unfold Allocating.decodeBody
  rw [value, members]
  dsimp only
  repeat' split
  all_goals first
    | exact not_panics_pure _ s
    | exact not_panics_throw _ s
    | exact not_panics_lift _ s

/-- The line with the number of members. -/
def IsCount (count : Nat) (text : Bytes) : Prop :=
  ∃ body, IsLine (ascii "MEMBERS ") body text ∧ parseLength body = some count

/-- The decoder of responses panics exactly if the value or the members that a response
announces do not fit into the address space. -/
theorem panics_decodeResponse :
    Panics (Allocating.decodeResponse limit) s ↔
      ∃ count front back, s = front ++ back ∧
        (IsLength count front ∧ limit < count ∨
          IsCount count front ∧ limit < memberSize * count) := by
  unfold Allocating.decodeResponse
  rw [panics_lift_bind]
  have later (resp : Response) (rest : Bytes) :
      ¬ Panics (do lift readEnd; pure resp : AllocReader Response) rest :=
    not_panics_lift_bind readEnd (fun _ => not_panics_pure resp) rest
  simp only [panics_bind_of_not later]
  constructor
  · rintro ⟨line, back, run, panics⟩
    obtain ⟨front, isLine, rfl⟩ := (reads_readLine s line back).mp run
    cases value : (ascii "VAL ").isPrefixOf? line with
    | some body =>
        obtain rfl := List.isPrefixOf?_eq_some_iff_append_eq.mp value
        obtain ⟨n, parsed, exceeds⟩ := (panics_decodeBody_value body).mp panics
        exact ⟨n, front, back, rfl, .inl ⟨⟨body, isLine_append.mp isLine, parsed⟩, by omega⟩⟩
    | none =>
        cases members : (ascii "MEMBERS ").isPrefixOf? line with
        | some body =>
            obtain rfl := List.isPrefixOf?_eq_some_iff_append_eq.mp members
            obtain ⟨n, parsed, exceeds⟩ := (panics_decodeBody_members body).mp panics
            exact ⟨n, front, back, rfl, .inr ⟨⟨body, isLine_append.mp isLine, parsed⟩, exceeds⟩⟩
        | none => exact absurd panics (not_panics_decodeBody value members)
  · rintro ⟨n, front, back, rfl, ⟨⟨body, line, parsed⟩, exceeds⟩ | ⟨⟨body, line, parsed⟩, exceeds⟩⟩
    · exact ⟨_, back, line.run back, (panics_decodeBody_value body).mpr ⟨n, parsed, by omega⟩⟩
    · exact ⟨_, back, line.run back, (panics_decodeBody_members body).mpr ⟨n, parsed, exceeds⟩⟩

/-- The decoders return the message or the error that the stream stands for, and do not
panic, exactly if every length and every count that they read fits into the address space. -/
theorem decoders_return_iff (limit : Nat) (s : Bytes) :
    ((Allocating.decodeRequest limit).run s = (lift decodeRequest).run s ↔
      ∀ length front back, RequestFront length front → s = front ++ back → length ≤ limit) ∧
    ((Allocating.decodeResponse limit).run s = (lift decodeResponse).run s ↔
      ∀ count front back, s = front ++ back →
        (IsLength count front → count ≤ limit) ∧
        (IsCount count front → memberSize * count ≤ limit)) := by
  rw [refines_decodeRequest.run_eq_iff, refines_decodeResponse.run_eq_iff, panics_decodeRequest,
    panics_decodeResponse]
  constructor
  · simp only [not_exists, not_and, Nat.not_lt]
  · simp only [not_exists, not_and, not_or, Nat.not_lt]

/-- One line with a length of more than 48 bits stops a node, and one line in an answer the
node that asked. -/
theorem announced_length_panics :
    Panics (Allocating.decodeRequest (2 ^ 48))
      (ascii "CMD SET\nKEY k\nVAL 281474976710657\n") ∧
    Panics (Allocating.decodeResponse (2 ^ 48)) (ascii "VAL 281474976710657\n") ∧
    Panics (Allocating.decodeResponse (2 ^ 48)) (ascii "MEMBERS 8796093022209\n") := by
  unfold Panics
  decide +kernel

end Panics

end DistributedCache.Protocol
