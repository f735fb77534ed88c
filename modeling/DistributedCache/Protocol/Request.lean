import DistributedCache.Protocol.Lines

/-!
Requests: `EncodeRequest` and `DecodeRequest`.

The text of a request has one of three shapes, by its command, and a TTL is sent in whole
seconds.
-/
namespace DistributedCache.Protocol

open GoText Framing

def commandSet : Bytes := ascii "SET"
def commandGet : Bytes := ascii "GET"
def commandDelete : Bytes := ascii "DEL"
def commandOwner : Bytes := ascii "OWNER"
def commandClusterMembers : Bytes := ascii "CLUSTER_MEMBERS"
def commandClusterJoin : Bytes := ascii "CLUSTER_JOIN"
def commandClusterLeave : Bytes := ascii "CLUSTER_LEAVE"
def commandReplSet : Bytes := ascii "REPL_SET"
def commandReplDelete : Bytes := ascii "REPL_DEL"
def commandReplGet : Bytes := ascii "REPL_GET"
def commandPing : Bytes := ascii "PING"
def commandMetrics : Bytes := ascii "METRICS"
def commandRaftRequestVote : Bytes := ascii "RAFT_REQUEST_VOTE"
def commandRaftAppendEntries : Bytes := ascii "RAFT_APPEND_ENTRIES"
def commandRaftStatus : Bytes := ascii "RAFT_STATUS"

/-- The commands that are sent without a key. -/
def keylessCommands : List Bytes :=
  [commandClusterMembers, commandPing, commandMetrics, commandRaftStatus]

def setCommands : List Bytes :=
  [commandSet, commandReplSet]

/-- The other commands with a value. -/
def valueCommands : List Bytes :=
  [commandClusterJoin, commandRaftRequestVote, commandRaftAppendEntries]

/-- The commands with a key and nothing else. -/
def keyCommands : List Bytes :=
  [commandGet, commandDelete, commandOwner, commandClusterLeave, commandReplDelete, commandReplGet]

def commands : List Bytes :=
  keylessCommands ++ setCommands ++ valueCommands ++ keyCommands

/-- A command with its arguments. The value is absent where the slice is nil, and the TTL
is in nanoseconds. -/
structure Request where
  command : Bytes
  key : Bytes := []
  value : Option Bytes := none
  ttl : Int := 0
  deriving DecidableEq, Repr

inductive EncodeError
  | emptyCommand
  | emptyKey
  | setRequiresValue
  | commandRequiresValue
  deriving DecidableEq, Repr

/-- The seconds that a positive TTL is sent as. -/
def ttlSeconds (ttl : Int) : Nat :=
  if ttl / 1000000000 ≤ 0 then 1 else (ttl / 1000000000).toNat

/-- What `EncodeRequest` writes into its buffer. -/
def requestText (req : Request) : Bytes :=
  line (ascii "CMD ") req.command ++
  (if req.command ∈ keylessCommands then [] else line (ascii "KEY ") req.key) ++
  (if req.command ∈ setCommands ++ valueCommands then
    line (ascii "VAL ") (decimal (req.value.getD []).length) ++ req.value.getD [] ++ [10] ++
    (if req.command ∈ setCommands ∧ req.ttl > 0 then
      line (ascii "TTL ") (decimal (ttlSeconds req.ttl)) else [])
  else []) ++
  ascii "END\n"

def encodeRequest (req : Request) : Except EncodeError Bytes :=
  if req.command = [] then .error .emptyCommand
  else if req.key = [] ∧ req.command ∉ keylessCommands then .error .emptyKey
  else if req.command ∈ setCommands ∧ req.value = none then .error .setRequiresValue
  else if req.command ∈ valueCommands ∧ req.value = none then .error .commandRequiresValue
  else .ok (requestText req)

def decodeValueBody (req : Request) : Reader Request := do
  let valLine ← readLine
  match (ascii "VAL ").isPrefixOf? valLine with
  | none => throw .missingVal
  | some text =>
      match parseLength text with
      | none => throw .invalidLength
      | some length => do
          let value ← readRaw length
          pure { req with value := some value }

/-- The product of `time.Duration` values, in 64 bits. -/
def durationOfSeconds (seconds : Int) : Int :=
  (seconds * 1000000000).bmod (2 ^ 64)

def decodeSetRequest (req : Request) : Reader Request := do
  let req ← decodeValueBody req
  let ttlLine ← readLine
  match (ascii "TTL ").isPrefixOf? ttlLine with
  | none => if ttlLine = ascii "END" then pure req else throw .missingEnd
  | some text =>
      match parseInt (trimSpace text) with
      | none => throw .invalidTTL
      | some seconds =>
          if seconds ≤ 0 then throw .invalidTTL
          else do
            readEnd
            pure { req with ttl := durationOfSeconds seconds }

def decodeValueRequest (req : Request) : Reader Request := do
  let req ← decodeValueBody req
  readEnd
  pure req

/-- What follows the key line, by command. -/
def decodeArguments (req : Request) : Reader Request :=
  if req.command ∈ setCommands then decodeSetRequest req
  else if req.command ∈ valueCommands then decodeValueRequest req
  else if req.command ∈ keyCommands then do
    readEnd
    pure req
  else throw (.unknownCommand req.command)

/-- What follows the command line. -/
def decodeCommand (command : Bytes) : Reader Request :=
  if command = [] then throw .emptyCommand
  else if command ∈ keylessCommands then do
    readEnd
    pure { command := command }
  else do
    let keyLine ← readLine
    match (ascii "KEY ").isPrefixOf? keyLine with
    | none => throw .missingKey
    | some text =>
        if trimSpace text = [] then throw .emptyKey
        else decodeArguments { command := command, key := trimSpace text }

def decodeRequest : Reader Request := do
  let cmdLine ← readLine
  match (ascii "CMD ").isPrefixOf? cmdLine with
  | none => throw .missingCmd
  | some text => decodeCommand (trimSpace text)

/-- A stream starts with the request. -/
def Request.Accepted (req : Request) : Prop :=
  ∃ s rest, decodeRequest.run s = .ok (req, rest)

section Run

variable {command key : Bytes}

theorem run_decodeRequest (free : 10 ∉ command) (rest : Bytes) :
    decodeRequest.run (line (ascii "CMD ") command ++ rest) =
      (decodeCommand (trimSpace command)).run rest := by
  unfold decodeRequest
  rw [run_bind (run_readLine_line (by decide) (by decide) free rest), isPrefixOf?_append]
  dsimp only
  rw [trimSpace_trimSuffix]

end Run

/-- The requests that a client may send. A slice has fewer than `2 ^ 63` elements, and a
duration is a number of 64 bits. -/
structure Request.WellFormed (req : Request) : Prop where
  command : req.command ∈ commands
  key : if req.command ∈ keylessCommands then req.key = []
    else req.key ≠ [] ∧ 10 ∉ req.key ∧ trimSpace req.key = req.key
  value : if req.command ∈ setCommands ++ valueCommands
    then ∃ v, req.value = some v ∧ v.length < 2 ^ 63 else req.value = none
  ttl : if req.command ∈ setCommands then 0 ≤ req.ttl ∧ req.ttl < 2 ^ 63 else req.ttl = 0

/-- The request as it arrives: a positive TTL in whole seconds, at least one. -/
def Request.received (req : Request) : Request :=
  { req with ttl := if req.ttl > 0 then max 1 (req.ttl / 1000000000) * 1000000000 else 0 }

theorem plain_commands :
    ∀ c ∈ commands, c ≠ [] ∧ 10 ∉ c ∧ trimSpace c = c := by
  decide +kernel

theorem ttlSeconds_eq (ttl : Int) : (ttlSeconds ttl : Int) = max 1 (ttl / 1000000000) := by
  unfold ttlSeconds
  split <;> omega

/-- The product of the seconds does not leave 64 bits, since the TTL did not. -/
theorem durationOfSeconds_ttlSeconds {ttl : Int} (positive : 0 < ttl) (bound : ttl < 2 ^ 63) :
    durationOfSeconds (ttlSeconds ttl) = max 1 (ttl / 1000000000) * 1000000000 := by
  rw [ttlSeconds_eq, durationOfSeconds]
  refine Int.bmod_eq_of_le ?_ ?_ <;> omega

section Text

variable {req : Request}

theorem Request.WellFormed.encodeRequest_eq (wf : req.WellFormed) :
    encodeRequest req = .ok (requestText req) := by
  have some := (plain_commands _ wf.command).1
  have key : ¬ (req.key = [] ∧ req.command ∉ keylessCommands) := by
    intro h
    have keyed := wf.key
    rw [if_neg h.2] at keyed
    exact keyed.1 h.1
  have value (mem : req.command ∈ setCommands ++ valueCommands) : req.value ≠ none := by
    have given := wf.value
    rw [if_pos mem] at given
    obtain ⟨v, given, _⟩ := given
    rw [given]
    exact Option.some_ne_none v
  unfold encodeRequest
  rw [if_neg some, if_neg key, if_neg, if_neg]
  · exact fun h => value (List.mem_append_right _ h.1) h.2
  · exact fun h => value (List.mem_append_left _ h.1) h.2

/-- The three shapes of the text of a request. -/
theorem requestText_keyless (keyless : req.command ∈ keylessCommands) :
    requestText req = line (ascii "CMD ") req.command ++ ascii "END\n" := by
  have others : ∀ c ∈ keylessCommands, c ∉ setCommands ++ valueCommands := by decide
  rw [requestText, if_pos keyless, if_neg (others _ keyless), List.append_nil, List.append_nil]

theorem requestText_key (keyed : req.command ∉ keylessCommands)
    (none : req.command ∉ setCommands ++ valueCommands) :
    requestText req =
      line (ascii "CMD ") req.command ++ (line (ascii "KEY ") req.key ++ ascii "END\n") := by
  rw [requestText, if_neg keyed, if_neg none, List.append_nil, List.append_assoc]

theorem requestText_value (mem : req.command ∈ setCommands ++ valueCommands) :
    requestText req =
      line (ascii "CMD ") req.command ++ (line (ascii "KEY ") req.key ++
        (line (ascii "VAL ") (decimal (req.value.getD []).length) ++ (req.value.getD [] ++
          10 :: ((if req.command ∈ setCommands ∧ req.ttl > 0 then
            line (ascii "TTL ") (decimal (ttlSeconds req.ttl)) else []) ++ ascii "END\n")))) := by
  have others : ∀ c ∈ setCommands ++ valueCommands, c ∉ keylessCommands := by decide
  rw [requestText, if_neg (others _ mem), if_pos mem]
  simp only [List.append_assoc, List.cons_append, List.nil_append]

end Text

end DistributedCache.Protocol
