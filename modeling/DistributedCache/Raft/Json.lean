import DistributedCache.Lib.Unmarshal
import DistributedCache.Raft.Node

/-!
The messages of Raft as JSON, the way a `TCPTransport` and the handlers of a server write and
read them.

A string has one character for each of its bytes. What is written is read back if the strings
are UTF-8 and the numbers have 64 bits: in another string, bytes are replaced.
-/
namespace DistributedCache.Raft

open GoText GoJson

def CommandType.name : CommandType → Bytes
  | .noop => ascii "noop"
  | .addMember => ascii "add_member"
  | .removeMember => ascii "remove_member"
  | .other name => ascii name

def commandType (name : Bytes) : CommandType :=
  if name = ascii "noop" then .noop
  else if name = ascii "add_member" then .addMember
  else if name = ascii "remove_member" then .removeMember
  else .other (text name)

section Write

def jsonString (s : String) : Value :=
  .string (ascii s)

def Command.json (c : Command) : Value :=
  .object ([(ascii "type", .string c.type.name)] ++
    (omitEmpty (c.nodeID = "") "node_id" (jsonString c.nodeID) ++
    (omitEmpty (c.addr = "") "addr" (jsonString c.addr) ++
    (omitEmpty (c.key = "") "key" (jsonString c.key) ++
    (omitEmpty (c.value = []) "value" (.string (Base64.encode c.value)) ++
    omitEmpty (c.ttl = 0) "ttl" (.number (integer c.ttl)))))))

def Entry.json (e : Entry) : Value :=
  .object [(ascii "term", natural e.term), (ascii "index", natural e.index),
    (ascii "command", e.command.json)]

def RequestVoteRequest.json (req : RequestVoteRequest) : Value :=
  .object [(ascii "term", natural req.term), (ascii "candidate_id", jsonString req.candidateID),
    (ascii "last_log_index", natural req.lastLogIndex),
    (ascii "last_log_term", natural req.lastLogTerm)]

def RequestVoteResponse.json (resp : RequestVoteResponse) : Value :=
  .object [(ascii "term", natural resp.term), (ascii "vote_granted", .bool resp.voteGranted)]

/-- A request without entries has a nil slice. -/
def AppendEntriesRequest.json (req : AppendEntriesRequest) : Value :=
  .object [(ascii "term", natural req.term), (ascii "leader_id", jsonString req.leaderID),
    (ascii "prev_log_index", natural req.prevLogIndex),
    (ascii "prev_log_term", natural req.prevLogTerm),
    (ascii "entries", if req.entries = [] then .null else .array (req.entries.map Entry.json)),
    (ascii "leader_commit", natural req.leaderCommit)]

def AppendEntriesResponse.json (resp : AppendEntriesResponse) : Value :=
  .object [(ascii "term", natural resp.term), (ascii "success", .bool resp.success)]

def Role.name : Role → Bytes
  | .follower => ascii "follower"
  | .candidate => ascii "candidate"
  | .leader => ascii "leader"

def Node.Status.json (s : Node.Status) : Value :=
  .object [(ascii "id", jsonString s.id), (ascii "role", .string s.role.name),
    (ascii "term", natural s.term), (ascii "leader_id", jsonString s.leaderID),
    (ascii "commit_index", natural s.commitIndex), (ascii "last_applied", natural s.lastApplied),
    (ascii "log_length", natural s.logLength)]

end Write

section Read

def intoText : Into String := fun old v =>
  (intoString (ascii old) v).map text

def intoUint64 : Into Nat :=
  intoUint (2 ^ 64)

def requestVoteRequestFields : List (StructField RequestVoteRequest) :=
  [.of "term" (·.term) (fun r x => { r with term := x }) intoUint64,
    .of "candidate_id" (·.candidateID) (fun r x => { r with candidateID := x }) intoText,
    .of "last_log_index" (·.lastLogIndex) (fun r x => { r with lastLogIndex := x }) intoUint64,
    .of "last_log_term" (·.lastLogTerm) (fun r x => { r with lastLogTerm := x }) intoUint64]

def requestVoteResponseFields : List (StructField RequestVoteResponse) :=
  [.of "term" (·.term) (fun r x => { r with term := x }) intoUint64,
    .of "vote_granted" (·.voteGranted) (fun r x => { r with voteGranted := x }) intoBool]

def appendEntriesResponseFields : List (StructField AppendEntriesResponse) :=
  [.of "term" (·.term) (fun r x => { r with term := x }) intoUint64,
    .of "success" (·.success) (fun r x => { r with success := x }) intoBool]

/-- A `Command` while it is read. -/
structure CommandVar where
  type : Bytes := []
  nodeID : Bytes := []
  addr : Bytes := []
  key : Bytes := []
  value : Slice UInt8 := {}
  ttl : Int := 0

def commandFields : List (StructField CommandVar) :=
  [.of "type" (·.type) (fun c x => { c with type := x }) intoString,
    .of "node_id" (·.nodeID) (fun c x => { c with nodeID := x }) intoString,
    .of "addr" (·.addr) (fun c x => { c with addr := x }) intoString,
    .of "key" (·.key) (fun c x => { c with key := x }) intoString,
    .of "value" (·.value) (fun c x => { c with value := x }) intoBytes,
    .of "ttl" (·.ttl) (fun c x => { c with ttl := x }) intoInt]

def CommandVar.command (c : CommandVar) : Command where
  type := commandType c.type
  nodeID := text c.nodeID
  addr := text c.addr
  key := text c.key
  value := c.value.shown
  ttl := c.ttl

/-- An `Entry` while it is read. -/
structure EntryVar where
  term : Nat := 0
  index : Nat := 0
  command : CommandVar := {}

def entryFields : List (StructField EntryVar) :=
  [.of "term" (·.term) (fun e x => { e with term := x }) intoUint64,
    .of "index" (·.index) (fun e x => { e with index := x }) intoUint64,
    .of "command" (·.command) (fun e x => { e with command := x }) (intoStruct commandFields)]

def EntryVar.entry (e : EntryVar) : Entry where
  term := e.term
  index := e.index
  command := e.command.command

/-- An `AppendEntriesRequest` while it is read. -/
structure AppendEntriesVar where
  term : Nat := 0
  leaderID : Bytes := []
  prevLogIndex : Nat := 0
  prevLogTerm : Nat := 0
  entries : Slice EntryVar := {}
  leaderCommit : Nat := 0

def appendEntriesFields : List (StructField AppendEntriesVar) :=
  [.of "term" (·.term) (fun r x => { r with term := x }) intoUint64,
    .of "leader_id" (·.leaderID) (fun r x => { r with leaderID := x }) intoString,
    .of "prev_log_index" (·.prevLogIndex) (fun r x => { r with prevLogIndex := x }) intoUint64,
    .of "prev_log_term" (·.prevLogTerm) (fun r x => { r with prevLogTerm := x }) intoUint64,
    .of "entries" (·.entries) (fun r x => { r with entries := x })
      (intoSlice {} (intoStruct entryFields)),
    .of "leader_commit" (·.leaderCommit) (fun r x => { r with leaderCommit := x }) intoUint64]

def AppendEntriesVar.request (r : AppendEntriesVar) : AppendEntriesRequest where
  term := r.term
  leaderID := text r.leaderID
  prevLogIndex := r.prevLogIndex
  prevLogTerm := r.prevLogTerm
  entries := r.entries.shown.map EntryVar.entry
  leaderCommit := r.leaderCommit

def readRequestVoteRequest (s : Bytes) : Option RequestVoteRequest :=
  parse s >>= intoStruct requestVoteRequestFields ⟨0, "", 0, 0⟩

def readRequestVoteResponse (s : Bytes) : Option RequestVoteResponse :=
  parse s >>= intoStruct requestVoteResponseFields ⟨0, false⟩

def readAppendEntriesRequest (s : Bytes) : Option AppendEntriesRequest :=
  (parse s >>= intoStruct appendEntriesFields {}).map AppendEntriesVar.request

def readAppendEntriesResponse (s : Bytes) : Option AppendEntriesResponse :=
  parse s >>= intoStruct appendEntriesResponseFields ⟨0, false⟩

end Read

/-- The bytes of the string are UTF-8. -/
def Spelled (s : String) : Prop :=
  text (ascii s) = s ∧ Utf8.Valid (ascii s)

instance (s : String) : Decidable (Spelled s) :=
  inferInstanceAs (Decidable (_ ∧ _))

structure RequestVoteRequest.Sendable (req : RequestVoteRequest) : Prop where
  term : req.term < 2 ^ 64
  candidateID : Spelled req.candidateID
  lastLogIndex : req.lastLogIndex < 2 ^ 64
  lastLogTerm : req.lastLogTerm < 2 ^ 64

structure Command.Sendable (c : Command) : Prop where
  type : Utf8.Valid c.type.name ∧ commandType c.type.name = c.type
  nodeID : Spelled c.nodeID
  addr : Spelled c.addr
  key : Spelled c.key
  ttl : -2 ^ 63 ≤ c.ttl ∧ c.ttl < 2 ^ 63

structure Entry.Sendable (e : Entry) : Prop where
  term : e.term < 2 ^ 64
  index : e.index < 2 ^ 64
  command : e.command.Sendable

structure AppendEntriesRequest.Sendable (req : AppendEntriesRequest) : Prop where
  term : req.term < 2 ^ 64
  leaderID : Spelled req.leaderID
  prevLogIndex : req.prevLogIndex < 2 ^ 64
  prevLogTerm : req.prevLogTerm < 2 ^ 64
  entries : ∀ e ∈ req.entries, e.Sendable
  leaderCommit : req.leaderCommit < 2 ^ 64

theorem intoText_jsonString {s : String} (spelled : Spelled s) (old : String) :
    intoText old (jsonString s) = some s := by
  rw [intoText, jsonString, intoString, Option.map_some, spelled.1]

section Fits

variable {depth : Nat}

theorem RequestVoteRequest.Sendable.fits {req : RequestVoteRequest} (h : req.Sendable) :
    Fits (depth + 1) req.json :=
  .member (by decide) (.integer _) (.member (by decide) (.string h.candidateID.2)
    (.member (by decide) (.integer _) (.member (by decide) (.integer _) .noMembers)))

theorem RequestVoteResponse.fits (resp : RequestVoteResponse) : Fits (depth + 1) resp.json :=
  .member (by decide) (.integer _) (.member (by decide) (.bool _) .noMembers)

theorem AppendEntriesResponse.fits (resp : AppendEntriesResponse) : Fits (depth + 1) resp.json :=
  .member (by decide) (.integer _) (.member (by decide) (.bool _) .noMembers)

theorem Command.Sendable.fits {c : Command} (h : c.Sendable) : Fits (depth + 1) c.json := by
  refine .member (by decide) (.string h.type.1) ?_
  refine fits_omitEmpty _ (by decide) (.string h.nodeID.2) ?_
  refine fits_omitEmpty _ (by decide) (.string h.addr.2) ?_
  refine fits_omitEmpty _ (by decide) (.string h.key.2) ?_
  refine fits_omitEmpty _ (by decide) (.string (Utf8.valid_of_lt fun b mem => ?_)) ?_
  · exact UInt8.lt_trans (Base64.encode_plain _ b mem).2 (by decide)
  · rw [← List.append_nil (omitEmpty _ _ _)]
    exact fits_omitEmpty _ (by decide) (.integer _) .noMembers

theorem Entry.Sendable.fits {e : Entry} (h : e.Sendable) : Fits (depth + 2) e.json :=
  .member (by decide) (.integer _) (.member (by decide) (.integer _)
    (.member (by decide) h.command.fits .noMembers))

theorem AppendEntriesRequest.Sendable.fits {req : AppendEntriesRequest} (h : req.Sendable) :
    Fits (depth + 4) req.json := by
  refine .member (by decide) (.integer _) (.member (by decide) (.string h.leaderID.2)
    (.member (by decide) (.integer _) (.member (by decide) (.integer _) (.member (by decide) ?_
      (.member (by decide) (.integer _) .noMembers)))))
  split
  · exact .null
  · exact .array (List.forall_mem_map.mpr fun e mem => (h.entries e mem).fits)

end Fits

theorem RequestVoteRequest.Sendable.read {req : RequestVoteRequest} (h : req.Sendable) :
    readRequestVoteRequest (print req.json) = some req := by
  have term (s v) : storeMember requestVoteRequestFields s (ascii "term", v) =
      (intoUint (2 ^ 64) s.term v).map fun x => { s with term := x } := rfl
  have candidateID (s v) : storeMember requestVoteRequestFields s (ascii "candidate_id", v) =
      (intoText s.candidateID v).map fun x => { s with candidateID := x } := rfl
  have lastLogIndex (s v) : storeMember requestVoteRequestFields s (ascii "last_log_index", v) =
      (intoUint (2 ^ 64) s.lastLogIndex v).map fun x => { s with lastLogIndex := x } := rfl
  have lastLogTerm (s v) : storeMember requestVoteRequestFields s (ascii "last_log_term", v) =
      (intoUint (2 ^ 64) s.lastLogTerm v).map fun x => { s with lastLogTerm := x } := rfl
  rw [readRequestVoteRequest, parse_print h.fits]
  simp only [RequestVoteRequest.json, intoStruct, List.foldlM_cons, List.foldlM_nil, term,
    candidateID, lastLogIndex, lastLogTerm, intoUint_natural h.term,
    intoText_jsonString h.candidateID, intoUint_natural h.lastLogIndex,
    intoUint_natural h.lastLogTerm, Option.map_some, Option.bind_eq_bind, Option.bind_some,
    Option.pure_def]

theorem RequestVoteResponse.read {resp : RequestVoteResponse} (small : resp.term < 2 ^ 64) :
    readRequestVoteResponse (print resp.json) = some resp := by
  have term (s v) : storeMember requestVoteResponseFields s (ascii "term", v) =
      (intoUint (2 ^ 64) s.term v).map fun x => { s with term := x } := rfl
  have voteGranted (s v) : storeMember requestVoteResponseFields s (ascii "vote_granted", v) =
      (intoBool s.voteGranted v).map fun x => { s with voteGranted := x } := rfl
  rw [readRequestVoteResponse, parse_print resp.fits]
  simp only [RequestVoteResponse.json, intoStruct, List.foldlM_cons, List.foldlM_nil, term,
    voteGranted, intoUint_natural small, intoBool, Option.map_some, Option.bind_eq_bind,
    Option.bind_some, Option.pure_def]

theorem AppendEntriesResponse.read {resp : AppendEntriesResponse} (small : resp.term < 2 ^ 64) :
    readAppendEntriesResponse (print resp.json) = some resp := by
  have term (s v) : storeMember appendEntriesResponseFields s (ascii "term", v) =
      (intoUint (2 ^ 64) s.term v).map fun x => { s with term := x } := rfl
  have success (s v) : storeMember appendEntriesResponseFields s (ascii "success", v) =
      (intoBool s.success v).map fun x => { s with success := x } := rfl
  rw [readAppendEntriesResponse, parse_print resp.fits]
  simp only [AppendEntriesResponse.json, intoStruct, List.foldlM_cons, List.foldlM_nil, term,
    success, intoUint_natural small, intoBool, Option.map_some, Option.bind_eq_bind,
    Option.bind_some, Option.pure_def]

section Length

/-- A number of 64 bits has at most twenty digits. -/
theorem length_natural {n : Nat} (small : n < 2 ^ 64) : (print (natural n)).length ≤ 20 := by
  have spelled : print (natural n) = decimal n := by
    rw [natural, print, integer, if_neg (by omega), Int.toNat_natCast]
  rw [spelled, decimal, List.length_map, Nat.length_toDigits_le_iff (by decide) (by decide)]
  omega

theorem length_response {n : Nat} (small : n < 2 ^ 64) (key : Bytes) (b : Bool) :
    (print (.object [(ascii "term", natural n), (key, .bool b)])).length ≤
      40 + (quote key).length := by
  have digits := length_natural small
  have flag : (print (.bool b)).length ≤ 5 := by
    cases b with
    | true | false => decide
  have name : (quote (ascii "term")).length = 6 := by decide
  rw [print, memberTexts, memberTexts, memberTexts, List.intercalate_cons_cons,
    List.intercalate_singleton]
  simp only [List.length_append, List.length_cons, List.length_nil]
  omega

theorem RequestVoteResponse.length_print (resp : RequestVoteResponse)
    (small : resp.term < 2 ^ 64) : (print resp.json).length < 2 ^ 63 := by
  have bound := length_response small (ascii "vote_granted") resp.voteGranted
  have name : (quote (ascii "vote_granted")).length = 14 := by decide
  rw [RequestVoteResponse.json]
  omega

theorem AppendEntriesResponse.length_print (resp : AppendEntriesResponse)
    (small : resp.term < 2 ^ 64) : (print resp.json).length < 2 ^ 63 := by
  have bound := length_response small (ascii "success") resp.success
  have name : (quote (ascii "success")).length = 9 := by decide
  rw [AppendEntriesResponse.json]
  omega

end Length

section Entries

def Command.var (c : Command) : CommandVar where
  type := c.type.name
  nodeID := ascii c.nodeID
  addr := ascii c.addr
  key := ascii c.key
  value := { shown := c.value }
  ttl := c.ttl

theorem Command.Sendable.command_var {c : Command} (h : c.Sendable) : c.var.command = c := by
  rw [CommandVar.command, Command.var, h.type.2, h.nodeID.1, h.addr.1, h.key.1]

theorem Command.Sendable.read {c : Command} (h : c.Sendable) :
    intoStruct commandFields {} c.json = some c.var := by
  have type : [(ascii "type", Value.string c.type.name)].foldlM (storeMember commandFields) {} =
      some { type := c.type.name } := rfl
  have nodeID : (omitEmpty (c.nodeID = "") "node_id" (jsonString c.nodeID)).foldlM
      (storeMember commandFields) { type := c.type.name } =
        some { type := c.type.name, nodeID := ascii c.nodeID } :=
    foldlM_omitEmpty (fun empty => by rw [empty]; rfl) fun _ => rfl
  have addr : (omitEmpty (c.addr = "") "addr" (jsonString c.addr)).foldlM
      (storeMember commandFields) { type := c.type.name, nodeID := ascii c.nodeID } =
        some { type := c.type.name, nodeID := ascii c.nodeID, addr := ascii c.addr } :=
    foldlM_omitEmpty (fun empty => by rw [empty]; rfl) fun _ => rfl
  have key : (omitEmpty (c.key = "") "key" (jsonString c.key)).foldlM
      (storeMember commandFields)
        { type := c.type.name, nodeID := ascii c.nodeID, addr := ascii c.addr } =
        some { c.var with value := {}, ttl := 0 } :=
    foldlM_omitEmpty (fun empty => by rw [Command.var, empty]; rfl) fun _ => rfl
  have value : (omitEmpty (c.value = []) "value" (.string (Base64.encode c.value))).foldlM
      (storeMember commandFields) { c.var with value := {}, ttl := 0 } =
        some { c.var with ttl := 0 } :=
    foldlM_omitEmpty (fun empty => by rw [Command.var, empty])
      fun _ => congrArg (Option.map fun x => ({ c.var with value := x, ttl := 0 } : CommandVar))
        (intoBytes_encode c.value {})
  have ttl : (omitEmpty (c.ttl = 0) "ttl" (.number (integer c.ttl))).foldlM
      (storeMember commandFields) { c.var with ttl := 0 } = some c.var :=
    foldlM_omitEmpty (fun empty => by rw [Command.var, empty])
      fun _ => congrArg (Option.map fun x => ({ c.var with ttl := x } : CommandVar))
        (intoInt_integer h.ttl.1 h.ttl.2 0)
  simp only [Command.json, intoStruct, List.foldlM_append, type, nodeID, addr, key, value, ttl,
    Option.bind_eq_bind, Option.bind_some]

def Entry.var (e : Entry) : EntryVar where
  term := e.term
  index := e.index
  command := e.command.var

theorem Entry.Sendable.entry_var {e : Entry} (h : e.Sendable) : e.var.entry = e := by
  rw [EntryVar.entry, Entry.var, h.command.command_var]

theorem Entry.Sendable.read {e : Entry} (h : e.Sendable) :
    intoStruct entryFields {} e.json = some e.var := by
  have term (s v) : storeMember entryFields s (ascii "term", v) =
      (intoUint (2 ^ 64) s.term v).map fun x => { s with term := x } := rfl
  have index (s v) : storeMember entryFields s (ascii "index", v) =
      (intoUint (2 ^ 64) s.index v).map fun x => { s with index := x } := rfl
  have command (s v) : storeMember entryFields s (ascii "command", v) =
      (intoStruct commandFields s.command v).map fun x => { s with command := x } := rfl
  rw [Entry.json, intoStruct]
  simp only [List.foldlM_cons, List.foldlM_nil, term, index, command, intoUint_natural h.term,
    intoUint_natural h.index, h.command.read, Option.map_some, Option.bind_eq_bind,
    Option.bind_some, Option.pure_def, Entry.var]

/-- The entries of a request are new, so nothing is behind their slice. -/
theorem intoSlice_entries {entries : List Entry} (h : ∀ e ∈ entries, e.Sendable) :
    intoSlice {} (intoStruct entryFields) {}
      (if entries = [] then .null else .array (entries.map Entry.json)) =
        some { shown := entries.map Entry.var } := by
  cases entries with
  | nil => rfl
  | cons e entries =>
      have read := elementsInto_nil {} (intoStruct entryFields) fun e mem => (h e mem).read
      rw [if_neg (List.cons_ne_nil e entries)]
      change (elementsInto {} (intoStruct entryFields) [] ((e :: entries).map Entry.json)).map _ = _
      rw [read]
      rfl

theorem AppendEntriesRequest.Sendable.read {req : AppendEntriesRequest} (h : req.Sendable) :
    readAppendEntriesRequest (print req.json) = some req := by
  have term (s v) : storeMember appendEntriesFields s (ascii "term", v) =
      (intoUint (2 ^ 64) s.term v).map fun x => { s with term := x } := rfl
  have leaderID (s v) : storeMember appendEntriesFields s (ascii "leader_id", v) =
      (intoString s.leaderID v).map fun x => { s with leaderID := x } := rfl
  have prevLogIndex (s v) : storeMember appendEntriesFields s (ascii "prev_log_index", v) =
      (intoUint (2 ^ 64) s.prevLogIndex v).map fun x => { s with prevLogIndex := x } := rfl
  have prevLogTerm (s v) : storeMember appendEntriesFields s (ascii "prev_log_term", v) =
      (intoUint (2 ^ 64) s.prevLogTerm v).map fun x => { s with prevLogTerm := x } := rfl
  have entries (s v) : storeMember appendEntriesFields s (ascii "entries", v) =
      (intoSlice {} (intoStruct entryFields) s.entries v).map fun x => { s with entries := x } :=
    rfl
  have leaderCommit (s v) : storeMember appendEntriesFields s (ascii "leader_commit", v) =
      (intoUint (2 ^ 64) s.leaderCommit v).map fun x => { s with leaderCommit := x } := rfl
  have same : (req.entries.map Entry.var).map EntryVar.entry = req.entries := by
    rw [List.map_map]
    exact (List.map_congr_left fun e mem => (h.entries e mem).entry_var).trans (List.map_id _)
  rw [readAppendEntriesRequest, parse_print h.fits]
  simp only [AppendEntriesRequest.json, intoStruct, List.foldlM_cons, List.foldlM_nil, term,
    leaderID, prevLogIndex, prevLogTerm, entries, leaderCommit, intoUint_natural h.term,
    jsonString, intoString, intoUint_natural h.prevLogIndex, intoUint_natural h.prevLogTerm,
    intoSlice_entries h.entries, intoUint_natural h.leaderCommit, Option.map_some,
    Option.bind_eq_bind, Option.bind_some, Option.pure_def, AppendEntriesVar.request,
    h.leaderID.1, same]

end Entries

/-- A heartbeat has no entries. -/
example : print (AppendEntriesRequest.json ⟨1, "x", 0, 0, [], 0⟩) =
    ascii "\x7b\"term\":1,\"leader_id\":\"x\",\"prev_log_index\":0,\"prev_log_term\":0," ++
      ascii "\"entries\":null,\"leader_commit\":0\x7d" := by
  decide +kernel

end DistributedCache.Raft
