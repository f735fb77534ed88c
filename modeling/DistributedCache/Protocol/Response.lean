import DistributedCache.Protocol.Lines

/-!
Responses: `EncodeResponse` and `DecodeResponse`.

The first line of a response tells its kind. Only the line of members is followed by
more lines, and only a value by raw bytes.
-/
namespace DistributedCache.Protocol

open GoText Framing

inductive ResponseKind
  | ok
  | value
  | notFound
  | error
  | moved
  | owner
  | members
  | notLeader
  deriving DecidableEq, Repr

structure Member where
  id : Bytes
  addr : Bytes
  deriving DecidableEq, Repr

structure Response where
  kind : ResponseKind
  value : Bytes := []
  message : Bytes := []
  nodeID : Bytes := []
  addr : Bytes := []
  members : List Member := []
  deriving DecidableEq, Repr

/-- Two texts with a blank between them. -/
def pair (x y : Bytes) : Bytes :=
  x ++ 32 :: y

/-- What `EncodeResponse` writes for a kind. -/
def responseBody (resp : Response) : Bytes :=
  match resp.kind with
  | .ok => ascii "OK\n"
  | .value => line (ascii "VAL ") (decimal resp.value.length) ++ resp.value ++ [10]
  | .notFound => ascii "NIL\n"
  | .error => line (ascii "ERR ") (if resp.message = [] then ascii "error" else resp.message)
  | .moved => line (ascii "MOVED ") (pair resp.nodeID resp.addr)
  | .owner => line (ascii "OWNER ") (pair resp.nodeID resp.addr)
  | .members => line (ascii "MEMBERS ") (decimal resp.members.length) ++
      resp.members.flatMap fun member => line [] (pair member.id member.addr)
  | .notLeader => line (ascii "NOT_LEADER ") (pair resp.nodeID resp.addr)

/-- The error of `EncodeResponse` is for kinds that are none of these. -/
def encodeResponse (resp : Response) : Bytes :=
  responseBody resp ++ ascii "END\n"

/-- The node id and the address behind the tag of a kind. -/
def decodeNodeLine (kind : ResponseKind) (text line : Bytes) : Reader Response :=
  match fields text with
  | [nodeID, addr] => pure { kind := kind, nodeID := nodeID, addr := addr }
  | _ => throw (.invalidNodeLine line)

def decodeMembers : Nat → Reader (List Member)
  | 0 => pure []
  | count + 1 => do
      let memberLine ← readLine
      match cut 32 memberLine with
      | none => throw .invalidMemberLine
      | some (id, addr) =>
          if id = [] ∨ addr = [] then throw .invalidMemberLine
          else do
            let rest ← decodeMembers count
            pure ({ id := id, addr := addr } :: rest)

/-- The switch on the first line. -/
def decodeBody (line : Bytes) : Reader Response :=
  if line = ascii "OK" then pure { kind := .ok }
  else if line = ascii "NIL" then pure { kind := .notFound }
  else match (ascii "ERR ").isPrefixOf? line with
  | some text => pure { kind := .error, message := trimSpace text }
  | none =>
  match (ascii "MOVED ").isPrefixOf? line with
  | some text => decodeNodeLine .moved text line
  | none =>
  match (ascii "OWNER ").isPrefixOf? line with
  | some text => decodeNodeLine .owner text line
  | none =>
  match (ascii "MEMBERS ").isPrefixOf? line with
  | some text =>
      match parseLength text with
      | none => throw .invalidMembersCount
      | some count => do
          let members ← decodeMembers count
          pure { kind := .members, members := members }
  | none =>
  match (ascii "NOT_LEADER ").isPrefixOf? line with
  | some text => decodeNodeLine .notLeader text line
  | none =>
  match (ascii "VAL ").isPrefixOf? line with
  | some text =>
      match parseLength text with
      | none => throw .invalidLength
      | some length => do
          let value ← readRaw length
          pure { kind := .value, value := value }
  | none => throw (.unknownLine line)

def decodeResponse : Reader Response := do
  let line ← readLine
  let resp ← decodeBody line
  readEnd
  pure resp

theorem shrinks_decodeNodeLine (kind : ResponseKind) (text line : Bytes) :
    Shrinks (decodeNodeLine kind text line) := by
  unfold decodeNodeLine
  split
  · exact shrinks_pure _
  · exact shrinks_throw _

theorem shrinks_decodeMembers (count : Nat) : Shrinks (decodeMembers count) := by
  induction count with
  | zero => exact shrinks_pure []
  | succ count ih =>
      refine consumes_readLine.shrinks.bind ?_
      intro memberLine
      split
      · exact shrinks_throw _
      · split
        · exact shrinks_throw _
        · exact ih.bind fun rest => shrinks_pure _

theorem shrinks_decodeBody (line : Bytes) : Shrinks (decodeBody line) := by
  unfold decodeBody
  repeat' split
  all_goals first
    | exact shrinks_pure _
    | exact shrinks_throw _
    | exact shrinks_decodeNodeLine _ _ _
    | exact (shrinks_decodeMembers _).bind fun _ => shrinks_pure _
    | exact (shrinks_readRaw _).bind fun _ => shrinks_pure _

theorem consumes_decodeResponse : Consumes decodeResponse :=
  consumes_readLine.bind fun line => (shrinks_decodeBody line).bind fun resp =>
    shrinks_readEnd.bind fun _ => shrinks_pure resp

section Run

variable {resp : Response} {value : Bytes} {members : List Member}

/-- A response is read back if its first line is, whatever the rest of its lines is. -/
theorem run_decodeResponse {tag body after : Bytes} (freeTag : 10 ∉ tag)
    (last : tag.getLast? ≠ some 13) (free : 10 ∉ body) (rest : Bytes)
    (h : (decodeBody (tag ++ trimSuffix 13 body)).run (after ++ (ascii "END\n" ++ rest)) =
      .ok (resp, ascii "END\n" ++ rest)) :
    decodeResponse.run (line tag body ++ after ++ ascii "END\n" ++ rest) = .ok (resp, rest) := by
  unfold decodeResponse
  simp only [List.append_assoc]
  rw [run_bind (run_readLine_line freeTag last free _), run_bind h, run_bind (run_readEnd rest)]
  rfl

/-- A response of one line is read back if the line is. -/
theorem run_decodeResponse_line (tag : Bytes) {body : Bytes} (freeTag : 10 ∉ tag)
    (last : tag.getLast? ≠ some 13) (free : 10 ∉ body) (rest : Bytes)
    (h : ∀ s, (decodeBody (tag ++ trimSuffix 13 body)).run s = .ok (resp, s)) :
    decodeResponse.run (line tag body ++ ascii "END\n" ++ rest) = .ok (resp, rest) := by
  rw [← List.append_nil (line tag body)]
  exact run_decodeResponse freeTag last free rest (h _)

theorem decodeBody_error (text : Bytes) :
    decodeBody (ascii "ERR " ++ text) = pure { kind := .error, message := trimSpace text } :=
  rfl

theorem decodeBody_moved (text : Bytes) :
    decodeBody (ascii "MOVED " ++ text) = decodeNodeLine .moved text (ascii "MOVED " ++ text) :=
  rfl

theorem decodeBody_owner (text : Bytes) :
    decodeBody (ascii "OWNER " ++ text) = decodeNodeLine .owner text (ascii "OWNER " ++ text) :=
  rfl

theorem decodeBody_notLeader (text : Bytes) :
    decodeBody (ascii "NOT_LEADER " ++ text) =
      decodeNodeLine .notLeader text (ascii "NOT_LEADER " ++ text) :=
  rfl

theorem decodeBody_members {text : Bytes} {count : Nat} (h : parseLength text = some count) :
    decodeBody (ascii "MEMBERS " ++ text) =
      decodeMembers count >>= fun members => pure { kind := .members, members := members } := by
  change (match parseLength text with
    | none => throw .invalidMembersCount
    | some count => do
        let members ← decodeMembers count
        pure { kind := .members, members := members } : Reader Response) = _
  rw [h]

theorem decodeBody_value {text : Bytes} {length : Nat} (h : parseLength text = some length) :
    decodeBody (ascii "VAL " ++ text) =
      readRaw length >>= fun value => pure { kind := .value, value := value } := by
  change (match parseLength text with
    | none => throw .invalidLength
    | some length => do
        let value ← readRaw length
        pure { kind := .value, value := value } : Reader Response) = _
  rw [h]

/-- The three responses that name a node. -/
theorem run_decodeNodeLine {nodeID addr : Bytes} (kind : ResponseKind) (line rest : Bytes)
    (id : nodeID ≠ [] ∧ spaceFree nodeID) (address : addr ≠ [] ∧ spaceFree addr) :
    (decodeNodeLine kind (pair nodeID addr) line).run rest =
      .ok ({ kind := kind, nodeID := nodeID, addr := addr }, rest) := by
  unfold decodeNodeLine pair
  rw [fields_pair id.2 address.2 id.1 address.1]
  rfl

/-- A member that a response can carry. -/
structure Member.Plain (member : Member) : Prop where
  id : member.id ≠ [] ∧ 32 ∉ member.id ∧ 10 ∉ member.id
  addr : member.addr ≠ [] ∧ 10 ∉ member.addr ∧ member.addr.getLast? ≠ some 13

theorem Member.Plain.trimSuffix_pair {member : Member} (plain : member.Plain) :
    trimSuffix 13 (pair member.id member.addr) = pair member.id member.addr := by
  have last : (pair member.id member.addr).getLast? ≠ some 13 := by
    rw [pair, List.getLast?_append_cons, List.getLast?_cons]
    cases addr : member.addr.getLast? with
    | none => exact absurd (List.getLast?_eq_none_iff.mp addr) plain.addr.1
    | some b =>
        rw [Option.getD_some, ← addr]
        exact plain.addr.2.2
  rw [trimSuffix, if_neg last]

theorem Member.Plain.not_mem_pair {member : Member} (plain : member.Plain) :
    10 ∉ pair member.id member.addr := by
  simp [pair, plain.id.2.2, plain.addr.2.1]

theorem Member.Plain.run_readLine {member : Member} (plain : member.Plain) (rest : Bytes) :
    readLine.run (line [] (pair member.id member.addr) ++ rest) =
      .ok (pair member.id member.addr, rest) := by
  rw [run_readLine_line List.not_mem_nil (by simp) plain.not_mem_pair, List.nil_append,
    plain.trimSuffix_pair]

theorem plain_of_spaceFree {member : Member} (id : member.id ≠ [] ∧ spaceFree member.id)
    (addr : member.addr ≠ [] ∧ spaceFree member.addr) : member.Plain where
  id := ⟨id.1, fun mem => absurd (space1_of_spaceFree id.2 mem) (by decide),
    fun mem => absurd (space1_of_spaceFree id.2 mem) (by decide)⟩
  addr := ⟨addr.1, fun mem => absurd (space1_of_spaceFree addr.2 mem) (by decide),
    fun last => absurd (space1_of_spaceFree addr.2 (List.mem_of_getLast? last)) (by decide)⟩

/-- The loop over the lines of members. -/
theorem run_decodeMembers (plain : ∀ m ∈ members, m.Plain) (rest : Bytes) :
    (decodeMembers members.length).run
      ((members.flatMap fun m => line [] (pair m.id m.addr)) ++ rest) = .ok (members, rest) := by
  induction members with
  | nil => rfl
  | cons m members ih =>
      have first := plain m List.mem_cons_self
      rw [List.length_cons, List.flatMap_cons, List.append_assoc, decodeMembers,
        run_bind (first.run_readLine _), pair, cut_append first.id.2.1]
      dsimp only
      rw [if_neg, run_bind (ih fun m' mem => plain m' (List.mem_cons_of_mem m mem))]
      · rfl
      · exact fun h => h.elim first.id.1 first.addr.1

end Run

/-- The responses whose lines can be told apart again. A slice has fewer than `2 ^ 63`
elements. -/
def Response.Readable (resp : Response) : Prop :=
  match resp.kind with
  | .ok | .notFound => True
  | .value => resp.value.length < 2 ^ 63
  | .error => 10 ∉ resp.message
  | .moved | .owner | .notLeader =>
      (resp.nodeID ≠ [] ∧ spaceFree resp.nodeID) ∧ (resp.addr ≠ [] ∧ spaceFree resp.addr)
  | .members => resp.members.length < 2 ^ 63 ∧ ∀ member ∈ resp.members, member.Plain

/-- A response as it arrives: the fields of its kind, and a trimmed message. -/
def Response.received (resp : Response) : Response :=
  match resp.kind with
  | .ok | .notFound => { kind := resp.kind }
  | .value => { kind := .value, value := resp.value }
  | .error =>
      { kind := .error
        message := trimSpace (if resp.message = [] then ascii "error" else resp.message) }
  | .moved | .owner | .notLeader => { kind := resp.kind, nodeID := resp.nodeID, addr := resp.addr }
  | .members => { kind := .members, members := resp.members }

section Frame

variable {resp : Response}

/-- A response that names a node is read back, given the arm of the switch for its tag. -/
theorem run_decodeResponse_node {tag nodeID addr : Bytes} {kind : ResponseKind}
    (freeTag : 10 ∉ tag) (last : tag.getLast? ≠ some 13)
    (arm : ∀ text, decodeBody (tag ++ text) = decodeNodeLine kind text (tag ++ text))
    (id : nodeID ≠ [] ∧ spaceFree nodeID) (address : addr ≠ [] ∧ spaceFree addr) (rest : Bytes) :
    decodeResponse.run (line tag (pair nodeID addr) ++ ascii "END\n" ++ rest) =
      .ok ({ kind := kind, nodeID := nodeID, addr := addr }, rest) := by
  have plain : (Member.mk nodeID addr).Plain := plain_of_spaceFree id address
  refine run_decodeResponse_line tag freeTag last plain.not_mem_pair rest ?_
  intro s
  rw [plain.trimSuffix_pair, arm]
  exact run_decodeNodeLine kind _ s id address

/-- A readable response is read back, whatever follows it. -/
theorem Response.Readable.run_encodeResponse (readable : resp.Readable) (rest : Bytes) :
    decodeResponse.run (encodeResponse resp ++ rest) = .ok (resp.received, rest) := by
  unfold encodeResponse responseBody
  unfold Readable at readable
  unfold received
  cases kind : resp.kind with
  | ok =>
      exact run_decodeResponse_line (ascii "OK") (by decide) (by decide)
        List.not_mem_nil rest fun s => rfl
  | notFound =>
      exact run_decodeResponse_line (ascii "NIL") (by decide) (by decide)
        List.not_mem_nil rest fun s => rfl
  | value =>
      rw [kind] at readable
      dsimp only
      rw [List.append_assoc (line _ _)]
      refine run_decodeResponse (by decide) (by decide) (newline_not_mem_decimal _) rest ?_
      rw [trimSuffix_of_trimSpace (trimSpace_decimal _),
        decodeBody_value (parseLength_decimal readable), List.append_assoc, List.singleton_append,
        run_bind (run_readRaw resp.value _)]
      rfl
  | error =>
      rw [kind] at readable
      refine run_decodeResponse_line (ascii "ERR ") (by decide) (by decide) ?_ rest ?_
      · split
        · decide
        · exact readable
      · intro s
        rw [decodeBody_error, trimSpace_trimSuffix]
        rfl
  | moved =>
      rw [kind] at readable
      exact run_decodeResponse_node (by decide) (by decide) decodeBody_moved
        readable.1 readable.2 rest
  | owner =>
      rw [kind] at readable
      exact run_decodeResponse_node (by decide) (by decide) decodeBody_owner
        readable.1 readable.2 rest
  | notLeader =>
      rw [kind] at readable
      exact run_decodeResponse_node (by decide) (by decide) decodeBody_notLeader
        readable.1 readable.2 rest
  | members =>
      rw [kind] at readable
      refine run_decodeResponse (by decide) (by decide) (newline_not_mem_decimal _) rest ?_
      rw [trimSuffix_of_trimSpace (trimSpace_decimal _),
        decodeBody_members (parseLength_decimal readable.1),
        run_bind (run_decodeMembers readable.2 _)]
      rfl

end Frame

/-- A response with the fields of its kind and no others, that can be told apart. -/
structure Response.WellFormed (resp : Response) : Prop where
  readable : resp.Readable
  value : resp.kind ≠ .value → resp.value = []
  message : if resp.kind = .error
    then resp.message ≠ [] ∧ trimSpace resp.message = resp.message else resp.message = []
  node : resp.kind ∉ [.moved, .owner, .notLeader] → resp.nodeID = [] ∧ resp.addr = []
  members : resp.kind ≠ .members → resp.members = []

theorem Response.WellFormed.received_eq {resp : Response} (wf : resp.WellFormed) :
    resp.received = resp := by
  obtain ⟨_, value, message, node, members⟩ := wf
  cases resp with
  | mk kind v m id addr list => cases kind <;> simp_all [Response.received]

/-- Responses written one after another are read back one after another, with nothing left
over. -/
theorem responses_round_trip {responses : List Response}
    (wf : ∀ resp ∈ responses, resp.WellFormed) :
    decodeAll decodeResponse (responses.flatMap encodeResponse) = (responses, []) := by
  rw [decodeAll_encoded consumes_decodeResponse responses
    fun resp mem rest => (wf resp mem).readable.run_encodeResponse rest,
    List.map_congr_left fun resp mem => (wf resp mem).received_eq, List.map_id']

/-- A value and a message that look like other responses, and addresses with blanks. -/
def answers : List Response :=
  [{ kind := .value, value := ascii "END\nERR no\nEND\n" },
   { kind := .error, message := ascii "MEMBERS 1" },
   { kind := .members
     members := [⟨ascii "END", ascii "a b"⟩, ⟨ascii "OK", ascii "END"⟩] },
   { kind := .notLeader, nodeID := ascii "n1", addr := ascii "h:1" },
   { kind := .notFound }]

theorem responses_round_trip_answers :
    decodeAll decodeResponse (answers.flatMap encodeResponse) = (answers, []) := by
  refine responses_round_trip ?_
  intro resp mem
  simp only [answers, List.mem_cons, List.not_mem_nil, or_false] at mem
  obtain rfl | rfl | rfl | rfl | rfl := mem
  · exact ⟨by simp [Response.Readable]; decide, by decide, by decide, by decide, by decide⟩
  · exact ⟨by simp [Response.Readable]; decide, by decide, by decide, by decide, by decide⟩
  · refine ⟨⟨by simp, ?_⟩, by decide, by decide, by decide, by decide⟩
    intro member mem
    simp only [List.mem_cons, List.not_mem_nil, or_false] at mem
    obtain rfl | rfl := mem
    · exact ⟨by decide, by decide⟩
    · exact ⟨by decide, by decide⟩
  · exact ⟨by simp [Response.Readable]; decide, by decide, by decide, by decide, by decide⟩
  · exact ⟨trivial, by decide, by decide, by decide, by decide⟩

end DistributedCache.Protocol
