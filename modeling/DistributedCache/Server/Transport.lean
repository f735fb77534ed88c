import DistributedCache.Protocol.RoundTrip
import DistributedCache.Server.Connection

/-!
Round trips. A client of `cmd/client`, the `Peer` of a replication manager and the
`TCPTransport` of a Raft node open a connection, send one request and read one response.

The models of replication and of Raft send requests and responses as they are. Here both go
through their texts and through the handler of a server, and arrive as those models have it:
a `REPL_SET` with its TTL in whole seconds, and everything else unchanged.
-/
namespace DistributedCache.Server

open GoText Framing Protocol Serving
open Raft (Go)

/-- The errors of a round trip over a connection that does not fail. -/
inductive TripError
  | encode (err : EncodeError)
  | decode (err : DecodeError)
  /-- An `ERR` response, where it is taken for an error. -/
  | remote (message : Bytes)
  | unexpected (kind : ResponseKind)
  /-- A text that is not the JSON of a response. -/
  | json (text : Bytes)

/-- What the handler of a connection makes of the bytes of one request: the server after it,
and what has been written. As long as the client waits, so does a read that lacks bytes. -/
def carry (s : Server) (out : Outside) (payload : Bytes) : Go (Server × Bytes) :=
  match decodeRequest.run payload with
  | .ok (req, _) => do
      let (s, resp) ← s.dispatch out req
      pure (s, encodeResponse resp)
  | .error e => pure (s, if starved e then [] else farewell out.quote e)

/-- The call `roundTrip` of `cmd/client`. -/
def roundTrip (s : Server) (out : Outside) (req : Request) :
    Go (Server × Except TripError Response) :=
  match encodeRequest req with
  | .error err => pure (s, .error (.encode err))
  | .ok payload => do
      let (s, reply) ← s.carry out payload
      match decodeResponse.run reply with
      | .error err => pure (s, .error (.decode err))
      | .ok (resp, _) => pure (s, .ok resp)

/-- The call `roundTrip` of a `Peer`. -/
def peerRoundTrip (s : Server) (out : Outside) (req : Request) :
    Go (Server × Except TripError Response) := do
  let (s, result) ← s.roundTrip out req
  match result with
  | .error err => pure (s, .error err)
  | .ok resp =>
      if resp.kind = .error then pure (s, .error (.remote resp.message)) else pure (s, .ok resp)

/-- The call `roundTrip` of a `TCPTransport`. -/
def tcpRoundTrip (s : Server) (out : Outside) (command payload : Bytes) :
    Go (Server × Except TripError Bytes) := do
  let (s, result) ← s.peerRoundTrip out
    { command := command, key := ascii "raft", value := some payload }
  match result with
  | .error err => pure (s, .error err)
  | .ok resp =>
      if resp.kind = .value then pure (s, .ok resp.value)
      else pure (s, .error (.unexpected resp.kind))

section Trips

variable {s s' : Server} {out : Outside} {req : Request} {resp : Response}

/-- The server of a round trip is the one that a connection of its own leads to. -/
theorem carry_connected {payload reply rest : Bytes}
    (decoded : decodeRequest.run payload = .ok (req, rest))
    (h : s.carry out payload = .ok (s', reply)) :
    ∃ resp past c, s.dispatch out req = .ok (s', resp) ∧ Connected (handler out.quote) past c ∧
      Serving.received past = payload ∧ exchanged past = [(req, resp)] ∧ c.outbox = reply := by
  unfold carry at h
  rw [decoded] at h
  obtain ⟨⟨s₁, resp⟩, answered, h⟩ := Raft.Go.bind_eq_ok.mp h
  cases h
  have arrived : Connected (handler out.quote) _ _ :=
    .next (.start rfl) (rfl : Conn.exec _ {} (.arrive payload) = .ok _)
  have read : Conn.exec (handler out.quote) { inbox := payload } .read =
      .ok { inbox := rest, phase := .handling req } := by
    change Conn.read _ _ = _
    unfold Conn.read
    rw [show (handler out.quote).decode.run payload = .ok (req, rest) from decoded]
  exact ⟨resp, _, _, answered,
    .next (.next (.next arrived read) (rfl : Conn.exec _ _ (.answer resp) = .ok _))
      (rfl : Conn.exec _ _ .write = .ok _), by simp [Serving.received, Event.bytes], rfl, rfl⟩

/-- A well-formed request with an answer that can be read. -/
theorem roundTrip_of_reply {back : Response} {rest : Bytes} (wf : req.WellFormed)
    (answer : s.dispatch out req.received = .ok (s', resp))
    (reply : decodeResponse.run (encodeResponse resp) = .ok (back, rest)) :
    s.roundTrip out req = .ok (s', .ok back) := by
  have decoded := reads_decodeRequest.run_whole wf.isRequest
  have carried : s.carry out (requestText req) = .ok (s', encodeResponse resp) := by
    unfold carry
    rw [decoded]
    dsimp only
    rw [answer]
    rfl
  unfold roundTrip
  rw [wf.encodeRequest_eq]
  dsimp only
  rw [carried]
  change (match decodeResponse.run (encodeResponse resp) with
    | .error err => pure (s', .error (.decode err))
    | .ok (resp, _) => pure (s', .ok resp) : Go (Server × Except TripError Response)) = _
  rw [reply]
  rfl

theorem roundTrip_eq (wf : req.WellFormed) (answer : s.dispatch out req.received = .ok (s', resp))
    (readable : resp.Readable) : s.roundTrip out req = .ok (s', .ok resp.received) := by
  have reply := readable.run_encodeResponse []
  rw [List.append_nil] at reply
  exact roundTrip_of_reply wf answer reply

theorem peerRoundTrip_eq (wf : req.WellFormed)
    (answer : s.dispatch out req.received = .ok (s', resp)) (readable : resp.Readable) :
    s.peerRoundTrip out req = .ok (s', if resp.received.kind = .error
      then .error (.remote resp.received.message) else .ok resp.received) := by
  unfold peerRoundTrip
  rw [roundTrip_eq wf answer readable]
  change (if resp.received.kind = .error then pure (s', .error (.remote resp.received.message))
    else pure (s', .ok resp.received) : Go (Server × Except TripError Response)) = _
  split <;> rfl

end Trips

section Replication

open Replication (Setup wireTTL serve)

/-- The calls of a `Peer`, but for `Ping`. -/
inductive PeerCall
  | replicateSet (key value : Bytes) (ttl : Int)
  | replicateDelete (key : Bytes)
  | get (key : Bytes)

namespace PeerCall

def request : PeerCall → Request
  | .replicateSet key value ttl =>
      { command := commandReplSet, key := key, value := some value, ttl := ttl }
  | .replicateDelete key => { command := commandReplDelete, key := key }
  | .get key => { command := commandReplGet, key := key }

/-- The request of the replication model that the call stands for. -/
def arrives : PeerCall → Replication.Request
  | .replicateSet key value ttl => .replSet (text key) value (wireTTL ttl)
  | .replicateDelete key => .replDelete (text key)
  | .get key => .replGet (text key)

/-- What the manager learns. `ReplicateSet` and `ReplicateDelete` return no error for any other
response, and `Get` only for a value or its absence. -/
def returns (call : PeerCall) : Except TripError Response → Option Replication.Response
  | .error _ => none
  | .ok resp =>
      match call, resp.kind with
      | _, .value => some (.value resp.value)
      | _, .notFound => some .notFound
      | .get _, _ => none
      | _, _ => some .ok

def key : PeerCall → Bytes
  | .replicateSet key _ _ | .replicateDelete key | .get key => key

/-- The key is one of a request that has been read, and value and TTL are as Go has them. -/
structure Sendable (call : PeerCall) : Prop where
  key : call.key ≠ [] ∧ 10 ∉ call.key ∧ trimSpace call.key = call.key
  value : (call.request.value.getD []).length < 2 ^ 63
  ttl : call.request.ttl < 2 ^ 63

end PeerCall

def peerCall (s : Server) (out : Outside) (call : PeerCall) :
    Go (Server × Option Replication.Response) := do
  let (s, result) ← s.peerRoundTrip out call.request
  pure (s, call.returns result)

/-- The request that the text stands for: a TTL that is not positive is not sent. -/
def sent (req : Request) : Request :=
  { req with ttl := max req.ttl 0 }

theorem encodeRequest_sent (req : Request) : encodeRequest (sent req) = encodeRequest req := by
  have same : requestText (sent req) = requestText req := by
    unfold requestText sent
    by_cases positive : req.ttl > 0
    · have keeps : max req.ttl 0 = req.ttl := by omega
      simp only [keeps]
    · have none : ¬ max req.ttl 0 > 0 := by omega
      simp only [none, positive, and_false, if_false]
  unfold encodeRequest
  rw [same]
  rfl

theorem received_sent (req : Request) :
    (sent req).received = { req with ttl := wireTTL req.ttl } := by
  unfold sent Request.received wireTTL
  by_cases positive : req.ttl > 0
  · have keeps : max req.ttl 0 = req.ttl := by omega
    simp only [keeps]
  · have none : ¬ max req.ttl 0 > 0 := by omega
    simp only [none, positive, if_false]

theorem roundTrip_sent (s : Server) (out : Outside) (req : Request) :
    s.roundTrip out (sent req) = s.roundTrip out req := by
  unfold roundTrip
  rw [encodeRequest_sent]

namespace PeerCall

variable {call : PeerCall}

theorem Sendable.wellFormed (sendable : call.Sendable) : (sent call.request).WellFormed := by
  obtain ⟨key, value, ttl⟩ := sendable
  cases call with
  | replicateSet k v t =>
      refine ⟨(by decide : commandReplSet ∈ commands), key, ⟨v, rfl, value⟩, ?_⟩
      change 0 ≤ max t 0 ∧ max t 0 < 2 ^ 63
      change t < 2 ^ 63 at ttl
      omega
  | replicateDelete k => exact ⟨(by decide : commandReplDelete ∈ commands), key, rfl, rfl⟩
  | get k => exact ⟨(by decide : commandReplGet ∈ commands), key, rfl, rfl⟩

/-- The message of a server without replication. -/
def missing (out : Outside) : PeerCall → Bytes
  | .replicateSet _ _ _ | .replicateDelete _ => ascii "replication not enabled"
  | .get _ => out.errorText .notInReplicaSet

theorem dispatch_received (s : Server) (out : Outside) (call : PeerCall) :
    s.dispatch out (sent call.request).received =
      .ok (s.dispatchReplica out (call.missing out) call.arrives) := by
  rw [received_sent]
  cases call with
  | replicateSet | replicateDelete | get => rfl

end PeerCall

variable {s : Server} {out : Outside} {w : Setup} {self : String}

theorem readable_replicaResponse (resp : Replication.Response)
    (fits : ∀ v, resp = .value v → v.length < 2 ^ 63) : (replicaResponse out resp).Readable := by
  cases resp with
  | ok | notFound => trivial
  | value v => exact fits v rfl
  | error err => exact newline_not_mem_replicationError _ _ err

/-- What comes back of a response is what the replication model has come back. -/
theorem PeerCall.returns_received (call : PeerCall) (resp : Replication.Response) :
    call.returns (if (replicaResponse out resp).received.kind = .error
        then .error (.remote (replicaResponse out resp).received.message)
        else .ok (replicaResponse out resp).received) = call.arrives.outcome resp := by
  cases resp <;> cases call <;> rfl

/-- A call of a `Peer` at a server with a manager is the handling of one request and the
delivery of its response in the replication model. -/
theorem peer_call_served {call : PeerCall} (sendable : call.Sendable)
    (manager : s.manager = some (w, self))
    (fits : ∀ v, (serve w self out.now ⟨s.store, ∅⟩ call.arrives).2 = .value v →
      v.length < 2 ^ 63) :
    s.peerCall out call = .ok
      ({ s with store := (serve w self out.now ⟨s.store, ∅⟩ call.arrives).1.store },
        call.arrives.outcome (serve w self out.now ⟨s.store, ∅⟩ call.arrives).2) := by
  have answer := call.dispatch_received s out
  have served : s.dispatchReplica out (call.missing out) call.arrives =
      ({ s with store := (serve w self out.now ⟨s.store, ∅⟩ call.arrives).1.store },
        replicaResponse out (serve w self out.now ⟨s.store, ∅⟩ call.arrives).2) := by
    unfold dispatchReplica
    rw [manager]
  rw [served] at answer
  have trip := peerRoundTrip_eq sendable.wellFormed answer (readable_replicaResponse _ fits)
  have same : s.peerRoundTrip out (sent call.request) = s.peerRoundTrip out call.request := by
    unfold peerRoundTrip
    rw [roundTrip_sent]
  rw [same] at trip
  unfold peerCall
  rw [trip, ← call.returns_received]
  rfl

/-- A replica of the pair takes a value for one and a half seconds, which arrives as one. -/
theorem peer_call_served_pair :
    ∃ s', (pairServer "b" Cluster.secondView.2).peerCall quiet
      (.replicateSet (ascii "k") (ascii "v") 1500000000) = .ok (s', some .ok) ∧
      (s'.store.get 999999999 "k").2 = some (ascii "v") ∧
      (s'.store.get 1000000000 "k").2 = none := by
  have sendable : (PeerCall.replicateSet (ascii "k") (ascii "v") 1500000000).Sendable :=
    ⟨by decide, by decide, by decide⟩
  have stored : (serve ⟨⟨2, 2, 2, .quorum, .primary⟩, Cluster.secondView.2⟩ "b" 0
      ⟨Cache.newStore 0, ∅⟩ (PeerCall.replicateSet (ascii "k") (ascii "v") 1500000000).arrives).2 =
        .ok := by decide +kernel
  have call : (pairServer "b" Cluster.secondView.2).peerCall quiet
      (.replicateSet (ascii "k") (ascii "v") 1500000000) = _ :=
    peer_call_served sendable rfl fun v value => by
      cases stored.symm.trans value
  refine ⟨_, call.trans (congrArg (fun r => Except.ok (_, r))
    (congrArg (Replication.Request.outcome _) stored)), ?_, ?_⟩
  · decide +kernel
  · decide +kernel

end Replication

section Raft

open Raft (RequestVoteRequest RequestVoteResponse AppendEntriesRequest AppendEntriesResponse)

/-- A call of a `TCPTransport`, with the text of its request and the reader of its response. -/
def tcpCall {β : Type} (s : Server) (out : Outside) (command payload : Bytes)
    (read : Bytes → Option β) : Go (Server × Except TripError β) := do
  let (s, result) ← s.tcpRoundTrip out command payload
  match result with
  | .error err => pure (s, .error err)
  | .ok reply =>
      match read reply with
      | none => pure (s, .error (.json reply))
      | some resp => pure (s, .ok resp)

def requestVote (s : Server) (out : Outside) (req : RequestVoteRequest) :
    Go (Server × Except TripError RequestVoteResponse) :=
  s.tcpCall out commandRaftRequestVote (GoJson.print req.json) Raft.readRequestVoteResponse

def appendEntries (s : Server) (out : Outside) (req : AppendEntriesRequest) :
    Go (Server × Except TripError AppendEntriesResponse) :=
  s.tcpCall out commandRaftAppendEntries (GoJson.print req.json) Raft.readAppendEntriesResponse

variable {s : Server} {out : Outside} {n : Raft.Node} {message : Bytes → Line}
  {metrics : Except Line Bytes}

/-- A call whose request is answered with a value. -/
theorem tcpCall_eq {β : Type} {command payload reply : Bytes} {read : Bytes → Option β} {resp : β}
    {s' : Server} (known : command ∈ valueCommands) (fits : payload.length < 2 ^ 63)
    (answer : s.dispatch out { command := command, key := ascii "raft", value := some payload } =
      .ok (s', valueResponse reply))
    (fits' : reply.length < 2 ^ 63) (back : read reply = some resp) :
    s.tcpCall out command payload read = .ok (s', .ok resp) := by
  have others : ∀ c ∈ valueCommands, c ∈ commands ∧ c ∉ keylessCommands ∧ c ∉ setCommands := by
    decide
  obtain ⟨mem, keyed, other⟩ := others command known
  have wf : ({ command := command, key := ascii "raft", value := some payload } :
      Request).WellFormed := by
    refine ⟨mem, ?_, ?_, ?_⟩
    · rw [if_neg keyed]
      exact (by decide : ascii "raft" ≠ [] ∧ 10 ∉ ascii "raft" ∧
        trimSpace (ascii "raft") = ascii "raft")
    · rw [if_pos (List.mem_append_right _ known)]
      exact ⟨payload, rfl, fits⟩
    · rw [if_neg other]
  have trip := peerRoundTrip_eq wf answer fits'
  unfold tcpCall tcpRoundTrip
  rw [trip]
  change (match read reply with
    | none => pure (s', .error (.json reply))
    | some resp => pure (s', .ok resp) : Go (Server × Except TripError β)) = _
  rw [back]
  rfl

/-- A call over TCP does at the server what a call in memory does at the node, and returns what
it returns: the request and the response go through their JSON texts unchanged, where strings
are UTF-8 and numbers have 64 bits. -/
theorem tcp_agrees_with_memory (raft : s.raft = some n) (json : out.json = goJson message metrics) :
    (∀ req n' resp, n.handleRequestVote req = .ok (n', resp) → req.Sendable →
      (GoJson.print req.json).length < 2 ^ 63 → resp.term < 2 ^ 64 →
      s.requestVote out req = .ok ({ s with raft := some n' }, .ok resp)) ∧
    (∀ req n' status, n.handleAppendEntries req = .ok (n', status) → req.Sendable →
      (GoJson.print req.json).length < 2 ^ 63 → n'.currentTerm < 2 ^ 64 →
      s.appendEntries out req =
        .ok ({ s with raft := some n' }, .ok ⟨n'.currentTerm, status ≠ .rejected⟩)) := by
  constructor
  · intro req n' resp handled sendable fits small
    refine tcpCall_eq (by decide) fits ?_ (resp.length_print small) (resp.read small)
    change s.dispatchRaftRequestVote out (GoJson.print req.json) = _
    unfold dispatchRaftRequestVote
    rw [raft, json]
    dsimp only [goJson]
    rw [sendable.read]
    dsimp only [Option.elim_some]
    rw [handled]
    rfl
  · intro req n' status handled sendable fits small
    refine tcpCall_eq (by decide) fits ?_ (Raft.AppendEntriesResponse.length_print _ small)
      (Raft.AppendEntriesResponse.read small)
    change s.dispatchRaftAppendEntries out (GoJson.print req.json) = _
    unfold dispatchRaftAppendEntries
    rw [raft, json]
    dsimp only [goJson]
    rw [sendable.read]
    dsimp only [Option.elim_some]
    rw [handled]
    rfl

/-- A node votes for a candidate whose request has come over TCP. -/
theorem tcp_agrees_with_memory_vote : ∃ s n n' resp, s.raft = some n ∧
    GoJson.print (RequestVoteRequest.json ⟨1, "b", 0, 0⟩) = ascii
      "\x7b\"term\":1,\"candidate_id\":\"b\",\"last_log_index\":0,\"last_log_term\":0\x7d" ∧
    GoJson.print resp.json = ascii "\x7b\"term\":1,\"vote_granted\":true\x7d" ∧
    n'.votedFor = "b" ∧
    requestVote s quiet ⟨1, "b", 0, 0⟩ = .ok ({ s with raft := some n' }, .ok resp) := by
  have handled : (Raft.newNode "a" "a:1" ∅).handleRequestVote ⟨1, "b", 0, 0⟩ = .ok _ := rfl
  have sendable : RequestVoteRequest.Sendable ⟨1, "b", 0, 0⟩ :=
    ⟨by decide, by decide, by decide, by decide⟩
  exact ⟨soloServer (some (Raft.newNode "a" "a:1" ∅)), _, _, _, rfl, by decide +kernel,
    by decide +kernel, rfl, (tcp_agrees_with_memory rfl rfl).1 _ _ _ handled sendable
      (by decide +kernel) (by decide)⟩

end Raft

end DistributedCache.Server
