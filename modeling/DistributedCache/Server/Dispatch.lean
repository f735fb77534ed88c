import DistributedCache.Protocol.Request
import DistributedCache.Protocol.Response
import DistributedCache.Raft.Json
import DistributedCache.Raft.Roster
import DistributedCache.Server.Messages

/-!
The server of `internal/server`: `dispatch` and its handlers.

Ring, Raft and store hold Go strings with one character for each byte. What a request
meets outside of the server is an argument: the clock, the answers of other nodes, what
becomes of a proposal, and JSON.
-/
namespace DistributedCache

open GoText Protocol
open Raft (Go)

/-- A cluster, and the settings of the replication manager on it, if there is one. -/
structure Server.ClusterView where
  selfID : String
  ring : Cluster.Ring
  replication : Option Replication.Config

structure Server where
  cluster : Option Server.ClusterView
  raft : Option Raft.Node
  /-- Whether there is a metrics registry. -/
  metrics : Bool
  store : Cache.Store

namespace Server

/-- What `encoding/json` makes of the texts and values that the handlers give it. -/
structure Json where
  requestVote : Bytes → Except Line Raft.RequestVoteRequest
  appendEntries : Bytes → Except Line Raft.AppendEntriesRequest
  voteResponse : Raft.RequestVoteResponse → Except Line Bytes
  appendResponse : Raft.AppendEntriesResponse → Except Line Bytes
  status : Raft.Node.Status → Except Line Bytes
  metrics : Except Line Bytes

/-- The functions of `encoding/json`, given what its errors say of a text and the text of the
metrics. -/
def goJson (message : Bytes → Line) (metrics : Except Line Bytes) : Json where
  requestVote s := (Raft.readRequestVoteRequest s).elim (.error (message s)) .ok
  appendEntries s := (Raft.readAppendEntriesRequest s).elim (.error (message s)) .ok
  voteResponse resp := .ok (GoJson.print resp.json)
  appendResponse resp := .ok (GoJson.print resp.json)
  status s := .ok (GoJson.print s.json)
  metrics := metrics

/-- What becomes of a proposal at a leader. -/
inductive Proposed
  | applied
  | failed (err : ProposeError)
  deriving DecidableEq, Repr

/-- What a request meets outside of the server. -/
structure Outside where
  now : Int
  /-- The answers of other nodes, in the order of their arrival. -/
  results : List (String × Replication.Response)
  /-- The error of a context that is done before all answers are there. -/
  done : Option ContextError
  proposed : Proposed
  quote : String → Line
  json : Json

def okResponse : Response where
  kind := .ok

def notFoundResponse : Response where
  kind := .notFound

def errorResponse (message : Bytes) : Response where
  kind := .error
  message := message

def valueResponse (value : Bytes) : Response where
  kind := .value
  value := value

/-- A response that names a node of the ring. -/
def nodeResponse (kind : ResponseKind) (node : Cluster.Node) : Response where
  kind := kind
  nodeID := ascii node.id
  addr := ascii node.addr

def jsonResponse : Except Line Bytes → Response
  | .ok value => valueResponse value
  | .error message => errorResponse message.1

namespace Outside

/-- The text of an error of the manager. -/
def errorText (out : Outside) (err : Replication.Error) : Bytes :=
  replicationErrorText out.quote (out.done.getD .deadlineExceeded) err

/-- What is left of a call when the other nodes have answered, or its context is done. -/
def endLoop (out : Outside) (w : Replication.Setup) (p : Replication.Proc)
    (call : Replication.Call) : Replication.Proc × Replication.Call :=
  match call.op, call.polls w, out.results.findSome? fun r => r.2.answer with
  -- `readFromPeers` returns the first value.
  | .read _, false, some v => (p, { call with phase := .returned (.value v) })
  | _, _, _ =>
      match out.done with
      | some _ => (call.cancel w out.now p).getD (call.finish w out.now p)
      | none => call.finish w out.now p

/-- A call at the manager, from where its first section has left it. -/
def settle (out : Outside) (w : Replication.Setup)
    (started : Replication.Proc × Replication.Call) : Replication.Proc × Replication.Result :=
  match started.2.phase with
  | .returned result => (started.1, result)
  | _ =>
      let (p, call) := out.endLoop w started.1
        { started.2 with phase := .visiting [], running := [], results := out.results }
      match call.phase with
      | .returned result => (p, result)
      | _ => ((call.undone w out.now p).1,
          .error (.quorumNotMet out.results.length w.required))

end Outside

def ClusterView.isOwner (v : ClusterView) (key : String) : Bool :=
  match v.ring.owner key with
  | some owner => owner.id = v.selfID
  | none => false

variable (s : Server)

/-- The manager, if there is one: its settings, the ring it looks at, and its node. -/
def manager : Option (Replication.Setup × String) :=
  match s.cluster with
  | some v => v.replication.map fun cfg => (⟨cfg, v.ring⟩, v.selfID)
  | none => none

/-- A manager that is enabled. -/
def replicating : Option (Replication.Setup × String) :=
  s.manager.filter fun m => m.1.cfg.enabled

def redirectToPrimary (key : String) : Response :=
  match s.cluster with
  | none => errorResponse (ascii "cluster not enabled")
  | some v =>
      match v.ring.owner key with
      | none => errorResponse (lookupErrorText .emptyRing)
      | some primary => nodeResponse .moved primary

/-- The response of a request that is not for this node. -/
def checkOwnership (key : String) : Option Response :=
  match s.cluster with
  | none => none
  | some v =>
      match v.ring.owner key with
      | none => some (errorResponse (lookupErrorText .emptyRing))
      | some owner => if v.isOwner key then none else some (nodeResponse .moved owner)

def checkWriteRouting (key : String) : Option Response :=
  match s.replicating with
  | some (w, self) => if w.isPrimary self key then none else some (s.redirectToPrimary key)
  | none => s.checkOwnership key

def checkReadRouting (key : String) : Option Response :=
  match s.replicating with
  | some (w, self) => if w.isInReplicaSet self key then none else some (s.redirectToPrimary key)
  | none => s.checkOwnership key

section Checks

variable {s : Server} {key : String} {resp : Response}

theorem eq_redirect_of_checkOwnership (h : s.checkOwnership key = some resp) :
    resp = s.redirectToPrimary key := by
  cases cluster : s.cluster with
  | none =>
      simp only [checkOwnership, cluster] at h
      cases h
  | some v =>
      cases owns : v.ring.owner key with
      | none =>
          simp only [checkOwnership, cluster, owns, Option.some.injEq] at h
          simp only [redirectToPrimary, cluster, owns]
          exact h.symm
      | some owner =>
          simp only [checkOwnership, cluster, owns] at h
          simp only [redirectToPrimary, cluster, owns]
          split at h
          · cases h
          · exact (Option.some.inj h).symm

theorem eq_redirect_of_checkWriteRouting (h : s.checkWriteRouting key = some resp) :
    resp = s.redirectToPrimary key := by
  unfold checkWriteRouting at h
  split at h
  · split at h
    · cases h
    · cases h
      rfl
  · exact eq_redirect_of_checkOwnership h

theorem eq_redirect_of_checkReadRouting (h : s.checkReadRouting key = some resp) :
    resp = s.redirectToPrimary key := by
  unfold checkReadRouting at h
  split at h
  · split at h
    · cases h
    · cases h
      rfl
  · exact eq_redirect_of_checkOwnership h

end Checks

variable (out : Outside)

def dispatchSet (key : String) (value : Bytes) (ttl : Int) : Server × Response :=
  match s.replicating with
  | some (w, self) =>
      let (p, result) := out.settle w
        (Replication.startSet w self out.now ⟨s.store, ∅⟩ key value ttl)
      ({ s with store := p.store },
        match result with
        | .error err => errorResponse (out.errorText err)
        | _ => okResponse)
  | none =>
      let (store, err) := s.store.set out.now key value ttl
      ({ s with store := store },
        match err with
        | some err => errorResponse (storeErrorText err)
        | none => okResponse)

def dispatchDelete (key : String) : Server × Response :=
  match s.replicating with
  | some (w, self) =>
      let (p, result) := out.settle w (Replication.startDelete w self out.now ⟨s.store, ∅⟩ key)
      ({ s with store := p.store },
        match result with
        | .error err => errorResponse (out.errorText err)
        | .deleted true => okResponse
        | _ => notFoundResponse)
  | none =>
      let (store, deleted) := s.store.delete out.now key
      ({ s with store := store }, if deleted then okResponse else notFoundResponse)

def getResponse : Option Bytes → Response
  | some value => valueResponse value
  | none => notFoundResponse

def dispatchGet (key : String) : Server × Response :=
  match s.replicating with
  | some (w, self) =>
      let (p, result) := out.settle w (Replication.startRead w self out.now ⟨s.store, ∅⟩ key)
      ({ s with store := p.store },
        match result with
        | .error .notInReplicaSet => s.redirectToPrimary key
        | .error err => errorResponse (out.errorText err)
        | .value value => valueResponse value
        | _ => notFoundResponse)
  | none =>
      let (store, value) := s.store.get out.now key
      ({ s with store := store }, getResponse value)

def replicaResponse : Replication.Response → Response
  | .ok => okResponse
  | .value value => valueResponse value
  | .notFound => notFoundResponse
  | .error err => errorResponse (out.errorText err)

/-- A request of another node's manager, with the message for a server that has none. -/
def dispatchReplica (missing : Bytes) (req : Replication.Request) : Server × Response :=
  match s.manager with
  | none => (s, errorResponse missing)
  | some (w, self) =>
      let (p, resp) := Replication.serve w self out.now ⟨s.store, ∅⟩ req
      ({ s with store := p.store }, replicaResponse out resp)

def dispatchReplicaSet (key : String) (value : Bytes) (ttl : Int) : Server × Response :=
  s.dispatchReplica out (ascii "replication not enabled") (.replSet key value ttl)

def dispatchReplicaDelete (key : String) : Server × Response :=
  s.dispatchReplica out (ascii "replication not enabled") (.replDelete key)

def dispatchReplicaGet (key : String) : Server × Response :=
  s.dispatchReplica out (out.errorText .notInReplicaSet) (.replGet key)

def dispatchOwner (key : String) : Response :=
  match s.cluster with
  | none => errorResponse (ascii "cluster not enabled")
  | some v =>
      match v.ring.owner key with
      | none => errorResponse (lookupErrorText .emptyRing)
      | some owner => nodeResponse .owner owner

def dispatchClusterMembers : Response :=
  match s.cluster with
  | none => errorResponse (ascii "cluster not enabled")
  | some v =>
      { kind := .members
        members := v.ring.members.map fun node => ⟨ascii node.id, ascii node.addr⟩ }

def raftNotLeaderResponse (n : Raft.Node) : Response :=
  if n.leaderID = "" then errorResponse notLeaderText
  else nodeResponse .notLeader ⟨n.leaderID, n.leaderAddr⟩

/-- The callback of `cmd/node` for an entry. -/
def applyEntry (cmd : Raft.Command) : Go Server :=
  match s.cluster, s.raft with
  | some v, some n => do
      let (p, _) ← Raft.Proc.apply ⟨n, v.ring, ∅, [], [], []⟩ cmd
      pure { s with cluster := some { v with ring := p.ring }, raft := some p.node }
  | _, _ => pure s

/-- The part of a membership request that goes through Raft. The channel that `Propose`
waits on is sent nil after the callback, whatever has come of it. What a proposal does to
the log changes in steps of their own. -/
def propose (n : Raft.Node) (cmd : Raft.Command) : Go (Server × Response) :=
  if n.isLeader then
    match out.proposed with
    | .failed err => pure (s, errorResponse err.text)
    | .applied => do
        let s ← s.applyEntry cmd
        pure (s, okResponse)
  else pure (s, raftNotLeaderResponse n)

/-- The part that goes to the ring directly. -/
def changeRing (v : ClusterView) :
    Except Cluster.RingError Cluster.Ring → Server × Response
  | .error err => (s, errorResponse (ringErrorText out.quote err))
  | .ok r => ({ s with cluster := some { v with ring := r } }, okResponse)

def dispatchClusterJoin (nodeID addr : String) : Go (Server × Response) :=
  match s.cluster with
  | none => pure (s, errorResponse (ascii "cluster not enabled"))
  | some v =>
      match s.raft with
      | some n => s.propose out n { type := .addMember, nodeID := nodeID, addr := addr }
      | none => pure (s.changeRing out v (v.ring.addNode ⟨nodeID, addr⟩))

def dispatchClusterLeave (nodeID : String) : Go (Server × Response) :=
  match s.cluster with
  | none => pure (s, errorResponse (ascii "cluster not enabled"))
  | some v =>
      match s.raft with
      | some n => s.propose out n { type := .removeMember, nodeID := nodeID }
      | none => pure (s.changeRing out v (v.ring.removeNode nodeID))

def dispatchRaftRequestVote (payload : Bytes) : Go (Server × Response) :=
  match s.raft with
  | none => pure (s, errorResponse (ascii "raft not enabled"))
  | some n =>
      match out.json.requestVote payload with
      | .error message => pure (s, errorResponse message.1)
      | .ok req => do
          let (n, resp) ← n.handleRequestVote req
          pure ({ s with raft := some n }, jsonResponse (out.json.voteResponse resp))

/-- The entries that a request commits are applied in steps of their own. -/
def dispatchRaftAppendEntries (payload : Bytes) : Go (Server × Response) :=
  match s.raft with
  | none => pure (s, errorResponse (ascii "raft not enabled"))
  | some n =>
      match out.json.appendEntries payload with
      | .error message => pure (s, errorResponse message.1)
      | .ok req => do
          let (n, status) ← n.handleAppendEntries req
          pure ({ s with raft := some n },
            jsonResponse (out.json.appendResponse ⟨n.currentTerm, status ≠ .rejected⟩))

def dispatchRaftStatus : Response :=
  match s.raft with
  | none => errorResponse (ascii "raft not enabled")
  | some n => jsonResponse (out.json.status n.status)

def dispatchMetrics : Response :=
  if s.metrics then jsonResponse out.json.metrics
  else errorResponse (ascii "metrics not enabled")

/-- A handler behind a routing check. -/
def routed (check : Option Response) (handled : Server × Response) : Go (Server × Response) :=
  match check with
  | some resp => pure (s, resp)
  | none => pure handled

def dispatch (req : Request) : Go (Server × Response) :=
  let key := text req.key
  let value := req.value.getD []
  if req.command = commandPing then pure (s, okResponse)
  else if req.command = commandMetrics then pure (s, s.dispatchMetrics out)
  else if req.command = commandRaftRequestVote then s.dispatchRaftRequestVote out value
  else if req.command = commandRaftAppendEntries then s.dispatchRaftAppendEntries out value
  else if req.command = commandRaftStatus then pure (s, s.dispatchRaftStatus out)
  else if req.command = commandReplSet then pure (s.dispatchReplicaSet out key value req.ttl)
  else if req.command = commandReplDelete then pure (s.dispatchReplicaDelete out key)
  else if req.command = commandReplGet then pure (s.dispatchReplicaGet out key)
  else if req.command = commandOwner then pure (s, s.dispatchOwner key)
  else if req.command = commandClusterMembers then pure (s, s.dispatchClusterMembers)
  else if req.command = commandClusterJoin then s.dispatchClusterJoin out key (text value)
  else if req.command = commandClusterLeave then s.dispatchClusterLeave out key
  else if req.command = commandSet then
    s.routed (s.checkWriteRouting key) (s.dispatchSet out key value req.ttl)
  else if req.command = commandDelete then
    s.routed (s.checkWriteRouting key) (s.dispatchDelete out key)
  else if req.command = commandGet then
    s.routed (s.checkReadRouting key) (s.dispatchGet out key)
  else pure (s, errorResponse (ascii "unknown command"))

/-- No other node answers, and a proposal is applied at once. -/
def quiet : Outside where
  now := 0
  results := []
  done := none
  proposed := .applied
  quote _ := ⟨[], List.not_mem_nil⟩
  json := goJson (fun _ => ⟨[], List.not_mem_nil⟩) (.ok [])

end Server

end DistributedCache
