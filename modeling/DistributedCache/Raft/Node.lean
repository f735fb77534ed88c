import DistributedCache.Raft.Types

/-!
The critical sections of `internal/raft/node.go`, as functions on the state of
one node. Each is the code between taking and giving up the node's mutex, under
the name of the function it stands in.

`applyCommittedLocked` gives the mutex up around every apply callback, so it is
cut there: `popCommitted` is its loop head up to the Unlock, `finishApply` what
follows the Lock after the callback. `HandleAppendEntries` and the response
handler of `replicateLocked` are cut where they call it.
-/
namespace DistributedCache.Raft

def min64 (a b : Nat) : Nat :=
  if a < b then a else b

/-- An RPC goroutine: the node that started it, the peer and the request. -/
structure Call (Req : Type) where
  caller : String
  peerID : String
  addr : String
  req : Req
  deriving DecidableEq, Repr

namespace Node

def peerAddrsLocked (n : Node) : List (String × String) :=
  (n.peers.entries.map fun p => (p.1, p.2)).filter fun p => p.1 ≠ n.id

def lastLogIndexTermLocked (n : Node) : Go (Nat × Nat) := do
  let lastIndex := n.log.length - 1
  let e ← n.logAt lastIndex
  pure (lastIndex, e.term)

def becomeFollowerLocked (n : Node) (term : Nat) (leaderID : String) : Node :=
  { n with role := .follower, currentTerm := term, votedFor := "", leaderID := leaderID }

/-- The `next` of one iteration of the loop in `replicateLocked`: a missing, zero
or too large `nextIndex` becomes the length of the log. -/
def nextFor (n : Node) (peerID : String) : Nat :=
  match n.nextIndex.lookup peerID with
  | none => n.log.length
  | some next =>
      if next = 0 then n.log.length
      else if next > n.log.length then n.log.length else next

/-- One iteration of the loop in `replicateLocked`, up to the `go` statement. -/
def replicateTo (n : Node) (peerID addr : String) :
    Go (Node × Call AppendEntriesRequest) := do
  let next := n.nextFor peerID
  let n' :=
    if n.nextIndex.lookup peerID = some next then n
    else { n with nextIndex := n.nextIndex.insert peerID next }
  let prevIndex := next - 1
  let prev ← n.logAt prevIndex
  let entries ← n.logFrom next
  pure (n', {
    caller := n.id
    peerID := peerID
    addr := addr
    req := {
      term := n.currentTerm
      leaderID := n.id
      prevLogIndex := prevIndex
      prevLogTerm := prev.term
      entries := entries
      leaderCommit := n.commitIndex } })

def replicateAll (n : Node) :
    List (String × String) → Go (Node × List (Call AppendEntriesRequest))
  | [] => pure (n, [])
  | (peerID, addr) :: rest => do
      let (n, call) ← n.replicateTo peerID addr
      let (n, calls) ← n.replicateAll rest
      pure (n, call :: calls)

def replicateLocked (n : Node) : Go (Node × List (Call AppendEntriesRequest)) :=
  if n.role ≠ .leader then pure (n, []) else n.replicateAll n.peerAddrsLocked

def becomeLeaderLocked (n : Node) : Go (Node × List (Call AppendEntriesRequest)) :=
  let next := n.log.length
  let others := n.peers.keys.filter fun id => id ≠ n.id
  replicateLocked { n with
    role := .leader
    leaderID := n.id
    nextIndex := others.foldl (fun m id => m.insert id next) ∅
    matchIndex := others.foldl (fun m id => m.insert id 0) ∅ }

/-- What `startElectionLocked` leaves behind when it gives up the mutex. -/
structure Candidacy where
  term : Nat
  majority : Nat
  calls : List (Call RequestVoteRequest)

def startElectionLocked (n : Node) : Go (Node × Candidacy) := do
  let term := n.currentTerm + 1
  let n := { n with role := .candidate, currentTerm := term, votedFor := n.id, leaderID := "" }
  let (lastIndex, lastTerm) ← n.lastLogIndexTermLocked
  let majority := n.peers.keys.length / 2 + 1
  pure (n, {
    term := term
    majority := majority
    calls := n.peerAddrsLocked.map fun (peerID, addr) =>
      { caller := n.id, peerID := peerID, addr := addr, req := {
          term := term
          candidateID := n.id
          lastLogIndex := lastIndex
          lastLogTerm := lastTerm } } })

/-- The section that makes the winner of an election leader, if it still stands. -/
def winElection (n : Node) (term : Nat) : Go (Node × List (Call AppendEntriesRequest)) :=
  if n.role = .candidate ∧ n.currentTerm = term then n.becomeLeaderLocked else pure (n, [])

def handleRequestVote (n : Node) (req : RequestVoteRequest) : Go (Node × RequestVoteResponse) := do
  if req.term < n.currentTerm then
    pure (n, { term := n.currentTerm, voteGranted := false })
  else
    let n := if req.term > n.currentTerm then n.becomeFollowerLocked req.term "" else n
    let (lastIndex, lastTerm) ← n.lastLogIndexTermLocked
    let upToDate := req.lastLogTerm > lastTerm ∨
      (req.lastLogTerm = lastTerm ∧ req.lastLogIndex ≥ lastIndex)
    if (n.votedFor = "" ∨ n.votedFor = req.candidateID) ∧ upToDate then
      pure ({ n with votedFor := req.candidateID },
        { term := n.currentTerm, voteGranted := true })
    else
      pure (n, { term := n.currentTerm, voteGranted := false })

/-- The loop that appends the received entries, each under its position. -/
def appendReceived (log : List Entry) : List Entry → List Entry
  | [] => log
  | e :: rest => appendReceived (log ++ [{ e with index := log.length }]) rest

/-- The log after an accepted request: cut behind `PrevLogIndex`, then extended. -/
def storeEntries (n : Node) (req : AppendEntriesRequest) : Node :=
  let insertAt := req.prevLogIndex + 1
  let log := if insertAt < n.log.length then n.log.take insertAt else n.log
  { n with log := appendReceived log req.entries }

inductive AppendStatus
  | rejected
  | stored
  | committed
  deriving DecidableEq, Repr

/-- `HandleAppendEntries` up to its call of `applyCommittedLocked`, which only
the status `committed` makes. -/
def handleAppendEntries (n : Node) (req : AppendEntriesRequest) : Go (Node × AppendStatus) := do
  if req.term < n.currentTerm then
    pure (n, .rejected)
  else
    let n :=
      if req.term > n.currentTerm ∨ n.role ≠ .follower
      then n.becomeFollowerLocked req.term req.leaderID
      else { n with leaderID := req.leaderID }
    if req.prevLogIndex ≥ n.log.length then
      pure (n, .rejected)
    else
      let prev ← n.logAt req.prevLogIndex
      if prev.term ≠ req.prevLogTerm then
        pure (n, .rejected)
      else
        let n := n.storeEntries req
        if req.leaderCommit > n.commitIndex then
          let lastNewIndex := n.log.length - 1
          pure ({ n with commitIndex := min64 req.leaderCommit lastNewIndex }, .committed)
        else
          pure (n, .stored)

/-- How many nodes are known to store the entry at `index`, the node itself included. -/
def ackCount (n : Node) (index : Nat) : Nat :=
  1 + ((n.peers.keys.filter fun id => id ≠ n.id).filter fun id =>
    (n.matchIndex.lookup id).getD 0 ≥ index).length

/-- The loop of the response handler over the indices above `commitIndex`. -/
def advanceCommit (n : Node) : List Nat → Go Node
  | [] => pure n
  | index :: rest => do
      let e ← n.logAt index
      if e.term ≠ n.currentTerm then n.advanceCommit rest
      else if n.ackCount index ≥ n.peers.keys.length / 2 + 1 then
        advanceCommit { n with commitIndex := index } rest
      else n.advanceCommit rest

def uncommitted (n : Node) : List Nat :=
  List.range' (n.commitIndex + 1) (n.log.length - (n.commitIndex + 1))

def recordMatch (n : Node) (peerID : String) (req : AppendEntriesRequest) : Node :=
  match req.entries.getLast? with
  | none => n
  | some last => { n with
      matchIndex := n.matchIndex.insert peerID last.index
      nextIndex := n.nextIndex.insert peerID (last.index + 1) }

inductive ResponseStatus
  | done (calls : List (Call AppendEntriesRequest))
  | apply

/-- The response handler of `replicateLocked` up to its call of
`applyCommittedLocked`, made on the status `apply`. A transport error ends the
goroutine without touching the node. -/
def handleAppendResponse (n : Node) (peerID : String) (req : AppendEntriesRequest)
    (resp : AppendEntriesResponse) : Go (Node × ResponseStatus) := do
  if resp.term > n.currentTerm then
    pure (n.becomeFollowerLocked resp.term "", .done [])
  else if n.role ≠ .leader ∨ req.term ≠ n.currentTerm then
    pure (n, .done [])
  else if resp.success = false then
    let next := (n.nextIndex.lookup peerID).getD 0
    let n := if next > 1 then { n with nextIndex := n.nextIndex.insert peerID (next - 1) } else n
    let (n, calls) ← n.replicateLocked
    pure (n, .done calls)
  else
    let n := n.recordMatch peerID req
    let n ← n.advanceCommit n.uncommitted
    pure (n, .apply)

/-- An entry taken for application: its index and the waiter found at that index. -/
structure Delivery where
  index : Nat
  entry : Entry
  prop : Option Proposal
  deriving DecidableEq, Repr

def popCommitted (n : Node) : Go (Option (Node × Delivery)) := do
  if n.lastApplied < n.commitIndex then
    let index := n.lastApplied + 1
    let entry ← n.logAt index
    pure (some ({ n with lastApplied := index },
      { index := index, entry := entry, prop := n.proposals.lookup index }))
  else
    pure none

/-- After the callback: the waiter's channel to notify, if any. The proposal
deleted is the one at the current `lastApplied`. -/
def finishApply (n : Node) (d : Delivery) : Node × Option Nat :=
  match d.prop with
  | none => (n, none)
  | some prop => ({ n with proposals := n.proposals.erase n.lastApplied }, some prop.notify)

/-- `Propose` on a leader, up to the choice between committing and replicating. -/
def appendProposal (n : Node) (cmd : Command) : Node × Entry :=
  let index := n.log.length
  let entry := { term := n.currentTerm, index := index, command := cmd }
  ({ n with
    log := n.log ++ [entry]
    proposals := n.proposals.insert index { command := cmd, notify := n.channels }
    channels := n.channels + 1 }, entry)

def cancelProposal (n : Node) (index : Nat) : Node :=
  { n with proposals := n.proposals.erase index }

/-- `AddPeer` up to its first Unlock, and whether it goes on to replicate. -/
def addPeer (n : Node) (id addr : String) : Node × Bool :=
  let n := { n with peers := n.peers.insert id addr }
  if n.role = .leader then
    ({ n with
      nextIndex := n.nextIndex.insert id n.log.length
      matchIndex := n.matchIndex.insert id 0 }, true)
  else (n, false)

def removePeer (n : Node) (id : String) : Node :=
  { n with
    peers := n.peers.erase id
    nextIndex := n.nextIndex.erase id
    matchIndex := n.matchIndex.erase id }

def isLeader (n : Node) : Bool :=
  n.role = .leader

/-- The address of the known leader. A leader that is not among the peers has none. -/
def leaderAddr (n : Node) : String :=
  if n.leaderID = "" then ""
  else if n.leaderID = n.id then n.addr
  else (n.peers.lookup n.leaderID).getD ""

/-- A snapshot of the Raft state. -/
structure Status where
  id : String
  role : Role
  term : Nat
  leaderID : String
  commitIndex : Nat
  lastApplied : Nat
  logLength : Nat
  deriving DecidableEq, Repr

def status (n : Node) : Status where
  id := n.id
  role := n.role
  term := n.currentTerm
  leaderID := n.leaderID
  commitIndex := n.commitIndex
  lastApplied := n.lastApplied
  logLength := n.log.length

end Node
end DistributedCache.Raft
