import DistributedCache.Cluster.Ring
import DistributedCache.Lib.Transition
import DistributedCache.Raft.Node

/-!
A deployment of Raft nodes as a transition system.

One step is one critical section of one node, or one step of a goroutine that
does not hold the mutex. RPC requests and responses are in flight until they are
delivered, in any order and each at most once, or lost. A handler that releases
the mutex inside `applyCommittedLocked` leaves a task behind, so the sections of
other handlers can run before it resumes; a run in which every task is resumed
at once is a run of atomic handlers.

A lost request or response ends the calling goroutine with an error and changes
nothing else: the zero response that comes with the error has term 0.
-/
namespace DistributedCache.Raft

open Cluster (Ring RingConfig newCluster newRing)

/-- The variables that the vote goroutines of one election share. -/
structure Election where
  majority : Nat
  votes : Nat
  once : Bool
  deriving DecidableEq, Repr

/-- What a goroutine goes on to do after `applyCommittedLocked` returns. -/
inductive Cont
  | propose
  | appendEntries (call : Call AppendEntriesRequest)
  | appendResponse
  deriving DecidableEq, Repr

/-- Where a goroutine is between the Unlock and the Lock around a callback. The
phases `addPeer`, `replicate` and `removePeer` are the sections the callback of
`cmd/node` itself takes. -/
inductive Phase
  | pending
  | running
  | addPeer
  | replicate
  | removePeer
  | returned
  deriving DecidableEq, Repr

/-- A goroutine in the middle of its work that does not hold the mutex. -/
inductive Task
  | electing (term : Nat)
  | counting (term : Nat) (peerID : String)
  | winning (term : Nat)
  | applying (d : Node.Delivery) (phase : Phase) (k : Cont)
  deriving DecidableEq, Repr

/-- A `Propose` call in its final select. -/
structure Waiting where
  index : Nat
  entry : Entry
  notify : Nat
  deriving DecidableEq, Repr

structure Proc where
  node : Node
  ring : Ring
  elections : GoMap Nat Election
  tasks : List Task
  waiting : List Waiting
  /-- Channels that hold a `nil` nobody has received yet. -/
  ready : List Nat

inductive Msg
  | voteCall (call : Call RequestVoteRequest)
  | voteReply (call : Call RequestVoteRequest) (resp : RequestVoteResponse)
  | appendCall (call : Call AppendEntriesRequest)
  | appendReply (call : Call AppendEntriesRequest) (resp : AppendEntriesResponse)
  deriving DecidableEq, Repr

/-- What can be seen from outside: callbacks and successful `Propose` calls. -/
inductive Event
  | applyBegin (node : String) (index : Nat) (entry : Entry)
  | applyEnd (node : String) (index : Nat)
  | proposeNil (node : String) (index : Nat) (entry : Entry)
  deriving DecidableEq, Repr

structure Sys where
  procs : String → Proc
  net : List Msg
  /-- Most recent first. -/
  events : List Event

def Sys.node (σ : Sys) (i : String) : Node :=
  (σ.procs i).node

/-- What a section of one process leaves behind. -/
structure Out where
  proc : Proc
  sent : List Msg := []
  events : List Event := []

namespace Proc

def resumeCont (p : Proc) : Cont → Go Out
  | .propose => pure { proc := p }
  | .appendEntries call =>
      pure { proc := p, sent := [.appendReply call ⟨p.node.currentTerm, true⟩] }
  | .appendResponse => do
      let (n, calls) ← p.node.replicateLocked
      pure { proc := { p with node := n }, sent := calls.map .appendCall }

/-- The head of the loop in `applyCommittedLocked`. -/
def applyCommitted (p : Proc) (k : Cont) : Go Out := do
  match ← p.node.popCommitted with
  | some (n, d) =>
      pure { proc := { p with node := n, tasks := p.tasks ++ [.applying d .pending k] } }
  | none => p.resumeCont k

def timeout (p : Proc) : Go Out :=
  if p.node.role = .leader then .error .disabled
  else do
    let (n, el) ← p.node.startElectionLocked
    if n.peerAddrsLocked = [] then
      pure { proc := { p with node := n, tasks := p.tasks ++ [.electing el.term] } }
    else
      pure {
        proc := { p with
          node := n
          elections := p.elections.insert el.term ⟨el.majority, 1, false⟩ }
        sent := el.calls.map .voteCall }

def heartbeat (p : Proc) : Go Out :=
  if p.node.role ≠ .leader then .error .disabled
  else do
    let (n, calls) ← p.node.replicateLocked
    pure { proc := { p with node := n }, sent := calls.map .appendCall }

/-- `Propose`: on a node that is not leader it returns `ErrNotLeader`. -/
def propose (p : Proc) (cmd : Command) : Go Out :=
  if p.node.role ≠ .leader then pure { proc := p }
  else
    let (n, entry) := p.node.appendProposal cmd
    let w : Waiting := ⟨entry.index, entry, p.node.channels⟩
    let p := { p with node := n, waiting := p.waiting ++ [w] }
    if n.peerAddrsLocked = [] then
      { p with node := { n with commitIndex := entry.index } }.applyCommitted .propose
    else do
      let (n, calls) ← n.replicateLocked
      pure { proc := { p with node := n }, sent := calls.map .appendCall }

def receive (p : Proc) : Msg → Go Out
  | .voteCall call => do
      let (n, resp) ← p.node.handleRequestVote call.req
      pure { proc := { p with node := n }, sent := [.voteReply call resp] }
  | .voteReply call resp =>
      if resp.term > p.node.currentTerm then
        pure { proc := { p with node := p.node.becomeFollowerLocked resp.term "" } }
      else if resp.voteGranted then
        pure { proc := { p with tasks := p.tasks ++ [.counting call.req.term call.peerID] } }
      else pure { proc := p }
  | .appendCall call => do
      let (n, status) ← p.node.handleAppendEntries call.req
      let p := { p with node := n }
      match status with
      | .rejected =>
          pure { proc := p, sent := [.appendReply call ⟨n.currentTerm, false⟩] }
      | .stored => pure { proc := p, sent := [.appendReply call ⟨n.currentTerm, true⟩] }
      | .committed => p.applyCommitted (.appendEntries call)
  | .appendReply call resp => do
      let (n, status) ← p.node.handleAppendResponse call.peerID call.req resp
      let p := { p with node := n }
      match status with
      | .done calls => pure { proc := p, sent := calls.map .appendCall }
      | .apply => p.applyCommitted .appendResponse

def win (p : Proc) (term : Nat) : Go Out := do
  let (n, calls) ← p.node.winElection term
  pure { proc := { p with node := n }, sent := calls.map .appendCall }

/-- `votes++` and the comparison with the majority; the first goroutine past it
goes on to lock the node. -/
def count (p : Proc) (term : Nat) : Go Out :=
  match p.elections.lookup term with
  | none => .error .disabled
  | some e =>
      let votes := e.votes + 1
      if votes ≥ e.majority ∧ e.once = false then
        pure { proc := { p with
          elections := p.elections.insert term ⟨e.majority, votes, true⟩
          tasks := p.tasks ++ [.winning term] } }
      else
        pure { proc := { p with
          elections := p.elections.insert term ⟨e.majority, votes, e.once⟩ } }

/-- The callback of `cmd/node` up to its first section on the node: the ring
changes first, and an error from it ends the callback. -/
def callback (p : Proc) (cmd : Command) : Proc × Phase :=
  match cmd.type with
  | .noop | .other _ => (p, .returned)
  | .addMember =>
      match p.ring.addNode ⟨cmd.nodeID, cmd.addr⟩ with
      | .ok r => ({ p with ring := r }, .addPeer)
      | .error _ => (p, .returned)
  | .removeMember =>
      match p.ring.removeNode cmd.nodeID with
      | .ok r => ({ p with ring := r }, .removePeer)
      | .error _ => (p, .returned)

/-- The goroutine is now in another phase of the callback. -/
def toPhase (p : Proc) (k : Nat) (d : Node.Delivery) (phase : Phase) (c : Cont) : Out where
  proc := { p with tasks := p.tasks.set k (.applying d phase c) }
  events := if phase = .returned then [.applyEnd p.node.id d.index] else []

/-- One step of a goroutine that is applying an entry. -/
def stepApply (membership : Bool) (p : Proc) (k : Nat) (d : Node.Delivery) (phase : Phase)
    (c : Cont) : Go Out :=
  match phase with
  | .pending =>
      pure { p.toPhase k d .running c with events := [.applyBegin p.node.id d.index d.entry] }
  | .running =>
      if membership then
        let (p, next) := p.callback d.entry.command
        pure (p.toPhase k d next c)
      else pure (p.toPhase k d .returned c)
  | .addPeer =>
      let (n, replicate) := p.node.addPeer d.entry.command.nodeID d.entry.command.addr
      pure ({ p with node := n }.toPhase k d (if replicate then .replicate else .returned) c)
  | .replicate => do
      let (n, calls) ← p.node.replicateLocked
      pure { { p with node := n }.toPhase k d .returned c with sent := calls.map .appendCall }
  | .removePeer =>
      pure ({ p with node := p.node.removePeer d.entry.command.nodeID }.toPhase k d .returned c)
  | .returned =>
      let (n, notified) := p.node.finishApply d
      { p with
        node := n
        tasks := p.tasks.eraseIdx k
        ready := p.ready ++ notified.toList }.applyCommitted c

def resume (membership : Bool) (p : Proc) (k : Nat) : Go Out :=
  match p.tasks[k]? with
  | none => .error .disabled
  | some (.electing term) => { p with tasks := p.tasks.eraseIdx k }.win term
  | some (.winning term) => { p with tasks := p.tasks.eraseIdx k }.win term
  | some (.counting term _) => { p with tasks := p.tasks.eraseIdx k }.count term
  | some (.applying d phase c) => p.stepApply membership k d phase c

/-- A waiting `Propose` call receives its notification and returns nil. -/
def wake (p : Proc) (k : Nat) : Go Out :=
  match p.waiting[k]? with
  | none => .error .disabled
  | some w =>
      if w.notify ∈ p.ready then
        pure {
          proc := { p with waiting := p.waiting.eraseIdx k, ready := p.ready.erase w.notify }
          events := [.proposeNil p.node.id w.index w.entry] }
      else .error .disabled

/-- The context of a waiting `Propose` call ends first. -/
def cancel (p : Proc) (k : Nat) : Go Out :=
  match p.waiting[k]? with
  | none => .error .disabled
  | some w => pure { proc := { p with
      waiting := p.waiting.eraseIdx k
      node := p.node.cancelProposal w.index } }

end Proc

/-- How the nodes are started: their ids and addresses, the peers each is given,
and whether the apply callback is the one of `cmd/node` or leaves the node alone. -/
structure Setup where
  members : List Cluster.Node
  peerNodes : String → List Cluster.Node
  ringCfg : RingConfig
  membership : Bool

namespace Setup

def ids (S : Setup) : List String :=
  S.members.map Cluster.Node.id

def peerMap (S : Setup) (i : String) : GoMap String String :=
  GoMap.ofList ((S.peerNodes i).map fun p => (p.id, p.addr))

def startProc (S : Setup) (m : Cluster.Node) : Proc where
  node := newNode m.id m.addr (S.peerMap m.id)
  ring := match newCluster m (S.peerNodes m.id) S.ringCfg with
    | .ok r => r
    | .error _ => newRing S.ringCfg
  elections := ∅
  tasks := []
  waiting := []
  ready := []

def start (S : Setup) : Sys where
  procs i := S.startProc ((S.members.find? fun m => m.id = i).getD ⟨i, ""⟩)
  net := []
  events := []

/-- The node listening at an address. -/
def resolve (S : Setup) (σ : Sys) (addr : String) : Option String :=
  S.ids.find? fun i => (σ.node i).addr = addr

/-- The node that a message in flight is handled by. -/
def target (S : Setup) (σ : Sys) : Msg → Option String
  | .voteCall call => S.resolve σ call.addr
  | .appendCall call => S.resolve σ call.addr
  | .voteReply call _ => S.ids.find? fun i => i = call.caller
  | .appendReply call _ => S.ids.find? fun i => i = call.caller

end Setup

inductive Action
  | timeout (i : String)
  | heartbeat (i : String)
  | propose (i : String) (cmd : Command)
  | deliver (k : Nat)
  | lose (k : Nat)
  | resume (i : String) (k : Nat)
  | wake (i : String) (k : Nat)
  | cancel (i : String) (k : Nat)
  deriving DecidableEq, Repr

def Sys.put (σ : Sys) (i : String) (net : List Msg) (o : Out) : Sys where
  procs := Function.update σ.procs i o.proc
  net := net ++ o.sent
  events := o.events ++ σ.events

/-- The section of one process that an action runs, for actions of a process. -/
def Proc.act (membership : Bool) (p : Proc) : Action → Go Out
  | .timeout _ => p.timeout
  | .heartbeat _ => p.heartbeat
  | .propose _ cmd => p.propose cmd
  | .resume _ k => p.resume membership k
  | .wake _ k => p.wake k
  | .cancel _ k => p.cancel k
  | .deliver _ | .lose _ => .error .disabled

def Action.actor : Action → Option String
  | .timeout i | .heartbeat i | .propose i _ | .resume i _ | .wake i _ | .cancel i _ => some i
  | .deliver _ | .lose _ => none

def exec (S : Setup) (σ : Sys) (a : Action) : Go Sys :=
  match a with
  | .lose k =>
      if k < σ.net.length then pure { σ with net := σ.net.eraseIdx k } else .error .disabled
  | .deliver k =>
      match σ.net[k]? with
      | none => .error .disabled
      | some m =>
          match S.target σ m with
          | none => pure { σ with net := σ.net.eraseIdx k }
          | some i => do
              let o ← (σ.procs i).receive m
              pure (σ.put i (σ.net.eraseIdx k) o)
  | a =>
      match a.actor with
      | none => .error .disabled
      | some i =>
          if i ∈ S.ids then do
            let o ← (σ.procs i).act S.membership a
            pure (σ.put i σ.net o)
          else .error .disabled

/-- The transition system of a deployment. -/
def system (S : Setup) : Transition.System Sys Action :=
  Transition.ofExec (fun σ => σ = S.start) (exec S)

abbrev Run (S : Setup) (past : List (Sys × Action)) (σ : Sys) : Prop :=
  Transition.Run (system S) past σ

/-- Runs given by their actions are checked by evaluation. -/
theorem Run.of_actions (S : Setup) (actions : List Action)
    (check : List (Sys × Action) → Sys → Bool)
    (h : (Transition.trace (exec S) [] S.start actions).any (fun r => check r.1 r.2) = true) :
    ∃ past σ, Run S past σ ∧ check past σ = true :=
  Transition.Run.of_trace (fun σ => σ = S.start) rfl actions check h

end DistributedCache.Raft
