import DistributedCache.Raft.Sections
import DistributedCache.Raft.System

/-!
What one step of a deployment can do. A step either drops a message or lets one
process handle its input, and `Handles` lists every way in which a process can.
Proofs about runs split on it and do not unfold the handlers again.
-/
namespace DistributedCache.Raft

/-- The process as it waits for the entry it has just proposed. -/
def Proc.proposed (p : Proc) (cmd : Command) : Proc :=
  { p with
    node := (p.node.appendProposal cmd).1
    waiting := p.waiting ++
      [⟨(p.node.appendProposal cmd).2.index, (p.node.appendProposal cmd).2, p.node.channels⟩] }

/-- A proposal adds an entry at the end of the log only. -/
theorem Proc.log_of_proposed {p : Proc} {cmd : Command} {k : Nat} {e : Entry}
    (other : k ≠ p.node.log.length) (he : (p.proposed cmd).node.log[k]? = some e) :
    p.node.log[k]? = some e := by
  have he : (p.node.log ++ [(p.node.appendProposal cmd).2])[k]? = some e := he
  rw [List.getElem?_append] at he
  split at he
  · exact he
  · exact absurd (List.getElem?_eq_some_iff.mp he).1 (by simp; omega)

/-- The process after one more vote has been counted. -/
def Proc.counted (p : Proc) (k term : Nat) (e : Election) : Proc :=
  { p with
    tasks := p.tasks.eraseIdx k
    elections := p.elections.insert term
      ⟨e.majority, e.votes + 1, e.once || decide (e.majority ≤ e.votes + 1)⟩ }

/-- The process after a callback of `cmd/node` has changed the ring. -/
def Proc.afterCallback (membership : Bool) (p : Proc) (cmd : Command) : Proc × Phase :=
  if membership then p.callback cmd else (p, .returned)

/-- The callback leaves the process as it is but for the ring, and has begun. -/
theorem Proc.afterCallback_ring (membership : Bool) (p : Proc) (cmd : Command) :
    ∃ ring, (p.afterCallback membership cmd).1 = { p with ring := ring } ∧
      (p.afterCallback membership cmd).2 ≠ .pending := by
  unfold Proc.afterCallback Proc.callback
  cases membership with
  | false => exact ⟨p.ring, rfl, by simp⟩
  | true =>
      rw [if_pos rfl]
      cases cmd.type with
      | noop | other => exact ⟨p.ring, rfl, by simp⟩
      | addMember | removeMember =>
          dsimp only
          split
          · exact ⟨_, rfl, by simp⟩
          · exact ⟨p.ring, rfl, by simp⟩

/-- The process after the goroutine of task `k` has taken the mutex back. -/
def Proc.finished (p : Proc) (k : Nat) (d : Node.Delivery) : Proc :=
  { p with
    node := (p.node.finishApply d).1
    tasks := p.tasks.eraseIdx k
    ready := p.ready ++ (p.node.finishApply d).2.toList }

/-- What a process handles: a message it receives, or an action of its own. -/
inductive Input
  | message (m : Msg)
  | act (a : Action)

def Input.received : Input → List Msg
  | .message m => [m]
  | .act _ => []

/-- The ways in which a process handles its input. -/
inductive Handles (membership : Bool) (p : Proc) : Input → Out → Prop
  | standAlone {i : String} (n : Node) (el : Node.Candidacy) (idle : p.node.role ≠ .leader)
      (h : p.node.startElectionLocked = .ok (n, el)) (alone : n.peerAddrsLocked = []) :
      Handles membership p (.act (.timeout i))
        { proc := { p with node := n, tasks := p.tasks ++ [.electing el.term] } }
  | stand {i : String} (n : Node) (el : Node.Candidacy) (idle : p.node.role ≠ .leader)
      (h : p.node.startElectionLocked = .ok (n, el)) (peers : n.peerAddrsLocked ≠ []) :
      Handles membership p (.act (.timeout i)) {
        proc := { p with
          node := n
          elections := p.elections.insert el.term ⟨el.majority, 1, false⟩ }
        sent := el.calls.map .voteCall }
  | heartbeat {i : String} (n : Node) (calls : List (Call AppendEntriesRequest))
      (leads : p.node.role = .leader) (h : p.node.replicateLocked = .ok (n, calls)) :
      Handles membership p (.act (.heartbeat i))
        { proc := { p with node := n }, sent := calls.map .appendCall }
  | refuse {i : String} {cmd : Command} : Handles membership p (.act (.propose i cmd)) { proc := p }
  | proposeAlone {i : String} (cmd : Command) (o : Out) (leads : p.node.role = .leader)
      (alone : p.node.peerAddrsLocked = [])
      (h : Proc.applyCommitted { p.proposed cmd with
        node := { (p.proposed cmd).node with commitIndex := p.node.log.length } } .propose =
          .ok o) :
      Handles membership p (.act (.propose i cmd)) o
  | propose {i : String} (cmd : Command) (n : Node) (calls : List (Call AppendEntriesRequest))
      (leads : p.node.role = .leader) (peers : p.node.peerAddrsLocked ≠ [])
      (h : (p.proposed cmd).node.replicateLocked = .ok (n, calls)) :
      Handles membership p (.act (.propose i cmd))
        { proc := { p.proposed cmd with node := n }, sent := calls.map .appendCall }
  | vote (call : Call RequestVoteRequest) (n : Node) (resp : RequestVoteResponse)
      (h : p.node.handleRequestVote call.req = .ok (n, resp)) :
      Handles membership p (.message (.voteCall call))
        { proc := { p with node := n }, sent := [.voteReply call resp] }
  | outvoted (call : Call RequestVoteRequest) (resp : RequestVoteResponse)
      (newer : p.node.currentTerm < resp.term) :
      Handles membership p (.message (.voteReply call resp))
        { proc := { p with node := p.node.becomeFollowerLocked resp.term "" } }
  | granted (call : Call RequestVoteRequest) (resp : RequestVoteResponse)
      (granted : resp.voteGranted = true) :
      Handles membership p (.message (.voteReply call resp))
        { proc := { p with tasks := p.tasks ++ [.counting call.req.term call.peerID] } }
  | denied (call : Call RequestVoteRequest) (resp : RequestVoteResponse) :
      Handles membership p (.message (.voteReply call resp)) { proc := p }
  | rejected (call : Call AppendEntriesRequest) (n : Node)
      (h : p.node.handleAppendEntries call.req = .ok (n, .rejected)) :
      Handles membership p (.message (.appendCall call))
        { proc := { p with node := n }, sent := [.appendReply call ⟨n.currentTerm, false⟩] }
  | stored (call : Call AppendEntriesRequest) (n : Node)
      (h : p.node.handleAppendEntries call.req = .ok (n, .stored)) :
      Handles membership p (.message (.appendCall call))
        { proc := { p with node := n }, sent := [.appendReply call ⟨n.currentTerm, true⟩] }
  | committed (call : Call AppendEntriesRequest) (n : Node) (o : Out)
      (h : p.node.handleAppendEntries call.req = .ok (n, .committed))
      (apply : Proc.applyCommitted { p with node := n } (.appendEntries call) = .ok o) :
      Handles membership p (.message (.appendCall call)) o
  | answered (call : Call AppendEntriesRequest) (resp : AppendEntriesResponse) (n : Node)
      (calls : List (Call AppendEntriesRequest))
      (h : p.node.handleAppendResponse call.peerID call.req resp = .ok (n, .done calls)) :
      Handles membership p (.message (.appendReply call resp))
        { proc := { p with node := n }, sent := calls.map .appendCall }
  | acknowledged (call : Call AppendEntriesRequest) (resp : AppendEntriesResponse) (n : Node)
      (o : Out)
      (h : p.node.handleAppendResponse call.peerID call.req resp = .ok (n, .apply))
      (apply : Proc.applyCommitted { p with node := n } .appendResponse = .ok o) :
      Handles membership p (.message (.appendReply call resp)) o
  | win {i : String} (k term : Nat) (n : Node) (calls : List (Call AppendEntriesRequest))
      (task : p.tasks[k]? = some (.electing term) ∨ p.tasks[k]? = some (.winning term))
      (h : p.node.winElection term = .ok (n, calls)) :
      Handles membership p (.act (.resume i k)) {
        proc := { p with node := n, tasks := p.tasks.eraseIdx k }
        sent := calls.map .appendCall }
  | count {i : String} (k term : Nat) (peerID : String) (e : Election)
      (task : p.tasks[k]? = some (.counting term peerID))
      (election : p.elections.lookup term = some e)
      (few : ¬ (e.votes + 1 ≥ e.majority ∧ e.once = false)) :
      Handles membership p (.act (.resume i k)) { proc := p.counted k term e }
  | countLast {i : String} (k term : Nat) (peerID : String) (e : Election)
      (task : p.tasks[k]? = some (.counting term peerID))
      (election : p.elections.lookup term = some e)
      (enough : e.majority ≤ e.votes + 1) :
      Handles membership p (.act (.resume i k)) { proc := { p.counted k term e with
        tasks := (p.counted k term e).tasks ++ [.winning term] } }
  | begin {i : String} (k : Nat) (d : Node.Delivery) (c : Cont)
      (task : p.tasks[k]? = some (.applying d .pending c)) :
      Handles membership p (.act (.resume i k)) { p.toPhase k d .running c with
        events := [.applyBegin p.node.id d.index d.entry] }
  | run {i : String} (k : Nat) (d : Node.Delivery) (c : Cont)
      (task : p.tasks[k]? = some (.applying d .running c)) :
      Handles membership p (.act (.resume i k))
        ((p.afterCallback membership d.entry.command).1.toPhase k d
          (p.afterCallback membership d.entry.command).2 c)
  | addPeer {i : String} (k : Nat) (d : Node.Delivery) (c : Cont)
      (task : p.tasks[k]? = some (.applying d .addPeer c)) :
      Handles membership p (.act (.resume i k)) (Proc.toPhase
        { p with node := (p.node.addPeer d.entry.command.nodeID d.entry.command.addr).1 } k d
        (if (p.node.addPeer d.entry.command.nodeID d.entry.command.addr).2
          then .replicate else .returned) c)
  | replicate {i : String} (k : Nat) (d : Node.Delivery) (c : Cont) (n : Node)
      (calls : List (Call AppendEntriesRequest))
      (task : p.tasks[k]? = some (.applying d .replicate c))
      (h : p.node.replicateLocked = .ok (n, calls)) :
      Handles membership p (.act (.resume i k))
        { Proc.toPhase { p with node := n } k d .returned c with
          sent := calls.map .appendCall }
  | removePeer {i : String} (k : Nat) (d : Node.Delivery) (c : Cont)
      (task : p.tasks[k]? = some (.applying d .removePeer c)) :
      Handles membership p (.act (.resume i k)) (Proc.toPhase
        { p with node := p.node.removePeer d.entry.command.nodeID } k d .returned c)
  | finish {i : String} (k : Nat) (d : Node.Delivery) (c : Cont) (o : Out)
      (task : p.tasks[k]? = some (.applying d .returned c))
      (h : (p.finished k d).applyCommitted c = .ok o) :
      Handles membership p (.act (.resume i k)) o
  | wake {i : String} (k : Nat) (w : Waiting) (waits : p.waiting[k]? = some w)
      (ready : w.notify ∈ p.ready) :
      Handles membership p (.act (.wake i k)) {
        proc := { p with waiting := p.waiting.eraseIdx k, ready := p.ready.erase w.notify }
        events := [.proposeNil p.node.id w.index w.entry] }
  | cancel {i : String} (k : Nat) (w : Waiting) (waits : p.waiting[k]? = some w) :
      Handles membership p (.act (.cancel i k)) { proc := { p with
        waiting := p.waiting.eraseIdx k
        node := p.node.cancelProposal w.index } }

namespace Handles

variable {membership : Bool} {p : Proc} {o : Out}

theorem of_timeout {i : String} (h : p.timeout = .ok o) :
    Handles membership p (.act (.timeout i)) o := by
  unfold Proc.timeout at h
  split at h
  · exact absurd h (by simp)
  · rename_i idle
    obtain ⟨⟨n, el⟩, hstart, h⟩ := Go.bind_eq_ok.mp h
    dsimp only at h
    split at h
    · rename_i alone
      obtain rfl := Go.pure_eq_ok.mp h
      exact standAlone n el idle hstart alone
    · rename_i peers
      obtain rfl := Go.pure_eq_ok.mp h
      exact stand n el idle hstart peers

theorem of_heartbeat {i : String} (h : p.heartbeat = .ok o) :
    Handles membership p (.act (.heartbeat i)) o := by
  unfold Proc.heartbeat at h
  split at h
  · exact absurd h (by simp)
  · rename_i leads
    obtain ⟨⟨n, calls⟩, hrep, h⟩ := Go.bind_eq_ok.mp h
    obtain rfl := Go.pure_eq_ok.mp h
    exact heartbeat n calls (not_not.mp leads) hrep

theorem of_propose {i : String} {cmd : Command} (h : p.propose cmd = .ok o) :
    Handles membership p (.act (.propose i cmd)) o := by
  unfold Proc.propose at h
  split at h
  · obtain rfl := Go.pure_eq_ok.mp h
    exact refuse
  · rename_i leads
    have leads := not_not.mp leads
    dsimp only at h
    split at h
    · rename_i alone
      exact proposeAlone cmd o leads alone h
    · rename_i peers
      obtain ⟨⟨n, calls⟩, hrep, h⟩ := Go.bind_eq_ok.mp h
      obtain rfl := Go.pure_eq_ok.mp h
      exact propose cmd n calls leads peers hrep

theorem of_receive {m : Msg} (h : p.receive m = .ok o) :
    Handles membership p (.message m) o := by
  cases m with
  | voteCall call =>
      obtain ⟨⟨n, resp⟩, hvote, h⟩ := Go.bind_eq_ok.mp h
      obtain rfl := Go.pure_eq_ok.mp h
      exact vote call n resp hvote
  | voteReply call resp =>
      simp only [Proc.receive] at h
      split at h
      · rename_i newer
        obtain rfl := Go.pure_eq_ok.mp h
        exact outvoted call resp newer
      · split at h
        · rename_i yes
          obtain rfl := Go.pure_eq_ok.mp h
          exact granted call resp yes
        · obtain rfl := Go.pure_eq_ok.mp h
          exact denied call resp
  | appendCall call =>
      obtain ⟨⟨n, status⟩, happ, h⟩ := Go.bind_eq_ok.mp h
      cases status with
      | rejected =>
          obtain rfl := Go.pure_eq_ok.mp h
          exact rejected call n happ
      | stored =>
          obtain rfl := Go.pure_eq_ok.mp h
          exact stored call n happ
      | committed => exact committed call n o happ h
  | appendReply call resp =>
      obtain ⟨⟨n, status⟩, hresp, h⟩ := Go.bind_eq_ok.mp h
      cases status with
      | done calls =>
          obtain rfl := Go.pure_eq_ok.mp h
          exact answered call resp n calls hresp
      | apply => exact acknowledged call resp n o hresp h

theorem of_win {i : String} {k term : Nat}
    (task : p.tasks[k]? = some (.electing term) ∨ p.tasks[k]? = some (.winning term))
    (h : Proc.win { p with tasks := p.tasks.eraseIdx k } term = .ok o) :
    Handles membership p (.act (.resume i k)) o := by
  obtain ⟨⟨n, calls⟩, hwin, h⟩ := Go.bind_eq_ok.mp h
  obtain rfl := Go.pure_eq_ok.mp h
  exact win k term n calls task hwin

theorem of_count {i : String} {k term : Nat} {peerID : String}
    (task : p.tasks[k]? = some (.counting term peerID))
    (h : Proc.count { p with tasks := p.tasks.eraseIdx k } term = .ok o) :
    Handles membership p (.act (.resume i k)) o := by
  unfold Proc.count at h
  split at h
  · exact absurd h (by simp)
  · rename_i e election
    dsimp only at h election
    split at h
    · rename_i last
      obtain rfl := Go.pure_eq_ok.mp h
      have last' : Handles membership p (.act (.resume i k)) _ :=
        countLast k term peerID e task election last.1
      simpa [Proc.counted, last.1, last.2] using last'
    · rename_i few
      obtain rfl := Go.pure_eq_ok.mp h
      have counted : Handles membership p (.act (.resume i k)) _ :=
        count k term peerID e task election few
      have hkept : (e.once || decide (e.majority ≤ e.votes + 1)) = e.once := by
        cases honce : e.once with
        | true => rfl
        | false =>
            have : ¬ e.majority ≤ e.votes + 1 := fun hle => few ⟨hle, honce⟩
            simp [this]
      simpa [Proc.counted, hkept] using counted

theorem of_stepApply {i : String} {k : Nat} {d : Node.Delivery} {phase : Phase} {c : Cont}
    (task : p.tasks[k]? = some (.applying d phase c))
    (h : p.stepApply membership k d phase c = .ok o) :
    Handles membership p (.act (.resume i k)) o := by
  cases phase with
  | pending =>
      obtain rfl := Go.pure_eq_ok.mp h
      exact begin k d c task
  | running =>
      have hrun : Handles membership p (.act (.resume i k)) _ := run k d c task
      cases membership with
      | true =>
          obtain rfl := Go.pure_eq_ok.mp h
          exact hrun
      | false =>
          obtain rfl := Go.pure_eq_ok.mp h
          exact hrun
  | addPeer =>
      obtain rfl := Go.pure_eq_ok.mp h
      exact addPeer k d c task
  | replicate =>
      obtain ⟨⟨n, calls⟩, hrep, h⟩ := Go.bind_eq_ok.mp h
      obtain rfl := Go.pure_eq_ok.mp h
      exact replicate k d c n calls task hrep
  | removePeer =>
      obtain rfl := Go.pure_eq_ok.mp h
      exact removePeer k d c task
  | returned => exact finish k d c o task h

theorem of_act {a : Action} (h : p.act membership a = .ok o) :
    Handles membership p (.act a) o := by
  cases a with
  | timeout i => exact of_timeout h
  | heartbeat i => exact of_heartbeat h
  | propose i cmd => exact of_propose h
  | deliver k => exact absurd h (by simp [Proc.act])
  | lose k => exact absurd h (by simp [Proc.act])
  | resume i k =>
      simp only [Proc.act, Proc.resume] at h
      split at h
      · exact absurd h (by simp)
      · rename_i term task
        exact of_win (.inl task) h
      · rename_i term task
        exact of_win (.inr task) h
      · rename_i term peerID task
        exact of_count task h
      · rename_i d phase c task
        exact of_stepApply task h
  | wake i k =>
      simp only [Proc.act, Proc.wake] at h
      split at h
      · exact absurd h (by simp)
      · rename_i w waits
        split at h
        · rename_i ready
          obtain rfl := Go.pure_eq_ok.mp h
          exact wake k w waits ready
        · exact absurd h (by simp)
  | cancel i k =>
      simp only [Proc.act, Proc.cancel] at h
      split at h
      · exact absurd h (by simp)
      · rename_i w waits
        obtain rfl := Go.pure_eq_ok.mp h
        exact cancel k w waits

end Handles

/-- The loop of `applyCommittedLocked` takes the next entry or is over. -/
theorem Proc.applyCommitted_ok {p : Proc} {c : Cont} {o : Out}
    (h : p.applyCommitted c = .ok o) :
    (∃ n d, p.node.popCommitted = .ok (some (n, d)) ∧
      o = { proc := { p with node := n, tasks := p.tasks ++ [.applying d .pending c] } }) ∨
    (p.node.popCommitted = .ok none ∧ p.resumeCont c = .ok o) := by
  obtain ⟨popped, hpop, h⟩ := Go.bind_eq_ok.mp h
  cases popped with
  | none => exact .inr ⟨hpop, h⟩
  | some q =>
      obtain ⟨n, d⟩ := q
      exact .inl ⟨n, d, hpop, (Go.pure_eq_ok.mp h).symm⟩

/-- What the goroutine does once the loop is over. -/
theorem Proc.resumeCont_ok {p : Proc} {c : Cont} {o : Out} (h : p.resumeCont c = .ok o) :
    (c = .propose ∧ o = { proc := p }) ∨
    (∃ call, c = .appendEntries call ∧
      o = { proc := p, sent := [.appendReply call ⟨p.node.currentTerm, true⟩] }) ∨
    (c = .appendResponse ∧ ∃ n calls, p.node.replicateLocked = .ok (n, calls) ∧
      o = { proc := { p with node := n }, sent := calls.map .appendCall }) := by
  cases c with
  | propose => exact .inl ⟨rfl, (Go.pure_eq_ok.mp h).symm⟩
  | appendEntries call => exact .inr (.inl ⟨call, rfl, (Go.pure_eq_ok.mp h).symm⟩)
  | appendResponse =>
      obtain ⟨⟨n, calls⟩, hrep, h⟩ := Go.bind_eq_ok.mp h
      exact .inr (.inr ⟨rfl, n, calls, hrep, (Go.pure_eq_ok.mp h).symm⟩)

/-- What the loop sends when it is over: the answer to a request that was accepted, or new
requests after a response. -/
theorem Proc.applyCommitted_sent {p : Proc} {c : Cont} {o : Out} (h : p.applyCommitted c = .ok o) :
    o.sent = [] ∨ (∃ call, o.sent = [.appendReply call ⟨p.node.currentTerm, true⟩]) ∨
    (c = .appendResponse ∧ ∃ n calls, p.node.replicateLocked = .ok (n, calls) ∧
      o = { proc := { p with node := n }, sent := calls.map .appendCall }) := by
  rcases Proc.applyCommitted_ok h with ⟨n, d, _, rfl⟩ | ⟨_, hres⟩
  · exact .inl rfl
  · rcases Proc.resumeCont_ok hres with ⟨_, rfl⟩ | ⟨call, _, rfl⟩ | replicated
    · exact .inl rfl
    · exact .inr (.inl ⟨call, rfl⟩)
    · exact .inr (.inr replicated)

/-- The apply loop changes nothing of the node but `lastApplied` and `nextIndex`. -/
theorem Proc.applyCommitted_node {p : Proc} {c : Cont} {o : Out} (h : p.applyCommitted c = .ok o) :
    ∃ next applied, o.proc.node =
      { p.node with nextIndex := next, lastApplied := applied } := by
  rcases Proc.applyCommitted_ok h with ⟨n, d, hpop, rfl⟩ | ⟨_, hres⟩
  · obtain ⟨_, rfl, _⟩ := Node.popCommitted_ok hpop
    exact ⟨p.node.nextIndex, _, rfl⟩
  · rcases Proc.resumeCont_ok hres with ⟨_, rfl⟩ | ⟨call, _, rfl⟩ | ⟨_, n, calls, hrep, rfl⟩
    · exact ⟨p.node.nextIndex, p.node.lastApplied, rfl⟩
    · exact ⟨p.node.nextIndex, p.node.lastApplied, rfl⟩
    · obtain ⟨⟨next, rfl⟩, _⟩ := Node.replicateLocked_ok hrep
      exact ⟨next, p.node.lastApplied, rfl⟩

/-- A step drops a message, or one process handles a message or acts. -/
theorem exec_inv {S : Setup} {σ σ' : Sys} {a : Action} (h : exec S σ a = .ok σ') :
    (∃ k, (a = .deliver k ∨ a = .lose k) ∧ σ' = { σ with net := σ.net.eraseIdx k }) ∨
    (∃ k m i o, a = .deliver k ∧ σ.net[k]? = some m ∧ S.target σ m = some i ∧
      Handles S.membership (σ.procs i) (.message m) o ∧ σ' = σ.put i (σ.net.eraseIdx k) o) ∨
    (∃ i o, a.actor = some i ∧ i ∈ S.ids ∧ Handles S.membership (σ.procs i) (.act a) o ∧
      σ' = σ.put i σ.net o) := by
  have acts {a : Action} {i : String} (ha : a.actor = some i)
      (h : (if i ∈ S.ids then (do
        let o ← (σ.procs i).act S.membership a
        pure (σ.put i σ.net o)) else .error .disabled : Go Sys) = .ok σ') :
      ∃ i o, a.actor = some i ∧ i ∈ S.ids ∧ Handles S.membership (σ.procs i) (.act a) o ∧
        σ' = σ.put i σ.net o := by
    split at h
    · rename_i member
      obtain ⟨o, hact, h⟩ := Go.bind_eq_ok.mp h
      exact ⟨i, o, ha, member, Handles.of_act hact, (Go.pure_eq_ok.mp h).symm⟩
    · exact absurd h (by simp)
  cases a with
  | lose k =>
      simp only [exec] at h
      split at h
      · exact .inl ⟨k, .inr rfl, (Go.pure_eq_ok.mp h).symm⟩
      · exact absurd h (by simp)
  | deliver k =>
      simp only [exec] at h
      split at h
      · exact absurd h (by simp)
      · rename_i m hm
        split at h
        · exact .inl ⟨k, .inl rfl, (Go.pure_eq_ok.mp h).symm⟩
        · rename_i i hi
          obtain ⟨o, hrecv, h⟩ := Go.bind_eq_ok.mp h
          exact .inr (.inl ⟨k, m, i, o, rfl, hm, hi, Handles.of_receive hrecv,
            (Go.pure_eq_ok.mp h).symm⟩)
  | timeout i | heartbeat i | propose i _ | resume i _ | wake i _ | cancel i _ =>
      exact .inr (.inr (acts rfl h))

/-- The same without saying which step drops a message. -/
theorem exec_cases {S : Setup} {σ σ' : Sys} {a : Action} (h : exec S σ a = .ok σ') :
    (∃ k, σ' = { σ with net := σ.net.eraseIdx k }) ∨
    (∃ k m i o, a = .deliver k ∧ σ.net[k]? = some m ∧ S.target σ m = some i ∧
      Handles S.membership (σ.procs i) (.message m) o ∧ σ' = σ.put i (σ.net.eraseIdx k) o) ∨
    (∃ i o, a.actor = some i ∧ i ∈ S.ids ∧ Handles S.membership (σ.procs i) (.act a) o ∧
      σ' = σ.put i σ.net o) :=
  (exec_inv h).imp_left fun ⟨k, _, dropped⟩ => ⟨k, dropped⟩

end DistributedCache.Raft
