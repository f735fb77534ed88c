import DistributedCache.Raft.NodeSteps

/-!
What a handler does to the log and the commit index of its node, and what the
AppendEntries requests it sends say about them.
-/
namespace DistributedCache.Raft

variable {membership : Bool} {n n' : Node} {p : Proc} {m : Input} {o : Out}

theorem Node.Advance.congr {c : Nat} (h : n.Advance c) (id : n'.id = n.id)
    (peers : n'.peers = n.peers) (term : n'.currentTerm = n.currentTerm) (log : n'.log = n.log)
    (matched : n'.matchIndex = n.matchIndex) : n'.Advance c := by
  refine ⟨log ▸ h.below, ?_, ?_⟩
  · rw [log, term]
    exact h.own
  · rw [Node.ackCount, peers, id, matched]
    exact h.acks

/-- How a handler treats log and commit index. -/
inductive Commits (p : Proc) (m : Input) (n : Node) : Prop
  | longer (log : p.node.log <+: n.log) (commit : n.commitIndex = p.node.commitIndex)
  | alone (none : p.node.peerAddrsLocked = [])
  | stores (call : Call AppendEntriesRequest) (received : m = .message (.appendCall call))
      (accepts : p.node.Accepts call.req) (term : n.currentTerm = call.req.term)
      (follows : n.role = .follower)
      (log : n.log = (p.node.storeEntries call.req).log)
      (commit : n.commitIndex = p.node.commitIndex ∨ (p.node.commitIndex < call.req.leaderCommit ∧
        n.commitIndex = min64 call.req.leaderCommit
          (call.req.prevLogIndex + call.req.entries.length)))
  | advances (leads : n.role = .leader) (log : n.log = p.node.log)
      (newer : p.node.commitIndex < n.commitIndex) (advance : n.Advance n.commitIndex)

theorem Handles.commits (h : Handles membership p m o) :
    Commits p m o.proc.node := by
  have same {n : Node} (log : n.log = p.node.log) (commit : n.commitIndex = p.node.commitIndex) :
      Commits p m n := .longer (log ▸ List.prefix_rfl) commit
  have replicated {n' : Node} {calls : List (Call AppendEntriesRequest)}
      (hrep : p.node.replicateLocked = .ok (n', calls)) : Commits p m n' := by
    obtain ⟨⟨next, rfl⟩, _⟩ := Node.replicateLocked_ok hrep
    exact same rfl rfl
  cases h with
  | standAlone n el _ start _ =>
      obtain ⟨rfl, _⟩ := Node.startElectionLocked_ok start
      exact same rfl rfl
  | stand n el _ start _ =>
      obtain ⟨rfl, _⟩ := Node.startElectionLocked_ok start
      exact same rfl rfl
  | heartbeat n calls _ hrep => exact replicated hrep
  | refuse => exact same rfl rfl
  | proposeAlone cmd o _ none _ => exact .alone none
  | propose cmd n calls _ _ hrep =>
      obtain ⟨⟨next, rfl⟩, _⟩ := Node.replicateLocked_ok hrep
      exact .longer (List.prefix_append _ _) rfl
  | vote call n resp hvote =>
      have observed : (p.node.observeVote call.req).log = p.node.log ∧
          (p.node.observeVote call.req).commitIndex = p.node.commitIndex := by
        unfold Node.observeVote
        split <;> exact ⟨rfl, rfl⟩
      rcases Node.handleRequestVote_ok hvote with ⟨_, rfl, _⟩ | ⟨_, rfl, _⟩ | ⟨_, rfl, _⟩
      · exact same rfl rfl
      · exact same observed.1 observed.2
      · exact same observed.1 observed.2
  | outvoted call resp _ => exact same rfl rfl
  | granted call resp _ => exact same rfl rfl
  | denied call resp => exact same rfl rfl
  | rejected call n happ =>
      rcases Node.handleAppendEntries_rejected happ with ⟨_, rfl⟩ | ⟨_, rfl⟩
      · exact same rfl rfl
      · exact same (Node.observeLeader_log _ _) (Node.observeLeader_commitIndex _ _)
  | stored call n happ =>
      obtain ⟨accepts, rfl⟩ := Node.handleAppendEntries_stored happ
      exact .stores call rfl accepts (Node.observeLeader_currentTerm accepts.1)
        (Node.observeLeader_follower _ _) (Node.storeEntries_observeLeader _ _)
        (.inl (Node.observeLeader_commitIndex _ _))
  | committed call n o happ apply =>
      obtain ⟨accepts, newer, rfl⟩ := Node.handleAppendEntries_committed happ
      obtain ⟨next, applied, hnode⟩ := Proc.applyCommitted_node apply
      rw [hnode]
      exact .stores call rfl accepts (Node.observeLeader_currentTerm accepts.1)
        (Node.observeLeader_follower _ _) (Node.storeEntries_observeLeader _ _)
        (.inr ⟨newer, rfl⟩)
  | answered call resp n calls hresp =>
      rcases Node.handleAppendResponse_ok hresp with
        ⟨_, rfl, _⟩ | ⟨rfl, _⟩ | ⟨_, next, _, rfl, _⟩ | ⟨_, _, _, hs, _⟩
      · exact same rfl rfl
      · exact same rfl rfl
      · exact same rfl rfl
      · exact absurd hs (by simp)
  | acknowledged call resp n o hresp apply =>
      obtain ⟨next, applied, hnode⟩ := Proc.applyCommitted_node apply
      rw [hnode]
      obtain ⟨leads, _, _, c, rfl, hc⟩ := Node.handleAppendResponse_commits hresp
      have recorded : (p.node.recordMatch call.peerID call.req).log = p.node.log ∧
          (p.node.recordMatch call.peerID call.req).role = p.node.role := by
        unfold Node.recordMatch
        split <;> exact ⟨rfl, rfl⟩
      rcases hc with rfl | ⟨newer, advance⟩
      · exact same recorded.1 rfl
      · exact .advances (recorded.2.trans leads) recorded.1 newer
          (advance.congr rfl rfl rfl rfl rfl)
  | win k term n calls _ hwin =>
      rcases Node.winElection_ok hwin with ⟨rfl, _⟩ | ⟨_, _, hlead⟩
      · exact same rfl rfl
      · obtain ⟨⟨next, rfl⟩, _⟩ := Node.becomeLeaderLocked_ok hlead
        exact same rfl rfl
  | count k term peerID e _ _ _ => exact same rfl rfl
  | countLast k term peerID e _ _ _ => exact same rfl rfl
  | begin k d c _ => exact same rfl rfl
  | run k d c _ =>
      have node := p.afterCallback_node membership d.entry.command
      exact same (congrArg Node.log node) (congrArg Node.commitIndex node)
  | addPeer k d c _ =>
      change Commits p _ (p.node.addPeer _ _).1
      unfold Node.addPeer
      dsimp only
      split <;> exact same rfl rfl
  | replicate k d c n calls _ hrep => exact replicated hrep
  | removePeer k d c _ => exact same rfl rfl
  | finish k d c o _ apply =>
      obtain ⟨next, applied, hnode⟩ := Proc.applyCommitted_node apply
      rw [hnode]
      have finished : (p.node.finishApply d).1.log = p.node.log ∧
          (p.node.finishApply d).1.commitIndex = p.node.commitIndex := by
        unfold Node.finishApply
        split <;> exact ⟨rfl, rfl⟩
      exact same finished.1 finished.2
  | wake k w _ _ => exact same rfl rfl
  | cancel k w _ => exact same rfl rfl

/-- Requests are sent by leaders and show what the leader has after the step. -/
theorem Handles.sends (h : Handles membership p m o) {call : Call AppendEntriesRequest}
    (sent : .appendCall call ∈ o.sent) :
    o.proc.node.role = .leader ∧ o.proc.node.Snapshot call.req := by
  have replicated {n n' : Node} {calls : List (Call AppendEntriesRequest)}
      (hrep : n.replicateLocked = .ok (n', calls))
      (sent : Msg.appendCall call ∈ calls.map .appendCall) :
      n'.role = .leader ∧ n'.Snapshot call.req := by
    obtain ⟨⟨next, rfl⟩, hcalls⟩ := Node.replicateLocked_ok hrep
    obtain ⟨call', hcall, heq⟩ := List.mem_map.mp sent
    obtain rfl := Msg.appendCall.inj heq
    obtain ⟨leads, _, _, snapshot⟩ := hcalls call' hcall
    exact ⟨leads, snapshot.congr rfl rfl rfl rfl⟩
  have applied {p : Proc} {c : Cont} (happly : p.applyCommitted c = .ok o) :
      o.proc.node.role = .leader ∧ o.proc.node.Snapshot call.req := by
    rcases Proc.applyCommitted_sent happly with none | ⟨_, reply⟩ | ⟨_, n, calls, hrep, rfl⟩
    · simp [none] at sent
    · simp [reply] at sent
    · exact replicated hrep sent
  cases h with
  | heartbeat n calls _ hrep => exact replicated hrep sent
  | proposeAlone cmd o _ _ happly => exact applied happly
  | propose cmd n calls _ _ hrep => exact replicated hrep sent
  | committed call' n o _ happly => exact applied happly
  | answered call' resp n calls hresp =>
      obtain ⟨call', hcall, heq⟩ := List.mem_map.mp sent
      obtain rfl := Msg.appendCall.inj heq
      rcases Node.handleAppendResponse_ok hresp with
        ⟨_, _, hs⟩ | ⟨_, hs⟩ | ⟨leads, next, calls', rfl, hs, hcalls⟩ | ⟨_, _, _, hs, _⟩
      · obtain rfl := Node.ResponseStatus.done.inj hs
        simp at hcall
      · obtain rfl := Node.ResponseStatus.done.inj hs
        simp at hcall
      · obtain rfl := Node.ResponseStatus.done.inj hs
        exact ⟨leads, (hcalls call' hcall).2.2.congr rfl rfl rfl rfl⟩
      · exact absurd hs (by simp)
  | acknowledged call' resp n o _ happly => exact applied happly
  | win k term n calls _ hwin =>
      rcases Node.winElection_ok hwin with ⟨_, rfl⟩ | ⟨_, _, hlead⟩
      · simp at sent
      · exact replicated hlead sent
  | replicate k d c n calls _ hrep => exact replicated hrep sent
  | finish k d c o _ happly => exact applied happly
  | stand n el _ _ _ => simp at sent
  | vote call' n resp _ => simp at sent
  | rejected call' n _ => simp at sent
  | stored call' n _ => simp at sent
  | _ => exact absurd sent (by simp [Proc.toPhase])

end DistributedCache.Raft
