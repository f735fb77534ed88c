import DistributedCache.Raft.Sections

/-!
What the critical sections of a node leave alone. Elections, votes and the
bookkeeping of replication touch neither the log nor anything the apply loop and
the waiting `Propose` calls depend on, and only `AddPeer` and `RemovePeer` touch
the peers.
-/
namespace DistributedCache.Raft

/-- Nothing that the apply loop or a waiting `Propose` call reads has changed. -/
structure Node.Aside (n n' : Node) : Prop where
  id : n'.id = n.id
  log : n'.log = n.log
  applied : n'.lastApplied = n.lastApplied
  proposals : n'.proposals = n.proposals
  channels : n'.channels = n.channels

/-- Nor have the peers. -/
structure Node.Still (n n' : Node) : Prop extends n.Aside n' where
  peers : n'.peers = n.peers

theorem Node.Aside.of_addPeer (n : Node) (id addr : String) :
    n.Aside (n.addPeer id addr).1 := by
  unfold addPeer
  dsimp only
  split <;> exact ⟨rfl, rfl, rfl, rfl, rfl⟩

namespace Node.Still

variable {n n' : Node}

theorem of_replicateLocked {calls : List (Call AppendEntriesRequest)}
    (h : n.replicateLocked = .ok (n', calls)) : n.Still n' := by
  obtain ⟨⟨next, rfl⟩, _⟩ := replicateLocked_ok h
  exact ⟨⟨rfl, rfl, rfl, rfl, rfl⟩, rfl⟩

theorem of_startElectionLocked {el : Candidacy} (h : n.startElectionLocked = .ok (n', el)) :
    n.Still n' := by
  obtain ⟨rfl, _⟩ := startElectionLocked_ok h
  exact ⟨⟨rfl, rfl, rfl, rfl, rfl⟩, rfl⟩

theorem of_handleRequestVote {req : RequestVoteRequest} {resp : RequestVoteResponse}
    (h : n.handleRequestVote req = .ok (n', resp)) : n.Still n' := by
  have observed : n.Still (n.observeVote req) := by
    unfold observeVote
    split <;> exact ⟨⟨rfl, rfl, rfl, rfl, rfl⟩, rfl⟩
  rcases handleRequestVote_ok h with ⟨_, rfl, _⟩ | ⟨_, rfl, _⟩ | ⟨_, rfl, _⟩
  · exact ⟨⟨rfl, rfl, rfl, rfl, rfl⟩, rfl⟩
  · exact observed
  · exact ⟨⟨observed.id, observed.log, observed.applied, observed.proposals,
      observed.channels⟩, observed.peers⟩

theorem of_observeLeader (n : Node) (req : AppendEntriesRequest) :
    n.Still (n.observeLeader req) := by
  unfold observeLeader
  split <;> exact ⟨⟨rfl, rfl, rfl, rfl, rfl⟩, rfl⟩

theorem of_handleAppendResponse {peerID : String} {req : AppendEntriesRequest}
    {resp : AppendEntriesResponse} {status : ResponseStatus}
    (h : n.handleAppendResponse peerID req resp = .ok (n', status)) : n.Still n' := by
  rcases handleAppendResponse_ok h with
    ⟨_, rfl, _⟩ | ⟨rfl, _⟩ | ⟨_, next, calls, rfl, _⟩ | ⟨_, _, _, _, c, rfl, _⟩
  · exact ⟨⟨rfl, rfl, rfl, rfl, rfl⟩, rfl⟩
  · exact ⟨⟨rfl, rfl, rfl, rfl, rfl⟩, rfl⟩
  · exact ⟨⟨rfl, rfl, rfl, rfl, rfl⟩, rfl⟩
  · unfold recordMatch
    split <;> exact ⟨⟨rfl, rfl, rfl, rfl, rfl⟩, rfl⟩

theorem of_winElection {term : Nat} {calls : List (Call AppendEntriesRequest)}
    (h : n.winElection term = .ok (n', calls)) : n.Still n' := by
  rcases winElection_ok h with ⟨rfl, _⟩ | ⟨_, _, hlead⟩
  · exact ⟨⟨rfl, rfl, rfl, rfl, rfl⟩, rfl⟩
  · obtain ⟨⟨next, rfl⟩, _⟩ := becomeLeaderLocked_ok hlead
    exact ⟨⟨rfl, rfl, rfl, rfl, rfl⟩, rfl⟩

end Node.Still

end DistributedCache.Raft
