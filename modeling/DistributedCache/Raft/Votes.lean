import DistributedCache.Raft.Consistent

/-!
How often a node votes in one term. `becomeFollowerLocked` clears `votedFor` also
where it does not raise the term, which happens to a candidate that is sent an
AppendEntries request of its own term. A node that is not sent one keeps its vote.
-/
namespace DistributedCache.Raft

open Transition (Meets visited)

/-- The node has given its vote to `c` in term `t`. The empty string in `votedFor`
stands for no vote. -/
def Node.VotedFor (n : Node) (t : Nat) (c : String) : Prop :=
  n.currentTerm = t ∧ n.votedFor = c ∧ c ≠ ""

instance (n : Node) (t : Nat) (c : String) : Decidable (n.VotedFor t c) :=
  inferInstanceAs (Decidable (_ ∧ _))

/-- Requests of the node's own term find it a follower. -/
def Node.FollowsOwnTerm (n : Node) (req : AppendEntriesRequest) : Prop :=
  req.term = n.currentTerm → n.role = .follower

instance (n : Node) (req : AppendEntriesRequest) : Decidable (n.FollowsOwnTerm req) :=
  inferInstanceAs (Decidable (_ → _))

/-- In a later state the node is in a later term or has kept its vote. -/
structure Node.KeepsVote (n n' : Node) : Prop where
  term : n.currentTerm ≤ n'.currentTerm
  vote : n'.currentTerm = n.currentTerm → n.votedFor ≠ "" → n'.votedFor = n.votedFor

namespace Node.KeepsVote

theorem refl (n : Node) : n.KeepsVote n :=
  ⟨Nat.le_refl _, fun _ _ => rfl⟩

theorem trans {n m o : Node} (h : n.KeepsVote m) (h' : m.KeepsVote o) : n.KeepsVote o := by
  have hterm := h.term
  have hterm' := h'.term
  refine ⟨hterm.trans hterm', fun same voted => ?_⟩
  have kept := h.vote (by omega) voted
  rw [← kept]
  exact h'.vote (by omega) (kept ▸ voted)

theorem of_later {n n' : Node} (h : n.currentTerm < n'.currentTerm) : n.KeepsVote n' :=
  ⟨h.le, fun same => absurd same (by omega)⟩

theorem observeLeader {n : Node} {req : AppendEntriesRequest}
    (current : n.currentTerm ≤ req.term) (given : n.FollowsOwnTerm req) :
    n.KeepsVote (n.observeLeader req) := by
  rcases Nat.lt_or_eq_of_le current with newer | same
  · rw [Node.observeLeader_of_newer newer]
    exact of_later newer
  · rw [Node.observeLeader_of_idle same (given same.symm)]
    exact ⟨Nat.le_refl _, fun _ _ => rfl⟩

theorem of_step {n n' : Node} (step : NodeStep FollowsOwnTerm n n') : n.KeepsVote n' := by
  cases step with
  | stand idle => exact of_later (Nat.lt_succ_self _)
  | stepDown t newer => exact of_later newer
  | vote c free =>
      refine ⟨Nat.le_refl _, fun _ voted => ?_⟩
      exact (free.resolve_left voted).symm
  | observe req current given => exact observeLeader current given
  | store req accepts given old =>
      have kept := observeLeader accepts.1 given
      exact ⟨kept.term, kept.vote⟩
  | commit req accepts given newer =>
      have kept := observeLeader accepts.1 given
      exact ⟨kept.term, kept.vote⟩
  | _ => exact ⟨Nat.le_refl _, fun _ _ => rfl⟩

end Node.KeepsVote

/-- In every run in which no node is given an AppendEntries request of its own term
while it is candidate or leader, a node votes for one candidate a term. -/
theorem one_vote_per_term {S : Setup} {past : List (Sys × Action)} {σ : Sys}
    (run : Run S past σ) (meets : Meets (OnDelivery S fun p => p.node.FollowsOwnTerm) past)
    (i : String) (t : Nat) (c c' : String)
    (voted : ∃ u ∈ visited past σ, (u.node i).VotedFor t c)
    (voted' : ∃ u ∈ visited past σ, (u.node i).VotedFor t c') : c = c' := by
  obtain ⟨u, hu, hterm, rfl, ne⟩ := voted
  obtain ⟨v, hv, hterm', rfl, ne'⟩ := voted'
  rcases Run.node_comparable Node.KeepsVote.refl (fun _ _ _ => Node.KeepsVote.trans)
    (fun _ _ => Node.KeepsVote.of_step) run meets i u hu v hv with kept | kept
  · exact (kept.vote (hterm'.trans hterm.symm) ne).symm
  · exact kept.vote (hterm.trans hterm'.symm) ne'

/-- Nodes a and b stand in the same term, and c votes for a. -/
def rivals : List Action :=
  [.timeout "a", .timeout "b", .deliver 0, .deliver 3, .resume "a" 0, .resume "a" 0]

theorem one_vote_per_term_rivals :
    ∃ past σ, Run trio past σ ∧ (∃ u ∈ visited past σ, (u.node "c").VotedFor 1 "a") ∧
      ∀ c, (∃ u ∈ visited past σ, (u.node "c").VotedFor 1 c) → c = "a" := by
  obtain ⟨past, σ, run, check⟩ := Run.of_actions trio (rivals ++ [.deliver 3])
    (fun past σ => decide ((σ.node "c").VotedFor 1 "a" ∧
      Meets (OnDelivery trio fun p => p.node.FollowsOwnTerm) past)) (by decide +kernel)
  obtain ⟨voted, meets⟩ := of_decide_eq_true check
  have now : ∃ u ∈ visited past σ, (u.node "c").VotedFor 1 "a" :=
    ⟨σ, Transition.mem_visited_self past σ, voted⟩
  exact ⟨past, σ, run, now, fun c hc => one_vote_per_term run meets "c" 1 c "a" hc now⟩

/-- The heartbeat of a reaches the candidate b before its delayed vote request does,
and b, which has voted for itself, votes for a as well. -/
theorem one_vote_per_term_heartbeat :
    ∃ past σ, Run trio past σ ∧ (∃ u ∈ visited past σ, (u.node "b").VotedFor 1 "b") ∧
      ∃ u ∈ visited past σ, (u.node "b").VotedFor 1 "a" := by
  obtain ⟨past, σ, run, check⟩ := Run.of_actions trio (rivals ++ [.deliver 4, .deliver 0])
    (fun past σ => decide ((∃ u ∈ visited past σ, (u.node "b").VotedFor 1 "b") ∧
      ∃ u ∈ visited past σ, (u.node "b").VotedFor 1 "a")) (by decide +kernel)
  exact ⟨past, σ, run, of_decide_eq_true check⟩

end DistributedCache.Raft
