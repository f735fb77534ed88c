import DistributedCache.Raft.Consistent

/-!
The three counters of a node: `lastApplied`, `commitIndex` and the length of the
log. A follower cuts its log behind `PrevLogIndex` whatever it has committed, so
the counters stay in order only in runs in which no accepted request ends below
the commit index. Where a callback is running, the weaker condition that no such
request ends below entries still to be applied keeps every access within bounds.
-/
namespace DistributedCache.Raft

open Transition (Meets visited)

namespace Node

/-- What the request leaves in the log reaches the commit index. -/
def ReachesCommit (n : Node) (req : AppendEntriesRequest) : Prop :=
  n.Accepts req → n.commitIndex ≤ req.prevLogIndex + req.entries.length

instance (n : Node) (req : AppendEntriesRequest) : Decidable (n.ReachesCommit req) :=
  inferInstanceAs (Decidable (_ → _))

structure CommitBounds (n : Node) : Prop where
  applied : n.lastApplied ≤ n.commitIndex
  stored : n.commitIndex < n.log.length

theorem commitBounds_step {n n' : Node} (h : n.CommitBounds)
    (step : NodeStep ReachesCommit n n') : n'.CommitBounds := by
  have applied := h.applied
  have stored := h.stored
  cases step with
  | propose cmd leads =>
      refine ⟨applied, ?_⟩
      change n.commitIndex < (n.log ++ [_]).length
      simp only [List.length_append, List.length_singleton]
      omega
  | proposeAlone cmd leads =>
      refine ⟨?_, ?_⟩
      · change n.lastApplied ≤ n.log.length
        omega
      · change n.log.length < (n.log ++ [_]).length
        simp
  | observe req current given =>
      refine ⟨?_, ?_⟩
      · rwa [observeLeader_lastApplied, observeLeader_commitIndex]
      · rwa [observeLeader_log, observeLeader_commitIndex]
  | store req accepts given old =>
      have reaches := given accepts
      refine ⟨?_, ?_⟩
      · change (n.observeLeader req).lastApplied ≤ (n.observeLeader req).commitIndex
        rwa [observeLeader_lastApplied, observeLeader_commitIndex]
      · rw [accepts.length_store]
        change (n.observeLeader req).commitIndex < _
        rw [observeLeader_commitIndex]
        omega
  | commit req accepts given newer =>
      have reaches := given accepts
      refine ⟨?_, ?_⟩
      · change (n.observeLeader req).lastApplied ≤ min64 _ _
        rw [observeLeader_lastApplied]
        unfold min64
        split <;> omega
      · change min64 _ _ < ((n.observeLeader req).storeEntries req).log.length
        rw [accepts.length_store]
        unfold min64
        split <;> omega
  | advance c newer below => exact ⟨applied.trans newer.le, below⟩
  | pop older => exact ⟨older, stored⟩
  | _ => exact ⟨applied, stored⟩

theorem commitIndex_step {n n' : Node} (step : NodeStep ReachesCommit n n')
    (h : n.CommitBounds) : n.commitIndex ≤ n'.commitIndex := by
  have stored := h.stored
  cases step with
  | proposeAlone cmd leads => exact stored.le
  | observe req current given => exact (observeLeader_commitIndex n req).ge
  | store req accepts given old => exact (observeLeader_commitIndex n req).ge
  | commit req accepts given newer =>
      have reaches := given accepts
      change n.commitIndex ≤ min64 _ _
      unfold min64
      split <;> omega
  | advance c newer below => exact newer.le
  | _ => exact Nat.le_refl _

end Node

theorem commitBounds_visited {S : Setup} {past : List (Sys × Action)} {σ : Sys}
    (run : Run S past σ) (meets : Meets (OnDelivery S fun p => p.node.ReachesCommit) past)
    (i : String) : ∀ u ∈ visited past σ, (u.node i).CommitBounds :=
  Run.node_invariant (fun _ _ _ => ⟨Nat.le_refl _, Nat.one_pos⟩)
    (fun _ _ => Node.commitBounds_step) run meets i

/-- In every run whose accepted requests all reach the receiver's commit index, the
counters of every node are in order and its commit index has never decreased. -/
theorem commit_bookkeeping {S : Setup} {past : List (Sys × Action)} {σ : Sys}
    (run : Run S past σ) (meets : Meets (OnDelivery S fun p => p.node.ReachesCommit) past)
    (i : String) :
    (σ.node i).lastApplied ≤ (σ.node i).commitIndex ∧
      (σ.node i).commitIndex < (σ.node i).log.length ∧
      ∀ u ∈ visited past σ, (u.node i).commitIndex ≤ (σ.node i).commitIndex := by
  have bounds := commitBounds_visited run meets i
  have ordered := Run.node_ordered
    (R := fun n n' => n.CommitBounds → n'.CommitBounds ∧ n.commitIndex ≤ n'.commitIndex)
    (fun n h => ⟨h, Nat.le_refl _⟩)
    (fun n m o hnm hmo h => ⟨(hmo (hnm h).1).1, (hnm h).2.trans (hmo (hnm h).1).2⟩)
    (fun n n' (step : NodeStep Node.ReachesCommit n n') h =>
      ⟨Node.commitBounds_step h step, Node.commitIndex_step step h⟩)
    run meets i
  have now := bounds σ (Transition.mem_visited_self past σ)
  exact ⟨now.applied, now.stored, fun u hu => (ordered u hu (bounds u hu)).2⟩

/-- A command committed by a and applied by b. -/
theorem commit_bookkeeping_commit :
    ∃ past σ, Run trio past σ ∧ (σ.node "b").lastApplied = 1 ∧
      (σ.node "b").lastApplied ≤ (σ.node "b").commitIndex ∧
      (σ.node "b").commitIndex < (σ.node "b").log.length ∧
      ∀ u ∈ visited past σ, (u.node "b").commitIndex ≤ (σ.node "b").commitIndex := by
  obtain ⟨past, σ, run, check⟩ := Run.of_actions trio
    (commitA { type := .noop } ++ [.deliver 5, .resume "b" 0, .resume "b" 0, .resume "b" 0])
    (fun past σ => decide ((σ.node "b").lastApplied = 1 ∧
      Meets (OnDelivery trio fun p => p.node.ReachesCommit) past)) (by decide +kernel)
  obtain ⟨applied, meets⟩ := of_decide_eq_true check
  exact ⟨past, σ, run, applied, commit_bookkeeping run meets "b"⟩

/-- The first heartbeat of a, delivered late, cuts the applied entry off the log of b. -/
theorem commit_bookkeeping_stale_heartbeat :
    trio.Consistent ∧
      ∃ past σ, Run trio past σ ∧ (σ.node "b").log.length ≤ (σ.node "b").commitIndex := by
  obtain ⟨past, σ, run, check⟩ := Run.of_actions trio
    (commitA { type := .noop } ++
      [.deliver 5, .resume "b" 0, .resume "b" 0, .resume "b" 0, .deliver 2])
    (fun _ σ => decide ((σ.node "b").log.length ≤ (σ.node "b").commitIndex)) (by decide +kernel)
  exact ⟨trio_consistent, past, σ, run, of_decide_eq_true check⟩

end DistributedCache.Raft
