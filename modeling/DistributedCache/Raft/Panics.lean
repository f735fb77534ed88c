import DistributedCache.Raft.Consistent

/-!
Which accesses to the log can be out of range. Every handler reads inside a log
that is not empty, apart from the apply loop: it reads the entry behind
`lastApplied` because that is not above the commit index, and the commit index
may have lost its entry while a callback was running.
-/
namespace DistributedCache.Raft

open Transition (Meets)

/-- The computation does not panic. It may be disabled. -/
def Go.Safe {α : Type} (x : Go α) : Prop :=
  x ≠ .error .panic

def Go.panics {α : Type} : Go α → Bool
  | .error .panic => true
  | _ => false

theorem Go.eq_panic_of_panics {α : Type} {x : Go α} (h : x.panics = true) :
    x = .error .panic := by
  unfold Go.panics at h
  split at h
  · rfl
  · exact absurd h (by simp)

theorem Go.safe_pure {α : Type} (a : α) : Go.Safe (pure a) := by
  simp [Go.Safe, pure, Except.pure]

theorem Go.safe_disabled {α : Type} : Go.Safe (.error .disabled : Go α) := by
  simp [Go.Safe]

theorem Go.Safe.bind {α β : Type} {x : Go α} {f : α → Go β} (hx : x.Safe)
    (hf : ∀ a, x = .ok a → (f a).Safe) : Go.Safe (x >>= f) := by
  cases x with
  | ok a => exact hf a rfl
  | error e =>
      intro h
      exact hx (congrArg Except.error (Except.error.inj h))

namespace Node

theorem safe_logAt {n : Node} {i : Nat} (h : i < n.log.length) : (n.logAt i).Safe := by
  simp [Go.Safe, logAt, List.getElem?_eq_getElem h]

theorem safe_logFrom {n : Node} {i : Nat} (h : i ≤ n.log.length) : (n.logFrom i).Safe := by
  simp [Go.Safe, logFrom, h]

variable {n : Node}

theorem safe_lastLogIndexTermLocked (h : n.log ≠ []) : n.lastLogIndexTermLocked.Safe := by
  have pos := List.length_pos_of_ne_nil h
  exact (safe_logAt (by omega)).bind fun _ _ => Go.safe_pure _

theorem safe_startElectionLocked (h : n.log ≠ []) : n.startElectionLocked.Safe :=
  Go.Safe.bind (safe_lastLogIndexTermLocked h) fun _ _ => Go.safe_pure _

theorem safe_replicateTo (h : n.log ≠ []) (peerID addr : String) :
    (n.replicateTo peerID addr).Safe := by
  have le := n.nextFor_le peerID
  have pos := nextFor_pos h peerID
  exact (safe_logAt (by omega)).bind fun _ _ => (safe_logFrom le).bind fun _ _ => Go.safe_pure _

theorem safe_replicateAll (h : n.log ≠ []) (peers : List (String × String)) :
    (n.replicateAll peers).Safe := by
  induction peers generalizing n with
  | nil => exact Go.safe_pure _
  | cons p rest ih =>
      refine (safe_replicateTo h p.1 p.2).bind fun r hr => ?_
      obtain ⟨⟨next, hnext⟩, _⟩ := replicateTo_ok hr
      exact (ih (by rw [hnext]; exact h)).bind fun _ _ => Go.safe_pure _

theorem safe_replicateLocked (h : n.log ≠ []) : n.replicateLocked.Safe := by
  unfold replicateLocked
  split
  · exact Go.safe_pure _
  · exact safe_replicateAll h _

theorem safe_winElection (h : n.log ≠ []) (term : Nat) : (n.winElection term).Safe := by
  unfold winElection
  split
  · exact safe_replicateLocked h
  · exact Go.safe_pure _

theorem safe_handleRequestVote (h : n.log ≠ []) (req : RequestVoteRequest) :
    (n.handleRequestVote req).Safe := by
  unfold handleRequestVote
  split
  · exact Go.safe_pure _
  · dsimp only
    generalize hm : (if req.term > n.currentTerm then _ else n : Node) = m
    have ne : m.log ≠ [] := by rw [← hm]; split <;> exact h
    refine (safe_lastLogIndexTermLocked ne).bind fun _ _ => ?_
    split <;> exact Go.safe_pure _

theorem safe_handleAppendEntries (req : AppendEntriesRequest) :
    (n.handleAppendEntries req).Safe := by
  unfold handleAppendEntries
  split
  · exact Go.safe_pure _
  · dsimp only
    generalize (if req.term > n.currentTerm ∨ n.role ≠ .follower then _ else _ : Node) = m
    split
    · exact Go.safe_pure _
    · rename_i inside
      refine (safe_logAt (by omega)).bind fun _ _ => ?_
      split
      · exact Go.safe_pure _
      · split <;> exact Go.safe_pure _

theorem safe_advanceCommit {indices : List Nat} (h : ∀ i ∈ indices, i < n.log.length) :
    (n.advanceCommit indices).Safe := by
  induction indices generalizing n with
  | nil => exact Go.safe_pure _
  | cons i rest ih =>
      have hrest : ∀ j ∈ rest, j < n.log.length := fun j hj => h j (List.mem_cons_of_mem _ hj)
      refine (safe_logAt (h i List.mem_cons_self)).bind fun e _ => ?_
      split
      · exact ih hrest
      · split
        · exact ih hrest
        · exact ih hrest

theorem safe_handleAppendResponse (h : n.log ≠ []) (peerID : String)
    (req : AppendEntriesRequest) (resp : AppendEntriesResponse) :
    (n.handleAppendResponse peerID req resp).Safe := by
  unfold handleAppendResponse
  split
  · exact Go.safe_pure _
  · split
    · exact Go.safe_pure _
    · split
      · refine Go.Safe.bind (safe_replicateLocked ?_) fun _ _ => Go.safe_pure _
        split <;> exact h
      · refine Go.Safe.bind (safe_advanceCommit fun i hi => ?_) fun _ _ => Go.safe_pure _
        have := List.mem_range'_1.mp hi
        omega

/-- Entries to be applied are in the log. -/
structure Readable (n : Node) : Prop where
  log_ne : n.log ≠ []
  stored : n.lastApplied < n.commitIndex → n.commitIndex < n.log.length

theorem Readable.safe_popCommitted (h : n.Readable) : n.popCommitted.Safe := by
  unfold popCommitted
  split
  · rename_i older
    have := h.stored older
    exact (safe_logAt (by omega)).bind fun _ _ => Go.safe_pure _
  · exact Go.safe_pure _

/-- A request that commits nothing new and is accepted while entries wait to be
applied does not end below them. -/
def KeepsUnapplied (n : Node) (req : AppendEntriesRequest) : Prop :=
  n.Accepts req → req.leaderCommit ≤ n.commitIndex → n.lastApplied < n.commitIndex →
    n.commitIndex ≤ req.prevLogIndex + req.entries.length

instance (n : Node) (req : AppendEntriesRequest) : Decidable (n.KeepsUnapplied req) :=
  inferInstanceAs (Decidable (_ → _))

theorem readable_step {n n' : Node} (h : n.Readable) (step : NodeStep KeepsUnapplied n n') :
    n'.Readable := by
  have stored := h.stored
  have ne := h.log_ne
  cases step with
  | propose cmd leads =>
      refine ⟨List.append_ne_nil_of_right_ne_nil _ (by simp), fun older => ?_⟩
      change n.commitIndex < (n.log ++ [_]).length
      have := stored older
      simp only [List.length_append, List.length_singleton]
      omega
  | proposeAlone cmd leads =>
      refine ⟨List.append_ne_nil_of_right_ne_nil _ (by simp), fun _ => ?_⟩
      change n.log.length < (n.log ++ [_]).length
      simp
  | observe req current given =>
      refine ⟨by rwa [observeLeader_log], ?_⟩
      rwa [observeLeader_log, observeLeader_commitIndex, observeLeader_lastApplied]
  | store req accepts given old =>
      have length := accepts.length_store
      refine ⟨List.ne_nil_of_length_pos (by omega), fun older => ?_⟩
      rw [length]
      change (n.observeLeader req).lastApplied < (n.observeLeader req).commitIndex at older
      change (n.observeLeader req).commitIndex < _
      rw [observeLeader_lastApplied, observeLeader_commitIndex] at older
      rw [observeLeader_commitIndex]
      have := given accepts old older
      omega
  | commit req accepts given newer =>
      have length := accepts.length_store
      have ne' : ((n.observeLeader req).storeEntries req).log ≠ [] :=
        List.ne_nil_of_length_pos (by omega)
      refine ⟨ne', fun _ => ?_⟩
      change min64 _ _ < ((n.observeLeader req).storeEntries req).log.length
      rw [length]
      unfold min64
      split <;> omega
  | advance c newer below => exact ⟨ne, fun _ => below⟩
  | pop older => exact ⟨ne, fun _ => stored older⟩
  | _ => exact ⟨ne, stored⟩

theorem readable_chain {n n' : Node} (h : n.Readable)
    (chain : Relation.ReflTransGen (NodeStep KeepsUnapplied) n n') : n'.Readable :=
  chain_invariant (fun _ _ => readable_step) chain h

end Node

namespace Proc

variable {p : Proc}

theorem safe_applyCommitted (h : p.node.Readable) (c : Cont) : (p.applyCommitted c).Safe := by
  refine h.safe_popCommitted.bind fun popped _ => ?_
  cases popped with
  | some q => exact Go.safe_pure _
  | none =>
      cases c with
      | propose => exact Go.safe_pure _
      | appendEntries call => exact Go.safe_pure _
      | appendResponse =>
          exact (Node.safe_replicateLocked h.log_ne).bind fun _ _ => Go.safe_pure _

theorem safe_receive (h : p.node.Readable) (m : Msg) : (p.receive m).Safe := by
  cases m with
  | voteCall call =>
      exact (Node.safe_handleRequestVote h.log_ne _).bind fun _ _ => Go.safe_pure _
  | voteReply call resp =>
      simp only [receive]
      split
      · exact Go.safe_pure _
      · split <;> exact Go.safe_pure _
  | appendCall call =>
      refine (Node.safe_handleAppendEntries call.req).bind fun r hr => ?_
      obtain ⟨n, status⟩ := r
      cases status with
      | rejected => exact Go.safe_pure _
      | stored => exact Go.safe_pure _
      | committed =>
          -- a request that commits something new leaves its commit index in the log
          obtain ⟨accepts, newer, rfl⟩ := Node.handleAppendEntries_committed hr
          refine safe_applyCommitted (Node.readable_step h (.commit _ _ accepts ?_ newer)) _
          intro _ old
          omega
  | appendReply call resp =>
      refine (Node.safe_handleAppendResponse h.log_ne _ _ _).bind fun r hr => ?_
      obtain ⟨n, status⟩ := r
      cases status with
      | done calls => exact Go.safe_pure _
      | apply =>
          exact safe_applyCommitted
            (Node.readable_chain h (nodeSteps_of_handleAppendResponse hr)) _

theorem safe_timeout (h : p.node.Readable) : p.timeout.Safe := by
  unfold timeout
  split
  · exact Go.safe_disabled
  · refine (Node.safe_startElectionLocked h.log_ne).bind fun _ _ => ?_
    dsimp only
    split <;> exact Go.safe_pure _

theorem safe_propose (h : p.node.Readable) (cmd : Command) : (p.propose cmd).Safe := by
  unfold propose
  split
  · exact Go.safe_pure _
  · rename_i leads
    have leads := not_not.mp leads
    dsimp only
    split
    · exact safe_applyCommitted (Node.readable_step h (.proposeAlone p.node cmd leads)) _
    · have ne := (Node.readable_step h (.propose p.node cmd leads)).log_ne
      exact (Node.safe_replicateLocked ne).bind fun _ _ => Go.safe_pure _

theorem safe_count (term : Nat) : (p.count term).Safe := by
  unfold count
  split
  · exact Go.safe_disabled
  · dsimp only
    split <;> exact Go.safe_pure _

theorem safe_stepApply (h : p.node.Readable) (membership : Bool) (k : Nat)
    (d : Node.Delivery) (phase : Phase) (c : Cont) :
    (p.stepApply membership k d phase c).Safe := by
  cases phase with
  | pending => exact Go.safe_pure _
  | running =>
      simp only [stepApply]
      split <;> exact Go.safe_pure _
  | addPeer => exact Go.safe_pure _
  | replicate => exact (Node.safe_replicateLocked h.log_ne).bind fun _ _ => Go.safe_pure _
  | removePeer => exact Go.safe_pure _
  | returned =>
      exact safe_applyCommitted (Node.readable_chain h (nodeSteps_of_finishApply p.node d)) _

theorem safe_act (h : p.node.Readable) (membership : Bool) (a : Action) :
    (p.act membership a).Safe := by
  cases a with
  | timeout i => exact safe_timeout h
  | heartbeat i =>
      simp only [act, heartbeat]
      split
      · exact Go.safe_disabled
      · exact (Node.safe_replicateLocked h.log_ne).bind fun _ _ => Go.safe_pure _
  | propose i cmd => exact safe_propose h cmd
  | deliver k => exact Go.safe_disabled
  | lose k => exact Go.safe_disabled
  | resume i k =>
      simp only [act, resume]
      split
      · exact Go.safe_disabled
      · exact (Node.safe_winElection h.log_ne _).bind fun _ _ => Go.safe_pure _
      · exact (Node.safe_winElection h.log_ne _).bind fun _ _ => Go.safe_pure _
      · exact safe_count _
      · exact safe_stepApply h _ _ _ _ _
  | wake i k =>
      simp only [act, wake]
      split
      · exact Go.safe_disabled
      · split
        · exact Go.safe_pure _
        · exact Go.safe_disabled
  | cancel i k =>
      simp only [act, cancel]
      split
      · exact Go.safe_disabled
      · exact Go.safe_pure _

end Proc

theorem safe_exec {S : Setup} {σ : Sys} (h : ∀ i, (σ.node i).Readable) (a : Action) :
    (exec S σ a).Safe := by
  have acts (a : Action) (i : String) : Go.Safe (if i ∈ S.ids then (do
      let o ← (σ.procs i).act S.membership a
      pure (σ.put i σ.net o)) else .error .disabled : Go Sys) := by
    split
    · exact (Proc.safe_act (h i) _ a).bind fun _ _ => Go.safe_pure _
    · exact Go.safe_disabled
  cases a with
  | lose k =>
      simp only [exec]
      split
      · exact Go.safe_pure _
      · exact Go.safe_disabled
  | deliver k =>
      simp only [exec]
      split
      · exact Go.safe_disabled
      · split
        · exact Go.safe_pure _
        · exact (Proc.safe_receive (h _) _).bind fun _ _ => Go.safe_pure _
  | timeout i | heartbeat i | propose i _ | resume i _ | wake i _ | cancel i _ => exact acts _ i

/-- No handler panics in a run in which no request that commits nothing new cuts
off entries that a node still has to apply. -/
theorem no_handler_panics {S : Setup} {past : List (Sys × Action)} {σ : Sys}
    (run : Run S past σ) (meets : Meets (OnDelivery S fun p => p.node.KeepsUnapplied) past)
    (a : Action) : exec S σ a ≠ .error .panic := by
  refine safe_exec (fun i => ?_) a
  exact Run.node_invariant (fun _ _ _ => ⟨by simp [newNode], by simp [newNode]⟩)
    (fun _ _ => Node.readable_step) run meets i σ (Transition.mem_visited_self past σ)

/-- Node b is told that both commands are committed and is in the first callback
when the next heartbeat of a arrives. -/
theorem no_handler_panics_heartbeat :
    ∃ past σ, Run trio past σ ∧ (σ.node "b").lastApplied < (σ.node "b").commitIndex ∧
      ∀ a, exec trio σ a ≠ .error .panic := by
  obtain ⟨past, σ, run, check⟩ := Run.of_actions trio
    (commitTwoA ++ [.deliver 7, .resume "b" 0, .heartbeat "a", .deliver 8])
    (fun past σ => decide ((σ.node "b").lastApplied < (σ.node "b").commitIndex ∧
      Meets (OnDelivery trio fun p => p.node.KeepsUnapplied) past)) (by decide +kernel)
  obtain ⟨older, meets⟩ := of_decide_eq_true check
  exact ⟨past, σ, run, older, no_handler_panics run meets⟩

/-- With the first heartbeat of a arriving late instead, b panics when the callback
has returned. -/
theorem no_handler_panics_stale_heartbeat :
    ∃ past σ, Run trio past σ ∧ exec trio σ (.resume "b" 0) = .error .panic := by
  obtain ⟨past, σ, run, check⟩ := Run.of_actions trio
    (commitTwoA ++ [.deliver 7, .resume "b" 0, .deliver 2, .resume "b" 0])
    (fun _ σ => (exec trio σ (.resume "b" 0)).panics) (by decide +kernel)
  exact ⟨past, σ, run, Go.eq_panic_of_panics check⟩

end DistributedCache.Raft
