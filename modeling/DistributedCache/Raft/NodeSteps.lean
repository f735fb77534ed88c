import DistributedCache.Raft.Handles

/-!
The changes a run makes to the state of a single node, whatever the messages and
the other goroutines do. An invariant of one node is checked against these
changes only; `Run.node_invariant` and `Run.node_ordered` carry it to every run.

A condition `ok` on the AppendEntries requests a node is given, in the state in
which it is given them, restricts the runs considered.
-/
namespace DistributedCache.Raft

open Relation (ReflTransGen)

inductive NodeStep (ok : Node → AppendEntriesRequest → Prop) : Node → Node → Prop
  | stand (n : Node) (idle : n.role ≠ .leader) :
      NodeStep ok n { n with
        role := .candidate, currentTerm := n.currentTerm + 1, votedFor := n.id, leaderID := "" }
  | lead (n : Node) (stands : n.role = .candidate) :
      NodeStep ok n { n with role := .leader, leaderID := n.id }
  | indices (n : Node) (next mat : GoMap String Nat) :
      NodeStep ok n { n with nextIndex := next, matchIndex := mat }
  | propose (n : Node) (cmd : Command) (leads : n.role = .leader) :
      NodeStep ok n (n.appendProposal cmd).1
  | proposeAlone (n : Node) (cmd : Command) (leads : n.role = .leader) :
      NodeStep ok n { (n.appendProposal cmd).1 with commitIndex := n.log.length }
  | stepDown (n : Node) (t : Nat) (newer : n.currentTerm < t) :
      NodeStep ok n (n.becomeFollowerLocked t "")
  | vote (n : Node) (c : String) (free : n.votedFor = "" ∨ n.votedFor = c) :
      NodeStep ok n { n with votedFor := c }
  | observe (n : Node) (req : AppendEntriesRequest) (current : n.currentTerm ≤ req.term)
      (given : ok n req) : NodeStep ok n (n.observeLeader req)
  | store (n : Node) (req : AppendEntriesRequest) (accepts : n.Accepts req)
      (given : ok n req) (old : req.leaderCommit ≤ n.commitIndex) :
      NodeStep ok n ((n.observeLeader req).storeEntries req)
  | commit (n : Node) (req : AppendEntriesRequest) (accepts : n.Accepts req)
      (given : ok n req) (newer : n.commitIndex < req.leaderCommit) :
      NodeStep ok n { (n.observeLeader req).storeEntries req with
        commitIndex := min64 req.leaderCommit (req.prevLogIndex + req.entries.length) }
  | advance (n : Node) (c : Nat) (newer : n.commitIndex < c) (below : c < n.log.length) :
      NodeStep ok n { n with commitIndex := c }
  | pop (n : Node) (older : n.lastApplied < n.commitIndex) :
      NodeStep ok n { n with lastApplied := n.lastApplied + 1 }
  | forget (n : Node) (index : Nat) : NodeStep ok n (n.cancelProposal index)
  | peers (n : Node) (peers : GoMap String String) : NodeStep ok n { n with peers := peers }

/-- The node is given the request, which is not of an older term. -/
def Given (ok : Node → AppendEntriesRequest → Prop) (n : Node) (m : Input) : Prop :=
  ∀ call, m = .message (.appendCall call) → n.currentTerm ≤ call.req.term → ok n call.req

section Chains

variable {ok : Node → AppendEntriesRequest → Prop} {membership : Bool}

theorem NodeStep.of_replicateLocked {n n' : Node} {calls : List (Call AppendEntriesRequest)}
    (h : n.replicateLocked = .ok (n', calls)) : NodeStep ok n n' := by
  obtain ⟨⟨next, rfl⟩, _⟩ := Node.replicateLocked_ok h
  exact .indices n next n.matchIndex

theorem nodeSteps_of_applyCommitted {p : Proc} {c : Cont} {o : Out}
    (h : p.applyCommitted c = .ok o) : ReflTransGen (NodeStep ok) p.node o.proc.node := by
  rcases Proc.applyCommitted_ok h with ⟨n, d, hpop, rfl⟩ | ⟨_, hres⟩
  · obtain ⟨older, rfl, _⟩ := Node.popCommitted_ok hpop
    exact .single (.pop p.node older)
  · rcases Proc.resumeCont_ok hres with ⟨_, rfl⟩ | ⟨call, _, rfl⟩ | ⟨_, n, calls, hrep, rfl⟩
    · exact .refl
    · exact .refl
    · exact .single (.of_replicateLocked hrep)

theorem nodeSteps_of_handleRequestVote {n n' : Node} {req : RequestVoteRequest}
    {resp : RequestVoteResponse} (h : n.handleRequestVote req = .ok (n', resp)) :
    ReflTransGen (NodeStep ok) n n' := by
  have observed : ReflTransGen (NodeStep ok) n (n.observeVote req) := by
    unfold Node.observeVote
    split
    · rename_i newer
      exact .single (.stepDown n req.term newer)
    · exact .refl
  rcases Node.handleRequestVote_ok h with ⟨_, rfl, _⟩ | ⟨_, rfl, _⟩ | ⟨_, rfl, _, free, _⟩
  · exact .refl
  · exact observed
  · exact observed.tail (.vote _ _ free)

theorem nodeSteps_of_handleAppendEntries {n n' : Node} {req : AppendEntriesRequest}
    {status : Node.AppendStatus} (given : n.currentTerm ≤ req.term → ok n req)
    (h : n.handleAppendEntries req = .ok (n', status)) : ReflTransGen (NodeStep ok) n n' := by
  rcases Node.handleAppendEntries_ok h with
    ⟨_, rfl, _⟩ | ⟨current, rfl, _⟩ | ⟨accepts, rfl, _, old⟩ | ⟨accepts, _, newer, rfl⟩
  · exact .refl
  · exact .single (.observe n req current (given current))
  · exact .single (.store n req accepts (given accepts.1) old)
  · exact .single (.commit n req accepts (given accepts.1) newer)

theorem nodeSteps_of_handleAppendResponse {n n' : Node} {peerID : String}
    {req : AppendEntriesRequest} {resp : AppendEntriesResponse} {status : Node.ResponseStatus}
    (h : n.handleAppendResponse peerID req resp = .ok (n', status)) :
    ReflTransGen (NodeStep ok) n n' := by
  rcases Node.handleAppendResponse_ok h with
    ⟨newer, rfl, _⟩ | ⟨rfl, _⟩ | ⟨_, next, calls, rfl, _⟩ | ⟨_, _, _, _, c, rfl, hc⟩
  · exact .single (.stepDown n _ newer)
  · exact .refl
  · exact .single (.indices n next n.matchIndex)
  · have recorded : NodeStep ok n (n.recordMatch peerID req) := by
      unfold Node.recordMatch
      split
      · exact .indices n n.nextIndex n.matchIndex
      · exact .indices n _ _
    have commit : (n.recordMatch peerID req).commitIndex = n.commitIndex := by
      unfold Node.recordMatch
      split <;> rfl
    rcases hc with rfl | ⟨newer, advance⟩
    · rw [← commit]
      exact .single recorded
    · exact .tail (.single recorded) (.advance _ c (commit ▸ newer) advance.below)

theorem nodeSteps_of_winElection {n n' : Node} {term : Nat}
    {calls : List (Call AppendEntriesRequest)} (h : n.winElection term = .ok (n', calls)) :
    ReflTransGen (NodeStep ok) n n' := by
  rcases Node.winElection_ok h with ⟨rfl, _⟩ | ⟨stands, _, hlead⟩
  · exact .refl
  · obtain ⟨⟨next, rfl⟩, _⟩ := Node.becomeLeaderLocked_ok hlead
    exact .tail (.single (.lead n stands)) (.indices _ next _)

theorem nodeSteps_of_addPeer (n : Node) (id addr : String) :
    ReflTransGen (NodeStep ok) n (n.addPeer id addr).1 := by
  have added : NodeStep ok n { n with peers := n.peers.insert id addr } := .peers n _
  unfold Node.addPeer
  dsimp only
  split
  · exact .tail (.single added) (.indices _ _ _)
  · exact .single added

theorem nodeSteps_of_removePeer (n : Node) (id : String) :
    ReflTransGen (NodeStep ok) n (n.removePeer id) :=
  .tail (.single (.peers n (n.peers.erase id)))
    (.indices _ (n.nextIndex.erase id) (n.matchIndex.erase id))

theorem nodeSteps_of_finishApply (n : Node) (d : Node.Delivery) :
    ReflTransGen (NodeStep ok) n (n.finishApply d).1 := by
  unfold Node.finishApply
  split
  · exact .refl
  · exact .single (.forget n n.lastApplied)

theorem Proc.afterCallback_node (membership : Bool) (p : Proc) (cmd : Command) :
    (p.afterCallback membership cmd).1.node = p.node := by
  obtain ⟨ring, same, -⟩ := p.afterCallback_ring membership cmd
  rw [same]

/-- Whatever a process handles, its node only takes the listed steps. -/
theorem Handles.nodeSteps {p : Proc} {m : Input} {o : Out}
    (h : Handles membership p m o) (given : Given ok p.node m) :
    ReflTransGen (NodeStep ok) p.node o.proc.node := by
  cases h with
  | standAlone n el idle h alone =>
      obtain ⟨rfl, _⟩ := Node.startElectionLocked_ok h
      exact .single (.stand p.node idle)
  | stand n el idle h peers =>
      obtain ⟨rfl, _⟩ := Node.startElectionLocked_ok h
      exact .single (.stand p.node idle)
  | heartbeat n calls leads h => exact .single (.of_replicateLocked h)
  | refuse => exact .refl
  | proposeAlone cmd o leads alone h =>
      exact .head (.proposeAlone p.node cmd leads) (nodeSteps_of_applyCommitted h)
  | propose cmd n calls leads peers h =>
      exact .tail (.single (.propose p.node cmd leads)) (.of_replicateLocked h)
  | vote call n resp h => exact nodeSteps_of_handleRequestVote h
  | outvoted call resp newer => exact .single (.stepDown p.node _ newer)
  | granted call resp granted => exact .refl
  | denied call resp => exact .refl
  | rejected call n h => exact nodeSteps_of_handleAppendEntries (given call rfl) h
  | stored call n h => exact nodeSteps_of_handleAppendEntries (given call rfl) h
  | committed call n o h apply =>
      exact (nodeSteps_of_handleAppendEntries (given call rfl) h).trans
        (nodeSteps_of_applyCommitted apply)
  | answered call resp n calls h => exact nodeSteps_of_handleAppendResponse h
  | acknowledged call resp n o h apply =>
      exact (nodeSteps_of_handleAppendResponse h).trans (nodeSteps_of_applyCommitted apply)
  | win k term n calls task h => exact nodeSteps_of_winElection h
  | count k term peerID e task election few => exact .refl
  | countLast k term peerID e task election enough => exact .refl
  | begin k d c task => exact .refl
  | run k d c task =>
      rw [Proc.toPhase, Proc.afterCallback_node]
  | addPeer k d c task => exact nodeSteps_of_addPeer _ _ _
  | replicate k d c n calls task h => exact .single (.of_replicateLocked h)
  | removePeer k d c task => exact nodeSteps_of_removePeer _ _
  | finish k d c o task h =>
      exact (nodeSteps_of_finishApply p.node d).trans (nodeSteps_of_applyCommitted h)
  | wake k w waits ready => exact .refl
  | cancel k w waits => exact .single (.forget p.node w.index)

end Chains

/-- The AppendEntries call that a step delivers, and the node it is delivered to. -/
def delivered (S : Setup) (σ : Sys) : Action → Option (String × Call AppendEntriesRequest)
  | .deliver k =>
      match σ.net[k]? with
      | some (.appendCall call) => (S.target σ (.appendCall call)).map fun i => (i, call)
      | _ => none
  | _ => none

/-- Requests of the node's term or a later one are delivered only where `ok` holds. -/
def OnDelivery (S : Setup) (ok : Proc → AppendEntriesRequest → Prop) (σ : Sys) (a : Action) :
    Prop :=
  ∀ d ∈ delivered S σ a, (σ.node d.1).currentTerm ≤ d.2.req.term → ok (σ.procs d.1) d.2.req

instance (S : Setup) (ok : Proc → AppendEntriesRequest → Prop) [∀ p req, Decidable (ok p req)]
    (σ : Sys) (a : Action) : Decidable (OnDelivery S ok σ a) :=
  inferInstanceAs (Decidable (∀ d ∈ delivered S σ a, _ → _))

theorem OnDelivery.at {S : Setup} {ok : Proc → AppendEntriesRequest → Prop} {σ : Sys}
    {k : Nat} {call : Call AppendEntriesRequest} {i : String}
    (h : OnDelivery S ok σ (.deliver k)) (hm : σ.net[k]? = some (.appendCall call))
    (hi : S.target σ (.appendCall call) = some i)
    (current : (σ.node i).currentTerm ≤ call.req.term) : ok (σ.procs i) call.req :=
  h (i, call) (by simp [delivered, hm, hi]) current

theorem Sys.put_procs_self (σ : Sys) (i : String) (net : List Msg) (o : Out) :
    (σ.put i net o).procs i = o.proc := by
  simp [Sys.put]

theorem Sys.put_procs_of_ne (σ : Sys) {i j : String} (net : List Msg) (o : Out) (h : j ≠ i) :
    (σ.put i net o).procs j = σ.procs j := by
  simp [Sys.put, h]

/-- The step gives the input to process `i`. -/
def Feeds (S : Setup) (σ : Sys) (a : Action) (i : String) : Input → Prop
  | .message m => ∃ k, a = .deliver k ∧ σ.net[k]? = some m ∧ S.target σ m = some i
  | .act b => b = a ∧ a.actor = some i ∧ i ∈ S.ids

/-- A step leaves a process alone, or the process handles the input the step gives it. -/
theorem exec_proc {S : Setup} {σ σ' : Sys} {a : Action} (h : exec S σ a = .ok σ') (i : String) :
    σ'.procs i = σ.procs i ∨ ∃ m o, Feeds S σ a i m ∧
      Handles S.membership (σ.procs i) m o ∧ σ'.procs i = o.proc := by
  have handled {j : String} {net : List Msg} {m : Input} {o : Out}
      (hh : Handles S.membership (σ.procs j) m o) (feeds : Feeds S σ a j m) :
      (σ.put j net o).procs i = σ.procs i ∨ ∃ m o', Feeds S σ a i m ∧
        Handles S.membership (σ.procs i) m o' ∧ (σ.put j net o).procs i = o'.proc := by
    by_cases hi : i = j
    · subst hi
      exact .inr ⟨m, o, feeds, hh, σ.put_procs_self i net o⟩
    · exact .inl (σ.put_procs_of_ne net o hi)
  rcases exec_cases h with ⟨k, rfl⟩ | ⟨k, m, j, o, rfl, hm, hj, hh, rfl⟩ |
    ⟨j, o, ha, member, hh, rfl⟩
  · exact .inl rfl
  · exact handled hh ⟨k, rfl, hm, hj⟩
  · exact handled hh ⟨rfl, ha, member⟩

section Runs

variable {S : Setup} {ok : Node → AppendEntriesRequest → Prop}

theorem exec_nodeSteps {σ σ' : Sys} {a : Action} (h : exec S σ a = .ok σ')
    (given : OnDelivery S (fun p => ok p.node) σ a) (i : String) :
    ReflTransGen (NodeStep ok) (σ.node i) (σ'.node i) := by
  rcases exec_proc h i with same | ⟨m, o, feeds, hh, now⟩
  · have same : σ'.node i = σ.node i := congrArg Proc.node same
    exact same ▸ .refl
  · have now : σ'.node i = o.proc.node := congrArg Proc.node now
    rw [now]
    refine hh.nodeSteps ?_
    rintro call rfl current
    obtain ⟨k, rfl, hm, hi⟩ := feeds
    exact given.at hm hi current

theorem chain_invariant {I : Node → Prop}
    (step : ∀ n n', I n → NodeStep ok n n' → I n') {n n' : Node}
    (h : ReflTransGen (NodeStep ok) n n') (hn : I n) : I n' := by
  induction h with
  | refl => exact hn
  | tail _ last ih => exact step _ _ ih last

/-- An invariant of the node steps holds of every node in every state of a run. -/
theorem Run.node_invariant {I : Node → Prop}
    (start : ∀ id addr peers, I (newNode id addr peers))
    (step : ∀ n n', I n → NodeStep ok n n' → I n') {past : List (Sys × Action)} {σ : Sys}
    (run : Run S past σ) (meets : Transition.Meets (OnDelivery S fun p => ok p.node) past)
    (i : String) : ∀ u ∈ Transition.visited past σ, I (u.node i) := by
  refine Transition.Run.invariant_visited (I := fun σ => I (σ.node i)) ?_ ?_ run meets
  · rintro _ rfl
    exact start _ _ _
  · intro σ a σ' hσ given h
    exact chain_invariant step (exec_nodeSteps h given i) hσ

section Ordered

variable {R : Node → Node → Prop} (refl : ∀ n, R n n)
  (trans : ∀ n m o, R n m → R m o → R n o) (step : ∀ n n', NodeStep ok n n' → R n n')

include refl trans step

theorem exec_ordered (i : String) (σ : Sys) (a : Action) (σ' : Sys)
    (given : OnDelivery S (fun p => ok p.node) σ a) (h : exec S σ a = .ok σ') :
    R (σ.node i) (σ'.node i) :=
  chain_invariant (I := R (σ.node i)) (fun _ _ hm ho => trans _ _ _ hm (step _ _ ho))
    (exec_nodeSteps h given i) (refl _)

/-- A preorder that the node steps respect relates a node's past to its present. -/
theorem Run.node_ordered {past : List (Sys × Action)} {σ : Sys} (run : Run S past σ)
    (meets : Transition.Meets (OnDelivery S fun p => ok p.node) past) (i : String) :
    ∀ u ∈ Transition.visited past σ, R (u.node i) (σ.node i) :=
  Transition.Run.ordered (R := fun u σ => R (u.node i) (σ.node i)) (fun _ => refl _)
    (fun _ _ _ => trans _ _ _) (exec_ordered refl trans step i) run meets

theorem Run.node_comparable {past : List (Sys × Action)} {σ : Sys} (run : Run S past σ)
    (meets : Transition.Meets (OnDelivery S fun p => ok p.node) past) (i : String) :
    ∀ u ∈ Transition.visited past σ, ∀ v ∈ Transition.visited past σ,
      R (u.node i) (v.node i) ∨ R (v.node i) (u.node i) :=
  Transition.Run.comparable (R := fun u σ => R (u.node i) (σ.node i)) (fun _ => refl _)
    (fun _ _ _ => trans _ _ _) (exec_ordered refl trans step i) run meets

end Ordered

end Runs

end DistributedCache.Raft
