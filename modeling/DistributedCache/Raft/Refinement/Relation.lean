import DistributedCache.Lib.Consensus.Growth
import DistributedCache.Raft.Consistent
import DistributedCache.Raft.Tally

/-!
How a deployment relates to the abstract protocol of elected leaders. Every node
is a member with its term and log; a candidate has stood with its log, a leader's
log is the log of its term, what it knows of its peers they have acknowledged,
and every message and goroutine carries evidence of what happened before it.
-/
namespace DistributedCache.Raft.Refinement

open Consensus (Grows lastTerm)

/-- The state of the abstract protocol, with node ids as members. -/
abbrev Ghost := Consensus.State String Entry

/-- Node `q` has voted for `i` in term `t`. -/
def Voted (S : Setup) (g : Ghost) (i q : String) (t : Nat) : Prop :=
  q ∈ S.ids ∧ ∃ l, (⟨q, t, i, l⟩ : Consensus.Ballot String Entry) ∈ g.ballots

/-- The number of votes and of stored copies the code asks for. -/
def majority (S : Setup) : Nat :=
  (S.ids.length - 1) / 2 + 1

def Won (S : Setup) (g : Ghost) (i : String) (t : Nat) : Prop :=
  ∃ Q : Finset String, majority S ≤ Q.card ∧ ∀ r ∈ Q, Voted S g i r t

structure Addressed {Req : Type} (S : Setup) (call : Call Req) : Prop where
  caller : call.caller ∈ S.ids
  peer : call.peerID ∈ S.ids
  other : call.peerID ≠ call.caller
  addr : call.addr = S.addrOf call.peerID

/-- A vote request tells the log its sender stood with. -/
structure VoteCallOK (S : Setup) (g : Ghost) (call : Call RequestVoteRequest) : Prop where
  addressed : Addressed S call
  candidate : call.req.candidateID = call.caller
  stood : ∃ l, g.cand call.caller call.req.term = some l ∧ l ≠ [] ∧
    call.req.lastLogIndex = l.length - 1 ∧ call.req.lastLogTerm = lastTerm Entry.term l

/-- An AppendEntries request ends where its leader's log once ended. -/
structure AppendCallOK (S : Setup) (g : Ghost) (call : Call AppendEntriesRequest) : Prop where
  addressed : Addressed S call
  leads : g.leader call.req.term = some call.caller
  snapshot : ∃ l, g.base call.req.term <+: l ∧ l <+: g.lead call.req.term ∧
    (∃ e, l[call.req.prevLogIndex]? = some e ∧ e.term = call.req.prevLogTerm) ∧
    call.req.entries = l.drop (call.req.prevLogIndex + 1)

/-- The peer has stored everything the request carries. -/
def Acked (g : Ghost) (call : Call AppendEntriesRequest) : Prop :=
  call.req.prevLogIndex + 1 + call.req.entries.length ≤ g.acked call.peerID call.req.term

def MsgOK (S : Setup) (g : Ghost) : Msg → Prop
  | .voteCall call => VoteCallOK S g call
  | .voteReply call resp => VoteCallOK S g call ∧
      (resp.voteGranted = true → Voted S g call.caller call.peerID call.req.term)
  | .appendCall call => AppendCallOK S g call
  | .appendReply call resp => AppendCallOK S g call ∧ (resp.success = true → Acked g call)

def ContOK (S : Setup) (g : Ghost) : Cont → Prop
  | .appendEntries call => AppendCallOK S g call ∧ Acked g call
  | .propose | .appendResponse => True

def TaskOK (S : Setup) (g : Ghost) (i : String) : Task → Prop
  | .electing t | .winning t => Won S g i t
  | .counting t q => Voted S g i q t ∧ q ≠ i ∧ ∃ l, g.cand i t = some l
  | .applying _ phase c =>
      (phase = .pending ∨ phase = .running ∨ phase = .returned) ∧ ContOK S g c

structure NodeOK (S : Setup) (g : Ghost) (i : String) (n : Node) : Prop where
  id : n.id = i
  addr : n.addr = S.addrOf i
  peers : n.peers = S.peerMap i
  term : n.currentTerm = g.term i
  log : n.log = g.log i
  stands : n.role = .candidate →
    g.cand i n.currentTerm = some n.log ∧ g.leader n.currentTerm ≠ some i ∧
      n.votedFor = i ∧ Voted S g i i n.currentTerm
  leads : n.role = .leader → g.leader n.currentTerm = some i ∧
    g.lead n.currentTerm = n.log ∧ n.log.length ≤ g.acked i n.currentTerm
  /-- A vote of the current term is in `votedFor`, or it was for the node itself and
  the term has got another leader. -/
  votes : ∀ b ∈ g.ballots, b.voter = i → b.term = n.currentTerm →
    (b.choice = n.votedFor ∧ n.votedFor ≠ "") ∨
      (b.choice = i ∧ ∃ l, g.leader n.currentTerm = some l ∧ l ≠ i)
  acks : n.role = .leader → ∀ q m, n.matchIndex.lookup q = some m →
    m = 0 ∨ m + 1 ≤ g.acked q n.currentTerm

/-- Entries carry their position. -/
def Indexed (l : List Entry) : Prop :=
  ∀ (k : Nat) (e : Entry), l[k]? = some e → e.index = k

/-- What the abstract protocol does while node `i` takes one step to `n`. New ballots
and acknowledgements can be read off the node's new state. -/
structure Moves (S : Setup) (keep : List Entry → List Entry → Prop) (i : String)
    (g g' : Ghost) (n : Node) : Prop where
  reach : Relation.ReflTransGen (Consensus.Step Entry.term S.ids.toFinset keep) g g'
  grows : Grows g g'
  term : ∀ j, j ≠ i → g'.term j = g.term j
  log : ∀ j, j ≠ i → g'.log j = g.log j
  leader : ∀ t j, j ≠ i → g'.leader t = some j → g.leader t = some j
  lead : ∀ t j, j ≠ i → g.leader t = some j → g'.lead t = g.lead t
  indexed : (∀ t, Indexed (g.lead t)) → ∀ t, Indexed (g'.lead t)
  ballots : ∀ b ∈ g'.ballots, b ∈ g.ballots ∨
    (b.voter = i ∧ b.term = n.currentTerm ∧ b.choice = n.votedFor)
  acked : ∀ x t k, k < g'.acked x t → k < g.acked x t ∨
    (x = i ∧ ∃ e, n.log[k]? = some e ∧ (g'.lead t)[k]? = some e)

section Monotone

variable {S : Setup} {g g' : Ghost}

theorem Voted.mono {i q : String} {t : Nat} (h : Voted S g i q t) (grows : Grows g g') :
    Voted S g' i q t :=
  ⟨h.1, h.2.imp fun _ hb => grows.ballots hb⟩

theorem Won.mono {i : String} {t : Nat} (h : Won S g i t) (grows : Grows g g') :
    Won S g' i t := by
  obtain ⟨Q, hQ, votes⟩ := h
  exact ⟨Q, hQ, fun r hr => (votes r hr).mono grows⟩

theorem VoteCallOK.mono {call : Call RequestVoteRequest} (h : VoteCallOK S g call)
    (grows : Grows g g') : VoteCallOK S g' call := by
  obtain ⟨l, hl, rest⟩ := h.stood
  exact ⟨h.addressed, h.candidate, l, grows.cand _ _ l hl, rest⟩

theorem AppendCallOK.mono {call : Call AppendEntriesRequest} (h : AppendCallOK S g call)
    (grows : Grows g g') : AppendCallOK S g' call := by
  obtain ⟨l, above, below, rest⟩ := h.snapshot
  refine ⟨h.addressed, grows.leader _ _ h.leads, l, ?_, below.trans (grows.lead _), rest⟩
  rw [grows.base _ _ h.leads]
  exact above

theorem Acked.mono {call : Call AppendEntriesRequest} (h : Acked g call) (grows : Grows g g') :
    Acked g' call :=
  Nat.le_trans h (grows.acked _ _)

theorem MsgOK.mono {m : Msg} (h : MsgOK S g m) (grows : Grows g g') : MsgOK S g' m := by
  cases m with
  | voteCall call => exact VoteCallOK.mono h grows
  | voteReply call resp => exact ⟨h.1.mono grows, fun yes => (h.2 yes).mono grows⟩
  | appendCall call => exact AppendCallOK.mono h grows
  | appendReply call resp => exact ⟨h.1.mono grows, fun yes => (h.2 yes).mono grows⟩

theorem ContOK.mono {c : Cont} (h : ContOK S g c) (grows : Grows g g') : ContOK S g' c := by
  cases c with
  | appendEntries call => exact ⟨h.1.mono grows, h.2.mono grows⟩
  | propose => trivial
  | appendResponse => trivial

theorem TaskOK.mono {i : String} {task : Task} (h : TaskOK S g i task) (grows : Grows g g') :
    TaskOK S g' i task := by
  cases task with
  | electing t => exact Won.mono h grows
  | winning t => exact Won.mono h grows
  | counting t q =>
      obtain ⟨vote, other, l, hl⟩ := h
      exact ⟨vote.mono grows, other, l, grows.cand _ _ l hl⟩
  | applying d phase c => exact ⟨h.1, h.2.mono grows⟩

/-- The other nodes stay related. -/
theorem NodeOK.frame {keep : List Entry → List Entry → Prop} {i j : String} {n n' : Node}
    (h : NodeOK S g j n) (moves : Moves S keep i g g' n') (hj : j ≠ i) : NodeOK S g' j n where
  id := h.id
  addr := h.addr
  peers := h.peers
  term := h.term.trans (moves.term j hj).symm
  log := h.log.trans (moves.log j hj).symm
  stands stands := by
    obtain ⟨cand, unled, self, voted⟩ := h.stands stands
    exact ⟨moves.grows.cand _ _ _ cand, fun hl => unled (moves.leader _ j hj hl), self,
      voted.mono moves.grows⟩
  leads leads := by
    obtain ⟨leader, lead, acked⟩ := h.leads leads
    exact ⟨moves.grows.leader _ _ leader, (moves.lead _ j hj leader).trans lead,
      acked.trans (moves.grows.acked _ _)⟩
  votes b hb voter term := by
    rcases moves.ballots b hb with old | ⟨new, _⟩
    · rcases h.votes b old voter term with same | ⟨self, l, hl, other⟩
      · exact .inl same
      · exact .inr ⟨self, l, moves.grows.leader _ _ hl, other⟩
    · exact absurd (voter.symm.trans new) hj
  acks leads q m hm :=
    (h.acks leads q m hm).imp_right fun acked => acked.trans (moves.grows.acked _ _)

end Monotone

end DistributedCache.Raft.Refinement
