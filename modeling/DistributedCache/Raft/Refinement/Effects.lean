import DistributedCache.Lib.Consensus.Completeness
import DistributedCache.Raft.Refinement.Relation

/-!
The steps of the abstract protocol that the sections of a node amount to, one
after the other: the step may be taken, and it leaves the node related.
-/
namespace DistributedCache.Raft.Refinement

open Consensus (Grows Elected Matched UpToDate FreeToVote)

variable {S : Setup} {keep : List Entry → List Entry → Prop} {i : String} {g : Ghost}
  {n n' : Node}

theorem NodeOK.congr (h : NodeOK S g i n) (id : n'.id = n.id) (addr : n'.addr = n.addr)
    (peers : n'.peers = n.peers) (role : n'.role = n.role)
    (term : n'.currentTerm = n.currentTerm) (vote : n'.votedFor = n.votedFor)
    (log : n'.log = n.log) (matched : n'.matchIndex = n.matchIndex) : NodeOK S g i n' where
  id := id.trans h.id
  addr := addr.trans h.addr
  peers := peers.trans h.peers
  term := term.trans h.term
  log := log.trans h.log
  stands := by rw [role, term, log, vote]; exact h.stands
  leads := by rw [role, term, log]; exact h.leads
  votes := by rw [term, vote]; exact h.votes
  acks := by rw [role, term, matched]; exact h.acks

theorem Moves.refl (S : Setup) (keep : List Entry → List Entry → Prop) (i : String)
    (g : Ghost) (n : Node) : Moves S keep i g g n where
  reach := .refl
  grows := .refl g
  term _ _ := rfl
  log _ _ := rfl
  leader _ _ _ h := h
  lead _ _ _ _ := rfl
  indexed h := h
  ballots _ h := .inl h
  acked _ _ _ h := .inl h

section Observe

/-- The node hears of a later term before anything else happens. -/
theorem Moves.observe {t : Nat} {g' : Ghost} (later : g.term i ≤ t)
    (h : Moves S keep i (g.setTerm i t) g' n) : Moves S keep i g g' n where
  reach := .head (.observe g i t later) h.reach
  grows := (Consensus.grows_setTerm i t later).trans h.grows
  term j hj := (h.term j hj).trans (by simp [Consensus.State.setTerm, hj])
  log := h.log
  leader := h.leader
  lead := h.lead
  indexed := h.indexed
  ballots := h.ballots
  acked := h.acked

theorem setTerm_self (g : Ghost) (i : String) : g.setTerm i (g.term i) = g := by
  simp [Consensus.State.setTerm]

theorem NodeOK.becomeFollower (h : NodeOK S g i n) (helect : Elected S.ids.toFinset g)
    {t : Nat} (newer : n.currentTerm < t) (leaderID : String) :
    NodeOK S (g.setTerm i t) i (n.becomeFollowerLocked t leaderID) where
  id := h.id
  addr := h.addr
  peers := h.peers
  term := by simp [Consensus.State.setTerm, Node.becomeFollowerLocked]
  log := h.log
  stands stands := absurd stands (by simp [Node.becomeFollowerLocked])
  leads leads := absurd leads (by simp [Node.becomeFollowerLocked])
  votes b hb voter term := by
    have reached := helect.ballot_term b hb
    rw [voter, ← h.term, term] at reached
    exact absurd newer (Nat.not_lt.mpr reached)
  acks leads := absurd leads (by simp [Node.becomeFollowerLocked])

/-- Only a candidate has its vote cleared in its own term, and then another node has
won the term. -/
theorem NodeOK.stepAside (h : NodeOK S g i n) {l : String} (busy : n.role ≠ .follower)
    (leads : g.leader n.currentTerm = some l) (other : l ≠ i) (leaderID : String) :
    NodeOK S g i (n.becomeFollowerLocked n.currentTerm leaderID) where
  id := h.id
  addr := h.addr
  peers := h.peers
  term := h.term
  log := h.log
  stands stands := absurd stands (by simp [Node.becomeFollowerLocked])
  leads leads := absurd leads (by simp [Node.becomeFollowerLocked])
  votes b hb voter term := by
    refine .inr ⟨?_, l, leads, other⟩
    rcases h.votes b hb voter term with ⟨same, _⟩ | ⟨self, _⟩
    · have stands : n.role = .candidate := by
        cases hrole : n.role with
        | follower => exact absurd hrole busy
        | candidate => rfl
        | leader =>
            rw [(h.leads hrole).1, Option.some_inj] at leads
            exact absurd leads.symm other
      exact same.trans (h.stands stands).2.2.1
    · exact self
  acks leads := absurd leads (by simp [Node.becomeFollowerLocked])

theorem NodeOK.observeLeader (h : NodeOK S g i n) (helect : Elected S.ids.toFinset g)
    {req : AppendEntriesRequest} {l : String} (current : n.currentTerm ≤ req.term)
    (leads : g.leader req.term = some l) (other : l ≠ i) :
    NodeOK S (g.setTerm i req.term) i (n.observeLeader req) := by
  rcases Nat.lt_or_eq_of_le current with newer | same
  · rw [Node.observeLeader_of_newer newer]
    exact h.becomeFollower helect newer _
  · rw [← same, h.term, setTerm_self]
    rw [← same] at leads
    by_cases idle : n.role = .follower
    · rw [Node.observeLeader_of_idle same idle]
      exact h.congr rfl rfl rfl rfl rfl rfl rfl rfl
    · have : n.observeLeader req = n.becomeFollowerLocked n.currentTerm req.leaderID := by
        simp [Node.observeLeader, same, idle]
      rw [this]
      exact h.stepAside idle leads other _

theorem NodeOK.observeVote (h : NodeOK S g i n) (helect : Elected S.ids.toFinset g)
    {req : RequestVoteRequest} (current : n.currentTerm ≤ req.term) :
    NodeOK S (g.setTerm i req.term) i (n.observeVote req) := by
  unfold Node.observeVote
  split
  · rename_i newer
    exact h.becomeFollower helect newer _
  · have same : req.term = g.term i := by have := h.term; omega
    rw [same, setTerm_self]
    exact h

end Observe

section Vote

theorem NodeOK.free (h : NodeOK S g i n) {c : String}
    (free : n.votedFor = "" ∨ n.votedFor = c) : FreeToVote g i c := by
  intro b hb voter term
  rw [← h.term] at term ⊢
  rcases h.votes b hb voter term with ⟨same, voted⟩ | self
  · exact .inl (same.trans (free.resolve_left voted))
  · exact .inr self

theorem Moves.vote {c : String} {l : List Entry} (standing : g.cand c (g.term i) = some l)
    (fresh : UpToDate Entry.term l (g.log i)) (free : FreeToVote g i c)
    (term : n.currentTerm = g.term i) (vote : n.votedFor = c) :
    Moves S keep i g (g.vote i c) n where
  reach := .single (.vote g i c l standing fresh free)
  grows := { Grows.refl g with ballots := Set.subset_insert _ _ }
  term _ _ := rfl
  log _ _ := rfl
  leader _ _ _ h := h
  lead _ _ _ _ := rfl
  indexed h := h
  ballots := by
    rintro b (rfl | hb)
    · exact .inr ⟨rfl, term.symm, vote.symm⟩
    · exact .inl hb
  acked _ _ _ h := .inl h

theorem NodeOK.vote (h : NodeOK S g i n) {c : String} (hc : c ≠ "") (hi : c ≠ i)
    (named : i ≠ "") (free : n.votedFor = "" ∨ n.votedFor = c) :
    NodeOK S (g.vote i c) i { n with votedFor := c } where
  id := h.id
  addr := h.addr
  peers := h.peers
  term := h.term
  log := h.log
  stands stands := by
    -- a candidate has voted for itself and is not free to vote for another node
    have self := (h.stands stands).2.2.1
    rcases free with none | same
    · exact absurd (self.symm.trans none) named
    · exact absurd (same.symm.trans self) hi
  leads := h.leads
  votes b hb voter term := by
    rcases hb with rfl | hb
    · exact .inl ⟨rfl, hc⟩
    · rcases h.votes b hb voter term with ⟨same, voted⟩ | self
      · exact .inl ⟨same.trans (free.resolve_left voted), hc⟩
      · exact .inr self
  acks := h.acks

end Vote

section Stand

theorem Moves.stand (helect : Elected S.ids.toFinset g)
    (term : n.currentTerm = g.term i + 1) (vote : n.votedFor = i) :
    Moves S keep i g (g.stand i) n where
  reach := .single (.stand g i)
  grows := Consensus.grows_stand helect i
  term j hj := by simp [Consensus.State.stand, hj]
  log _ _ := rfl
  leader _ _ _ h := h
  lead _ _ _ _ := rfl
  indexed h := h
  ballots := by
    rintro b (rfl | hb)
    · exact .inr ⟨rfl, term.symm, vote.symm⟩
    · exact .inl hb
  acked _ _ _ h := .inl h

theorem NodeOK.stand (h : NodeOK S g i n) (helect : Elected S.ids.toFinset g)
    (member : i ∈ S.ids) (named : i ≠ "") :
    NodeOK S (g.stand i) i { n with
      role := .candidate, currentTerm := n.currentTerm + 1, votedFor := n.id, leaderID := "" } where
  id := h.id
  addr := h.addr
  peers := h.peers
  term := by simp [Consensus.State.stand, h.term]
  log := h.log
  stands _ := by
    refine ⟨?_, fun leads => ?_, h.id, member, g.log i, .inl (by rw [h.term])⟩
    · simp [Consensus.State.stand, h.term, h.log]
    · have reached : n.currentTerm + 1 ≤ g.term i := (helect.leader_term _ _ leads).2
      have := h.term
      omega
  leads leads := absurd leads (by simp)
  votes b hb voter term := by
    rcases hb with rfl | hb
    · exact .inl ⟨h.id.symm, by rw [h.id]; exact named⟩
    · have reached : n.currentTerm + 1 ≤ n.currentTerm := by
        have := helect.ballot_term b hb
        rwa [voter, ← h.term, term] at this
      omega
  acks leads := absurd leads (by simp)

end Stand

section Lead

theorem Indexed.of_traced {l : List Entry} (h : Consensus.Traced Entry.term g l)
    (indexed : ∀ t, Indexed (g.lead t)) : Indexed l := by
  intro k e he
  have hk : k < l.length := (List.getElem?_eq_some_iff.mp he).1
  refine indexed e.term k e (Consensus.getElem?_of_extends (h k e he) ?_)
  rwa [List.getElem?_take_of_lt (Nat.lt_succ_self k)]

theorem Moves.elect (helect : Elected S.ids.toFinset g)
    (hmatch : Matched Entry.term [sentinel] g) {Q : Finset String}
    (majority : Quorum.Majority S.ids.toFinset Q)
    (standing : g.cand i (g.term i) = some (g.log i)) (unled : g.leader (g.term i) ≠ some i)
    (won : ∀ x ∈ Q, ∃ l, ⟨x, g.term i, i, l⟩ ∈ g.ballots) (log : n.log = g.log i) :
    Moves S keep i g (g.elect i) n := by
  have hnone := Consensus.unled_of_won helect i Q majority unled won
  have hpos := (helect.cand_term i _ _ standing).1
  have elsewhere {t : Nat} {j : String} (hl : g.leader t = some j) : t ≠ g.term i := by
    rintro rfl
    simp [hnone] at hl
  refine ⟨.single (.elect g i Q majority standing unled won),
    Consensus.grows_elect hmatch i (by omega) hnone, fun _ _ => rfl, fun _ _ => rfl, ?_, ?_, ?_,
    fun _ hb => .inl hb, ?_⟩
  · intro t j hj hl
    by_cases ht : t = g.term i
    · subst ht
      rw [show (g.elect i).leader (g.term i) = some i by simp [Consensus.State.elect],
        Option.some_inj] at hl
      exact absurd hl.symm hj
    · simpa [Consensus.State.elect, ht] using hl
  · intro t j _ hl
    simp [Consensus.State.elect, elsewhere hl]
  · intro indexed t
    by_cases ht : t = g.term i
    · subst ht
      rw [show (g.elect i).lead (g.term i) = g.log i by simp [Consensus.State.elect]]
      exact .of_traced (hmatch.log_traced i) indexed
    · rw [show (g.elect i).lead t = g.lead t by simp [Consensus.State.elect, ht]]
      exact indexed t
  · intro x t k hk
    rcases Consensus.le_ack_cases g (Nat.succ_le_of_lt hk) with old | ⟨rfl, rfl, hlt⟩
    · exact .inl old
    · have he := List.getElem?_eq_getElem (Nat.lt_of_succ_le hlt)
      refine .inr ⟨rfl, _, by rw [log]; exact he, ?_⟩
      simp [Consensus.State.elect]

theorem NodeOK.elect (h : NodeOK S g i n)
    (hnone : g.leader n.currentTerm = none) {next : GoMap String Nat}
    {matched : GoMap String Nat} (zero : ∀ q m, matched.lookup q = some m → m = 0) :
    NodeOK S (g.elect i) i { n with
      role := .leader, leaderID := n.id, nextIndex := next, matchIndex := matched } where
  id := h.id
  addr := h.addr
  peers := h.peers
  term := h.term
  log := h.log
  stands stands := absurd stands (by simp)
  leads _ := by
    refine ⟨?_, ?_, ?_⟩
    · simp [Consensus.State.elect, h.term]
    · simp [Consensus.State.elect, h.term, h.log]
    · simp [Consensus.State.elect, Consensus.State.ack, h.term, h.log]
  votes b hb voter term := by
    rcases h.votes b hb voter term with same | ⟨_, l, hl, _⟩
    · exact .inl same
    · exact absurd (hnone.symm.trans hl) (by simp)
  acks _ q m hm := .inl (zero q m hm)

theorem Moves.append {e : Entry} (leads : g.leader (g.term i) = some i)
    (current : g.log i = g.lead (g.term i)) (own : e.term = g.term i)
    (index : e.index = (g.log i).length) (log : n.log = g.log i ++ [e]) :
    Moves S keep i g (g.append i e) n := by
  refine ⟨.single (.append g i e leads current own), Consensus.grows_append i e current,
    fun _ _ => rfl, fun j hj => by simp [Consensus.State.append, hj], fun _ _ _ h => h, ?_, ?_,
    fun _ hb => .inl hb, ?_⟩
  · intro t j hj hl
    have ht : t ≠ g.term i := by
      rintro rfl
      rw [leads, Option.some_inj] at hl
      exact hj hl.symm
    simp [Consensus.State.append, ht]
  · intro indexed t
    by_cases ht : t = g.term i
    · subst ht
      rw [show (g.append i e).lead (g.term i) = g.log i ++ [e] by simp [Consensus.State.append],
        current]
      intro k d hd
      by_cases hk : k < (g.lead (g.term i)).length
      · rw [List.getElem?_append_left hk] at hd
        exact indexed _ k d hd
      · have bound : k < (g.lead (g.term i) ++ [e]).length := (List.getElem?_eq_some_iff.mp hd).1
        have last : k = (g.lead (g.term i)).length := by simp at bound; omega
        rw [last, List.getElem?_concat_length, Option.some_inj] at hd
        rw [← hd, index, current, last]
    · rw [show (g.append i e).lead t = g.lead t by simp [Consensus.State.append, ht]]
      exact indexed t
  · intro x t k hk
    rcases Consensus.le_ack_cases g (Nat.succ_le_of_lt hk) with old | ⟨rfl, rfl, hlt⟩
    · exact .inl old
    · have bound : k < (g.log x ++ [e]).length := by simp; omega
      have he := List.getElem?_eq_getElem bound
      refine .inr ⟨rfl, _, by rw [log]; exact he, ?_⟩
      rw [show (g.append x e).lead (g.term x) = g.log x ++ [e] by simp [Consensus.State.append]]
      exact he

theorem NodeOK.append (h : NodeOK S g i n) (leads : n.role = .leader) (cmd : Command) :
    NodeOK S (g.append i (n.appendProposal cmd).2) i (n.appendProposal cmd).1 where
  id := h.id
  addr := h.addr
  peers := h.peers
  term := h.term
  log := by simp [Consensus.State.append, Node.appendProposal, h.log]
  stands stands := absurd (leads.symm.trans stands) (by simp)
  leads _ := by
    refine ⟨(h.leads leads).1, ?_, ?_⟩
    · simp [Consensus.State.append, Node.appendProposal, h.term, h.log]
    · simp [Consensus.State.append, Consensus.State.ack, Node.appendProposal, h.term, h.log]
  votes := h.votes
  acks _ q m hm :=
    (h.acks leads q m hm).imp_right fun acked => acked.trans (Consensus.le_ack g _ _ _ _ _)

end Lead

section Adopt

theorem Moves.adopt {l : String} {m : List Entry} (leads : g.leader (g.term i) = some l)
    (other : l ≠ i) (above : g.base (g.term i) <+: m) (below : m <+: g.lead (g.term i))
    (kept : keep (g.log i) m) (log : n.log = m) : Moves S keep i g (g.adopt i m) n := by
  refine ⟨.single (.adopt g i l m leads other above below kept), Consensus.grows_adopt i m,
    fun _ _ => rfl, fun j hj => by simp [Consensus.State.adopt, hj], fun _ _ _ h => h,
    fun _ _ _ _ => rfl, fun h => h, fun _ hb => .inl hb, ?_⟩
  intro x t k hk
  rcases Consensus.le_ack_cases g (Nat.succ_le_of_lt hk) with old | ⟨rfl, rfl, hlt⟩
  · exact .inl old
  · have he := List.getElem?_eq_getElem (Nat.lt_of_succ_le hlt)
    exact .inr ⟨rfl, _, log ▸ he, Consensus.getElem?_of_extends below he⟩

theorem NodeOK.adopt (h : NodeOK S g i n) (idle : n.role = .follower) {m : List Entry}
    (id : n'.id = n.id) (addr : n'.addr = n.addr) (peers : n'.peers = n.peers)
    (role : n'.role = n.role) (term : n'.currentTerm = n.currentTerm)
    (vote : n'.votedFor = n.votedFor) (log : n'.log = m) : NodeOK S (g.adopt i m) i n' where
  id := id.trans h.id
  addr := addr.trans h.addr
  peers := peers.trans h.peers
  term := term.trans h.term
  log := by simp [Consensus.State.adopt, log]
  stands stands := by simp [role, idle] at stands
  leads leads := by simp [role, idle] at leads
  votes := by rw [term, vote]; exact h.votes
  acks leads := by simp [role, idle] at leads

end Adopt

end DistributedCache.Raft.Refinement
