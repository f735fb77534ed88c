import DistributedCache.Raft.Refinement.Replication

/-!
Runs of a fixed deployment refine the abstract protocol. The relation also says
where the past of the run shows what the abstract state remembers: a leader of a
term was seen leading it, a ballot was seen in the voter's state, and what a node
has acknowledged was seen in its log.
-/
namespace DistributedCache.Raft.Refinement

open Consensus (Grows Reachable)
open Transition (Meets visited)

structure Refines (S : Setup) (past : List (Sys × Action)) (σ : Sys) (g : Ghost) : Prop where
  nodes : ∀ i ∈ S.ids, NodeOK S g i (σ.node i)
  msgs : ∀ m ∈ σ.net, MsgOK S g m
  tasks : ∀ i ∈ S.ids, ∀ task ∈ (σ.procs i).tasks, TaskOK S g i task
  tally : ∀ i ∈ S.ids, Tallied (majority S) (Voted S g i) i σ.net (σ.procs i)
  indexed : ∀ t, Indexed (g.lead t)
  leaders : ∀ u ∈ visited past σ, ∀ i ∈ S.ids, (u.node i).role = .leader →
    g.leader (u.node i).currentTerm = some i
  ballots : ∀ b ∈ g.ballots, ∃ u ∈ visited past σ,
    (u.node b.voter).currentTerm = b.term ∧ (u.node b.voter).votedFor = b.choice
  acks : ∀ x t k, k < g.acked x t → ∃ u ∈ visited past σ, ∃ e,
    (u.node x).log[k]? = some e ∧ (g.lead t)[k]? = some e

variable {S : Setup} {keep : List Entry → List Entry → Prop} {past : List (Sys × Action)}
  {σ σ' : Sys} {a : Action} {i : String} {g g' : Ghost} {o : Out} {net : List Msg}

theorem refines_start (S : Setup) :
    Refines S [] S.start (Consensus.State.initial [sentinel]) where
  nodes i _ := by
    rw [S.start_node]
    exact ⟨rfl, rfl, rfl, rfl, rfl, by simp [newNode], by simp [newNode], by
      simp [Consensus.State.initial], by simp [newNode]⟩
  msgs := by simp [Setup.start]
  tasks := by simp [Setup.start, Setup.startProc]
  tally _ _ := by
    intro t e he
    simp [Setup.start, Setup.startProc] at he
  indexed t := by
    intro k e he
    by_cases ht : t = 0
    · rw [show (Consensus.State.initial [sentinel] : Ghost).lead t = [sentinel] by
        simp [Consensus.State.initial, ht]] at he
      obtain ⟨hk, rfl⟩ := List.getElem?_eq_some_iff.mp he
      have : k = 0 := by simpa using hk
      subst this
      rfl
    · simp [Consensus.State.initial, ht] at he
  leaders u hu i _ leads := by
    obtain rfl : u = S.start := by simpa [visited] using hu
    rw [S.start_node] at leads
    exact absurd leads (by simp [newNode])
  ballots := by simp [Consensus.State.initial]
  acks := by simp [Consensus.State.initial]

/-- A message that is delivered has reached the node meant to handle it. -/
theorem Refines.handled (h : Refines S past σ g) (hS : S.Consistent) {m : Msg}
    (hm : MsgOK S g m) (hi : S.target σ m = some i) : handler m = i ∧ i ∈ S.ids := by
  have addrs : ∀ j ∈ S.ids, (σ.node j).addr = S.addrOf j := fun j hj => (h.nodes j hj).addr
  have found {c : String} (hi : (S.ids.find? fun i => i = c) = some i) : c = i ∧ i ∈ S.ids := by
    have same : i = c := by simpa using List.find?_some hi
    exact ⟨same.symm, List.mem_of_find?_eq_some hi⟩
  cases m with
  | voteCall call =>
      have ok := VoteCallOK.addressed hm
      rw [Setup.target, ok.addr] at hi
      exact hS.resolve_addrOf addrs ok.peer hi
  | appendCall call =>
      have ok := AppendCallOK.addressed hm
      rw [Setup.target, ok.addr] at hi
      exact hS.resolve_addrOf addrs ok.peer hi
  | voteReply call resp => exact found hi
  | appendReply call resp => exact found hi

/-- No vote goroutine of a node is ahead of the node's term. -/
theorem Refines.unasked (h : Refines S past σ g) (helect : Consensus.Elected S.ids.toFinset g)
    (hi : i ∈ S.ids) {t : Nat} (later : (σ.node i).currentTerm < t) (q : String) :
    ballotMsgs σ.net i t q = 0 ∧ ballotTasks (σ.procs i).tasks t q = 0 := by
  have reached {l : List Entry} (hl : g.cand i t = some l) : False := by
    have := (helect.cand_term i t l hl).2
    rw [(h.nodes i hi).term] at later
    omega
  constructor
  · rw [ballotMsgs, List.countP_eq_zero]
    intro m hm asked
    have ok := h.msgs m hm
    cases m with
    | voteCall call =>
        obtain ⟨rfl, rfl, _⟩ : call.caller = i ∧ call.req.term = t ∧ call.peerID = q := by
          simpa [Msg.ballot?] using asked
        obtain ⟨l, hl, _⟩ := VoteCallOK.stood ok
        exact reached hl
    | voteReply call resp =>
        obtain ⟨rfl, rfl, _⟩ : call.caller = i ∧ call.req.term = t ∧ call.peerID = q := by
          simpa [Msg.ballot?] using asked
        obtain ⟨l, hl, _⟩ := VoteCallOK.stood ok.1
        exact reached hl
    | appendCall call => simp [Msg.ballot?] at asked
    | appendReply call resp => simp [Msg.ballot?] at asked
  · rw [ballotTasks, List.countP_eq_zero]
    intro task htask asked
    have ok := h.tasks i hi task htask
    cases task with
    | counting u r =>
        obtain ⟨rfl, _⟩ : u = t ∧ r = q := by simpa [Task.ballot?] using asked
        obtain ⟨_, _, l, hl⟩ := ok
        exact reached hl
    | electing u => simp [Task.ballot?] at asked
    | winning u => simp [Task.ballot?] at asked
    | applying d phase c => simp [Task.ballot?] at asked

theorem Refines.tally_put (h : Refines S past σ g) (hS : S.Consistent)
    (helect : Consensus.Elected S.ids.toFinset g) (hi : i ∈ S.ids) {m : Input}
    (count : ∀ j t q, ballotMsgs σ.net j t q = ballotMsgs net j t q + ballotMsgs m.received j t q)
    (mine : ∀ call resp, m = .message (.voteReply call resp) → call.caller = i)
    (hh : Handles S.membership (σ.procs i) m o) (result : Result S keep i g o g') :
    ∀ j ∈ S.ids, Tallied (majority S) (Voted S g' j) j (net ++ o.sent)
      ((σ.put i net o).procs j) := by
  have grows := result.moves.grows
  have more (j q : String) (t : Nat) : Voted S g j q t → Voted S g' j q t :=
    fun hv => hv.mono grows
  -- nobody else's votes are touched unless new requests of theirs were sent
  have other {j : String} (hj : j ∈ S.ids) (hne : j ≠ i)
      (sent : ∀ t q, ballotMsgs o.sent j t q ≤ ballotMsgs m.received j t q) :
      Tallied (majority S) (Voted S g' j) j (net ++ o.sent) ((σ.put i net o).procs j) := by
    rw [σ.put_procs_of_ne net o hne]
    refine (h.tally j hj).mono (more j) rfl fun t q => ?_
    have := count j t q
    have := sent t q
    rw [ballotMsgs_append]
    omega
  intro j hj
  have mine' := h.tally i hi
  rcases hh.ballots mine with ⟨el, start, tasks, elections, sent⟩ |
    ⟨k, t, q, e, once, task, election, tasks, elections, sent⟩ | conserves
  · by_cases hne : j = i
    · subst hne
      rw [σ.put_procs_self, sent]
      obtain ⟨hnode, hterm, hmaj, _⟩ := Node.startElectionLocked_ok start
      have fewer (t : Nat) (q : String) : ballotMsgs net j t q ≤ ballotMsgs σ.net j t q := by
        rw [count]
        exact Nat.le_add_right _ _
      have before : Tallied (majority S) (Voted S g' j) j net (σ.procs j) :=
        mine'.mono (more j) rfl fun t q => Nat.add_le_add_right (fewer t q) _
      refine before.stand start ?_ ?_ (fun q => ?_) tasks elections
      · rw [hmaj, majority, ← hS.length_keys hj]
        exact congrArg (fun ps : GoMap String String => ps.keys.length / 2 + 1) (h.nodes j hj).peers
      · have voted := (result.node.stands (by rw [hnode])).2.2.2
        rw [hnode] at voted
        rw [hterm]
        exact voted
      · have none := h.unasked helect hj (t := el.term) (by rw [hterm]; exact Nat.lt_succ_self _) q
        have := fewer el.term q
        exact ⟨by omega, none.2⟩
    · refine other hj hne fun t q => ?_
      rw [sent, (Node.ballotMsgs_election start j t q).2 fun same => hne ?_]
      · exact Nat.zero_le _
      · exact same.1.trans (h.nodes i hi).id
  · have ok := h.tasks i hi _ (List.mem_of_getElem? task)
    by_cases hne : j = i
    · subst hne
      rw [σ.put_procs_self, sent, List.append_nil]
      have before : Tallied (majority S) (Voted S g' j) j net (σ.procs j) :=
        mine'.mono (more j) rfl fun t q => Nat.add_le_add_right (by rw [count]; omega) _
      exact before.count task election (ok.1.mono grows) ok.2.1 tasks elections
    · exact other hj hne fun t q => by rw [sent]; exact Nat.zero_le _
  · by_cases hne : j = i
    · subst hne
      rw [σ.put_procs_self]
      refine mine'.mono (more j) conserves.elections fun t q => ?_
      have := count j t q
      have := conserves.own t q
      rw [ballotMsgs_append]
      omega
    · exact other hj hne fun t q => conserves.others j t q hne

theorem Refines.put (h : Refines S past σ g) (hi : i ∈ S.ids)
    (fewer : ∀ m ∈ net, m ∈ σ.net) (result : Result S keep i g o g')
    (tally : ∀ j ∈ S.ids, Tallied (majority S) (Voted S g' j) j (net ++ o.sent)
      ((σ.put i net o).procs j)) (a : Action) :
    Refines S ((σ, a) :: past) (σ.put i net o) g' := by
  have grows := result.moves.grows
  have now : (σ.put i net o).node i = o.proc.node := congrArg Proc.node (σ.put_procs_self i net o)
  have nodes : ∀ j ∈ S.ids, NodeOK S g' j ((σ.put i net o).node j) := by
    intro j hj
    by_cases hne : j = i
    · rw [hne, now]
      exact result.node
    · rw [Sys.node, σ.put_procs_of_ne net o hne]
      exact (h.nodes j hj).frame result.moves hne
  have seen {u : Sys} (hu : u ∈ visited past σ) : u ∈ visited ((σ, a) :: past) (σ.put i net o) :=
    (Transition.mem_visited_next past σ _ u a).mpr (.inr hu)
  have last := Transition.mem_visited_self ((σ, a) :: past) (σ.put i net o)
  refine ⟨nodes, ?_, ?_, tally, result.moves.indexed h.indexed, ?_, ?_, ?_⟩
  · intro m hm
    rcases List.mem_append.mp hm with old | new
    · exact (h.msgs m (fewer m old)).mono grows
    · exact result.sent m new
  · intro j hj task htask
    by_cases hne : j = i
    · subst hne
      rw [σ.put_procs_self] at htask
      exact result.tasks task htask
    · rw [σ.put_procs_of_ne net o hne] at htask
      exact (h.tasks j hj task htask).mono grows
  · intro u hu j hj leads
    rcases (Transition.mem_visited_next past σ _ u a).mp hu with rfl | old
    · exact ((nodes j hj).leads leads).1
    · exact grows.leader _ _ (h.leaders u old j hj leads)
  · intro b hb
    rcases result.moves.ballots b hb with old | ⟨voter, term, choice⟩
    · obtain ⟨u, hu, shown⟩ := h.ballots b old
      exact ⟨u, seen hu, shown⟩
    · exact ⟨_, last, by rw [voter, now, term], by rw [voter, now, choice]⟩
  · intro x t k hk
    rcases result.moves.acked x t k hk with old | ⟨rfl, e, he, hlead⟩
    · obtain ⟨u, hu, e, he, hlead⟩ := h.acks x t k old
      exact ⟨u, seen hu, e, he, Consensus.getElem?_of_extends (grows.lead t) hlead⟩
    · exact ⟨_, last, e, by rw [now]; exact he, hlead⟩

theorem Refines.drop (h : Refines S past σ g) (k : Nat) (a : Action) :
    Refines S ((σ, a) :: past) { σ with net := σ.net.eraseIdx k } g := by
  have seen {u : Sys} (hu : u ∈ visited past σ) :
      u ∈ visited ((σ, a) :: past) { σ with net := σ.net.eraseIdx k } :=
    (Transition.mem_visited_next past σ _ u a).mpr (.inr hu)
  refine ⟨h.nodes, ?_, h.tasks, ?_, h.indexed, ?_, ?_, ?_⟩
  · exact fun m hm => h.msgs m (List.mem_of_mem_eraseIdx hm)
  · intro i hi
    refine (h.tally i hi).mono (fun _ _ hv => hv) rfl fun t q => ?_
    exact Nat.add_le_add_right (ballotMsgs_sublist (List.eraseIdx_sublist _ _)) _
  · intro u hu i hi leads
    rcases (Transition.mem_visited_next past σ _ u a).mp hu with rfl | old
    · exact h.leaders σ (Transition.mem_visited_self past σ) i hi leads
    · exact h.leaders u old i hi leads
  · intro b hb
    obtain ⟨u, hu, shown⟩ := h.ballots b hb
    exact ⟨u, seen hu, shown⟩
  · intro x t k hk
    obtain ⟨u, hu, shown⟩ := h.acks x t k hk
    exact ⟨u, seen hu, shown⟩

/-- A deployment of an odd number of nodes whose callback leaves the peers alone. -/
structure Fixed (S : Setup) : Prop where
  consistent : S.Consistent
  odd : Odd S.ids.length
  static : S.membership = false

theorem zero_sentinel : ∀ e ∈ [sentinel], e.term = 0 := by
  simp [sentinel]

theorem Refines.setting (h : Refines S past σ g) (fixed : Fixed S)
    (reach : Reachable Entry.term S.ids.toFinset keep [sentinel] g) (hi : i ∈ S.ids) :
    Setting S i g (σ.procs i) :=
  ⟨fixed.consistent, fixed.odd, hi, Consensus.elected_reachable reach,
    Consensus.matched_reachable zero_sentinel reach, h.indexed, h.nodes i hi, h.tasks i hi⟩

/-- One step of the deployment is any number of steps of the abstract protocol. -/
theorem refines_step (fixed : Fixed S)
    (reach : Reachable Entry.term S.ids.toFinset keep [sentinel] g) (h : Refines S past σ g)
    (given : OnDelivery S (fun p => KeepsOnAccept keep p.node) σ a)
    (step : exec S σ a = .ok σ') :
    ∃ g', Relation.ReflTransGen (Consensus.Step Entry.term S.ids.toFinset keep) g g' ∧
      Grows g g' ∧ Refines S ((σ, a) :: past) σ' g' := by
  have helect := Consensus.elected_reachable reach
  rcases exec_cases step with ⟨k, rfl⟩ | ⟨k, m, i, o, rfl, hm, hi, hh, rfl⟩ |
    ⟨i, o, _, hi, hh, rfl⟩
  · exact ⟨g, .refl, .refl g, h.drop k a⟩
  · have ok := h.msgs m (List.mem_of_getElem? hm)
    obtain ⟨here, member⟩ := h.handled fixed.consistent ok hi
    have setting := h.setting fixed reach member
    obtain ⟨g', result⟩ := setting.refines (m := .message m) (h.tally i member)
      (by rintro x ⟨⟩; exact ⟨ok, here⟩)
      (by
        rintro call hcall current
        obtain rfl := Input.message.inj hcall
        exact given.at hm hi current)
      (fixed.static ▸ hh)
    refine ⟨g', result.moves.reach, result.moves.grows, h.put member ?_ result ?_ _⟩
    · exact fun x hx => List.mem_of_mem_eraseIdx hx
    · refine h.tally_put fixed.consistent helect member (fun j t q => ?_) ?_ hh result
      · exact ballotMsgs_eraseIdx hm
      · rintro call resp hreply
        obtain rfl := Input.message.inj hreply
        exact here
  · have setting := h.setting fixed reach hi
    obtain ⟨g', result⟩ := setting.refines (m := .act a) (h.tally i hi)
      (by rintro x ⟨⟩) (by rintro call ⟨⟩) (fixed.static ▸ hh)
    refine ⟨g', result.moves.reach, result.moves.grows, h.put hi (fun _ hx => hx) result ?_ _⟩
    exact h.tally_put fixed.consistent helect hi (fun _ _ _ => rfl) (by rintro call resp ⟨⟩) hh
      result

/-- Every run refines a run of the abstract protocol. -/
theorem refines_run (fixed : Fixed S) (run : Run S past σ)
    (meets : Meets (OnDelivery S fun p => KeepsOnAccept keep p.node) past) :
    ∃ g, Reachable Entry.term S.ids.toFinset keep [sentinel] g ∧ Refines S past σ g := by
  refine Transition.Run.simulate (R := Refines S) ?_ ?_ run meets
  · rintro _ rfl
    exact refines_start S
  · intro past σ a σ' g reach h given step
    obtain ⟨g', more, _, h'⟩ := refines_step fixed reach h given step
    exact ⟨g', more, h'⟩

/-- More than half of the nodes have stored what a leader commits. -/
theorem NodeOK.quorum (h : NodeOK S g i n) (fixed : Fixed S) (hi : i ∈ S.ids)
    (leads : n.role = .leader) {c : Nat} (pos : 0 < c) (advance : n.Advance c) :
    ∃ Q, Quorum.Majority S.ids.toFinset Q ∧ ∀ x ∈ Q, c < g.acked x n.currentTerm := by
  have hS := fixed.consistent
  obtain ⟨_, _, own⟩ := h.leads leads
  have acks := advance.acks
  rw [Node.ackCount, h.id, h.peers, hS.length_keys hi] at acks
  -- the copies counted, as a set of nodes
  let others := ((S.peerMap i).keys.filter fun id => id ≠ i).filter fun id =>
    (n.matchIndex.lookup id).getD 0 ≥ c
  have nodup : others.Nodup := ((S.peerMap i).keys_nodup.filter _).filter _
  have member {q : String} (hq : q ∈ others) : q ∈ S.ids ∧ q ≠ i ∧
      c ≤ (n.matchIndex.lookup q).getD 0 := by
    obtain ⟨hq, stored⟩ := List.mem_filter.mp hq
    have mem := (hS.mem_peerMap hi q).mp (List.mem_filter.mp hq).1
    exact ⟨mem.1, mem.2, by simpa using stored⟩
  have card : (insert i others.toFinset).card = 1 + others.length := by
    rw [Finset.card_insert_of_notMem, List.toFinset_card_of_nodup nodup, Nat.add_comm]
    exact fun hmem => (member (List.mem_toFinset.mp hmem)).2.1 rfl
  refine ⟨insert i others.toFinset, .of_threshold ?_ ?_ ?_, ?_⟩
  · rw [hS.card_ids]
    exact fixed.odd
  · intro x hx
    rcases Finset.mem_insert.mp hx with rfl | hx
    · exact List.mem_toFinset.mpr hi
    · exact List.mem_toFinset.mpr (member (List.mem_toFinset.mp hx)).1
  · rw [hS.card_ids, card]
    exact acks
  · intro x hx
    rcases Finset.mem_insert.mp hx with rfl | hx
    · exact advance.below.trans_le own
    · obtain ⟨_, _, stored⟩ := member (List.mem_toFinset.mp hx)
      cases hm : n.matchIndex.lookup x with
      | none =>
          rw [hm] at stored
          exact absurd (pos.trans_le stored) (by simp)
      | some m =>
          rw [hm] at stored
          have stored : c ≤ m := stored
          rcases h.acks leads x m hm with rfl | acked
          · omega
          · omega

end DistributedCache.Raft.Refinement
