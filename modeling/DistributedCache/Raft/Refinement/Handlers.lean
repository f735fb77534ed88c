import DistributedCache.Raft.Refinement.Effects

/-!
Every handler of a node takes steps of the abstract protocol, and leaves the node,
the messages it sends and its goroutines related to where they lead.
-/
namespace DistributedCache.Raft.Refinement

open Consensus (Grows Elected Matched lastTerm)

/-- What a handler of node `i` has to establish. -/
structure Result (S : Setup) (keep : List Entry → List Entry → Prop) (i : String) (g : Ghost)
    (o : Out) (g' : Ghost) : Prop where
  moves : Moves S keep i g g' o.proc.node
  node : NodeOK S g' i o.proc.node
  sent : ∀ m ∈ o.sent, MsgOK S g' m
  tasks : ∀ task ∈ o.proc.tasks, TaskOK S g' i task

variable {S : Setup} {keep : List Entry → List Entry → Prop} {i : String} {g g' : Ghost}
  {n n' : Node} {p : Proc} {o : Out}

theorem Moves.congr (h : Moves S keep i g g' n) (term : n'.currentTerm = n.currentTerm)
    (vote : n'.votedFor = n.votedFor) (log : n'.log = n.log) : Moves S keep i g g' n' where
  __ := h
  ballots := by rw [term, vote]; exact h.ballots
  acked := by rw [log]; exact h.acked

theorem addressed_of_peer {Req : Type} (hS : S.Consistent) (hi : i ∈ S.ids)
    (node : NodeOK S g i n) {call : Call Req} (caller : call.caller = n.id)
    (peer : (call.peerID, call.addr) ∈ n.peerAddrsLocked) : Addressed S call := by
  have hcaller : call.caller = i := caller.trans node.id
  have hlook := (Node.mem_peerAddrsLocked.mp peer).1
  rw [node.peers] at hlook
  obtain ⟨hmem, hne, haddr⟩ := hS.of_lookup_peerMap hi hlook
  exact ⟨hcaller ▸ hi, hmem, hcaller ▸ hne, haddr⟩

section Append

theorem AppendCallOK.of_snapshot (hS : S.Consistent) (hi : i ∈ S.ids) (node : NodeOK S g i n)
    (hmatch : Matched Entry.term [sentinel] g) (leads : n.role = .leader)
    {call : Call AppendEntriesRequest} (caller : call.caller = n.id)
    (peer : (call.peerID, call.addr) ∈ n.peerAddrsLocked) (snapshot : n.Snapshot call.req) :
    AppendCallOK S g call := by
  obtain ⟨leader, lead, _⟩ := node.leads leads
  refine ⟨addressed_of_peer hS hi node caller peer, ?_, n.log, ?_, ?_, snapshot.prev,
    snapshot.entries⟩
  · rw [snapshot.term, caller, node.id]
    exact leader
  · rw [snapshot.term, ← lead]
    exact hmatch.base_prefix _
  · rw [snapshot.term, lead]

theorem appendReceived_of_indexed (l m : List Entry) (h : Indexed (l ++ m)) :
    Node.appendReceived l m = l ++ m := by
  induction m generalizing l with
  | nil => exact (List.append_nil l).symm
  | cons e rest ih =>
      have index : e.index = l.length := h l.length e (by simp)
      have same : { e with index := l.length } = e := by rw [← index]
      rw [Node.appendReceived, same, ih (l ++ [e]) (by simpa using h), List.append_assoc,
        List.singleton_append]

/-- An accepted request leaves the node with the log its leader had. -/
theorem AppendCallOK.store_log (hmatch : Matched Entry.term [sentinel] g)
    (indexed : ∀ t, Indexed (g.lead t)) (node : NodeOK S g i n)
    {call : Call AppendEntriesRequest} (h : AppendCallOK S g call)
    (accepts : n.Accepts call.req) :
    g.base call.req.term <+: (n.storeEntries call.req).log ∧
      (n.storeEntries call.req).log <+: g.lead call.req.term := by
  obtain ⟨l, above, below, ⟨d, hd, hdterm⟩, hentries⟩ := h.snapshot
  obtain ⟨_, e, he, heterm⟩ := accepts
  have common : n.log.take (call.req.prevLogIndex + 1) = l.take (call.req.prevLogIndex + 1) :=
    Consensus.Traced.matching (node.log ▸ hmatch.log_traced i)
      ((hmatch.lead_traced _).shorten below) he hd (heterm.trans hdterm.symm)
  have stored : (n.storeEntries call.req).log = l := by
    rw [Node.storeEntries_log (List.getElem?_eq_some_iff.mp he).1, common, hentries,
      appendReceived_of_indexed, List.take_append_drop]
    rw [List.take_append_drop]
    exact fun k e hk => indexed _ k e (Consensus.getElem?_of_extends below hk)
  rw [stored]
  exact ⟨above, below⟩

end Append

/-- Handlers that change only what the relation does not look at. -/
theorem Result.still (node : NodeOK S g i o.proc.node) (sent : ∀ m ∈ o.sent, MsgOK S g m)
    (tasks : ∀ task ∈ o.proc.tasks, TaskOK S g i task) : ∃ g', Result S keep i g o g' :=
  ⟨g, .refl S keep i g _, node, sent, tasks⟩

theorem Result.of_replicate (hS : S.Consistent) (hi : i ∈ S.ids)
    (hmatch : Matched Entry.term [sentinel] g') (moves : Moves S keep i g g' n)
    (node : NodeOK S g' i n) {calls : List (Call AppendEntriesRequest)}
    (h : n.replicateLocked = .ok (n', calls)) {p : Proc} (hp : p.node = n') {events : List Event}
    (tasks : ∀ task ∈ p.tasks, TaskOK S g' i task) :
    Result S keep i g ⟨p, calls.map .appendCall, events⟩ g' := by
  obtain ⟨⟨next, rfl⟩, hcalls⟩ := Node.replicateLocked_ok h
  refine ⟨hp ▸ moves.congr rfl rfl rfl, hp ▸ node.congr rfl rfl rfl rfl rfl rfl rfl rfl, ?_,
    tasks⟩
  intro m hm
  obtain ⟨call, hcall, rfl⟩ := List.mem_map.mp hm
  obtain ⟨leads, caller, peer, snapshot⟩ := hcalls call hcall
  exact AppendCallOK.of_snapshot hS hi node hmatch leads caller peer snapshot

/-- The apply loop neither moves the abstract protocol nor breaks the relation. -/
theorem Result.of_applyCommitted (hS : S.Consistent) (hi : i ∈ S.ids)
    (hmatch : Matched Entry.term [sentinel] g') (moves : Moves S keep i g g' p.node)
    (node : NodeOK S g' i p.node) (tasks : ∀ task ∈ p.tasks, TaskOK S g' i task) {c : Cont}
    (cont : ContOK S g' c) (h : p.applyCommitted c = .ok o) : Result S keep i g o g' := by
  rcases Proc.applyCommitted_ok h with ⟨n, d, hpop, rfl⟩ | ⟨_, hres⟩
  · obtain ⟨_, rfl, _⟩ := Node.popCommitted_ok hpop
    refine ⟨moves.congr rfl rfl rfl, node.congr rfl rfl rfl rfl rfl rfl rfl rfl, by simp, ?_⟩
    intro task htask
    rcases List.mem_append.mp htask with old | new
    · exact tasks task old
    · rw [List.mem_singleton.mp new]
      exact ⟨.inl rfl, cont⟩
  · rcases Proc.resumeCont_ok hres with ⟨_, rfl⟩ | ⟨call, rfl, rfl⟩ | ⟨_, n, calls, hrep, rfl⟩
    · exact ⟨moves, node, by simp, tasks⟩
    · refine ⟨moves, node, ?_, tasks⟩
      intro m hm
      rw [List.mem_singleton.mp hm]
      exact ⟨cont.1, fun _ => cont.2⟩
    · exact .of_replicate hS hi hmatch moves node hrep rfl tasks

/-- What holds before every step of node `i`. -/
structure Setting (S : Setup) (i : String) (g : Ghost) (p : Proc) : Prop where
  consistent : S.Consistent
  odd : Odd S.ids.length
  member : i ∈ S.ids
  elected : Elected S.ids.toFinset g
  matched : Matched Entry.term [sentinel] g
  indexed : ∀ t, Indexed (g.lead t)
  node : NodeOK S g i p.node
  tasks : ∀ task ∈ p.tasks, TaskOK S g i task

namespace Setting

theorem named (h : Setting S i g p) : i ≠ "" :=
  h.consistent.ids_ne i h.member

theorem tasks_mono (h : Setting S i g p) (grows : Grows g g') :
    ∀ task ∈ p.tasks, TaskOK S g' i task :=
  fun task htask => (h.tasks task htask).mono grows

theorem tasks_eraseIdx (h : Setting S i g p) (k : Nat) :
    ∀ task ∈ p.tasks.eraseIdx k, TaskOK S g i task :=
  fun task htask => h.tasks task (List.mem_of_mem_eraseIdx htask)

theorem replicate (h : Setting S i g p) {calls : List (Call AppendEntriesRequest)}
    (hrep : p.node.replicateLocked = .ok (n, calls)) {p' : Proc} (hp : p'.node = n)
    {events : List Event} (tasks : ∀ task ∈ p'.tasks, TaskOK S g i task) :
    ∃ g', Result S keep i g ⟨p', calls.map .appendCall, events⟩ g' :=
  ⟨g, .of_replicate h.consistent h.member h.matched (.refl S keep i g _) h.node hrep hp tasks⟩

section Elections

theorem peers_length (h : Setting S i g p) :
    p.node.peers.keys.length / 2 + 1 = majority S := by
  rw [h.node.peers, h.consistent.length_keys h.member, majority]

/-- A node without peers is the only member. -/
theorem alone (h : Setting S i g p) (none : p.node.peerAddrsLocked = []) :
    majority S = 1 := by
  have keys : (S.peerMap i).keys = [] := by
    rw [List.eq_nil_iff_forall_not_mem]
    intro q hq
    have other := ((h.consistent.mem_peerMap h.member q).mp hq).2
    obtain ⟨addr, haddr⟩ := Option.isSome_iff_exists.mp
      (AList.lookup_isSome.mpr (AList.mem_keys.mpr hq))
    have : (q, addr) ∈ p.node.peerAddrsLocked :=
      Node.mem_peerAddrsLocked.mpr ⟨by rw [h.node.peers]; exact haddr,
        by rw [h.node.id]; exact other⟩
    rw [none] at this
    exact absurd this (by simp)
  rw [← h.peers_length, h.node.peers, keys]
  rfl

theorem voteCall (h : Setting S i g p) {el : Node.Candidacy}
    (start : p.node.startElectionLocked = .ok (n, el)) :
    ∀ m ∈ el.calls.map Msg.voteCall, MsgOK S (g.stand i) m := by
  obtain ⟨_, _, _, e, he, hcalls⟩ := Node.startElectionLocked_ok start
  intro m hm
  rw [hcalls, List.map_map] at hm
  obtain ⟨peer, hpeer, rfl⟩ := List.mem_map.mp hm
  refine ⟨addressed_of_peer h.consistent h.member h.node rfl hpeer, rfl, p.node.log, ?_, ?_, rfl,
    ?_⟩
  · simp [Consensus.State.stand, h.node.id, h.node.term, h.node.log]
  · rintro hnil
    simp [hnil] at he
  · simp [lastTerm, he]

theorem ownVote (h : Setting S i g p) : Voted S (g.stand i) i i (p.node.currentTerm + 1) :=
  ⟨h.member, g.log i, .inl (by rw [h.node.term])⟩

theorem stand (h : Setting S i g p) {el : Node.Candidacy}
    (start : p.node.startElectionLocked = .ok (n, el)) {p' : Proc} (hp : p'.node = n)
    {sent : List Msg} {events : List Event} (hsent : ∀ m ∈ sent, MsgOK S (g.stand i) m)
    (tasks : ∀ task ∈ p'.tasks, TaskOK S (g.stand i) i task) :
    ∃ g', Result S keep i g ⟨p', sent, events⟩ g' := by
  obtain ⟨rfl, _⟩ := Node.startElectionLocked_ok start
  refine ⟨g.stand i, ?_, ?_, hsent, tasks⟩
  · exact hp ▸ .stand h.elected (by rw [← h.node.term]) h.node.id
  · exact hp ▸ h.node.stand h.elected h.member h.named

theorem standAlone (h : Setting S i g p) {el : Node.Candidacy}
    (start : p.node.startElectionLocked = .ok (n, el)) (none : n.peerAddrsLocked = []) :
    ∃ g', Result S keep i g
      { proc := { p with node := n, tasks := p.tasks ++ [.electing el.term] } } g' := by
  obtain ⟨hn, hterm, _⟩ := Node.startElectionLocked_ok start
  refine h.stand start rfl (by simp) ?_
  intro task htask
  rcases List.mem_append.mp htask with old | new
  · exact h.tasks_mono (Consensus.grows_stand h.elected i) task old
  · rw [List.mem_singleton.mp new]
    refine ⟨{i}, ?_, ?_⟩
    · rw [Finset.card_singleton, h.alone (by rw [hn] at none; exact none)]
    · intro r hr
      rw [Finset.mem_singleton.mp hr, hterm]
      exact h.ownVote

/-- The winner of an election has more than half of the votes. -/
theorem won_majority (h : Setting S i g p) {t : Nat} (won : Won S g i t) :
    ∃ Q, Quorum.Majority S.ids.toFinset Q ∧
      ∀ x ∈ Q, ∃ l, (⟨x, t, i, l⟩ : Consensus.Ballot String Entry) ∈ g.ballots := by
  obtain ⟨Q, hQ, votes⟩ := won
  have card := h.consistent.card_ids
  refine ⟨Q, .of_threshold (card ▸ h.odd) ?_ (by rw [card]; exact hQ), fun x hx => (votes x hx).2⟩
  exact fun x hx => List.mem_toFinset.mpr (votes x hx).1

theorem lookup_zeros (ids : List String) {q : String} {m : Nat}
    (h : (ids.foldl (fun m id => AList.insert id 0 m) (∅ : GoMap String Nat)).lookup q = some m) :
    m = 0 := by
  have pairs : ids.foldl (fun m id => AList.insert id 0 m) (∅ : GoMap String Nat) =
      GoMap.ofList (ids.map fun id => (id, 0)) := by
    rw [GoMap.ofList, List.foldl_map]
  rw [pairs] at h
  obtain ⟨id, _, heq⟩ := List.mem_map.mp (GoMap.of_lookup_ofList h)
  exact (Prod.mk.inj heq).2.symm

theorem win (h : Setting S i g p) {t : Nat} (won : Won S g i t)
    {calls : List (Call AppendEntriesRequest)} (hwin : p.node.winElection t = .ok (n, calls))
    {p' : Proc} (hp : p'.node = n) (tasks : ∀ task ∈ p'.tasks, task ∈ p.tasks) :
    ∃ g', Result S keep i g { proc := p', sent := calls.map .appendCall } g' := by
  rcases Node.winElection_ok hwin with ⟨rfl, rfl⟩ | ⟨stands, rfl, hlead⟩
  · exact Result.still (hp ▸ h.node) (by simp) fun task htask => h.tasks task (tasks task htask)
  · obtain ⟨Q, majority, votes⟩ := h.won_majority won
    obtain ⟨standing, unled, _⟩ := h.node.stands stands
    rw [h.node.term, h.node.log] at standing
    rw [h.node.term] at unled votes
    have hnone := Consensus.unled_of_won h.elected i Q majority unled votes
    obtain ⟨⟨next, hn⟩, hcalls⟩ := Node.becomeLeaderLocked_ok hlead
    have moves : Moves S keep i g (g.elect i) n :=
      .elect h.elected h.matched majority standing unled votes (by rw [hn]; exact h.node.log)
    have node : NodeOK S (g.elect i) i n := by
      rw [hn]
      exact h.node.elect (by rw [h.node.term]; exact hnone) fun q m => lookup_zeros _
    refine ⟨g.elect i, hp ▸ moves, hp ▸ node, ?_, fun task htask =>
      (h.tasks task (tasks task htask)).mono moves.grows⟩
    intro m hm
    obtain ⟨call, hcall, rfl⟩ := List.mem_map.mp hm
    obtain ⟨caller, peer, snapshot⟩ := hcalls call hcall
    have hpos := (h.elected.cand_term i _ _ standing).1
    have hmatch := Consensus.matched_elect h.matched i (by omega) hnone standing
    have same : n.role = .leader ∧ n.id = p.node.id ∧ n.peerAddrsLocked = p.node.peerAddrsLocked ∧
        n.Snapshot call.req := by
      rw [hn]
      exact ⟨rfl, rfl, rfl, snapshot.congr rfl rfl rfl rfl⟩
    exact .of_snapshot h.consistent h.member node hmatch same.1 (caller.trans same.2.1.symm)
      (same.2.2.1 ▸ peer) same.2.2.2

end Elections

end Setting

end DistributedCache.Raft.Refinement
