import DistributedCache.Raft.Refinement.Handlers

/-!
The handlers of the two RPCs and of their responses, and of client proposals.
`Handles.refines` collects all handlers of a node.
-/
namespace DistributedCache.Raft.Refinement

open Consensus (Grows Matched lastTerm UpToDate)

variable {S : Setup} {keep : List Entry → List Entry → Prop} {i : String} {g : Ghost}
  {n : Node} {p : Proc} {o : Out}

/-- The accepted request leaves a log that may replace the node's. -/
def KeepsOnAccept (keep : List Entry → List Entry → Prop) (n : Node)
    (req : AppendEntriesRequest) : Prop :=
  n.Accepts req → keep n.log (n.storeEntries req).log

namespace Setting

theorem propose (h : Setting S i g p) (keep : List Entry → List Entry → Prop)
    (leads : p.node.role = .leader) (cmd : Command) :
    ∃ g', Matched Entry.term [sentinel] g' ∧
      Moves S keep i g g' (p.node.appendProposal cmd).1 ∧
      NodeOK S g' i (p.node.appendProposal cmd).1 := by
  obtain ⟨leader, lead, _⟩ := h.node.leads leads
  have current : g.log i = g.lead (g.term i) := by rw [← h.node.log, ← h.node.term, lead]
  have own : (p.node.appendProposal cmd).2.term = g.term i := h.node.term
  rw [h.node.term] at leader
  refine ⟨g.append i (p.node.appendProposal cmd).2,
    Consensus.matched_append h.matched h.elected i _ leader current own, ?_,
    h.node.append leads cmd⟩
  refine .append leader current own ?_ ?_
  · rw [← h.node.log]
    rfl
  · rw [← h.node.log]
    rfl

/-- The comparison of the code is the comparison of the abstract protocol. -/
theorem upToDate {l m : List Entry} {e : Entry} (hl : l ≠ []) (he : m.getLast? = some e)
    (h : e.term < lastTerm Entry.term l ∨
      (lastTerm Entry.term l = e.term ∧ m.length - 1 ≤ l.length - 1)) :
    UpToDate Entry.term l m := by
  have last : lastTerm Entry.term m = e.term := by simp [lastTerm, he]
  have hm : m ≠ [] := by rintro rfl; simp at he
  have posl := List.length_pos_of_ne_nil hl
  have posm := List.length_pos_of_ne_nil hm
  rcases h with newer | ⟨same, longer⟩
  · exact .inl (last ▸ newer)
  · exact .inr ⟨same.trans last.symm, by omega⟩

theorem vote (h : Setting S i g p) {call : Call RequestVoteRequest}
    (ok : VoteCallOK S g call) (here : call.peerID = i) {resp : RequestVoteResponse}
    (hvote : p.node.handleRequestVote call.req = .ok (n, resp)) :
    ∃ g', Result S keep i g
      { proc := { p with node := n }, sent := [.voteReply call resp] } g' := by
  have reply {g' : Ghost} (grows : Grows g g')
      (voted : resp.voteGranted = true → Voted S g' call.caller call.peerID call.req.term) :
      ∀ m ∈ [Msg.voteReply call resp], MsgOK S g' m := by
    intro m hm
    rw [List.mem_singleton.mp hm]
    exact ⟨ok.mono grows, voted⟩
  rcases Node.handleRequestVote_ok hvote with
    ⟨_, rfl, denied⟩ | ⟨current, rfl, denied⟩ | ⟨current, rfl, granted, free, e, he, fresh⟩
  · exact Result.still h.node (reply (.refl g) (by simp [denied])) h.tasks
  · have later : g.term i ≤ call.req.term := h.node.term ▸ current
    have grows := Consensus.grows_setTerm i call.req.term later
    exact ⟨g.setTerm i call.req.term, .observe later (.refl S keep i _ _),
      h.node.observeVote h.elected current, reply grows (by simp [denied]), h.tasks_mono grows⟩
  · have later : g.term i ≤ call.req.term := h.node.term ▸ current
    have node := h.node.observeVote h.elected current
    have term : (g.setTerm i call.req.term).term i = call.req.term := by
      simp [Consensus.State.setTerm]
    obtain ⟨l, stood, hl, hlast, hterm⟩ := ok.stood
    have candidate : call.req.candidateID = call.caller := ok.candidate
    have caller : call.caller ≠ "" := h.consistent.ids_ne _ ok.addressed.caller
    have other : call.caller ≠ i := fun same => ok.addressed.other (here.trans same.symm)
    rw [candidate] at free
    have moves : Moves S keep i g ((g.setTerm i call.req.term).vote i call.caller)
        { p.node.observeVote call.req with votedFor := call.req.candidateID } := by
      refine .observe later (.vote (by rw [term]; exact stood) ?_ (node.free free)
        node.term candidate)
      change UpToDate Entry.term l (g.log i)
      rw [hlast, hterm] at fresh
      exact upToDate hl (h.node.log ▸ he) (h.node.log ▸ fresh)
    refine ⟨_, moves, ?_, reply moves.grows fun _ => ?_, h.tasks_mono moves.grows⟩
    · rw [candidate]
      exact node.vote caller other h.named free
    · refine ⟨here ▸ h.member, g.log i, .inl ?_⟩
      rw [here, term]
      rfl

theorem outvoted (h : Setting S i g p) {t : Nat} (newer : p.node.currentTerm < t)
    (leaderID : String) {p' : Proc} (hp : p'.node = p.node.becomeFollowerLocked t leaderID)
    (tasks : p'.tasks = p.tasks) : ∃ g', Result S keep i g { proc := p' } g' := by
  have later : g.term i ≤ t := h.node.term ▸ newer.le
  refine ⟨g.setTerm i t, .observe later (.refl S keep i _ _), ?_, by simp, ?_⟩
  · exact hp ▸ h.node.becomeFollower h.elected newer leaderID
  · rw [tasks]
    exact h.tasks_mono (Consensus.grows_setTerm i t later)

theorem rejected (h : Setting S i g p) {call : Call AppendEntriesRequest}
    (ok : AppendCallOK S g call) (here : call.peerID = i)
    (happ : p.node.handleAppendEntries call.req = .ok (n, .rejected)) :
    ∃ g', Result S keep i g
      { proc := { p with node := n }, sent := [.appendReply call ⟨n.currentTerm, false⟩] } g' := by
  have other : call.caller ≠ i := fun same => ok.addressed.other (here.trans same.symm)
  have reply {g' : Ghost} (grows : Grows g g') :
      ∀ m ∈ [Msg.appendReply call ⟨n.currentTerm, false⟩], MsgOK S g' m := by
    intro m hm
    rw [List.mem_singleton.mp hm]
    exact ⟨ok.mono grows, by simp⟩
  rcases Node.handleAppendEntries_rejected happ with ⟨_, rfl⟩ | ⟨current, rfl⟩
  · exact Result.still h.node (reply (.refl g)) h.tasks
  · have later : g.term i ≤ call.req.term := h.node.term ▸ current
    have grows := Consensus.grows_setTerm i call.req.term later
    exact ⟨g.setTerm i call.req.term, .observe later (.refl S keep i _ _),
      h.node.observeLeader h.elected current ok.leads other, reply grows, h.tasks_mono grows⟩

/-- The state of the abstract protocol after node `i` has accepted a request. -/
def accepted (g : Ghost) (i : String) (n : Node) (req : AppendEntriesRequest) : Ghost :=
  (g.setTerm i req.term).adopt i (n.storeEntries req).log

theorem accept (h : Setting S i g p) {call : Call AppendEntriesRequest}
    (ok : AppendCallOK S g call) (here : call.peerID = i) (accepts : p.node.Accepts call.req)
    (kept : keep p.node.log (p.node.storeEntries call.req).log) :
    let n := (p.node.observeLeader call.req).storeEntries call.req
    let g' := accepted g i p.node call.req
    Moves S keep i g g' n ∧ NodeOK S g' i n ∧ Matched Entry.term [sentinel] g' ∧
      AppendCallOK S g' call ∧ Acked g' call := by
  intro n g'
  have other : call.caller ≠ i := fun same => ok.addressed.other (here.trans same.symm)
  have later : g.term i ≤ call.req.term := h.node.term ▸ accepts.1
  have term : (g.setTerm i call.req.term).term i = call.req.term := by
    simp [Consensus.State.setTerm]
  have leads : (g.setTerm i call.req.term).leader ((g.setTerm i call.req.term).term i) =
      some call.caller := by rw [term]; exact ok.leads
  obtain ⟨above, below⟩ := AppendCallOK.store_log h.matched h.indexed h.node ok accepts
  have log : n.log = (p.node.storeEntries call.req).log := Node.storeEntries_observeLeader _ _
  have moves : Moves S keep i g g' n := by
    refine .observe later (.adopt leads other (by rw [term]; exact above)
      (by rw [term]; exact below) ?_ log)
    change keep (g.log i) _
    rw [← h.node.log]
    exact kept
  have observed := h.node.observeLeader h.elected accepts.1 ok.leads other
  refine ⟨moves, ?_, ?_, ok.mono moves.grows, ?_⟩
  · exact observed.adopt (Node.observeLeader_follower _ _) rfl rfl rfl rfl rfl rfl log
  · exact Consensus.matched_adopt (Consensus.matched_setTerm h.matched i _ later)
      (by simp [sentinel]) i call.caller _ leads (by rw [term]; exact above)
      (by rw [term]; exact below)
  · have length := Node.length_storeEntries accepts.lt
    change _ ≤ (g.setTerm i call.req.term).ack i _ _ call.peerID call.req.term
    simp [Consensus.State.ack, here, term, length]

theorem stored (h : Setting S i g p) {call : Call AppendEntriesRequest}
    (ok : AppendCallOK S g call) (here : call.peerID = i)
    (given : p.node.currentTerm ≤ call.req.term → KeepsOnAccept keep p.node call.req)
    (happ : p.node.handleAppendEntries call.req = .ok (n, .stored)) :
    ∃ g', Result S keep i g
      { proc := { p with node := n }, sent := [.appendReply call ⟨n.currentTerm, true⟩] } g' := by
  obtain ⟨accepts, rfl⟩ := Node.handleAppendEntries_stored happ
  obtain ⟨moves, node, _, ok', acked⟩ := h.accept ok here accepts (given accepts.1 accepts)
  refine ⟨_, moves, node, ?_, h.tasks_mono moves.grows⟩
  intro m hm
  rw [List.mem_singleton.mp hm]
  exact ⟨ok', fun _ => acked⟩

theorem committed (h : Setting S i g p) {call : Call AppendEntriesRequest}
    (ok : AppendCallOK S g call) (here : call.peerID = i)
    (given : p.node.currentTerm ≤ call.req.term → KeepsOnAccept keep p.node call.req)
    (happ : p.node.handleAppendEntries call.req = .ok (n, .committed))
    (apply : Proc.applyCommitted { p with node := n } (.appendEntries call) = .ok o) :
    ∃ g', Result S keep i g o g' := by
  obtain ⟨accepts, _, rfl⟩ := Node.handleAppendEntries_committed happ
  obtain ⟨moves, node, hmatch, ok', acked⟩ :=
    h.accept ok here accepts (given accepts.1 accepts)
  refine ⟨_, .of_applyCommitted h.consistent h.member hmatch ?_ ?_ ?_ ?_ apply⟩
  · exact moves.congr rfl rfl rfl
  · exact node.congr rfl rfl rfl rfl rfl rfl rfl rfl
  · exact h.tasks_mono moves.grows
  · exact ⟨ok', acked⟩

theorem answered (h : Setting S i g p) {call : Call AppendEntriesRequest}
    {resp : AppendEntriesResponse} {calls : List (Call AppendEntriesRequest)}
    (hresp : p.node.handleAppendResponse call.peerID call.req resp = .ok (n, .done calls)) :
    ∃ g', Result S keep i g { proc := { p with node := n }, sent := calls.map .appendCall } g' := by
  rcases Node.handleAppendResponse_ok hresp with
    ⟨newer, rfl, hs⟩ | ⟨rfl, hs⟩ | ⟨leads, next, calls', rfl, hs, hcalls⟩ | ⟨_, _, _, hs, _⟩
  · cases hs
    exact h.outvoted newer _ rfl rfl
  · cases hs
    exact Result.still h.node (by simp) h.tasks
  · cases hs
    refine Result.still (h.node.congr rfl rfl rfl rfl rfl rfl rfl rfl) ?_ h.tasks
    intro m hm
    obtain ⟨call, hcall, rfl⟩ := List.mem_map.mp hm
    obtain ⟨caller, peer, snapshot⟩ := hcalls call hcall
    exact AppendCallOK.of_snapshot h.consistent h.member h.node h.matched leads caller peer
      snapshot
  · exact absurd hs (by simp)

/-- The index the leader records for a peer is that of the last entry the peer stored. -/
theorem recordMatch (h : Setting S i g p) {call : Call AppendEntriesRequest}
    (ok : AppendCallOK S g call) (acked : Acked g call)
    (term : call.req.term = p.node.currentTerm) :
    NodeOK S g i (p.node.recordMatch call.peerID call.req) := by
  unfold Node.recordMatch
  split
  · exact h.node
  · rename_i last hlast
    obtain ⟨l, _, below, _, hentries⟩ := ok.snapshot
    have position : last.index + 1 = call.req.prevLogIndex + 1 + call.req.entries.length := by
      have hget : call.req.entries[call.req.entries.length - 1]? = some last := by
        rw [← List.getLast?_eq_getElem?]
        exact hlast
      have pos : call.req.entries.length ≠ 0 := by
        intro hz
        rw [List.eq_nil_of_length_eq_zero hz] at hlast
        simp at hlast
      rw [hentries, List.getElem?_drop, ← hentries] at hget
      have := h.indexed _ _ last (Consensus.getElem?_of_extends below hget)
      omega
    refine ⟨h.node.id, h.node.addr, h.node.peers, h.node.term, h.node.log, h.node.stands,
      h.node.leads, h.node.votes, ?_⟩
    intro leads q m hm
    by_cases hq : q = call.peerID
    · subst hq
      have same : last.index = m := by simpa using hm
      right
      rw [← same, position]
      exact term ▸ acked
    · exact h.node.acks leads q m (by simpa [AList.lookup_insert_ne hq] using hm)

theorem acknowledged (h : Setting S i g p) {call : Call AppendEntriesRequest}
    {resp : AppendEntriesResponse} (ok : AppendCallOK S g call)
    (acked : resp.success = true → Acked g call)
    (hresp : p.node.handleAppendResponse call.peerID call.req resp = .ok (n, .apply))
    (apply : Proc.applyCommitted { p with node := n } .appendResponse = .ok o) :
    ∃ g', Result S keep i g o g' := by
  obtain ⟨_, term, success, c, rfl, _⟩ := Node.handleAppendResponse_commits hresp
  have node := h.recordMatch ok (acked success) term
  refine ⟨g, .of_applyCommitted h.consistent h.member h.matched ?_ ?_ ?_ ?_ apply⟩
  · exact .refl S keep i g _
  · exact node.congr rfl rfl rfl rfl rfl rfl rfl rfl
  · exact h.tasks
  · trivial

theorem phase (h : Setting S i g p) {k : Nat} {d : Node.Delivery} {phase phase' : Phase}
    {c : Cont} (task : p.tasks[k]? = some (.applying d phase c))
    (hphase : phase' = .running ∨ phase' = .returned) :
    ∀ task ∈ p.tasks.set k (.applying d phase' c), TaskOK S g i task := by
  have cont := (h.tasks _ (List.mem_of_getElem? task)).2
  intro task htask
  rcases List.mem_or_eq_of_mem_set htask with old | rfl
  · exact h.tasks task old
  · exact ⟨.inr hphase, cont⟩

end Setting

/-- The node that handles a message. -/
def handler : Msg → String
  | .voteCall call => call.peerID
  | .appendCall call => call.peerID
  | .voteReply call _ => call.caller
  | .appendReply call _ => call.caller

/-- Every handler of a node refines the abstract protocol. -/
theorem Setting.refines (h : Setting S i g p) {net : List Msg}
    (tally : Tallied (majority S) (Voted S g i) i net p) {m : Input}
    (msg : ∀ x, m = .message x → MsgOK S g x ∧ handler x = i)
    (given : Given (KeepsOnAccept keep) p.node m) (hh : Handles false p m o) :
    ∃ g', Result S keep i g o g' := by
  -- without the callback of `cmd/node` no goroutine is in one of its sections
  have idle {k : Nat} {d : Node.Delivery} {phase : Phase} {c : Cont}
      (task : p.tasks[k]? = some (.applying d phase c)) :
      phase = .pending ∨ phase = .running ∨ phase = .returned :=
    (h.tasks _ (List.mem_of_getElem? task)).1
  cases hh with
  | standAlone n el _ start alone => exact h.standAlone start alone
  | stand n el _ start peers =>
      exact h.stand start rfl (h.voteCall start)
        (h.tasks_mono (Consensus.grows_stand h.elected i))
  | heartbeat n calls leads hrep => exact h.replicate hrep rfl h.tasks
  | refuse => exact Result.still h.node (by simp) h.tasks
  | proposeAlone cmd o leads alone apply =>
      obtain ⟨g', hmatch, moves, node⟩ := h.propose keep leads cmd
      refine ⟨g', .of_applyCommitted h.consistent h.member hmatch ?_ ?_ ?_ ?_ apply⟩
      · exact moves.congr rfl rfl rfl
      · exact node.congr rfl rfl rfl rfl rfl rfl rfl rfl
      · exact h.tasks_mono moves.grows
      · trivial
  | propose cmd n calls leads peers hrep =>
      obtain ⟨g', hmatch, moves, node⟩ := h.propose keep leads cmd
      exact ⟨g', .of_replicate h.consistent h.member hmatch moves node hrep rfl
        (h.tasks_mono moves.grows)⟩
  | vote call n resp hvote => exact h.vote (msg _ rfl).1 (msg _ rfl).2 hvote
  | outvoted call resp newer => exact h.outvoted newer _ rfl rfl
  | granted call resp granted =>
      obtain ⟨⟨ok, voted⟩, here⟩ := msg _ rfl
      refine Result.still h.node (by simp) fun task htask => ?_
      rcases List.mem_append.mp htask with old | new
      · exact h.tasks task old
      · rw [List.mem_singleton.mp new]
        obtain ⟨l, stood, _⟩ := ok.stood
        have here : call.caller = i := here
        exact ⟨here ▸ voted granted, here ▸ ok.addressed.other, l, here ▸ stood⟩
  | denied call resp => exact Result.still h.node (by simp) h.tasks
  | rejected call n happ => exact h.rejected (msg _ rfl).1 (msg _ rfl).2 happ
  | stored call n happ => exact h.stored (msg _ rfl).1 (msg _ rfl).2 (given call rfl) happ
  | committed call n o happ apply =>
      exact h.committed (msg _ rfl).1 (msg _ rfl).2 (given call rfl) happ apply
  | answered call resp n calls hresp => exact h.answered hresp
  | acknowledged call resp n o hresp apply =>
      exact h.acknowledged (msg _ rfl).1.1 (msg _ rfl).1.2 hresp apply
  | win k term n calls task hwin =>
      have won : Won S g i term := by
        rcases task with task | task
        · exact h.tasks _ (List.mem_of_getElem? task)
        · exact h.tasks _ (List.mem_of_getElem? task)
      exact h.win won hwin rfl fun task htask => List.mem_of_mem_eraseIdx htask
  | count k term peerID e task election few =>
      exact Result.still h.node (by simp) (h.tasks_eraseIdx k)
  | countLast k term peerID e task election enough =>
      obtain ⟨vote, other, _⟩ := h.tasks _ (List.mem_of_getElem? task)
      refine Result.still h.node (by simp) fun task' htask => ?_
      rcases List.mem_append.mp htask with old | new
      · exact h.tasks_eraseIdx k task' old
      · rw [List.mem_singleton.mp new]
        exact tally.won task election vote other enough
  | begin k d c task => exact Result.still h.node (by simp [Proc.toPhase]) (h.phase task (.inl rfl))
  | run k d c task =>
      exact Result.still h.node (by simp [Proc.toPhase]) (h.phase task (.inr rfl))
  | addPeer k d c task => exact absurd (idle task) (by simp)
  | replicate k d c n calls task hrep => exact absurd (idle task) (by simp)
  | removePeer k d c task => exact absurd (idle task) (by simp)
  | finish k d c o task apply =>
      refine ⟨g, .of_applyCommitted h.consistent h.member h.matched ?_ ?_ ?_ ?_ apply⟩
      · exact .refl S keep i g _
      · change NodeOK S g i (p.node.finishApply d).1
        unfold Node.finishApply
        split
        · exact h.node
        · exact h.node.congr rfl rfl rfl rfl rfl rfl rfl rfl
      · exact h.tasks_eraseIdx k
      · exact (h.tasks _ (List.mem_of_getElem? task)).2
  | wake k w waits ready => exact Result.still h.node (by simp) h.tasks
  | cancel k w waits =>
      exact Result.still (h.node.congr rfl rfl rfl rfl rfl rfl rfl rfl) (by simp) h.tasks

end DistributedCache.Raft.Refinement
