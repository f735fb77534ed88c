import DistributedCache.Raft.Node

/-!
What each critical section of a node does when it does not panic. Later modules
use these equations and never unfold the sections themselves.
-/
namespace DistributedCache.Raft

namespace Node

theorem popCommitted_ok {n n' : Node} {d : Delivery}
    (h : n.popCommitted = .ok (some (n', d))) :
    n.lastApplied < n.commitIndex ∧ n' = { n with lastApplied := n.lastApplied + 1 } ∧
      d.index = n.lastApplied + 1 ∧ n.log[n.lastApplied + 1]? = some d.entry ∧
      d.prop = n.proposals.lookup (n.lastApplied + 1) := by
  unfold popCommitted at h
  split at h
  · rename_i hlt
    obtain ⟨e, he, hd⟩ := Go.bind_eq_ok.mp h
    obtain ⟨rfl, rfl⟩ := Prod.mk.inj (Option.some.inj (Go.pure_eq_ok.mp hd))
    exact ⟨hlt, rfl, rfl, (logAt_eq_ok n _ e).mp he, rfl⟩
  · exact absurd (Go.pure_eq_ok.mp h) (by simp)

theorem lastLogIndexTermLocked_ok {n : Node} {i t : Nat}
    (h : n.lastLogIndexTermLocked = .ok (i, t)) :
    i = n.log.length - 1 ∧ ∃ e, n.log.getLast? = some e ∧ t = e.term := by
  obtain ⟨e, he, heq⟩ := Go.bind_eq_ok.mp h
  obtain ⟨rfl, rfl⟩ := Prod.mk.inj (Go.pure_eq_ok.mp heq)
  exact ⟨rfl, e, by rw [List.getLast?_eq_getElem?]; exact (logAt_eq_ok n _ e).mp he, rfl⟩

theorem startElectionLocked_ok {n n' : Node} {el : Candidacy}
    (h : n.startElectionLocked = .ok (n', el)) :
    n' = { n with
        role := .candidate, currentTerm := n.currentTerm + 1, votedFor := n.id, leaderID := "" } ∧
      el.term = n.currentTerm + 1 ∧ el.majority = n.peers.keys.length / 2 + 1 ∧
      ∃ e, n.log.getLast? = some e ∧ el.calls = n.peerAddrsLocked.map fun p =>
        { caller := n.id, peerID := p.1, addr := p.2, req := {
            term := n.currentTerm + 1, candidateID := n.id,
            lastLogIndex := n.log.length - 1, lastLogTerm := e.term } } := by
  obtain ⟨⟨i, t⟩, hlast, heq⟩ := Go.bind_eq_ok.mp h
  obtain ⟨rfl, e, he, rfl⟩ := lastLogIndexTermLocked_ok hlast
  obtain ⟨rfl, rfl⟩ := Prod.mk.inj (Go.pure_eq_ok.mp heq)
  exact ⟨rfl, rfl, rfl, e, he, rfl⟩

/-- The request is the node's log, cut in two: the position before `entries`
and everything behind it. -/
structure Snapshot (n : Node) (req : AppendEntriesRequest) : Prop where
  term : req.term = n.currentTerm
  leaderID : req.leaderID = n.id
  leaderCommit : req.leaderCommit = n.commitIndex
  prev : ∃ e, n.log[req.prevLogIndex]? = some e ∧ e.term = req.prevLogTerm
  entries : req.entries = n.log.drop (req.prevLogIndex + 1)

theorem nextFor_le (n : Node) (peerID : String) : n.nextFor peerID ≤ n.log.length := by
  unfold nextFor
  split
  · exact Nat.le_refl _
  · split
    · exact Nat.le_refl _
    · split <;> omega

theorem nextFor_pos {n : Node} (h : n.log ≠ []) (peerID : String) : 0 < n.nextFor peerID := by
  have pos := List.length_pos_of_ne_nil h
  unfold nextFor
  split
  · exact pos
  · split
    · exact pos
    · split <;> omega

theorem replicateTo_ok {n n' : Node} {peerID addr : String} {call : Call AppendEntriesRequest}
    (h : n.replicateTo peerID addr = .ok (n', call)) :
    (∃ next, n' = { n with nextIndex := next }) ∧
      call.caller = n.id ∧ call.peerID = peerID ∧ call.addr = addr ∧ n.Snapshot call.req := by
  obtain ⟨e, he, h⟩ := Go.bind_eq_ok.mp h
  obtain ⟨l, hl, h⟩ := Go.bind_eq_ok.mp h
  obtain ⟨rfl, rfl⟩ := Prod.mk.inj (Go.pure_eq_ok.mp h)
  have hget := (logAt_eq_ok n _ e).mp he
  have ne : n.log ≠ [] := by rintro hnil; simp [hnil] at hget
  have pos := nextFor_pos ne peerID
  refine ⟨?_, rfl, rfl, rfl, rfl, rfl, rfl, ⟨e, hget, rfl⟩, ?_⟩
  · by_cases same : n.nextIndex.lookup peerID = some (n.nextFor peerID)
    · exact ⟨n.nextIndex, by simp [same]⟩
    · exact ⟨n.nextIndex.insert peerID (n.nextFor peerID), by simp [same]⟩
  · rw [← ((logFrom_eq_ok n _ l).mp hl).2]
    exact congrArg (n.log.drop ·) (Nat.sub_add_cancel pos).symm

theorem Snapshot.congr {n n' : Node} {req : AppendEntriesRequest} (h : n.Snapshot req)
    (term : n'.currentTerm = n.currentTerm) (id : n'.id = n.id)
    (commit : n'.commitIndex = n.commitIndex) (log : n'.log = n.log) : n'.Snapshot req :=
  ⟨h.term.trans term.symm, h.leaderID.trans id.symm, h.leaderCommit.trans commit.symm,
    log ▸ h.prev, log ▸ h.entries⟩

theorem replicateAll_ok {n n' : Node} {peers : List (String × String)}
    {calls : List (Call AppendEntriesRequest)} (h : n.replicateAll peers = .ok (n', calls)) :
    (∃ next, n' = { n with nextIndex := next }) ∧
      ∀ call ∈ calls, call.caller = n.id ∧ (call.peerID, call.addr) ∈ peers ∧
        n.Snapshot call.req := by
  induction peers generalizing n n' calls with
  | nil =>
      obtain ⟨rfl, rfl⟩ := Prod.mk.inj (Go.pure_eq_ok.mp h)
      exact ⟨⟨n.nextIndex, rfl⟩, by simp⟩
  | cons p rest ih =>
      obtain ⟨⟨m, call⟩, hcall, h⟩ := Go.bind_eq_ok.mp h
      obtain ⟨⟨m', more⟩, hrest, h⟩ := Go.bind_eq_ok.mp h
      obtain ⟨rfl, rfl⟩ := Prod.mk.inj (Go.pure_eq_ok.mp h)
      obtain ⟨⟨next, rfl⟩, hcaller, hpeer, haddr, hsnap⟩ := replicateTo_ok hcall
      obtain ⟨⟨next', rfl⟩, hmore⟩ := ih hrest
      refine ⟨⟨next', rfl⟩, ?_⟩
      intro c hc
      rcases List.mem_cons.mp hc with rfl | hc
      · exact ⟨hcaller, by simp [hpeer, haddr], hsnap⟩
      · obtain ⟨hcaller, hmem, hsnap⟩ := hmore c hc
        exact ⟨hcaller, List.mem_cons_of_mem _ hmem, hsnap.congr rfl rfl rfl rfl⟩

/-- `replicateLocked` changes `nextIndex` only, and what it sends is the log. -/
theorem replicateLocked_ok {n n' : Node} {calls : List (Call AppendEntriesRequest)}
    (h : n.replicateLocked = .ok (n', calls)) :
    (∃ next, n' = { n with nextIndex := next }) ∧
      ∀ call ∈ calls, n.role = .leader ∧ call.caller = n.id ∧
        (call.peerID, call.addr) ∈ n.peerAddrsLocked ∧ n.Snapshot call.req := by
  unfold replicateLocked at h
  split at h
  · obtain ⟨rfl, rfl⟩ := Prod.mk.inj (Go.pure_eq_ok.mp h)
    exact ⟨⟨n.nextIndex, rfl⟩, by simp⟩
  · rename_i leads
    obtain ⟨hnext, hcalls⟩ := replicateAll_ok h
    exact ⟨hnext, fun call hc => ⟨not_not.mp leads, hcalls call hc⟩⟩

theorem becomeLeaderLocked_ok {n n' : Node} {calls : List (Call AppendEntriesRequest)}
    (h : n.becomeLeaderLocked = .ok (n', calls)) :
    (∃ next, n' = { n with
        role := .leader, leaderID := n.id, nextIndex := next
        matchIndex := (n.peers.keys.filter fun id => id ≠ n.id).foldl
          (fun m id => m.insert id 0) ∅ }) ∧
      ∀ call ∈ calls, call.caller = n.id ∧ (call.peerID, call.addr) ∈ n.peerAddrsLocked ∧
        n.Snapshot call.req := by
  obtain ⟨⟨next, rfl⟩, hcalls⟩ := replicateLocked_ok h
  refine ⟨⟨next, rfl⟩, fun call hc => ?_⟩
  obtain ⟨_, hcaller, hmem, hsnap⟩ := hcalls call hc
  exact ⟨hcaller, hmem, hsnap.congr rfl rfl rfl rfl⟩

theorem winElection_ok {n n' : Node} {term : Nat} {calls : List (Call AppendEntriesRequest)}
    (h : n.winElection term = .ok (n', calls)) :
    (n' = n ∧ calls = []) ∨
      (n.role = .candidate ∧ n.currentTerm = term ∧ n.becomeLeaderLocked = .ok (n', calls)) := by
  unfold winElection at h
  split at h
  · rename_i stands
    exact .inr ⟨stands.1, stands.2, h⟩
  · obtain ⟨rfl, rfl⟩ := Prod.mk.inj (Go.pure_eq_ok.mp h)
    exact .inl ⟨rfl, rfl⟩

/-- The node after it has looked at the term of a vote request. -/
def observeVote (n : Node) (req : RequestVoteRequest) : Node :=
  if req.term > n.currentTerm then n.becomeFollowerLocked req.term "" else n

theorem handleRequestVote_ok {n n' : Node} {req : RequestVoteRequest}
    {resp : RequestVoteResponse} (h : n.handleRequestVote req = .ok (n', resp)) :
    (req.term < n.currentTerm ∧ n' = n ∧ resp.voteGranted = false) ∨
    (n.currentTerm ≤ req.term ∧ n' = n.observeVote req ∧ resp.voteGranted = false) ∨
    (n.currentTerm ≤ req.term ∧
      n' = { n.observeVote req with votedFor := req.candidateID } ∧ resp.voteGranted = true ∧
      ((n.observeVote req).votedFor = "" ∨ (n.observeVote req).votedFor = req.candidateID) ∧
      ∃ e, n.log.getLast? = some e ∧ (e.term < req.lastLogTerm ∨
        (req.lastLogTerm = e.term ∧ n.log.length - 1 ≤ req.lastLogIndex))) := by
  unfold handleRequestVote at h
  split at h
  · rename_i stale
    obtain ⟨rfl, rfl⟩ := Prod.mk.inj (Go.pure_eq_ok.mp h)
    exact .inl ⟨stale, rfl, rfl⟩
  · rename_i current
    obtain ⟨⟨i, t⟩, hlast, h⟩ := Go.bind_eq_ok.mp h
    have hlog : (n.observeVote req).log = n.log := by unfold observeVote; split <;> rfl
    change (n.observeVote req).lastLogIndexTermLocked = _ at hlast
    obtain ⟨rfl, e, he, rfl⟩ := lastLogIndexTermLocked_ok hlast
    rw [hlog] at he
    generalize hm : (if req.term > n.currentTerm then _ else _ : Node) = m at h hlog
    obtain rfl : n.observeVote req = m := hm
    dsimp only at h
    right
    split at h
    · rename_i granted
      obtain ⟨rfl, rfl⟩ := Prod.mk.inj (Go.pure_eq_ok.mp h)
      rw [hlog] at granted
      exact .inr ⟨by omega, rfl, rfl, granted.1, e, he, granted.2⟩
    · obtain ⟨rfl, rfl⟩ := Prod.mk.inj (Go.pure_eq_ok.mp h)
      exact .inl ⟨by omega, rfl, rfl⟩

theorem length_appendReceived (log entries : List Entry) :
    (appendReceived log entries).length = log.length + entries.length := by
  induction entries generalizing log with
  | nil => rfl
  | cons e rest ih =>
      rw [appendReceived, ih, List.length_append, List.length_singleton, List.length_cons]
      omega

/-- The request passes the three checks of `HandleAppendEntries`. -/
def Accepts (n : Node) (req : AppendEntriesRequest) : Prop :=
  n.currentTerm ≤ req.term ∧ ∃ e, n.log[req.prevLogIndex]? = some e ∧ e.term = req.prevLogTerm

instance (n : Node) (req : AppendEntriesRequest) : Decidable (n.Accepts req) :=
  decidable_of_iff (n.currentTerm ≤ req.term ∧
      n.log[req.prevLogIndex]?.map Entry.term = some req.prevLogTerm) <| by
    simp only [Accepts, Option.map_eq_some_iff]

theorem Accepts.lt {n : Node} {req : AppendEntriesRequest} (h : n.Accepts req) :
    req.prevLogIndex < n.log.length := by
  obtain ⟨_, e, he, _⟩ := h
  exact (List.getElem?_eq_some_iff.mp he).1

/-- The node after it has looked at the term and the leader of the request. -/
def observeLeader (n : Node) (req : AppendEntriesRequest) : Node :=
  if req.term > n.currentTerm ∨ n.role ≠ .follower
  then n.becomeFollowerLocked req.term req.leaderID
  else { n with leaderID := req.leaderID }

theorem observeLeader_of_newer {n : Node} {req : AppendEntriesRequest}
    (newer : n.currentTerm < req.term) :
    n.observeLeader req = n.becomeFollowerLocked req.term req.leaderID :=
  if_pos (.inl newer)

theorem observeLeader_of_idle {n : Node} {req : AppendEntriesRequest}
    (same : n.currentTerm = req.term) (idle : n.role = .follower) :
    n.observeLeader req = { n with leaderID := req.leaderID } := by
  simp [observeLeader, same, idle]

theorem observeLeader_log (n : Node) (req : AppendEntriesRequest) :
    (n.observeLeader req).log = n.log := by
  unfold observeLeader; split <;> rfl

theorem observeLeader_lastApplied (n : Node) (req : AppendEntriesRequest) :
    (n.observeLeader req).lastApplied = n.lastApplied := by
  unfold observeLeader; split <;> rfl

theorem observeLeader_commitIndex (n : Node) (req : AppendEntriesRequest) :
    (n.observeLeader req).commitIndex = n.commitIndex := by
  unfold observeLeader; split <;> rfl

theorem observeLeader_follower (n : Node) (req : AppendEntriesRequest) :
    (n.observeLeader req).role = .follower := by
  unfold observeLeader
  split
  · rfl
  · rename_i idle
    exact not_not.mp fun busy => idle (.inr busy)

theorem observeLeader_currentTerm {n : Node} {req : AppendEntriesRequest}
    (h : n.currentTerm ≤ req.term) : (n.observeLeader req).currentTerm = req.term := by
  unfold observeLeader
  split
  · rfl
  · rename_i idle
    exact Nat.le_antisymm h (Nat.not_lt.mp fun newer => idle (.inl newer))

theorem storeEntries_observeLeader (n : Node) (req : AppendEntriesRequest) :
    ((n.observeLeader req).storeEntries req).log = (n.storeEntries req).log := by
  simp only [storeEntries, observeLeader_log]

/-- Behind an accepted position the log is replaced by what was received. -/
theorem storeEntries_log {n : Node} {req : AppendEntriesRequest}
    (h : req.prevLogIndex < n.log.length) :
    (n.storeEntries req).log =
      appendReceived (n.log.take (req.prevLogIndex + 1)) req.entries := by
  simp only [storeEntries]
  split
  · rfl
  · rw [List.take_of_length_le (by omega)]

theorem length_storeEntries {n : Node} {req : AppendEntriesRequest}
    (h : req.prevLogIndex < n.log.length) :
    (n.storeEntries req).log.length = req.prevLogIndex + 1 + req.entries.length := by
  rw [storeEntries_log h, length_appendReceived, List.length_take_of_le (by omega)]

theorem getElem?_appendReceived (log entries : List Entry) (k : Nat) :
    (appendReceived log entries)[k]? = if k < log.length then log[k]?
      else (entries[k - log.length]?).map fun e => { e with index := k } := by
  induction entries generalizing log with
  | nil =>
      rw [appendReceived]
      split
      · rfl
      · rename_i beyond
        rw [List.getElem?_eq_none (Nat.not_lt.mp beyond)]
        simp
  | cons e rest ih =>
      rw [appendReceived, ih, List.length_append, List.length_singleton]
      rcases Nat.lt_trichotomy k log.length with before | here | after
      · rw [if_pos before, if_pos (by omega), List.getElem?_append_left before]
      · subst here
        simp
      · rw [if_neg (by omega), if_neg (by omega), show k - log.length = k - (log.length + 1) + 1 by
          omega, List.getElem?_cons_succ]

/-- Behind an accepted position the log holds the entries of the request. -/
theorem getElem?_storeEntries {n : Node} {req : AppendEntriesRequest}
    (h : req.prevLogIndex < n.log.length) (k : Nat) :
    (n.storeEntries req).log[k]? = if k ≤ req.prevLogIndex then n.log[k]?
      else (req.entries[k - (req.prevLogIndex + 1)]?).map fun e => { e with index := k } := by
  have length : (n.log.take (req.prevLogIndex + 1)).length = req.prevLogIndex + 1 :=
    List.length_take_of_le h
  rw [storeEntries_log h, getElem?_appendReceived, length]
  by_cases hk : k ≤ req.prevLogIndex
  · rw [if_pos (by omega), if_pos hk, List.getElem?_take_of_lt (by omega)]
  · rw [if_neg (by omega), if_neg hk]

/-- After an accepted request the log ends with what the request carries. -/
theorem Accepts.length_store {n : Node} {req : AppendEntriesRequest} (h : n.Accepts req) :
    ((n.observeLeader req).storeEntries req).log.length =
      req.prevLogIndex + 1 + req.entries.length :=
  length_storeEntries (by rw [observeLeader_log]; exact h.lt)

theorem handleAppendEntries_ok {n n' : Node} {req : AppendEntriesRequest}
    {status : AppendStatus} (h : n.handleAppendEntries req = .ok (n', status)) :
    (req.term < n.currentTerm ∧ n' = n ∧ status = .rejected) ∨
    (n.currentTerm ≤ req.term ∧ n' = n.observeLeader req ∧ status = .rejected) ∨
    (n.Accepts req ∧ n' = (n.observeLeader req).storeEntries req ∧ status = .stored ∧
      req.leaderCommit ≤ n.commitIndex) ∨
    (n.Accepts req ∧ status = .committed ∧ n.commitIndex < req.leaderCommit ∧
      n' = { (n.observeLeader req).storeEntries req with
        commitIndex := min64 req.leaderCommit (req.prevLogIndex + req.entries.length) }) := by
  unfold handleAppendEntries at h
  split at h
  · rename_i stale
    obtain ⟨rfl, rfl⟩ := Prod.mk.inj (Go.pure_eq_ok.mp h)
    exact .inl ⟨stale, rfl, rfl⟩
  · rename_i current
    right
    change (if req.prevLogIndex ≥ (n.observeLeader req).log.length then _ else _) = _ at h
    split at h
    · obtain ⟨rfl, rfl⟩ := Prod.mk.inj (Go.pure_eq_ok.mp h)
      exact .inl ⟨by omega, rfl, rfl⟩
    · rename_i inside
      obtain ⟨e, he, h⟩ := Go.bind_eq_ok.mp h
      change (n.observeLeader req).logAt req.prevLogIndex = _ at he
      rw [logAt_eq_ok, observeLeader_log] at he
      split at h
      · obtain ⟨rfl, rfl⟩ := Prod.mk.inj (Go.pure_eq_ok.mp h)
        exact .inl ⟨by omega, rfl, rfl⟩
      · rename_i same
        right
        have accepts : n.Accepts req := ⟨by omega, e, he, not_not.mp same⟩
        have commit : ((n.observeLeader req).storeEntries req).commitIndex = n.commitIndex :=
          n.observeLeader_commitIndex req
        change (if req.leaderCommit > ((n.observeLeader req).storeEntries req).commitIndex
          then _ else _) = _ at h
        rw [commit] at h
        split at h
        · rename_i newer
          have hlen := accepts.length_store
          obtain ⟨rfl, rfl⟩ := Prod.mk.inj (Go.pure_eq_ok.mp h)
          refine .inr ⟨accepts, rfl, newer, ?_⟩
          have hlast : ((n.observeLeader req).storeEntries req).log.length - 1 =
              req.prevLogIndex + req.entries.length := by omega
          rw [← hlast]
          rfl
        · obtain ⟨rfl, rfl⟩ := Prod.mk.inj (Go.pure_eq_ok.mp h)
          exact .inl ⟨accepts, rfl, rfl, by omega⟩

theorem handleAppendEntries_rejected {n n' : Node} {req : AppendEntriesRequest}
    (h : n.handleAppendEntries req = .ok (n', .rejected)) :
    (req.term < n.currentTerm ∧ n' = n) ∨
      (n.currentTerm ≤ req.term ∧ n' = n.observeLeader req) := by
  rcases handleAppendEntries_ok h with
    ⟨stale, same, _⟩ | ⟨current, observed, _⟩ | ⟨_, _, hs, _⟩ | ⟨_, hs, _⟩
  · exact .inl ⟨stale, same⟩
  · exact .inr ⟨current, observed⟩
  · cases hs
  · cases hs

theorem handleAppendEntries_stored {n n' : Node} {req : AppendEntriesRequest}
    (h : n.handleAppendEntries req = .ok (n', .stored)) :
    n.Accepts req ∧ n' = (n.observeLeader req).storeEntries req := by
  rcases handleAppendEntries_ok h with
    ⟨_, _, hs⟩ | ⟨_, _, hs⟩ | ⟨accepts, stored, _⟩ | ⟨_, hs, _⟩
  · cases hs
  · cases hs
  · exact ⟨accepts, stored⟩
  · cases hs

theorem handleAppendEntries_committed {n n' : Node} {req : AppendEntriesRequest}
    (h : n.handleAppendEntries req = .ok (n', .committed)) :
    n.Accepts req ∧ n.commitIndex < req.leaderCommit ∧
      n' = { (n.observeLeader req).storeEntries req with
        commitIndex := min64 req.leaderCommit (req.prevLogIndex + req.entries.length) } := by
  rcases handleAppendEntries_ok h with
    ⟨_, _, hs⟩ | ⟨_, _, hs⟩ | ⟨_, _, hs, _⟩ | ⟨accepts, _, committed⟩
  · cases hs
  · cases hs
  · cases hs
  · exact ⟨accepts, committed⟩

/-- The commit index moves to an entry of the current term that enough nodes are
known to store, or stays. -/
structure Advance (n : Node) (c : Nat) : Prop where
  below : c < n.log.length
  own : ∃ e, n.log[c]? = some e ∧ e.term = n.currentTerm
  acks : n.peers.keys.length / 2 + 1 ≤ n.ackCount c

theorem advanceCommit_ok {n n' : Node} {indices : List Nat}
    (h : n.advanceCommit indices = .ok n') :
    ∃ c, n' = { n with commitIndex := c } ∧
      (c = n.commitIndex ∨ (c ∈ indices ∧ n.Advance c)) := by
  induction indices generalizing n n' with
  | nil =>
      obtain rfl := Go.pure_eq_ok.mp h
      exact ⟨n.commitIndex, rfl, .inl rfl⟩
  | cons index rest ih =>
      obtain ⟨e, he, h⟩ := Go.bind_eq_ok.mp h
      rw [logAt_eq_ok] at he
      have skip {n' : Node} (h : n.advanceCommit rest = .ok n') :
          ∃ c, n' = { n with commitIndex := c } ∧
            (c = n.commitIndex ∨ (c ∈ index :: rest ∧ n.Advance c)) := by
        obtain ⟨c, rfl, hc⟩ := ih h
        exact ⟨c, rfl, hc.imp_right fun hc => ⟨List.mem_cons_of_mem _ hc.1, hc.2⟩⟩
      split at h
      · exact skip h
      · rename_i own
        split at h
        · rename_i enough
          have advance : n.Advance index :=
            ⟨(List.getElem?_eq_some_iff.mp he).1, ⟨e, he, not_not.mp own⟩, enough⟩
          obtain ⟨c, rfl, hc⟩ := ih h
          refine ⟨c, rfl, .inr ?_⟩
          rcases hc with rfl | ⟨hmem, below, hown, hacks⟩
          · exact ⟨List.mem_cons_self, advance⟩
          · exact ⟨List.mem_cons_of_mem _ hmem, below, hown, hacks⟩
        · exact skip h

theorem handleAppendResponse_ok {n n' : Node} {peerID : String} {req : AppendEntriesRequest}
    {resp : AppendEntriesResponse} {status : ResponseStatus}
    (h : n.handleAppendResponse peerID req resp = .ok (n', status)) :
    (n.currentTerm < resp.term ∧ n' = n.becomeFollowerLocked resp.term "" ∧
      status = .done []) ∨
    (n' = n ∧ status = .done []) ∨
    (n.role = .leader ∧ ∃ next calls, n' = { n with nextIndex := next } ∧
      status = .done calls ∧ ∀ call ∈ calls, call.caller = n.id ∧
        (call.peerID, call.addr) ∈ n.peerAddrsLocked ∧ n.Snapshot call.req) ∨
    (n.role = .leader ∧ req.term = n.currentTerm ∧ resp.success = true ∧ status = .apply ∧
      ∃ c, n' = { n.recordMatch peerID req with commitIndex := c } ∧
        (c = n.commitIndex ∨ (n.commitIndex < c ∧ (n.recordMatch peerID req).Advance c))) := by
  unfold handleAppendResponse at h
  split at h
  · rename_i newer
    obtain ⟨rfl, rfl⟩ := Prod.mk.inj (Go.pure_eq_ok.mp h)
    exact .inl ⟨newer, rfl, rfl⟩
  · right
    split at h
    · obtain ⟨rfl, rfl⟩ := Prod.mk.inj (Go.pure_eq_ok.mp h)
      exact .inl ⟨rfl, rfl⟩
    · rename_i leads
      right
      have leads' : n.role = .leader ∧ req.term = n.currentTerm := by
        by_contra hn
        exact leads (by tauto)
      split at h
      · left
        obtain ⟨⟨m, calls⟩, hrep, h⟩ := Go.bind_eq_ok.mp h
        obtain ⟨rfl, rfl⟩ := Prod.mk.inj (Go.pure_eq_ok.mp h)
        generalize hb : (if (n.nextIndex.lookup peerID).getD 0 > 1 then _ else n : Node) = b
          at hrep
        obtain ⟨back, rfl⟩ : ∃ back, b = { n with nextIndex := back } := by
          rw [← hb]
          split
          · exact ⟨_, rfl⟩
          · exact ⟨n.nextIndex, rfl⟩
        obtain ⟨⟨next, rfl⟩, hcalls⟩ := replicateLocked_ok hrep
        refine ⟨leads'.1, next, calls, rfl, rfl, fun call hc => ?_⟩
        obtain ⟨_, hcaller, hmem, hsnap⟩ := hcalls call hc
        exact ⟨hcaller, hmem, hsnap.congr rfl rfl rfl rfl⟩
      · rename_i success
        right
        obtain ⟨m, hadv, h⟩ := Go.bind_eq_ok.mp h
        obtain ⟨rfl, rfl⟩ := Prod.mk.inj (Go.pure_eq_ok.mp h)
        have commit : (n.recordMatch peerID req).commitIndex = n.commitIndex := by
          unfold recordMatch; split <;> rfl
        obtain ⟨c, rfl, hc⟩ := advanceCommit_ok hadv
        refine ⟨leads'.1, leads'.2, by simpa using success, rfl, c, rfl, ?_⟩
        rw [commit] at hc
        refine hc.imp_right fun hc => ⟨?_, hc.2⟩
        have := List.mem_range'_1.mp hc.1
        omega

/-- A response after which the leader goes on to apply. -/
theorem handleAppendResponse_commits {n n' : Node} {peerID : String} {req : AppendEntriesRequest}
    {resp : AppendEntriesResponse}
    (h : n.handleAppendResponse peerID req resp = .ok (n', .apply)) :
    n.role = .leader ∧ req.term = n.currentTerm ∧ resp.success = true ∧
      ∃ c, n' = { n.recordMatch peerID req with commitIndex := c } ∧
        (c = n.commitIndex ∨ (n.commitIndex < c ∧ (n.recordMatch peerID req).Advance c)) := by
  rcases handleAppendResponse_ok h with
    ⟨_, _, hs⟩ | ⟨_, hs⟩ | ⟨_, _, _, _, hs, _⟩ | ⟨leads, term, success, _, commits⟩
  · cases hs
  · cases hs
  · cases hs
  · exact ⟨leads, term, success, commits⟩

end Node
end DistributedCache.Raft
