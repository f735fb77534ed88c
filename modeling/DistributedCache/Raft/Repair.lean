import DistributedCache.Raft.Commute

/-!
The repair of a follower's log by its leader, one request at a time. A rejected request
makes the leader step back by one entry and send again, at the latest until the request
names the sentinel, which every log has. An accepted one leaves the follower with the
leader's log.
-/
namespace DistributedCache.Raft

/-- A leader with the request to one of its peers that is under way, and that peer. -/
structure Exchange where
  leader : Node
  follower : Node
  peerID : String
  req : AppendEntriesRequest

/-- The request among the calls of `replicateLocked` that goes to the peer. -/
def requestTo (peerID : String) (calls : List (Call AppendEntriesRequest)) :
    Go AppendEntriesRequest :=
  match calls.find? fun call => call.peerID = peerID with
  | some call => pure call.req
  | none => .error .disabled

inductive Outcome
  | rejected (next : Exchange)
  | accepted (follower : Node)

namespace Exchange

def start (leader follower : Node) (peerID : String) : Go Exchange := do
  let (leader, calls) ← leader.replicateLocked
  let req ← requestTo peerID calls
  pure ⟨leader, follower, peerID, req⟩

/-- The follower handles the request; after a rejection the leader handles the response and
sends its next request. What an accepting follower does with newly committed entries
leaves its log alone. -/
def round (x : Exchange) : Go Outcome := do
  let (follower, status) ← x.follower.handleAppendEntries x.req
  if status ≠ .rejected then
    pure (.accepted follower)
  else
    let resp := { term := follower.currentTerm, success := false }
    let (leader, answered) ← x.leader.handleAppendResponse x.peerID x.req resp
    match answered with
    | .done calls => do
        let req ← requestTo x.peerID calls
        pure (.rejected ⟨leader, follower, x.peerID, req⟩)
    | .apply => .error .disabled

/-- Rounds until the follower accepts: how many requests it has rejected, the leader and
the follower. -/
def repair : Nat → Exchange → Go (Nat × Node × Node)
  | 0, _ => .error .disabled
  | fuel + 1, x => do
      match ← x.round with
      | .accepted follower => pure (0, x.leader, follower)
      | .rejected next => do
          let (rejections, leader, follower) ← repair fuel next
          pure (rejections + 1, leader, follower)

end Exchange

/-- A log that begins with an entry of term 0 and holds each entry under its own index. -/
structure IsLog (log : List Entry) : Prop where
  first : ∃ e, log[0]? = some e ∧ e.term = 0
  index : ∀ (k : Nat) (e : Entry), log[k]? = some e → e.index = k

/-- Where two logs have entries of one term under one index, they agree up to it. -/
def LogMatching (l l' : List Entry) : Prop :=
  ∀ (k : Nat) (e e' : Entry), l[k]? = some e → l'[k]? = some e' → e.term = e'.term →
    l.take (k + 1) = l'.take (k + 1)

namespace Node

variable {n n' : Node} {peerID addr : String} {req : AppendEntriesRequest}

theorem nextFor_eq {next : Nat} (found : n.nextIndex.lookup peerID = some next) (low : 1 ≤ next)
    (high : next ≤ n.log.length) : n.nextFor peerID = next := by
  rw [nextFor, found]
  dsimp only
  rw [if_neg (by omega), if_neg (by omega)]

/-- Where one iteration of the loop of `replicateLocked` starts its request. -/
theorem replicateTo_next (some : n.log ≠ []) (peerID addr : String) :
    ∃ n' call, n.replicateTo peerID addr = .ok (n', call) ∧
      call.req.prevLogIndex = n.nextFor peerID - 1 ∧
      n'.nextIndex.lookup peerID = .some (n.nextFor peerID) ∧
      ∀ id ≠ peerID, n'.nextIndex.lookup id = n.nextIndex.lookup id := by
  have low := nextFor_pos some peerID
  have high := n.nextFor_le peerID
  have inside : n.nextFor peerID - 1 < n.log.length := by omega
  have prev := (n.logAt_eq_ok _ _).mpr (List.getElem?_eq_getElem inside)
  have entries := (n.logFrom_eq_ok _ _).mpr ⟨high, rfl⟩
  unfold replicateTo
  simp only [prev, entries]
  refine ⟨_, _, rfl, rfl, ?_⟩
  split
  · rename_i same
    exact ⟨same, fun _ _ => rfl⟩
  · exact ⟨AList.lookup_insert _, fun id other => AList.lookup_insert_ne other⟩

theorem nextFor_congr (log : n'.log = n.log)
    (same : n'.nextIndex.lookup peerID = n.nextIndex.lookup peerID) :
    n'.nextFor peerID = n.nextFor peerID := by
  rw [nextFor, nextFor, same, log]

theorem replicateAll_next {peers : List (String × String)} (some : n.log ≠ [])
    (distinct : (peers.map Prod.fst).Nodup) :
    ∃ n' calls, n.replicateAll peers = .ok (n', calls) ∧
      (∀ id ∉ peers.map Prod.fst, n'.nextIndex.lookup id = n.nextIndex.lookup id) ∧
      ∀ id ∈ peers.map Prod.fst, n'.nextIndex.lookup id = .some (n.nextFor id) ∧
        ∃ call, calls.find? (fun call => call.peerID = id) = .some call ∧
          call.req.prevLogIndex = n.nextFor id - 1 := by
  induction peers generalizing n with
  | nil => exact ⟨n, [], rfl, fun _ _ => rfl, nofun⟩
  | cons p rest ih =>
      obtain ⟨apart, distinct⟩ := List.nodup_cons.mp distinct
      obtain ⟨m, call, sent, prev, next, others⟩ := replicateTo_next some p.1 p.2
      obtain ⟨⟨_, only⟩, _, peer, _⟩ := replicateTo_ok sent
      have log : m.log = n.log := by rw [only]
      obtain ⟨m', calls, more, kept, later⟩ := ih (log ▸ some) distinct
      refine ⟨m', call :: calls, ?_, ?_, ?_⟩
      · exact Go.bind_eq_ok.mpr ⟨_, sent, Go.bind_eq_ok.mpr ⟨_, more, rfl⟩⟩
      · intro id absent
        rw [List.map_cons, List.mem_cons, not_or] at absent
        exact (kept id absent.2).trans (others id absent.1)
      · intro id mem
        cases List.mem_cons.mp mem with
        | inl first =>
            subst first
            refine ⟨(kept p.1 apart).trans next, call, ?_, prev⟩
            rw [List.find?_cons_of_pos (by simpa using peer)]
        | inr mem =>
            -- The iterations before leave the `nextIndex` of this peer alone.
            have other : id ≠ p.1 := fun same => apart (same ▸ mem)
            obtain ⟨next', call', found, prev'⟩ := later id mem
            rw [nextFor_congr log (others id other)] at next' prev'
            refine ⟨next', call', ?_, prev'⟩
            rw [List.find?_cons_of_neg (by simpa [peer] using other.symm), found]

/-- What `replicateLocked` sends to a peer. -/
theorem replicateLocked_next (leads : n.role = .leader) (some : n.log ≠ [])
    (peer : peerID ∈ n.peers) (other : peerID ≠ n.id) :
    ∃ next calls req, n.replicateLocked = .ok ({ n with nextIndex := next }, calls) ∧
      requestTo peerID calls = .ok req ∧ n.Snapshot req ∧
      req.prevLogIndex = n.nextFor peerID - 1 ∧
      next.lookup peerID = .some (n.nextFor peerID) := by
  have distinct : (n.peerAddrsLocked.map Prod.fst).Nodup := by
    have keys : ((n.peers.entries.map fun p => (p.1, p.2)).map Prod.fst).Nodup := by
      rw [List.map_map]
      exact n.peers.nodupKeys
    exact keys.sublist (List.filter_sublist.map _)
  have mem : peerID ∈ n.peerAddrsLocked.map Prod.fst := by
    obtain ⟨addr, found⟩ := GoMap.mem_iff.mp peer
    have entry := AList.mem_lookup_iff.mp found
    refine List.mem_map.mpr ⟨(peerID, addr), List.mem_filter.mpr ⟨?_, by simpa using other⟩, rfl⟩
    exact List.mem_map_of_mem (f := fun p : Sigma fun _ => String => (p.1, p.2)) entry
  obtain ⟨n', calls, sent, _, each⟩ := replicateAll_next some distinct
  have locked : n.replicateLocked = .ok (n', calls) := by
    rw [replicateLocked, if_neg (not_not.mpr leads), sent]
  obtain ⟨⟨next, rfl⟩, snapshots⟩ := replicateLocked_ok locked
  obtain ⟨here, call, found, prev⟩ := each peerID mem
  refine ⟨next, calls, call.req, locked, ?_, ?_, prev, here⟩
  · rw [requestTo, found]
    rfl
  · exact (snapshots call (List.mem_of_find?_eq_some found)).2.2.2

theorem handleAppendEntries_refuse (current : n.currentTerm ≤ req.term)
    (refuses : ¬ n.Accepts req) :
    n.handleAppendEntries req = .ok (n.observeLeader req, .rejected) := by
  rw [handleAppendEntries, if_neg (Nat.not_lt.mpr current)]
  change (if req.prevLogIndex ≥ (n.observeLeader req).log.length then _ else _) = _
  rw [observeLeader_log]
  by_cases inside : req.prevLogIndex < n.log.length
  · have found := List.getElem?_eq_getElem inside
    have prev : (n.observeLeader req).logAt req.prevLogIndex = .ok n.log[req.prevLogIndex] := by
      rw [logAt_eq_ok, observeLeader_log, found]
    rw [if_neg (Nat.not_le.mpr inside)]
    change ((n.observeLeader req).logAt req.prevLogIndex >>= _) = _
    rw [prev]
    exact if_pos fun same => refuses ⟨current, _, found, same⟩
  · rw [if_pos (Nat.not_lt.mp inside)]
    rfl

theorem handleAppendEntries_accept (accepts : n.Accepts req) :
    ∃ n' status, n.handleAppendEntries req = .ok (n', status) ∧ status ≠ .rejected ∧
      n'.log = (n.storeEntries req).log := by
  obtain ⟨current, e, found, term⟩ := accepts
  have prev : (n.observeLeader req).logAt req.prevLogIndex = .ok e := by
    rw [logAt_eq_ok, observeLeader_log, found]
  have log := storeEntries_observeLeader n req
  rw [handleAppendEntries, if_neg (Nat.not_lt.mpr current)]
  change ∃ n' status, (if req.prevLogIndex ≥ (n.observeLeader req).log.length then _ else
    (n.observeLeader req).logAt req.prevLogIndex >>= _) = _ ∧ _
  have inside := (List.getElem?_eq_some_iff.mp found).1
  rw [observeLeader_log, if_neg (Nat.not_le.mpr inside), prev]
  change ∃ n' status, (if e.term ≠ req.prevLogTerm then _ else
    if req.leaderCommit > ((n.observeLeader req).storeEntries req).commitIndex then _ else _) =
      _ ∧ _
  rw [if_neg (not_not.mpr term)]
  split
  · exact ⟨_, _, rfl, nofun, log⟩
  · exact ⟨_, _, rfl, nofun, log⟩

/-- After a rejection the leader steps back by one entry and sends again. -/
theorem handleAppendResponse_reject {resp : AppendEntriesResponse} {next : Nat}
    (leads : n.role = .leader) (term : req.term = n.currentTerm)
    (current : resp.term ≤ n.currentTerm) (refused : resp.success = false)
    (peer : peerID ∈ n.peers) (other : peerID ≠ n.id)
    (found : n.nextIndex.lookup peerID = some next) (low : 1 < next)
    (high : next ≤ n.log.length) :
    ∃ next' calls req', n.handleAppendResponse peerID req resp =
        .ok ({ n with nextIndex := next' }, .done calls) ∧
      requestTo peerID calls = .ok req' ∧ n.Snapshot req' ∧ req'.prevLogIndex = next - 1 - 1 ∧
      next'.lookup peerID = some (next - 1) := by
  let back : Node := { n with nextIndex := n.nextIndex.insert peerID (next - 1) }
  have nonempty : back.log ≠ [] := List.length_pos_iff.mp (by change 0 < n.log.length; omega)
  have nextBack : back.nextFor peerID = next - 1 :=
    nextFor_eq (AList.lookup_insert _) (by omega) (by change _ ≤ n.log.length; omega)
  obtain ⟨next', calls, req', sent, asked, snapshot, prev, here⟩ :=
    replicateLocked_next (n := back) leads nonempty peer other
  rw [nextBack] at prev here
  refine ⟨next', calls, req', ?_, asked, snapshot.congr rfl rfl rfl rfl, prev, here⟩
  rw [handleAppendResponse, if_neg (Nat.not_lt.mpr current), if_neg (by simp [leads, term]),
    if_pos refused]
  simp only [found, Option.getD_some]
  rw [if_pos low]
  exact Go.bind_eq_ok.mpr ⟨_, sent, rfl⟩

end Node

/-- What the repair starts from: a leader and one of its peers, whose logs match and begin
with an entry of term 0, and whose term is not ahead. -/
structure Repairable (leader follower : Node) (peerID : String) : Prop where
  leads : leader.role = .leader
  peer : peerID ∈ leader.peers
  other : peerID ≠ leader.id
  log : IsLog leader.log
  first : ∃ e, follower.log[0]? = some e ∧ e.term = 0
  matching : LogMatching leader.log follower.log
  term : follower.currentTerm ≤ leader.currentTerm

namespace Exchange

variable {leader follower : Node} {peerID : String} {next : Nat} {x : Exchange}

/-- The request under way is the one for `nextIndex = next`, and the follower's log is
still what it was. -/
structure Asks (leader follower : Node) (peerID : String) (next : Nat) (x : Exchange) : Prop where
  index : ∃ nextIndex, x.leader = { leader with nextIndex := nextIndex } ∧
    nextIndex.lookup peerID = some next
  peer : x.peerID = peerID
  log : x.follower.log = follower.log
  term : x.follower.currentTerm ≤ leader.currentTerm
  sent : leader.Snapshot x.req
  prev : x.req.prevLogIndex = next - 1

theorem asks_start (h : Repairable leader follower peerID)
    (found : leader.nextIndex.lookup peerID = some next) (low : 1 ≤ next)
    (high : next ≤ leader.log.length) :
    ∃ x, start leader follower peerID = .ok x ∧ x.Asks leader follower peerID next := by
  have nonempty : leader.log ≠ [] := List.length_pos_iff.mp (by omega)
  obtain ⟨nextIndex, calls, req, sent, asked, snapshot, prev, here⟩ :=
    Node.replicateLocked_next h.leads nonempty h.peer h.other
  rw [Node.nextFor_eq found low high] at prev here
  refine ⟨⟨_, follower, peerID, req⟩, ?_, ⟨nextIndex, rfl, here⟩, rfl, rfl, h.term, snapshot, prev⟩
  exact Go.bind_eq_ok.mpr ⟨_, sent, Go.bind_eq_ok.mpr ⟨_, asked, rfl⟩⟩

/-- The log that an accepted request leaves. -/
theorem Asks.log_eq (asks : x.Asks leader follower peerID next)
    (h : Repairable leader follower peerID) (accepts : x.follower.Accepts x.req) :
    (x.follower.storeEntries x.req).log = leader.log := by
  have segment := asks.sent.segment h.log.index
  obtain ⟨_, e', found', term'⟩ := accepts
  obtain ⟨e, found, term⟩ := asks.sent.prev
  rw [asks.log] at found'
  have inside := (List.getElem?_eq_some_iff.mp found).1
  have inside' : x.req.prevLogIndex < x.follower.log.length :=
    asks.log ▸ (List.getElem?_eq_some_iff.mp found').1
  have agree := h.matching _ e e' found found' (term.trans term'.symm)
  have last : x.req.lastIndex = leader.log.length - 1 := by
    rw [AppendEntriesRequest.lastIndex, asks.sent.entries, List.length_drop]
    omega
  refine List.ext_getElem? fun k => ?_
  rw [segment.getElem?_store inside', asks.log, last]
  by_cases early : k ≤ x.req.prevLogIndex
  · rw [if_pos early, ← List.getElem?_take_of_lt (Nat.lt_succ_of_le early),
      ← List.getElem?_take_of_lt (l := leader.log) (Nat.lt_succ_of_le early), agree]
  · rw [if_neg early]
    split
    · rfl
    · exact (List.getElem?_eq_none (by omega)).symm

/-- A request that names the sentinel is accepted, as both logs have it with term 0. -/
theorem Asks.accepts (asks : x.Asks leader follower peerID next)
    (h : Repairable leader follower peerID) (first : next ≤ 1) :
    x.follower.Accepts x.req := by
  obtain ⟨e, found, term⟩ := asks.sent.prev
  obtain ⟨s, sentinel, zero⟩ := h.log.first
  obtain ⟨s', sentinel', zero'⟩ := h.first
  have index : x.req.prevLogIndex = 0 := by
    rw [asks.prev]
    omega
  rw [index, sentinel] at found
  cases found
  refine ⟨asks.sent.term ▸ asks.term, s', ?_, zero'.trans (zero.symm.trans term)⟩
  rw [index, asks.log, sentinel']

/-- A rejection takes the request one entry back. -/
theorem Asks.rejected (asks : x.Asks leader follower peerID next)
    (h : Repairable leader follower peerID) (step : 1 < next) (high : next ≤ leader.log.length)
    (refuses : ¬ x.follower.Accepts x.req) :
    ∃ y, x.round = .ok (.rejected y) ∧ y.Asks leader follower peerID (next - 1) := by
  have current : x.follower.currentTerm ≤ x.req.term := asks.sent.term ▸ asks.term
  have handled := Node.handleAppendEntries_refuse current refuses
  have observed : (x.follower.observeLeader x.req).currentTerm ≤ leader.currentTerm :=
    Nat.le_of_eq ((Node.observeLeader_currentTerm current).trans asks.sent.term)
  let resp : AppendEntriesResponse :=
    { term := (x.follower.observeLeader x.req).currentTerm, success := false }
  have answers : resp.term ≤ leader.currentTerm := observed
  obtain ⟨nextIndex, stepped, found⟩ := asks.index
  obtain ⟨nextIndex', calls, req, answered, asked, snapshot, prev, here⟩ :=
    Node.handleAppendResponse_reject (n := { leader with nextIndex := nextIndex }) h.leads
      asks.sent.term answers rfl h.peer h.other found step high
  have back : x.leader.handleAppendResponse x.peerID x.req resp =
      .ok ({ leader with nextIndex := nextIndex' }, .done calls) := by
    rw [stepped, asks.peer]
    exact answered
  refine ⟨⟨_, x.follower.observeLeader x.req, x.peerID, req⟩, ?_, ⟨⟨nextIndex', rfl, here⟩,
    asks.peer, ?_, observed, snapshot.congr rfl rfl rfl rfl, prev⟩⟩
  · refine Go.bind_eq_ok.mpr ⟨_, handled, ?_⟩
    refine (if_neg (not_not.mpr rfl)).trans (Go.bind_eq_ok.mpr ⟨_, back, ?_⟩)
    exact Go.bind_eq_ok.mpr ⟨_, asks.peer ▸ asked, rfl⟩
  · rw [Node.observeLeader_log]
    exact asks.log

/-- A round ends the repair or takes the request one entry back. -/
theorem Asks.round (asks : x.Asks leader follower peerID next)
    (h : Repairable leader follower peerID) (high : next ≤ leader.log.length) :
    (∃ f, x.round = .ok (.accepted f) ∧ f.log = leader.log) ∨
      (1 < next ∧ ∃ y, x.round = .ok (.rejected y) ∧
        y.Asks leader follower peerID (next - 1)) := by
  by_cases accepts : x.follower.Accepts x.req
  · obtain ⟨f, status, handled, success, log⟩ := Node.handleAppendEntries_accept accepts
    refine .inl ⟨f, ?_, log.trans (asks.log_eq h accepts)⟩
    refine Go.bind_eq_ok.mpr ⟨_, handled, ?_⟩
    simp only [success, ne_eq, not_false_eq_true, if_true]
    rfl
  · have step : 1 < next := Nat.lt_of_not_le fun first => accepts (asks.accepts h first)
    exact .inr ⟨step, asks.rejected h step high accepts⟩

/-- Counting back from `next`, the repair ends. -/
theorem Asks.repair (h : Repairable leader follower peerID) (next : Nat) {x : Exchange}
    (asks : x.Asks leader follower peerID next) (low : 1 ≤ next)
    (high : next ≤ leader.log.length) :
    ∃ rejections l f, rejections ≤ next - 1 ∧ l.log = leader.log ∧ f.log = leader.log ∧
      ∀ fuel, next ≤ fuel → x.repair fuel = .ok (rejections, l, f) := by
  induction next generalizing x with
  | zero => omega
  | succ earlier ih =>
      have some {fuel : Nat} (enough : earlier + 1 ≤ fuel) : ∃ rest, fuel = rest + 1 :=
        ⟨fuel - 1, by omega⟩
      obtain ⟨_, same, _⟩ := asks.index
      cases asks.round h high with
      | inl accepted =>
          obtain ⟨f, ends, log⟩ := accepted
          refine ⟨0, x.leader, f, Nat.zero_le _, by rw [same], log, fun fuel enough => ?_⟩
          obtain ⟨rest, rfl⟩ := some enough
          exact Go.bind_eq_ok.mpr ⟨_, ends, rfl⟩
      | inr rejected =>
          obtain ⟨step, y, goes, again⟩ := rejected
          obtain ⟨rejections, l, f, few, log, log', ends⟩ := ih again (by omega) (by omega)
          refine ⟨rejections + 1, l, f, by omega, log, log', fun fuel enough => ?_⟩
          obtain ⟨rest, rfl⟩ := some enough
          exact Go.bind_eq_ok.mpr ⟨_, goes, Go.bind_eq_ok.mpr ⟨_, ends rest (by omega), rfl⟩⟩

end Exchange

/-- From any `nextIndex` inside the leader's log, the exchange of requests and responses is
rejected at most `nextIndex - 1` times before it is accepted, and then the follower's log
is the leader's. -/
theorem log_repair_converges {leader follower : Node} {peerID : String} {next : Nat}
    (h : Repairable leader follower peerID)
    (found : leader.nextIndex.lookup peerID = some next) (low : 1 ≤ next)
    (high : next ≤ leader.log.length) :
    ∃ x rejections l f, Exchange.start leader follower peerID = .ok x ∧
      (∀ fuel, next ≤ fuel → x.repair fuel = .ok (rejections, l, f)) ∧
      rejections ≤ next - 1 ∧ l.log = leader.log ∧ f.log = leader.log := by
  obtain ⟨x, started, asks⟩ := Exchange.asks_start h found low high
  obtain ⟨rejections, l, f, few, log, log', ends⟩ := asks.repair h next low high
  exact ⟨x, rejections, l, f, started, ends, few, log, log'⟩

section Divergent

/-- An entry of a term under an index. -/
def entryOf (term index : Nat) : Entry :=
  { term := term, index := index, command := { type := .noop } }

/-- A leader of term 3 that has not heard of the follower's log yet. -/
def repairer : Node :=
  { newNode "a" "a:1" (GoMap.ofList [("a", "a:1"), ("b", "b:1")]) with
    role := .leader
    currentTerm := 3
    log := [sentinel, entryOf 1 1, entryOf 3 2, entryOf 3 3]
    nextIndex := GoMap.ofList [("b", 4)] }

/-- A follower with an entry of term 2 that the leader does not have. -/
def diverged : Node :=
  { newNode "b" "b:1" (GoMap.ofList [("a", "a:1"), ("b", "b:1")]) with
    currentTerm := 2
    log := [sentinel, entryOf 1 1, entryOf 2 2] }

theorem repairable_diverged : Repairable repairer diverged "b" where
  leads := rfl
  peer := by decide
  other := by decide
  log := ⟨⟨_, rfl, rfl⟩, fun k e found => by
    match k with
    | 0 | 1 | 2 | 3 =>
        cases found
        rfl
    | k + 4 => simp [repairer] at found⟩
  first := ⟨_, rfl, rfl⟩
  matching := fun k e e' found found' same => by
    match k with
    | 0 | 1 => rfl
    | 2 =>
        cases found
        cases found'
        cases same
    | k + 3 => simp [diverged] at found'
  term := by decide

theorem log_repair_converges_diverged :
    ∃ x rejections l f, Exchange.start repairer diverged "b" = .ok x ∧
      x.repair 4 = .ok (rejections, l, f) ∧ rejections ≤ 3 ∧ l.log = repairer.log ∧
      f.log = repairer.log := by
  obtain ⟨x, rejections, l, f, started, ends, few, logs⟩ := log_repair_converges
    repairable_diverged (by decide : _ = some 4) (by decide) (by decide)
  exact ⟨x, rejections, l, f, started, ends 4 (Nat.le_refl 4), few, logs⟩

end Divergent

end DistributedCache.Raft
