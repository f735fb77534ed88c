import DistributedCache.Raft.Draining

/-!
One request of a leader and its answer, from the heartbeat that sends it to the end of what
the answer makes the leader do.

The leader is of the newest term and has a proposed entry at the end of its log. Whatever the
other node has in its log, it answers; if it refuses, the leader goes back by one entry, and
if it accepts, its log ends with the entry, and the leader commits that as soon as enough
nodes have it.
-/
namespace DistributedCache.Raft

open Transition (Leads Meets)
open Refinement (Fixed)

/-- Any step. -/
abbrev Free : Sys → Action → Prop :=
  fun _ _ => True

theorem free_of_unled {S : Setup} {σ σ' : Sys} (h : Leads (exec S) (Unled S) σ σ') :
    Leads (exec S) Free σ σ' :=
  h.mono fun _ _ _ => trivial

section Predicates

variable {k : Nat} {e : Entry} {i : String} {base events events' : List Event} {n n' : Node}

/-- The node has not gone beyond index `k`; if it has got there, it has applied `e` there since
there were only the events of `base`. -/
structure Node.Paces (base events : List Event) (i : String) (k : Nat) (e : Entry) (n : Node) :
    Prop where
  bounds : n.CommitBounds
  most : n.commitIndex ≤ k
  even : n.commitIndex = k → n.lastApplied = k
  seen : n.lastApplied = k → Since base events (.applyBegin i k e)

theorem Node.Paces.congr (h : n.Paces base events i k e) (later : events <:+ events')
    (commit : n'.commitIndex = n.commitIndex) (applied : n'.lastApplied = n.lastApplied)
    (log : n'.commitIndex < n'.log.length) : n'.Paces base events' i k e where
  bounds := ⟨by rw [applied, commit]; exact h.bounds.applied, log⟩
  most := commit ▸ h.most
  even same := applied.trans (h.even (commit.symm.trans same))
  seen same := (h.seen (applied.symm.trans same)).later later

/-- The loop takes a node to where it has applied all that it has committed. -/
theorem Drained.paces {p : Proc} {c : Cont} {σ σ' : Sys} (drained : Drained i p c σ σ')
    (id : p.node.id = i) (bounds : p.node.CommitBounds) (most : p.node.commitIndex ≤ k)
    (entry : p.node.commitIndex = k → p.node.log[k]? = some e)
    (since : base <:+ σ.events)
    (seen : p.node.lastApplied = k → Since base σ.events (.applyBegin i k e)) :
    (σ'.node i).Paces base σ'.events i k e := by
  obtain ⟨next, proposals, node, _⟩ := drained.node
  have applied := bounds.applied
  rw [node]
  refine ⟨⟨Nat.le_refl _, bounds.stored⟩, most, fun same => same, fun same => ?_⟩
  have same : p.node.commitIndex = k := same
  by_cases before : p.node.lastApplied = k
  · exact (seen before).later drained.events
  · rw [← id]
    exact (drained.begun k e (by omega) same.ge (entry same)).earlier since

/-- The `Propose` call of the entry waits for its channel, which holds a value as soon as
the entry has been applied. -/
def Proc.Awaits (p : Proc) (k : Nat) (e : Entry) : Prop :=
  ∃ channel, ⟨k, e, channel⟩ ∈ p.waiting ∧
    (p.node.lastApplied < k → ∃ prop, p.node.proposals.lookup k = some prop ∧
      prop.notify = channel) ∧
    (p.node.lastApplied = k → channel ∈ p.ready)

theorem Drained.awaits {p : Proc} {c : Cont} {σ σ' : Sys} (drained : Drained i p c σ σ')
    (bounds : p.node.CommitBounds) (awaits : p.Awaits k e) : (σ'.procs i).Awaits k e := by
  obtain ⟨channel, waits, asked, told⟩ := awaits
  obtain ⟨next, proposals, node, later, _⟩ := drained.node
  have applied := bounds.applied
  have now : (σ'.procs i).node.lastApplied = p.node.commitIndex := by
    change (σ'.node i).lastApplied = _
    rw [node]
  refine ⟨channel, drained.waiting ▸ waits, fun before => ?_, fun same => ?_⟩
  · obtain ⟨prop, found, notify⟩ := asked (by omega)
    refine ⟨prop, ?_, notify⟩
    change (σ'.node i).proposals.lookup k = _
    rw [node]
    exact (later k (now ▸ before)).trans found
  · by_cases already : p.node.lastApplied = k
    · exact drained.ready (told already)
    · obtain ⟨prop, found, rfl⟩ := asked (by omega)
      exact drained.notified k prop (by omega) (by omega) found

end Predicates

/-- A leader of the newest term with the proposed entry at the end of its log, and nobody
ahead of it. -/
structure Leading (S : Setup) (base : List Event) (l : String) (k : Nat) (e : Entry) (σ : Sys) :
    Prop where
  newest : Newest S l σ
  length : (σ.node l).log.length = k + 1
  entry : (σ.node l).log[k]? = some e
  own : e.term = (σ.node l).currentTerm
  awaits : (σ.procs l).Awaits k e
  since : base <:+ σ.events
  paces : ∀ i ∈ S.ids, (σ.node i).Paces base σ.events i k e

section Exchange

variable {S : Setup} {base : List Event} {σ σ' : Sys} {l j : String} {k : Nat} {e : Entry}
  {call : Call AppendEntriesRequest}

/-- A change at another node. -/
theorem Leading.follower (h : Leading S base l k e σ) (reached : Reached S σ') (other : j ≠ l)
    (rest : ∀ i, i ≠ j → σ'.procs i = σ.procs i) (events : σ.events <:+ σ'.events)
    (term : (σ'.node j).currentTerm ≤ (σ.node l).currentTerm)
    (paces : (σ'.node j).Paces base σ'.events j k e) : Leading S base l k e σ' := by
  have node (i : String) (apart : i ≠ j) : σ'.node i = σ.node i := congrArg Proc.node (rest i apart)
  have self := node l other.symm
  refine ⟨⟨reached, h.newest.member, self ▸ h.newest.leads, fun i listed => ?_⟩, self ▸ h.length,
    self ▸ h.entry, self ▸ h.own, rest l other.symm ▸ h.awaits, h.since.trans events,
    fun i listed => ?_⟩
  · rw [self]
    by_cases same : i = j
    · rw [same]
      exact term
    · rw [node i same]
      exact h.newest.newest i listed
  · by_cases same : i = j
    · rw [same]
      exact paces
    · have before := h.paces i listed
      rw [node i same]
      exact before.congr events rfl rfl before.bounds.stored

/-- A change at the leader. -/
theorem Leading.leader (h : Leading S base l k e σ) (reached : Reached S σ')
    (rest : ∀ i, i ≠ l → σ'.procs i = σ.procs i) (events : σ.events <:+ σ'.events)
    (role : (σ'.node l).role = (σ.node l).role)
    (term : (σ'.node l).currentTerm = (σ.node l).currentTerm)
    (log : (σ'.node l).log = (σ.node l).log) (awaits : (σ'.procs l).Awaits k e)
    (paces : (σ'.node l).Paces base σ'.events l k e) : Leading S base l k e σ' := by
  have node (i : String) (apart : i ≠ l) : σ'.node i = σ.node i := congrArg Proc.node (rest i apart)
  refine ⟨⟨reached, h.newest.member, role.trans h.newest.leads, fun i listed => ?_⟩,
    log ▸ h.length, log ▸ h.entry, h.own.trans term.symm, awaits, h.since.trans events,
    fun i listed => ?_⟩
  · rw [term]
    by_cases same : i = l
    · rw [same, term]
    · rw [node i same]
      exact h.newest.newest i listed
  · by_cases same : i = l
    · rw [same]
      exact paces
    · have before := h.paces i listed
      rw [node i same]
      exact before.congr events rfl rfl before.bounds.stored

/-- A change of the leader's `nextIndex` only. -/
theorem Leading.renumber (h : Leading S base l k e σ) (reached : Reached S σ')
    (rest : ∀ i, i ≠ l → σ'.procs i = σ.procs i) (events : σ.events <:+ σ'.events)
    {next : GoMap String Nat}
    (now : σ'.procs l = { σ.procs l with node := { σ.node l with nextIndex := next } }) :
    Leading S base l k e σ' := by
  have node : σ'.node l = { σ.node l with nextIndex := next } := congrArg Proc.node now
  have before := h.paces l h.newest.member
  refine h.leader reached rest events ?_ ?_ ?_ ?_ ?_
  · rw [node]
  · rw [node]
  · rw [node]
  · rw [now]
    exact h.awaits
  · rw [node]
    exact before.congr events rfl rfl before.bounds.stored

/-- The request that is on its way from the leader to another node. -/
structure Sent (S : Setup) (l j : String) (call : Call AppendEntriesRequest) (σ : Sys) : Prop where
  sent : .appendCall call ∈ σ.net
  caller : call.caller = l
  peer : call.peerID = j
  addr : call.addr = S.addrOf j
  snapshot : (σ.node l).Snapshot call.req

theorem Leading.target (fixed : Fixed S) (h : Leading S base l k e σ) (listed : j ∈ S.ids)
    (sent : Sent S l j call σ) : S.target σ (.appendCall call) = some j := by
  change S.resolve σ call.addr = some j
  rw [sent.addr]
  exact fixed.consistent.resolve_eq (h.newest.reached.addrs fixed) listed

theorem Leading.current (h : Leading S base l k e σ) (listed : j ∈ S.ids)
    (sent : Sent S l j call σ) : (σ.node j).currentTerm ≤ call.req.term := by
  rw [sent.snapshot.term]
  exact h.newest.newest j listed

/-- A leader sends its log again. -/
theorem Leading.beat (fixed : Fixed S) (h : Leading S base l k e σ) :
    ∃ next σ', Leads (exec S) Free σ σ' ∧ Leading S base l k e σ' ∧
      (∀ i, i ≠ l → σ'.procs i = σ.procs i) ∧
      σ'.node l = { σ.node l with nextIndex := next } ∧
      (∀ id x, (σ.node l).nextIndex.lookup id = some x → 1 ≤ x → x ≤ k + 1 →
        next.lookup id = some x) ∧
      ∀ j ∈ S.ids, j ≠ l → ∃ call, Sent S l j call σ' ∧
        call.req.prevLogIndex = (σ.node l).nextFor j - 1 := by
  obtain ⟨next, calls, first, beats⟩ :=
    leads_heartbeat fixed h.newest.reached h.newest.member h.newest.leads
  let σ₁ := σ.put l σ.net { proc := { σ.procs l with node := { σ.node l with nextIndex := next } }
                            sent := calls.map .appendCall }
  have now : σ₁.procs l = { σ.procs l with node := { σ.node l with nextIndex := next } } :=
    Sys.put_procs_self _ _ _ _
  have node : σ₁.node l = { σ.node l with nextIndex := next } := congrArg Proc.node now
  have rest (i : String) (apart : i ≠ l) : σ₁.procs i = σ.procs i :=
    Sys.put_procs_of_ne _ _ _ apart
  have leading := h.renumber (h.newest.reached.leads first) rest (List.suffix_refl _) now
  refine ⟨next, σ₁, free_of_unled first, leading, rest, node, ?_, fun j listed other => ?_⟩
  · rw [← h.length]
    exact beats.kept
  · obtain ⟨_, call, mem, caller, peer, addr, snapshot, prev⟩ := beats.each j listed other
    refine ⟨call, ⟨List.mem_append_right _ (List.mem_map_of_mem mem), caller, peer, addr, ?_⟩, prev⟩
    rw [node]
    exact snapshot.congr rfl rfl rfl rfl

/-- The node `m` is `n` with the leader's log, before any change of what is committed. -/
structure Node.Took (call : Call AppendEntriesRequest) (k : Nat) (e : Entry) (n m : Node) :
    Prop where
  length : m.log.length = k + 1
  entry : m.log[k]? = some e
  term : m.currentTerm = call.req.term
  commit : m.commitIndex = n.commitIndex
  applied : m.lastApplied = n.lastApplied
  id : m.id = n.id

/-- An accepted request takes the other log to the end of the leader's. -/
theorem Leading.took (fixed : Fixed S) (h : Leading S base l k e σ) (sent : Sent S l j call σ)
    (accepts : (σ.node j).Accepts call.req)
    (behind : call.req.prevLogIndex < k ∨ (σ.node j).log[k]? = some e) :
    call.req.prevLogIndex + call.req.entries.length = k ∧
      (σ.node j).Took call k e (((σ.node j).observeLeader call.req).storeEntries call.req) := by
  obtain ⟨_, found, _⟩ := sent.snapshot.prev
  have inside := (List.getElem?_eq_some_iff.mp found).1
  have all : call.req.prevLogIndex + call.req.entries.length = k := by
    rw [sent.snapshot.entries, List.length_drop, h.length]
    rw [h.length] at inside
    omega
  have index : e.index = k :=
    (h.newest.reached.placed fixed h.newest.member).log.index k e h.entry
  refine ⟨all, by rw [accepts.length_store]; omega, ?_, Node.observeLeader_currentTerm accepts.1,
    Node.observeLeader_commitIndex _ _, Node.observeLeader_lastApplied _ _,
    (Node.Still.of_observeLeader _ _).id⟩
  rw [Node.storeEntries_observeLeader, Node.getElem?_storeEntries accepts.lt]
  split
  · rename_i within
    exact behind.resolve_left (Nat.not_lt.mpr within)
  · rename_i beyond
    rw [sent.snapshot.entries, List.getElem?_drop,
      Nat.add_sub_cancel' (Nat.succ_le_of_lt (Nat.not_le.mp beyond)), h.entry]
    exact congrArg some (by rw [← index])

/-- A node that learns of no commit answers at once. -/
theorem Leading.stores (fixed : Fixed S) (h : Leading S base l k e σ) (listed : j ∈ S.ids)
    (other : j ≠ l) (sent : Sent S l j call σ) {m : Node} (took : (σ.node j).Took call k e m)
    (handled : (σ.node j).handleAppendEntries call.req = .ok (m, .stored)) :
    ∃ σ', Leads (exec S) Free σ σ' ∧ Leading S base l k e σ' ∧
      (∀ i, i ≠ j → σ'.procs i = σ.procs i) ∧
      .appendReply call ⟨call.req.term, true⟩ ∈ σ'.net ∧ σ'.node j = m := by
  have before := h.paces j listed
  have received : (σ.procs j).receive (.appendCall call) = .ok
      { proc := { σ.procs j with node := m }
        sent := [.appendReply call ⟨call.req.term, true⟩] } := by
    rw [← took.term]
    exact Go.bind_eq_ok.mpr ⟨_, handled, rfl⟩
  obtain ⟨k', _, step, _⟩ := exists_deliver sent.sent (h.target fixed listed sent) received
  have first : Leads (exec S) Free σ _ := .single trivial step
  let σ₁ := σ.put j (σ.net.eraseIdx k') { proc := { σ.procs j with node := m }
                                          sent := [.appendReply call ⟨call.req.term, true⟩] }
  have node : σ₁.node j = m := congrArg Proc.node (Sys.put_procs_self _ _ _ _)
  have rest (i : String) (apart : i ≠ j) : σ₁.procs i = σ.procs i :=
    Sys.put_procs_of_ne _ _ _ apart
  refine ⟨σ₁, first, h.follower (h.newest.reached.leads first) other rest (List.suffix_refl _)
    ?_ ?_, rest, List.mem_append_right _ (List.mem_singleton_self _), node⟩
  · rw [node, took.term, sent.snapshot.term]
  · rw [node]
    refine before.congr (List.suffix_refl _) took.commit took.applied ?_
    rw [took.length, took.commit]
    exact Nat.lt_succ_of_le before.most

/-- A node that learns of a commit applies it first. -/
theorem Leading.commits (fixed : Fixed S) (h : Leading S base l k e σ) (listed : j ∈ S.ids)
    (other : j ≠ l) (sent : Sent S l j call σ) {m : Node} (took : (σ.node j).Took call k e m)
    (newer : (σ.node j).commitIndex < call.req.leaderCommit)
    (handled : (σ.node j).handleAppendEntries call.req =
      .ok ({ m with commitIndex := call.req.leaderCommit }, .committed)) :
    ∃ σ', Leads (exec S) Free σ σ' ∧ Leading S base l k e σ' ∧
      (∀ i, i ≠ j → σ'.procs i = σ.procs i) ∧
      .appendReply call ⟨call.req.term, true⟩ ∈ σ'.net ∧ (σ'.node j).log = m.log ∧
      (σ'.node j).commitIndex = call.req.leaderCommit := by
  have before := h.paces j listed
  have bound := (h.paces l h.newest.member).most
  rw [← sent.snapshot.leaderCommit] at bound
  let p : Proc := { σ.procs j with node := { m with commitIndex := call.req.leaderCommit } }
  have bounds : p.node.CommitBounds := by
    have applied := before.bounds.applied
    rw [← took.applied] at applied
    exact ⟨applied.trans newer.le, took.length ▸ Nat.lt_succ_of_le bound⟩
  have nonempty : p.node.log ≠ [] := List.ne_nil_of_length_pos (took.length ▸ Nat.succ_pos k)
  obtain ⟨o, called⟩ := Proc.applyCommitted_runs (p := p) ⟨nonempty, fun _ => bounds.stored⟩
    (.appendEntries call)
  have received : (σ.procs j).receive (.appendCall call) = .ok o :=
    Go.bind_eq_ok.mpr ⟨_, handled, called⟩
  obtain ⟨k', _, step, _⟩ := exists_deliver sent.sent (h.target fixed listed sent) received
  have first : Leads (exec S) Free σ _ := .single trivial step
  obtain ⟨σ', second, drained⟩ := leads_drained fixed listed bounds called
    (Sys.put_procs_self σ j (σ.net.eraseIdx k') o) (List.subset_append_right _ _)
  have go := first.trans (free_of_unled second)
  have rest (i : String) (apart : i ≠ j) : σ'.procs i = σ.procs i :=
    (drained.others i apart).trans (Sys.put_procs_of_ne _ _ _ apart)
  have later : σ.events <:+ (σ.put j (σ.net.eraseIdx k') o).events := List.suffix_append _ _
  have paces := drained.paces (took.id.trans (h.newest.reached.placed fixed listed).id) bounds
    bound (fun _ => took.entry) (h.since.trans later)
    fun same => (before.seen (took.applied.symm.trans same)).later later
  obtain ⟨next, proposals, node, _⟩ := drained.node
  refine ⟨σ', go, h.follower (h.newest.reached.leads go) other rest (later.trans drained.events)
    ?_ paces, rest, took.term ▸ drained.reply call rfl, ?_, ?_⟩
  · rw [node, ← sent.snapshot.term, ← took.term]
  · rw [node]
  · rw [node]

/-- An accepted request is answered, with the other node in pace. -/
theorem Leading.accepted (fixed : Fixed S) (h : Leading S base l k e σ) (listed : j ∈ S.ids)
    (other : j ≠ l) (sent : Sent S l j call σ) (accepts : (σ.node j).Accepts call.req)
    (behind : call.req.prevLogIndex < k ∨ (σ.node j).log[k]? = some e) :
    ∃ σ', Leads (exec S) Free σ σ' ∧ Leading S base l k e σ' ∧
      (∀ i, i ≠ j → σ'.procs i = σ.procs i) ∧
      .appendReply call ⟨call.req.term, true⟩ ∈ σ'.net ∧
      (σ'.node j).log.length = k + 1 ∧ (σ'.node j).log[k]? = some e ∧
      (σ.node l).commitIndex ≤ (σ'.node j).commitIndex := by
  obtain ⟨all, took⟩ := h.took fixed sent accepts behind
  have current := h.current listed sent
  obtain ⟨n, status, handled, accepted, _⟩ := Node.handleAppendEntries_accept accepts
  rcases Node.handleAppendEntries_ok handled with
    ⟨old, _⟩ | ⟨_, _, refused⟩ | ⟨_, rfl, rfl, less⟩ | ⟨_, rfl, more, rfl⟩
  · omega
  · exact absurd refused accepted
  · obtain ⟨σ', go, leading, rest, reply, node⟩ := h.stores fixed listed other sent took handled
    refine ⟨σ', go, leading, rest, reply, node ▸ took.length, node ▸ took.entry, ?_⟩
    rw [node, took.commit, ← sent.snapshot.leaderCommit]
    exact less
  · have bound := (h.paces l h.newest.member).most
    rw [← sent.snapshot.leaderCommit] at bound
    -- The leader has committed no more than the request reaches.
    have told : min64 call.req.leaderCommit
        (call.req.prevLogIndex + call.req.entries.length) = call.req.leaderCommit := by
      rw [all, min64]
      split
      · rfl
      · omega
    rw [told] at handled
    obtain ⟨σ', go, leading, rest, reply, log, commit⟩ :=
      h.commits fixed listed other sent took more handled
    refine ⟨σ', go, leading, rest, reply, log ▸ took.length, log ▸ took.entry, ?_⟩
    rw [commit, ← sent.snapshot.leaderCommit]

/-- A refused request is answered too. -/
theorem Leading.refused (fixed : Fixed S) (h : Leading S base l k e σ) (listed : j ∈ S.ids)
    (other : j ≠ l) (sent : Sent S l j call σ) (refuses : ¬ (σ.node j).Accepts call.req) :
    ∃ σ', Leads (exec S) Free σ σ' ∧ Leading S base l k e σ' ∧
      (∀ i, i ≠ j → σ'.procs i = σ.procs i) ∧
      .appendReply call ⟨call.req.term, false⟩ ∈ σ'.net := by
  have current := h.current listed sent
  have before := h.paces j listed
  let m := (σ.node j).observeLeader call.req
  have term : m.currentTerm = call.req.term := Node.observeLeader_currentTerm current
  have received : (σ.procs j).receive (.appendCall call) = .ok
      { proc := { σ.procs j with node := m }
        sent := [.appendReply call ⟨call.req.term, false⟩] } := by
    rw [← term]
    exact Go.bind_eq_ok.mpr ⟨_, Node.handleAppendEntries_refuse current refuses, rfl⟩
  obtain ⟨k', _, step, _⟩ := exists_deliver sent.sent (h.target fixed listed sent) received
  have first : Leads (exec S) Free σ _ := .single trivial step
  have rest (i : String) (apart : i ≠ j) : (σ.put j (σ.net.eraseIdx k')
      { proc := { σ.procs j with node := m }
        sent := [.appendReply call ⟨call.req.term, false⟩] }).procs i = σ.procs i :=
    Sys.put_procs_of_ne _ _ _ apart
  refine ⟨_, first, h.follower (h.newest.reached.leads first) other rest (List.suffix_refl _)
    ?_ ?_, rest, List.mem_append_right _ (List.mem_singleton_self _)⟩
  · rw [Sys.node, Sys.put_procs_self]
    exact (term.trans sent.snapshot.term).le
  · rw [Sys.node, Sys.put_procs_self]
    have log : m.log = (σ.node j).log := Node.observeLeader_log _ _
    have commit : m.commitIndex = (σ.node j).commitIndex := Node.observeLeader_commitIndex _ _
    refine before.congr (List.suffix_refl _) commit (Node.observeLeader_lastApplied _ _) ?_
    rw [log, commit]
    exact before.bounds.stored

/-- The answer that is on its way back to the leader. -/
structure Answered (l j : String) (success : Bool) (call : Call AppendEntriesRequest) (σ : Sys) :
    Prop where
  sent : .appendReply call ⟨call.req.term, success⟩ ∈ σ.net
  caller : call.caller = l
  peer : call.peerID = j
  term : call.req.term = (σ.node l).currentTerm

theorem Answered.target {success : Bool} (answered : Answered l j success call σ)
    (member : l ∈ S.ids) : S.target σ (.appendReply call ⟨call.req.term, success⟩) = some l := by
  change S.ids.find? (fun i => i = call.caller) = some l
  rw [answered.caller]
  exact Setup.find_caller member

/-- After a rejection the leader tries one entry earlier. -/
theorem Node.handleAppendResponse_back {n : Node} {req : AppendEntriesRequest} {x : Nat}
    (leads : n.role = .leader) (same : req.term = n.currentTerm)
    (found : n.nextIndex.lookup j = some x) (low : 1 < x) (high : x ≤ n.log.length) :
    ∃ next calls, n.handleAppendResponse j req ⟨req.term, false⟩ =
        .ok ({ n with nextIndex := next }, .done calls) ∧
      next.lookup j = some (x - 1) ∧
      ∀ id y, id ≠ j → n.nextIndex.lookup id = some y → 1 ≤ y → y ≤ n.log.length →
        next.lookup id = some y := by
  let back : Node := { n with nextIndex := n.nextIndex.insert j (x - 1) }
  have nonempty : back.log ≠ [] := List.ne_nil_of_length_pos (by change 0 < n.log.length; omega)
  obtain ⟨next, calls, sent, kept, _⟩ := replicateLocked_runs (n := back) leads nonempty
  refine ⟨next, calls, ?_, ?_, fun id y other found' low' high' => ?_⟩
  · rw [handleAppendResponse, if_neg (by change ¬ req.term > n.currentTerm; omega),
      if_neg (by simp [leads, same]), if_pos rfl]
    simp only [found, Option.getD_some]
    rw [if_pos low]
    exact Go.bind_eq_ok.mpr ⟨_, sent, rfl⟩
  · exact kept j (x - 1) (AList.lookup_insert _) (by omega) (by change x - 1 ≤ n.log.length; omega)
  · exact kept id y ((AList.lookup_insert_ne other).trans found') low' high'

theorem Leading.rejected (h : Leading S base l k e σ) (answered : Answered l j false call σ)
    {x : Nat} (found : (σ.node l).nextIndex.lookup j = some x) (low : 1 < x) (high : x ≤ k + 1) :
    ∃ next σ', Leads (exec S) Free σ σ' ∧ Leading S base l k e σ' ∧
      (∀ i, i ≠ l → σ'.procs i = σ.procs i) ∧
      σ'.node l = { σ.node l with nextIndex := next } ∧ next.lookup j = some (x - 1) ∧
      ∀ id y, id ≠ j → (σ.node l).nextIndex.lookup id = some y → 1 ≤ y → y ≤ k + 1 →
        next.lookup id = some y := by
  obtain ⟨next, calls, handled, back, kept⟩ := Node.handleAppendResponse_back h.newest.leads
    answered.term found low (h.length ▸ high)
  rw [h.length] at kept
  have received : (σ.procs l).receive (.appendReply call ⟨call.req.term, false⟩) = .ok
      { proc := { σ.procs l with node := { σ.node l with nextIndex := next } }
        sent := calls.map .appendCall } := by
    rw [← answered.peer] at handled
    exact Go.bind_eq_ok.mpr ⟨_, handled, rfl⟩
  obtain ⟨k', _, step, _⟩ :=
    exists_deliver answered.sent (answered.target h.newest.member) received
  have first : Leads (exec S) Free σ _ := .single trivial step
  let σ₁ := σ.put l (σ.net.eraseIdx k')
    { proc := { σ.procs l with node := { σ.node l with nextIndex := next } }
      sent := calls.map .appendCall }
  have now : σ₁.procs l = { σ.procs l with node := { σ.node l with nextIndex := next } } :=
    Sys.put_procs_self _ _ _ _
  have node : σ₁.node l = { σ.node l with nextIndex := next } := congrArg Proc.node now
  have rest (i : String) (apart : i ≠ l) : σ₁.procs i = σ.procs i :=
    Sys.put_procs_of_ne _ _ _ apart
  exact ⟨next, σ₁, first, h.renumber (h.newest.reached.leads first) rest (List.suffix_refl _) now,
    rest, node, back, kept⟩

/-- The loop over the uncommitted indices goes through. -/
theorem Node.advanceCommit_runs {n : Node} {indices : List Nat}
    (inside : ∀ x ∈ indices, x < n.log.length) :
    ∃ c, n.advanceCommit indices = .ok { n with commitIndex := c } := by
  induction indices generalizing n with
  | nil => exact ⟨n.commitIndex, rfl⟩
  | cons x rest ih =>
      obtain ⟨first, later⟩ := List.forall_mem_cons.mp inside
      have entry := (n.logAt_eq_ok _ _).mpr (List.getElem?_eq_getElem first)
      obtain ⟨c, skipped⟩ := ih later
      obtain ⟨c', taken⟩ := ih (n := { n with commitIndex := x }) later
      rw [Node.advanceCommit, entry]
      by_cases own : n.log[x].term ≠ n.currentTerm
      · exact ⟨c, (if_pos own).trans skipped⟩
      · by_cases enough : n.ackCount x ≥ n.peers.keys.length / 2 + 1
        · exact ⟨c', (if_neg own).trans ((if_pos enough).trans taken)⟩
        · exact ⟨c, (if_neg own).trans ((if_neg enough).trans skipped)⟩

/-- It takes the last index if enough nodes have stored it. -/
theorem Node.advanceCommit_last {n n' : Node} {indices : List Nat}
    (h : n.advanceCommit (indices ++ [k]) = .ok n') (entry : n.log[k]? = some e)
    (own : e.term = n.currentTerm) (enough : n.peers.keys.length / 2 + 1 ≤ n.ackCount k) :
    n'.commitIndex = k := by
  induction indices generalizing n with
  | nil =>
      obtain ⟨e', found, h⟩ := Go.bind_eq_ok.mp h
      obtain rfl := Option.some.inj (((n.logAt_eq_ok _ _).mp found).symm.trans entry)
      rw [if_neg (not_not.mpr own), if_pos enough] at h
      exact (congrArg Node.commitIndex (Go.pure_eq_ok.mp h)).symm
  | cons x rest ih =>
      obtain ⟨e', _, h⟩ := Go.bind_eq_ok.mp h
      split at h
      · exact ih h entry own enough
      · split at h
        · exact ih h entry own enough
        · exact ih h entry own enough

/-- After an answer that reports success the leader knows what the other node has stored, and
has committed the entry if that were enough. -/
theorem Node.handleAppendResponse_forward {n : Node} {req : AppendEntriesRequest}
    (leads : n.role = .leader) (same : req.term = n.currentTerm)
    (last : req.entries.getLast? = some e) (index : e.index = k) (length : n.log.length = k + 1)
    (entry : n.log[k]? = some e) (own : e.term = n.currentTerm)
    (most : n.commitIndex ≤ k) :
    ∃ c, n.handleAppendResponse j req ⟨req.term, true⟩ = .ok ({ n with
        matchIndex := n.matchIndex.insert j k
        nextIndex := n.nextIndex.insert j (k + 1)
        commitIndex := c }, .apply) ∧ n.commitIndex ≤ c ∧ c ≤ k ∧
      (n.peers.keys.length / 2 + 1 ≤
        Node.ackCount { n with matchIndex := n.matchIndex.insert j k } k → c = k) := by
  let m : Node := { n with
    matchIndex := n.matchIndex.insert j k
    nextIndex := n.nextIndex.insert j (k + 1) }
  have recorded : n.recordMatch j req = m := by
    unfold recordMatch
    rw [last]
    simp only [index]
    rfl
  have inside : ∀ x ∈ m.uncommitted, x < m.log.length := fun x mem => by
    have := List.mem_range'_1.mp mem
    omega
  obtain ⟨c, advanced⟩ := advanceCommit_runs inside
  have handled : n.handleAppendResponse j req ⟨req.term, true⟩ =
      .ok ({ m with commitIndex := c }, .apply) := by
    rw [handleAppendResponse, if_neg (by change ¬ req.term > n.currentTerm; omega),
      if_neg (by simp [leads, same]), if_neg (by simp)]
    dsimp only
    rw [recorded]
    exact Go.bind_eq_ok.mpr ⟨_, advanced, rfl⟩
  have between : n.commitIndex ≤ c ∧ c ≤ k := by
    obtain ⟨c', same, moved⟩ := advanceCommit_ok advanced
    obtain rfl : c = c' := congrArg Node.commitIndex same
    rcases moved with stays | ⟨mem, _⟩
    · exact ⟨stays.ge, stays.trans_le most⟩
    · have range := List.mem_range'_1.mp mem
      change n.commitIndex + 1 ≤ c ∧
        c < n.commitIndex + 1 + (n.log.length - (n.commitIndex + 1)) at range
      omega
  refine ⟨c, handled, between.1, between.2, fun enough => ?_⟩
  by_cases there : n.commitIndex = k
  · omega
  · have split : m.uncommitted =
        List.range' (n.commitIndex + 1) (k - (n.commitIndex + 1)) ++ [k] := by
      have count : n.log.length - (n.commitIndex + 1) = k - (n.commitIndex + 1) + 1 := by omega
      change List.range' (n.commitIndex + 1) (n.log.length - (n.commitIndex + 1)) = _
      rw [count, List.range'_1_concat, Nat.add_sub_cancel' (by omega)]
    rw [split] at advanced
    exact advanceCommit_last advanced entry own enough

/-- A success that is reported makes the leader commit what enough nodes have stored, and
apply it. -/
theorem Leading.acknowledged (fixed : Fixed S) (h : Leading S base l k e σ)
    (answered : Answered l j true call σ) (last : call.req.entries.getLast? = some e) :
    ∃ σ', Leads (exec S) Free σ σ' ∧ Leading S base l k e σ' ∧
      (∀ i, i ≠ l → σ'.procs i = σ.procs i) ∧
      (σ'.node l).matchIndex = (σ.node l).matchIndex.insert j k ∧
      (σ'.node l).nextIndex.lookup j = some (k + 1) ∧
      (∀ id y, id ≠ j → (σ.node l).nextIndex.lookup id = some y → 1 ≤ y → y ≤ k + 1 →
        (σ'.node l).nextIndex.lookup id = some y) ∧
      ((σ.node l).peers.keys.length / 2 + 1 ≤ (σ'.node l).ackCount k →
        (σ'.node l).commitIndex = k) := by
  have member := h.newest.member
  have placed := h.newest.reached.placed fixed member
  have before := h.paces l member
  obtain ⟨c, handled, least, most, enough⟩ := Node.handleAppendResponse_forward (j := j)
    h.newest.leads answered.term last (placed.log.index k e h.entry) h.length h.entry h.own
    before.most
  let n : Node := { σ.node l with
    matchIndex := (σ.node l).matchIndex.insert j k
    nextIndex := (σ.node l).nextIndex.insert j (k + 1)
    commitIndex := c }
  let p : Proc := { σ.procs l with node := n }
  have length : n.log.length = k + 1 := h.length
  have bounds : p.node.CommitBounds :=
    ⟨before.bounds.applied.trans least, by change c < n.log.length; omega⟩
  obtain ⟨o, called⟩ := Proc.applyCommitted_runs (p := p) ⟨placed.nonempty, fun _ => bounds.stored⟩
    .appendResponse
  have received : (σ.procs l).receive (.appendReply call ⟨call.req.term, true⟩) = .ok o := by
    rw [← answered.peer] at handled
    exact Go.bind_eq_ok.mpr ⟨_, handled, by rw [answered.peer]; exact called⟩
  obtain ⟨k', _, step, _⟩ := exists_deliver answered.sent (answered.target member) received
  have first : Leads (exec S) Free σ _ := .single trivial step
  obtain ⟨σ', second, drained⟩ := leads_drained fixed member bounds called
    (Sys.put_procs_self σ l (σ.net.eraseIdx k') o) (List.subset_append_right _ _)
  have go := first.trans (free_of_unled second)
  have rest (i : String) (apart : i ≠ l) : σ'.procs i = σ.procs i :=
    (drained.others i apart).trans (Sys.put_procs_of_ne _ _ _ apart)
  have later : σ.events <:+ (σ.put l (σ.net.eraseIdx k') o).events := List.suffix_append _ _
  have paces := drained.paces placed.id bounds most (fun _ => h.entry) (h.since.trans later)
    fun same => (before.seen same).later later
  have awaits := drained.awaits bounds h.awaits
  obtain ⟨next, proposals, node, _, kept⟩ := drained.node
  refine ⟨σ', go, h.leader (h.newest.reached.leads go) rest
    (later.trans drained.events) ?_ ?_ ?_ awaits paces, rest, ?_, ?_,
    fun id y other found low high => ?_, fun all => ?_⟩
  · rw [node]
  · rw [node]
  · rw [node]
  · rw [node]
  · rw [node]
    exact kept j (k + 1) (AList.lookup_insert _) (Nat.succ_pos k) length.ge
  · rw [node]
    exact kept id y ((AList.lookup_insert_ne other).trans found) low (length ▸ high)
  · rw [node] at all ⊢
    exact enough all

end Exchange

end DistributedCache.Raft
