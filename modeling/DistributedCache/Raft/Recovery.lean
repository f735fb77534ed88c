import DistributedCache.Raft.Election
import DistributedCache.Raft.Leadership
import DistributedCache.Raft.Panics

/-!
A deployment can always recover: from every state that a run of it reaches, some
continuation leads to one leader that all other nodes follow, and every node names it and
its address.

The leader comes from an election, or is the one there is. Its next heartbeat then goes
through at every other node, whatever state that node has been left in.
-/
namespace DistributedCache.Raft

open Transition (Leads)
open Refinement (Fixed)

/-- The node follows `l` in term `t`. -/
structure Node.Follows (n : Node) (l : String) (t : Nat) : Prop where
  role : n.role = .follower
  term : n.currentTerm = t
  leader : n.leaderID = l

section Receiving

variable {n : Node} {req : AppendEntriesRequest}

theorem Node.Follows.of_observeLeader (current : n.currentTerm ≤ req.term) :
    (n.observeLeader req).Follows req.leaderID req.term := by
  refine ⟨n.observeLeader_follower req, Node.observeLeader_currentTerm current, ?_⟩
  unfold Node.observeLeader
  split
  · rfl
  · rfl

/-- What a request commits is in the log that it leaves. -/
theorem Node.Accepts.readable (accepts : n.Accepts req) :
    Node.Readable { (n.observeLeader req).storeEntries req with
      commitIndex := min64 req.leaderCommit (req.prevLogIndex + req.entries.length) } := by
  have length := accepts.length_store
  refine ⟨List.ne_nil_of_length_pos ?_, fun _ => ?_⟩
  · change 0 < ((n.observeLeader req).storeEntries req).log.length
    omega
  · change min64 _ _ < ((n.observeLeader req).storeEntries req).log.length
    rw [length]
    unfold min64
    split
    · omega
    · omega

/-- The apply loop goes through where everything committed is in the log. -/
theorem Proc.applyCommitted_runs {p : Proc} (readable : p.node.Readable) (c : Cont) :
    ∃ o, p.applyCommitted c = .ok o := by
  by_cases older : p.node.lastApplied < p.node.commitIndex
  · have inside : p.node.lastApplied + 1 < p.node.log.length := by
      have := readable.stored older
      omega
    have entry := (p.node.logAt_eq_ok _ _).mpr (List.getElem?_eq_getElem inside)
    obtain ⟨q, popped⟩ : ∃ q, p.node.popCommitted = .ok (some q) := by
      rw [Node.popCommitted, if_pos older]
      exact ⟨_, Go.bind_eq_ok.mpr ⟨_, entry, rfl⟩⟩
    exact ⟨_, Go.bind_eq_ok.mpr ⟨_, popped, rfl⟩⟩
  · have done : p.node.popCommitted = .ok none := by
      rw [Node.popCommitted, if_neg older]
      rfl
    obtain ⟨o, resumed⟩ : ∃ o, p.resumeCont c = .ok o := by
      cases c with
      | propose | appendEntries call => exact ⟨_, rfl⟩
      | appendResponse =>
          by_cases leads : p.node.role = .leader
          · obtain ⟨_, _, sent, _⟩ := Node.replicateLocked_runs leads readable.log_ne
            exact ⟨_, Go.bind_eq_ok.mpr ⟨_, sent, rfl⟩⟩
          · exact ⟨_, Go.bind_eq_ok.mpr ⟨(p.node, []), if_pos leads, rfl⟩⟩
    exact ⟨o, Go.bind_eq_ok.mpr ⟨none, done, resumed⟩⟩

/-- A request that is not of an older term goes through, and its sender is followed. -/
theorem Proc.receive_follows {p : Proc} {call : Call AppendEntriesRequest}
    (current : p.node.currentTerm ≤ call.req.term) :
    ∃ o, p.receive (.appendCall call) = .ok o ∧
      o.proc.node.Follows call.req.leaderID call.req.term := by
  have follows := Node.Follows.of_observeLeader current
  by_cases accepts : p.node.Accepts call.req
  · obtain ⟨n, status, handled, accepted, _⟩ := Node.handleAppendEntries_accept accepts
    cases status with
    | rejected => exact absurd rfl accepted
    | stored =>
        obtain ⟨_, rfl⟩ := Node.handleAppendEntries_stored handled
        exact ⟨_, Go.bind_eq_ok.mpr ⟨_, handled, rfl⟩, follows.role, follows.term, follows.leader⟩
    | committed =>
        obtain ⟨_, _, rfl⟩ := Node.handleAppendEntries_committed handled
        obtain ⟨o, applied⟩ := Proc.applyCommitted_runs (p := { p with node := _ })
          accepts.readable (.appendEntries call)
        obtain ⟨next, last, node⟩ := Proc.applyCommitted_node applied
        refine ⟨o, Go.bind_eq_ok.mpr ⟨_, handled, applied⟩, ?_⟩
        rw [node]
        exact ⟨follows.role, follows.term, follows.leader⟩
  · have handled := Node.handleAppendEntries_refuse current accepts
    exact ⟨_, Go.bind_eq_ok.mpr ⟨_, handled, rfl⟩, follows⟩

end Receiving

section Announcing

variable {S : Setup} {σ : Sys} {l : String} {todo : List String}

/-- A leader of the newest term whose heartbeat is on its way to the nodes of the list; all
others follow it already. -/
structure Announcing (S : Setup) (l : String) (todo : List String) (σ : Sys) : Prop where
  newest : Newest S l σ
  nodup : todo.Nodup
  follow : ∀ j ∈ S.ids, j ≠ l → j ∉ todo → (σ.node j).Follows l (σ.node l).currentTerm
  calls : ∀ j ∈ todo, j ∈ S.ids ∧ j ≠ l ∧ ∃ call, .appendCall call ∈ σ.net ∧
    call.peerID = j ∧ call.addr = S.addrOf j ∧ call.req.term = (σ.node l).currentTerm ∧
    call.req.leaderID = l

theorem Announcing.round (fixed : Fixed S) {j : String} (h : Announcing S l (j :: todo) σ) :
    ∃ σ', Leads (exec S) (fun _ _ => True) σ σ' ∧ Announcing S l todo σ' := by
  obtain ⟨listed, other, call, sent, peer, addr, term, leader⟩ := h.calls j List.mem_cons_self
  obtain ⟨fresh, nodup⟩ := List.nodup_cons.mp h.nodup
  have current : (σ.node j).currentTerm ≤ call.req.term :=
    term.symm ▸ h.newest.newest j listed
  obtain ⟨o, received, follows⟩ := Proc.receive_follows current
  rw [leader, term] at follows
  have target : S.target σ (.appendCall call) = some j := by
    change S.resolve σ call.addr = some j
    rw [addr]
    exact fixed.consistent.resolve_eq (h.newest.reached.addrs fixed) listed
  obtain ⟨k, _, step, kept⟩ := exists_deliver sent target received
  have first : Leads (exec S) (fun _ _ => True) σ _ := .single trivial step
  let σ₁ := σ.put j (σ.net.eraseIdx k) o
  have now : σ₁.node j = o.proc.node := congrArg Proc.node (Sys.put_procs_self _ _ _ _)
  have rest (i : String) (apart : i ≠ j) : σ₁.node i = σ.node i :=
    congrArg Proc.node (Sys.put_procs_of_ne _ _ _ apart)
  have self : σ₁.node l = σ.node l := rest l other.symm
  refine ⟨σ₁, first, ⟨h.newest.reached.leads first, h.newest.member, self ▸ h.newest.leads,
    fun i mem => ?_⟩, nodup, fun i mem apart asked => ?_, fun i mem => ?_⟩
  · rw [self]
    by_cases same : i = j
    · rw [same, now, follows.term]
    · rw [rest i same]
      exact h.newest.newest i mem
  · rw [self]
    by_cases same : i = j
    · rw [same, now]
      exact follows
    · rw [rest i same]
      refine h.follow i mem apart fun later => ?_
      cases List.mem_cons.mp later with
      | inl first => exact same first
      | inr later => exact asked later
  · obtain ⟨listed', other', call', sent', peer', addr', term', leader'⟩ :=
      h.calls i (List.mem_cons_of_mem j mem)
    refine ⟨listed', other', call', List.mem_append_left _ (kept _ sent' fun same => ?_), peer',
      addr', self ▸ term', leader'⟩
    obtain rfl := Msg.appendCall.inj same
    exact fresh (peer.symm.trans peer' ▸ mem)

theorem Announcing.followed (fixed : Fixed S) (h : Announcing S l todo σ) :
    ∃ σ', Leads (exec S) (fun _ _ => True) σ σ' ∧ Announcing S l [] σ' := by
  induction todo generalizing σ with
  | nil => exact ⟨σ, .refl σ, h⟩
  | cons j todo ih =>
      obtain ⟨σ₁, first, h₁⟩ := h.round fixed
      obtain ⟨σ₂, second, h₂⟩ := ih h₁
      exact ⟨σ₂, first.trans second, h₂⟩

/-- A leader of the newest term can make itself known to all others. -/
theorem Newest.followed (fixed : Fixed S) (h : Newest S l σ) :
    ∃ σ', Leads (exec S) (fun _ _ => True) σ σ' ∧ Announcing S l [] σ' := by
  obtain ⟨next, calls, first, beats⟩ := leads_heartbeat fixed h.reached h.member h.leads
  let σ₁ := σ.put l σ.net { proc := { σ.procs l with node := { σ.node l with nextIndex := next } }
                            sent := calls.map .appendCall }
  have leader : σ₁.node l = { σ.node l with nextIndex := next } :=
    congrArg Proc.node (Sys.put_procs_self _ _ _ _)
  have others (j : String) (apart : j ≠ l) : σ₁.procs j = σ.procs j :=
    Sys.put_procs_of_ne _ _ _ apart
  have term : (σ₁.node l).currentTerm = (σ.node l).currentTerm := by rw [leader]
  have placed := h.reached.placed fixed h.member
  have todo {j : String} (mem : j ∈ S.ids.erase l) : j ≠ l ∧ j ∈ S.ids :=
    fixed.consistent.ids_nodup.mem_erase_iff.mp mem
  have announcing : Announcing S l (S.ids.erase l) σ₁ := by
    refine ⟨⟨h.reached.leads first, h.member, ?_, fun j listed => ?_⟩,
      fixed.consistent.ids_nodup.erase l, fun j listed other unasked => ?_, fun j mem => ?_⟩
    · rw [leader]
      exact h.leads
    · rw [term]
      by_cases self : j = l
      · rw [self, term]
      · rw [Sys.node, others j self]
        exact h.newest j listed
    · exact absurd (fixed.consistent.ids_nodup.mem_erase_iff.mpr ⟨other, listed⟩) unasked
    · obtain ⟨_, call, sent, _, peer, addr, snapshot, _⟩ := beats.each j (todo mem).2 (todo mem).1
      exact ⟨(todo mem).2, (todo mem).1, call,
        List.mem_append_right _ (List.mem_map_of_mem sent), peer, addr,
        snapshot.term.trans term.symm, snapshot.leaderID.trans placed.id⟩
  obtain ⟨σ₂, second, followed⟩ := announcing.followed fixed
  exact ⟨σ₂, (first.mono fun _ _ _ => trivial).trans second, followed⟩

end Announcing

/-- From every state that a fixed deployment of an odd number of nodes reaches, however
messages have been delayed, reordered or lost and whatever its handlers are in the middle
of, it can go on to a state with one leader: all other nodes follow it in its term, and
every node names it with the address it listens on. -/
theorem leader_recovers {S : Setup} {past : List (Sys × Action)} {σ : Sys} (fixed : Fixed S)
    (run : Run S past σ) :
    ∃ more σ', Run S (more ++ past) σ' ∧ ∃ l ∈ S.ids, (σ'.node l).role = .leader ∧
      ∀ i ∈ S.ids, (i ≠ l → (σ'.node i).role = .follower) ∧
        (σ'.node i).currentTerm = (σ'.node l).currentTerm ∧
        (σ'.node i).leaderID = l ∧ (σ'.node i).leaderAddr = S.addrOf l := by
  obtain ⟨σ₁, l, first, newest⟩ := leads_newest fixed ⟨past, run⟩
  obtain ⟨σ₂, second, followed⟩ := newest.followed fixed
  obtain ⟨more, run', _⟩ := ((first.mono fun _ _ _ => trivial).trans second).extends run
  have member := followed.newest.member
  have leads := followed.newest.leads
  refine ⟨more, σ₂, run', l, member, leads, fun i listed => ?_⟩
  obtain ⟨_, _, refines⟩ := Refinement.refines_any fixed run'
  have address (known : (σ₂.node i).leaderID = l) : (σ₂.node i).leaderAddr = S.addrOf l := by
    have named := (refines.nodes i listed).leaderAddr fixed.consistent listed
    rw [known] at named
    exact named (fixed.consistent.ids_ne l member) member
  by_cases self : i = l
  · have known : (σ₂.node i).leaderID = l := by
      rw [self]
      exact (followed.newest.reached.placed fixed member).leads leads
    exact ⟨fun other => absurd self other, by rw [self], known, address known⟩
  · have follows := followed.follow i listed self List.not_mem_nil
    exact ⟨fun _ => follows.role, follows.term, follows.leader, address follows.leader⟩

/-- Three candidates of one term, none of which can win it. -/
theorem leader_recovers_split : ∃ past σ, Run trio past σ ∧
    (∀ i ∈ trio.ids, (σ.node i).role = .candidate ∧ (σ.node i).currentTerm = 1) ∧
    ∃ more σ', Run trio (more ++ past) σ' ∧ ∃ l ∈ trio.ids, (σ'.node l).role = .leader ∧
      ∀ i ∈ trio.ids, (σ'.node i).leaderAddr = trio.addrOf l := by
  obtain ⟨past, σ, run, check⟩ := Run.of_actions trio [.timeout "a", .timeout "b", .timeout "c"]
    (fun _ σ => decide (∀ i ∈ trio.ids, (σ.node i).role = .candidate ∧
      (σ.node i).currentTerm = 1)) (by decide +kernel)
  obtain ⟨more, σ', run', l, member, leads, all⟩ := leader_recovers trio_fixed run
  exact ⟨past, σ, run, of_decide_eq_true check, more, σ', run', l, member, leads,
    fun i listed => (all i listed).2.2.2⟩

end DistributedCache.Raft
