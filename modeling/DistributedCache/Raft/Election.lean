import Mathlib.Data.Finset.Max
import Mathlib.Data.Prod.Lex
import DistributedCache.Raft.LogOrder
import DistributedCache.Raft.Repair
import DistributedCache.Raft.Safety

/-!
An election that goes through. From every state that a fixed deployment can be in, a few
steps lead to a leader of the newest term: the node with the best log leaves an old
leadership, stands until its term is newer than all others, and gets every vote.

None of these steps gives a node a request that it would store, so the logs stay as they are.
-/
namespace DistributedCache.Raft

open Transition (Leads)
open Refinement (Fixed)

section Steps

variable {S : Setup} {σ : Sys} {i : String} {o : Out}

/-- No node is given a request of its own term or a later one. -/
def Unled (S : Setup) : Sys → Action → Prop :=
  OnDelivery S fun _ _ => False

theorem exec_of_act {a : Action} (actor : a.actor = some i) (member : i ∈ S.ids)
    (h : (σ.procs i).act S.membership a = .ok o) : exec S σ a = .ok (σ.put i σ.net o) := by
  cases a with
  | deliver k | lose k => cases actor
  | timeout j | heartbeat j | propose j _ | resume j _ | wake j _ | cancel j _ =>
      obtain rfl := Option.some.inj actor
      simp only [exec, Action.actor, if_pos member, h]
      rfl

theorem exec_of_receive {k : Nat} {m : Msg} (hm : σ.net[k]? = some m)
    (target : S.target σ m = some i) (h : (σ.procs i).receive m = .ok o) :
    exec S σ (.deliver k) = .ok (σ.put i (σ.net.eraseIdx k) o) := by
  simp only [exec, hm, target, h]
  rfl

theorem leads_act {a : Action} (actor : a.actor = some i) (member : i ∈ S.ids)
    (h : (σ.procs i).act S.membership a = .ok o) :
    Leads (exec S) (Unled S) σ (σ.put i σ.net o) := by
  refine .single (fun d hd => ?_) (exec_of_act actor member h)
  cases a with
  | deliver k => cases actor
  | _ => cases hd

/-- A message in flight can be delivered next, and all others stay in flight. -/
theorem exists_deliver {m : Msg} (sent : m ∈ σ.net) (target : S.target σ m = some i)
    (h : (σ.procs i).receive m = .ok o) :
    ∃ k, σ.net[k]? = some m ∧ exec S σ (.deliver k) = .ok (σ.put i (σ.net.eraseIdx k) o) ∧
      ∀ m' ∈ σ.net, m' ≠ m → m' ∈ σ.net.eraseIdx k := by
  obtain ⟨k, hm⟩ := List.mem_iff_getElem?.mp sent
  refine ⟨k, hm, exec_of_receive hm target h, fun m' mem other => ?_⟩
  obtain ⟨k', hm'⟩ := List.mem_iff_getElem?.mp mem
  refine List.mem_eraseIdx_iff_getElem?.mpr ⟨k', fun same => ?_, hm'⟩
  rw [same, hm] at hm'
  exact other (Option.some.inj hm').symm

theorem leads_deliver {m : Msg} (sent : m ∈ σ.net) (target : S.target σ m = some i)
    (h : (σ.procs i).receive m = .ok o)
    (old : ∀ call, m = .appendCall call → call.req.term < (σ.node i).currentTerm) :
    ∃ net, Leads (exec S) (Unled S) σ (σ.put i net o) ∧ ∀ m' ∈ σ.net, m' ≠ m → m' ∈ net := by
  obtain ⟨k, hm, step, kept⟩ := exists_deliver sent target h
  refine ⟨σ.net.eraseIdx k, .single (fun d hd current => ?_) step, kept⟩
  cases m with
  | appendCall call =>
      simp only [delivered, hm, target, Option.map_some, Option.mem_some_iff] at hd
      subst hd
      exact Nat.not_lt.mpr current (old call rfl)
  | voteCall call | voteReply call resp | appendReply call resp =>
      simp only [delivered, hm] at hd
      cases hd

/-- Requests to a member reach it. -/
theorem Setup.Consistent.resolve_eq (hS : S.Consistent)
    (addrs : ∀ i ∈ S.ids, (σ.node i).addr = S.addrOf i) (member : i ∈ S.ids) :
    S.resolve σ (S.addrOf i) = some i := by
  cases found : S.resolve σ (S.addrOf i) with
  | none =>
      have absent := List.find?_eq_none.mp found i member
      simp [addrs i member] at absent
  | some j => rw [(hS.resolve_addrOf addrs member found).1]

/-- And so do responses. -/
theorem Setup.find_caller (member : i ∈ S.ids) : S.ids.find? (fun j => j = i) = some i := by
  cases found : S.ids.find? fun j => j = i with
  | none =>
      have absent := List.find?_eq_none.mp found i member
      simp at absent
  | some j => rw [show j = i by simpa using List.find?_some found]

end Steps

section Sections

namespace Node

variable {n : Node}

/-- The term of the last entry and the length of the log, in the order in which votes are
given. -/
def logRank (n : Node) : Lex (Nat × Nat) :=
  toLex ((n.log.getLast?.map Entry.term).getD 0, n.log.length)

theorem logRank_congr {n' : Node} (same : n'.log = n.log) : n'.logRank = n.logRank := by
  rw [logRank, logRank, same]

theorem lastLogIndexTermLocked_eq {e : Entry} (last : n.log.getLast? = some e) :
    n.lastLogIndexTermLocked = .ok (n.log.length - 1, e.term) := by
  rw [List.getLast?_eq_getElem?] at last
  exact Go.bind_eq_ok.mpr ⟨e, (n.logAt_eq_ok _ e).mpr last, rfl⟩

theorem startElectionLocked_runs (nonempty : n.log ≠ []) :
    ∃ n' el, n.startElectionLocked = .ok (n', el) := by
  obtain ⟨e, last⟩ : ∃ e, n.log.getLast? = some e :=
    ⟨_, List.getLast?_eq_some_getLast nonempty⟩
  exact ⟨_, _, Go.bind_eq_ok.mpr ⟨_, lastLogIndexTermLocked_eq last, rfl⟩⟩

/-- A node votes for a candidate of a newer term whose log is not worse than its own. -/
theorem handleRequestVote_grants {req : RequestVoteRequest} (nonempty : n.log ≠ [])
    (newer : n.currentTerm < req.term)
    (better : n.logRank ≤ toLex (req.lastLogTerm, req.lastLogIndex + 1)) :
    ∃ n', n.handleRequestVote req = .ok (n', ⟨req.term, true⟩) ∧ n'.currentTerm = req.term ∧
      n'.log = n.log := by
  obtain ⟨e, last⟩ : ∃ e, n.log.getLast? = some e :=
    ⟨_, List.getLast?_eq_some_getLast nonempty⟩
  have upToDate : req.lastLogTerm > e.term ∨
      (req.lastLogTerm = e.term ∧ req.lastLogIndex ≥ n.log.length - 1) := by
    rw [logRank, Prod.Lex.toLex_le_toLex] at better
    simp only [last, Option.map_some, Option.getD_some] at better
    omega
  have looked : (n.becomeFollowerLocked req.term "").lastLogIndexTermLocked =
      .ok (n.log.length - 1, e.term) := lastLogIndexTermLocked_eq last
  rw [handleRequestVote, if_neg (Nat.not_lt.mpr newer.le)]
  dsimp only
  rw [if_pos newer]
  refine ⟨_, Go.bind_eq_ok.mpr ⟨_, looked, if_pos ⟨.inl rfl, upToDate⟩⟩, rfl, rfl⟩

/-- What a leader sends to its peers, each from its `nextIndex`, which stays where it is
within the log. -/
theorem replicateLocked_runs (leads : n.role = .leader) (nonempty : n.log ≠ []) :
    ∃ next calls, n.replicateLocked = .ok ({ n with nextIndex := next }, calls) ∧
      (∀ id x, n.nextIndex.lookup id = some x → 1 ≤ x → x ≤ n.log.length →
        next.lookup id = some x) ∧
      ∀ p ∈ n.peerAddrsLocked, next.lookup p.1 = some (n.nextFor p.1) ∧
        ∃ call ∈ calls, call.peerID = p.1 ∧ call.req.prevLogIndex = n.nextFor p.1 - 1 := by
  obtain ⟨n', calls, sent, rest, each⟩ := replicateAll_next nonempty n.peerAddrsLocked_nodup
  have locked : n.replicateLocked = .ok (n', calls) := by
    rw [replicateLocked, if_neg (not_not.mpr leads), sent]
  obtain ⟨⟨next, rfl⟩, _⟩ := replicateLocked_ok locked
  refine ⟨next, calls, locked, fun id x found low high => ?_, fun p mem => ?_⟩
  · by_cases peer : id ∈ n.peerAddrsLocked.map Prod.fst
    · exact (each id peer).1.trans (congrArg some (nextFor_eq found low high))
    · exact (rest id peer).trans found
  · obtain ⟨here, call, found, prev⟩ := each p.1 (List.mem_map_of_mem mem)
    exact ⟨here, call, List.mem_of_find?_eq_some found, by simpa using List.find?_some found, prev⟩

theorem winElection_runs {term : Nat} (stands : n.role = .candidate)
    (same : n.currentTerm = term) (nonempty : n.log ≠ []) :
    ∃ n' calls, n.winElection term = .ok (n', calls) ∧
      n'.role = .leader ∧ n'.currentTerm = term ∧ n'.log = n.log := by
  have won : n.winElection term = n.becomeLeaderLocked := if_pos ⟨stands, same⟩
  obtain ⟨n', calls, sent⟩ : ∃ n' calls, n.becomeLeaderLocked = .ok (n', calls) := by
    obtain ⟨_, calls, sent, _⟩ := replicateLocked_runs (n := { n with
      role := .leader
      leaderID := n.id
      nextIndex := (n.peers.keys.filter fun id => id ≠ n.id).foldl
        (fun m id => m.insert id n.log.length) ∅
      matchIndex := (n.peers.keys.filter fun id => id ≠ n.id).foldl
        (fun m id => m.insert id 0) ∅ }) rfl nonempty
    exact ⟨_, calls, sent⟩
  obtain ⟨⟨next, leader⟩, _⟩ := becomeLeaderLocked_ok sent
  refine ⟨n', calls, won.trans sent, ?_⟩
  rw [leader]
  exact ⟨rfl, same, rfl⟩

end Node

end Sections

/-- What a node of a fixed deployment keeps through every run. -/
structure Node.Placed (S : Setup) (i : String) (n : Node) : Prop where
  id : n.id = i
  addr : n.addr = S.addrOf i
  peers : n.peers = S.peerMap i
  log : n.WellFormed
  leads : n.role = .leader → n.leaderID = i

section Reached

variable {S : Setup} {σ σ' : Sys} {i : String}

/-- A run has led to the state. -/
def Reached (S : Setup) (σ : Sys) : Prop :=
  ∃ past, Run S past σ

theorem Reached.leads {C : Sys → Action → Prop} (h : Reached S σ)
    (more : Leads (exec S) C σ σ') : Reached S σ' := by
  obtain ⟨past, run⟩ := h
  obtain ⟨more, run', _⟩ := more.extends run
  exact ⟨more ++ past, run'⟩

theorem Node.leaderID_of_leader_step {ok : Node → AppendEntriesRequest → Prop} {n n' : Node}
    (h : n.role = .leader → n.leaderID = n.id) (step : NodeStep ok n n') :
    n'.role = .leader → n'.leaderID = n'.id := by
  intro leads
  cases step with
  | stand | stepDown => cases leads
  | lead => rfl
  | observe req | store req | commit req =>
      cases (n.observeLeader_follower req).symm.trans leads
  | indices | propose | proposeAlone | vote | advance | pop | forget | peers => exact h leads

theorem Reached.placed (fixed : Fixed S) (h : Reached S σ) (member : i ∈ S.ids) :
    (σ.node i).Placed S i := by
  obtain ⟨past, run⟩ := h
  obtain ⟨g, _, refines⟩ := Refinement.refines_any fixed run
  have ordered : σ.Ordered := by
    refine Transition.Run.invariant (C := fun _ _ => True) (I := Sys.Ordered) ?_ ?_ run
      fun _ _ => trivial
    · rintro _ rfl
      exact .start S
    · exact fun _ _ _ h _ step => h.exec step
  have node := refines.nodes i member
  have leads := Run.node_invariant (I := fun n => n.role = .leader → n.leaderID = n.id)
    (fun _ _ _ leads => by cases leads)
    (fun n n' h (step : NodeStep (fun _ _ => True) n n') => Node.leaderID_of_leader_step h step)
    run (fun _ _ _ _ _ => trivial) i σ (Transition.mem_visited_self past σ)
  exact ⟨node.id, node.addr, node.peers, ordered.nodes i,
    fun leader => (leads leader).trans node.id⟩

theorem Reached.addrs (fixed : Fixed S) (h : Reached S σ) :
    ∀ i ∈ S.ids, (σ.node i).addr = S.addrOf i :=
  fun _ member => (h.placed fixed member).addr

theorem Node.Placed.nonempty {n : Node} (h : n.Placed S i) : n.log ≠ [] := by
  intro none
  have first := h.log.first
  rw [none] at first
  cases first

/-- The peers of a node are the other members, under their addresses. -/
theorem Node.Placed.mem_peers {n : Node} (h : n.Placed S i) (fixed : Fixed S)
    (member : i ∈ S.ids) {p : String × String} :
    p ∈ n.peerAddrsLocked ↔ p.1 ∈ S.ids ∧ p.1 ≠ i ∧ p.2 = S.addrOf p.1 := by
  rw [Node.mem_peerAddrsLocked, h.id, h.peers]
  constructor
  · rintro ⟨found, other⟩
    obtain ⟨listed, _, addr⟩ := fixed.consistent.of_lookup_peerMap member found
    exact ⟨listed, other, addr⟩
  · rintro ⟨listed, other, addr⟩
    have known := (fixed.consistent.mem_peerMap member p.1).mpr ⟨listed, other⟩
    obtain ⟨addr', found⟩ := GoMap.mem_iff.mp (AList.mem_keys.mpr known)
    refine ⟨?_, other⟩
    rw [found, addr, (fixed.consistent.of_lookup_peerMap member found).2.2]

end Reached

section Voting

variable {S : Setup} {σ : Sys} {m : String} {t : Nat} {todo : List String}

/-- The election is counted up to this number of votes, and once they are enough somebody
goes on to take the leadership. -/
def Proc.Counts (p : Proc) (t majority votes : Nat) : Prop :=
  ∃ once, p.elections.lookup t = some ⟨majority, votes, once⟩ ∧
    (once = true → .winning t ∈ p.tasks) ∧ (once = false → votes = 1 ∨ votes < majority)

theorem Proc.resume_counting {p : Proc} {majority votes : Nat}
    (h : p.Counts t majority votes) (membership : Bool) (j : String) :
    ∃ p', Proc.resume membership { p with tasks := p.tasks ++ [.counting t j] }
        p.tasks.length = .ok { proc := p' } ∧ p'.node = p.node ∧
      p'.Counts t majority (votes + 1) := by
  obtain ⟨once, found, won, _⟩ := h
  have task : (p.tasks ++ [Task.counting t j])[p.tasks.length]? = some (.counting t j) :=
    List.getElem?_concat_length
  have erased : (p.tasks ++ [Task.counting t j]).eraseIdx p.tasks.length = p.tasks := by
    rw [List.eraseIdx_append_of_length_le (Nat.le_refl _), Nat.sub_self]
    exact List.append_nil _
  simp only [Proc.resume, task, Proc.count, found]
  rw [erased]
  by_cases enough : votes + 1 ≥ majority ∧ once = false
  · rw [if_pos enough]
    refine ⟨_, rfl, rfl, true, AList.lookup_insert _, fun _ => ?_, fun missed => ?_⟩
    · exact List.mem_append_right _ (List.mem_singleton_self _)
    · cases missed
  · rw [if_neg enough]
    refine ⟨_, rfl, rfl, once, AList.lookup_insert _, won, fun going => .inr ?_⟩
    exact Nat.not_le.mp fun reaches => enough ⟨reaches, going⟩

/-- A vote that has been given is received and counted. -/
theorem leads_count {call : Call RequestVoteRequest} {majority votes : Nat} (member : m ∈ S.ids)
    (granted : .voteReply call ⟨t, true⟩ ∈ σ.net) (caller : call.caller = m)
    (asked : call.req.term = t) (term : (σ.node m).currentTerm = t)
    (counts : (σ.procs m).Counts t majority votes) :
    ∃ σ', Leads (exec S) (Unled S) σ σ' ∧ (∀ j, σ'.node j = σ.node j) ∧
      (σ'.procs m).Counts t majority (votes + 1) ∧
      ∀ m' ∈ σ.net, m' ≠ .voteReply call ⟨t, true⟩ → m' ∈ σ'.net := by
  let p := σ.procs m
  have target : S.target σ (.voteReply call ⟨t, true⟩) = some m := by
    change S.ids.find? (fun i => i = call.caller) = some m
    rw [caller]
    exact Setup.find_caller member
  have received : p.receive (.voteReply call ⟨t, true⟩) = .ok
      { proc := { p with tasks := p.tasks ++ [.counting t call.peerID] } } := by
    have current : ¬ t > p.node.currentTerm := Nat.not_lt.mpr (Nat.le_of_eq term.symm)
    simp only [Proc.receive, if_neg current, if_true, asked]
    rfl
  obtain ⟨net, first, kept⟩ := leads_deliver granted target received fun _ same => by cases same
  obtain ⟨p', resumed, node, counts'⟩ := 
    Proc.resume_counting counts S.membership call.peerID
  let σ₁ := σ.put m net { proc := { p with tasks := p.tasks ++ [.counting t call.peerID] } }
  have now : σ₁.procs m = { p with tasks := p.tasks ++ [.counting t call.peerID] } :=
    σ.put_procs_self m net _
  have second : Leads (exec S) (Unled S) σ₁ (σ₁.put m σ₁.net { proc := p' }) := by
    refine leads_act (a := .resume m p.tasks.length) rfl member ?_
    rw [now]
    exact resumed
  refine ⟨_, first.trans second, fun j => ?_, ?_, fun m' mem other => ?_⟩
  · by_cases same : j = m
    · subst same
      rw [Sys.node, Sys.put_procs_self]
      exact node
    · rw [Sys.node, Sys.put_procs_of_ne _ _ _ same]
      exact congrArg Proc.node (Sys.put_procs_of_ne _ _ _ same)
  · rw [Sys.put_procs_self]
    exact counts'
  · exact List.mem_append_left _ (List.mem_append_left _ (kept m' mem other))

/-- Candidate `m` of the newest term, with the best of all logs: the nodes of the list have
still to be asked, and the votes of the others are counted. -/
structure Standing (S : Setup) (m : String) (t : Nat) (todo : List String) (σ : Sys) : Prop where
  reached : Reached S σ
  member : m ∈ S.ids
  stands : (σ.node m).role = .candidate
  term : (σ.node m).currentTerm = t
  newest : ∀ j ∈ S.ids, (σ.node j).currentTerm ≤ t
  best : ∀ j ∈ S.ids, (σ.node j).logRank ≤ (σ.node m).logRank
  nodup : todo.Nodup
  others : ∀ j ∈ todo, j ∈ S.ids ∧ j ≠ m ∧ (σ.node j).currentTerm < t
  calls : ∀ j ∈ todo, ∃ call, .voteCall call ∈ σ.net ∧ call.caller = m ∧ call.peerID = j ∧
    call.addr = S.addrOf j ∧ call.req.term = t ∧
    toLex (call.req.lastLogTerm, call.req.lastLogIndex + 1) = (σ.node m).logRank
  counts : ∃ votes majority, votes + todo.length = S.ids.length ∧ majority ≤ S.ids.length ∧
    (σ.procs m).Counts t majority votes

/-- The next node on the list is asked, votes and is counted. -/
theorem Standing.round (fixed : Fixed S) {j : String} (h : Standing S m t (j :: todo) σ) :
    ∃ σ', Leads (exec S) (Unled S) σ σ' ∧ Standing S m t todo σ' := by
  obtain ⟨member, other, older⟩ := h.others j List.mem_cons_self
  obtain ⟨call, sent, caller, peer, addr, term, rank⟩ := h.calls j List.mem_cons_self
  obtain ⟨votes, majority, all, bound, counts⟩ := h.counts
  obtain ⟨fresh, nodup⟩ := List.nodup_cons.mp h.nodup
  have newer : (σ.node j).currentTerm < call.req.term := term.symm ▸ older
  obtain ⟨n, grants, sameTerm, sameLog⟩ := Node.handleRequestVote_grants
    (h.reached.placed fixed member).nonempty newer (rank.symm ▸ h.best j member)
  rw [term] at grants sameTerm
  have target : S.target σ (.voteCall call) = some j := by
    change S.resolve σ call.addr = some j
    rw [addr]
    exact fixed.consistent.resolve_eq (h.reached.addrs fixed) member
  have voted : (σ.procs j).receive (.voteCall call) = .ok
      { proc := { σ.procs j with node := n }, sent := [.voteReply call ⟨t, true⟩] } :=
    Go.bind_eq_ok.mpr ⟨_, grants, rfl⟩
  obtain ⟨net, first, kept⟩ := leads_deliver sent target voted fun _ same => by cases same
  let σ₁ := σ.put j net
    { proc := { σ.procs j with node := n }, sent := [.voteReply call ⟨t, true⟩] }
  have self : σ₁.procs m = σ.procs m := σ.put_procs_of_ne net _ other.symm
  have asked : (σ₁.node j) = n := congrArg Proc.node (σ.put_procs_self j net _)
  have rest (i : String) (apart : i ≠ j) : σ₁.node i = σ.node i :=
    congrArg Proc.node (σ.put_procs_of_ne net _ apart)
  have granted : .voteReply call ⟨t, true⟩ ∈ σ₁.net :=
    List.mem_append_right _ (List.mem_singleton_self _)
  obtain ⟨σ₂, second, nodes, counts', kept'⟩ := leads_count h.member granted caller term
    ((congrArg (Node.currentTerm ∘ Proc.node) self).trans h.term) (self ▸ counts)
  refine ⟨σ₂, first.trans second, ?_⟩
  have candidate : σ₂.node m = σ.node m := (nodes m).trans (rest m other.symm)
  refine ⟨h.reached.leads (first.trans second), h.member, ?_, ?_, fun i listed => ?_,
    fun i listed => ?_, nodup, fun i mem => ?_, fun i mem => ?_, ?_⟩
  · rw [candidate]
    exact h.stands
  · rw [candidate]
    exact h.term
  · rw [nodes]
    by_cases same : i = j
    · rw [same, asked, sameTerm]
    · rw [rest i same]
      exact h.newest i listed
  · rw [candidate, nodes]
    by_cases same : i = j
    · rw [same, asked, Node.logRank_congr sameLog]
      exact h.best j member
    · rw [rest i same]
      exact h.best i listed
  · obtain ⟨listed, apart, before⟩ := h.others i (List.mem_cons_of_mem j mem)
    refine ⟨listed, apart, ?_⟩
    rw [nodes, rest i fun same => fresh (same ▸ mem)]
    exact before
  · obtain ⟨call', sent', caller', peer', addr', term', rank'⟩ :=
      h.calls i (List.mem_cons_of_mem j mem)
    refine ⟨call', ?_, caller', peer', addr', term', candidate.symm ▸ rank'⟩
    refine kept' _ (List.mem_append_left _ (kept _ sent' fun same => ?_)) fun same => ?_
    · obtain rfl := Msg.voteCall.inj same
      exact fresh (peer.symm.trans peer' ▸ mem)
    · cases same
  · exact ⟨votes + 1, majority, by rw [← all, List.length_cons]; omega, bound, counts'⟩

/-- A candidate that somebody goes on to make leader becomes leader. -/
theorem leads_win (member : m ∈ S.ids) (stands : (σ.node m).role = .candidate)
    (term : (σ.node m).currentTerm = t) (nonempty : (σ.node m).log ≠ [])
    (task : .electing t ∈ (σ.procs m).tasks ∨ .winning t ∈ (σ.procs m).tasks) :
    ∃ σ', Leads (exec S) (Unled S) σ σ' ∧ (∀ j, j ≠ m → σ'.node j = σ.node j) ∧
      (σ'.node m).role = .leader ∧ (σ'.node m).currentTerm = t := by
  obtain ⟨n, calls, won, leads, same, _⟩ := Node.winElection_runs stands term nonempty
  have resumes (k : Nat) : Proc.win { σ.procs m with tasks := (σ.procs m).tasks.eraseIdx k } t =
      .ok { proc := { σ.procs m with node := n, tasks := (σ.procs m).tasks.eraseIdx k },
            sent := calls.map .appendCall } :=
    Go.bind_eq_ok.mpr ⟨_, won, rfl⟩
  obtain ⟨k, resumed⟩ : ∃ k, (σ.procs m).resume S.membership k =
      .ok { proc := { σ.procs m with node := n, tasks := (σ.procs m).tasks.eraseIdx k },
            sent := calls.map .appendCall } := by
    cases task with
    | inl electing =>
        obtain ⟨k, found⟩ := List.mem_iff_getElem?.mp electing
        refine ⟨k, ?_⟩
        simp only [Proc.resume, found]
        exact resumes k
    | inr winning =>
        obtain ⟨k, found⟩ := List.mem_iff_getElem?.mp winning
        refine ⟨k, ?_⟩
        simp only [Proc.resume, found]
        exact resumes k
  refine ⟨_, leads_act (a := .resume m k) rfl member resumed, fun j other => ?_, ?_⟩
  · exact congrArg Proc.node (Sys.put_procs_of_ne _ _ _ other)
  · rw [Sys.node, Sys.put_procs_self]
    exact ⟨leads, same⟩

theorem Setup.Consistent.two_le (hS : S.Consistent) {i j : String} (hi : i ∈ S.ids)
    (hj : j ∈ S.ids) (other : i ≠ j) : 2 ≤ S.ids.length := by
  have both : ({i, j} : Finset String) ⊆ S.ids.toFinset := by
    intro x mem
    rcases Finset.mem_insert.mp mem with rfl | mem
    · exact List.mem_toFinset.mpr hi
    · rw [Finset.mem_singleton.mp mem]
      exact List.mem_toFinset.mpr hj
  rw [← hS.card_ids, ← Finset.card_pair other]
  exact Finset.card_le_card both

/-- A leader of the newest term. -/
structure Newest (S : Setup) (l : String) (σ : Sys) : Prop where
  reached : Reached S σ
  member : l ∈ S.ids
  leads : (σ.node l).role = .leader
  newest : ∀ j ∈ S.ids, (σ.node j).currentTerm ≤ (σ.node l).currentTerm

theorem Newest.of_win (fixed : Fixed S) (reached : Reached S σ) (member : m ∈ S.ids)
    (stands : (σ.node m).role = .candidate) (term : (σ.node m).currentTerm = t)
    (newest : ∀ j ∈ S.ids, (σ.node j).currentTerm ≤ t)
    (task : .electing t ∈ (σ.procs m).tasks ∨ .winning t ∈ (σ.procs m).tasks) :
    ∃ σ', Leads (exec S) (Unled S) σ σ' ∧ Newest S m σ' := by
  have nonempty := (reached.placed fixed member).nonempty
  obtain ⟨σ', more, others, leads, same⟩ := leads_win member stands term nonempty task
  refine ⟨σ', more, reached.leads more, member, leads, fun j listed => ?_⟩
  rw [same]
  by_cases self : j = m
  · rw [self, same]
  · rw [others j self]
    exact newest j listed

/-- When all nodes have been asked the candidate wins. -/
theorem Standing.elects (fixed : Fixed S) (two : 2 ≤ S.ids.length)
    (h : Standing S m t todo σ) : ∃ σ', Leads (exec S) (Unled S) σ σ' ∧ Newest S m σ' := by
  induction todo generalizing σ with
  | nil =>
      obtain ⟨votes, majority, all, bound, once, _, won, few⟩ := h.counts
      rw [List.length_nil] at all
      cases once with
      | false =>
          have := few rfl
          omega
      | true =>
          exact Newest.of_win fixed h.reached h.member h.stands h.term h.newest (.inr (won rfl))
  | cons j todo ih =>
      obtain ⟨σ₁, first, h₁⟩ := h.round fixed
      obtain ⟨σ₂, second, h₂⟩ := ih h₁
      exact ⟨σ₂, first.trans second, h₂⟩

end Voting

section Standing

variable {S : Setup} {σ : Sys} {m : String}

/-- A node that may stand, with a log that all others vote for. -/
structure Contender (S : Setup) (m : String) (σ : Sys) : Prop where
  reached : Reached S σ
  member : m ∈ S.ids
  idle : (σ.node m).role ≠ .leader
  best : ∀ j ∈ S.ids, (σ.node j).logRank ≤ (σ.node m).logRank

/-- The election that a timeout begins: a node without peers elects itself, any other asks
its peers for their votes. -/
inductive Begun (S : Setup) (m : String) (t : Nat) (σ : Sys) : Prop
  | alone (single : ∀ j ∈ S.ids, j = m) (task : .electing t ∈ (σ.procs m).tasks)
  | asks (two : 2 ≤ S.ids.length)
      (counts : (σ.procs m).Counts t ((S.ids.length - 1) / 2 + 1) 1)
      (calls : ∀ j ∈ S.ids, j ≠ m → ∃ call, .voteCall call ∈ σ.net ∧ call.caller = m ∧
        call.peerID = j ∧ call.addr = S.addrOf j ∧ call.req.term = t ∧
        toLex (call.req.lastLogTerm, call.req.lastLogIndex + 1) = (σ.node m).logRank)

section Timeout

variable {p : Proc} {n : Node} {el : Node.Candidacy} (idle : p.node.role ≠ .leader)
  (started : p.node.startElectionLocked = .ok (n, el))

include idle started

theorem Proc.timeout_alone (alone : n.peerAddrsLocked = []) :
    p.timeout = .ok { proc := { p with node := n, tasks := p.tasks ++ [.electing el.term] } } := by
  rw [Proc.timeout, if_neg idle]
  exact Go.bind_eq_ok.mpr ⟨_, started, if_pos alone⟩

theorem Proc.timeout_asks (peers : n.peerAddrsLocked ≠ []) :
    p.timeout = .ok {
      proc := { p with
        node := n
        elections := p.elections.insert el.term ⟨el.majority, 1, false⟩ }
      sent := el.calls.map .voteCall } := by
  rw [Proc.timeout, if_neg idle]
  exact Go.bind_eq_ok.mpr ⟨_, started, if_neg peers⟩

end Timeout

theorem Contender.timeout (fixed : Fixed S) (h : Contender S m σ) :
    ∃ σ', Leads (exec S) (Unled S) σ σ' ∧ (∀ j, j ≠ m → σ'.node j = σ.node j) ∧
      (σ'.node m).role = .candidate ∧ (σ'.node m).log = (σ.node m).log ∧
      (σ'.node m).currentTerm = (σ.node m).currentTerm + 1 ∧
      Begun S m ((σ.node m).currentTerm + 1) σ' := by
  have placed := h.reached.placed fixed h.member
  obtain ⟨n, el, started⟩ := Node.startElectionLocked_runs placed.nonempty
  obtain ⟨stood, term, majority, e, last, calls⟩ := Node.startElectionLocked_ok started
  have same : n.peerAddrsLocked = (σ.node m).peerAddrsLocked := by
    rw [stood]
    rfl
  have acts {o : Out} (timeout : (σ.procs m).timeout = .ok o) (node : o.proc.node = n)
      (begun : Begun S m ((σ.node m).currentTerm + 1) (σ.put m σ.net o)) :
      ∃ σ', Leads (exec S) (Unled S) σ σ' ∧ (∀ j, j ≠ m → σ'.node j = σ.node j) ∧
        (σ'.node m).role = .candidate ∧ (σ'.node m).log = (σ.node m).log ∧
        (σ'.node m).currentTerm = (σ.node m).currentTerm + 1 ∧
        Begun S m ((σ.node m).currentTerm + 1) σ' := by
    refine ⟨_, leads_act (a := .timeout m) rfl h.member timeout, fun j other => ?_, ?_⟩
    · exact congrArg Proc.node (Sys.put_procs_of_ne _ _ _ other)
    · have now : (σ.put m σ.net o).node m = n :=
        (congrArg Proc.node (Sys.put_procs_self _ _ _ _)).trans node
      refine ⟨?_, ?_, ?_, begun⟩
      · rw [now, stood]
      · rw [now, stood]
      · rw [now, stood]
  by_cases alone : (σ.node m).peerAddrsLocked = []
  · refine acts (Proc.timeout_alone h.idle started (same.trans alone)) rfl
      (.alone (fun j listed => ?_) ?_)
    · by_contra other
      have peer := (placed.mem_peers fixed h.member (p := (j, S.addrOf j))).mpr
        ⟨listed, other, rfl⟩
      rw [alone] at peer
      cases peer
    · rw [Sys.put_procs_self, term]
      exact List.mem_append_right _ (List.mem_singleton_self _)
  · have timeout := Proc.timeout_asks h.idle started (same.symm ▸ alone)
    refine acts timeout rfl (.asks ?_ ?_ fun j listed other => ?_)
    · obtain ⟨p, peer⟩ := List.exists_mem_of_ne_nil _ alone
      obtain ⟨listed, other, _⟩ := (placed.mem_peers fixed h.member).mp peer
      exact fixed.consistent.two_le listed h.member other
    · rw [Sys.put_procs_self, term, majority, placed.peers,
        fixed.consistent.length_keys h.member]
      refine ⟨false, AList.lookup_insert _, fun won => ?_, fun _ => .inl rfl⟩
      cases won
    · have peer := (placed.mem_peers fixed h.member (p := (j, S.addrOf j))).mpr
        ⟨listed, other, rfl⟩
      have asked := List.mem_map_of_mem (f := Msg.voteCall) (calls ▸ List.mem_map_of_mem peer)
      refine ⟨_, List.mem_append_right _ asked, placed.id, rfl, rfl, rfl, ?_⟩
      have now : (σ.put m σ.net _).node m = n :=
        congrArg Proc.node (Sys.put_procs_self σ m σ.net
          { proc := { σ.procs m with
              node := n
              elections := (σ.procs m).elections.insert el.term ⟨el.majority, 1, false⟩ }
            sent := el.calls.map .voteCall })
      have pos := List.length_pos_of_ne_nil placed.nonempty
      rw [now, stood, Node.logRank, last, Nat.sub_add_cancel pos]
      rfl

/-- Standing again and again takes a node to any later term. -/
theorem Contender.rises (fixed : Fixed S) (more : Nat) (h : Contender S m σ) :
    ∃ σ', Leads (exec S) (Unled S) σ σ' ∧ (∀ j, j ≠ m → σ'.node j = σ.node j) ∧
      (σ'.node m).currentTerm = (σ.node m).currentTerm + more ∧ Contender S m σ' := by
  induction more with
  | zero => exact ⟨σ, .refl σ, fun _ _ => rfl, rfl, h⟩
  | succ more ih =>
      obtain ⟨σ₁, first, others, term, h₁⟩ := ih
      obtain ⟨σ₂, second, others', stands, log, term', _⟩ := h₁.timeout fixed
      have rank := Node.logRank_congr log
      refine ⟨σ₂, first.trans second, fun j other => ?_, ?_, h₁.reached.leads second, h.member,
        ?_, fun j listed => ?_⟩
      · rw [others' j other, others j other]
      · rw [term', term]
        rfl
      · rw [stands]
        exact Role.noConfusion
      · rw [rank]
        by_cases self : j = m
        · rw [self, rank]
        · rw [others' j self]
          exact h₁.best j listed

/-- A node with the best log can become the leader of the newest term. -/
theorem Contender.elects (fixed : Fixed S) (h : Contender S m σ) :
    ∃ σ', Leads (exec S) (Unled S) σ σ' ∧ Newest S m σ' := by
  obtain ⟨l, listed, newest⟩ := S.ids.toFinset.exists_max_image (fun j => (σ.node j).currentTerm)
    ⟨m, List.mem_toFinset.mpr h.member⟩
  have newest : ∀ j ∈ S.ids, (σ.node j).currentTerm ≤ (σ.node l).currentTerm :=
    fun j mem => newest j (List.mem_toFinset.mpr mem)
  obtain ⟨σ₁, first, others₁, term₁, h₁⟩ :=
    h.rises fixed ((σ.node l).currentTerm - (σ.node m).currentTerm)
  rw [Nat.add_sub_cancel' (newest m h.member)] at term₁
  obtain ⟨σ₂, second, others₂, stands, log, term₂, begun⟩ := h₁.timeout fixed
  rw [term₁] at term₂ begun
  have others (j : String) (other : j ≠ m) : σ₂.node j = σ.node j :=
    (others₂ j other).trans (others₁ j other)
  have before : ∀ j ∈ S.ids, j ≠ m → (σ₂.node j).currentTerm < (σ.node l).currentTerm + 1 := by
    intro j mem other
    rw [others j other]
    exact Nat.lt_succ_of_le (newest j mem)
  have latest : ∀ j ∈ S.ids, (σ₂.node j).currentTerm ≤ (σ.node l).currentTerm + 1 := by
    intro j mem
    by_cases self : j = m
    · rw [self, term₂]
    · exact (before j mem self).le
  have reached := h₁.reached.leads second
  obtain ⟨σ₃, third, won⟩ : ∃ σ₃, Leads (exec S) (Unled S) σ₂ σ₃ ∧ Newest S m σ₃ := by
    cases begun with
    | alone single task =>
        exact Newest.of_win fixed reached h.member stands term₂ latest (.inl task)
    | asks two counts calls =>
        have todo {j : String} (mem : j ∈ S.ids.erase m) : j ≠ m ∧ j ∈ S.ids :=
          fixed.consistent.ids_nodup.mem_erase_iff.mp mem
        have standing : Standing S m ((σ.node l).currentTerm + 1) (S.ids.erase m) σ₂ := by
          refine ⟨reached, h.member, stands, term₂, latest, fun j mem => ?_,
            fixed.consistent.ids_nodup.erase m, fun j mem => ?_, fun j mem => ?_, 1,
            (S.ids.length - 1) / 2 + 1, ?_, by omega, counts⟩
          · rw [Node.logRank_congr log]
            by_cases self : j = m
            · rw [self, Node.logRank_congr log]
            · rw [others₂ j self]
              exact h₁.best j mem
          · exact ⟨(todo mem).2, (todo mem).1, before j (todo mem).2 (todo mem).1⟩
          · exact calls j (todo mem).2 (todo mem).1
          · rw [List.length_erase_of_mem h.member]
            omega
        exact standing.elects fixed two
  exact ⟨σ₃, (first.trans second).trans third, won⟩

end Standing

section Heartbeat

variable {S : Setup} {σ : Sys} {l : String}

theorem Proc.heartbeat_eq {p : Proc} {n : Node} {calls : List (Call AppendEntriesRequest)}
    (leads : p.node.role = .leader) (sent : p.node.replicateLocked = .ok (n, calls)) :
    p.heartbeat = .ok { proc := { p with node := n }, sent := calls.map .appendCall } := by
  rw [Proc.heartbeat, if_neg (not_not.mpr leads)]
  exact Go.bind_eq_ok.mpr ⟨_, sent, rfl⟩

/-- The requests of a heartbeat: one to every other member, from its `nextIndex`. -/
structure Beats (S : Setup) (l : String) (n : Node) (next : GoMap String Nat)
    (calls : List (Call AppendEntriesRequest)) : Prop where
  kept : ∀ id x, n.nextIndex.lookup id = some x → 1 ≤ x → x ≤ n.log.length →
    next.lookup id = some x
  each : ∀ j ∈ S.ids, j ≠ l → next.lookup j = some (n.nextFor j) ∧ ∃ call ∈ calls,
    call.caller = l ∧ call.peerID = j ∧ call.addr = S.addrOf j ∧ n.Snapshot call.req ∧
    call.req.prevLogIndex = n.nextFor j - 1

/-- A leader can send its log to all others at any time. -/
theorem leads_heartbeat (fixed : Fixed S) (reached : Reached S σ) (member : l ∈ S.ids)
    (leads : (σ.node l).role = .leader) :
    ∃ next calls, Leads (exec S) (Unled S) σ (σ.put l σ.net
        { proc := { σ.procs l with node := { σ.node l with nextIndex := next } }
          sent := calls.map .appendCall }) ∧
      Beats S l (σ.node l) next calls := by
  have placed := reached.placed fixed member
  obtain ⟨next, calls, sent, kept, each⟩ := Node.replicateLocked_runs leads placed.nonempty
  obtain ⟨_, all⟩ := Node.replicateLocked_ok sent
  refine ⟨next, calls, leads_act (a := .heartbeat l) rfl member (Proc.heartbeat_eq leads sent),
    kept, fun j listed other => ?_⟩
  have peer := (placed.mem_peers fixed member (p := (j, S.addrOf j))).mpr ⟨listed, other, rfl⟩
  obtain ⟨here, call, mem, named, prev⟩ := each _ peer
  obtain ⟨_, caller, known, snapshot⟩ := all call mem
  obtain ⟨_, _, addr⟩ := (placed.mem_peers fixed member).mp known
  exact ⟨here, call, mem, caller.trans placed.id, named, addr.trans (congrArg S.addrOf named),
    snapshot, prev⟩

/-- A leader of an old term leaves it when it hears of a newer one. -/
theorem leads_stepDown (fixed : Fixed S) (reached : Reached S σ) (member : l ∈ S.ids)
    (leads : (σ.node l).role = .leader) {j : String} (listed : j ∈ S.ids)
    (newer : (σ.node l).currentTerm < (σ.node j).currentTerm) :
    ∃ σ', Leads (exec S) (Unled S) σ σ' ∧ (∀ i, i ≠ l → σ'.node i = σ.node i) ∧
      (σ'.node l).role = .follower ∧ (σ'.node l).log = (σ.node l).log := by
  have other : j ≠ l := fun same => Nat.lt_irrefl _ (same ▸ newer)
  obtain ⟨next, calls, first, beats⟩ := leads_heartbeat fixed reached member leads
  obtain ⟨_, call, mem, caller, _, addr, snapshot, _⟩ := beats.each j listed other
  let σ₁ := σ.put l σ.net { proc := { σ.procs l with node := { σ.node l with nextIndex := next } }
                            sent := calls.map .appendCall }
  have sent : .appendCall call ∈ σ₁.net := List.mem_append_right _ (List.mem_map_of_mem mem)
  have leader : σ₁.node l = { σ.node l with nextIndex := next } :=
    congrArg Proc.node (Sys.put_procs_self _ _ _ _)
  have others₁ (i : String) (apart : i ≠ l) : σ₁.procs i = σ.procs i :=
    Sys.put_procs_of_ne _ _ _ apart
  have reached₁ : Reached S σ₁ := reached.leads first
  have follower : σ₁.node j = σ.node j := congrArg Proc.node (others₁ j other)
  -- The request is refused, with the newer term in the answer.
  have old : call.req.term < (σ₁.node j).currentTerm := by
    rw [snapshot.term, follower]
    exact newer
  have refused : (σ₁.procs j).receive (.appendCall call) = .ok
      { proc := σ₁.procs j
        sent := [.appendReply call ⟨(σ₁.node j).currentTerm, false⟩] } :=
    Go.bind_eq_ok.mpr ⟨(σ₁.node j, .rejected), if_pos old, rfl⟩
  have target : S.target σ₁ (.appendCall call) = some j := by
    change S.resolve σ₁ call.addr = some j
    rw [addr]
    exact fixed.consistent.resolve_eq (reached₁.addrs fixed) listed
  obtain ⟨net, second, _⟩ := leads_deliver sent target refused fun _ same => by
    obtain rfl := Msg.appendCall.inj same
    exact old
  let reply := Msg.appendReply call ⟨(σ₁.node j).currentTerm, false⟩
  let σ₂ := σ₁.put j net { proc := σ₁.procs j, sent := [reply] }
  have same (i : String) : σ₂.procs i = σ₁.procs i := by
    by_cases self : i = j
    · rw [self]
      exact Sys.put_procs_self _ _ _ _
    · exact Sys.put_procs_of_ne _ _ _ self
  obtain ⟨term, log⟩ : (σ₂.node l).currentTerm = (σ.node l).currentTerm ∧
      (σ₂.node l).log = (σ.node l).log := by
    have kept : σ₂.node l = σ₁.node l := congrArg Proc.node (same l)
    rw [kept, leader]
    exact ⟨rfl, rfl⟩
  -- The answer makes the leader a follower.
  have heard : (σ₂.procs l).receive reply = .ok { proc := { σ₂.procs l with
      node := (σ₂.node l).becomeFollowerLocked (σ₁.node j).currentTerm "" } } := by
    have later : (σ₁.node j).currentTerm > (σ₂.node l).currentTerm := by
      rw [follower, term]
      exact newer
    exact Go.bind_eq_ok.mpr ⟨(_, .done []), if_pos later, rfl⟩
  have back : S.target σ₂ reply = some l := by
    change S.ids.find? (fun i => i = call.caller) = some l
    rw [caller]
    exact Setup.find_caller member
  obtain ⟨net', third, _⟩ := leads_deliver
    (List.mem_append_right _ (List.mem_singleton_self _)) back heard
    fun _ same => Msg.noConfusion same
  refine ⟨_, (first.trans second).trans third, fun i apart => ?_, ?_⟩
  · rw [Sys.node, Sys.put_procs_of_ne _ _ _ apart, same i]
    exact congrArg Proc.node (others₁ i apart)
  · rw [Sys.node, Sys.put_procs_self]
    exact ⟨rfl, log⟩

/-- From every state that can be reached a leader of the newest term can be. -/
theorem leads_newest (fixed : Fixed S) (reached : Reached S σ) :
    ∃ σ' l, Leads (exec S) (Unled S) σ σ' ∧ Newest S l σ' := by
  have someone : S.ids.toFinset.Nonempty := by
    obtain ⟨i, mem⟩ := List.exists_mem_of_ne_nil S.ids fun none => by
      have odd := fixed.odd
      rw [none] at odd
      exact absurd odd (by decide)
    exact ⟨i, List.mem_toFinset.mpr mem⟩
  obtain ⟨j, listed, newest⟩ :=
    S.ids.toFinset.exists_max_image (fun i => (σ.node i).currentTerm) someone
  obtain ⟨m, member, best⟩ := S.ids.toFinset.exists_max_image (fun i => (σ.node i).logRank) someone
  have listed := List.mem_toFinset.mp listed
  have member := List.mem_toFinset.mp member
  have newest (i : String) (mem : i ∈ S.ids) := newest i (List.mem_toFinset.mpr mem)
  have best (i : String) (mem : i ∈ S.ids) := best i (List.mem_toFinset.mpr mem)
  by_cases leads : (σ.node m).role = .leader
  · by_cases newer : (σ.node m).currentTerm < (σ.node j).currentTerm
    · obtain ⟨σ₁, first, others, follows, log⟩ :=
        leads_stepDown fixed reached member leads listed newer
      have contends : Contender S m σ₁ := by
        refine ⟨reached.leads first, member, ?_, fun i mem => ?_⟩
        · rw [follows]
          exact Role.noConfusion
        · rw [Node.logRank_congr log]
          by_cases self : i = m
          · rw [self, Node.logRank_congr log]
          · rw [others i self]
            exact best i mem
      obtain ⟨σ₂, second, won⟩ := contends.elects fixed
      exact ⟨σ₂, m, first.trans second, won⟩
    · exact ⟨σ, m, .refl σ, reached, member, leads, fun i mem =>
        (newest i mem).trans (Nat.not_lt.mp newer)⟩
  · have contends : Contender S m σ := ⟨reached, member, leads, best⟩
    obtain ⟨σ₁, first, won⟩ := contends.elects fixed
    exact ⟨σ₁, m, first, won⟩

end Heartbeat

end DistributedCache.Raft
