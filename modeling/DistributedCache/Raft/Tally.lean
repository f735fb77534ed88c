import Mathlib.Data.Finset.Card
import Mathlib.Data.List.Perm.Basic
import DistributedCache.Raft.Handles

/-!
The vote count of an election. Every vote goroutine asks one peer once, so the
peers that still have an answer under way and the peers already counted are all
different, and the count is the number of nodes that have voted.
-/
namespace DistributedCache.Raft

/-- The vote goroutine a message belongs to: its node, its term and its peer. -/
def Msg.ballot? : Msg → Option (String × Nat × String)
  | .voteCall call | .voteReply call _ => some (call.caller, call.req.term, call.peerID)
  | .appendCall _ | .appendReply _ _ => none

/-- The term and the peer of a vote goroutine about to count a vote. -/
def Task.ballot? : Task → Option (Nat × String)
  | .counting term peerID => some (term, peerID)
  | _ => none

def ballotMsgs (net : List Msg) (i : String) (t : Nat) (q : String) : Nat :=
  net.countP fun m => m.ballot? = some (i, t, q)

def ballotTasks (tasks : List Task) (t : Nat) (q : String) : Nat :=
  tasks.countP fun k => k.ballot? = some (t, q)

section Counts

variable {i q : String} {t : Nat}

theorem ballotMsgs_append (net net' : List Msg) :
    ballotMsgs (net ++ net') i t q = ballotMsgs net i t q + ballotMsgs net' i t q :=
  List.countP_append

theorem ballotMsgs_sublist {net net' : List Msg} (h : net'.Sublist net) :
    ballotMsgs net' i t q ≤ ballotMsgs net i t q :=
  h.countP_le

theorem ballotTasks_append (tasks tasks' : List Task) :
    ballotTasks (tasks ++ tasks') t q = ballotTasks tasks t q + ballotTasks tasks' t q :=
  List.countP_append

theorem ballotMsgs_eraseIdx {net : List Msg} {k : Nat} {m : Msg} (h : net[k]? = some m) :
    ballotMsgs net i t q = ballotMsgs (net.eraseIdx k) i t q + ballotMsgs [m] i t q := by
  obtain ⟨hk, rfl⟩ := List.getElem?_eq_some_iff.mp h
  have := (List.getElem_cons_eraseIdx_perm hk).countP_eq
    (fun m : Msg => m.ballot? = some (i, t, q))
  rw [← List.singleton_append, List.countP_append] at this
  unfold ballotMsgs
  omega

theorem ballotTasks_eraseIdx {tasks : List Task} {k : Nat} {task : Task}
    (h : tasks[k]? = some task) :
    ballotTasks tasks t q = ballotTasks (tasks.eraseIdx k) t q + ballotTasks [task] t q := by
  obtain ⟨hk, rfl⟩ := List.getElem?_eq_some_iff.mp h
  have := (List.getElem_cons_eraseIdx_perm hk).countP_eq
    (fun k : Task => k.ballot? = some (t, q))
  rw [← List.singleton_append, List.countP_append] at this
  unfold ballotTasks
  omega

theorem ballotTasks_set {tasks : List Task} {k : Nat} {task task' : Task}
    (h : tasks[k]? = some task) (same : task.ballot? = task'.ballot?) :
    ballotTasks (tasks.set k task') t q = ballotTasks tasks t q := by
  obtain ⟨hk, heq⟩ := List.getElem?_eq_some_iff.mp h
  have new := (List.set_perm_cons_eraseIdx hk task').countP_eq
    (fun k : Task => k.ballot? = some (t, q))
  have old := (List.getElem_cons_eraseIdx_perm hk).countP_eq
    (fun k : Task => k.ballot? = some (t, q))
  rw [List.countP_cons] at new old
  rw [heq, same] at old
  exact new.trans old

theorem ballotMsgs_appendCalls (calls : List (Call AppendEntriesRequest)) :
    ballotMsgs (calls.map .appendCall) i t q = 0 := by
  rw [ballotMsgs, List.countP_eq_zero]
  intro m hm
  obtain ⟨call, _, rfl⟩ := List.mem_map.mp hm
  simp [Msg.ballot?]

end Counts

/-- No more votes are under way after the handler ran than before it. -/
structure Conserves (i : String) (p : Proc) (m : Input) (o : Out) : Prop where
  elections : o.proc.elections = p.elections
  others : ∀ j t q, j ≠ i → ballotMsgs o.sent j t q ≤ ballotMsgs m.received j t q
  own : ∀ t q, ballotMsgs o.sent i t q + ballotTasks o.proc.tasks t q ≤
    ballotMsgs m.received i t q + ballotTasks p.tasks t q

namespace Conserves

variable {i : String} {p : Proc} {m : Input} {o : Out}

theorem of_silent (elections : o.proc.elections = p.elections)
    (sent : ∀ j t q, ballotMsgs o.sent j t q = 0)
    (tasks : ∀ t q, ballotTasks o.proc.tasks t q ≤ ballotTasks p.tasks t q) :
    Conserves i p m o :=
  ⟨elections, fun j t q _ => by rw [sent]; exact Nat.zero_le _,
    fun t q => by rw [sent]; have := tasks t q; omega⟩

theorem of_replicates {p' : Proc} {calls : List (Call AppendEntriesRequest)}
    (elections : p'.elections = p.elections)
    (tasks : ∀ t q, ballotTasks p'.tasks t q ≤ ballotTasks p.tasks t q) :
    Conserves i p m { proc := p', sent := calls.map .appendCall } :=
  of_silent elections (fun _ _ _ => ballotMsgs_appendCalls calls) tasks

theorem of_applyCommitted {p' : Proc} {c : Cont} (h : p'.applyCommitted c = .ok o)
    (elections : p'.elections = p.elections)
    (tasks : ∀ t q, ballotTasks p'.tasks t q ≤ ballotTasks p.tasks t q) :
    Conserves i p m o := by
  rcases Proc.applyCommitted_ok h with ⟨n, d, _, rfl⟩ | ⟨_, hres⟩
  · refine of_silent elections (fun _ _ _ => rfl) fun t q => ?_
    rw [ballotTasks_append]
    exact tasks t q
  · rcases Proc.resumeCont_ok hres with ⟨_, rfl⟩ | ⟨call, _, rfl⟩ | ⟨_, n, calls, _, rfl⟩
    · exact of_silent elections (fun _ _ _ => rfl) tasks
    · exact of_silent elections (fun _ _ _ => rfl) tasks
    · exact of_replicates elections tasks

theorem of_phase {k : Nat} {d : Node.Delivery} {phase phase' : Phase} {c : Cont}
    (task : p.tasks[k]? = some (.applying d phase c))
    (tasks : o.proc.tasks = p.tasks.set k (.applying d phase' c))
    (elections : o.proc.elections = p.elections)
    (silent : ∀ j t q, ballotMsgs o.sent j t q = 0) : Conserves i p m o := by
  refine of_silent elections silent fun t q => ?_
  have same : ballotTasks (p.tasks.set k (.applying d phase' c)) t q = _ :=
    ballotTasks_set task rfl
  rw [tasks, same]

end Conserves

theorem Proc.afterCallback_tasks (membership : Bool) (p : Proc) (cmd : Command) :
    (p.afterCallback membership cmd).1.tasks = p.tasks ∧
      (p.afterCallback membership cmd).1.elections = p.elections := by
  obtain ⟨ring, same, -⟩ := p.afterCallback_ring membership cmd
  rw [same]
  exact ⟨rfl, rfl⟩

/-- What a handler does to the votes under way: it starts an election, counts a vote
or conserves them. -/
theorem Handles.ballots {membership : Bool} {i : String} {p : Proc} {m : Input} {o : Out}
    (h : Handles membership p m o)
    (mine : ∀ call resp, m = .message (.voteReply call resp) → call.caller = i) :
    (∃ el, p.node.startElectionLocked = .ok (o.proc.node, el) ∧ o.proc.tasks = p.tasks ∧
      o.proc.elections = p.elections.insert el.term ⟨el.majority, 1, false⟩ ∧
      o.sent = el.calls.map .voteCall) ∨
    (∃ k t q e once, p.tasks[k]? = some (.counting t q) ∧ p.elections.lookup t = some e ∧
      (∀ u r, ballotTasks o.proc.tasks u r = ballotTasks (p.tasks.eraseIdx k) u r) ∧
      o.proc.elections = p.elections.insert t ⟨e.majority, e.votes + 1, once⟩ ∧
      o.sent = []) ∨
    Conserves i p m o := by
  have erased {k : Nat} {task : Task} (task : p.tasks[k]? = some task) (t : Nat) (q : String) :
      ballotTasks (p.tasks.eraseIdx k) t q ≤ ballotTasks p.tasks t q := by
    rw [ballotTasks_eraseIdx task]
    exact Nat.le_add_right _ _
  cases h with
  | standAlone n el idle h alone =>
      refine .inr (.inr (.of_silent rfl (fun _ _ _ => rfl) fun t q => ?_))
      rw [ballotTasks_append]
      exact Nat.le_refl _
  | stand n el idle h peers => exact .inl ⟨el, h, rfl, rfl, rfl⟩
  | heartbeat n calls leads h =>
      exact .inr (.inr (.of_replicates rfl fun _ _ => Nat.le_refl _))
  | refuse => exact .inr (.inr (.of_silent rfl (fun _ _ _ => rfl) fun _ _ => Nat.le_refl _))
  | proposeAlone cmd o leads alone h =>
      exact .inr (.inr (.of_applyCommitted h rfl fun _ _ => Nat.le_refl _))
  | propose cmd n calls leads peers h =>
      exact .inr (.inr (.of_replicates rfl fun _ _ => Nat.le_refl _))
  | vote call n resp h =>
      exact .inr (.inr ⟨rfl, fun _ _ _ _ => Nat.le_refl _, fun _ _ => Nat.le_refl _⟩)
  | outvoted call resp newer =>
      exact .inr (.inr (.of_silent rfl (fun _ _ _ => rfl) fun _ _ => Nat.le_refl _))
  | granted call resp granted =>
      refine .inr (.inr ⟨rfl, fun _ _ _ _ => Nat.zero_le _, fun t q => ?_⟩)
      have caller := mine call resp rfl
      rw [ballotTasks_append]
      simp only [ballotMsgs, ballotTasks, Input.received, List.countP_cons, List.countP_nil,
        Msg.ballot?, Task.ballot?, caller, Option.some.injEq, Prod.mk.injEq, true_and]
      omega
  | denied call resp =>
      exact .inr (.inr (.of_silent rfl (fun _ _ _ => rfl) fun _ _ => Nat.le_refl _))
  | rejected call n h =>
      exact .inr (.inr (.of_silent rfl (fun _ _ _ => rfl) fun _ _ => Nat.le_refl _))
  | stored call n h =>
      exact .inr (.inr (.of_silent rfl (fun _ _ _ => rfl) fun _ _ => Nat.le_refl _))
  | committed call n o h apply =>
      exact .inr (.inr (.of_applyCommitted apply rfl fun _ _ => Nat.le_refl _))
  | answered call resp n calls h =>
      exact .inr (.inr (.of_replicates rfl fun _ _ => Nat.le_refl _))
  | acknowledged call resp n o h apply =>
      exact .inr (.inr (.of_applyCommitted apply rfl fun _ _ => Nat.le_refl _))
  | win k term n calls task h =>
      refine .inr (.inr (.of_replicates rfl ?_))
      rcases task with task | task
      · exact erased task
      · exact erased task
  | count k term peerID e task election few =>
      exact .inr (.inl ⟨k, term, peerID, e, _, task, election, fun _ _ => rfl, rfl, rfl⟩)
  | countLast k term peerID e task election enough =>
      refine .inr (.inl ⟨k, term, peerID, e, _, task, election, fun u r => ?_, rfl, rfl⟩)
      change ballotTasks (p.tasks.eraseIdx k ++ [.winning term]) u r = _
      rw [ballotTasks_append]
      rfl
  | begin k d c task => exact .inr (.inr (.of_phase task rfl rfl fun _ _ _ => rfl))
  | run k d c task =>
      obtain ⟨tasks, elections⟩ := p.afterCallback_tasks membership d.entry.command
      have set : ((p.afterCallback membership d.entry.command).1.toPhase k d
          (p.afterCallback membership d.entry.command).2 c).proc.tasks =
          p.tasks.set k (.applying d (p.afterCallback membership d.entry.command).2 c) :=
        congrArg (List.set · k _) tasks
      exact .inr (.inr (.of_phase task set elections fun _ _ _ => rfl))
  | addPeer k d c task => exact .inr (.inr (.of_phase task rfl rfl fun _ _ _ => rfl))
  | replicate k d c n calls task h =>
      exact .inr (.inr (.of_phase task rfl rfl fun _ _ _ => ballotMsgs_appendCalls calls))
  | removePeer k d c task => exact .inr (.inr (.of_phase task rfl rfl fun _ _ _ => rfl))
  | finish k d c o task h => exact .inr (.inr (.of_applyCommitted h rfl (erased task)))
  | wake k w waits ready =>
      exact .inr (.inr (.of_silent rfl (fun _ _ _ => rfl) fun _ _ => Nat.le_refl _))
  | cancel k w waits =>
      exact .inr (.inr (.of_silent rfl (fun _ _ _ => rfl) fun _ _ => Nat.le_refl _))

theorem Node.peerAddrsLocked_nodup (n : Node) : (n.peerAddrsLocked.map Prod.fst).Nodup := by
  have fst : (n.peers.entries.map fun p => (p.1, p.2)).map Prod.fst = n.peers.keys := by
    rw [List.map_map]
    rfl
  refine List.Nodup.sublist (List.Sublist.map _ List.filter_sublist) ?_
  rw [fst]
  exact n.peers.keys_nodup

/-- An election asks every peer once, in the new term only. -/
theorem Node.ballotMsgs_election {n n' : Node} {el : Candidacy}
    (h : n.startElectionLocked = .ok (n', el)) (i : String) (t : Nat) (q : String) :
    ballotMsgs (el.calls.map .voteCall) i t q ≤ 1 ∧
      (¬ (i = n.id ∧ t = el.term) → ballotMsgs (el.calls.map .voteCall) i t q = 0) := by
  obtain ⟨_, hterm, _, e, _, hcalls⟩ := startElectionLocked_ok h
  rw [hcalls, List.map_map, ballotMsgs, List.countP_map]
  constructor
  · calc _ ≤ n.peerAddrsLocked.countP (fun p => decide (p.1 = q)) := by
          refine List.countP_mono_left fun p _ hp => ?_
          simp only [Function.comp_apply, Msg.ballot?, Option.some.injEq, Prod.mk.injEq,
            decide_eq_true_eq] at hp ⊢
          exact hp.2.2
      _ = (n.peerAddrsLocked.map Prod.fst).count q := by
          rw [List.count, List.countP_map]
          exact List.countP_congr fun p _ => by simp
      _ ≤ 1 := List.nodup_iff_count_le_one.mp n.peerAddrsLocked_nodup q
  · intro other
    rw [List.countP_eq_zero]
    intro p _ hp
    simp only [Function.comp_apply, Msg.ballot?, Option.some.injEq, Prod.mk.injEq,
      decide_eq_true_eq] at hp
    exact other ⟨hp.1.symm, hp.2.1.symm.trans hterm.symm⟩

/-- The elections of node `i`: its own vote and the votes counted are votes it was
given, and nobody whose vote is counted is still being asked. -/
def Tallied (majority : Nat) (voted : String → Nat → Prop) (i : String) (net : List Msg)
    (p : Proc) : Prop :=
  ∀ t e, p.elections.lookup t = some e → e.majority = majority ∧ voted i t ∧
    ∃ counted : Finset String, i ∉ counted ∧ (∀ q ∈ counted, voted q t) ∧
      e.votes = counted.card + 1 ∧
      ∀ q, ballotMsgs net i t q + ballotTasks p.tasks t q + (if q ∈ counted then 1 else 0) ≤ 1

namespace Tallied

variable {majority : Nat} {voted voted' : String → Nat → Prop} {i : String}
  {net net' : List Msg} {p p' : Proc}

theorem mono (h : Tallied majority voted i net p) (more : ∀ q t, voted q t → voted' q t)
    (elections : p'.elections = p.elections)
    (fewer : ∀ t q, ballotMsgs net' i t q + ballotTasks p'.tasks t q ≤
      ballotMsgs net i t q + ballotTasks p.tasks t q) :
    Tallied majority voted' i net' p' := by
  intro t e he
  rw [elections] at he
  obtain ⟨hmaj, own, counted, hi, hcounted, hvotes, hfew⟩ := h t e he
  refine ⟨hmaj, more i t own, counted, hi, fun q hq => more q t (hcounted q hq), hvotes,
    fun q => ?_⟩
  have := hfew q
  have := fewer t q
  omega

/-- The peer whose vote is about to be counted has not been counted before. -/
theorem fresh (h : Tallied majority voted i net p) {k t : Nat} {q : String} {e : Election}
    (task : p.tasks[k]? = some (.counting t q)) (he : p.elections.lookup t = some e) :
    ∃ counted : Finset String, i ∉ counted ∧ q ∉ counted ∧ (∀ r ∈ counted, voted r t) ∧
      e.votes = counted.card + 1 ∧
      ∀ r, ballotMsgs net i t r + ballotTasks (p.tasks.eraseIdx k) t r +
        (if r ∈ insert q counted then 1 else 0) ≤ 1 := by
  obtain ⟨_, _, counted, hi, hcounted, hvotes, hfew⟩ := h t e he
  have here : ballotTasks p.tasks t q = ballotTasks (p.tasks.eraseIdx k) t q + 1 := by
    rw [ballotTasks_eraseIdx task]
    simp [ballotTasks, Task.ballot?]
  have fresh : q ∉ counted := by
    intro hq
    have := hfew q
    rw [if_pos hq] at this
    omega
  refine ⟨counted, hi, fresh, hcounted, hvotes, fun r => ?_⟩
  have hr := hfew r
  by_cases hrq : r = q
  · subst hrq
    rw [if_neg fresh] at hr
    rw [if_pos (Finset.mem_insert_self _ _)]
    omega
  · have hmem : r ∈ insert q counted ↔ r ∈ counted := by simp [hrq]
    have hle : ballotTasks (p.tasks.eraseIdx k) t r ≤ ballotTasks p.tasks t r := by
      rw [ballotTasks_eraseIdx task]
      exact Nat.le_add_right _ _
    simp only [hmem]
    omega

theorem count (h : Tallied majority voted i net p) {k t : Nat} {q : String} {e : Election}
    {once : Bool} (task : p.tasks[k]? = some (.counting t q))
    (he : p.elections.lookup t = some e) (vote : voted q t) (other : q ≠ i)
    (tasks : ∀ u r, ballotTasks p'.tasks u r = ballotTasks (p.tasks.eraseIdx k) u r)
    (elections : p'.elections = p.elections.insert t ⟨e.majority, e.votes + 1, once⟩) :
    Tallied majority voted i net p' := by
  intro u f hf
  rw [elections] at hf
  by_cases hu : u = t
  · subst hu
    rw [AList.lookup_insert, Option.some_inj] at hf
    subst hf
    obtain ⟨hmaj, own, _⟩ := h u e he
    obtain ⟨counted, hi, hq, hcounted, hvotes, hfew⟩ := h.fresh task he
    refine ⟨hmaj, own, insert q counted, ?_, ?_, ?_, fun r => ?_⟩
    · simp [hi, Ne.symm other]
    · intro r hr
      rcases Finset.mem_insert.mp hr with rfl | hr
      · exact vote
      · exact hcounted r hr
    · rw [Finset.card_insert_of_notMem hq]
      change e.votes + 1 = _
      omega
    · rw [tasks]
      exact hfew r
  · rw [AList.lookup_insert_ne hu] at hf
    obtain ⟨hmaj, own, counted, hi, hcounted, hvotes, hfew⟩ := h u f hf
    refine ⟨hmaj, own, counted, hi, hcounted, hvotes, fun r => ?_⟩
    have hr := hfew r
    rw [ballotTasks_eraseIdx task] at hr
    rw [tasks]
    omega

/-- With the last vote needed, at least `majority` nodes have voted for the candidate. -/
theorem won (h : Tallied majority voted i net p) {k t : Nat} {q : String} {e : Election}
    (task : p.tasks[k]? = some (.counting t q)) (he : p.elections.lookup t = some e)
    (vote : voted q t) (other : q ≠ i) (enough : e.majority ≤ e.votes + 1) :
    ∃ Q : Finset String, majority ≤ Q.card ∧ ∀ r ∈ Q, voted r t := by
  obtain ⟨hmaj, own, _⟩ := h t e he
  obtain ⟨counted, hi, hq, hcounted, hvotes, _⟩ := h.fresh task he
  refine ⟨insert i (insert q counted), ?_, ?_⟩
  · rw [Finset.card_insert_of_notMem (by simp [hi, Ne.symm other]),
      Finset.card_insert_of_notMem hq]
    omega
  · intro r hr
    rcases Finset.mem_insert.mp hr with rfl | hr
    · exact own
    · rcases Finset.mem_insert.mp hr with rfl | hr
      · exact vote
      · exact hcounted r hr

theorem stand (h : Tallied majority voted i net p) {n : Node} {el : Node.Candidacy}
    (start : p.node.startElectionLocked = .ok (n, el))
    (hmaj : el.majority = majority) (own : voted i el.term)
    (unasked : ∀ q, ballotMsgs net i el.term q = 0 ∧ ballotTasks p.tasks el.term q = 0)
    (tasks : p'.tasks = p.tasks)
    (elections : p'.elections = p.elections.insert el.term ⟨el.majority, 1, false⟩) :
    Tallied majority voted i (net ++ el.calls.map .voteCall) p' := by
  intro t e he
  rw [elections] at he
  by_cases ht : t = el.term
  · subst ht
    rw [AList.lookup_insert, Option.some_inj] at he
    subst he
    refine ⟨hmaj, own, ∅, by simp, by simp, rfl, fun q => ?_⟩
    have asked := (Node.ballotMsgs_election start i el.term q).1
    have before := unasked q
    rw [ballotMsgs_append, tasks, before.1, before.2]
    simpa using asked
  · rw [AList.lookup_insert_ne ht] at he
    obtain ⟨hmaj, own, counted, hi, hcounted, hvotes, hfew⟩ := h t e he
    refine ⟨hmaj, own, counted, hi, hcounted, hvotes, fun q => ?_⟩
    have none := (Node.ballotMsgs_election start i t q).2 fun same => ht same.2
    have := hfew q
    rw [ballotMsgs_append, none, tasks]
    omega

end Tallied

end DistributedCache.Raft
