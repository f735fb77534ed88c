import DistributedCache.Raft.CommitBounds
import DistributedCache.Raft.Recovery

/-!
The loop of `applyCommittedLocked` from its call to its end. If nothing else happens, the
goroutine takes one committed entry after the other, gives each to the callback, wakes the
`Propose` call that waits for it, and goes on to what it has called the loop for.
-/
namespace DistributedCache.Raft

open Transition (Leads)
open Refinement (Fixed)

/-- The event has come since there were only the events of `base`. -/
def Since (base events : List Event) (e : Event) : Prop :=
  ∃ new, new ++ base = events ∧ e ∈ new

section Since

variable {base base' events events' : List Event} {e : Event}

theorem Since.later (h : Since base events e) (more : events <:+ events') :
    Since base events' e := by
  obtain ⟨new, rfl, mem⟩ := h
  obtain ⟨newer, rfl⟩ := more
  exact ⟨newer ++ new, List.append_assoc _ _ _, List.mem_append_right _ mem⟩

theorem Since.earlier (h : Since base events e) (more : base' <:+ base) :
    Since base' events e := by
  obtain ⟨new, rfl, mem⟩ := h
  obtain ⟨newer, rfl⟩ := more
  exact ⟨new ++ newer, List.append_assoc _ _ _, List.mem_append_left _ mem⟩

theorem Since.grown (h : Since base events e) : base <:+ events := by
  obtain ⟨new, grown, _⟩ := h
  exact ⟨new, grown⟩

end Since

/-- From `σ` to `σ'`, process `i` has run the loop that it called in the state `p`, and what
comes behind it. -/
structure Drained (i : String) (p : Proc) (c : Cont) (σ σ' : Sys) : Prop where
  others : ∀ j, j ≠ i → σ'.procs j = σ.procs j
  net : σ.net ⊆ σ'.net
  events : σ.events <:+ σ'.events
  node : ∃ next proposals, σ'.node i = { p.node with
      lastApplied := p.node.commitIndex, proposals := proposals, nextIndex := next } ∧
    (∀ x, p.node.commitIndex < x → proposals.lookup x = p.node.proposals.lookup x) ∧
    ∀ id x, p.node.nextIndex.lookup id = some x → 1 ≤ x → x ≤ p.node.log.length →
      next.lookup id = some x
  waiting : (σ'.procs i).waiting = p.waiting
  ready : p.ready ⊆ (σ'.procs i).ready
  begun : ∀ x e, p.node.lastApplied < x → x ≤ p.node.commitIndex → p.node.log[x]? = some e →
    Since σ.events σ'.events (.applyBegin p.node.id x e)
  notified : ∀ x prop, p.node.lastApplied < x → x ≤ p.node.commitIndex →
    p.node.proposals.lookup x = some prop → prop.notify ∈ (σ'.procs i).ready
  reply : ∀ call, c = .appendEntries call →
    .appendReply call ⟨p.node.currentTerm, true⟩ ∈ σ'.net

section Loop

variable {S : Setup} {σ : Sys} {i : String} {p : Proc} {c : Cont} {o : Out}

/-- Nothing is left to apply. -/
theorem Drained.of_resumeCont (done : p.node.lastApplied = p.node.commitIndex)
    (nonempty : p.node.log ≠ []) (resumed : p.resumeCont c = .ok o) (now : σ.procs i = o.proc)
    (sent : o.sent ⊆ σ.net) : Drained i p c σ σ := by
  have none {x : Nat} {P : Prop} (low : p.node.lastApplied < x) (high : x ≤ p.node.commitIndex) :
      P := by omega
  have same (kept : o.proc = p) : ∃ next proposals, σ.node i = { p.node with
      lastApplied := p.node.commitIndex, proposals := proposals, nextIndex := next } ∧
      (∀ x, p.node.commitIndex < x → proposals.lookup x = p.node.proposals.lookup x) ∧
      ∀ id x, p.node.nextIndex.lookup id = some x → 1 ≤ x → x ≤ p.node.log.length →
        next.lookup id = some x := by
    refine ⟨p.node.nextIndex, p.node.proposals, ?_, fun _ _ => rfl, fun _ _ found _ _ => found⟩
    rw [Sys.node, now, kept, ← done]
  rcases Proc.resumeCont_ok resumed with ⟨rfl, rfl⟩ | ⟨call, rfl, rfl⟩ | ⟨rfl, n, calls, rep, rfl⟩
  · refine ⟨fun _ _ => rfl, List.Subset.refl _, List.suffix_refl _, same rfl, by rw [now],
      by rw [now]; exact List.Subset.refl _, fun _ _ low high _ => none low high,
      fun _ _ low high _ => none low high, fun call other => by cases other⟩
  · refine ⟨fun _ _ => rfl, List.Subset.refl _, List.suffix_refl _, same rfl, by rw [now],
      by rw [now]; exact List.Subset.refl _, fun _ _ low high _ => none low high,
      fun _ _ low high _ => none low high, fun call' other => ?_⟩
    obtain rfl := Cont.appendEntries.inj other
    exact sent (List.mem_singleton_self _)
  · refine ⟨fun _ _ => rfl, List.Subset.refl _, List.suffix_refl _, ?_, by rw [now],
      by rw [now]; exact List.Subset.refl _, fun _ _ low high _ => none low high,
      fun _ _ low high _ => none low high, fun call other => by cases other⟩
    by_cases leads : p.node.role = .leader
    · obtain ⟨next, _, rep', kept, _⟩ := Node.replicateLocked_runs leads nonempty
      obtain ⟨rfl, _⟩ := Prod.mk.inj (Except.ok.inj (rep.symm.trans rep'))
      refine ⟨next, p.node.proposals, ?_, fun _ _ => rfl, kept⟩
      rw [Sys.node, now]
      simp only [done]
    · have idle : p.node.replicateLocked = .ok (p.node, []) := if_pos leads
      obtain ⟨rfl, _⟩ := Prod.mk.inj (Except.ok.inj (rep.symm.trans idle))
      exact same rfl

/-- The goroutine runs the callback on the entry it has taken. -/
theorem leads_callback (fixed : Fixed S) (member : i ∈ S.ids) {d : Node.Delivery}
    (tasks : List Task) (now : σ.procs i = { p with tasks := tasks ++ [.applying d .pending c] }) :
    ∃ σ', Leads (exec S) (Unled S) σ σ' ∧ (∀ j, j ≠ i → σ'.procs j = σ.procs j) ∧
      σ'.procs i = { p with tasks := tasks ++ [.applying d .returned c] } ∧ σ'.net = σ.net ∧
      Since σ.events σ'.events (.applyBegin p.node.id d.index d.entry) := by
  have task (phase : Phase) : (tasks ++ [Task.applying d phase c])[tasks.length]? =
      some (.applying d phase c) := List.getElem?_concat_length
  have set (phase phase' : Phase) : (tasks ++ [Task.applying d phase c]).set tasks.length
      (.applying d phase' c) = tasks ++ [.applying d phase' c] := by
    rw [List.set_append_right _ _ (Nat.le_refl _), Nat.sub_self]
    rfl
  have first : (σ.procs i).resume S.membership tasks.length = .ok
      { proc := { p with tasks := tasks ++ [.applying d .running c] }
        events := [.applyBegin p.node.id d.index d.entry] } := by
    rw [now]
    simp only [Proc.resume, task, Proc.stepApply, Proc.toPhase, set]
    rfl
  let σ₁ := σ.put i σ.net { proc := { p with tasks := tasks ++ [.applying d .running c] }
                            events := [.applyBegin p.node.id d.index d.entry] }
  have second : (σ₁.procs i).resume S.membership tasks.length = .ok
      { proc := { p with tasks := tasks ++ [.applying d .returned c] }
        events := [.applyEnd p.node.id d.index] } := by
    rw [show σ₁.procs i = _ from Sys.put_procs_self _ _ _ _, fixed.static]
    simp only [Proc.resume, task, Proc.stepApply, Proc.toPhase, set]
    rfl
  have go := (leads_act (a := .resume i tasks.length) rfl member first).trans
    (leads_act (a := .resume i tasks.length) rfl member second)
  refine ⟨_, go, fun j other => ?_, Sys.put_procs_self _ _ _ _, ?_, ?_⟩
  · rw [Sys.put_procs_of_ne _ _ _ other, Sys.put_procs_of_ne _ _ _ other]
  · exact (List.append_nil _).trans (List.append_nil _)
  · exact ⟨[.applyEnd p.node.id d.index, .applyBegin p.node.id d.index d.entry], rfl,
      List.mem_cons_of_mem _ (List.mem_singleton_self _)⟩

/-- After a callback only the proposal at `lastApplied` is forgotten, and its caller woken. -/
theorem Node.finishApply_spec (n : Node) (d : Node.Delivery) :
    ∃ proposals, (n.finishApply d).1 = { n with proposals := proposals } ∧
      (∀ x, n.lastApplied < x → proposals.lookup x = n.proposals.lookup x) ∧
      ∀ prop, d.prop = some prop → prop.notify ∈ (n.finishApply d).2.toList := by
  unfold Node.finishApply
  split
  · rename_i none
    refine ⟨n.proposals, rfl, fun _ _ => rfl, fun prop found => ?_⟩
    cases none.symm.trans found
  · rename_i prop' found'
    refine ⟨n.proposals.erase n.lastApplied, rfl, fun x later => ?_, fun prop found => ?_⟩
    · exact AList.lookup_erase_ne (Nat.ne_of_gt later)
    · obtain rfl := Option.some.inj (found'.symm.trans found)
      exact List.mem_singleton_self _

/-- The loop comes to its end. -/
theorem leads_drained (fixed : Fixed S) (member : i ∈ S.ids) (bounds : p.node.CommitBounds)
    (called : p.applyCommitted c = .ok o) (now : σ.procs i = o.proc) (sent : o.sent ⊆ σ.net) :
    ∃ σ', Leads (exec S) (Unled S) σ σ' ∧ Drained i p c σ σ' := by
  have nonempty : p.node.log ≠ [] := List.ne_nil_of_length_pos (by have := bounds.stored; omega)
  induction gap : p.node.commitIndex - p.node.lastApplied generalizing p o σ with
  | zero =>
      have done : p.node.lastApplied = p.node.commitIndex := by
        have := bounds.applied
        omega
      rcases Proc.applyCommitted_ok called with ⟨n, d, popped, _⟩ | ⟨_, resumed⟩
      · have older := (Node.popCommitted_ok popped).1
        omega
      · exact ⟨σ, .refl σ, .of_resumeCont done nonempty resumed now sent⟩
  | succ left ih =>
      have stored := bounds.stored
      have older : p.node.lastApplied < p.node.commitIndex := by omega
      rcases Proc.applyCommitted_ok called with ⟨n, d, popped, rfl⟩ | ⟨none, _⟩
      · obtain ⟨_, rfl, index, entry, prop⟩ := Node.popCommitted_ok popped
        let n := { p.node with lastApplied := p.node.lastApplied + 1 }
        obtain ⟨σ₁, first, others₁, now₁, net₁, begun₁⟩ :=
          leads_callback (p := { p with node := n }) fixed member p.tasks now
        obtain ⟨proposals, finished, kept, woken⟩ := n.finishApply_spec d
        -- The mutex is taken back, and the loop is entered again.
        let q : Proc := { p with
          node := (n.finishApply d).1
          ready := p.ready ++ (n.finishApply d).2.toList }
        have node : q.node = { n with proposals := proposals } := finished
        have bounds' : q.node.CommitBounds := by
          rw [node]
          exact ⟨older, stored⟩
        have nonempty' : q.node.log ≠ [] := by
          rw [node]
          exact nonempty
        obtain ⟨o, again⟩ :=
          Proc.applyCommitted_runs (p := q) ⟨nonempty', fun _ => bounds'.stored⟩ c
        have resumed : (σ₁.procs i).resume S.membership p.tasks.length = .ok o := by
          have task : (p.tasks ++ [Task.applying d .returned c])[p.tasks.length]? =
              some (.applying d .returned c) := List.getElem?_concat_length
          have erased : (p.tasks ++ [Task.applying d .returned c]).eraseIdx p.tasks.length =
              p.tasks := by
            rw [List.eraseIdx_append_of_length_le (Nat.le_refl _), Nat.sub_self]
            exact List.append_nil _
          rw [now₁]
          simp only [Proc.resume, task, Proc.stepApply, erased]
          exact again
        have second := leads_act (a := .resume i p.tasks.length) rfl member resumed
        have fewer : q.node.commitIndex - q.node.lastApplied = left := by
          rw [node]
          change p.node.commitIndex - (p.node.lastApplied + 1) = left
          omega
        obtain ⟨σ', third, drained⟩ := ih bounds' again (Sys.put_procs_self σ₁ i σ₁.net o)
          (List.subset_append_right _ _) nonempty' fewer
        refine ⟨σ', (first.trans second).trans third, ?_⟩
        have between : σ.events <:+ (σ₁.put i σ₁.net o).events :=
          begun₁.grown.trans (List.suffix_append _ _)
        refine ⟨fun j other => ?_, ?_, between.trans drained.events, ?_, drained.waiting, ?_,
          fun x e low high found => ?_, fun x prop' low high found => ?_, fun call same => ?_⟩
        · rw [drained.others j other, Sys.put_procs_of_ne _ _ _ other, others₁ j other]
        · rw [← net₁]
          exact List.Subset.trans (List.subset_append_left _ _) drained.net
        · obtain ⟨next, proposals', last, later, nexts⟩ := drained.node
          rw [node] at last later nexts
          refine ⟨next, proposals', last, fun x high => ?_, nexts⟩
          exact (later x high).trans (kept x (Nat.lt_of_le_of_lt older high))
        · exact List.Subset.trans (List.subset_append_left _ _) drained.ready
        · by_cases here : x = p.node.lastApplied + 1
          · subst here
            obtain rfl := Option.some.inj (entry.symm.trans found)
            rw [← index]
            exact (begun₁.later (List.suffix_append _ _)).later drained.events
          · have begun := drained.begun x e
            rw [node] at begun
            exact (begun (show p.node.lastApplied + 1 < x by omega) high found).earlier between
        · by_cases here : x = p.node.lastApplied + 1
          · subst here
            exact drained.ready (List.mem_append_right _ (woken prop' (prop.trans found)))
          · have later : p.node.lastApplied + 1 < x := by omega
            have notified := drained.notified x prop'
            rw [node] at notified
            exact notified later high ((kept x later).trans found)
        · have reply := drained.reply call same
          rw [node] at reply
          exact reply
      · rw [Node.popCommitted, if_pos older] at none
        obtain ⟨_, _, popped⟩ := Go.bind_eq_ok.mp none
        cases popped

end Loop

end DistributedCache.Raft
