import DistributedCache.Raft.LogOrder
import DistributedCache.Raft.StateMachine

/-!
What a leader is to its term: its log only grows while it leads, it has everything
that was committed in its term or before, and it is the one node that hints of its
term point at.

Growth and the origin of hints hold in every deployment, whatever peers are added or
removed; that no two hints of a term differ rests on elections in a fixed deployment.
-/
namespace DistributedCache.Raft

open Relation (ReflTransGen)
open Transition (Meets visited)

section OpenSteps

variable {S : Setup} {σ σ' : Open} {a : OpenAction}

/-- Every node of an open deployment takes node steps only, on requests in flight. -/
theorem Open.exec_nodeSteps {ok : Node → AppendEntriesRequest → Prop}
    (given : ∀ call, .appendCall call ∈ σ.sys.net → ∀ n, ok n call.req)
    (step : σ.exec S a = .ok σ') (i : String) :
    ReflTransGen (NodeStep ok) (σ.sys.node i) (σ'.sys.node i) := by
  rcases Open.exec_cases step with ⟨b, hb⟩ | ⟨j, o, same, steps, _⟩
  · refine Raft.exec_nodeSteps hb (fun d hd _ => ?_) i
    cases b with
    | deliver k =>
        simp only [delivered] at hd
        split at hd
        · rename_i call hm
          obtain ⟨j, _, rfl⟩ := Option.map_eq_some_iff.mp hd
          exact given call (List.mem_of_getElem? hm) _
        · exact absurd hd (by simp)
    | _ => exact absurd hd (by simp [delivered])
  · rw [same]
    by_cases hi : i = j
    · subst hi
      rw [Sys.node, Sys.node, Sys.put_procs_self]
      exact steps ok
    · rw [Sys.node, Sys.node, Sys.put_procs_of_ne _ _ _ hi]

theorem Open.exec_nodeSteps_any (step : σ.exec S a = .ok σ') (i : String) :
    ReflTransGen (NodeStep fun _ _ => True) (σ.sys.node i) (σ'.sys.node i) :=
  Open.exec_nodeSteps (fun _ _ _ => trivial) step i

/-- A request in flight after a step was in flight before it, or a node that leads now
has sent it. -/
theorem Open.exec_calls (step : σ.exec S a = .ok σ') {call : Call AppendEntriesRequest}
    (sent : .appendCall call ∈ σ'.sys.net) :
    .appendCall call ∈ σ.sys.net ∨
      ∃ j, (σ'.sys.node j).role = .leader ∧ (σ'.sys.node j).Snapshot call.req := by
  have put {i : String} {net : List Msg} {o : Out} (sub : net ⊆ σ.sys.net)
      (sends : .appendCall call ∈ o.sent →
        o.proc.node.role = .leader ∧ o.proc.node.Snapshot call.req)
      (sent : .appendCall call ∈ (σ.sys.put i net o).net) :
      .appendCall call ∈ σ.sys.net ∨ ∃ j, ((σ.sys.put i net o).node j).role = .leader ∧
        ((σ.sys.put i net o).node j).Snapshot call.req := by
    rcases List.mem_append.mp sent with old | new
    · exact .inl (sub old)
    · refine .inr ⟨i, ?_⟩
      rw [Sys.node, Sys.put_procs_self]
      exact sends new
  cases a with
  | step b =>
      obtain ⟨sys, hb, step⟩ := Go.bind_eq_ok.mp step
      obtain rfl := Go.pure_eq_ok.mp step
      rcases Raft.exec_cases hb with ⟨k, rfl⟩ | ⟨k, m, i, o, rfl, _, _, hh, rfl⟩ |
        ⟨i, o, _, _, hh, rfl⟩
      · exact .inl (List.mem_of_mem_eraseIdx sent)
      · exact put List.eraseIdx_subset hh.sends sent
      · exact put (List.Subset.refl _) hh.sends sent
  | addPeer i id addr =>
      obtain rfl := Go.pure_eq_ok.mp step
      exact put (List.Subset.refl _) (by simp) sent
  | replicate k =>
      simp only [Open.exec] at step
      split at step
      · exact absurd step (by simp)
      · obtain ⟨⟨n, calls⟩, hrep, step⟩ := Go.bind_eq_ok.mp step
        obtain rfl := Go.pure_eq_ok.mp step
        refine put (List.Subset.refl _) (fun new => ?_) sent
        obtain ⟨⟨next, rfl⟩, hcalls⟩ := Node.replicateLocked_ok hrep
        obtain ⟨call', hmem, same⟩ := List.mem_map.mp new
        obtain rfl := Msg.appendCall.inj same
        obtain ⟨leads, _, _, snapshot⟩ := hcalls call' hmem
        exact ⟨leads, snapshot.congr rfl rfl rfl rfl⟩
  | removePeer i id =>
      obtain rfl := Go.pure_eq_ok.mp step
      exact put (List.Subset.refl _) (by simp) sent

end OpenSteps

section AppendOnly

/-- The order in which a node takes its roles within one term. -/
def Role.stage : Role → Nat
  | .candidate => 0
  | .leader => 1
  | .follower => 2

/-- The node has reached a later term, or it is still in its term, further on, and its
log has grown unless it follows. -/
inductive Node.Onward (n m : Node) : Prop
  | later (term : n.currentTerm < m.currentTerm)
  | within (term : m.currentTerm = n.currentTerm) (stage : n.role.stage ≤ m.role.stage)
      (log : m.role ≠ .follower → n.log <+: m.log)

namespace Node.Onward

variable {n m o : Node}

theorem refl (n : Node) : n.Onward n :=
  .within rfl (Nat.le_refl _) fun _ => List.prefix_rfl

theorem trans (h : n.Onward m) (h' : m.Onward o) : n.Onward o := by
  cases h with
  | later term =>
      cases h' with
      | later term' => exact .later (term.trans term')
      | within term' _ _ => exact .later (term' ▸ term)
  | within term stage log =>
      cases h' with
      | later term' => exact .later (term ▸ term')
      | within term' stage' log' =>
          refine .within (term'.trans term) (stage.trans stage') fun going => ?_
          -- A node that does not follow yet has not followed before in this term.
          have before : m.role ≠ .follower := by
            intro follows
            rw [follows] at stage'
            cases role : o.role with
            | follower => exact going role
            | candidate => simp [role, Role.stage] at stage'
            | leader => simp [role, Role.stage] at stage'
          exact (log before).trans (log' going)

/-- A node that takes up the leader of a request follows it. -/
theorem of_follower (term : n.currentTerm ≤ m.currentTerm) (follows : m.role = .follower) :
    n.Onward m := by
  rcases Nat.lt_or_eq_of_le term with later | same
  · exact .later later
  · refine .within same.symm ?_ fun going => absurd follows going
    rw [follows]
    cases n.role <;> simp [Role.stage]

theorem of_step {ok : Node → AppendEntriesRequest → Prop} (step : NodeStep ok n m) :
    n.Onward m := by
  have observed {req : AppendEntriesRequest} (current : n.currentTerm ≤ req.term) :
      n.currentTerm ≤ (n.observeLeader req).currentTerm := by
    rw [observeLeader_currentTerm current]
    exact current
  cases step with
  | stand idle => exact .later (Nat.lt_succ_self _)
  | lead stands =>
      refine .within rfl ?_ fun _ => List.prefix_rfl
      rw [stands]
      exact Nat.zero_le _
  | propose cmd leads => exact .within rfl (Nat.le_refl _) fun _ => List.prefix_append _ _
  | proposeAlone cmd leads => exact .within rfl (Nat.le_refl _) fun _ => List.prefix_append _ _
  | stepDown t newer => exact .later newer
  | observe req current given =>
      exact of_follower (observed current) (n.observeLeader_follower req)
  | store req accepts given old =>
      exact of_follower (observed accepts.1) (n.observeLeader_follower req)
  | commit req accepts given newer =>
      exact of_follower (observed accepts.1) (n.observeLeader_follower req)
  | indices _ _ | vote _ _ | advance _ _ _ | pop _ | forget _ | peers _ =>
      exact .within rfl (Nat.le_refl _) fun _ => List.prefix_rfl

end Node.Onward

variable {S : Setup} {past : List (Open × OpenAction)} {σ : Open}

theorem OpenRun.onward (run : OpenRun S past σ) (i : String) :
    ∀ u ∈ visited past σ, (u.sys.node i).Onward (σ.sys.node i) :=
  Transition.Run.ordered (C := fun _ _ => True)
    (R := fun u σ => (u.sys.node i).Onward (σ.sys.node i)) (fun _ => .refl _)
    (fun _ _ _ h h' => h.trans h')
    (fun u _ _ _ step =>
      have steps := Open.exec_nodeSteps_any step i
      chain_invariant (I := (u.sys.node i).Onward) (fun _ _ h last => h.trans (.of_step last))
        steps (.refl _))
    run fun _ _ => trivial

/-- A leader never changes or drops an entry of its log: every log that it has had since it
entered its term is a part of the log it leads with. -/
theorem leader_append_only (run : OpenRun S past σ) {u : Open} (hu : u ∈ visited past σ)
    {i : String} (leads : (σ.sys.node i).role = .leader)
    (same : (u.sys.node i).currentTerm = (σ.sys.node i).currentTerm) :
    (u.sys.node i).log <+: (σ.sys.node i).log := by
  cases run.onward i u hu with
  | later term => exact absurd same (Nat.ne_of_lt term)
  | within _ _ log => exact log (by rw [leads]; simp)

/-- Node a has stored a command and sent it to a peer added by hand. -/
theorem leader_append_only_addPeer : ∃ past σ, OpenRun trio past σ ∧
    (σ.sys.node "a").log.length = 2 ∧ ∀ u ∈ visited past σ,
      (u.sys.node "a").currentTerm = 1 → (u.sys.node "a").log <+: (σ.sys.node "a").log := by
  obtain ⟨past, σ, run, check⟩ := OpenRun.of_actions trio
    (electA.map OpenAction.step ++ [.addPeer "a" "d" "d:1", .replicate 0,
      .step (.propose "a" (join "d" "d:1"))])
    (fun _ σ => decide ((σ.sys.node "a").role = .leader ∧ (σ.sys.node "a").currentTerm = 1 ∧
      (σ.sys.node "a").log.length = 2)) (by decide +kernel)
  obtain ⟨leads, term, length⟩ := of_decide_eq_true check
  exact ⟨past, σ, run, length, fun u hu same =>
    leader_append_only run hu leads (same.trans term.symm)⟩

end AppendOnly

section Hints

/-- Node `l` has led term `t` in one of the states. -/
def Led (states : List Open) (l : String) (t : Nat) : Prop :=
  ∃ u ∈ states, (u.sys.node l).role = .leader ∧ (u.sys.node l).currentTerm = t

theorem Led.mono {states states' : List Open} {l : String} {t : Nat} (h : Led states l t)
    (sub : states ⊆ states') : Led states' l t := by
  obtain ⟨u, hu, leads, term⟩ := h
  exact ⟨u, sub hu, leads, term⟩

/-- The node names no leader, or one that has led its term, or itself as it leads. -/
def Node.Hinted (states : List Open) (n : Node) : Prop :=
  n.leaderID = "" ∨ Led states n.leaderID n.currentTerm ∨
    (n.role = .leader ∧ n.leaderID = n.id)

theorem Node.Hinted.step {states : List Open} {n n' : Node} (h : n.Hinted states)
    (step : NodeStep (fun _ req => Led states req.leaderID req.term) n n') :
    n'.Hinted states := by
  have observed {req : AppendEntriesRequest} (current : n.currentTerm ≤ req.term)
      (given : Led states req.leaderID req.term) :
      (n.observeLeader req).leaderID = req.leaderID ∧
        Led states req.leaderID (n.observeLeader req).currentTerm := by
    refine ⟨?_, (observeLeader_currentTerm current).symm ▸ given⟩
    unfold observeLeader
    split <;> rfl
  have adopted {req : AppendEntriesRequest} {m : Node} (current : n.currentTerm ≤ req.term)
      (given : Led states req.leaderID req.term)
      (leader : m.leaderID = (n.observeLeader req).leaderID)
      (term : m.currentTerm = (n.observeLeader req).currentTerm) : m.Hinted states := by
    obtain ⟨named, led⟩ := observed current given
    refine .inr (.inl ?_)
    rw [leader, term, named]
    exact led
  cases step with
  | stand idle => exact .inl rfl
  | lead stands => exact .inr (.inr ⟨rfl, rfl⟩)
  | stepDown t newer => exact .inl rfl
  | observe req current given => exact adopted current given rfl rfl
  | store req accepts given old => exact adopted accepts.1 given rfl rfl
  | commit req accepts given newer => exact adopted accepts.1 given rfl rfl
  | indices _ _ | propose _ _ | proposeAlone _ _ | vote _ _ | advance _ _ _ | pop _ | forget _
  | peers _ => exact h

/-- Every node keeps the id it was started with. -/
theorem OpenRun.id {S : Setup} {past : List (Open × OpenAction)} {σ : Open}
    (run : OpenRun S past σ) (i : String) : (σ.sys.node i).id = i := by
  refine Transition.Run.invariant (C := fun _ _ => True) (I := fun σ => (σ.sys.node i).id = i)
    ?_ ?_ run fun _ _ => trivial
  · rintro _ rfl
    change (S.start.node i).id = i
    rw [S.start_node]
    rfl
  · intro σ a σ' hσ _ step
    refine chain_invariant (I := fun n => n.id = i) ?_ (Open.exec_nodeSteps_any step i) hσ
    intro n n' hn step
    cases step with
    | observe req _ _ => exact (Node.Still.of_observeLeader n req).id.trans hn
    | store req _ _ _ => exact (Node.Still.of_observeLeader n req).id.trans hn
    | commit req _ _ _ => exact (Node.Still.of_observeLeader n req).id.trans hn
    | _ => exact hn

/-- Every hint, in a node or in a request, is of a node that has led its term. -/
structure Open.Hints (past : List (Open × OpenAction)) (σ : Open) : Prop where
  nodes : ∀ i, (σ.sys.node i).leaderID = "" ∨
    Led (visited past σ) (σ.sys.node i).leaderID (σ.sys.node i).currentTerm
  calls : ∀ call, .appendCall call ∈ σ.sys.net →
    Led (visited past σ) call.req.leaderID call.req.term

theorem OpenRun.hints {S : Setup} {past : List (Open × OpenAction)} {σ : Open}
    (run : OpenRun S past σ) : σ.Hints past := by
  refine Transition.Run.induct (C := fun _ _ => True) (I := fun past σ => σ.Hints past) ?_ ?_
    run fun _ _ => trivial
  · rintro _ rfl
    refine ⟨fun i => .inl ?_, fun call sent => absurd sent (by simp [Open.start, Setup.start])⟩
    change (S.start.node i).leaderID = ""
    rw [S.start_node]
    rfl
  · intro past σ a σ' run _ hints _ step
    have ids := OpenRun.id (.next run step)
    have before : visited past σ ⊆ visited ((σ, a) :: past) σ' := List.subset_cons_self _ _
    have now : σ' ∈ visited ((σ, a) :: past) σ' := Transition.mem_visited_self _ _
    refine ⟨fun i => ?_, fun call sent => ?_⟩
    · have hinted : (σ'.sys.node i).Hinted (visited past σ) :=
        chain_invariant (fun _ _ hn last => hn.step last)
          (Open.exec_nodeSteps (fun call sent _ => hints.calls call sent) step i)
          ((hints.nodes i).imp_right .inl)
      rcases hinted with none | led | ⟨leads, self⟩
      · exact .inl none
      · exact .inr (led.mono before)
      · rw [self, ids]
        exact .inr ⟨σ', now, leads, rfl⟩
    · rcases Open.exec_calls step sent with old | ⟨j, leads, snapshot⟩
      · exact (hints.calls call old).mono before
      · rw [snapshot.leaderID, snapshot.term, ids]
        exact ⟨σ', now, leads, rfl⟩

end Hints

section FixedHints

open Refinement (Fixed)

variable {S : Setup} {past : List (Sys × Action)} {σ : Sys}

/-- A step of a deployment in which no peer is added or removed by hand. -/
def Open.closed (p : Sys × Action) : Open × OpenAction :=
  (⟨p.1, []⟩, .step p.2)

theorem Run.opened (run : Run S past σ) : OpenRun S (past.map Open.closed) ⟨σ, []⟩ := by
  induction run with
  | start initial =>
      subst initial
      exact .start rfl
  | @next past σ σ' a run step ih =>
      refine .next ih ?_
      have step : exec S σ a = .ok σ' := step
      change Open.exec S ⟨σ, []⟩ (.step a) = _
      simp [Open.exec, step]

/-- Only members act. -/
theorem Run.member_of_leader (run : Run S past σ) {i : String}
    (leads : (σ.node i).role = .leader) : i ∈ S.ids := by
  by_contra foreign
  suffices (σ.node i).role = .follower by simp [this] at leads
  refine Transition.Run.invariant (C := fun _ _ => True)
    (I := fun σ => (σ.node i).role = .follower) ?_ ?_ run fun _ _ => trivial
  · rintro _ rfl
    rw [S.start_node]
    rfl
  · intro σ a σ' hσ _ step
    have other {j : String} (hj : j ∈ S.ids) : i ≠ j := fun same => foreign (same ▸ hj)
    rcases exec_cases step with ⟨k, rfl⟩ | ⟨k, m, j, o, rfl, _, hj, _, rfl⟩ |
      ⟨j, o, _, hj, _, rfl⟩
    · exact hσ
    · have member : j ∈ S.ids := by
        cases m with
        | voteCall _ | voteReply _ _ | appendCall _ | appendReply _ _ =>
            exact List.mem_of_find?_eq_some hj
      rw [Sys.node, Sys.put_procs_of_ne _ _ _ (other member)]
      exact hσ
    · rw [Sys.node, Sys.put_procs_of_ne _ _ _ (other hj)]
      exact hσ

/-- The states of a run are reached by runs. -/
theorem Run.of_visited (run : Run S past σ) {u : Sys} (hu : u ∈ visited past σ) :
    ∃ before, Run S before u ∧ visited before u ⊆ visited past σ := by
  induction run with
  | @start σ initial =>
      obtain rfl : u = σ := by simpa [visited] using hu
      exact ⟨[], .start initial, List.Subset.refl _⟩
  | @next past σ σ' a run step ih =>
      rcases (Transition.mem_visited_next past σ σ' u a).mp hu with rfl | hu
      · exact ⟨_, .next run step, List.Subset.refl _⟩
      · obtain ⟨before, run', sub⟩ := ih hu
        exact ⟨before, run', List.subset_cons_of_subset _ sub⟩

/-- The leader that a node names has led the node's term. -/
theorem Run.led (run : Run S past σ) {u : Sys} (hu : u ∈ visited past σ) {i : String}
    (known : (u.node i).leaderID ≠ "") : ∃ w ∈ visited past σ, (u.node i).leaderID ∈ S.ids ∧
      (w.node (u.node i).leaderID).role = .leader ∧
      (w.node (u.node i).leaderID).currentTerm = (u.node i).currentTerm := by
  obtain ⟨before, run', sub⟩ := run.of_visited hu
  obtain ⟨w, hw, leads, term⟩ := (run'.opened.hints.nodes i).resolve_left known
  have hw : w.sys ∈ visited before u := by
    rcases List.mem_cons.mp hw with rfl | hw
    · exact Transition.mem_visited_self _ _
    · obtain ⟨p, hp, rfl⟩ := List.mem_map.mp hw
      obtain ⟨q, hq, rfl⟩ := List.mem_map.mp hp
      exact List.mem_cons_of_mem _ (List.mem_map_of_mem hq)
  obtain ⟨_, run'', _⟩ := run'.of_visited hw
  exact ⟨w.sys, sub hw, run''.member_of_leader leads, leads, term⟩

/-- The address that goes with a hint is the one its node listens on. -/
theorem Refinement.NodeOK.leaderAddr {g : Refinement.Ghost} {i : String} {n : Node}
    (h : Refinement.NodeOK S g i n) (hS : S.Consistent) (hi : i ∈ S.ids)
    (known : n.leaderID ≠ "") (member : n.leaderID ∈ S.ids) :
    n.leaderAddr = S.addrOf n.leaderID := by
  unfold Node.leaderAddr
  rw [if_neg known]
  split
  · rename_i self
    rw [h.addr, self, h.id]
  · rename_i other
    rw [h.id] at other
    rw [h.peers]
    cases found : (S.peerMap i).lookup n.leaderID with
    | none =>
        have absent := AList.lookup_eq_none.mp found
        exact absurd (AList.mem_keys.mpr ((hS.mem_peerMap hi _).mpr ⟨member, other⟩)) absent
    | some addr => exact (hS.of_lookup_peerMap hi found).2.2

/-- In a fixed deployment of an odd number of nodes, nodes that know a leader of one term
know the same one, under the same address, and it has led the term. -/
theorem leader_hints_agree (fixed : Fixed S) (run : Run S past σ) {u v : Sys}
    (hu : u ∈ visited past σ) (hv : v ∈ visited past σ) {i j : String} (hi : i ∈ S.ids)
    (hj : j ∈ S.ids) (known : (u.node i).leaderID ≠ "") (known' : (v.node j).leaderID ≠ "")
    (same : (u.node i).currentTerm = (v.node j).currentTerm) :
    ∃ l ∈ S.ids, (∃ w ∈ visited past σ, (w.node l).role = .leader ∧
        (w.node l).currentTerm = (u.node i).currentTerm) ∧
      (u.node i).leaderID = l ∧ (u.node i).leaderAddr = S.addrOf l ∧
      (v.node j).leaderID = l ∧ (v.node j).leaderAddr = S.addrOf l := by
  obtain ⟨g, _, refines⟩ := Refinement.refines_any fixed run
  obtain ⟨w, hw, member, leads, term⟩ := run.led hu known
  obtain ⟨w', hw', member', leads', term'⟩ := run.led hv known'
  have leader := refines.leaders w hw _ member leads
  have leader' := refines.leaders w' hw' _ member' leads'
  rw [term] at leader
  rw [term', ← same, leader, Option.some_inj] at leader'
  have addr {u : Sys} (hu : u ∈ visited past σ) {i : String} (hi : i ∈ S.ids)
      (known : (u.node i).leaderID ≠ "") (member : (u.node i).leaderID ∈ S.ids) :
      (u.node i).leaderAddr = S.addrOf (u.node i).leaderID := by
    obtain ⟨_, run', _⟩ := run.of_visited hu
    obtain ⟨_, _, refines'⟩ := Refinement.refines_any fixed run'
    exact (refines'.nodes i hi).leaderAddr fixed.consistent hi known member
  refine ⟨_, member, ⟨w, hw, leads, term⟩, rfl, addr hu hi known member, leader'.symm, ?_⟩
  rw [leader']
  exact addr hv hj known' member'

/-- Node b has got the first heartbeat of the leader a. -/
theorem leader_hints_agree_heartbeat : ∃ past σ, Run trio past σ ∧
    (σ.node "b").leaderID = "a" ∧ (σ.node "a").leaderAddr = (σ.node "b").leaderAddr := by
  obtain ⟨past, σ, run, check⟩ := Run.of_actions trio (electA ++ [.deliver 1, .deliver 1])
    (fun _ σ => decide ((σ.node "a").leaderID = "a" ∧ (σ.node "b").leaderID = "a" ∧
      (σ.node "a").currentTerm = (σ.node "b").currentTerm)) (by decide +kernel)
  obtain ⟨self, named, term⟩ := of_decide_eq_true check
  have now := Transition.mem_visited_self past σ
  obtain ⟨l, _, _, _, here, _, there⟩ := leader_hints_agree trio_fixed run now now
    (i := "a") (j := "b") (by decide) (by decide) (by simp [self]) (by simp [named]) term
  exact ⟨past, σ, run, named, here.trans there.symm⟩

end FixedHints

section Completeness

open Consensus (Complete Keeps Reachable)
open Refinement

variable {S : Setup} {past : List (Sys × Action)} {σ : Sys}

/-- What a node has had committed at any time of the run stays settled. -/
theorem Refinement.settled_run (fixed : Fixed S) (three : 3 ≤ S.ids.length) (run : Run S past σ)
    (meets : Meets (OnDelivery S fun p => p.node.KeepsStored) past) :
    ∃ g, Reachable Entry.term S.ids.toFinset (Keeps Entry.term) [sentinel] g ∧
      Refines S past σ g ∧ ∀ u ∈ visited past σ, ∀ i ∈ S.ids,
        Settled S g (u.node i).currentTerm (u.node i).log (u.node i).commitIndex := by
  suffices ∃ g, Reachable Entry.term S.ids.toFinset (Keeps Entry.term) [sentinel] g ∧
      Refines S past σ g ∧ Committed S σ g ∧ ∀ u ∈ visited past σ, ∀ i ∈ S.ids,
        Settled S g (u.node i).currentTerm (u.node i).log (u.node i).commitIndex by
    obtain ⟨g, reach, refines, _, settled⟩ := this
    exact ⟨g, reach, refines, settled⟩
  refine Transition.Run.simulate
    (R := fun past σ g => Refines S past σ g ∧ Committed S σ g ∧ ∀ u ∈ visited past σ,
      ∀ i ∈ S.ids, Settled S g (u.node i).currentTerm (u.node i).log (u.node i).commitIndex)
    ?_ ?_ run meets
  · rintro _ rfl
    have start := committed_start S
    refine ⟨refines_start S, start, fun u hu => ?_⟩
    obtain rfl : u = S.start := by simpa [visited] using hu
    exact start.nodes
  · rintro past σ a σ' g reach ⟨h, committed, settled⟩ stored step
    have given : OnDelivery S (fun p => KeepsOnAccept (Keeps Entry.term) p.node) σ a :=
      fun d hd current => .of_keepsStored (stored d hd current)
    obtain ⟨g', more, grows, h'⟩ := refines_step fixed reach h given step
    have committed' :=
      committed.step fixed three reach (reach.trans more) h h' grows given step
    refine ⟨g', more, h', committed', fun u hu i hi => ?_⟩
    rcases (Transition.mem_visited_next past σ σ' u a).mp hu with rfl | hu
    · exact committed'.nodes i hi
    · exact (settled u hu i hi).mono grows (Nat.le_refl _) List.prefix_rfl

/-- In every run in which an accepted request reaches the end of the log or conflicts with
it, a leader has everything that any node has ever counted as committed in the leader's
term or before. -/
theorem leader_holds_committed (fixed : Fixed S) (three : 3 ≤ S.ids.length) (run : Run S past σ)
    (meets : Meets (OnDelivery S fun p => p.node.KeepsStored) past) {u : Sys}
    (hu : u ∈ visited past σ) {i j : String} (hi : i ∈ S.ids) (hj : j ∈ S.ids)
    (leads : (σ.node i).role = .leader)
    (earlier : (u.node j).currentTerm ≤ (σ.node i).currentTerm) :
    (u.node j).log.take ((u.node j).commitIndex + 1) <+: (σ.node i).log := by
  obtain ⟨g, reach, refines, settled⟩ := settled_run fixed three run meets
  obtain ⟨leader, lead, _⟩ := (refines.nodes i hi).leads leads
  have complete := Consensus.complete_reachable zero_sentinel reach
  have hmatch := Consensus.matched_reachable zero_sentinel reach
  have inLead := (settled u hu j hj).covered.prefix_lead complete hmatch earlier leader
  rwa [lead] at inLead

/-- The command that a and b have stored and a has committed is in the log of b as it leads
the next term. -/
theorem leader_holds_committed_next : ∃ past σ, Run trio past σ ∧
    (σ.node "b").role = .leader ∧ (σ.node "b").currentTerm = 2 ∧
    (σ.node "a").commitIndex = 1 ∧
    (σ.node "a").log.take 2 <+: (σ.node "b").log := by
  obtain ⟨past, σ, run, check⟩ := Run.of_actions trio
    (commitA { type := .noop } ++ [.timeout "b", .deliver 6, .deliver 7, .resume "b" 0,
      .resume "b" 0])
    (fun past σ => decide (Meets (OnDelivery trio fun p => p.node.KeepsStored) past ∧
      (σ.node "b").role = .leader ∧ (σ.node "b").currentTerm = 2 ∧
      (σ.node "a").currentTerm ≤ 2 ∧ (σ.node "a").commitIndex = 1)) (by decide +kernel)
  obtain ⟨meets, leads, term, earlier, commit⟩ := of_decide_eq_true check
  have holds := leader_holds_committed trio_fixed (by decide) run meets
    (Transition.mem_visited_self past σ) (i := "b") (j := "a") (by decide) (by decide) leads
    (earlier.trans term.symm.le)
  rw [commit] at holds
  exact ⟨past, σ, run, leads, term, commit, holds⟩

end Completeness

end DistributedCache.Raft
