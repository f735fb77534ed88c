import DistributedCache.Raft.Commits
import DistributedCache.Raft.Refinement.Settled
import DistributedCache.Raft.Safety
import DistributedCache.Raft.View

/-!
State-machine safety: no two callbacks are given different entries for one index.
`HandleAppendEntries` cuts the log behind `PrevLogIndex` whatever follows, so a late
request can take stored entries away that a leader has already counted. In runs in
which accepted requests reach the end of the log or conflict with it, what is applied
anywhere is settled.
-/
namespace DistributedCache.Raft

open Consensus (Complete Grows Keeps Matched Reachable)
open Refinement
open Transition (Meets)

/-- An accepted request reaches the end of the log, or carries an entry that conflicts
with one of the log. -/
def Node.KeepsStored (n : Node) (req : AppendEntriesRequest) : Prop :=
  n.Accepts req → n.log.length ≤ req.prevLogIndex + 1 + req.entries.length ∨
    ∃ x ∈ (n.log.drop (req.prevLogIndex + 1)).zip req.entries, x.1.term ≠ x.2.term

instance (n : Node) (req : AppendEntriesRequest) : Decidable (n.KeepsStored req) :=
  inferInstanceAs (Decidable (_ → _))

namespace Refinement

theorem KeepsOnAccept.of_keepsStored {n : Node} {req : AppendEntriesRequest}
    (h : n.KeepsStored req) : KeepsOnAccept (Keeps Entry.term) n req := by
  intro accepts
  rcases h accepts with reaches | ⟨⟨d, e⟩, hmem, differ⟩
  · left
    rwa [Node.length_storeEntries accepts.lt]
  · right
    obtain ⟨j, hj⟩ := List.mem_iff_getElem?.mp hmem
    obtain ⟨hd, he⟩ := List.getElem?_zip_eq_some.mp hj
    rw [List.getElem?_drop] at hd
    refine ⟨req.prevLogIndex + 1 + j, d, { e with index := req.prevLogIndex + 1 + j }, hd, ?_,
      differ⟩
    rw [Node.getElem?_storeEntries accepts.lt, if_neg (by omega), Nat.add_sub_cancel_left, he]
    rfl

/-- Everything committed, announced as committed or applied is settled. -/
structure Committed (S : Setup) (σ : Sys) (g : Ghost) : Prop where
  nodes : ∀ i ∈ S.ids,
    Settled S g (σ.node i).currentTerm (σ.node i).log (σ.node i).commitIndex
  calls : ∀ call, .appendCall call ∈ σ.net →
    Settled S g call.req.term (g.lead call.req.term) call.req.leaderCommit
  tasks : ∀ i ∈ S.ids, ∀ x ∈ (σ.procs i).applies, Decided S g x.1.index x.1.entry
  events : ∀ i k e, .applyBegin i k e ∈ σ.events → Decided S g k e

variable {S : Setup} {past : List (Sys × Action)} {σ σ' : Sys} {a : Action} {i : String}
  {g g' : Ghost} {n : Node} {p : Proc} {m : Input} {o : Out} {net : List Msg}
  {membership : Bool}

theorem committed_start (S : Setup) :
    Committed S S.start (Consensus.State.initial [sentinel]) where
  nodes i _ := by
    rw [S.start_node]
    exact ⟨Nat.zero_lt_one, .inl List.prefix_rfl⟩
  calls := by simp [Setup.start]
  tasks := by simp [Setup.start, Setup.startProc, Proc.applies]
  events := by simp [Setup.start]

theorem Setting.settled (h : Setting S i g p) (fixed : Fixed S) (three : 3 ≤ S.ids.length)
    (complete : Complete Entry.term S.ids.toFinset g)
    (hmatch' : Matched Entry.term [sentinel] g') (grows : Grows g g') (node' : NodeOK S g' i n)
    (before : Settled S g p.node.currentTerm p.node.log p.node.commitIndex)
    (received : ∀ call, m = .message (.appendCall call) → AppendCallOK S g call ∧
      Settled S g call.req.term (g.lead call.req.term) call.req.leaderCommit)
    (given : Given (KeepsOnAccept (Keeps Entry.term)) p.node m) (commits : Commits p m n) :
    Settled S g' n.currentTerm n.log n.commitIndex := by
  cases commits with
  | longer log commit =>
      rw [commit]
      refine before.mono grows ?_ log
      rw [h.node.term, node'.term]
      exact grows.term i
  | alone none =>
      have single := h.alone none
      simp only [majority] at single
      omega
  | stores call message accepts term follows log commit =>
      obtain ⟨ok, announced⟩ := received call message
      obtain ⟨_, part⟩ := ok.store_log h.matched h.indexed h.node accepts
      have stored : Settled S g call.req.term (p.node.storeEntries call.req).log n.commitIndex := by
        rcases commit with same | ⟨_, new⟩
        · rw [same]
          exact before.store complete h.matched ok.leads accepts.1 part
            (given call message accepts.1 accepts)
        · have length := Node.length_storeEntries accepts.lt
          rw [new, min64]
          split
          · exact announced.narrow part (by omega) (Nat.le_refl _)
          · exact announced.narrow part (by omega) (by omega)
      rw [term, log]
      exact stored.mono grows (Nat.le_refl _) List.prefix_rfl
  | advances leads log newer advance =>
      exact node'.settled fixed hmatch' h.member leads (by omega) advance

/-- A handler of node `i` keeps what is settled. -/
theorem Committed.put (h : Committed S σ g) (h' : Refines S past (σ.put i net o) g')
    (grows : Grows g g') (hi : i ∈ S.ids) (messages : net ⊆ σ.net)
    (hh : Handles membership (σ.procs i) m o)
    (settled : Settled S g' o.proc.node.currentTerm o.proc.node.log o.proc.node.commitIndex) :
    Committed S (σ.put i net o) g' := by
  have now : (σ.put i net o).procs i = o.proc := σ.put_procs_self i net o
  have node' : NodeOK S g' i o.proc.node := by
    have := h'.nodes i hi
    rwa [Sys.node, now] at this
  obtain ⟨v, touches, popped⟩ := hh.shows
  refine ⟨fun j hj => ?_, fun call sent => ?_, fun j hj x hx => ?_, fun j k e begun => ?_⟩
  · by_cases here : j = i
    · subst here
      rw [Sys.node, now]
      exact settled
    · rw [Sys.node, σ.put_procs_of_ne _ _ here]
      exact (h.nodes j hj).mono grows (Nat.le_refl _) List.prefix_rfl
  · rcases List.mem_append.mp sent with old | new
    · exact (h.calls call (messages old)).mono grows (Nat.le_refl _) (grows.lead _)
    · obtain ⟨leads, snapshot⟩ := hh.sends new
      rw [snapshot.term, (node'.leads leads).2.1, snapshot.leaderCommit]
      exact settled
  · by_cases here : j = i
    · subst here
      rw [now] at hx
      have old {y : Node.Delivery × Phase} (hy : y ∈ v.applies) :
          Decided S g' y.1.index y.1.entry := by
        obtain ⟨z, hz, same⟩ := touches.delivery y hy
        rw [same]
        exact (h.tasks j hj z hz).mono grows
      rcases popped with view | ⟨_, d, pops, committed⟩
      · exact old (congrArg View.applies view ▸ hx)
      · have applies : o.proc.applies = v.applies ++ [(d, .pending)] :=
          congrArg View.applies pops.view
        have log : o.proc.node.log = v.log := congrArg View.log pops.view
        rw [applies] at hx
        rcases List.mem_append.mp hx with hx | hx
        · exact old hx
        · obtain rfl := List.mem_singleton.mp hx
          exact settled.decided committed (log ▸ pops.entry)
    · rw [σ.put_procs_of_ne _ _ here] at hx
      exact (h.tasks j hj x hx).mono grows
  · rcases List.mem_append.mp begun with new | old
    · obtain ⟨x, hx, rfl, rfl⟩ := touches.begins new
      exact (h.tasks i hi x hx).mono grows
    · exact (h.events j k e old).mono grows

theorem Committed.step (fixed : Fixed S) (three : 3 ≤ S.ids.length)
    (reach : Reachable Entry.term S.ids.toFinset (Keeps Entry.term) [sentinel] g)
    (reach' : Reachable Entry.term S.ids.toFinset (Keeps Entry.term) [sentinel] g')
    (h : Refines S past σ g) (h' : Refines S ((σ, a) :: past) σ' g') (grows : Grows g g')
    (committed : Committed S σ g)
    (given : OnDelivery S (fun p => KeepsOnAccept (Keeps Entry.term) p.node) σ a)
    (step : exec S σ a = .ok σ') : Committed S σ' g' := by
  have complete := Consensus.complete_reachable zero_sentinel reach
  have hmatch' := Consensus.matched_reachable zero_sentinel reach'
  have node' {i : String} {net : List Msg} {o : Out} (hi : i ∈ S.ids)
      (h' : Refines S ((σ, a) :: past) (σ.put i net o) g') : NodeOK S g' i o.proc.node := by
    have := h'.nodes i hi
    rwa [Sys.node, σ.put_procs_self] at this
  rcases exec_cases step with ⟨k, rfl⟩ | ⟨k, m, i, o, rfl, hm, hi, hh, rfl⟩ |
    ⟨i, o, _, hi, hh, rfl⟩
  · refine ⟨fun j hj => ?_, fun call sent => ?_, fun j hj x hx => ?_, fun j k e begun => ?_⟩
    · exact (committed.nodes j hj).mono grows (Nat.le_refl _) List.prefix_rfl
    · exact (committed.calls call (List.mem_of_mem_eraseIdx sent)).mono grows (Nat.le_refl _)
        (grows.lead _)
    · exact (committed.tasks j hj x hx).mono grows
    · exact (committed.events j k e begun).mono grows
  · have hnet := List.mem_of_getElem? hm
    obtain ⟨_, member⟩ := h.handled fixed.consistent (h.msgs m hnet) hi
    refine committed.put h' grows member List.eraseIdx_subset hh ?_
    refine (h.setting fixed reach member).settled fixed three complete hmatch' grows
      (node' member h') (committed.nodes i member) ?_ ?_ hh.commits
    · rintro call hcall
      obtain rfl := Input.message.inj hcall
      exact ⟨h.msgs _ hnet, committed.calls call hnet⟩
    · rintro call hcall current
      obtain rfl := Input.message.inj hcall
      exact given.at hm hi current
  · refine committed.put h' grows hi (List.Subset.refl _) hh ?_
    exact (h.setting fixed reach hi).settled fixed three complete hmatch' grows (node' hi h')
      (committed.nodes i hi) (by rintro call ⟨⟩) (by rintro call ⟨⟩) hh.commits

end Refinement

variable {S : Setup} {past : List (Sys × Action)} {σ : Sys}

/-- In every run in which an accepted request reaches the end of the log or conflicts
with it, entries applied at the same index are the same. -/
theorem state_machine_safety (fixed : Fixed S) (three : 3 ≤ S.ids.length) (run : Run S past σ)
    (meets : Meets (OnDelivery S fun p => p.node.KeepsStored) past)
    {i j : String} {k : Nat} {d e : Entry} (applied : .applyBegin i k d ∈ σ.events)
    (applied' : .applyBegin j k e ∈ σ.events) : d.term = e.term ∧ d.command = e.command := by
  obtain ⟨g, reach, _, committed⟩ : ∃ g, Reachable Entry.term S.ids.toFinset
      (Keeps Entry.term) [sentinel] g ∧ Refines S past σ g ∧ Committed S σ g := by
    refine Transition.Run.simulate
      (R := fun past σ g => Refines S past σ g ∧ Committed S σ g) ?_ ?_ run meets
    · rintro _ rfl
      exact ⟨refines_start S, committed_start S⟩
    · rintro past σ a σ' g reach ⟨h, committed⟩ stored step
      have given : OnDelivery S (fun p => KeepsOnAccept (Keeps Entry.term) p.node) σ a :=
        fun d hd current => .of_keepsStored (stored d hd current)
      obtain ⟨g', more, grows, h'⟩ := refines_step fixed reach h given step
      exact ⟨g', more, h', committed.step fixed three reach (reach.trans more) h h' grows given
        step⟩
  obtain ⟨_, l, covered, hd⟩ := committed.events i k d applied
  obtain ⟨_, l', covered', he⟩ := committed.events j k e applied'
  have same : d = e := by
    rcases covered.comparable (Consensus.complete_reachable zero_sentinel reach)
      (Consensus.matched_reachable zero_sentinel reach) covered' with shorter | longer
    · exact Option.some.inj ((Consensus.getElem?_of_extends shorter hd).symm.trans he)
    · exact Option.some.inj (hd.symm.trans (Consensus.getElem?_of_extends longer he))
  rw [same]
  exact ⟨rfl, rfl⟩

/-- The command of a client is applied by a and, once it has heard of the commit, by b. -/
theorem state_machine_safety_commit :
    ∃ past σ d e, Run trio past σ ∧ .applyBegin "a" 1 d ∈ σ.events ∧
      .applyBegin "b" 1 e ∈ σ.events ∧ d.term = e.term ∧ d.command = e.command := by
  let d : Entry := ⟨1, 1, join "d" "d:1"⟩
  obtain ⟨past, σ, run, check⟩ := Run.of_actions trio
    (commitA (join "d" "d:1") ++ [.deliver 5, .resume "b" 0])
    (fun past σ => decide (Meets (OnDelivery trio fun p => p.node.KeepsStored) past ∧
      .applyBegin "a" 1 d ∈ σ.events ∧ .applyBegin "b" 1 d ∈ σ.events)) (by decide +kernel)
  obtain ⟨meets, applied, applied'⟩ := of_decide_eq_true check
  exact ⟨past, σ, d, d, run, applied, applied',
    state_machine_safety trio_fixed (by decide) run meets applied applied'⟩

/-- The first heartbeat of a reaches b after the entry that b has stored and a has
applied, and b drops that entry. Then c, which never had it, wins term 2 with the
vote of b and has another entry applied at the same index. -/
theorem state_machine_safety_late_heartbeat :
    ∃ past σ, Run trio past σ ∧ .applyBegin "a" 1 ⟨1, 1, join "d" "d:1"⟩ ∈ σ.events ∧
      .applyBegin "c" 1 ⟨2, 1, join "e" "e:1"⟩ ∈ σ.events := by
  obtain ⟨past, σ, run, check⟩ := Run.of_actions trio
    (commitA (join "d" "d:1") ++ [.deliver 2, .timeout "c", .timeout "c", .deliver 8, .deliver 9,
      .resume "c" 0, .resume "c" 0, .propose "c" (join "e" "e:1"), .deliver 11, .deliver 12,
      .resume "c" 0, .resume "c" 0, .resume "c" 0])
    (fun _ σ => decide (.applyBegin "a" 1 ⟨1, 1, join "d" "d:1"⟩ ∈ σ.events ∧
      .applyBegin "c" 1 ⟨2, 1, join "e" "e:1"⟩ ∈ σ.events)) (by decide +kernel)
  exact ⟨past, σ, run, of_decide_eq_true check⟩

end DistributedCache.Raft
