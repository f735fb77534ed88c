import DistributedCache.Raft.Commits
import DistributedCache.Raft.Refinement.Runs
import DistributedCache.Raft.Votes

/-!
What holds in every run of a fixed deployment of an odd number of nodes, however
messages are delayed, reordered or lost: one leader a term, elected and committing
with more than half of the nodes behind it, and logs that agree up to the last
entry of a common term. The threshold of the code is more than half of the nodes
for odd numbers only.
-/
namespace DistributedCache.Raft

open Refinement (Fixed)
open Transition (visited)

variable {S : Setup} {past : List (Sys × Action)} {σ : Sys}

/-- The refinement without any condition on what nodes give up of their logs. -/
theorem Refinement.refines_any (fixed : Fixed S) (run : Run S past σ) :
    ∃ g, Consensus.Reachable Entry.term S.ids.toFinset (fun _ _ => True) [sentinel] g ∧
      Refinement.Refines S past σ g :=
  Refinement.refines_run fixed run fun _ _ _ _ _ _ => trivial

/-- No two different nodes have been leaders of the same term. -/
theorem election_safety (fixed : Fixed S) (run : Run S past σ) {u v : Sys}
    (hu : u ∈ visited past σ) (hv : v ∈ visited past σ) {i j : String} (hi : i ∈ S.ids)
    (hj : j ∈ S.ids) (leads : (u.node i).role = .leader) (leads' : (v.node j).role = .leader)
    (same : (u.node i).currentTerm = (v.node j).currentTerm) : i = j := by
  obtain ⟨g, _, refines⟩ := Refinement.refines_any fixed run
  have leader := refines.leaders u hu i hi leads
  rw [same, refines.leaders v hv j hj leads', Option.some_inj] at leader
  exact leader.symm

theorem trio_fixed : Fixed trio :=
  ⟨trio_consistent, by decide, rfl⟩

theorem election_safety_rivals :
    ∃ past σ, Run trio past σ ∧ (σ.node "a").role = .leader ∧ (σ.node "a").currentTerm = 1 ∧
      ∀ u ∈ visited past σ, ∀ i ∈ trio.ids, (u.node i).role = .leader →
        (u.node i).currentTerm = 1 → i = "a" := by
  obtain ⟨past, σ, run, check⟩ := Run.of_actions trio rivals
    (fun _ σ => decide ((σ.node "a").role = .leader ∧ (σ.node "a").currentTerm = 1))
    (by decide +kernel)
  obtain ⟨leads, term⟩ := of_decide_eq_true check
  exact ⟨past, σ, run, leads, term, fun u hu i hi leads' term' =>
    election_safety trio_fixed run hu (Transition.mem_visited_self past σ) hi (by decide) leads'
      leads (term'.trans term.symm)⟩

/-- Two logs with entries of one term at one index are the same up to there. -/
theorem log_matching (fixed : Fixed S) (run : Run S past σ) {i j : String} (hi : i ∈ S.ids)
    (hj : j ∈ S.ids) {k : Nat} {d e : Entry} (hd : (σ.node i).log[k]? = some d)
    (he : (σ.node j).log[k]? = some e) (same : d.term = e.term) :
    ∀ m ≤ k, (σ.node i).log[m]? = (σ.node j).log[m]? := by
  obtain ⟨g, reach, refines⟩ := Refinement.refines_any fixed run
  have hmatch := Consensus.matched_reachable Refinement.zero_sentinel reach
  rw [(refines.nodes i hi).log] at hd ⊢
  rw [(refines.nodes j hj).log] at he ⊢
  have common := (hmatch.log_traced i).matching (hmatch.log_traced j) hd he same
  intro m hm
  rw [← List.getElem?_take_of_lt (Nat.lt_succ_of_le hm), common,
    List.getElem?_take_of_lt (Nat.lt_succ_of_le hm)]

theorem log_matching_commit :
    ∃ past σ, Run trio past σ ∧ (σ.node "b").log.length = 2 ∧
      ∀ m ≤ 1, (σ.node "a").log[m]? = (σ.node "b").log[m]? := by
  let e : Entry := { term := 1, index := 1, command := { type := .noop } }
  obtain ⟨past, σ, run, check⟩ := Run.of_actions trio (commitA { type := .noop })
    (fun _ σ => decide ((σ.node "b").log.length = 2 ∧ (σ.node "a").log[1]? = some e ∧
      (σ.node "b").log[1]? = some e)) (by decide +kernel)
  obtain ⟨length, ha, hb⟩ := of_decide_eq_true check
  exact ⟨past, σ, run, length, log_matching trio_fixed run (by decide) (by decide) ha hb rfl⟩

section Quorums

theorem leader_quorum (fixed : Fixed S) (run : Run S past σ) {i : String} (hi : i ∈ S.ids)
    (leads : (σ.node i).role = .leader) :
    ∃ Q, Quorum.Majority S.ids.toFinset Q ∧ ∀ x ∈ Q, ∃ u ∈ visited past σ,
      (u.node x).VotedFor (σ.node i).currentTerm i := by
  obtain ⟨g, reach, refines⟩ := Refinement.refines_any fixed run
  have leader := refines.leaders σ (Transition.mem_visited_self past σ) i hi leads
  obtain ⟨Q, majority, backing⟩ := (Consensus.elected_reachable reach).backed _ _ leader
  refine ⟨Q, majority, fun x hx => ?_⟩
  obtain ⟨_, ⟨l, cast⟩, _⟩ := backing x hx
  obtain ⟨u, hu, term, vote⟩ := refines.ballots _ cast
  exact ⟨u, hu, term, vote, fixed.consistent.ids_ne i hi⟩

theorem commit_quorum (fixed : Fixed S) (two : 2 ≤ S.ids.length) (run : Run S past σ)
    {a : Action} {σ' : Sys} (step : exec S σ a = .ok σ') {i : String} (hi : i ∈ S.ids)
    (leads : (σ'.node i).role = .leader) {k : Nat} (older : (σ.node i).commitIndex < k)
    (newer : k ≤ (σ'.node i).commitIndex) :
    ∃ Q, Quorum.Majority S.ids.toFinset Q ∧ ∀ x ∈ Q, ∃ u ∈ visited ((σ, a) :: past) σ', ∃ e,
      (u.node x).log[k]? = some e ∧ (σ'.node i).log[k]? = some e := by
  obtain ⟨g, reach, refines⟩ := Refinement.refines_any fixed run
  obtain ⟨g', _, _, refines'⟩ :=
    Refinement.refines_step fixed reach refines (fun _ _ _ _ => trivial) step
  have node' := refines'.nodes i hi
  have advance : (σ'.node i).Advance (σ'.node i).commitIndex := by
    obtain ⟨m, o, hh, now⟩ : ∃ m o, Handles S.membership (σ.procs i) m o ∧
        σ'.node i = o.proc.node := by
      rcases exec_proc step i with same | ⟨m, o, _, hh, now⟩
      · have same : σ'.node i = σ.node i := congrArg Proc.node same
        rw [same] at newer
        omega
      · exact ⟨m, o, hh, congrArg Proc.node now⟩
    rw [now] at leads newer ⊢
    cases hh.commits with
    | longer log commit =>
        change (σ.procs i).node.commitIndex < k at older
        omega
    | alone none =>
        have single := (refines.setting fixed reach hi).alone none
        obtain ⟨r, hr⟩ := fixed.odd
        simp only [Refinement.majority] at single
        omega
    | stores call received accepts term follows log commit =>
        exact absurd (follows.symm.trans leads) (by simp)
    | advances leads log newer advance => exact advance
  obtain ⟨Q, majority, stored⟩ := node'.quorum fixed hi leads (by omega) advance
  refine ⟨Q, majority, fun x hx => ?_⟩
  obtain ⟨u, hu, e, he, hlead⟩ := refines'.acks x _ k (newer.trans_lt (stored x hx))
  rw [(node'.leads leads).2.1] at hlead
  exact ⟨u, hu, e, he, hlead⟩

/-- In a deployment of an odd number of nodes, more than half of the nodes have voted
for a leader in its term, and more than half have stored the leader's entry at every
index it commits. -/
theorem strict_majority_quorums (fixed : Fixed S) (two : 2 ≤ S.ids.length)
    (run : Run S past σ) :
    (∀ i ∈ S.ids, (σ.node i).role = .leader →
      ∃ Q, Quorum.Majority S.ids.toFinset Q ∧ ∀ x ∈ Q, ∃ u ∈ visited past σ,
        (u.node x).VotedFor (σ.node i).currentTerm i) ∧
    (∀ a σ', exec S σ a = .ok σ' → ∀ i ∈ S.ids, (σ'.node i).role = .leader →
      ∀ k, (σ.node i).commitIndex < k → k ≤ (σ'.node i).commitIndex →
        ∃ Q, Quorum.Majority S.ids.toFinset Q ∧ ∀ x ∈ Q,
          ∃ u ∈ visited ((σ, a) :: past) σ', ∃ e,
            (u.node x).log[k]? = some e ∧ (σ'.node i).log[k]? = some e) :=
  ⟨fun _ hi leads => leader_quorum fixed run hi leads,
    fun _ _ step _ hi leads _ older newer => commit_quorum fixed two run step hi leads older newer⟩

/-- The step in which a commits the command that b has stored. -/
theorem strict_majority_quorums_commit :
    ∃ past σ σ', Run trio past σ ∧ exec trio σ (.deliver 4) = .ok σ' ∧
      (σ'.node "a").commitIndex = 1 ∧
      (∃ Q, Quorum.Majority trio.ids.toFinset Q ∧ ∀ x ∈ Q, ∃ u ∈ visited past σ,
        (u.node x).VotedFor (σ.node "a").currentTerm "a") ∧
      ∃ Q, Quorum.Majority trio.ids.toFinset Q ∧ ∀ x ∈ Q,
        ∃ u ∈ visited ((σ, .deliver 4) :: past) σ', ∃ e,
          (u.node x).log[1]? = some e ∧ (σ'.node "a").log[1]? = some e := by
  obtain ⟨past, σ, run, check⟩ := Run.of_actions trio
    (electA ++ [.propose "a" { type := .noop }, .deliver 4])
    (fun _ σ => decide ((σ.node "a").role = .leader ∧ (σ.node "a").commitIndex = 0) &&
      (exec trio σ (.deliver 4)).toOption.any fun σ' : Sys =>
        decide ((σ'.node "a").role = .leader ∧ (σ'.node "a").commitIndex = 1))
    (by decide +kernel)
  obtain ⟨before, after⟩ := (Bool.and_eq_true_iff ..).mp check
  obtain ⟨leads, older⟩ := of_decide_eq_true before
  obtain ⟨votes, copies⟩ := strict_majority_quorums trio_fixed (by decide) run
  cases step : exec trio σ (.deliver 4) with
  | error e => simp [step, Except.toOption] at after
  | ok σ' =>
      rw [step] at after
      obtain ⟨leads', newer⟩ := of_decide_eq_true after
      exact ⟨past, σ, σ', run, step, newer, votes "a" (by decide) leads,
        copies _ _ step "a" (by decide) leads' 1 (by omega) (by omega)⟩

/-- Four nodes, each with the other three as its peers. -/
def quartet : Setup where
  members := ⟨"d", "d:1"⟩ :: trio.members
  peerNodes i := (⟨"d", "d:1"⟩ :: trio.members).filter fun m => m.id ≠ i
  ringCfg := trio.ringCfg
  membership := false

theorem quartet_consistent : quartet.Consistent where
  ids_nodup := by decide
  ids_ne := by decide
  addrs_nodup := by decide
  peers i _ m := by simp [quartet]

/-- Of four nodes two are enough to elect a leader and to commit. -/
theorem strict_majority_quorums_quartet :
    quartet.Consistent ∧ ∃ past σ, Run quartet past σ ∧
      (σ.node "a").role = .leader ∧ (σ.node "a").currentTerm = 1 ∧
      (σ.node "a").commitIndex = 1 ∧
      2 * (quartet.ids.filter fun x =>
        ∃ u ∈ visited past σ, (u.node x).VotedFor 1 "a").length = quartet.ids.length ∧
      2 * (quartet.ids.filter fun x =>
        ∃ u ∈ visited past σ, (u.node x).log[1]? ≠ none).length = quartet.ids.length := by
  obtain ⟨past, σ, run, check⟩ := Run.of_actions quartet
    [.timeout "a", .deliver 1, .deliver 2, .resume "a" 0, .resume "a" 0,
      .propose "a" { type := .noop }, .deliver 6, .deliver 7]
    (fun past σ => decide ((σ.node "a").role = .leader ∧ (σ.node "a").currentTerm = 1 ∧
      (σ.node "a").commitIndex = 1 ∧
      2 * (quartet.ids.filter fun x =>
        ∃ u ∈ visited past σ, (u.node x).VotedFor 1 "a").length = quartet.ids.length ∧
      2 * (quartet.ids.filter fun x =>
        ∃ u ∈ visited past σ, (u.node x).log[1]? ≠ none).length = quartet.ids.length))
    (by decide +kernel)
  exact ⟨quartet_consistent, past, σ, run, of_decide_eq_true check⟩

end Quorums

end DistributedCache.Raft
