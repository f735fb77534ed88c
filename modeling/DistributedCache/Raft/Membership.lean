import DistributedCache.Lib.Quorum
import DistributedCache.Raft.Consistent
import DistributedCache.Raft.Frames

/-!
Which sets of voters can elect a node while members come and go. A node counts
votes against its own peers map, and that map changes when the node applies the
entry. As long as the voters of every node stay the ones it was started with, any
two sufficient sets meet, because the number of members is odd. One `AddPeer` or
`RemovePeer` that changes them at a single node is enough to end that.
-/
namespace DistributedCache.Raft

open Transition (Meets)

namespace Node

/-- The node itself and its peers. -/
def voters (n : Node) : Finset String :=
  insert n.id n.peers.keys.toFinset

/-- The voters in `Q` suffice to elect the node. -/
def Elects (n : Node) (Q : Finset String) : Prop :=
  Q ⊆ n.voters ∧ n.peers.keys.length / 2 + 1 ≤ Q.card

instance (n : Node) (Q : Finset String) : Decidable (n.Elects Q) :=
  inferInstanceAs (Decidable (_ ∧ _))

theorem voters_insert {n : Node} {id : String} (addr : String) (h : id ∈ n.voters) :
    insert n.id (n.peers.insert id addr).keys.toFinset = n.voters := by
  ext x
  have := fun (hx : x = id) => hx ▸ h
  simp only [voters, Finset.mem_insert, List.mem_toFinset, ← AList.mem_keys,
    AList.mem_insert] at this ⊢
  tauto

theorem voters_erase {n : Node} {id : String} (h : id ∉ n.peers.keys) :
    insert n.id (n.peers.erase id).keys.toFinset = n.voters := by
  ext x
  have := fun (hx : x = id) => hx ▸ h
  simp only [voters, Finset.mem_insert, List.mem_toFinset, ← AList.mem_keys,
    AList.mem_erase] at this ⊢
  tauto

end Node

/-- A goroutine that is about to change the peers of its node adds a member that is
already there, or removes one that is not. -/
def Task.KeepsVoters (n : Node) : Task → Prop
  | .applying d .addPeer _ => d.entry.command.nodeID ∈ n.voters
  | .applying d .removePeer _ => d.entry.command.nodeID ∉ n.peers.keys
  | _ => True

instance (n : Node) : (task : Task) → Decidable (task.KeepsVoters n)
  | .applying d .addPeer _ => inferInstanceAs (Decidable (d.entry.command.nodeID ∈ n.voters))
  | .applying d .removePeer _ =>
      inferInstanceAs (Decidable (d.entry.command.nodeID ∉ n.peers.keys))
  | .applying _ .pending _ | .applying _ .running _ | .applying _ .replicate _
  | .applying _ .returned _ | .electing _ | .counting _ _ | .winning _ => .isTrue trivial

/-- The goroutine that a step resumes, and the node it belongs to. -/
def resumed (σ : Sys) : Action → Option (String × Task)
  | .resume i k => (σ.procs i).tasks[k]?.map fun task => (i, task)
  | _ => none

/-- The step leaves the voters of every node as they are. -/
def KeepsVoters (σ : Sys) (a : Action) : Prop :=
  ∀ r ∈ resumed σ a, r.2.KeepsVoters (σ.node r.1)

instance (σ : Sys) (a : Action) : Decidable (KeepsVoters σ a) :=
  inferInstanceAs (Decidable (∀ r ∈ resumed σ a, _))

section Step

variable {membership : Bool} {p : Proc} {m : Input} {o : Out}

/-- The id and the peers of a node are the ones it had. -/
def Node.SameRoster (n n' : Node) : Prop :=
  n'.id = n.id ∧ n'.peers = n.peers

theorem Node.Still.roster {n n' : Node} (h : n.Still n') : n.SameRoster n' :=
  ⟨h.id, h.peers⟩

theorem Proc.roster_of_applyCommitted {c : Cont} (h : p.applyCommitted c = .ok o) :
    p.node.SameRoster o.proc.node := by
  obtain ⟨next, applied, node⟩ := Proc.applyCommitted_node h
  rw [node]
  exact ⟨rfl, rfl⟩

theorem Node.roster_of_handleAppendEntries {n n' : Node} {req : AppendEntriesRequest}
    {status : AppendStatus} (h : n.handleAppendEntries req = .ok (n', status)) :
    n.SameRoster n' := by
  have observed := (Still.of_observeLeader n req).roster
  rcases handleAppendEntries_ok h with ⟨_, rfl, _⟩ | ⟨_, rfl, _⟩ | ⟨_, rfl, _⟩ | ⟨_, _, _, rfl⟩
  · exact ⟨rfl, rfl⟩
  · exact observed
  · exact observed
  · exact observed

theorem Node.SameRoster.trans {n n' n'' : Node} (h : n.SameRoster n') (h' : n'.SameRoster n'') :
    n.SameRoster n'' :=
  ⟨h'.1.trans h.1, h'.2.trans h.2⟩

/-- Only the sections of `AddPeer` and `RemovePeer` change the peers. -/
theorem Handles.roster (h : Handles membership p m o) :
    p.node.SameRoster o.proc.node ∨ (o.proc.node.id = p.node.id ∧ ∃ i k d c,
      m = .act (.resume i k) ∧
      ((p.tasks[k]? = some (.applying d .addPeer c) ∧ o.proc.node.peers =
        p.node.peers.insert d.entry.command.nodeID d.entry.command.addr) ∨
      (p.tasks[k]? = some (.applying d .removePeer c) ∧ o.proc.node.peers =
        p.node.peers.erase d.entry.command.nodeID))) := by
  cases h with
  | standAlone n el idle h alone => exact .inl (Node.Still.of_startElectionLocked h).roster
  | stand n el idle h peers => exact .inl (Node.Still.of_startElectionLocked h).roster
  | heartbeat n calls leads h => exact .inl (Node.Still.of_replicateLocked h).roster
  | proposeAlone cmd o leads alone h =>
      obtain ⟨id, peers⟩ := Proc.roster_of_applyCommitted h
      exact .inl ⟨id, peers⟩
  | propose cmd n calls leads peers h => exact .inl (Node.Still.of_replicateLocked h).roster
  | vote call n resp h => exact .inl (Node.Still.of_handleRequestVote h).roster
  | rejected call n h => exact .inl (Node.roster_of_handleAppendEntries h)
  | stored call n h => exact .inl (Node.roster_of_handleAppendEntries h)
  | committed call n o h apply =>
      exact .inl ((Node.roster_of_handleAppendEntries h).trans
        (Proc.roster_of_applyCommitted apply))
  | answered call resp n calls h => exact .inl (Node.Still.of_handleAppendResponse h).roster
  | acknowledged call resp n o h apply =>
      exact .inl ((Node.Still.of_handleAppendResponse h).roster.trans
        (Proc.roster_of_applyCommitted apply))
  | win k term n calls task h => exact .inl (Node.Still.of_winElection h).roster
  | run k d c task =>
      rw [Proc.toPhase, Proc.afterCallback_node]
      exact .inl ⟨rfl, rfl⟩
  | addPeer k d c task =>
      refine .inr ⟨(Node.Aside.of_addPeer _ _ _).id, _, k, d, c, rfl, .inl ⟨task, ?_⟩⟩
      simp only [Proc.toPhase, Node.addPeer]
      split <;> rfl
  | replicate k d c n calls task h => exact .inl (Node.Still.of_replicateLocked h).roster
  | removePeer k d c task => exact .inr ⟨rfl, _, k, d, c, rfl, .inr ⟨task, rfl⟩⟩
  | finish k d c o task h =>
      refine .inl (Node.SameRoster.trans ?_ (Proc.roster_of_applyCommitted h))
      simp only [Proc.finished, Node.finishApply]
      split <;> exact ⟨rfl, rfl⟩
  | _ => exact .inl ⟨rfl, rfl⟩

theorem Handles.voters_eq (h : Handles membership p m o)
    (keeps : ∀ i k task, m = .act (.resume i k) → p.tasks[k]? = some task →
      task.KeepsVoters p.node) : o.proc.node.voters = p.node.voters := by
  rcases h.roster with ⟨id, peers⟩ | ⟨id, i, k, d, c, rfl, ⟨task, peers⟩ | ⟨task, peers⟩⟩
  · rw [Node.voters, id, peers, Node.voters]
  · rw [Node.voters, id, peers]
    exact Node.voters_insert _ (keeps i k _ rfl task)
  · rw [Node.voters, id, peers]
    exact Node.voters_erase (keeps i k _ rfl task)

theorem exec_voters_eq {S : Setup} {σ σ' : Sys} {a : Action} (h : exec S σ a = .ok σ')
    (keeps : KeepsVoters σ a) (i : String) : (σ'.node i).voters = (σ.node i).voters := by
  rcases exec_proc h i with same | ⟨m, o, feeds, hh, now⟩
  · rw [Sys.node, same, Sys.node]
  · rw [Sys.node, now]
    refine hh.voters_eq ?_
    rintro j k task rfl htask
    obtain ⟨rfl, ha, _⟩ := feeds
    obtain rfl := Option.some.inj ha
    exact keeps (j, task) (by simp [resumed, htask])

end Step

section Runs

variable {S : Setup}

theorem Setup.Consistent.voters_start (consistent : S.Consistent) {i : String} (hi : i ∈ S.ids) :
    (S.start.node i).voters = S.ids.toFinset := by
  rw [S.start_node]
  change insert i (S.peerMap i).keys.toFinset = S.ids.toFinset
  rw [consistent.keys_toFinset hi, Finset.insert_erase (List.mem_toFinset.mpr hi)]

/-- What suffices to elect a node whose voters are all members is a majority of them.
The node may or may not be among its own peers: both round to the same threshold. -/
theorem Node.Elects.majority {n : Node} {Q members : Finset String} (h : n.Elects Q)
    (voters : n.voters = members) (odd : Odd members.card) : Quorum.Majority members Q := by
  refine .of_threshold odd (voters ▸ h.1) ?_
  have few : members.card ≤ n.peers.keys.length + 1 := by
    rw [← voters]
    exact (Finset.card_insert_le _ _).trans (Nat.succ_le_succ (List.toFinset_card_le _))
  have := h.2
  omega

/-- In every run in which no node changes its voters, any voters that suffice to elect
one node share a member with any that suffice to elect another. -/
theorem electing_sets_meet (consistent : S.Consistent) (odd : Odd S.ids.length)
    {past : List (Sys × Action)} {σ : Sys} (run : Run S past σ) (meets : Meets KeepsVoters past)
    {i j : String} (hi : i ∈ S.ids) (hj : j ∈ S.ids) {Q R : Finset String}
    (hQ : (σ.node i).Elects Q) (hR : (σ.node j).Elects R) : ∃ x ∈ Q, x ∈ R := by
  have voters {i : String} (hi : i ∈ S.ids) : (σ.node i).voters = S.ids.toFinset := by
    refine Transition.Run.invariant (I := fun σ => (σ.node i).voters = S.ids.toFinset)
      ?_ ?_ run meets
    · rintro _ rfl
      exact consistent.voters_start hi
    · intro σ a σ' before keeps step
      exact (exec_voters_eq step keeps i).trans before
  have odd : Odd S.ids.toFinset.card := consistent.card_ids.symm ▸ odd
  exact (hQ.majority (voters hi) odd).meet (hR.majority (voters hj) odd)

/-- Three nodes with the callback of `cmd/node`. -/
def changingTrio : Setup :=
  { trio with membership := true }

theorem changingTrio_consistent : changingTrio.Consistent :=
  ⟨trio_consistent.ids_nodup, trio_consistent.ids_ne, trio_consistent.addrs_nodup,
    trio_consistent.peers⟩

/-- The leader a applies its own removal, which takes it off its ring only. -/
theorem electing_sets_meet_leave :
    ∃ past σ, Run changingTrio past σ ∧ "a" ∉ (σ.procs "a").ring.nodes ∧
      (σ.node "a").Elects {"a", "b"} ∧
      ∀ R, (σ.node "c").Elects R → ∃ x ∈ ({"a", "b"} : Finset String), x ∈ R := by
  obtain ⟨past, σ, run, check⟩ := Run.of_actions changingTrio
    (commitA { type := .removeMember, nodeID := "a" })
    (fun past σ => decide (Meets KeepsVoters past ∧ "a" ∉ (σ.procs "a").ring.nodes ∧
      (σ.node "a").Elects {"a", "b"})) (by decide +kernel)
  obtain ⟨meets, left, elects⟩ := of_decide_eq_true check
  exact ⟨past, σ, run, left, elects, fun R hR =>
    electing_sets_meet changingTrio_consistent (by decide) run meets (by decide) (by decide)
      elects hR⟩

/-- After a has applied the addition of d, it can be elected by a and d, while b, which
has not, can be elected by b and c. -/
theorem electing_sets_meet_join :
    ∃ past σ, Run changingTrio past σ ∧ (σ.node "a").Elects {"a", "d"} ∧
      (σ.node "b").Elects {"b", "c"} ∧ Disjoint ({"a", "d"} : Finset String) {"b", "c"} := by
  obtain ⟨past, σ, run, check⟩ := Run.of_actions changingTrio (commitA (join "d" "d:1"))
    (fun _ σ => decide ((σ.node "a").Elects {"a", "d"} ∧ (σ.node "b").Elects {"b", "c"}))
    (by decide +kernel)
  obtain ⟨elects, elects'⟩ := of_decide_eq_true check
  exact ⟨past, σ, run, elects, elects', by decide⟩

end Runs

end DistributedCache.Raft
