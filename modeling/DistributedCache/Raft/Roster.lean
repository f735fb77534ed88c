import DistributedCache.Raft.Membership

/-!
The two places where a node of `cmd/node` keeps its members: the ring, which has the
node itself, and the peers map of Raft, which does not. Both change in the apply
callback, and they stay in step as long as the node does not come back to its own ring:
a node that has left and joins again becomes a peer of itself.
-/
namespace DistributedCache.Raft

open Cluster (newCluster)

namespace Proc

/-- The whole callback of `cmd/node`, with no other section of the node in between. -/
def apply (p : Proc) (cmd : Command) : Go (Proc × List (Call AppendEntriesRequest)) :=
  match p.callback cmd with
  | (p, .addPeer) =>
      let (n, replicate) := p.node.addPeer cmd.nodeID cmd.addr
      if replicate then do
        let (n, calls) ← n.replicateLocked
        pure ({ p with node := n }, calls)
      else pure ({ p with node := n }, [])
  | (p, .removePeer) => pure ({ p with node := p.node.removePeer cmd.nodeID }, [])
  | (p, _) => pure (p, [])

/-- What a callback can do to the ring and to the peers. -/
inductive Applied (p : Proc) (cmd : Command) (p' : Proc) : Prop
  | added (type : cmd.type = .addMember)
      (ring : p.ring.addNode ⟨cmd.nodeID, cmd.addr⟩ = .ok p'.ring)
      (id : p'.node.id = p.node.id)
      (peers : p'.node.peers = p.node.peers.insert cmd.nodeID cmd.addr)
  | removed (type : cmd.type = .removeMember)
      (ring : p.ring.removeNode cmd.nodeID = .ok p'.ring)
      (id : p'.node.id = p.node.id)
      (peers : p'.node.peers = p.node.peers.erase cmd.nodeID)
  | left (adds : cmd.type = .addMember → ∃ err,
        p.ring.addNode ⟨cmd.nodeID, cmd.addr⟩ = .error err)
      (removes : cmd.type = .removeMember → ∃ err, p.ring.removeNode cmd.nodeID = .error err)
      (same : p' = p)

variable {p p' : Proc} {cmd : Command} {calls : List (Call AppendEntriesRequest)}

theorem applied_of_apply (h : p.apply cmd = .ok (p', calls)) : p.Applied cmd p' := by
  unfold apply callback at h
  cases type : cmd.type with
  | noop | other =>
      rw [type] at h
      cases h
      exact .left (by simp [type]) (by simp [type]) rfl
  | addMember =>
      rw [type] at h
      dsimp only at h
      cases ring : p.ring.addNode ⟨cmd.nodeID, cmd.addr⟩ with
      | error err =>
          rw [ring] at h
          cases h
          exact .left (fun _ => ⟨err, ring⟩) (by simp [type]) rfl
      | ok r =>
          rw [ring] at h
          dsimp only at h
          have aside := Node.Aside.of_addPeer p.node cmd.nodeID cmd.addr
          have peers : (p.node.addPeer cmd.nodeID cmd.addr).1.peers =
              p.node.peers.insert cmd.nodeID cmd.addr := by
            unfold Node.addPeer
            dsimp only
            split <;> rfl
          split at h
          · obtain ⟨⟨n, sent⟩, replicated, rest⟩ := Go.bind_eq_ok.mp h
            cases rest
            have still := Node.Still.of_replicateLocked replicated
            exact .added type ring (still.id.trans aside.id) (still.peers.trans peers)
          · cases h
            exact .added type ring aside.id peers
  | removeMember =>
      rw [type] at h
      dsimp only at h
      cases ring : p.ring.removeNode cmd.nodeID with
      | error err =>
          rw [ring] at h
          cases h
          exact .left (by simp [type]) (fun _ => ⟨err, ring⟩) rfl
      | ok r =>
          rw [ring] at h
          cases h
          exact .removed type ring rfl rfl

/-- The peers of Raft are the members of the ring without the node itself. -/
def InStep (p : Proc) : Prop :=
  p.node.peers.keys.toFinset = p.ring.nodes.keys.toFinset.erase p.node.id

/-- The entry does not bring the node itself onto its ring. -/
def AddsOthers (p : Proc) (cmd : Command) : Prop :=
  cmd.type = .addMember → cmd.nodeID ≠ "" → cmd.addr ≠ "" → cmd.nodeID ∉ p.ring.nodes →
    cmd.nodeID ≠ p.node.id

theorem inStep_iff : p.InStep ↔ ∀ id, id ∈ p.node.peers ↔ id ∈ p.ring.nodes ∧ id ≠ p.node.id := by
  unfold InStep
  rw [Finset.ext_iff]
  refine forall_congr' fun id => ?_
  rw [List.mem_toFinset, Finset.mem_erase, List.mem_toFinset, ← AList.mem_keys, ← AList.mem_keys,
    and_comm (a := id ≠ p.node.id)]

theorem Applied.inStep_iff (h : p.Applied cmd p') (before : p.InStep) :
    p'.InStep ↔ p.AddsOthers cmd := by
  rw [Proc.inStep_iff] at before
  cases h with
  | added type ring id peers =>
      obtain ⟨some, address, fresh, ring⟩ := Cluster.Ring.addNode_eq_ok.mp ring
      have other : p.AddsOthers cmd ↔ cmd.nodeID ≠ p.node.id :=
        ⟨fun h => h type some address fresh, fun h _ _ _ _ => h⟩
      rw [Proc.inStep_iff, other, id, peers, ring]
      simp only [AList.mem_insert, before]
      grind
  | removed type ring id peers =>
      obtain ⟨_, ring⟩ := Cluster.Ring.removeNode_eq_ok.mp ring
      have other : p.AddsOthers cmd := fun add => by simp [type] at add
      refine iff_of_true (Proc.inStep_iff.mpr ?_) other
      intro x
      rw [id, peers, ring]
      change x ∈ p.node.peers.erase cmd.nodeID ↔ x ∈ p.ring.nodes.erase cmd.nodeID ∧ _
      rw [AList.mem_erase, AList.mem_erase, before, and_assoc]
  | left adds removes same =>
      refine iff_of_true (same ▸ Proc.inStep_iff.mpr before) ?_
      intro add some address fresh
      obtain ⟨err, refused⟩ := adds add
      have joined : p.ring.addNode ⟨cmd.nodeID, cmd.addr⟩ = .ok _ :=
        Cluster.Ring.addNode_eq_ok.mpr ⟨some, address, fresh, rfl⟩
      rw [joined] at refused
      cases refused

end Proc

/-- A node of `cmd/node` under entries that its callback applies one after another. In
between, other sections of the node may run: they leave its id and its peers alone. -/
def rosterSystem (S : Setup) (self : Cluster.Node) : Transition.System Proc Command where
  init p := p = S.startProc self ∧ ∃ r, newCluster self (S.peerNodes self.id) S.ringCfg = .ok r
  step p cmd p' := ∃ n calls, p.node.SameRoster n ∧
    { p with node := n }.apply cmd = .ok (p', calls)

abbrev RosterRun (S : Setup) (self : Cluster.Node) (past : List (Proc × Command)) (p : Proc) :
    Prop :=
  Transition.Run (rosterSystem S self) past p

section Runs

variable {S : Setup} {self : Cluster.Node} {past : List (Proc × Command)} {p p' : Proc}
  {cmd : Command}

/-- The ring that a node is started with has the node and its peers, and nobody else. -/
theorem mem_newCluster {peers : List Cluster.Node} {cfg : Cluster.RingConfig} {r : Cluster.Ring}
    (h : newCluster self peers cfg = .ok r) :
    self.id ∉ peers.map Cluster.Node.id ∧
      ∀ id, id ∈ r.nodes ↔ id = self.id ∨ id ∈ peers.map Cluster.Node.id := by
  obtain ⟨first, joined, added⟩ := Cluster.newCluster_eq_ok.mp h
  obtain ⟨_, _, _, rfl⟩ := Cluster.Ring.addNode_eq_ok.mp joined
  refine Cluster.Ring.addPeers_induct (P := fun before r =>
    self.id ∉ before.map Cluster.Node.id ∧
      ∀ id, id ∈ r.nodes ↔ id = self.id ∨ id ∈ before.map Cluster.Node.id) ?_ ?_ added
  · refine ⟨List.not_mem_nil, fun id => ?_⟩
    change id ∈ AList.insert self.id self ∅ ↔ _
    rw [AList.mem_insert]
    simp
  · intro before r peer r' kept _ other joined
    obtain ⟨_, _, _, rfl⟩ := Cluster.Ring.addNode_eq_ok.mp joined
    refine ⟨?_, fun id => ?_⟩
    · simpa using ⟨by simpa using kept.1, other.symm⟩
    · rw [AList.mem_insert, kept.2, List.map_append, List.mem_append, List.map_singleton,
        List.mem_singleton]
      tauto

theorem inStep_startProc (started : ∃ r, newCluster self (S.peerNodes self.id) S.ringCfg = .ok r) :
    (S.startProc self).InStep := by
  obtain ⟨r, ring⟩ := started
  obtain ⟨fresh, members⟩ := mem_newCluster ring
  have same : (S.startProc self).ring = r := by
    simp only [Setup.startProc, ring]
  rw [Proc.inStep_iff, same]
  intro id
  change id ∈ S.peerMap self.id ↔ id ∈ r.nodes ∧ id ≠ self.id
  rw [Setup.peerMap, GoMap.mem_ofList, members, List.map_map]
  change id ∈ (S.peerNodes self.id).map Cluster.Node.id ↔ _
  grind

/-- After every entry the peers of Raft are the members of the ring without the node
itself, exactly in the runs in which no entry brings the node itself onto its ring. -/
theorem peers_in_step (run : RosterRun S self past p) :
    (∀ q ∈ Transition.visited past p, q.InStep) ↔ Transition.Meets Proc.AddsOthers past := by
  refine Transition.Run.visited_iff_meets ?_ ?_ run
  · intro p initial
    exact initial.1 ▸ inStep_startProc initial.2
  · intro p cmd p' before step
    obtain ⟨n, calls, roster, applied⟩ := step
    have same : ({ p with node := n } : Proc).InStep := by
      unfold Proc.InStep at before ⊢
      rw [roster.1, roster.2]
      exact before
    have after := (Proc.applied_of_apply applied).inStep_iff same
    unfold Proc.AddsOthers at after ⊢
    rw [← roster.1]
    exact after

end Runs

/-- Two nodes, each with one virtual node. -/
def couple : Setup where
  members := [⟨"a", "a:1"⟩, ⟨"b", "b:1"⟩]
  peerNodes i := if i = "a" then [⟨"b", "b:1"⟩] else [⟨"a", "a:1"⟩]
  ringCfg := ⟨1, fun key => if key = "a#0" then 1 else if key = "b#0" then 2 else 3⟩
  membership := true

/-- The node `a` loses its peer and gets another one. -/
theorem peers_in_step_couple : ∃ past p, RosterRun couple ⟨"a", "a:1"⟩ past p ∧
    past.map Prod.snd = [{ type := .addMember, nodeID := "c", addr := "c:1" },
      { type := .removeMember, nodeID := "b" }] ∧
    ∀ q ∈ Transition.visited past p, q.InStep := by
  have started : RosterRun couple ⟨"a", "a:1"⟩ [] (couple.startProc ⟨"a", "a:1"⟩) :=
    .start ⟨rfl, _, rfl⟩
  have run := (started.next (a := { type := .removeMember, nodeID := "b" })
    ⟨_, _, ⟨rfl, rfl⟩, rfl⟩).next (a := { type := .addMember, nodeID := "c", addr := "c:1" })
    ⟨_, _, ⟨rfl, rfl⟩, rfl⟩
  refine ⟨_, _, run, rfl, (peers_in_step run).mpr ?_⟩
  intro step mem
  simp only [List.mem_cons, List.not_mem_nil, or_false] at mem
  obtain rfl | rfl := mem
  · exact fun _ _ _ _ => by decide
  · exact fun type => absurd type (by decide)

/-- The node `a` leaves and joins again: it is a peer of itself. -/
theorem peers_out_of_step : ∃ past p, RosterRun couple ⟨"a", "a:1"⟩ past p ∧
    past.map Prod.snd = [{ type := .addMember, nodeID := "a", addr := "a:1" },
      { type := .removeMember, nodeID := "a" }] ∧
    p.node.peers.keys = ["a", "b"] ∧ p.node.id = "a" ∧ ¬ p.InStep := by
  have started : RosterRun couple ⟨"a", "a:1"⟩ [] (couple.startProc ⟨"a", "a:1"⟩) :=
    .start ⟨rfl, _, rfl⟩
  have run := (started.next (a := { type := .removeMember, nodeID := "a" })
    ⟨_, _, ⟨rfl, rfl⟩, rfl⟩).next (a := { type := .addMember, nodeID := "a", addr := "a:1" })
    ⟨_, _, ⟨rfl, rfl⟩, rfl⟩
  refine ⟨_, _, run, rfl, rfl, rfl, ?_⟩
  unfold Proc.InStep
  decide

end DistributedCache.Raft
