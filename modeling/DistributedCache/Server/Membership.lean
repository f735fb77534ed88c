import DistributedCache.Cluster.Removal
import DistributedCache.Server.Dispatch

/-!
The two ways in which a membership request changes the ring. Without Raft the handler
calls the ring and answers with its error. With Raft the same call is made in the apply
callback, which only logs the error, and the client is told `OK`.
-/
namespace DistributedCache

open Cluster (Ring RingOp)

namespace Server

/-- The request that asks for a call on the ring. -/
def serveMembership (s : Server) (out : Outside) : RingOp → Raft.Go (Server × Protocol.Response)
  | .add node => s.dispatchClusterJoin out node.id node.addr
  | .remove nodeID => s.dispatchClusterLeave out nodeID

/-- The command that is proposed for it. -/
def commandFor : RingOp → Raft.Command
  | .add node => { type := .addMember, nodeID := node.id, addr := node.addr }
  | .remove nodeID => { type := .removeMember, nodeID := nodeID }

/-- The ring can do what is asked for. -/
def Takes (r : Ring) : RingOp → Prop
  | .add node => node.id ≠ "" ∧ node.addr ≠ "" ∧ node.id ∉ r.nodes
  | .remove nodeID => nodeID ∈ r.nodes

/-- The members that the server knows. -/
def members (s : Server) : List Cluster.Node :=
  match s.cluster with
  | some v => v.ring.members
  | none => []

variable {s s' : Server} {v : ClusterView} {n : Raft.Node} {out : Outside} {op : RingOp}
  {resp : Protocol.Response} {p p' : Raft.Proc}

/-- The callback leaves the ring that the call leaves. -/
theorem ring_of_applied (h : p.Applied (commandFor op) p') : p'.ring = p.ring.perform op := by
  cases op with
  | add node =>
      change _ = p.ring.join node
      unfold Ring.join
      cases h with
      | added _ ring _ _ =>
          change p.ring.addNode node = _ at ring
          rw [ring]
      | removed type => cases type
      | left adds _ same =>
          obtain ⟨err, refused⟩ := adds rfl
          change p.ring.addNode node = _ at refused
          rw [refused, same]
  | remove nodeID =>
      change _ = p.ring.leave nodeID
      unfold Ring.leave
      cases h with
      | added type => cases type
      | removed _ ring _ _ =>
          change p.ring.removeNode nodeID = _ at ring
          rw [ring]
      | left _ removes same =>
          obtain ⟨err, refused⟩ := removes rfl
          change p.ring.removeNode nodeID = _ at refused
          rw [refused, same]

/-- With Raft a request that has gone through is answered with `OK`. -/
theorem serveMembership_raft (cluster : s.cluster = some v) (raft : s.raft = some n)
    (leads : n.isLeader = true) (applied : out.proposed = .applied)
    (h : s.serveMembership out op = .ok (s', resp)) :
    resp.kind = .ok ∧ s'.members = (v.ring.perform op).members := by
  have same : s.serveMembership out op = s.propose out n (commandFor op) := by
    cases op <;>
      simp only [serveMembership, dispatchClusterJoin, dispatchClusterLeave, cluster, raft,
        commandFor]
  rw [same, propose, if_pos leads, applied] at h
  obtain ⟨after, entry, h⟩ := Raft.Go.bind_eq_ok.mp h
  cases h
  simp only [applyEntry, cluster, raft] at entry
  obtain ⟨⟨p, calls⟩, callback, entry⟩ := Raft.Go.bind_eq_ok.mp entry
  cases entry
  refine ⟨rfl, ?_⟩
  change p.ring.members = _
  rw [ring_of_applied (Raft.Proc.applied_of_apply callback)]

/-- Without Raft the answer says whether the ring has done it. -/
theorem serveMembership_direct (cluster : s.cluster = some v) (raft : s.raft = none)
    (h : s.serveMembership out op = .ok (s', resp)) :
    (resp.kind = .ok ↔ Takes v.ring op) ∧ s'.members = (v.ring.perform op).members := by
  cases op with
  | add node =>
      simp only [serveMembership, dispatchClusterJoin, cluster, raft] at h
      change _ ∧ _ = (v.ring.join node).members
      unfold Ring.join
      cases ring : v.ring.addNode node with
      | ok r =>
          rw [ring] at h
          cases h
          obtain ⟨id, addr, fresh, _⟩ := Ring.addNode_eq_ok.mp ring
          exact ⟨iff_of_true rfl ⟨id, addr, fresh⟩, rfl⟩
      | error err =>
          rw [ring] at h
          cases h
          refine ⟨iff_of_false nofun ?_, by simp only [members, cluster]⟩
          intro takes
          rw [Ring.addNode_eq_ok.mpr ⟨takes.1, takes.2.1, takes.2.2, rfl⟩] at ring
          cases ring
  | remove nodeID =>
      simp only [serveMembership, dispatchClusterLeave, cluster, raft] at h
      change _ ∧ _ = (v.ring.leave nodeID).members
      unfold Ring.leave
      cases ring : v.ring.removeNode nodeID with
      | ok r =>
          rw [ring] at h
          cases h
          exact ⟨iff_of_true rfl (Ring.removeNode_eq_ok.mp ring).1, rfl⟩
      | error err =>
          rw [ring] at h
          cases h
          refine ⟨iff_of_false nofun ?_, by simp only [members, cluster]⟩
          intro takes
          rw [Ring.removeNode_eq_ok.mpr ⟨takes, rfl⟩] at ring
          cases ring

/-- A membership request that goes through Raft in time comes to the same as one without
Raft exactly if the ring can do what is asked for. -/
theorem membership_paths_agree {s₁ s₂ : Server} {resp₁ resp₂ : Protocol.Response}
    (cluster : s.cluster = some v) (raft : s.raft = some n) (leads : n.isLeader = true)
    (applied : out.proposed = .applied)
    (through : s.serveMembership out op = .ok (s₁, resp₁))
    (direct : { s with raft := none }.serveMembership out op = .ok (s₂, resp₂)) :
    (resp₁.kind = resp₂.kind ∧ s₁.members = s₂.members) ↔ Takes v.ring op := by
  obtain ⟨answered, members₁⟩ := serveMembership_raft cluster raft leads applied through
  have cluster : ({ s with raft := none } : Server).cluster = some v := cluster
  obtain ⟨answer, members₂⟩ := serveMembership_direct cluster rfl direct
  rw [answered, members₁, members₂, ← answer, eq_comm, and_iff_left rfl]

/-- A cluster of one node, which is its leader. -/
def soleLeader : Raft.Node :=
  { Raft.newNode "a" "a:1" ∅ with
    role := .leader, currentTerm := 1, votedFor := "a", leaderID := "a" }

def soleServer : Server where
  cluster := some ⟨"a", (Cluster.newRing ⟨1, fun _ => 0⟩).join ⟨"a", "a:1"⟩, none⟩
  raft := some soleLeader
  metrics := false
  store := Cache.newStore 0

theorem membership_paths_agree_join : ∃ s₁ resp₁ s₂ resp₂,
    soleServer.serveMembership quiet (.add ⟨"b", "b:1"⟩) = .ok (s₁, resp₁) ∧
    { soleServer with raft := none }.serveMembership quiet (.add ⟨"b", "b:1"⟩) =
      .ok (s₂, resp₂) ∧
    resp₁.kind = resp₂.kind ∧ s₁.members = s₂.members := by
  obtain ⟨⟨s₁, resp₁⟩, through⟩ :
    ∃ x, soleServer.serveMembership quiet (.add ⟨"b", "b:1"⟩) = .ok x := ⟨_, rfl⟩
  obtain ⟨⟨s₂, resp₂⟩, direct⟩ : ∃ x, { soleServer with raft := none }.serveMembership quiet
    (.add ⟨"b", "b:1"⟩) = .ok x := ⟨_, rfl⟩
  have same := (membership_paths_agree rfl rfl rfl rfl through direct).mpr
    ⟨by decide, by decide, by decide⟩
  exact ⟨s₁, resp₁, s₂, resp₂, through, direct, same⟩

/-- A member joins once more: with Raft the answer is `OK`, without it an error. -/
theorem membership_paths_differ : ∃ s₁ resp₁ s₂ resp₂,
    soleServer.serveMembership quiet (.add ⟨"a", "x:1"⟩) = .ok (s₁, resp₁) ∧
    { soleServer with raft := none }.serveMembership quiet (.add ⟨"a", "x:1"⟩) =
      .ok (s₂, resp₂) ∧
    resp₁.kind = .ok ∧ resp₂.kind = .error ∧
    resp₂.message = GoText.ascii "node already exists: a" :=
  ⟨_, _, _, _, rfl, rfl, rfl, rfl, rfl⟩

end Server

end DistributedCache
