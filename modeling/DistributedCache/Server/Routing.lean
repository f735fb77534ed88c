import DistributedCache.Cluster.Ordering
import DistributedCache.Replication.Calls
import DistributedCache.Server.Dispatch

/-!
Redirects. Writes go to the owner that `Lookup` finds, reads to the nodes that `LookupN`
finds, and a read in primary mode turns to the owner again. Servers that know the same
members agree on all of these, so a client that follows one `MOVED` has arrived.
-/
namespace DistributedCache

open GoText Protocol
open Cluster (Ring RingConfig RingOp RingRun CollisionFree everAdded)

namespace Server

/-- The routing check of a request. -/
def checkRouting (s : Server) (req : Request) : Option Response :=
  if req.command = commandGet then s.checkReadRouting (text req.key)
  else s.checkWriteRouting (text req.key)

/-- The request is answered, and not with `MOVED`. -/
def Answers (s : Server) (out : Outside) (req : Request) : Prop :=
  ∃ s' resp, s.dispatch out req = .ok (s', resp) ∧ resp.kind ≠ .moved

/-- The request passes routing and is not answered with `MOVED`. -/
def Serves (s : Server) (out : Outside) (req : Request) : Prop :=
  s.checkRouting req = none ∧ s.Answers out req

/-- The server has the members `nodes` on its ring, by whatever joins and leaves. -/
structure Sees (s : Server) (v : ClusterView) (cfg : RingConfig) (nodes : GoMap String Cluster.Node)
    (replication : Option Replication.Config) : Prop where
  cluster : s.cluster = some v
  replication : v.replication = replication
  members : ∀ id, v.ring.nodes.lookup id = nodes.lookup id
  built : ∃ past, RingRun cfg past v.ring ∧ CollisionFree cfg (everAdded past)

/-- Servers with the same members, ring configuration and replication settings. Every member
is one of the servers. -/
structure Fleet where
  cfg : RingConfig
  nodes : GoMap String Cluster.Node
  replication : Option Replication.Config
  servers : Set Server
  virtual : 1 ≤ cfg.virtualNodes
  sees : ∀ s ∈ servers, ∃ v, s.Sees v cfg nodes replication
  staffed : ∀ id ∈ nodes, ∃ s ∈ servers, ∃ v, s.cluster = some v ∧ v.selfID = id

section Settle

variable {out : Outside} {w : Replication.Setup} {p : Replication.Proc} {call : Replication.Call}

theorem countAnswers_ne (quorum : Int) (answers : List (Option (List UInt8)))
    (values : GoMap (List UInt8) Nat) (found : Nat) (winner : Option (List UInt8)) :
    Replication.countAnswers quorum answers values found winner ≠ .error .notInReplicaSet := by
  induction answers generalizing values found winner with
  | nil =>
      unfold Replication.countAnswers
      split
      · nofun
      · split <;> nofun
  | cons answer rest ih =>
      cases answer with
      | none => exact ih values found winner
      | some v =>
          unfold Replication.countAnswers
          dsimp only
          split
          · nofun
          · exact ih _ _ _

theorem finish_ne {now : Int} {result : Replication.Result}
    (h : (call.finish w now p).2.phase = .returned result) :
    result ≠ .error .notInReplicaSet := by
  unfold Replication.Call.finish at h
  cases op : call.op with
  | set key value ttl =>
      simp only [op] at h
      split at h
      · cases h
      · cases h
        nofun
  | delete key =>
      simp only [op] at h
      split at h
      · cases h
      · cases h
        nofun
  | read key =>
      simp only [op] at h
      split at h
      · cases h
        exact countAnswers_ne _ _ _ _ _
      · cases h
        nofun

theorem cancel_ne {now : Int} {result : Replication.Result}
    {next : Replication.Proc × Replication.Call} (canceled : call.cancel w now p = some next)
    (h : next.2.phase = .returned result) : result ≠ .error .notInReplicaSet := by
  unfold Replication.Call.cancel at canceled
  split at canceled
  · cases canceled
    cases h
    nofun
  · split at canceled
    · cases canceled
      cases h
      nofun
    · cases canceled
  · cases canceled

/-- Only the first section of a read can find that the key is not for this node. -/
theorem endLoop_ne {result : Replication.Result}
    (h : (out.endLoop w p call).2.phase = .returned result) :
    result ≠ .error .notInReplicaSet := by
  unfold Outside.endLoop at h
  split at h
  · cases h
    nofun
  · split at h
    · cases canceled : call.cancel w out.now p with
      | none =>
          rw [canceled, Option.getD_none] at h
          exact finish_ne h
      | some next =>
          rw [canceled, Option.getD_some] at h
          exact cancel_ne canceled h
    · exact finish_ne h

theorem settle_ne {started : Replication.Proc × Replication.Call}
    (h : ∀ result, started.2.phase = .returned result → result ≠ .error .notInReplicaSet) :
    (out.settle w started).2 ≠ .error .notInReplicaSet := by
  unfold Outside.settle
  split
  · rename_i result phase
    exact h result phase
  · dsimp only
    split
    · rename_i result phase
      exact endLoop_ne phase
    · nofun

end Settle

section Primary

variable {s : Server} {out : Outside} {w : Replication.Setup} {self key : String}
  {p : Replication.Proc} {now : Int}

/-- At the owner of the key a read is not turned away. -/
theorem startRead_ne (primary : w.isPrimary self key = true) {result : Replication.Result}
    (h : (Replication.startRead w self now p key).2.phase = .returned result) :
    result ≠ .error .notInReplicaSet := by
  have member : w.isInReplicaSet self key = true :=
    Replication.Setup.isInReplicaSet_iff.mpr (Replication.Setup.mem_owners_of_isPrimary primary)
  unfold Replication.startRead at h
  rw [if_pos member] at h
  split at h
  · rw [if_pos primary] at h
    cases h
    cases (p.store.get now key).2 <;> nofun
  · split at h
    · cases h
      nofun
    · split at h
      · cases h
        nofun
      · cases h
  · split at h
    · cases h
      nofun
    · cases h

theorem dispatchSet_kind (value : Bytes) (ttl : Int) :
    (s.dispatchSet out key value ttl).2.kind ≠ .moved := by
  unfold dispatchSet
  split
  · dsimp only
    split <;> nofun
  · dsimp only
    split <;> nofun

theorem dispatchDelete_kind : (s.dispatchDelete out key).2.kind ≠ .moved := by
  unfold dispatchDelete
  split
  · dsimp only
    split <;> nofun
  · dsimp only
    split <;> nofun

/-- A read is redirected or not answered with `MOVED`. -/
theorem dispatchGet_kind : (s.dispatchGet out key).2 = s.redirectToPrimary key ∨
    (s.dispatchGet out key).2.kind ≠ .moved := by
  unfold dispatchGet
  split
  · dsimp only
    split
    · exact .inl rfl
    · exact .inr nofun
    · exact .inr nofun
    · exact .inr nofun
  · dsimp only
    cases (s.store.get out.now key).2 <;> exact .inr nofun

theorem dispatchGet_kind_of_primary
    (primary : ∀ w self, s.replicating = some (w, self) → w.isPrimary self key = true) :
    (s.dispatchGet out key).2.kind ≠ .moved := by
  unfold dispatchGet
  split
  · rename_i w self on
    have result : (out.settle w (Replication.startRead w self out.now ⟨s.store, ∅⟩ key)).2 ≠
        .error .notInReplicaSet :=
      settle_ne fun result phase => startRead_ne (primary w self on) phase
    dsimp only
    split
    · rename_i turned
      exact absurd turned result
    · nofun
    · nofun
    · nofun
  · dsimp only
    cases (s.store.get out.now key).2 <;> nofun

end Primary

section Requests

variable {s : Server} {v : ClusterView} {out : Outside} {req : Request} {node : Cluster.Node}
  {key : String}

theorem replicating_eq_some (cluster : s.cluster = some v) {w : Replication.Setup} {self : String}
    (on : s.replicating = some (w, self)) : w.ring = v.ring ∧ self = v.selfID := by
  unfold replicating manager at on
  rw [cluster] at on
  obtain ⟨manager, _⟩ := Option.filter_eq_some_iff.mp on
  obtain ⟨cfg, _, same⟩ := Option.map_eq_some_iff.mp manager
  cases same
  exact ⟨rfl, rfl⟩

theorem isPrimary_of_owner (cluster : s.cluster = some v) (owns : v.ring.owner key = some node)
    (here : node.id = v.selfID) {w : Replication.Setup} {self : String}
    (on : s.replicating = some (w, self)) : w.isPrimary self key = true := by
  obtain ⟨ring, same⟩ := replicating_eq_some cluster on
  simp only [Replication.Setup.isPrimary, ring, owns, same, here, decide_true]

theorem redirectToPrimary_eq (cluster : s.cluster = some v) (owns : v.ring.owner key = some node) :
    s.redirectToPrimary key = nodeResponse .moved node := by
  simp only [redirectToPrimary, cluster, owns]

theorem eq_redirect_of_checkRouting {resp : Response} (h : s.checkRouting req = some resp) :
    resp = s.redirectToPrimary (text req.key) := by
  unfold checkRouting at h
  split at h
  · exact eq_redirect_of_checkReadRouting h
  · exact eq_redirect_of_checkWriteRouting h

/-- At the owner a request passes routing. -/
theorem checkRouting_eq_none (cluster : s.cluster = some v)
    (owns : v.ring.owner (text req.key) = some node) (self : node.id = v.selfID) :
    s.checkRouting req = none := by
  have owned : s.checkOwnership (text req.key) = none := by
    simp only [checkOwnership, cluster, owns, ClusterView.isOwner, self, decide_true, if_true]
  unfold checkRouting checkReadRouting checkWriteRouting
  split <;> split
  · rename_i w id on
    have primary := isPrimary_of_owner cluster owns self on
    rw [if_pos (Replication.Setup.isInReplicaSet_iff.mpr
      (Replication.Setup.mem_owners_of_isPrimary primary))]
  · exact owned
  · rename_i w id on
    rw [if_pos (isPrimary_of_owner cluster owns self on)]
  · exact owned

/-- What answers a data request that has passed routing. -/
def handleData (s : Server) (out : Outside) (req : Request) : Server × Response :=
  if req.command = commandSet then
    s.dispatchSet out (text req.key) (req.value.getD []) req.ttl
  else if req.command = commandDelete then s.dispatchDelete out (text req.key)
  else s.dispatchGet out (text req.key)

theorem dispatch_data (data : req.command ∈ [commandSet, commandDelete, commandGet]) :
    s.dispatch out req = s.routed (s.checkRouting req) (s.handleData out req) := by
  unfold dispatch checkRouting handleData
  simp only [List.mem_cons, List.not_mem_nil, or_false] at data
  cases data with
  | inl set =>
      rw [set]
      rfl
  | inr data =>
      cases data with
      | inl delete =>
          rw [delete]
          rfl
      | inr get =>
          rw [get]
          rfl

end Requests

section Redirects

variable {s : Server} {v : ClusterView} {out : Outside} {req : Request} {node : Cluster.Node}

/-- The owner of the key serves the request. -/
theorem serves_of_owner (data : req.command ∈ [commandSet, commandDelete, commandGet])
    (cluster : s.cluster = some v) (owns : v.ring.owner (text req.key) = some node)
    (self : node.id = v.selfID) : s.Serves out req := by
  have passes := checkRouting_eq_none cluster owns self
  refine ⟨passes, (s.handleData out req).1, (s.handleData out req).2, ?_, ?_⟩
  · rw [dispatch_data data, passes]
    rfl
  · unfold handleData
    split
    · exact dispatchSet_kind _ _
    · split
      · exact dispatchDelete_kind
      · exact dispatchGet_kind_of_primary fun w id on => isPrimary_of_owner cluster owns self on

/-- A server serves a request or redirects it. -/
theorem serves_or_redirects (data : req.command ∈ [commandSet, commandDelete, commandGet]) :
    s.Serves out req ∨
      ∃ s', s.dispatch out req = .ok (s', s.redirectToPrimary (text req.key)) := by
  cases passes : s.checkRouting req with
  | some resp =>
      refine .inr ⟨s, ?_⟩
      rw [dispatch_data data, passes, eq_redirect_of_checkRouting passes]
      rfl
  | none =>
      have handled : s.dispatch out req = .ok (s.handleData out req) := by
        rw [dispatch_data data, passes]
        rfl
      have answer : (s.handleData out req).2 = s.redirectToPrimary (text req.key) ∨
          (s.handleData out req).2.kind ≠ .moved := by
        unfold handleData
        split
        · exact .inr (dispatchSet_kind _ _)
        · split
          · exact .inr dispatchDelete_kind
          · exact dispatchGet_kind
      cases answer with
      | inl redirected =>
          refine .inr ⟨(s.handleData out req).1, ?_⟩
          rw [handled, ← redirected]
      | inr served => exact .inl ⟨passes, _, _, handled, served⟩

theorem Sees.ring {cfg : RingConfig} {nodes : GoMap String Cluster.Node}
    {replication : Option Replication.Config} (sees : s.Sees v cfg nodes replication)
    (virtual : 1 ≤ cfg.virtualNodes) : v.ring.Whole ∧ v.ring.Apart ∧ v.ring.cfg = cfg := by
  obtain ⟨past, run, free⟩ := sees.built
  have config := Cluster.cfg_of_run virtual run
  exact ⟨free.whole virtual run, free.apart config (Cluster.mem_everAdded run), config⟩

/-- All servers of a fleet with a member know the same owner of a key. -/
theorem Fleet.exists_owner (fleet : Fleet) {id : String} (member : id ∈ fleet.nodes)
    (key : String) : ∃ node, fleet.nodes.lookup node.id = some node ∧
      ∀ s ∈ fleet.servers, ∀ v, s.cluster = some v → v.ring.owner key = some node := by
  obtain ⟨t, there, _⟩ := fleet.staffed id member
  obtain ⟨u, sees⟩ := fleet.sees t there
  obtain ⟨whole, apart, config⟩ := sees.ring fleet.virtual
  have member : id ∈ u.ring.nodes := by
    rw [GoMap.mem_iff, sees.members]
    exact GoMap.mem_iff.mp member
  obtain ⟨node, owns⟩ := whole.exists_owner (List.length_pos_of_mem member) key
  obtain ⟨_, placed⟩ := whole.sound.owner_eq_some_iff.mp owns
  refine ⟨node, (sees.members _).symm.trans placed.member, ?_⟩
  intro s server v cluster
  obtain ⟨v', sees'⟩ := fleet.sees s server
  obtain rfl : v = v' := Option.some.inj (cluster.symm.trans sees'.cluster)
  obtain ⟨whole', apart', config'⟩ := sees'.ring fleet.virtual
  have same : ∀ id, v.ring.nodes.lookup id = u.ring.nodes.lookup id :=
    fun id => (sees'.members id).trans (sees.members id).symm
  rw [← owns]
  exact (Ring.lookups_eq whole apart whole' apart' (config'.trans config.symm) same key).1

/-- Two servers that have seen different joins and leaves, with reads at the primary. -/
def pairServer (self : String) (ring : Ring) : Server where
  cluster := some ⟨self, ring, some ⟨2, 2, 2, .quorum, .primary⟩⟩
  raft := none
  metrics := false
  store := Cache.newStore 0

def pairFleet : Fleet where
  cfg := ⟨2, Cluster.hashKey⟩
  nodes := Cluster.firstView.2.nodes
  replication := some ⟨2, 2, 2, .quorum, .primary⟩
  servers := { s |
    s = pairServer "a" Cluster.firstView.2 ∨ s = pairServer "b" Cluster.secondView.2 }
  virtual := by decide
  sees s mem := by
    have run : RingRun _ Cluster.firstView.1 Cluster.firstView.2 := Cluster.ringRun_ringTrace _ _
    have run' : RingRun _ Cluster.secondView.1 Cluster.secondView.2 :=
      Cluster.ringRun_ringTrace _ _
    have same : Cluster.secondView.2.nodes.entries.Perm Cluster.firstView.2.nodes.entries := by
      decide +kernel
    cases mem with
    | inl first =>
        subst first
        exact ⟨_, rfl, rfl, fun id => rfl, _, run, by decide +kernel⟩
    | inr second =>
        subst second
        exact ⟨_, rfl, rfl, fun id => AList.perm_lookup same, _, run', by decide +kernel⟩
  staffed id member := by
    have ids : ∀ id ∈ Cluster.firstView.2.nodes.keys, id = "a" ∨ id = "b" := by decide +kernel
    cases ids id member with
    | inl first => exact ⟨_, .inl rfl, _, rfl, first.symm⟩
    | inr second => exact ⟨_, .inr rfl, _, rfl, second.symm⟩

def pairRead : Request where
  command := commandGet
  key := ascii "k"

end Redirects

end Server

end DistributedCache
