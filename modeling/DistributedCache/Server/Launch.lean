import DistributedCache.Cluster.Disruption
import DistributedCache.Cluster.Peers
import DistributedCache.Server.Routing

/-!
The start of a node in `cmd/node`: from flags and environment to ring, replication manager
and Raft node.

Nothing compares the nodes with each other. Each takes its ring and its Raft peers from a
string of its own, in which the others stand in any order and spelling. If these strings are
about the same members, the nodes form the cluster that the Raft nodes need to elect one
leader in a term, and the fleet in which the servers redirect to each other.
-/
namespace DistributedCache

open GoText
open Cluster (Ring RingConfig RingRun CollisionFree everAdded Peer Listable Spells newRing
  newCluster parsePeers)

namespace Cluster

variable {self : Node} {peers : List Node} {cfg : RingConfig} {r r' : Ring}

theorem perform_add {node : Node} (joined : r.addNode node = .ok r') :
    r.perform (.add node) = r' := by
  change r.join node = r'
  rw [Ring.join, joined]

/-- A new cluster is a run of joins. -/
theorem newCluster_run (started : newCluster self peers cfg = .ok r) :
    ∃ past, RingRun cfg past r ∧ everAdded past ⊆ (self :: peers).map Node.id := by
  obtain ⟨first, alone, added⟩ := newCluster_eq_ok.mp started
  have further (before : List Node) {past : List (Ring × RingOp)} {s s' : Ring} {node : Node}
      (run : RingRun cfg past s) (ids : everAdded past ⊆ before.map Node.id)
      (joined : s.addNode node = .ok s') :
      RingRun cfg ((s, .add node) :: past) s' ∧
        everAdded ((s, .add node) :: past) ⊆ (before ++ [node]).map Node.id := by
    refine ⟨.next run (perform_add joined).symm, ?_⟩
    rw [everAdded_add joined, List.map_append]
    exact List.cons_subset.mpr ⟨List.mem_append_right _ List.mem_cons_self,
      List.Subset.trans ids (List.subset_append_left _ _)⟩
  refine Ring.addPeers_induct (P := fun before r => ∃ past, RingRun cfg past r ∧
    everAdded past ⊆ (self :: before).map Node.id) ?_ ?_ added
  · obtain ⟨run, ids⟩ := further [] (.start rfl) (List.nil_subset _) alone
    exact ⟨_, run, ids⟩
  · rintro before s peer s' ⟨past, run, ids⟩ _ _ joined
    obtain ⟨run, ids⟩ := further (self :: before) run ids joined
    exact ⟨_, run, ids⟩

/-- A run is one with the configuration that the ring takes from its settings. -/
theorem run_newRing_cfg {past : List (Ring × RingOp)} (run : RingRun cfg past r) :
    RingRun (newRing cfg).cfg past r := by
  unfold RingRun ringSystem at run ⊢
  rw [(Ring.newRing_cfg cfg).2]
  exact run

/-- A new cluster has the node and its peers under their ids. -/
theorem lookup_newCluster (started : newCluster self peers cfg = .ok r) (id : String)
    (node : Node) : r.nodes.lookup id = some node ↔ node ∈ self :: peers ∧ node.id = id := by
  obtain ⟨first, alone, added⟩ := newCluster_eq_ok.mp started
  have further (before : List Node) {s s' : Ring} {node : Node}
      (known : ∀ id m, s.nodes.lookup id = some m ↔ m ∈ before ∧ m.id = id)
      (joined : s.addNode node = .ok s') (id : String) (m : Node) :
      s'.nodes.lookup id = some m ↔ m ∈ before ++ [node] ∧ m.id = id := by
    obtain ⟨_, _, fresh, rfl⟩ := Ring.addNode_eq_ok.mp joined
    rw [List.mem_append, List.mem_singleton]
    by_cases same : id = node.id
    · subst same
      -- Nobody else has the id of the new node.
      have alone (listed : m ∈ before) : m.id ≠ node.id := fun same =>
        fresh (GoMap.mem_iff.mpr ⟨m, (known _ m).mpr ⟨listed, same⟩⟩)
      rw [AList.lookup_insert, Option.some.injEq]
      constructor
      · rintro rfl
        exact ⟨.inr rfl, rfl⟩
      · rintro ⟨listed | rfl, name⟩
        · exact absurd name (alone listed)
        · rfl
    · rw [AList.lookup_insert_ne same, known]
      constructor
      · exact fun h => ⟨.inl h.1, h.2⟩
      · rintro ⟨listed | rfl, name⟩
        · exact ⟨listed, name⟩
        · exact absurd name.symm same
  refine Ring.addPeers_induct (P := fun before r => ∀ id node,
    r.nodes.lookup id = some node ↔ node ∈ self :: before ∧ node.id = id) ?_ ?_ added id node
  · refine further [] (fun id m => ?_) alone
    simp [newRing]
  · intro before s peer s' known _ _ joined
    exact further (self :: before) known joined

section Listed

variable {listed rest others : List Peer}

theorem Listable.part (h : Listable listed) (sub : rest.Sublist listed)
    (perm : others.Perm rest) : Listable others := by
  have inside : others ⊆ listed := fun _ mem => sub.subset (perm.subset mem)
  exact {
    distinct := (perm.map Peer.id).nodup_iff.mpr (h.distinct.sublist (sub.map Peer.id))
    trimmed := fun peer mem => h.trimmed peer (inside mem)
    id := fun peer mem => h.id peer (inside mem)
    addr := fun peer mem => h.addr peer (inside mem) }

theorem Spells.parsePeers {entries : List Bytes} (spelled : Spells entries listed)
    (listable : Listable listed) : parsePeers ([44].intercalate entries) = .ok listed := by
  rw [parsePeers_eq]
  cases entries with
  | nil =>
      cases spelled
      rfl
  | cons entry entries =>
      rw [List.splitOn_intercalate 44 (spelled.not_mem listable) (List.cons_ne_nil _ _)]
      exact spelled.parseParts listable fun peer _ => AList.notMem_empty peer.id

end Listed

end Cluster

namespace Server

/-- The flag, or else the variable of the environment. -/
def stringFromEnv (flagValue env : Bytes) : Bytes :=
  if trimSpace flagValue ≠ [] then flagValue else trimSpace env

/-- Go's `strconv.ParseBool`. -/
def parseBool (s : Bytes) : Option Bool :=
  if s ∈ ["1", "t", "T", "TRUE", "true", "True"].map ascii then some true
  else if s ∈ ["0", "f", "F", "FALSE", "false", "False"].map ascii then some false
  else none

/-- The variable of the environment, if it can be read, or else the flag. -/
def parsedFromEnv {α : Type} (parse : Bytes → Option α) (flagValue : α) (env : Bytes) : α :=
  let raw := trimSpace env
  if raw = [] then flagValue else (parse raw).getD flagValue

def boolFromEnv : Bool → Bytes → Bool :=
  parsedFromEnv parseBool

/-- `IntFromEnv` and `Int64FromEnv`: an `int` has 64 bits. -/
def intFromEnv : Int → Bytes → Int :=
  parsedFromEnv parseInt

/-- The flags of `cmd/node` without those for timers and the number of connections. -/
structure Flags where
  addr : Bytes := ascii ":6379"
  advertiseAddr : Bytes := []
  nodeID : Bytes := []
  peers : Bytes := []
  vnodes : Int := 128
  raft : Bool := false
  replicationFactor : Int := 1
  writeQuorum : Int := 0
  readQuorum : Int := 0
  writeConsistency : Bytes := ascii "quorum"
  readConsistency : Bytes := ascii "quorum"
  maxBytes : Int := 0
  debugAddr : Bytes := []

inductive LaunchError
  | invalidPeers (err : Cluster.PeerError)
  | cluster (err : Cluster.RingError)
  | replicationRequiresCluster
  | replication (err : Replication.ConfigError)
  | raftRequiresCluster

def writeConsistency (s : Bytes) : Replication.WriteConsistency :=
  if s = [] then .unset
  else if s = ascii "one" then .one
  else if s = ascii "quorum" then .quorum
  else if s = ascii "all" then .all
  else .other (text s)

def readConsistency (s : Bytes) : Replication.ReadConsistency :=
  if s = [] then .unset
  else if s = ascii "primary" then .primary
  else if s = ascii "quorum" then .quorum
  else if s = ascii "any" then .any
  else .other (text s)

namespace Flags

variable (f : Flags)

/-- The flags after the environment has been read. -/
def resolve (env : Bytes → Bytes) : Flags :=
  { f with
    nodeID := stringFromEnv f.nodeID (env (ascii "CACHE_NODE_ID"))
    advertiseAddr := stringFromEnv f.advertiseAddr (env (ascii "CACHE_ADVERTISE_ADDR"))
    peers := stringFromEnv f.peers (env (ascii "CACHE_PEERS"))
    debugAddr := stringFromEnv f.debugAddr (env (ascii "CACHE_DEBUG_ADDR"))
    raft := boolFromEnv f.raft (env (ascii "CACHE_RAFT"))
    replicationFactor := intFromEnv f.replicationFactor (env (ascii "CACHE_REPLICATION_FACTOR"))
    maxBytes := intFromEnv f.maxBytes (env (ascii "CACHE_MAX_BYTES")) }

def publicAddr : Bytes :=
  if f.advertiseAddr = [] then f.addr else f.advertiseAddr

def self : Cluster.Node where
  id := text f.nodeID
  addr := text f.publicAddr

/-- A number of virtual nodes that is not positive stands for the default. -/
def ringConfig : RingConfig where
  virtualNodes := f.vnodes.toNat
  hash := Cluster.hashKey

def replication : Replication.Config where
  replicationFactor := f.replicationFactor
  writeQuorum := f.writeQuorum
  readQuorum := f.readQuorum
  writeConsistency := Server.writeConsistency f.writeConsistency
  readConsistency := Server.readConsistency f.readConsistency

/-- The ring and the peers of a node in cluster mode. -/
def clusterView : Except LaunchError (Option (Ring × List Cluster.Node)) :=
  if f.nodeID = [] then .ok none
  else match parsePeers f.peers with
    | .error err => .error (.invalidPeers err)
    | .ok peers =>
        match newCluster f.self (peers.map Peer.node) f.ringConfig with
        | .error err => .error (.cluster err)
        | .ok ring => .ok (some (ring, peers.map Peer.node))

/-- The settings of the replication manager, if there is one. -/
def replicationManager (clustered : Bool) : Except LaunchError (Option Replication.Config) :=
  if f.replicationFactor > 1 then
    if clustered = false then .error .replicationRequiresCluster
    else match f.replication.normalize.validate with
      | some err => .error (.replication err)
      | none => .ok (some f.replication.normalize)
  else .ok none

def raftNode (peerNodes : Option (List Cluster.Node)) : Except LaunchError (Option Raft.Node) :=
  if f.raft then
    match peerNodes with
    | none => .error .raftRequiresCluster
    | some peers =>
        .ok (some (Raft.newNode f.self.id f.self.addr
          (GoMap.ofList (peers.map fun p => (p.id, p.addr)))))
  else .ok none

/-- What `main` starts, given the flags after the environment has been read. -/
def launch : Except LaunchError Server := do
  let view ← f.clusterView
  let manager ← f.replicationManager view.isSome
  let raft ← f.raftNode (view.map Prod.snd)
  pure
    { cluster := view.map fun v => ⟨f.self.id, v.1, manager⟩
      raft := raft
      metrics := f.debugAddr ≠ []
      store := Cache.newStore f.maxBytes }

variable {f}

theorem launch_ok {view : Option (Ring × List Cluster.Node)} {manager : Option Replication.Config}
    {raft : Option Raft.Node} (ring : f.clusterView = .ok view)
    (managed : f.replicationManager view.isSome = .ok manager)
    (node : f.raftNode (view.map Prod.snd) = .ok raft) :
    f.launch = .ok {
      cluster := view.map fun v => ⟨f.self.id, v.1, manager⟩
      raft := raft
      metrics := f.debugAddr ≠ []
      store := Cache.newStore f.maxBytes } := by
  unfold launch
  rw [ring]
  change (f.replicationManager view.isSome >>= fun manager => _) = _
  rw [managed]
  change (f.raftNode (view.map Prod.snd) >>= fun raft => _) = _
  rw [node]
  rfl

end Flags

/-- Nodes that are started as the members of one cluster, each with flags and an environment
of its own. -/
structure Deployment where
  members : List Peer
  flags : Bytes → Flags
  env : Bytes → Bytes → Bytes
  vnodes : Int
  raft : Bool
  replication : Replication.Config

namespace Deployment

variable (d : Deployment)

/-- The settings of the member with this id. -/
def settings (id : Bytes) : Flags :=
  (d.flags id).resolve (d.env id)

/-- The nodes are told the same. Each knows its own id and address, and its list of peers
spells the other members. -/
structure Agrees : Prop where
  listable : Listable d.members
  addrs : (d.members.map Peer.addr).Nodup
  names : ∀ m ∈ d.members, (d.settings m.id).nodeID = m.id ∧ (d.settings m.id).publicAddr = m.addr
  peers : ∀ m ∈ d.members, ∃ entries others, Spells entries others ∧
    others.Perm (d.members.filter fun p => p.id ≠ m.id) ∧
    (d.settings m.id).peers = [44].intercalate entries
  vnodes : ∀ m ∈ d.members, (d.settings m.id).vnodes = d.vnodes
  raft : ∀ m ∈ d.members, (d.settings m.id).raft = d.raft
  replication : ∀ m ∈ d.members, (d.settings m.id).replication = d.replication
  valid : 1 < d.replication.replicationFactor → d.replication.normalize.validate = none

/-- The settings of the replication managers, if there are any. -/
def manager : Option Replication.Config :=
  if d.replication.replicationFactor > 1 then some d.replication.normalize else none

/-- The nodes as they stand in their lists of peers, with the callback of `main`. -/
def setup : Raft.Setup where
  members := d.members.map Peer.node
  peerNodes i := match parsePeers (d.settings (ascii i)).peers with
    | .ok peers => peers.map Peer.node
    | .error _ => []
  ringCfg := ⟨d.vnodes.toNat, Cluster.hashKey⟩
  membership := true

def servers : Set Server :=
  { s | ∃ m ∈ d.members, (d.settings m.id).launch = .ok s }

namespace Agrees

variable {d : Deployment}

/-- What a node reads in its list of peers. -/
theorem peerNodes (h : d.Agrees) {m : Peer} (member : m ∈ d.members) :
    ∃ others, parsePeers (d.settings m.id).peers = .ok others ∧
      others.Perm (d.members.filter fun p => p.id ≠ m.id) ∧
      d.setup.peerNodes (text m.id) = others.map Peer.node := by
  obtain ⟨entries, others, spelled, perm, raw⟩ := h.peers m member
  have listable := h.listable.part List.filter_sublist perm
  have read : parsePeers (d.settings m.id).peers = .ok others := by
    rw [raw]
    exact spelled.parsePeers listable
  refine ⟨others, read, perm, ?_⟩
  simp only [setup, ascii_text, read]

theorem mem_others {others : List Peer} {m p : Peer}
    (perm : others.Perm (d.members.filter fun p => p.id ≠ m.id)) :
    p ∈ others ↔ p ∈ d.members ∧ p.id ≠ m.id := by
  rw [perm.mem_iff, List.mem_filter, decide_eq_true_iff]

theorem consistent (h : d.Agrees) : d.setup.Consistent where
  ids_nodup := by
    have ids := h.listable.distinct.map fun _ _ same => Cluster.text_inj same
    rw [List.map_map] at ids
    unfold Raft.Setup.ids setup
    rw [List.map_map]
    exact ids
  ids_ne := by
    intro i mem none
    unfold Raft.Setup.ids setup at mem
    rw [List.map_map] at mem
    obtain ⟨m, member, rfl⟩ := List.mem_map.mp mem
    exact (h.listable.trimmed m member).id.1 (Cluster.text_inj (y := []) none)
  addrs_nodup := by
    have addrs := h.addrs.map fun _ _ same => Cluster.text_inj same
    rw [List.map_map] at addrs
    unfold setup
    rw [List.map_map]
    exact addrs
  peers := by
    intro i mem node
    unfold Raft.Setup.ids setup at mem
    rw [List.map_map] at mem
    obtain ⟨m, member, rfl⟩ := List.mem_map.mp mem
    obtain ⟨others, _, perm, same⟩ := h.peerNodes member
    change node ∈ d.setup.peerNodes (text m.id) ↔ node ∈ d.members.map Peer.node ∧ _
    rw [same]
    constructor
    · intro listed
      obtain ⟨p, inside, rfl⟩ := List.mem_map.mp listed
      obtain ⟨known, other⟩ := (mem_others perm).mp inside
      exact ⟨List.mem_map_of_mem known, fun clash => other (Cluster.text_inj clash)⟩
    · rintro ⟨listed, other⟩
      obtain ⟨p, known, rfl⟩ := List.mem_map.mp listed
      exact List.mem_map_of_mem ((mem_others perm).mpr ⟨known, fun clash =>
        other (congrArg text clash)⟩)

theorem self (h : d.Agrees) {m : Peer} (member : m ∈ d.members) :
    (d.settings m.id).self = m.node := by
  obtain ⟨id, addr⟩ := h.names m member
  rw [Flags.self, id, addr]
  rfl

theorem ringConfig (h : d.Agrees) {m : Peer} (member : m ∈ d.members) :
    (d.settings m.id).ringConfig = d.setup.ringCfg := by
  rw [Flags.ringConfig, h.vnodes m member]
  rfl

/-- The ring of a member. -/
theorem clusterView (h : d.Agrees) {m : Peer} (member : m ∈ d.members) :
    ∃ ring, newCluster m.node (d.setup.peerNodes m.node.id) d.setup.ringCfg = .ok ring ∧
      (d.settings m.id).clusterView = .ok (some (ring, d.setup.peerNodes m.node.id)) := by
  obtain ⟨others, read, perm, same⟩ := h.peerNodes member
  have trimmed := h.listable.trimmed m member
  have apart : ∀ p ∈ others, p.node.id ≠ m.node.id := fun p inside clash =>
    ((mem_others perm).mp inside).2 (Cluster.text_inj clash)
  have id : m.node.id ≠ "" := fun none => trimmed.id.1 (Cluster.text_inj (y := []) none)
  have addr : m.node.addr ≠ "" := fun none => trimmed.addr.1 (Cluster.text_inj (y := []) none)
  obtain ⟨ring, started⟩ := Cluster.newCluster_parsePeers d.setup.ringCfg read id addr apart
  have peers : d.setup.peerNodes m.node.id = others.map Peer.node := same
  rw [peers]
  refine ⟨ring, started, ?_⟩
  have named : (d.settings m.id).nodeID ≠ [] := by
    rw [(h.names m member).1]
    exact trimmed.id.1
  unfold Flags.clusterView
  rw [if_neg named, read]
  dsimp only
  rw [h.self member, h.ringConfig member, started]

theorem replicationManager (h : d.Agrees) {m : Peer} (member : m ∈ d.members) :
    (d.settings m.id).replicationManager true = .ok d.manager := by
  have same := h.replication m member
  have factor : (d.settings m.id).replicationFactor = d.replication.replicationFactor :=
    congrArg Replication.Config.replicationFactor same
  unfold Flags.replicationManager manager
  rw [factor, same]
  split
  · rename_i on
    rw [if_neg (by decide), h.valid on]
  · rfl

theorem raftNode (h : d.Agrees) {m : Peer} (member : m ∈ d.members) :
    (d.settings m.id).raftNode (some (d.setup.peerNodes m.node.id)) =
      .ok (if d.raft then some (d.setup.start.node m.node.id) else none) := by
  have known : m.node ∈ d.setup.members := List.mem_map_of_mem member
  unfold Flags.raftNode
  rw [h.raft m member, h.self member, d.setup.start_node, h.consistent.addrOf_eq known]
  split <;> rfl

/-- What a member is started as. -/
theorem launch (h : d.Agrees) {m : Peer} (member : m ∈ d.members) :
    ∃ ring s, newCluster m.node (d.setup.peerNodes m.node.id) d.setup.ringCfg = .ok ring ∧
      (d.settings m.id).launch = .ok s ∧ s.cluster = some ⟨m.node.id, ring, d.manager⟩ ∧
      s.raft = if d.raft then some (d.setup.start.node m.node.id) else none := by
  obtain ⟨ring, started, view⟩ := h.clusterView member
  have manager : (d.settings m.id).replicationManager
      (some (ring, d.setup.peerNodes m.node.id)).isSome = .ok d.manager :=
    h.replicationManager member
  refine ⟨ring, _, started, Flags.launch_ok view manager (h.raftNode member), ?_, rfl⟩
  rw [h.self member]
  rfl

/-- The ring of a member has all members, by joins of these. -/
theorem sees (h : d.Agrees) {m : Peer} (member : m ∈ d.members) {ring : Ring}
    (started : newCluster m.node (d.setup.peerNodes m.node.id) d.setup.ringCfg = .ok ring) :
    (∀ id node, ring.nodes.lookup id = some node ↔ node ∈ d.setup.members ∧ node.id = id) ∧
      ∃ past, RingRun (newRing d.setup.ringCfg).cfg past ring ∧ everAdded past ⊆ d.setup.ids := by
  have known : m.node ∈ d.setup.members := List.mem_map_of_mem member
  have all (node : Cluster.Node) :
      node ∈ m.node :: d.setup.peerNodes m.node.id ↔ node ∈ d.setup.members := by
    rw [List.mem_cons, h.consistent.peers _ (Raft.Setup.mem_ids known)]
    constructor
    · rintro (rfl | ⟨listed, _⟩)
      · exact known
      · exact listed
    · intro listed
      by_cases same : node.id = m.node.id
      · exact .inl (List.inj_on_of_nodup_map h.consistent.ids_nodup listed known same)
      · exact .inr ⟨listed, same⟩
  constructor
  · intro id node
    rw [Cluster.lookup_newCluster started, all]
  · obtain ⟨past, run, ids⟩ := Cluster.newCluster_run started
    refine ⟨past, Cluster.run_newRing_cfg run, fun id mem => ?_⟩
    obtain ⟨node, listed, rfl⟩ := List.mem_map.mp (ids mem)
    exact Raft.Setup.mem_ids ((all node).mp listed)

end Agrees

/-- All members under their ids. -/
def nodes : GoMap String Cluster.Node :=
  GoMap.ofList (d.setup.members.map fun m => (m.id, m))

theorem Agrees.lookup_nodes {d : Deployment} (h : d.Agrees) (id : String) (node : Cluster.Node) :
    d.nodes.lookup id = some node ↔ node ∈ d.setup.members ∧ node.id = id := by
  constructor
  · intro found
    obtain ⟨m, listed, same⟩ := List.mem_map.mp (GoMap.of_lookup_ofList found)
    obtain ⟨rfl, rfl⟩ := Prod.mk.inj same
    exact ⟨listed, rfl⟩
  · rintro ⟨listed, rfl⟩
    have mem : node.id ∈ d.nodes := by
      rw [nodes, GoMap.mem_ofList, List.map_map]
      exact List.mem_map_of_mem (f := Cluster.Node.id) listed
    obtain ⟨m, found⟩ := GoMap.mem_iff.mp mem
    obtain ⟨m', listed', same⟩ := List.mem_map.mp (GoMap.of_lookup_ofList found)
    obtain ⟨id, rfl⟩ := Prod.mk.inj same
    rw [found, List.inj_on_of_nodup_map h.consistent.ids_nodup listed' listed id]

/-- The servers of the members redirect to each other. -/
def Agrees.fleet {d : Deployment} (h : d.Agrees)
    (free : CollisionFree (newRing d.setup.ringCfg).cfg d.setup.ids) : Fleet where
  cfg := (newRing d.setup.ringCfg).cfg
  nodes := d.nodes
  replication := d.manager
  servers := d.servers
  virtual := (Ring.newRing_cfg d.setup.ringCfg).1
  sees := by
    rintro s ⟨m, member, launched⟩
    obtain ⟨ring, s', started, same, cluster, _⟩ := h.launch member
    obtain rfl : s = s' := Except.ok.inj (launched.symm.trans same)
    obtain ⟨known, past, run, ids⟩ := h.sees member started
    refine ⟨_, cluster, rfl, fun id => Option.ext fun node => ?_, past, run, free.mono ids⟩
    rw [known, h.lookup_nodes]
  staffed := by
    intro id mem
    obtain ⟨node, found⟩ := GoMap.mem_iff.mp mem
    obtain ⟨listed, rfl⟩ := (h.lookup_nodes id node).mp found
    obtain ⟨m, member, rfl⟩ := List.mem_map.mp listed
    obtain ⟨ring, s, _, launched, cluster, _⟩ := h.launch member
    exact ⟨s, ⟨m, member, launched⟩, _, cluster, rfl⟩

/-- Nodes whose settings agree all start, whatever the order and the spelling of their peers.
Their Raft nodes and rings are those of one consistent cluster, and without collisions on the
ring their servers are one fleet. -/
theorem nodes_form_cluster {d : Deployment} (h : d.Agrees) :
    d.setup.Consistent ∧
    (∀ m ∈ d.members, ∃ s v, (d.settings m.id).launch = .ok s ∧ s.cluster = some v ∧
      v.selfID = text m.id ∧ v.replication = d.manager ∧
      v.ring = (d.setup.start.procs (text m.id)).ring ∧
      s.raft = if d.raft then some (d.setup.start.node (text m.id)) else none) ∧
    (CollisionFree (newRing d.setup.ringCfg).cfg d.setup.ids →
      ∃ fleet : Fleet, fleet.servers = d.servers ∧ fleet.replication = d.manager ∧
        ∀ id node, fleet.nodes.lookup id = some node ↔ node ∈ d.setup.members ∧ node.id = id) := by
  refine ⟨h.consistent, fun m member => ?_, fun free => ⟨h.fleet free, rfl, rfl, h.lookup_nodes⟩⟩
  obtain ⟨ring, s, started, launched, cluster, raft⟩ := h.launch member
  refine ⟨s, _, launched, cluster, rfl, rfl, ?_, raft⟩
  have known : m.node ∈ d.setup.members := List.mem_map_of_mem member
  have proc : d.setup.start.procs (text m.id) = d.setup.startProc m.node := by
    change d.setup.startProc ((d.setup.members.find? fun m' => m'.id = m.node.id).getD _) = _
    rw [h.consistent.find_member known, Option.getD_some]
  rw [proc, Raft.Setup.startProc, started]

/-- Two nodes: `a` has flags, `b` an environment and one flag. -/
def samplePair : Deployment where
  members := [⟨ascii "a", ascii "h:1"⟩, ⟨ascii "b", ascii "h:2"⟩]
  flags id :=
    if id = ascii "a" then
      { addr := ascii "h:1", nodeID := ascii "a", peers := ascii "b = h:2,", vnodes := 2,
        raft := true, replicationFactor := 2 }
    else { advertiseAddr := ascii " ", vnodes := 2 }
  env id key :=
    if id = ascii "a" then []
    else if key = ascii "CACHE_NODE_ID" then ascii " b "
    else if key = ascii "CACHE_ADVERTISE_ADDR" then ascii "h:2"
    else if key = ascii "CACHE_PEERS" then ascii "a=h:1"
    else if key = ascii "CACHE_RAFT" then ascii "T"
    else if key = ascii "CACHE_REPLICATION_FACTOR" then ascii "+2"
    else []
  vnodes := 2
  raft := true
  replication := ⟨2, 0, 0, .quorum, .quorum⟩

theorem agrees_samplePair : samplePair.Agrees where
  listable := {
    distinct := by decide
    trimmed := by
      intro peer mem
      simp only [samplePair, List.mem_cons, List.not_mem_nil, or_false] at mem
      obtain rfl | rfl := mem
      · exact ⟨by decide, by decide⟩
      · exact ⟨by decide, by decide⟩
    id := by decide
    addr := by decide }
  addrs := by decide
  names := by decide
  peers := by
    intro m mem
    simp only [samplePair, List.mem_cons, List.not_mem_nil, or_false] at mem
    obtain rfl | rfl := mem
    · exact ⟨[_, []], [⟨ascii "b", ascii "h:2"⟩], .peer (a := []) (b := [32]) (c := [32]) (d := [])
        _ .nil (IsSpace.one (by decide)).blank (IsSpace.one (by decide)).blank .nil
        (.blank .nil .nil), by decide, by decide⟩
    · exact ⟨[_], [⟨ascii "a", ascii "h:1"⟩], .peer (a := []) (b := []) (c := []) (d := [])
        _ .nil .nil .nil .nil .nil, by decide, by decide⟩
  vnodes := by decide
  raft := by decide
  replication := by decide
  valid := by decide

theorem nodes_form_cluster_pair :
    samplePair.setup.peerNodes "b" = [⟨"a", "h:1"⟩] ∧ samplePair.setup.Consistent ∧
      (∃ s v, (samplePair.settings (ascii "b")).launch = .ok s ∧ s.cluster = some v ∧
        v.selfID = "b" ∧ v.replication = some ⟨2, 2, 2, .quorum, .quorum⟩ ∧
        s.raft = some (samplePair.setup.start.node "b")) ∧
      ∃ fleet : Fleet, fleet.servers = samplePair.servers := by
  obtain ⟨consistent, launched, united⟩ := nodes_form_cluster agrees_samplePair
  obtain ⟨s, v, launch, cluster, self, replication, _, raft⟩ :=
    launched ⟨ascii "b", ascii "h:2"⟩ (by decide)
  obtain ⟨fleet, servers, _⟩ := united (by decide +kernel)
  exact ⟨by decide, consistent, ⟨s, v, launch, cluster, self, replication, raft⟩, fleet, servers⟩

end Deployment

end Server

end DistributedCache
