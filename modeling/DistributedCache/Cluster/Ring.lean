import Mathlib.Data.List.Sort
import DistributedCache.Lib.GoMap

/-!
The consistent-hash ring of `internal/cluster`: physical nodes, the sorted
positions of their virtual nodes, and the map from position to node id.
-/
namespace DistributedCache.Cluster

structure Node where
  id : String
  addr : String
  deriving DecidableEq, Repr

inductive RingError
  | idRequired
  | addrRequired
  | nodeExists (id : String)
  | nodeMissing (id : String)
  | selfIDRequired
  | selfAddrRequired
  | peerIsSelf (id : String)
  | addPeer (id : String) (err : RingError)
  deriving DecidableEq, Repr

structure RingConfig where
  virtualNodes : Nat
  hash : String → UInt32

/-- FNV-1a with 32 bits over the bytes of the key, which has one character for each. -/
def hashKey (key : String) : UInt32 :=
  key.toList.foldl (fun h c => (h ^^^ UInt32.ofNat c.toNat) * 16777619) 2166136261

structure Ring where
  cfg : RingConfig
  nodes : GoMap String Node
  hashes : List UInt32
  lookup : GoMap UInt32 String

def newRing (cfg : RingConfig) : Ring where
  cfg := if cfg.virtualNodes = 0 then { cfg with virtualNodes := 128 } else cfg
  nodes := ∅
  hashes := []
  lookup := ∅

def vnodeKey (nodeID : String) (index : Nat) : String :=
  nodeID ++ "#" ++ toString index

namespace Ring

/-- The positions of a node's virtual nodes, in the order of the loops over them. -/
def vnodeHashes (r : Ring) (nodeID : String) : List UInt32 :=
  (List.range r.cfg.virtualNodes).map fun i => r.cfg.hash (vnodeKey nodeID i)

def addNode (r : Ring) (node : Node) : Except RingError Ring :=
  if node.id = "" then .error .idRequired
  else if node.addr = "" then .error .addrRequired
  else if node.id ∈ r.nodes then .error (.nodeExists node.id)
  else .ok { r with
    nodes := r.nodes.insert node.id node
    lookup := (r.vnodeHashes node.id).foldl (fun m h => m.insert h node.id) r.lookup
    hashes := (r.hashes ++ r.vnodeHashes node.id).insertionSort (· ≤ ·) }

def rebuildHashes (r : Ring) : Ring :=
  { r with hashes := r.lookup.keys.insertionSort (· ≤ ·) }

def removeNode (r : Ring) (nodeID : String) : Except RingError Ring :=
  if nodeID ∉ r.nodes then .error (.nodeMissing nodeID)
  else .ok (rebuildHashes { r with
    nodes := r.nodes.erase nodeID
    lookup := (r.vnodeHashes nodeID).foldl (fun m h => m.erase h) r.lookup })

/-- All nodes in the order of their ids. -/
def members (r : Ring) : List Node :=
  (r.nodes.entries.map Sigma.snd).insertionSort fun a b => a.id ≤ b.id

variable {r r' : Ring} {node : Node} {nodeID : String}

theorem addNode_eq_ok : r.addNode node = .ok r' ↔
    node.id ≠ "" ∧ node.addr ≠ "" ∧ node.id ∉ r.nodes ∧ r' = { r with
      nodes := r.nodes.insert node.id node
      lookup := (r.vnodeHashes node.id).foldl (fun m h => m.insert h node.id) r.lookup
      hashes := (r.hashes ++ r.vnodeHashes node.id).insertionSort (· ≤ ·) } := by
  unfold addNode
  split
  · simp [*]
  · split
    · simp [*]
    · split
      · simp [*]
      · rename_i id addr fresh
        rw [Except.ok.injEq]
        exact ⟨fun same => ⟨id, addr, fresh, same.symm⟩, fun h => h.2.2.2.symm⟩

theorem removeNode_eq_ok : r.removeNode nodeID = .ok r' ↔
    nodeID ∈ r.nodes ∧ r' = rebuildHashes { r with
      nodes := r.nodes.erase nodeID
      lookup := (r.vnodeHashes nodeID).foldl (fun m h => m.erase h) r.lookup } := by
  unfold removeNode
  split
  · simp [*]
  · rename_i member
    rw [Except.ok.injEq]
    exact ⟨fun same => ⟨not_not.mp member, same.symm⟩, fun h => h.2.symm⟩

/-- The loop of `NewCluster` over the peers. -/
def addPeers (selfID : String) (r : Ring) : List Node → Except RingError Ring
  | [] => .ok r
  | peer :: rest =>
      if peer.id = selfID then .error (.peerIsSelf selfID)
      else match r.addNode peer with
        | .ok r => addPeers selfID r rest
        | .error err => .error (.addPeer peer.id err)

/-- What holds of the ring before the loop and is kept by each of its joins. -/
theorem addPeers_induct {P : List Node → Ring → Prop} {selfID : String} {peers : List Node}
    (start : P [] r)
    (step : ∀ before r peer r', P before r → peer ∈ peers → peer.id ≠ selfID →
      r.addNode peer = .ok r' → P (before ++ [peer]) r')
    (h : r.addPeers selfID peers = .ok r') : P peers r' := by
  have loop : ∀ (rest before : List Node) (r : Ring), before ++ rest = peers → P before r →
      r.addPeers selfID rest = .ok r' → P peers r' := by
    intro rest
    induction rest with
    | nil =>
        intro before r whole kept h
        cases h
        rw [List.append_nil] at whole
        exact whole ▸ kept
    | cons peer rest ih =>
        intro before r whole kept h
        unfold addPeers at h
        split at h
        · cases h
        · rename_i other
          split at h
          · rename_i r₁ joined
            have mem : peer ∈ peers := whole ▸ List.mem_append_right _ List.mem_cons_self
            refine ih (before ++ [peer]) r₁ ?_ (step before r peer r₁ kept mem other joined) h
            rw [List.append_assoc, List.singleton_append, whole]
          · cases h
  exact loop peers [] r rfl start h

end Ring

/-- The ring a node starts with: itself, then its peers. -/
def newCluster (self : Node) (peers : List Node) (cfg : RingConfig) : Except RingError Ring :=
  if self.id = "" then .error .selfIDRequired
  else if self.addr = "" then .error .selfAddrRequired
  else match (newRing cfg).addNode self with
    | .ok r => r.addPeers self.id peers
    | .error err => .error err

theorem newCluster_eq_ok {self : Node} {peers : List Node} {cfg : RingConfig} {r : Ring} :
    newCluster self peers cfg = .ok r ↔
      ∃ first, (newRing cfg).addNode self = .ok first ∧ first.addPeers self.id peers = .ok r := by
  unfold newCluster
  split
  · rename_i none
    simp [Ring.addNode, none]
  · split
    · rename_i id none
      simp [Ring.addNode, id, none]
    · cases h : (newRing cfg).addNode self with
      | ok first => simp
      | error err => simp

end DistributedCache.Cluster
