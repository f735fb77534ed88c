import DistributedCache.Lib.GoText
import DistributedCache.Replication.Manager

/-!
The texts of the errors that a server answers with.

What Go writes for `%q` and what the errors of `encoding/json` say is left open, but for
its being one line.
-/
namespace DistributedCache.Server

open GoText

/-- A text without a line feed. -/
abbrev Line := { text : Bytes // 10 ∉ text }

inductive ContextError
  | canceled
  | deadlineExceeded
  deriving DecidableEq, Repr

def ContextError.text : ContextError → Bytes
  | .canceled => ascii "context canceled"
  | .deadlineExceeded => ascii "context deadline exceeded"

/-- What `Propose` returns when its entry has not been applied in time. -/
inductive ProposeError
  | notLeader
  | context (err : ContextError)
  deriving DecidableEq, Repr

def notLeaderText : Bytes :=
  ascii "not the raft leader"

def ProposeError.text : ProposeError → Bytes
  | .notLeader => notLeaderText
  | .context err => err.text

/-- An integer in a format with `%d`. -/
def signed (n : Int) : Bytes :=
  (if n < 0 then [45] else []) ++ decimal n.natAbs

def lookupErrorText : Cluster.LookupError → Bytes
  | .countNotPositive => ascii "n must be positive"
  | .emptyRing => ascii "hash ring is empty"

def storeErrorText : Cache.StoreError → Bytes
  | .entryTooLarge => ascii "entry exceeds maximum memory limit"
  | .memoryLimit => ascii "unable to store entry within memory limit"

section Quote

variable (quote : String → Line)

def ringErrorText : Cluster.RingError → Bytes
  | .idRequired => ascii "node id is required"
  | .addrRequired => ascii "node address is required"
  | .nodeExists id => ascii "node already exists: " ++ ascii id
  | .nodeMissing id => ascii "node not found: " ++ ascii id
  | .selfIDRequired => ascii "local node id is required"
  | .selfAddrRequired => ascii "local node address is required"
  | .peerIsSelf id => ascii "peer list contains local node id " ++ (quote id).1
  | .addPeer id err => ascii "add peer " ++ (quote id).1 ++ ascii ": " ++ ringErrorText err

def replicationErrorText (context : ContextError) : Replication.Error → Bytes
  | .notPrimary key => ascii "local node is not primary for key " ++ (quote key).1
  | .lookup err => lookupErrorText err
  | .store err => storeErrorText err
  | .quorumNotMet got need =>
      ascii "write quorum not met: got " ++ decimal got ++ ascii " replica acks, need " ++
        signed need
  | .readQuorumNotMet => ascii "read quorum not met"
  | .notInReplicaSet => ascii "key not in local replica set"
  | .contextDone => context.text

theorem newline_not_mem_contextError (err : ContextError) : 10 ∉ err.text := by
  cases err <;> decide

theorem newline_not_mem_proposeError (err : ProposeError) : 10 ∉ err.text := by
  cases err with
  | notLeader => decide
  | context err => exact newline_not_mem_contextError err

theorem newline_not_mem_storeError (err : Cache.StoreError) : 10 ∉ storeErrorText err := by
  cases err <;> decide

theorem newline_not_mem_lookupError (err : Cluster.LookupError) : 10 ∉ lookupErrorText err := by
  cases err <;> decide

theorem newline_not_mem_signed (n : Int) : 10 ∉ signed n := by
  have sign : (10 : UInt8) ∉ if n < 0 then [45] else [] := by
    split <;> decide
  rw [signed, List.mem_append]
  exact fun mem => mem.elim sign (newline_not_mem_decimal _)

theorem newline_not_mem_replicationError (context : ContextError) (err : Replication.Error) :
    10 ∉ replicationErrorText quote context err := by
  cases err with
  | notPrimary key =>
      have start : (10 : UInt8) ∉ ascii "local node is not primary for key " := by decide
      simp [replicationErrorText, start, (quote key).2]
  | lookup err => exact newline_not_mem_lookupError err
  | store err => exact newline_not_mem_storeError err
  | quorumNotMet got need =>
      have start : (10 : UInt8) ∉ ascii "write quorum not met: got " := by decide
      have middle : (10 : UInt8) ∉ ascii " replica acks, need " := by decide
      simp [replicationErrorText, start, middle, newline_not_mem_decimal, newline_not_mem_signed]
  | readQuorumNotMet =>
      change (10 : UInt8) ∉ ascii "read quorum not met"
      decide
  | notInReplicaSet =>
      change (10 : UInt8) ∉ ascii "key not in local replica set"
      decide
  | contextDone => exact newline_not_mem_contextError context

theorem newline_not_mem_of_addNode {r : Cluster.Ring} {node : Cluster.Node}
    {err : Cluster.RingError} (h : r.addNode node = .error err) (free : 10 ∉ ascii node.id) :
    10 ∉ ringErrorText quote err := by
  unfold Cluster.Ring.addNode at h
  split at h
  · cases h
    change (10 : UInt8) ∉ ascii "node id is required"
    decide
  · split at h
    · cases h
      change (10 : UInt8) ∉ ascii "node address is required"
      decide
    · split at h
      · cases h
        have start : (10 : UInt8) ∉ ascii "node already exists: " := by decide
        simp [ringErrorText, start, free]
      · cases h

theorem newline_not_mem_of_removeNode {r : Cluster.Ring} {nodeID : String}
    {err : Cluster.RingError} (h : r.removeNode nodeID = .error err) (free : 10 ∉ ascii nodeID) :
    10 ∉ ringErrorText quote err := by
  unfold Cluster.Ring.removeNode at h
  split at h
  · cases h
    have start : (10 : UInt8) ∉ ascii "node not found: " := by decide
    simp [ringErrorText, start, free]
  · cases h

end Quote

end DistributedCache.Server
