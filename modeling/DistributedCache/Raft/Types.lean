import DistributedCache.Lib.GoMap

/-!
The data of `internal/raft`: commands, log entries, the two RPCs, and the state
of one node.

Terms and log indices are natural numbers: the code's `uint64` counters are only
ever incremented by one step of a run. Go maps are finite maps without order;
every loop over one is written so that the order does not show, and the two maps
that start as nil are written under `role == RoleLeader` only, after they were
made. Deadlines, the random source, the logger and the transport hold no protocol
state: when a timer fires is left to the scheduler of a run.
-/
namespace DistributedCache.Raft

/-- Why a step does not happen: it is not enabled, or the handler panics. -/
inductive Halt
  | disabled
  | panic
  deriving DecidableEq, Repr

abbrev Go (α : Type) := Except Halt α

/-- The values of the string type `CommandType`: the three that are used, and every other. -/
inductive CommandType
  | noop
  | addMember
  | removeMember
  | other (name : String)
  deriving DecidableEq, Repr

structure Command where
  type : CommandType
  nodeID : String := ""
  addr : String := ""
  key : String := ""
  value : List UInt8 := []
  ttl : Int := 0
  deriving DecidableEq, Repr

structure Entry where
  term : Nat
  index : Nat
  command : Command
  deriving DecidableEq, Repr

inductive Role
  | follower
  | candidate
  | leader
  deriving DecidableEq, Repr

structure RequestVoteRequest where
  term : Nat
  candidateID : String
  lastLogIndex : Nat
  lastLogTerm : Nat
  deriving DecidableEq, Repr

structure RequestVoteResponse where
  term : Nat
  voteGranted : Bool
  deriving DecidableEq, Repr

structure AppendEntriesRequest where
  term : Nat
  leaderID : String
  prevLogIndex : Nat
  prevLogTerm : Nat
  entries : List Entry
  leaderCommit : Nat
  deriving DecidableEq, Repr

structure AppendEntriesResponse where
  term : Nat
  success : Bool
  deriving DecidableEq, Repr

/-- A `Propose` call waiting in the proposals map. The channel it waits on is
named by the number of channels the node had made before it. -/
structure Proposal where
  command : Command
  notify : Nat
  deriving DecidableEq, Repr

structure Node where
  id : String
  addr : String
  peers : GoMap String String
  role : Role
  currentTerm : Nat
  votedFor : String
  log : List Entry
  commitIndex : Nat
  lastApplied : Nat
  leaderID : String
  nextIndex : GoMap String Nat
  matchIndex : GoMap String Nat
  proposals : GoMap Nat Proposal
  /-- How many `notify` channels have been made. -/
  channels : Nat

/-- The entry every log starts with. -/
def sentinel : Entry :=
  { term := 0, index := 0, command := { type := .noop } }

def newNode (id addr : String) (peers : GoMap String String) : Node where
  id := id
  addr := addr
  peers := peers
  role := .follower
  currentTerm := 0
  votedFor := ""
  log := [sentinel]
  commitIndex := 0
  lastApplied := 0
  leaderID := ""
  nextIndex := ∅
  matchIndex := ∅
  proposals := ∅
  channels := 0

namespace Node

/-- The indexing expression `n.log[i]`. -/
def logAt (n : Node) (i : Nat) : Go Entry :=
  match n.log[i]? with
  | some e => .ok e
  | none => .error .panic

/-- The slice expression `n.log[i:]`. -/
def logFrom (n : Node) (i : Nat) : Go (List Entry) :=
  if i ≤ n.log.length then .ok (n.log.drop i) else .error .panic

theorem logAt_eq_ok (n : Node) (i : Nat) (e : Entry) :
    n.logAt i = .ok e ↔ n.log[i]? = some e := by
  unfold logAt
  cases n.log[i]? <;> simp

theorem logFrom_eq_ok (n : Node) (i : Nat) (l : List Entry) :
    n.logFrom i = .ok l ↔ i ≤ n.log.length ∧ n.log.drop i = l := by
  by_cases h : i ≤ n.log.length <;> simp [logFrom, h]

end Node

/-- A computation that went through made each of its calls go through. -/
theorem Go.bind_eq_ok {α β : Type} {x : Go α} {f : α → Go β} {b : β} :
    (x >>= f) = .ok b ↔ ∃ a, x = .ok a ∧ f a = .ok b := by
  cases x <;> simp [bind, Except.bind]

theorem Go.pure_eq_ok {α : Type} {a b : α} : (pure a : Go α) = .ok b ↔ a = b := by
  simp [pure, Except.pure]

end DistributedCache.Raft
