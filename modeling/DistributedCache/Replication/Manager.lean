import DistributedCache.Cache.Store
import DistributedCache.Cluster.Lookup
import DistributedCache.Replication.Config

/-!
The manager of `internal/replication`: writes at the primary of a key that go out to
the other nodes of its replica set, and reads that ask these nodes.

A call of `WriteSet`, `WriteDelete` or `Read` is cut at every point where another
call or another node can come in between: each section below takes one lock at most,
on the store or on the health map. The nodes of a replica set that are still to be
contacted, the requests whose round trip has not come back, and the answers in the
order of their arrival are kept in the call.

Keys are those that a server hands to its manager: `DecodeRequest` has refused the
empty one and removed spaces around the others, so a request reaches a peer with the
key it was sent with.
-/
namespace DistributedCache.Replication

open Cluster (Node LookupError Ring)
open Cache (Store StoreError)

inductive Error
  | notPrimary (key : String)
  | lookup (err : LookupError)
  | store (err : StoreError)
  | quorumNotMet (got : Nat) (need : Int)
  | readQuorumNotMet
  | notInReplicaSet
  | contextDone
  deriving DecidableEq, Repr

/-- What `WriteSet`, `WriteDelete` and `Read` return. -/
inductive Result
  | stored
  | deleted (ok : Bool)
  | value (v : List UInt8)
  | notFound
  | error (err : Error)
  deriving DecidableEq, Repr

/-- What `Read` returns for a `Get` on the local store. -/
def Result.ofGet : Option (List UInt8) → Result
  | some v => .value v
  | none => .notFound

inductive Request
  | replSet (key : String) (value : List UInt8) (ttl : Int)
  | replDelete (key : String)
  | replGet (key : String)
  deriving DecidableEq, Repr

inductive Response
  | ok
  | value (v : List UInt8)
  | notFound
  | error (err : Error)
  deriving DecidableEq, Repr

/-- The answer to a `Get`, and the value in it. -/
def Response.ofGet : Option (List UInt8) → Response
  | some v => .value v
  | none => .notFound

def Response.answer : Response → Option (List UInt8)
  | .value v => some v
  | _ => none

/-- The TTL of a `REPL_SET` as it arrives: whole seconds, at least one. -/
def wireTTL (ttl : Int) : Int :=
  if ttl > 0 then max 1 (ttl / 1000000000) * 1000000000 else 0

/-- What a round trip returns for a response. `ReplicateSet` and `ReplicateDelete` take
every response but an error, `Get` only a value or its absence. -/
def Request.outcome : Request → Response → Option Response
  | _, .error _ => none
  | .replGet _, .ok => none
  | _, resp => some resp

/-- The settings and the ring that all nodes share. -/
structure Setup where
  cfg : Config
  ring : Ring

/-- What a manager owns: the store of its node and its view of the others' health. -/
structure Proc where
  store : Store
  health : GoMap String Bool

namespace Proc

/-- Unknown nodes default to healthy. -/
def isHealthy (p : Proc) (id : String) : Bool :=
  (p.health.lookup id).getD true

def mark (p : Proc) (id : String) (healthy : Bool) : Proc :=
  { p with health := p.health.insert id healthy }

def set (p : Proc) (now : Int) (key : String) (value : List UInt8) (ttl : Int) : Proc :=
  { p with store := (p.store.set now key value ttl).1 }

def get (p : Proc) (now : Int) (key : String) : Proc :=
  { p with store := (p.store.get now key).1 }

def delete (p : Proc) (now : Int) (key : String) : Proc :=
  { p with store := (p.store.delete now key).1 }

end Proc

namespace Setup

variable (w : Setup)

/-- The call `IsPrimary`, and `IsOwner` on the cluster. -/
def isPrimary (self key : String) : Bool :=
  match w.ring.owner key with
  | some owner => owner.id = self
  | none => false

def replicaSet (key : String) : Except LookupError (List Node) :=
  if w.cfg.enabled then w.ring.lookupN key w.cfg.replicationFactor
  else match w.ring.owner key with
    | some owner => .ok [owner]
    | none => .error .emptyRing

def isInReplicaSet (self key : String) : Bool :=
  if w.cfg.enabled then
    match w.replicaSet key with
    | .ok owners => owners.any fun owner => owner.id = self
    | .error _ => false
  else w.isPrimary self key

/-- The acknowledgements that a write waits for: none if replication is off. -/
def required : Int :=
  if w.cfg.enabled then w.cfg.requiredWriteAcks else 0

end Setup

/-- What a server does with a request of another node. -/
def serve (w : Setup) (self : String) (now : Int) (p : Proc) : Request → Proc × Response
  | .replSet key value ttl =>
      if w.isInReplicaSet self key then
        (p.set now key value ttl,
          match (p.store.set now key value ttl).2 with
          | none => .ok
          | some err => .error (.store err))
      else (p, .error .notInReplicaSet)
  | .replDelete key =>
      if w.isInReplicaSet self key then
        (p.delete now key, if (p.store.delete now key).2 then .ok else .notFound)
      else (p, .error .notInReplicaSet)
  | .replGet key =>
      if w.isInReplicaSet self key then
        (p.get now key, .ofGet (p.store.get now key).2)
      else (p, .error .notInReplicaSet)

inductive Op
  | set (key : String) (value : List UInt8) (ttl : Int)
  | delete (key : String)
  | read (key : String)
  deriving DecidableEq, Repr

def Op.key : Op → String
  | .set key _ _ | .delete key | .read key => key

/-- Where a call stands: in its loop over the replica set (over `rest`, and then waiting
for what it has started), in the loop that takes back what it has done, or returned. -/
inductive Phase
  | visiting (rest : List Node)
  | undoing (rest : List String)
  | returned (result : Result)
  deriving DecidableEq, Repr

/-- A call at a node. `existing` is what `WriteDelete` has read. `running` has the round
trips that have not come back, and `results` the answers of those that have. -/
structure Call where
  node : String
  op : Op
  existing : List UInt8
  phase : Phase
  running : List (String × Request)
  results : List (String × Response)
  deriving DecidableEq, Repr

def Call.begin (node : String) (op : Op) (phase : Phase) : Call where
  node := node
  op := op
  existing := []
  phase := phase
  running := []
  results := []

section Entry

variable (w : Setup) (self : String) (now : Int) (p : Proc)

/-- `WriteSet` up to and including its call of `Set` on the local store. -/
def startSet (key : String) (value : List UInt8) (ttl : Int) : Proc × Call :=
  let call := Call.begin self (.set key value ttl)
  let failed := (p.store.set now key value ttl).2
  if w.isPrimary self key then
    if w.required = 0 then
      (p.set now key value ttl,
        call (.returned (match failed with
          | none => .stored
          | some err => .error (.store err))))
    else match w.replicaSet key with
      | .error err => (p, call (.returned (.error (.lookup err))))
      | .ok owners =>
          (p.set now key value ttl,
            call (match failed with
              | none => .visiting owners
              | some err => .returned (.error (.store err))))
  else (p, call (.returned (.error (.notPrimary key))))

/-- `WriteDelete` up to its loop. Without replicas to reach, what is left is the call of
`Delete` after the loop. -/
def startDelete (key : String) : Proc × Call :=
  let call := Call.begin self (.delete key)
  if w.isPrimary self key then
    match (p.store.get now key).2 with
    -- No other node is asked, whatever it has.
    | none => (p.get now key, call (.returned (.deleted false)))
    | some existing =>
        if w.required = 0 then (p.get now key, { call (.visiting []) with existing := existing })
        else match w.replicaSet key with
          | .error err => (p.get now key, call (.returned (.error (.lookup err))))
          | .ok owners => (p.get now key, { call (.visiting owners) with existing := existing })
  else (p, call (.returned (.error (.notPrimary key))))

/-- `Read` up to the loop of `readFromPeers` or of `readQuorum`. -/
def startRead (key : String) : Proc × Call :=
  let call := Call.begin self (.read key)
  if w.isInReplicaSet self key then
    match w.cfg.readConsistency with
    | .primary =>
        if w.isPrimary self key then
          (p.get now key, call (.returned (.ofGet (p.store.get now key).2)))
        else (p, call (.returned (.error .notInReplicaSet)))
    | .any =>
        match (p.store.get now key).2 with
        | some v => (p.get now key, call (.returned (.value v)))
        | none =>
            match w.replicaSet key with
            | .error err => (p.get now key, call (.returned (.error (.lookup err))))
            | .ok owners => (p.get now key, call (.visiting owners))
    | _ =>
        match w.replicaSet key with
        | .error err => (p, call (.returned (.error (.lookup err))))
        | .ok owners => (p, call (.visiting owners))
  else (p, call (.returned (.error .notInReplicaSet)))

def start : Op → Proc × Call
  | .set key value ttl => startSet w self now p key value ttl
  | .delete key => startDelete w self now p key
  | .read key => startRead w self now p key

end Entry

/-- The loop of `readQuorum` over the answers, and the statements after it. -/
def countAnswers (readQuorum : Int) :
    List (Option (List UInt8)) → GoMap (List UInt8) Nat → Nat → Option (List UInt8) → Result
  -- No value has won, yet enough values came: the first of them is returned.
  | [], _, found, winner =>
      if readQuorum ≤ found then .value (winner.getD [])
      else if found = 0 then .notFound
      else .error .readQuorumNotMet
  | none :: rest, values, found, winner => countAnswers readQuorum rest values found winner
  | some v :: rest, values, found, winner =>
      let votes := (values.lookup v).getD 0 + 1
      if readQuorum ≤ votes then .value v
      else countAnswers readQuorum rest (values.insert v votes) (found + 1) (winner.or (some v))

namespace Call

variable (w : Setup) (now : Int) (p : Proc) (call : Call)

/-- What a call asks each node of the replica set for. -/
def request : Request :=
  match call.op with
  | .set key value ttl => .replSet key value (wireTTL ttl)
  | .delete key => .replDelete key
  | .read key => .replGet key

/-- What a call that has not reached enough nodes sends to those it has reached. A read
takes nothing back. -/
def takesBack : Request :=
  match call.op with
  | .set key _ _ => .replDelete key
  | .delete key => .replSet key call.existing 0
  | .read key => .replGet key

/-- `readQuorum` rather than `readFromPeers`. -/
def polls : Bool :=
  match call.op with
  | .read _ => w.cfg.readConsistency ≠ .any
  | _ => false

/-- `WriteDelete` and `readFromPeers` wait for each node before they turn to the next;
`WriteSet` and `readQuorum` start a goroutine for each. -/
def oneByOne : Bool :=
  match call.op with
  | .set _ _ _ => false
  | .delete _ => true
  | .read _ => w.cfg.readConsistency = .any

/-- The test at the head of each of the four loops. Only `readQuorum` turns to its own
node as well. -/
def skips (node : Node) : Bool :=
  (!call.polls w && node.id = call.node) || !p.isHealthy node.id

/-- The statements after the loop, once every round trip has come back. -/
def finish : Proc × Call :=
  match call.op with
  | .set _ _ _ =>
      if call.results.length < w.required then
        (p, { call with phase := .undoing (call.results.map Prod.fst) })
      else (p, { call with phase := .returned .stored })
  | .delete key =>
      if call.results.length < w.required then
        (p, { call with phase := .undoing (call.results.map Prod.fst) })
      else
        (p.delete now key,
          { call with phase := .returned (.deleted (p.store.delete now key).2) })
  | .read _ =>
      if call.polls w then
        (p, { call with
          phase := .returned (countAnswers w.cfg.readQuorum
            (call.results.map fun r => r.2.answer) ∅ 0 none) })
      else (p, { call with phase := .returned .notFound })

/-- The statements after the loop over the nodes that had acknowledged. -/
def undone : Proc × Call :=
  let result := Phase.returned (.error (.quorumNotMet call.results.length w.required))
  match call.op with
  -- Whatever is under the key by now.
  | .set key _ _ => (p.delete now key, { call with phase := result })
  | _ => (p, { call with phase := result })

/-- One step of the call's own thread, with the requests it sends. -/
def advance : Option (Proc × Call × List (String × Request)) :=
  match call.phase with
  | .visiting (node :: rest) =>
      if call.oneByOne w ∧ call.running ≠ [] then none
      else if call.skips w p node then some (p, { call with phase := .visiting rest }, [])
      else some (p,
        { call with
          phase := .visiting rest
          running := call.running ++ [(node.id, call.request)] },
        -- The own node is read by a goroutine, without a message.
        if node.id = call.node then [] else [(node.id, call.request)])
  | .visiting [] =>
      if call.running ≠ [] then none
      else some ((call.finish w now p).1, (call.finish w now p).2, [])
  | .undoing (id :: rest) =>
      if call.running ≠ [] then none
      else some (p,
        { call with phase := .undoing rest, running := [(id, call.takesBack)] },
        [(id, call.takesBack)])
  | .undoing [] =>
      if call.running ≠ [] then none
      else some ((call.undone w now p).1, (call.undone w now p).2, [])
  | .returned _ => none

/-- The branch of `select` for a context that is done. -/
def cancel : Option (Proc × Call) :=
  match call.phase, call.op with
  | .visiting [], .set key _ _ =>
      some (p.delete now key, { call with phase := .returned (.error .contextDone) })
  | .visiting [], .read _ =>
      if call.polls w then some (p, { call with phase := .returned (.error .contextDone) })
      else none
  | _, _ => none

/-- A round trip comes back, with a response or without. `readFromPeers` returns the
first value; the loops that take something back look at nothing. -/
def complete (peer : String) (req : Request) (outcome : Option Response) : Proc × Call :=
  let call := { call with running := call.running.erase (peer, req) }
  if req = call.request then
    match outcome with
    | none => (p.mark peer false, call)
    | some resp =>
        (p.mark peer true,
          match call.polls w, call.op, resp with
          | false, .read _, .value v => { call with phase := .returned (.value v) }
          | _, _, _ => { call with results := call.results ++ [(peer, resp)] })
  else (p, call)

/-- The goroutine of `readQuorum` that reads the local store. -/
def getLocal : Proc × Call :=
  let call' := { call with running := call.running.erase (call.node, call.request) }
  (p.get now call.op.key,
    { call' with
      results := call.results ++ [(call.node, .ofGet (p.store.get now call.op.key).2)] })

end Call

end DistributedCache.Replication
