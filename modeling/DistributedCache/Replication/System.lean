import Mathlib.Logic.Function.Basic
import DistributedCache.Cache.Representation
import DistributedCache.Replication.Manager

/-!
A replicated cluster with a fixed ring. Any number of calls run at any nodes; each
step is one section of one call, the handling of one request at its peer, or the end
of one round trip. Every round trip has a connection of its own, so requests arrive
in any order, and one whose sender has given up may still arrive.

Each step brings the reading of the clock at the node that takes it.
-/
namespace DistributedCache.Replication

/-- A request or a response on the connection of one round trip: that of call `call`
to node `peer` for `req`. -/
inductive Msg
  | request (call : Nat) (peer : String) (req : Request)
  | response (call : Nat) (peer : String) (req : Request) (resp : Response)
  deriving DecidableEq, Repr

/-- Calls are numbered in the order in which they start. -/
structure Sys where
  procs : String → Proc
  calls : List Call
  net : List Msg

inductive Action
  | start (node : String) (op : Op)
  | advance (call : Nat)
  | cancel (call : Nat)
  | deliver (msg : Msg)
  | lose (msg : Msg)
  | fail (call : Nat) (peer : String) (req : Request)
  | getLocal (call : Nat)
  | mark (node peer : String) (healthy : Bool)
  | cleanupExpired (node : String)
  deriving DecidableEq, Repr

/-- The step is not possible in the state. -/
inductive Disabled
  | disabled
  deriving DecidableEq, Repr

namespace Sys

def put (s : Sys) (node : String) (p : Proc) : Sys :=
  { s with procs := Function.update s.procs node p }

/-- The state after a step of a call at a node. -/
def resume (s : Sys) (c : Nat) (node : String) (next : Proc × Call) : Sys :=
  { s.put node next.1 with calls := s.calls.set c next.2 }

def send (s : Sys) (msgs : List Msg) : Sys :=
  { s with net := s.net ++ msgs }

def take (s : Sys) (msg : Msg) : Sys :=
  { s with net := s.net.erase msg }

end Sys

variable (w : Setup)

/-- A response finds its round trip still waiting, or nobody. -/
def receive (s : Sys) (c : Nat) (peer : String) (req : Request) (resp : Response) : Sys :=
  match s.calls[c]? with
  | some call =>
      if (peer, req) ∈ call.running then
        s.resume c call.node (call.complete w (s.procs call.node) peer req (req.outcome resp))
      else s
  | none => s

def exec (s : Sys) (x : Int × Action) : Except Disabled Sys :=
  match x.2 with
  | .start node op =>
      let next := start w node x.1 (s.procs node) op
      .ok { s.put node next.1 with calls := s.calls ++ [next.2] }
  | .advance c =>
      match s.calls[c]? with
      | none => .error .disabled
      | some call =>
          match call.advance w x.1 (s.procs call.node) with
          | none => .error .disabled
          | some (p, call', out) =>
              .ok ((s.resume c call.node (p, call')).send (out.map fun r => .request c r.1 r.2))
  | .cancel c =>
      match s.calls[c]? with
      | none => .error .disabled
      | some call =>
          match call.cancel w x.1 (s.procs call.node) with
          | none => .error .disabled
          | some next => .ok (s.resume c call.node next)
  | .deliver msg =>
      if msg ∈ s.net then
        match msg with
        | .request c peer req =>
            let next := serve w peer x.1 (s.procs peer) req
            .ok (((s.take msg).put peer next.1).send [.response c peer req next.2])
        | .response c peer req resp => .ok (receive w (s.take msg) c peer req resp)
      else .error .disabled
  | .lose msg => if msg ∈ s.net then .ok (s.take msg) else .error .disabled
  | .fail c peer req =>
      match s.calls[c]? with
      | none => .error .disabled
      | some call =>
          if (peer, req) ∈ call.running ∧ peer ≠ call.node then
            .ok (s.resume c call.node (call.complete w (s.procs call.node) peer req none))
          else .error .disabled
  | .getLocal c =>
      match s.calls[c]? with
      | none => .error .disabled
      | some call =>
          if call.polls w ∧ (call.node, call.request) ∈ call.running then
            .ok (s.resume c call.node (call.getLocal x.1 (s.procs call.node)))
          else .error .disabled
  -- The outcome of a ping, which no node sends to itself.
  | .mark node peer healthy =>
      if peer ≠ node then .ok (s.put node ((s.procs node).mark peer healthy))
      else .error .disabled
  | .cleanupExpired node =>
      .ok (s.put node { s.procs node with store := (s.procs node).store.cleanupExpired x.1 })

/-- The state before any call: any contents, and any view of the other nodes' health. -/
structure Sys.Initial (s : Sys) : Prop where
  calls : s.calls = []
  net : s.net = []
  sound : ∀ i, (s.procs i).store.Sound
  self : ∀ i, (s.procs i).isHealthy i = true

abbrev Run (past : List (Sys × Int × Action)) (s : Sys) : Prop :=
  Transition.Run (Transition.ofExec Sys.Initial (exec w)) past s

/-- A run that goes on from the state `u`. -/
abbrev RunFrom (u : Sys) (past : List (Sys × Int × Action)) (s : Sys) : Prop :=
  Transition.Run (Transition.ofExec (· = u) (exec w)) past s

/-- Call `c`, of `op` at `node`, has returned. -/
def Sys.Returned (s : Sys) (c : Nat) (node : String) (op : Op) (result : Result) : Prop :=
  ∃ call, s.calls[c]? = some call ∧ call.node = node ∧ call.op = op ∧
    call.phase = .returned result

instance (s : Sys) (c : Nat) (node : String) (op : Op) (result : Result) :
    Decidable (s.Returned c node op result) :=
  decidable_of_iff (s.calls[c]?.any (fun call => decide (call.node = node ∧ call.op = op ∧
    call.phase = .returned result)) = true) (by simp [Sys.Returned, Option.any_eq_true])

/-- Runs given by their steps are checked by evaluation. -/
theorem RunFrom.of_steps (u : Sys) (steps : List (Int × Action))
    (check : List (Sys × Int × Action) → Sys → Bool)
    (h : (Transition.trace (exec w) [] u steps).any (fun r => check r.1 r.2) = true) :
    ∃ past s, RunFrom w u past s ∧ check past s = true :=
  Transition.Run.of_trace (fun s => s = u) rfl steps check h

/-- One run after another, which takes up the state that `next` makes of the last one. -/
theorem RunFrom.of_steps_via (u : Sys) (next : Sys → Sys) (steps more : List (Int × Action))
    (first last : List (Sys × Int × Action) → Sys → Bool)
    (h : (Transition.trace (exec w) [] u steps).any (fun r => first r.1 r.2 &&
      (Transition.trace (exec w) [] (next r.2) more).any (fun q => last q.1 q.2)) = true) :
    ∃ past v past' s, RunFrom w u past v ∧ first past v = true ∧ RunFrom w (next v) past' s ∧
      last past' s = true := by
  obtain ⟨past, v, run, seen⟩ := RunFrom.of_steps w u steps
    (fun past v => first past v &&
      (Transition.trace (exec w) [] (next v) more).any (fun q => last q.1 q.2)) h
  obtain ⟨here, seen⟩ := (Bool.and_eq_true _ _).mp seen
  obtain ⟨past', s, run', there⟩ := RunFrom.of_steps w (next v) more last seen
  exact ⟨past, v, past', s, run, here, run', there⟩

theorem RunFrom.of_steps_then (u : Sys) (steps more : List (Int × Action))
    (first last : List (Sys × Int × Action) → Sys → Bool)
    (h : (Transition.trace (exec w) [] u steps).any (fun r => first r.1 r.2 &&
      (Transition.trace (exec w) [] r.2 more).any (fun q => last q.1 q.2)) = true) :
    ∃ past v past' s, RunFrom w u past v ∧ first past v = true ∧ RunFrom w v past' s ∧
      last past' s = true :=
  RunFrom.of_steps_via w u id steps more first last h

/-- The state a call starts with. -/
def Sys.started (s : Sys) (now : Int) (node : String) (op : Op) : Sys :=
  let next := start w node now (s.procs node) op
  { s.put node next.1 with calls := s.calls ++ [next.2] }

/-- Three nodes that stand in the order of their names after every key. -/
def sampleHash (key : String) : UInt32 :=
  if key = "a#0" then 1 else if key = "b#0" then 2 else if key = "c#0" then 3 else 0

def sampleRing : Cluster.Ring :=
  (((Cluster.newRing ⟨1, sampleHash⟩).join ⟨"a", "a:1"⟩).join ⟨"b", "b:1"⟩).join ⟨"c", "c:1"⟩

theorem sampleRing_built : sampleRing.Built :=
  (((Cluster.Ring.Built.new ⟨1, sampleHash⟩).join _).join _).join _

/-- The default settings on this ring. -/
def sample : Setup :=
  ⟨defaultConfig, sampleRing⟩

/-- The two peers of `a` acknowledge the write of call `c`. -/
def sampleAcks (c : Nat) (key : String) (v : List UInt8) : List (Int × Action) :=
  [.advance c, .advance c, .advance c, .deliver (.request c "b" (.replSet key v 0)),
    .deliver (.request c "c" (.replSet key v 0)),
    .deliver (.response c "b" (.replSet key v 0) .ok),
    .deliver (.response c "c" (.replSet key v 0) .ok), .advance c].map fun a => (0, a)

/-- Empty stores with the given limits. -/
def Sys.empty (maxBytes : String → Int) : Sys where
  procs i := ⟨Cache.newStore (maxBytes i), ∅⟩
  calls := []
  net := []

theorem Sys.empty_initial (maxBytes : String → Int) : (Sys.empty maxBytes).Initial where
  calls := rfl
  net := rfl
  sound := fun i => Cache.Store.sound_newStore (maxBytes i)
  self := fun _ => rfl

/-- Stores with the given limits, each with the given value and TTL under `k`, if any. -/
def Sys.holding (maxBytes : String → Int) (held : String → Option (List UInt8 × Int)) : Sys where
  procs i :=
    { store := match held i with
        | some (v, ttl) => ((Cache.newStore (maxBytes i)).set 0 "k" v ttl).1
        | none => Cache.newStore (maxBytes i)
      health := ∅ }
  calls := []
  net := []

theorem Sys.holding_initial (maxBytes : String → Int)
    (held : String → Option (List UInt8 × Int)) : (Sys.holding maxBytes held).Initial where
  calls := rfl
  net := rfl
  sound := fun i => by
    dsimp only [Sys.holding]
    split
    · exact (Cache.Store.sound_newStore (maxBytes i)).set 0 "k" _ _
    · exact Cache.Store.sound_newStore (maxBytes i)
  self := fun _ => rfl

end DistributedCache.Replication
