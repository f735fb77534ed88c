import DistributedCache.Raft.Consistent

/-!
The timers of `internal/raft`: when a tick starts an election or sends heartbeats.

A timed deployment adds to each node its two deadlines. A step reads the clock, draws
a random number and does what the untimed step does; only ticks start elections and send
heartbeats, and only once the deadline has passed. Times and durations are in
nanoseconds. Durations are numbers of 64 bits and their sums wrap around.
-/
namespace DistributedCache.Raft

open Transition (visited)

structure Config where
  electionTimeoutMin : Int
  electionTimeoutMax : Int
  heartbeatInterval : Int
  rpcTimeout : Int
  deriving DecidableEq, Repr

def defaultConfig : Config where
  electionTimeoutMin := 150000000
  electionTimeoutMax := 300000000
  heartbeatInterval := 50000000
  rpcTimeout := 500000000

/-- The sum of `time.Duration` values, in 64 bits. -/
def duration (d : Int) : Int :=
  d.bmod (2 ^ 64)

namespace Config

def normalize (c : Config) : Config :=
  let min := if c.electionTimeoutMin ≤ 0 then defaultConfig.electionTimeoutMin
    else c.electionTimeoutMin
  { electionTimeoutMin := min
    electionTimeoutMax := if c.electionTimeoutMax ≤ min then duration (min + 150000000)
      else c.electionTimeoutMax
    heartbeatInterval := if c.heartbeatInterval ≤ 0 then defaultConfig.heartbeatInterval
      else c.heartbeatInterval
    rpcTimeout := if c.rpcTimeout ≤ 0 then defaultConfig.rpcTimeout else c.rpcTimeout }

/-- What `resetElectionDeadlineLocked` draws its random number below. -/
def jitter (c : Config) : Int :=
  let jitter := duration (c.electionTimeoutMax - c.electionTimeoutMin)
  if jitter ≤ 0 then 1000000 else jitter

def electionDeadline (c : Config) (now draw : Int) : Int :=
  now + duration (c.electionTimeoutMin + draw)

def heartbeatDeadline (c : Config) (now : Int) : Int :=
  now + c.heartbeatInterval

/-- The timeouts, with the 150 ms that may be added to them, are durations. -/
structure Fits (c : Config) : Prop where
  min : c.electionTimeoutMin + 150000000 < 2 ^ 63
  max : c.electionTimeoutMax < 2 ^ 63

theorem Fits.normalize {c : Config} (h : c.Fits) :
    0 < c.normalize.electionTimeoutMin ∧
      c.normalize.electionTimeoutMin < c.normalize.electionTimeoutMax ∧
      c.normalize.electionTimeoutMax < 2 ^ 63 := by
  have min := h.min
  have max := h.max
  have positive : 0 < c.normalize.electionTimeoutMin ∧
      c.normalize.electionTimeoutMin + 150000000 < 2 ^ 63 := by
    simp only [Config.normalize, defaultConfig]
    split <;> omega
  refine ⟨positive.1, ?_⟩
  change c.normalize.electionTimeoutMin < (if c.electionTimeoutMax ≤
    c.normalize.electionTimeoutMin then duration (c.normalize.electionTimeoutMin + 150000000)
    else c.electionTimeoutMax) ∧ (if c.electionTimeoutMax ≤ c.normalize.electionTimeoutMin
    then duration (c.normalize.electionTimeoutMin + 150000000) else c.electionTimeoutMax) < 2 ^ 63
  have sum : duration (c.normalize.electionTimeoutMin + 150000000) =
      c.normalize.electionTimeoutMin + 150000000 :=
    Int.bmod_eq_of_le (by omega) (by omega)
  rw [sum]
  split <;> omega

/-- The deadline lies between the two timeouts from the reading on. -/
theorem Fits.electionDeadline {c : Config} (h : c.Fits) (now : Int) {draw : Int}
    (nonneg : 0 ≤ draw) (below : draw < c.normalize.jitter) :
    now + c.normalize.electionTimeoutMin ≤ c.normalize.electionDeadline now draw ∧
      c.normalize.electionDeadline now draw < now + c.normalize.electionTimeoutMax := by
  obtain ⟨positive, wider, max⟩ := h.normalize
  have width : c.normalize.jitter =
      c.normalize.electionTimeoutMax - c.normalize.electionTimeoutMin := by
    have difference : duration (c.normalize.electionTimeoutMax - c.normalize.electionTimeoutMin) =
        c.normalize.electionTimeoutMax - c.normalize.electionTimeoutMin :=
      Int.bmod_eq_of_le (by omega) (by omega)
    rw [jitter, difference, if_neg (by omega)]
  have sum : duration (c.normalize.electionTimeoutMin + draw) =
      c.normalize.electionTimeoutMin + draw :=
    Int.bmod_eq_of_le (by omega) (by omega)
  rw [Config.electionDeadline, sum]
  omega

end Config

/-- Whether the section resets the election deadline: a new candidacy, a term taken over, a
vote given or a leader heard of. -/
def Node.restarts (n : Node) : Input → Bool
  | .act (.timeout _) => true
  | .message (.voteCall call) => n.currentTerm < call.req.term ||
      (n.handleRequestVote call.req).toOption.any fun r => r.2.voteGranted
  | .message (.voteReply _ resp) => n.currentTerm < resp.term
  | .message (.appendCall call) => n.currentTerm ≤ call.req.term
  | .message (.appendReply _ resp) => n.currentTerm < resp.term
  | .act _ => false

/-- Whether the goroutine makes the node leader, which resets the heartbeat deadline. -/
def Proc.wins (p : Proc) (k : Nat) : Bool :=
  match p.tasks[k]? with
  | some (.electing term) | some (.winning term) =>
      p.node.role = .candidate ∧ p.node.currentTerm = term
  | _ => false

/-- The process that an action runs a section of, and what it handles. -/
def Setup.input (S : Setup) (σ : Sys) : Action → Option (String × Input)
  | .deliver k => do
      let m ← σ.net[k]?
      let i ← S.target σ m
      pure (i, .message m)
  | .lose _ => none
  | a => a.actor.map fun i => (i, .act a)

/-- What a step reads of the clock, at a tick and where it calls `time.Now` again, and what
it draws. -/
structure Reading where
  now : Int
  again : Int
  draw : Int
  deriving DecidableEq, Repr

structure Timed where
  sys : Sys
  election : String → Int
  heartbeat : String → Int
  clock : Int

inductive TimedAction
  | tick (i : String)
  | step (a : Action)
  deriving DecidableEq, Repr

namespace Timed

/-- The step resets the election deadline of node `i`. -/
def restarts (S : Setup) (σ : Sys) (a : Action) (i : String) : Bool :=
  (S.input σ a).any fun x => x.1 = i && (σ.node i).restarts x.2

/-- The reading from which the step resets the heartbeat deadline of node `i`, if it does. -/
def rearms (σ : Sys) (r : Reading) (a : Action) (i : String) : Option Int :=
  match a with
  | .heartbeat j => if j = i then some r.now else none
  | .resume j k => if j = i ∧ (σ.procs i).wins k then some r.again else none
  | _ => none

/-- What `tick` goes on to do. -/
def due (s : Timed) (now : Int) (i : String) : Option Action :=
  if (s.sys.node i).role = .leader then
    if s.heartbeat i < now then some (.heartbeat i) else none
  else if s.election i < now then some (.timeout i) else none

/-- The untimed step that a timed one takes, if any. -/
def fired (s : Timed) (now : Int) : TimedAction → Option Action
  | .tick i => s.due now i
  | .step a => some a

def fire (S : Setup) (c : Config) (s : Timed) (r : Reading) (a : Action) : Go Timed := do
  let sys ← Raft.exec S s.sys a
  pure {
    sys := sys
    election := fun i =>
      if restarts S s.sys a i then c.electionDeadline r.again r.draw else s.election i
    heartbeat := fun i =>
      match rearms s.sys r a i with
      | some now => c.heartbeatDeadline now
      | none => s.heartbeat i
    clock := r.again }

/-- Elections and heartbeats are left to the ticks. -/
def allowed : TimedAction → Bool
  | .step (.timeout _) | .step (.heartbeat _) => false
  | .step _ | .tick _ => true

def exec (S : Setup) (c : Config) (s : Timed) (l : Reading × TimedAction) : Go Timed :=
  if s.clock ≤ l.1.now ∧ l.1.now ≤ l.1.again ∧ 0 ≤ l.1.draw ∧ l.1.draw < c.jitter ∧ allowed l.2
  then
    match s.fired l.1.now l.2 with
    | some a => s.fire S c l.1 a
    | none => pure { s with clock := l.1.again }
  else .error .disabled

/-- Node `i` was made at `made i` with its first draw. -/
def start (S : Setup) (c : Config) (made draw : String → Int) (clock : Int) : Timed where
  sys := S.start
  election i := c.electionDeadline (made i) (draw i)
  heartbeat _ := 0
  clock := clock

/-- The transition system of the deployment with its timers. -/
def system (S : Setup) (c : Config) (made : String → Int) :
    Transition.System Timed (Reading × TimedAction) :=
  Transition.ofExec (fun s => ∃ draw clock, (∀ i, made i ≤ clock ∧ 0 ≤ draw i ∧
    draw i < c.jitter) ∧ s = start S c made draw clock) (exec S c)

end Timed

abbrev TimedRun (S : Setup) (c : Config) (made : String → Int)
    (past : List (Timed × (Reading × TimedAction))) (s : Timed) : Prop :=
  Transition.Run (Timed.system S c made) past s

/-- Timed runs given by their steps are checked by evaluation. -/
theorem TimedRun.of_steps (S : Setup) (c : Config) {made draw : String → Int} {clock : Int}
    (first : ∀ i, made i ≤ clock ∧ 0 ≤ draw i ∧ draw i < c.jitter)
    (steps : List (Reading × TimedAction))
    (check : List (Timed × (Reading × TimedAction)) → Timed → Bool)
    (h : (Transition.trace (Timed.exec S c) [] (Timed.start S c made draw clock) steps).any
      (fun r => check r.1 r.2) = true) :
    ∃ past s, TimedRun S c made past s ∧ check past s = true :=
  Transition.Run.of_trace _ ⟨draw, clock, first, rfl⟩ steps check h

namespace Timed

variable {S : Setup} {c : Config} {made : String → Int}
  {past : List (Timed × (Reading × TimedAction))} {s s' : Timed} {r : Reading}
  {act : TimedAction} {i : String}

/-- A timed step lets time pass, or takes the untimed step and resets deadlines. -/
theorem exec_cases (h : s.exec S c (r, act) = .ok s') :
    s.clock ≤ r.now ∧ r.now ≤ r.again ∧ 0 ≤ r.draw ∧ r.draw < c.jitter ∧
      s'.clock = r.again ∧
      ((s.fired r.now act = none ∧ s' = { s with clock := r.again }) ∨
        ∃ a, s.fired r.now act = some a ∧ Raft.exec S s.sys a = .ok s'.sys ∧
          (∀ i, s'.election i = if restarts S s.sys a i then c.electionDeadline r.again r.draw
            else s.election i) ∧
          ∀ i, s'.heartbeat i = match rearms s.sys r a i with
            | some now => c.heartbeatDeadline now
            | none => s.heartbeat i) := by
  unfold exec at h
  split at h
  · rename_i reads
    obtain ⟨later, again, nonneg, below, _⟩ := reads
    refine ⟨later, again, nonneg, below, ?_⟩
    dsimp only at h
    split at h
    · rename_i a ha
      obtain ⟨sys, step, h⟩ := Go.bind_eq_ok.mp h
      obtain rfl := Go.pure_eq_ok.mp h
      exact ⟨rfl, .inr ⟨a, ha, step, fun _ => rfl, fun _ => rfl⟩⟩
    · rename_i none
      obtain rfl := Go.pure_eq_ok.mp h
      exact ⟨rfl, .inl ⟨none, rfl⟩⟩
  · exact absurd h (by simp)

/-- The step of a run resets the election deadline of node `i`. -/
def restarted (S : Setup) (p : Timed × (Reading × TimedAction)) (i : String) : Bool :=
  (p.1.fired p.2.1.now p.2.2).any fun a => restarts S p.1.sys a i

/-- The reading from which the step of a run resets the heartbeat deadline of node `i`. -/
def rearmed (p : Timed × (Reading × TimedAction)) (i : String) : Option Int :=
  (p.1.fired p.2.1.now p.2.2).bind fun a => rearms p.1.sys p.2.1 a i

theorem restarted_of_fired {a : Action} (ha : s.fired r.now act = some a) (i : String) :
    restarted S (s, r, act) i = restarts S s.sys a i := by
  simp [restarted, ha]

theorem rearmed_of_fired {a : Action} (ha : s.fired r.now act = some a) (i : String) :
    rearmed (s, r, act) i = rearms s.sys r a i := by
  simp [rearmed, ha]

theorem le_of_rearms {σ : Sys} {a : Action} {t : Int} (order : r.now ≤ r.again)
    (h : rearms σ r a i = some t) : r.now ≤ t ∧ t ≤ r.again := by
  unfold rearms at h
  split at h
  · split at h
    · obtain rfl := Option.some.inj h
      exact ⟨Int.le_refl _, order⟩
    · exact absurd h (by simp)
  · split at h
    · obtain rfl := Option.some.inj h
      exact ⟨order, Int.le_refl _⟩
    · exact absurd h (by simp)
  · exact absurd h (by simp)

/-- No reading of the past is later than the clock. -/
structure Read (made : String → Int) (past : List (Timed × (Reading × TimedAction)))
    (s : Timed) : Prop where
  made : ∀ i, made i ≤ s.clock
  past : ∀ p ∈ past, p.2.1.now ≤ p.2.1.again ∧ p.2.1.again ≤ s.clock

theorem Read.step (h : Read made past s) (step : s.exec S c (r, act) = .ok s') :
    Read made ((s, r, act) :: past) s' := by
  obtain ⟨later, order, _, _, clock, _⟩ := exec_cases step
  refine ⟨fun i => ?_, fun p mem => ?_⟩
  · have := h.made i
    omega
  · rcases List.mem_cons.mp mem with rfl | mem
    · exact ⟨order, clock.ge⟩
    · have := h.past p mem
      omega

/-- The election deadline of node `i` is at least the shortest timeout after every reset,
and before the longest one after the last. -/
structure Awaits (S : Setup) (c : Config) (made : String → Int)
    (past : List (Timed × (Reading × TimedAction))) (s : Timed) (i : String) : Prop where
  early : made i + c.electionTimeoutMin ≤ s.election i ∧ ∀ p ∈ past, restarted S p i →
    p.2.1.again + c.electionTimeoutMin ≤ s.election i
  late : s.election i < made i + c.electionTimeoutMax ∨ ∃ p ∈ past, restarted S p i ∧
    s.election i < p.2.1.again + c.electionTimeoutMax

theorem Awaits.step (fits : c.Fits) (read : Read made past s)
    (h : Awaits S c.normalize made past s i) (step : s.exec S c.normalize (r, act) = .ok s') :
    Awaits S c.normalize made ((s, r, act) :: past) s' i := by
  obtain ⟨later, order, nonneg, below, _, quiet⟩ := exec_cases step
  have kept (same : s'.election i = s.election i)
      (still : restarted S (s, r, act) i = false) :
      Awaits S c.normalize made ((s, r, act) :: past) s' i := by
    obtain ⟨⟨start, resets⟩, late⟩ := h
    refine ⟨⟨same ▸ start, fun p mem reset => ?_⟩, ?_⟩
    · rcases List.mem_cons.mp mem with rfl | mem
      · simp [still] at reset
      · exact same ▸ resets p mem reset
    · rw [same]
      exact late.imp_right fun ⟨p, mem, reset⟩ => ⟨p, List.mem_cons_of_mem _ mem, reset⟩
  rcases quiet with ⟨none, rfl⟩ | ⟨a, ha, _, election, _⟩
  · exact kept rfl (by simp [restarted, none])
  · have now := restarted_of_fired (S := S) ha i
    have deadline := election i
    cases reset : restarts S s.sys a i with
    | false => exact kept (by simpa [reset] using deadline) (now.trans reset)
    | true =>
        rw [reset, if_pos rfl] at deadline
        obtain ⟨low, high⟩ := fits.electionDeadline r.again nonneg below
        have := fits.normalize
        refine ⟨⟨?_, fun p mem _ => ?_⟩, .inr ⟨_, List.mem_cons_self, now.trans reset, ?_⟩⟩
        · have := read.made i
          omega
        · rcases List.mem_cons.mp mem with rfl | mem
          · exact deadline ▸ low
          · have := read.past p mem
            omega
        · exact deadline ▸ high

end Timed

/-- A node becomes leader in the section of a goroutine that has won its election. -/
theorem Handles.led {membership : Bool} {p : Proc} {m : Input} {o : Out}
    (h : Handles membership p m o) (leads : o.proc.node.role = .leader) :
    p.node.role = .leader ∨ ∃ i k, m = .act (.resume i k) ∧ p.wins k = true := by
  have replicated {n n' : Node} {calls : List (Call AppendEntriesRequest)}
      (hrep : n.replicateLocked = .ok (n', calls)) : n'.role = n.role := by
    obtain ⟨⟨next, rfl⟩, _⟩ := Node.replicateLocked_ok hrep
    rfl
  have applied {q : Proc} {k : Cont} (happly : q.applyCommitted k = .ok o) :
      q.node.role = .leader := by
    obtain ⟨next, lastApplied, same⟩ := Proc.applyCommitted_node happly
    rwa [same] at leads
  cases h with
  | standAlone n el _ start _ | stand n el _ start _ =>
      obtain ⟨rfl, _⟩ := Node.startElectionLocked_ok start
      exact absurd leads (by simp)
  | heartbeat n calls already _ => exact .inl already
  | proposeAlone cmd o already _ _ => exact .inl already
  | propose cmd n calls already _ _ => exact .inl already
  | vote call n resp hvote =>
      have observed (lead : (p.node.observeVote call.req).role = .leader) :
          p.node.role = .leader := by
        unfold Node.observeVote at lead
        split at lead
        · exact absurd lead (by simp [Node.becomeFollowerLocked])
        · exact lead
      rcases Node.handleRequestVote_ok hvote with ⟨_, rfl, _⟩ | ⟨_, rfl, _⟩ | ⟨_, rfl, _⟩
      · exact .inl leads
      · exact .inl (observed leads)
      · exact .inl (observed leads)
  | rejected call n happ =>
      rcases Node.handleAppendEntries_rejected happ with ⟨_, rfl⟩ | ⟨_, rfl⟩
      · exact .inl leads
      · exact absurd leads (by simp [Node.observeLeader_follower])
  | stored call n happ =>
      obtain ⟨_, rfl⟩ := Node.handleAppendEntries_stored happ
      exact absurd ((Node.observeLeader_follower _ _).symm.trans leads) (by simp)
  | committed call n o happ happly =>
      obtain ⟨_, _, rfl⟩ := Node.handleAppendEntries_committed happ
      exact absurd ((Node.observeLeader_follower _ _).symm.trans (applied happly)) (by simp)
  | answered call resp n calls hresp =>
      rcases Node.handleAppendResponse_ok hresp with
        ⟨_, rfl, _⟩ | ⟨rfl, _⟩ | ⟨already, _⟩ | ⟨already, _⟩
      · exact absurd leads (by simp [Node.becomeFollowerLocked])
      · exact .inl leads
      · exact .inl already
      · exact .inl already
  | acknowledged call resp n o hresp _ =>
      exact .inl (Node.handleAppendResponse_commits hresp).1
  | win k term n calls task hwin =>
      rcases Node.winElection_ok hwin with ⟨rfl, _⟩ | ⟨stands, current, _⟩
      · exact .inl leads
      · refine .inr ⟨_, k, rfl, ?_⟩
        unfold Proc.wins
        rcases task with task | task <;> simp [task, stands, current]
  | run k d c _ =>
      have node := p.afterCallback_node membership d.entry.command
      exact .inl ((congrArg Node.role node).symm.trans leads)
  | addPeer k d c _ =>
      refine .inl ?_
      change (p.node.addPeer _ _).1.role = _ at leads
      unfold Node.addPeer at leads
      dsimp only at leads
      split at leads <;> exact leads
  | replicate k d c n calls _ hrep => exact .inl ((replicated hrep).symm.trans leads)
  | finish k d c o _ happly =>
      have finished : (p.node.finishApply d).1.role = p.node.role := by
        unfold Node.finishApply
        split <;> rfl
      exact .inl (finished.symm.trans (applied happly))
  | outvoted call resp _ => exact absurd leads (by simp [Node.becomeFollowerLocked])
  | refuse | granted _ _ _ | denied _ _ | count _ _ _ _ _ _ _ | countLast _ _ _ _ _ _ _
  | begin _ _ _ _ | removePeer _ _ _ _ | wake _ _ _ _ | cancel _ _ _ => exact .inl leads

namespace Timed

variable {S : Setup} {c : Config} {made : String → Int}
  {past : List (Timed × (Reading × TimedAction))} {s s' : Timed} {r : Reading}
  {act : TimedAction} {i : String}

/-- The heartbeat deadline of node `i` is one interval after the last of its resets, and a
leader has had one. -/
structure Beats (c : Config) (past : List (Timed × (Reading × TimedAction))) (s : Timed)
    (i : String) : Prop where
  after : ∀ p ∈ past, ∀ t, rearmed p i = some t → t + c.heartbeatInterval ≤ s.heartbeat i
  last : (s.sys.node i).role = .leader → ∃ p ∈ past, ∃ t, rearmed p i = some t ∧
    s.heartbeat i = t + c.heartbeatInterval

theorem Beats.step (read : Read made past s) (h : Beats c past s i)
    (step : s.exec S c (r, act) = .ok s') : Beats c ((s, r, act) :: past) s' i := by
  obtain ⟨later, order, _, _, _, quiet⟩ := exec_cases step
  have kept (same : s'.heartbeat i = s.heartbeat i) (still : rearmed (s, r, act) i = none)
      (role : (s'.sys.node i).role = .leader → (s.sys.node i).role = .leader) :
      Beats c ((s, r, act) :: past) s' i := by
    refine ⟨fun p mem t reset => ?_, fun leads => ?_⟩
    · rw [same]
      rcases List.mem_cons.mp mem with rfl | mem
      · exact absurd (still.symm.trans reset) (by simp)
      · exact h.after p mem t reset
    · obtain ⟨p, mem, rest⟩ := h.last (role leads)
      exact ⟨p, List.mem_cons_of_mem _ mem, same ▸ rest⟩
  rcases quiet with ⟨none, rfl⟩ | ⟨a, ha, untimed, _, heartbeat⟩
  · exact kept rfl (by simp [rearmed, none]) fun leads => leads
  · have now := rearmed_of_fired ha i
    have deadline := heartbeat i
    cases reset : rearms s.sys r a i with
    | none =>
        refine kept (by simpa [reset] using deadline) (now.trans reset) fun leads => ?_
        rcases exec_proc untimed i with same | ⟨m, o, feeds, hh, here⟩
        · rw [Sys.node, same] at leads
          exact leads
        · rw [Sys.node, here] at leads
          rcases hh.led leads with already | ⟨j, k, rfl, wins⟩
          · exact already
          · obtain ⟨rfl, actor, _⟩ := feeds
            obtain rfl := Option.some.inj actor
            simp [rearms, wins] at reset
    | some t =>
        have deadline : s'.heartbeat i = t + c.heartbeatInterval := by
          rw [deadline, reset]
          rfl
        obtain ⟨low, high⟩ := le_of_rearms order reset
        refine ⟨fun p mem t' reset' => ?_, fun _ => ⟨_, List.mem_cons_self, t, now.trans reset,
          deadline⟩⟩
        rw [deadline]
        rcases List.mem_cons.mp mem with rfl | mem
        · obtain rfl := Option.some.inj ((now.trans reset).symm.trans reset')
          exact Int.le_refl _
        · obtain ⟨order', old⟩ := read.past p mem
          obtain ⟨b, _, fired⟩ := Option.bind_eq_some_iff.mp reset'
          have := (le_of_rearms order' fired).2
          omega

end Timed

section Ticks

open Timed

variable {S : Setup} {c : Config} {made : String → Int}
  {past : List (Timed × (Reading × TimedAction))} {s : Timed}

/-- Node `i` was made and had its election deadline reset at least `d` before `now`. -/
def Silent (S : Setup) (made : String → Int) (past : List (Timed × (Reading × TimedAction)))
    (i : String) (now d : Int) : Prop :=
  made i + d ≤ now ∧ ∀ p ∈ past, restarted S p i → p.2.1.again + d ≤ now

theorem TimedRun.deadlines (fits : c.Fits) (run : TimedRun S c.normalize made past s)
    (i : String) : Read made past s ∧ Awaits S c.normalize made past s i ∧
      Beats c.normalize past s i := by
  refine Transition.Run.induct (C := fun _ _ => True) (I := fun past s => Read made past s ∧
    Awaits S c.normalize made past s i ∧ Beats c.normalize past s i) ?_ ?_ run fun _ _ => trivial
  · rintro _ ⟨draw, clock, first, rfl⟩
    obtain ⟨_, nonneg, below⟩ := first i
    obtain ⟨low, high⟩ := fits.electionDeadline (made i) nonneg below
    refine ⟨⟨fun j => (first j).1, nofun⟩, ⟨⟨low, nofun⟩, .inl high⟩, ⟨nofun, fun leads => ?_⟩⟩
    change (S.start.node i).role = .leader at leads
    rw [S.start_node] at leads
    exact absurd leads (by simp [newNode])
  · rintro past s ⟨r, act⟩ s' _ _ ⟨read, awaits, beats⟩ _ step
    exact ⟨read.step step, awaits.step fits read step, beats.step read step⟩

/-- A tick of a node that does not lead starts an election only after the shortest timeout
without a reset, and always after the longest. A tick of a leader sends heartbeats exactly
when more than the interval has passed since its election and since the last ones. -/
theorem ticks_on_time (fits : c.Fits) (run : TimedRun S c.normalize made past s) (i : String)
    (now : Int) :
    ((s.sys.node i).role ≠ .leader →
      (s.due now i = some (.timeout i) →
        Silent S made past i now c.normalize.electionTimeoutMin) ∧
      (Silent S made past i now c.normalize.electionTimeoutMax →
        s.due now i = some (.timeout i))) ∧
    ((s.sys.node i).role = .leader →
      (s.due now i = some (.heartbeat i) ↔ ∀ p ∈ past, ∀ t, rearmed p i = some t →
        t + c.normalize.heartbeatInterval < now)) := by
  obtain ⟨_, awaits, beats⟩ := run.deadlines fits i
  refine ⟨fun idle => ?_, fun leads => ?_⟩
  · simp only [due, if_neg idle, ite_eq_left_iff, reduceCtorEq, imp_false, not_not]
    obtain ⟨start, resets⟩ := awaits.early
    refine ⟨fun passed => ⟨by omega, fun p mem reset => ?_⟩, fun ⟨start, silent⟩ => ?_⟩
    · have := resets p mem reset
      omega
    · rcases awaits.late with first | ⟨p, mem, reset, last⟩
      · omega
      · have := silent p mem reset
        omega
  · simp only [due, if_pos leads, ite_eq_left_iff, reduceCtorEq, imp_false, not_not]
    refine ⟨fun passed p mem t reset => ?_, fun quiet => ?_⟩
    · have := beats.after p mem t reset
      omega
    · obtain ⟨p, mem, t, reset, last⟩ := beats.last leads
      have := quiet p mem t reset
      omega

instance (S : Setup) (made : String → Int) (past : List (Timed × (Reading × TimedAction)))
    (i : String) (now d : Int) : Decidable (Silent S made past i now d) :=
  inferInstanceAs (Decidable (_ ∧ ∀ p ∈ past, _ → _))

/-- Node a, made at 0 with a deadline at 150 ms, stands at 160 ms. It will stand again 300 ms
after that unless it hears of somebody. -/
theorem ticks_on_time_trio : ∃ past s,
    TimedRun trio defaultConfig.normalize (fun _ => 0) past s ∧
      (s.sys.node "a").role = .candidate ∧ s.due 460000001 "a" = some (.timeout "a") := by
  let c := defaultConfig
  have wide : 0 < c.normalize.jitter := by decide
  obtain ⟨past, s, run, check⟩ := TimedRun.of_steps trio c.normalize
    (fun _ => ⟨Int.le_refl 0, Int.le_refl 0, wide⟩)
    [(⟨140000000, 140000001, 0⟩, .tick "a"), (⟨160000000, 160000001, 7⟩, .tick "a")]
    (fun past s => decide ((s.sys.node "a").role = .candidate ∧
      Silent trio (fun _ => 0) past "a" 460000001 300000000)) (by decide +kernel)
  obtain ⟨stands, silent⟩ := of_decide_eq_true check
  have idle := (ticks_on_time (c := c) ⟨by decide, by decide⟩ run "a" 460000001).1
  exact ⟨past, s, run, stands, (idle (by simp [stands])).2 silent⟩

/-- Whatever the timers do, the nodes take a run of the untimed deployment. -/
theorem TimedRun.untimed (run : TimedRun S c made past s) :
    ∃ before, Run S before s.sys ∧ ∀ u ∈ visited past s, u.sys ∈ visited before s.sys := by
  induction run with
  | @start s initial =>
      obtain ⟨draw, clock, _, rfl⟩ := initial
      refine ⟨[], .start rfl, fun u mem => ?_⟩
      obtain rfl := List.mem_singleton.mp mem
      exact List.mem_singleton.mpr rfl
  | @next past s s' l run step ih =>
      obtain ⟨before, run', seen⟩ := ih
      have step : s.exec S c (l.1, l.2) = .ok s' := step
      obtain ⟨_, _, _, _, _, quiet⟩ := Timed.exec_cases step
      rcases quiet with ⟨_, rfl⟩ | ⟨a, _, untimed, _⟩
      · refine ⟨before, run', fun u mem => ?_⟩
        rcases List.mem_cons.mp mem with rfl | mem
        · exact Transition.mem_visited_self _ _
        · exact seen u mem
      · refine ⟨(s.sys, a) :: before, .next run' untimed, fun u mem => ?_⟩
        rcases List.mem_cons.mp mem with rfl | mem
        · exact Transition.mem_visited_self _ _
        · exact List.mem_cons_of_mem _ (seen u mem)

end Ticks

end DistributedCache.Raft
