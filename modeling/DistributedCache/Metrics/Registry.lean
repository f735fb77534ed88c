import Mathlib.Data.String.Basic
import DistributedCache.Lib.GoMap
import DistributedCache.Metrics.Latency

/-!
The registry of `internal/metrics`: counters of requests and errors, for each command and in
all, and the latencies of each command.

A call holds the mutex of the registry, and `Observe` then the one of the tracker; the calls
come one after another here. Counters are numbers without bound: no registry sees `2^63`
requests.
-/
namespace DistributedCache.Metrics

structure CommandMetrics where
  requests : Nat := 0
  errors : Nat := 0
  latency : LatencyTracker

structure Registry where
  commands : GoMap String CommandMetrics
  total : Nat
  errors : Nat
  maxSamples : Int

def defaultMaxSamples : Int := 8192

def newRegistry : Registry where
  commands := ∅
  total := 0
  errors := 0
  maxSamples := defaultMaxSamples

structure CommandSnapshot where
  command : String
  requests : Nat
  errors : Nat
  latency : LatencySnapshot
  deriving DecidableEq, Repr, Inhabited

structure Snapshot where
  generatedAt : Int
  total : Nat
  errors : Nat
  commands : List CommandSnapshot
  deriving DecidableEq, Repr

def CommandMetrics.snapshot (command : String) (metrics : CommandMetrics) :
    Option CommandSnapshot := do
  let latency ← computeLatencySnapshot metrics.latency.samples.toList
  some {
    command := command
    requests := metrics.requests
    errors := metrics.errors
    latency := latency }

/-- A request to a command: how long it took, and whether it failed. -/
structure Observation where
  command : String
  latency : Int
  isError : Bool
  deriving DecidableEq, Repr

/-- A counter that goes up with a condition. -/
def countIf (isError : Bool) (n : Nat) : Nat :=
  if isError then n + 1 else n

def CommandMetrics.observe (growth : Nat → Nat) (metrics : CommandMetrics) (o : Observation) :
    Option CommandMetrics := do
  let latency ← metrics.latency.observe growth o.latency
  some {
    requests := metrics.requests + 1
    errors := countIf o.isError metrics.errors
    latency := latency }

namespace Registry

/-- The metrics of a command, new ones if there are none yet. -/
def metrics (r : Registry) (command : String) : CommandMetrics :=
  (r.commands.lookup command).getD { latency := { samples := .nil, capacity := r.maxSamples } }

def observe (growth : Nat → Nat) (r : Registry) (o : Observation) : Option Registry := do
  let metrics ← (r.metrics o.command).observe growth o
  some { r with
    commands := r.commands.insert o.command metrics
    total := r.total + 1
    errors := countIf o.isError r.errors }

def reset (r : Registry) : Registry :=
  { r with commands := ∅, total := 0, errors := 0 }

/-- The report, with the commands in the order of their names. -/
def snapshot (r : Registry) (now : Int) : Option Snapshot := do
  let commands ← r.commands.entries.mapM fun e => e.2.snapshot e.1
  some {
    generatedAt := now
    total := r.total
    errors := r.errors
    commands := commands.insertionSort fun a b => a.command ≤ b.command }

end Registry

inductive Call
  | observe (o : Observation)
  | reset
  deriving DecidableEq, Repr

def Registry.call (growth : Nat → Nat) (r : Registry) : Call → Option Registry
  | .observe o => r.observe growth o
  | .reset => some r.reset

/-- The registry after some calls, unless one of them panics. -/
def Registry.run (growth : Nat → Nat) (r : Registry) (calls : List Call) : Option Registry :=
  calls.foldlM (Registry.call growth) r

/-- What a call makes of the observations since the last `Reset`. -/
def Call.note (seen : List Observation) : Call → List Observation
  | .observe o => seen ++ [o]
  | .reset => []

/-- What is observed after the last `Reset` of some calls. -/
def sinceReset (calls : List Call) : List Observation :=
  calls.foldl Call.note []

/-- The observations of a command. -/
def about (command : String) (seen : List Observation) : List Observation :=
  seen.filter fun o => o.command = command

/-- The number of errors among some observations. -/
def failures (seen : List Observation) : Nat :=
  (seen.filter Observation.isError).length

section Observations

variable {o : Observation} {seen : List Observation} {command : String}

theorem about_concat_self (seen : List Observation) (o : Observation) :
    about o.command (seen ++ [o]) = about o.command seen ++ [o] := by
  simp [about]

theorem about_concat_of_ne (other : o.command ≠ command) (seen : List Observation) :
    about command (seen ++ [o]) = about command seen := by
  simp [about, other]

theorem failures_concat (seen : List Observation) (o : Observation) :
    failures (seen ++ [o]) = countIf o.isError (failures seen) := by
  cases failed : o.isError <;> simp [failures, countIf, failed]

theorem about_eq_nil_iff : about command seen = [] ↔ ∀ o ∈ seen, o.command ≠ command := by
  simp [about, List.filter_eq_nil_iff]

/-- Counting the observations of each command counts all of them. -/
theorem sum_length_about {commands : List String} (nodup : commands.Nodup)
    (known : ∀ o ∈ seen, o.command ∈ commands) :
    (commands.map fun command => (about command seen).length).sum = seen.length := by
  induction commands generalizing seen with
  | nil =>
      have empty : seen = [] := List.eq_nil_iff_forall_not_mem.mpr fun o mem => by
        simpa using known o mem
      rw [empty]
      rfl
  | cons command commands ih =>
      obtain ⟨fresh, nodup⟩ := List.nodup_cons.mp nodup
      -- the other commands are counted among the observations that are not of this one
      have others : (commands.map fun k =>
          (about k (seen.filter fun o => o.command ≠ command)).length).sum =
          (seen.filter fun o => o.command ≠ command).length := by
        refine ih nodup ?_
        intro o mem
        have mem := List.mem_filter.mp mem
        exact List.mem_of_ne_of_mem (of_decide_eq_true mem.2) (known o mem.1)
      have same : ∀ k ∈ commands, (about k (seen.filter fun o => o.command ≠ command)).length =
          (about k seen).length := by
        intro k mem
        have differs : k ≠ command := ne_of_mem_of_not_mem mem fresh
        simp only [about, List.filter_filter]
        congr 2
        funext o
        by_cases named : o.command = k <;> simp [named, differs]
      have parts := List.length_eq_length_filter_add (l := seen) fun o =>
        decide (o.command = command)
      rw [List.map_congr_left same] at others
      rw [List.map_cons, List.sum_cons, others, parts]
      simp [about]

theorem failures_about (command : String) (seen : List Observation) :
    failures (about command seen) = (about command (seen.filter Observation.isError)).length := by
  simp only [failures, about, List.filter_filter, Bool.and_comm]

end Observations

/-- The metrics of a command after these observations of it. -/
structure CommandMetrics.Tracks (m : CommandMetrics) (c : Int) (seen : List Observation) :
    Prop where
  requests : m.requests = seen.length
  errors : m.errors = failures seen
  latency : m.latency.Tracks c (seen.map Observation.latency)

/-- The registry after these observations. -/
structure Registry.Tracks (r : Registry) (c : Int) (seen : List Observation) : Prop where
  maxSamples : r.maxSamples = c
  total : r.total = seen.length
  errors : r.errors = failures seen
  known (command : String) : command ∈ r.commands ↔ ∃ o ∈ seen, o.command = command
  metrics (command : String) : (r.metrics command).Tracks c (about command seen)

section Tracks

variable {m : CommandMetrics} {r : Registry} {c : Int} {seen : List Observation}

theorem CommandMetrics.Tracks.observe (tracks : m.Tracks c seen) (positive : 1 ≤ c)
    (growth : Nat → Nat) (o : Observation) :
    ∃ m', m.observe growth o = some m' ∧ m'.Tracks c (seen ++ [o]) := by
  obtain ⟨latency, observed, window⟩ := tracks.latency.observe positive growth o.latency
  refine ⟨_, by rw [CommandMetrics.observe, observed]; rfl, ?_⟩
  exact {
    requests := by simp [tracks.requests]
    errors := by rw [failures_concat, tracks.errors]
    latency := by rwa [List.map_append] }

theorem Registry.tracks_empty {r : Registry} (maxSamples : r.maxSamples = c) (total : r.total = 0)
    (errors : r.errors = 0) (commands : r.commands = ∅) : r.Tracks c [] where
  maxSamples := maxSamples
  total := total
  errors := errors
  known command := by simp [commands]
  metrics command := by
    rw [Registry.metrics, commands]
    exact {
      requests := rfl
      errors := rfl
      latency := { capacity := maxSamples, samples := (lastN_eq_self (Nat.zero_le _)).symm } }

theorem Registry.Tracks.observe (tracks : r.Tracks c seen) (positive : 1 ≤ c)
    (growth : Nat → Nat) (o : Observation) :
    ∃ r', r.observe growth o = some r' ∧ r'.Tracks c (seen ++ [o]) := by
  obtain ⟨m, observed, counted⟩ := (tracks.metrics o.command).observe positive growth o
  refine ⟨_, by rw [Registry.observe, observed]; rfl, ?_⟩
  exact {
    maxSamples := tracks.maxSamples
    total := by simp [tracks.total]
    errors := by rw [failures_concat, tracks.errors]
    known := fun command => by
      rw [AList.mem_insert, tracks.known]
      simp [or_and_right, exists_or, or_comm, eq_comm]
    metrics := fun command => by
      unfold Registry.metrics
      by_cases same : o.command = command
      · subst same
        rw [AList.lookup_insert, about_concat_self]
        exact counted
      · rw [AList.lookup_insert_ne (Ne.symm same), about_concat_of_ne same]
        exact tracks.metrics command }

/-- One call. -/
theorem Registry.Tracks.call (tracks : r.Tracks c seen) (positive : 1 ≤ c)
    (growth : Nat → Nat) (call : Call) :
    ∃ r', r.call growth call = some r' ∧ r'.Tracks c (call.note seen) := by
  cases call with
  | observe o => exact tracks.observe positive growth o
  | reset => exact ⟨r.reset, rfl, tracks_empty tracks.maxSamples rfl rfl rfl⟩

/-- Every run: no call panics, and the registry tracks what is observed since the last
`Reset`. -/
theorem Registry.Tracks.run (tracks : r.Tracks c seen) (positive : 1 ≤ c) (growth : Nat → Nat)
    (calls : List Call) :
    ∃ r', r.run growth calls = some r' ∧ r'.Tracks c (calls.foldl Call.note seen) := by
  induction calls generalizing r seen with
  | nil => exact ⟨r, rfl, tracks⟩
  | cons call calls ih =>
      obtain ⟨r', called, tracks'⟩ := tracks.call positive growth call
      obtain ⟨r'', ran, tracks''⟩ := ih tracks'
      refine ⟨r'', ?_, tracks''⟩
      rw [Registry.run, List.foldlM_cons, called]
      exact ran

end Tracks

/-- What a report says about a command with these observations and a window of some size. -/
structure CommandSnapshot.Reports (s : CommandSnapshot) (c : Int) (seen : List Observation) :
    Prop where
  requests : s.requests = seen.length
  errors : s.errors = failures seen
  count : s.latency.count = (lastN c.toNat (seen.map Observation.latency)).length
  min : (lastN c.toNat (seen.map Observation.latency)).min? = some s.latency.min
  max : (lastN c.toNat (seen.map Observation.latency)).max? = some s.latency.max

section Snapshot

variable {m : CommandMetrics} {r : Registry} {c : Int} {seen : List Observation}

theorem CommandMetrics.Tracks.snapshot (tracks : m.Tracks c seen) (positive : 1 ≤ c)
    (nonempty : seen ≠ []) (command : String) :
    ∃ s, m.snapshot command = some s ∧ s.command = command ∧ s.Reports c seen := by
  have some : lastN c.toNat (seen.map Observation.latency) ≠ [] := by
    rw [← List.length_pos_iff, length_lastN, List.length_map]
    have length := List.length_pos_iff.mpr nonempty
    omega
  obtain ⟨summary, computed, count, least, greatest⟩ := computeLatencySnapshot_eq some
  rw [← tracks.latency.samples] at computed
  refine ⟨_, by rw [CommandMetrics.snapshot, computed]; rfl, rfl, ?_⟩
  exact {
    requests := tracks.requests
    errors := tracks.errors
    count := count
    min := least
    max := greatest }

/-- The commands of a registry can all be reported. -/
theorem Registry.Tracks.reports (tracks : r.Tracks c seen) (positive : 1 ≤ c)
    {e : (_ : String) × CommandMetrics} (mem : e ∈ r.commands.entries) :
    ∃ s, e.2.snapshot e.1 = some s ∧ s.command = e.1 ∧ s.Reports c (about e.1 seen) := by
  have found : r.commands.lookup e.1 = some e.2 := AList.mem_lookup_iff.mpr mem
  have tracked := tracks.metrics e.1
  rw [Registry.metrics, found] at tracked
  refine CommandMetrics.Tracks.snapshot tracked positive ?_ e.1
  intro none
  obtain ⟨o, seen, named⟩ := (tracks.known e.1).mp (GoMap.mem_iff.mpr ⟨e.2, found⟩)
  exact about_eq_nil_iff.mp none o seen named

theorem mapM_eq_some {α β : Type} {f : α → Option β} {g : α → β} {l : List α}
    (h : ∀ a ∈ l, f a = some (g a)) : l.mapM f = some (l.map g) := by
  induction l with
  | nil => rfl
  | cons a l ih =>
      rw [List.mapM_cons, h a List.mem_cons_self, ih fun b mem => h b (List.mem_cons_of_mem a mem)]
      rfl

/-- A report has one entry for each command, in the order of the names. -/
theorem Registry.Tracks.snapshot (tracks : r.Tracks c seen) (positive : 1 ≤ c) (now : Int) :
    ∃ snap, r.snapshot now = some snap ∧ snap.total = seen.length ∧
      snap.errors = failures seen ∧
      (snap.commands.map CommandSnapshot.command).Perm r.commands.keys ∧
      (snap.commands.Pairwise fun a b => a.command ≤ b.command) ∧
      ∀ s ∈ snap.commands, s.Reports c (about s.command seen) := by
  choose! g reported using fun e mem => tracks.reports (e := e) positive mem
  have commands := mapM_eq_some fun e mem => (reported e mem).1
  have sorted := List.perm_insertionSort (fun a b => a.command ≤ b.command)
    (r.commands.entries.map g)
  refine ⟨_, by rw [Registry.snapshot, commands]; rfl, tracks.total, tracks.errors, ?_, ?_, ?_⟩
  · refine (sorted.map CommandSnapshot.command).trans (.of_eq ?_)
    rw [List.map_map]
    exact List.map_congr_left fun e mem => (reported e mem).2.1
  · have total : Std.Total fun a b : CommandSnapshot => a.command ≤ b.command :=
      ⟨fun a b => le_total a.command b.command⟩
    have trans : IsTrans CommandSnapshot fun a b => a.command ≤ b.command :=
      ⟨fun a b c => le_trans (a := a.command)⟩
    exact List.pairwise_insertionSort _ _
  · intro s mem
    obtain ⟨e, entry, rfl⟩ := List.mem_map.mp (sorted.mem_iff.mp mem)
    rw [(reported e entry).2.1]
    exact (reported e entry).2.2

end Snapshot

/-- The latencies of a command, in the order of the observations. -/
def latencies (command : String) (seen : List Observation) : List Int :=
  (about command seen).map Observation.latency

/-- After any calls a report lists each command that was observed since the last `Reset` once,
in the order of the names. The totals are the sums over the commands, and the latencies of a
command are those of its last requests, as many as the window holds. -/
theorem metrics_consistent (growth : Nat → Nat) {c : Int} (positive : 1 ≤ c) (calls : List Call)
    (now : Int) :
    ∃ r snap, Registry.run growth { newRegistry with maxSamples := c } calls = some r ∧
      r.snapshot now = some snap ∧
      (snap.commands.map CommandSnapshot.command).Pairwise (· < ·) ∧
      (∀ command, command ∈ snap.commands.map CommandSnapshot.command ↔
        ∃ o ∈ sinceReset calls, o.command = command) ∧
      snap.total = (snap.commands.map CommandSnapshot.requests).sum ∧
      snap.errors = (snap.commands.map CommandSnapshot.errors).sum ∧
      ∀ s ∈ snap.commands, ∃ window,
        window = lastN (min s.requests c.toNat) (latencies s.command (sinceReset calls)) ∧
        s.requests = (latencies s.command (sinceReset calls)).length ∧
        s.latency.count = window.length ∧ window.min? = some s.latency.min ∧
        window.max? = some s.latency.max := by
  have start : Registry.Tracks { newRegistry with maxSamples := c } c [] :=
    Registry.tracks_empty rfl rfl rfl rfl
  obtain ⟨r, ran, tracks⟩ := start.run positive growth calls
  obtain ⟨snap, taken, total, errors, names, ordered, reports⟩ := tracks.snapshot positive now
  have nodup : (snap.commands.map CommandSnapshot.command).Nodup :=
    names.nodup_iff.mpr r.commands.keys_nodup
  have listed (command : String) : command ∈ snap.commands.map CommandSnapshot.command ↔
      ∃ o ∈ sinceReset calls, o.command = command :=
    names.mem_iff.trans (tracks.known command)
  have known : ∀ o ∈ sinceReset calls, o.command ∈ snap.commands.map CommandSnapshot.command :=
    fun o mem => (listed o.command).mpr ⟨o, mem, rfl⟩
  refine ⟨r, snap, ran, taken, ?_, listed, ?_, ?_, ?_⟩
  · exact (List.pairwise_map.mpr ordered).imp₂ (fun _ _ le ne => lt_of_le_of_ne le ne) nodup
  · have requests : snap.commands.map CommandSnapshot.requests =
        (snap.commands.map CommandSnapshot.command).map fun command =>
          (about command (sinceReset calls)).length := by
      rw [List.map_map]
      exact List.map_congr_left fun s mem => (reports s mem).requests
    rw [total, requests, sum_length_about nodup known]
    rfl
  · have failed : snap.commands.map CommandSnapshot.errors =
        (snap.commands.map CommandSnapshot.command).map fun command =>
          (about command ((sinceReset calls).filter Observation.isError)).length := by
      rw [List.map_map]
      exact List.map_congr_left fun s mem => (reports s mem).errors.trans (failures_about _ _)
    rw [errors, failed, sum_length_about nodup fun o mem => known o (List.mem_of_mem_filter mem)]
    rfl
  · intro s mem
    have report := reports s mem
    have requests : s.requests = (latencies s.command (sinceReset calls)).length :=
      report.requests.trans (List.length_map _).symm
    refine ⟨_, rfl, requests, ?_⟩
    rw [requests, lastN_min]
    exact ⟨report.count, report.min, report.max⟩

/-- Two commands, one of them with more requests than a window of two holds. -/
def sampleCalls : List Call :=
  [.observe ⟨"SET", 1, true⟩, .reset, .observe ⟨"SET", 7, true⟩, .observe ⟨"GET", 1, false⟩,
   .observe ⟨"GET", 9, false⟩, .observe ⟨"GET", 4, false⟩]

theorem metrics_consistent_sampleCalls :
    ∃ r snap, Registry.run id { newRegistry with maxSamples := 2 } sampleCalls = some r ∧
      r.snapshot 0 = some snap ∧ (snap.commands.map CommandSnapshot.command).Pairwise (· < ·) := by
  obtain ⟨r, snap, ran, taken, ordered, _⟩ :=
    metrics_consistent id (c := 2) (by decide) sampleCalls 0
  exact ⟨r, snap, ran, taken, ordered⟩

example : (Registry.run id { newRegistry with maxSamples := 2 } sampleCalls).bind
    (fun r => r.snapshot 0) = some {
      generatedAt := 0
      total := 4
      errors := 1
      commands := [
        ⟨"GET", 3, 0, ⟨2, 4, 9, 6, 4, 4, 4⟩⟩,
        ⟨"SET", 1, 1, ⟨1, 7, 7, 7, 7, 7, 7⟩⟩] } := by
  decide +kernel

end DistributedCache.Metrics
