import DistributedCache.Raft.Applying

/-!
The order of the callbacks of one node. `applyCommittedLocked` raises
`lastApplied` before it gives the mutex up, so every index is handed out once
and in order. The callbacks themselves follow one another only as long as the
loop is not entered again, by another handler, while a callback is under way.
-/
namespace DistributedCache.Raft

open Node (Delivery)
open Transition (Meets)

/-- The beginning or the end of the callback for an index. -/
inductive Mark
  | began (index : Nat)
  | returned (index : Nat)
  deriving DecidableEq, Repr

def Event.mark? : Event → Option Mark
  | .applyBegin _ k _ => some (.began k)
  | .applyEnd _ k => some (.returned k)
  | .proposeNil _ _ _ => none

/-- The callbacks among some events. Most recent first, as the events are. -/
def marks (events : List Event) : List Mark :=
  events.filterMap Event.mark?

/-- The callbacks for the indices from 1 to `k`, each after the one before it has
returned. -/
def oneByOne : Nat → List Mark
  | 0 => []
  | k + 1 => .returned (k + 1) :: .began (k + 1) :: oneByOne k

/-- The callbacks came one by one, and the last one may not have returned yet. -/
def InOrder (callbacks : List Mark) : Prop :=
  ∃ k, callbacks = oneByOne k ∨ callbacks = .began (k + 1) :: oneByOne k

/-- What a step gives to which process. -/
def fed (S : Setup) (σ : Sys) (a : Action) : Option (String × Input) :=
  match a with
  | .deliver k => σ.net[k]?.bind fun m => (S.target σ m).map fun i => (i, .message m)
  | a => a.actor.map fun i => (i, .act a)

theorem Feeds.fed_eq {S : Setup} {σ : Sys} {a : Action} {i : String} {m : Input}
    (h : Feeds S σ a i m) : fed S σ a = some (i, m) := by
  cases m with
  | message m =>
      obtain ⟨k, rfl, hm, hi⟩ := h
      simp [fed, hm, hi]
  | act b =>
      obtain ⟨rfl, actor, _⟩ := h
      cases b <;> simp_all [fed, Action.actor]

/-- The apply loop is reached with an entry left to apply only at a node all of whose
callbacks have returned. -/
def TakesAlone (S : Setup) (σ : Sys) (a : Action) : Prop :=
  ∀ r ∈ fed S σ a, (σ.procs r.1).Takes r.2 → ∀ x ∈ (σ.procs r.1).applies, x.2 = .returned

instance (S : Setup) (σ : Sys) (a : Action) : Decidable (TakesAlone S σ a) :=
  inferInstanceAs (Decidable (∀ r ∈ fed S σ a, _ → _))

/-- The entries whose callback has not returned. -/
def View.underway (v : View) : List (Delivery × Phase) :=
  v.applies.filter fun x => x.2 ≠ .returned

theorem View.underway_eq_nil {v : View} :
    v.underway = [] ↔ ∀ x ∈ v.applies, x.2 = .returned := by
  simp [View.underway]

/-- Nothing is under way and everything taken is applied, or the entry taken last
is under way. -/
inductive View.Ordered (v : View) (callbacks : List Mark) : Prop
  | idle (none : v.underway = []) (past : callbacks = oneByOne v.lastApplied)
  | busy (d : Delivery) (phase : Phase) (k : Nat) (one : v.underway = [(d, phase)])
      (index : d.index = k + 1) (applied : v.lastApplied = k + 1)
      (past : callbacks = if phase = .pending then oneByOne k else .began (k + 1) :: oneByOne k)

theorem View.Ordered.inOrder {v : View} {callbacks : List Mark} (h : v.Ordered callbacks) :
    InOrder callbacks := by
  cases h with
  | idle none past => exact ⟨_, .inl past⟩
  | busy d phase k one index applied past =>
      refine ⟨k, ?_⟩
      split at past
      · exact .inl past
      · exact .inr past

section Step

variable {p : Proc} {m : Input} {events : List Event} {v v' : View} {callbacks : List Mark}

/-- The one entry under way is the one a step of a goroutine is about. -/
theorem View.Ordered.of_split {l₁ l₂ : List (Delivery × Phase)} {d : Delivery} {phase : Phase}
    (h : v.Ordered callbacks) (task : v.applies = l₁ ++ (d, phase) :: l₂)
    (inside : phase ≠ .returned) :
    (∀ phase', View.underway { v with applies := l₁ ++ (d, phase') :: l₂ } =
        if phase' = .returned then [] else [(d, phase')]) ∧
      ∃ k, d.index = k + 1 ∧ v.lastApplied = k + 1 ∧
        callbacks = if phase = .pending then oneByOne k else .began (k + 1) :: oneByOne k := by
  have split : v.underway = l₁.filter (fun x => x.2 ≠ .returned) ++
      (d, phase) :: l₂.filter (fun x => x.2 ≠ .returned) := by
    simp [View.underway, task, inside]
  cases h with
  | idle none past => simp [none] at split
  | busy d' phase' k one index applied past =>
      rw [one, eq_comm, List.append_eq_singleton_iff] at split
      obtain ⟨before, rest⟩ | ⟨_, rest⟩ := split
      · obtain ⟨⟨rfl, rfl⟩, after⟩ : (d = d' ∧ phase = phase') ∧
            l₂.filter (fun x => x.2 ≠ .returned) = [] := by simpa using rest
        refine ⟨fun phase' => ?_, k, index, applied, past⟩
        rw [View.underway, List.filter_append, before, List.nil_append, List.filter_cons, after]
        by_cases done : phase' = .returned <;> simp [done]
      · exact absurd rest (by simp)

theorem View.Ordered.touch (h : p.view.Ordered callbacks) (touches : Touches p m events v) :
    v.Ordered (marks events ++ callbacks) := by
  have still {v : View} (applies : v.applies = p.view.applies)
      (applied : v.lastApplied = p.view.lastApplied) : v.Ordered callbacks := by
    have underway : v.underway = p.view.underway := by rw [View.underway, applies, View.underway]
    cases h with
    | idle none past => exact .idle (underway.trans none) (applied ▸ past)
    | busy d phase k one index applied' past =>
        exact .busy d phase k (underway.trans one) index (applied.trans applied') past
  cases touches with
  | same => exact still rfl rfl
  | store call received accepts => exact still rfl rfl
  | propose cmd => exact still rfl rfl
  | begin l₁ l₂ d task =>
      obtain ⟨underway, k, index, applied, past⟩ := h.of_split task (by simp)
      refine .busy d .running k (underway .running) index applied ?_
      simp [past, marks, Event.mark?, index]
  | move l₁ l₂ d phase phase' task inside further =>
      obtain ⟨underway, k, index, applied, past⟩ := h.of_split task inside.2
      rw [if_neg inside.1] at past
      by_cases done : phase' = .returned
      · refine .idle (by simpa [done] using underway phase') ?_
        have : p.node.lastApplied = k + 1 := applied
        simp [past, marks, Event.mark?, done, index, this, Proc.view, oneByOne]
      · refine .busy d phase' k (by simpa [done] using underway phase') index applied ?_
        simp [past, marks, done, further]
  | finish l₁ l₂ d task =>
      have underway : View.underway { p.view with applies := l₁ ++ l₂ } = p.view.underway := by
        have applies : p.view.applies = l₁ ++ (d, .returned) :: l₂ := task
        simp [View.underway, applies]
      cases h with
      | idle none past => exact .idle (underway.trans none) past
      | busy d phase k one index applied past =>
          exact .busy d phase k (underway.trans one) index applied past
  | wake k w waits ready => exact still rfl rfl
  | cancel k w waits => exact still rfl rfl

theorem View.Ordered.pop {d : Delivery} (h : v.Ordered callbacks) (none : v.underway = [])
    (pops : v.Pops d v') : v'.Ordered callbacks := by
  obtain ⟨index, _, _, rfl⟩ := pops
  cases h with
  | idle _ past =>
      refine .busy d .pending v.lastApplied ?_ index rfl (by simpa using past)
      rw [View.underway] at none ⊢
      rw [List.filter_append, none]
      rfl
  | busy d' phase k one _ _ _ => simp [none] at one

/-- A handler that finds every callback returned leaves it so up to the apply loop. -/
theorem Touches.underway_nil (h : Touches p m events v)
    (returned : ∀ x ∈ p.applies, x.2 = .returned) : v.underway = [] := by
  have kept : ∀ x ∈ v.applies, x.2 = .returned := by
    cases h with
    | begin l₁ l₂ d task => exact absurd (returned (d, .pending) (by simp [task])) (by simp)
    | move l₁ l₂ d phase phase' task inside further =>
        exact absurd (returned (d, phase) (by simp [task])) inside.2
    | finish l₁ l₂ d task =>
        intro x hx
        refine returned x ?_
        rw [task]
        simp only [List.mem_append, List.mem_cons] at hx ⊢
        tauto
    | _ => exact returned
  exact View.underway_eq_nil.mpr kept

end Step

/-- In every run in which the loop finds no entry to take while a callback of the node is
under way, the callbacks of every node are invoked one by one, and once all of them have returned
there has been one for every index up to `lastApplied`. -/
theorem applied_in_order {S : Setup} {past : List (Sys × Action)} {σ : Sys}
    (run : Run S past σ) (meets : Meets (TakesAlone S) past) (i : String) :
    InOrder (marks (σ.eventsOf i)) ∧
      ((∀ x ∈ (σ.procs i).applies, x.2 = .returned) →
        marks (σ.eventsOf i) = oneByOne (σ.node i).lastApplied) := by
  have ordered : (σ.procs i).view.Ordered (marks (σ.eventsOf i)) := by
    refine Run.view_invariant (I := fun v events => v.Ordered (marks events)) ?_ ?_ run meets i
    · exact fun i => .idle rfl rfl
    · intro σ a σ' i m o alone acted ordered
      rw [marks, List.filterMap_append]
      obtain ⟨v, touches, view | ⟨takes, d, pops, _⟩⟩ := acted.shows
      · rw [view]
        exact ordered.touch touches
      · have returned := alone (i, m) acted.feeds.fed_eq takes
        exact (ordered.touch touches).pop (touches.underway_nil returned) pops
  refine ⟨ordered.inOrder, fun returned => ?_⟩
  have none : (σ.procs i).view.underway = [] := View.underway_eq_nil.mpr returned
  cases ordered with
  | idle _ past => exact past
  | busy d phase k one _ _ _ => simp [none] at one

theorem applied_in_order_commitTwo :
    ∃ past σ, Run trio past σ ∧
      marks (σ.eventsOf "a") = [.returned 2, .began 2, .returned 1, .began 1] ∧
      InOrder (marks (σ.eventsOf "a")) := by
  obtain ⟨past, σ, run, check⟩ := Run.of_actions trio commitTwoA
    (fun past σ => decide (Meets (TakesAlone trio) past ∧
      marks (σ.eventsOf "a") = [.returned 2, .began 2, .returned 1, .began 1]))
    (by decide +kernel)
  obtain ⟨meets, callbacks⟩ := of_decide_eq_true check
  exact ⟨past, σ, run, callbacks, (applied_in_order run meets "a").1⟩

theorem length_oneByOne (k : Nat) : (oneByOne k).length = 2 * k := by
  induction k with
  | zero => rfl
  | succ k ih => simp only [oneByOne, List.length_cons, ih]; omega

/-- The leader a takes the entry of index 1 when b acknowledges it. Before the callback
begins, b acknowledges the next entry as well, and another goroutine of a takes that
one and applies it first. -/
theorem applied_in_order_overtaken :
    ∃ past σ, Run trio past σ ∧ marks (σ.eventsOf "a") = [.began 1, .began 2] ∧
      ¬ InOrder (marks (σ.eventsOf "a")) := by
  obtain ⟨past, σ, run, check⟩ := Run.of_actions trio
    (electA ++ [.propose "a" { type := .noop }, .propose "a" { type := .noop }, .deliver 4,
      .deliver 6, .deliver 5, .deliver 5, .resume "a" 1, .resume "a" 0])
    (fun _ σ => decide (marks (σ.eventsOf "a") = [.began 1, .began 2])) (by decide +kernel)
  have callbacks := of_decide_eq_true check
  refine ⟨past, σ, run, callbacks, ?_⟩
  rw [callbacks]
  rintro ⟨k, whole | last⟩
  · have length := congrArg List.length whole
    simp only [length_oneByOne, List.length_cons, List.length_nil] at length
    obtain rfl : k = 1 := by omega
    exact absurd whole (by decide)
  · have length := congrArg List.length last
    simp only [length_oneByOne, List.length_cons, List.length_nil] at length
    omega

end DistributedCache.Raft
