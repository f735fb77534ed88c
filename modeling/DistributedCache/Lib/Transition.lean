import Mathlib.Logic.Relation
import Mathlib.Data.List.Basic

/-!
Labelled transition systems and their finite runs.

A run keeps, most recent first, the state before each of its steps together
with the label of the step. The past of a run and a side condition on all of
its steps can then be stated without history fields in the state. The rules
below are the only inductions over runs that later modules need.
-/
namespace Transition

variable {S A B : Type*}

structure System (S A : Type*) where
  init : S → Prop
  step : S → A → S → Prop

/-- `Run T past s`: the steps recorded in `past` lead from an initial state to `s`. -/
inductive Run (T : System S A) : List (S × A) → S → Prop
  | start {s : S} (initial : T.init s) : Run T [] s
  | next {past : List (S × A)} {s s' : S} {a : A}
      (run : Run T past s) (step : T.step s a s') : Run T ((s, a) :: past) s'

/-- All states a run has been in, the current one first. -/
def visited (past : List (S × A)) (s : S) : List S :=
  s :: past.map Prod.fst

theorem mem_visited_self (past : List (S × A)) (s : S) : s ∈ visited past s :=
  List.mem_cons_self

theorem mem_visited_next (past : List (S × A)) (s s' u : S) (a : A) :
    u ∈ visited ((s, a) :: past) s' ↔ u = s' ∨ u ∈ visited past s := by
  simp [visited]

/-- Every step of the run meets a condition on the state before it and its label. -/
def Meets (C : S → A → Prop) (past : List (S × A)) : Prop :=
  ∀ p ∈ past, C p.1 p.2

instance (C : S → A → Prop) [∀ s a, Decidable (C s a)] (past : List (S × A)) :
    Decidable (Meets C past) :=
  inferInstanceAs (Decidable (∀ p ∈ past, C p.1 p.2))

theorem meets_cons (C : S → A → Prop) (s : S) (a : A) (past : List (S × A)) :
    Meets C ((s, a) :: past) ↔ C s a ∧ Meets C past := by
  simp [Meets]

/-- The general rule: a property of the run that holds at the start and is
kept by every step meeting the condition holds of every such run. -/
theorem Run.induct {T : System S A} {C : S → A → Prop}
    {I : List (S × A) → S → Prop}
    (start : ∀ s, T.init s → I [] s)
    (keep : ∀ past s a s', Run T past s → Meets C past → I past s → C s a →
      T.step s a s' → I ((s, a) :: past) s')
    {past : List (S × A)} {s : S} (run : Run T past s) (meets : Meets C past) :
    I past s := by
  induction run with
  | start initial => exact start _ initial
  | next run step ih =>
      obtain ⟨here, before⟩ := (meets_cons C _ _ _).mp meets
      exact keep _ _ _ _ run before (ih before) here step

/-- The rule for properties of the current state alone. -/
theorem Run.invariant {T : System S A} {C : S → A → Prop} {I : S → Prop}
    (start : ∀ s, T.init s → I s)
    (keep : ∀ s a s', I s → C s a → T.step s a s' → I s')
    {past : List (S × A)} {s : S} (run : Run T past s) (meets : Meets C past) : I s :=
  Run.induct (I := fun _ s => I s) start
    (fun _ s a s' _ _ hs hc step => keep s a s' hs hc step) run meets

/-- A run that meets the condition keeps the invariant in every state it has
visited, not only in the last one. -/
theorem Run.invariant_visited {T : System S A} {C : S → A → Prop} {I : S → Prop}
    (start : ∀ s, T.init s → I s)
    (keep : ∀ s a s', I s → C s a → T.step s a s' → I s')
    {past : List (S × A)} {s : S} (run : Run T past s) (meets : Meets C past) :
    ∀ u ∈ visited past s, I u := by
  refine Run.induct (I := fun past s => ∀ u ∈ visited past s, I u) ?_ ?_ run meets
  · intro s hs u hu
    obtain rfl : u = s := by simpa [visited] using hu
    exact start u hs
  · intro past s a s' _ _ ih hc step u hu
    rcases (mem_visited_next past s s' u a).mp hu with rfl | hu
    · exact keep s a u (ih s (mem_visited_self past s)) hc step
    · exact ih u hu

/-- Where a step keeps the invariant exactly if it meets the condition, a run stays in the
invariant exactly if all of its steps do. -/
theorem Run.visited_iff_meets {T : System S A} {C : S → A → Prop} {I : S → Prop}
    (start : ∀ s, T.init s → I s)
    (keep : ∀ s a s', I s → T.step s a s' → (I s' ↔ C s a))
    {past : List (S × A)} {s : S} (run : Run T past s) :
    (∀ u ∈ visited past s, I u) ↔ Meets C past := by
  refine ⟨?_, Run.invariant_visited start (fun s a s' hs hc step => (keep s a s' hs step).mpr hc)
    run⟩
  induction run with
  | start initial => exact fun _ p mem => absurd mem List.not_mem_nil
  | @next past s s' a run step ih =>
      intro holds
      have before : ∀ u ∈ visited past s, I u :=
        fun u mem => holds u ((mem_visited_next past s s' u a).mpr (.inr mem))
      have here := before s (mem_visited_self past s)
      exact (meets_cons C s a past).mpr
        ⟨(keep s a s' here step).mp (holds s' (mem_visited_self _ s')), ih before⟩

/-- A relation that each step establishes between old and new state, and that
is reflexive and transitive, relates every visited state to the current one. -/
theorem Run.ordered {T : System S A} {C : S → A → Prop} {R : S → S → Prop}
    (refl : ∀ s, R s s) (trans : ∀ s t u, R s t → R t u → R s u)
    (step : ∀ s a s', C s a → T.step s a s' → R s s')
    {past : List (S × A)} {s : S} (run : Run T past s) (meets : Meets C past) :
    ∀ u ∈ visited past s, R u s := by
  refine Run.induct (I := fun past s => ∀ u ∈ visited past s, R u s) ?_ ?_ run meets
  · intro s _ u hu
    obtain rfl : u = s := by simpa [visited] using hu
    exact refl u
  · intro past s a s' _ _ ih hc hstep u hu
    rcases (mem_visited_next past s s' u a).mp hu with rfl | hu
    · exact refl u
    · exact trans u s s' (ih u hu) (step s a s' hc hstep)

/-- Then any two visited states are related, one way or the other. -/
theorem Run.comparable {T : System S A} {C : S → A → Prop} {R : S → S → Prop}
    (refl : ∀ s, R s s) (trans : ∀ s t u, R s t → R t u → R s u)
    (step : ∀ s a s', C s a → T.step s a s' → R s s')
    {past : List (S × A)} {s : S} (run : Run T past s) (meets : Meets C past) :
    ∀ u ∈ visited past s, ∀ v ∈ visited past s, R u v ∨ R v u := by
  refine Run.induct (C := C)
    (I := fun past s => ∀ u ∈ visited past s, ∀ v ∈ visited past s, R u v ∨ R v u) ?_ ?_
    run meets
  · intro s _ u hu v hv
    obtain rfl : u = s := by simpa [visited] using hu
    obtain rfl : v = u := by simpa [visited] using hv
    exact .inl (refl v)
  · intro past s a s' run before ih hc hstep u hu v hv
    have older : ∀ w ∈ visited past s, R w s' := fun w hw =>
      trans w s s' (Run.ordered refl trans step run before w hw) (step s a s' hc hstep)
    rcases (mem_visited_next past s s' u a).mp hu with rfl | hu' <;>
      rcases (mem_visited_next past s _ v a).mp hv with rfl | hv'
    · exact .inl (refl v)
    · exact .inr (older v hv')
    · exact .inl (older u hu')
    · exact ih u hu' v hv'

/-- Forward simulation into an unlabelled abstract system. One concrete step
may take any number of abstract ones, and the relation may look at the past. -/
theorem Run.simulate {T : System S A} {C : S → A → Prop}
    {b₀ : B} {U : B → B → Prop} {R : List (S × A) → S → B → Prop}
    (start : ∀ s, T.init s → R [] s b₀)
    (keep : ∀ past s a s' b, Relation.ReflTransGen U b₀ b → R past s b → C s a →
      T.step s a s' → ∃ b', Relation.ReflTransGen U b b' ∧ R ((s, a) :: past) s' b')
    {past : List (S × A)} {s : S} (run : Run T past s) (meets : Meets C past) :
    ∃ b, Relation.ReflTransGen U b₀ b ∧ R past s b := by
  refine Run.induct
    (I := fun past s => ∃ b, Relation.ReflTransGen U b₀ b ∧ R past s b) ?_ ?_ run meets
  · exact fun s hs => ⟨b₀, .refl, start s hs⟩
  · rintro past s a s' _ _ ⟨b, reach, hb⟩ hc step
    obtain ⟨b', more, hb'⟩ := keep past s a s' b reach hb hc step
    exact ⟨b', reach.trans more, hb'⟩

/-- A system given by an executable step function that may refuse a step. -/
def ofExec {E : Type*} (init : S → Prop) (exec : S → A → Except E S) : System S A where
  init := init
  step s a s' := exec s a = .ok s'

/-- The rules for runs that go on from a given state. -/
theorem Run.induct_from {E : Type*} {exec : S → A → Except E S} {u : S} {C : S → A → Prop}
    {I : List (S × A) → S → Prop} (start : I [] u)
    (keep : ∀ past s a s', I past s → C s a → exec s a = .ok s' → I ((s, a) :: past) s')
    {past : List (S × A)} {s : S} (run : Run (ofExec (· = u) exec) past s)
    (meets : Meets C past) : I past s :=
  Run.induct (I := I) (fun s (same : s = u) => same ▸ start)
    (fun past s a s' _ _ ih hc step => keep past s a s' ih hc step) run meets

theorem Run.invariant_from {E : Type*} {exec : S → A → Except E S} {u : S} {C : S → A → Prop}
    {I : S → Prop} (start : I u) (keep : ∀ s a s', I s → C s a → exec s a = .ok s' → I s')
    {past : List (S × A)} {s : S} (run : Run (ofExec (· = u) exec) past s)
    (meets : Meets C past) : I s :=
  Run.induct_from (I := fun _ s => I s) start (fun _ s a s' ih hc step => keep s a s' ih hc step)
    run meets

/-- A run may be taken up where another one has ended. -/
theorem Run.append {E : Type*} {exec : S → A → Except E S} {init : S → Prop}
    {past past' : List (S × A)} {u s : S} (run : Run (ofExec init exec) past u)
    (more : Run (ofExec (· = u) exec) past' s) : Run (ofExec init exec) (past' ++ past) s := by
  induction more with
  | start same =>
      subst same
      exact run
  | next _ step ih => exact .next ih step

/-- Progress: where a step that makes the measure smaller can be taken as long as the goal
is not reached, a run reaches it. -/
theorem Run.reaches {E : Type*} {exec : S → A → Except E S} {C : S → A → Prop} {I Q : S → Prop}
    (measure : S → Nat)
    (go : ∀ s, I s → ¬ Q s → ∃ a s', C s a ∧ exec s a = .ok s' ∧ I s' ∧ measure s' < measure s)
    (s : S) (h : I s) : ∃ past s', Run (ofExec (· = s) exec) past s' ∧ Meets C past ∧ Q s' := by
  by_cases done : Q s
  · exact ⟨[], s, .start rfl, nofun, done⟩
  · obtain ⟨a, t, meets, step, ht, less⟩ := go s h done
    obtain ⟨past, s', run, rest, reached⟩ := Run.reaches measure go t ht
    have first : Run (ofExec (· = s) exec) [(s, a)] t := .next (.start rfl) step
    refine ⟨past ++ [(s, a)], s', first.append run, ?_, reached⟩
    intro x mem
    cases List.mem_append.mp mem with
    | inl mem => exact rest x mem
    | inr mem =>
        obtain rfl := List.mem_singleton.mp mem
        exact meets
termination_by measure s

/-- A run that meets the condition leads from one state to another. -/
def Leads {E : Type*} (exec : S → A → Except E S) (C : S → A → Prop) (s s' : S) : Prop :=
  ∃ past, Run (ofExec (· = s) exec) past s' ∧ Meets C past

section Leads

variable {E : Type*} {exec : S → A → Except E S} {C : S → A → Prop} {s t u : S}

theorem Leads.refl (s : S) : Leads exec C s s :=
  ⟨[], .start rfl, fun _ mem => absurd mem List.not_mem_nil⟩

theorem Leads.single {a : A} (meets : C s a) (step : exec s a = .ok t) : Leads exec C s t := by
  refine ⟨[(s, a)], .next (.start rfl) step, fun x mem => ?_⟩
  obtain rfl := List.mem_singleton.mp mem
  exact meets

theorem Leads.trans (h : Leads exec C s t) (h' : Leads exec C t u) : Leads exec C s u := by
  obtain ⟨past, run, meets⟩ := h
  obtain ⟨past', run', meets'⟩ := h'
  refine ⟨past' ++ past, run.append run', fun x mem => ?_⟩
  cases List.mem_append.mp mem with
  | inl mem => exact meets' x mem
  | inr mem => exact meets x mem

theorem Leads.mono {C' : S → A → Prop} (weaker : ∀ s a, C s a → C' s a) (h : Leads exec C s t) :
    Leads exec C' s t := by
  obtain ⟨past, run, meets⟩ := h
  exact ⟨past, run, fun x mem => weaker x.1 x.2 (meets x mem)⟩

/-- Every run to the first state can be continued to the second. -/
theorem Leads.extends {init : S → Prop} {past : List (S × A)} (h : Leads exec C s t)
    (run : Run (ofExec init exec) past s) :
    ∃ more, Run (ofExec init exec) (more ++ past) t ∧ Meets C more := by
  obtain ⟨more, run', meets⟩ := h
  exact ⟨more, run.append run', meets⟩

end Leads

/-- Executing labels one after another, recording the steps. -/
def trace {E : Type*} (exec : S → A → Except E S) :
    List (S × A) → S → List A → Option (List (S × A) × S)
  | past, s, [] => some (past, s)
  | past, s, a :: rest =>
      match exec s a with
      | .ok s' => trace exec ((s, a) :: past) s' rest
      | .error _ => none

theorem Run.trace {E : Type*} {init : S → Prop} {exec : S → A → Except E S}
    (labels : List A) {past past' : List (S × A)} {s s' : S}
    (run : Run (ofExec init exec) past s)
    (h : Transition.trace exec past s labels = some (past', s')) :
    Run (ofExec init exec) past' s' := by
  induction labels generalizing past s with
  | nil =>
      obtain ⟨rfl, rfl⟩ := Prod.mk.inj (Option.some.inj h)
      exact run
  | cons a rest ih =>
      simp only [Transition.trace] at h
      split at h
      · rename_i u hu
        exact ih (.next run hu) h
      · exact absurd h (by simp)

/-- Checking a run by evaluation: the labels can be executed, and what the
check says of the steps recorded and of the state reached holds of a run. -/
theorem Run.of_trace {E : Type*} (init : S → Prop) {exec : S → A → Except E S} {s : S}
    (initial : init s) (labels : List A) (check : List (S × A) → S → Bool)
    (h : (Transition.trace exec [] s labels).any (fun r => check r.1 r.2) = true) :
    ∃ past s', Run (ofExec init exec) past s' ∧ check past s' = true := by
  cases htrace : Transition.trace exec [] s labels with
  | none => simp [htrace] at h
  | some r =>
      rw [htrace] at h
      exact ⟨r.1, r.2, .trace labels (.start initial) htrace, h⟩

end Transition
