import DistributedCache.Lib.Framing

/-!
Decoders that may panic.

A panic is an outcome beside the result and the errors of a decoder. A decoder that agrees
with another one unless it panics refines it.
-/
namespace Framing

variable {γ ε α β : Type}

inductive Failure (ε : Type)
  | error (e : ε)
  | panic
  deriving DecidableEq, Repr

/-- A decoder that does not panic. -/
def lift (x : Decoder γ ε α) : Decoder γ (Failure ε) α := fun s =>
  (x.run s).mapError .error

def Panics (x : Decoder γ (Failure ε) α) (s : List γ) : Prop :=
  x.run s = .error .panic

section Panics

variable {x : Decoder γ (Failure ε) α} {f : α → Decoder γ (Failure ε) β} {y : Decoder γ ε α}
  {s rest : List γ} {a : α}

theorem run_lift_eq_ok : (lift y).run s = .ok (a, rest) ↔ y.run s = .ok (a, rest) := by
  change (y.run s).mapError Failure.error = _ ↔ _
  cases y.run s with
  | error e => simp [Except.mapError]
  | ok p => simp [Except.mapError]

theorem run_lift_eq_error {e : ε} : (lift y).run s = .error (.error e) ↔ y.run s = .error e := by
  change (y.run s).mapError Failure.error = _ ↔ _
  cases y.run s with
  | error e => simp [Except.mapError]
  | ok p => simp [Except.mapError]

theorem not_panics_lift (y : Decoder γ ε α) (s : List γ) : ¬ Panics (lift y) s := by
  change ¬ (y.run s).mapError Failure.error = _
  cases y.run s with
  | error e => simp [Except.mapError]
  | ok p => simp [Except.mapError]

theorem not_panics_pure (a : α) (s : List γ) : ¬ Panics (pure a : Decoder γ (Failure ε) α) s := by
  intro h
  cases h

theorem not_panics_throw (e : ε) (s : List γ) :
    ¬ Panics (throw (.error e) : Decoder γ (Failure ε) α) s := by
  intro h
  cases h

theorem panics_throw (s : List γ) : Panics (throw .panic : Decoder γ (Failure ε) α) s :=
  rfl

/-- Two steps panic if the first one does, or the second one on what the first one leaves. -/
theorem panics_bind :
    Panics (x >>= f) s ↔ Panics x s ∨ ∃ a rest, x.run s = .ok (a, rest) ∧ Panics (f a) rest := by
  unfold Panics
  cases step : x.run s with
  | error e => simp [run_bind_error step]
  | ok p =>
      obtain ⟨a, rest⟩ := p
      simp [run_bind step]

theorem panics_lift_bind :
    Panics (lift y >>= f) s ↔ ∃ a rest, y.run s = .ok (a, rest) ∧ Panics (f a) rest := by
  simp only [panics_bind, not_panics_lift, run_lift_eq_ok, false_or]

theorem not_panics_lift_bind (y : Decoder γ ε α) (safe : ∀ a rest, ¬ Panics (f a) rest)
    (s : List γ) : ¬ Panics (lift y >>= f) s := by
  simp [panics_lift_bind, safe]

theorem panics_ite {c : Prop} [Decidable c] {x' : Decoder γ (Failure ε) α} :
    Panics (if c then x else x') s ↔ c ∧ Panics x s ∨ ¬ c ∧ Panics x' s := by
  by_cases h : c <;> simp [h]

/-- A second step that never panics adds nothing. -/
theorem panics_bind_of_not (safe : ∀ a rest, ¬ Panics (f a) rest) :
    Panics (x >>= f) s ↔ Panics x s := by
  simp [panics_bind, safe]

end Panics

/-- Unless it panics, a decoder does what another one does. -/
def Refines (x : Decoder γ (Failure ε) α) (y : Decoder γ ε α) : Prop :=
  ∀ s, Panics x s ∨ x.run s = (lift y).run s

section Refines

variable {x : Decoder γ (Failure ε) α} {y : Decoder γ ε α} {f : α → Decoder γ (Failure ε) β}
  {g : α → Decoder γ ε β}

theorem refines_lift (y : Decoder γ ε α) : Refines (lift y) y :=
  fun _ => .inr rfl

theorem refines_pure (a : α) : Refines (pure a : Decoder γ (Failure ε) α) (pure a) :=
  fun _ => .inr rfl

theorem refines_throw (e : ε) :
    Refines (throw (.error e) : Decoder γ (Failure ε) α) (throw e) :=
  fun _ => .inr rfl

theorem Refines.bind (first : Refines x y) (later : ∀ a, Refines (f a) (g a)) :
    Refines (x >>= f) (y >>= g) := by
  intro s
  cases first s with
  | inl panics => exact .inl (run_bind_error panics)
  | inr same =>
      cases step : y.run s with
      | error e =>
          have failed : (lift (y >>= g)).run s = .error (.error e) :=
            run_lift_eq_error.mpr (run_bind_error step)
          rw [failed]
          exact .inr (run_bind_error (same.trans (run_lift_eq_error.mpr step)))
      | ok p =>
          obtain ⟨a, rest⟩ := p
          have went := same.trans (run_lift_eq_ok.mpr step)
          have next : (lift (y >>= g)).run s = (lift (g a)).run rest :=
            congrArg (Except.mapError Failure.error) (run_bind step)
          unfold Panics
          rw [run_bind went, next]
          exact later a rest

theorem Refines.run_eq_iff (refines : Refines x y) (s : List γ) :
    x.run s = (lift y).run s ↔ ¬ Panics x s := by
  constructor
  · intro same panics
    exact not_panics_lift y s (same.symm.trans panics)
  · exact (refines s).resolve_left

end Refines

end Framing
