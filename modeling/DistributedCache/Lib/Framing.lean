import Mathlib.Data.List.Basic

/-!
Reading a stream message by message.

A decoder takes a message from the front of a stream and leaves the rest. Where it
undoes an encoder whatever follows, a stream of encoded messages is read back in order,
with nothing left over.
-/
namespace Framing

variable {γ ε α β : Type}

/-- Computations that read from a stream and may fail. -/
abbrev Decoder (γ ε : Type) := StateT (List γ) (Except ε)

/-- A reading step that goes through leaves the rest of the stream to the next one. -/
theorem run_bind {x : Decoder γ ε α} {f : α → Decoder γ ε β} {s rest : List γ} {a : α}
    (h : x.run s = .ok (a, rest)) : (x >>= f).run s = (f a).run rest := by
  rw [StateT.run_bind, h]
  rfl

theorem run_bind_error {x : Decoder γ ε α} {f : α → Decoder γ ε β} {s : List γ} {e : ε}
    (h : x.run s = .error e) : (x >>= f).run s = .error e := by
  rw [StateT.run_bind, h]
  rfl

/-- A computation that went through made each of its steps go through. -/
theorem run_bind_eq_ok {x : Decoder γ ε α} {f : α → Decoder γ ε β} {s : List γ}
    {r : β × List γ} (h : (x >>= f).run s = .ok r) :
    ∃ a rest, x.run s = .ok (a, rest) ∧ (f a).run rest = .ok r := by
  rw [StateT.run_bind] at h
  cases step : x.run s with
  | error e =>
      rw [step] at h
      cases h
  | ok p =>
      rw [step] at h
      exact ⟨p.1, p.2, rfl, h⟩

/-- Decoding until the first failure, at most so many messages: what was accepted, and
the stream before the call that failed. -/
def decodeFrom (decode : Decoder γ ε α) : Nat → List γ → List α × List γ
  | 0, s => ([], s)
  | k + 1, s =>
      match decode.run s with
      | .ok (a, rest) => (a :: (decodeFrom decode k rest).1, (decodeFrom decode k rest).2)
      | .error _ => ([], s)

/-- Decoding until the first failure or the end of the stream. -/
def decodeAll (decode : Decoder γ ε α) (s : List γ) : List α × List γ :=
  decodeFrom decode s.length s

/-- Every message takes something from the stream. -/
def Consumes (decode : Decoder γ ε α) : Prop :=
  ∀ s a rest, decode.run s = .ok (a, rest) → rest.length < s.length

/-- Nothing is put back on the stream. -/
def Shrinks (x : Decoder γ ε α) : Prop :=
  ∀ s a rest, x.run s = .ok (a, rest) → rest.length ≤ s.length

section Shrinks

variable {x : Decoder γ ε α} {f : α → Decoder γ ε β}

theorem Consumes.shrinks (consumes : Consumes x) : Shrinks x :=
  fun s a rest h => Nat.le_of_lt (consumes s a rest h)

theorem shrinks_pure (a : α) : Shrinks (pure a : Decoder γ ε α) := by
  intro s b rest h
  cases h
  exact Nat.le_refl _

theorem shrinks_throw (e : ε) : Shrinks (throw e : Decoder γ ε α) := by
  intro s a rest h
  cases h

theorem Shrinks.bind (first : Shrinks x) (later : ∀ a, Shrinks (f a)) : Shrinks (x >>= f) := by
  intro s b rest h
  obtain ⟨a, mid, step, h⟩ := run_bind_eq_ok h
  exact Nat.le_trans (later a mid b rest h) (first s a mid step)

theorem Consumes.bind (first : Consumes x) (later : ∀ a, Shrinks (f a)) : Consumes (x >>= f) := by
  intro s b rest h
  obtain ⟨a, mid, step, h⟩ := run_bind_eq_ok h
  exact Nat.lt_of_le_of_lt (later a mid b rest h) (first s a mid step)

end Shrinks

/-- What a reading step returns has a property. -/
def Yields (P : α → Prop) (x : Decoder γ ε α) : Prop :=
  ∀ s a rest, x.run s = .ok (a, rest) → P a

section Yields

variable {P : α → Prop} {Q : β → Prop} {x : Decoder γ ε α} {f : α → Decoder γ ε β}

theorem yields_pure {a : α} (holds : P a) : Yields P (pure a : Decoder γ ε α) := by
  intro s b rest h
  cases h
  exact holds

theorem Yields.bind (first : Yields P x) (later : ∀ a, P a → Yields Q (f a)) :
    Yields Q (x >>= f) := by
  intro s b rest h
  obtain ⟨a, mid, step, h⟩ := run_bind_eq_ok h
  exact later a (first s a mid step) mid b rest h

theorem yields_any (x : Decoder γ ε α) : Yields (fun _ => True) x :=
  fun _ _ _ _ => trivial

end Yields

/-- A reading step takes exactly the texts of a language from the front of a stream, and
returns what they stand for. -/
def Reads (L : α → List γ → Prop) (x : Decoder γ ε α) : Prop :=
  ∀ s a rest, x.run s = .ok (a, rest) ↔ ∃ text, L a text ∧ s = text ++ rest

section Reads

variable {L L' : α → List γ → Prop} {M : α → β → List γ → Prop}
  {x y : Decoder γ ε α} {f : α → Decoder γ ε β}

theorem Reads.congr (reads : Reads L x) (same : ∀ a text, L a text ↔ L' a text) : Reads L' x := by
  intro s a rest
  simp only [reads s a rest, same]

theorem reads_pure (a : α) : Reads (fun b text => b = a ∧ text = []) (pure a : Decoder γ ε α) := by
  intro s b rest
  constructor
  · intro h
    cases h
    exact ⟨[], ⟨rfl, rfl⟩, rfl⟩
  · rintro ⟨_, ⟨rfl, rfl⟩, rfl⟩
    rfl

theorem reads_throw (e : ε) : Reads (fun _ _ => False) (throw e : Decoder γ ε α) := by
  intro s a rest
  constructor
  · intro h
    cases h
  · rintro ⟨_, none, _⟩
    exact none.elim

/-- A text of the one language, and behind it a text of the other. -/
theorem Reads.bind (first : Reads L x) (later : ∀ a, Reads (M a) (f a)) :
    Reads (fun b text => ∃ a front back, L a front ∧ M a b back ∧ text = front ++ back)
      (x >>= f) := by
  intro s b rest
  constructor
  · intro h
    obtain ⟨a, mid, step, next⟩ := run_bind_eq_ok h
    obtain ⟨front, read, rfl⟩ := (first s a mid).mp step
    obtain ⟨back, read', rfl⟩ := (later a mid b rest).mp next
    exact ⟨front ++ back, ⟨a, front, back, read, read', rfl⟩, (List.append_assoc ..).symm⟩
  · rintro ⟨_, ⟨a, front, back, read, read', rfl⟩, rfl⟩
    have step := (first (front ++ (back ++ rest)) a (back ++ rest)).mpr ⟨front, read, rfl⟩
    rw [List.append_assoc, run_bind step]
    exact (later a _ b rest).mpr ⟨back, read', rfl⟩

/-- A step that needs a part of what was read, and takes nothing without it. -/
theorem reads_option {y : Decoder γ ε β} (o : Option α)
    (missing : o = none → Reads (fun _ _ => False) y) (found : ∀ a, o = some a → Reads (M a) y) :
    Reads (fun b text => ∃ a, o = some a ∧ M a b text) y := by
  cases o with
  | none => exact (missing rfl).congr fun b text => by simp
  | some a => exact (found a rfl).congr fun b text => by simp

theorem reads_ite {c : Prop} [Decidable c] (yes : c → Reads L x) (no : ¬ c → Reads L' y) :
    Reads (fun a text => c ∧ L a text ∨ ¬ c ∧ L' a text) (if c then x else y) := by
  by_cases h : c
  · rw [if_pos h]
    exact (yes h).congr fun a text => by simp [h]
  · rw [if_neg h]
    exact (no h).congr fun a text => by simp [h]

theorem Reads.yields (reads : Reads L x) {P : α → Prop} (holds : ∀ a text, L a text → P a) :
    Yields P x := by
  intro s a rest h
  obtain ⟨text, read, _⟩ := (reads s a rest).mp h
  exact holds a text read

theorem Reads.run (reads : Reads L x) {a : α} {text : List γ} (read : L a text) (rest : List γ) :
    x.run (text ++ rest) = .ok (a, rest) :=
  (reads _ a rest).mpr ⟨text, read, rfl⟩

theorem Reads.run_whole (reads : Reads L x) {a : α} {text : List γ} (read : L a text) :
    x.run text = .ok (a, []) :=
  (reads text a []).mpr ⟨text, read, (List.append_nil text).symm⟩

theorem Reads.consumes (reads : Reads L x) (some : ∀ a text, L a text → text ≠ []) :
    Consumes x := by
  intro s a rest h
  obtain ⟨text, read, rfl⟩ := (reads s a rest).mp h
  have positive := List.length_pos_iff.mpr (some a text read)
  rw [List.length_append]
  omega

/-- What a stream starts with is read in one way only. -/
theorem Reads.unique (reads : Reads L x) {a a' : α} {text text' rest rest' : List γ}
    (one : L a text) (other : L a' text') (same : text ++ rest = text' ++ rest') :
    a = a' ∧ rest = rest' := by
  have run := reads.run one rest
  have run' := (reads (text ++ rest) a' rest').mpr ⟨text', other, same⟩
  rw [run] at run'
  cases run'
  exact ⟨rfl, rfl⟩

end Reads

variable {decode : Decoder γ ε α} {s rest : List γ} {a : α}

theorem decodeFrom_zero (consumes : Consumes decode) (k : Nat) :
    decodeFrom decode k [] = ([], []) := by
  cases k with
  | zero => rfl
  | succ k =>
      unfold decodeFrom
      split
      · rename_i a rest step
        exact absurd (consumes [] a rest step) (Nat.not_lt_zero _)
      · rfl

/-- A number of calls that is enough gives the same as any other that is. -/
theorem decodeFrom_stable (consumes : Consumes decode) {k k' : Nat} (enough : s.length ≤ k)
    (enough' : s.length ≤ k') : decodeFrom decode k s = decodeFrom decode k' s := by
  induction k generalizing s k' with
  | zero =>
      obtain rfl : s = [] := List.eq_nil_of_length_eq_zero (Nat.le_zero.mp enough)
      rw [decodeFrom_zero consumes, decodeFrom_zero consumes]
  | succ k ih =>
      cases k' with
      | zero =>
          obtain rfl : s = [] := List.eq_nil_of_length_eq_zero (Nat.le_zero.mp enough')
          rw [decodeFrom_zero consumes, decodeFrom_zero consumes]
      | succ k' =>
          unfold decodeFrom
          split
          · rename_i a rest step
            have less := consumes s a rest step
            rw [ih (by omega) (show rest.length ≤ k' by omega)]
          · rfl

/-- The first message is read, and then the others. -/
theorem decodeAll_ok (consumes : Consumes decode) (h : decode.run s = .ok (a, rest)) :
    decodeAll decode s = (a :: (decodeAll decode rest).1, (decodeAll decode rest).2) := by
  have less := consumes s a rest h
  have enough : rest.length ≤ s.length - 1 := by omega
  have size : s.length = s.length - 1 + 1 := by omega
  rw [decodeAll, size, decodeFrom, h]
  dsimp only
  rw [decodeFrom_stable consumes enough (Nat.le_refl _), ← decodeAll]

theorem decodeAll_error {e : ε} (h : decode.run s = .error e) : decodeAll decode s = ([], s) := by
  unfold decodeAll
  cases s.length with
  | zero => rfl
  | succ n => rw [decodeFrom, h]

/-- Where every message can be encoded, all of them can. -/
theorem mapM_eq_ok {encode : β → Except ε α} {text : β → α} {messages : List β}
    (h : ∀ m ∈ messages, encode m = .ok (text m)) :
    messages.mapM encode = .ok (messages.map text) := by
  induction messages with
  | nil => rfl
  | cons m rest ih =>
      rw [List.mapM_cons, h m List.mem_cons_self,
        ih fun m' mem => h m' (List.mem_cons_of_mem m mem)]
      rfl

/-- A stream of encoded messages is read back message by message. -/
theorem decodeAll_encoded (consumes : Consumes decode) {encode : β → List γ} {image : β → α}
    (messages : List β)
    (frame : ∀ m ∈ messages, ∀ rest, decode.run (encode m ++ rest) = .ok (image m, rest)) :
    decodeAll decode (messages.flatMap encode) = (messages.map image, []) := by
  induction messages with
  | nil => rfl
  | cons m rest ih =>
      rw [List.flatMap_cons, decodeAll_ok consumes (frame m List.mem_cons_self _),
        ih fun m' mem => frame m' (List.mem_cons_of_mem m mem), List.map_cons]

end Framing
