import Mathlib.Data.Int.Basic

/-!
The settings of `internal/replication`: how many nodes hold a key, and how many of
them a write and a read must reach.
-/
namespace DistributedCache.Replication

/-- The values of the string type `WriteConsistency`: the three supported ones, the
empty string, and every other. -/
inductive WriteConsistency
  | unset
  | one
  | quorum
  | all
  | other (name : String)
  deriving DecidableEq, Repr

inductive ReadConsistency
  | unset
  | primary
  | quorum
  | any
  | other (name : String)
  deriving DecidableEq, Repr

structure Config where
  replicationFactor : Int
  writeQuorum : Int
  readQuorum : Int
  writeConsistency : WriteConsistency
  readConsistency : ReadConsistency
  deriving DecidableEq, Repr

inductive ConfigError
  | replicationFactor
  | writeQuorum (most : Int)
  | readQuorum (most : Int)
  | writeConsistency (mode : WriteConsistency)
  | readConsistency (mode : ReadConsistency)
  deriving DecidableEq, Repr

def defaultConfig : Config where
  replicationFactor := 3
  writeQuorum := 2
  readQuorum := 2
  writeConsistency := .quorum
  readConsistency := .quorum

namespace Config

/-- The error that `Validate` returns, if any. -/
def validate (c : Config) : Option ConfigError :=
  if c.replicationFactor < 1 then some .replicationFactor
  else if c.replicationFactor = 1 then none
  else if c.writeQuorum < 1 ∨ c.writeQuorum > c.replicationFactor
    then some (.writeQuorum c.replicationFactor)
  else if c.readQuorum < 1 ∨ c.readQuorum > c.replicationFactor
    then some (.readQuorum c.replicationFactor)
  else if c.writeConsistency ∉ [.one, .quorum, .all]
    then some (.writeConsistency c.writeConsistency)
  else if c.readConsistency ∉ [.primary, .quorum, .any]
    then some (.readConsistency c.readConsistency)
  else none

def enabled (c : Config) : Bool :=
  c.replicationFactor > 1

def normalize (c : Config) : Config :=
  if c.replicationFactor ≤ 1 then { c with replicationFactor := 1 }
  else
    let defaultQuorum := c.replicationFactor / 2 + 1
    { c with
      writeQuorum := if c.writeQuorum ≤ 0 then defaultQuorum else c.writeQuorum
      readQuorum := if c.readQuorum ≤ 0 then defaultQuorum else c.readQuorum
      writeConsistency :=
        if c.writeConsistency = .unset then .quorum else c.writeConsistency
      readConsistency :=
        if c.readConsistency = .unset then .quorum else c.readConsistency }

def requiredWriteAcks (c : Config) : Int :=
  match c.writeConsistency with
  | .one => 0
  | .all => c.replicationFactor - 1
  | _ => c.writeQuorum - 1

theorem enabled_normalize {c : Config} (factor : 2 ≤ c.replicationFactor) :
    c.normalize.enabled = true := by
  rw [normalize, if_neg (by omega)]
  exact decide_eq_true (by dsimp only; omega)

/-- What an accepted configuration of a replicated cluster guarantees. -/
theorem validate_enabled {c : Config} (valid : c.validate = none) (on : c.enabled = true) :
    1 ≤ c.readQuorum ∧ c.readQuorum ≤ c.replicationFactor ∧ 0 ≤ c.requiredWriteAcks ∧
      c.readConsistency ∈ [.primary, .quorum, .any] := by
  have factor : c.replicationFactor > 1 := of_decide_eq_true on
  unfold validate at valid
  split at valid
  · cases valid
  · split at valid
    · omega
    · split at valid
      · cases valid
      · split at valid
        · cases valid
        · refine ⟨by omega, by omega, ?_, ?_⟩
          · unfold requiredWriteAcks
            split <;> omega
          · split at valid
            · cases valid
            · split at valid
              · cases valid
              · rename_i supported
                exact Decidable.not_not.mp supported

end Config

end DistributedCache.Replication
