import Mathlib.Data.Set.Insert
import Mathlib.Logic.Relation
import DistributedCache.Lib.Quorum

/-!
An abstract protocol of elected leaders that replicate their logs.

Every term has at most one leader. A leader is elected by a majority of
ballots, extends its log, and members adopt whole prefixes of that log. There
are no messages and no timers: a step may use anything that was true at some
earlier time, which is what delayed and reordered messages amount to. The
state keeps the ballots cast, the log each leader was elected with, its log
since, and how much of it every member has ever acknowledged.

Which logs a member may give up for which is a parameter `keep`. Election
safety and log matching hold for every `keep`; completeness does not.
-/
namespace Consensus

open Quorum

/-- A vote, with the voter's log at the time it was cast. -/
structure Ballot (ι α : Type*) where
  voter : ι
  term : Nat
  choice : ι
  log : List α

structure State (ι α : Type*) where
  term : ι → Nat
  log : ι → List α
  /-- The log with which a member stood as candidate in a term. -/
  cand : ι → Nat → Option (List α)
  ballots : Set (Ballot ι α)
  leader : Nat → Option ι
  /-- The leader's log when it was elected, and its log since. -/
  base : Nat → List α
  lead : Nat → List α
  /-- The longest prefix of the term's leader log a member has stored in that term. -/
  acked : ι → Nat → Nat

variable {ι α : Type*}

def lastTerm (tm : α → Nat) (l : List α) : Nat :=
  (l.getLast?.map tm).getD 0

/-- The comparison a voter makes between the candidate's log and its own. -/
def UpToDate (tm : α → Nat) (l m : List α) : Prop :=
  lastTerm tm m < lastTerm tm l ∨ (lastTerm tm l = lastTerm tm m ∧ m.length ≤ l.length)

theorem upToDate_refl (tm : α → Nat) (l : List α) : UpToDate tm l l :=
  .inr ⟨rfl, Nat.le_refl _⟩

/-- A member may vote again in a term only where it has voted for itself and
another member is already the leader of that term. -/
def FreeToVote (s : State ι α) (x c : ι) : Prop :=
  ∀ b ∈ s.ballots, b.voter = x → b.term = s.term x →
    b.choice = c ∨ (b.choice = x ∧ ∃ l, s.leader (s.term x) = some l ∧ l ≠ x)

variable [DecidableEq ι]

def State.setTerm (s : State ι α) (x : ι) (t : Nat) : State ι α :=
  { s with term := Function.update s.term x t }

def State.stand (s : State ι α) (x : ι) : State ι α :=
  { s with
    term := Function.update s.term x (s.term x + 1)
    cand := fun y t =>
      if y = x ∧ t = s.term x + 1 then some (s.log x) else s.cand y t
    ballots := insert ⟨x, s.term x + 1, x, s.log x⟩ s.ballots }

def State.vote (s : State ι α) (x c : ι) : State ι α :=
  { s with ballots := insert ⟨x, s.term x, c, s.log x⟩ s.ballots }

def State.ack (s : State ι α) (x : ι) (t k : Nat) : ι → Nat → Nat :=
  fun y u => if y = x ∧ u = t then max (s.acked y u) k else s.acked y u

def State.elect (s : State ι α) (c : ι) : State ι α :=
  { s with
    leader := Function.update s.leader (s.term c) (some c)
    base := Function.update s.base (s.term c) (s.log c)
    lead := Function.update s.lead (s.term c) (s.log c)
    acked := s.ack c (s.term c) (s.log c).length }

def State.append (s : State ι α) (l : ι) (e : α) : State ι α :=
  { s with
    log := Function.update s.log l (s.log l ++ [e])
    lead := Function.update s.lead (s.term l) (s.log l ++ [e])
    acked := s.ack l (s.term l) ((s.log l).length + 1) }

def State.adopt (s : State ι α) (x : ι) (m : List α) : State ι α :=
  { s with
    log := Function.update s.log x m
    acked := s.ack x (s.term x) m.length }

/-- All members start at term 0 with the same log, which counts as the log of
a leader of term 0 that nobody ever was. -/
def State.initial (l₀ : List α) : State ι α where
  term _ := 0
  log _ := l₀
  cand _ _ := none
  ballots := ∅
  leader _ := none
  base _ := []
  lead t := if t = 0 then l₀ else []
  acked _ _ := 0

inductive Step (tm : α → Nat) (members : Finset ι) (keep : List α → List α → Prop) :
    State ι α → State ι α → Prop
  | observe (s : State ι α) (x : ι) (t : Nat) (later : s.term x ≤ t) :
      Step tm members keep s (s.setTerm x t)
  | stand (s : State ι α) (x : ι) : Step tm members keep s (s.stand x)
  | vote (s : State ι α) (x c : ι) (l : List α)
      (standing : s.cand c (s.term x) = some l) (fresh : UpToDate tm l (s.log x))
      (free : FreeToVote s x c) : Step tm members keep s (s.vote x c)
  | elect (s : State ι α) (c : ι) (Q : Finset ι) (majority : Majority members Q)
      (standing : s.cand c (s.term c) = some (s.log c))
      (unled : s.leader (s.term c) ≠ some c)
      (won : ∀ x ∈ Q, ∃ l, ⟨x, s.term c, c, l⟩ ∈ s.ballots) :
      Step tm members keep s (s.elect c)
  | append (s : State ι α) (l : ι) (e : α) (leads : s.leader (s.term l) = some l)
      (current : s.log l = s.lead (s.term l)) (own : tm e = s.term l) :
      Step tm members keep s (s.append l e)
  | adopt (s : State ι α) (x l : ι) (m : List α) (leads : s.leader (s.term x) = some l)
      (other : l ≠ x) (above : s.base (s.term x) <+: m)
      (below : m <+: s.lead (s.term x)) (kept : keep (s.log x) m) :
      Step tm members keep s (s.adopt x m)

/-- States reachable from the common initial log. -/
def Reachable (tm : α → Nat) (members : Finset ι) (keep : List α → List α → Prop)
    (l₀ : List α) (s : State ι α) : Prop :=
  Relation.ReflTransGen (Step tm members keep) (State.initial l₀) s

theorem Reachable.invariant {tm : α → Nat} {members : Finset ι}
    {keep : List α → List α → Prop} {l₀ : List α} {I : State ι α → Prop}
    (start : I (State.initial l₀))
    (keeps : ∀ s s', I s → Step tm members keep s s' → I s')
    {s : State ι α} (h : Reachable tm members keep l₀ s) : I s := by
  induction h with
  | refl => exact start
  | tail _ step ih => exact keeps _ _ ih step

end Consensus
