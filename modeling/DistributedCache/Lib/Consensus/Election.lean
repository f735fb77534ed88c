import DistributedCache.Lib.Consensus.Protocol

/-!
Election safety of the abstract protocol. A member may cast two ballots in one
term, but only after another member has won it, and the majority that elected
the winner never votes for anybody else in that term.
-/
namespace Consensus

open Quorum

variable {ι α : Type*}

structure Elected (members : Finset ι) (s : State ι α) : Prop where
  ballot_term : ∀ b ∈ s.ballots, b.term ≤ s.term b.voter
  cand_term : ∀ x t l, s.cand x t = some l → 1 ≤ t ∧ t ≤ s.term x
  leader_term : ∀ t l, s.leader t = some l → 1 ≤ t ∧ t ≤ s.term l
  /-- Before a term has a leader nobody has voted twice in it. -/
  single : ∀ t, s.leader t = none → ∀ b ∈ s.ballots, ∀ b' ∈ s.ballots,
    b.voter = b'.voter → b.term = t → b'.term = t → b.choice = b'.choice
  /-- A leader keeps a majority that voted for it and for nobody else. -/
  backed : ∀ t l, s.leader t = some l → ∃ Q, Majority members Q ∧ ∀ x ∈ Q,
    t ≤ s.term x ∧ (∃ m, ⟨x, t, l, m⟩ ∈ s.ballots) ∧
      ∀ b ∈ s.ballots, b.voter = x → b.term = t → b.choice = l

variable {tm : α → Nat} {members : Finset ι}
  {keep : List α → List α → Prop} {l₀ : List α} {s s' : State ι α}

theorem elected_initial : Elected members (State.initial l₀ : State ι α) where
  ballot_term := by simp [State.initial]
  cand_term := by simp [State.initial]
  leader_term := by simp [State.initial]
  single := by simp [State.initial]
  backed := by simp [State.initial]

theorem elected_vote (h : Elected members s) (x c : ι) (free : FreeToVote s x c) :
    Elected members (s.vote x c) := by
  refine ⟨?_, h.cand_term, h.leader_term, ?_, ?_⟩
  · rintro b (rfl | hb)
    · exact Nat.le_refl _
    · exact h.ballot_term b hb
  · intro t ht
    have once : ∀ b ∈ s.ballots, b.voter = x → b.term = t → s.term x = t → b.choice = c := by
      intro b hb hv hbt hxt
      rcases free b hb hv (hbt.trans hxt.symm) with same | ⟨_, l, hl, _⟩
      · exact same
      · rw [hxt, show s.leader t = none from ht] at hl
        exact absurd hl (by simp)
    rintro b (rfl | hb) b' (rfl | hb') hv hbt hbt'
    · rfl
    · exact (once b' hb' hv.symm hbt' hbt).symm
    · exact once b hb hv hbt hbt'
    · exact h.single t ht b hb b' hb' hv hbt hbt'
  · intro t l ht
    obtain ⟨Q, hQ, backing⟩ := h.backed t l ht
    refine ⟨Q, hQ, fun y hy => ?_⟩
    obtain ⟨reached, ⟨m, cast⟩, only⟩ := backing y hy
    refine ⟨reached, ⟨m, .inr cast⟩, ?_⟩
    rintro b (rfl | hb) hv hbt
    · -- the voter already voted for the leader, so it is free for nobody else
      change x = y at hv
      change s.term x = t at hbt
      subst hv
      rcases free ⟨x, t, l, m⟩ cast rfl hbt.symm with same | ⟨self, l', hl', other⟩
      · exact same.symm
      · rw [hbt, show s.leader t = some l from ht, Option.some_inj] at hl'
        exact absurd (hl'.symm.trans self) other
    · exact only b hb hv hbt

variable [DecidableEq ι]

/-- A candidate with a majority finds its term without a leader. -/
theorem unled_of_won (h : Elected members s) (c : ι) (Q : Finset ι)
    (majority : Majority members Q) (unled : s.leader (s.term c) ≠ some c)
    (won : ∀ x ∈ Q, ∃ l, ⟨x, s.term c, c, l⟩ ∈ s.ballots) :
    s.leader (s.term c) = none := by
  cases hl : s.leader (s.term c) with
  | none => rfl
  | some l =>
      obtain ⟨R, hR, faithful⟩ := h.backed _ l hl
      obtain ⟨x, hxQ, hxR⟩ := majority.meet hR
      obtain ⟨m, cast⟩ := won x hxQ
      have same : c = l := (faithful x hxR).2.2 _ cast rfl rfl
      exact absurd (same ▸ hl) unled

theorem elected_setTerm (h : Elected members s) (x : ι) (t : Nat) (later : s.term x ≤ t) :
    Elected members (s.setTerm x t) := by
  have grows (y : ι) : s.term y ≤ (s.setTerm x t).term y := by
    by_cases hy : y = x
    · subst hy; simpa [State.setTerm] using later
    · simp [State.setTerm, hy]
  refine ⟨?_, ?_, ?_, h.single, ?_⟩
  · exact fun b hb => (h.ballot_term b hb).trans (grows _)
  · exact fun y u l hy =>
      ⟨(h.cand_term y u l hy).1, (h.cand_term y u l hy).2.trans (grows y)⟩
  · exact fun u l hl => ⟨(h.leader_term u l hl).1, (h.leader_term u l hl).2.trans (grows l)⟩
  · intro u l hu
    obtain ⟨Q, hQ, backing⟩ := h.backed u l hu
    exact ⟨Q, hQ, fun y hy => ⟨(backing y hy).1.trans (grows y), (backing y hy).2⟩⟩

theorem elected_stand (h : Elected members s) (x : ι) : Elected members (s.stand x) := by
  have grows (y : ι) : s.term y ≤ (s.stand x).term y := by
    by_cases hy : y = x
    · subst hy; simp [State.stand]
    · simp [State.stand, hy]
  -- the new ballot is the first of its voter in a term it had not reached before
  have fresh : ∀ b ∈ s.ballots, b.voter = x → b.term ≠ s.term x + 1 := by
    intro b hb hx ht
    have := h.ballot_term b hb
    rw [hx, ht] at this
    omega
  refine ⟨?_, ?_, ?_, ?_, ?_⟩
  · rintro b (rfl | hb)
    · simp [State.stand]
    · exact (h.ballot_term b hb).trans (grows _)
  · intro y t l hy
    by_cases hnew : y = x ∧ t = s.term x + 1
    · obtain ⟨rfl, rfl⟩ := hnew
      simp [State.stand]
    · have old : s.cand y t = some l := by simpa [State.stand, hnew] using hy
      exact ⟨(h.cand_term y t l old).1, (h.cand_term y t l old).2.trans (grows y)⟩
  · exact fun u l hl => ⟨(h.leader_term u l hl).1, (h.leader_term u l hl).2.trans (grows l)⟩
  · rintro t ht b (rfl | hb) b' (rfl | hb') hv hbt hbt'
    · rfl
    · exact absurd (hbt'.trans hbt.symm) (fresh b' hb' hv.symm)
    · exact absurd (hbt.trans hbt'.symm) (fresh b hb hv)
    · exact h.single t ht b hb b' hb' hv hbt hbt'
  · intro t l ht
    obtain ⟨Q, hQ, backing⟩ := h.backed t l ht
    refine ⟨Q, hQ, fun y hy => ?_⟩
    obtain ⟨reached, ⟨m, cast⟩, only⟩ := backing y hy
    refine ⟨reached.trans (grows y), ⟨m, .inr cast⟩, ?_⟩
    rintro b (rfl | hb) hv hbt
    · exact absurd hbt.symm (fresh ⟨y, t, l, m⟩ cast hv.symm)
    · exact only b hb hv hbt

theorem elected_elect (h : Elected members s) (c : ι) (Q : Finset ι)
    (majority : Majority members Q) (standing : s.cand c (s.term c) = some (s.log c))
    (unled : s.leader (s.term c) ≠ some c)
    (won : ∀ x ∈ Q, ∃ l, ⟨x, s.term c, c, l⟩ ∈ s.ballots) :
    Elected members (s.elect c) := by
  have hnone := unled_of_won h c Q majority unled won
  refine ⟨h.ballot_term, h.cand_term, ?_, ?_, ?_⟩
  · intro t l ht
    by_cases htc : t = s.term c
    · subst htc
      obtain rfl : c = l := by simpa [State.elect] using ht
      exact ⟨(h.cand_term c _ _ standing).1, Nat.le_refl _⟩
    · exact h.leader_term t l (by simpa [State.elect, htc] using ht)
  · intro t ht
    have htc : t ≠ s.term c := by rintro rfl; simp [State.elect] at ht
    exact h.single t (by simpa [State.elect, htc] using ht)
  · intro t l ht
    by_cases htc : t = s.term c
    · subst htc
      obtain rfl : c = l := by simpa [State.elect] using ht
      refine ⟨Q, majority, fun x hx => ?_⟩
      obtain ⟨m, cast⟩ := won x hx
      refine ⟨h.ballot_term _ cast, ⟨m, cast⟩, fun b hb hv hbt => ?_⟩
      exact h.single _ hnone b hb _ cast hv hbt rfl
    · exact h.backed t l (by simpa [State.elect, htc] using ht)

theorem elected_step (h : Elected members s) (step : Step tm members keep s s') :
    Elected members s' := by
  cases step with
  | observe x t later => exact elected_setTerm h x t later
  | stand x => exact elected_stand h x
  | vote x c l standing fresh free => exact elected_vote h x c free
  | elect c Q majority standing unled won =>
      exact elected_elect h c Q majority standing unled won
  | append l e leads current own =>
      exact ⟨h.ballot_term, h.cand_term, h.leader_term, h.single, h.backed⟩
  | adopt x l m leads other above below kept =>
      exact ⟨h.ballot_term, h.cand_term, h.leader_term, h.single, h.backed⟩

theorem elected_reachable (h : Reachable tm members keep l₀ s) : Elected members s :=
  Reachable.invariant elected_initial (fun _ _ => elected_step) h

end Consensus
