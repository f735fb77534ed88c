import DistributedCache.Lib.Consensus.Growth

/-!
Leader completeness of the abstract protocol, for members that give up a log
only for one that is at least as long or conflicts with it.

For every prefix that ends in an entry of its leader's own term, a later leader
was either elected with that prefix, or a majority has left the term without
acknowledging it. A prefix acknowledged by a majority is in the first case.
-/
namespace Consensus

open Quorum

variable {ι α : Type*} {tm : α → Nat} {members : Finset ι} {l₀ : List α}
  {s s' : State ι α}

/-- A log may be replaced by one that is not shorter, or that has another term
at some position of both. -/
def Keeps (tm : α → Nat) (l m : List α) : Prop :=
  l.length ≤ m.length ∨ ∃ (k : Nat) (d e : α), l[k]? = some d ∧ m[k]? = some e ∧ tm d ≠ tm e

theorem not_keeps_cut {l m : List α} (h : m <+: l) (shorter : m.length < l.length) :
    ¬ Keeps tm l m := by
  rintro (longer | ⟨k, d, e, hd, he, differ⟩)
  · omega
  · have := getElem?_of_extends h he
    rw [hd, Option.some_inj] at this
    exact differ (this ▸ rfl)

/-- The first `k` entries of the leader of `t` end in an entry of term `t`. -/
def Own (s : State ι α) (t k : Nat) : Prop :=
  (s.base t).length < k ∧ k ≤ (s.lead t).length

def Holds (s : State ι α) (t k : Nat) (m : List α) : Prop :=
  (s.lead t).take k <+: m

/-- Some leader of a term between `t` and `u` was elected without them. -/
def Lost (s : State ι α) (u t k : Nat) : Prop :=
  ∃ v l, t < v ∧ v ≤ u ∧ s.leader v = some l ∧ ¬ Holds s t k (s.base v)

/-- A majority has left term `t` without acknowledging them. -/
def Dead (members : Finset ι) (s : State ι α) (t k : Nat) : Prop :=
  ∃ Q, Majority members Q ∧ ∀ x ∈ Q, t < s.term x ∧ s.acked x t < k

structure Complete (tm : α → Nat) (members : Finset ι) (s : State ι α) : Prop where
  acked_le : ∀ x t, s.acked x t ≤ (s.lead t).length
  acked_term : ∀ x t, 0 < s.acked x t → t ≤ s.term x
  ack_kept : ∀ x t k, Own s t k → k ≤ s.acked x t →
    Holds s t k (s.log x) ∨ Lost s (s.term x) t k
  vote_kept : ∀ b ∈ s.ballots, ∀ t k, t < b.term → Own s t k → k ≤ s.acked b.voter t →
    Holds s t k b.log ∨ Lost s b.term t k
  vote_fresh : ∀ b ∈ s.ballots, ∃ l, s.cand b.choice b.term = some l ∧ UpToDate tm l b.log
  complete : ∀ t u k l, t < u → s.leader u = some l → Own s t k →
    Holds s t k (s.base u) ∨ Dead members s t k

theorem complete_initial : Complete tm members (State.initial l₀ : State ι α) where
  acked_le := by simp [State.initial]
  acked_term := by simp [State.initial]
  ack_kept := by
    intro x t k own hk
    have : k = 0 := by simpa [State.initial] using hk
    have := own.1
    omega
  vote_kept := by simp [State.initial]
  vote_fresh := by simp [State.initial]
  complete := by simp [State.initial]

theorem Own.back {t k : Nat} (own : Own s' t k) (g : Grows s s')
    (hk : k ≤ (s.lead t).length) : Own s t k := by
  have ne : s.lead t ≠ [] := by
    intro he
    have := own.1
    simp only [he, List.length_nil] at hk
    omega
  exact ⟨g.base_of_lead t ne ▸ own.1, hk⟩

theorem holds_iff {t k : Nat} {m : List α} (g : Grows s s') (hk : k ≤ (s.lead t).length) :
    Holds s' t k m ↔ Holds s t k m := by
  rw [Holds, Holds, take_of_extends (g.lead t) hk]

theorem Lost.mono {t k u u' : Nat} (h : Lost s u t k) (g : Grows s s')
    (hk : k ≤ (s.lead t).length) (hu : u ≤ u') : Lost s' u' t k := by
  obtain ⟨v, l, htv, hvu, hl, without⟩ := h
  refine ⟨v, l, htv, hvu.trans hu, g.leader v l hl, ?_⟩
  rwa [g.base v l hl, holds_iff g hk]

theorem Dead.mono {t k : Nat} (h : Dead members s t k) (g : Grows s s') :
    Dead members s' t k := by
  obtain ⟨Q, hQ, left⟩ := h
  refine ⟨Q, hQ, fun x hx => ⟨(left x hx).1.trans_le (g.term x), ?_⟩⟩
  rw [g.frozen x t (left x hx).1]
  exact (left x hx).2

/-- The acknowledged prefixes of a member, seen from a later state. -/
theorem Complete.ack_later (h : Complete tm members s) (g : Grows s s') {x : ι} {t k : Nat}
    (own : Own s' t k) (hk : k ≤ s.acked x t) :
    Holds s t k (s.log x) ∨ Lost s' (s'.term x) t k := by
  have bound := hk.trans (h.acked_le x t)
  exact (h.ack_kept x t k (own.back g bound) hk).imp_right
    fun lost => lost.mono g bound (g.term x)

theorem Complete.vote_later (h : Complete tm members s) (helect : Elected members s)
    (g : Grows s s') {b : Ballot ι α} (hb : b ∈ s.ballots) {t k : Nat} (ht : t < b.term)
    (own : Own s' t k) (hk : k ≤ s'.acked b.voter t) :
    Holds s' t k b.log ∨ Lost s' b.term t k := by
  have left : t < s.term b.voter := ht.trans_le (helect.ballot_term b hb)
  rw [g.frozen b.voter t left] at hk
  have bound := hk.trans (h.acked_le b.voter t)
  rw [holds_iff g bound]
  exact (h.vote_kept b hb t k ht (own.back g bound) hk).imp_right
    fun lost => lost.mono g bound (Nat.le_refl _)

theorem Complete.fresh_later (h : Complete tm members s) (g : Grows s s')
    {b : Ballot ι α} (hb : b ∈ s.ballots) :
    ∃ l, s'.cand b.choice b.term = some l ∧ UpToDate tm l b.log := by
  obtain ⟨l, hl, fresh⟩ := h.vote_fresh b hb
  exact ⟨l, g.cand _ _ l hl, fresh⟩

theorem Complete.complete_later (h : Complete tm members s) (g : Grows s s')
    {t u k : Nat} {l : ι} (htu : t < u) (hl : s.leader u = some l) (own : Own s' t k)
    (bound : k ≤ (s.lead t).length) : Holds s' t k (s'.base u) ∨ Dead members s' t k := by
  rw [g.base u l hl, holds_iff g bound]
  exact (h.complete t u k l htu hl (own.back g bound)).imp_right fun dead => dead.mono g

/-- Steps that leave logs, leaders and acknowledgements alone. New ballots
carry the voter's current log and name a standing candidate. -/
theorem complete_quiet (h : Complete tm members s) (helect : Elected members s)
    (g : Grows s s') (hlog : s'.log = s.log) (hlead : s'.lead = s.lead)
    (hleader : s'.leader = s.leader) (hacked : s'.acked = s.acked)
    (hballots : ∀ b ∈ s'.ballots, b ∈ s.ballots ∨
      (b.log = s.log b.voter ∧ s.term b.voter ≤ b.term ∧
        ∃ l, s'.cand b.choice b.term = some l ∧ UpToDate tm l b.log)) :
    Complete tm members s' := by
  refine ⟨?_, ?_, ?_, ?_, ?_, ?_⟩
  · intro x t
    rw [hacked, hlead]
    exact h.acked_le x t
  · intro x t hx
    rw [hacked] at hx
    exact (h.acked_term x t hx).trans (g.term x)
  · intro x t k own hk
    rw [hacked] at hk
    rw [hlog, holds_iff g (hk.trans (h.acked_le x t))]
    exact h.ack_later g own hk
  · intro b hb t k ht own hk
    rcases hballots b hb with old | ⟨hl, reached, _⟩
    · exact h.vote_later helect g old ht own hk
    · rw [hacked] at hk
      have bound := hk.trans (h.acked_le b.voter t)
      rw [hl, holds_iff g bound]
      exact (h.ack_kept _ t k (own.back g bound) hk).imp_right
        fun lost => lost.mono g bound reached
  · intro b hb
    rcases hballots b hb with old | ⟨_, _, fresh⟩
    · exact h.fresh_later g old
    · exact fresh
  · intro t u k l htu hl own
    rw [hleader] at hl
    exact h.complete_later g htu hl own (hlead ▸ own.2)

/-- The entry that ends an own prefix of a leader has the leader's term. -/
theorem own_last (hmatch : Matched tm l₀ s) (zero : ∀ e ∈ l₀, tm e = 0) {t k : Nat}
    (own : Own s t k) : ∃ e, (s.lead t)[k - 1]? = some e ∧ tm e = t := by
  have pos : 0 < k := Nat.zero_lt_of_lt own.1
  have bound : k - 1 < (s.lead t).length := by have := own.2; omega
  obtain ⟨e, hget⟩ : ∃ e, (s.lead t)[k - 1]? = some e := ⟨_, List.getElem?_eq_getElem bound⟩
  refine ⟨e, hget, ?_⟩
  cases hl : s.leader t with
  | some l =>
      exact hmatch.own t l hl (k - 1) e (by have := own.1; omega) hget
  | none =>
      by_cases ht : t = 0
      · subst ht
        rw [hmatch.lead_zero] at hget
        exact zero e (List.mem_of_getElem? hget)
      · rw [hmatch.lead_nil t hl ht] at hget
        exact absurd hget (by simp)

/-- A log at least as up to date as one that holds an own prefix of `t` holds
it too, provided every leader in between was elected with it. -/
theorem holds_of_upToDate (hmatch : Matched tm l₀ s) (zero : ∀ e ∈ l₀, tm e = 0)
    {t u k : Nat} {c m : List α} (own : Own s t k)
    (hc : Traced tm s c) (hcu : ∀ e ∈ c, tm e < u) (hm : Traced tm s m)
    (fresh : UpToDate tm c m) (holds : Holds s t k m)
    (between : ∀ v l, t < v → v < u → s.leader v = some l → Holds s t k (s.base v)) :
    Holds s t k c := by
  obtain ⟨e, he, hterm⟩ := own_last hmatch zero own
  have pos : 0 < k := Nat.zero_lt_of_lt own.1
  have length : ((s.lead t).take k).length = k := List.length_take_of_le own.2
  have hme : m[k - 1]? = some e :=
    getElem?_of_extends holds (by rwa [List.getElem?_take_of_lt (by omega)])
  have hkm : k ≤ m.length := length ▸ holds.length_le
  have hm0 : m ≠ [] := by rintro rfl; simp at hme
  obtain ⟨dm, hdm, hlastm⟩ := getLast?_eq_getElem?_of_pos tm hm0
  have lower : t ≤ lastTerm tm m := by
    rw [hlastm, ← hterm]
    exact hmatch.sorted zero hm (by omega) hme hdm
  have hc0 : c ≠ [] := by
    rintro rfl
    rcases fresh with newer | ⟨_, longer⟩
    · simp [lastTerm] at newer
    · simp only [List.length_nil] at longer; omega
  obtain ⟨dc, hdc, hlastc⟩ := getLast?_eq_getElem?_of_pos tm hc0
  have hprefix := hc.prefix_last hc0
  rcases Nat.lt_or_ge t (lastTerm tm c) with later | same
  · -- the candidate's last entry was written by a leader elected with the prefix
    have upper : lastTerm tm c < u := hlastc ▸ hcu dc (List.mem_of_getElem? hdc)
    have hled : ∃ l, s.leader (lastTerm tm c) = some l := by
      cases hl : s.leader (lastTerm tm c) with
      | some l => exact ⟨l, rfl⟩
      | none =>
          rw [hmatch.lead_nil _ hl (by omega), List.prefix_nil] at hprefix
          exact absurd hprefix hc0
    obtain ⟨l, hl⟩ := hled
    have inBase := between _ l later upper hl
    rcases Nat.le_total k c.length with hkc | hck
    · exact List.prefix_of_prefix_length_le (inBase.trans (hmatch.base_prefix _)) hprefix
        (by omega)
    · -- otherwise that entry would already be part of the log it was elected with
      have hcBase : c <+: s.base (lastTerm tm c) :=
        (List.prefix_of_prefix_length_le hprefix (inBase.trans (hmatch.base_prefix _))
          (by omega)).trans inBase
      have := hmatch.base_lt _ dc (hcBase.subset (List.mem_of_getElem? hdc))
      omega
  · have equal : lastTerm tm c = t ∧ m.length ≤ c.length := by
      rcases fresh with newer | ⟨heq, longer⟩
      · omega
      · exact ⟨by omega, longer⟩
    rw [equal.1] at hprefix
    exact List.prefix_of_prefix_length_le (List.take_prefix _ _) hprefix (by omega)

/-- The new leader holds every own prefix that a majority may still acknowledge. -/
theorem complete_elected (h : Complete tm members s) (helect : Elected members s)
    (hmatch : Matched tm l₀ s) (zero : ∀ e ∈ l₀, tm e = 0) (c : ι) (Q : Finset ι)
    (majority : Majority members Q) (standing : s.cand c (s.term c) = some (s.log c))
    (hnone : s.leader (s.term c) = none)
    (won : ∀ x ∈ Q, ∃ l, ⟨x, s.term c, c, l⟩ ∈ s.ballots) {t k : Nat}
    (ht : t < s.term c) (own : Own s t k) :
    Holds s t k (s.log c) ∨ Dead members s t k := by
  by_cases between : ∀ v l, t < v → v < s.term c → s.leader v = some l → Holds s t k (s.base v)
  · by_cases acks : ∃ x ∈ Q, k ≤ s.acked x t
    · obtain ⟨x, hx, hk⟩ := acks
      obtain ⟨m, cast⟩ := won x hx
      obtain ⟨l, hl, fresh⟩ := h.vote_fresh _ cast
      obtain rfl : s.log c = l := by simpa [standing] using hl
      left
      have holds : Holds s t k m := by
        rcases h.vote_kept _ cast t k ht own hk with holds | ⟨v, l, htv, hvu, hl, without⟩
        · exact holds
        · -- the voter may have lost it to a leader in between, but there is none
          have hv : v ≠ s.term c := by rintro rfl; simp [hnone] at hl
          change v ≤ s.term c at hvu
          exact absurd (between v l htv (by omega) hl) without
      exact holds_of_upToDate hmatch zero own (hmatch.log_traced c)
        (hmatch.cand_lt c _ _ standing) (hmatch.ballot_traced _ cast) fresh holds between
    · right
      refine ⟨Q, majority, fun x hx => ?_⟩
      obtain ⟨m, cast⟩ := won x hx
      refine ⟨ht.trans_le (helect.ballot_term _ cast), ?_⟩
      by_contra hk
      exact acks ⟨x, hx, by omega⟩
  · push Not at between
    obtain ⟨v, l, htv, _, hl, without⟩ := between
    exact .inr ((h.complete t v k l htv hl own).resolve_left without)

variable [DecidableEq ι]

theorem le_ack_cases (s : State ι α) {x y : ι} {t u k j : Nat} (h : j ≤ s.ack x t k y u) :
    j ≤ s.acked y u ∨ (y = x ∧ u = t ∧ j ≤ k) := by
  unfold State.ack at h
  split at h
  · rename_i same
    rcases le_max_iff.mp h with old | new
    · exact .inl old
    · exact .inr ⟨same.1, same.2, new⟩
  · exact .inl h

theorem complete_elect (h : Complete tm members s) (helect : Elected members s)
    (hmatch : Matched tm l₀ s) (zero : ∀ e ∈ l₀, tm e = 0) (c : ι) (Q : Finset ι)
    (majority : Majority members Q) (standing : s.cand c (s.term c) = some (s.log c))
    (unled : s.leader (s.term c) ≠ some c)
    (won : ∀ x ∈ Q, ∃ l, ⟨x, s.term c, c, l⟩ ∈ s.ballots) :
    Complete tm members (s.elect c) := by
  have hnone := unled_of_won helect c Q majority unled won
  have hpos := (helect.cand_term c _ _ standing).1
  have g := grows_elect hmatch c (by omega) hnone
  -- the new term has no own prefix yet, so every own prefix is an old one
  have old {t k : Nat} (own : Own (s.elect c) t k) : k ≤ (s.lead t).length := by
    by_cases ht : t = s.term c
    · subst ht
      have lower := own.1
      have upper := own.2
      simp only [State.elect, Function.update_self] at lower upper
      omega
    · simpa [State.elect, ht] using own.2
  have ackOld {x : ι} {t k : Nat} (own : Own (s.elect c) t k)
      (hk : k ≤ (s.elect c).acked x t) : k ≤ s.acked x t := by
    rcases le_ack_cases s hk with old | ⟨rfl, rfl, new⟩
    · exact old
    · have lower := own.1
      simp only [State.elect, Function.update_self] at lower
      omega
  refine ⟨?_, ?_, ?_, ?_, ?_, ?_⟩
  · intro x t
    rcases le_ack_cases s (Nat.le_refl ((s.elect c).acked x t)) with hle | ⟨rfl, rfl, hle⟩
    · exact (hle.trans (h.acked_le x t)).trans (g.lead t).length_le
    · simpa [State.elect] using hle
  · intro x t hx
    rcases le_ack_cases s (Nat.succ_le_of_lt hx) with hle | ⟨rfl, rfl, _⟩
    · exact h.acked_term x t hle
    · exact Nat.le_refl _
  · intro x t k own hk
    rw [holds_iff g (old own)]
    exact h.ack_later g own (ackOld own hk)
  · exact fun b hb t k ht own hk => h.vote_later helect g hb ht own hk
  · exact fun b hb => h.fresh_later g hb
  · intro t u k l htu hl own
    by_cases hu : u = s.term c
    · subst hu
      rw [holds_iff g (old own)]
      have goal := complete_elected h helect hmatch zero c Q majority standing hnone won htu
        (own.back g (old own))
      exact (goal.imp_left fun holds => by simpa [State.elect] using holds).imp_right
        fun dead => dead.mono g
    · exact h.complete_later g htu (by simpa [State.elect, hu] using hl) own (old own)

theorem complete_append (h : Complete tm members s) (helect : Elected members s) (l : ι) (e : α)
    (current : s.log l = s.lead (s.term l)) : Complete tm members (s.append l e) := by
  have g := grows_append l e current
  have split {t k : Nat} (own : Own (s.append l e) t k) :
      k ≤ (s.lead t).length ∨ (t = s.term l ∧ k = (s.log l).length + 1) := by
    by_cases ht : t = s.term l
    · have upper := own.2
      simp only [State.append, ht, Function.update_self, List.length_append,
        List.length_singleton] at upper
      rw [ht, ← current]
      omega
    · exact .inl (by simpa [State.append, ht] using own.2)
  refine ⟨?_, ?_, ?_, ?_, ?_, ?_⟩
  · intro x t
    rcases le_ack_cases s (Nat.le_refl ((s.append l e).acked x t)) with hle | ⟨rfl, rfl, hle⟩
    · exact (hle.trans (h.acked_le x t)).trans (g.lead t).length_le
    · simpa [State.append] using hle
  · intro x t hx
    rcases le_ack_cases s (Nat.succ_le_of_lt hx) with hle | ⟨rfl, rfl, _⟩
    · exact h.acked_term x t hle
    · exact Nat.le_refl _
  · intro x t k own hk
    rcases le_ack_cases s hk with old | ⟨rfl, rfl, _⟩
    · rw [holds_iff g (old.trans (h.acked_le x t))]
      refine (h.ack_later g own old).imp_left fun holds => ?_
      by_cases hx : x = l
      · subst hx
        have longer : Holds s t k (s.log x ++ [e]) := holds.trans (List.prefix_append _ _)
        simpa [State.append] using longer
      · simpa [State.append, hx] using holds
    · left
      simpa [Holds, State.append] using List.take_prefix k (s.log x ++ [e])
  · exact fun b hb t k ht own hk => h.vote_later helect g hb ht own hk
  · exact fun b hb => h.fresh_later g hb
  · intro t u k m htu hm own
    rcases split own with bound | ⟨rfl, rfl⟩
    · exact h.complete_later g htu hm own bound
    · -- nobody but the leader has the new entry, and the voters of `u` have moved on
      right
      obtain ⟨Q, hQ, backing⟩ := helect.backed u m hm
      refine ⟨Q, hQ, fun x hx => ?_⟩
      have left : s.term l < s.term x := htu.trans_le (backing x hx).1
      refine ⟨left, ?_⟩
      rw [g.frozen x _ left]
      have := h.acked_le x (s.term l)
      rw [← current] at this
      omega

theorem complete_adopt (h : Complete tm members s) (helect : Elected members s)
    (hmatch : Matched tm l₀ s) (x l : ι) (m : List α)
    (leads : s.leader (s.term x) = some l) (below : m <+: s.lead (s.term x))
    (kept : Keeps tm (s.log x) m) : Complete tm members (s.adopt x m) := by
  have g : Grows s (s.adopt x m) := grows_adopt x m
  refine ⟨?_, ?_, ?_, ?_, ?_, ?_⟩
  · intro y t
    rcases le_ack_cases s (Nat.le_refl ((s.adopt x m).acked y t)) with hle | ⟨rfl, rfl, hle⟩
    · exact hle.trans (h.acked_le y t)
    · exact hle.trans below.length_le
  · intro y t hy
    rcases le_ack_cases s (Nat.succ_le_of_lt hy) with hle | ⟨rfl, rfl, _⟩
    · exact h.acked_term y t hle
    · exact Nat.le_refl _
  · intro y t k own hk
    change Holds s t k ((s.adopt x m).log y) ∨ Lost s (s.term y) t k
    rcases le_ack_cases s hk with old | ⟨rfl, rfl, new⟩
    · rcases h.ack_later g own old with holds | lost
      · by_cases hy : y = x
        · subst hy
          rw [show (s.adopt y m).log y = m by simp [State.adopt]]
          by_cases still : Holds s t k m
          · exact .inl still
          · -- had the leader the prefix, the shorter log would be a prefix of the old one
            right
            have shorter (inLead : Holds s t k (s.lead (s.term y))) : False := by
              have length : ((s.lead t).take k).length = k := List.length_take_of_le own.2
              rcases Nat.le_total k m.length with hkm | hmk
              · exact still (List.prefix_of_prefix_length_le inLead below (by omega))
              · have inOld : m <+: s.log y :=
                  (List.prefix_of_prefix_length_le below inLead (by omega)).trans holds
                have hlt : m.length < (s.log y).length := by
                  have := holds.length_le
                  rcases Nat.lt_or_ge m.length k with hlt | hge
                  · omega
                  · exact absurd (List.prefix_of_prefix_length_le inLead below (by omega)) still
                exact not_keeps_cut inOld hlt kept
            have reached : t ≤ s.term y := h.acked_term y t (by have := own.1; omega)
            have hne : t ≠ s.term y := by
              rintro rfl
              exact shorter (List.take_prefix _ _)
            exact ⟨s.term y, l, by omega, Nat.le_refl _, leads,
              fun inBase => shorter (inBase.trans (hmatch.base_prefix _))⟩
        · exact .inl (by simpa [State.adopt, hy] using holds)
      · exact .inr lost
    · left
      rw [show (s.adopt y m).log y = m by simp [State.adopt]]
      exact List.prefix_of_prefix_length_le (List.take_prefix _ _) below
        ((List.length_take_le _ _).trans new)
  · exact fun b hb t k ht own hk => h.vote_later helect g hb ht own hk
  · exact fun b hb => h.fresh_later g hb
  · exact fun t u k m' htu hm' own => h.complete_later g htu hm' own own.2

theorem complete_step (h : Complete tm members s) (helect : Elected members s)
    (hmatch : Matched tm l₀ s) (zero : ∀ e ∈ l₀, tm e = 0)
    (step : Step tm members (Keeps tm) s s') : Complete tm members s' := by
  cases step with
  | observe x t later =>
      exact complete_quiet h helect (grows_setTerm x t later) rfl rfl rfl rfl
        fun b hb => .inl hb
  | stand x =>
      refine complete_quiet h helect (grows_stand helect x) rfl rfl rfl rfl ?_
      rintro b (rfl | hb)
      · exact .inr ⟨rfl, Nat.le_succ _, s.log x, by simp [State.stand], upToDate_refl tm _⟩
      · exact .inl hb
  | vote x c l standing fresh free =>
      refine complete_quiet h helect
        { Grows.refl s with ballots := Set.subset_insert _ _ } rfl rfl rfl rfl ?_
      rintro b (rfl | hb)
      · exact .inr ⟨rfl, Nat.le_refl _, l, standing, fresh⟩
      · exact .inl hb
  | elect c Q majority standing unled won =>
      exact complete_elect h helect hmatch zero c Q majority standing unled won
  | append l e leads current own => exact complete_append h helect l e current
  | adopt x l m leads other above below kept =>
      exact complete_adopt h helect hmatch x l m leads below kept

theorem complete_reachable (zero : ∀ e ∈ l₀, tm e = 0)
    (h : Reachable tm members (Keeps tm) l₀ s) : Complete tm members s :=
  (Reachable.invariant
    (I := fun s => (Elected members s ∧ Matched tm l₀ s) ∧ Complete tm members s)
    ⟨⟨elected_initial, matched_initial zero⟩, complete_initial⟩
    (fun _ _ hs step => ⟨⟨elected_step hs.1.1 step, matched_step hs.1.2 hs.1.1 zero step⟩,
      complete_step hs.2 hs.1.1 hs.1.2 zero step⟩) h).2

end Consensus
