import DistributedCache.Lib.Consensus.Completeness

/-!
Agreement on chosen prefixes. A prefix of a leader's log that ends in its own
term and is acknowledged by a majority is part of every later leader's log, so
any two prefixes covered by chosen ones are comparable.
-/
namespace Consensus

open Quorum

variable {ι α : Type*} {tm : α → Nat} {members : Finset ι} {l₀ : List α}
  {s s' : State ι α}

def Chosen (members : Finset ι) (s : State ι α) (t k : Nat) : Prop :=
  Own s t k ∧ ∃ Q, Majority members Q ∧ ∀ x ∈ Q, k ≤ s.acked x t

/-- The prefix is initial, or part of one chosen in a term up to `u`. -/
def Covered (members : Finset ι) (l₀ : List α) (s : State ι α) (u : Nat) (p : List α) : Prop :=
  p <+: l₀ ∨ ∃ t k, t ≤ u ∧ Chosen members s t k ∧ p <+: (s.lead t).take k

theorem Chosen.lead_ne {t k : Nat} (h : Chosen members s t k) : s.lead t ≠ [] := by
  intro he
  have lower := h.1.1
  have upper := h.1.2
  simp only [he, List.length_nil] at upper
  omega

theorem Chosen.mono {t k : Nat} (h : Chosen members s t k) (g : Grows s s') :
    Chosen members s' t k := by
  have ne := h.lead_ne
  obtain ⟨own, Q, hQ, acks⟩ := h
  refine ⟨⟨?_, own.2.trans (g.lead t).length_le⟩, Q, hQ, fun x hx => ?_⟩
  · rw [g.base_of_lead t ne]
    exact own.1
  · exact (acks x hx).trans (g.acked x t)

theorem Covered.mono {u u' : Nat} {p : List α} (h : Covered members l₀ s u p)
    (g : Grows s s') (hu : u ≤ u') : Covered members l₀ s' u' p := by
  rcases h with initial | ⟨t, k, htu, chosen, hp⟩
  · exact .inl initial
  · refine .inr ⟨t, k, htu.trans hu, chosen.mono g, ?_⟩
    rwa [take_of_extends (g.lead t) chosen.1.2]

theorem Covered.shorten {u : Nat} {p q : List α} (h : Covered members l₀ s u p)
    (hq : q <+: p) : Covered members l₀ s u q := by
  rcases h with initial | ⟨t, k, htu, chosen, hp⟩
  · exact .inl (hq.trans initial)
  · exact .inr ⟨t, k, htu, chosen, hq.trans hp⟩

theorem start_prefix_lead (hmatch : Matched tm l₀ s) {t : Nat} (ne : s.lead t ≠ []) :
    l₀ <+: s.lead t := by
  cases hl : s.leader t with
  | some l => exact (hmatch.base_start t l hl).trans (hmatch.base_prefix t)
  | none =>
      by_cases ht : t = 0
      · rw [ht, hmatch.lead_zero]
      · exact absurd (hmatch.lead_nil t hl ht) ne

variable [DecidableEq ι]

theorem leader_completeness (h : Complete tm members s) {t u k : Nat} {l : ι}
    (chosen : Chosen members s t k) (htu : t < u) (hl : s.leader u = some l) :
    Holds s t k (s.base u) := by
  obtain ⟨own, Q, hQ, acks⟩ := chosen
  rcases h.complete t u k l htu hl own with holds | ⟨R, hR, left⟩
  · exact holds
  · obtain ⟨x, hxQ, hxR⟩ := hQ.meet hR
    have := acks x hxQ
    have := (left x hxR).2
    omega

/-- A covered prefix is part of the log of every leader of a later term. -/
theorem Covered.prefix_lead (h : Complete tm members s) (hmatch : Matched tm l₀ s)
    {u v : Nat} {l : ι} {p : List α} (covered : Covered members l₀ s u p)
    (huv : u ≤ v) (hl : s.leader v = some l) : p <+: s.lead v := by
  rcases covered with initial | ⟨t, k, htu, chosen, hp⟩
  · exact initial.trans ((hmatch.base_start v l hl).trans (hmatch.base_prefix v))
  · rcases Nat.lt_or_ge t v with htv | hvt
    · exact hp.trans ((leader_completeness h chosen htv hl).trans (hmatch.base_prefix v))
    · obtain rfl : t = v := by omega
      exact hp.trans (List.take_prefix _ _)

/-- Agreement: covered prefixes are never in conflict. -/
theorem Covered.comparable (h : Complete tm members s) (hmatch : Matched tm l₀ s)
    {u v : Nat} {p q : List α} (hp : Covered members l₀ s u p)
    (hq : Covered members l₀ s v q) : p <+: q ∨ q <+: p := by
  -- both are prefixes of the log of the later of the two choosing leaders
  have ordered {t t' k k' : Nat} {p q : List α} (hle : t ≤ t')
      (hc : Chosen members s t k) (hp : p <+: (s.lead t).take k)
      (hc' : Chosen members s t' k') (hq : q <+: (s.lead t').take k') :
      p <+: q ∨ q <+: p := by
    refine List.prefix_or_prefix_of_prefix ?_ (hq.trans (List.take_prefix _ _))
    cases hl : s.leader t' with
    | some l => exact Covered.prefix_lead h hmatch (.inr ⟨t, k, hle, hc, hp⟩) (Nat.le_refl _) hl
    | none =>
        have hz : t' = 0 := by
          by_contra hz
          exact hc'.lead_ne (hmatch.lead_nil t' hl hz)
        obtain rfl : t = t' := by omega
        exact hp.trans (List.take_prefix _ _)
  rcases hp with hp | ⟨t, k, _, hc, hp⟩ <;> rcases hq with hq | ⟨t', k', _, hc', hq⟩
  · exact List.prefix_or_prefix_of_prefix hp hq
  · exact List.prefix_or_prefix_of_prefix (hp.trans (start_prefix_lead hmatch hc'.lead_ne))
      (hq.trans (List.take_prefix _ _))
  · exact List.prefix_or_prefix_of_prefix (hp.trans (List.take_prefix _ _))
      (hq.trans (start_prefix_lead hmatch hc.lead_ne))
  · rcases Nat.le_total t t' with hle | hle
    · exact ordered hle hc hp hc' hq
    · exact (ordered hle hc' hq hc hp).symm

end Consensus
