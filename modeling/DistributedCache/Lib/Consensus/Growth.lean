import DistributedCache.Lib.Consensus.Matching

/-!
What no step of the abstract protocol ever takes back: terms, leaders, the logs
they were elected with, the logs they have written, ballots, candidacies and
acknowledgements only grow. Facts about the past of a run are stated over these
and carried along by `Grows`.
-/
namespace Consensus

variable {ι α : Type*}

structure Grows (s s' : State ι α) : Prop where
  term : ∀ x, s.term x ≤ s'.term x
  leader : ∀ t l, s.leader t = some l → s'.leader t = some l
  base : ∀ t l, s.leader t = some l → s'.base t = s.base t
  base_of_lead : ∀ t, s.lead t ≠ [] → s'.base t = s.base t
  lead : ∀ t, s.lead t <+: s'.lead t
  cand : ∀ x t l, s.cand x t = some l → s'.cand x t = some l
  ballots : s.ballots ⊆ s'.ballots
  acked : ∀ x t, s.acked x t ≤ s'.acked x t
  /-- A member acknowledges nothing of a term it has left. -/
  frozen : ∀ x t, t < s.term x → s'.acked x t = s.acked x t

theorem Grows.refl (s : State ι α) : Grows s s :=
  ⟨fun _ => Nat.le_refl _, fun _ _ h => h, fun _ _ _ => rfl, fun _ _ => rfl,
    fun _ => List.prefix_rfl, fun _ _ _ h => h, fun _ h => h, fun _ _ => Nat.le_refl _,
    fun _ _ _ => rfl⟩

theorem Grows.trans {s s' s'' : State ι α} (h : Grows s s') (h' : Grows s' s'') :
    Grows s s'' where
  term x := (h.term x).trans (h'.term x)
  leader t l hl := h'.leader t l (h.leader t l hl)
  base t l hl := (h'.base t l (h.leader t l hl)).trans (h.base t l hl)
  base_of_lead t ht :=
    (h'.base_of_lead t fun he => ht (List.prefix_nil.mp (he ▸ h.lead t))).trans
      (h.base_of_lead t ht)
  lead t := (h.lead t).trans (h'.lead t)
  cand x t l hl := h'.cand x t l (h.cand x t l hl)
  ballots := h.ballots.trans h'.ballots
  acked x t := (h.acked x t).trans (h'.acked x t)
  frozen x t ht := (h'.frozen x t (ht.trans_le (h.term x))).trans (h.frozen x t ht)

variable [DecidableEq ι] {tm : α → Nat} {members : Finset ι}
  {keep : List α → List α → Prop} {l₀ : List α} {s s' : State ι α}

theorem le_update_term (s : State ι α) (x y : ι) (t : Nat) (later : s.term x ≤ t) :
    s.term y ≤ Function.update s.term x t y := by
  by_cases hy : y = x
  · subst hy; simpa using later
  · simp [hy]

theorem le_ack (s : State ι α) (x y : ι) (t u k : Nat) : s.acked y u ≤ s.ack x t k y u := by
  unfold State.ack
  split
  · exact Nat.le_max_left _ _
  · exact Nat.le_refl _

theorem ack_frozen (s : State ι α) (x y : ι) (u k : Nat) (h : u < s.term y) :
    s.ack x (s.term x) k y u = s.acked y u := by
  unfold State.ack
  split
  · rename_i same
    obtain ⟨rfl, rfl⟩ := same
    exact absurd h (Nat.lt_irrefl _)
  · rfl

theorem grows_setTerm (x : ι) (t : Nat) (later : s.term x ≤ t) :
    Grows s (s.setTerm x t) :=
  { Grows.refl s with term := fun y => le_update_term s x y t later }

theorem grows_stand (helect : Elected members s) (x : ι) : Grows s (s.stand x) := by
  refine { Grows.refl s with term := ?_, cand := ?_, ballots := ?_ }
  · exact fun y => le_update_term s x y _ (Nat.le_succ _)
  · intro y t l hy
    have : ¬ (y = x ∧ t = s.term x + 1) := by
      rintro ⟨rfl, rfl⟩
      have := (helect.cand_term y _ l hy).2
      omega
    simpa [State.stand, this] using hy
  · exact Set.subset_insert _ _

theorem grows_elect (hmatch : Matched tm l₀ s) (c : ι) (hpos : s.term c ≠ 0)
    (hnone : s.leader (s.term c) = none) : Grows s (s.elect c) := by
  refine { Grows.refl s with
    leader := ?_, base := ?_, base_of_lead := ?_, lead := ?_, acked := ?_, frozen := ?_ }
  · intro t l hl
    have ht : t ≠ s.term c := by rintro rfl; simp [hnone] at hl
    simpa [State.elect, ht] using hl
  · intro t l hl
    have ht : t ≠ s.term c := by rintro rfl; simp [hnone] at hl
    simp [State.elect, ht]
  · intro t hl
    have ht : t ≠ s.term c := by rintro rfl; exact hl (hmatch.lead_nil _ hnone hpos)
    simp [State.elect, ht]
  · exact lead_prefix_elect hmatch c hpos hnone
  · exact fun y u => le_ack s c y _ u _
  · exact fun y u hu => ack_frozen s c y u _ hu

theorem grows_append (l : ι) (e : α) (current : s.log l = s.lead (s.term l)) :
    Grows s (s.append l e) :=
  { Grows.refl s with
    lead := lead_prefix_append l e current
    acked := fun y u => le_ack s l y _ u _
    frozen := fun y u hu => ack_frozen s l y u _ hu }

theorem grows_adopt (x : ι) (m : List α) : Grows s (s.adopt x m) :=
  { Grows.refl s with
    acked := fun y u => le_ack s x y _ u _
    frozen := fun y u hu => ack_frozen s x y u _ hu }

end Consensus
