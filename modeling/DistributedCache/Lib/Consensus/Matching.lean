import DistributedCache.Lib.Consensus.Election

/-!
Log matching of the abstract protocol. Every log in the system, of a member, a
candidate, a voter or a leader, is traced: up to each of its entries it is a
prefix of the log of the leader of that entry's term. Two traced logs that
agree on the term of one position therefore agree up to it.
-/
namespace Consensus

variable {ι α : Type*} {tm : α → Nat} {members : Finset ι}
  {keep : List α → List α → Prop} {l₀ : List α} {s s' : State ι α}

def Traced (tm : α → Nat) (s : State ι α) (l : List α) : Prop :=
  ∀ k e, l[k]? = some e → l.take (k + 1) <+: s.lead (tm e)

theorem take_of_extends {l m : List α} {k : Nat} (h : l <+: m) (hk : k ≤ l.length) :
    m.take k = l.take k := by
  obtain ⟨r, rfl⟩ := h
  exact List.take_append_of_le_length hk

theorem getElem?_of_extends {l m : List α} {k : Nat} {e : α} (h : l <+: m)
    (hk : l[k]? = some e) : m[k]? = some e := by
  obtain ⟨r, rfl⟩ := h
  have bound : k < l.length := (List.getElem?_eq_some_iff.mp hk).1
  rwa [List.getElem?_append_left bound]

theorem Traced.shorten {l m : List α} (h : Traced tm s m) (hl : l <+: m) :
    Traced tm s l := by
  intro k e hk
  have bound : k < l.length := (List.getElem?_eq_some_iff.mp hk).1
  rw [← take_of_extends hl bound]
  exact h k e (getElem?_of_extends hl hk)

theorem Traced.mono {l : List α} (h : Traced tm s l)
    (grows : ∀ t, s.lead t <+: s'.lead t) : Traced tm s' l :=
  fun k e hk => (h k e hk).trans (grows _)

theorem Traced.concat {l : List α} {e : α} (h : Traced tm s l)
    (last : l ++ [e] <+: s.lead (tm e)) : Traced tm s (l ++ [e]) := by
  intro k d hk
  by_cases hkl : k < l.length
  · rw [List.getElem?_append_left hkl] at hk
    rw [List.take_append_of_le_length hkl]
    exact h k d hk
  · have bound : k < (l ++ [e]).length := (List.getElem?_eq_some_iff.mp hk).1
    have hkl' : k = l.length := by
      rw [List.length_append, List.length_singleton] at bound
      omega
    subst hkl'
    obtain rfl : e = d := by simpa using hk
    rw [List.take_of_length_le (by simp)]
    exact last

/-- Log matching, for any two traced logs. -/
theorem Traced.matching {l m : List α} (hl : Traced tm s l) (hm : Traced tm s m)
    {k : Nat} {d e : α} (hd : l[k]? = some d) (he : m[k]? = some e)
    (same : tm d = tm e) : l.take (k + 1) = m.take (k + 1) := by
  have left := hl k d hd
  have right := hm k e he
  rw [same] at left
  have hkl : k < l.length := (List.getElem?_eq_some_iff.mp hd).1
  have hkm : k < m.length := (List.getElem?_eq_some_iff.mp he).1
  have lengths : (l.take (k + 1)).length = (m.take (k + 1)).length := by
    simp only [List.length_take]
    omega
  exact (List.prefix_of_prefix_length_le left right lengths.le).eq_of_length lengths

theorem getLast?_eq_getElem?_of_pos (tm : α → Nat) {l : List α} (h : l ≠ []) :
    ∃ e, l[l.length - 1]? = some e ∧ lastTerm tm l = tm e := by
  have pos : l.length - 1 < l.length := by
    have := List.length_pos_of_ne_nil h
    omega
  refine ⟨l[l.length - 1], List.getElem?_eq_getElem pos, ?_⟩
  simp [lastTerm, List.getLast?_eq_getElem?, List.getElem?_eq_getElem pos]

/-- A traced log is a prefix of the log of the leader of its last term. -/
theorem Traced.prefix_last {l : List α} (h : Traced tm s l) (ne : l ≠ []) :
    l <+: s.lead (lastTerm tm l) := by
  obtain ⟨e, he, hterm⟩ := getLast?_eq_getElem?_of_pos tm ne
  have whole := h _ e he
  have pos := List.length_pos_of_ne_nil ne
  rwa [Nat.sub_add_cancel pos, List.take_length, ← hterm] at whole

structure Matched (tm : α → Nat) (l₀ : List α) (s : State ι α) : Prop where
  lead_zero : s.lead 0 = l₀
  lead_nil : ∀ t, s.leader t = none → t ≠ 0 → s.lead t = []
  base_prefix : ∀ t, s.base t <+: s.lead t
  base_lt : ∀ t, ∀ e ∈ s.base t, tm e < t
  own : ∀ t l, s.leader t = some l → ∀ k e, (s.base t).length ≤ k →
    (s.lead t)[k]? = some e → tm e = t
  lead_traced : ∀ t, Traced tm s (s.lead t)
  log_traced : ∀ x, Traced tm s (s.log x)
  log_le : ∀ x, ∀ e ∈ s.log x, tm e ≤ s.term x
  cand_traced : ∀ x t l, s.cand x t = some l → Traced tm s l
  cand_lt : ∀ x t l, s.cand x t = some l → ∀ e ∈ l, tm e < t
  ballot_traced : ∀ b ∈ s.ballots, Traced tm s b.log
  log_start : ∀ x, l₀ <+: s.log x
  cand_start : ∀ x t l, s.cand x t = some l → l₀ <+: l
  base_start : ∀ t l, s.leader t = some l → l₀ <+: s.base t

theorem matched_initial (zero : ∀ e ∈ l₀, tm e = 0) :
    Matched tm l₀ (State.initial l₀ : State ι α) := by
  have traced : Traced tm (State.initial l₀ : State ι α) l₀ := by
    intro k e hk
    have hz : tm e = 0 := zero e (List.mem_of_getElem? hk)
    simpa [State.initial, hz] using List.take_prefix (k + 1) l₀
  constructor
  case lead_traced =>
    intro t
    by_cases ht : t = 0
    · simpa [State.initial, ht] using traced
    · simp [State.initial, ht, Traced]
  case log_traced => exact fun _ => traced
  case log_le => exact fun _ e he => (zero e he).le
  case log_start => exact fun _ => List.prefix_rfl
  all_goals simp +contextual [State.initial]

/-- Entries of a leader's log are no newer than its term. -/
theorem Matched.lead_le (h : Matched tm l₀ s) (zero : ∀ e ∈ l₀, tm e = 0)
    (t : Nat) (e : α) (he : e ∈ s.lead t) : tm e ≤ t := by
  cases hl : s.leader t with
  | none =>
      by_cases ht : t = 0
      · subst ht
        exact (zero e (h.lead_zero ▸ he)).le
      · rw [h.lead_nil t hl ht] at he
        exact absurd he (by simp)
  | some l =>
      obtain ⟨k, hk⟩ := List.mem_iff_getElem?.mp he
      by_cases hb : (s.base t).length ≤ k
      · exact (h.own t l hl k e hb hk).le
      · have bound : k < (s.base t).length := by omega
        have inBase : (s.base t)[k]? = some e := by
          have := getElem?_of_extends (h.base_prefix t) (List.getElem?_eq_getElem bound)
          rw [List.getElem?_eq_getElem bound, ← hk, this]
        exact (h.base_lt t e (List.mem_of_getElem? inBase)).le

/-- Terms never decrease along a traced log. -/
theorem Matched.sorted (h : Matched tm l₀ s) (zero : ∀ e ∈ l₀, tm e = 0)
    {l : List α} (traced : Traced tm s l) {j k : Nat} {d e : α} (hjk : j ≤ k)
    (hd : l[j]? = some d) (he : l[k]? = some e) : tm d ≤ tm e := by
  apply h.lead_le zero
  have inTake : (l.take (k + 1))[j]? = some d := by
    rwa [List.getElem?_take_of_lt (by omega)]
  exact List.mem_of_getElem? (getElem?_of_extends (traced k e he) inTake)

theorem matched_vote (h : Matched tm l₀ s) (x c : ι) : Matched tm l₀ (s.vote x c) := by
  refine { h with ballot_traced := ?_ }
  rintro b (rfl | hb)
  · exact h.log_traced x
  · exact h.ballot_traced b hb

variable [DecidableEq ι]

theorem matched_setTerm (h : Matched tm l₀ s) (x : ι) (t : Nat) (later : s.term x ≤ t) :
    Matched tm l₀ (s.setTerm x t) := by
  refine { h with log_le := ?_ }
  intro y e he
  by_cases hy : y = x
  · subst hy
    simpa [State.setTerm] using (h.log_le y e he).trans later
  · simpa [State.setTerm, hy] using h.log_le y e he

theorem matched_stand (h : Matched tm l₀ s) (x : ι) : Matched tm l₀ (s.stand x) := by
  have split {y : ι} {t : Nat} {l : List α} (hy : (s.stand x).cand y t = some l) :
      (t = s.term x + 1 ∧ l = s.log x) ∨ s.cand y t = some l := by
    by_cases hnew : y = x ∧ t = s.term x + 1
    · exact .inl ⟨hnew.2, by simpa [State.stand, hnew, eq_comm] using hy⟩
    · exact .inr (by simpa [State.stand, hnew] using hy)
  refine { h with
    log_le := ?_, cand_traced := ?_, cand_lt := ?_, ballot_traced := ?_, cand_start := ?_ }
  · intro y e he
    by_cases hy : y = x
    · subst hy
      simpa [State.stand] using (h.log_le y e he).trans (Nat.le_succ _)
    · simpa [State.stand, hy] using h.log_le y e he
  · intro y t l hy
    rcases split hy with ⟨_, rfl⟩ | old
    · exact h.log_traced x
    · exact h.cand_traced y t l old
  · intro y t l hy e he
    rcases split hy with ⟨rfl, rfl⟩ | old
    · exact Nat.lt_succ_of_le (h.log_le x e he)
    · exact h.cand_lt y t l old e he
  · rintro b (rfl | hb)
    · exact h.log_traced x
    · exact h.ballot_traced b hb
  · intro y t l hy
    rcases split hy with ⟨_, rfl⟩ | old
    · exact h.log_start x
    · exact h.cand_start y t l old

/-- Electing a leader fills in the log of a term that had none. -/
theorem lead_prefix_elect (h : Matched tm l₀ s) (c : ι) (hpos : s.term c ≠ 0)
    (hnone : s.leader (s.term c) = none) (t : Nat) :
    s.lead t <+: (s.elect c).lead t := by
  by_cases ht : t = s.term c
  · subst ht
    simp [h.lead_nil _ hnone hpos]
  · simp [State.elect, ht]

theorem matched_elect (h : Matched tm l₀ s) (c : ι) (hpos : s.term c ≠ 0)
    (hnone : s.leader (s.term c) = none)
    (standing : s.cand c (s.term c) = some (s.log c)) : Matched tm l₀ (s.elect c) := by
  have grows := lead_prefix_elect h c hpos hnone
  constructor
  case lead_zero => simpa [State.elect, hpos.symm] using h.lead_zero
  case lead_nil =>
    intro t ht hz
    have htc : t ≠ s.term c := by rintro rfl; simp [State.elect] at ht
    simpa [State.elect, htc] using
      h.lead_nil t (by simpa [State.elect, htc] using ht) hz
  case base_prefix =>
    intro t
    by_cases htc : t = s.term c
    · simp [State.elect, htc]
    · simpa [State.elect, htc] using h.base_prefix t
  case base_lt =>
    intro t e he
    by_cases htc : t = s.term c
    · subst htc
      exact h.cand_lt c _ _ standing e (by simpa [State.elect] using he)
    · exact h.base_lt t e (by simpa [State.elect, htc] using he)
  case own =>
    intro t l hl k e hk he
    by_cases htc : t = s.term c
    · subst htc
      simp only [State.elect, Function.update_self] at hk he
      rw [List.getElem?_eq_none hk] at he
      exact absurd he (by simp)
    · simp only [State.elect, Function.update_of_ne htc] at hl hk he
      exact h.own t l hl k e hk he
  case lead_traced =>
    intro t
    by_cases htc : t = s.term c
    · simpa [State.elect, htc] using (h.log_traced c).mono grows
    · simpa [State.elect, htc] using (h.lead_traced t).mono grows
  case log_traced => exact fun x => (h.log_traced x).mono grows
  case log_le => exact h.log_le
  case cand_traced => exact fun x t l hx => (h.cand_traced x t l hx).mono grows
  case cand_lt => exact h.cand_lt
  case ballot_traced => exact fun b hb => (h.ballot_traced b hb).mono grows
  case log_start => exact h.log_start
  case cand_start => exact h.cand_start
  case base_start =>
    intro t l hl
    by_cases htc : t = s.term c
    · simpa [State.elect, htc] using h.log_start c
    · simp only [State.elect, Function.update_of_ne htc] at hl ⊢
      exact h.base_start t l hl

theorem lead_prefix_append (l : ι) (e : α) (current : s.log l = s.lead (s.term l))
    (t : Nat) : s.lead t <+: (s.append l e).lead t := by
  by_cases ht : t = s.term l
  · subst ht
    simp [State.append, current]
  · simp [State.append, ht]

theorem matched_append (h : Matched tm l₀ s) (helect : Elected members s) (l : ι) (e : α)
    (leads : s.leader (s.term l) = some l) (current : s.log l = s.lead (s.term l))
    (own : tm e = s.term l) : Matched tm l₀ (s.append l e) := by
  have grows := lead_prefix_append (s := s) l e current
  have hpos : s.term l ≠ 0 := by
    have := helect.leader_term _ _ leads
    omega
  have extended : Traced tm (s.append l e) (s.log l ++ [e]) := by
    apply ((h.log_traced l).mono grows).concat
    simp [State.append, own]
  constructor
  case lead_zero => simpa [State.append, hpos.symm] using h.lead_zero
  case lead_nil =>
    intro t ht hz
    have htl : t ≠ s.term l := by
      rintro rfl
      rw [show (s.append l e).leader = s.leader from rfl, leads] at ht
      exact absurd ht (by simp)
    simpa [State.append, htl] using h.lead_nil t ht hz
  case base_prefix => exact fun t => (h.base_prefix t).trans (grows t)
  case base_lt => exact h.base_lt
  case own =>
    intro t m hm k d hk hd
    by_cases htl : t = s.term l
    · subst htl
      by_cases hkl : k < (s.log l).length
      · apply h.own _ m hm k d hk
        rw [← current]
        simpa [State.append, List.getElem?_append_left hkl] using hd
      · have bound := (List.getElem?_eq_some_iff.mp hd).1
        have hlast : k = (s.log l).length := by
          simp only [State.append, Function.update_self, List.length_append,
            List.length_singleton] at bound
          omega
        have hed : e = d := by simpa [State.append, hlast] using hd
        exact hed ▸ own
    · exact h.own t m hm k d hk (by simpa [State.append, htl] using hd)
  case lead_traced =>
    intro t
    by_cases htl : t = s.term l
    · simpa [State.append, htl] using extended
    · simpa [State.append, htl] using (h.lead_traced t).mono grows
  case log_traced =>
    intro x
    by_cases hx : x = l
    · simpa [State.append, hx] using extended
    · simpa [State.append, hx] using (h.log_traced x).mono grows
  case log_le =>
    intro x d hd
    by_cases hx : x = l
    · subst hx
      rcases (by simpa [State.append] using hd : d ∈ s.log x ∨ d = e) with old | rfl
      · exact h.log_le x d old
      · exact own.le
    · exact h.log_le x d (by simpa [State.append, hx] using hd)
  case cand_traced => exact fun x t m hx => (h.cand_traced x t m hx).mono grows
  case cand_lt => exact h.cand_lt
  case ballot_traced => exact fun b hb => (h.ballot_traced b hb).mono grows
  case log_start =>
    intro x
    by_cases hx : x = l
    · subst hx
      simpa [State.append] using (h.log_start x).trans (List.prefix_append _ _)
    · simpa [State.append, hx] using h.log_start x
  case cand_start => exact h.cand_start
  case base_start => exact h.base_start

theorem matched_adopt (h : Matched tm l₀ s) (zero : ∀ e ∈ l₀, tm e = 0) (x l : ι)
    (m : List α) (leads : s.leader (s.term x) = some l)
    (above : s.base (s.term x) <+: m) (below : m <+: s.lead (s.term x)) :
    Matched tm l₀ (s.adopt x m) := by
  refine { h with log_traced := ?_, log_le := ?_, log_start := ?_ }
  · intro y
    change Traced tm s ((s.adopt x m).log y)
    by_cases hy : y = x
    · subst hy
      simpa [State.adopt] using (h.lead_traced _).shorten below
    · simpa [State.adopt, hy] using h.log_traced y
  · intro y e he
    by_cases hy : y = x
    · subst hy
      exact h.lead_le zero _ e (below.subset (by simpa [State.adopt] using he))
    · exact h.log_le y e (by simpa [State.adopt, hy] using he)
  · intro y
    by_cases hy : y = x
    · subst hy
      simpa [State.adopt] using (h.base_start _ l leads).trans above
    · simpa [State.adopt, hy] using h.log_start y

theorem matched_step (h : Matched tm l₀ s) (helect : Elected members s)
    (zero : ∀ e ∈ l₀, tm e = 0) (step : Step tm members keep s s') : Matched tm l₀ s' := by
  cases step with
  | observe x t later => exact matched_setTerm h x t later
  | stand x => exact matched_stand h x
  | vote x c l standing fresh free => exact matched_vote h x c
  | elect c Q majority standing unled won =>
      have hpos := (helect.cand_term c _ _ standing).1
      exact matched_elect h c (by omega) (unled_of_won helect c Q majority unled won) standing
  | append l e leads current own => exact matched_append h helect l e leads current own
  | adopt x l m leads other above below kept =>
      exact matched_adopt h zero x l m leads above below

theorem matched_reachable (zero : ∀ e ∈ l₀, tm e = 0)
    (h : Reachable tm members keep l₀ s) : Matched tm l₀ s :=
  (Reachable.invariant (I := fun s => Elected members s ∧ Matched tm l₀ s)
    ⟨elected_initial, matched_initial zero⟩
    (fun _ _ hs step => ⟨elected_step hs.1 step, matched_step hs.2 hs.1 zero step⟩) h).2

end Consensus
