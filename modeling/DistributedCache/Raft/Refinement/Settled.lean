import DistributedCache.Lib.Consensus.Agreement
import DistributedCache.Raft.Refinement.Runs

/-!
Committed prefixes are settled in the abstract protocol. Every node's log up to its
commit index, every leader's log up to the commit index it announces, and every
entry handed to a callback is covered by a prefix that some leader has got more
than half of the nodes to store.
-/
namespace DistributedCache.Raft.Refinement

open Consensus (Covered Grows Matched Complete Keeps)

variable {S : Setup} {i : String} {g g' : Ghost} {n : Node} {t t' c c' : Nat}
  {l l' : List Entry}

/-- The log `l` has an entry at `c`, and up to there it is settled by term `t`. -/
structure Settled (S : Setup) (g : Ghost) (t : Nat) (l : List Entry) (c : Nat) : Prop where
  below : c < l.length
  covered : Covered S.ids.toFinset [sentinel] g t (l.take (c + 1))

/-- The entry `e` stands at `k` in some settled prefix. -/
def Decided (S : Setup) (g : Ghost) (k : Nat) (e : Entry) : Prop :=
  ∃ t l, Covered S.ids.toFinset [sentinel] g t l ∧ l[k]? = some e

theorem Decided.mono {k : Nat} {e : Entry} (h : Decided S g k e) (grows : Grows g g') :
    Decided S g' k e := by
  obtain ⟨t, l, covered, he⟩ := h
  exact ⟨t, l, covered.mono grows (Nat.le_refl t), he⟩

theorem Settled.decided (h : Settled S g t l c) {k : Nat} {e : Entry} (hk : k ≤ c)
    (he : l[k]? = some e) : Decided S g k e :=
  ⟨t, _, h.covered, by rwa [List.getElem?_take_of_lt (Nat.lt_succ_of_le hk)]⟩

theorem Settled.mono (h : Settled S g t l c) (grows : Grows g g') (later : t ≤ t')
    (longer : l <+: l') : Settled S g' t' l' c := by
  refine ⟨h.below.trans_le longer.length_le, ?_⟩
  rw [Consensus.take_of_extends longer h.below]
  exact h.covered.mono grows later

/-- What a follower takes over of what its leader has settled. -/
theorem Settled.narrow (h : Settled S g t l c) (shorter : l' <+: l) (below : c' < l'.length)
    (le : c' ≤ c) : Settled S g t l' c' := by
  refine ⟨below, h.covered.shorten ?_⟩
  rw [← Consensus.take_of_extends shorter below]
  exact List.take_prefix_take_left (Nat.succ_le_succ le)

/-- A log that is replaced by part of a later leader's log keeps its settled prefix,
unless it is merely cut. -/
theorem Settled.store (h : Settled S g t l c) (complete : Complete Entry.term S.ids.toFinset g)
    (hmatch : Matched Entry.term [sentinel] g) {leader : String}
    (leads : g.leader t' = some leader) (later : t ≤ t') (part : l' <+: g.lead t')
    (keeps : Keeps Entry.term l l') : Settled S g t' l' c := by
  have inLead := h.covered.prefix_lead complete hmatch later leads
  have length : (l.take (c + 1)).length = c + 1 := List.length_take_of_le h.below
  have below : c < l'.length := by
    by_contra short
    have cut : l' <+: l :=
      (List.prefix_of_prefix_length_le part inLead (by omega)).trans (List.take_prefix _ _)
    exact Consensus.not_keeps_cut cut (by have := h.below; omega) keeps
  have old := List.prefix_iff_eq_take.mp inLead
  rw [length] at old
  have new : (g.lead t').take (c + 1) = l'.take (c + 1) := Consensus.take_of_extends part below
  refine ⟨below, ?_⟩
  rw [← new, ← old]
  exact h.covered.mono (.refl g) later

/-- What a leader commits is chosen: its last entry is of the leader's own term, and
more than half of the nodes have stored it. -/
theorem NodeOK.settled (h : NodeOK S g i n) (fixed : Fixed S)
    (hmatch : Matched Entry.term [sentinel] g) (hi : i ∈ S.ids) (leads : n.role = .leader)
    (pos : 0 < c) (advance : n.Advance c) : Settled S g n.currentTerm n.log c := by
  obtain ⟨leader, lead, _⟩ := h.leads leads
  obtain ⟨e, he, term⟩ := advance.own
  obtain ⟨Q, majority, stored⟩ := h.quorum fixed hi leads pos advance
  refine ⟨advance.below, .inr ⟨n.currentTerm, c + 1, Nat.le_refl _, ⟨⟨?_, ?_⟩, Q, majority,
    stored⟩, by rw [lead]⟩⟩
  · by_contra inBase
    obtain ⟨d, hd⟩ : ∃ d, (g.base n.currentTerm)[c]? = some d :=
      ⟨_, List.getElem?_eq_getElem (by omega)⟩
    have same := Consensus.getElem?_of_extends (hmatch.base_prefix _) hd
    rw [lead, he, Option.some_inj] at same
    have := hmatch.base_lt _ d (List.mem_of_getElem? hd)
    rw [← same, term] at this
    omega
  · rw [lead]
    exact advance.below

end DistributedCache.Raft.Refinement
