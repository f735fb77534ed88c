import DistributedCache.Cluster.Ordering

/-!
What a join or a leave does to the owners of a key. The order of the members around the
ring does not depend on who else is there, so a ring with one member less has the same
order without it.
-/
namespace DistributedCache.Cluster

namespace Ring

variable {r r' : Ring} {node : Node} {nodeID key x : String}

theorem Built.leave (built : r.Built) (nodeID : String) : (r.leave nodeID).Built := by
  unfold Ring.leave
  split
  · rename_i h
    exact .remove built h
  · exact built

theorem built_run {cfg : RingConfig} {past : List (Ring × RingOp)} (run : RingRun cfg past r) :
    r.Built := by
  refine Transition.Run.invariant (C := fun _ _ => True) (I := Built) ?_ ?_ run fun _ _ => trivial
  · intro r start
    obtain rfl : r = newRing cfg := start
    exact .new cfg
  · intro r op r' built _ step
    obtain rfl : r' = r.perform op := step
    cases op with
    | add node => exact built.join node
    | remove nodeID => exact built.leave nodeID

theorem newRing_cfg (cfg : RingConfig) :
    1 ≤ (newRing cfg).cfg.virtualNodes ∧ newRing (newRing cfg).cfg = newRing cfg := by
  have virtual := (whole_newRing cfg).virtual
  refine ⟨virtual, ?_⟩
  have same : (newRing (newRing cfg).cfg).cfg = (newRing cfg).cfg := if_neg (by omega)
  simp only [newRing] at same ⊢
  rw [same]

/-- A run is one with the configuration that the ring has, which has virtual nodes. -/
theorem run_cfg {cfg : RingConfig} {past : List (Ring × RingOp)} (run : RingRun cfg past r) :
    1 ≤ r.cfg.virtualNodes ∧ RingRun r.cfg past r := by
  obtain ⟨virtual, again⟩ := newRing_cfg cfg
  have own : RingRun (newRing cfg).cfg past r := by
    unfold RingRun ringSystem at run ⊢
    rw [again]
    exact run
  rw [cfg_of_run virtual own]
  exact ⟨virtual, own⟩

/-- The nodes of a ring are those of another one but for one id. -/
def Without (r r' : Ring) (x : String) : Prop :=
  ∀ id, r.nodes.lookup id = if id = x then none else r'.nodes.lookup id

theorem without_addNode {x : Node} (h : r.addNode x = .ok r') : r.Without r' x.id := by
  obtain ⟨_, _, fresh, rfl⟩ := addNode_eq_ok.mp h
  intro id
  split
  · rename_i same
    rw [same]
    exact AList.lookup_eq_none.mpr fresh
  · rename_i other
    exact (AList.lookup_insert_ne other).symm

theorem without_removeNode (h : r.removeNode x = .ok r') : r'.Without r x := by
  obtain ⟨_, rfl⟩ := removeNode_eq_ok.mp h
  intro id
  change (r.nodes.erase x).lookup id = _
  split
  · rename_i same
    rw [same, AList.lookup_erase]
  · rename_i other
    exact AList.lookup_erase_ne other

section Orders

variable (whole : r.Whole) (apart : r.Apart) (whole' : r'.Whole) (apart' : r'.Apart)
  (cfg : r'.cfg = r.cfg) (without : r.Without r' x)
include whole apart whole' apart' cfg without

theorem order_eq_filter (key : String) :
    r.order key = (r'.order key).filter fun o => o.id ≠ x := by
  have nearest : r'.nearest = r.nearest := by
    unfold Ring.nearest vnodeHashes
    rw [cfg]
  have left := whole.pairwise_order apart key
  have right := (whole'.pairwise_order apart' key).sublist
    (List.filter_sublist (p := fun o => decide (o.id ≠ x)))
  rw [nearest] at right
  have distinct {l : List Node}
      (ordered : l.Pairwise fun a b => r.nearest key a.id < r.nearest key b.id) : l.Nodup := by
    refine ordered.imp fun {a b} closer same => ?_
    rw [same] at closer
    exact Nat.lt_irrefl _ closer
  have perm : (r.order key).Perm ((r'.order key).filter fun o => o.id ≠ x) := by
    refine (List.perm_ext_iff_of_nodup (distinct left) (distinct right)).mpr fun o => ?_
    rw [List.mem_filter, whole.mem_order apart, whole'.mem_order apart', without]
    by_cases same : o.id = x <;> simp [same]
  exact perm.eq_of_pairwise (fun a b _ _ less more => absurd more (Nat.lt_asymm less)) left right

/-- Without the one member, the owners on the larger ring are the first on the smaller. -/
theorem lookupN_filter (members : 0 < r.len) (members' : 0 < r'.len) (key : String) {n : Int}
    (positive : 1 ≤ n) :
    ∃ owners owners', r.lookupN key n = .ok owners ∧ r'.lookupN key n = .ok owners' ∧
      owners'.filter (fun o => o.id ≠ x) <+: owners := by
  have found {q : Ring} (whole : q.Whole) (apart : q.Apart) (members : 0 < q.len) :
      q.lookupN key n = .ok ((q.order key).take n.toNat) := by
    have some : q.order key ≠ [] := by
      rw [← List.length_pos_iff, whole.length_order apart]
      exact members
    rw [lookupN_eq_order whole.sound, if_neg (by omega), if_neg some]
  refine ⟨_, _, found whole apart members, found whole' apart' members', ?_⟩
  rw [order_eq_filter whole apart whole' apart' cfg without key]
  refine List.prefix_take_iff.mpr ⟨(List.take_prefix _ _).filter _, ?_⟩
  exact (List.length_filter_le _ _).trans (List.length_take_le _ _)

end Orders

end Ring

section Runs

variable {cfg : RingConfig} {past : List (Ring × RingOp)} {r r' : Ring}

theorem everAdded_add {x : Node} (h : r.addNode x = .ok r') :
    everAdded ((r, .add x) :: past) = x.id :: everAdded past := by
  simp only [everAdded, List.filterMap_cons, Ring.adds, h]

/-- What a run without collisions leads to is whole, and its members are apart. -/
theorem CollisionFree.placed (run : RingRun cfg past r)
    (free : CollisionFree r.cfg (everAdded past)) : r.Whole ∧ r.Apart := by
  obtain ⟨virtual, run⟩ := Ring.run_cfg run
  exact ⟨free.whole virtual run, free.apart rfl (mem_everAdded run)⟩

/-- Where the keys of virtual nodes do not collide, a join takes no key from one member to
another: but for the new node, the owners of a key are the first of those it had. A leave
that is not the last one does the same the other way round. -/
theorem lookups_minimal_disruption (run : RingRun cfg past r) (members : 0 < r.len)
    (key : String) (n : Int) (positive : 1 ≤ n) :
    (∀ (x : Node) (r' : Ring), CollisionFree r.cfg (x.id :: everAdded past) →
      r.addNode x = .ok r' →
      ∃ before after, r.lookupN key n = .ok before ∧ r'.lookupN key n = .ok after ∧
        after.filter (fun o => o.id ≠ x.id) <+: before) ∧
    ∀ (x : String) (r' : Ring), CollisionFree r.cfg (everAdded past) →
      r.removeNode x = .ok r' → 0 < r'.len →
      ∃ before after, r.lookupN key n = .ok before ∧ r'.lookupN key n = .ok after ∧
        before.filter (fun o => o.id ≠ x) <+: after := by
  constructor
  · intro x r' free joined
    have next : RingRun cfg ((r, .add x) :: past) r' := by
      refine .next run ?_
      change r' = r.join x
      simp only [Ring.join, joined]
    have same : r'.cfg = r.cfg := by
      obtain ⟨_, _, _, rfl⟩ := Ring.addNode_eq_ok.mp joined
      rfl
    have members' : 0 < r'.len := by
      obtain ⟨_, _, _, rfl⟩ := Ring.addNode_eq_ok.mp joined
      exact List.length_pos_of_mem ((AList.mem_insert _).mpr (.inl rfl))
    obtain ⟨whole, apart⟩ := (free.mono (List.subset_cons_self _ _)).placed run
    rw [← everAdded_add joined, ← same] at free
    obtain ⟨whole', apart'⟩ := free.placed next
    exact Ring.lookupN_filter whole apart whole' apart' same (Ring.without_addNode joined) members
      members' key positive
  · intro x r' free removed members'
    have next : RingRun cfg ((r, .remove x) :: past) r' := by
      refine .next run ?_
      change r' = r.leave x
      simp only [Ring.leave, removed]
    have same : r'.cfg = r.cfg := by
      obtain ⟨_, rfl⟩ := Ring.removeNode_eq_ok.mp removed
      rfl
    obtain ⟨whole, apart⟩ := free.placed run
    obtain ⟨whole', apart'⟩ := CollisionFree.placed next (same ▸ free)
    obtain ⟨after, before, found, was, first⟩ := Ring.lookupN_filter whole' apart' whole apart
      same.symm (Ring.without_removeNode removed) members' members key positive
    exact ⟨before, after, was, found, first⟩

/-- Node `c` joins `a` and `b`, and `a` leaves them. -/
theorem lookups_minimal_disruption_views :
    CollisionFree firstView.2.cfg ("c" :: everAdded firstView.1) ∧
      (∃ before after, firstView.2.lookupN "key" 2 = .ok before ∧
        (firstView.2.join ⟨"c", "c:1"⟩).lookupN "key" 2 = .ok after ∧
        after.filter (fun o => o.id ≠ "c") <+: before) ∧
      ∃ before after, firstView.2.lookupN "key" 2 = .ok before ∧
        (firstView.2.leave "a").lookupN "key" 2 = .ok after ∧
        before.filter (fun o => o.id ≠ "a") <+: after := by
  have run : RingRun _ firstView.1 firstView.2 := ringRun_ringTrace _ _
  have free : CollisionFree firstView.2.cfg ("c" :: everAdded firstView.1) := by decide +kernel
  have results := lookups_minimal_disruption run (by decide +kernel) "key" 2 (by decide)
  refine ⟨free, results.1 ⟨"c", "c:1"⟩ _ free ?_, results.2 "a" _ ?_ ?_ ?_⟩
  · exact Ring.addNode_eq_ok.mpr ⟨by decide, by decide, by decide +kernel, rfl⟩
  · exact free.mono (List.subset_cons_self _ _)
  · exact Ring.removeNode_eq_ok.mpr ⟨by decide +kernel, rfl⟩
  · decide +kernel

end Runs

end DistributedCache.Cluster
