import DistributedCache.Cluster.Removal

/-!
The order of the owners of a key.

On a ring whose members have no position in common, the walk of `LookupN` meets the
members in the order of the distance from the key to their nearest virtual node. The
order depends on the members alone, so two nodes that know the same members agree on
it, whatever joins and leaves each of them has seen.
-/
namespace DistributedCache.Cluster

open Circle (distance firstSeen)

theorem append_separator_inj {α : Type*} {sep : α} {l l' d d' : List α}
    (same : l ++ sep :: d = l' ++ sep :: d') (free : sep ∉ d) (free' : sep ∉ d') : l = l' := by
  cases List.append_eq_append_iff.mp same with
  | inl longer =>
      obtain ⟨a, rfl, tail⟩ := longer
      cases a with
      | nil => exact (List.append_nil l).symm
      | cons x a =>
          rw [List.cons_append, List.cons.injEq] at tail
          exact absurd (tail.2 ▸ List.mem_append_right a List.mem_cons_self) free
  | inr shorter =>
      obtain ⟨a, rfl, tail⟩ := shorter
      cases a with
      | nil => exact List.append_nil l'
      | cons x a =>
          rw [List.cons_append, List.cons.injEq] at tail
          exact absurd (tail.2 ▸ List.mem_append_right a List.mem_cons_self) free'

theorem toList_vnodeKey (nodeID : String) (index : Nat) :
    (vnodeKey nodeID index).toList = nodeID.toList ++ '#' :: Nat.toDigits 10 index := by
  simp [vnodeKey, Nat.repr]

theorem separator_not_mem_toDigits (n : Nat) : '#' ∉ Nat.toDigits 10 n := by
  intro mem
  have digit := Nat.isDigit_of_mem_toDigits (by decide) (by decide) mem
  exact absurd digit (by decide)

/-- Different nodes have different keys for their virtual nodes. -/
theorem vnodeKey_inj {nodeID nodeID' : String} {i j : Nat}
    (same : vnodeKey nodeID i = vnodeKey nodeID' j) : nodeID = nodeID' := by
  have lists := congrArg String.toList same
  rw [toList_vnodeKey, toList_vnodeKey] at lists
  exact String.toList_inj.mp (append_separator_inj lists (separator_not_mem_toDigits i)
    (separator_not_mem_toDigits j))

theorem toDigits_inj {i j : Nat} (same : Nat.toDigits 10 i = Nat.toDigits 10 j) : i = j := by
  have values := congrArg (fun digits => Nat.ofDigitChars 10 digits 0) same
  simpa only [Nat.ofDigitChars_toDigits (b := 10) (by decide) (by decide)] using values

/-- The last separator of a key ends the id, and the digits behind it give the index. -/
theorem vnodeKey_eq_iff {nodeID nodeID' : String} {i j : Nat} :
    vnodeKey nodeID i = vnodeKey nodeID' j ↔ nodeID = nodeID' ∧ i = j := by
  constructor
  · intro same
    obtain rfl := vnodeKey_inj same
    have lists := congrArg String.toList same
    rw [toList_vnodeKey, toList_vnodeKey, List.append_cancel_left_eq, List.cons.injEq] at lists
    exact ⟨rfl, toDigits_inj lists.2⟩
  · rintro ⟨rfl, rfl⟩
    rfl

/-- The keys that the loops of `AddNode` and `RemoveNode` hash for a node. -/
def Ring.vnodeKeys (r : Ring) (nodeID : String) : List String :=
  (List.range r.cfg.virtualNodes).map (vnodeKey nodeID)

theorem Ring.vnodeHashes_eq_map (r : Ring) (nodeID : String) :
    r.vnodeHashes nodeID = (r.vnodeKeys nodeID).map r.cfg.hash := by
  rw [vnodeHashes, vnodeKeys, List.map_map]
  rfl

theorem Ring.nodup_vnodeKeys (r : Ring) (nodeID : String) : (r.vnodeKeys nodeID).Nodup :=
  List.nodup_range.map fun _ _ same => (vnodeKey_eq_iff.mp same).2

theorem Ring.disjoint_vnodeKeys (r : Ring) {nodeID nodeID' : String} (other : nodeID ≠ nodeID') :
    (r.vnodeKeys nodeID).Disjoint (r.vnodeKeys nodeID') := by
  intro key mem mem'
  obtain ⟨i, _, rfl⟩ := List.mem_map.mp mem
  obtain ⟨j, _, same⟩ := List.mem_map.mp mem'
  exact other (vnodeKey_eq_iff.mp same).1.symm

/-- The key of a virtual node determines the node and the index, whatever the id contains.
So a loop over the virtual nodes of a node hashes no key twice and no key of another node,
and two positions on the ring can only be the same if the hash collides. -/
theorem vnode_keys_distinct :
    (∀ (a b : String) (i j : Nat), vnodeKey a i = vnodeKey b j → a = b ∧ i = j) ∧
    ∀ (r : Ring) (id : String), (r.vnodeKeys id).Nodup ∧
      r.vnodeHashes id = (r.vnodeKeys id).map r.cfg.hash ∧
      ∀ id', id ≠ id' → (r.vnodeKeys id).Disjoint (r.vnodeKeys id') :=
  ⟨fun _ _ _ _ same => vnodeKey_eq_iff.mp same, fun r id =>
    ⟨r.nodup_vnodeKeys id, r.vnodeHashes_eq_map id, fun _ other => r.disjoint_vnodeKeys other⟩⟩

/-- One id is a key of the other one. -/
theorem vnode_keys_distinct_nested :
    vnodeKey "n" 1 = "n#1" ∧ vnodeKey "n#1" 1 ≠ vnodeKey "n" 11 ∧
      ((newRing ⟨2, hashKey⟩).vnodeKeys "n").Disjoint ((newRing ⟨2, hashKey⟩).vnodeKeys "n#1") :=
  ⟨by decide, fun same => absurd (vnode_keys_distinct.1 "n#1" "n" 1 11 same).1 (by decide),
    (vnode_keys_distinct.2 (newRing ⟨2, hashKey⟩) "n").2.2 "n#1" (by decide)⟩

/-- No two keys of virtual nodes of these nodes have the same hash. -/
def CollisionFree (cfg : RingConfig) (ids : List String) : Prop :=
  ∀ id ∈ ids, ∀ id' ∈ ids, ∀ i < cfg.virtualNodes, ∀ j < cfg.virtualNodes,
    cfg.hash (vnodeKey id i) = cfg.hash (vnodeKey id' j) → vnodeKey id i = vnodeKey id' j

instance (cfg : RingConfig) (ids : List String) : Decidable (CollisionFree cfg ids) :=
  inferInstanceAs (Decidable (∀ id ∈ ids, ∀ id' ∈ ids, ∀ i < cfg.virtualNodes,
    ∀ j < cfg.virtualNodes,
      cfg.hash (vnodeKey id i) = cfg.hash (vnodeKey id' j) → vnodeKey id i = vnodeKey id' j))

/-- The id that a call adds to the ring. -/
def Ring.adds (r : Ring) : RingOp → Option String
  | .add node => match r.addNode node with
      | .ok _ => some node.id
      | .error _ => none
  | .remove _ => none

/-- The ids of the nodes ever added in a run. -/
def everAdded (past : List (Ring × RingOp)) : List String :=
  past.filterMap fun p => p.1.adds p.2

namespace Ring

variable {r r' : Ring} {node : Node} {nodeID key : String} {position : UInt32}

theorem cfg_perform (r : Ring) (op : RingOp) : (r.perform op).cfg = r.cfg := by
  cases op with
  | add node =>
      change (r.join node).cfg = r.cfg
      unfold join
      split
      · rename_i h
        obtain ⟨_, _, _, rfl⟩ := addNode_eq_ok.mp h
        rfl
      · rfl
  | remove nodeID =>
      change (r.leave nodeID).cfg = r.cfg
      unfold leave
      split
      · rename_i h
        obtain ⟨_, rfl⟩ := removeNode_eq_ok.mp h
        rfl
      · rfl

theorem mem_perform (r : Ring) (op : RingOp) {id : String} (member : id ∈ (r.perform op).nodes) :
    id ∈ r.nodes ∨ r.adds op = some id := by
  cases op with
  | add node =>
      change id ∈ (r.join node).nodes at member
      cases h : r.addNode node with
      | ok r' =>
          have joined : r.join node = r' := by simp only [join, h]
          have added : r.adds (.add node) = some node.id := by simp only [adds, h]
          rw [joined] at member
          rw [added]
          obtain ⟨_, _, _, rfl⟩ := addNode_eq_ok.mp h
          exact ((AList.mem_insert _).mp member).symm.imp_right fun same =>
            congrArg some same.symm
      | error e =>
          have kept : r.join node = r := by simp only [join, h]
          exact .inl (kept ▸ member)
  | remove nodeID =>
      change id ∈ (r.leave nodeID).nodes at member
      unfold leave at member
      split at member
      · rename_i h
        obtain ⟨_, rfl⟩ := removeNode_eq_ok.mp h
        exact .inl (AList.mem_erase.mp member).2
      · exact .inl member

/-- No position is shared by two members. -/
def Apart (r : Ring) : Prop :=
  ∀ id ∈ r.nodes, ∀ id' ∈ r.nodes, ∀ h ∈ r.vnodeHashes id, h ∈ r.vnodeHashes id' → id = id'

end Ring

section Runs

variable {cfg : RingConfig} {past : List (Ring × RingOp)} {r : Ring}

theorem cfg_of_run (virtual : 1 ≤ cfg.virtualNodes) (run : RingRun cfg past r) : r.cfg = cfg := by
  have start : (newRing cfg).cfg = cfg := if_neg (by omega)
  exact Transition.Run.invariant (C := fun _ _ => True) (I := fun r : Ring => r.cfg = cfg)
    (fun r (initial : r = newRing cfg) => initial ▸ start)
    (fun r op r' same _ (step : r' = r.perform op) => step ▸ (r.cfg_perform op).trans same)
    run (fun _ _ => trivial)

theorem mem_everAdded (run : RingRun cfg past r) : ∀ id ∈ r.nodes, id ∈ everAdded past := by
  refine Transition.Run.induct (C := fun _ _ => True)
    (I := fun past (r : Ring) => ∀ id ∈ r.nodes, id ∈ everAdded past) ?_ ?_ run
    (fun _ _ => trivial)
  · intro r initial id member
    obtain rfl : r = newRing cfg := initial
    simp [newRing] at member
  · intro past r op r' _ _ ih _ step id member
    obtain rfl : r' = r.perform op := step
    unfold everAdded
    rw [List.filterMap_cons]
    cases r.mem_perform op member with
    | inl old =>
        split
        · exact ih id old
        · exact List.mem_cons_of_mem _ (ih id old)
    | inr new =>
        rw [new]
        exact List.mem_cons_self

theorem CollisionFree.mono {ids ids' : List String} (free : CollisionFree cfg ids)
    (sub : ids' ⊆ ids) : CollisionFree cfg ids' :=
  fun id mem id' mem' => free id (sub mem) id' (sub mem')

theorem CollisionFree.apart {ids : List String} (free : CollisionFree cfg ids)
    (same : r.cfg = cfg) (members : ∀ id ∈ r.nodes, id ∈ ids) : r.Apart := by
  intro id member id' member' h here here'
  obtain ⟨i, bound, rfl⟩ := List.mem_map.mp here
  obtain ⟨j, bound', hashes⟩ := List.mem_map.mp here'
  rw [same, List.mem_range] at bound bound'
  rw [same] at hashes
  exact (vnodeKey_inj (free id' (members id' member') id (members id member) j bound' i bound
    hashes)).symm

theorem Ring.Apart.spares (apart : r.Apart) (op : RingOp) : r.Spares op := by
  cases op with
  | add node => trivial
  | remove nodeID =>
      intro gone id member other h here shared
      exact other (apart id member nodeID gone h here shared)

/-- In a run without collisions every removal spares the other members. -/
theorem CollisionFree.whole (virtual : 1 ≤ cfg.virtualNodes) (run : RingRun cfg past r)
    (free : CollisionFree cfg (everAdded past)) : r.Whole := by
  refine Transition.Run.induct (C := fun _ _ => True)
    (I := fun past (r : Ring) => CollisionFree cfg (everAdded past) → r.Whole) ?_ ?_ run
    (fun _ _ => trivial) free
  · intro r initial _
    obtain rfl : r = newRing cfg := initial
    exact Ring.whole_newRing cfg
  · intro past r op r' run _ ih _ step free
    obtain rfl : r' = r.perform op := step
    have before : everAdded past ⊆ everAdded ((r, op) :: past) := by
      intro id mem
      unfold everAdded
      rw [List.filterMap_cons]
      split
      · exact mem
      · exact List.mem_cons_of_mem _ mem
    have free := free.mono before
    have apart := free.apart (cfg_of_run virtual run) (mem_everAdded run)
    exact (ih free).perform (apart.spares op)

end Runs

namespace Ring

variable {r r' : Ring} {node : Node} {nodeID key : String} {n : Nat}

/-- The distance from the hash of a key to the nearest virtual node of a node. -/
def nearest (r : Ring) (key nodeID : String) : Nat :=
  Circle.nearest (r.cfg.hash key) (r.vnodeHashes nodeID)

/-- The node that a position leads to. -/
def nodeAt (r : Ring) (position : UInt32) : Option Node :=
  r.nodes.lookup (r.nodeIDAt position)

/-- All nodes in the order in which the walk from a key meets them. -/
def order (r : Ring) (key : String) : List Node :=
  firstSeen r.nodeAt (r.clockwise (r.cfg.hash key)) []

/-- The loop of `LookupN` collects the nodes as it meets them, until there are enough. -/
theorem walk_eq_firstSeen (sound : r.Sound) (l : List UInt32) {seen : List String}
    {owners : List Node} (same : ∀ id, id ∈ seen ↔ id ∈ owners.map Node.id)
    (members : ∀ o ∈ owners, r.nodes.lookup o.id = some o) :
    r.walk n l seen owners =
      owners ++ (firstSeen r.nodeAt l owners).take (n - owners.length) := by
  induction l generalizing seen owners with
  | nil => simp [walk, firstSeen]
  | cons position rest ih =>
      unfold walk
      split
      · rename_i room
        split
        · rename_i known
          rw [ih same members, firstSeen]
          obtain ⟨o, mem, id⟩ := List.mem_map.mp ((same _).mp known)
          have here : r.nodeAt position = some o := by rw [nodeAt, ← id, members o mem]
          rw [here]
          dsimp only
          rw [if_pos mem]
        · rename_i fresh
          split
          · rename_i missing
            rw [ih same members, firstSeen, nodeAt, missing]
          · rename_i node found
            have id := sound.keyed _ node found
            have new : node ∉ owners := fun mem =>
              fresh ((same _).mpr (id ▸ List.mem_map_of_mem mem))
            have same' : ∀ x, x ∈ r.nodeIDAt position :: seen ↔
                x ∈ (owners ++ [node]).map Node.id := by
              intro x
              rw [List.mem_cons, same, List.map_append, List.mem_append, List.map_singleton,
                List.mem_singleton, id, or_comm]
            have members' : ∀ o ∈ owners ++ [node], r.nodes.lookup o.id = some o := by
              intro o mem
              cases List.mem_append.mp mem with
              | inl old => exact members o old
              | inr last =>
                  rw [List.mem_singleton.mp last, id, found]
            have left : n - owners.length = n - (owners ++ [node]).length + 1 := by
              rw [List.length_append, List.length_singleton]
              omega
            have reordered : firstSeen r.nodeAt rest (owners ++ [node]) =
                firstSeen r.nodeAt rest (node :: owners) :=
              Circle.firstSeen_congr fun x => by simp [or_comm]
            rw [ih same' members', firstSeen, nodeAt, found, reordered]
            dsimp only
            rw [if_neg new, left, List.take_succ_cons, List.append_assoc, List.singleton_append]
      · rename_i full
        rw [Nat.sub_eq_zero_of_le (Nat.not_lt.mp full), List.take_zero, List.append_nil]

/-- A position of the ring leads to the member whose virtual node stands there. -/
theorem Sound.nodeAt_eq_some (sound : r.Sound) {position : UInt32} (mem : position ∈ r.hashes) :
    ∃ node, r.nodeAt position = some node ∧ r.nodes.lookup node.id = some node ∧
      r.lookup.lookup position = some node.id ∧ position ∈ r.vnodeHashes node.id := by
  obtain ⟨id, found⟩ := GoMap.mem_iff.mp ((sound.positions _).mp mem)
  obtain ⟨member, here⟩ := sound.placed position id found
  obtain ⟨node, holds⟩ := GoMap.mem_iff.mp member
  obtain rfl := sound.keyed id node holds
  refine ⟨node, ?_, holds, found, here⟩
  rw [nodeAt, nodeIDAt, found, Option.getD_some, holds]

theorem mem_clockwise {position keyHash : UInt32} :
    position ∈ r.clockwise keyHash ↔ position ∈ r.hashes :=
  Circle.mem_turn

theorem order_eq_nil_iff (sound : r.Sound) : r.order key = [] ↔ r.hashes.length = 0 := by
  constructor
  · intro none
    by_contra positions
    obtain ⟨position, mem⟩ := List.exists_mem_of_length_pos (Nat.pos_of_ne_zero positions)
    obtain ⟨node, here, _⟩ := sound.nodeAt_eq_some mem
    have met : node ∈ r.order key :=
      Circle.mem_firstSeen.mpr ⟨List.not_mem_nil, position, mem_clockwise.mpr mem, here⟩
    rw [none] at met
    exact List.not_mem_nil met
  · intro empty
    rw [order, clockwise, List.eq_nil_of_length_eq_zero empty, List.drop_nil, List.take_nil]
    rfl

/-- `LookupN` gives the first nodes of the order. -/
theorem lookupN_eq_order (sound : r.Sound) (key : String) (n : Int) :
    r.lookupN key n =
      if n ≤ 0 then .error .countNotPositive
      else if r.order key = [] then .error .emptyRing
      else .ok ((r.order key).take n.toNat) := by
  unfold lookupN
  split
  · rfl
  · rename_i positive
    rw [walk_eq_firstSeen sound _ (by simp) (by simp), List.nil_append, List.length_nil,
      Nat.sub_zero]
    change (if _ then _ else if ((r.order key).take n.toNat).length = 0 then _ else
      Except.ok ((r.order key).take n.toNat)) = _
    by_cases empty : r.order key = []
    · rw [if_pos ((order_eq_nil_iff sound).mp empty), if_pos empty]
    · have some : ((r.order key).take n.toNat).length ≠ 0 := by
        have length := List.length_pos_iff.mpr empty
        rw [List.length_take]
        omega
      rw [if_neg ((order_eq_nil_iff sound).not.mp empty), if_neg some, if_neg empty]

theorem owner_eq_head_order (sound : r.Sound) : r.owner key = (r.order key).head? := by
  by_cases positions : r.hashes.length = 0
  · rw [(order_eq_nil_iff sound).mpr positions, owner, lookupHash, if_pos positions]
    rfl
  · obtain ⟨rest, ahead⟩ := head_clockwise (r.cfg.hash key) positions
    have first : r.positionOf (r.cfg.hash key) ∈ r.hashes := by
      rw [← mem_clockwise, ahead]
      exact List.mem_cons_self
    obtain ⟨node, here, _⟩ := sound.nodeAt_eq_some first
    rw [owner, lookupHash, if_neg positions, order, ahead, firstSeen, here]
    exact here

/-- Only members are met. -/
theorem Sound.lookup_of_mem_order (sound : r.Sound) (met : node ∈ r.order key) :
    r.nodes.lookup node.id = some node := by
  obtain ⟨_, position, mem, here⟩ := Circle.mem_firstSeen.mp met
  obtain ⟨node', here', holds, _⟩ := sound.nodeAt_eq_some (mem_clockwise.mp mem)
  rw [here] at here'
  cases here'
  exact holds

section Ordered

variable (whole : r.Whole) (apart : r.Apart)
include whole apart

/-- Each position of a member leads to it. -/
theorem Whole.lookup_vnode {position : UInt32} (member : nodeID ∈ r.nodes)
    (here : position ∈ r.vnodeHashes nodeID) : r.lookup.lookup position = some nodeID := by
  obtain ⟨id, found⟩ := GoMap.mem_iff.mp (whole.covers nodeID member position here)
  obtain ⟨member', here'⟩ := whole.sound.placed position id found
  rw [found, apart nodeID member id member' position here here']

theorem Whole.mem_order : node ∈ r.order key ↔ r.nodes.lookup node.id = some node := by
  constructor
  · exact whole.sound.lookup_of_mem_order
  · intro holds
    have member : node.id ∈ r.nodes := GoMap.mem_iff.mpr ⟨_, holds⟩
    have first : r.cfg.hash (vnodeKey node.id 0) ∈ r.vnodeHashes node.id :=
      List.mem_map_of_mem (List.mem_range.mpr whole.virtual)
    have found := whole.lookup_vnode apart member first
    have mem := (whole.sound.positions _).mpr (whole.covers _ member _ first)
    refine Circle.mem_firstSeen.mpr ⟨List.not_mem_nil, _, mem_clockwise.mpr mem, ?_⟩
    rw [nodeAt, nodeIDAt, found, Option.getD_some, holds]

/-- A node met before another one has the nearer virtual node. -/
theorem Whole.pairwise_order (key : String) :
    (r.order key).Pairwise fun a b => r.nearest key a.id < r.nearest key b.id := by
  have distinct := Circle.nodup_firstSeen r.nodeAt (r.clockwise (r.cfg.hash key)) []
  have ordered := Circle.pairwise_turn (r.cfg.hash key) whole.sound.sorted
  refine (distinct.and (Circle.pairwise_firstSeen ordered)).imp_of_mem ?_
  intro a b _ memb h
  obtain ⟨different, p, memp, here, before⟩ := h
  have holds := (whole.mem_order apart).mp memb
  have member : b.id ∈ r.nodes := GoMap.mem_iff.mpr ⟨_, holds⟩
  have placed : r.vnodeHashes b.id ≠ [] := by
    have length : (r.vnodeHashes b.id).length = r.cfg.virtualNodes := by simp [vnodeHashes]
    have virtual := whole.virtual
    intro none
    rw [none, List.length_nil] at length
    omega
  obtain ⟨q, placed, least⟩ := Circle.exists_nearest (r.cfg.hash key) placed
  have found := whole.lookup_vnode apart member placed
  have memq := (whole.sound.positions q).mpr (whole.covers _ member q placed)
  have there : r.nodeAt q = some b := by rw [nodeAt, nodeIDAt, found, Option.getD_some, holds]
  obtain ⟨a', here', _, _, placed'⟩ := whole.sound.nodeAt_eq_some (Circle.mem_turn.mp memp)
  rw [here] at here'
  cases here'
  have close : r.nearest key a.id ≤ distance (r.cfg.hash key) p := Circle.nearest_le placed'
  have ahead := before q (Circle.mem_turn.mpr memq) there
  have apart' : distance (r.cfg.hash key) p ≠ distance (r.cfg.hash key) q := by
    intro same
    rw [Circle.eq_of_distance_eq same, there] at here
    exact different (Option.some.inj here).symm
  unfold nearest at close ⊢
  omega

theorem Whole.perm_order (key : String) : ((r.order key).map Node.id).Perm r.nodes.keys := by
  have ordered := whole.pairwise_order apart key
  have distinct : ((r.order key).map Node.id).Nodup := by
    rw [List.nodup_iff_pairwise_ne, List.pairwise_map]
    refine ordered.imp ?_
    intro a b closer same
    rw [same] at closer
    exact Nat.lt_irrefl _ closer
  refine (List.perm_ext_iff_of_nodup distinct r.nodes.nodupKeys).mpr ?_
  intro id
  change id ∈ (r.order key).map Node.id ↔ id ∈ r.nodes
  rw [List.mem_map]
  constructor
  · intro met
    obtain ⟨node, met, rfl⟩ := met
    exact GoMap.mem_iff.mpr ⟨_, (whole.mem_order apart).mp met⟩
  · intro member
    obtain ⟨node, holds⟩ := GoMap.mem_iff.mp member
    obtain rfl := whole.sound.keyed id node holds
    exact ⟨node, (whole.mem_order apart).mpr holds, rfl⟩

theorem Whole.length_order (key : String) : (r.order key).length = r.len := by
  rw [← List.length_map Node.id, (whole.perm_order apart key).length_eq, len]

/-- The first nodes of the order are nearer to the key than all other members. -/
theorem Whole.nearest_take (n : Nat) {id : String} (member : id ∈ r.nodes)
    (mem : node ∈ (r.order key).take n) (out : id ∉ ((r.order key).take n).map Node.id) :
    r.nearest key node.id < r.nearest key id := by
  have ordered := whole.pairwise_order apart key
  rw [← List.take_append_drop n (r.order key), List.pairwise_append] at ordered
  have met := (whole.perm_order apart key).mem_iff.mpr member
  rw [← List.take_append_drop n (r.order key), List.map_append, List.mem_append] at met
  cases met with
  | inl early => exact absurd early out
  | inr late =>
      obtain ⟨other, after, rfl⟩ := List.mem_map.mp late
      exact ordered.2.2 node mem other after

/-- What `LookupN` returns on a ring with a member. -/
theorem Whole.lookupN_spec (members : 0 < r.len) (key : String) {n : Int} (positive : 1 ≤ n) :
    ∃ owners, r.lookupN key n = .ok owners ∧
      (owners.length : Int) = min n r.len ∧ (owners.map Node.id).Nodup ∧
      (∀ o ∈ owners, r.nodes.lookup o.id = some o) ∧
      (owners.Pairwise fun a b => r.nearest key a.id < r.nearest key b.id) ∧
      ∀ o ∈ owners, ∀ id ∈ r.nodes, id ∉ owners.map Node.id →
        r.nearest key o.id < r.nearest key id := by
  have length := whole.length_order apart key
  have some : r.order key ≠ [] := by
    rw [← List.length_pos_iff, length]
    exact members
  refine ⟨(r.order key).take n.toNat, ?_, ?_, ?_, ?_, ?_, ?_⟩
  · rw [lookupN_eq_order whole.sound, if_neg (by omega), if_neg some]
  · rw [List.length_take, length]
    omega
  · rw [List.map_take]
    exact ((whole.perm_order apart key).nodup_iff.mpr r.nodes.nodupKeys).sublist
      (List.take_sublist _ _)
  · intro o mem
    exact (whole.mem_order apart).mp (List.mem_of_mem_take mem)
  · exact (whole.pairwise_order apart key).sublist (List.take_sublist _ _)
  · intro o mem id member out
    exact whole.nearest_take apart n.toNat member mem out

end Ordered

section Views

variable (whole : r.Whole) (apart : r.Apart) (whole' : r'.Whole) (apart' : r'.Apart)
  (cfg : r'.cfg = r.cfg)
include whole apart whole' apart' cfg

/-- Two rings with the same ids have them in the same order. -/
theorem map_id_order_eq (same : ∀ id, id ∈ r'.nodes ↔ id ∈ r.nodes) (key : String) :
    (r'.order key).map Node.id = (r.order key).map Node.id := by
  have nearest : r'.nearest = r.nearest := by
    unfold Ring.nearest vnodeHashes
    rw [cfg]
  have keys : r'.nodes.keys.Perm r.nodes.keys :=
    (List.perm_ext_iff_of_nodup r'.nodes.nodupKeys r.nodes.nodupKeys).mpr same
  have perm := ((whole'.perm_order apart' key).trans keys).trans (whole.perm_order apart key).symm
  have left : ((r'.order key).map Node.id).Pairwise fun a b =>
      r.nearest key a < r.nearest key b := by
    rw [List.pairwise_map, ← nearest]
    exact whole'.pairwise_order apart' key
  have right : ((r.order key).map Node.id).Pairwise fun a b =>
      r.nearest key a < r.nearest key b := by
    rw [List.pairwise_map]
    exact whole.pairwise_order apart key
  refine perm.eq_of_pairwise ?_ left right
  intro a b _ _ less more
  exact absurd more (Nat.lt_asymm less)

omit cfg whole' apart' in
/-- The order is determined by its ids and the nodes that they stand for. -/
theorem order_eq_filterMap (key : String) :
    r.order key = ((r.order key).map Node.id).filterMap r.nodes.lookup := by
  rw [List.filterMap_map]
  exact List.filterMap_some.symm.trans
    (List.filterMap_congr fun node met => ((whole.mem_order apart).mp met).symm)

theorem order_eq (same : ∀ id, r'.nodes.lookup id = r.nodes.lookup id) (key : String) :
    r'.order key = r.order key := by
  have ids : ∀ id, id ∈ r'.nodes ↔ id ∈ r.nodes := by
    intro id
    rw [← AList.lookup_isSome, same, AList.lookup_isSome]
  rw [order_eq_filterMap whole apart key, order_eq_filterMap whole' apart' key,
    map_id_order_eq whole apart whole' apart' cfg ids key, funext same]

/-- Two rings with the same members agree on all owners. -/
theorem lookups_eq (same : ∀ id, r'.nodes.lookup id = r.nodes.lookup id) (key : String) :
    r'.owner key = r.owner key ∧ ∀ n, r'.lookupN key n = r.lookupN key n := by
  have orders := order_eq whole apart whole' apart' cfg same key
  rw [owner_eq_head_order whole.sound, owner_eq_head_order whole'.sound, orders]
  refine ⟨rfl, ?_⟩
  intro n
  rw [lookupN_eq_order whole.sound, lookupN_eq_order whole'.sound, orders]

/-- Two rings with the same ids agree on the ids of all owners. -/
theorem map_id_lookups_eq (same : ∀ id, id ∈ r'.nodes ↔ id ∈ r.nodes) (key : String) :
    (r'.owner key).map Node.id = (r.owner key).map Node.id ∧
      ∀ n, (r'.lookupN key n).map (List.map Node.id) =
        (r.lookupN key n).map (List.map Node.id) := by
  have ids := map_id_order_eq whole apart whole' apart' cfg same key
  constructor
  · rw [owner_eq_head_order whole.sound, owner_eq_head_order whole'.sound, ← List.head?_map,
      ← List.head?_map, ids]
  · intro n
    have empty : r'.order key = [] ↔ r.order key = [] := by
      rw [← List.map_eq_nil_iff (f := Node.id), ids, List.map_eq_nil_iff]
    rw [lookupN_eq_order whole.sound, lookupN_eq_order whole'.sound]
    simp only [empty]
    split
    · rfl
    · split
      · rfl
      · change Except.ok _ = Except.ok _
        rw [List.map_take, List.map_take, ids]

end Views

end Ring

/-- On every ring that joins and leaves without collisions lead to, `LookupN` gives as many
different members as there are, up to the number asked for, in the order of the distance to
their nearest virtual node and nearest first. Two such rings with the same members agree on
the owners of every key; with the same ids they agree on the ids. -/
theorem lookups_clockwise {cfg : RingConfig} (virtual : 1 ≤ cfg.virtualNodes)
    {past : List (Ring × RingOp)} {r : Ring} (run : RingRun cfg past r)
    (free : CollisionFree cfg (everAdded past)) :
    (0 < r.len → ∀ (key : String) (n : Int), 1 ≤ n → ∃ owners, r.lookupN key n = .ok owners ∧
      (owners.length : Int) = min n r.len ∧ (owners.map Node.id).Nodup ∧
      (∀ o ∈ owners, r.nodes.lookup o.id = some o) ∧
      (owners.Pairwise fun a b => r.nearest key a.id < r.nearest key b.id) ∧
      ∀ o ∈ owners, ∀ id ∈ r.nodes, id ∉ owners.map Node.id →
        r.nearest key o.id < r.nearest key id) ∧
    ∀ (past' : List (Ring × RingOp)) (r' : Ring), RingRun cfg past' r' →
      CollisionFree cfg (everAdded past') → ∀ key : String,
      ((∀ id, r'.nodes.lookup id = r.nodes.lookup id) →
        r'.owner key = r.owner key ∧ ∀ n, r'.lookupN key n = r.lookupN key n) ∧
      ((∀ id, id ∈ r'.nodes ↔ id ∈ r.nodes) →
        (r'.owner key).map Node.id = (r.owner key).map Node.id ∧
        ∀ n, (r'.lookupN key n).map (List.map Node.id) =
          (r.lookupN key n).map (List.map Node.id)) := by
  have whole := free.whole virtual run
  have apart := free.apart (cfg_of_run virtual run) (mem_everAdded run)
  constructor
  · intro members key n positive
    exact whole.lookupN_spec apart members key positive
  · intro past' r' run' free' key
    have whole' := free'.whole virtual run'
    have apart' := free'.apart (cfg_of_run virtual run') (mem_everAdded run')
    have config : r'.cfg = r.cfg := (cfg_of_run virtual run').trans (cfg_of_run virtual run).symm
    exact ⟨fun same => Ring.lookups_eq whole apart whole' apart' config same key,
      fun same => Ring.map_id_lookups_eq whole apart whole' apart' config same key⟩

/-- Two views of the members `a` and `b`. The first has seen `c` come and go and a second
join of `a` fail. -/
def firstView : List (Ring × RingOp) × Ring :=
  ringTrace ⟨2, hashKey⟩
    [.add ⟨"a", "a:1"⟩, .add ⟨"c", "c:1"⟩, .add ⟨"a", "a:2"⟩, .add ⟨"b", "b:1"⟩, .remove "c"]

def secondView : List (Ring × RingOp) × Ring :=
  ringTrace ⟨2, hashKey⟩ [.add ⟨"b", "b:1"⟩, .add ⟨"a", "a:1"⟩]

theorem lookups_clockwise_views :
    CollisionFree ⟨2, hashKey⟩ (everAdded firstView.1) ∧
      CollisionFree ⟨2, hashKey⟩ (everAdded secondView.1) ∧
      (∃ owners, firstView.2.lookupN "key" 3 = .ok owners ∧ (owners.length : Int) = 2) ∧
      secondView.2.owner "key" = firstView.2.owner "key" := by
  have run : RingRun _ firstView.1 firstView.2 := ringRun_ringTrace _ _
  have run' : RingRun _ secondView.1 secondView.2 := ringRun_ringTrace _ _
  have free : CollisionFree ⟨2, hashKey⟩ (everAdded firstView.1) := by decide +kernel
  have free' : CollisionFree ⟨2, hashKey⟩ (everAdded secondView.1) := by decide +kernel
  have two : firstView.2.len = 2 := by decide +kernel
  have results := lookups_clockwise (by decide) run free
  obtain ⟨owners, found, length, _⟩ := results.1 (by omega) "key" 3 (by decide)
  refine ⟨free, free', ⟨owners, found, by omega⟩, ?_⟩
  have same : secondView.2.nodes.entries.Perm firstView.2.nodes.entries := by decide +kernel
  exact ((results.2 _ _ run' free' "key").1 fun id => AList.perm_lookup same).1

end DistributedCache.Cluster
