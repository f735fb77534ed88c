import DistributedCache.Cluster.Ring

/-!
Lookups on the ring: the owner of a key, and the distinct nodes met on a clockwise
walk from it. On every ring that `AddNode` and `RemoveNode` build, the owner is the
first of these nodes, whatever the hash function.
-/
namespace DistributedCache.Cluster

inductive LookupError
  | countNotPositive
  | emptyRing
  deriving DecidableEq, Repr

namespace Ring

/-- What `sort.Search` finds in the sorted positions: the index of the first one at
or after a hash, or the number of positions. -/
def search (r : Ring) (keyHash : UInt32) : Nat :=
  r.hashes.findIdx (keyHash ≤ ·)

/-- The node id at a position. A missing key reads as the empty string. -/
def nodeIDAt (r : Ring) (position : UInt32) : String :=
  (r.lookup.lookup position).getD ""

/-- The position `lookupHash` uses: after the last one comes the first. -/
def positionOf (r : Ring) (keyHash : UInt32) : UInt32 :=
  r.hashes.getD (if r.search keyHash = r.hashes.length then 0 else r.search keyHash) 0

def lookupHash (r : Ring) (keyHash : UInt32) : Option Node :=
  if r.hashes.length = 0 then none
  else r.nodes.lookup (r.nodeIDAt (r.positionOf keyHash))

/-- The call `Lookup` on the ring, and `Owner` on the cluster. -/
def owner (r : Ring) (key : String) : Option Node :=
  r.lookupHash (r.cfg.hash key)

/-- The positions at the indices `(start + step) % len(r.hashes)`, step by step. -/
def clockwise (r : Ring) (keyHash : UInt32) : List UInt32 :=
  r.hashes.drop (r.search keyHash) ++ r.hashes.take (r.search keyHash)

/-- The loop of `LookupN` over the positions. -/
def walk (r : Ring) (n : Nat) : List UInt32 → List String → List Node → List Node
  | [], _, owners => owners
  | position :: rest, seen, owners =>
      if owners.length < n then
        if r.nodeIDAt position ∈ seen then walk r n rest seen owners
        else match r.nodes.lookup (r.nodeIDAt position) with
          | none => walk r n rest seen owners
          | some node => walk r n rest (r.nodeIDAt position :: seen) (owners ++ [node])
      else owners

/-- The call `LookupN` on the ring, and `Owners` on the cluster. -/
def lookupN (r : Ring) (key : String) (n : Int) : Except LookupError (List Node) :=
  if n ≤ 0 then .error .countNotPositive
  else if r.hashes.length = 0 then .error .emptyRing
  else
    let owners := r.walk n.toNat (r.clockwise (r.cfg.hash key)) [] []
    if owners.length = 0 then .error .emptyRing else .ok owners

/-- The rings that joins and leaves can build. -/
inductive Built : Ring → Prop
  | new (cfg : RingConfig) : Built (newRing cfg)
  | add {r r' : Ring} {node : Node} (built : Built r) (h : r.addNode node = .ok r') : Built r'
  | remove {r r' : Ring} {nodeID : String} (built : Built r) (h : r.removeNode nodeID = .ok r') :
      Built r'

/-- The positions are those of the map, in order, and the map leads from each to a
member that has a virtual node there. -/
structure Sound (r : Ring) : Prop where
  keyed : ∀ id node, r.nodes.lookup id = some node → node.id = id
  sorted : r.hashes.Pairwise (· ≤ ·)
  positions : ∀ h, h ∈ r.hashes ↔ h ∈ r.lookup
  placed : ∀ h id, r.lookup.lookup h = some id → id ∈ r.nodes ∧ h ∈ r.vnodeHashes id

variable {r r' : Ring} {node : Node} {nodeID key : String}

theorem sound_newRing (cfg : RingConfig) : (newRing cfg).Sound where
  keyed := fun id node h => by simp [newRing] at h
  sorted := List.Pairwise.nil
  positions := fun h => by simp [newRing]
  placed := fun h id found => by simp [newRing] at found

theorem lookup_place (l : List UInt32) (m : GoMap UInt32 String) (id : String) (h : UInt32) :
    (l.foldl (fun m h => m.insert h id) m).lookup h =
      if h ∈ l then some id else m.lookup h := by
  induction l generalizing m with
  | nil => simp
  | cons x rest ih =>
      rw [List.foldl_cons, ih]
      by_cases later : h ∈ rest
      · simp [later]
      · by_cases here : h = x
        · subst here
          simp [later]
        · simp [later, here, AList.lookup_insert_ne here]

theorem lookup_unplace (l : List UInt32) (m : GoMap UInt32 String) (h : UInt32) :
    (l.foldl (fun m h => m.erase h) m).lookup h = if h ∈ l then none else m.lookup h := by
  induction l generalizing m with
  | nil => simp
  | cons x rest ih =>
      rw [List.foldl_cons, ih]
      by_cases later : h ∈ rest
      · simp [later]
      · by_cases here : h = x
        · subst here
          simp [later]
        · simp [later, here, AList.lookup_erase_ne here]

theorem Sound.addNode (sound : r.Sound) (h : r.addNode node = .ok r') : r'.Sound := by
  obtain ⟨_, _, _, rfl⟩ := addNode_eq_ok.mp h
  refine ⟨?_, List.pairwise_insertionSort _ _, ?_, ?_⟩
  · intro id n found
    by_cases same : id = node.id
    · subst same
      rw [AList.lookup_insert] at found
      cases found
      rfl
    · rw [AList.lookup_insert_ne same] at found
      exact sound.keyed id n found
  · intro x
    rw [List.mem_insertionSort, List.mem_append, sound.positions, GoMap.mem_iff,
      GoMap.mem_iff, lookup_place]
    by_cases here : x ∈ r.vnodeHashes node.id <;> simp [here]
  · intro x id found
    change _ ∈ r.nodes.insert _ _ ∧ x ∈ r.vnodeHashes id
    rw [lookup_place] at found
    rw [AList.mem_insert]
    split at found
    · rename_i here
      cases found
      exact ⟨.inl rfl, here⟩
    · exact (sound.placed x id found).imp_left .inr

theorem Sound.removeNode (sound : r.Sound) (h : r.removeNode nodeID = .ok r') : r'.Sound := by
  obtain ⟨_, rfl⟩ := removeNode_eq_ok.mp h
  refine ⟨?_, List.pairwise_insertionSort _ _, ?_, ?_⟩
  · intro id n found
    exact sound.keyed id n (GoMap.of_lookup_erase found)
  · intro x
    exact List.mem_insertionSort _
  · intro x id found
    change _ ∈ r.nodes.erase _ ∧ x ∈ r.vnodeHashes id
    change ((r.vnodeHashes nodeID).foldl _ r.lookup).lookup x = some id at found
    rw [lookup_unplace] at found
    split at found
    · cases found
    · rename_i away
      obtain ⟨member, here⟩ := sound.placed x id found
      refine ⟨AList.mem_erase.mpr ⟨?_, member⟩, here⟩
      intro same
      exact away (same ▸ here)

theorem Built.sound (built : r.Built) : r.Sound := by
  induction built with
  | new cfg => exact sound_newRing cfg
  | add _ h ih => exact ih.addNode h
  | remove _ h ih => exact ih.removeNode h

/-- The ring after a join, which may fail. -/
def join (r : Ring) (node : Node) : Ring :=
  match r.addNode node with
  | .ok r' => r'
  | .error _ => r

theorem Built.join (built : r.Built) (node : Node) : (r.join node).Built := by
  unfold Ring.join
  split
  · rename_i h
    exact .add built h
  · exact built

/-- A clockwise walk starts at the position that `Lookup` uses. -/
theorem head_clockwise (keyHash : UInt32) (some : r.hashes.length ≠ 0) :
    ∃ rest, r.clockwise keyHash = r.positionOf keyHash :: rest := by
  unfold clockwise positionOf
  split
  · rename_i wraps
    rw [wraps, List.drop_length, List.take_length, List.nil_append]
    cases positions : r.hashes with
    | nil => exact absurd (congrArg List.length positions) some
    | cons first rest => exact ⟨rest, rfl⟩
  · rename_i inside
    have bound : r.search keyHash < r.hashes.length :=
      Nat.lt_of_le_of_ne List.findIdx_le_length inside
    refine ⟨r.hashes.drop (r.search keyHash + 1) ++ r.hashes.take (r.search keyHash), ?_⟩
    rw [List.drop_eq_getElem_cons bound, List.cons_append, List.getD_eq_getElem?_getD,
      List.getElem?_eq_getElem bound, Option.getD_some]

section Walk

variable {n : Nat} {seen : List String} {owners : List Node}

/-- The walk only appends to the owners it has. -/
theorem owners_isPrefix_walk (r : Ring) (n : Nat) (l : List UInt32) (seen : List String)
    (owners : List Node) : ∃ more, r.walk n l seen owners = owners ++ more := by
  induction l generalizing seen owners with
  | nil => exact ⟨[], (List.append_nil owners).symm⟩
  | cons position rest ih =>
      unfold walk
      split
      · split
        · exact ih seen owners
        · split
          · exact ih seen owners
          · rename_i node _
            obtain ⟨more, eq⟩ := ih (r.nodeIDAt position :: seen) (owners ++ [node])
            exact ⟨node :: more, by rw [eq, List.append_assoc, List.singleton_append]⟩
      · exact ⟨[], (List.append_nil owners).symm⟩

theorem length_walk_le (r : Ring) (l : List UInt32) (seen : List String) (owners : List Node)
    (bound : owners.length ≤ n) : (r.walk n l seen owners).length ≤ n := by
  induction l generalizing seen owners with
  | nil => exact bound
  | cons position rest ih =>
      unfold walk
      split
      · rename_i more
        split
        · exact ih seen owners bound
        · split
          · exact ih seen owners bound
          · exact ih _ _ (by rw [List.length_append]; exact more)
      · exact bound

/-- The ids seen are those of the owners, so no owner comes twice. -/
theorem nodup_walk (sound : r.Sound) (l : List UInt32)
    (same : ∀ id, id ∈ seen ↔ id ∈ owners.map Node.id) (nodup : (owners.map Node.id).Nodup) :
    ((r.walk n l seen owners).map Node.id).Nodup := by
  induction l generalizing seen owners with
  | nil => exact nodup
  | cons position rest ih =>
      unfold walk
      split
      · split
        · exact ih same nodup
        · rename_i fresh
          split
          · exact ih same nodup
          · rename_i node found
            have id := sound.keyed _ node found
            refine ih ?_ ?_
            · intro x
              rw [List.mem_cons, same, List.map_append, List.mem_append, List.map_singleton,
                List.mem_singleton, id, or_comm]
            · rw [List.map_append, List.map_singleton, id, ← List.concat_eq_append]
              exact nodup.concat ((same _).not.mp fresh)
      · exact nodup

end Walk

theorem lookupN_eq_walk {n : Int} {owners : List Node} (h : r.lookupN key n = .ok owners) :
    0 < n ∧ owners = r.walk n.toNat (r.clockwise (r.cfg.hash key)) [] [] := by
  unfold lookupN at h
  split at h
  · cases h
  · rename_i positive
    split at h
    · cases h
    · dsimp only at h
      split at h
      · cases h
      · cases h
        exact ⟨Int.not_le.mp positive, rfl⟩

theorem length_lookupN_le {n : Int} {owners : List Node} (h : r.lookupN key n = .ok owners) :
    (owners.length : Int) ≤ n := by
  obtain ⟨positive, rfl⟩ := lookupN_eq_walk h
  have bound := length_walk_le r (r.clockwise (r.cfg.hash key)) [] []
    (Nat.zero_le n.toNat)
  omega

theorem nodup_lookupN (sound : r.Sound) {n : Int} {owners : List Node}
    (h : r.lookupN key n = .ok owners) : (owners.map Node.id).Nodup := by
  obtain ⟨_, rfl⟩ := lookupN_eq_walk h
  exact nodup_walk sound _ (by simp) List.nodup_nil

/-- The owner of a key comes first among its owners. -/
theorem lookupN_of_owner (owns : r.owner key = some node) {n : Int} (positive : 0 < n) :
    ∃ rest, r.lookupN key n = .ok (node :: rest) := by
  unfold owner lookupHash at owns
  split at owns
  · cases owns
  · rename_i positions
    obtain ⟨rest, ahead⟩ := head_clockwise (r.cfg.hash key) positions
    have room : ([] : List Node).length < n.toNat := by
      rw [List.length_nil]
      omega
    have first : r.walk n.toNat (r.clockwise (r.cfg.hash key)) [] [] =
        r.walk n.toNat rest [r.nodeIDAt (r.positionOf (r.cfg.hash key))] [node] := by
      rw [ahead, walk, if_pos room, if_neg List.not_mem_nil, owns]
      rfl
    obtain ⟨more, eq⟩ := owners_isPrefix_walk r n.toNat rest
      [r.nodeIDAt (r.positionOf (r.cfg.hash key))] [node]
    refine ⟨more, ?_⟩
    unfold lookupN
    rw [if_neg (Int.not_le.mpr positive), if_neg positions]
    dsimp only
    rw [first, eq]
    rfl

end Ring

end DistributedCache.Cluster
