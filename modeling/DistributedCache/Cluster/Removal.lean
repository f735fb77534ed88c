import DistributedCache.Cluster.Lookup
import DistributedCache.Lib.Circle
import DistributedCache.Lib.Transition

/-!
Rings along any sequence of joins and leaves, with hash functions that may collide.

The map from positions to node ids has room for one id, and `RemoveNode` deletes the
positions of the node it removes whoever stands there. As long as no removed node
shares a position with another member, every position of every member stays on the
ring, and then a removal moves the keys of the removed node only.
-/
namespace DistributedCache.Cluster

open Circle (distance)

inductive RingOp
  | add (node : Node)
  | remove (nodeID : String)
  deriving DecidableEq, Repr

namespace Ring

/-- The ring after a leave, which may fail. -/
def leave (r : Ring) (nodeID : String) : Ring :=
  match r.removeNode nodeID with
  | .ok r' => r'
  | .error _ => r

def perform (r : Ring) : RingOp → Ring
  | .add node => r.join node
  | .remove nodeID => r.leave nodeID

/-- The call `Len`. -/
def len (r : Ring) : Nat :=
  r.nodes.keys.length

end Ring

/-- A ring under calls of `AddNode` and `RemoveNode`, those that fail included. -/
def ringSystem (cfg : RingConfig) : Transition.System Ring RingOp where
  init r := r = newRing cfg
  step r op r' := r' = r.perform op

abbrev RingRun (cfg : RingConfig) (past : List (Ring × RingOp)) (r : Ring) : Prop :=
  Transition.Run (ringSystem cfg) past r

namespace Ring

/-- Every member has all its positions on the ring. -/
def Covers (r : Ring) : Prop :=
  ∀ id ∈ r.nodes, ∀ h ∈ r.vnodeHashes id, h ∈ r.lookup

/-- The call does not remove a member that shares a position with another one. -/
def Spares (r : Ring) : RingOp → Prop
  | .add _ => True
  | .remove nodeID => nodeID ∈ r.nodes → ∀ id ∈ r.nodes.keys, id ≠ nodeID →
      ∀ h ∈ r.vnodeHashes id, h ∉ r.vnodeHashes nodeID

-- Decided along the list: the positions are a finite type, but too many to go through.
instance (l l' : List UInt32) : Decidable (∀ h ∈ l, h ∉ l') :=
  List.decidableBAll _ l

instance (r : Ring) (op : RingOp) : Decidable (r.Spares op) :=
  match op with
  | .add _ => inferInstanceAs (Decidable True)
  | .remove nodeID => inferInstanceAs (Decidable (nodeID ∈ r.nodes → ∀ id ∈ r.nodes.keys,
      id ≠ nodeID → ∀ h ∈ r.vnodeHashes id, h ∉ r.vnodeHashes nodeID))

/-- A ring on which every member has a position, and keeps those it has. -/
structure Whole (r : Ring) : Prop where
  sound : r.Sound
  covers : r.Covers
  virtual : 0 < r.cfg.virtualNodes

variable {r r' : Ring} {node : Node} {nodeID key : String} {position : UInt32}

theorem whole_newRing (cfg : RingConfig) : (newRing cfg).Whole where
  sound := sound_newRing cfg
  covers := fun id member => by simp [newRing] at member
  virtual := by
    change 0 < (if cfg.virtualNodes = 0 then _ else cfg).virtualNodes
    split
    · exact Nat.zero_lt_succ 127
    · omega

theorem Whole.addNode (whole : r.Whole) (h : r.addNode node = .ok r') : r'.Whole := by
  refine ⟨whole.sound.addNode h, ?_, ?_⟩
  · obtain ⟨_, _, _, rfl⟩ := addNode_eq_ok.mp h
    intro id member x here
    change x ∈ r.vnodeHashes id at here
    rw [GoMap.mem_iff, lookup_place]
    split
    · exact ⟨_, rfl⟩
    · rename_i away
      rw [← GoMap.mem_iff]
      cases (AList.mem_insert _).mp member with
      | inl same => exact absurd (same ▸ here) away
      | inr old => exact whole.covers id old x here
  · obtain ⟨_, _, _, rfl⟩ := addNode_eq_ok.mp h
    exact whole.virtual

theorem Whole.removeNode (whole : r.Whole) (spares : r.Spares (.remove nodeID))
    (h : r.removeNode nodeID = .ok r') : r'.Whole := by
  refine ⟨whole.sound.removeNode h, ?_, ?_⟩
  · obtain ⟨gone, rfl⟩ := removeNode_eq_ok.mp h
    intro id member x here
    obtain ⟨other, old⟩ := AList.mem_erase.mp member
    change x ∈ r.vnodeHashes id at here
    have away := spares gone id old other x here
    change x ∈ (r.vnodeHashes nodeID).foldl (fun m h => m.erase h) r.lookup
    rw [GoMap.mem_iff, lookup_unplace, if_neg away, ← GoMap.mem_iff]
    exact whole.covers id old x here
  · obtain ⟨_, rfl⟩ := removeNode_eq_ok.mp h
    exact whole.virtual

theorem Whole.perform (whole : r.Whole) {op : RingOp} (spares : r.Spares op) :
    (r.perform op).Whole := by
  cases op with
  | add node =>
      change (r.join node).Whole
      unfold join
      split
      · rename_i h
        exact whole.addNode h
      · exact whole
  | remove nodeID =>
      change (r.leave nodeID).Whole
      unfold leave
      split
      · rename_i h
        exact whole.removeNode spares h
      · exact whole

theorem whole_run {cfg : RingConfig} {past : List (Ring × RingOp)} (run : RingRun cfg past r)
    (meets : Transition.Meets Spares past) : r.Whole :=
  Transition.Run.invariant (I := Whole)
    (fun r (start : r = newRing cfg) => start ▸ whole_newRing cfg)
    (fun r op r' whole spares (step : r' = r.perform op) => step ▸ whole.perform spares) run meets

/-- The position that a lookup uses is the nearest one ahead of the hash. -/
theorem Sound.positionOf_nearest (sound : r.Sound) (some : r.hashes.length ≠ 0)
    (keyHash : UInt32) :
    r.positionOf keyHash ∈ r.hashes ∧
      ∀ q ∈ r.hashes, distance keyHash (r.positionOf keyHash) ≤ distance keyHash q := by
  obtain ⟨rest, ahead⟩ := head_clockwise keyHash some
  have turned : r.clockwise keyHash = Circle.turn keyHash r.hashes := rfl
  have ordered := Circle.pairwise_turn keyHash sound.sorted
  rw [← turned, ahead, List.pairwise_cons] at ordered
  have mem (q : UInt32) : q ∈ r.hashes ↔ q ∈ r.positionOf keyHash :: rest := by
    rw [← ahead, turned, Circle.mem_turn]
  refine ⟨(mem _).mpr List.mem_cons_self, ?_⟩
  intro q here
  cases List.mem_cons.mp ((mem q).mp here) with
  | inl first => rw [first]
  | inr later => exact ordered.1 q later

/-- The member whose position is the nearest ahead of the key. -/
structure Owns (r : Ring) (key : String) (node : Node) (position : UInt32) : Prop where
  mem : position ∈ r.hashes
  nearest : ∀ q ∈ r.hashes, distance (r.cfg.hash key) position ≤ distance (r.cfg.hash key) q
  found : r.lookup.lookup position = some node.id
  member : r.nodes.lookup node.id = some node

theorem Sound.owner_eq_some_iff (sound : r.Sound) :
    r.owner key = some node ↔ ∃ position, r.Owns key node position := by
  constructor
  · intro owns
    unfold owner lookupHash at owns
    split at owns
    · cases owns
    · rename_i positions
      obtain ⟨mem, nearest⟩ := sound.positionOf_nearest positions (r.cfg.hash key)
      obtain ⟨id, found⟩ := GoMap.mem_iff.mp ((sound.positions _).mp mem)
      rw [nodeIDAt, found, Option.getD_some] at owns
      obtain rfl := sound.keyed id node owns
      exact ⟨_, mem, nearest, found, owns⟩
  · intro owns
    obtain ⟨position, owns⟩ := owns
    have positions : r.hashes.length ≠ 0 :=
      Nat.ne_of_gt (List.length_pos_of_mem owns.mem)
    obtain ⟨mem, nearest⟩ := sound.positionOf_nearest positions (r.cfg.hash key)
    have same : r.positionOf (r.cfg.hash key) = position :=
      Circle.eq_of_distance_eq (Nat.le_antisymm (nearest _ owns.mem) (owns.nearest _ mem))
    unfold owner lookupHash
    rw [if_neg positions, same, nodeIDAt, owns.found, Option.getD_some, owns.member]

theorem Whole.hashes_ne_nil (whole : r.Whole) (members : 0 < r.len) : r.hashes.length ≠ 0 := by
  obtain ⟨id, member⟩ := List.exists_mem_of_length_pos members
  have first : r.cfg.hash (vnodeKey id 0) ∈ r.vnodeHashes id :=
    List.mem_map_of_mem (List.mem_range.mpr whole.virtual)
  have mem := (whole.sound.positions _).mpr (whole.covers id member _ first)
  exact Nat.ne_of_gt (List.length_pos_of_mem mem)

theorem Whole.exists_owner (whole : r.Whole) (members : 0 < r.len) (key : String) :
    ∃ node, r.owner key = some node := by
  obtain ⟨mem, nearest⟩ :=
    whole.sound.positionOf_nearest (whole.hashes_ne_nil members) (r.cfg.hash key)
  obtain ⟨id, found⟩ := GoMap.mem_iff.mp ((whole.sound.positions _).mp mem)
  obtain ⟨node, member⟩ :=
    GoMap.mem_iff.mp (whole.sound.placed _ id found).1
  obtain rfl := whole.sound.keyed id node member
  exact ⟨node, whole.sound.owner_eq_some_iff.mpr ⟨_, mem, nearest, found, member⟩⟩

theorem Whole.owner_isSome (whole : r.Whole) (key : String) :
    (r.owner key).isSome ↔ 0 < r.len := by
  constructor
  · intro owned
    obtain ⟨node, owns⟩ := Option.isSome_iff_exists.mp owned
    obtain ⟨_, owns⟩ := whole.sound.owner_eq_some_iff.mp owns
    exact List.length_pos_of_mem (GoMap.mem_iff.mpr ⟨_, owns.member⟩)
  · intro members
    obtain ⟨node, owns⟩ := whole.exists_owner members key
    exact Option.isSome_of_eq_some owns

/-- Removing a member that shares no position leaves the owners of all other keys. -/
theorem Owns.removeNode (sound : r.Sound) (spares : r.Spares (.remove nodeID))
    (h : r.removeNode nodeID = .ok r') (owns : r.Owns key node position)
    (other : node.id ≠ nodeID) : r'.Owns key node position := by
  have sound' := sound.removeNode h
  obtain ⟨gone, rfl⟩ := removeNode_eq_ok.mp h
  obtain ⟨member, here⟩ := sound.placed position node.id owns.found
  have away := spares gone node.id member other position here
  have kept (q : UInt32) : (rebuildHashes { r with
      nodes := r.nodes.erase nodeID
      lookup := (r.vnodeHashes nodeID).foldl (fun m h => m.erase h) r.lookup }).lookup.lookup q =
        if q ∈ r.vnodeHashes nodeID then none else r.lookup.lookup q :=
    lookup_unplace (r.vnodeHashes nodeID) r.lookup q
  refine ⟨?_, ?_, ?_, ?_⟩
  · rw [sound'.positions, GoMap.mem_iff]
    exact ⟨node.id, by rw [kept, if_neg away, owns.found]⟩
  · intro q mem
    refine owns.nearest q ?_
    rw [sound'.positions, GoMap.mem_iff] at mem
    obtain ⟨id, found⟩ := mem
    rw [kept] at found
    split at found
    · cases found
    · rw [sound.positions, GoMap.mem_iff]
      exact ⟨id, found⟩
  · rw [kept, if_neg away, owns.found]
  · exact (AList.lookup_erase_ne other).trans owns.member

end Ring

/-- Along calls that never remove a member sharing a position with another one, lookups
succeed exactly on rings with members, and a removal leaves the owner of every key that
the removed member does not own. -/
theorem removal_spares_survivors {cfg : RingConfig} {past : List (Ring × RingOp)} {r : Ring}
    (run : RingRun cfg past r) (meets : Transition.Meets Ring.Spares past) (key : String) :
    ((r.owner key).isSome ↔ 0 < r.len) ∧
      ∀ x ∈ r.nodes, r.Spares (.remove x) → (r.owner key).map Node.id ≠ some x →
        (r.perform (.remove x)).owner key = r.owner key := by
  have whole := Ring.whole_run run meets
  refine ⟨whole.owner_isSome key, ?_⟩
  intro x member spares other
  have after : (r.leave x).Whole := whole.perform spares
  change (r.leave x).owner key = r.owner key
  unfold Ring.leave at after ⊢
  split
  · rename_i r' removed
    rw [removed] at after
    obtain ⟨node, owns⟩ := whole.exists_owner (List.length_pos_of_mem member) key
    rw [owns] at other ⊢
    have different : node.id ≠ x := fun same => other (congrArg some same)
    obtain ⟨position, owns⟩ := whole.sound.owner_eq_some_iff.mp owns
    exact after.sound.owner_eq_some_iff.mpr
      ⟨position, owns.removeNode whole.sound spares removed different⟩
  · rfl

/-- The ring after some calls, with the calls as its past. -/
def ringTrace (cfg : RingConfig) (ops : List RingOp) : List (Ring × RingOp) × Ring :=
  ops.foldl (fun t op => ((t.2, op) :: t.1, t.2.perform op)) ([], newRing cfg)

theorem ringRun_ringTrace (cfg : RingConfig) (ops : List RingOp) :
    RingRun cfg (ringTrace cfg ops).1 (ringTrace cfg ops).2 := by
  have further (t : List (Ring × RingOp) × Ring) (run : RingRun cfg t.1 t.2) :
      RingRun cfg (ops.foldl (fun t op => ((t.2, op) :: t.1, t.2.perform op)) t).1
        (ops.foldl (fun t op => ((t.2, op) :: t.1, t.2.perform op)) t).2 := by
    induction ops generalizing t with
    | nil => exact run
    | cons op rest ih => exact ih _ (.next run rfl)
  exact further ([], newRing cfg) (.start rfl)

/-- Members `a` and `b` share their position, `cc` has its own: `cc` may go. -/
def sharedPair : List (Ring × RingOp) × Ring :=
  ringTrace ⟨1, fun s => UInt32.ofNat s.length⟩
    [.add ⟨"a", "a:1"⟩, .add ⟨"b", "b:1"⟩, .add ⟨"cc", "cc:1"⟩]

theorem removal_spares_survivors_sharedPair :
    Transition.Meets Ring.Spares sharedPair.1 ∧ sharedPair.2.Spares (.remove "cc") ∧
      sharedPair.2.owner "key" = some ⟨"b", "b:1"⟩ ∧
      (sharedPair.2.perform (.remove "cc")).owner "key" = sharedPair.2.owner "key" := by
  have meets : Transition.Meets Ring.Spares sharedPair.1 := by decide
  have spares : sharedPair.2.Spares (.remove "cc") := by decide
  have owned : sharedPair.2.owner "key" = some ⟨"b", "b:1"⟩ := by decide
  have run : RingRun _ sharedPair.1 sharedPair.2 := ringRun_ringTrace _ _
  exact ⟨meets, spares, owned,
    (removal_spares_survivors run meets "key").2 "cc" (by decide) spares (by decide)⟩

/-- With one position for all, the later member takes it and the earlier one's leave
deletes it: the later one stays a member and owns nothing. -/
theorem removal_disturbs_survivor :
    ∃ past r, RingRun ⟨1, fun _ => 0⟩ past r ∧ "a" ∈ r.nodes ∧
      r.owner "key" = some ⟨"b", "b:1"⟩ ∧ (r.perform (.remove "a")).owner "key" = none ∧
      (r.perform (.remove "a")).len = 1 :=
  ⟨_, _, ringRun_ringTrace _ [.add ⟨"a", "a:1"⟩, .add ⟨"b", "b:1"⟩], by decide, by decide,
    by decide, by decide⟩

end DistributedCache.Cluster
