import DistributedCache.Cluster.Ring
import DistributedCache.Lib.WhiteSpace

/-!
`ParsePeers`: the peers of a node from a string of entries `id=host:port` with commas
between them.

Every node takes its ring and its Raft peers from this list. What is accepted are the peers
with different ids in some spelling, with white space and empty entries wherever one likes,
and a ring can be built from it unless the node is one of its own peers.
-/
namespace DistributedCache.Cluster

open GoText

/-- A `Node` as it stands in the string. -/
structure Peer where
  id : Bytes
  addr : Bytes
  deriving DecidableEq, Repr

inductive PeerError
  | expectedAddr (part : Bytes)
  | emptyIDOrAddr (part : Bytes)
  | duplicateID (id : Bytes)
  deriving DecidableEq, Repr

/-- The loop over the parts, with the ids it has seen. -/
def parseParts (seen : GoMap Bytes Unit) : List Bytes → Except PeerError (List Peer)
  | [] => .ok []
  | part :: parts =>
      let part := trimSpace part
      if part = [] then parseParts seen parts
      else match cut 61 part with
        | none => .error (.expectedAddr part)
        | some (id, addr) =>
            let id := trimSpace id
            let addr := trimSpace addr
            if id = [] ∨ addr = [] then .error (.emptyIDOrAddr part)
            else if id ∈ seen then .error (.duplicateID id)
            else (parseParts (seen.insert id ()) parts).map fun peers => ⟨id, addr⟩ :: peers

def parsePeers (raw : Bytes) : Except PeerError (List Peer) :=
  let raw := trimSpace raw
  if raw = [] then .ok [] else parseParts ∅ (raw.splitOn 44)

/-- A peer that can be in the list. -/
structure Peer.Trimmed (peer : Peer) : Prop where
  id : peer.id ≠ [] ∧ trimSpace peer.id = peer.id
  addr : peer.addr ≠ [] ∧ trimSpace peer.addr = peer.addr

section Sound

variable {seen : GoMap Bytes Unit} {parts : List Bytes} {peers : List Peer}

/-- Only the trimmed parts matter to the loop. -/
theorem parseParts_congr {parts' : List Bytes}
    (same : parts.map trimSpace = parts'.map trimSpace) :
    parseParts seen parts = parseParts seen parts' := by
  induction parts generalizing parts' seen with
  | nil =>
      obtain rfl := List.map_eq_nil_iff.mp same.symm
      rfl
  | cons part parts ih =>
      cases parts' with
      | nil => cases same
      | cons part' parts' =>
          obtain ⟨trimmed, same⟩ := List.cons.inj same
          unfold parseParts
          simp only [trimmed, ih same]

/-- The string is split as it is. -/
theorem parsePeers_eq (raw : Bytes) : parsePeers raw = parseParts ∅ (raw.splitOn 44) := by
  have same : ((trimSpace raw).splitOn 44).map trimSpace = (raw.splitOn 44).map trimSpace :=
    map_trimSpace_splitOn (by decide) (by decide) raw
  unfold parsePeers
  dsimp only
  split
  · rename_i none
    rw [none, List.splitOn_nil] at same
    rw [← parseParts_congr same]
    rfl
  · exact parseParts_congr same

/-- A part that is accepted is blank or gives a peer with a new id. -/
theorem parseParts_cons {part : Bytes} (h : parseParts seen (part :: parts) = .ok peers) :
    parseParts seen parts = .ok peers ∨
    ∃ peer rest, peer.Trimmed ∧ peer.id ∉ seen ∧
      parseParts (seen.insert peer.id ()) parts = .ok rest ∧ peers = peer :: rest := by
  unfold parseParts at h
  dsimp only at h
  split at h
  · exact .inl h
  · split at h
    · cases h
    · rename_i id addr _
      split at h
      · cases h
      · rename_i nonempty
        obtain ⟨someID, someAddr⟩ := not_or.mp nonempty
        split at h
        · cases h
        · rename_i new
          cases later : parseParts (seen.insert (trimSpace id) ()) parts with
          | error err =>
              rw [later] at h
              cases h
          | ok rest =>
              rw [later] at h
              cases h
              exact .inr ⟨⟨trimSpace id, trimSpace addr⟩, rest,
                ⟨⟨someID, trimSpace_trimSpace id⟩, someAddr, trimSpace_trimSpace addr⟩, new,
                later, rfl⟩

theorem parseParts_sound (h : parseParts seen parts = .ok peers) :
    (peers.map Peer.id).Nodup ∧ (∀ peer ∈ peers, peer.id ∉ seen) ∧
      ∀ peer ∈ peers, peer.Trimmed := by
  induction parts generalizing seen peers with
  | nil =>
      cases h
      exact ⟨List.nodup_nil, by simp, by simp⟩
  | cons part parts ih =>
      cases parseParts_cons h with
      | inl blank => exact ih blank
      | inr entry =>
          obtain ⟨peer, rest, trimmed, new, later, rfl⟩ := entry
          obtain ⟨nodup, others, all⟩ := ih later
          refine ⟨?_, List.forall_mem_cons.mpr ⟨new, ?_⟩, List.forall_mem_cons.mpr ⟨trimmed, all⟩⟩
          · refine List.nodup_cons.mpr ⟨fun mem => ?_, nodup⟩
            obtain ⟨other, listed, same⟩ := List.mem_map.mp mem
            exact others other listed ((AList.mem_insert _).mpr (.inl same))
          · exact fun other listed mem => others other listed ((AList.mem_insert _).mpr (.inr mem))

end Sound

/-- Entries that spell a list of peers: one for each peer, with white space around the id and
the address, and blank ones anywhere. -/
inductive Spells : List Bytes → List Peer → Prop
  | nil : Spells [] []
  | blank {entry : Bytes} {entries : List Bytes} {peers : List Peer} (blank : Blank entry)
      (later : Spells entries peers) : Spells (entry :: entries) peers
  | peer {a b c d : Bytes} {entries : List Bytes} {peers : List Peer} (peer : Peer)
      (front : Blank a) (behind : Blank b) (front' : Blank c) (behind' : Blank d)
      (later : Spells entries peers) :
      Spells ((a ++ peer.id ++ b ++ 61 :: (c ++ peer.addr ++ d)) :: entries) (peer :: peers)

/-- A list of peers that can be spelled. -/
structure Listable (peers : List Peer) : Prop where
  distinct : (peers.map Peer.id).Nodup
  trimmed : ∀ peer ∈ peers, peer.Trimmed
  id : ∀ peer ∈ peers, 44 ∉ peer.id ∧ 61 ∉ peer.id
  addr : ∀ peer ∈ peers, 44 ∉ peer.addr

section Complete

variable {seen : GoMap Bytes Unit} {entries : List Bytes} {peers : List Peer} {a b c d : Bytes}
  {peer : Peer}

theorem parseParts_blank {entry : Bytes} (blank : Blank entry) (entries : List Bytes) :
    parseParts seen (entry :: entries) = parseParts seen entries := by
  conv_lhs => unfold parseParts
  dsimp only
  rw [if_pos blank.trimSpace_eq_nil]

theorem trimSpace_between (front : Blank a) (behind : Blank b) (s : Bytes) :
    trimSpace (a ++ s ++ b) = trimSpace s := by
  rw [behind.trimSpace_append_right, front.trimSpace_append_left]

theorem parseParts_entry (trimmed : peer.Trimmed) (free : 61 ∉ peer.id) (new : peer.id ∉ seen)
    (front : Blank a) (behind : Blank b) (front' : Blank c) (behind' : Blank d)
    (entries : List Bytes) :
    parseParts seen ((a ++ peer.id ++ b ++ 61 :: (c ++ peer.addr ++ d)) :: entries) =
      (parseParts (seen.insert peer.id ()) entries).map fun peers => peer :: peers := by
  have freeID : 61 ∉ a ++ peer.id ++ b := by
    simp only [List.mem_append, not_or]
    exact ⟨⟨front.not_mem (by decide) (by decide), free⟩, behind.not_mem (by decide) (by decide)⟩
  have freeLeft : 61 ∉ trimLeft (a ++ peer.id ++ b) :=
    fun mem => freeID ((dropSpaces_suffix spaceWidth 0 _).subset mem)
  have id : trimSpace (trimLeft (a ++ peer.id ++ b)) = peer.id := by
    rw [trimSpace_trimLeft, trimSpace_between front behind, trimmed.id.2]
  have addr : trimSpace (trimRight (c ++ peer.addr ++ d)) = peer.addr := by
    rw [trimSpace_trimRight, trimSpace_between front' behind', trimmed.addr.2]
  conv_lhs => unfold parseParts
  dsimp only
  rw [trimSpace_append_cons (by decide) (by decide), if_neg (by simp), cut_append freeLeft]
  dsimp only
  rw [id, addr, if_neg (not_or.mpr ⟨trimmed.id.1, trimmed.addr.1⟩), if_neg new]

theorem Listable.tail (listable : Listable (peer :: peers)) : Listable peers where
  distinct := (List.nodup_cons.mp listable.distinct).2
  trimmed := (List.forall_mem_cons.mp listable.trimmed).2
  id := (List.forall_mem_cons.mp listable.id).2
  addr := (List.forall_mem_cons.mp listable.addr).2

/-- Peers are read back from any spelling, with ids that were not seen before. -/
theorem Spells.parseParts (spelled : Spells entries peers) (listable : Listable peers)
    (new : ∀ peer ∈ peers, peer.id ∉ seen) : parseParts seen entries = .ok peers := by
  induction spelled generalizing seen with
  | nil => rfl
  | blank blank later ih =>
      rw [parseParts_blank blank]
      exact ih listable new
  | @peer a b c d entries peers peer front behind front' behind' later ih =>
      have trimmed := listable.trimmed peer List.mem_cons_self
      have free := (listable.id peer List.mem_cons_self).2
      have first := new peer List.mem_cons_self
      have others : ∀ other ∈ peers, other.id ∉ seen.insert peer.id () := by
        intro other mem
        have differs : other.id ≠ peer.id := fun same =>
          (List.nodup_cons.mp listable.distinct).1 (same ▸ List.mem_map_of_mem mem)
        rw [AList.mem_insert, not_or]
        exact ⟨differs, new other (List.mem_cons_of_mem peer mem)⟩
      rw [parseParts_entry trimmed free first front behind front' behind', ih listable.tail others]
      rfl

theorem Spells.not_mem (spelled : Spells entries peers) (listable : Listable peers) :
    ∀ entry ∈ entries, 44 ∉ entry := by
  induction spelled with
  | nil => simp
  | blank blank later ih =>
      exact List.forall_mem_cons.mpr ⟨blank.not_mem (by decide) (by decide), ih listable⟩
  | @peer a b c d entries peers peer front behind front' behind' later ih =>
      refine List.forall_mem_cons.mpr ⟨?_, ih listable.tail⟩
      have free {x : Bytes} (blank : Blank x) : 44 ∉ x := blank.not_mem (by decide) (by decide)
      have id := (listable.id peer List.mem_cons_self).1
      have addr := listable.addr peer List.mem_cons_self
      simp [free front, free behind, free front', free behind', id, addr]

end Complete

/-- Every list that is accepted has peers with different ids, and no id or address is empty
or has white space around it. Every such list is accepted in any spelling, if the ids are
free of the two separators and the addresses of the comma. -/
theorem parsePeers_sound_complete :
    (∀ raw peers, parsePeers raw = .ok peers →
      (peers.map Peer.id).Nodup ∧ ∀ peer ∈ peers, peer.Trimmed) ∧
    (∀ entries peers, Listable peers → Spells entries peers →
      parsePeers ([44].intercalate entries) = .ok peers) := by
  constructor
  · intro raw peers accepted
    rw [parsePeers_eq] at accepted
    obtain ⟨nodup, _, trimmed⟩ := parseParts_sound accepted
    exact ⟨nodup, trimmed⟩
  · intro entries peers listable spelled
    rw [parsePeers_eq]
    cases entries with
    | nil =>
        cases spelled
        rfl
    | cons entry entries =>
        rw [List.splitOn_intercalate 44 (spelled.not_mem listable) (List.cons_ne_nil _ _)]
        exact spelled.parseParts listable fun peer _ => AList.notMem_empty peer.id

/-- Two peers, with white space of all three widths, an empty entry and a comma at the end. -/
def samplePeers : List Peer :=
  [⟨ascii "a", ascii "h:1"⟩, ⟨ascii "b", ascii "h=2"⟩]

def sampleEntries : List Bytes :=
  [[32] ++ ascii "a" ++ [0xC2, 0xA0] ++ 61 :: ([] ++ ascii "h:1" ++ []), [],
    [] ++ ascii "b" ++ [] ++ 61 :: ([0xE2, 0x80, 0x80] ++ ascii "h=2" ++ [9]), []]

theorem listable_samplePeers : Listable samplePeers where
  distinct := by decide
  trimmed := by
    intro peer mem
    simp only [samplePeers, List.mem_cons, List.not_mem_nil, or_false] at mem
    obtain rfl | rfl := mem
    · exact ⟨by decide, by decide⟩
    · exact ⟨by decide, by decide⟩
  id := by decide
  addr := by decide

theorem spells_sampleEntries : Spells sampleEntries samplePeers :=
  .peer ⟨ascii "a", ascii "h:1"⟩ (IsSpace.one (by decide)).blank (IsSpace.two (by decide)).blank
    .nil .nil (.blank .nil
  (.peer ⟨ascii "b", ascii "h=2"⟩ .nil .nil (IsSpace.three (by decide)).blank
    (IsSpace.one (by decide)).blank (.blank .nil .nil)))

theorem parsePeers_sampleEntries :
    parsePeers ([44].intercalate sampleEntries) = .ok samplePeers ∧
      (samplePeers.map Peer.id).Nodup := by
  have read := parsePeers_sound_complete.2 sampleEntries samplePeers listable_samplePeers
    spells_sampleEntries
  exact ⟨read, (parsePeers_sound_complete.1 _ samplePeers read).1⟩

/-- The peer as a member of the ring. -/
def Peer.node (peer : Peer) : Node where
  id := text peer.id
  addr := text peer.addr

theorem text_inj {x y : Bytes} (same : text x = text y) : x = y := by
  rw [← ascii_text x, same, ascii_text]

/-- The loop of `NewCluster` goes through for peers that are named, with different ids, and
not in the ring. -/
theorem addPeers_ok {r : Ring} {selfID : String} {peers : List Node}
    (named : ∀ peer ∈ peers, peer.id ≠ "" ∧ peer.addr ≠ "" ∧ peer.id ≠ selfID)
    (distinct : (peers.map Node.id).Nodup) (new : ∀ peer ∈ peers, peer.id ∉ r.nodes) :
    ∃ r', r.addPeers selfID peers = .ok r' := by
  induction peers generalizing r with
  | nil => exact ⟨r, rfl⟩
  | cons peer peers ih =>
      obtain ⟨⟨id, addr, other⟩, named⟩ := List.forall_mem_cons.mp named
      obtain ⟨first, new⟩ := List.forall_mem_cons.mp new
      obtain ⟨fresh, distinct⟩ := List.nodup_cons.mp distinct
      have joined := Ring.addNode_eq_ok.mpr ⟨id, addr, first, rfl⟩
      unfold Ring.addPeers
      rw [if_neg other, joined]
      refine ih named distinct fun later mem => ?_
      rw [AList.mem_insert, not_or]
      exact ⟨fun same => fresh (same ▸ List.mem_map_of_mem mem), new later mem⟩

/-- A node can start with every list that is accepted, unless it is one of its own peers. -/
theorem newCluster_parsePeers {raw : Bytes} {peers : List Peer} {self : Node} (cfg : RingConfig)
    (accepted : parsePeers raw = .ok peers) (id : self.id ≠ "") (addr : self.addr ≠ "")
    (others : ∀ peer ∈ peers, peer.node.id ≠ self.id) :
    ∃ r, newCluster self (peers.map Peer.node) cfg = .ok r := by
  rw [parsePeers_eq] at accepted
  obtain ⟨nodup, _, trimmed⟩ := parseParts_sound accepted
  obtain ⟨first, started, nodes⟩ : ∃ first, (newRing cfg).addNode self = .ok first ∧
      first.nodes = (newRing cfg).nodes.insert self.id self :=
    ⟨_, Ring.addNode_eq_ok.mpr ⟨id, addr, AList.notMem_empty self.id, rfl⟩, rfl⟩
  have distinct : ((peers.map Peer.node).map Node.id).Nodup := by
    have ids := nodup.map fun _ _ same => text_inj same
    rw [List.map_map] at ids ⊢
    exact ids
  have named : ∀ node ∈ peers.map Peer.node, node.id ≠ "" ∧ node.addr ≠ "" ∧ node.id ≠ self.id := by
    intro node mem
    obtain ⟨peer, listed, rfl⟩ := List.mem_map.mp mem
    exact ⟨fun none => (trimmed peer listed).id.1 (text_inj (y := []) none),
      fun none => (trimmed peer listed).addr.1 (text_inj (y := []) none), others peer listed⟩
  have new : ∀ node ∈ peers.map Peer.node, node.id ∉ first.nodes := by
    intro node mem
    rw [nodes, AList.mem_insert, not_or]
    exact ⟨(named node mem).2.2, AList.notMem_empty node.id⟩
  obtain ⟨r, joined⟩ := addPeers_ok named distinct new
  exact ⟨r, newCluster_eq_ok.mpr ⟨first, started, joined⟩⟩

end DistributedCache.Cluster
