import Mathlib.Algebra.BigOperators.Group.List.Basic
import Mathlib.Algebra.Ring.Int.Defs
import DistributedCache.Cache.Store

/-!
The three structures of a store agree: the list, the map into it and the byte
count. Every operation removes elements of the list or pushes a new one for a
key that is not there, so it is enough to follow these two changes.
-/
namespace DistributedCache.Cache

open GoList (perm_remove mem_remove perm_moveToFront)

/-- List, map and byte count describe the same entries, within the limit. -/
structure Store.Sound (s : Store) : Prop where
  keys : (s.lru.elements.map fun e => e.value.key).Nodup
  entries : ∀ k e, s.entries.lookup k = some e ↔ e ∈ s.lru.elements ∧ e.value.key = k
  memory : s.memoryBytes = (s.lru.elements.map fun e => e.value.size).sum
  limit : 0 < s.maxBytes → s.memoryBytes ≤ s.maxBytes

theorem Entry.size_nonneg (item : Entry) : 0 ≤ item.size := by
  unfold Entry.size entrySize
  omega

namespace Store

variable {s : Store} {e : Element} {item : Entry} {k : String}

theorem sound_newStore (maxBytes : Int) : (newStore maxBytes).Sound where
  keys := List.nodup_nil
  entries k e := by simp [newStore, GoList.new]
  memory := rfl
  limit := Int.le_of_lt

theorem Sound.mem (h : s.Sound) (found : s.entries.lookup k = some e) : e ∈ s.lru.elements :=
  ((h.entries k e).mp found).1

theorem Sound.key_eq (h : s.Sound) (found : s.entries.lookup k = some e) : e.value.key = k :=
  ((h.entries k e).mp found).2

theorem Sound.removeElement (h : s.Sound) (he : e ∈ s.lru.elements) :
    (s.removeElement e).Sound := by
  have perm := perm_remove he
  have found : s.entries.lookup e.value.key = some e := (h.entries _ _).mpr ⟨he, rfl⟩
  refine ⟨?_, fun k x => ?_, ?_, fun pos => ?_⟩
  · have := (perm.map fun x => x.value.key).nodup_iff.mp h.keys
    exact (List.nodup_cons.mp this).2
  · change (s.entries.erase e.value.key).lookup k = some x ↔ x ∈ (s.lru.remove e).elements ∧ _
    rw [mem_remove he]
    by_cases hk : k = e.value.key
    · subst hk
      rw [AList.lookup_erase]
      refine ⟨by simp, fun ⟨⟨hx, ne⟩, key⟩ => absurd ?_ ne⟩
      exact Option.some.inj (((h.entries _ x).mpr ⟨hx, key⟩).symm.trans found)
    · rw [AList.lookup_erase_ne hk, h.entries]
      refine ⟨fun ⟨hx, key⟩ => ⟨⟨hx, ?_⟩, key⟩, fun ⟨⟨hx, _⟩, key⟩ => ⟨hx, key⟩⟩
      rintro rfl
      exact hk key.symm
  · have sum := (perm.map fun x => x.value.size).sum_eq
    rw [List.map_cons, List.sum_cons, ← h.memory] at sum
    change s.memoryBytes - e.value.size = ((s.lru.remove e).elements.map _).sum
    omega
  · have := h.limit pos
    have := e.value.size_nonneg
    change s.memoryBytes - e.value.size ≤ s.maxBytes
    omega

theorem Sound.push (h : s.Sound) (absent : s.entries.lookup item.key = none)
    (room : 0 < s.maxBytes → s.memoryBytes + item.size ≤ s.maxBytes) : (s.push item).Sound := by
  have new : ∀ x ∈ s.lru.elements, x.value.key ≠ item.key := by
    intro x hx key
    rw [(h.entries _ x).mpr ⟨hx, key⟩] at absent
    exact absurd absent (by simp)
  refine ⟨?_, fun k x => ?_, ?_, room⟩
  · refine List.nodup_cons.mpr ⟨fun mem => ?_, h.keys⟩
    obtain ⟨x, hx, key⟩ := List.mem_map.mp mem
    exact new x hx key
  · change (s.entries.insert item.key (s.lru.pushed item)).lookup k = some x ↔
      x ∈ s.lru.pushed item :: s.lru.elements ∧ _
    rw [List.mem_cons]
    by_cases hk : k = item.key
    · subst hk
      rw [AList.lookup_insert, Option.some_inj]
      constructor
      · rintro rfl
        exact ⟨.inl rfl, rfl⟩
      · rintro ⟨rfl | hx, key⟩
        · rfl
        · exact absurd key (new x hx)
    · rw [AList.lookup_insert_ne hk, h.entries]
      refine ⟨fun ⟨hx, key⟩ => ⟨.inr hx, key⟩, ?_⟩
      rintro ⟨rfl | hx, key⟩
      · exact absurd key.symm hk
      · exact ⟨hx, key⟩
  · change s.memoryBytes + item.size = item.size + (s.lru.elements.map _).sum
    rw [h.memory]
    omega

theorem Sound.moveToFront (h : s.Sound) (e : Element) :
    Sound { s with lru := s.lru.moveToFront e } := by
  have perm := perm_moveToFront s.lru e
  refine ⟨?_, fun k x => ?_, ?_, h.limit⟩
  · exact (perm.map fun x => x.value.key).nodup_iff.mpr h.keys
  · rw [h.entries, perm.mem_iff]
  · exact h.memory.trans (perm.map fun x => x.value.size).sum_eq.symm

theorem Sound.dropKey (h : s.Sound) (key : String) : (s.dropKey key).Sound := by
  unfold Store.dropKey
  split
  · rename_i elem found
    exact h.removeElement (h.mem found)
  · exact h

theorem lookup_dropKey (s : Store) (h : s.Sound) (key : String) :
    (s.dropKey key).entries.lookup key = none := by
  unfold Store.dropKey
  split
  · rename_i elem found
    change (s.entries.erase elem.value.key).lookup key = none
    rw [h.key_eq found, AList.lookup_erase]
  · assumption

/-- The loop of `ensureCapacity` ends with enough room or an empty list. -/
theorem Sound.evict {needed : Int} {l : List Element} (h : s.Sound) (nodup : l.Nodup)
    (all : ∀ e, e ∈ l ↔ e ∈ s.lru.elements) :
    (evict needed l s).Sound ∧ ((evict needed l s).lru.elements = [] ∨
      (0 < s.maxBytes → (evict needed l s).memoryBytes + needed ≤ s.maxBytes)) := by
  induction l generalizing s with
  | nil =>
      refine ⟨h, .inl ?_⟩
      exact List.eq_nil_iff_forall_not_mem.mpr fun e he => absurd ((all e).mpr he) (by simp)
  | cons oldest rest ih =>
      obtain ⟨notMem, nodup⟩ := List.nodup_cons.mp nodup
      have mem : oldest ∈ s.lru.elements := (all oldest).mp List.mem_cons_self
      unfold Store.evict
      split
      · refine ih (h.removeElement mem) nodup fun e => ?_
        change e ∈ rest ↔ e ∈ (s.lru.remove oldest).elements
        rw [mem_remove mem, ← all, List.mem_cons]
        refine ⟨fun he => ⟨.inr he, ?_⟩, fun ⟨he, ne⟩ => he.resolve_left ne⟩
        rintro rfl
        exact notMem he
      · rename_i enough
        exact ⟨h, .inr fun pos => by omega⟩

theorem maxBytes_evict (needed : Int) (l : List Element) (s : Store) :
    (evict needed l s).maxBytes = s.maxBytes := by
  induction l generalizing s with
  | nil => rfl
  | cons oldest rest ih =>
      unfold evict
      split
      · rw [ih]
        rfl
      · rfl

/-- Eviction only takes entries away. -/
theorem of_lookup_evict {needed : Int} {l : List Element}
    (h : (evict needed l s).entries.lookup k = some e) : s.entries.lookup k = some e := by
  induction l generalizing s with
  | nil => exact h
  | cons oldest rest ih =>
      unfold evict at h
      split at h
      · exact GoMap.of_lookup_erase (ih h)
      · exact h

theorem Sound.ensureCapacity (h : s.Sound) (needed : Int) :
    (s.ensureCapacity needed).Sound ∧ ((s.ensureCapacity needed).lru.elements = [] ∨
      (0 < s.maxBytes → (s.ensureCapacity needed).memoryBytes + needed ≤ s.maxBytes)) := by
  refine h.evict (List.nodup_reverse.mpr ?_) (by simp)
  exact List.Nodup.of_map GoList.Element.id s.lru.distinct

theorem Sound.set (h : s.Sound) (now : Int) (key : String) (value : List UInt8) (ttl : Int) :
    (s.set now key value ttl).1.Sound := by
  have dropped := h.dropKey key
  obtain ⟨roomy, _⟩ := dropped.ensureCapacity (entrySize key value)
  unfold Store.set
  dsimp only
  split
  · exact dropped
  · split
    · exact roomy
    · rename_i fits
      refine roomy.push ?_ fun pos => ?_
      · -- Nothing is stored for the key, so eviction cannot bring it back.
        rw [Option.eq_none_iff_forall_ne_some]
        intro e found
        exact absurd (of_lookup_evict found) (by rw [lookup_dropKey s h]; simp)
      · change _ + entrySize key value ≤ _
        omega

theorem Sound.get (h : s.Sound) (now : Int) (key : String) : (s.get now key).1.Sound := by
  unfold Store.get
  split
  · exact h
  · rename_i elem found
    split
    · exact h.removeElement (h.mem found)
    · exact h.moveToFront elem

theorem Sound.delete (h : s.Sound) (now : Int) (key : String) : (s.delete now key).1.Sound := by
  unfold Store.delete
  split
  · exact h
  · rename_i elem found
    split <;> exact h.removeElement (h.mem found)

theorem Sound.removeAll (h : s.Sound) {l : List Element} (nodup : l.Nodup)
    (mem : ∀ e ∈ l, e ∈ s.lru.elements) : (l.foldl Store.removeElement s).Sound := by
  induction l generalizing s with
  | nil => exact h
  | cons x rest ih =>
      obtain ⟨notMem, nodup⟩ := List.nodup_cons.mp nodup
      have hx := mem x List.mem_cons_self
      refine ih (h.removeElement hx) nodup fun e he => ?_
      refine (mem_remove hx).mpr ⟨mem e (List.mem_cons_of_mem _ he), ?_⟩
      rintro rfl
      exact notMem he

theorem mem_entries_snd : e ∈ s.entries.entries.map Sigma.snd ↔
    ∃ k, s.entries.lookup k = some e := by
  rw [List.mem_map]
  constructor
  · rintro ⟨⟨k, x⟩, mem, rfl⟩
    exact ⟨k, AList.mem_lookup_iff.mpr mem⟩
  · rintro ⟨k, found⟩
    exact ⟨⟨k, e⟩, AList.mem_lookup_iff.mp found, rfl⟩

theorem mem_expired {now : Int} : e ∈ s.expired now ↔
    (∃ k, s.entries.lookup k = some e) ∧ e.value.isExpired now = true := by
  rw [expired, List.mem_filter, mem_entries_snd]
  refine and_congr Iff.rfl ?_
  by_cases zero : e.value.expiresAt = 0 <;> simp [Entry.isExpired, zero]

theorem Sound.nodup_expired (h : s.Sound) (now : Int) : (s.expired now).Nodup := by
  refine List.Nodup.filter _ ?_
  refine List.Nodup.map_on ?_ (List.Nodup.of_map Sigma.fst s.entries.nodupKeys)
  rintro ⟨k, x⟩ hx ⟨k', y⟩ hy (rfl : x = y)
  have key := h.key_eq (AList.mem_lookup_iff.mpr hx)
  have key' := h.key_eq (AList.mem_lookup_iff.mpr hy)
  exact Sigma.ext (key.symm.trans key') HEq.rfl

theorem Sound.cleanupExpired (h : s.Sound) (now : Int) : (s.cleanupExpired now).Sound := by
  refine h.removeAll (h.nodup_expired now) fun e he => ?_
  obtain ⟨⟨k, found⟩, _⟩ := mem_expired.mp he
  exact h.mem found

theorem Sound.apply (h : s.Sound) (now : Int) (op : Op) : (s.apply now op).1.Sound := by
  cases op with
  | set key value ttl => exact h.set now key value ttl
  | get key => exact h.get now key
  | delete key => exact h.delete now key
  | cleanupExpired => exact h.cleanupExpired now

end Store

section Limit

theorem Store.maxBytes_dropKey (s : Store) (key : String) :
    (s.dropKey key).maxBytes = s.maxBytes := by
  unfold dropKey
  split <;> rfl

theorem Store.maxBytes_set (s : Store) (now : Int) (key : String) (value : List UInt8)
    (ttl : Int) : (s.set now key value ttl).1.maxBytes = s.maxBytes := by
  have evicted : ((s.dropKey key).ensureCapacity (entrySize key value)).maxBytes = s.maxBytes :=
    (maxBytes_evict _ _ _).trans (s.maxBytes_dropKey key)
  unfold set
  dsimp only
  split
  · exact s.maxBytes_dropKey key
  · split
    · exact evicted
    · exact evicted

theorem Store.maxBytes_foldl_removeElement (l : List Element) (s : Store) :
    (l.foldl removeElement s).maxBytes = s.maxBytes := by
  induction l generalizing s with
  | nil => rfl
  | cons x rest ih => exact ih _

theorem Store.maxBytes_apply (s : Store) (now : Int) (op : Op) :
    (s.apply now op).1.maxBytes = s.maxBytes := by
  cases op with
  | set key value ttl => exact s.maxBytes_set now key value ttl
  | get key =>
      change (s.get now key).1.maxBytes = _
      unfold get
      split
      · rfl
      · split <;> rfl
  | delete key =>
      change (s.delete now key).1.maxBytes = _
      unfold delete
      split
      · rfl
      · split <;> rfl
  | cleanupExpired => exact maxBytes_foldl_removeElement _ s

end Limit

theorem Run.sound {maxBytes : Int} {past : List (Store × Int × Op)} {s : Store}
    (run : Run maxBytes past s) : s.maxBytes = maxBytes ∧ s.Sound := by
  refine Transition.Run.invariant (C := fun _ _ => True)
    (I := fun s => s.maxBytes = maxBytes ∧ s.Sound) ?_ ?_ run fun _ _ => trivial
  · rintro _ rfl
    exact ⟨rfl, Store.sound_newStore maxBytes⟩
  · rintro s ⟨now, op⟩ s' ⟨limit, h⟩ _ step
    obtain rfl := Except.ok.inj step
    exact ⟨(s.maxBytes_apply now op).trans limit, h.apply now op⟩

/-- After any operations, list, map and byte count of a store agree, and the byte count
is within the limit the store was made with. -/
theorem store_representation {maxBytes : Int} {past : List (Store × Int × Op)} {s : Store}
    (run : Run maxBytes past s) : s.maxBytes = maxBytes ∧ s.Sound :=
  run.sound

/-- A store of four bytes that overwrites, expires, evicts and refuses. -/
theorem store_representation_evict :
    ∃ past s, Run 4 past s ∧ s.lru.elements.map (fun e => e.value.key) = ["c"] ∧
      s.maxBytes = 4 ∧ s.Sound := by
  obtain ⟨past, s, run, check⟩ := Run.of_ops 4
    [(1, .set "a" [1] 5), (2, .set "b" [2] 0), (3, .set "a" [1, 1, 1] 0), (3, .get "b"),
      (4, .set "c" [3, 3] 1), (4, .set "d" [1, 2, 3, 4] 0), (4, .cleanupExpired)]
    (fun _ s => decide (s.lru.elements.map (fun e => e.value.key) = ["c"])) (by decide +kernel)
  exact ⟨past, s, run, of_decide_eq_true check, store_representation run⟩

end DistributedCache.Cache
