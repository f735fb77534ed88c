import DistributedCache.Lib.Recency
import DistributedCache.Cache.TtlMap

/-!
The order of the list and what `Set` takes from its end. The list is in the order of the
last uses of its keys, a use being a successful `Set` or `Get`. A `Set` that does not fit
into the limit by itself fails; any other one evicts the shortest suffix that makes room.
-/
namespace DistributedCache.Cache

/-- The key that the operation has used. -/
def Record.used (r : Record) : Option String :=
  match r.op, r.result with
  | .set key _ _, .set none => some key
  | .get key, .get (some _) => some key
  | _, _ => none

/-- The keys that the operations have used, the latest first. -/
def uses (past : List (Store × Int × Op)) : List (Option String) :=
  (history past).map Record.used

namespace Store

variable {s s' : Store} {e : Element} {k key : String} {value : List UInt8} {now ttl : Int}

/-- The entry fits into the limit when nothing else is stored. -/
def Fits (s : Store) (key : String) (value : List UInt8) : Prop :=
  0 < s.maxBytes → entrySize key value ≤ s.maxBytes

instance (s : Store) (key : String) (value : List UInt8) : Decidable (s.Fits key value) :=
  inferInstanceAs (Decidable (_ → _))

theorem Sound.lookup_eq_none_iff (h : s.Sound) :
    s.entries.lookup k = none ↔ ∀ x ∈ s.lru.elements, x.value.key ≠ k := by
  rw [Option.eq_none_iff_forall_ne_some]
  constructor
  · intro absent x mem same
    exact absent x ((h.entries k x).mpr ⟨mem, same⟩)
  · intro absent x found
    exact absent x (h.mem found) (h.key_eq found)

/-- What an operation does to the list: it drops elements, or it puts the one of the key
it uses at the front and drops others. -/
inductive Reorders (s s' : Store) : Option String → Prop
  | drops (part : s'.lru.elements.Sublist s.lru.elements) : Reorders s s' none
  | uses {key : String} {e : Element} {kept : List Element}
      (front : s'.lru.elements = e :: kept) (own : e.value.key = key)
      (part : kept.Sublist s.lru.elements) (new : ∀ x ∈ kept, x.value.key ≠ key) :
      Reorders s s' (some key)

theorem dropKey_sublist (s : Store) (key : String) :
    (s.dropKey key).lru.elements.Sublist s.lru.elements := by
  unfold dropKey
  split
  · exact s.lru.remove_sublist _
  · exact List.Sublist.refl _

theorem evict_sublist (needed : Int) (l : List Element) (s : Store) :
    (evict needed l s).lru.elements.Sublist s.lru.elements := by
  induction l generalizing s with
  | nil => exact List.Sublist.refl _
  | cons oldest rest ih =>
      rw [evict]
      split
      · exact (ih _).trans (s.lru.remove_sublist oldest)
      · exact List.Sublist.refl _

theorem removeAll_sublist (l : List Element) (s : Store) :
    (l.foldl removeElement s).lru.elements.Sublist s.lru.elements := by
  induction l generalizing s with
  | nil => exact List.Sublist.refl _
  | cons x rest ih => exact (ih _).trans (s.lru.remove_sublist x)

theorem Sound.reorders_set (h : s.Sound) (now : Int) (key : String) (value : List UInt8)
    (ttl : Int) :
    Reorders s (s.set now key value ttl).1 (record (s, now, .set key value ttl)).used := by
  have dropped := s.dropKey_sublist key
  have evicted := evict_sublist (entrySize key value) (s.dropKey key).lru.elements.reverse
    (s.dropKey key)
  have new := (h.dropKey key).lookup_eq_none_iff.mp (lookup_dropKey s h key)
  simp only [record, Record.used, Store.apply]
  unfold Store.set
  dsimp only
  split
  · exact .drops dropped
  · split
    · exact .drops (evicted.trans dropped)
    · exact .uses rfl rfl (evicted.trans dropped) fun x mem => new x (evicted.subset mem)

theorem Sound.reorders_get (h : s.Sound) (now : Int) (key : String) :
    Reorders s (s.get now key).1 (record (s, now, .get key)).used := by
  simp only [record, Record.used, Store.apply]
  unfold Store.get
  split
  · exact .drops (List.Sublist.refl _)
  · rename_i elem found
    have mem := h.mem found
    have own := h.key_eq found
    split
    · exact .drops (s.lru.remove_sublist elem)
    · have gone : (s.removeElement elem).entries.lookup key = none := by
        rw [lookup_removeElement, own, if_pos rfl]
      exact .uses (GoList.moveToFront_of_mem mem) own (s.lru.remove_sublist elem)
        ((h.removeElement mem).lookup_eq_none_iff.mp gone)

theorem Sound.reorders (h : s.Sound) (now : Int) (op : Op) :
    Reorders s (s.apply now op).1 (record (s, now, op)).used := by
  cases op with
  | set key value ttl => exact h.reorders_set now key value ttl
  | get key => exact h.reorders_get now key
  | delete key =>
      refine .drops ?_
      simp only [Store.apply]
      unfold Store.delete
      split
      · exact List.Sublist.refl _
      · split <;> exact s.lru.remove_sublist _
  | cleanupExpired => exact .drops (removeAll_sublist _ s)

/-- The keys of the list, the most recently used first. -/
def recency (s : Store) : List String :=
  s.lru.elements.map fun e => e.value.key

theorem Reorders.ordered {used : Option String} {earlier : List (Option String)}
    (r : Reorders s s' used) (h : Recency.Ordered earlier s.recency) :
    Recency.Ordered (used :: earlier) s'.recency := by
  cases r with
  | drops part => exact h.drop (part.map _)
  | uses front own part new =>
      rw [recency, front, List.map_cons, own]
      refine h.use (part.map _) fun mem => ?_
      obtain ⟨x, kept, same⟩ := List.mem_map.mp mem
      exact new x kept same

/-- What `Set` has to fit the entry into: the limit, beside the bytes of the elements. -/
def Room (s : Store) (needed : Int) (kept : List Element) : Prop :=
  (kept.map fun e => e.value.size).sum + needed ≤ s.maxBytes

/-- The loop of `ensureCapacity` goes over the list from the back. -/
theorem Sound.evict_cut {needed : Int} {l : List Element} (h : s.Sound)
    (all : s.lru.elements = l.reverse) (limited : 0 < s.maxBytes) (fits : needed ≤ s.maxBytes) :
    ∃ evicted, Recency.Cut (s.Room needed) s.lru.elements
      (Store.evict needed l s).lru.elements evicted := by
  induction l generalizing s with
  | nil =>
      refine ⟨[], .refl ?_⟩
      simpa [Room, all, Store.evict] using fits
  | cons oldest rest ih =>
      rw [List.reverse_cons] at all
      rw [Store.evict]
      split
      · rename_i full
        have left : (s.removeElement oldest).lru.elements = rest.reverse :=
          (GoList.remove_middle all).trans (List.append_nil _)
        have sound := h.removeElement (e := oldest) (by simp [all])
        obtain ⟨evicted, cut⟩ := ih sound left limited fits
        refine ⟨evicted ++ [oldest], ?_⟩
        rw [left] at cut
        rw [all]
        refine Recency.Cut.concat (P := s.Room needed) ?_ cut
        rw [Room, ← all, ← h.memory]
        omega
      · rename_i room
        refine ⟨[], .refl ?_⟩
        rw [Room, ← h.memory]
        omega

theorem Sound.dropKey_elements (h : s.Sound) (key : String) :
    (s.dropKey key).lru.elements = s.lru.elements.filter fun e => e.value.key ≠ key := by
  have keep {l : List Element} (absent : ∀ x ∈ l, x.value.key ≠ key) :
      l.filter (fun e => e.value.key ≠ key) = l := by
    simpa [List.filter_eq_self] using absent
  unfold Store.dropKey
  split
  · rename_i elem found
    obtain ⟨l₁, l₂, split⟩ := List.append_of_mem (h.mem found)
    have gone : (s.removeElement elem).entries.lookup key = none := by
      rw [lookup_removeElement, h.key_eq found, if_pos rfl]
    have absent := (h.removeElement (h.mem found)).lookup_eq_none_iff.mp gone
    have left : (s.removeElement elem).lru.elements = l₁ ++ l₂ := GoList.remove_middle split
    rw [left] at absent ⊢
    rw [← keep absent, split]
    simp [h.key_eq found]
  · rename_i absent
    exact (keep (h.lookup_eq_none_iff.mp absent)).symm

/-- An entry that fits is stored. -/
theorem Sound.set_of_fits (h : s.Sound) (fits : s.Fits key value) :
    s.set now key value ttl = (((s.dropKey key).ensureCapacity (entrySize key value)).push
      ⟨key, value, if ttl > 0 then now + ttl else 0⟩, none) := by
  obtain ⟨roomy, room⟩ := (h.dropKey key).ensureCapacity (entrySize key value)
  have limit := s.maxBytes_dropKey key
  have limit' : ((s.dropKey key).ensureCapacity (entrySize key value)).maxBytes = s.maxBytes :=
    (maxBytes_evict _ _ _).trans limit
  have enough : 0 < s.maxBytes → ((s.dropKey key).ensureCapacity
      (entrySize key value)).memoryBytes + entrySize key value ≤ s.maxBytes := by
    intro limited
    cases room with
    | inl empty =>
        rw [roomy.memory, empty]
        simpa using fits limited
    | inr room =>
        rw [limit] at room
        exact room limited
  have small := fits
  unfold Fits at small
  unfold Store.set
  dsimp only
  rw [if_neg (by omega), if_neg (by omega)]

theorem set_of_not_fits (large : ¬ s.Fits key value) :
    s.set now key value ttl = (s.dropKey key, some .entryTooLarge) := by
  have limit := s.maxBytes_dropKey key
  unfold Fits at large
  unfold set
  dsimp only
  rw [if_pos (by omega)]

/-- `Set` makes room by cutting off the shortest suffix that is long enough. -/
theorem Sound.set_cut (h : s.Sound) (now ttl : Int) (limited : 0 < s.maxBytes)
    (fits : entrySize key value ≤ s.maxBytes) :
    ∃ e kept evicted, (s.set now key value ttl).1.lru.elements = e :: kept ∧
      e.value = ⟨key, value, if ttl > 0 then now + ttl else 0⟩ ∧
      Recency.Cut (s.Room (entrySize key value))
        (s.lru.elements.filter fun e => e.value.key ≠ key) kept evicted := by
  have limit := s.maxBytes_dropKey key
  obtain ⟨evicted, cut⟩ := (h.dropKey key).evict_cut (List.reverse_reverse _).symm
    (limit.symm ▸ limited) (limit.symm ▸ fits)
  rw [h.set_of_fits fun _ => fits, ← h.dropKey_elements]
  have room : (s.dropKey key).Room (entrySize key value) = s.Room (entrySize key value) := by
    funext kept
    rw [Room, Room, limit]
  rw [room] at cut
  exact ⟨_, _, evicted, rfl, rfl, cut⟩

/-- A key that is neither the new one nor evicted keeps its entry. -/
theorem Sound.lookup_set (h : s.Sound) {kept evicted : List Element}
    (front : (s.set now key value ttl).1.lru.elements = e :: kept) (own : e.value.key = key)
    (split : s.lru.elements.filter (fun e => e.value.key ≠ key) = kept ++ evicted)
    (other : k ≠ key) :
    (s.set now key value ttl).1.entries.lookup k =
      if k ∈ evicted.map (fun e => e.value.key) then none else s.entries.lookup k := by
  have sound := h.set now key value ttl
  have rest (x : Element) (same : x.value.key = k) :
      x ∈ s.lru.elements ↔ x ∈ kept ∨ x ∈ evicted := by
    rw [← List.mem_append, ← split, List.mem_filter, same]
    simp [other]
  have after (x : Element) : (s.set now key value ttl).1.entries.lookup k = some x ↔
      x ∈ kept ∧ x.value.key = k := by
    rw [sound.entries, front, List.mem_cons]
    refine and_congr_left fun same => or_iff_right ?_
    rintro rfl
    exact other (same.symm.trans own)
  have apart : ∀ x ∈ kept, ∀ y ∈ evicted, x.value.key ≠ y.value.key := by
    have keys : ((kept ++ evicted).map fun e => e.value.key).Nodup := by
      rw [← split]
      exact h.keys.sublist (List.filter_sublist.map _)
    rw [List.map_append, List.nodup_append] at keys
    exact fun x hx y hy => keys.2.2 _ (List.mem_map_of_mem hx) _ (List.mem_map_of_mem hy)
  refine Option.ext fun x => ?_
  rw [after]
  split
  · rename_i gone
    obtain ⟨y, evicted, same⟩ := List.mem_map.mp gone
    refine iff_of_false (fun there => ?_) nofun
    exact apart x there.1 y evicted (there.2.trans same.symm)
  · rename_i stays
    rw [h.entries]
    refine and_congr_left fun same => ?_
    rw [rest x same, or_iff_left]
    exact fun gone => stays (List.mem_map.mpr ⟨x, gone, same⟩)

/-- Nothing of the store has changed. -/
structure Unchanged (s s' : Store) : Prop where
  entries : ∀ k, s'.entries.lookup k = s.entries.lookup k
  lru : s'.lru.elements = s.lru.elements
  memory : s'.memoryBytes = s.memoryBytes

end Store

theorem Run.ordered {maxBytes : Int} {past : List (Store × Int × Op)} {s : Store}
    (run : Run maxBytes past s) : Recency.Ordered (uses past) s.recency := by
  refine Transition.Run.induct (C := fun _ _ => True)
    (I := fun past s => Recency.Ordered (uses past) s.recency) ?_ ?_ run fun _ _ => trivial
  · rintro _ rfl
    exact .nil _
  · rintro past s ⟨now, op⟩ s' run _ ordered _ step
    obtain rfl := Except.ok.inj step
    exact ((Run.sound run).2.reorders now op).ordered ordered

section Results

variable {maxBytes : Int} {past : List (Store × Int × Op)} {s : Store}

/-- A failed `Set` leaves the store as it was exactly if the key had no entry. `Set` fails
for no other entries than those that exceed the limit by themselves. -/
theorem failed_set_unchanged_iff (run : Run maxBytes past s) (now : Int) (key : String)
    (value : List UInt8) (ttl : Int) :
    (∀ err, (s.set now key value ttl).2 = some err → s.Unchanged (s.set now key value ttl).1) ↔
      s.Fits key value ∨ s.entries.lookup key = none := by
  have sound := run.sound.2
  by_cases fits : s.Fits key value
  · rw [sound.set_of_fits fits]
    exact iff_of_true nofun (.inl fits)
  · rw [Store.set_of_not_fits fits, or_iff_right fits]
    constructor
    · intro unchanged
      rw [← (unchanged _ rfl).entries key]
      exact Store.lookup_dropKey s sound key
    · intro absent err _
      rw [Store.dropKey, absent]
      exact ⟨fun _ => rfl, rfl, rfl⟩

/-- A value that is too large for a key without an entry. -/
theorem failed_set_unchanged_iff_absent : ∃ past s, Run 4 past s ∧
    (s.set 2 "b" [1, 2, 3, 4] 0).2 = some .entryTooLarge ∧
      s.Unchanged (s.set 2 "b" [1, 2, 3, 4] 0).1 := by
  obtain ⟨past, s, run, check⟩ := Run.of_ops 4 [(1, .set "a" [1] 0)]
    (fun _ s => decide ((s.set 2 "b" [1, 2, 3, 4] 0).2 = some .entryTooLarge ∧
      s.entries.lookup "b" = none)) (by decide +kernel)
  obtain ⟨fails, absent⟩ := of_decide_eq_true check
  exact ⟨past, s, run, fails, (failed_set_unchanged_iff run _ _ _ _).mpr (.inr absent) _ fails⟩

/-- A value that is too large for a key with an entry: the entry is gone. -/
theorem failed_set_drops_entry : ∃ past s, Run 4 past s ∧
    (s.set 2 "a" [1, 2, 3, 4] 0).2 = some .entryTooLarge ∧
      (s.entries.lookup "a").isSome = true ∧
      ((s.set 2 "a" [1, 2, 3, 4] 0).1.entries.lookup "a").isSome = false := by
  obtain ⟨past, s, run, check⟩ := Run.of_ops 4 [(1, .set "a" [1] 0)]
    (fun _ s => decide ((s.set 2 "a" [1, 2, 3, 4] 0).2 = some .entryTooLarge ∧
      (s.entries.lookup "a").isSome = true ∧
      ((s.set 2 "a" [1, 2, 3, 4] 0).1.entries.lookup "a").isSome = false)) (by decide +kernel)
  exact ⟨past, s, run, of_decide_eq_true check⟩

/-- With a limit, the list is in the order of the last uses of its keys, and every `Set` of
an entry that fits succeeds. It puts the entry at the front and evicts the shortest suffix
of the other entries that makes room for it; all others stay as and where they are. -/
theorem eviction_exact_lru (limited : 0 < maxBytes) (run : Run maxBytes past s) :
    Recency.Ordered (uses past) s.recency ∧
      ∀ (now : Int) (key : String) (value : List UInt8) (ttl : Int),
        (s.set now key value ttl).2 ≠ some .memoryLimit ∧
        (entrySize key value ≤ maxBytes →
          (s.set now key value ttl).2 = none ∧
          ∃ e kept evicted, (s.set now key value ttl).1.lru.elements = e :: kept ∧
            e.value = ⟨key, value, if ttl > 0 then now + ttl else 0⟩ ∧
            Recency.Cut (fun kept => (kept.map fun e => e.value.size).sum + entrySize key value
                ≤ maxBytes)
              (s.lru.elements.filter fun e => e.value.key ≠ key) kept evicted ∧
            ∀ k ≠ key, (s.set now key value ttl).1.entries.lookup k =
              if k ∈ evicted.map (fun e => e.value.key) then none else s.entries.lookup k) := by
  obtain ⟨rfl, sound⟩ := run.sound
  refine ⟨run.ordered, fun now key value ttl => ⟨?_, fun fits => ?_⟩⟩
  · by_cases fits : s.Fits key value
    · rw [sound.set_of_fits fits]
      nofun
    · rw [Store.set_of_not_fits fits]
      nofun
  · refine ⟨by rw [sound.set_of_fits fun _ => fits], ?_⟩
    obtain ⟨e, kept, evicted, front, item, cut⟩ := sound.set_cut now ttl limited fits
    exact ⟨e, kept, evicted, front, item, cut, fun k other =>
      sound.lookup_set front (congrArg Entry.key item) cut.split other⟩

/-- A `Get` saves the oldest entry, and a `Set` evicts the two that are then older. -/
theorem eviction_exact_lru_promoted : ∃ past s, Run 6 past s ∧ s.recency = ["a", "c", "b"] ∧
    Recency.Ordered (uses past) s.recency ∧ (s.set 5 "d" [4, 4] 0).2 = none ∧
      (s.set 5 "d" [4, 4] 0).1.recency = ["d", "a"] := by
  obtain ⟨past, s, run, check⟩ := Run.of_ops 6
    [(1, .set "a" [1] 0), (2, .set "b" [2] 0), (3, .set "c" [3] 0), (4, .get "a")]
    (fun _ s => decide (s.recency = ["a", "c", "b"] ∧
      (s.set 5 "d" [4, 4] 0).1.recency = ["d", "a"])) (by decide +kernel)
  obtain ⟨order, evicted⟩ := of_decide_eq_true check
  obtain ⟨ordered, sets⟩ := eviction_exact_lru (by decide) run
  exact ⟨past, s, run, order, ordered, ((sets 5 "d" [4, 4] 0).2 (by decide)).1, evicted⟩

end Results

end DistributedCache.Cache
