import DistributedCache.Cache.Eviction

/-!
What a store with a limit does not lose. As long as the entries that have been used since the
last use of a key fit into the limit beside it, each at its largest, nothing can push the key
out, and the store answers for it as a map without a limit does.
-/
namespace DistributedCache.Cache

/-- The key that the operation has used, with the size of its entry. -/
def Record.footprint (r : Record) : Option (String × Int) :=
  match r.op, r.result with
  | .set key value _, .set none => some (key, entrySize key value)
  | .get key, .get (some value) => some (key, entrySize key value)
  | _, _ => none

theorem Record.used_eq (r : Record) : r.used = r.footprint.map Prod.fst := by
  obtain ⟨time, op, result⟩ := r
  cases op with
  | set key value ttl =>
      cases result with
      | set err => cases err <;> rfl
      | get | delete | cleaned => rfl
  | get key =>
      cases result with
      | get value => cases value <;> rfl
      | set | delete | cleaned => rfl
  | delete | cleanupExpired => rfl

/-- The uses of a run with their sizes, the latest first. -/
def footprints (past : List (Store × Int × Op)) : List (Option (String × Int)) :=
  (history past).map Record.footprint

theorem keysOf_footprints (past : List (Store × Int × Op)) :
    Recency.keysOf (footprints past) = uses past := by
  rw [Recency.keysOf, footprints, uses, List.map_map]
  exact List.map_congr_left fun r _ => r.used_eq.symm

section Measured

variable {s : Store} {e : Element} {k key : String} {now : Int} {op : Op}

/-- Every entry has the size with which its key was used last. -/
def Store.Measured (sized : List (Option (String × Int))) (s : Store) : Prop :=
  ∀ e ∈ s.lru.elements, Recency.lastSize sized e.value.key = some e.value.size

/-- The entry of the key that an operation uses. -/
theorem Store.Sound.footprint_of_used (h : s.Sound) (used : (record (s, now, op)).used = some key)
    (found : (s.apply now op).1.entries.lookup key = some e) :
    (record (s, now, op)).footprint = some (key, e.value.size) := by
  cases op with
  | set key' value ttl =>
      simp only [record, Record.used, Record.footprint, Store.apply] at used found ⊢
      cases result : (s.set now key' value ttl).2 with
      | some err =>
          rw [result] at used
          cases used
      | none =>
          rw [result] at used
          obtain rfl := Option.some.inj used
          obtain ⟨e', stored, item⟩ := Store.lookup_set_self result
          obtain rfl := Option.some.inj (stored.symm.trans found)
          rw [item]
          rfl
  | get key' =>
      simp only [record, Record.used, Record.footprint, Store.apply] at used found ⊢
      cases result : (s.get now key').2 with
      | none =>
          rw [result] at used
          cases used
      | some value =>
          rw [result] at used
          obtain rfl := Option.some.inj used
          obtain ⟨e', there, live, rfl⟩ := (s.get_result now key' value).mp result
          have same : s.entries.lookup key' = some e := by
            rcases Store.lookup_get h now key' key' with same | ⟨_, gone, _⟩
            · exact same.symm.trans found
            · exact absurd (gone.symm.trans found) (by simp)
          obtain rfl := Option.some.inj (there.symm.trans same)
          rw [Entry.size, h.key_eq there]
  | delete key' => cases used
  | cleanupExpired => cases used

theorem Store.Measured.apply {sized : List (Option (String × Int))} (h : s.Sound)
    (measured : s.Measured sized) (now : Int) (op : Op) :
    (s.apply now op).1.Measured ((record (s, now, op)).footprint :: sized) := by
  intro e mem
  have used := (record (s, now, op)).used_eq
  have sound := h.apply now op
  have found := (sound.entries e.value.key e).mpr ⟨mem, rfl⟩
  by_cases own : (record (s, now, op)).used = some e.value.key
  · rw [h.footprint_of_used own found]
    exact Recency.lastSize_self
  · rw [Recency.lastSize_other (used ▸ own)]
    refine measured e ?_
    have reorders := h.reorders now op
    generalize (record (s, now, op)).used = last at reorders own
    cases reorders with
    | drops part => exact part.subset mem
    | uses front same part new =>
        rw [front] at mem
        cases List.mem_cons.mp mem with
        | inl first =>
            subst first
            exact absurd (congrArg some same).symm own
        | inr kept => exact part.subset kept

end Measured

theorem Run.measured {maxBytes : Int} {past : List (Store × Int × Op)} {s : Store}
    (run : Run maxBytes past s) : s.Measured (footprints past) := by
  refine Transition.Run.induct (C := fun _ _ => True)
    (I := fun past s => s.Measured (footprints past)) ?_ ?_ run fun _ _ => trivial
  · rintro _ rfl e mem
    cases mem
  · rintro past s ⟨now, op⟩ s' run _ measured _ step
    obtain rfl := Except.ok.inj step
    exact measured.apply (Run.sound run).2 now op

/-- What the map holds at a time not before the history is still in the store, if the entries
used since fit beside it. -/
def KeptWithin (maxBytes : Int) (past : List (Store × Int × Op)) (s : Store) : Prop :=
  ∀ k v t, (∀ r ∈ history past, r.time ≤ t) → Holds (history past) k v t →
    Recency.demand (Recency.since k (footprints past)) ≤ maxBytes →
    ∃ e, s.entries.lookup k = some e

section Kept

variable {maxBytes : Int} {past : List (Store × Int × Op)} {s : Store} {e : Element}
  {k key : String} {value : List UInt8} {now ttl : Int}

/-- The entries before that of a key have been used after it. -/
theorem Run.used_before (run : Run maxBytes past s) {l₁ l₂ : List Element}
    (part : (l₁ ++ e :: l₂).Sublist s.lru.elements) :
    ∀ x ∈ l₁ ++ [e],
      Recency.lastUse (uses past) e.value.key ≤ Recency.lastUse (uses past) x.value.key := by
  intro x mem
  cases List.mem_append.mp mem with
  | inl before =>
      have order := run.ordered.decreasing.sublist (part.map fun e => e.value.key)
      rw [List.map_append, List.pairwise_append] at order
      exact (order.2.2 _ (List.mem_map_of_mem before) _ List.mem_cons_self).le
  | inr last =>
      obtain rfl := List.mem_singleton.mp last
      exact Nat.le_refl _

/-- The entries before that of a key, it and a new one fit together if all that has been used
since the last use of the key does. -/
theorem Run.room_of_demand (run : Run maxBytes past s) (ok : (s.set now key value ttl).2 = none)
    {l₁ l₂ : List Element}
    (split : s.lru.elements.filter (fun e => e.value.key ≠ key) = l₁ ++ e :: l₂)
    (fits : Recency.demand (Recency.since e.value.key
      (footprints ((s, now, .set key value ttl) :: past))) ≤ maxBytes) :
    s.Room (entrySize key value) (l₁ ++ [e]) := by
  obtain ⟨limit, sound⟩ := run.sound
  have part : (l₁ ++ e :: l₂).Sublist s.lru.elements := split ▸ List.filter_sublist
  have front : (l₁ ++ [e]).Sublist (l₁ ++ e :: l₂) :=
    (List.singleton_sublist.mpr List.mem_cons_self).append_left l₁
  have apart : ∀ x ∈ l₁ ++ [e], x.value.key ≠ key := by
    intro x mem
    have listed := front.subset mem
    rw [← split] at listed
    simpa using (List.mem_filter.mp listed).2
  have sized : footprints ((s, now, .set key value ttl) :: past) =
      some (key, entrySize key value) :: footprints past := by
    simp only [footprints, history, List.map_cons, record, Record.footprint, Store.apply, ok]
  let items : List (String × Int) := (key, entrySize key value) ::
    (l₁ ++ [e]).map fun x => (x.value.key, x.value.size)
  have keys : items.map Prod.fst = key :: (l₁ ++ [e]).map fun x => x.value.key := by
    rw [List.map_cons, List.map_map]
    rfl
  have sizes : items.map Prod.snd =
      entrySize key value :: (l₁ ++ [e]).map fun x => x.value.size := by
    rw [List.map_cons, List.map_map]
    rfl
  have bound : (items.map Prod.snd).sum ≤ Recency.demand (Recency.since e.value.key
      (footprints ((s, now, .set key value ttl) :: past))) := by
    refine Recency.sum_le_demand ?_ ?_
    · rw [keys, List.nodup_cons]
      refine ⟨fun mem => ?_, sound.keys.sublist ((front.trans part).map _)⟩
      obtain ⟨x, listed, same⟩ := List.mem_map.mp mem
      exact apart x listed same
    · have order : Recency.keysOf (some (key, entrySize key value) :: footprints past) =
          some key :: uses past := congrArg (some key :: ·) (keysOf_footprints past)
      have own : e.value.key ≠ key := apart e (List.mem_append_right _ List.mem_cons_self)
      rw [sized, order]
      refine List.forall_mem_cons.mpr ⟨⟨Recency.lastSize_self, ?_⟩, List.forall_mem_map.mpr
        fun x listed => ⟨?_, ?_⟩⟩
      · rw [Recency.lastUse_self, Recency.lastUse_other own]
        exact (Recency.lastUse_le _ _).trans (Nat.le_succ _)
      · rw [Recency.lastSize_other (by simpa using (apart x listed).symm)]
        exact run.measured x (part.subset (front.subset listed))
      · rw [Recency.lastUse_other own, Recency.lastUse_other (apart x listed)]
        exact run.used_before part x listed
  rw [sizes, List.sum_cons] at bound
  rw [Store.Room, limit]
  omega

/-- Such an entry is not among those that a `Set` evicts. -/
theorem Run.lookup_set_of_demand (run : Run maxBytes past s) (limited : 0 < maxBytes)
    (found : s.entries.lookup k = some e) (other : k ≠ key)
    (fits : Recency.demand (Recency.since k
      (footprints ((s, now, .set key value ttl) :: past))) ≤ maxBytes) :
    (s.set now key value ttl).1.entries.lookup k = some e := by
  obtain ⟨limit, sound⟩ := run.sound
  obtain rfl := sound.key_eq found
  by_cases small : s.Fits key value
  · have stored : (s.set now key value ttl).2 = none := by rw [sound.set_of_fits small]
    obtain ⟨x, kept, evicted, front, item, cut⟩ :=
      sound.set_cut now ttl (limit.symm ▸ limited) (small (limit.symm ▸ limited))
    have listed : e ∈ s.lru.elements.filter fun e => e.value.key ≠ key :=
      List.mem_filter.mpr ⟨sound.mem found, by simpa using other⟩
    obtain ⟨l₁, l₂, split⟩ := List.append_of_mem listed
    -- What is kept reaches as far as there is room, and that is beyond the entry.
    have short := cut.shortest (l₁ ++ [e]) l₂ (by rw [split]; simp)
      (run.room_of_demand stored split fits)
    have behind : evicted <:+ l₂ := by
      have all : l₂ <:+ kept ++ evicted := by
        rw [← cut.split, split]
        exact ⟨l₁ ++ [e], by simp⟩
      exact List.suffix_of_suffix_length_le (List.suffix_append _ _) all short
    have safe : e.value.key ∉ evicted.map fun e => e.value.key := by
      intro gone
      have distinct := sound.keys.sublist
        ((split ▸ List.filter_sublist : (l₁ ++ e :: l₂).Sublist s.lru.elements).map
          fun e => e.value.key)
      rw [List.map_append, List.map_cons, List.nodup_append] at distinct
      exact (List.nodup_cons.mp distinct.2.1).1 (List.map_subset _ behind.subset gone)
    rw [sound.lookup_set front (congrArg Entry.key item) cut.split other, if_neg safe]
    exact found
  · rw [Store.set_of_not_fits small, Store.lookup_dropKey_of_ne sound other]
    exact found

/-- An operation that does not write the key leaves its entry, unless that has expired. -/
theorem Run.lookup_apply_of_demand (run : Run maxBytes past s) (limited : 0 < maxBytes) {op : Op}
    (found : s.entries.lookup k = some e) (other : op.writes k = false)
    (live : e.value.isExpired now = false)
    (fits : Recency.demand (Recency.since k (footprints ((s, now, op) :: past))) ≤ maxBytes) :
    (s.apply now op).1.entries.lookup k = some e := by
  have sound := run.sound.2
  have alive {x : Element} (same : s.entries.lookup k = some x)
      (old : x.value.isExpired now = true) : False := by
    obtain rfl := Option.some.inj (found.symm.trans same)
    exact absurd (old.symm.trans live) (by simp)
  cases op with
  | set key value ttl =>
      have apart : k ≠ key := by simpa [Op.writes, eq_comm] using other
      exact run.lookup_set_of_demand limited found apart fits
  | get key =>
      rcases Store.lookup_get sound now key k with same | ⟨_, _, x, there, old⟩
      · exact same.trans found
      · exact (alive there old).elim
  | delete key =>
      have apart : k ≠ key := by simpa [Op.writes, eq_comm] using other
      exact ((Store.lookup_delete sound now key k).trans (if_neg apart)).trans found
  | cleanupExpired =>
      rcases Store.lookup_cleanupExpired sound now k with same | ⟨_, x, there, old⟩
      · exact same.trans found
      · exact (alive there old).elim

/-- The use of a key by an operation that does not write it is a `Get` that finds it. -/
theorem Store.lookup_of_used {op : Op} (used : (record (s, now, op)).used = some k)
    (other : op.writes k = false) : ∃ e, s.entries.lookup k = some e := by
  cases op with
  | set key value ttl =>
      simp only [record, Record.used, Store.apply] at used
      cases result : (s.set now key value ttl).2 with
      | some err =>
          rw [result] at used
          cases used
      | none =>
          rw [result] at used
          obtain rfl := Option.some.inj used
          exact absurd other (by simp [Op.writes])
  | get key =>
      simp only [record, Record.used, Store.apply] at used
      cases result : (s.get now key).2 with
      | none =>
          rw [result] at used
          cases used
      | some v =>
          rw [result] at used
          obtain rfl := Option.some.inj used
          obtain ⟨e, found, _⟩ := (s.get_result now key v).mp result
          exact ⟨e, found⟩
  | delete | cleanupExpired => cases used

theorem Run.keptWithin (run : Run maxBytes past s) (limited : 0 < maxBytes)
    (clock : Clocked past) : KeptWithin maxBytes past s := by
  induction run with
  | start initial =>
      rintro k v t - ⟨_, _, last, _⟩
      cases last
  | @next past s s' a run step ih =>
      obtain ⟨now, op⟩ := a
      obtain ⟨_, _, before⟩ := clock.of_cons
      obtain rfl := Except.ok.inj step
      intro k v t times holds fits
      obtain ⟨here, times⟩ := List.forall_mem_cons.mp times
      obtain ⟨_, backed, _⟩ := Run.backed run before
      cases writes : op.writes k with
      | true =>
          obtain ⟨time, ttl, last, _⟩ := holds
          rw [history, List.map_cons,
            latest_cons_of_writes (r := record (s, now, op)) writes] at last
          simp only [record, Option.some_inj, Record.mk.injEq] at last
          obtain ⟨rfl, rfl, result⟩ := last
          obtain ⟨e, stored, _⟩ := Store.lookup_set_self (Result.set.inj result)
          exact ⟨e, stored⟩
      | false =>
          have holds : Holds (history past) k v t := by
            obtain ⟨time, ttl, last, live⟩ := holds
            rw [history, List.map_cons, latest_cons (r := record (s, now, op)) writes] at last
            exact ⟨time, ttl, last, live⟩
          obtain ⟨e, found⟩ : ∃ e, s.entries.lookup k = some e := by
            by_cases used : (record (s, now, op)).used = some k
            · exact Store.lookup_of_used used writes
            · have less := Recency.demand_le_cons (record (s, now, op)).footprint
                (Recency.since k (footprints past))
              rw [← Recency.since_other ((record (s, now, op)).used_eq ▸ used)] at less
              exact ih before k v t times holds (less.trans fits)
          have live := ((backed.live_iff found).mp (holds.earlier here)).2
          exact ⟨e, Run.lookup_apply_of_demand run limited found writes live fits⟩

end Kept

section Unlimited

variable {h : List Record} {r : Record} {k : String} {t now ttl : Int} {v : List UInt8}

theorem valueAt_cons (other : r.op.writes k = false) : valueAt (r :: h) k t = valueAt h k t := by
  rw [valueAt, latest_cons other, valueAt]

theorem valueAt_cons_set (result : Result) : valueAt (⟨now, .set k v ttl, result⟩ :: h) k t =
    if result = .set none ∧ (ttl ≤ 0 ∨ t < now + ttl) then some v else none := by
  rw [valueAt, latest_cons_of_writes (by simp [Op.writes])]
  split
  · rename_i same
    cases same
    simp only [true_and]
  · rename_i other
    rw [if_neg]
    rintro ⟨rfl, _⟩
    exact other _ _ _ _ rfl

theorem valueAt_cons_delete (result : Result) :
    valueAt (⟨now, .delete k, result⟩ :: h) k t = none := by
  rw [valueAt, latest_cons_of_writes (by simp [Op.writes])]

/-- The map that was given the same calls and has no limit differs from what the results tell
only by values that are too large for the store. -/
theorem Run.valueAt_replay {maxBytes : Int} {past : List (Store × Int × Op)} {s : Store}
    (run : Run maxBytes past s) (small : ∀ v, valueAt (replay (issued past)) k t = some v →
      0 < maxBytes → entrySize k v ≤ maxBytes) :
    valueAt (replay (issued past)) k t = valueAt (history past) k t := by
  induction run with
  | start initial => rfl
  | @next past s s' a run step ih =>
      obtain ⟨now, op⟩ := a
      obtain ⟨limit, sound⟩ := Run.sound run
      by_cases cleanup : op = .cleanupExpired
      · subst cleanup
        exact (ih small).trans (valueAt_cons (r := record (s, now, .cleanupExpired)) rfl).symm
      · have split : issued ((s, now, op) :: past) = (now, op) :: issued past := by
          rw [issued, calls_cons s now past cleanup]
          rfl
        rw [split, replay] at small ⊢
        rw [history, List.map_cons, ← history]
        cases writes : op.writes k with
        | false =>
            rw [valueAt_cons (r := record (s, now, op)) writes]
            rw [valueAt_cons writes] at small ⊢
            exact ih small
        | true =>
            cases op with
            | get | cleanupExpired => cases writes
            | delete key =>
                obtain rfl : key = k := of_decide_eq_true writes
                exact (valueAt_cons_delete _).trans (valueAt_cons_delete _).symm
            | set key value ttl =>
                obtain rfl : key = k := of_decide_eq_true writes
                rw [respond, valueAt_cons_set] at small ⊢
                rw [record, valueAt_cons_set]
                by_cases fits : s.Fits key value
                · rw [Store.apply, sound.set_of_fits fits]
                · -- what does not fit has expired at `t`
                  have dead : ¬ (ttl ≤ 0 ∨ t < now + ttl) := by
                    intro live
                    refine fits fun limited => ?_
                    rw [limit] at limited ⊢
                    exact small value (if_pos ⟨rfl, live⟩) limited
                  rw [if_neg fun h => dead h.2, if_neg fun h => dead h.2]

end Unlimited

/-- The working set stays. For every key such that the entries used since its last use, each at
its largest, fit into the limit together with its own, the store answers as a map without a
limit that was given the same calls, provided that the value which this map has for the key
would fit: eviction cannot be noticed. -/
theorem working_set_stays {maxBytes : Int} {past : List (Store × Int × Op)} {s : Store}
    (run : Run maxBytes past s) (clock : Clocked past) {t : Int}
    (now : ∀ x ∈ past, x.2.1 ≤ t) {k : String}
    (small : ∀ v, valueAt (replay (issued past)) k t = some v →
      0 < maxBytes → entrySize k v ≤ maxBytes)
    (fits : 0 < maxBytes → Recency.demand (Recency.since k (footprints past)) ≤ maxBytes) :
    (s.get t k).2 = valueAt (replay (issued past)) k t ∧
      (s.delete t k).2 = (valueAt (replay (issued past)) k t).isSome := by
  obtain ⟨_, backed, unlimited⟩ := run.backed clock
  have times : ∀ r ∈ history past, r.time ≤ t := List.forall_mem_map.mpr now
  have got : (s.get t k).2 = valueAt (history past) k t := by
    refine Option.ext fun v => ?_
    rw [valueAt_eq_some]
    refine ⟨backed.holds_of_get, fun holds => ?_⟩
    obtain ⟨e, found⟩ : ∃ e, s.entries.lookup k = some e := by
      by_cases limited : 0 < maxBytes
      · exact run.keptWithin limited clock k v t times holds (fits limited)
      · exact unlimited (not_lt.mp limited) k v t times holds
    obtain ⟨value, live⟩ := (backed.live_iff found).mp holds
    exact (s.get_result t k v).mpr ⟨e, found, live, value⟩
  rw [run.valueAt_replay small]
  exact ⟨got, (Backed.delete_eq_isSome s t k).trans (by rw [got])⟩

/-- Of three entries in a store for two, the one that a `Get` has used stays, though it is the
oldest. -/
theorem working_set_stays_used : ∃ past s, Run 4 past s ∧
    (s.entries.lookup "b").isSome = false ∧ (s.get 9 "a").2 = some [1] ∧
      (s.get 9 "a").2 = valueAt (replay (issued past)) "a" 9 := by
  obtain ⟨past, s, run, check⟩ := Run.of_ops 4
    [(1, .set "a" [1] 0), (2, .set "b" [2] 0), (3, .get "a"), (4, .set "c" [3] 0)]
    (fun past s => decide (Clocked past ∧ (∀ x ∈ past, x.2.1 ≤ 9) ∧
      valueAt (replay (issued past)) "a" 9 = some [1] ∧
      Recency.demand (Recency.since "a" (footprints past)) ≤ 4 ∧
      (s.entries.lookup "b").isSome = false ∧ (s.get 9 "a").2 = some [1])) (by decide +kernel)
  obtain ⟨clock, now, has, fits, gone, got⟩ := of_decide_eq_true check
  have small : ∀ v, valueAt (replay (issued past)) "a" 9 = some v →
      (0 : Int) < 4 → entrySize "a" v ≤ 4 := by
    intro v same _
    obtain rfl := Option.some.inj (has.symm.trans same)
    decide
  exact ⟨past, s, run, gone, got, (working_set_stays run clock now small fun _ => fits).1⟩

end DistributedCache.Cache
