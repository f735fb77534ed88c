import DistributedCache.Cache.Representation

/-!
What a store is for: a map whose entries may have a time to live. The map is read
off the history of the operations. A store without a limit answers as the map
does; a store with a limit may have lost an entry but never answers otherwise.

The clock does not go back, so an entry that an operation has found expired and
removed stays expired.
-/
namespace DistributedCache.Cache

/-- An operation with its clock reading and its result. -/
structure Record where
  time : Int
  op : Op
  result : Result
  deriving DecidableEq, Repr

def record (x : Store × Int × Op) : Record :=
  ⟨x.2.1, x.2.2, (x.1.apply x.2.1 x.2.2).2⟩

/-- What a run has done, most recent first. -/
def history (past : List (Store × Int × Op)) : List Record :=
  past.map record

/-- The operation is a `Set` or a `Delete` on the key. -/
def Op.writes (k : String) : Op → Bool
  | .set key _ _ => key = k
  | .delete key => key = k
  | .get _ | .cleanupExpired => false

/-- The latest `Set` or `Delete` on the key. -/
def latest (h : List Record) (k : String) : Option Record :=
  h.find? fun r => r.op.writes k

/-- The latest `Set` or `Delete` on the key was a successful `Set` of `v` that has not
expired at time `t`. -/
def Holds (h : List Record) (k : String) (v : List UInt8) (t : Int) : Prop :=
  ∃ s ttl, latest h k = some ⟨s, .set k v ttl, .set none⟩ ∧ (ttl ≤ 0 ∨ t < s + ttl)

/-- What a history leaves for the key at time `t`: the value of the latest write of the key, if
that is a `Set` that has succeeded and not expired. -/
def valueAt (h : List Record) (k : String) (t : Int) : Option (List UInt8) :=
  match latest h k with
  | some ⟨s, .set _ v ttl, .set none⟩ => if ttl ≤ 0 ∨ t < s + ttl then some v else none
  | _ => none

/-- How the map answers after a history. -/
def respond (h : List Record) (t : Int) : Op → Result
  | .set _ _ _ => .set none
  | .get key => .get (valueAt h key t)
  | .delete key => .delete (valueAt h key t).isSome
  | .cleanupExpired => .cleaned

/-- The records of the operations when the map answers them, most recent first. -/
def replay : List (Int × Op) → List Record
  | [] => []
  | (t, op) :: earlier => ⟨t, op, respond (replay earlier) t op⟩ :: replay earlier

/-- Clock readings never go back, and all are later than the zero time. -/
def Clocked (past : List (Store × Int × Op)) : Prop :=
  past.Pairwise (fun later earlier => earlier.2.1 ≤ later.2.1) ∧ ∀ x ∈ past, 0 < x.2.1

instance (past : List (Store × Int × Op)) : Decidable (Clocked past) :=
  inferInstanceAs (Decidable (_ ∧ _))

/-- The operations of a run with their results, apart from `cleanupExpired`. -/
def calls (past : List (Store × Int × Op)) : List Record :=
  (history past).filter fun r => r.op ≠ .cleanupExpired

/-- The same without the results. -/
def issued (past : List (Store × Int × Op)) : List (Int × Op) :=
  (calls past).map fun r => (r.time, r.op)

theorem calls_cons (s : Store) (now : Int) (past : List (Store × Int × Op)) {op : Op}
    (call : op ≠ .cleanupExpired) :
    calls ((s, now, op) :: past) = record (s, now, op) :: calls past := by
  simp [calls, history, record, call]

theorem latest_cons_of_writes {r : Record} {h : List Record} {k : String}
    (writes : r.op.writes k = true) : latest (r :: h) k = some r := by
  simp [latest, writes]

theorem latest_cons {r : Record} {h : List Record} {k : String}
    (other : r.op.writes k = false) : latest (r :: h) k = latest h k := by
  simp [latest, other]

namespace Store

variable {s : Store} {e : Element} {k key : String} {value : List UInt8} {now ttl : Int}

section Lookups

theorem lookup_removeElement (s : Store) (e : Element) (k : String) :
    (s.removeElement e).entries.lookup k =
      if k = e.value.key then none else s.entries.lookup k := by
  change (s.entries.erase e.value.key).lookup k = _
  split
  · rename_i same
    rw [same, AList.lookup_erase]
  · rename_i other
    rw [AList.lookup_erase_ne other]

theorem lookup_dropKey_of_ne (h : s.Sound) (other : k ≠ key) :
    (s.dropKey key).entries.lookup k = s.entries.lookup k := by
  unfold dropKey
  split
  · rename_i elem found
    rw [lookup_removeElement, h.key_eq found, if_neg other]
  · rfl

theorem evict_unlimited (limit : s.maxBytes ≤ 0) (needed : Int) (l : List Element) :
    evict needed l s = s := by
  cases l with
  | nil => rfl
  | cons oldest rest =>
      rw [evict, if_neg]
      omega

/-- A successful `Set` stores the value. -/
theorem lookup_set_self (ok : (s.set now key value ttl).2 = none) :
    ∃ e, (s.set now key value ttl).1.entries.lookup key = some e ∧
      e.value = ⟨key, value, if ttl > 0 then now + ttl else 0⟩ := by
  unfold set at ok ⊢
  dsimp only at ok ⊢
  split at ok
  · exact absurd ok (by simp)
  · rename_i fits
    rw [if_neg fits]
    split at ok
    · exact absurd ok (by simp)
    · rename_i room
      rw [if_neg room]
      exact ⟨_, AList.lookup_insert _, rfl⟩

/-- A failed one leaves nothing under the key. -/
theorem lookup_set_failed (h : s.Sound) (failed : (s.set now key value ttl).2 ≠ none) :
    (s.set now key value ttl).1.entries.lookup key = none := by
  have dropped := lookup_dropKey s h key
  unfold set at failed ⊢
  dsimp only at failed ⊢
  split
  · exact dropped
  · rename_i fits
    rw [if_neg fits] at failed
    split
    · rw [Option.eq_none_iff_forall_ne_some]
      intro e found
      exact absurd (of_lookup_evict found) (by simp [dropped])
    · rename_i room
      rw [if_neg room] at failed
      exact absurd rfl failed

/-- `Set` stores nothing under other keys, but may evict them. -/
theorem of_lookup_set (h : s.Sound) (other : k ≠ key)
    (found : (s.set now key value ttl).1.entries.lookup k = some e) :
    s.entries.lookup k = some e := by
  rw [← lookup_dropKey_of_ne h other]
  unfold set at found
  dsimp only at found
  split at found
  · exact found
  · split at found
    · exact of_lookup_evict found
    · exact of_lookup_evict ((AList.lookup_insert_ne other).symm.trans found)

theorem set_unlimited (h : s.Sound) (limit : s.maxBytes ≤ 0) (now : Int) (key : String)
    (value : List UInt8) (ttl : Int) :
    (s.set now key value ttl).2 = none ∧ ∀ k ≠ key,
      (s.set now key value ttl).1.entries.lookup k = s.entries.lookup k := by
  have limit' : (s.dropKey key).maxBytes ≤ 0 := by rwa [maxBytes_dropKey]
  have roomy : (s.dropKey key).ensureCapacity (entrySize key value) = s.dropKey key :=
    evict_unlimited limit' _ _
  unfold set
  dsimp only
  rw [if_neg (by omega), roomy, if_neg (by omega)]
  refine ⟨rfl, fun k other => ?_⟩
  rw [← lookup_dropKey_of_ne h other]
  exact AList.lookup_insert_ne other

/-- What `Get` leaves under a key: the entry unless it had expired. -/
theorem lookup_get (h : s.Sound) (now : Int) (key k : String) :
    (s.get now key).1.entries.lookup k = s.entries.lookup k ∨
      (k = key ∧ (s.get now key).1.entries.lookup k = none ∧
        ∃ e, s.entries.lookup k = some e ∧ e.value.isExpired now = true) := by
  unfold get
  split
  · exact .inl rfl
  · rename_i elem found
    split
    · rename_i old
      rw [lookup_removeElement, h.key_eq found]
      by_cases same : k = key
      · subst same
        exact .inr ⟨rfl, if_pos rfl, elem, found, old⟩
      · exact .inl (if_neg same)
    · exact .inl rfl

theorem live_earlier {item : Entry} {t : Int} (le : t ≤ now) (live : item.isExpired now = false) :
    item.isExpired t = false := by
  unfold Entry.isExpired at live ⊢
  split
  · rfl
  · rename_i limited
    rw [if_neg limited] at live
    simp only [decide_eq_false_iff_not, Decidable.not_not] at live ⊢
    omega

/-- What `Get` does not find is not there afterwards. -/
theorem lookup_get_missing (h : s.Sound) (missing : (s.get now key).2 = none) :
    (s.get now key).1.entries.lookup key = none := by
  unfold get at missing ⊢
  split
  · rename_i absent
    exact absent
  · rename_i elem found
    rw [found] at missing
    dsimp only at missing
    split
    · rw [lookup_removeElement, h.key_eq found, if_pos rfl]
    · rename_i live
      rw [if_neg live] at missing
      cases missing

theorem get_result (s : Store) (now : Int) (key : String) (v : List UInt8) :
    (s.get now key).2 = some v ↔
      ∃ e, s.entries.lookup key = some e ∧ e.value.isExpired now = false ∧ e.value.value = v := by
  unfold get
  split
  · rename_i absent
    simp [absent]
  · rename_i elem found
    split
    · rename_i old
      simp [found, old]
    · rename_i live
      simp [found, Bool.not_eq_true _ ▸ live]

theorem lookup_delete (h : s.Sound) (now : Int) (key k : String) :
    (s.delete now key).1.entries.lookup k = if k = key then none else s.entries.lookup k := by
  unfold delete
  split
  · rename_i absent
    split
    · rename_i same
      rw [same, absent]
    · rfl
  · rename_i elem found
    rw [← h.key_eq found]
    split <;> exact lookup_removeElement s elem k

theorem delete_result (s : Store) (now : Int) (key : String) :
    (s.delete now key).2 = true ↔
      ∃ e, s.entries.lookup key = some e ∧ e.value.isExpired now = false := by
  unfold delete
  split
  · rename_i absent
    simp [absent]
  · rename_i elem found
    split
    · rename_i old
      simp [found, old]
    · rename_i live
      simp [found, Bool.not_eq_true _ ▸ live]

theorem lookup_removeAll (l : List Element) (s : Store) (k : String) :
    (l.foldl removeElement s).entries.lookup k =
      if ∃ e ∈ l, e.value.key = k then none else s.entries.lookup k := by
  induction l generalizing s with
  | nil => simp
  | cons x rest ih =>
      rw [List.foldl_cons, ih, lookup_removeElement]
      by_cases later : ∃ e ∈ rest, e.value.key = k
      · obtain ⟨e, he, key⟩ := later
        rw [if_pos ⟨e, he, key⟩, if_pos ⟨e, List.mem_cons_of_mem _ he, key⟩]
      · rw [if_neg later]
        by_cases here : k = x.value.key
        · rw [if_pos here, if_pos ⟨x, List.mem_cons_self, here.symm⟩]
        · rw [if_neg here, if_neg]
          rintro ⟨e, he, key⟩
          rcases List.mem_cons.mp he with rfl | he
          · exact here key.symm
          · exact later ⟨e, he, key⟩

/-- `cleanupExpired` removes what has expired and nothing else. -/
theorem lookup_cleanupExpired (h : s.Sound) (now : Int) (k : String) :
    (s.cleanupExpired now).entries.lookup k = s.entries.lookup k ∨
      ((s.cleanupExpired now).entries.lookup k = none ∧
        ∃ e, s.entries.lookup k = some e ∧ e.value.isExpired now = true) := by
  rw [cleanupExpired, lookup_removeAll]
  split
  · rename_i gone
    obtain ⟨e, he, key⟩ := gone
    obtain ⟨⟨k', found⟩, old⟩ := mem_expired.mp he
    obtain rfl : k' = k := (h.key_eq found).symm.trans key
    exact .inr ⟨rfl, e, found, old⟩
  · exact .inl rfl

/-- What an operation that does not write a key leaves under it. -/
theorem lookup_apply_of_not_writes (h : s.Sound) (limit : s.maxBytes ≤ 0) {op : Op}
    (other : op.writes k = false) :
    (s.apply now op).1.entries.lookup k = s.entries.lookup k ∨
      ∃ e, s.entries.lookup k = some e ∧ e.value.isExpired now = true := by
  cases op with
  | set key value ttl =>
      refine .inl ((set_unlimited h limit now key value ttl).2 k ?_)
      simpa [Op.writes, eq_comm] using other
  | get key => exact (lookup_get h now key k).imp_right fun ⟨_, _, old⟩ => old
  | delete key =>
      refine .inl ((lookup_delete h now key k).trans (if_neg ?_))
      simpa [Op.writes, eq_comm] using other
  | cleanupExpired => exact (lookup_cleanupExpired h now k).imp_right fun ⟨_, old⟩ => old

/-- It never stores anything there, whatever the limit. -/
theorem of_lookup_apply (h : s.Sound) {op : Op} (other : op.writes k = false)
    (found : (s.apply now op).1.entries.lookup k = some e) : s.entries.lookup k = some e := by
  cases op with
  | set key value ttl => exact of_lookup_set h (by simpa [Op.writes, eq_comm] using other) found
  | get key =>
      rcases lookup_get h now key k with same | ⟨_, gone, _⟩
      · exact same.symm.trans found
      · exact absurd (gone.symm.trans found) (by simp)
  | delete key =>
      refine ((lookup_delete h now key k).trans (if_neg ?_)).symm.trans found
      simpa [Op.writes, eq_comm] using other
  | cleanupExpired =>
      rcases lookup_cleanupExpired h now k with same | ⟨gone, _⟩
      · exact same.symm.trans found
      · exact absurd (gone.symm.trans found) (by simp)

/-- An operation that writes a key leaves an entry there only as a successful `Set`. -/
theorem lookup_apply_of_writes (h : s.Sound) {op : Op} (writes : op.writes k = true)
    (found : (s.apply now op).1.entries.lookup k = some e) :
    ∃ ttl, op = .set k e.value.value ttl ∧ (s.apply now op).2 = .set none ∧
      e.value.expiresAt = if ttl > 0 then now + ttl else 0 := by
  cases op with
  | get key => exact absurd writes (by simp [Op.writes])
  | cleanupExpired => exact absurd writes (by simp [Op.writes])
  | delete key =>
      obtain rfl : key = k := of_decide_eq_true writes
      have gone := (lookup_delete h now key key).trans (if_pos rfl)
      exact absurd (gone.symm.trans found) (by simp)
  | set key value ttl =>
      obtain rfl : key = k := of_decide_eq_true writes
      cases result : (s.set now key value ttl).2 with
      | some err =>
          have failed : (s.set now key value ttl).2 ≠ none := by simp [result]
          exact absurd ((lookup_set_failed h failed).symm.trans found) (by simp)
      | none =>
          obtain ⟨x, stored, hx⟩ := lookup_set_self result
          obtain rfl : x = e := Option.some.inj (stored.symm.trans found)
          rw [hx]
          exact ⟨ttl, rfl, congrArg Result.set result, rfl⟩

end Lookups

end Store

section Map

variable {h : List Record} {k : String} {v : List UInt8} {t : Int}

theorem holds_iff {s ttl : Int} {v' : List UInt8}
    (last : latest h k = some ⟨s, .set k v ttl, .set none⟩) :
    Holds h k v' t ↔ v = v' ∧ (ttl ≤ 0 ∨ t < s + ttl) := by
  unfold Holds
  rw [last]
  constructor
  · rintro ⟨s', ttl', same, live⟩
    simp only [Option.some_inj, Record.mk.injEq, Op.set.injEq, true_and, and_true] at same
    obtain ⟨rfl, rfl, rfl⟩ := same
    exact ⟨rfl, live⟩
  · rintro ⟨rfl, live⟩
    exact ⟨s, ttl, rfl, live⟩

/-- What the map holds it has held since. -/
theorem Holds.earlier {now : Int} (holds : Holds h k v t) (le : now ≤ t) : Holds h k v now := by
  obtain ⟨s, ttl, last, live⟩ := holds
  exact ⟨s, ttl, last, live.imp_right fun before => by omega⟩

theorem valueAt_eq_some : valueAt h k t = some v ↔ Holds h k v t := by
  have key : ∀ r, latest h k = some r → r.op.writes k = true := fun r hr =>
    List.find?_some (p := fun r : Record => r.op.writes k) hr
  unfold valueAt
  split
  · rename_i s key' v' ttl found
    obtain rfl : key' = k := of_decide_eq_true (key _ found)
    rw [holds_iff found]
    split
    · rename_i live
      simp [live]
    · rename_i dead
      simp [dead]
  · rename_i none
    refine ⟨fun got => absurd got (by simp), ?_⟩
    rintro ⟨s, ttl, found, _⟩
    exact absurd found (none s k v ttl)

/-- `cleanupExpired` does not count for the map. -/
theorem latest_calls (past : List (Store × Int × Op)) (k : String) :
    latest (calls past) k = latest (history past) k := by
  rw [calls, latest, latest, List.find?_filter]
  congr
  funext r
  cases r.op <;> simp [Op.writes]

theorem valueAt_calls (past : List (Store × Int × Op)) (k : String) (t : Int) :
    valueAt (calls past) k t = valueAt (history past) k t := by
  rw [valueAt, latest_calls, valueAt]

theorem respond_calls (past : List (Store × Int × Op)) (t : Int) (op : Op) :
    respond (calls past) t op = respond (history past) t op := by
  cases op <;> simp only [respond, valueAt_calls]

end Map

/-- Every entry of the store is the one the latest `Set` or `Delete` on its key left. -/
structure Backed (h : List Record) (s : Store) : Prop where
  sound : s.Sound
  times : ∀ r ∈ h, 0 < r.time
  latest : ∀ k e, s.entries.lookup k = some e → ∃ t ttl,
    latest h k = some ⟨t, .set k e.value.value ttl, .set none⟩ ∧
      e.value.expiresAt = if ttl > 0 then t + ttl else 0

/-- What the map holds at a time not before the history is still in the store. -/
def Kept (h : List Record) (s : Store) : Prop :=
  ∀ k v t, (∀ r ∈ h, r.time ≤ t) → Holds h k v t → ∃ e, s.entries.lookup k = some e

namespace Backed

variable {h : List Record} {s : Store} {e : Element} {k : String} {t : Int}

/-- An entry has expired for the store when it has for the map. -/
theorem live_iff (b : Backed h s) (found : s.entries.lookup k = some e) {v : List UInt8} :
    Holds h k v t ↔ e.value.value = v ∧ e.value.isExpired t = false := by
  obtain ⟨s', ttl, last, expiry⟩ := b.latest k e found
  have positive : 0 < s' := b.times _ (List.mem_of_find?_eq_some last)
  rw [holds_iff last]
  refine and_congr Iff.rfl ?_
  unfold Entry.isExpired
  rw [expiry]
  by_cases pos : 0 < ttl
  · rw [if_pos pos, if_neg (by omega)]
    simp [Int.not_le.mpr pos]
  · rw [if_neg pos, if_pos rfl]
    simp [Int.not_lt.mp pos]

theorem holds_of_get (b : Backed h s) {v : List UInt8} (got : (s.get t k).2 = some v) :
    Holds h k v t := by
  obtain ⟨e, found, live, rfl⟩ := (s.get_result t k v).mp got
  exact (b.live_iff found).mpr ⟨rfl, live⟩

/-- With nothing lost, `Get` returns what the map has. -/
theorem get_iff (b : Backed h s) (kept : Kept h s) (now : ∀ r ∈ h, r.time ≤ t)
    (v : List UInt8) : (s.get t k).2 = some v ↔ Holds h k v t := by
  refine ⟨b.holds_of_get, fun holds => ?_⟩
  obtain ⟨e, found⟩ := kept k v t now holds
  obtain ⟨value, live⟩ := (b.live_iff found).mp holds
  exact (s.get_result t k v).mpr ⟨e, found, live, value⟩

theorem delete_eq_isSome (s : Store) (t : Int) (k : String) :
    (s.delete t k).2 = (s.get t k).2.isSome := by
  rw [Bool.eq_iff_iff, Store.delete_result, Option.isSome_iff_exists]
  constructor
  · rintro ⟨e, found, live⟩
    exact ⟨_, (s.get_result t k _).mpr ⟨e, found, live, rfl⟩⟩
  · rintro ⟨v, got⟩
    obtain ⟨e, found, live, _⟩ := (s.get_result t k v).mp got
    exact ⟨e, found, live⟩

theorem apply (b : Backed h s) {now : Int} (positive : 0 < now) (op : Op) :
    Backed (record (s, now, op) :: h) (s.apply now op).1 where
  sound := b.sound.apply now op
  times := List.forall_mem_cons.mpr ⟨positive, b.times⟩
  latest k e found := by
    cases writes : op.writes k with
    | true =>
        obtain ⟨ttl, rfl, result, expiry⟩ := Store.lookup_apply_of_writes b.sound writes found
        refine ⟨now, ttl, ?_, expiry⟩
        rw [latest_cons_of_writes (r := record (s, now, _)) writes, record, result]
    | false =>
        rw [latest_cons (r := record (s, now, op)) writes]
        exact b.latest k e (Store.of_lookup_apply b.sound writes found)

/-- A store without a limit loses only what has expired, and that stays expired. -/
theorem kept_apply (b : Backed h s) (kept : Kept h s) (limit : s.maxBytes ≤ 0) {now : Int}
    (op : Op) : Kept (record (s, now, op) :: h) (s.apply now op).1 := by
  intro k v t times holds
  obtain ⟨here, times⟩ := List.forall_mem_cons.mp times
  obtain ⟨s', ttl, last, live⟩ := holds
  cases writes : op.writes k with
  | true =>
      rw [latest_cons_of_writes (r := record (s, now, op)) writes] at last
      simp only [record, Option.some_inj, Record.mk.injEq] at last
      obtain ⟨rfl, rfl, result⟩ := last
      obtain ⟨e, stored, _⟩ := Store.lookup_set_self (Result.set.inj result)
      exact ⟨e, stored⟩
  | false =>
      rw [latest_cons (r := record (s, now, op)) writes] at last
      have holds : Holds h k v t := ⟨s', ttl, last, live⟩
      obtain ⟨e, found⟩ := kept k v t times holds
      rcases Store.lookup_apply_of_not_writes b.sound limit writes with same | ⟨x, found, old⟩
      · exact ⟨e, same.trans found⟩
      · -- What had expired at `now` cannot be live at the later `t`.
        obtain ⟨_, live⟩ := (b.live_iff found).mp (holds.earlier here)
        exact absurd (old.symm.trans live) (by simp)

end Backed

theorem Clocked.of_cons {x : Store × Int × Op} {past : List (Store × Int × Op)}
    (clock : Clocked (x :: past)) :
    0 < x.2.1 ∧ (∀ r ∈ history past, r.time ≤ x.2.1) ∧ Clocked past := by
  obtain ⟨order, positive⟩ := clock
  obtain ⟨first, order⟩ := List.pairwise_cons.mp order
  obtain ⟨here, positive⟩ := List.forall_mem_cons.mp positive
  exact ⟨here, List.forall_mem_map.mpr first, order, positive⟩

theorem Run.backed {maxBytes : Int} {past : List (Store × Int × Op)} {s : Store}
    (run : Run maxBytes past s) (clock : Clocked past) :
    s.maxBytes = maxBytes ∧ Backed (history past) s ∧
      (maxBytes ≤ 0 → Kept (history past) s) := by
  induction run with
  | start initial =>
      obtain rfl := initial
      refine ⟨rfl, ⟨Store.sound_newStore maxBytes, by simp [history], ?_⟩, ?_⟩
      · intro k e found
        simp [newStore] at found
      · rintro _ k v t - ⟨s, ttl, last, -⟩
        simp [history, latest] at last
  | @next past s s' a run step ih =>
      obtain ⟨now, op⟩ := a
      obtain ⟨positive, times, clock⟩ := clock.of_cons
      obtain ⟨limit, b, kept⟩ := ih clock
      obtain rfl := Except.ok.inj step
      refine ⟨(s.maxBytes_apply now op).trans limit, b.apply positive op, fun none => ?_⟩
      exact b.kept_apply (kept none) (limit.trans_le none) op

/-- A store without a limit answers every operation as the map does. -/
theorem Backed.respond {h : List Record} {s : Store} {t : Int} (b : Backed h s)
    (kept : Kept h s) (limit : s.maxBytes ≤ 0) (now : ∀ r ∈ h, r.time ≤ t) (op : Op) :
    (s.apply t op).2 = respond h t op := by
  have get : ∀ k, (s.get t k).2 = valueAt h k t := fun k => by
    refine Option.ext fun v => ?_
    rw [b.get_iff kept now v, valueAt_eq_some]
  cases op with
  | set key value ttl =>
      exact congrArg Result.set (Store.set_unlimited b.sound limit t key value ttl).1
  | get key => exact congrArg Result.get (get key)
  | delete key => exact congrArg Result.delete ((delete_eq_isSome s t key).trans (by rw [get]))
  | cleanupExpired => rfl

/-- So the results depend only on the operations other than `cleanupExpired`. -/
theorem Run.calls_eq_replay {maxBytes : Int} {past : List (Store × Int × Op)} {s : Store}
    (run : Run maxBytes past s) (limit : maxBytes ≤ 0) (clock : Clocked past) :
    calls past = replay (issued past) := by
  induction run with
  | start initial => rfl
  | @next past s s' a run step ih =>
      obtain ⟨now, op⟩ := a
      obtain ⟨_, times, clock⟩ := clock.of_cons
      obtain ⟨same, b, kept⟩ := Run.backed run clock
      have earlier := ih clock
      by_cases cleanup : op = .cleanupExpired
      · subst cleanup
        exact earlier
      · have split := calls_cons s now past cleanup
        have answer := b.respond (kept limit) (same.trans_le limit) times op
        rw [issued, split, List.map_cons, ← issued, replay, ← earlier, respond_calls]
        exact congrArg (fun r => ⟨now, op, r⟩ :: calls past) answer

/-- The store is a map with times to live. What `Get` returns is what the latest write of
the key has stored and not yet expired. Without a limit the converse holds as well,
`Delete` reports presence by the same map, and calls of `cleanupExpired` change no result. -/
theorem store_refines_ttl_map {maxBytes : Int} {past : List (Store × Int × Op)} {s : Store}
    (run : Run maxBytes past s) (clock : Clocked past) {t : Int}
    (now : ∀ x ∈ past, x.2.1 ≤ t) :
    (∀ k v, (s.get t k).2 = some v → Holds (history past) k v t) ∧
      (maxBytes = 0 →
        (∀ k v, Holds (history past) k v t → (s.get t k).2 = some v) ∧
        (∀ k, (s.delete t k).2 = true ↔ ∃ v, Holds (history past) k v t) ∧
        ∀ past' s', Run 0 past' s' → Clocked past' → issued past' = issued past →
          calls past' = calls past) := by
  obtain ⟨_, b, kept⟩ := run.backed clock
  refine ⟨fun k v => b.holds_of_get, ?_⟩
  rintro rfl
  have get k v := b.get_iff (k := k) (kept (Int.le_refl 0)) (List.forall_mem_map.mpr now) v
  refine ⟨fun k v => (get k v).mpr, fun k => ?_, fun past' s' run' clock' same => ?_⟩
  · rw [Backed.delete_eq_isSome, Option.isSome_iff_exists]
    exact exists_congr fun v => get k v
  · rw [run.calls_eq_replay (Int.le_refl 0) clock, run'.calls_eq_replay (Int.le_refl 0) clock',
      same]

/-- One entry expires, one is kept and one is deleted. -/
theorem store_refines_ttl_map_expiry : ∃ past s, Run 0 past s ∧ Clocked past ∧
    (∀ x ∈ past, x.2.1 ≤ 9) ∧ Holds (history past) "b" [2] 9 ∧ (s.get 9 "b").2 = some [2] ∧
      ((s.delete 9 "a").2 = true ↔ ∃ v, Holds (history past) "a" v 9) := by
  obtain ⟨past, s, run, check⟩ := Run.of_ops 0
    [(1, .set "a" [1] 5), (2, .set "b" [2] 0), (3, .set "c" [3] 7), (6, .get "a"),
      (7, .delete "c"), (8, .cleanupExpired)]
    (fun past s => decide (Clocked past ∧ (∀ x ∈ past, x.2.1 ≤ 9) ∧ (s.get 9 "b").2 = some [2]))
    (by decide +kernel)
  obtain ⟨clock, now, got⟩ := of_decide_eq_true check
  obtain ⟨back, unlimited⟩ := store_refines_ttl_map run clock now
  exact ⟨past, s, run, clock, now, back _ _ got, got, (unlimited rfl).2.1 "a"⟩

end DistributedCache.Cache
