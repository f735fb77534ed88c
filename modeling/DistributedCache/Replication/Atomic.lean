import DistributedCache.Replication.Acknowledged

/-!
What is left of a write that fails while nothing else runs. `WriteSet` undoes itself by
deleting the key, whatever was there before. `WriteDelete` puts the value of the primary
back where the deletion was acknowledged, without the expiry it had and whether or not
the node had it, and leaves alone the nodes whose acknowledgement was lost.
-/
namespace DistributedCache.Replication

open Transition

variable {w : Setup} {now : Int} {s u v : Sys} {a : Action} {k node : String} {c : Nat}
  {call call' : Call} {p p' : Proc} {past : List (Sys × Int × Action)}

/-- A failed `WriteSet` leaves nothing under the key at its own node and where the
acknowledged value has been taken back. -/
theorem Single.gone {value : List UInt8} {ttl : Int}
    (h : Single w u node (.set k value ttl) (Wrote w node k value) call past s)
    (primary : w.isPrimary node k = true) (failed : call.Failed) {nodes : List String}
    (undone : ∀ i ∈ nodes, (i, .replDelete k) ∈ served u.calls.length past) (i : String)
    (mem : i ∈ node :: nodes) : (s.procs i).slot k = none := by
  have takesBack : call.takesBack = .replDelete k := by rw [Call.takesBack, h.doing]
  cases mem with
  | head => exact h.own.lost primary failed
  | tail _ mem =>
      have left := h.traced.taken i (takesBack ▸ undone i mem)
      rwa [takesBack] at left

/-- Let a `WriteSet` at the primary fail, with nothing else running and what it takes back
delivered. The primary and the nodes that had acknowledged have what they had before
exactly if none of them had anything under the key. -/
theorem failed_write_atomic_iff {w : Setup} (ring : w.ring.Built)
    {past₀ past : List (Sys × Int × Action)} {u v s : Sys} {now : Int} {node key : String}
    {value : List UInt8} {ttl : Int} {err : Error} (before : Run w past₀ u) (idle : u.Idle)
    (primary : w.isPrimary node key = true)
    (starts : exec w u (now, .start node (.set key value ttl)) = .ok v)
    (run : RunFrom w v past s) (lone : Meets (Lone key) past)
    (failed : s.Returned u.calls.length node (.set key value ttl) (.error err))
    (undone : ∀ i ∈ (answers u.calls.length past).map Prod.fst,
      (i, .replDelete key) ∈ served u.calls.length past) :
    (∀ i ∈ node :: (answers u.calls.length past).map Prod.fst,
        (s.procs i).slot key = (u.procs i).slot key) ↔
      ∀ i ∈ node :: (answers u.calls.length past).map Prod.fst, (u.procs i).slot key = none := by
  obtain ⟨call, single⟩ := Single.of_set before ring.sound idle starts run lone
  obtain ⟨call', found, _, _, done⟩ := failed
  obtain rfl := Option.some.inj (single.found.symm.trans found)
  refine forall₂_congr fun i mem => ?_
  rw [single.gone primary ⟨err, done⟩ undone i mem, eq_comm]

/-- All three nodes have to acknowledge. -/
def strict : Setup :=
  ⟨{ defaultConfig with writeQuorum := 3 }, sampleRing⟩

/-- Call 0 at `a` is acknowledged by `b`, which has it taken back as `c` cannot be
reached. -/
def halfway (req back : Request) (acked took : Response) : List (Int × Action) :=
  [.advance 0, .advance 0, .deliver (.request 0 "b" req), .deliver (.response 0 "b" req acked),
    .advance 0, .fail 0 "c" req, .advance 0, .advance 0, .deliver (.request 0 "b" back),
    .deliver (.response 0 "b" back took), .advance 0].map fun a => (0, a)

/-- No node has anything under the key. -/
theorem failed_write_atomic_iff_absent : ∃ (past : List (Sys × Int × Action)) (s : Sys),
    s.Returned 0 "a" (.set "k" [1] 0) (.error (.quorumNotMet 1 2)) ∧
      ∀ i ∈ "a" :: (answers 0 past).map Prod.fst,
        (s.procs i).slot "k" = ((Sys.empty fun _ => 0).procs i).slot "k" := by
  obtain ⟨past, s, run, seen⟩ := RunFrom.of_steps strict
    ((Sys.empty fun _ => 0).started strict 0 "a" (.set "k" [1] 0))
    (halfway (.replSet "k" [1] 0) (.replDelete "k") .ok .ok)
    (fun past s => decide (Meets (Lone "k") past ∧
      s.Returned 0 "a" (.set "k" [1] 0) (.error (.quorumNotMet 1 2)) ∧
      ∀ i ∈ (answers 0 past).map Prod.fst,
        (i, Request.replDelete "k") ∈ served 0 past)) (by decide)
  obtain ⟨lone, failed, undone⟩ := of_decide_eq_true seen
  have initial := Sys.empty_initial fun _ => 0
  exact ⟨past, s, failed, (failed_write_atomic_iff (w := strict) sampleRing_built (.start initial)
    initial.idle (by decide) rfl run lone failed undone).mpr fun _ _ => rfl⟩

/-- All nodes have a value. The failed call takes it from `a` and from `b`. -/
theorem failed_write_not_atomic : ∃ (past : List (Sys × Int × Action)) (u v s : Sys),
    u.Initial ∧ strict.cfg.validate = none ∧ strict.ring.Built ∧
      strict.isPrimary "a" "k" = true ∧
      exec strict u (0, .start "a" (.set "k" [1] 0)) = .ok v ∧ RunFrom strict v past s ∧
      Meets (Lone "k") past ∧ s.Returned 0 "a" (.set "k" [1] 0) (.error (.quorumNotMet 1 2)) ∧
      (answers 0 past).map Prod.fst = ["b"] ∧ ("b", .replDelete "k") ∈ served 0 past ∧
      (∀ i, (u.procs i).slot "k" = some ([9], 0)) ∧
      (s.procs "a").slot "k" = none ∧ (s.procs "b").slot "k" = none := by
  obtain ⟨past, s, run, seen⟩ := RunFrom.of_steps strict
    ((Sys.holding (fun _ => 0) fun _ => some ([9], 0)).started strict 0 "a" (.set "k" [1] 0))
    (halfway (.replSet "k" [1] 0) (.replDelete "k") .ok .ok)
    (fun past s => decide (Meets (Lone "k") past ∧
      s.Returned 0 "a" (.set "k" [1] 0) (.error (.quorumNotMet 1 2)) ∧
      (answers 0 past).map Prod.fst = ["b"] ∧ ("b", .replDelete "k") ∈ served 0 past ∧
      (s.procs "a").slot "k" = none ∧ (s.procs "b").slot "k" = none)) (by decide)
  obtain ⟨lone, failed, acked, undone, atA, atB⟩ := of_decide_eq_true seen
  exact ⟨past, _, _, s, Sys.holding_initial _ _, by decide, sampleRing_built, by decide, rfl, run,
    lone, failed, acked, undone,
    fun _ => Proc.slot_set (p := ⟨Cache.newStore 0, ∅⟩) (by decide), atA, atB⟩

/-- What a deletion is known to have done at its own node, which had `slot₀`. -/
structure Spared (existing : List UInt8) (slot₀ : Option (List UInt8 × Int)) (call : Call)
    (slot : Option (List UInt8 × Int)) : Prop where
  existing : call.existing = existing
  slot : (∀ ok, call.phase ≠ .returned (.deleted ok)) → slot = slot₀

theorem Started.spared {existing : List UInt8} (h : Started w now p node (.delete k) p' call)
    (sound : p.store.Sound) (primary : w.isPrimary node k = true)
    (has : (p.store.get now k).2 = some existing) :
    Spared existing (p.slot k) call (p'.slot k) := by
  cases h with
  | refused why => exact (Setup.not_refused why primary).elim
  | lookupFailed failed =>
      exact absurd failed (Setup.replicaSet_ne_error (Setup.mem_owners_of_isPrimary primary) _)
  | deleteMissing _ missing => cases missing.symm.trans has
  | deleteAlone _ present | delete _ present =>
      obtain rfl := Option.some.inj (present.symm.trans has)
      exact ⟨rfl, fun _ => Proc.slot_get sound present⟩

theorem Call.Moves.spared {out : List (String × Request)} {existing : List UInt8}
    {slot₀ : Option (List UInt8 × Int)} (op : call.op = .delete k)
    (m : call.Moves w now p c a p' call' out) (h : Spared existing slot₀ call (p.slot k)) :
    Spared existing slot₀ call' (p'.slot k) := by
  refine ⟨m.same.existing.trans h.existing, ?_⟩
  cases m with
  | skip phase | contact phase | undo phase =>
      exact fun _ => h.slot (by simp [phase])
  | short _ phase | undone _ phase => exact fun _ => h.slot (by simp [phase])
  | deleted => exact fun kept => absurd rfl (kept _)
  | answer | refuse | settle => exact h.slot
  | stored set | undoneSet set | cancelSet set => cases op.symm.trans set
  | answered read | exhausted read | cancelRead read | fetched read | getLocal read =>
      cases op.symm.trans read

/-- What `WriteDelete` puts back at a node: a value without expiry, if it fits. -/
def Proc.restored (p : Proc) (key : String) (existing : List UInt8) : Option (List UInt8 × Int) :=
  if p.store.Fits key existing then some (existing, 0) else none

/-- What the nodes have after a deletion that has failed. -/
theorem Single.spared {existing : List UInt8} {slot₀ : Option (List UInt8 × Int)}
    (h : Single w u node (.delete k) (Spared existing slot₀) call past s)
    (undone : ∀ r ∈ call.results, (r.1, .replSet k existing 0) ∈ served u.calls.length past) :
    (∀ r ∈ call.results, (s.procs r.1).slot k = (u.procs r.1).restored k existing) ∧
    (∀ i, i ∉ call.results.map Prod.fst → (i, .replDelete k) ∈ served u.calls.length past →
      (s.procs i).slot k = none) ∧
    ∀ i ≠ node, i ∉ call.results.map Prod.fst → (i, .replDelete k) ∉ served u.calls.length past →
      (s.procs i).slot k = (u.procs i).slot k := by
  have request : call.request = .replDelete k := by rw [Call.request, h.doing]
  have takesBack : call.takesBack = .replSet k existing 0 := by
    rw [Call.takesBack, h.doing, ← h.own.existing]
  have untaken {i : String} (silent : i ∉ call.results.map Prod.fst) :
      (i, call.takesBack) ∉ served u.calls.length past := fun taken =>
    silent (h.ledger.taken taken).1
  refine ⟨fun r mem => ?_, fun i silent asked => ?_, fun i other silent unasked => ?_⟩
  · have left := h.traced.taken r.1 (takesBack ▸ undone r mem)
    rw [takesBack] at left
    have fits : (s.procs r.1).store.Fits k existing ↔ (u.procs r.1).store.Fits k existing :=
      Cache.Store.fits_congr (h.traced.limits r.1)
    rw [Request.Leaves, if_congr fits rfl rfl] at left
    rw [Proc.restored]
    split
    · rename_i room
      obtain ⟨expiry, slot, forever⟩ := (if_pos room).mp left
      rw [slot, forever (Int.le_refl 0)]
    · rename_i large
      exact (if_neg large).mp left
  · have left := h.traced.given i (untaken silent) (request ▸ asked)
    rwa [request] at left
  · have kept := h.traced.kept i (h.here ▸ other) (untaken silent) (request ▸ unasked)
    rwa [h.doing] at kept

/-- Let a `WriteDelete` at the primary fail for want of acknowledgements, with nothing else
running and what it puts back delivered. All nodes have what they had before exactly if the
nodes that had acknowledged had what is put back there, and those that have deleted the key
without an acknowledgement that arrived had nothing. -/
theorem failed_delete_atomic_iff {w : Setup} (ring : w.ring.Built)
    {past₀ past : List (Sys × Int × Action)} {u v s : Sys} {now : Int} {node key : String}
    {existing : List UInt8} {got : Nat} {need : Int} (before : Run w past₀ u) (idle : u.Idle)
    (primary : w.isPrimary node key = true)
    (has : ((u.procs node).store.get now key).2 = some existing)
    (starts : exec w u (now, .start node (.delete key)) = .ok v)
    (run : RunFrom w v past s) (lone : Meets (Lone key) past)
    (failed : s.Returned u.calls.length node (.delete key) (.error (.quorumNotMet got need)))
    (undone : ∀ r ∈ answers u.calls.length past,
      (r.1, .replSet key existing 0) ∈ served u.calls.length past) :
    (∀ i, (s.procs i).slot key = (u.procs i).slot key) ↔
      (∀ r ∈ answers u.calls.length past,
        (u.procs r.1).slot key = (u.procs r.1).restored key existing) ∧
      ∀ i, i ∉ (answers u.calls.length past).map Prod.fst →
        (i, .replDelete key) ∈ served u.calls.length past → (u.procs i).slot key = none := by
  obtain ⟨call, single⟩ := Single.run (P := Spared existing ((u.procs node).slot key))
    before.regular ring.sound idle (by nofun) starts
    (fun h => h.spared (before.regular.sound node) primary has)
    (fun _ op m h => m.spared op h) run lone
  obtain ⟨call', found, _, _, done⟩ := failed
  obtain rfl := Option.some.inj (single.found.symm.trans found)
  rw [← results_after_start starts run found (by simp [single.doing])] at undone ⊢
  obtain ⟨back, lost, kept⟩ := single.spared undone
  have own : (s.procs node).slot key = (u.procs node).slot key :=
    single.own.slot (by simp [done])
  constructor
  · intro same
    exact ⟨fun r mem => (same r.1).symm.trans (back r mem),
      fun i silent asked => (same i).symm.trans (lost i silent asked)⟩
  · rintro ⟨restored, absent⟩ i
    by_cases here : i = node
    · rw [here]
      exact own
    · by_cases acked : i ∈ call.results.map Prod.fst
      · obtain ⟨r, mem, rfl⟩ := List.mem_map.mp acked
        exact (back r mem).trans (restored r mem).symm
      · by_cases asked : (i, .replDelete key) ∈ served u.calls.length past
        · exact (lost i acked asked).trans (absent i acked asked).symm
        · exact kept i here acked asked

/-- All nodes have the same value without expiry. -/
theorem failed_delete_atomic_iff_equal : ∃ s : Sys,
    s.Returned 0 "a" (.delete "k") (.error (.quorumNotMet 1 2)) ∧
      ∀ i, (s.procs i).slot "k" =
        ((Sys.holding (fun _ => 0) fun _ => some ([9], 0)).procs i).slot "k" := by
  obtain ⟨past, s, run, seen⟩ := RunFrom.of_steps strict
    ((Sys.holding (fun _ => 0) fun _ => some ([9], 0)).started strict 0 "a" (.delete "k"))
    (halfway (.replDelete "k") (.replSet "k" [9] 0) .ok .ok)
    (fun past s => decide (Meets (Lone "k") past ∧
      s.Returned 0 "a" (.delete "k") (.error (.quorumNotMet 1 2)) ∧
      answers 0 past = [("b", .ok)] ∧
      served 0 past = [("b", .replSet "k" [9] 0), ("b", .replDelete "k")])) (by decide)
  obtain ⟨lone, failed, acked, asked⟩ := of_decide_eq_true seen
  have initial := Sys.holding_initial (fun _ => 0) fun _ => some ([9], 0)
  have has : (((Sys.holding (fun _ => 0) fun _ => some ([9], 0)).procs "a").store.get 0 "k").2 =
      some [9] := by decide
  refine ⟨s, failed, (failed_delete_atomic_iff (w := strict) sampleRing_built
    (.start initial) initial.idle (by decide) has rfl run lone failed ?_).mpr ⟨?_, ?_⟩⟩
  · change ∀ r ∈ answers 0 past, (r.1, .replSet "k" [9] 0) ∈ served 0 past
    rw [acked, asked]
    decide
  · change ∀ r ∈ answers 0 past, _
    rw [acked]
    decide
  · change ∀ i, i ∉ (answers 0 past).map Prod.fst → (i, .replDelete "k") ∈ served 0 past → _
    rw [acked, asked]
    intro i silent gone
    have only : i = "b" := by simpa using gone
    exact absurd (List.mem_singleton.mpr only) silent

/-- The node `b` has no value. It gets one from the deletion that fails. -/
theorem failed_delete_not_atomic : ∃ (past : List (Sys × Int × Action)) (u v s : Sys),
    u.Initial ∧ strict.cfg.validate = none ∧ strict.ring.Built ∧
      strict.isPrimary "a" "k" = true ∧ exec strict u (0, .start "a" (.delete "k")) = .ok v ∧
      RunFrom strict v past s ∧ Meets (Lone "k") past ∧
      s.Returned 0 "a" (.delete "k") (.error (.quorumNotMet 1 2)) ∧
      (answers 0 past).map Prod.fst = ["b"] ∧ ("b", .replSet "k" [9] 0) ∈ served 0 past ∧
      (u.procs "b").slot "k" = none ∧ (s.procs "b").slot "k" = some ([9], 0) := by
  obtain ⟨past, s, run, seen⟩ := RunFrom.of_steps strict
    ((Sys.holding (fun _ => 0) fun i => if i = "b" then none else some ([9], 0)).started strict 0
      "a" (.delete "k"))
    (halfway (.replDelete "k") (.replSet "k" [9] 0) .notFound .ok)
    (fun past s => decide (Meets (Lone "k") past ∧
      s.Returned 0 "a" (.delete "k") (.error (.quorumNotMet 1 2)) ∧
      (answers 0 past).map Prod.fst = ["b"] ∧ ("b", .replSet "k" [9] 0) ∈ served 0 past ∧
      (s.procs "b").slot "k" = some ([9], 0))) (by decide)
  obtain ⟨lone, failed, acked, undone, atB⟩ := of_decide_eq_true seen
  exact ⟨past, _, _, s, Sys.holding_initial _ _, by decide, sampleRing_built, by decide, rfl, run,
    lone, failed, acked, undone, by decide, atB⟩

end DistributedCache.Replication
