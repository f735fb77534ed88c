import DistributedCache.Replication.Joining
import DistributedCache.Replication.Lone

/-!
What the success of a `WriteSet` says: with nothing else running, the primary and all
nodes that have acknowledged hold the value. A node acknowledges only what fits into its
store, and what fits there is stored.
-/
namespace DistributedCache.Replication

open Transition

variable {w : Setup} {now : Int} {s s' u v : Sys} {a : Action} {i k node : String} {c : Nat}
  {call call' : Call} {p p' : Proc} {past : List (Sys × Int × Action)} {value : List UInt8}
  {ttl : Int}

/-- What a write is known to have done at its own node. -/
structure Wrote (w : Setup) (node key : String) (value : List UInt8) (call : Call)
    (slot : Option (List UInt8 × Int)) : Prop where
  holds : ¬ call.Failed → w.isPrimary node key = true ∧ slot.map Prod.fst = some value
  lost : w.isPrimary node key = true → call.Failed → slot = none

theorem Started.wrote (h : Started w now p node (.set k value ttl) p' call)
    (sound : p.store.Sound) : Wrote w node k value call (p'.slot k) := by
  cases h with
  | refused why =>
      exact ⟨fun goes => absurd ⟨_, rfl⟩ goes,
        fun primary => (Setup.not_refused why primary).elim⟩
  | lookupFailed failed =>
      refine ⟨fun goes => absurd ⟨_, rfl⟩ goes, fun primary => ?_⟩
      exact absurd failed (Setup.replicaSet_ne_error (Setup.mem_owners_of_isPrimary primary) _)
  | setFailed _ failed =>
      refine ⟨fun goes => absurd ⟨_, rfl⟩ goes, fun _ _ => Proc.slot_set_failed sound ?_⟩
      rw [failed]
      nofun
  | setAlone primary ok | set primary ok =>
      refine ⟨fun _ => ⟨primary, ?_⟩, fun _ => nofun⟩
      rw [Proc.slot_set ok]
      rfl

theorem Call.Moves.wrote {out : List (String × Request)} (sound : p.store.Sound)
    (op : call.op = .set k value ttl) (m : call.Moves w now p c a p' call' out)
    (h : Wrote w node k value call (p.slot k)) : Wrote w node k value call' (p'.slot k) := by
  rcases m.rollback op with ⟨same, iff⟩ | ⟨_, failed, rfl⟩
  · have slot : p'.slot k = p.slot k := Proc.slot_congr (by rw [same])
    rw [slot]
    exact ⟨fun goes => h.holds fun failed => goes (iff.mpr failed),
      fun primary failed => h.lost primary (iff.mp failed)⟩
  · exact ⟨fun goes => absurd failed goes, fun _ _ => Proc.slot_delete sound now k⟩

/-- The entry that a request brings fits into the store. -/
def Request.Admits (req : Request) (p : Proc) : Prop :=
  match req with
  | .replSet key value _ => p.store.Fits key value
  | _ => True

theorem Request.Admits.congr {req : Request} (h : req.Admits p)
    (limit : p'.store.maxBytes = p.store.maxBytes) : req.Admits p' := by
  cases req with
  | replSet => exact (Cache.Store.fits_congr limit).mpr h
  | replDelete | replGet => trivial

theorem serve_admits {req : Request} (answered : req.outcome (serve w i now p req).2 ≠ none) :
    req.Admits (serve w i now p req).1 := by
  cases req with
  | replSet key value ttl =>
      by_contra large
      refine answered ?_
      rw [serve] at large ⊢
      split
      · rename_i member
        rw [if_pos member] at large
        rw [Cache.Store.set_of_not_fits (Proc.fits_set.not.mp large)]
        rfl
      · rfl
  | replDelete | replGet => trivial

/-- What call `c` brings fits where it has been acknowledged. -/
structure Admitted (c : Nat) (call : Call) (s : Sys) : Prop where
  results : ∀ r ∈ call.results, call.request.Admits (s.procs r.1)
  responses : ∀ i resp, .response c i call.request resp ∈ s.net →
    call.request.outcome resp ≠ none → call.request.Admits (s.procs i)

theorem Admitted.step (h : Admitted c call s) (writes : ∀ key, call.op ≠ .read key)
    (found : s.calls[c]? = some call) (there : s'.calls[c]? = some call')
    (step : Step w now s a s') : Admitted c call' s' := by
  have limit (i : String) := (step.acts i "").maxBytes
  have same := step.same found there
  refine ⟨fun r mem => ?_, fun i resp sent answered => ?_⟩
  · obtain ⟨old, was, _, result⟩ := step.result_cases there mem
    obtain rfl := Option.some.inj (found.symm.trans was)
    rw [same.request]
    rcases result with before | ⟨resp, sent, told⟩ | ⟨key, read, _⟩
    · exact (h.results r before).congr (limit r.1)
    · refine (h.responses r.1 resp sent ?_).congr (limit r.1)
      rw [told]
      nofun
    · exact absurd read (writes key)
  · rw [same.request] at sent answered ⊢
    rcases step.msg_cases sent with old | ⟨_, _, _, _, _, _, _, _, _, _, eq⟩ |
      ⟨d, peer, req, asked, rfl, eq, served⟩
    · exact (h.responses i resp old answered).congr (limit i)
    · cases eq
    · cases eq
      rw [served]
      exact serve_admits answered

theorem Admitted.run {op : Op} (reg : u.Regular w) (writes : ∀ key, op ≠ .read key)
    (starts : exec w u (now, .start node op) = .ok v) (run : RunFrom w v past s)
    (there : s.calls[u.calls.length]? = some call) : Admitted u.calls.length call s := by
  have inv := Run.invariant_from (C := fun _ _ => True)
    (I := fun s => ∃ call : Call, s.calls[u.calls.length]? = some call ∧ call.op = op ∧
      Admitted u.calls.length call s) ?_ ?_ run (fun _ _ => trivial)
  · obtain ⟨call', found, _, h⟩ := inv
    obtain rfl := Option.some.inj (found.symm.trans there)
    exact h
  · obtain ⟨_, call₀, started, found, _⟩ := exec_start starts
    refine ⟨call₀, found, started.same.2.1, fun r mem => ?_, fun i resp sent => ?_⟩
    · rw [started.same.2.2.2] at mem
      cases mem
    · cases starts
      exact absurd (reg.call_lt sent) (Nat.lt_irrefl _)
  · rintro s x s' ⟨call, found, rfl, h⟩ _ exec
    obtain ⟨call', there, same⟩ := (exec_step exec).persists found
    exact ⟨call', there, same.op, h.step writes found there (exec_step exec)⟩

/-- A write alone, as far as its own node is concerned. -/
theorem Single.of_set {past₀ : List (Sys × Int × Action)} (before : Run w past₀ u)
    (ring : w.ring.Sound) (idle : u.Idle)
    (starts : exec w u (now, .start node (.set k value ttl)) = .ok v) (run : RunFrom w v past s)
    (lone : Meets (Lone k) past) :
    ∃ call, Single w u node (.set k value ttl) (Wrote w node k value) call past s :=
  Single.run before.regular ring idle nofun starts (fun h => h.wrote (before.regular.sound node))
    (fun sound op m h => m.wrote sound op h) run lone

/-- A node that has acknowledged and has not been asked to take the value back holds it. -/
theorem Single.content {P : Call → Option (List UInt8 × Int) → Prop}
    (h : Single w u node (.set k value ttl) P call past s)
    (admitted : Admitted u.calls.length call s) {r : String × Response} (mem : r ∈ call.results)
    (kept : (r.1, call.takesBack) ∉ served u.calls.length past) :
    (s.procs r.1).content k = some value := by
  have request : call.request = .replSet k value (wireTTL ttl) := by rw [Call.request, h.doing]
  have fits := admitted.results r mem
  have left := h.traced.given r.1 kept (h.ledger.results r mem)
  rw [request] at fits left
  obtain ⟨expiry, slot, _⟩ := (if_pos fits).mp left
  rw [Proc.content_eq_slot, slot]
  rfl

/-- The nodes that have a value whose `WriteSet` has succeeded: the primary and those that
have acknowledged. -/
theorem Single.holders (h : Single w u node (.set k value ttl) (Wrote w node k value) call past s)
    (ring : w.ring.Sound) (admitted : Admitted u.calls.length call s)
    (done : call.phase = .returned .stored) :
    w.isPrimary node k = true ∧ (node :: call.results.map Prod.fst).Nodup ∧
      w.required ≤ call.results.length ∧ ∀ i ∈ node :: call.results.map Prod.fst,
        i ∈ w.owners k ∧ (s.procs i).content k = some value := by
  have writes : ∀ key, call.op ≠ .read key := by simp [h.doing]
  have spread := h.regular.calls _ call h.found
  have acked := spread.results_subperm.subset
  have goes : ¬ call.Failed := by
    rintro ⟨err, failed⟩
    cases done.symm.trans failed
  obtain ⟨primary, own⟩ := h.own.holds goes
  refine ⟨primary, List.nodup_cons.mpr ⟨fun mem => ?_, spread.nodup_results ring⟩,
    (spread.stored writes done).1, List.forall_mem_cons.mpr
      ⟨⟨Setup.mem_owners_of_isPrimary primary, ?_⟩, fun i mem => ?_⟩⟩
  · exact Call.ne_node_of_mem_targets writes (acked mem) h.here.symm
  · rw [Proc.content_eq_slot]
    exact own
  · have target := acked mem
    rw [Call.targets, h.doing] at target
    obtain ⟨r, result, rfl⟩ := List.mem_map.mp mem
    refine ⟨(List.mem_filter.mp target).1, h.content admitted result fun taken => ?_⟩
    exact (h.ledger.taken taken).2 (.inr (.inl done))

/-- With nothing else running, a `WriteSet` that returns without error leaves the value at
the primary and at as many other nodes of the replica set as it needs acknowledgements. If
the local `Set` succeeds and enough nodes acknowledge, it returns so exactly if the `select`
does not see the end of the context, and it can return so as soon as every node it has turned
to has answered or failed. -/
theorem write_acknowledged {w : Setup} (on : w.cfg.enabled = true) (ring : w.ring.Built)
    {past₀ past : List (Sys × Int × Action)} {u v s : Sys} {now : Int} {node key : String}
    {value : List UInt8} {ttl : Int} (before : Run w past₀ u) (idle : u.Idle)
    (starts : exec w u (now, .start node (.set key value ttl)) = .ok v)
    (run : RunFrom w v past s) (lone : Meets (Lone key) past) :
    (s.Returned u.calls.length node (.set key value ttl) .stored →
      ∃ holders : List String, holders.Nodup ∧ w.isPrimary node key = true ∧ node ∈ holders ∧
        w.cfg.requiredWriteAcks + 1 ≤ holders.length ∧
        ∀ i ∈ holders, i ∈ w.owners key ∧ (s.procs i).content key = some value) ∧
    (w.isPrimary node key = true → ((u.procs node).store.set now key value ttl).2 = none →
      w.cfg.requiredWriteAcks ≤ (answers u.calls.length past).length →
      ∀ call : Call, s.calls[u.calls.length]? = some call →
        (∀ result, call.phase = .returned result →
          (result = .stored ↔ ∀ x ∈ past, x.2.2 ≠ .cancel u.calls.length)) ∧
        (call.phase = .visiting [] → call.running = [] → ∀ t, ∃ s',
          exec w s (t, .advance u.calls.length) = .ok s' ∧
            s'.Returned u.calls.length node (.set key value ttl) .stored)) := by
  have required : w.required = w.cfg.requiredWriteAcks := by rw [Setup.required, if_pos on]
  obtain ⟨call, single⟩ := Single.of_set before ring.sound idle starts run lone
  constructor
  · intro returned
    obtain ⟨call', found, _, _, done⟩ := returned
    obtain rfl := Option.some.inj (single.found.symm.trans found)
    have admitted := Admitted.run before.regular (by simp) starts run found
    obtain ⟨primary, nodup, enough, hold⟩ := single.holders ring.sound admitted done
    refine ⟨node :: call.results.map Prod.fst, nodup, primary, List.mem_cons_self, ?_, hold⟩
    rw [List.length_cons, List.length_map]
    omega
  · intro primary ok enough call' found
    obtain rfl := Option.some.inj (single.found.symm.trans found)
    have decides := write_decides primary ok starts run fun _ => required ▸ enough
    refine ⟨fun result done => decides.returned call result found done, fun phase idle t => ?_⟩
    obtain ⟨s', call', result, next, moved, done, stored⟩ :=
      decides.joined call found phase idle t
    subst stored
    have same := (exec_step next).same found moved
    exact ⟨s', next, call', moved, same.node.trans single.here, same.op.trans single.doing, done⟩

/-- The node `c` has no room for the value, and `b` acknowledges it. -/
theorem write_acknowledged_by_one : ∃ (s : Sys) (holders : List String), holders.Nodup ∧
    "a" ∈ holders ∧ sample.cfg.requiredWriteAcks + 1 ≤ holders.length ∧
    ∀ i ∈ holders, i ∈ sample.owners "k" ∧ (s.procs i).content "k" = some [1, 2, 3] := by
  obtain ⟨past, s, run, seen⟩ := RunFrom.of_steps sample
    ((Sys.empty fun i => if i = "c" then 3 else 0).started sample 0 "a" (.set "k" [1, 2, 3] 0))
    ([.advance 0, .advance 0, .advance 0, .deliver (.request 0 "c" (.replSet "k" [1, 2, 3] 0)),
      .deliver (.request 0 "b" (.replSet "k" [1, 2, 3] 0)),
      .deliver (.response 0 "c" (.replSet "k" [1, 2, 3] 0) (.error (.store .entryTooLarge))),
      .deliver (.response 0 "b" (.replSet "k" [1, 2, 3] 0) .ok), .advance 0].map fun a => (0, a))
    (fun past s => decide (Meets (Lone "k") past ∧
      s.Returned 0 "a" (.set "k" [1, 2, 3] 0) .stored)) (by decide)
  obtain ⟨lone, returned⟩ := of_decide_eq_true seen
  have initial := Sys.empty_initial fun i => if i = "c" then 3 else 0
  obtain ⟨holders, nodup, _, own, enough, hold⟩ := (write_acknowledged (w := sample) (by decide)
    sampleRing_built (.start initial) initial.idle rfl run lone).1 returned
  exact ⟨s, holders, nodup, own, enough, hold⟩

/-- Every node has answered, and the context ends before the goroutine that waits for them
has closed its channel. -/
theorem answered_write_cancelled :
    sample.cfg.validate = none ∧ sample.cfg.enabled = true ∧ sample.ring.Built ∧
    sample.isPrimary "a" "k" = true ∧
    (((Sys.empty fun _ => 0).procs "a").store.set 0 "k" [1] 0).2 = none ∧
    ∃ (past : List (Sys × Int × Action)) (s s' : Sys),
      RunFrom sample ((Sys.empty fun _ => 0).started sample 0 "a" (.set "k" [1] 0)) past s ∧
      Meets (Lone "k") past ∧ sample.cfg.requiredWriteAcks ≤ (answers 0 past).length ∧
      (∃ call ∈ s.calls[0]?, call.phase = .visiting [] ∧ call.running = []) ∧
      exec sample s (0, .cancel 0) = .ok s' ∧
      s'.Returned 0 "a" (.set "k" [1] 0) (.error .contextDone) ∧
      (s'.procs "a").content "k" = none := by
  obtain ⟨past, s, run, seen⟩ := RunFrom.of_steps sample
    ((Sys.empty fun _ => 0).started sample 0 "a" (.set "k" [1] 0))
    ((hanging (.set "k" [1] 0) (.replSet "k" [1] 0) .ok).tail ++
      [(0, .deliver (.request 0 "c" (.replSet "k" [1] 0))),
        (0, .deliver (.response 0 "c" (.replSet "k" [1] 0) .ok))])
    (fun past s => decide (Meets (Lone "k") past ∧
        sample.cfg.requiredWriteAcks ≤ (answers 0 past).length) &&
      (s.calls[0]?.any fun call : Call =>
        decide (call.phase = .visiting [] ∧ call.running = [])) &&
      (exec sample s (0, .cancel 0)).toOption.any fun s' : Sys => decide (
        s'.Returned 0 "a" (.set "k" [1] 0) (.error .contextDone) ∧
        (s'.procs "a").content "k" = none)) (by decide)
  obtain ⟨joined, ended⟩ := (Bool.and_eq_true _ _).mp seen
  obtain ⟨answered, joined⟩ := (Bool.and_eq_true _ _).mp joined
  obtain ⟨lone, enough⟩ := of_decide_eq_true answered
  obtain ⟨call, found, waits⟩ := (Option.any_eq_true _ _).mp joined
  obtain ⟨s', next, ended⟩ := (Option.any_eq_true _ _).mp ended
  have next : exec sample s (0, .cancel 0) = .ok s' := by
    cases h : exec sample s (0, .cancel 0) with
    | error => simp [h, Except.toOption] at next
    | ok => simpa [h, Except.toOption] using next
  exact ⟨by decide, by decide, sampleRing_built, by decide, by decide, past, s, s', run, lone,
    enough, ⟨call, found, of_decide_eq_true waits⟩, next, of_decide_eq_true ended⟩

end DistributedCache.Replication
