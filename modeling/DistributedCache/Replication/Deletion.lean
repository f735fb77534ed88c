import DistributedCache.Replication.LatestRead
import DistributedCache.Replication.Smooth

/-!
A quorum read right after `WriteDelete`. The call asks the local store first, and turns to
the other nodes only if it finds the key there. What they have decides the read.
-/
namespace DistributedCache.Replication

open Transition

variable {w : Setup} {now : Int} {s s' u : Sys} {a : Action} {k node : String} {n c : Nat}
  {call call' : Call} {p p' : Proc} {past : List (Sys × Int × Action)}

theorem serve_delete (op : call.op = .delete k) (self : String) :
    serve w self now p call.request = if w.isInReplicaSet self k then
      (p.delete now k, if (p.store.delete now k).2 then .ok else .notFound)
      else (p, .error .notInReplicaSet) := by
  rw [Call.request, op]
  rfl

theorem lacks_effects (w : Setup) (k : String) :
    Effects w k (.delete k) (fun p => p.store.Sound) (Proc.Lacks · k) where
  acts := fun sound lacks acts => lacks.acts sound acts
  deletes := fun op sound _ => by
    cases op
    exact Proc.lacks_delete sound _ k
  serves := fun op sound lacks => by
    rw [serve_delete op]
    split
    · exact Proc.lacks_delete sound _ k
    · exact lacks
  gains := fun op sound => by
    rw [serve_delete op]
    split
    · exact fun _ => Proc.lacks_delete sound _ k
    · exact fun answered => absurd (by rw [Call.request, op]; rfl) answered

/-- No node gets an entry for the key that it did not have: `before` is what it had. -/
theorem within_preserves (w : Setup) (k : String) (before : Option Cache.Element) :
    Preserves w k (.delete k) (fun p => p.store.Sound)
      (fun p => ∀ e, p.store.entries.lookup k = some e → before = some e) where
  acts := fun sound within acts e found => by
    rcases acts with same | ⟨o, eq, other⟩
    · rw [same] at found
      exact within e found
    · rw [eq] at found
      exact within e (Cache.Store.of_lookup_apply sound (Bool.eq_false_iff.mpr other) found)
  deletes := fun op sound _ e found => by
    cases op
    cases (Proc.lacks_delete sound _ k).symm.trans found
  serves := fun op sound within e found => by
    rw [serve_delete op] at found
    split at found
    · cases (Proc.lacks_delete sound _ k).symm.trans found
    · exact within e found

/-- Call `n` at `node` deletes `k`, and no write of `k` is running but this. The managers
before it were `before`. -/
structure Sys.Deleting (before : String → Proc) (node k : String) (n : Nat) (s : Sys) : Prop
    extends Sys.Sole node (.delete k) k n s, Sys.Acked n (Proc.Lacks · k) s where
  within : ∀ call : Call, s.calls[n]? = some call → call.Sure → ∀ i e,
    (s.procs i).store.entries.lookup k = some e → (before i).store.entries.lookup k = some e
  own : ∀ call : Call, s.calls[n]? = some call → (∃ ok, call.phase = .returned (.deleted ok)) →
    (s.procs node).Lacks k

theorem Sys.Deleting.step {before : String → Proc} (h : s.Deleting before node k n)
    (reg : s.Regular w) (quiet : NoWrite k s (now, a)) (step : Step w now s a s') :
    s'.Deleting before node k n := by
  refine ⟨h.toSole.step nofun reg quiet step,
    h.toAcked.step h.toSole nofun (lacks_effects w k) reg.sound quiet step,
    fun call' there sure i => ?_, fun call' there returned => ?_⟩
  · obtain ⟨call, found, wasSure⟩ := h.sure_before nofun step there sure
    exact h.keeps nofun (within_preserves w k _) quiet step there sure i (reg.sound i)
      (h.within call found wasSure i)
  · have sure : call'.Sure := .inr (.inr returned)
    have kept := h.keeps nofun (lacks_effects w k).toPreserves quiet step there sure node
      (reg.sound node)
    obtain ⟨call, found, here, op, _⟩ := h.caller
    rcases step.on_call found there with rfl | ⟨q, out, moves, eq⟩
    · exact kept (h.own call' found returned)
    · rcases (moves.sure (by simp [op]) sure).2.2 with ⟨_, before⟩ | ⟨key, del, deletes⟩
      · exact kept (h.own call found (before returned))
      · cases op.symm.trans del
        rw [← here, eq, deletes]
        exact Proc.lacks_delete (reg.sound call.node) now k

theorem Started.delete_gets (h : Started w now p node (.delete k) p' call) :
    p' = p ∨ p' = p.get now k := by
  cases h with
  | refused => exact .inl rfl
  | deleteMissing | deleteAlone | delete | lookupFailed => exact .inr rfl

theorem Sys.Still.deleting (still : s.Still k) (reg : s.Regular w)
    (step : Step w now s (.start node (.delete k)) s') :
    s'.Deleting s.procs node k s.calls.length := by
  refine ⟨still.sole reg step, reg.acked step, fun _ _ _ i e found => ?_, fun call' there => ?_⟩
  · obtain ⟨p, call, started, rfl⟩ := step.started
    change (Function.update s.procs node p i).store.entries.lookup k = some e at found
    by_cases same : i = node
    · subst same
      rw [Function.update_self] at found
      rcases started.delete_gets with rfl | rfl
      · exact found
      · rcases Cache.Store.lookup_get (reg.sound i) now k k with same | ⟨_, gone, _⟩
        · exact same.symm.trans found
        · cases gone.symm.trans found
    · rwa [Function.update_of_ne same] at found
  · obtain ⟨p, call, started, rfl⟩ := step.started
    rw [List.getElem?_concat_length] at there
    obtain rfl := Option.some.inj there
    change _ → (Function.update s.procs node p node).Lacks k
    rw [Function.update_self]
    cases started with
    | deleteMissing _ missing =>
        exact fun _ => Cache.Store.lookup_get_missing (reg.sound node) missing
    | _ => rintro ⟨_, ⟨⟩⟩

/-- The call has its acknowledgements if it has returned. -/
def Call.Backed (w : Setup) (call : Call) : Prop :=
  (∃ ok, call.phase = .returned (.deleted ok)) → w.required ≤ call.results.length

theorem Call.Moves.backed {out : List (String × Request)}
    (m : call.Moves w now p c a p' call' out) (op : call.op = .delete k)
    (h : call.Backed w) : call'.Backed w := by
  cases m with
  | deleted _ _ _ enough => exact fun _ => enough
  | answer =>
      intro returned
      refine (h returned).trans ?_
      rw [List.length_append, List.length_singleton]
      omega
  | refuse | settle => exact h
  | answered read | exhausted read | fetched read | getLocal read => cases op.symm.trans read
  | skip | contact | stored | short | undo | undoneSet | undone | cancelSet | cancelRead =>
      rintro ⟨_, ⟨⟩⟩

theorem Started.backed (h : Started w now p node (.delete k) p' call)
    (present : (p.store.get now k).2 ≠ none) : call.Backed w := by
  cases h with
  | deleteMissing _ missing => exact absurd missing present
  | refused | deleteAlone | delete | lookupFailed => rintro ⟨_, ⟨⟩⟩

/-- A smooth step that starts nothing but reads. -/
def OnlyReads (_ : Sys) (x : Int × Action) : Prop :=
  x.2.smooth = true ∧ ∀ node op, x.2 = .start node op → ∃ key, op = .read key

theorem Calm.onlyReads {x : Int × Action} (h : Calm s x) : OnlyReads s x :=
  ⟨h.1, fun node op act => absurd act (h.2 node op)⟩

theorem OnlyReads.noWrite {x : Int × Action} (h : OnlyReads s x) (k : String) : NoWrite k s x := by
  unfold NoWrite Action.begins
  split
  · rename_i node op act
    obtain ⟨key, rfl⟩ := h.2 node op act
    rfl
  · rfl

theorem OnlyReads.read (s : Sys) (t : Int) (reader k : String) :
    OnlyReads s (t, .start reader (.read k)) := by
  refine ⟨rfl, fun node op act => ⟨k, ?_⟩⟩
  cases act
  rfl

/-- What holds along a smooth run from the start of call `n`, which deletes, on. -/
structure Sys.Deleted (w : Setup) (before : String → Proc) (node k : String) (n : Nat) (s : Sys) :
    Prop where
  regular : s.Regular w
  deleting : s.Deleting before node k n
  complete : s.Complete w n
  noSet : ∀ (c : Nat) (call : Call), n ≤ c → s.calls[c]? = some call →
    ∀ key value ttl, call.op ≠ .set key value ttl

theorem Sys.Deleted.start (idle : s.Idle) (healthy : s.Healthy) (reg : s.Regular w)
    (step : Step w now s (.start node (.delete k)) s') :
    s'.Deleted w s.procs node k s.calls.length where
  regular := reg.step step
  deleting := (idle.still k).deleting reg step
  complete := (idle.complete healthy).step reg rfl (.of_start _ _ _ _ _) step
  noSet := fun c call late there => by
    rcases step.call_cases there with same | ⟨_, _, _, _, moves, _⟩ |
      ⟨_, _, _, _, act, started, _⟩
    · rw [List.getElem?_eq_none late] at same
      cases same
    · exact absurd moves Call.Moves.not_start
    · cases act
      rw [started.same.2.1]
      nofun

theorem Sys.Deleted.step {before : String → Proc} (h : s.Deleted w before node k n)
    (reads : OnlyReads s (now, a)) (step : Step w now s a s') :
    s'.Deleted w before node k n where
  regular := h.regular.step step
  deleting := h.deleting.step h.regular (reads.noWrite k) step
  complete := h.complete.step h.regular reads.1 (fun c _ key value ttl call late found op =>
    absurd op (h.noSet c call late found key value ttl)) step
  noSet := fun c call late there key value ttl => by
    rcases step.call_cases there with same | ⟨old, _, _, was, moves, _⟩ |
      ⟨_, node', op, _, act, started, _⟩
    · exact h.noSet c call late same key value ttl
    · rw [moves.same.op]
      exact h.noSet c old late was key value ttl
    · obtain ⟨key', rfl⟩ := reads.2 node' op act
      rw [started.same.2.1]
      nofun

theorem Sys.Deleted.run {before : String → Proc} (h : u.Deleted w before node k n)
    (run : RunFrom w u past s) (reads : Meets OnlyReads past) : s.Deleted w before node k n :=
  Run.invariant_from h (fun _ _ _ h reads step => h.step reads (exec_step step)) run reads

/-- A call that finds the key turns to the other nodes. -/
theorem Sys.Deleted.backed {before : String → Proc} (h : u.Deleted w before node k n)
    (begun : u.calls[n]? = some call) (backed : call.Backed w) (run : RunFrom w u past s)
    (reads : Meets OnlyReads past) (found : s.calls[n]? = some call') : call'.Backed w := by
  have inv := Run.invariant_from (I := fun s => s.Deleted w before node k n ∧
    ∀ call : Call, s.calls[n]? = some call → call.Backed w) ⟨h, fun call' found => ?_⟩ ?_ run reads
  · exact inv.2 call' found
  · obtain rfl := Option.some.inj (begun.symm.trans found)
    exact backed
  · rintro s x s' ⟨h, backed⟩ reads exec
    have step := exec_step exec
    refine ⟨h.step reads step, fun call' there => ?_⟩
    obtain ⟨call, found, _, op, _⟩ := h.deleting.caller
    rcases step.on_call found there with rfl | ⟨_, _, moves, _⟩
    · exact backed call' found
    · exact moves.backed op (backed call found)

/-- Then no node of the replica set has the key when the call has returned. -/
theorem Sys.Deleted.everywhere {before : String → Proc} (h : u.Deleted w before node k n)
    (begun : u.calls[n]? = some call) (backed : call.Backed w) (run : RunFrom w u past s)
    (reads : Meets OnlyReads past) {ok : Bool}
    (answered : s.Returned n node (.delete k) (.deleted ok)) (needs : 1 ≤ w.required)
    {i : String} (member : i ∈ w.owners k) : (s.procs i).Lacks k := by
  obtain ⟨call', found, here, op, done⟩ := answered
  have enough := h.backed begun backed run reads found ⟨ok, done⟩
  have h := h.run run reads
  have reached := h.complete.reached (Nat.le_refl n) found (by simp [op]) done needs enough
    (i := i) (by rwa [op])
  cases reached with
  | head =>
      rw [here]
      exact h.deleting.own call' found ⟨ok, done⟩
  | tail _ mem =>
      obtain ⟨r, acked, rfl⟩ := List.mem_map.mp mem
      exact h.deleting.results call' found (.inr (.inr ⟨ok, done⟩)) r acked

/-- The other nodes of the replica set that have the key. -/
def Sys.copies (w : Setup) (node key : String) (t : Int) (u : Sys) : List String :=
  (w.owners key).filter fun i => i ≠ node ∧ ((u.procs i).store.get t key).2.isSome

/-- In any case a node that has the key afterwards is another one that had it before. -/
theorem Sys.Deleted.mem_copies (h : s.Deleted w u.procs node k n) {ok : Bool}
    (answered : s.Returned n node (.delete k) (.deleted ok)) {t : Int} (later : t ≤ now)
    {i : String} (member : i ∈ w.owners k) {x : List UInt8}
    (got : ((s.procs i).store.get now k).2 = some x) : i ∈ u.copies w node k t := by
  obtain ⟨call, found, _, _, returned⟩ := answered
  obtain ⟨e, has, live, value⟩ := (Cache.Store.get_result ..).mp got
  have had := h.deleting.within call found (.inr (.inr ⟨ok, returned⟩)) i e has
  refine List.mem_filter.mpr ⟨member, decide_eq_true ⟨?_, ?_⟩⟩
  · rintro rfl
    cases (h.deleting.own call found ⟨ok, returned⟩).symm.trans has
  · rw [(Cache.Store.get_result ..).mpr ⟨e, had, Cache.Store.live_earlier later live, value⟩]
    rfl

/-- A quorum read returns no value if too few nodes can have one while it runs. -/
theorem Sys.Regular.read_none (reg : u.Regular w) (ring : w.ring.Sound)
    (mode : w.cfg.readConsistency = .quorum) {t : Int} {held : List String}
    (few : (held.length : Int) < w.cfg.readQuorum)
    (gets : ∀ past s, RunFrom w u past s → Meets OnlyReads past → ∀ now, t ≤ now →
      ∀ i ∈ w.owners k, ∀ x, ((s.procs i).store.get now k).2 = some x → i ∈ held)
    (run : RunFrom w u past s)
    (reads : Meets (fun s x => OnlyReads s x ∧ t ≤ x.1) past) (late : u.calls.length ≤ c)
    (there : s.calls[c]? = some call) (op : call.op = .read k) (member : call.node ∈ w.owners k)
    {result : Result} (done : call.phase = .returned result) (v : List UInt8) :
    result ≠ .value v := by
  have reading : s.Reading k u.calls.length (fun i resp => ∀ x, resp = .value x → i ∈ held) := by
    refine Run.induct (C := fun s x => OnlyReads s x ∧ t ≤ x.1) (I := fun _ s =>
      s.Reading k u.calls.length (fun i resp => ∀ x, resp = .value x → i ∈ held)) ?_ ?_ run reads
    · rintro s rfl
      exact .init reg _
    · intro past s x s' run before reading meets exec
      refine reading.step (reg.run run) (exec_step exec) fun i mem v value => ?_
      refine gets past s run (fun y mem => (before y mem).1) x.1 meets.2 i mem v ?_
      cases got : ((s.procs i).store.get x.1 k).2 with
      | none =>
          rw [got] at value
          cases value
      | some y =>
          rw [got] at value
          cases value
          rfl
  have spread := (reg.run run).calls c call there
  cases polled_run reg (Config.readQuorum_of_quorum mode) run late there op member with
  | visiting phase => cases done.symm.trans phase
  | cancelled phase =>
      obtain rfl := Phase.returned.inj (done.symm.trans phase)
      nofun
  | counted phase =>
      obtain rfl := Phase.returned.inj (done.symm.trans phase)
      refine countAnswers_ne_value (lt_of_le_of_lt ?_ few)
      exact Int.ofNat_le.mpr (spread.length_votes_le ring (reading.results c call late there op))

/-- Let `DEL` be answered without error, so by the primary, with all nodes healthy and
reachable and nothing else running. A quorum read right after it returns no value if the
primary had the key and the delete goes out to the other nodes, or if fewer than the quorum
of these had it. -/
theorem delete_final {w : Setup} (valid : w.cfg.validate = none) (on : w.cfg.enabled = true)
    (mode : w.cfg.readConsistency = .quorum) (ring : w.ring.Built)
    {past₀ past₁ past₂ : List (Sys × Int × Action)} {u₀ u₁ u₂ u₃ s : Sys} {t t' : Int}
    {node reader key : String} {ok : Bool} {result : Result} (before : Run w past₀ u₀)
    (idle : u₀.Idle) (healthy : u₀.Healthy)
    (known : (((u₀.procs node).store.get t key).2 ≠ none ∧ 1 ≤ w.cfg.requiredWriteAcks) ∨
      ((u₀.copies w node key t).length : Int) < w.cfg.readQuorum)
    (deletes : exec w u₀ (t, .start node (.delete key)) = .ok u₁)
    (during : RunFrom w u₁ past₁ u₂) (calm₁ : Meets Calm past₁)
    (answered : u₂.Returned u₀.calls.length node (.delete key) (.deleted ok))
    (member : reader ∈ w.owners key) (after : t ≤ t')
    (reads : exec w u₂ (t', .start reader (.read key)) = .ok u₃)
    (later : RunFrom w u₃ past₂ s) (calm₂ : Meets Calm past₂) (clock : ∀ x ∈ past₂, t ≤ x.2.1)
    (done : s.Returned u₂.calls.length reader (.read key) result) (v : List UInt8) :
    result ≠ .value v := by
  have begun := Sys.Deleted.start idle healthy before.regular (exec_step deletes)
  have reads₁ : Meets OnlyReads past₁ := fun x mem => (calm₁ x mem).onlyReads
  have deleted := begun.run during reads₁
  have first : RunFrom w u₂ [(u₂, t', .start reader (.read key))] u₃ := .next (.start rfl) reads
  have reads₂ : Meets (fun s x => OnlyReads s x ∧ t ≤ x.1)
      (past₂ ++ [(u₂, t', .start reader (.read key))]) := by
    intro x mem
    cases List.mem_append.mp mem with
    | inl mem => exact ⟨(calm₂ x mem).onlyReads, clock x mem⟩
    | inr mem =>
        obtain rfl := List.mem_singleton.mp mem
        exact ⟨.read u₂ t' reader key, after⟩
  obtain ⟨read, there, rfl, op, done⟩ := done
  rcases known with ⟨present, needs⟩ | few
  -- The delete has reached every node, so none of them answers with a value.
  · have none : (([] : List String).length : Int) < w.cfg.readQuorum := by
      have := (Config.validate_enabled valid on).1
      rw [List.length_nil]
      omega
    refine deleted.regular.read_none ring.sound mode none ?_ (first.append later) reads₂
      (Nat.le_refl _) there op member done v
    intro past s run reads now _ i mem x got
    obtain ⟨p, call, started, found, _⟩ := exec_start deletes
    have lacks := begun.everywhere found (started.backed present) (during.append run)
      (fun y mem => (List.mem_append.mp mem).elim (reads y) (reads₁ y))
      (answered.run nofun run) (by rwa [Setup.required, if_pos on]) mem
    obtain ⟨e, has, _⟩ := (Cache.Store.get_result ..).mp got
    cases lacks.symm.trans has
  · refine deleted.regular.read_none ring.sound mode few ?_ (first.append later) reads₂
      (Nat.le_refl _) there op member done v
    intro past s run reads now le i mem x got
    exact (deleted.run run reads).mem_copies (answered.run nofun run) le mem got

/-- Every node has the key. -/
def stocked : Sys where
  procs _ := ⟨((Cache.newStore 0).set 0 "k" [1] 0).1, ∅⟩
  calls := []
  net := []

theorem stocked_initial : stocked.Initial where
  calls := rfl
  net := rfl
  sound := fun _ => (Cache.Store.sound_newStore 0).set 0 "k" [1] 0
  self := fun _ => rfl

/-- A read at `b` up to its return, where the peers answer with `atA` and `atC`. -/
def sampleRead (c : Nat) (atA atC : Response) : List (Int × Action) :=
  [.advance c, .advance c, .advance c, .getLocal c, .deliver (.request c "a" (.replGet "k")),
    .deliver (.request c "c" (.replGet "k")), .deliver (.response c "a" (.replGet "k") atA),
    .deliver (.response c "c" (.replGet "k") atC), .advance c].map fun a => (0, a)

/-- `a` has the key, and deletes it everywhere. -/
theorem delete_final_stocked : ∃ (u₂ s : Sys) (result : Result),
    u₂.Returned 0 "a" (.delete "k") (.deleted true) ∧
      s.Returned 1 "b" (.read "k") result ∧ result ≠ .value [1] := by
  obtain ⟨past₁, u₂, past₂, s, during, deleted, later, read⟩ := RunFrom.of_steps_via sample
    (stocked.started sample 0 "a" (.delete "k")) (fun u => u.started sample 0 "b" (.read "k"))
    ([.advance 0, .advance 0, .deliver (.request 0 "b" (.replDelete "k")),
      .deliver (.response 0 "b" (.replDelete "k") .ok), .advance 0,
      .deliver (.request 0 "c" (.replDelete "k")),
      .deliver (.response 0 "c" (.replDelete "k") .ok), .advance 0].map fun a => (0, a))
    (sampleRead 1 .notFound .notFound)
    (fun past₁ u => decide (Meets Calm past₁ ∧ u.calls.length = 1 ∧
      u.Returned 0 "a" (.delete "k") (.deleted true)))
    (fun past₂ s => decide (Meets Calm past₂ ∧ (∀ x ∈ past₂, 0 ≤ x.2.1) ∧
      s.Returned 1 "b" (.read "k") .notFound)) (by decide)
  obtain ⟨calm₁, one, answered⟩ := of_decide_eq_true deleted
  obtain ⟨calm₂, clock, done⟩ := of_decide_eq_true read
  refine ⟨u₂, s, .notFound, answered, done, delete_final (by decide) (by decide) rfl
    sampleRing_built (.start stocked_initial) stocked_initial.idle (fun _ _ => rfl)
    (.inl (by decide)) rfl during calm₁ answered (by decide) (Int.le_refl 0) rfl later calm₂ clock
    ?_ [1]⟩
  rw [one]
  exact done

/-- `a` has room for one key. -/
def tight : Sys :=
  .empty fun i => if i = "a" then 2 else 0

/-- `a` writes `k` and then `j`, for which it drops `k`. It answers `DEL` without a word to
`b` and `c`, and a read at `b` returns the value. -/
theorem delete_undone : ∃ (past₀ past₂ : List (Sys × Int × Action)) (u₀ s : Sys),
    sample.cfg.validate = none ∧ sample.cfg.enabled = true ∧
      sample.cfg.readConsistency = .quorum ∧ sample.ring.Built ∧
      sample.cfg.replicationFactor ≤ sample.ring.nodes.keys.length ∧ tight.Initial ∧
      RunFrom sample tight past₀ u₀ ∧ u₀.Idle ∧ u₀.Healthy ∧
      sample.isPrimary "a" "k" = true ∧
      (u₀.started sample 0 "a" (.delete "k")).Returned 2 "a" (.delete "k") (.deleted false) ∧
      "b" ∈ sample.owners "k" ∧
      RunFrom sample ((u₀.started sample 0 "a" (.delete "k")).started sample 0 "b" (.read "k"))
        past₂ s ∧ Meets Calm past₂ ∧ s.Returned 3 "b" (.read "k") (.value [1]) := by
  obtain ⟨past₀, u₀, past₂, s, before, reached, later, read⟩ := RunFrom.of_steps_via sample tight
    (fun u => (u.started sample 0 "a" (.delete "k")).started sample 0 "b" (.read "k"))
    ((0, .start "a" (.set "k" [1] 0)) :: sampleAcks 0 "k" [1] ++
      (0, .start "a" (.set "j" [2] 0)) :: sampleAcks 1 "j" [2])
    (sampleRead 3 .notFound (.value [1]))
    (fun past₀ u => decide (Meets Faultless past₀ ∧ u.net = [] ∧
      (∀ call ∈ u.calls, call.phase = .returned .stored ∧ call.running = []) ∧
      (u.started sample 0 "a" (.delete "k")).Returned 2 "a" (.delete "k") (.deleted false)))
    (fun past₂ s => decide (Meets Calm past₂ ∧ s.Returned 3 "b" (.read "k") (.value [1])))
    (by decide)
  obtain ⟨faultless, net, finished, answered⟩ := of_decide_eq_true reached
  obtain ⟨calm, revived⟩ := of_decide_eq_true read
  have idle : u₀.Idle := by
    refine ⟨fun c call found => ?_, net⟩
    obtain ⟨stored, idle⟩ := finished call (List.mem_of_getElem? found)
    exact ⟨⟨_, stored⟩, idle⟩
  have healthy : tight.Healthy := fun _ _ => rfl
  exact ⟨past₀, past₂, u₀, s, by decide, by decide, rfl, sampleRing_built, by decide,
    Sys.empty_initial _, before, idle, healthy.run before faultless, by decide, answered,
    by decide, later, calm, revived⟩

end DistributedCache.Replication
