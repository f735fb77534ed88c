import Mathlib.Data.List.TakeWhile
import DistributedCache.Replication.Counting
import DistributedCache.Replication.Rollback

/-!
`WriteSet` and `readQuorum` wait for every node they have turned to before they look at
what has come, and their context may end first. Enough answers therefore decide a call
only if none of the other nodes keeps it waiting until then.
-/
namespace DistributedCache.Replication

variable {w : Setup} {now : Int} {s s' v : Sys} {a : Action} {k : String} {c : Nat}
  {call call' : Call} {p p' : Proc} {past : List (Sys × Int × Action)}

namespace Call

/-- Where a `WriteSet` stands whose local `Set` has succeeded, and whether its context has
ended it. -/
inductive Awaits (w : Setup) (call : Call) (cancelled : Prop) : Prop
  | visiting {rest : List Cluster.Node} (phase : call.phase = .visiting rest) (goes : ¬ cancelled)
  | undoing {rest : List String} (phase : call.phase = .undoing rest) (goes : ¬ cancelled)
      (idle : call.pending = []) (few : call.results.length < w.required)
  | stored (phase : call.phase = .returned .stored) (goes : ¬ cancelled) (idle : call.running = [])
  | failed {got : Nat} {need : Int}
      (phase : call.phase = .returned (.error (.quorumNotMet got need))) (goes : ¬ cancelled)
      (idle : call.running = []) (few : call.results.length < w.required)
  | cancelled (phase : call.phase = .returned (.error .contextDone)) (ended : cancelled)

theorem Awaits.imp {before after : Prop} (h : call.Awaits w before) (iff : before ↔ after) :
    call.Awaits w after := by
  cases h with
  | visiting phase goes => exact .visiting phase (iff.not.mp goes)
  | undoing phase goes idle few => exact .undoing phase (iff.not.mp goes) idle few
  | stored phase goes idle => exact .stored phase (iff.not.mp goes) idle
  | failed phase goes idle few => exact .failed phase (iff.not.mp goes) idle few
  | cancelled phase ended => exact .cancelled phase (iff.mp ended)

theorem pending_eq_nil (idle : call.running = []) : call.pending = [] := by
  rw [pending, idle]
  rfl

/-- The end of a round trip for the write itself, which only calls have that are waiting
or that were cancelled. -/
theorem Awaits.main_back {cancelled : Prop} (h : call.Awaits w cancelled) {peer : String}
    (waits : (peer, call.request) ∈ call.running) (phase : call'.phase = call.phase) :
    call'.Awaits w cancelled := by
  have pending : peer ∈ call.pending :=
    List.mem_map.mpr ⟨_, List.mem_filter.mpr ⟨waits, decide_eq_true rfl⟩, rfl⟩
  cases h with
  | visiting here goes => exact .visiting (phase.trans here) goes
  | undoing _ _ idle =>
      rw [idle] at pending
      cases pending
  | stored _ _ idle | failed _ _ idle =>
      rw [pending_eq_nil idle] at pending
      cases pending
  | cancelled here ended => exact .cancelled (phase.trans here) ended

theorem Moves.awaits {out : List (String × Request)} {cancelled : Prop} {value : List UInt8}
    {ttl : Int} (m : call.Moves w now p c a p' call' out) (op : call.op = .set k value ttl)
    (h : call.Awaits w cancelled) : call'.Awaits w (a = .cancel c ∨ cancelled) := by
  have going {call'' : Call} (ne : a ≠ .cancel c) (h : call''.Awaits w cancelled) :
      call''.Awaits w (a = .cancel c ∨ cancelled) :=
    h.imp ⟨.inr, fun h => h.resolve_left ne⟩
  have visiting {rest : List Cluster.Node} (phase : call.phase = .visiting rest) :
      ¬ cancelled := by
    cases h with
    | visiting _ goes | undoing _ goes | stored _ goes | failed _ goes => exact goes
    | cancelled returned => cases phase.symm.trans returned
  have undoing {rest : List String} (phase : call.phase = .undoing rest) :
      ¬ cancelled ∧ call.results.length < w.required := by
    cases h with
    | undoing _ goes _ few | failed _ goes _ few => exact ⟨goes, few⟩
    | visiting other | stored other | cancelled other => cases phase.symm.trans other
  cases m with
  | skip phase | contact phase => exact going (by simp) (.visiting rfl (visiting phase))
  | stored _ phase idle => exact going (by simp) (.stored rfl (visiting phase) idle)
  | short _ phase idle few =>
      exact going (by simp) (.undoing rfl (visiting phase) (pending_eq_nil idle) few)
  | undo phase =>
      obtain ⟨goes, few⟩ := undoing phase
      exact going (by simp) (.undoing rfl goes (pending_undo (by simp [op])) few)
  | undoneSet _ phase idle =>
      obtain ⟨goes, few⟩ := undoing phase
      exact going (by simp) (.failed rfl goes idle few)
  | cancelSet => exact .cancelled rfl (.inl rfl)
  | answer waits ends | refuse waits ends => exact going ends.not_cancel (h.main_back waits rfl)
  | @settle _ peer req _ waits undoes ends =>
      refine going ends.not_cancel ?_
      cases h with
      | visiting phase goes => exact .visiting phase goes
      | undoing phase goes idle few =>
          exact .undoing phase goes
            (List.sublist_nil.mp (idle ▸ pending_ended_sublist call peer req)) few
      | stored _ _ idle | failed _ _ idle =>
          rw [idle] at waits
          cases waits
      | cancelled phase ended => exact .cancelled phase ended
  | deleted delete => cases op.symm.trans delete
  | undone other => exact absurd op (other _ _ _)
  | answered read | exhausted read | cancelRead read | fetched read | getLocal read =>
      cases op.symm.trans read

end Call

theorem Started.awaits {self : String} {value : List UInt8} {ttl : Int}
    (h : Started w now p self (.set k value ttl) p' call) (primary : w.isPrimary self k = true)
    (ok : (p.store.set now k value ttl).2 = none) : call.Awaits w False := by
  obtain ⟨_, rfl | ⟨nodes, rfl⟩⟩ := h.set_cases primary ok
  · exact .stored rfl id rfl
  · exact .visiting rfl id

theorem awaits_run {value : List UInt8} {ttl : Int} (found : v.calls[c]? = some call)
    (op : call.op = .set k value ttl) (h : call.Awaits w False) (run : RunFrom w v past s) :
    ∃ call', s.calls[c]? = some call' ∧ call.Same call' ∧
      call'.Awaits w (∃ x ∈ past, x.2.2 = .cancel c) := by
  refine Transition.Run.induct_from (C := fun _ _ => True)
    (I := fun past s => ∃ call', s.calls[c]? = some call' ∧ call.Same call' ∧
      call'.Awaits w (∃ x ∈ past, x.2.2 = .cancel c))
    ⟨call, found, .refl call, h.imp (iff_of_false id nofun)⟩ ?_ run (fun _ _ => trivial)
  rintro past s x s' ⟨old, was, same, h⟩ _ exec
  have step := exec_step exec
  have more : (∃ y ∈ (s, x) :: past, y.2.2 = .cancel c) ↔
      (x.2 = .cancel c ∨ ∃ y ∈ past, y.2.2 = .cancel c) := by simp
  obtain ⟨new, there, same'⟩ := step.persists was
  refine ⟨new, there, same.trans same', ?_⟩
  rcases step.on_call was there with rfl | ⟨_, _, moves, _⟩
  · exact h.imp (Iff.symm (more.trans (or_iff_right (step.not_cancel was there))))
  · exact (moves.awaits (same.op.trans op) h).imp more.symm

/-- The part of a run before the context of call `c` ends. -/
def beforeEnd (c : Nat) (past : List (Sys × Int × Action)) : List (Sys × Int × Action) :=
  match past.dropWhile fun x => x.2.2 ≠ .cancel c with
  | [] => past
  | _ :: before => before

theorem beforeEnd_of_goes (goes : ¬ ∃ x ∈ past, x.2.2 = .cancel c) : beforeEnd c past = past := by
  have all : past.dropWhile (fun x => decide (x.2.2 ≠ .cancel c)) = [] :=
    List.dropWhile_eq_nil_iff.mpr fun x mem => decide_eq_true fun ends => goes ⟨x, mem, ends⟩
  rw [beforeEnd, all]

/-- If call `c` has returned, its result has the property exactly if its context has not
ended. If it has nothing left to wait for, it returns such a result with its next step. -/
structure Sys.Decides (w : Setup) (c : Nat) (P : Result → Prop)
    (past : List (Sys × Int × Action)) (s : Sys) : Prop where
  returned : ∀ (call : Call) (result : Result), s.calls[c]? = some call →
    call.phase = .returned result → (P result ↔ ∀ x ∈ past, x.2.2 ≠ .cancel c)
  joined : ∀ call : Call, s.calls[c]? = some call → call.phase = .visiting [] →
    call.running = [] → ∀ t, ∃ (s' : Sys) (call' : Call) (result : Result),
      exec w s (t, .advance c) = .ok s' ∧ s'.calls[c]? = some call' ∧
        call'.phase = .returned result ∧ P result

theorem exec_finish (found : s.calls[c]? = some call) (phase : call.phase = .visiting [])
    (idle : call.running = []) (t : Int) : ∃ s', exec w s (t, .advance c) = .ok s' ∧
      s'.calls[c]? = some (call.finish w t (s.procs call.node)).2 := by
  refine ⟨_, by simp only [exec, found, Call.advance, phase, idle]; rfl, ?_⟩
  exact (getElem?_set_found found c).trans (if_pos rfl)

/-- A `WriteSet` with its acknowledgements. -/
theorem set_decides {value : List UInt8} {ttl : Int} (found : v.calls[c]? = some call)
    (op : call.op = .set k value ttl) (h : call.Awaits w False) (run : RunFrom w v past s)
    (enough : ∀ call' : Call, s.calls[c]? = some call' → (¬ ∃ x ∈ past, x.2.2 = .cancel c) →
      w.required ≤ call'.results.length) :
    s.Decides w c (· = .stored) past := by
  obtain ⟨call', there, same, h⟩ := awaits_run found op h run
  have enough := enough call' there
  refine ⟨fun call'' result there' done => ?_, fun call'' there' phase idle t => ?_⟩
  · obtain rfl := Option.some.inj (there.symm.trans there')
    rw [goes_iff]
    cases h with
    | visiting phase | undoing phase => cases done.symm.trans phase
    | stored phase goes =>
        exact iff_of_true (Phase.returned.inj (done.symm.trans phase)) goes
    | failed _ goes _ few => exact absurd (enough goes) (Int.not_le.mpr few)
    | cancelled phase ended =>
        obtain rfl := Phase.returned.inj (done.symm.trans phase)
        exact iff_of_false nofun fun goes => goes ended
  · obtain rfl := Option.some.inj (there.symm.trans there')
    have goes : ¬ ∃ x ∈ past, x.2.2 = .cancel c := by
      cases h with
      | visiting _ goes | undoing _ goes | stored _ goes | failed _ goes => exact goes
      | cancelled returned => cases phase.symm.trans returned
    obtain ⟨s', next, moved⟩ := exec_finish there phase idle (w := w) t
    refine ⟨s', _, .stored, next, moved, ?_, rfl⟩
    simp only [Call.finish, same.op, op]
    rw [if_neg (Int.not_lt.mpr (enough goes))]

section Start

variable {u : Sys} {node : String} {op : Op}

/-- The step that starts a call and the run after it. -/
theorem RunFrom.after_start (starts : exec w u (now, .start node op) = .ok v)
    (run : RunFrom w v past s) : RunFrom w u (past ++ [(u, now, .start node op)]) s :=
  Transition.Run.append (.next (.start rfl) starts) run

theorem answers_after_start (r : Nat) (past : List (Sys × Int × Action)) :
    answers r (past ++ [(u, now, .start node op)]) = answers r past := by
  have none : replies r (u, now, .start node op) = none := rfl
  rw [answers, answers, List.filterMap_append, List.filterMap_cons, none, List.filterMap_nil,
    List.append_nil]

theorem results_after_start (starts : exec w u (now, .start node op) = .ok v)
    (run : RunFrom w v past s) (there : s.calls[u.calls.length]? = some call)
    (keeps : ∀ key, call.op = .read key → call.polls w = true) :
    call.results = answers u.calls.length past := by
  rw [results_eq_answers (run.after_start starts) (Nat.le_refl _) there keeps,
    answers_after_start]

/-- A `WriteSet` whose local `Set` has succeeded, with enough acknowledgements. -/
theorem write_decides {value : List UInt8} {ttl : Int} (primary : w.isPrimary node k = true)
    (ok : ((u.procs node).store.set now k value ttl).2 = none)
    (starts : exec w u (now, .start node (.set k value ttl)) = .ok v) (run : RunFrom w v past s)
    (enough : (¬ ∃ x ∈ past, x.2.2 = .cancel u.calls.length) →
      w.required ≤ (answers u.calls.length past).length) :
    s.Decides w u.calls.length (· = .stored) past := by
  obtain ⟨_, call₀, started, begun, _⟩ := exec_start starts
  have op := started.same.2.1
  refine set_decides begun op (started.awaits primary ok) run fun call' there goes => ?_
  obtain ⟨call'', there', same⟩ := Call.persists_run begun run
  obtain rfl := Option.some.inj (there'.symm.trans there)
  rw [results_after_start starts run there (by simp [same.op, op])]
  exact enough goes

/-- What is known of a quorum read at a member of the replica set. -/
theorem read_after_start (reg : u.Regular w)
    (mode : w.cfg.readConsistency ≠ .primary ∧ w.cfg.readConsistency ≠ .any)
    (member : node ∈ w.owners k) (starts : exec w u (now, .start node (.read k)) = .ok v)
    (run : RunFrom w v past s) (there : s.calls[u.calls.length]? = some call) :
    call.op = .read k ∧ call.results = answers u.calls.length past ∧
      call.Polled w (∃ x ∈ past, x.2.2 = .cancel u.calls.length) := by
  obtain ⟨_, call₀, started, begun, _⟩ := exec_start starts
  obtain ⟨here, op, _⟩ := started.same
  obtain ⟨call', there', same⟩ := Call.persists_run begun run
  obtain rfl := Option.some.inj (there'.symm.trans there)
  have read := same.op.trans op
  have goes : (∃ x ∈ past ++ [(u, now, .start node (.read k))],
      x.2.2 = .cancel u.calls.length) ↔ ∃ x ∈ past, x.2.2 = .cancel u.calls.length := by simp
  refine ⟨read, results_after_start starts run there fun _ _ => Call.polls_of_mode read mode, ?_⟩
  refine (polled_run reg mode (run.after_start starts) (Nat.le_refl _) there read ?_).imp goes
  rw [same.node, here]
  exact member

/-- A quorum read with enough equal answers. -/
theorem read_decides (reg : u.Regular w)
    (mode : w.cfg.readConsistency ≠ .primary ∧ w.cfg.readConsistency ≠ .any)
    (positive : 0 < w.cfg.readQuorum) (member : node ∈ w.owners k)
    (starts : exec w u (now, .start node (.read k)) = .ok v) (run : RunFrom w v past s)
    {x : List UInt8} (enough : (¬ ∃ x ∈ past, x.2.2 = .cancel u.calls.length) →
      w.cfg.readQuorum ≤ (answering (.value x) (answers u.calls.length past)).length) :
    s.Decides w u.calls.length (fun result => ∃ y, result = .value y ∧
      w.cfg.readQuorum ≤ (answering (.value y)
        (answers u.calls.length (beforeEnd u.calls.length past))).length) past := by
  have counts (goes : ¬ ∃ x ∈ past, x.2.2 = .cancel u.calls.length) : ∃ y,
      countAnswers w.cfg.readQuorum ((answers u.calls.length past).map fun a => a.2.answer) ∅ 0
        none = .value y ∧ w.cfg.readQuorum ≤ (answering (.value y)
          (answers u.calls.length (beforeEnd u.calls.length past))).length := by
    rw [beforeEnd_of_goes goes]
    exact countAnswers_of_enough positive (enough goes)
  refine ⟨fun call result there done => ?_, fun call there phase idle t => ?_⟩
  · obtain ⟨_, results, polled⟩ := read_after_start reg mode member starts run there
    rw [goes_iff]
    cases polled with
    | visiting phase => cases done.symm.trans phase
    | cancelled phase ended =>
        obtain rfl := Phase.returned.inj (done.symm.trans phase)
        exact iff_of_false nofun fun goes => goes ended
    | counted phase goes =>
        obtain rfl := Phase.returned.inj (done.symm.trans phase)
        rw [results]
        exact iff_of_true (counts goes) goes
  · obtain ⟨read, results, polled⟩ := read_after_start reg mode member starts run there
    have goes : ¬ ∃ x ∈ past, x.2.2 = .cancel u.calls.length := by
      cases polled with
      | visiting _ goes | counted _ goes => exact goes
      | cancelled returned => cases phase.symm.trans returned
    obtain ⟨s', next, moved⟩ := exec_finish there phase idle (w := w) t
    refine ⟨s', _, _, next, moved, ?_, counts goes⟩
    simp only [Call.finish, read]
    rw [if_pos (Call.polls_of_mode read mode), results]

end Start

/-- Let enough nodes answer a call before its context ends: acknowledge a `WriteSet` whose
local `Set` has succeeded, or give a quorum read the same value. Whatever the other nodes
do, the call stores the value or returns one that enough nodes have exactly if its context
does not end while it waits for them. -/
theorem quorum_is_enough {w : Setup} (valid : w.cfg.validate = none) (on : w.cfg.enabled = true)
    {past₀ : List (Sys × Int × Action)} {u : Sys} (before : Run w past₀ u) (now : Int)
    (node key : String) :
    (∀ value ttl v past s, w.isPrimary node key = true →
      ((u.procs node).store.set now key value ttl).2 = none →
      exec w u (now, .start node (.set key value ttl)) = .ok v → RunFrom w v past s →
      w.cfg.requiredWriteAcks ≤
        (answers u.calls.length (beforeEnd u.calls.length past)).length →
      s.Decides w u.calls.length (· = .stored) past) ∧
    (∀ x v past s, w.cfg.readConsistency ≠ .primary ∧ w.cfg.readConsistency ≠ .any →
      node ∈ w.owners key →
      exec w u (now, .start node (.read key)) = .ok v → RunFrom w v past s →
      w.cfg.readQuorum ≤ (answering (.value x)
        (answers u.calls.length (beforeEnd u.calls.length past))).length →
      s.Decides w u.calls.length (fun result => ∃ y, result = .value y ∧
        w.cfg.readQuorum ≤ (answering (.value y)
          (answers u.calls.length (beforeEnd u.calls.length past))).length) past) := by
  constructor
  · intro value ttl v past s primary ok starts run enough
    refine write_decides primary ok starts run fun goes => ?_
    rw [Setup.required, if_pos on]
    rwa [beforeEnd_of_goes goes] at enough
  · intro x v past s mode member starts run enough
    refine read_decides before.regular mode ?_ member starts run (x := x) fun goes => ?_
    · have := (Config.validate_enabled valid on).1
      omega
    · rwa [beforeEnd_of_goes goes] at enough

/-- Call 0 at `a` is answered by `b`, while `c` has it wait. -/
def hanging (op : Op) (req : Request) (b : Response) : List (Int × Action) :=
  [.start "a" op, .advance 0, .advance 0, .advance 0, .deliver (.request 0 "b" req),
    .deliver (.response 0 "b" req b)].map fun a => (0, a)

/-- The connection to `c` fails in time. -/
theorem quorum_is_enough_failing : ∃ (past : List (Sys × Int × Action)) (s : Sys),
    (∀ x ∈ past, x.2.2 ≠ .cancel 0) ∧ (∃ call ∈ s.calls[0]?, ∃ result,
      call.phase = .returned result ∧ result = .stored) := by
  obtain ⟨past, s, run, seen⟩ := RunFrom.of_steps sample
    ((Sys.empty fun _ => 0).started sample 0 "a" (.set "k" [1] 0))
    ((hanging (.set "k" [1] 0) (.replSet "k" [1] 0) .ok).tail ++
      [(0, .fail 0 "c" (.replSet "k" [1] 0)), (0, .advance 0)])
    (fun past s => decide (sample.cfg.requiredWriteAcks ≤ (answers 0 (beforeEnd 0 past)).length ∧
      ∀ x ∈ past, x.2.2 ≠ .cancel 0) &&
      s.calls[0]?.any fun call : Call => decide (call.phase = .returned .stored)) (by decide)
  obtain ⟨run', seen⟩ := (Bool.and_eq_true _ _).mp seen
  obtain ⟨enough, goes⟩ := of_decide_eq_true run'
  obtain ⟨call, found, done⟩ := (Option.any_eq_true _ _).mp seen
  have done := of_decide_eq_true done
  exact ⟨past, s, goes, call, found, .stored, done, ((quorum_is_enough (w := sample) (by decide)
    (by decide) (.start (Sys.empty_initial fun _ => 0)) 0 "a" "k").1 [1] 0 _ past s (by decide)
    (by decide) rfl run enough).returned call .stored found done |>.mpr goes⟩

/-- The context of a write and of a read ends while `c` has them wait. -/
theorem quorum_not_enough :
    sample.cfg.validate = none ∧ sample.cfg.enabled = true ∧ sample.ring.Built ∧
    (∃ (past : List (Sys × Int × Action)) (s : Sys),
      RunFrom sample (.empty fun _ => 0) past s ∧ sample.isPrimary "a" "k" = true ∧
      sample.cfg.requiredWriteAcks ≤ (answers 0 (beforeEnd 0 past)).length ∧
      s.Returned 0 "a" (.set "k" [1] 0) (.error .contextDone)) ∧
    ∃ (past : List (Sys × Int × Action)) (s : Sys),
      RunFrom sample (.holding (fun _ => 0) fun _ => some ([1], 0)) past s ∧
      "a" ∈ sample.owners "k" ∧ sample.cfg.readQuorum ≤
        (answering (.value [1]) (answers 0 (beforeEnd 0 past))).length ∧
      s.Returned 0 "a" (.read "k") (.error .contextDone) := by
  obtain ⟨past, s, run, seen⟩ := RunFrom.of_steps sample (.empty fun _ => 0)
    (hanging (.set "k" [1] 0) (.replSet "k" [1] 0) .ok ++ [(0, .cancel 0)])
    (fun past s => decide (
      sample.cfg.requiredWriteAcks ≤ (answers 0 (beforeEnd 0 past)).length ∧
      s.Returned 0 "a" (.set "k" [1] 0) (.error .contextDone))) (by decide)
  obtain ⟨past', s', run', seen'⟩ := RunFrom.of_steps sample
    (.holding (fun _ => 0) fun _ => some ([1], 0))
    (hanging (.read "k") (.replGet "k") (.value [1]) ++ [(0, .getLocal 0), (0, .cancel 0)])
    (fun past s => decide (sample.cfg.readQuorum ≤
        (answering (.value [1]) (answers 0 (beforeEnd 0 past))).length ∧
      s.Returned 0 "a" (.read "k") (.error .contextDone))) (by decide)
  exact ⟨by decide, by decide, sampleRing_built,
    ⟨past, s, run, by decide, of_decide_eq_true seen⟩,
    past', s', run', by decide, of_decide_eq_true seen'⟩

end DistributedCache.Replication
