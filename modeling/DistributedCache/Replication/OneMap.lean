import DistributedCache.Replication.Keeping

/-!
The nodes as one map. In an orderly run on unlimited stores every call returns what it would
return on one map, in the order in which the calls start, and no call has to wait for ever.
-/
namespace DistributedCache.Replication

open Transition

variable {w : Setup} {now : Int} {s s' : Sys} {a : Action} {c : Nat} {call call' : Call}
  {p p' : Proc}

section Progress

/-- A step of a call's own thread that brings it nearer to its return. -/
theorem Sys.advance_left {out : List (String × Request)} (found : s.calls[c]? = some call)
    (advance : call.advance w now (s.procs call.node) = some (p, call', out))
    (less : call'.left + out.length < call.left) :
    ∃ s', exec w s (now, .advance c) = .ok s' ∧ s'.left c < s.left c := by
  refine ⟨_, by simp only [exec, found, advance]; rfl, ?_⟩
  have sent := List.countP_le_length (p := Msg.isRequest)
    (l := out.map fun r => Msg.request c r.1 r.2)
  rw [List.length_map] at sent
  rw [Sys.send, Sys.resume, Sys.left_set found, Sys.left_of_found found, List.countP_append]
  dsimp only [Sys.put]
  omega

/-- A call turns to its next node when it does not wait for the one before. -/
theorem Sys.visits {node : Cluster.Node} {rest : List Cluster.Node} (now : Int)
    (found : s.calls[c]? = some call) (phase : call.phase = .visiting (node :: rest))
    (free : ¬ (call.oneByOne w = true ∧ call.running ≠ [])) :
    ∃ s', exec w s (now, .advance c) = .ok s' ∧ s'.left c < s.left c := by
  have before : call.left = call.running.length + (3 * (rest.length + 1) + 1) := by
    rw [Call.left, phase]
    rfl
  cases skips : call.skips w (s.procs call.node) node with
  | true =>
      refine Sys.advance_left found (by
        rw [Call.advance, phase]
        dsimp only
        rw [if_neg free, if_pos skips]) ?_
      rw [before]
      change call.running.length + (3 * rest.length + 1) + 0 < _
      omega
  | false =>
      refine Sys.advance_left found (by
        rw [Call.advance, phase]
        dsimp only
        rw [if_neg free, skips, if_neg Bool.false_ne_true]) ?_
      have one : (if node.id = call.node then [] else [(node.id, call.request)]).length ≤ 1 := by
        split <;> simp
      rw [before]
      change (call.running ++ [(node.id, call.request)]).length + (3 * rest.length + 1) + _ < _
      rw [List.length_append, List.length_singleton]
      omega

theorem Call.Moves.nearer {msg : Msg} {out : List (String × Request)}
    (moves : call.Moves w now p c (.deliver msg) p' call' out) : call'.left < call.left := by
  have less {peer : String} {req : Request} (waits : (peer, req) ∈ call.running) :
      (call.ended peer req).running.length < call.running.length := by
    have := List.length_erase_of_mem waits
    have := List.length_pos_of_mem waits
    dsimp only [Call.ended]
    omega
  cases moves with
  | answer waits | refuse waits | settle waits => exact Nat.add_lt_add_right (less waits) _
  | fetched _ _ waits => exact (less waits).trans_le (Nat.le_add_right _ _)

/-- A response that is waited for brings its call nearer to its return. -/
theorem Sys.receives {peer : String} {resp : Response} (w : Setup) (now : Int)
    (found : s.calls[c]? = some call) (sent : .response c peer call.request resp ∈ s.net)
    (waits : (peer, call.request) ∈ call.running) :
    ∃ s', exec w s (now, .deliver (.response c peer call.request resp)) = .ok s' ∧
      s'.left c < s.left c := by
  refine ⟨_, by simp only [exec, sent]; rfl, ?_⟩
  have moves : call.Moves w now (s.procs call.node) c
      (.deliver (.response c peer call.request resp)) _ _ [] := .of_complete waits (.response rfl)
  have fewer := moves.nearer
  have net := (List.erase_sublist (a := Msg.response c peer call.request resp)
    (l := s.net)).countP_le (p := Msg.isRequest)
  have taken : (s.take (.response c peer call.request resp)).calls[c]? = some call := found
  rw [receive, taken]
  dsimp only
  rw [if_pos waits, Sys.resume, Sys.left_of_found found]
  refine lt_of_eq_of_lt (Sys.left_set taken) ?_
  dsimp only [Sys.put, Sys.take]
  omega

section Running

variable {m₀ : Contents} (h : s.InStep w m₀) (ample : w.Ample)
  (found : s.calls[c]? = some call) (now : Int)
include h found

/-- What a call waits for can come back. -/
theorem Sys.InStep.comes_back (busy : call.running ≠ []) : ∃ a s', Calm s (now, a) ∧
    exec w s (now, a) = .ok s' ∧ s'.left c < s.left c := by
  obtain ⟨r, waits⟩ := List.exists_mem_of_ne_nil _ busy
  have target := ((h.regular.calls c call found).running r waits).1
  have asks : r = (r.1, call.request) := by
    rw [← (h.forward c call found).asks r waits]
  rw [asks] at waits
  by_cases own : r.1 = call.node
  · have polls : call.polls w = true := by
      have aims := (List.mem_filter.mp target).2
      rw [Call.aims, own] at aims
      simpa using aims
    rw [own] at waits
    obtain ⟨s', exec, less⟩ := Sys.getLocal_left now found polls waits
    exact ⟨_, s', of_decide_eq_true rfl, exec, less⟩
  · rcases h.carried c call r.1 (Nat.zero_le c) found waits own with asked | ⟨resp, told⟩
    · obtain ⟨s', exec, less⟩ := Sys.respond_left (w := w) now found asked
      exact ⟨_, s', of_decide_eq_true rfl, exec, less⟩
    · obtain ⟨s', exec, less⟩ := Sys.receives w now found told waits
      exact ⟨_, s', of_decide_eq_true rfl, exec, less⟩

include ample

/-- A call that has heard everybody returns. -/
theorem Sys.InStep.finishes (phase : call.phase = .visiting []) (idle : call.running = []) :
    ∃ s', exec w s (now, .advance c) = .ok s' ∧ s'.left c < s.left c := by
  have enough (writes : ∀ key, call.op ≠ .read key) : ¬ call.results.length < w.required := by
    have thorough := h.complete.calls c call (Nat.zero_le c) found fun key read =>
      absurd read (writes key)
    have primary := (h.taken c call found).primary (Op.isRead_of_ne writes)
    exact Int.not_lt.mpr (thorough.enough ample (Op.isRead_of_ne writes) primary phase idle)
  have done : (call.finish w now (s.procs call.node)).2.left = 0 := by
    unfold Call.finish
    cases op : call.op with
    | set key value ttl | delete key =>
        dsimp only
        rw [if_neg (enough (by simp [op])), Call.left]
        exact congrArg List.length idle
    | read key =>
        dsimp only
        split <;> exact congrArg List.length idle
  refine Sys.advance_left found (by
    rw [Call.advance, phase]
    dsimp only
    rw [if_neg (fun busy => busy idle)]) ?_
  rw [done, Call.left, phase]
  exact Nat.succ_pos _

/-- As long as a call has not returned, some step brings it nearer to its return. -/
theorem Sys.InStep.goes_on (goes : call.hasReturned = false) : ∃ a s', Calm s (now, a) ∧
    exec w s (now, a) = .ok s' ∧ s'.left c < s.left c := by
  obtain ⟨rest, phase⟩ := (h.forward c call found).visiting goes
  by_cases idle : call.running = []
  · cases rest with
    | nil =>
        obtain ⟨s', exec, less⟩ := h.finishes ample found now phase idle
        exact ⟨_, s', of_decide_eq_true rfl, exec, less⟩
    | cons node rest =>
        obtain ⟨s', exec, less⟩ := Sys.visits (w := w) now found phase fun waits => waits.2 idle
        exact ⟨_, s', of_decide_eq_true rfl, exec, less⟩
  · exact h.comes_back found now idle

/-- Every call can go on to its return. -/
theorem Sys.InStep.returns : ∃ more s', RunFrom w s more s' ∧ Meets Calm more ∧
    s'.Returned c call.node call.op (call.op.onMap (mapAfter m₀ (s.ops.take c))).2 := by
  have reached : ∃ more s', RunFrom w s more s' ∧ Meets Calm more ∧
      s'.InStep w m₀ ∧ s'.ops.take c = s.ops.take c ∧
        ∃ call' : Call, s'.calls[c]? = some call' ∧ call.Same call' ∧
          call'.hasReturned = true := by
    refine Run.reaches (I := fun t => t.InStep w m₀ ∧ t.ops.take c = s.ops.take c ∧
      ∃ call' : Call, t.calls[c]? = some call' ∧ call.Same call') (Sys.left c) ?_ s
      ⟨h, rfl, call, found, .refl call⟩
    rintro t ⟨h, ops, call', there, same⟩ running
    have goes : call'.hasReturned = false := by
      refine Bool.eq_false_iff.mpr fun returned => running ?_
      exact ⟨h, ops, call', there, same, returned⟩
    obtain ⟨a, t', calm, exec, less⟩ := h.goes_on ample there 0 goes
    have step := exec_step exec
    obtain ⟨call'', there', same'⟩ := step.persists there
    refine ⟨(0, a), t', calm, exec, ⟨h.step ample calm.orderly step, ?_, call'', there',
      same.trans same'⟩, less⟩
    rw [step.take_ops (List.getElem?_eq_some_iff.mp there).1.le]
    exact ops
  obtain ⟨more, s', run, calm, h', ops, call', there, same, returned⟩ := reached
  obtain ⟨result, done⟩ := call'.returned_of returned
  have result := h'.results c call' result there done
  rw [ops, same.op] at result
  exact ⟨more, s', run, calm, call', there, same.node, same.op, result ▸ done⟩

end Running

end Progress

/-- Let writes wait for somebody, let the ring have enough members and no collisions, and let
the nodes start healthy, unlimited and with the same contents. In an orderly run every call
that has returned has returned what one map would have, with the calls in the order of their
starts; where no call of a key runs, every node of its replica set has what the map has; and
every call can still return. -/
theorem replicas_act_as_one_map {w : Setup} (valid : w.cfg.validate = none)
    (on : w.cfg.enabled = true) (needs : 1 ≤ w.cfg.requiredWriteAcks)
    {ringCfg : Cluster.RingConfig} {joins : List (Cluster.Ring × Cluster.RingOp)}
    (virtual : 1 ≤ ringCfg.virtualNodes) (built : Cluster.RingRun ringCfg joins w.ring)
    (apart : Cluster.CollisionFree ringCfg (Cluster.everAdded joins))
    (members : w.cfg.replicationFactor ≤ w.ring.len)
    {m₀ : Contents} {u s : Sys} {past : List (Sys × Int × Action)} (initial : u.Initial)
    (free : u.Unlimited) (healthy : u.Healthy) (agrees : u.Agrees w m₀)
    (run : RunFrom w u past s) (orderly : Meets (Orderly w) past) :
    (∀ (c : Nat) (call : Call) (result : Result), s.calls[c]? = some call →
      call.phase = .returned result →
        result = (call.op.onMap (mapAfter m₀ (s.ops.take c))).2) ∧
    (∀ key, (∀ call ∈ s.calls, call.op.key = key → call.hasReturned = true) →
      ∀ i ∈ w.owners key, ∀ now, ((s.procs i).store.get now key).2 = mapAfter m₀ s.ops key) ∧
    ∀ (c : Nat) (call : Call), s.calls[c]? = some call → ∃ more s', RunFrom w s more s' ∧
      Meets Calm more ∧
        s'.Returned c call.node call.op (call.op.onMap (mapAfter m₀ (s.ops.take c))).2 := by
  have ample : w.Ample := .of_ring valid on needs (apart.whole virtual built)
    (apart.apart (Cluster.cfg_of_run virtual built) (Cluster.mem_everAdded built)) members
  have h := (initial.inStep free healthy agrees).run ample run orderly
  refine ⟨h.results, fun key returned i member now => ?_, fun c call found => ?_⟩
  · obtain ⟨m, settled⟩ := (h.keys key).of_free fun call mem same _ => returned call mem same
    exact (settled.holds i member).get now
  · exact h.returns ample found

/-- A write at `a`, then a read at `b` and one at `c` that overlap. The read at `b` has
returned, that at `c` has still to hear from `a`. -/
def overlapping : List (Int × Action) :=
  (0, .start "a" (.set "k" [1] 0)) :: (sampleAcks 0 "k" [1] ++
    [.start "b" (.read "k"), .start "c" (.read "k"), .advance 1, .advance 2, .advance 1,
      .advance 2, .advance 1, .advance 2, .getLocal 1, .getLocal 2,
      .deliver (.request 1 "a" (.replGet "k")), .deliver (.request 1 "c" (.replGet "k")),
      .deliver (.response 1 "c" (.replGet "k") (.value [1])),
      .deliver (.response 1 "a" (.replGet "k") (.value [1])), .advance 1].map fun a => (0, a))

theorem replicas_act_as_one_map_overlapping : ∃ (past : List (Sys × Int × Action)) (s s' : Sys)
    (more : List (Sys × Int × Action)), RunFrom sample (.empty fun _ => 0) past s ∧
      s.Returned 1 "b" (.read "k") (.value [1]) ∧ RunFrom sample s more s' ∧
      s'.Returned 2 "c" (.read "k") (.value [1]) := by
  obtain ⟨past, s, run, check⟩ := RunFrom.of_steps sample (.empty fun _ => 0) overlapping
    (fun past s => decide (Meets (Orderly sample) past ∧
      s.ops = [.set "k" [1] 0, .read "k", .read "k"] ∧
      s.Returned 1 "b" (.read "k") (.value [1]) ∧
      (s.calls[2]?.map fun call : Call => (call.node, call.op)) = some ("c", Op.read "k")))
    (by decide)
  obtain ⟨orderly, ops, returned, there⟩ := of_decide_eq_true check
  obtain ⟨call, found, same⟩ := Option.map_eq_some_iff.mp there
  obtain ⟨node, op⟩ := Prod.mk.inj same
  have built : Cluster.RingRun ⟨1, sampleHash⟩ _ sampleRing := Cluster.ringRun_ringTrace
    ⟨1, sampleHash⟩ [.add ⟨"a", "a:1"⟩, .add ⟨"b", "b:1"⟩, .add ⟨"c", "c:1"⟩]
  have agrees : Sys.Agrees sample (fun _ => none) (.empty fun _ => 0) := fun _ _ _ => rfl
  obtain ⟨_, _, returns⟩ := replicas_act_as_one_map (w := sample) (by decide) (by decide)
    (by decide) (by decide) built (by decide +kernel) (by decide) (Sys.empty_initial _)
    (fun _ => Int.le_refl 0) (fun _ _ => rfl) agrees run orderly
  obtain ⟨more, s', run', done⟩ := returns 2 call found
  rw [ops, node, op] at done
  exact ⟨past, s, s', more, run, returned, run', done.2⟩

end DistributedCache.Replication
