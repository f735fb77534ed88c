import DistributedCache.Replication.Smooth

/-!
In a smooth run no round trip is forgotten: each one whose answer is still out has a
message under way. A quorum read can therefore always go on until it returns.
-/
namespace DistributedCache.Replication

variable {w : Setup} {now : Int} {s s' : Sys} {a : Action} {m c : Nat} {call call' : Call}
  {k : String}

/-- The request or the response of every round trip is under way. -/
def Sys.Carried (m : Nat) (s : Sys) : Prop :=
  ∀ (c : Nat) (call : Call) (peer : String), m ≤ c → s.calls[c]? = some call →
    (peer, call.request) ∈ call.running → peer ≠ call.node →
      .request c peer call.request ∈ s.net ∨ ∃ resp, .response c peer call.request resp ∈ s.net

/-- A smooth step takes no message but the one it delivers. -/
theorem Step.stays (step : Step w now s a s') (smooth : a.smooth = true) {msg : Msg}
    (mem : msg ∈ s.net) : msg ∈ s'.net ∨ a = .deliver msg := by
  have erased {msg' : Msg} (act : a = .deliver msg') :
      msg ∈ s.net.erase msg' ∨ a = .deliver msg := by
    by_cases same : msg = msg'
    · subst same
      exact .inr act
    · exact .inl ((List.mem_erase_of_ne same).mpr mem)
  cases step with
  | start | mark | cleanupExpired => exact .inl mem
  | move found moves sent =>
      refine Or.imp_left (List.mem_append_left _) ?_
      unfold Action.remaining
      split
      · exact erased rfl
      · exact .inl mem
  | handle => exact (erased rfl).imp_left (List.mem_append_left _)
  | late => exact erased rfl
  | lose => cases smooth

/-- A request that is delivered is answered. -/
theorem Step.responds {peer : String} {req : Request}
    (step : Step w now s (.deliver (.request c peer req)) s') :
    ∃ resp, .response c peer req resp ∈ s'.net := by
  generalize act : Action.deliver (.request c peer req) = a at step
  cases step with
  | move found moves sent =>
      cases moves with
      | answer _ ends | refuse _ ends | fetched _ _ _ ends | settle _ _ ends =>
          cases ends <;> cases act
      | _ => cases act
  | handle sent =>
      cases act
      exact ⟨_, List.mem_append_right _ (List.mem_singleton.mpr rfl)⟩
  | _ => cases act

theorem Call.Spread.ended_not_mem (spread : call.Spread w) (ring : w.ring.Sound) {peer : String}
    (waits : (peer, call.request) ∈ call.running) :
    (peer, call.request) ∉ (call.ended peer call.request).running := by
  intro again
  have pending : call.pending.Nodup := by
    have nodup := nodup_of_subperm spread.ids ((Setup.nodup_owners ring _).filter _)
    exact (List.nodup_append.mp (List.nodup_append.mp nodup).2.1).1
  refine (List.nodup_cons.mp ((Call.pending_ended waits).nodup_iff.mp pending)).1 ?_
  exact List.mem_map.mpr ⟨_, List.mem_filter.mpr ⟨again, decide_eq_true rfl⟩, rfl⟩

/-- A response that is delivered ends its round trip. -/
theorem Step.receives {peer : String} {resp : Response}
    (step : Step w now s (.deliver (.response c peer call.request resp)) s')
    (reg : s.Regular w) (ring : w.ring.Sound) (found : s.calls[c]? = some call)
    (waits : (peer, call.request) ∈ call.running) (there : s'.calls[c]? = some call') :
    (peer, call.request) ∉ call'.running := by
  generalize act : Action.deliver (.response c peer call.request resp) = a at step
  cases step with
  | @move _ d mover mover' p out here moves sent =>
      have moved : (s.calls.set d mover')[d]? = some mover' :=
        (getElem?_set_found here d).trans (if_pos rfl)
      have gone {peer' : String} {req : Request} {outcome : Option Response}
          (ends : Ends d mover.node peer' req outcome a) (runs : mover'.running =
            (mover.ended peer' req).running) : (peer, call.request) ∉ call'.running := by
        cases ends with
        | response told =>
            cases act
            obtain rfl := Option.some.inj (here.symm.trans found)
            obtain rfl := Option.some.inj (moved.symm.trans there)
            rw [runs]
            exact (reg.calls c mover here).ended_not_mem ring waits
        | fail => cases act
      cases moves with
      | answer _ ends | refuse _ ends | fetched _ _ _ ends | settle _ _ ends => exact gone ends rfl
      | _ => cases act
  | late sent nobody =>
      cases act
      exact absurd waits (nobody call found)
  | _ => cases act

/-- A call waits for what it waited for, or has just sent the request. -/
theorem Call.Moves.waited {p p' : Proc} {out : List (String × Request)}
    (moves : call.Moves w now p c a p' call' out) (spread : call.Spread w) {peer : String}
    (waits : (peer, call.request) ∈ call'.running) (other : peer ≠ call.node) :
    (peer, call.request) ∈ call.running ∨ (peer, call.request) ∈ out := by
  cases moves with
  | contact phase wanted =>
      cases List.mem_append.mp waits with
      | inl old => exact .inl old
      | inr new =>
          cases List.mem_singleton.mp new
          rw [if_neg other]
          exact .inr (List.mem_singleton.mpr rfl)
  | undo phase idle =>
      have writes := (spread.undoing _ phase).1
      have same := (Prod.mk.inj (List.mem_singleton.mp waits)).2
      exact absurd same.symm (Call.takesBack_ne_request writes)
  | answer | fetched | refuse | settle | getLocal => exact .inl (List.mem_of_mem_erase waits)
  | skip | stored | deleted | short | answered | exhausted => exact .inl waits
  | undoneSet | undone | cancelSet | cancelRead => exact .inl waits

theorem Step.waited (step : Step w now s a s') (reg : s.Regular w)
    (there : s'.calls[c]? = some call') {peer : String}
    (waits : (peer, call'.request) ∈ call'.running) (other : peer ≠ call'.node) :
    (∃ call : Call, s.calls[c]? = some call ∧ call.Same call' ∧
      (peer, call.request) ∈ call.running) ∨ .request c peer call'.request ∈ s'.net := by
  have same (found : s.calls[c]? = some call') : ∃ call : Call, s.calls[c]? = some call ∧
      call.Same call' ∧ (peer, call.request) ∈ call.running := ⟨call', found, .refl call', waits⟩
  cases step with
  | start started =>
      rcases (Step.start started).call_cases there with found | ⟨_, _, _, _, moves, _⟩ |
        ⟨_, _, _, _, _, started', _⟩
      · exact .inl (same found)
      · exact absurd moves Call.Moves.not_start
      · rw [started'.same.2.2.1] at waits
        cases waits
  | @move _ d mover mover' p out here moves sent =>
      rw [getElem?_set_found here] at there
      split at there
      · rename_i index
        subst index
        cases there
        rw [moves.same.request] at waits ⊢
        rw [moves.same.node] at other
        cases moves.waited (reg.calls d mover here) waits other with
        | inl before => exact .inl ⟨mover, here, moves.same, before⟩
        | inr sends =>
            exact .inr (List.mem_append_right _ (List.mem_map.mpr ⟨_, sends, rfl⟩))
      · exact .inl (same there)
  | handle | late | lose | mark | cleanupExpired => exact .inl (same there)

theorem Sys.Carried.step (h : s.Carried m) (reg : s.Regular w) (ring : w.ring.Sound)
    (smooth : a.smooth = true) (step : Step w now s a s') : s'.Carried m := by
  intro c call' peer late there waits other
  rcases step.waited reg there waits other with ⟨call, found, same, before⟩ | sent
  · rw [same.request] at waits ⊢
    rw [same.node] at other
    rcases h c call peer late found before other with asked | ⟨resp, told⟩
    · rcases step.stays smooth asked with stays | rfl
      · exact .inl stays
      · exact .inr step.responds
    · rcases step.stays smooth told with stays | rfl
      · exact .inr ⟨resp, stays⟩
      · exact absurd waits (step.receives reg ring found before there)
  · exact .inl sent

def Msg.isRequest : Msg → Bool
  | .request _ _ _ => true
  | .response _ _ _ _ => false

/-- How far a call is from its return: a node that is still ahead costs the contact, the
request and the response. -/
def Call.left (call : Call) : Nat :=
  call.running.length + match call.phase with
    | .visiting rest => 3 * rest.length + 1
    | .undoing _ => 1
    | .returned _ => 0

def Sys.left (c : Nat) (s : Sys) : Nat :=
  s.calls[c]?.elim 0 Call.left + s.net.countP Msg.isRequest

theorem Sys.left_of_found (found : s.calls[c]? = some call) :
    s.left c = call.left + s.net.countP Msg.isRequest := by
  rw [left, found]
  rfl

theorem Sys.left_set (found : s.calls[c]? = some call) {procs : String → Proc} {net : List Msg} :
    Sys.left c ⟨procs, s.calls.set c call', net⟩ = call'.left + net.countP Msg.isRequest :=
  Sys.left_of_found ((getElem?_set_found found c).trans (if_pos rfl))

theorem Call.oneByOne_of_polls (polls : call.polls w = true) : call.oneByOne w = false := by
  obtain ⟨key, op⟩ := call.read_of_polls polls
  simpa [Call.polls, Call.oneByOne, op] using polls

/-- Every message that a quorum read takes is one less to wait for. -/
theorem Call.Moves.left {p p' : Proc} {msg : Msg} {out : List (String × Request)}
    (moves : call.Moves w now p c (.deliver msg) p' call' out) (polls : call.polls w = true) :
    call'.left < call.left := by
  have less {peer : String} {req : Request} (waits : (peer, req) ∈ call.running) :
      (call.ended peer req).left < call.left := by
    have := List.length_erase_of_mem waits
    have := List.length_pos_of_mem waits
    dsimp only [Call.left, Call.ended]
    omega
  cases moves with
  | answer waits | refuse waits | settle waits => exact less waits
  | fetched _ silent => cases silent.symm.trans polls

section Steps

variable (now : Int) (found : s.calls[c]? = some call) (polls : call.polls w = true)
include found polls

theorem Sys.visit_left {node : Cluster.Node} {rest : List Cluster.Node}
    (phase : call.phase = .visiting (node :: rest)) :
    ∃ s', exec w s (now, .advance c) = .ok s' ∧ s'.left c < s.left c := by
  have several := Call.oneByOne_of_polls polls
  have before : s.left c = call.running.length + (3 * (rest.length + 1) + 1) +
      s.net.countP Msg.isRequest := by
    rw [Sys.left_of_found found, Call.left, phase]
    rfl
  cases skips : call.skips w (s.procs call.node) node with
  | true =>
      refine ⟨_, by simp only [exec, found, Call.advance, phase, several, skips]; rfl, ?_⟩
      rw [Sys.send, Sys.resume, Sys.left_set found, before, Call.left, List.countP_append]
      dsimp only [Sys.put]
      rw [List.map_nil, List.countP_nil]
      omega
  | false =>
      refine ⟨_, by simp only [exec, found, Call.advance, phase, several, skips]; rfl, ?_⟩
      rw [Sys.send, Sys.resume, Sys.left_set found, before, Call.left, List.countP_append,
        List.length_append, List.length_singleton]
      dsimp only [Sys.put]
      have sent : List.countP Msg.isRequest (List.map (fun r => Msg.request c r.1 r.2)
          (if node.id = call.node then [] else [(node.id, call.request)])) ≤ 1 := by
        split <;> simp [Msg.isRequest]
      omega

theorem Sys.count_left (phase : call.phase = .visiting []) (idle : call.running = []) :
    ∃ s', exec w s (now, .advance c) = .ok s' ∧ s'.left c < s.left c := by
  obtain ⟨key, op⟩ := call.read_of_polls polls
  have finished : (call.finish w now (s.procs call.node)).2.left = 0 := by
    simp [Call.finish, op, polls, Call.left, idle]
  refine ⟨_, by simp only [exec, found, Call.advance, phase, idle]; rfl, ?_⟩
  rw [Sys.send, Sys.resume, Sys.left_set found, Sys.left_of_found found, finished, Call.left, phase]
  dsimp only [Sys.put]
  rw [List.map_nil, List.append_nil]
  omega

theorem Sys.getLocal_left (waits : (call.node, call.request) ∈ call.running) :
    ∃ s', exec w s (now, .getLocal c) = .ok s' ∧ s'.left c < s.left c := by
  refine ⟨_, by simp only [exec, found, polls, waits]; rfl, ?_⟩
  rw [Sys.resume, Sys.left_set found, Sys.left_of_found found, Call.left, Call.left]
  have less := List.length_erase_of_mem waits
  have some := List.length_pos_of_mem waits
  dsimp only [Sys.put, Call.getLocal]
  omega

omit polls in
theorem Sys.respond_left {peer : String} (sent : .request c peer call.request ∈ s.net) :
    ∃ s', exec w s (now, .deliver (.request c peer call.request)) = .ok s' ∧
      s'.left c < s.left c := by
  refine ⟨_, by simp only [exec, sent]; rfl, ?_⟩
  have asked := (List.perm_cons_erase sent).countP_eq Msg.isRequest
  rw [List.countP_cons_of_pos rfl] at asked
  rw [Sys.left_of_found found]
  refine lt_of_eq_of_lt (Sys.left_of_found found) ?_
  dsimp only [Sys.send, Sys.put, Sys.take]
  rw [asked, List.countP_append]
  change _ + (_ + 0) < _
  omega

theorem Sys.receive_left {peer : String} {resp : Response}
    (sent : .response c peer call.request resp ∈ s.net)
    (waits : (peer, call.request) ∈ call.running) :
    ∃ s', exec w s (now, .deliver (.response c peer call.request resp)) = .ok s' ∧
      s'.left c < s.left c := by
  refine ⟨_, by simp only [exec, sent]; rfl, ?_⟩
  have moves : call.Moves w now (s.procs call.node) c
      (.deliver (.response c peer call.request resp)) _ _ [] := .of_complete waits (.response rfl)
  have fewer := moves.left polls
  have net := (List.erase_sublist (a := Msg.response c peer call.request resp)
    (l := s.net)).countP_le (p := Msg.isRequest)
  have taken : (s.take (.response c peer call.request resp)).calls[c]? = some call := found
  rw [receive, taken]
  dsimp only
  rw [if_pos waits, Sys.resume, Sys.left_of_found found]
  refine lt_of_eq_of_lt (Sys.left_set taken) ?_
  dsimp only [Sys.put, Sys.take]
  omega

end Steps

open Transition in
/-- From every state of a smooth run, a quorum read can go on to its return. -/
theorem Sys.Carried.returns (now : Int) (carried : s.Carried m) (reg : s.Regular w)
    (ring : w.ring.Sound) (late : m ≤ c) (found : s.calls[c]? = some call)
    (polls : call.polls w = true) :
    ∃ past s', RunFrom w s past s' ∧ Meets Calm past ∧ ∃ (call' : Call) (result : Result),
      s'.calls[c]? = some call' ∧ call.Same call' ∧ call'.phase = .returned result := by
  refine Run.reaches (I := fun s => s.Regular w ∧ s.Carried m ∧
    ∃ call' : Call, s.calls[c]? = some call' ∧ call.Same call') (Sys.left c) ?_ s
    ⟨reg, carried, call, found, .refl call⟩
  rintro s ⟨reg, carried, call', found, same⟩ running
  have polls : call'.polls w = true := same.polls.trans polls
  have spread := reg.calls c call' found
  obtain ⟨key, op⟩ := call'.read_of_polls polls
  have next {a : Action} (step : ∃ s', exec w s (now, a) = .ok s' ∧ s'.left c < s.left c)
      (calm : Calm s (now, a)) : ∃ x s', Calm s x ∧ exec w s x = .ok s' ∧
        (s'.Regular w ∧ s'.Carried m ∧ ∃ call' : Call, s'.calls[c]? = some call' ∧
          call.Same call') ∧ s'.left c < s.left c := by
    obtain ⟨s', exec, less⟩ := step
    obtain ⟨call'', there, same'⟩ := (exec_step exec).persists found
    exact ⟨_, s', calm, exec, ⟨reg.step (exec_step exec),
      carried.step reg ring calm.1 (exec_step exec), call'', there, same.trans same'⟩, less⟩
  cases phase : call'.phase with
  | returned result => exact absurd ⟨call', result, found, same, phase⟩ running
  | undoing rest => exact absurd op ((spread.undoing rest phase).1 key)
  | visiting rest =>
      cases rest with
      | cons node rest => exact next (Sys.visit_left now found polls phase) (of_decide_eq_true rfl)
      | nil =>
          cases busy : call'.running with
          | nil => exact next (Sys.count_left now found polls phase busy) (of_decide_eq_true rfl)
          | cons r rest =>
              have waits : r ∈ call'.running := busy ▸ List.mem_cons_self
              -- A read takes nothing back, so it waits for answers to its own request.
              have main : r = (r.1, call'.request) := by
                have ours := (spread.running r waits).2
                rw [Call.takesBack, Call.request, op, or_self] at ours
                rw [Call.request, op, ← ours]
              rw [main] at waits
              by_cases own : r.1 = call'.node
              · rw [own] at waits
                exact next (Sys.getLocal_left now found polls waits) (of_decide_eq_true rfl)
              · rcases carried c call' r.1 late found waits own with asked | ⟨resp, told⟩
                · exact next (Sys.respond_left now found asked) (of_decide_eq_true rfl)
                · exact next (Sys.receive_left now found polls told waits) (of_decide_eq_true rfl)

end DistributedCache.Replication
