import DistributedCache.Replication.Calls

/-!
What holds in every state of every run: stores keep their representation, no node takes
itself for unhealthy, calls are spread, and messages belong to round trips of calls. A
step performs at most one operation on one store, and it writes a key only as a section
of a call that writes it, or for a request that does.
-/
namespace DistributedCache.Replication

def Op.writes (op : Op) (k : String) : Bool :=
  match op with
  | .set key _ _ | .delete key => key = k
  | .read _ => false

def Request.writes (req : Request) (k : String) : Bool :=
  match req with
  | .replSet key _ _ | .replDelete key => key = k
  | .replGet _ => false

namespace Msg

def call : Msg → Nat
  | request c _ _ | response c _ _ _ => c

def peer : Msg → String
  | request _ peer _ | response _ peer _ _ => peer

def req : Msg → Request
  | request _ _ req | response _ _ req _ => req

end Msg

/-- The step may write key `k` in the store of node `i`. -/
def Action.Touches (s : Sys) (a : Action) (i k : String) : Prop :=
  match a with
  | .start node op => node = i ∧ op.writes k = true
  | .deliver (.request _ peer req) => peer = i ∧ req.writes k = true
  | .advance c | .cancel c =>
      ∃ call, s.calls[c]? = some call ∧ call.node = i ∧ call.op.writes k = true
  | _ => False

/-- The store after at most one operation, which writes `k` only if it may. -/
def Acts (now : Int) (k : String) (may : Prop) (p p' : Proc) : Prop :=
  p'.store = p.store ∨
    ∃ o : Cache.Op, p'.store = (p.store.apply now o).1 ∧ (o.writes k = true → may)

section Acts

variable {w : Setup} {now : Int} {p p' : Proc} {c : Nat} {call call' : Call} {a : Action}
  {out : List (String × Request)} {k self : String} {may : Prop}

theorem Acts.sound (h : Acts now k may p p') (sound : p.store.Sound) : p'.store.Sound := by
  cases h with
  | inl same =>
      rw [same]
      exact sound
  | inr applied =>
      obtain ⟨o, eq, _⟩ := applied
      rw [eq]
      exact sound.apply now o

theorem Acts.maxBytes (h : Acts now k may p p') : p'.store.maxBytes = p.store.maxBytes := by
  cases h with
  | inl same => rw [same]
  | inr applied =>
      obtain ⟨o, eq, _⟩ := applied
      rw [eq]
      exact Cache.Store.maxBytes_apply _ now o

theorem Acts.get (p : Proc) (key : String) : Acts now k may p (p.get now key) :=
  .inr ⟨.get key, rfl, nofun⟩

theorem Started.acts {op : Op} (h : Started w now p self op p' call) :
    Acts now k (op.writes k = true) p p' := by
  cases h with
  | refused => exact .inl rfl
  | setFailed | setAlone | set => exact .inr ⟨.set _ _ _, rfl, id⟩
  | deleteMissing | deleteAlone | delete | lookupFailed | readPrimary | readAny | readPeers =>
      exact .get p _
  | readQuorum => exact .inl rfl

theorem Call.Moves.acts (m : call.Moves w now p c a p' call' out) :
    Acts now k ((a = .advance c ∨ a = .cancel c) ∧ call.op.writes k = true) p p' := by
  cases m with
  | deleted op => exact .inr ⟨.delete _, rfl, fun h => ⟨.inl rfl, by rw [op]; exact h⟩⟩
  | undoneSet op => exact .inr ⟨.delete _, rfl, fun h => ⟨.inl rfl, by rw [op]; exact h⟩⟩
  | cancelSet op => exact .inr ⟨.delete _, rfl, fun h => ⟨.inr rfl, by rw [op]; exact h⟩⟩
  | getLocal => exact .get p _
  | _ => exact .inl rfl

theorem serve_acts (w : Setup) (self : String) (now : Int) (p : Proc) (req : Request) :
    Acts now k (req.writes k = true) p (serve w self now p req).1 := by
  unfold serve
  cases req with
  | replSet key value ttl =>
      dsimp only
      split
      · exact .inr ⟨.set key value ttl, rfl, id⟩
      · exact .inl rfl
  | replDelete key =>
      dsimp only
      split
      · exact .inr ⟨.delete key, rfl, id⟩
      · exact .inl rfl
  | replGet key =>
      dsimp only
      split
      · exact .get p key
      · exact .inl rfl

/-- Replacing the manager of one node acts on no other store. -/
theorem Acts.update {s : Sys} {node : String} {q : Proc} (i : String)
    (here : i = node → Acts now k may (s.procs node) q) :
    Acts now k may (s.procs i) (Function.update s.procs node q i) := by
  by_cases same : i = node
  · subst same
    rw [Function.update_self]
    exact here rfl
  · rw [Function.update_of_ne same]
    exact .inl rfl

theorem Acts.imp {may' : Prop} (h : Acts now k may p p') (imp : may → may') :
    Acts now k may' p p' :=
  h.imp_right fun ⟨o, eq, writes⟩ => ⟨o, eq, fun wr => imp (writes wr)⟩

end Acts

variable {w : Setup} {now : Int} {s s' : Sys} {a : Action} {c : Nat} {call : Call}

theorem Step.acts (step : Step w now s a s') (i k : String) :
    Acts now k (a.Touches s i k) (s.procs i) (s'.procs i) := by
  cases step with
  | start started => exact .update i fun same => started.acts.imp fun wr => ⟨same.symm, wr⟩
  | move found moves sent =>
      refine .update i fun same => moves.acts.imp ?_
      rintro ⟨rfl | rfl, wr⟩
      · exact ⟨_, found, same.symm, wr⟩
      · exact ⟨_, found, same.symm, wr⟩
  | handle sent =>
      exact .update i fun same => (serve_acts w _ now _ _).imp fun wr => ⟨same.symm, wr⟩
  | late | lose => exact .inl rfl
  | mark healthy other => exact .update i fun _ => .inl rfl
  | cleanupExpired node => exact .update i fun _ => .inr ⟨.cleanupExpired, rfl, nofun⟩

theorem Step.sent {msg : Msg} (step : Step w now s (.deliver msg) s') : msg ∈ s.net := by
  cases step with
  | move _ _ sent => exact sent msg rfl
  | handle sent => exact sent
  | late sent => exact sent

theorem getElem?_set_found {calls : List Call} {call' : Call} (found : calls[c]? = some call)
    (d : Nat) : (calls.set c call')[d]? = if c = d then some call' else calls[d]? := by
  rw [List.getElem?_set]
  obtain ⟨bound, _⟩ := List.getElem?_eq_some_iff.mp found
  rw [if_pos bound]

theorem Step.length_le (step : Step w now s a s') : s.calls.length ≤ s'.calls.length := by
  cases step with
  | start => simp
  | move => simp
  | handle | late | lose | mark | cleanupExpired => exact Nat.le_refl _

theorem Step.persists (step : Step w now s a s') (found : s.calls[c]? = some call) :
    ∃ call', s'.calls[c]? = some call' ∧ call.Same call' := by
  cases step with
  | start started =>
      obtain ⟨bound, _⟩ := List.getElem?_eq_some_iff.mp found
      exact ⟨call, (List.getElem?_append_left bound).trans found, .refl call⟩
  | @move _ d mover mover' _ _ here moves sent =>
      by_cases same : d = c
      · subst same
        obtain rfl : mover = call := Option.some.inj (here.symm.trans found)
        exact ⟨mover', (getElem?_set_found here d).trans (if_pos rfl), moves.same⟩
      · exact ⟨call, ((getElem?_set_found here c).trans (if_neg same)).trans found, .refl call⟩
  | handle | late | lose | mark | cleanupExpired => exact ⟨call, found, .refl call⟩

/-- A call of the state after a step has not changed, or has taken the step, or has
started with it. -/
theorem Step.call_cases (step : Step w now s a s') (found : s'.calls[c]? = some call) :
    s.calls[c]? = some call ∨
      (∃ old p out, s.calls[c]? = some old ∧ old.Moves w now (s.procs old.node) c a p call out ∧
        s'.procs old.node = p ∧ ∀ msg, a = .deliver msg → msg ∈ s.net) ∨
      (c = s.calls.length ∧ ∃ node op p, a = .start node op ∧
        Started w now (s.procs node) node op p call ∧ s'.procs node = p) := by
  cases step with
  | @start node op p call' started =>
      have here : s.calls.length ≤ c → c = s.calls.length ∧ call' = call := by
        intro beyond
        rw [List.getElem?_append_right beyond] at found
        obtain ⟨bound, here⟩ := List.getElem?_eq_some_iff.mp found
        rw [List.length_singleton] at bound
        exact ⟨by omega, by simpa using here⟩
      by_cases old : c < s.calls.length
      · rw [List.getElem?_append_left old] at found
        exact .inl found
      · obtain ⟨last, rfl⟩ := here (Nat.le_of_not_lt old)
        exact .inr (.inr ⟨last, node, op, p, rfl, started, Function.update_self ..⟩)
  | @move a d mover mover' p out here moves sent =>
      rw [getElem?_set_found here] at found
      split at found
      · rename_i same
        subst same
        cases found
        exact .inr (.inl ⟨mover, p, out, here, moves, Function.update_self .., sent⟩)
      · exact .inl found
  | handle | late | lose | mark | cleanupExpired => exact .inl found

/-- What a step does to a call that has started before. -/
theorem Step.on_call {call' : Call} (step : Step w now s a s') (found : s.calls[c]? = some call)
    (there : s'.calls[c]? = some call') : call' = call ∨
      ∃ p out, call.Moves w now (s.procs call.node) c a p call' out ∧ s'.procs call.node = p := by
  rcases step.call_cases there with same | ⟨old, p, out, was, moves, eq, _⟩ | ⟨last, _⟩
  · exact .inl (Option.some.inj (same.symm.trans found))
  · obtain rfl := Option.some.inj (was.symm.trans found)
    exact .inr ⟨p, out, moves, eq⟩
  · obtain ⟨bound, _⟩ := List.getElem?_eq_some_iff.mp found
    omega

theorem Step.same {call' : Call} (step : Step w now s a s') (found : s.calls[c]? = some call)
    (there : s'.calls[c]? = some call') : call.Same call' := by
  obtain ⟨call'', there', same⟩ := step.persists found
  obtain rfl := Option.some.inj (there'.symm.trans there)
  exact same

/-- A result of a call was there before the step, or came with a response, or is what the
local store has. -/
theorem Step.result_cases (step : Step w now s a s') (there : s'.calls[c]? = some call)
    {r : String × Response} (mem : r ∈ call.results) :
    ∃ old : Call, s.calls[c]? = some old ∧ old.Same call ∧ (r ∈ old.results ∨
      (∃ resp, .response c r.1 old.request resp ∈ s.net ∧ old.request.outcome resp = some r.2) ∨
      ∃ key, old.op = .read key ∧ (old.node, old.request) ∈ old.running ∧
        r = (old.node, .ofGet ((s.procs old.node).store.get now key).2)) := by
  rcases step.call_cases there with same | ⟨old, q, out, was, moves, _, sent⟩ |
    ⟨_, _, _, _, _, started, _⟩
  · exact ⟨call, same, .refl call, .inl mem⟩
  · refine ⟨old, was, moves.same, ?_⟩
    cases moves with
    | @answer _ peer resp waits ends =>
        cases List.mem_append.mp mem with
        | inl mem => exact .inl mem
        | inr mem =>
            obtain rfl := List.mem_singleton.mp mem
            cases ends with
            | response told => exact .inr (.inl ⟨_, sent _ rfl, told⟩)
            | fail _ silent => cases silent
    | @getLocal key read polls waits =>
        cases List.mem_append.mp mem with
        | inl mem => exact .inl mem
        | inr mem => exact .inr (.inr ⟨key, read, waits, List.mem_singleton.mp mem⟩)
    | _ => exact .inl mem
  · rw [started.same.2.2.2] at mem
    cases mem

/-- What holds in every state of every run. -/
structure Sys.Regular (w : Setup) (s : Sys) : Prop where
  sound : ∀ i, (s.procs i).store.Sound
  self : ∀ i, (s.procs i).isHealthy i = true
  calls : ∀ (c : Nat) (call : Call), s.calls[c]? = some call → call.Spread w
  msgs : ∀ msg ∈ s.net, ∃ call : Call, s.calls[msg.call]? = some call ∧
    msg.peer ∈ call.targets w ∧ msg.peer ≠ call.node ∧
      (msg.req = call.request ∨ msg.req = call.takesBack)

theorem Sys.Initial.regular (h : s.Initial) : s.Regular w where
  sound := h.sound
  self := h.self
  calls := fun c call found => by simp [h.calls] at found
  msgs := fun msg mem => by simp [h.net] at mem

theorem Proc.isHealthy_mark (p : Proc) (id id' : String) (healthy : Bool) :
    (p.mark id healthy).isHealthy id' = if id' = id then healthy else p.isHealthy id' := by
  unfold isHealthy mark
  split
  · rename_i same
    rw [same, AList.lookup_insert]
    rfl
  · rename_i other
    rw [AList.lookup_insert_ne other]

/-- A round trip to another node says nothing about the node itself. -/
theorem Call.Moves.self {p p' : Proc} {call' : Call} {out : List (String × Request)}
    (m : call.Moves w now p c a p' call' out) (self : p.isHealthy call.node = true)
    (other : ∀ peer req resp, a = .deliver (.response c peer req resp) → peer ≠ call.node) :
    p'.isHealthy call.node = true := by
  cases m with
  | @answer _ peer resp waits ends =>
      rw [p.isHealthy_mark]
      split
      · rfl
      · exact self
  | @fetched _ key peer v op polls waits ends =>
      rw [p.isHealthy_mark]
      split
      · rfl
      · exact self
  | @refuse _ peer waits ends =>
      rw [p.isHealthy_mark, if_neg (ends.ne_node other).symm]
      exact self
  | _ => exact self

/-- Every message after a step was there before, or is a request of the call that took
the step, or answers a request that was there. -/
theorem Step.msg_cases (step : Step w now s a s') {msg : Msg} (mem : msg ∈ s'.net) :
    msg ∈ s.net ∨
      (∃ c call p call' out r, s.calls[c]? = some call ∧
        call.Moves w now (s.procs call.node) c a p call' out ∧ s'.calls[c]? = some call' ∧
        r ∈ out ∧ msg = .request c r.1 r.2) ∨
      ∃ c peer req, .request c peer req ∈ s.net ∧ a = .deliver (.request c peer req) ∧
        msg = .response c peer req (serve w peer now (s.procs peer) req).2 ∧
        s'.procs peer = (serve w peer now (s.procs peer) req).1 := by
  cases step with
  | start | mark | cleanupExpired => exact .inl mem
  | late | lose => exact .inl (List.mem_of_mem_erase mem)
  | handle sent =>
      cases List.mem_append.mp mem with
      | inl old => exact .inl (List.mem_of_mem_erase old)
      | inr new =>
          exact .inr (.inr ⟨_, _, _, sent, rfl, List.mem_singleton.mp new,
            Function.update_self ..⟩)
  | @move _ d mover mover' p out found moves sent =>
      cases List.mem_append.mp mem with
      | inl old =>
          refine .inl ?_
          unfold Action.remaining at old
          split at old
          · exact List.mem_of_mem_erase old
          · exact old
      | inr new =>
          obtain ⟨r, ours, rfl⟩ := List.mem_map.mp new
          have there : (s.calls.set d mover')[d]? = some mover' :=
            (getElem?_set_found found d).trans (if_pos rfl)
          exact .inr (.inl ⟨d, mover, p, mover', out, r, found, moves, there, ours, rfl⟩)

theorem Proc.isHealthy_congr {p p' : Proc} {id : String} (same : p'.health = p.health) :
    p'.isHealthy id = p.isHealthy id := by
  rw [isHealthy, same]
  rfl

theorem Started.health {p p' : Proc} {self : String} {op : Op}
    (h : Started w now p self op p' call) : p'.health = p.health := by
  cases h <;> rfl

theorem serve_health (w : Setup) (self : String) (now : Int) (p : Proc) (req : Request) :
    (serve w self now p req).1.health = p.health := by
  unfold serve
  split <;> split <;> rfl

theorem Sys.Regular.self_step (h : s.Regular w) (step : Step w now s a s') :
    ∀ i, (s'.procs i).isHealthy i = true := by
  have update {node : String} {q : Proc} (here : q.isHealthy node = true) :
      ∀ i, (Function.update s.procs node q i).isHealthy i = true :=
    (Function.forall_update_iff s.procs fun i q => q.isHealthy i = true).mpr
      ⟨here, fun i _ => h.self i⟩
  have kept {q : Proc} (node : String) (same : q.health = (s.procs node).health) :
      q.isHealthy node = true :=
    (Proc.isHealthy_congr same).trans (h.self node)
  cases step with
  | start started => exact update (kept _ started.health)
  | move found moves sent =>
      refine update (moves.self (h.self _) ?_)
      rintro peer req resp rfl
      obtain ⟨call, found', _, other, _⟩ := h.msgs _ (sent _ rfl)
      obtain rfl := Option.some.inj (found.symm.trans found')
      exact other
  | handle => exact update (kept _ (serve_health ..))
  | late | lose => exact h.self
  | mark healthy other =>
      refine update ?_
      rw [Proc.isHealthy_mark, if_neg other.symm]
      exact h.self _
  | cleanupExpired => exact update (kept _ rfl)

theorem Sys.Regular.msgs_step (h : s.Regular w) (step : Step w now s a s') {msg : Msg}
    (mem : msg ∈ s.net) : ∃ call : Call, s'.calls[msg.call]? = some call ∧
      msg.peer ∈ call.targets w ∧ msg.peer ≠ call.node ∧
        (msg.req = call.request ∨ msg.req = call.takesBack) := by
  obtain ⟨call, found, target, other, req⟩ := h.msgs msg mem
  obtain ⟨call', there, same⟩ := step.persists found
  refine ⟨call', there, ?_, ?_, ?_⟩
  · rw [same.targets]
    exact target
  · rw [same.node]
    exact other
  · rw [same.request, same.takesBack]
    exact req

theorem Sys.Regular.step (h : s.Regular w) (step : Step w now s a s') : s'.Regular w where
  sound := fun i => (step.acts i "").sound (h.sound i)
  self := h.self_step step
  calls := fun c call found => by
    rcases step.call_cases found with same | ⟨old, p, out, was, moves, _⟩ |
      ⟨_, _, _, _, _, started, _⟩
    · exact h.calls c call same
    · exact moves.spread (h.calls c old was)
    · exact started.spread
  msgs := fun msg mem => by
    rcases step.msg_cases mem with old |
      ⟨c, call, p, call', out, r, found, moves, there, out, rfl⟩ | ⟨c, peer, req, sent, _, rfl, _⟩
    · exact h.msgs_step step old
    · have spread := h.calls c call found
      obtain ⟨running, other⟩ := moves.out_mem spread out
      obtain ⟨target, req⟩ := (moves.spread spread).running r running
      refine ⟨call', there, target, ?_, req⟩
      rw [moves.same.node]
      exact other
    · obtain ⟨call, there, belongs⟩ := h.msgs_step step sent
      exact ⟨call, there, belongs⟩

theorem exec_start {u : Sys} {node : String} {op : Op}
    (starts : exec w u (now, .start node op) = .ok s) :
    ∃ (p : Proc) (call : Call), Started w now (u.procs node) node op p call ∧
      s.calls[u.calls.length]? = some call ∧ ∀ i ≠ node, s.procs i = u.procs i := by
  cases starts
  exact ⟨_, _, start_started w now (u.procs node) node op, List.getElem?_concat_length ..,
    fun i other => Function.update_of_ne other ..⟩

theorem Call.persists_run {u : Sys} (found : u.calls[c]? = some call)
    {past : List (Sys × Int × Action)} (run : RunFrom w u past s) :
    ∃ call', s.calls[c]? = some call' ∧ call.Same call' := by
  refine Transition.Run.invariant_from (C := fun _ _ => True)
    (I := fun s : Sys => ∃ call', s.calls[c]? = some call' ∧ call.Same call')
    ⟨call, found, .refl call⟩ ?_ run (fun _ _ => trivial)
  rintro s x s' ⟨call', found, same⟩ _ step
  obtain ⟨call'', there, same'⟩ := (exec_step step).persists found
  exact ⟨call'', there, same.trans same'⟩

theorem Run.regular {past : List (Sys × Int × Action)} (run : Run w past s) : s.Regular w :=
  Transition.Run.invariant (C := fun _ _ => True) (I := Sys.Regular w)
    (fun _ h => Sys.Initial.regular h)
    (fun _ _ _ h _ step => h.step (exec_step step)) run (fun _ _ => trivial)

theorem Sys.Regular.run {u : Sys} (h : u.Regular w) {past : List (Sys × Int × Action)}
    (run : RunFrom w u past s) : s.Regular w :=
  Transition.Run.invariant_from (C := fun _ _ => True) h
    (fun _ _ _ h _ step => h.step (exec_step step)) run (fun _ _ => trivial)

end DistributedCache.Replication
