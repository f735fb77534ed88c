import DistributedCache.Replication.Regular

/-!
One operation on a key while no other write of the key runs. Only the call itself and its
requests write the key, so what it does to a store where it is applied stays there. Which
effect this is, and how long the operation counts as going well, is left open.
-/
namespace DistributedCache.Replication

variable {w : Setup} {now : Int} {s s' : Sys} {a : Action} {i k : String} {c : Nat}
  {call call' : Call} {p p' : Proc}

namespace Call

/-- The call has returned, and nothing it has started is still running. -/
def Over (call : Call) : Prop :=
  (∃ result, call.phase = .returned result) ∧ call.running = []

/-- The call, a write, has not failed. -/
def Sure (call : Call) : Prop :=
  (∃ rest, call.phase = .visiting rest) ∨ call.phase = .returned .stored ∨
    ∃ ok, call.phase = .returned (.deleted ok)

theorem not_sure_error {err : Error} (phase : call.phase = .returned (.error err)) :
    ¬ call.Sure := by
  rintro (⟨_, visiting⟩ | stored | ⟨_, deleted⟩)
  · cases phase.symm.trans visiting
  · cases phase.symm.trans stored
  · cases phase.symm.trans deleted

theorem not_sure_undoing {rest : List String} (phase : call.phase = .undoing rest) :
    ¬ call.Sure := by
  rintro (⟨_, visiting⟩ | stored | ⟨_, deleted⟩)
  · cases phase.symm.trans visiting
  · cases phase.symm.trans stored
  · cases phase.symm.trans deleted

/-- A step that leaves a write sure found it sure and sends nothing but the write. It
changes the local store only as the `Delete` that ends a `WriteDelete`. -/
theorem Moves.sure {out : List (String × Request)} (writes : ∀ key, call.op ≠ .read key)
    (m : call.Moves w now p c a p' call' out) (sure : call'.Sure) :
    call.Sure ∧ (∀ r ∈ out, r.2 = call.request) ∧
      (p'.store = p.store ∧ ((∃ ok, call'.phase = .returned (.deleted ok)) →
        ∃ ok, call.phase = .returned (.deleted ok)) ∨
        ∃ key, call.op = .delete key ∧ p' = p.delete now key) := by
  cases m with
  | skip phase => exact ⟨.inl ⟨_, phase⟩, nofun, .inl ⟨rfl, nofun⟩⟩
  | contact phase =>
      refine ⟨.inl ⟨_, phase⟩, fun r mem => ?_, .inl ⟨rfl, nofun⟩⟩
      split at mem
      · cases mem
      · rw [List.mem_singleton.mp mem]
  | stored _ phase => exact ⟨.inl ⟨_, phase⟩, nofun, .inl ⟨rfl, nofun⟩⟩
  | deleted op phase => exact ⟨.inl ⟨_, phase⟩, nofun, .inr ⟨_, op, rfl⟩⟩
  | answered op | exhausted op | cancelRead op | fetched op | getLocal op =>
      exact absurd op (writes _)
  | short | undo => exact absurd sure (not_sure_undoing rfl)
  | undoneSet | undone | cancelSet => exact absurd sure (not_sure_error rfl)
  | answer | refuse | settle => exact ⟨sure, nofun, .inl ⟨rfl, id⟩⟩

theorem Moves.not_over {out : List (String × Request)} (m : call.Moves w now p c a p' call' out) :
    ¬ call.Over := by
  rintro ⟨⟨result, returned⟩, idle⟩
  have none {r : String × Request} (waits : r ∈ call.running) : False := by
    rw [idle] at waits
    cases waits
  cases m with
  | skip phase | contact phase | undo phase | short _ phase => cases returned.symm.trans phase
  | stored _ phase | deleted _ phase | undoneSet _ phase | undone _ phase | cancelSet _ phase =>
      cases returned.symm.trans phase
  | answered _ _ phase | exhausted _ _ phase | cancelRead _ _ phase =>
      cases returned.symm.trans phase
  | answer waits | refuse waits | settle waits => exact none waits
  | fetched _ _ waits | getLocal _ _ waits => exact none waits

end Call

theorem Step.finished (step : Step w now s a s') (found : s.calls[c]? = some call)
    (finished : call.Over) : s'.calls[c]? = some call := by
  obtain ⟨call', there, _⟩ := step.persists found
  rcases step.on_call found there with rfl | ⟨_, _, moves, _⟩
  · exact there
  · exact absurd finished moves.not_over

theorem Call.Over.run {u : Sys} (finished : call.Over) (found : u.calls[c]? = some call)
    {past : List (Sys × Int × Action)} (run : RunFrom w u past s) : s.calls[c]? = some call :=
  Transition.Run.invariant_from (C := fun _ _ => True)
    (I := fun s : Sys => s.calls[c]? = some call) found
    (fun _ _ _ found _ step => (exec_step step).finished found finished) run (fun _ _ => trivial)

/-- A write that has returned has returned for good. -/
theorem Sys.Returned.run {u : Sys} {node : String} {op : Op} {result : Result}
    (h : u.Returned c node op result) (writes : ∀ key, op ≠ .read key)
    {past : List (Sys × Int × Action)} (run : RunFrom w u past s) :
    s.Returned c node op result := by
  refine Transition.Run.invariant_from (C := fun _ _ => True)
    (I := fun s : Sys => s.Returned c node op result) h ?_ run (fun _ _ => trivial)
  rintro s ⟨now, a⟩ s' ⟨call, found, here, rfl, done⟩ _ exec
  have step : Step w now s a s' := exec_step exec
  obtain ⟨call', there, same⟩ := step.persists found
  refine ⟨call', there, same.node.trans here, same.op, ?_⟩
  rcases step.on_call found there with rfl | ⟨_, _, moves, _⟩
  · exact done
  · cases moves with
    | skip phase | contact phase | undo phase | short _ phase => cases done.symm.trans phase
    | stored _ phase | deleted _ phase | undoneSet _ phase | undone _ phase | cancelSet _ phase =>
        cases done.symm.trans phase
    | answer | refuse | settle => exact done
    | answered read | exhausted read | cancelRead read | fetched read | getLocal read =>
        exact absurd read (writes _)

/-- No write of `k` is running but call `c`. -/
structure Sys.Alone (k : String) (c : Nat) (s : Sys) : Prop where
  others : ∀ (d : Nat) (call : Call), s.calls[d]? = some call → call.op.writes k = true →
    d = c ∨ call.Over
  requests : ∀ d peer req, .request d peer req ∈ s.net → req.writes k = true → d = c

/-- The step starts a write of the key. -/
def Action.begins (k : String) : Action → Bool
  | .start _ op => op.writes k
  | _ => false

def NoWrite (k : String) (_ : Sys) (x : Int × Action) : Prop :=
  x.2.begins k = false

instance (k : String) (s : Sys) (x : Int × Action) : Decidable (NoWrite k s x) :=
  inferInstanceAs (Decidable (x.2.begins k = false))

theorem Request.writes_of_call (call : Call) {req : Request}
    (ours : req = call.request ∨ req = call.takesBack) (writes : req.writes k = true) :
    call.op.writes k = true := by
  cases op : call.op with
  | set key value ttl | delete key =>
      cases ours with
      | inl h => simpa [h, Call.request, op, Request.writes, Op.writes] using writes
      | inr h => simpa [h, Call.takesBack, op, Request.writes, Op.writes] using writes
  | read key =>
      cases ours with
      | inl h => simp [h, Call.request, op, Request.writes] at writes
      | inr h => simp [h, Call.takesBack, op, Request.writes] at writes

theorem Sys.Alone.others_step (h : s.Alone k c) (quiet : NoWrite k s (now, a))
    (step : Step w now s a s') (d : Nat) (call : Call) (there : s'.calls[d]? = some call)
    (writes : call.op.writes k = true) : d = c ∨ call.Over := by
  rcases step.call_cases there with same | ⟨old, q, out, was, moves, _⟩ |
    ⟨_, n, op, q, rfl, started, _⟩
  · exact h.others d call same writes
  · rw [moves.same.op] at writes
    exact (h.others d old was writes).imp_right fun finished => absurd finished moves.not_over
  · rw [started.same.2.1] at writes
    exact absurd (quiet.symm.trans writes) Bool.false_ne_true

theorem Sys.Alone.requests_step (h : s.Alone k c) (reg : s.Regular w) (step : Step w now s a s')
    (d : Nat) (peer : String) (req : Request) (sent : .request d peer req ∈ s'.net)
    (writes : req.writes k = true) : d = c := by
  rcases step.msg_cases sent with old | ⟨d', call, q, call', out, r, found, moves, _, ours, eq⟩ |
    ⟨_, _, _, _, _, eq, _⟩
  · exact h.requests d peer req old writes
  · cases eq
    have spread := reg.calls d call found
    have running := (moves.out_mem spread ours).1
    have wrote := Request.writes_of_call call' ((moves.spread spread).running r running).2 writes
    rw [moves.same.op] at wrote
    exact (h.others d call found wrote).resolve_right fun finished => moves.not_over finished
  · cases eq

theorem Sys.Alone.step (h : s.Alone k c) (reg : s.Regular w) (quiet : NoWrite k s (now, a))
    (step : Step w now s a s') : s'.Alone k c :=
  ⟨h.others_step quiet step, h.requests_step reg step⟩

/-- Then only the call itself and its requests write the key. -/
theorem Sys.Alone.store_cases (h : s.Alone k c) (quiet : NoWrite k s (now, a))
    (step : Step w now s a s') (i : String) :
    Acts now k False (s.procs i) (s'.procs i) ∨
      (∃ call p call' out, s.calls[c]? = some call ∧ call.node = i ∧
        call.Moves w now (s.procs i) c a p call' out ∧ s'.procs i = p ∧
        s'.calls[c]? = some call') ∨
      ∃ req, .request c i req ∈ s.net ∧ s'.procs i = (serve w i now (s.procs i) req).1 ∧
        s'.calls = s.calls := by
  cases step with
  | start started =>
      refine .inl (.update i fun _ => started.acts.imp fun writes => ?_)
      exact Bool.false_ne_true (quiet.symm.trans writes)
  | @move _ d mover mover' p out found moves sent =>
      by_cases writes : mover.op.writes k = true
      · by_cases same : i = mover.node
        · subst same
          obtain rfl := (h.others d mover found writes).resolve_right moves.not_over
          exact .inr (.inl ⟨mover, p, mover', out, found, rfl, moves, Function.update_self ..,
            (getElem?_set_found found d).trans (if_pos rfl)⟩)
        · exact .inl (.update i fun here => absurd here same)
      · exact .inl (.update i fun _ => moves.acts.imp fun may => writes may.2)
  | @handle d peer req sent =>
      by_cases writes : req.writes k = true
      · by_cases same : i = peer
        · subst same
          obtain rfl := h.requests d i req sent writes
          exact .inr (.inr ⟨req, sent, Function.update_self .., rfl⟩)
        · exact .inl (.update i fun here => absurd here same)
      · exact .inl (.update i fun _ => (serve_acts w peer now _ req).imp fun may => writes may)
  | late | lose => exact .inl (.inl rfl)
  | mark => exact .inl (.update i fun _ => .inl rfl)
  | cleanupExpired => exact .inl (.update i fun _ => .inr ⟨.cleanupExpired, rfl, nofun⟩)

/-- No write of the key is running: what has been started is over, and no request for
one is under way. -/
structure Sys.Still (k : String) (s : Sys) : Prop where
  calls : ∀ (d : Nat) (call : Call), s.calls[d]? = some call → call.op.writes k = true →
    call.Over
  net : ∀ d peer req, .request d peer req ∈ s.net → req.writes k = false

theorem Sys.Initial.still (h : s.Initial) (k : String) : s.Still k where
  calls := fun d call found => by simp [h.calls] at found
  net := fun d peer req sent => by simp [h.net] at sent

theorem Sys.Still.alone {node : String} {op : Op} (still : s.Still k)
    (step : Step w now s (.start node op) s') : s'.Alone k s.calls.length := by
  obtain ⟨p, call, started, rfl⟩ := step.started
  refine ⟨fun d call found writes => ?_, fun d peer req sent writes => ?_⟩
  · by_cases old : d < s.calls.length
    · rw [List.getElem?_append_left old] at found
      exact .inr (still.calls d call found writes)
    · obtain ⟨bound, _⟩ := List.getElem?_eq_some_iff.mp found
      rw [List.length_append, List.length_singleton] at bound
      exact .inl (by omega)
  · cases (still.net d peer req sent).symm.trans writes

theorem Sys.Regular.call_lt (reg : s.Regular w) {msg : Msg} (mem : msg ∈ s.net) :
    msg.call < s.calls.length := by
  obtain ⟨call, found, _⟩ := reg.msgs msg mem
  exact (List.getElem?_eq_some_iff.mp found).1

/-- Call `c` of `op` at `node` is the only write of `k`, and as long as it is sure it has
sent nothing but the write. -/
structure Sys.Sole (node : String) (op : Op) (k : String) (c : Nat) (s : Sys) : Prop
    extends Sys.Alone k c s where
  caller : ∃ call : Call, s.calls[c]? = some call ∧ call.node = node ∧ call.op = op ∧
    (call.Sure → ∀ peer req, .request c peer req ∈ s.net → req = call.request)

/-- A property of stores that `op` does not take away. Stores that have it meet `I`. -/
structure Preserves (w : Setup) (k : String) (op : Op) (I E : Proc → Prop) : Prop where
  acts : ∀ {now p p'}, I p → E p → Acts now k False p p' → E p'
  deletes : ∀ {now p key}, op = .delete key → I p → E p → E (p.delete now key)
  serves : ∀ {self now p} {call : Call}, call.op = op → I p → E p →
    E (serve w self now p call.request).1

/-- And which `op` brings about where it is applied. -/
structure Effects (w : Setup) (k : String) (op : Op) (I E : Proc → Prop) : Prop
    extends Preserves w k op I E where
  gains : ∀ {self now p} {call : Call}, call.op = op → I p →
    call.request.outcome (serve w self now p call.request).2 ≠ none →
      E (serve w self now p call.request).1

section Sole

variable {node : String} {op : Op} {I E : Proc → Prop}

theorem Sys.Still.sole (still : s.Still k) (reg : s.Regular w)
    (step : Step w now s (.start node op) s') : s'.Sole node op k s.calls.length := by
  refine ⟨still.alone step, ?_⟩
  obtain ⟨p, call, started, rfl⟩ := step.started
  refine ⟨call, List.getElem?_concat_length .., started.same.1, started.same.2.1, ?_⟩
  intro _ peer req sent
  exact absurd (reg.call_lt sent) (Nat.lt_irrefl _)

theorem Sys.Sole.sure_before (h : s.Sole node op k c) (writes : ∀ key, op ≠ .read key)
    (step : Step w now s a s') (there : s'.calls[c]? = some call') (sure : call'.Sure) :
    ∃ call : Call, s.calls[c]? = some call ∧ call.Sure := by
  obtain ⟨call, found, _, rfl, _⟩ := h.caller
  refine ⟨call, found, ?_⟩
  rcases step.on_call found there with rfl | ⟨_, _, moves, _⟩
  · exact sure
  · exact (moves.sure writes sure).1

theorem Sys.Sole.step (h : s.Sole node op k c) (writes : ∀ key, op ≠ .read key)
    (reg : s.Regular w) (quiet : NoWrite k s (now, a)) (step : Step w now s a s') :
    s'.Sole node op k c := by
  obtain ⟨call, found, here, rfl, requests⟩ := h.caller
  obtain ⟨call', there, same⟩ := step.persists found
  refine ⟨h.toAlone.step reg quiet step, call', there, same.node.trans here, same.op,
    fun sure peer req sent => ?_⟩
  obtain ⟨before, found', wasSure⟩ := h.sure_before writes step there sure
  obtain rfl := Option.some.inj (found'.symm.trans found)
  rw [same.request]
  rcases step.msg_cases sent with old |
    ⟨d, mover, q, mover', out, r, was, moves, after, ours, eq⟩ | ⟨_, _, _, _, _, eq, _⟩
  · exact requests wasSure peer req old
  · cases eq
    obtain rfl := Option.some.inj (was.symm.trans found)
    obtain rfl := Option.some.inj (after.symm.trans there)
    exact (moves.sure writes sure).2.1 r ours
  · cases eq

/-- A step that leaves the write sure takes the property from no node. -/
theorem Sys.Sole.keeps (h : s.Sole node op k c) (writes : ∀ key, op ≠ .read key)
    (kept : Preserves w k op I E) (quiet : NoWrite k s (now, a)) (step : Step w now s a s')
    (there : s'.calls[c]? = some call') (sure : call'.Sure) (i : String) (inv : I (s.procs i))
    (has : E (s.procs i)) : E (s'.procs i) := by
  obtain ⟨call, found, _, rfl, requests⟩ := h.caller
  rcases h.store_cases quiet step i with acts | ⟨call₁, q, call₂, out, was, _, moves, rfl, after⟩ |
    ⟨req, sent, served, calls⟩
  · exact kept.acts inv has acts
  · obtain rfl := Option.some.inj (was.symm.trans found)
    obtain rfl := Option.some.inj (after.symm.trans there)
    rcases (moves.sure writes sure).2.2 with ⟨same, _⟩ | ⟨key, del, eq⟩
    · exact kept.acts inv has (.inl same : Acts now k False _ _)
    · rw [eq]
      exact kept.deletes del inv has
  · rw [calls] at there
    obtain rfl := Option.some.inj (found.symm.trans there)
    obtain rfl := requests sure i req sent
    rw [served]
    exact kept.serves rfl inv has

/-- Every node that has acknowledged call `c` has the property. -/
structure Sys.Acked (c : Nat) (E : Proc → Prop) (s : Sys) : Prop where
  results : ∀ call : Call, s.calls[c]? = some call → call.Sure →
    ∀ r ∈ call.results, E (s.procs r.1)
  responses : ∀ call : Call, s.calls[c]? = some call → call.Sure →
    ∀ peer req resp, .response c peer req resp ∈ s.net → req.outcome resp ≠ none →
      E (s.procs peer)

theorem Sys.Regular.acked (reg : s.Regular w) (step : Step w now s (.start node op) s') :
    s'.Acked s.calls.length E := by
  obtain ⟨p, call, started, rfl⟩ := step.started
  refine ⟨fun call' there _ r mem => ?_, fun call' _ _ peer req resp sent => ?_⟩
  · rw [List.getElem?_concat_length] at there
    obtain rfl := Option.some.inj there
    rw [started.same.2.2.2] at mem
    cases mem
  · exact absurd (reg.call_lt sent) (Nat.lt_irrefl _)

theorem Sys.Acked.step (acked : s.Acked c E) (h : s.Sole node op k c)
    (writes : ∀ key, op ≠ .read key) (effects : Effects w k op I E) (inv : ∀ i, I (s.procs i))
    (quiet : NoWrite k s (now, a)) (step : Step w now s a s') : s'.Acked c E := by
  obtain ⟨call, found, _, rfl, requests⟩ := h.caller
  have keeps {call' : Call} (there : s'.calls[c]? = some call') (sure : call'.Sure) (i : String) :=
    h.keeps writes effects.toPreserves quiet step there sure i (inv i)
  refine ⟨fun call' there sure r mem => ?_, fun call' there sure peer req resp sent answered => ?_⟩
  · obtain ⟨before, found', wasSure⟩ := h.sure_before writes step there sure
    obtain ⟨old, was, _, result⟩ := step.result_cases there mem
    obtain rfl := Option.some.inj (was.symm.trans found)
    obtain rfl := Option.some.inj (found'.symm.trans was)
    rcases result with result | ⟨resp, sent, told⟩ | ⟨key, read, _⟩
    · exact keeps there sure r.1 (acked.results before was wasSure r result)
    · refine keeps there sure r.1 (acked.responses before was wasSure r.1 _ resp sent ?_)
      rw [told]
      nofun
    · exact absurd read (writes key)
  · obtain ⟨before, found', wasSure⟩ := h.sure_before writes step there sure
    obtain rfl := Option.some.inj (found'.symm.trans found)
    rcases step.msg_cases sent with old | ⟨_, _, _, _, _, _, _, _, _, _, eq⟩ |
      ⟨d, peer', req', asked, rfl, eq, served⟩
    · exact keeps there sure peer (acked.responses before found' wasSure peer req resp old answered)
    · cases eq
    · cases eq
      obtain rfl := requests wasSure peer req asked
      rw [served]
      exact effects.gains rfl (inv peer) answered

end Sole

end DistributedCache.Replication
