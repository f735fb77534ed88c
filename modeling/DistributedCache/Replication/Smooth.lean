import DistributedCache.Replication.Writing

/-!
Runs in which nothing goes wrong: every node takes every other one for healthy, no round
trip fails, no context ends, and every write is accepted where it arrives. A call that
reaches its loop then gets an answer from each node it turns to.
-/
namespace DistributedCache.Replication

variable {w : Setup} {now : Int} {s s' : Sys} {a : Action} {m c : Nat} {call call' : Call}
  {p p' : Proc}

/-- The step breaks no round trip, ends no context and takes no node for unhealthy. -/
def Action.smooth : Action → Bool
  | .cancel _ | .lose _ | .fail _ _ _ => false
  | .mark _ _ healthy => healthy
  | _ => true

/-- A smooth step that starts no call. -/
def Calm (_ : Sys) (x : Int × Action) : Prop :=
  x.2.smooth = true ∧ ∀ node op, x.2 ≠ .start node op

instance (s : Sys) (x : Int × Action) : Decidable (Calm s x) :=
  match x with
  | (_, .start node op) => .isFalse fun h => h.2 node op rfl
  | (_, .advance _) | (_, .deliver _) | (_, .getLocal _) | (_, .cleanupExpired _) =>
      .isTrue ⟨rfl, nofun⟩
  | (_, .cancel _) | (_, .lose _) | (_, .fail _ _ _) | (_, .mark _ _ false) =>
      .isFalse fun h => Bool.false_ne_true h.1
  | (_, .mark _ _ true) => .isTrue ⟨rfl, nofun⟩

/-- No operation is running, and no message is under way. -/
structure Sys.Idle (s : Sys) : Prop where
  calls : ∀ (c : Nat) (call : Call), s.calls[c]? = some call → call.Over
  net : s.net = []

theorem Sys.Initial.idle (h : s.Initial) : s.Idle where
  calls := fun c call found => by simp [h.calls] at found
  net := h.net

theorem Sys.Idle.still (h : s.Idle) (k : String) : s.Still k where
  calls := fun d call found _ => h.calls d call found
  net := fun d peer req sent => by simp [h.net] at sent

/-- Every node takes every node for healthy. -/
def Sys.Healthy (s : Sys) : Prop :=
  ∀ i id, (s.procs i).isHealthy id = true

/-- Nodes stay healthy as long as requests are answered without error. -/
theorem Sys.Healthy.step (h : s.Healthy) (smooth : a.smooth = true)
    (answered : ∀ (c : Nat) (call : Call) (peer : String) (resp : Response),
      s.calls[c]? = some call → a = .deliver (.response c peer call.request resp) →
        call.request.outcome resp ≠ none) (step : Step w now s a s') : s'.Healthy := by
  intro i id
  have update {node : String} {q : Proc} (here : q.isHealthy id = true) :
      (Function.update s.procs node q i).isHealthy id = true :=
    (Function.forall_update_iff s.procs fun _ q => q.isHealthy id = true).mpr
      ⟨here, fun i _ => h i id⟩ i
  have kept {q : Proc} (node : String) (same : q.health = (s.procs node).health) :
      q.isHealthy id = true :=
    (Proc.isHealthy_congr same).trans (h node id)
  have marked (node peer : String) : ((s.procs node).mark peer true).isHealthy id = true := by
    rw [Proc.isHealthy_mark]
    split
    · rfl
    · exact h node id
  cases step with
  | start started => exact update (kept _ started.health)
  | move found moves sent =>
      refine update ?_
      cases moves with
      | answer | fetched => exact marked _ _
      | refuse waits ends =>
          cases ends with
          | response told => exact absurd told (answered _ _ _ _ found rfl)
          | fail => cases smooth
      | _ => exact kept _ rfl
  | handle => exact update (kept _ (serve_health ..))
  | late | lose => exact h i id
  | mark healthy other =>
      obtain rfl : healthy = true := smooth
      exact update (marked _ _)
  | cleanupExpired => exact update (kept _ rfl)

/-- A smooth step that brings no error. -/
def Faultless (_ : Sys) (x : Int × Action) : Prop :=
  x.2.smooth = true ∧ match x.2 with
    | .deliver (.response _ _ req resp) => req.outcome resp ≠ none
    | _ => True

instance (s : Sys) (x : Int × Action) : Decidable (Faultless s x) :=
  match x with
  | (_, .deliver (.response _ _ req resp)) =>
      inferInstanceAs (Decidable (_ = _ ∧ req.outcome resp ≠ none))
  | (_, .deliver (.request _ _ _)) | (_, .start _ _) | (_, .advance _) | (_, .cancel _)
  | (_, .lose _) | (_, .fail _ _ _) | (_, .getLocal _) | (_, .mark _ _ _)
  | (_, .cleanupExpired _) => inferInstanceAs (Decidable (_ = _ ∧ True))

theorem Sys.Healthy.run {u : Sys} (h : u.Healthy) {past : List (Sys × Int × Action)}
    (run : RunFrom w u past s) (faultless : Transition.Meets Faultless past) : s.Healthy := by
  refine Transition.Run.invariant_from h (fun s x s' h meets exec => ?_) run faultless
  refine h.step meets.1 (fun c call peer resp _ act => ?_) (exec_step exec)
  have answered := meets.2
  rw [act] at answered
  exact answered

/-- The call waits for the answer of every node it turns to. -/
def Call.Collects (w : Setup) (call : Call) : Prop :=
  ∀ key, call.op = .read key → call.polls w = true

/-- The call has asked, or has still to ask, every node it is to turn to; or it has asked
nobody. -/
inductive Call.Thorough (w : Setup) (call : Call) : Prop
  | asking {rest : List Cluster.Node} (phase : call.phase = .visiting rest)
      (all : (call.ids w).Perm (call.targets w))
  | heard (done : ∀ rest, call.phase ≠ .visiting rest)
      (all : (call.results.map Prod.fst).Perm (call.targets w))
  | brief (finished : call.Over) (nobody : call.results = [])
  | alone {key : String} (op : call.op = .delete key) (zero : w.required = 0)
      (phase : call.phase = .visiting []) (idle : call.running = []) (nobody : call.results = [])

namespace Call

/-- When all have answered, nobody is still to answer. -/
theorem Spread.not_pending (spread : call.Spread w)
    (all : (call.results.map Prod.fst).Perm (call.targets w)) {peer : String}
    (waits : (peer, call.request) ∈ call.running) : False := by
  have none : call.pending ≠ [] := by
    have mem : (peer, call.request) ∈ call.running.filter fun r => r.2 = call.request :=
      List.mem_filter.mpr ⟨waits, decide_eq_true rfl⟩
    exact List.ne_nil_of_mem (List.mem_map_of_mem mem)
  have bound := spread.ids.length_le
  have some := List.length_pos_of_ne_nil none
  rw [Call.ids, List.length_append, List.length_append, all.length_eq] at bound
  omega

/-- Only its own node is skipped. -/
theorem ids_skip {node : Cluster.Node} {rest : List Cluster.Node}
    (phase : call.phase = .visiting (node :: rest)) (skips : call.skips w p node = true)
    (healthy : p.isHealthy node.id = true) :
    Call.ids w { call with phase := .visiting rest } = call.ids w := by
  have own : ¬ call.aims w node.id = true := by
    rw [Call.skips, healthy, Bool.not_true, Bool.or_false, Bool.and_eq_true] at skips
    rw [aims, Bool.or_eq_true]
    simp [(by simpa using skips.1 : call.polls w = false), of_decide_eq_true skips.2]
  have ahead : call.ahead w = (rest.map Cluster.Node.id).filter (call.aims w) := by
    rw [Call.ahead, phase]
    exact List.filter_cons_of_neg own
  rw [ids, ids, ahead]
  rfl

/-- The end of a round trip that takes something back changes no answer. -/
theorem ids_settle {peer : String} {req : Request} (waits : (peer, req) ∈ call.running)
    (undoes : req ≠ call.request) : ((call.ended peer req).ids w).Perm (call.ids w) := by
  have perm := ((List.perm_cons_erase waits).filter fun r => decide (r.2 = call.request)).map
    Prod.fst
  rw [List.filter_cons_of_neg (by simpa using undoes)] at perm
  exact List.Perm.append_left _ (perm.symm.append_right _)

/-- The end of the loop: all have answered. -/
theorem Thorough.heard_all (h : call.Thorough w) (phase : call.phase = .visiting [])
    (idle : call.running = []) : (call.results.map Prod.fst).Perm (call.targets w) ∨
      ((∃ key, call.op = .delete key) ∧ w.required = 0 ∧ call.results = []) := by
  cases h with
  | asking _ all =>
      refine .inl ?_
      rw [ids, pending, idle, ahead, phase] at all
      simpa using all
  | heard done => exact absurd phase (done [])
  | brief finished =>
      obtain ⟨⟨_, returned⟩, _⟩ := finished
      cases phase.symm.trans returned
  | alone op zero _ _ nobody => exact .inr ⟨⟨_, op⟩, zero, nobody⟩

theorem Thorough.asking_all {rest : List Cluster.Node} (h : call.Thorough w)
    (phase : call.phase = .visiting rest) (some : rest ≠ []) :
    (call.ids w).Perm (call.targets w) := by
  cases h with
  | asking _ all => exact all
  | heard done => exact absurd phase (done rest)
  | brief finished =>
      obtain ⟨⟨_, returned⟩, _⟩ := finished
      cases phase.symm.trans returned
  | alone _ _ visiting => exact absurd (Phase.visiting.inj (phase.symm.trans visiting)) some

theorem Thorough.undoing_all {rest : List String} (h : call.Thorough w)
    (phase : call.phase = .undoing rest) :
    (call.results.map Prod.fst).Perm (call.targets w) := by
  cases h with
  | asking visiting => cases phase.symm.trans visiting
  | heard _ all => exact all
  | brief finished =>
      obtain ⟨⟨_, returned⟩, _⟩ := finished
      cases phase.symm.trans returned
  | alone _ _ visiting => cases phase.symm.trans visiting

/-- A round trip that comes back leaves the call thorough if no answer is lost. -/
theorem Thorough.ended (h : call.Thorough w) (busy : call.running ≠ [])
    (phase : call'.phase = call.phase) (targets : call'.targets w = call.targets w)
    (asking : (call'.ids w).Perm (call.ids w))
    (heard : (call.results.map Prod.fst).Perm (call.targets w) →
      (call'.results.map Prod.fst).Perm (call'.targets w)) : call'.Thorough w := by
  cases h with
  | asking visiting all =>
      refine .asking (phase.trans visiting) ?_
      rw [targets]
      exact asking.trans all
  | heard done all =>
      refine .heard (fun rest => ?_) (heard all)
      rw [phase]
      exact done rest
  | brief finished => exact absurd finished.2 busy
  | alone _ _ _ idle => exact absurd idle busy

theorem Moves.thorough {out : List (String × Request)} (m : call.Moves w now p c a p' call' out)
    (h : call.Thorough w) (spread : call.Spread w) (collects : call.Collects w)
    (healthy : ∀ id, p.isHealthy id = true) (smooth : a.smooth = true)
    (answered : ∀ peer resp, a = .deliver (.response c peer call.request resp) →
      call.request.outcome resp ≠ none) : call'.Thorough w := by
  have asked {key : String} (op : call.op = .read key) (polls : call.polls w = false) : False :=
    Bool.false_ne_true (polls.symm.trans (collects key op))
  have targets := m.same.targets (w := w)
  cases m with
  | @skip node rest phase skips =>
      refine .asking rfl ?_
      rw [targets, ids_skip phase skips (healthy _)]
      exact h.asking_all phase nofun
  | contact phase wanted =>
      refine .asking rfl ?_
      rw [targets, ids_contact phase wanted]
      exact h.asking_all phase nofun
  | stored op phase idle =>
      rcases h.heard_all phase idle with all | ⟨⟨_, del⟩, _⟩
      · exact .heard nofun all
      · cases op.symm.trans del
  | answered op polls phase idle =>
      rcases h.heard_all phase idle with all | ⟨⟨_, del⟩, _⟩
      · exact .heard nofun all
      · cases op.symm.trans del
  | deleted op phase idle =>
      rcases h.heard_all phase idle with all | ⟨_, _, nobody⟩
      · exact .heard nofun all
      · exact .brief ⟨⟨_, rfl⟩, idle⟩ nobody
  | short op phase idle few =>
      rcases h.heard_all phase idle with all | ⟨_, zero, nobody⟩
      · exact .heard nofun all
      · rw [zero, nobody] at few
        exact absurd few (Int.lt_irrefl 0)
  | exhausted op polls => exact (asked op polls).elim
  | undo phase => exact .heard nofun (h.undoing_all phase)
  | undoneSet op phase | undone op phase => exact .heard nofun (h.undoing_all phase)
  | cancelSet | cancelRead => cases smooth
  | answer waits ends =>
      exact h.ended (List.ne_nil_of_mem waits) rfl targets (ids_answer waits).symm
        fun all => (spread.not_pending all waits).elim
  | fetched op polls => exact (asked op polls).elim
  | refuse waits ends =>
      cases ends with
      | response told => exact absurd told (answered _ _ rfl)
      | fail => cases smooth
  | settle waits undoes ends =>
      exact h.ended (List.ne_nil_of_mem waits) rfl targets (ids_settle waits undoes)
        fun all => targets ▸ all
  | getLocal op polls waits =>
      exact h.ended (List.ne_nil_of_mem waits) rfl targets (ids_answer waits).symm
        fun all => (spread.not_pending all waits).elim

end Call

theorem Started.thorough {self : String} {op : Op} (h : Started w now p self op p' call) :
    call.Thorough w := by
  have visiting {nodes : List Cluster.Node} {existing : List UInt8}
      (owners : w.replicaSet op.key = .ok nodes) :
      Call.Thorough w { Call.begin self op (.visiting nodes) with existing := existing } :=
    .asking rfl (List.Perm.of_eq (congrArg _ (Setup.owners_of_ok owners).symm))
  cases h with
  | refused | setFailed | setAlone | deleteMissing | lookupFailed | readPrimary | readAny =>
      exact .brief ⟨⟨_, rfl⟩, rfl⟩ rfl
  | deleteAlone _ _ alone => exact .alone rfl alone rfl rfl rfl
  | set _ _ _ owners | delete _ _ _ owners => exact visiting owners
  | readPeers _ owners | readQuorum _ _ owners => exact visiting owners

/-- Nothing has gone wrong since call `m` started. The calls before it are over. -/
structure Sys.Complete (w : Setup) (m : Nat) (s : Sys) : Prop where
  bound : m ≤ s.calls.length
  older : ∀ (c : Nat) (call : Call), c < m → s.calls[c]? = some call → call.Over
  msgs : ∀ msg ∈ s.net, m ≤ msg.call
  healthy : s.Healthy
  answered : ∀ (c : Nat) (call : Call) (peer : String) (resp : Response),
    s.calls[c]? = some call → .response c peer call.request resp ∈ s.net →
      call.request.outcome resp ≠ none
  calls : ∀ (c : Nat) (call : Call), m ≤ c → s.calls[c]? = some call → call.Collects w →
    call.Thorough w

theorem Sys.Idle.complete (h : s.Idle) (healthy : s.Healthy) : s.Complete w s.calls.length where
  bound := Nat.le_refl _
  older := fun c call _ found => h.calls c call found
  msgs := fun msg mem => by simp [h.net] at mem
  healthy := healthy
  answered := fun c call peer resp _ sent => by simp [h.net] at sent
  calls := fun c call late found => by
    rw [List.getElem?_eq_none late] at found
    cases found

/-- Every write from call `m` on is accepted where it arrives. -/
def Accepts (m : Nat) (s : Sys) (x : Int × Action) : Prop :=
  ∀ (c : Nat) (peer key : String) (value : List UInt8) (ttl : Int) (call : Call), m ≤ c →
    s.calls[c]? = some call → call.op = .set key value ttl →
    x.2 = .deliver (.request c peer call.request) →
      ((s.procs peer).store.set x.1 key value (wireTTL ttl)).2 = none

theorem Accepts.of_start (m : Nat) (s : Sys) (now : Int) (node : String) (op : Op) :
    Accepts m s (now, .start node op) := by
  intro _ _ _ _ _ _ _ _ _ act
  cases act

/-- A member of the replica set answers the requests of a call, if it accepts the writes. -/
theorem Call.outcome_serve (call : Call) {self : String} (member : self ∈ w.owners call.op.key)
    (accepts : ∀ key value ttl, call.op = .set key value ttl →
      (p.store.set now key value (wireTTL ttl)).2 = none) :
    call.request.outcome (serve w self now p call.request).2 ≠ none := by
  have inside := Setup.isInReplicaSet_iff.mpr member
  unfold Call.request
  cases op : call.op with
  | set key value ttl =>
      rw [op] at inside
      simp only [serve, Op.key] at inside ⊢
      rw [if_pos inside, accepts key value ttl op]
      exact Option.some_ne_none _
  | delete key =>
      rw [op] at inside
      simp only [serve, Op.key] at inside ⊢
      rw [if_pos inside]
      dsimp only
      split <;> exact Option.some_ne_none _
  | read key =>
      rw [op] at inside
      simp only [serve, Op.key] at inside ⊢
      rw [if_pos inside]
      cases (p.store.get now key).2 <;> exact Option.some_ne_none _

namespace Sys.Complete

theorem answered_step (h : s.Complete w m) (reg : s.Regular w) (accepts : Accepts m s (now, a))
    (step : Step w now s a s') {peer : String} {resp : Response}
    (there : s'.calls[c]? = some call') (sent : .response c peer call'.request resp ∈ s'.net) :
    call'.request.outcome resp ≠ none := by
  have before {msg : Msg} (eq : msg.call = c) (mem : msg ∈ s.net) :
      ∃ call : Call, s.calls[c]? = some call ∧ call.Same call' ∧ msg.peer ∈ call.targets w := by
    obtain ⟨call, found, target, _⟩ := reg.msgs msg mem
    rw [eq] at found
    have same := step.same found there
    exact ⟨call, found, same, target⟩
  rcases step.msg_cases sent with old | ⟨_, _, _, _, _, _, _, _, _, _, eq⟩ |
    ⟨d, peer', req, asked, act, eq, _⟩
  · obtain ⟨call, found, same, _⟩ := before rfl old
    rw [same.request] at old ⊢
    exact h.answered c call peer resp found old
  · cases eq
  · cases eq
    obtain ⟨call, found, same, target⟩ := before rfl asked
    rw [same.request] at act ⊢
    refine call.outcome_serve (List.mem_filter.mp target).1 fun key value ttl op => ?_
    exact accepts c peer key value ttl call (h.msgs _ asked) found op act

theorem step (h : s.Complete w m) (reg : s.Regular w) (smooth : a.smooth = true)
    (accepts : Accepts m s (now, a)) (step : Step w now s a s') : s'.Complete w m where
  bound := h.bound.trans step.length_le
  older := fun c call early there => by
    rcases step.call_cases there with same | ⟨old, _, _, was, moves, _⟩ | ⟨last, _⟩
    · exact h.older c call early same
    · exact absurd (h.older c old early was) moves.not_over
    · have := h.bound
      omega
  msgs := fun msg mem => by
    rcases step.msg_cases mem with old | ⟨c, call, _, _, _, _, found, moves, _, _, rfl⟩ |
      ⟨c, peer, req, asked, _, rfl, _⟩
    · exact h.msgs msg old
    · refine Nat.le_of_not_lt fun early => ?_
      exact absurd (h.older c call early found) moves.not_over
    · exact h.msgs (.request c peer req) asked
  healthy := h.healthy.step smooth
    (fun c call peer resp found act => by
      subst act
      exact h.answered c call peer resp found step.sent) step
  answered := fun _ _ _ _ there sent => h.answered_step reg accepts step there sent
  calls := fun c call late there collects => by
    rcases step.call_cases there with same | ⟨old, q, out, was, moves, _, sent⟩ |
      ⟨_, _, _, _, _, started, _⟩
    · exact h.calls c call late same collects
    · have before : old.Collects w := by
        intro key read
        rw [← moves.same.polls]
        exact collects key (moves.same.op.trans read)
      exact moves.thorough (h.calls c old late was before) (reg.calls c old was) before
        (h.healthy _) smooth fun peer resp act => h.answered c old peer resp was (sent _ act)
    · exact started.thorough

/-- A write that has returned with enough acknowledgements has reached the whole replica
set. -/
theorem reached (h : s.Complete w m) (late : m ≤ c) (found : s.calls[c]? = some call)
    (writes : ∀ key, call.op ≠ .read key) {result : Result}
    (done : call.phase = .returned result) (needs : 1 ≤ w.required)
    (enough : w.required ≤ call.results.length) {i : String}
    (member : i ∈ w.owners call.op.key) : i ∈ call.node :: call.results.map Prod.fst := by
  have all : (call.results.map Prod.fst).Perm (call.targets w) := by
    cases h.calls c call late found (fun key read => absurd read (writes key)) with
    | asking phase | alone _ _ phase => cases done.symm.trans phase
    | heard _ all => exact all
    | brief _ nobody =>
        rw [nobody] at enough
        exact absurd (needs.trans enough) (by decide)
  by_cases same : i = call.node
  · exact same ▸ List.mem_cons_self
  · refine List.mem_cons_of_mem _ (all.mem_iff.mpr (List.mem_filter.mpr ⟨member, ?_⟩))
    rw [Call.aims, Bool.or_eq_true]
    exact .inr (decide_eq_true same)

end Sys.Complete

end DistributedCache.Replication
