import DistributedCache.Replication.Rollback
import DistributedCache.Replication.Smooth

/-!
Concurrent `WriteSet` calls of one key at its primary, all of which succeed. Requests carry
no version, so every node ends with the value of the call it has applied last. The nodes
agree if this is the same call everywhere.
-/
namespace DistributedCache.Replication

open Transition

variable {w : Setup} {now : Int} {s s' : Sys} {a : Action} {k node i : String} {c : Nat}
  {call call' : Call} {past : List (Sys × Int × Action)}

/-- A `REPL_SET` is accepted where it arrives. -/
def Takes (s : Sys) (x : Int × Action) : Prop :=
  match x.2 with
  | .deliver (.request _ peer (.replSet key value ttl)) =>
      ((s.procs peer).store.set x.1 key value ttl).2 = none
  | _ => True

instance (s : Sys) (x : Int × Action) : Decidable (Takes s x) :=
  match x with
  | (now, .deliver (.request _ peer (.replSet key value ttl))) => inferInstanceAs
      (Decidable (((s.procs peer).store.set now key value ttl).2 = none))
  | (_, .deliver (.request _ _ (.replDelete _))) | (_, .deliver (.request _ _ (.replGet _)))
  | (_, .deliver (.response _ _ _ _)) | (_, .start _ _) | (_, .advance _) | (_, .cancel _)
  | (_, .lose _) | (_, .fail _ _ _) | (_, .getLocal _) | (_, .mark _ _ _)
  | (_, .cleanupExpired _) => inferInstanceAs (Decidable True)

/-- The step is one of `WriteSet` calls of the key at `node`, with all nodes healthy and
reachable and all stores accepting the values. -/
def Puts (node k : String) (s : Sys) (x : Int × Action) : Prop :=
  Sets node k s x ∧ x.2.smooth = true ∧ Takes s x

instance (node k : String) (s : Sys) (x : Int × Action) : Decidable (Puts node k s x) :=
  inferInstanceAs (Decidable (_ ∧ _ ∧ _))

/-- The call whose value the step stores at node `i`. -/
def applies (i : String) (x : Sys × Int × Action) : Option Nat :=
  match x.2.2 with
  | .start node (.set _ _ _) => if node = i then some x.1.calls.length else none
  | .deliver (.request c peer (.replSet _ _ _)) => if peer = i then some c else none
  | _ => none

/-- The calls whose value node `i` has stored, the last one first. -/
def applied (i : String) (past : List (Sys × Int × Action)) : List Nat :=
  past.filterMap (applies i)

theorem mem_applied_cons {x : Sys × Int × Action} (mem : c ∈ applied i past) :
    c ∈ applied i (x :: past) := by
  rw [applied, List.filterMap_cons]
  split
  · exact mem
  · exact List.mem_cons_of_mem _ mem

theorem mem_applied_self {x : Sys × Int × Action} (here : applies i x = some c) :
    c ∈ applied i (x :: past) := by
  rw [applied, List.filterMap_cons, here]
  exact List.mem_cons_self

/-- No call has failed. -/
def Sys.Sure (s : Sys) : Prop :=
  ∀ (c : Nat) (call : Call), s.calls[c]? = some call → call.Sure

theorem Sys.Setting.writes (h : s.Setting node k) (found : s.calls[c]? = some call) (key : String) :
    call.op ≠ .read key := by
  obtain ⟨_, v, ttl, op⟩ := h c call found
  rw [op]
  nofun

theorem Sys.Sure.before (sure : s'.Sure) (ours : s.Setting node k) (step : Step w now s a s') :
    s.Sure := by
  intro c call found
  obtain ⟨call', there, _⟩ := step.persists found
  rcases step.on_call found there with rfl | ⟨_, _, moves, _⟩
  · exact sure c call' there
  · exact (moves.sure (ours.writes found) (sure c call' there)).1

/-- No request is under way but the writes of the calls. -/
def Sys.Forward (s : Sys) : Prop :=
  ∀ (c : Nat) (call : Call) (peer : String) (req : Request), s.calls[c]? = some call →
    .request c peer req ∈ s.net → req = call.request

theorem Sys.Forward.step (h : s.Forward) (ours : s.Setting node k) (reg : s.Regular w)
    (sure : s'.Sure) (step : Step w now s a s') : s'.Forward := by
  intro c call' peer req there sent
  rcases step.msg_cases sent with old |
    ⟨d, mover, q, mover', out, r, was, moves, after, ours', eq⟩ | ⟨_, _, _, _, _, eq, _⟩
  · obtain ⟨call, found, _⟩ := reg.msgs _ old
    have same := step.same found there
    rw [same.request]
    exact h c call peer req found old
  · cases eq
    obtain rfl := Option.some.inj (after.symm.trans there)
    rw [moves.same.request]
    exact (moves.sure (ours.writes was) (sure c mover' after)).2.1 r ours'
  · cases eq

theorem Call.Moves.applies {p p' : Proc} {out : List (String × Request)}
    (m : call.Moves w now p c a p' call' out) (i : String) : applies i (s, now, a) = none := by
  cases m with
  | answer _ ends | refuse _ ends | fetched _ _ _ ends | settle _ _ ends => cases ends <;> rfl
  | _ => rfl

theorem content_serve {p : Proc} {v : List UInt8} {ttl : Int} (op : call.op = .set k v ttl)
    {self : String} (member : self ∈ w.owners k)
    (ok : (p.store.set now k v (wireTTL ttl)).2 = none) :
    (serve w self now p call.request).1.content k = some v := by
  rw [Call.request, op]
  dsimp only
  rw [serve, if_pos (Setup.isInReplicaSet_iff.mpr member)]
  exact Proc.content_set ok

/-- The value of the call that a step applies at a node is what the node has then. Other
steps leave it alone. -/
theorem Step.stores (step : Step w now s a s') (puts : Puts node k s (now, a))
    (reg : s.Regular w) (ours : s.Setting node k) (forward : s.Forward) (sure : s'.Sure)
    (primary : w.isPrimary node k = true) (i : String) :
    (∃ (c : Nat) (call : Call) (v : List UInt8) (ttl : Int), applies i (s, now, a) = some c ∧
      s'.calls[c]? = some call ∧ call.op = .set k v ttl ∧ (s'.procs i).content k = some v) ∨
    (applies i (s, now, a) = none ∧ (s'.procs i).content k = (s.procs i).content k) := by
  obtain ⟨sets, smooth, takes⟩ := puts
  have elsewhere {n : String} (q : Proc) (other : n ≠ i) :
      (Function.update s.procs n q i).content k = (s.procs i).content k := by
    rw [Function.update_of_ne other.symm]
  cases step with
  | @start n op q call started =>
      cases op with
      | set key value ttl =>
          obtain ⟨rfl, rfl, ok⟩ := sets
          by_cases here : n = i
          · subst here
            obtain ⟨rfl, _⟩ := started.of_primary primary ok
            refine .inl ⟨_, call, value, ttl, if_pos rfl, List.getElem?_concat_length ..,
              started.same.2.1, ?_⟩
            change (Function.update s.procs n _ n).content key = some value
            rw [Function.update_self]
            exact Proc.content_set ok
          · exact .inr ⟨if_neg here, elsewhere _ here⟩
      | delete | read => exact sets.elim
  | @move _ d mover mover' q out found moves sent =>
      refine .inr ⟨moves.applies i, Sys.content_put ?_ i⟩
      obtain ⟨_, v, ttl, op⟩ := ours d mover found
      rcases moves.rollback op with ⟨same, _⟩ | ⟨_, ⟨err, failed⟩, _⟩
      · exact Proc.content_congr same
      · have there : (s.calls.set d mover')[d]? = some mover' :=
          (getElem?_set_found found d).trans (if_pos rfl)
        exact absurd (sure d mover' there) (Call.not_sure_error failed)
  | @handle d peer req sent =>
      obtain ⟨call, found, target, _⟩ := reg.msgs _ sent
      obtain ⟨_, v, ttl, op⟩ := ours d call found
      obtain rfl := forward d call peer req found sent
      have request : call.request = .replSet k v (wireTTL ttl) := by rw [Call.request, op]
      by_cases here : peer = i
      · subst here
        refine .inl ⟨d, call, v, ttl, ?_, found, op, ?_⟩
        · rw [request]
          exact if_pos rfl
        · change (Function.update s.procs peer _ peer).content k = some v
          rw [Function.update_self]
          rw [Call.targets, op] at target
          refine content_serve op (List.mem_filter.mp target).1 ?_
          rw [request] at takes
          exact takes
      · refine .inr ⟨?_, elsewhere _ here⟩
        rw [request]
        exact if_neg here
  | late => exact .inr ⟨rfl, rfl⟩
  | lose => cases smooth
  | mark =>
      refine .inr ⟨rfl, Sys.content_put ?_ i⟩
      exact Proc.content_congr rfl
  | cleanupExpired => exact sets.elim

/-- Every node has the value it has applied last, and has applied what it has acknowledged. -/
structure Logged (node k : String) (past : List (Sys × Int × Action)) (s : Sys) : Prop where
  latest : ∀ i last, (applied i past).head? = some last →
    ∃ (call : Call) (v : List UInt8) (ttl : Int), s.calls[last]? = some call ∧
      call.op = .set k v ttl ∧ (s.procs i).content k = some v
  own : ∀ c < s.calls.length, c ∈ applied node past
  results : ∀ (c : Nat) (call : Call), s.calls[c]? = some call →
    ∀ r ∈ call.results, c ∈ applied r.1 past
  responses : ∀ (c : Nat) (call : Call) (peer : String) (resp : Response),
    s.calls[c]? = some call → .response c peer call.request resp ∈ s.net → c ∈ applied peer past

theorem Logged.latest_step (h : Logged node k past s) (step : Step w now s a s')
    (puts : Puts node k s (now, a)) (reg : s.Regular w) (ours : s.Setting node k)
    (forward : s.Forward) (sure : s'.Sure) (primary : w.isPrimary node k = true) (i : String)
    (last : Nat) (head : (applied i ((s, now, a) :: past)).head? = some last) :
    ∃ (call : Call) (v : List UInt8) (ttl : Int), s'.calls[last]? = some call ∧
      call.op = .set k v ttl ∧ (s'.procs i).content k = some v := by
  rcases step.stores puts reg ours forward sure primary i with
    ⟨c, call, v, ttl, here, there, op, content⟩ | ⟨none, content⟩
  · rw [applied, List.filterMap_cons, here] at head
    obtain rfl := Option.some.inj head
    exact ⟨call, v, ttl, there, op, content⟩
  · rw [applied, List.filterMap_cons, none] at head
    obtain ⟨call, v, ttl, found, op, before⟩ := h.latest i last head
    obtain ⟨call', there, same⟩ := step.persists found
    exact ⟨call', v, ttl, there, same.op.trans op, content.trans before⟩

theorem Logged.step (h : Logged node k past s) (step : Step w now s a s')
    (puts : Puts node k s (now, a)) (reg : s.Regular w) (ours : s.Setting node k)
    (forward : s.Forward) (sure : s'.Sure) (primary : w.isPrimary node k = true) :
    Logged node k ((s, now, a) :: past) s' where
  latest := h.latest_step step puts reg ours forward sure primary
  own := fun c bound => by
    by_cases old : c < s.calls.length
    · exact mem_applied_cons (h.own c old)
    · obtain ⟨call, there⟩ : ∃ call, s'.calls[c]? = some call := ⟨_, List.getElem?_eq_getElem bound⟩
      rcases step.call_cases there with same | ⟨_, _, _, was, _⟩ | ⟨rfl, n, op, _, rfl, _⟩
      · exact absurd (List.getElem?_eq_some_iff.mp same).1 old
      · exact absurd (List.getElem?_eq_some_iff.mp was).1 old
      · refine mem_applied_self ?_
        cases op with
        | set key value ttl => exact if_pos puts.1.1
        | delete | read => exact puts.1.elim
  results := fun c call there r mem => by
    obtain ⟨old, was, _, result⟩ := step.result_cases there mem
    rcases result with before | ⟨resp, sent, _⟩ | ⟨key, read, _⟩
    · exact mem_applied_cons (h.results c old was r before)
    · exact mem_applied_cons (h.responses c old r.1 resp was sent)
    · exact absurd read (ours.writes was key)
  responses := fun c call' peer resp there sent => by
    rcases step.msg_cases sent with old | ⟨_, _, _, _, _, _, _, _, _, _, eq⟩ |
      ⟨d, peer', req, asked, rfl, eq, _⟩
    · obtain ⟨call, found, _⟩ := reg.msgs _ old
      have same := step.same found there
      rw [same.request] at old
      exact mem_applied_cons (h.responses c call peer resp found old)
    · cases eq
    · cases eq
      obtain ⟨call, found, _⟩ := reg.msgs _ asked
      have same := step.same found there
      obtain ⟨_, v, ttl, op⟩ := ours c call found
      refine mem_applied_self ?_
      rw [same.request, Call.request, op]
      exact if_pos rfl

theorem Puts.accepts {x : Int × Action} (h : Puts node k s x) (m : Nat) : Accepts m s x := by
  intro c peer key value ttl call _ _ op act
  have takes := h.2.2
  unfold Takes at takes
  rw [act, Call.request, op] at takes
  exact takes

theorem logged_run {u : Sys} (initial : u.Initial) (healthy : u.Healthy)
    (primary : w.isPrimary node k = true) (run : RunFrom w u past s)
    (puts : Meets (Puts node k) past) (sure : s.Sure) :
    s.Regular w ∧ s.Setting node k ∧ s.Complete w 0 ∧ Logged node k past s := by
  have inv := Run.induct_from (I := fun past s => s.Regular w ∧ s.Setting node k ∧
    s.Complete w 0 ∧ (s.Sure → s.Forward ∧ Logged node k past s))
    ⟨initial.regular, ?_, ?_, fun _ => ⟨?_, ?_⟩⟩ ?_ run puts
  · exact ⟨inv.1, inv.2.1, inv.2.2.1, (inv.2.2.2 sure).2⟩
  · intro c call found
    rw [initial.calls] at found
    cases found
  · have complete := initial.idle.complete (w := w) healthy
    rwa [initial.calls] at complete
  · intro c call peer req found
    rw [initial.calls] at found
    cases found
  · refine ⟨nofun, fun c bound => ?_, fun c call found => ?_, fun c call peer resp found => ?_⟩
    · rw [initial.calls] at bound
      exact absurd bound (Nat.not_lt_zero c)
    · rw [initial.calls] at found
      cases found
    · rw [initial.calls] at found
      cases found
  · rintro past s x s' ⟨reg, ours, complete, good⟩ puts exec
    have step := exec_step exec
    refine ⟨reg.step step, ours.step puts.1 step,
      complete.step reg puts.2.1 (puts.accepts 0) step, fun sure => ?_⟩
    -- That no call fails is known at the end of the run only, so it is carried backwards.
    obtain ⟨forward, logged⟩ := good (sure.before ours step)
    exact ⟨forward.step ours reg sure step,
      logged.step step puts reg ours forward sure primary⟩

/-- Let any number of `WriteSet` calls of one key at its primary all return without error,
with all nodes healthy and reachable and all stores accepting the values. If no node applies
another call after the one that the primary has applied last, all nodes have its value. -/
theorem replicas_agree {w : Setup} (on : w.cfg.enabled = true)
    (needs : 1 ≤ w.cfg.requiredWriteAcks) {node key : String} {u s : Sys}
    {past : List (Sys × Int × Action)} (initial : u.Initial) (healthy : u.Healthy)
    (primary : w.isPrimary node key = true) (run : RunFrom w u past s)
    (puts : Meets (Puts node key) past) (any : s.calls ≠ [])
    (returned : ∀ call ∈ s.calls, call.phase = .returned .stored)
    (ordered : ∀ last, (applied node past).head? = some last → ∀ i ∈ w.owners key,
      last ∈ applied i past → (applied i past).head? = some last) :
    ∃ v, ∀ i ∈ w.owners key, (s.procs i).content key = some v := by
  have sure : s.Sure := fun c call found => .inr (.inl (returned call (List.mem_of_getElem? found)))
  obtain ⟨reg, ours, complete, logged⟩ := logged_run initial healthy primary run puts sure
  have required : 1 ≤ w.required := by
    rw [Setup.required, if_pos on]
    exact needs
  obtain ⟨last, head⟩ : ∃ last, (applied node past).head? = some last := by
    have first := logged.own 0 (List.length_pos_of_ne_nil any)
    exact ⟨_, List.head?_eq_some_head (List.ne_nil_of_mem first)⟩
  obtain ⟨call, v, ttl, found, op, _⟩ := logged.latest node last head
  refine ⟨v, fun i member => ?_⟩
  have stored := returned call (List.mem_of_getElem? found)
  have writes := ours.writes found
  have reached := complete.reached (Nat.zero_le last) found writes stored required
    ((reg.calls last call found).stored writes stored).1 (i := i) (by rwa [op])
  -- A node that has acknowledged `last` has applied it, and nothing after it.
  have head : (applied i past).head? = some last := by
    cases reached with
    | head =>
        rw [(ours last call found).1]
        exact head
    | tail _ mem =>
        obtain ⟨r, acked, rfl⟩ := List.mem_map.mp mem
        exact ordered last head r.1 member (logged.results last call found r acked)
  obtain ⟨call', v', ttl', found', op', content⟩ := logged.latest i last head
  obtain rfl := Option.some.inj (found'.symm.trans found)
  obtain ⟨_, rfl, _⟩ := Op.set.inj (op'.symm.trans op)
  exact content

/-- Two calls at `a` whose requests reach `b` and `c` in the orders given. -/
def crossing (atB atC : List (Nat × List UInt8)) : List (Int × Action) :=
  let sends : List Action := [.start "a" (.set "k" [1] 0), .start "a" (.set "k" [2] 0),
    .advance 0, .advance 0, .advance 0, .advance 1, .advance 1, .advance 1]
  let arrives (i : String) (r : Nat × List UInt8) : Action :=
    .deliver (.request r.1 i (.replSet "k" r.2 0))
  let acks : List Action := [.deliver (.response 0 "b" (.replSet "k" [1] 0) .ok),
    .deliver (.response 0 "c" (.replSet "k" [1] 0) .ok), .advance 0,
    .deliver (.response 1 "b" (.replSet "k" [2] 0) .ok),
    .deliver (.response 1 "c" (.replSet "k" [2] 0) .ok), .advance 1]
  (sends ++ atB.map (arrives "b") ++ atC.map (arrives "c") ++ acks).map (0, ·)

/-- Both peers get the requests in the order of the local writes. -/
theorem replicas_agree_ordered : ∃ (past : List (Sys × Int × Action)) (s : Sys),
    RunFrom sample (.empty fun _ => 0) past s ∧
      ∃ v, ∀ i ∈ sample.owners "k", (s.procs i).content "k" = some v := by
  obtain ⟨past, s, run, seen⟩ := RunFrom.of_steps sample (.empty fun _ => 0)
    (crossing [(0, [1]), (1, [2])] [(0, [1]), (1, [2])])
    (fun past s => decide (Meets (Puts "a" "k") past ∧ s.calls ≠ [] ∧
      (∀ call ∈ s.calls, call.phase = .returned .stored) ∧
      ∀ i ∈ sample.owners "k", (applied i past).head? = some 1)) (by decide)
  obtain ⟨puts, any, returned, heads⟩ := of_decide_eq_true seen
  refine ⟨past, s, run, replicas_agree (by decide) (by decide) (Sys.empty_initial _)
    (fun _ _ => rfl) (by decide) run puts any returned fun last head i mem _ => ?_⟩
  rw [heads i mem, ← head]
  exact (heads "a" (by decide)).symm

/-- `b` gets them the other way round. -/
theorem replicas_diverge : ∃ (past : List (Sys × Int × Action)) (s : Sys),
    sample.cfg.enabled = true ∧ 1 ≤ sample.cfg.requiredWriteAcks ∧ sample.ring.Built ∧
      Sys.Initial (.empty fun _ => 0) ∧ Sys.Healthy (.empty fun _ => 0) ∧
      sample.isPrimary "a" "k" = true ∧ RunFrom sample (.empty fun _ => 0) past s ∧
      Meets (Puts "a" "k") past ∧ s.calls.length = 2 ∧
      (∀ call ∈ s.calls, call.phase = .returned .stored) ∧
      "a" ∈ sample.owners "k" ∧ (s.procs "a").content "k" = some [2] ∧
      "b" ∈ sample.owners "k" ∧ (s.procs "b").content "k" = some [1] := by
  obtain ⟨past, s, run, seen⟩ := RunFrom.of_steps sample (.empty fun _ => 0)
    (crossing [(1, [2]), (0, [1])] [(0, [1]), (1, [2])])
    (fun past s => decide (Meets (Puts "a" "k") past ∧ s.calls.length = 2 ∧
      (∀ call ∈ s.calls, call.phase = .returned .stored) ∧
      "a" ∈ sample.owners "k" ∧ (s.procs "a").content "k" = some [2] ∧
      "b" ∈ sample.owners "k" ∧ (s.procs "b").content "k" = some [1])) (by decide)
  exact ⟨past, s, by decide, by decide, sampleRing_built, Sys.empty_initial _, fun _ _ => rfl,
    by decide, run, of_decide_eq_true seen⟩

end DistributedCache.Replication
