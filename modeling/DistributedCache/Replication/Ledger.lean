import DistributedCache.Replication.Alone

/-!
The requests of one write. Each of them is still to be sent, under way, or served, and
none of them twice: a call turns to every node once, and takes back only from nodes that
have acknowledged, each of them once.
-/
namespace DistributedCache.Replication

variable {w : Setup} {now : Int} {s s' : Sys} {a : Action} {c : Nat} {call call' : Call}
  {p p' : Proc} {past : List (Sys × Int × Action)}

/-- What a write still has to send. -/
def Call.plan (w : Setup) (call : Call) : List (String × Request) :=
  match call.phase with
  | .undoing rest => rest.map (·, call.takesBack)
  | _ => (call.ahead w).map (·, call.request)

/-- The request of call `c` that a message carries to its peer. -/
def Msg.asks (c : Nat) : Msg → Option (String × Request)
  | .request d peer req => if d = c then some (peer, req) else none
  | .response _ _ _ _ => none

/-- The requests of call `c` that are under way. -/
def underWay (c : Nat) (net : List Msg) : List (String × Request) :=
  net.filterMap (Msg.asks c)

/-- The request of call `c` that a step serves. -/
def serves (c : Nat) (x : Sys × Int × Action) : Option (String × Request) :=
  match x.2.2 with
  | .deliver msg => msg.asks c
  | _ => none

def served (c : Nat) (past : List (Sys × Int × Action)) : List (String × Request) :=
  past.filterMap (serves c)

theorem serves_eq_some {i : String} {req : Request} :
    serves c (s, now, a) = some (i, req) ↔ a = .deliver (.request c i req) := by
  cases a with
  | deliver msg =>
      cases msg with
      | request d peer req' =>
          refine Option.ite_none_right_eq_some.trans ?_
          simp
      | response => exact iff_of_false nofun nofun
  | start | advance | cancel | lose | fail | getLocal | mark | cleanupExpired =>
      exact iff_of_false nofun nofun

theorem served_cons (c : Nat) (x : Sys × Int × Action) (past : List (Sys × Int × Action)) :
    served c (x :: past) = (serves c x).toList ++ served c past := by
  rw [served, List.filterMap_cons]
  cases serves c x <;> rfl

theorem mem_served_cons {r : String × Request} (mem : r ∈ served c past)
    (x : Sys × Int × Action) : r ∈ served c (x :: past) := by
  rw [served_cons]
  exact List.mem_append_right _ mem

theorem mem_served_iff {i : String} {req : Request} :
    (i, req) ∈ served c ((s, now, a) :: past) ↔
      a = .deliver (.request c i req) ∨ (i, req) ∈ served c past := by
  rw [served_cons, List.mem_append, Option.mem_toList]
  exact or_congr_left serves_eq_some

theorem underWay_erase_sublist (c : Nat) (net : List Msg) (msg : Msg) :
    (underWay c (net.erase msg)).Sublist (underWay c net) :=
  List.erase_sublist.filterMap _

theorem underWay_remaining_sublist (c : Nat) (a : Action) (net : List Msg) :
    (underWay c (a.remaining net)).Sublist (underWay c net) := by
  unfold Action.remaining
  split
  · exact underWay_erase_sublist c net _
  · exact List.Sublist.refl _

theorem underWay_sent (c d : Nat) (out : List (String × Request)) :
    underWay c (out.map fun r => .request d r.1 r.2) = if d = c then out else [] := by
  induction out with
  | nil => simp [underWay]
  | cons r rest ih =>
      rw [underWay] at ih
      by_cases own : d = c
      · simpa [underWay, Msg.asks, own] using ih
      · simp [underWay, Msg.asks, own]

theorem underWay_append (c : Nat) (net net' : List Msg) :
    underWay c (net ++ net') = underWay c net ++ underWay c net' :=
  List.filterMap_append

/-- A request that is served is no longer under way. -/
theorem underWay_perm {peer : String} {req : Request} {net : List Msg}
    (sent : .request c peer req ∈ net) :
    (underWay c net).Perm ((peer, req) :: underWay c (net.erase (.request c peer req))) := by
  have perm := (List.perm_cons_erase sent).filterMap (Msg.asks c)
  rwa [List.filterMap_cons_some (b := (peer, req)) (by simp [Msg.asks])] at perm

theorem Call.Moves.serves {out : List (String × Request)} {d : Nat}
    (m : call.Moves w now p d a p' call' out) : serves c (s, now, a) = none := by
  cases m with
  | answer _ ends | refuse _ ends | fetched _ _ _ ends | settle _ _ ends => cases ends <;> rfl
  | _ => rfl

/-- What a step does to the requests of call `c`: besides those it sends, none are new. -/
theorem Step.traffic (step : Step w now s a s') (found : s.calls[c]? = some call)
    (there : s'.calls[c]? = some call') (past : List (Sys × Int × Action)) :
    ∃ out, (underWay c s'.net ++ served c ((s, now, a) :: past)).Subperm
        (out ++ (underWay c s.net ++ served c past)) ∧
      ((call' = call ∧ out = []) ∨ ∃ q, call.Moves w now (s.procs call.node) c a q call' out) := by
  have quiet (none : serves c (s, now, a) = none) :
      served c ((s, now, a) :: past) = served c past := by
    rw [served_cons, none]
    rfl
  have fewer (part : (underWay c s'.net).Sublist (underWay c s.net))
      (none : serves c (s, now, a) = none) :
      (underWay c s'.net ++ served c ((s, now, a) :: past)).Subperm
        ([] ++ (underWay c s.net ++ served c past)) := by
    rw [quiet none]
    exact (part.append_right _).subperm
  have same (here : s.calls[c]? = some call') : call' = call :=
    Option.some.inj (here.symm.trans found)
  cases step with
  | start started =>
      obtain ⟨bound, _⟩ := List.getElem?_eq_some_iff.mp found
      refine ⟨[], fewer (List.Sublist.refl _) rfl, .inl ⟨same ?_, rfl⟩⟩
      exact (List.getElem?_append_left bound).symm.trans there
  | @move _ d mover mover' q out here moves sent =>
      have sends := underWay_sent c d out
      rw [getElem?_set_found here] at there
      by_cases own : d = c
      · subst own
        rw [if_pos rfl] at there sends
        obtain rfl := Option.some.inj there
        obtain rfl := Option.some.inj (here.symm.trans found)
        refine ⟨out, ?_, .inr ⟨q, moves⟩⟩
        rw [quiet moves.serves]
        dsimp only
        rw [underWay_append, sends, List.append_assoc]
        refine List.Perm.subperm (List.perm_append_comm_assoc ..) |>.trans ?_
        exact (((underWay_remaining_sublist d _ s.net).append_right _).append_left out).subperm
      · rw [if_neg own] at there sends
        refine ⟨[], fewer ?_ moves.serves, .inl ⟨same there, rfl⟩⟩
        dsimp only
        rw [underWay_append, sends, List.append_nil]
        exact underWay_remaining_sublist c _ s.net
  | @handle d peer req sent =>
      refine ⟨[], ?_, .inl ⟨same there, rfl⟩⟩
      have answered : underWay c (s.net.erase (.request d peer req) ++
          [.response d peer req (serve w peer now (s.procs peer) req).2]) =
            underWay c (s.net.erase (.request d peer req)) := by
        rw [underWay_append]
        exact List.append_nil _
      dsimp only
      rw [answered, served_cons]
      by_cases own : d = c
      · subst own
        rw [serves_eq_some.mpr rfl]
        refine List.Perm.subperm (List.perm_middle.trans ?_)
        exact ((underWay_perm sent).append_right _).symm
      · have other : serves c (s, now, .deliver (.request d peer req)) = none := if_neg own
        rw [other]
        exact ((underWay_erase_sublist c s.net _).append_right _).subperm
  | late | lose =>
      exact ⟨[], fewer (underWay_erase_sublist c s.net _) rfl, .inl ⟨same there, rfl⟩⟩
  | mark | cleanupExpired =>
      exact ⟨[], fewer (List.Sublist.refl _) rfl, .inl ⟨same there, rfl⟩⟩

theorem Call.plan_of_returned {result : Result} (phase : call.phase = .returned result) :
    call.plan w = [] := by
  rw [plan, ahead, phase]
  rfl

/-- What a write sends, it has planned. New in its plan is only what it takes back. -/
theorem Call.Moves.plan {out : List (String × Request)} (writes : ∀ key, call.op ≠ .read key)
    (m : call.Moves w now p c a p' call' out) :
    (call'.plan w ++ out).Subperm (call.plan w) ∨
      (call.Sure ∧ ¬ call'.Sure ∧ out = [] ∧ call'.results = call.results ∧
        call'.plan w = call.results.map fun r => (r.1, call.takesBack)) := by
  have returned (result : Result) : ((call.returns result).plan w ++ []).Subperm (call.plan w) := by
    have none : (call.returns result).plan w = [] := plan_of_returned rfl
    rw [none]
    exact List.nil_subperm
  cases m with
  | skip phase =>
      refine .inl ?_
      rw [Call.plan, Call.plan, ahead, ahead, phase, List.append_nil]
      exact (((List.sublist_cons_self _ _).filter _).map _).subperm
  | @contact node rest phase wanted =>
      have aims := aims_of_wanted wanted
      refine .inl ?_
      rw [if_neg (ne_node_of_aims writes aims), Call.plan, Call.plan, ahead, ahead, phase]
      dsimp only
      rw [List.map_cons, List.filter_cons_of_pos aims]
      exact (List.perm_append_singleton _ _).subperm
  | stored | deleted | undoneSet | undone | cancelSet => exact .inl (returned _)
  | short _ phase =>
      refine .inr ⟨.inl ⟨_, phase⟩, not_sure_undoing rfl, rfl, rfl, ?_⟩
      exact List.map_map
  | undo phase =>
      refine .inl ?_
      rw [Call.plan, Call.plan, phase]
      exact (List.perm_append_singleton _ _).subperm
  | answer | refuse | settle =>
      refine .inl ?_
      rw [List.append_nil]
      exact List.Subperm.refl _
  | answered op | exhausted op | cancelRead op | fetched op | getLocal op =>
      exact absurd op (writes _)

theorem Call.Moves.results_subset {out : List (String × Request)}
    (m : call.Moves w now p c a p' call' out) : call.results ⊆ call'.results := by
  cases m with
  | answer | getLocal => exact List.subset_append_left _ _
  | _ => exact List.Subset.refl _

/-- The requests of call `c`, those it has not sent included. -/
def requests (w : Setup) (c : Nat) (call : Call) (past : List (Sys × Int × Action)) (s : Sys) :
    List (String × Request) :=
  call.plan w ++ (underWay c s.net ++ served c past)

/-- None of the requests of call `c` goes out twice. What it has answers to has been
served, and it takes back only what has been acknowledged. -/
structure Ledger (w : Setup) (c : Nat) (call : Call) (past : List (Sys × Int × Action)) (s : Sys) :
    Prop where
  once : (requests w c call past s).Nodup
  back : ∀ i, (i, call.takesBack) ∈ requests w c call past s →
    i ∈ call.results.map Prod.fst ∧ ¬ call.Sure
  results : ∀ r ∈ call.results, (r.1, call.request) ∈ served c past
  responses : ∀ i req resp, .response c i req resp ∈ s.net → (i, req) ∈ served c past
  others : ∀ r ∈ served c past, r.1 ≠ call.node

theorem Ledger.taken (h : Ledger w c call past s) {i : String}
    (taken : (i, call.takesBack) ∈ served c past) :
    i ∈ call.results.map Prod.fst ∧ ¬ call.Sure :=
  h.back i (List.mem_append_right _ (List.mem_append_right _ taken))

/-- A node that has been asked to take the write back is not asked for it any more. -/
theorem Ledger.not_asked (h : Ledger w c call past s) {i : String}
    (taken : (i, call.takesBack) ∈ served c past) : .request c i call.request ∉ s.net := by
  intro sent
  have asked : (i, call.request) ∈ underWay c s.net :=
    List.mem_filterMap.mpr ⟨_, sent, if_pos rfl⟩
  obtain ⟨acked, _⟩ := h.taken taken
  obtain ⟨r, mem, rfl⟩ := List.mem_map.mp acked
  have apart := (List.nodup_append.mp (List.nodup_append.mp h.once).2.1).2.2
  exact apart _ asked _ (h.results r mem) rfl

theorem Ledger.results_step (h : Ledger w c call past s) (writes : ∀ key, call.op ≠ .read key)
    (found : s.calls[c]? = some call) (there : s'.calls[c]? = some call')
    (step : Step w now s a s') (r : String × Response) (mem : r ∈ call'.results) :
    (r.1, call.request) ∈ served c ((s, now, a) :: past) := by
  obtain ⟨old, was, _, result⟩ := step.result_cases there mem
  obtain rfl := Option.some.inj (found.symm.trans was)
  rcases result with before | ⟨resp, sent, _⟩ | ⟨key, read, _⟩
  · exact mem_served_cons (h.results r before) _
  · exact mem_served_cons (h.responses r.1 _ resp sent) _
  · exact absurd read (writes key)

theorem Ledger.responses_step (h : Ledger w c call past s) (step : Step w now s a s') (i : String)
    (req : Request) (resp : Response) (sent : .response c i req resp ∈ s'.net) :
    (i, req) ∈ served c ((s, now, a) :: past) := by
  rcases step.msg_cases sent with old | ⟨_, _, _, _, _, _, _, _, _, _, eq⟩ |
    ⟨d, peer, req', asked, rfl, eq, _⟩
  · exact mem_served_cons (h.responses i req resp old) _
  · cases eq
  · cases eq
    rw [served_cons, serves_eq_some.mpr rfl]
    exact List.mem_cons_self

theorem Ledger.others_step (h : Ledger w c call past s) (reg : s.Regular w)
    (found : s.calls[c]? = some call) (step : Step w now s a s') (r : String × Request)
    (mem : r ∈ served c ((s, now, a) :: past)) : r.1 ≠ call.node := by
  rw [served_cons] at mem
  cases List.mem_append.mp mem with
  | inr old => exact h.others r old
  | inl new =>
      obtain rfl := serves_eq_some.mp (Option.mem_toList.mp new)
      obtain ⟨call', found', _, other, _⟩ := reg.msgs _ step.sent
      obtain rfl := Option.some.inj (found.symm.trans found')
      exact other

/-- A call that starts to take its write back plans to do so once at every node that has
acknowledged. So far it has taken nothing back. -/
theorem Ledger.fails (h : Ledger w c call past s) (sure : call.Sure)
    (acks : (call.results.map Prod.fst).Nodup) {seen : List (String × Request)}
    (traffic : seen.Subperm (underWay c s.net ++ served c past)) :
    ((call.results.map fun r => (r.1, call.takesBack)) ++ seen).Nodup ∧
      ∀ i, (i, call.takesBack) ∈ (call.results.map fun r => (r.1, call.takesBack)) ++ seen →
        i ∈ call.results.map Prod.fst := by
  have fresh (i : String) : (i, call.takesBack) ∉ seen := fun taken =>
    (h.back i (List.mem_append_right _ (traffic.subset taken))).2 sure
  constructor
  · refine List.nodup_append.mpr ⟨?_, nodup_of_subperm traffic ?_, fun r taken r' mem same => ?_⟩
    · have pairs := acks.map (f := (·, call.takesBack)) fun i j same => (Prod.mk.inj same).1
      rwa [List.map_map] at pairs
    · exact (List.nodup_append.mp h.once).2.1
    · obtain ⟨_, _, rfl⟩ := List.mem_map.mp taken
      exact fresh _ (same ▸ mem)
  · intro i taken
    cases List.mem_append.mp taken with
    | inl planned =>
        obtain ⟨r, mem, eq⟩ := List.mem_map.mp planned
        cases eq
        exact List.mem_map_of_mem mem
    | inr out => exact absurd out (fresh i)

theorem Ledger.step (h : Ledger w c call past s) (writes : ∀ key, call.op ≠ .read key)
    (reg : s.Regular w) (ring : w.ring.Sound) (found : s.calls[c]? = some call)
    (there : s'.calls[c]? = some call') (step : Step w now s a s') :
    Ledger w c call' ((s, now, a) :: past) s' := by
  have same := step.same found there
  obtain ⟨out, traffic, moved⟩ := step.traffic found there past
  -- What is left to say is which requests there are now, and which of them take back.
  have rest (once : (requests w c call' ((s, now, a) :: past) s').Nodup)
      (back : ∀ i, (i, call.takesBack) ∈ requests w c call' ((s, now, a) :: past) s' →
        i ∈ call'.results.map Prod.fst ∧ ¬ call'.Sure) :
      Ledger w c call' ((s, now, a) :: past) s' := by
    refine ⟨once, same.takesBack ▸ back, fun r mem => ?_, h.responses_step step, fun r mem => ?_⟩
    · rw [same.request]
      exact h.results_step writes found there step r mem
    · rw [same.node]
      exact h.others_step reg found step r mem
  have kept (acked : call.results ⊆ call'.results) (failing : ¬ call.Sure → ¬ call'.Sure)
      (part : (call'.plan w ++ out).Subperm (call.plan w)) :
      Ledger w c call' ((s, now, a) :: past) s' := by
    have fewer : (requests w c call' ((s, now, a) :: past) s').Subperm
        (requests w c call past s) := by
      refine ((List.subperm_append_left _).mpr traffic).trans ?_
      rw [← List.append_assoc]
      exact (List.subperm_append_right _).mpr part
    refine rest (nodup_of_subperm fewer h.once) fun i taken => ?_
    obtain ⟨mem, unsure⟩ := h.back i (fewer.subset taken)
    exact ⟨List.map_subset _ acked mem, failing unsure⟩
  rcases moved with ⟨rfl, rfl⟩ | ⟨q, moves⟩
  · exact kept (List.Subset.refl _) id (List.Perm.of_eq (List.append_nil _)).subperm
  · rcases moves.plan writes with part | ⟨sure, unsure, rfl, acked, plan⟩
    · exact kept moves.results_subset (fun unsure sure => unsure (moves.sure writes sure).1) part
    · have acks := (reg.calls c call found).nodup_results ring
      obtain ⟨once, back⟩ := h.fails sure acks traffic
      rw [← plan] at once back
      refine rest once fun i taken => ⟨?_, unsure⟩
      rw [acked]
      exact back i taken

theorem Started.plan {self : String} {op : Op} (h : Started w now p self op p' call) :
    call.plan w = (call.ahead w).map (·, call.request) := by
  cases h <;> rfl

theorem Ledger.start {u v : Sys} {node : String} {op : Op} (reg : u.Regular w)
    (ring : w.ring.Sound) (writes : ∀ key, op ≠ .read key)
    (starts : exec w u (now, .start node op) = .ok v)
    (found : v.calls[u.calls.length]? = some call) : Ledger w u.calls.length call [] v := by
  have early {msg : Msg} (mem : msg ∈ v.net) : msg.call < u.calls.length := by
    cases starts
    exact reg.call_lt mem
  have none : underWay u.calls.length v.net = [] := by
    refine List.filterMap_eq_nil_iff.mpr fun msg mem => ?_
    have less := early mem
    cases msg with
    | request d peer req => exact if_neg (Nat.ne_of_lt less)
    | response => rfl
  obtain ⟨_, call', started, found', _⟩ := exec_start starts
  obtain rfl := Option.some.inj (found'.symm.trans found)
  have all : requests w u.calls.length call' [] v =
      (call'.ahead w).map (·, call'.request) := by
    rw [requests, none, started.plan]
    exact List.append_nil _
  refine ⟨?_, fun i taken => ?_, fun r mem => ?_, fun i req resp sent => ?_, nofun⟩
  · have ids := nodup_of_subperm started.spread.ids ((Setup.nodup_owners ring _).filter _)
    have ahead := (List.nodup_append.mp (List.nodup_append.mp ids).2.1).2.1
    rw [all]
    exact ahead.map fun i j same => (Prod.mk.inj same).1
  · rw [all] at taken
    obtain ⟨_, _, eq⟩ := List.mem_map.mp taken
    have writes' : ∀ key, call'.op ≠ .read key := by rwa [started.same.2.1]
    exact absurd (Prod.mk.inj eq).2.symm (Call.takesBack_ne_request writes')
  · rw [started.same.2.2.2] at mem
    cases mem
  · exact absurd (early sent) (Nat.lt_irrefl _)

end DistributedCache.Replication
