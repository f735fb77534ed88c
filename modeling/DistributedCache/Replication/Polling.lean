import DistributedCache.Replication.Votes
import DistributedCache.Replication.Writing

/-!
Quorum reads. Unless its context ends first, a read counts the answers it has, its own
node's among them, and every answer is what the node had when it was asked.
-/
namespace DistributedCache.Replication

variable {w : Setup} {now : Int} {s s' : Sys} {a : Action} {k : String} {c : Nat}
  {call call' : Call} {p p' : Proc}

/-- The values among the answers, in the order of their arrival. -/
def Call.votes (call : Call) : List (List UInt8) :=
  (call.results.map fun r => r.2.answer).filterMap id

theorem Call.Spread.length_votes_le (spread : call.Spread w) (ring : w.ring.Sound)
    {held : List String} (holds : ∀ r ∈ call.results, ∀ x, r.2 = .value x → r.1 ∈ held) :
    call.votes.length ≤ held.length := by
  have votes : call.votes.length =
      ((call.results.filter fun r => r.2.answer.isSome).map Prod.fst).length := by
    rw [Call.votes, List.filterMap_map, List.length_map, ← List.countP_eq_length_filter]
    exact List.length_filterMap_eq_countP ..
  have part : ((call.results.filter fun r => r.2.answer.isSome).map Prod.fst).Sublist
      (call.results.map Prod.fst) := List.filter_sublist.map _
  rw [votes]
  refine (List.subperm_of_subset ((spread.nodup_results ring).sublist part) ?_).length_le
  intro i mem
  obtain ⟨r, voted, rfl⟩ := List.mem_map.mp mem
  obtain ⟨mem, vote⟩ := List.mem_filter.mp voted
  cases answer : r.2 with
  | value x => exact holds r mem x answer
  | ok | notFound | error =>
      rw [answer] at vote
      cases vote

theorem Config.readQuorum_of_quorum {cfg : Config} (mode : cfg.readConsistency = .quorum) :
    cfg.readConsistency ≠ .primary ∧ cfg.readConsistency ≠ .any := by
  simp [mode]

theorem Call.polls_of_mode (op : call.op = .read k)
    (mode : w.cfg.readConsistency ≠ .primary ∧ w.cfg.readConsistency ≠ .any) :
    call.polls w = true := by
  simp [Call.polls, op, mode.2]

/-- What the results of the reads of `k` from number `m` on have in common. -/
structure Sys.Reading (k : String) (m : Nat) (P : String → Response → Prop) (s : Sys) : Prop where
  results : ∀ (d : Nat) (call : Call), m ≤ d → s.calls[d]? = some call → call.op = .read k →
    ∀ r ∈ call.results, P r.1 r.2
  responses : ∀ d peer resp resp', m ≤ d → .response d peer (.replGet k) resp ∈ s.net →
    (Request.replGet k).outcome resp = some resp' → P peer resp'

theorem outcome_ofGet (k : String) (found : Option (List UInt8)) :
    (Request.replGet k).outcome (.ofGet found) = some (.ofGet found) := by
  cases found <;> rfl

/-- What `Get` answers at every node of the replica set is what the reads get. -/
theorem Sys.Reading.step {m : Nat} {P : String → Response → Prop} (h : s.Reading k m P)
    (reg : s.Regular w) (step : Step w now s a s')
    (gets : ∀ n ∈ w.owners k, P n (.ofGet ((s.procs n).store.get now k).2)) :
    s'.Reading k m P where
  results := fun d call late there op r mem => by
    obtain ⟨old, was, same, result⟩ := step.result_cases there mem
    have opOld : old.op = .read k := same.op.symm.trans op
    have request : old.request = .replGet k := by rw [Call.request, opOld]
    rcases result with before | ⟨resp, sent, told⟩ | ⟨key, read, waits, rfl⟩
    · exact h.results d old late was opOld r before
    · rw [request] at sent told
      exact h.responses d r.1 resp r.2 late sent told
    · obtain rfl : key = k := Op.read.inj (read.symm.trans opOld)
      have target := ((reg.calls d old was).running _ waits).1
      rw [Call.targets, opOld] at target
      exact gets old.node (List.mem_filter.mp target).1
  responses := fun d peer resp resp' late sent outcome => by
    rcases step.msg_cases sent with old | ⟨_, _, _, _, _, _, _, _, _, _, eq⟩ |
      ⟨d', peer', req, asked, _, eq, _⟩
    · exact h.responses d peer resp resp' late old outcome
    · cases eq
    · cases eq
      rw [serve] at outcome
      split at outcome
      · rename_i member
        rw [outcome_ofGet] at outcome
        cases outcome
        exact gets peer (Setup.isInReplicaSet_iff.mp member)
      · cases outcome

namespace Call

/-- Where a quorum read stands, and whether its context has ended it. -/
inductive Polled (w : Setup) (call : Call) (cancelled : Prop) : Prop
  | visiting {rest : List Cluster.Node} (phase : call.phase = .visiting rest)
      (goes : ¬ cancelled) (asked : call.node ∈ call.ids w)
  | cancelled (phase : call.phase = .returned (.error .contextDone)) (ended : cancelled)
  | counted (phase : call.phase = .returned (countAnswers w.cfg.readQuorum
      (call.results.map fun r => r.2.answer) ∅ 0 none)) (goes : ¬ cancelled)
      (idle : call.running = []) (asked : call.node ∈ call.results.map Prod.fst)

theorem Polled.imp {before after : Prop} (h : call.Polled w before) (iff : before ↔ after) :
    call.Polled w after := by
  cases h with
  | visiting phase goes asked => exact .visiting phase (iff.not.mp goes) asked
  | cancelled phase ended => exact .cancelled phase (iff.mp ended)
  | counted phase goes idle asked => exact .counted phase (iff.not.mp goes) idle asked

/-- A step that changes neither phase nor the fact that the own node has been asked. -/
theorem Polled.carry {cancelled : Prop} (h : call.Polled w cancelled)
    (node : call'.node = call.node) (phase : call'.phase = call.phase) (waits : call.running ≠ [])
    (asked : call.node ∈ call.ids w → call.node ∈ call'.ids w) : call'.Polled w cancelled := by
  cases h with
  | visiting here goes was => exact .visiting (phase.trans here) goes (node ▸ asked was)
  | cancelled here ended => exact .cancelled (phase.trans here) ended
  | counted _ _ idle _ => exact absurd idle waits

theorem Moves.polled {out : List (String × Request)} {cancelled : Prop}
    (m : call.Moves w now p c a p' call' out) (h : call.Polled w cancelled)
    (op : call.op = .read k) (polls : call.polls w = true) (spread : call.Spread w)
    (self : p.isHealthy call.node = true)
    (other : ∀ peer req resp, a = .deliver (.response c peer req resp) → peer ≠ call.node) :
    call'.Polled w (a = .cancel c ∨ cancelled) := by
  have going {call'' : Call} (ne : a ≠ .cancel c) (h : call''.Polled w cancelled) :
      call''.Polled w (a = .cancel c ∨ cancelled) :=
    h.imp ⟨.inr, fun h => h.resolve_left ne⟩
  have visiting {rest : List Cluster.Node} (phase : call.phase = .visiting rest) :
      ¬ cancelled ∧ call.node ∈ call.ids w := by
    cases h with
    | visiting _ goes asked => exact ⟨goes, asked⟩
    | cancelled returned | counted returned => cases phase.symm.trans returned
  have undoing {rest : List String} (phase : call.phase = .undoing rest) : False :=
    (spread.undoing rest phase).1 k op
  have busy {r : String × Request} (waits : r ∈ call.running) : call.running ≠ [] :=
    List.ne_nil_of_mem waits
  cases m with
  | @skip node rest phase skips =>
      obtain ⟨goes, asked⟩ := visiting phase
      refine going (by simp) (.visiting rfl goes ?_)
      have other : call.node ≠ node.id := by
        intro same
        rw [Call.skips, polls, ← same, self] at skips
        cases skips
      rw [ids, ahead, phase] at asked
      rw [ids, ahead]
      simp only [List.map_cons, List.mem_append, List.mem_filter, List.mem_cons] at asked ⊢
      exact asked.imp_right (Or.imp_right (And.imp_left fun mem => mem.resolve_left other))
  | contact phase wanted =>
      obtain ⟨goes, asked⟩ := visiting phase
      exact going (by simp) (.visiting rfl goes ((ids_contact phase wanted).symm ▸ asked))
  | answered read _ phase idle =>
      obtain ⟨goes, asked⟩ := visiting phase
      refine going (by simp) (.counted rfl goes idle ?_)
      rw [ids, pending, idle, ahead, phase] at asked
      change call.node ∈ call.results.map Prod.fst
      simpa using asked
  | cancelRead _ _ phase => exact .cancelled rfl (.inl rfl)
  | answer waits ends =>
      exact going ends.not_cancel (h.carry rfl rfl (busy waits) (ids_answer waits).mem_iff.mp)
  | @refuse _ peer waits ends =>
      -- Only round trips to other nodes fail, so the own node stays among those asked.
      have ne := ends.ne_node other
      refine going ends.not_cancel (h.carry rfl rfl (busy waits) ?_)
      intro asked
      have pending := (pending_ended waits).mem_iff (a := call.node)
      rw [List.mem_cons, or_iff_right ne.symm] at pending
      rw [ids, List.mem_append, List.mem_append, pending] at asked
      rw [ids, List.mem_append, List.mem_append]
      exact asked
  | settle waits undoes ends =>
      have ours := (spread.running _ waits).2
      have same : call.takesBack = call.request := by
        rw [takesBack, request, op]
      rw [same, or_self] at ours
      exact absurd ours undoes
  | getLocal _ _ waits =>
      exact going (by simp) (h.carry rfl rfl (busy waits) (ids_answer waits).mem_iff.mp)
  | stored set => cases op.symm.trans set
  | deleted delete => cases op.symm.trans delete
  | short writes => exact absurd op (writes k)
  | exhausted _ silent => cases silent.symm.trans polls
  | undo phase | undoneSet _ phase | undone _ phase => exact (undoing phase).elim
  | cancelSet set => cases op.symm.trans set
  | fetched _ silent => cases silent.symm.trans polls

end Call

theorem Step.cancelled (step : Step w now s (.cancel c) s') :
    ∃ call call' : Call, s.calls[c]? = some call ∧ call.phase = .visiting [] ∧
      s'.calls[c]? = some call' ∧ call'.phase = .returned (.error .contextDone) := by
  generalize act : Action.cancel c = a at step
  cases step with
  | @move _ d mover mover' p out here moves sent =>
      have there : (s.calls.set d mover')[d]? = some mover' :=
        (getElem?_set_found here d).trans (if_pos rfl)
      cases moves with
      | cancelSet _ phase | cancelRead _ _ phase =>
          cases act
          exact ⟨mover, _, here, phase, there, rfl⟩
      | answer _ ends | refuse _ ends | fetched _ _ _ ends | settle _ _ ends =>
          cases ends <;> cases act
      | _ => cases act
  | _ => cases act

/-- A call that its context ends changes. -/
theorem Step.not_cancel (step : Step w now s a s') (found : s.calls[c]? = some call)
    (same : s'.calls[c]? = some call) : a ≠ .cancel c := by
  rintro rfl
  obtain ⟨before, after, was, visiting, there, returned⟩ := step.cancelled
  obtain rfl := Option.some.inj (found.symm.trans was)
  obtain rfl := Option.some.inj (there.symm.trans same)
  cases visiting.symm.trans returned

theorem goes_iff {past : List (Sys × Int × Action)} :
    (∀ x ∈ past, x.2.2 ≠ .cancel c) ↔ ¬ ∃ x ∈ past, x.2.2 = .cancel c := by
  simp only [not_exists, not_and, ne_eq]

section Hearing

variable {r : Nat}

/-- The value that arrives for call `r` with a step, in answer to a request or from the
local store. -/
def hears (r : Nat) (x : Sys × Int × Action) : Option (List UInt8) :=
  match x.2.2, x.1.calls[r]? with
  | .deliver (.response c peer req resp), some call =>
      if c = r ∧ call.running.contains (peer, req) then resp.answer else none
  | .getLocal c, some call =>
      if c = r then ((x.1.procs call.node).store.get x.2.1 call.op.key).2 else none
  | _, _ => none

/-- The values that arrive for call `r` in a run, in their order. -/
def heard (r : Nat) (past : List (Sys × Int × Action)) : List (List UInt8) :=
  (past.filterMap (hears r)).reverse

/-- The node that answers the request of call `r` with a step, and its answer. -/
def replies (r : Nat) (x : Sys × Int × Action) : Option (String × Response) :=
  match x.2.2, x.1.calls[r]? with
  | .deliver (.response c peer req resp), some call =>
      if c = r ∧ req = call.request ∧ call.running.contains (peer, req) then
        (req.outcome resp).map (peer, ·)
      else none
  | .getLocal c, some call =>
      if c = r then
        some (call.node, .ofGet ((x.1.procs call.node).store.get x.2.1 call.op.key).2)
      else none
  | _, _ => none

/-- The answers to call `r` in a run, in the order of their arrival. -/
def answers (r : Nat) (past : List (Sys × Int × Action)) : List (String × Response) :=
  (past.filterMap (replies r)).reverse

theorem answers_cons (r : Nat) (x : Sys × Int × Action) (past : List (Sys × Int × Action)) :
    answers r (x :: past) = answers r past ++ (replies r x).toList := by
  rw [answers, List.filterMap_cons]
  cases replies r x with
  | none => exact (List.append_nil _).symm
  | some answer => exact List.reverse_cons

theorem replies_of_not_found {x : Sys × Int × Action} (none : x.1.calls[r]? = none) :
    replies r x = .none := by
  rw [replies, none]
  split <;> first | rfl | contradiction

theorem hears_of_not_found {x : Sys × Int × Action} (none : x.1.calls[r]? = none) :
    hears r x = .none := by
  rw [hears, none]
  split <;> first | rfl | contradiction

/-- Only `readFromPeers` returns on an answer without keeping it. -/
theorem Call.Moves.replies {out : List (String × Request)} (found : s.calls[c]? = some call)
    (m : call.Moves w now (s.procs call.node) c a p' call' out)
    (keeps : ∀ key, call.op = .read key → call.polls w = true) :
    call'.results = call.results ++ (replies c (s, now, a)).toList := by
  have silent (h : Replication.replies c (s, now, a) = none) : call.results =
      call.results ++ (Replication.replies c (s, now, a)).toList := by
    rw [h]
    exact (List.append_nil _).symm
  cases m with
  | @answer _ peer resp waits ends =>
      cases ends with
      | response told => simp [Replication.replies, found, waits, told]
      | fail _ none => cases none
  | refuse waits ends =>
      refine silent ?_
      cases ends with
      | response told => simp [Replication.replies, found, told]
      | fail => rfl
  | settle waits undoes ends =>
      refine silent ?_
      cases ends with
      | response told => simp [Replication.replies, found, undoes]
      | fail => rfl
  | fetched read others => cases others.symm.trans (keeps _ read)
  | @getLocal key read _ waits => simp [Replication.replies, found, read, Op.key]
  | _ => exact silent rfl

theorem Call.Moves.replies_other {out : List (String × Request)}
    (m : call.Moves w now p c a p' call' out) (other : c ≠ r) :
    Replication.replies r (s, now, a) = none := by
  cases found : s.calls[r]? with
  | none => exact replies_of_not_found found
  | some =>
      cases m with
      | answer _ ends | refuse _ ends | fetched _ _ _ ends | settle _ _ ends =>
          cases ends with
          | response => simp [Replication.replies, found, other]
          | fail => rfl
      | getLocal => simp [Replication.replies, found, other]
      | _ => rfl

theorem Step.replies (step : Step w now s a s') (found : s.calls[r]? = some call)
    (there : s'.calls[r]? = some call') (keeps : ∀ key, call.op = .read key → call.polls w = true) :
    call'.results = call.results ++ (replies r (s, now, a)).toList := by
  have silent (same : s.calls[r]? = some call') (h : Replication.replies r (s, now, a) = none) :
      call'.results = call.results ++ (Replication.replies r (s, now, a)).toList := by
    obtain rfl := Option.some.inj (same.symm.trans found)
    rw [h]
    exact (List.append_nil _).symm
  cases step with
  | start =>
      obtain ⟨bound, _⟩ := List.getElem?_eq_some_iff.mp found
      exact silent ((List.getElem?_append_left bound).symm.trans there) rfl
  | @move _ d mover mover' _ _ here moves =>
      rw [getElem?_set_found here] at there
      by_cases same : d = r
      · subst same
        obtain rfl := Option.some.inj (here.symm.trans found)
        rw [if_pos rfl] at there
        obtain rfl := Option.some.inj there
        exact moves.replies found keeps
      · rw [if_neg same] at there
        exact silent there (moves.replies_other same)
  | handle | lose | mark | cleanupExpired => exact silent there rfl
  | late sent nobody =>
      refine silent there ?_
      rw [Replication.replies]
      split
      · rename_i act here
        cases act
        refine if_neg fun waits => ?_
        obtain ⟨rfl, _, waits⟩ := waits
        exact nobody _ here (List.contains_iff_mem.mp waits)
      · rename_i act _
        cases act
      · rfl

/-- The results of a call are the answers that have come for it. -/
theorem results_eq_answers {u : Sys} {past : List (Sys × Int × Action)} (run : RunFrom w u past s)
    (new : u.calls.length ≤ r) (there : s.calls[r]? = some call)
    (keeps : ∀ key, call.op = .read key → call.polls w = true) :
    call.results = answers r past := by
  have inv := Transition.Run.induct_from (C := fun _ _ => True)
    (I := fun past s => (s.calls[r]? = none → answers r past = []) ∧
      ∀ call : Call, s.calls[r]? = some call →
        (∀ key, call.op = .read key → call.polls w = true) → call.results = answers r past)
    ?_ ?_ run (fun _ _ => trivial)
  · exact inv.2 call there keeps
  · refine ⟨fun _ => rfl, fun call found => ?_⟩
    rw [List.getElem?_eq_none new] at found
    cases found
  · rintro past s x s' ⟨silent, results⟩ _ exec
    have step := exec_step exec
    refine ⟨fun missing => ?_, fun call' there keeps => ?_⟩
    · have before : s.calls[r]? = none := List.getElem?_eq_none
        (Nat.le_trans step.length_le (List.getElem?_eq_none_iff.mp missing))
      rw [answers_cons, silent before, replies_of_not_found before]
      rfl
    · cases found : s.calls[r]? with
      | none =>
          rw [answers_cons, silent found, replies_of_not_found found]
          rcases step.call_cases there with same | ⟨_, _, _, was, _⟩ |
            ⟨_, _, _, _, _, started, _⟩
          · cases found.symm.trans same
          · cases found.symm.trans was
          · exact started.same.2.2.2
      | some call =>
          have same := step.same found there
          rw [same.op, same.polls] at keeps
          rw [answers_cons, ← results call found keeps]
          exact step.replies found there keeps

theorem Request.answer_of_outcome (resp : Response) :
    ((Request.replGet k).outcome resp).bind Response.answer = resp.answer := by
  cases resp <;> rfl

/-- What a quorum read hears is the value in the answer. -/
theorem hears_eq (found : s.calls[r]? = some call) (op : call.op = .read k)
    (spread : call.Spread w) :
    hears r (s, now, a) = (replies r (s, now, a)).bind fun answer => answer.2.answer := by
  have request : call.request = .replGet k := by rw [Call.request, op]
  have takesBack : call.takesBack = .replGet k := by rw [Call.takesBack, op]
  have same : ∀ x : Option (List UInt8), (Response.ofGet x).answer = x := by
    intro x
    cases x <;> rfl
  cases a with
  | deliver msg =>
      cases msg with
      | request => rfl
      | response d peer req resp =>
          simp only [hears, replies, found]
          by_cases waits : d = r ∧ call.running.contains (peer, req)
          · obtain ⟨rfl, waits⟩ := waits
            have ours := (spread.running _ (List.contains_iff_mem.mp waits)).2
            rw [takesBack, ← request, or_self] at ours
            obtain rfl : req = call.request := ours
            rw [if_pos ⟨rfl, waits⟩, if_pos ⟨rfl, rfl, waits⟩, request, Option.bind_map]
            exact (Request.answer_of_outcome resp).symm
          · rw [if_neg waits, if_neg fun h => waits ⟨h.1, h.2.2⟩]
            rfl
  | getLocal d =>
      simp only [hears, replies, found]
      split
      · exact (same _).symm
      · rfl
  | start | advance | cancel | lose | fail | mark | cleanupExpired => rfl

theorem heard_eq {u : Sys} (reg : u.Regular w) {past : List (Sys × Int × Action)}
    (run : RunFrom w u past s) (there : s.calls[r]? = some call) (op : call.op = .read k) :
    heard r past = (answers r past).filterMap fun answer => answer.2.answer := by
  have inv := Transition.Run.induct_from (C := fun _ _ => True)
    (I := fun past s => s.Regular w ∧ ((∀ call : Call, s.calls[r]? = some call →
      call.op = .read k) → ∀ x ∈ past, hears r x = (replies r x).bind fun answer =>
        answer.2.answer)) ⟨reg, nofun⟩ ?_ run (fun _ _ => trivial)
  · have here (call' : Call) (found : s.calls[r]? = some call') : call'.op = .read k := by
      obtain rfl := Option.some.inj (there.symm.trans found)
      exact op
    rw [heard, answers, List.filterMap_reverse, List.filterMap_filterMap,
      List.filterMap_congr (inv.2 here)]
  · rintro past s ⟨now, a⟩ s' ⟨reg, before⟩ _ exec
    have step : Step w now s a s' := exec_step exec
    refine ⟨reg.step step, fun reads => ?_⟩
    have was (call : Call) (found : s.calls[r]? = some call) : call.op = .read k := by
      obtain ⟨call', there, same⟩ := step.persists found
      exact same.op.symm.trans (reads call' there)
    refine List.forall_mem_cons.mpr ⟨?_, before was⟩
    cases found : s.calls[r]? with
    | none => rw [hears_of_not_found found, replies_of_not_found found, Option.bind_none]
    | some call => exact hears_eq found (was call found) (reg.calls r call found)

/-- The votes of a quorum read are what it has heard. -/
theorem votes_eq_heard {u : Sys} (reg : u.Regular w)
    (mode : w.cfg.readConsistency ≠ .primary ∧ w.cfg.readConsistency ≠ .any)
    {past : List (Sys × Int × Action)} (run : RunFrom w u past s) (new : u.calls.length ≤ r)
    (there : s.calls[r]? = some call) (op : call.op = .read k) : call.votes = heard r past := by
  have results := results_eq_answers run new there fun key _ => Call.polls_of_mode op mode
  rw [heard_eq reg run there op, ← results, Call.votes, List.filterMap_map]
  rfl

end Hearing

theorem Started.polled {self : String} {cancelled : Prop}
    (h : Started w now p self (.read k) p' call)
    (mode : w.cfg.readConsistency ≠ .primary ∧ w.cfg.readConsistency ≠ .any)
    (member : self ∈ w.owners k) (goes : ¬ cancelled) : call.Polled w cancelled := by
  cases h with
  | refused why =>
      rcases why with ⟨_, writes | primary⟩ | outside | ⟨err, failed⟩
      · exact absurd rfl (writes k)
      · exact absurd primary mode.1
      · cases outside.symm.trans (Setup.isInReplicaSet_iff.mpr member)
      · exact absurd failed (Setup.replicaSet_ne_error member err)
  | lookupFailed failed => exact absurd failed (Setup.replicaSet_ne_error member _)
  | readPrimary primary => exact absurd primary mode.1
  | readAny any | readPeers any => exact absurd any mode.2
  | readQuorum _ _ owners =>
      refine .visiting rfl goes ?_
      rw [Setup.owners_of_ok owners] at member
      refine List.mem_filter.mpr ⟨member, ?_⟩
      simp [Call.aims, Call.polls, Call.begin, mode.2]

theorem polled_run {u : Sys} (reg : u.Regular w)
    (mode : w.cfg.readConsistency ≠ .primary ∧ w.cfg.readConsistency ≠ .any)
    {past : List (Sys × Int × Action)} (run : RunFrom w u past s) {r : Nat}
    (new : u.calls.length ≤ r) (there : s.calls[r]? = some call) (op : call.op = .read k)
    (member : call.node ∈ w.owners k) : call.Polled w (∃ x ∈ past, x.2.2 = .cancel r) := by
  have inv := Transition.Run.induct_from (C := fun _ _ => True)
    (I := fun past s => s.Regular w ∧ ((∃ x ∈ past, x.2.2 = .cancel r) → r < s.calls.length) ∧
      ∀ call : Call, s.calls[r]? = some call → call.op = .read k → call.node ∈ w.owners k →
        call.Polled w (∃ x ∈ past, x.2.2 = .cancel r)) ?_ ?_ run (fun _ _ => trivial)
  · exact inv.2.2 call there op member
  · refine ⟨reg, nofun, fun call found => ?_⟩
    rw [List.getElem?_eq_none new] at found
    cases found
  · rintro past s x s' ⟨reg, started, polled⟩ _ exec
    have step := exec_step exec
    have more : (∃ y ∈ (s, x) :: past, y.2.2 = .cancel r) ↔
        (x.2 = .cancel r ∨ ∃ y ∈ past, y.2.2 = .cancel r) := by simp
    refine ⟨reg.step step, fun cancelled => ?_, fun call there op member => ?_⟩
    · cases more.mp cancelled with
      | inl here =>
          rw [here] at step
          obtain ⟨call, _, found, _⟩ := step.cancelled
          obtain ⟨bound, _⟩ := List.getElem?_eq_some_iff.mp found
          exact Nat.lt_of_lt_of_le bound step.length_le
      | inr before => exact Nat.lt_of_lt_of_le (started before) step.length_le
    · rcases step.call_cases there with same | ⟨old, q, out, was, moves, _, sent⟩ |
        ⟨last, node, op', q, act, begun, _⟩
      · exact (polled call same op member).imp
          (Iff.symm (more.trans (or_iff_right (step.not_cancel same there))))
      · have opOld : old.op = .read k := moves.same.op.symm.trans op
        refine (moves.polled (polled old was opOld (moves.same.node ▸ member)) opOld
          (Call.polls_of_mode opOld mode) (reg.calls r old was) (reg.self old.node)
          fun peer req resp act => ?_).imp more.symm
        obtain ⟨call', found, _, other, _⟩ := reg.msgs _ (sent _ act)
        obtain rfl := Option.some.inj (was.symm.trans found)
        exact other
      · obtain ⟨node', opEq, _⟩ := begun.same
        obtain rfl := opEq.symm.trans op
        subst node'
        refine begun.polled mode member fun cancelled => ?_
        rw [more, act] at cancelled
        cases cancelled with
        | inl here => cases here
        | inr before =>
            have := started before
            omega

end DistributedCache.Replication
