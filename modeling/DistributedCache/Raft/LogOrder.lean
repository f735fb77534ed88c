import DistributedCache.Raft.Commits
import DistributedCache.Raft.Consistent

/-!
Logs stay well formed: every log starts with the sentinel, holds every entry under
its own index and in the order of terms, and no entry is from a term the node has
not reached. Requests in flight carry a part of such a log.

Peers may be added and removed at any node at any time here, not only by the
callback of a committed entry.
-/
namespace DistributedCache.Raft

open Relation (ReflTransGen)

/-- `AddPeer` and `RemovePeer` called from outside. `replicate` is the second section of
an `AddPeer` call that found its node to be leader. -/
inductive OpenAction
  | step (a : Action)
  | addPeer (i id addr : String)
  | replicate (k : Nat)
  | removePeer (i id : String)
  deriving DecidableEq, Repr

/-- A deployment with the `AddPeer` calls that are between their two sections. -/
structure Open where
  sys : Sys
  adding : List String

def Open.exec (S : Setup) (σ : Open) : OpenAction → Go Open
  | .step a => do
      let sys ← Raft.exec S σ.sys a
      pure { σ with sys := sys }
  | .addPeer i id addr =>
      let p := σ.sys.procs i
      let (n, replicate) := p.node.addPeer id addr
      pure {
        sys := σ.sys.put i σ.sys.net { proc := { p with node := n } }
        adding := if replicate then σ.adding ++ [i] else σ.adding }
  | .replicate k =>
      match σ.adding[k]? with
      | none => .error .disabled
      | some i => do
          let p := σ.sys.procs i
          let (n, calls) ← p.node.replicateLocked
          pure {
            sys := σ.sys.put i σ.sys.net
              { proc := { p with node := n }, sent := calls.map .appendCall }
            adding := σ.adding.eraseIdx k }
  | .removePeer i id =>
      let p := σ.sys.procs i
      pure { σ with
        sys := σ.sys.put i σ.sys.net { proc := { p with node := p.node.removePeer id } } }

def Open.start (S : Setup) : Open where
  sys := S.start
  adding := []

/-- A deployment whose membership may be changed by hand. -/
def Open.system (S : Setup) : Transition.System Open OpenAction :=
  Transition.ofExec (fun σ => σ = Open.start S) (Open.exec S)

abbrev OpenRun (S : Setup) (past : List (Open × OpenAction)) (σ : Open) : Prop :=
  Transition.Run (Open.system S) past σ

theorem OpenRun.of_actions (S : Setup) (actions : List OpenAction)
    (check : List (Open × OpenAction) → Open → Bool)
    (h : (Transition.trace (Open.exec S) [] (Open.start S) actions).any
      (fun r => check r.1 r.2) = true) :
    ∃ past σ, OpenRun S past σ ∧ check past σ = true :=
  Transition.Run.of_trace (fun σ => σ = Open.start S) rfl actions check h

structure Node.WellFormed (n : Node) : Prop where
  first : n.log[0]? = some sentinel
  index : ∀ (k : Nat) (e : Entry), n.log[k]? = some e → e.index = k
  terms : n.log.Pairwise fun e e' => e.term ≤ e'.term
  reached : ∀ e ∈ n.log, e.term ≤ n.currentTerm

/-- The entries continue a log that ends in `PrevLogTerm` in the order of terms. -/
structure AppendEntriesRequest.Ordered (req : AppendEntriesRequest) : Prop where
  terms : req.entries.Pairwise fun e e' => e.term ≤ e'.term
  between : ∀ e ∈ req.entries, req.prevLogTerm ≤ e.term ∧ e.term ≤ req.term

theorem Node.map_term_appendReceived (log entries : List Entry) :
    (appendReceived log entries).map Entry.term =
      log.map Entry.term ++ entries.map Entry.term := by
  induction entries generalizing log with
  | nil => simp [appendReceived]
  | cons e rest ih => simp [appendReceived, ih]

namespace Node.WellFormed

variable {n n' : Node} {req : AppendEntriesRequest}

theorem congr (h : n.WellFormed) (log : n'.log = n.log)
    (term : n.currentTerm ≤ n'.currentTerm) : n'.WellFormed where
  first := log ▸ h.first
  index := log ▸ h.index
  terms := log ▸ h.terms
  reached e he := (h.reached e (log ▸ he)).trans term

theorem newNode (id addr : String) (peers : GoMap String String) :
    (newNode id addr peers).WellFormed where
  first := rfl
  index k e he := by
    cases k with
    | zero =>
        obtain rfl := Option.some.inj he
        rfl
    | succ k => exact absurd he (by simp [Raft.newNode])
  terms := List.pairwise_singleton _ _
  reached e he := by
    obtain rfl := List.mem_singleton.mp he
    exact Nat.le_refl 0

theorem term_le (h : n.WellFormed) {k k' : Nat} {e e' : Entry} (lt : k < k')
    (hk : n.log[k]? = some e) (hk' : n.log[k']? = some e') : e.term ≤ e'.term := by
  obtain ⟨inside, rfl⟩ := List.getElem?_eq_some_iff.mp hk
  obtain ⟨inside', rfl⟩ := List.getElem?_eq_some_iff.mp hk'
  exact List.pairwise_iff_getElem.mp h.terms k k' inside inside' lt

theorem last_le (h : n.WellFormed) {e : Entry} (he : n.log.getLast? = some e) :
    e.term ≤ n.currentTerm :=
  h.reached e (List.mem_of_getLast? he)

theorem appendProposal (h : n.WellFormed) (cmd : Command) :
    (n.appendProposal cmd).1.WellFormed := by
  have pos : 0 < n.log.length := (List.getElem?_eq_some_iff.mp h.first).1
  refine ⟨?_, fun k e he => ?_, ?_, fun e he => ?_⟩
  · exact (List.getElem?_append_left pos).trans h.first
  · change (n.log ++ [_])[k]? = some e at he
    rw [List.getElem?_append] at he
    split at he
    · exact h.index k e he
    · rename_i beyond
      obtain ⟨here, rfl⟩ := List.getElem?_eq_some_iff.mp he
      change k - n.log.length < 1 at here
      simp only [List.getElem_singleton]
      omega
  · refine List.pairwise_append.mpr ⟨h.terms, List.pairwise_singleton _ _, ?_⟩
    intro e he e' he'
    obtain rfl := List.mem_singleton.mp he'
    exact h.reached e he
  · rcases List.mem_append.mp he with he | he
    · exact h.reached e he
    · obtain rfl := List.mem_singleton.mp he
      exact Nat.le_refl _

/-- The terms of the log behind an accepted request. -/
theorem terms_storeEntries (accepts : n.Accepts req) :
    ((n.observeLeader req).storeEntries req).log.map Entry.term =
      (n.log.take (req.prevLogIndex + 1)).map Entry.term ++ req.entries.map Entry.term := by
  rw [storeEntries_observeLeader, storeEntries_log accepts.lt, map_term_appendReceived]

/-- An accepted request continues the log at an entry of term `PrevLogTerm`. -/
theorem storeEntries (h : n.WellFormed) (accepts : n.Accepts req) (ordered : req.Ordered) :
    ((n.observeLeader req).storeEntries req).WellFormed := by
  have log := n.storeEntries_observeLeader req
  have get := getElem?_storeEntries accepts.lt
  have terms := terms_storeEntries accepts
  obtain ⟨current, prev, hprev, same⟩ := accepts
  -- What is kept of the log ends in an entry of term `PrevLogTerm`.
  have kept : ∀ e ∈ n.log.take (req.prevLogIndex + 1), e.term ≤ req.prevLogTerm := by
    intro e he
    obtain ⟨k, hk⟩ := List.mem_iff_getElem?.mp he
    rw [List.getElem?_take] at hk
    split at hk
    · rename_i below
      rw [← same]
      rcases Nat.lt_or_eq_of_le (Nat.le_of_lt_succ below) with before | rfl
      · exact h.term_le before hk hprev
      · rw [Option.some.inj (hk.symm.trans hprev)]
    · exact absurd hk (by simp)
  refine ⟨?_, fun k e he => ?_, ?_, fun e he => ?_⟩
  · rw [log, get, if_pos (Nat.zero_le _)]
    exact h.first
  · rw [log, get] at he
    split at he
    · exact h.index k e he
    · obtain ⟨x, _, rfl⟩ := Option.map_eq_some_iff.mp he
      rfl
  · rw [← List.pairwise_map (f := Entry.term) (R := (· ≤ ·)), terms, List.pairwise_append]
    refine ⟨List.pairwise_map.mpr (h.terms.sublist (List.take_sublist _ _)),
      List.pairwise_map.mpr ordered.terms, ?_⟩
    simp only [List.mem_map]
    rintro _ ⟨e, he, rfl⟩ _ ⟨e', he', rfl⟩
    exact (kept e he).trans (ordered.between e' he').1
  · have mem : e.term ∈ ((n.observeLeader req).storeEntries req).log.map Entry.term :=
      List.mem_map_of_mem he
    change e.term ≤ (n.observeLeader req).currentTerm
    rw [observeLeader_currentTerm current]
    rw [terms, List.mem_append, List.mem_map, List.mem_map] at mem
    rcases mem with ⟨x, hx, old⟩ | ⟨x, hx, new⟩
    · rw [← old]
      exact (h.reached x (List.mem_of_mem_take hx)).trans current
    · rw [← new]
      exact (ordered.between x hx).2

/-- A step of the node keeps its log well formed if the request it stores is ordered. -/
theorem step (h : n.WellFormed)
    (step : NodeStep (fun _ req => req.Ordered) n n') : n'.WellFormed := by
  cases step with
  | stand idle => exact h.congr rfl (Nat.le_succ _)
  | lead stands => exact h.congr rfl (Nat.le_refl _)
  | indices next mat => exact h.congr rfl (Nat.le_refl _)
  | propose cmd leads => exact h.appendProposal cmd
  | proposeAlone cmd leads => exact (h.appendProposal cmd).congr rfl (Nat.le_refl _)
  | stepDown t newer => exact h.congr rfl (Nat.le_of_lt newer)
  | vote c free => exact h.congr rfl (Nat.le_refl _)
  | observe req current given =>
      exact h.congr (n.observeLeader_log req) ((observeLeader_currentTerm current).symm ▸ current)
  | store req accepts given old => exact h.storeEntries accepts given
  | commit req accepts given newer =>
      exact (h.storeEntries accepts given).congr rfl (Nat.le_refl _)
  | advance c newer below => exact h.congr rfl (Nat.le_refl _)
  | pop older => exact h.congr rfl (Nat.le_refl _)
  | forget index => exact h.congr rfl (Nat.le_refl _)
  | peers peers => exact h.congr rfl (Nat.le_refl _)

/-- What a node with a well-formed log sends is ordered. -/
theorem ordered (h : n.WellFormed) (snapshot : n.Snapshot req) : req.Ordered := by
  obtain ⟨e, he, prev⟩ := snapshot.prev
  have sub : req.entries.Sublist n.log := snapshot.entries ▸ List.drop_sublist _ _
  refine ⟨h.terms.sublist sub, fun x hx => ⟨?_, ?_⟩⟩
  · rw [snapshot.entries] at hx
    obtain ⟨k, hk⟩ := List.mem_iff_getElem?.mp hx
    rw [List.getElem?_drop] at hk
    rw [← prev]
    exact h.term_le (by omega) he hk
  · rw [snapshot.term]
    exact h.reached x (sub.mem hx)

end Node.WellFormed

theorem NodeStep.currentTerm_le {ok : Node → AppendEntriesRequest → Prop} {n n' : Node}
    (step : NodeStep ok n n') : n.currentTerm ≤ n'.currentTerm := by
  cases step with
  | stand idle => exact Nat.le_succ _
  | stepDown t newer => exact Nat.le_of_lt newer
  | observe req current given =>
      rw [Node.observeLeader_currentTerm current]
      exact current
  | store req accepts given old =>
      change _ ≤ (n.observeLeader req).currentTerm
      rw [Node.observeLeader_currentTerm accepts.1]
      exact accepts.1
  | commit req accepts given newer =>
      change _ ≤ (n.observeLeader req).currentTerm
      rw [Node.observeLeader_currentTerm accepts.1]
      exact accepts.1
  | lead _ | indices _ _ | propose _ _ | proposeAlone _ _ | vote _ _ | advance _ _ _ | pop _
  | forget _ | peers _ => exact Nat.le_refl _

/-- All logs are well formed and all requests in flight are ordered. -/
structure Sys.Ordered (σ : Sys) : Prop where
  nodes : ∀ i, (σ.node i).WellFormed
  calls : ∀ call, .appendCall call ∈ σ.net → call.req.Ordered

/-- A node that takes such steps and sends snapshots of its log keeps all in order. -/
theorem Sys.Ordered.put {σ : Sys} (h : σ.Ordered) {i : String} {net : List Msg} {o : Out}
    (steps : ReflTransGen (NodeStep fun _ req => req.Ordered) (σ.node i) o.proc.node)
    (sub : ∀ m ∈ net, m ∈ σ.net)
    (sent : ∀ call, .appendCall call ∈ o.sent → o.proc.node.Snapshot call.req) :
    (σ.put i net o).Ordered := by
  have here : o.proc.node.WellFormed :=
    chain_invariant (fun _ _ hn step => hn.step step) steps (h.nodes i)
  refine ⟨fun j => ?_, fun call hcall => ?_⟩
  · by_cases hj : j = i
    · subst hj
      rw [Sys.node, σ.put_procs_self]
      exact here
    · rw [Sys.node, σ.put_procs_of_ne net o hj]
      exact h.nodes j
  · rcases List.mem_append.mp hcall with old | new
    · exact h.calls call (sub _ old)
    · exact here.ordered (sent call new)

theorem Sys.Ordered.exec {S : Setup} {σ σ' : Sys} {a : Action} (h : σ.Ordered)
    (step : exec S σ a = .ok σ') : σ'.Ordered := by
  rcases exec_cases step with ⟨k, rfl⟩ | ⟨k, m, i, o, rfl, hm, hi, hh, rfl⟩ |
    ⟨i, o, ha, member, hh, rfl⟩
  · exact ⟨h.nodes, fun call hcall => h.calls call (List.mem_of_mem_eraseIdx hcall)⟩
  · refine h.put (hh.nodeSteps ?_) (fun _ => List.mem_of_mem_eraseIdx)
      fun call hs => (hh.sends hs).2
    intro call same _
    obtain rfl := Input.message.inj same
    exact h.calls call (List.mem_of_getElem? hm)
  · refine h.put (hh.nodeSteps ?_) (fun _ hm => hm) fun call hs => (hh.sends hs).2
    rintro call ⟨⟩

theorem Sys.Ordered.start (S : Setup) : S.start.Ordered where
  nodes _ := .newNode _ _ _
  calls call hcall := absurd hcall (by simp [Setup.start])

/-- A step of an open deployment is one of the deployment, or a node takes steps of
its own and sends snapshots of its log. -/
theorem Open.exec_cases {S : Setup} {σ σ' : Open} {a : OpenAction} (h : σ.exec S a = .ok σ') :
    (∃ b, Raft.exec S σ.sys b = .ok σ'.sys) ∨
      ∃ i o, σ'.sys = σ.sys.put i σ.sys.net o ∧
        (∀ ok, ReflTransGen (NodeStep ok) (σ.sys.node i) o.proc.node) ∧
        ∀ call, .appendCall call ∈ o.sent → o.proc.node.Snapshot call.req := by
  cases a with
  | step b =>
      obtain ⟨sys, hb, h⟩ := Go.bind_eq_ok.mp h
      obtain rfl := Go.pure_eq_ok.mp h
      exact .inl ⟨b, hb⟩
  | addPeer i id addr =>
      obtain rfl := Go.pure_eq_ok.mp h
      exact .inr ⟨i, _, rfl, fun _ => nodeSteps_of_addPeer _ id addr, by simp⟩
  | replicate k =>
      simp only [Open.exec] at h
      split at h
      · exact absurd h (by simp)
      · rename_i i _
        obtain ⟨⟨n, calls⟩, hrep, h⟩ := Go.bind_eq_ok.mp h
        obtain rfl := Go.pure_eq_ok.mp h
        refine .inr ⟨i, _, rfl, fun _ => .single (.of_replicateLocked hrep), fun call hcall => ?_⟩
        obtain ⟨⟨next, rfl⟩, hcalls⟩ := Node.replicateLocked_ok hrep
        obtain ⟨call', hmem, same⟩ := List.mem_map.mp hcall
        obtain rfl := Msg.appendCall.inj same
        exact (hcalls call' hmem).2.2.2.congr rfl rfl rfl rfl
  | removePeer i id =>
      obtain rfl := Go.pure_eq_ok.mp h
      exact .inr ⟨i, _, rfl, fun _ => nodeSteps_of_removePeer _ id, by simp⟩

theorem Open.exec_ordered {S : Setup} {σ σ' : Open} {a : OpenAction} (h : σ.sys.Ordered)
    (step : σ.exec S a = .ok σ') : σ'.sys.Ordered := by
  rcases Open.exec_cases step with ⟨b, hb⟩ | ⟨i, o, same, steps, sent⟩
  · exact h.exec hb
  · rw [same]
    exact h.put (steps _) (fun _ hm => hm) sent

/-- No step takes a node back to an earlier term. -/
theorem Open.exec_currentTerm {S : Setup} {σ σ' : Open} {a : OpenAction}
    (step : σ.exec S a = .ok σ') (i : String) :
    (σ.sys.node i).currentTerm ≤ (σ'.sys.node i).currentTerm := by
  have chain {n n' : Node} (steps : ReflTransGen (NodeStep fun _ _ => True) n n') :
      n.currentTerm ≤ n'.currentTerm :=
    chain_invariant (I := fun m => n.currentTerm ≤ m.currentTerm)
      (fun _ _ hm step => hm.trans step.currentTerm_le) steps (Nat.le_refl _)
  rcases Open.exec_cases step with ⟨b, hb⟩ | ⟨j, o, same, steps, _⟩
  · exact chain (exec_nodeSteps hb (fun _ _ _ => trivial) i)
  · rw [same]
    by_cases hi : i = j
    · subst hi
      rw [Sys.node, Sys.node, Sys.put_procs_self]
      exact chain (steps _)
    · rw [Sys.node, Sys.node, Sys.put_procs_of_ne _ _ _ hi]

/-- In every state of every run each log is well formed, and no node goes back to an
earlier term. -/
theorem log_well_formed {S : Setup} {past : List (Open × OpenAction)} {σ : Open}
    (run : OpenRun S past σ) (i : String) : ∀ u ∈ Transition.visited past σ,
      (u.sys.node i).log[0]? = some sentinel ∧
      (∀ (k : Nat) (e : Entry), (u.sys.node i).log[k]? = some e → e.index = k) ∧
      ((u.sys.node i).log.Pairwise fun e e' => e.term ≤ e'.term) ∧
      (∀ e, (u.sys.node i).log.getLast? = some e → e.term ≤ (u.sys.node i).currentTerm) ∧
      (u.sys.node i).currentTerm ≤ (σ.sys.node i).currentTerm := by
  intro u hu
  have ordered := Transition.Run.invariant_visited (C := fun _ _ => True)
    (I := fun σ => σ.sys.Ordered) (by rintro _ rfl; exact .start S)
    (fun _ _ _ h _ step => Open.exec_ordered h step) run (fun _ _ => trivial) u hu
  have term := Transition.Run.ordered (C := fun _ _ => True)
    (R := fun u σ => (u.sys.node i).currentTerm ≤ (σ.sys.node i).currentTerm)
    (fun _ => Nat.le_refl _) (fun _ _ _ => Nat.le_trans)
    (fun _ _ _ _ step => Open.exec_currentTerm step i) run (fun _ _ => trivial) u hu
  have log := ordered.nodes i
  exact ⟨log.first, log.index, log.terms, fun _ => log.last_le, term⟩

/-- A peer is added to the leader by hand and sent the log, and removed after the leader
has stored a command. -/
theorem log_well_formed_addPeer : ∃ past σ, OpenRun trio past σ ∧ σ.sys.net.length = 9 ∧
    (σ.sys.node "a").log.map Entry.term = [0, 1] ∧ (σ.sys.node "a").log[0]? = some sentinel := by
  obtain ⟨past, σ, run, check⟩ := OpenRun.of_actions trio
    (electA.map OpenAction.step ++ [.addPeer "a" "d" "d:1", .replicate 0,
      .step (.propose "a" (join "d" "d:1")), .removePeer "a" "d", .removePeer "b" "c"])
    (fun _ σ => decide (σ.sys.net.length = 9 ∧
      (σ.sys.node "a").log.map Entry.term = [0, 1])) (by decide +kernel)
  obtain ⟨sent, terms⟩ := of_decide_eq_true check
  exact ⟨past, σ, run, sent, terms,
    (log_well_formed run "a" σ (Transition.mem_visited_self past σ)).1⟩

end DistributedCache.Raft
