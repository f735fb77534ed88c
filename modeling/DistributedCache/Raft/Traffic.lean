import DistributedCache.Raft.Commits
import DistributedCache.Raft.Membership

/-!
How many AppendEntries requests a leader sends. It sends one to every peer when it
is elected, on every heartbeat, and again for every answer that it handles.

As long as all peers store its log no request is refused, because a request says
where it continues that log and every peer has the entry it names.
-/
namespace DistributedCache.Raft

open Transition (Meets)

/-- The messages that a step leaves in flight. -/
def undelivered (σ : Sys) : Action → List Msg
  | .deliver k | .lose k => σ.net.eraseIdx k
  | _ => σ.net

/-- The messages that a step puts in flight. -/
def emitted (S : Setup) (σ : Sys) (a : Action) : List Msg :=
  match exec S σ a with
  | .ok σ' => σ'.net.drop (undelivered σ a).length
  | .error _ => []

/-- The message is an AppendEntries request that the node has made in the term. -/
def Msg.isAppend (i : String) (t : Nat) : Msg → Bool
  | .appendCall call => call.caller = i ∧ call.req.term = t
  | _ => false

/-- The AppendEntries requests that the node has made in the term. -/
def appendsSent (S : Setup) (i : String) (t : Nat) (past : List (Sys × Action)) : Nat :=
  (past.map fun x => (emitted S x.1 x.2).countP (Msg.isAppend i t)).sum

/-- The heartbeat ticks of the node in the term. -/
def ticks (i : String) (t : Nat) (past : List (Sys × Action)) : Nat :=
  past.countP fun x => x.2 = .heartbeat i ∧ (x.1.node i).currentTerm = t

/-- The node leads the term. -/
def Node.Leads (n : Node) (t : Nat) : Prop :=
  n.role = .leader ∧ n.currentTerm = t

instance (n : Node) (t : Nat) : Decidable (n.Leads t) :=
  inferInstanceAs (Decidable (_ ∧ _))

/-- While the node leads the term, every peer stores its log. -/
def Stored (S : Setup) (i : String) (t : Nat) (σ : Sys) : Prop :=
  (σ.node i).Leads t → ∀ q ∈ (σ.node i).peerAddrsLocked, ∀ j ∈ S.resolve σ q.2,
    (σ.node i).log <+: (σ.node j).log

/-- The goroutine is in a section of `AddPeer` or `RemovePeer`. -/
def Task.reconfigures : Task → Bool
  | .applying _ .addPeer _ | .applying _ .replicate _ | .applying _ .removePeer _ => true
  | _ => false

/-- The step is a `Propose` call at the node, or an `AddPeer` or `RemovePeer` section. -/
def disturbs (i : String) (σ : Sys) : Action → Bool
  | .propose j _ => j = i
  | .resume j k => j = i ∧ ∃ task ∈ (σ.procs j).tasks[k]?, task.reconfigures
  | _ => false

/-- The log of the leader is stored by all peers and the step does not add to it. -/
def Quiet (S : Setup) (i : String) (t : Nat) (σ : Sys) (a : Action) : Prop :=
  Stored S i t σ ∧ disturbs i σ a = false

instance (S : Setup) (i : String) (t : Nat) (σ : Sys) : Decidable (Stored S i t σ) :=
  inferInstanceAs (Decidable (_ → ∀ q ∈ (σ.node i).peerAddrsLocked, _))

instance (S : Setup) (i : String) (t : Nat) (σ : Sys) (a : Action) :
    Decidable (Quiet S i t σ a) :=
  inferInstanceAs (Decidable (_ ∧ _))

/-- The goroutine handles a response and has come to the end of the apply loop. -/
def Task.answers : Task → Bool
  | .applying _ .returned .appendResponse => true
  | _ => false

/-- The message is a successful response to a request of the term. -/
def Msg.succeeds (t : Nat) : Msg → Bool
  | .appendReply call resp => call.req.term = t ∧ resp.term ≤ t ∧ resp.success = true
  | _ => false

/-- The leader of the term handles a successful response, or comes to the end of the
apply loop that the handler of one has entered. -/
def resends (S : Setup) (i : String) (t : Nat) (σ : Sys) : Action → Bool
  | .deliver k => (σ.node i).Leads t ∧ ∃ m ∈ σ.net[k]?, S.target σ m = some i ∧ m.succeeds t
  | .resume j k => j = i ∧ (σ.node i).Leads t ∧ ∃ task ∈ (σ.procs j).tasks[k]?, task.answers
  | _ => false

section Steps

theorem emitted_eq {S : Setup} {σ σ' : Sys} {a : Action} {i : String} {o : Out}
    (h : exec S σ a = .ok σ') (put : σ' = σ.put i (undelivered σ a) o) :
    emitted S σ a = o.sent := by
  rw [emitted, h, put]
  exact List.drop_left

/-- A step drops a message, or one process handles its input and sends what is emitted. -/
theorem exec_emitted {S : Setup} {σ σ' : Sys} {a : Action} (h : exec S σ a = .ok σ') :
    (emitted S σ a = [] ∧ σ' = { σ with net := undelivered σ a }) ∨
      ∃ i m o, Feeds S σ a i m ∧ Handles S.membership (σ.procs i) m o ∧
        σ' = σ.put i (undelivered σ a) o ∧ emitted S σ a = o.sent := by
  rcases exec_inv h with ⟨k, drops, rfl⟩ | ⟨k, m, i, o, rfl, hm, hi, hh, put⟩ |
    ⟨i, o, actor, member, hh, put⟩
  · have left : undelivered σ a = σ.net.eraseIdx k := by
      rcases drops with rfl | rfl <;> rfl
    refine .inl ⟨?_, by rw [left]⟩
    rw [emitted, h, left]
    exact List.drop_length
  · exact .inr ⟨i, .message m, o, ⟨k, rfl, hm, hi⟩, hh, put, emitted_eq h put⟩
  · have left : undelivered σ a = σ.net := by
      cases a <;> first | rfl | simp [Action.actor] at actor
    rw [← left] at put
    exact .inr ⟨i, .act a, o, ⟨rfl, actor, member⟩, hh, put, emitted_eq h put⟩

namespace Node

variable {n n' : Node} {calls : List (Call AppendEntriesRequest)}

theorem length_replicateAll {peers : List (String × String)}
    (h : n.replicateAll peers = .ok (n', calls)) : calls.length = peers.length := by
  induction peers generalizing n n' calls with
  | nil =>
      obtain ⟨_, rfl⟩ := Prod.mk.inj (Go.pure_eq_ok.mp h)
      rfl
  | cons q rest ih =>
      obtain ⟨⟨m, call⟩, _, h⟩ := Go.bind_eq_ok.mp h
      obtain ⟨⟨m', more⟩, hrest, h⟩ := Go.bind_eq_ok.mp h
      obtain ⟨_, rfl⟩ := Prod.mk.inj (Go.pure_eq_ok.mp h)
      rw [List.length_cons, ih hrest, List.length_cons]

/-- Nothing is sent, or one request to every peer. -/
structure Broadcasts (n : Node) (calls : List (Call AppendEntriesRequest)) : Prop where
  length : calls.length ≤ n.peerAddrsLocked.length
  peers : ∀ call ∈ calls, call.caller = n.id ∧ (call.peerID, call.addr) ∈ n.peerAddrsLocked

theorem Broadcasts.of_replicateLocked (h : n.replicateLocked = .ok (n', calls)) :
    n.Broadcasts calls := by
  refine ⟨?_, fun call hcall => ?_⟩
  · unfold replicateLocked at h
    split at h
    · obtain ⟨_, rfl⟩ := Prod.mk.inj (Go.pure_eq_ok.mp h)
      exact Nat.zero_le _
    · exact Nat.le_of_eq (length_replicateAll h)
  · obtain ⟨_, caller, member, _⟩ := (replicateLocked_ok h).2 call hcall
    exact ⟨caller, member⟩

theorem SameRoster.peerAddrsLocked_eq (same : n.SameRoster n') :
    n'.peerAddrsLocked = n.peerAddrsLocked := by
  rw [peerAddrsLocked, same.1, same.2, peerAddrsLocked]

theorem Broadcasts.congr (h : n.Broadcasts calls) (same : n.SameRoster n') :
    n'.Broadcasts calls := by
  have peers := same.peerAddrsLocked_eq
  exact ⟨peers ▸ h.length, fun call hcall => same.1 ▸ peers ▸ h.peers call hcall⟩

theorem handleAppendResponse_done {peerID : String} {req : AppendEntriesRequest}
    {resp : AppendEntriesResponse}
    (h : n.handleAppendResponse peerID req resp = .ok (n', .done calls)) : calls = [] ∨
      (n.Leads req.term ∧ resp.term ≤ req.term ∧ resp.success = false ∧ n.Broadcasts calls ∧
        n'.currentTerm = n.currentTerm) := by
  unfold handleAppendResponse at h
  split at h
  · obtain ⟨_, hs⟩ := Prod.mk.inj (Go.pure_eq_ok.mp h)
    exact .inl (ResponseStatus.done.inj hs).symm
  · rename_i current
    split at h
    · obtain ⟨_, hs⟩ := Prod.mk.inj (Go.pure_eq_ok.mp h)
      exact .inl (ResponseStatus.done.inj hs).symm
    · rename_i leads
      split at h
      · rename_i failed
        obtain ⟨⟨m, calls'⟩, hrep, h⟩ := Go.bind_eq_ok.mp h
        obtain ⟨rfl, hs⟩ := Prod.mk.inj (Go.pure_eq_ok.mp h)
        obtain rfl := ResponseStatus.done.inj hs
        have term : req.term = n.currentTerm := by
          by_contra other
          exact leads (.inr other)
        have leads : n.role = .leader := by
          by_contra other
          exact leads (.inl other)
        refine .inr ⟨⟨leads, term.symm⟩, by omega, failed, ?_, ?_⟩
        · refine (Broadcasts.of_replicateLocked hrep).congr ?_
          split <;> exact ⟨rfl, rfl⟩
        · obtain ⟨⟨next, rfl⟩, _⟩ := replicateLocked_ok hrep
          dsimp only
          split <;> rfl
      · obtain ⟨m, _, h⟩ := Go.bind_eq_ok.mp h
        exact absurd (Prod.mk.inj (Go.pure_eq_ok.mp h)).2 (by simp)

theorem handleAppendResponse_apply {peerID : String} {req : AppendEntriesRequest}
    {resp : AppendEntriesResponse}
    (h : n.handleAppendResponse peerID req resp = .ok (n', .apply)) :
    n.Leads req.term ∧ resp.term ≤ req.term ∧ resp.success = true ∧
      n'.currentTerm = n.currentTerm := by
  have newer : ¬ n.currentTerm < resp.term := by
    intro newer
    unfold handleAppendResponse at h
    rw [if_pos newer] at h
    exact absurd (Prod.mk.inj (Go.pure_eq_ok.mp h)).2 (by simp)
  obtain ⟨leads, term, succeeded, c, rfl, _⟩ := handleAppendResponse_commits h
  refine ⟨⟨leads, term.symm⟩, by omega, succeeded, ?_⟩
  unfold recordMatch
  split <;> rfl

theorem not_accepts_of_rejected {req : AppendEntriesRequest}
    (h : n.handleAppendEntries req = .ok (n', .rejected)) : ¬ n.Accepts req := by
  rintro ⟨current, e, he, term⟩
  unfold handleAppendEntries at h
  rw [if_neg (Nat.not_lt.mpr current)] at h
  change (if req.prevLogIndex ≥ (n.observeLeader req).log.length then _ else _) = _ at h
  have inside := (List.getElem?_eq_some_iff.mp he).1
  rw [observeLeader_log, if_neg (Nat.not_le.mpr inside)] at h
  obtain ⟨e', he', h⟩ := Go.bind_eq_ok.mp h
  change (n.observeLeader req).logAt req.prevLogIndex = _ at he'
  rw [logAt_eq_ok, observeLeader_log, he] at he'
  obtain rfl := Option.some.inj he'
  rw [if_neg (not_not.mpr term)] at h
  change (if req.leaderCommit > ((n.observeLeader req).storeEntries req).commitIndex
    then _ else _) = _ at h
  split at h
  · exact absurd (Prod.mk.inj (Go.pure_eq_ok.mp h)).2 (by simp)
  · exact absurd (Prod.mk.inj (Go.pure_eq_ok.mp h)).2 (by simp)

end Node

variable {membership : Bool} {p : Proc} {m : Input} {o : Out}

/-- Why a handler sends requests to its peers. -/
inductive Replicates (p : Proc) : Input → Prop
  | heartbeat {i : String} (leads : p.node.role = .leader) : Replicates p (.act (.heartbeat i))
  | propose {i : String} {cmd : Command} : Replicates p (.act (.propose i cmd))
  | elected {i : String} {k : Nat} (stands : p.node.role = .candidate) :
      Replicates p (.act (.resume i k))
  | refused {call : Call AppendEntriesRequest} {resp : AppendEntriesResponse}
      (leads : p.node.Leads call.req.term) (current : resp.term ≤ call.req.term)
      (failed : resp.success = false) : Replicates p (.message (.appendReply call resp))
  | answered {call : Call AppendEntriesRequest} {resp : AppendEntriesResponse}
      (leads : p.node.Leads call.req.term) (current : resp.term ≤ call.req.term)
      (succeeded : resp.success = true) : Replicates p (.message (.appendReply call resp))
  | resumed {i : String} {k : Nat} {task : Task} (leads : p.node.role = .leader)
      (found : p.tasks[k]? = some task) (kind : task.answers ∨ task.reconfigures) :
      Replicates p (.act (.resume i k))

/-- Whatever a handler sends to its peers, it sends at most once to each, in the term it
was in, and for one of these reasons. -/
theorem Handles.replicates (h : Handles membership p m o) :
    (∀ call, .appendCall call ∉ o.sent) ∨
      (∃ calls, o.sent = calls.map .appendCall ∧ p.node.Broadcasts calls) ∧
        o.proc.node.currentTerm = p.node.currentTerm ∧ Replicates p m := by
  have replicated {n n' n'' : Node} {calls : List (Call AppendEntriesRequest)}
      (hrep : n.replicateLocked = .ok (n', calls)) (node : n'' = n')
      (roster : p.node.SameRoster n) (term : n.currentTerm = p.node.currentTerm)
      (why : n.role = .leader → Replicates p m) :
      (∀ call, .appendCall call ∉ calls.map Msg.appendCall) ∨
        (∃ calls', calls.map Msg.appendCall = calls'.map .appendCall ∧
          p.node.Broadcasts calls') ∧ n''.currentTerm = p.node.currentTerm ∧ Replicates p m := by
    have sends : p.node.Broadcasts calls :=
      (Node.Broadcasts.of_replicateLocked hrep).congr ⟨roster.1.symm, roster.2.symm⟩
    obtain ⟨⟨next, rfl⟩, hcalls⟩ := Node.replicateLocked_ok hrep
    cases calls with
    | nil => exact .inl (by simp)
    | cons call rest =>
        have leads := (hcalls call List.mem_cons_self).1
        exact .inr ⟨⟨_, rfl, sends⟩, by rw [node]; exact term, why leads⟩
  -- After the apply loop only the handler of a response sends requests.
  have applied {p' : Proc} {c : Cont} (happly : p'.applyCommitted c = .ok o)
      (why : c = .appendResponse → p.node.SameRoster p'.node ∧
        p'.node.currentTerm = p.node.currentTerm ∧ (p'.node.role = .leader → Replicates p m)) :
      (∀ call, .appendCall call ∉ o.sent) ∨
        (∃ calls, o.sent = calls.map .appendCall ∧ p.node.Broadcasts calls) ∧
          o.proc.node.currentTerm = p.node.currentTerm ∧ Replicates p m := by
    rcases Proc.applyCommitted_sent happly with none | ⟨_, reply⟩ | ⟨rfl, n, calls, hrep, rfl⟩
    · exact .inl (by simp [none])
    · exact .inl (by simp [reply])
    · obtain ⟨roster, term, why⟩ := why rfl
      exact replicated hrep rfl roster term why
  cases h with
  | heartbeat n calls leads hrep =>
      exact replicated hrep rfl ⟨rfl, rfl⟩ rfl fun _ => .heartbeat leads
  | proposeAlone cmd o leads alone happly => exact applied happly (by simp)
  | propose cmd n calls leads peers hrep =>
      exact replicated hrep rfl ⟨rfl, rfl⟩ rfl fun _ => .propose
  | committed call n o happ happly => exact applied happly (by simp)
  | answered call resp n calls hresp =>
      rcases Node.handleAppendResponse_done hresp with rfl | ⟨leads, current, failed, sends, term⟩
      · exact .inl (by simp)
      · exact .inr ⟨⟨calls, rfl, sends⟩, term, .refused leads current failed⟩
  | acknowledged call resp n o hresp happly =>
      obtain ⟨leads, current, succeeded, term⟩ := Node.handleAppendResponse_apply hresp
      exact applied happly fun _ => ⟨(Node.Still.of_handleAppendResponse hresp).roster, term,
        fun _ => .answered leads current succeeded⟩
  | win k term n calls task hwin =>
      rcases Node.winElection_ok hwin with ⟨_, rfl⟩ | ⟨stands, _, hlead⟩
      · exact .inl (by simp)
      · exact replicated hlead rfl ⟨rfl, rfl⟩ rfl fun _ => .elected stands
  | replicate k d c n calls task hrep =>
      exact replicated hrep rfl ⟨rfl, rfl⟩ rfl fun leads => .resumed leads task (.inr rfl)
  | finish k d c o task happly =>
      refine applied happly ?_
      rintro rfl
      have kept : (p.finished k d).node = p.node ∨
          (p.finished k d).node = p.node.cancelProposal p.node.lastApplied := by
        simp only [Proc.finished, Node.finishApply]
        split
        · exact .inl rfl
        · exact .inr rfl
      rcases kept with kept | kept <;> rw [kept] <;>
        exact ⟨⟨rfl, rfl⟩, rfl, fun leads => .resumed leads task (.inl rfl)⟩
  | _ => exact .inl (by simp [Proc.toPhase])

/-- A refusal answers a request that the node has just refused. -/
theorem Handles.refuses (h : Handles membership p m o) {call : Call AppendEntriesRequest}
    {resp : AppendEntriesResponse} (sent : .appendReply call resp ∈ o.sent)
    (failed : resp.success = false) : m = .message (.appendCall call) ∧
      ∃ n, p.node.handleAppendEntries call.req = .ok (n, .rejected) ∧
        resp.term = n.currentTerm := by
  have applied {p' : Proc} {c : Cont} (happly : p'.applyCommitted c = .ok o) : False := by
    rcases Proc.applyCommitted_sent happly with none | ⟨_, reply⟩ | ⟨_, n, calls, _, rfl⟩
    · simp [none] at sent
    · rw [reply] at sent
      obtain ⟨rfl, rfl⟩ := Msg.appendReply.inj (List.mem_singleton.mp sent)
      exact absurd failed (by simp)
    · simp at sent
  cases h with
  | rejected call' n happ =>
      obtain ⟨rfl, rfl⟩ := Msg.appendReply.inj (List.mem_singleton.mp sent)
      exact ⟨rfl, n, happ, rfl⟩
  | stored call' n happ =>
      obtain ⟨rfl, rfl⟩ := Msg.appendReply.inj (List.mem_singleton.mp sent)
      exact absurd failed (by simp)
  | proposeAlone cmd o leads alone happly => exact (applied happly).elim
  | committed call' n o happ happly => exact (applied happly).elim
  | acknowledged call' resp' n o hresp happly => exact (applied happly).elim
  | finish k d c o task happly => exact (applied happly).elim
  | _ => exact absurd sent (by simp [Proc.toPhase])

end Steps

/-- The node does not lead the term and never will. -/
def Node.Left (n : Node) (t : Nat) : Prop :=
  t ≤ n.currentTerm ∧ (n.currentTerm = t → n.role = .follower)

theorem Node.Leads.not_left {n : Node} {t : Nat} (h : n.Leads t) : ¬ n.Left t :=
  fun left => absurd (h.1.symm.trans (left.2 h.2)) (by simp)

section Terms

variable {ok : Node → AppendEntriesRequest → Prop} {n n' : Node} {t : Nat} {log : List Entry}

theorem Node.left_of_follower (follows : n'.role = .follower) (le : t ≤ n'.currentTerm) :
    n'.Left t :=
  ⟨le, fun _ => follows⟩

theorem Node.Left.step (h : n.Left t) (step : NodeStep ok n n') : n'.Left t := by
  cases step with
  | stand idle => exact ⟨Nat.le_succ_of_le h.1, fun same => absurd h.1 (by simp at same; omega)⟩
  | lead stands =>
      exact ⟨h.1, fun same => absurd (stands.symm.trans (h.2 same)) (by simp)⟩
  | stepDown t' newer => exact Node.left_of_follower rfl (Nat.le_of_lt (h.1.trans_lt newer))
  | observe req current given =>
      exact Node.left_of_follower (n.observeLeader_follower req)
        ((Node.observeLeader_currentTerm current).symm ▸ h.1.trans current)
  | store req accepts given old =>
      exact Node.left_of_follower (n.observeLeader_follower req)
        ((Node.observeLeader_currentTerm accepts.1).symm ▸ h.1.trans accepts.1)
  | commit req accepts given newer =>
      exact Node.left_of_follower (n.observeLeader_follower req)
        ((Node.observeLeader_currentTerm accepts.1).symm ▸ h.1.trans accepts.1)
  | indices _ _ | propose _ _ | proposeAlone _ _ | vote _ _ | advance _ _ _ | pop _ | forget _
  | peers _ => exact h

/-- A leader keeps its log until it stops to lead. -/
theorem Node.Leads.step (h : n.Leads t) (kept : log <+: n.log) (step : NodeStep ok n n') :
    (n'.Leads t ∧ log <+: n'.log) ∨ n'.Left t := by
  obtain ⟨leads, rfl⟩ := h
  cases step with
  | stand idle => exact absurd leads idle
  | lead stands => exact absurd (stands.symm.trans leads) (by simp)
  | propose cmd _ => exact .inl ⟨⟨leads, rfl⟩, kept.trans (List.prefix_append _ _)⟩
  | proposeAlone cmd _ => exact .inl ⟨⟨leads, rfl⟩, kept.trans (List.prefix_append _ _)⟩
  | stepDown t' newer => exact .inr (Node.left_of_follower rfl (Nat.le_of_lt newer))
  | observe req current given =>
      exact .inr (Node.left_of_follower (n.observeLeader_follower req)
        ((Node.observeLeader_currentTerm current).symm ▸ current))
  | store req accepts given old =>
      exact .inr (Node.left_of_follower (n.observeLeader_follower req)
        ((Node.observeLeader_currentTerm accepts.1).symm ▸ accepts.1))
  | commit req accepts given newer =>
      exact .inr (Node.left_of_follower (n.observeLeader_follower req)
        ((Node.observeLeader_currentTerm accepts.1).symm ▸ accepts.1))
  | indices _ _ | vote _ _ | advance _ _ _ | pop _ | forget _ | peers _ =>
      exact .inl ⟨⟨leads, rfl⟩, kept⟩

theorem exec_steps {S : Setup} {σ σ' : Sys} {a : Action} (step : exec S σ a = .ok σ')
    (i : String) :
    Relation.ReflTransGen (NodeStep fun _ _ => True) (σ.node i) (σ'.node i) :=
  exec_nodeSteps step (fun _ _ _ => trivial) i

theorem Node.Left.exec {S : Setup} {σ σ' : Sys} {a : Action} {i : String}
    (h : (σ.node i).Left t) (step : exec S σ a = .ok σ') : (σ'.node i).Left t :=
  chain_invariant (I := fun n => n.Left t) (fun _ _ h step => h.step step) (exec_steps step i) h

theorem Node.Leads.exec {S : Setup} {σ σ' : Sys} {a : Action} {i : String}
    (h : (σ.node i).Leads t) (step : exec S σ a = .ok σ') :
    ((σ'.node i).Leads t ∧ (σ.node i).log <+: (σ'.node i).log) ∨ (σ'.node i).Left t := by
  refine chain_invariant
    (I := fun n => (n.Leads t ∧ (σ.node i).log <+: n.log) ∨ n.Left t) ?_
    (exec_steps step i) (.inl ⟨h, List.prefix_rfl⟩)
  rintro n n' (⟨leads, kept⟩ | left) step
  · exact leads.step kept step
  · exact .inr (left.step step)

end Terms

theorem mem_undelivered {σ : Sys} {a : Action} {m : Msg} (h : m ∈ undelivered σ a) :
    m ∈ σ.net := by
  cases a with
  | deliver k | lose k => exact List.mem_of_mem_eraseIdx h
  | timeout _ | heartbeat _ | propose _ _ | resume _ _ | wake _ _ | cancel _ _ => exact h

/-- The requests of the term in flight continue the log of the leader, and no response
refuses one, unless the leader has stepped down. -/
structure Unrefused (i : String) (t : Nat) (σ : Sys) : Prop where
  calls : ∀ call, .appendCall call ∈ σ.net → call.caller = i → call.req.term = t →
    (σ.node i).Left t ∨ ((σ.node i).Leads t ∧
      (call.peerID, call.addr) ∈ (σ.node i).peerAddrsLocked ∧
      ∃ e, (σ.node i).log[call.req.prevLogIndex]? = some e ∧ e.term = call.req.prevLogTerm)
  replies : ∀ call resp, .appendReply call resp ∈ σ.net → call.caller = i →
    call.req.term = t → resp.term ≤ t → resp.success = false → (σ.node i).Left t

/-- A leader whose peers store its log is not refused. -/
theorem Unrefused.exec {S : Setup} {i : String} {t : Nat} {σ σ' : Sys} {a : Action}
    (h : Unrefused i t σ) (ids : ∀ j, (σ.node j).id = j) (stored : Stored S i t σ)
    (roster : (σ.node i).SameRoster (σ'.node i)) (step : exec S σ a = .ok σ') :
    Unrefused i t σ' := by
  have peers := roster.peerAddrsLocked_eq
  have get {l l' : List Entry} {k : Nat} {e : Entry} (longer : l <+: l')
      (he : l[k]? = some e) : l'[k]? = some e := by
    obtain ⟨rest, rfl⟩ := longer
    exact (List.getElem?_append_left (List.getElem?_eq_some_iff.mp he).1).trans he
  have calls (call : Call AppendEntriesRequest) (old : .appendCall call ∈ σ.net)
      (caller : call.caller = i) (term : call.req.term = t) :
      (σ'.node i).Left t ∨ ((σ'.node i).Leads t ∧
        (call.peerID, call.addr) ∈ (σ'.node i).peerAddrsLocked ∧ ∃ e,
        (σ'.node i).log[call.req.prevLogIndex]? = some e ∧ e.term = call.req.prevLogTerm) := by
    rcases h.calls call old caller term with left | ⟨leads, member, e, he, prev⟩
    · exact .inl (left.exec step)
    · rcases leads.exec step with ⟨leads, kept⟩ | left
      · exact .inr ⟨leads, peers ▸ member, e, get kept he, prev⟩
      · exact .inl left
  have replies (call : Call AppendEntriesRequest) (resp : AppendEntriesResponse)
      (old : .appendReply call resp ∈ σ.net) (caller : call.caller = i)
      (term : call.req.term = t) (current : resp.term ≤ t) (failed : resp.success = false) :
      (σ'.node i).Left t :=
    (h.replies call resp old caller term current failed).exec step
  rcases exec_emitted step with ⟨_, rfl⟩ | ⟨j, m, o, feeds, hh, rfl, _⟩
  · exact ⟨fun call hm => calls call (mem_undelivered hm),
      fun call resp hm => replies call resp (mem_undelivered hm)⟩
  · refine ⟨fun call hm caller term => ?_, fun call resp hm caller term current failed => ?_⟩
    · rcases List.mem_append.mp hm with hm | hm
      · exact calls call (mem_undelivered hm) caller term
      · rcases hh.replicates with none | ⟨⟨calls', sent, sends⟩, _⟩
        · exact absurd hm (none call)
        · rw [sent] at hm
          obtain ⟨call', hcall, same⟩ := List.mem_map.mp hm
          obtain rfl := Msg.appendCall.inj same
          obtain ⟨own, member⟩ := sends.peers call' hcall
          obtain rfl : j = i := (ids j).symm.trans (own.symm.trans caller)
          obtain ⟨leads, snapshot⟩ := hh.sends (sent ▸ hm)
          have node : (σ.put j (undelivered σ a) o).node j = o.proc.node :=
            congrArg Proc.node (σ.put_procs_self j _ o)
          rw [peers, node]
          exact .inr ⟨⟨leads, snapshot.term.symm.trans term⟩, member, snapshot.prev⟩
    · rcases List.mem_append.mp hm with hm | hm
      · exact replies call resp (mem_undelivered hm) caller term current failed
      · obtain ⟨rfl, n, refused, term'⟩ := hh.refuses hm failed
        obtain ⟨k, rfl, hk, target⟩ := feeds
        rcases h.calls call (List.mem_of_getElem? hk) caller term with
          left | ⟨leads, member, e, he, prev⟩
        · exact left.exec step
        · exfalso
          have log := stored leads (call.peerID, call.addr) member j target
          rcases Node.handleAppendEntries_rejected refused with ⟨stale, rfl⟩ | ⟨current', rfl⟩
          · omega
          · exact Node.not_accepts_of_rejected refused
              ⟨current', e, get log he, prev⟩

/-- How often the leader of the term has had a reason to send its log again. -/
def resent (S : Setup) (i : String) (t : Nat) (past : List (Sys × Action)) : Nat :=
  past.countP fun x => resends S i t x.1 x.2

/-- A handler that adds to the requests of the node in the term sends at most one to each
peer, and the node leads the term after it. -/
theorem Handles.countP_isAppend {membership : Bool} {p : Proc} {m : Input} {o : Out}
    (h : Handles membership p m o) (i : String) (t : Nat) :
    o.sent.countP (Msg.isAppend i t) = 0 ∨
      (p.node.id = i ∧ p.node.currentTerm = t ∧ o.proc.node.Leads t ∧ Replicates p m ∧
        o.sent.countP (Msg.isAppend i t) ≤ p.node.peerAddrsLocked.length) := by
  rcases Nat.eq_zero_or_pos (o.sent.countP (Msg.isAppend i t)) with none | some
  · exact .inl none
  · obtain ⟨msg, sent, shape⟩ := List.countP_pos_iff.mp some
    cases msg with
    | appendCall call =>
        obtain ⟨caller, term⟩ : call.caller = i ∧ call.req.term = t := by
          simpa [Msg.isAppend] using shape
        rcases h.replicates with none | ⟨⟨calls, all, sends⟩, same, why⟩
        · exact absurd sent (none call)
        · obtain ⟨leads, snapshot⟩ := h.sends sent
          have own : o.proc.node.currentTerm = t := snapshot.term.symm.trans term
          rw [all] at sent
          obtain ⟨call', hcall, eq⟩ := List.mem_map.mp sent
          obtain rfl := Msg.appendCall.inj eq
          refine .inr ⟨(sends.peers call' hcall).1.symm.trans caller, same.symm.trans own,
            ⟨leads, own⟩, why, ?_⟩
          rw [all]
          exact List.countP_le_length.trans (by simpa using sends.length)
    | voteCall _ | voteReply _ _ | appendReply _ _ => exact absurd shape (by simp [Msg.isAppend])

/-- What is counted along a run in which the log of the leader is stored by all peers. -/
structure Counted (S : Setup) (i : String) (t : Nat) (past : List (Sys × Action)) (σ : Sys) :
    Prop where
  roster : (S.start.node i).SameRoster (σ.node i)
  unrefused : Unrefused i t σ
  none : ¬ (σ.node i).Leads t → ¬ (σ.node i).Left t → appendsSent S i t past = 0
  bound : appendsSent S i t past ≤
    (S.start.node i).peerAddrsLocked.length * (1 + ticks i t past + resent S i t past)

/-- Without changes of membership the peers of the node stay the same. -/
theorem roster_of_quiet {S : Setup} {i : String} {σ σ' : Sys} {a : Action}
    (quiet : disturbs i σ a = false) (step : exec S σ a = .ok σ') :
    (σ.node i).SameRoster (σ'.node i) := by
  rcases exec_proc step i with same | ⟨m, o, feeds, hh, now⟩
  · rw [Sys.node, Sys.node, same]
    exact ⟨rfl, rfl⟩
  · rw [Sys.node, Sys.node, now]
    rcases hh.roster with same | ⟨_, j, k, d, c, rfl, changes⟩
    · exact same
    · obtain ⟨rfl, actor, _⟩ := feeds
      obtain rfl := Option.some.inj actor
      rcases changes with ⟨task, _⟩ | ⟨task, _⟩ <;>
        simp [disturbs, task, Task.reconfigures] at quiet

/-- Why a step of such a run adds to the requests that are counted. -/
theorem Counted.reason {S : Setup} {i : String} {t : Nat} {past : List (Sys × Action)}
    {σ σ' : Sys} {a : Action} (h : Counted S i t past σ) (ids : ∀ j, (σ.node j).id = j)
    (quiet : disturbs i σ a = false) (step : exec S σ a = .ok σ') :
    (emitted S σ a).countP (Msg.isAppend i t) = 0 ∨
      ((σ'.node i).Leads t ∧ (emitted S σ a).countP (Msg.isAppend i t) ≤
          (S.start.node i).peerAddrsLocked.length ∧
        ((a = .heartbeat i ∧ (σ.node i).currentTerm = t) ∨ resends S i t σ a = true ∨
          appendsSent S i t past = 0)) := by
  rcases exec_emitted step with ⟨none, _⟩ | ⟨j, m, o, feeds, hh, rfl, sent⟩
  · exact .inl (by rw [none]; rfl)
  · rw [sent]
    rcases hh.countP_isAppend i t with none | ⟨id, term, leads, why, few⟩
    · exact .inl none
    · obtain rfl : j = i := (ids j).symm.trans id
      have node : (σ.put j (undelivered σ a) o).node j = o.proc.node :=
        congrArg Proc.node (σ.put_procs_self j _ o)
      rw [node, ← h.roster.peerAddrsLocked_eq]
      refine .inr ⟨leads, few, ?_⟩
      cases why with
      | heartbeat _ =>
          obtain ⟨rfl, actor, _⟩ := feeds
          obtain rfl := Option.some.inj actor
          exact .inl ⟨rfl, term⟩
      | propose =>
          obtain ⟨rfl, actor, _⟩ := feeds
          obtain rfl := Option.some.inj actor
          simp [disturbs] at quiet
      | elected stands =>
          refine .inr (.inr (h.none (fun leads => ?_) fun left => ?_))
          · exact absurd (stands.symm.trans leads.1) (by simp)
          · exact absurd (stands.symm.trans (left.2 term)) (by simp)
      | @refused call resp leads' current failed =>
          obtain ⟨k, rfl, hk, target⟩ := feeds
          have own : call.req.term = t := leads'.2.symm.trans term
          have caller : j = call.caller := by simpa using List.find?_some target
          have left := h.unrefused.replies call resp (List.mem_of_getElem? hk) caller.symm own
            (own ▸ current) failed
          exact absurd left (own ▸ leads').not_left
      | @answered call resp leads' current succeeded =>
          obtain ⟨k, rfl, hk, target⟩ := feeds
          have own : call.req.term = t := leads'.2.symm.trans term
          refine .inr (.inl (decide_eq_true ⟨own ▸ leads', _, hk, target, ?_⟩))
          exact decide_eq_true ⟨own, own ▸ current, succeeded⟩
      | @resumed i' k task leads' found kind =>
          obtain ⟨rfl, actor, _⟩ := feeds
          obtain rfl := Option.some.inj actor
          rcases kind with answers | reconfigures
          · exact .inr (.inl (decide_eq_true ⟨rfl, ⟨leads', term⟩, task, found, answers⟩))
          · simp [disturbs, found, reconfigures] at quiet

theorem Counted.exec {S : Setup} {i : String} {t : Nat} {past : List (Sys × Action)}
    {σ σ' : Sys} {a : Action} (h : Counted S i t past σ) (ids : ∀ j, (σ.node j).id = j)
    (quiet : Quiet S i t σ a) (step : exec S σ a = .ok σ') :
    Counted S i t ((σ, a) :: past) σ' := by
  have roster := roster_of_quiet quiet.2 step
  have sum : appendsSent S i t ((σ, a) :: past) =
      (emitted S σ a).countP (Msg.isAppend i t) + appendsSent S i t past := by
    simp [appendsSent]
  have reason := h.reason ids quiet.2 step
  refine ⟨h.roster.trans roster, h.unrefused.exec ids quiet.1 roster step, ?_, ?_⟩
  · intro idle left
    have none : (emitted S σ a).countP (Msg.isAppend i t) = 0 :=
      reason.resolve_right fun ⟨leads, _⟩ => idle leads
    rw [sum, none, Nat.zero_add]
    refine h.none (fun leads => ?_) fun left' => left (left'.exec step)
    exact (leads.exec step).elim (fun leads => idle leads.1) left
  · have bound := h.bound
    rw [sum]
    generalize (S.start.node i).peerAddrsLocked.length = peers at bound reason ⊢
    simp only [ticks, resent, List.countP_cons] at bound ⊢
    rcases reason with none | ⟨_, few, ⟨rfl, term⟩ | resends | none⟩
    · rw [none, Nat.zero_add]
      exact bound.trans (Nat.mul_le_mul_left _ (by omega))
    · refine (Nat.add_le_add few bound).trans ?_
      rw [Nat.add_comm, ← Nat.mul_succ]
      exact Nat.mul_le_mul_left _ (by simp [term]; omega)
    · refine (Nat.add_le_add few bound).trans ?_
      rw [Nat.add_comm, ← Nat.mul_succ]
      exact Nat.mul_le_mul_left _ (by simp [resends]; omega)
    · rw [none, Nat.add_zero]
      exact few.trans (Nat.le_mul_of_pos_right _ (by omega))

/-- A leader whose log is stored by every peer sends one request to each of them for its
election, for every heartbeat, and for every response it handles. -/
theorem appendsSent_le {S : Setup} {i : String} {t : Nat} {past : List (Sys × Action)}
    {σ : Sys} (run : Run S past σ) (quiet : Meets (Quiet S i t) past) :
    appendsSent S i t past ≤
      (S.start.node i).peerAddrsLocked.length * (1 + ticks i t past + resent S i t past) := by
  suffices Counted S i t past σ from this.bound
  refine Transition.Run.induct (C := Quiet S i t) (I := Counted S i t) ?_ ?_ run quiet
  · rintro _ rfl
    refine ⟨⟨rfl, rfl⟩, ⟨by simp [Setup.start], by simp [Setup.start]⟩, fun _ _ => rfl, ?_⟩
    exact Nat.zero_le _
  · intro past σ a σ' run _ counted quiet step
    exact counted.exec (fun j => (Setup.identity run j).1) quiet step

/-- In every run in which the leader of the term handles no successful response while its
log is stored by every peer and nothing is proposed, it sends at most one request to
each peer for its election and for every heartbeat. -/
theorem replication_traffic {S : Setup} {i : String} {t : Nat} {past : List (Sys × Action)}
    {σ : Sys} (run : Run S past σ) (quiet : Meets (Quiet S i t) past)
    (unanswered : Meets (fun σ a => resends S i t σ a = false) past) :
    appendsSent S i t past ≤
      (S.start.node i).peerAddrsLocked.length * (1 + ticks i t past) := by
  have none : resent S i t past = 0 :=
    List.countP_eq_zero.mpr fun x hx => by simp [unanswered x hx]
  have bound := appendsSent_le run quiet
  rwa [none, Nat.add_zero] at bound

/-- The leader a sends two heartbeats, and no answer comes back. -/
theorem replication_traffic_heartbeats : ∃ past σ, Run trio past σ ∧
    appendsSent trio "a" 1 past = 6 ∧ ticks "a" 1 past = 2 ∧
    appendsSent trio "a" 1 past ≤
      (trio.start.node "a").peerAddrsLocked.length * (1 + ticks "a" 1 past) := by
  obtain ⟨past, σ, run, check⟩ := Run.of_actions trio
    (electA ++ [.heartbeat "a", .deliver 1, .heartbeat "a"])
    (fun past _ => decide (Meets (Quiet trio "a" 1) past ∧
      Meets (fun σ a => resends trio "a" 1 σ a = false) past ∧
      appendsSent trio "a" 1 past = 6 ∧ ticks "a" 1 past = 2)) (by decide +kernel)
  obtain ⟨quiet, unanswered, six, two⟩ := of_decide_eq_true check
  exact ⟨past, σ, run, six, two, replication_traffic run quiet unanswered⟩

/-- The log of the leader a is stored by all, and nothing is proposed. Node b answers the
first request, and a sends its log to both peers again without any tick. Then b
answers that one as well, and so on. -/
theorem replication_traffic_answered : ∃ past σ, Run trio past σ ∧
    Meets (Quiet trio "a" 1) past ∧ (trio.start.node "a").peerAddrsLocked.length = 2 ∧
    ticks "a" 1 past = 0 ∧ appendsSent trio "a" 1 past = 6 := by
  obtain ⟨past, σ, run, check⟩ := Run.of_actions trio
    (electA ++ [.deliver 2, .deliver 2, .deliver 3, .deliver 3])
    (fun past _ => decide (Meets (Quiet trio "a" 1) past ∧
      (trio.start.node "a").peerAddrsLocked.length = 2 ∧ ticks "a" 1 past = 0 ∧
      appendsSent trio "a" 1 past = 6)) (by decide +kernel)
  exact ⟨past, σ, run, of_decide_eq_true check⟩

end DistributedCache.Raft
