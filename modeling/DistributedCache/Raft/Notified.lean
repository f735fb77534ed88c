import DistributedCache.Raft.ApplyOrder
import DistributedCache.Raft.LogOrder

/-!
A waiting `Propose` call whose entry the node applies is notified. The apply loop
finds the call by the index of the entry, so this holds as long as the call is
still registered under its index, or else its entry cannot come back there.

A node never reuses an index for an entry of the same term, whether that index
was applied or is still waited for: a leader of a term only appends to its log,
and no candidate has an entry of its term. `Node.Stamped` says this of any set of
pairs of an index and a term.
-/
namespace DistributedCache.Raft

open Node (Delivery)
open Relation (ReflTransGen)
open Transition (Meets)

/-- The call is registered under the index of its entry. -/
def View.Registered (v : View) (w : Waiting) : Prop :=
  (v.proposals.lookup w.index).map Proposal.notify = some w.notify

instance (v : View) (w : Waiting) : Decidable (v.Registered w) :=
  inferInstanceAs (Decidable (_ = _))

/-- A call that gives up does not remove the registration of another call that waits. -/
def Proc.CancelsOwn (p : Proc) (k : Nat) : Prop :=
  ∀ w ∈ p.waiting[k]?, ∀ w' ∈ p.waiting, w'.notify ≠ w.notify → w'.index = w.index →
    p.node.lastApplied < w'.index → ¬ p.view.Registered w'

def CancelsOwn (σ : Sys) : Action → Prop
  | .cancel i k => (σ.procs i).CancelsOwn k
  | _ => True

/-- An accepted request does not bring back the entry of a waiting call that is not
registered any more. -/
def Proc.RestoresNone (p : Proc) (req : AppendEntriesRequest) : Prop :=
  p.node.Accepts req → ∀ w ∈ p.waiting, p.node.lastApplied < w.index →
    ¬ p.view.Registered w → req.prevLogIndex < w.index →
    ∀ e ∈ req.entries[w.index - (req.prevLogIndex + 1)]?, e.term ≠ w.entry.term

/-- The registrations of the calls that wait for an entry are kept. -/
def KeepsRegistered (S : Setup) (σ : Sys) (a : Action) : Prop :=
  CancelsOwn σ a ∧ OnDelivery S Proc.RestoresNone σ a

section Decidable

instance (p : Proc) (k : Nat) : Decidable (p.CancelsOwn k) :=
  inferInstanceAs (Decidable (∀ w ∈ p.waiting[k]?, _))

instance (σ : Sys) : (a : Action) → Decidable (CancelsOwn σ a)
  | .cancel i k => inferInstanceAs (Decidable ((σ.procs i).CancelsOwn k))
  | .timeout _ | .heartbeat _ | .propose _ _ | .deliver _ | .lose _ | .resume _ _ | .wake _ _ =>
      .isTrue trivial

instance (p : Proc) (req : AppendEntriesRequest) : Decidable (p.RestoresNone req) :=
  inferInstanceAs (Decidable (_ → ∀ w ∈ p.waiting, _))

instance (S : Setup) (σ : Sys) (a : Action) : Decidable (KeepsRegistered S σ a) :=
  inferInstanceAs (Decidable (_ ∧ _))

end Decidable

/-- The node will not append an entry under one of the indices in the term that the
index comes with. -/
structure Node.Stamped (n : Node) (P : Nat → Nat → Prop) : Prop where
  reached : ∀ k t, P k t → t ≤ n.currentTerm
  standing : n.role = .candidate →
    (∀ e ∈ n.log, e.term < n.currentTerm) ∧ ∀ k t, P k t → t < n.currentTerm
  leading : n.role = .leader → ∀ k, P k n.currentTerm → k < n.log.length

namespace Node.Stamped

variable {n n' : Node} {P P' : Nat → Nat → Prop}

theorem newNode (id addr : String) (peers : GoMap String String) (none : ∀ k t, ¬ P k t) :
    (newNode id addr peers).Stamped P where
  reached k t hk := absurd hk (none k t)
  standing := by rintro ⟨⟩
  leading := by rintro ⟨⟩

theorem of_follower (h : n.Stamped P) (follows : n'.role = .follower)
    (term : n.currentTerm ≤ n'.currentTerm) : n'.Stamped P where
  reached k t hk := (h.reached k t hk).trans term
  standing stands := absurd (follows.symm.trans stands) (by simp)
  leading leads := absurd (follows.symm.trans leads) (by simp)

theorem congr (h : n.Stamped P) (role : n'.role = n.role) (log : n'.log = n.log)
    (term : n'.currentTerm = n.currentTerm) : n'.Stamped P where
  reached := term ▸ h.reached
  standing stands := by
    rw [log, term]
    exact h.standing (role.symm.trans stands)
  leading leads := by
    rw [log, term]
    exact h.leading (role.symm.trans leads)

theorem appendProposal (h : n.Stamped P) (leads : n.role = .leader) (cmd : Command) :
    (n.appendProposal cmd).1.Stamped P where
  reached := h.reached
  standing stands := absurd (leads.symm.trans stands) (by simp)
  leading _ k hk := by
    have := h.leading leads k hk
    simp only [Node.appendProposal, List.length_append, List.length_singleton]
    omega

theorem step (h : n.Stamped P) (log : n.WellFormed)
    (step : NodeStep (fun _ req => req.Ordered) n n') : n'.Stamped P := by
  cases step with
  | stand idle =>
      refine ⟨fun k t hk => (h.reached k t hk).trans (Nat.le_succ _), fun _ => ⟨?_, ?_⟩, ?_⟩
      · exact fun e he => Nat.lt_succ_of_le (log.reached e he)
      · exact fun k t hk => Nat.lt_succ_of_le (h.reached k t hk)
      · rintro ⟨⟩
  | lead stands =>
      refine ⟨h.reached, by rintro ⟨⟩, fun _ k hk => ?_⟩
      exact absurd ((h.standing stands).2 k _ hk) (Nat.lt_irrefl _)
  | propose cmd leads => exact h.appendProposal leads cmd
  | proposeAlone cmd leads => exact (h.appendProposal leads cmd).congr rfl rfl rfl
  | stepDown t newer => exact h.of_follower rfl (Nat.le_of_lt newer)
  | observe req current given =>
      exact h.of_follower (n.observeLeader_follower req)
        ((observeLeader_currentTerm current).symm ▸ current)
  | store req accepts given old =>
      exact h.of_follower (n.observeLeader_follower req)
        ((observeLeader_currentTerm accepts.1).symm ▸ accepts.1)
  | commit req accepts given newer =>
      exact h.of_follower (n.observeLeader_follower req)
        ((observeLeader_currentTerm accepts.1).symm ▸ accepts.1)
  | indices _ _ | vote _ _ | advance _ _ _ | pop _ | forget _ | peers _ => exact h.congr rfl rfl rfl

theorem steps (h : n.Stamped P) (log : n.WellFormed)
    (steps : ReflTransGen (NodeStep fun _ req => req.Ordered) n n') :
    n'.WellFormed ∧ n'.Stamped P :=
  chain_invariant (I := fun n => n.WellFormed ∧ n.Stamped P)
    (fun _ _ ⟨log, h⟩ step => ⟨log.step step, h.step log step⟩) steps ⟨log, h⟩

/-- What is in the log may be added. -/
theorem grow (h : n.Stamped P) (log : n.WellFormed)
    (new : ∀ k t, P' k t → P k t ∨ ∃ e, n.log[k]? = some e ∧ e.term = t) : n.Stamped P' where
  reached k t hk := by
    rcases new k t hk with hk | ⟨e, he, rfl⟩
    · exact h.reached k t hk
    · exact log.reached e (List.mem_of_getElem? he)
  standing stands := by
    refine ⟨(h.standing stands).1, fun k t hk => ?_⟩
    rcases new k t hk with hk | ⟨e, he, rfl⟩
    · exact (h.standing stands).2 k t hk
    · exact (h.standing stands).1 e (List.mem_of_getElem? he)
  leading leads k hk := by
    rcases new k _ hk with hk | ⟨e, he, _⟩
    · exact h.leading leads k hk
    · exact (List.getElem?_eq_some_iff.mp he).1

end Node.Stamped

theorem Node.finishApply_notified (n : Node) (d : Delivery) :
    (n.finishApply d).2 = d.prop.map Proposal.notify := by
  unfold finishApply
  cases d.prop <;> rfl

theorem Node.lookup_finishApply (n : Node) (d : Delivery) {k : Nat} (other : k ≠ n.lastApplied) :
    (n.finishApply d).1.proposals.lookup k = n.proposals.lookup k := by
  unfold finishApply
  split
  · rfl
  · exact AList.lookup_erase_ne other

/-- `taken k` is what the apply loop has handed out for index `k`. -/
structure View.Took (v : View) (events : List Event) (taken : Nat → Option Delivery) : Prop where
  index : ∀ k d, taken k = some d → d.index = k
  below : ∀ k d, taken k = some d → k ≤ v.lastApplied
  tasks : ∀ x ∈ v.applies, taken x.1.index = some x.1
  given : ∀ k e, .applyBegin v.id k e ∈ events → ∃ d, taken k = some d ∧ d.entry = e

/-- A call that waits for an entry not yet taken will be found with it, and one whose
entry was taken has been notified or will be when the callback returns. -/
structure View.Tells (v : View) (taken : Nat → Option Delivery) : Prop where
  fresh : ∀ w ∈ v.waiting, w.notify < v.channels
  distinct : (v.waiting.map Waiting.notify).Nodup
  held : ∀ w ∈ v.waiting, v.lastApplied < w.index →
    v.Registered w ∨ ∀ e, v.log[w.index]? = some e → e.term ≠ w.entry.term
  told : ∀ w ∈ v.waiting, ∀ d, taken w.index = some d → d.entry.term = w.entry.term →
    w.notify ∈ v.ready ∨ d.prop.map Proposal.notify = some w.notify ∧ ∃ x ∈ v.applies, x.1 = d

section Step

variable {p : Proc} {m : Input} {events more : List Event} {v v' : View}
  {taken : Nat → Option Delivery}

theorem Touches.kept (h : Touches p m events v) :
    v.id = p.view.id ∧ v.lastApplied = p.view.lastApplied := by
  cases h <;> exact ⟨rfl, rfl⟩

theorem View.Took.touch (h : p.view.Took events taken) (touches : Touches p m more v) :
    v.Took (more ++ events) taken where
  index := h.index
  below k d hd := touches.kept.2 ▸ h.below k d hd
  tasks x hx := by
    obtain ⟨y, hy, same⟩ := touches.delivery x hx
    rw [same]
    exact h.tasks y hy
  given k e he := by
    rcases List.mem_append.mp he with he | he
    · obtain ⟨x, hx, rfl, rfl⟩ := touches.begins he
      exact ⟨x.1, h.tasks x hx, rfl⟩
    · exact h.given k e (touches.kept.1 ▸ he)

/-- Taking one more entry. -/
theorem View.Took.update (h : v.Took events taken) {d : Delivery}
    (new : d.index = v.lastApplied + 1) (k : Nat) (d' : Delivery) :
    Function.update taken d.index (some d) k = some d' ↔
      (k = d.index ∧ d' = d) ∨ taken k = some d' := by
  by_cases hk : k = d.index
  · subst hk
    rw [Function.update_self]
    constructor
    · exact fun same => .inl ⟨rfl, (Option.some.inj same).symm⟩
    · rintro (⟨_, rfl⟩ | old)
      · rfl
      · have := h.below _ _ old
        omega
  · rw [Function.update_of_ne hk]
    simp [hk]

theorem View.Took.pop {d : Delivery} (h : v.Took events taken) (pops : v.Pops d v') :
    v'.Took events (Function.update taken d.index (some d)) := by
  have update {k : Nat} {d' : Delivery} := h.update pops.index k d'
  obtain ⟨index, _, _, rfl⟩ := pops
  refine ⟨fun k d' hd => ?_, fun k d' hd => ?_, fun x hx => ?_, fun k e he => ?_⟩
  · rcases update.mp hd with ⟨rfl, rfl⟩ | hd
    · rfl
    · exact h.index k d' hd
  · rcases update.mp hd with ⟨rfl, _⟩ | hd
    · exact Nat.le_of_eq index
    · exact Nat.le_succ_of_le (h.below k d' hd)
  · rcases List.mem_append.mp hx with hx | hx
    · exact update.mpr (.inr (h.tasks x hx))
    · obtain rfl := List.mem_singleton.mp hx
      exact update.mpr (.inl ⟨rfl, rfl⟩)
  · obtain ⟨d', hd, entry⟩ := h.given k e he
    exact ⟨d', update.mpr (.inr hd), entry⟩

/-- Calls may stop waiting, and goroutines move on and notify. -/
theorem View.Tells.frame (h : v.Tells taken) (waiting : v'.waiting.Sublist v.waiting)
    (channels : v'.channels = v.channels)
    (held : ∀ w ∈ v'.waiting, v'.lastApplied < w.index →
      v'.Registered w ∨ ∀ e, v'.log[w.index]? = some e → e.term ≠ w.entry.term)
    (ready : ∀ w ∈ v'.waiting, w.notify ∈ v.ready → w.notify ∈ v'.ready)
    (tasks : ∀ x ∈ v.applies, (∃ y ∈ v'.applies, y.1 = x.1) ∨
      ∀ c ∈ x.1.prop.map Proposal.notify, c ∈ v'.ready) : v'.Tells taken where
  fresh w hw := channels ▸ h.fresh w (waiting.mem hw)
  distinct := h.distinct.sublist (waiting.map _)
  held := held
  told w hw d hd term := by
    rcases h.told w (waiting.mem hw) d hd term with done | ⟨carries, x, hx, rfl⟩
    · exact .inl (ready w hw done)
    · rcases tasks x hx with ⟨y, hy, same⟩ | sent
      · exact .inr ⟨carries, y, hy, same⟩
      · exact .inl (sent _ carries)

theorem View.Tells.other {k : Nat} {w w' : Waiting} (h : v.Tells taken)
    (waits : v.waiting[k]? = some w) (hw' : w' ∈ v.waiting.eraseIdx k) :
    w'.notify ≠ w.notify := by
  obtain ⟨l₁, l₂, split, erased, _⟩ := split_at waits
  have distinct := h.distinct
  rw [split, List.map_append, List.map_cons] at distinct
  rw [erased, List.mem_append] at hw'
  intro same
  refine List.nodup_middle.mp distinct |> List.nodup_cons.mp |>.1 ?_
  rw [← same, ← List.map_append]
  exact List.mem_map_of_mem (List.mem_append.mpr hw')

/-- A call that gives up takes only its own registration away. -/
theorem View.Tells.cancel (h : p.view.Tells taken) {k : Nat} {w : Waiting}
    (waits : p.waiting[k]? = some w) (own : p.CancelsOwn k) :
    View.Tells { p.view with
      waiting := p.waiting.eraseIdx k, proposals := p.node.proposals.erase w.index } taken := by
  refine h.frame (List.eraseIdx_sublist _ _) rfl (fun w' hw' above => ?_) (fun _ _ done => done)
    fun x hx => .inl ⟨x, hx, rfl⟩
  have member : w' ∈ p.view.waiting := List.mem_of_mem_eraseIdx hw'
  rcases h.held w' member above with registered | gone
  · left
    have index : w'.index ≠ w.index := fun same =>
      own w waits w' member (h.other waits hw') same above registered
    have kept : (p.node.proposals.erase w.index).lookup w'.index =
        p.node.proposals.lookup w'.index := AList.lookup_erase_ne index
    exact (congrArg _ kept).trans registered
  · exact .inr gone

/-- A new call takes the place of calls whose entry is of an earlier term. -/
theorem View.Tells.propose (h : p.view.Tells taken) (cmd : Command)
    (new : ∀ w ∈ p.waiting, w.index = p.node.log.length → w.entry.term ≠ p.node.currentTerm)
    (fresh : ∀ d, taken p.node.log.length = some d → d.entry.term ≠ p.node.currentTerm) :
    (p.proposed cmd).view.Tells taken := by
  have lookup {k : Nat} (hk : k ≠ p.node.log.length) :
      (p.proposed cmd).view.proposals.lookup k = p.view.proposals.lookup k :=
    AList.lookup_insert_ne hk
  have waiter {w : Waiting} (hw : w ∈ (p.proposed cmd).view.waiting) :
      w ∈ p.view.waiting ∨ w = ⟨p.node.log.length, (p.node.appendProposal cmd).2,
        p.node.channels⟩ := by
    simpa [Proc.view, Proc.proposed, Node.appendProposal] using hw
  refine ⟨fun w hw => ?_, ?_, fun w hw above => ?_, fun w hw d hd term => ?_⟩
  · rcases waiter hw with hw | rfl
    · exact Nat.lt_succ_of_lt (h.fresh w hw)
    · exact Nat.lt_succ_self _
  · change ((p.waiting ++ [_]).map Waiting.notify).Nodup
    rw [List.map_append, List.nodup_append]
    refine ⟨h.distinct, List.nodup_singleton _, fun c hc c' hc' => ?_⟩
    obtain ⟨w, hw, rfl⟩ := List.mem_map.mp hc
    obtain rfl := List.mem_singleton.mp hc'
    exact Nat.ne_of_lt (h.fresh w hw)
  · rcases waiter hw with hw | rfl
    · by_cases here : w.index = p.node.log.length
      · refine .inr fun e he => ?_
        have he : (p.node.log ++ [(p.node.appendProposal cmd).2])[w.index]? = some e := he
        rw [here, List.getElem?_concat_length] at he
        rw [← Option.some.inj he]
        exact (new w hw here).symm
      · refine (h.held w hw above).imp (congrArg _ (lookup here)).trans fun gone e he => ?_
        exact gone e (Proc.log_of_proposed here he)
    · left
      have own : (p.proposed cmd).view.proposals.lookup p.node.log.length =
          some ⟨cmd, p.node.channels⟩ := AList.lookup_insert _
      exact congrArg (Option.map Proposal.notify) own
  · rcases waiter hw with hw | rfl
    · exact h.told w hw d hd term
    · exact absurd term (fresh d hd)

theorem View.Tells.touch (h : p.view.Tells taken) (touches : Touches p m more v)
    (stays : more = [] → p.waiting.length ≤ v.waiting.length)
    (restores : ∀ call, m = .message (.appendCall call) → p.node.Accepts call.req →
      p.RestoresNone call.req)
    (proposes : more = [] → ∀ cmd, v = (p.proposed cmd).view → v.Tells taken) :
    v.Tells taken := by
  have task {l₁ l₂ : List (Delivery × Phase)} {d : Delivery} {phase phase' : Phase}
      (task : p.applies = l₁ ++ (d, phase) :: l₂) (x : Delivery × Phase)
      (hx : x ∈ p.view.applies) : ∃ y ∈ l₁ ++ (d, phase') :: l₂, y.1 = x.1 := by
    by_cases here : x = (d, phase)
    · exact ⟨(d, phase'), by simp, by rw [here]⟩
    · have hx : x ∈ p.applies := hx
      refine ⟨x, ?_, rfl⟩
      simp only [task, List.mem_append, List.mem_cons, here, false_or] at hx ⊢
      tauto
  cases touches with
  | same => exact h
  | store call received accepts =>
      refine h.frame (List.Sublist.refl _) rfl (fun w hw above => ?_) (fun _ _ done => done)
        fun x hx => .inl ⟨x, hx, rfl⟩
      by_cases registered : p.view.Registered w
      · exact .inl registered
      · refine .inr fun e he => ?_
        have he : (p.node.storeEntries call.req).log[w.index]? = some e := he
        rw [Node.getElem?_storeEntries accepts.lt] at he
        split at he
        · exact ((h.held w hw above).resolve_left registered) e he
        · rename_i behind
          obtain ⟨e', he', rfl⟩ := Option.map_eq_some_iff.mp he
          exact restores call received accepts accepts w hw above registered
            (Nat.not_le.mp behind) e' he'
  | propose cmd => exact proposes rfl cmd rfl
  | begin l₁ l₂ d split =>
      exact h.frame (List.Sublist.refl _) rfl h.held (fun _ _ done => done)
        fun x hx => .inl (task split x hx)
  | move l₁ l₂ d phase phase' split inside further =>
      exact h.frame (List.Sublist.refl _) rfl h.held (fun _ _ done => done)
        fun x hx => .inl (task split x hx)
  | finish l₁ l₂ d split =>
      refine h.frame (List.Sublist.refl _) rfl (fun w hw above => ?_)
        (fun _ _ done => List.mem_append_left _ done) fun x hx => ?_
      · have kept := p.node.lookup_finishApply d (Nat.ne_of_gt above)
        exact (h.held w hw above).imp_left (congrArg _ kept).trans
      · by_cases here : x = (d, .returned)
        · refine .inr fun c hc => List.mem_append_right _ ?_
          rw [p.node.finishApply_notified, Option.mem_toList, ← hc, here]
        · have hx : x ∈ p.applies := hx
          refine .inl ⟨x, ?_, rfl⟩
          simp only [split, List.mem_append, List.mem_cons, here, false_or] at hx ⊢
          exact hx
  | wake k w waits ready =>
      refine h.frame (List.eraseIdx_sublist _ _) rfl
        (fun w' hw' => h.held w' (List.mem_of_mem_eraseIdx hw')) (fun w' hw' done => ?_)
        fun x hx => .inl ⟨x, hx, rfl⟩
      exact (List.mem_erase_of_ne (h.other waits hw')).mpr done
  | cancel k w waits =>
      obtain ⟨inside, _⟩ := List.getElem?_eq_some_iff.mp waits
      have stays : p.waiting.length ≤ (p.waiting.eraseIdx k).length := stays rfl
      rw [List.length_eraseIdx_of_lt inside] at stays
      omega

theorem View.Tells.pop {d : Delivery} (h : v.Tells taken) (took : v.Took events taken)
    (pops : v.Pops d v') : v'.Tells (Function.update taken d.index (some d)) := by
  have update {k : Nat} {d' : Delivery} := took.update pops.index k d'
  obtain ⟨index, entry, prop, rfl⟩ := pops
  refine ⟨h.fresh, h.distinct, fun w hw above => ?_, fun w hw d' hd term => ?_⟩
  · exact h.held w hw (Nat.lt_of_succ_lt above)
  · rcases update.mp hd with ⟨same, rfl⟩ | hd
    · -- The entry is the one waited for, so the call is registered under its index.
      have registered := (h.held w hw (by omega)).resolve_right fun gone =>
        gone d'.entry (same ▸ entry) term
      refine .inr ⟨?_, (d', .pending), by simp, rfl⟩
      rw [prop, ← same]
      exact registered
    · refine (h.told w hw d' hd term).imp_right fun ⟨carries, x, hx, same⟩ => ?_
      exact ⟨carries, x, List.mem_append_left _ hx, same⟩

end Step

/-- What a handler does to the waiting calls: nothing, or it is `Propose` on a leader, a
call that gives up, or one that returns. -/
theorem Handles.waiting {membership : Bool} {p : Proc} {m : Input} {o : Out}
    (h : Handles membership p m o) :
    o.proc.waiting = p.waiting ∨
    (p.node.role = .leader ∧ ∃ cmd, o.proc.waiting = (p.proposed cmd).waiting) ∨
    (∃ i k w, m = .act (.cancel i k) ∧ p.waiting[k]? = some w ∧ o = { proc := { p with
      waiting := p.waiting.eraseIdx k, node := p.node.cancelProposal w.index } }) ∨
    o.events ≠ [] := by
  have applied {p : Proc} {c : Cont} (happly : p.applyCommitted c = .ok o) :
      o.proc.waiting = p.waiting := by
    rcases Proc.applyCommitted_ok happly with ⟨n, d, _, rfl⟩ | ⟨_, hres⟩
    · rfl
    · rcases Proc.resumeCont_ok hres with ⟨_, rfl⟩ | ⟨call, _, rfl⟩ | ⟨_, n, calls, _, rfl⟩ <;> rfl
  cases h with
  | proposeAlone cmd o leads alone happly =>
      exact .inr (.inl ⟨leads, cmd, (applied happly).trans rfl⟩)
  | propose cmd n calls leads peers hrep => exact .inr (.inl ⟨leads, cmd, rfl⟩)
  | committed call n o happ happly => exact .inl ((applied happly).trans rfl)
  | acknowledged call resp n o hresp happly => exact .inl ((applied happly).trans rfl)
  | finish k d c o task happly => exact .inl ((applied happly).trans rfl)
  | run k d c task =>
      left
      change (p.afterCallback membership d.entry.command).1.waiting = _
      obtain ⟨ring, same, -⟩ := p.afterCallback_ring membership d.entry.command
      rw [same]
  | wake k w waits ready => exact .inr (.inr (.inr (by simp)))
  | cancel k w waits => exact .inr (.inr (.inl ⟨_, k, w, rfl, waits, rfl⟩))
  | _ => exact .inl rfl

/-- The indices that were taken or are waited for, each with the term of its entry. -/
def View.stamps (v : View) (taken : Nat → Option Delivery) (k t : Nat) : Prop :=
  (∃ d, taken k = some d ∧ d.entry.term = t) ∨ ∃ w ∈ v.waiting, w.index = k ∧ w.entry.term = t

theorem Touches.waiting {p : Proc} {m : Input} {events : List Event} {v : View}
    (h : Touches p m events v) : ∀ w ∈ v.waiting,
      w ∈ p.waiting ∨ ∃ e, v.log[w.index]? = some e ∧ e.term = w.entry.term := by
  cases h with
  | propose cmd =>
      intro w hw
      rcases List.mem_append.mp hw with hw | hw
      · exact .inl hw
      · obtain rfl := List.mem_singleton.mp hw
        exact .inr ⟨_, List.getElem?_concat_length, rfl⟩
  | wake k w waits ready => exact fun w' hw' => .inl (List.mem_of_mem_eraseIdx hw')
  | cancel k w waits => exact fun w' hw' => .inl (List.mem_of_mem_eraseIdx hw')
  | _ => exact fun w hw => .inl hw

/-- Every handler keeps what waiting calls are told, and adds only what is in the log to
the entries taken or waited for. -/
theorem Handles.tells {membership : Bool} {p : Proc} {m : Input} {o : Out}
    {events : List Event} {taken : Nat → Option Delivery} (h : Handles membership p m o)
    (stamped : p.node.Stamped (p.view.stamps taken)) (took : p.view.Took events taken)
    (tells : p.view.Tells taken)
    (cancels : ∀ i k, m = .act (.cancel i k) → p.CancelsOwn k)
    (restores : ∀ call, m = .message (.appendCall call) → p.node.Accepts call.req →
      p.RestoresNone call.req) :
    ∃ taken', o.proc.view.Took (o.events ++ events) taken' ∧ o.proc.view.Tells taken' ∧
      ∀ k t, o.proc.view.stamps taken' k t → p.view.stamps taken k t ∨
        ∃ e, o.proc.node.log[k]? = some e ∧ e.term = t := by
  obtain ⟨v, touches, popped⟩ := h.shows
  have frame : v.waiting = o.proc.waiting ∧ v.log = o.proc.node.log := by
    rcases popped with view | ⟨_, d, ⟨_, _, _, view⟩, _⟩
    · exact ⟨(congrArg View.waiting view).symm, (congrArg View.log view).symm⟩
    · exact ⟨(congrArg View.waiting view).symm, (congrArg View.log view).symm⟩
  have took' := took.touch touches
  have tells' : v.Tells taken := by
    rcases h.waiting with same | ⟨leads, cmd, grown⟩ | ⟨i, k, w, rfl, waits, rfl⟩ | shown
    · refine tells.touch touches (fun _ => ?_) restores fun _ cmd view => ?_
      · rw [frame.1, same]
      · have := congrArg View.waiting view
        rw [frame.1, same] at this
        simp [Proc.view, Proc.proposed] at this
    · refine tells.touch touches (fun _ => ?_) restores fun _ cmd' view => ?_
      · rw [frame.1, grown]
        simp [Proc.proposed]
      · rw [view]
        refine tells.propose cmd' (fun w hw here own => ?_) fun d hd own => ?_
        · have := stamped.leading leads w.index (.inr ⟨w, hw, rfl, own⟩)
          omega
        · exact absurd (stamped.leading leads _ (.inl ⟨d, hd, own⟩)) (Nat.lt_irrefl _)
    · rcases popped with view | ⟨⟨n, none, _⟩, _⟩
      · rw [← view]
        exact tells.cancel waits (cancels i k rfl)
      · simp [Proc.loopHead] at none
    · exact tells.touch touches (fun none => absurd none shown) restores
        fun none => absurd none shown
  have waited : ∀ w ∈ o.proc.waiting, w ∈ p.waiting ∨
      ∃ e, o.proc.node.log[w.index]? = some e ∧ e.term = w.entry.term := by
    rw [← frame.1, ← frame.2]
    exact touches.waiting
  have grown {k t : Nat} {taken' : Nat → Option Delivery}
      (new : ∀ d, taken' k = some d → taken k = some d ∨ o.proc.node.log[k]? = some d.entry)
      (stamp : o.proc.view.stamps taken' k t) : p.view.stamps taken k t ∨
        ∃ e, o.proc.node.log[k]? = some e ∧ e.term = t := by
    rcases stamp with ⟨d, hd, rfl⟩ | ⟨w, hw, rfl, rfl⟩
    · rcases new d hd with hd | hd
      · exact .inl (.inl ⟨d, hd, rfl⟩)
      · exact .inr ⟨d.entry, hd, rfl⟩
    · exact (waited w hw).imp_left fun hw => .inr ⟨w, hw, rfl, rfl⟩
  rcases popped with view | ⟨_, d, pops, _⟩
  · exact ⟨taken, view ▸ took', view ▸ tells', fun k t => grown fun d hd => .inl hd⟩
  · refine ⟨_, took'.pop pops, tells'.pop took' pops, fun k t => grown fun d' hd => ?_⟩
    rcases (took'.update pops.index k d').mp hd with ⟨rfl, rfl⟩ | hd
    · exact .inr (frame.2 ▸ pops.entry)
    · exact .inl hd

/-- Every call at node `i` whose entry has been handed to the callback has been notified
or is about to be. -/
structure Sys.Telling (σ : Sys) (i : String) : Prop where
  ordered : σ.Ordered
  told : ∃ taken, (σ.node i).Stamped ((σ.procs i).view.stamps taken) ∧
    (σ.procs i).view.Took (σ.eventsOf i) taken ∧ (σ.procs i).view.Tells taken

theorem Sys.Telling.start (S : Setup) (i : String) : S.start.Telling i where
  ordered := .start S
  told := by
    refine ⟨fun _ => none, .newNode _ _ _ ?_, ⟨?_, ?_, ?_, ?_⟩, ⟨?_, ?_, ?_, ?_⟩⟩ <;>
      simp [View.stamps, Setup.start, Setup.startProc, Proc.view, Proc.applies, newNode,
        Sys.eventsOf]

theorem Sys.Telling.step {S : Setup} {σ σ' : Sys} {a : Action} {i : String} (h : σ.Telling i)
    (ids : ∀ j, (σ.node j).id = j) (meets : KeepsRegistered S σ a)
    (step : exec S σ a = .ok σ') : σ'.Telling i where
  ordered := h.ordered.exec step
  told := by
    obtain ⟨cancels, restores⟩ := meets
    obtain ⟨taken, stamped, took, tells⟩ := h.told
    rcases exec_handled ids step i with ⟨proc, events⟩ | ⟨m, o, feeds, hh, proc, events⟩
    · rw [Sys.node, proc, events]
      exact ⟨taken, stamped, took, tells⟩
    · rw [Sys.node, proc, events]
      obtain ⟨taken', took, tells, grown⟩ := hh.tells stamped took tells
        (by
          rintro j k rfl
          obtain ⟨rfl, actor, _⟩ := feeds
          obtain rfl := Option.some.inj actor
          exact cancels)
        (by
          rintro call rfl accepts
          obtain ⟨k, rfl, hm, hi⟩ := feeds
          exact restores.at hm hi accepts.1)
      have steps : ReflTransGen (NodeStep fun _ req => req.Ordered) (σ.node i) o.proc.node := by
        refine hh.nodeSteps ?_
        rintro call rfl _
        obtain ⟨k, rfl, hm, _⟩ := feeds
        exact h.ordered.calls call (List.mem_of_getElem? hm)
      obtain ⟨log, stamped⟩ := stamped.steps (h.ordered.nodes i) steps
      exact ⟨taken', stamped.grow log grown, took, tells⟩

theorem telling_run {S : Setup} {past : List (Sys × Action)} {σ : Sys} (run : Run S past σ)
    (meets : Meets (KeepsRegistered S) past) (i : String) : σ.Telling i := by
  refine Transition.Run.induct (C := KeepsRegistered S) (I := fun _ σ => σ.Telling i) ?_ ?_ run
    meets
  · rintro _ rfl
    exact .start S i
  · intro past σ a σ' run _ telling meets step
    exact telling.step (fun j => (Setup.identity run j).1) meets step

/-- In every run in which a call that gives up removes no other call's registration and
no accepted request brings back the entry of a call that lost its own, a call that is
still waiting although its entry was applied has been notified, or is notified when the
callback returns. -/
theorem waiter_notified {S : Setup} {past : List (Sys × Action)} {σ : Sys}
    (run : Run S past σ) (meets : Meets (KeepsRegistered S) past) (i : String) (w : Waiting)
    (waits : w ∈ (σ.procs i).waiting) (e : Entry)
    (applied : .applyBegin i w.index e ∈ σ.events) (term : e.term = w.entry.term) :
    w.notify ∈ (σ.procs i).ready ∨ ∃ d phase c, .applying d phase c ∈ (σ.procs i).tasks ∧
      d.index = w.index ∧ d.entry = e ∧ d.prop.map Proposal.notify = some w.notify := by
  obtain ⟨taken, _, took, tells⟩ := (telling_run run meets i).told
  have id : (σ.procs i).view.id = i := (Setup.identity run i).1
  have begun : .applyBegin (σ.procs i).view.id w.index e ∈ σ.eventsOf i :=
    List.mem_filter.mpr ⟨id.symm ▸ applied, decide_eq_true id⟩
  obtain ⟨d, hd, rfl⟩ := took.given w.index e begun
  refine (tells.told w waits d hd term).imp_right ?_
  rintro ⟨carries, ⟨x, phase⟩, hx, rfl⟩
  obtain ⟨task, mem, shape⟩ := List.mem_filterMap.mp hx
  cases task with
  | applying d' phase' c =>
      obtain ⟨rfl, rfl⟩ := Prod.mk.inj (Option.some.inj shape)
      exact ⟨d', phase', c, mem, took.index _ _ hd, rfl, carries⟩
  | electing _ | counting _ _ | winning _ => exact absurd shape (by simp [Task.delivery?])

/-- The leader a of term 1 stores the command of a first client. The leader c of term 2
replaces its log, and a is elected again for term 3. -/
def reelectA : List Action :=
  electA ++ [.propose "a" (join "d" "d:1"), .timeout "c", .timeout "c", .deliver 7, .deliver 8,
    .resume "c" 0, .resume "c" 0, .deliver 9, .timeout "a", .deliver 11, .deliver 11,
    .resume "a" 0, .resume "a" 0]

/-- Then a second client's command is stored by a and b, and applied by a. -/
def commitReelected : List Action :=
  [.deliver 14, .deliver 14, .resume "a" 0, .resume "a" 0, .resume "a" 0]

/-- The first client gives up before the second one comes. -/
theorem waiter_notified_in_time : ∃ past σ, Run trio past σ ∧
    (σ.procs "a").waiting = [⟨1, ⟨3, 1, join "e" "e:1"⟩, 1⟩] ∧
    (1 ∈ (σ.procs "a").ready ∨ ∃ d phase c, .applying d phase c ∈ (σ.procs "a").tasks ∧
      d.index = 1 ∧ d.entry = ⟨3, 1, join "e" "e:1"⟩ ∧ d.prop.map Proposal.notify = some 1) := by
  obtain ⟨past, σ, run, check⟩ := Run.of_actions trio
    (reelectA ++ [.cancel "a" 0, .propose "a" (join "e" "e:1")] ++ commitReelected)
    (fun past σ => decide (Meets (KeepsRegistered trio) past ∧
      (σ.procs "a").waiting = [⟨1, ⟨3, 1, join "e" "e:1"⟩, 1⟩] ∧
      .applyBegin "a" 1 ⟨3, 1, join "e" "e:1"⟩ ∈ σ.events)) (by decide +kernel)
  obtain ⟨meets, waiting, applied⟩ := of_decide_eq_true check
  exact ⟨past, σ, run, waiting, waiter_notified run meets "a" ⟨1, ⟨3, 1, join "e" "e:1"⟩, 1⟩
    (by simp [waiting]) _ applied rfl⟩

/-- The first client gives up after the second one has been registered under the same
index, and takes that registration away. The entry of the second client is applied and
the callback returns, but nobody will notify it. -/
theorem waiter_notified_cancelled : ∃ past σ, Run trio past σ ∧
    (σ.procs "a").waiting = [⟨1, ⟨3, 1, join "e" "e:1"⟩, 1⟩] ∧
    σ.eventsOf "a" = [.applyEnd "a" 1, .applyBegin "a" 1 ⟨3, 1, join "e" "e:1"⟩] ∧
    (σ.procs "a").ready = [] ∧ (σ.procs "a").tasks = [] := by
  obtain ⟨past, σ, run, check⟩ := Run.of_actions trio
    (reelectA ++ [.propose "a" (join "e" "e:1"), .cancel "a" 0] ++ commitReelected)
    (fun _ σ => decide ((σ.procs "a").waiting = [⟨1, ⟨3, 1, join "e" "e:1"⟩, 1⟩] ∧
      σ.eventsOf "a" = [.applyEnd "a" 1, .applyBegin "a" 1 ⟨3, 1, join "e" "e:1"⟩] ∧
      (σ.procs "a").ready = [] ∧ (σ.procs "a").tasks = [])) (by decide +kernel)
  exact ⟨past, σ, run, of_decide_eq_true check⟩

end DistributedCache.Raft
