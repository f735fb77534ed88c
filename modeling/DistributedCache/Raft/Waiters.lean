import DistributedCache.Raft.Applying

/-!
What a `Propose` call that returns nil has been told. A waiter is found by the
index of its entry alone, so the call is right only as long as no other entry
comes to stand at that index before it is applied.

`taken k` is the entry that the apply loop handed out for index `k`, together
with the waiter it found there. The loop hands out every index once, so what a
waiter is told and what the callback was given are about the same entry.
-/
namespace DistributedCache.Raft

open Node (Delivery)
open Transition (Meets)

/-- The same entry, up to the index it is stored under. -/
def Entry.Agrees (e e' : Entry) : Prop :=
  e.term = e'.term ∧ e.command = e'.command

instance (e e' : Entry) : Decidable (e.Agrees e') :=
  inferInstanceAs (Decidable (_ ∧ _))

/-- An accepted request carries no other entry for the index of a `Propose` call that
still waits and whose index is not applied yet. -/
def Proc.KeepsAwaited (p : Proc) (req : AppendEntriesRequest) : Prop :=
  p.node.Accepts req → ∀ wt ∈ p.waiting, p.node.lastApplied < wt.index →
    (p.node.proposals.lookup wt.index).map Proposal.notify = some wt.notify →
    req.prevLogIndex < wt.index →
    ∀ e ∈ req.entries[wt.index - (req.prevLogIndex + 1)]?, e.Agrees wt.entry

instance (p : Proc) (req : AppendEntriesRequest) : Decidable (p.KeepsAwaited req) :=
  inferInstanceAs (Decidable (_ → ∀ wt ∈ p.waiting, _))

/-- Callbacks and notifications are about the entries handed out. -/
structure View.Hands (v : View) (events : List Event) (taken : Nat → Option Delivery) :
    Prop where
  below : ∀ k d, taken k = some d → k ≤ v.lastApplied
  tasks : ∀ x ∈ v.applies, taken x.1.index = some x.1
  begun : ∀ x ∈ v.applies, x.2 ≠ .pending → .applyBegin v.id x.1.index x.1.entry ∈ events
  given : ∀ k e, .applyBegin v.id k e ∈ events → ∃ d, taken k = some d ∧ d.entry = e
  ready : ∀ c ∈ v.ready, ∃ k d w, taken k = some d ∧ d.prop = some w ∧ w.notify = c ∧
    .applyBegin v.id k d.entry ∈ events
  answered : ∀ k e, .proposeNil v.id k e ∈ events → ∃ d, taken k = some d ∧
    d.entry.Agrees e ∧ .applyBegin v.id k d.entry ∈ events

/-- A waiting call is registered under the index of its entry, and found there with it. -/
structure View.Waits (v : View) (taken : Nat → Option Delivery) : Prop where
  fresh : ∀ wt ∈ v.waiting, wt.notify < v.channels
  held_lt : ∀ k w, v.proposals.lookup k = some w → w.notify < v.channels
  taken_lt : ∀ k d w, taken k = some d → d.prop = some w → w.notify < v.channels
  held : ∀ wt ∈ v.waiting, ∀ k w, v.proposals.lookup k = some w → w.notify = wt.notify →
    k = wt.index ∧ (v.lastApplied < k → ∀ e, v.log[k]? = some e → e.Agrees wt.entry)
  taken : ∀ wt ∈ v.waiting, ∀ k d w, taken k = some d → d.prop = some w →
    w.notify = wt.notify → k = wt.index ∧ d.entry.Agrees wt.entry

section Step

variable {p : Proc} {m : Input} {events more : List Event} {v v' : View}
  {taken : Nat → Option Delivery}

/-- Goroutines and channels only go away, and nothing about them is shown. -/
theorem View.Hands.frame (h : v.Hands events taken) (id : v'.id = v.id)
    (applied : v'.lastApplied = v.lastApplied) (tasks : v'.applies ⊆ v.applies)
    (ready : v'.ready ⊆ v.ready) : v'.Hands events taken where
  below k d hk := applied ▸ h.below k d hk
  tasks x hx := h.tasks x (tasks hx)
  begun x hx := id ▸ h.begun x (tasks hx)
  given := id ▸ h.given
  ready c hc := id ▸ h.ready c (ready hc)
  answered := id ▸ h.answered

/-- Showing more events about what was handed out. -/
theorem View.Hands.show (h : v.Hands events taken)
    (begins : ∀ k e, .applyBegin v.id k e ∈ more → ∃ d, taken k = some d ∧ d.entry = e)
    (right : ∀ k e, .proposeNil v.id k e ∈ more → ∃ d, taken k = some d ∧ d.entry.Agrees e ∧
      .applyBegin v.id k d.entry ∈ events) : v.Hands (more ++ events) taken where
  below := h.below
  tasks := h.tasks
  begun x hx begun := List.mem_append_right _ (h.begun x hx begun)
  given k e he := (List.mem_append.mp he).elim (begins k e) (h.given k e)
  ready c hc := by
    obtain ⟨k, d, w, hd, hw, hc, begun⟩ := h.ready c hc
    exact ⟨k, d, w, hd, hw, hc, List.mem_append_right _ begun⟩
  answered k e he := by
    obtain ⟨d, hd, agrees, begun⟩ := (List.mem_append.mp he).elim (right k e) (h.answered k e)
    exact ⟨d, hd, agrees, List.mem_append_right _ begun⟩

/-- A goroutine goes on with an entry whose callback has begun. -/
theorem View.Hands.goOn {l₁ l₂ : List (Delivery × Phase)} {d : Delivery} {phase : Phase}
    (h : v.Hands events taken) (task : v.applies = l₁ ++ (d, phase) :: l₂)
    (begun : .applyBegin v.id d.index d.entry ∈ events) (phase' : Phase) :
    View.Hands { v with applies := l₁ ++ (d, phase') :: l₂ } events taken := by
  have old {x : Delivery × Phase} (hx : x ∈ l₁ ++ (d, phase') :: l₂) :
      x = (d, phase') ∨ x ∈ v.applies := by
    simp only [task, List.mem_append, List.mem_cons] at hx ⊢
    tauto
  refine ⟨h.below, fun x hx => ?_, fun x hx begun' => ?_, h.given, h.ready, h.answered⟩
  · rcases old hx with rfl | hx
    · exact h.tasks (d, phase) (by simp [task])
    · exact h.tasks x hx
  · rcases old hx with rfl | hx
    · exact begun
    · exact h.begun x hx begun'

theorem View.Hands.touch (h : p.view.Hands events taken) (waits : p.view.Waits taken)
    (touches : Touches p m more v) : v.Hands (more ++ events) taken := by
  cases touches with
  | same => exact h
  | store call received accepts =>
      exact h.frame rfl rfl (List.Subset.refl _) (List.Subset.refl _)
  | propose cmd => exact h.frame rfl rfl (List.Subset.refl _) (List.Subset.refl _)
  | begin l₁ l₂ d task =>
      have shown : p.view.Hands ([.applyBegin p.node.id d.index d.entry] ++ events) taken := by
        refine h.show (fun k e he => ?_) (by simp)
        obtain ⟨_, rfl, rfl⟩ := Event.applyBegin.inj (List.mem_singleton.mp he)
        exact ⟨d, h.tasks (d, .pending) (by simp [Proc.view, task]), rfl⟩
      exact shown.goOn task List.mem_cons_self .running
  | move l₁ l₂ d phase phase' task inside further =>
      have begun := h.begun (d, phase) (by simp [Proc.view, task]) inside.1
      refine (h.goOn task begun phase').show (fun k e he => ?_) (fun k e he => ?_)
      · split at he <;> simp at he
      · split at he <;> simp at he
  | finish l₁ l₂ d task =>
      have member : (d, .returned) ∈ p.view.applies := by simp [Proc.view, task]
      have fewer : View.Hands { p.view with applies := l₁ ++ l₂ } events taken := by
        refine h.frame rfl rfl ?_ (List.Subset.refl _)
        simp only [Proc.view, task]
        exact (List.sublist_cons_self _ _).append_left _ |>.subset
      refine ⟨fewer.below, fewer.tasks, fewer.begun, fewer.given, fun c hc => ?_, fewer.answered⟩
      rcases List.mem_append.mp hc with hc | hc
      · exact h.ready c hc
      · -- The channel is the one of the waiter found with the entry.
        cases found : d.prop with
        | none => simp [Node.finishApply, found] at hc
        | some w =>
            refine ⟨d.index, d, w, h.tasks _ member, found, ?_, h.begun _ member (by simp)⟩
            simpa [Node.finishApply, found, eq_comm] using hc
  | wake k w waiting ready =>
      have fewer : View.Hands { p.view with
          waiting := p.waiting.eraseIdx k, ready := p.ready.erase w.notify } events taken :=
        h.frame rfl rfl (List.Subset.refl _) List.erase_subset
      refine fewer.show (by simp) fun k' e he => ?_
      obtain ⟨_, rfl, rfl⟩ := Event.proposeNil.inj (List.mem_singleton.mp he)
      obtain ⟨k', d, w', hd, hw, hc, begun⟩ := h.ready w.notify ready
      obtain ⟨rfl, agrees⟩ := waits.taken w (List.mem_of_getElem? waiting) k' d w' hd hw hc
      exact ⟨d, hd, agrees, begun⟩
  | cancel k w waiting => exact h.frame rfl rfl (List.Subset.refl _) (List.Subset.refl _)

theorem View.Hands.pop {d : Delivery} (h : v.Hands events taken) (pops : v.Pops d v') :
    v'.Hands events (Function.update taken d.index (some d)) := by
  obtain ⟨index, _, _, rfl⟩ := pops
  have old {k : Nat} {d' : Delivery} (hd : taken k = some d') :
      Function.update taken d.index (some d) k = some d' := by
    rw [Function.update_of_ne, hd]
    have := h.below k d' hd
    omega
  refine ⟨fun k d' hd => ?_, fun x hx => ?_, fun x hx begun => ?_, fun k e he => ?_,
    fun c hc => ?_, fun k e he => ?_⟩
  · by_cases hk : k = d.index
    · exact Nat.le_of_eq (hk.trans index)
    · rw [Function.update_of_ne hk] at hd
      exact Nat.le_succ_of_le (h.below k d' hd)
  · rcases List.mem_append.mp hx with hx | hx
    · exact old (h.tasks x hx)
    · obtain rfl := List.mem_singleton.mp hx
      exact Function.update_self ..
  · rcases List.mem_append.mp hx with hx | hx
    · exact h.begun x hx begun
    · obtain rfl := List.mem_singleton.mp hx
      exact absurd rfl begun
  · obtain ⟨d', hd, entry⟩ := h.given k e he
    exact ⟨d', old hd, entry⟩
  · obtain ⟨k, d', w, hd, hw, hc, begun⟩ := h.ready c hc
    exact ⟨k, d', w, old hd, hw, hc, begun⟩
  · obtain ⟨d', hd, agrees, begun⟩ := h.answered k e he
    exact ⟨d', old hd, agrees, begun⟩

/-- Calls stop waiting and waiters are forgotten. -/
theorem View.Waits.frame (h : v.Waits taken) (channels : v'.channels = v.channels)
    (waiting : v'.waiting ⊆ v.waiting) (applied : v'.lastApplied = v.lastApplied)
    (log : v'.log = v.log)
    (proposals : ∀ k w, v'.proposals.lookup k = some w → v.proposals.lookup k = some w) :
    v'.Waits taken where
  fresh wt hwt := channels ▸ h.fresh wt (waiting hwt)
  held_lt k w hw := channels ▸ h.held_lt k w (proposals k w hw)
  taken_lt := channels ▸ h.taken_lt
  held wt hwt k w hw notify := by
    rw [applied, log]
    exact h.held wt (waiting hwt) k w (proposals k w hw) notify
  taken wt hwt := h.taken wt (waiting hwt)

/-- A new call is registered on a channel of its own, under an index that holds its
entry and that no other call is registered under any more. -/
theorem View.Waits.propose (h : p.view.Waits taken) (cmd : Command) :
    (p.proposed cmd).view.Waits taken := by
  have lookup {k : Nat} {w : Proposal}
      (hw : (p.proposed cmd).view.proposals.lookup k = some w) :
      (k = p.node.log.length ∧ w.notify = p.node.channels) ∨
        (k ≠ p.node.log.length ∧ p.view.proposals.lookup k = some w) := by
    by_cases hk : k = p.node.log.length
    · subst hk
      have : some (⟨cmd, p.node.channels⟩ : Proposal) = some w := by
        rw [← hw]
        exact (AList.lookup_insert p.node.proposals).symm
      exact .inl ⟨rfl, by rw [← Option.some.inj this]⟩
    · exact .inr ⟨hk, by rw [← hw]; exact (AList.lookup_insert_ne hk).symm⟩
  have waiter {wt : Waiting} (hwt : wt ∈ (p.proposed cmd).view.waiting) :
      wt ∈ p.view.waiting ∨ wt = ⟨p.node.log.length, (p.node.appendProposal cmd).2,
        p.node.channels⟩ := by
    simpa [Proc.view, Proc.proposed, Node.appendProposal] using hwt
  refine ⟨fun wt hwt => ?_, fun k w hw => ?_, fun k d w hd hw => ?_,
    fun wt hwt k w hw notify => ?_, fun wt hwt k d w hd hw notify => ?_⟩
  · rcases waiter hwt with hwt | rfl
    · exact Nat.lt_succ_of_lt (h.fresh wt hwt)
    · exact Nat.lt_succ_self _
  · rcases lookup hw with ⟨_, same⟩ | ⟨_, hw⟩
    · exact same ▸ Nat.lt_succ_self _
    · exact Nat.lt_succ_of_lt (h.held_lt k w hw)
  · exact Nat.lt_succ_of_lt (h.taken_lt k d w hd hw)
  · rcases waiter hwt with hwt | rfl <;> rcases lookup hw with ⟨rfl, same⟩ | ⟨hk, hw⟩
    · have := h.fresh wt hwt
      exact absurd (same.symm.trans notify) (Nat.ne_of_gt this)
    · obtain ⟨index, agrees⟩ := h.held wt hwt k w hw notify
      exact ⟨index, fun above e he => agrees above e (Proc.log_of_proposed hk he)⟩
    · refine ⟨rfl, fun _ e he => ?_⟩
      have he : (p.node.log ++ [(p.node.appendProposal cmd).2])[p.node.log.length]? = some e := he
      rw [List.getElem?_concat_length] at he
      obtain rfl := Option.some.inj he
      exact ⟨rfl, rfl⟩
    · exact absurd notify (Nat.ne_of_lt (h.held_lt k w hw))
  · rcases waiter hwt with hwt | rfl
    · exact h.taken wt hwt k d w hd hw notify
    · exact absurd notify (Nat.ne_of_lt (h.taken_lt k d w hd hw))

theorem View.Waits.touch (h : p.view.Waits taken) (touches : Touches p m more v)
    (keeps : ∀ call, m = .message (.appendCall call) → p.node.Accepts call.req →
      p.KeepsAwaited call.req) : v.Waits taken := by
  cases touches with
  | same => exact h
  | store call received accepts =>
      refine ⟨h.fresh, h.held_lt, h.taken_lt, fun wt hwt k w hw notify => ?_, h.taken⟩
      obtain ⟨rfl, old⟩ := h.held wt hwt k w hw notify
      refine ⟨rfl, fun above e he => ?_⟩
      have he : (p.node.storeEntries call.req).log[wt.index]? = some e := he
      rw [Node.getElem?_storeEntries accepts.lt] at he
      split at he
      · exact old above e he
      · rename_i behind
        have found : p.node.proposals.lookup wt.index = some w := hw
        obtain ⟨e', he', rfl⟩ := Option.map_eq_some_iff.mp he
        exact keeps call received accepts accepts wt hwt above (by rw [found, ← notify]; rfl)
          (Nat.not_le.mp behind) e' he'
  | propose cmd => exact h.propose cmd
  | begin l₁ l₂ d task => exact h.frame rfl (List.Subset.refl _) rfl rfl fun _ _ hw => hw
  | move l₁ l₂ d phase phase' task inside further =>
      exact h.frame rfl (List.Subset.refl _) rfl rfl fun _ _ hw => hw
  | finish l₁ l₂ d task =>
      refine h.frame rfl (List.Subset.refl _) rfl rfl fun k w hw => ?_
      have hw : (p.node.finishApply d).1.proposals.lookup k = some w := hw
      unfold Node.finishApply at hw
      split at hw
      · exact hw
      · exact GoMap.of_lookup_erase hw
  | wake k w waits ready => exact h.frame rfl List.eraseIdx_subset rfl rfl fun _ _ hw => hw
  | cancel k w waits =>
      exact h.frame rfl List.eraseIdx_subset rfl rfl fun _ _ hw => GoMap.of_lookup_erase hw

/-- The waiter found with an entry that is taken waits for that entry. -/
theorem View.Waits.pop {d : Delivery} (h : v.Waits taken) (pops : v.Pops d v') :
    v'.Waits (Function.update taken d.index (some d)) := by
  obtain ⟨index, entry, prop, rfl⟩ := pops
  have cases {k : Nat} {d' : Delivery}
      (hd : Function.update taken d.index (some d) k = some d') :
      (k = d.index ∧ d' = d) ∨ taken k = some d' := by
    by_cases hk : k = d.index
    · subst hk
      rw [Function.update_self] at hd
      exact .inl ⟨rfl, (Option.some.inj hd).symm⟩
    · rw [Function.update_of_ne hk] at hd
      exact .inr hd
  refine ⟨h.fresh, h.held_lt, fun k d' w hd hw => ?_, fun wt hwt k w hw notify => ?_,
    fun wt hwt k d' w hd hw notify => ?_⟩
  · rcases cases hd with ⟨rfl, rfl⟩ | hd
    · exact h.held_lt _ w (prop.symm.trans hw)
    · exact h.taken_lt k d' w hd hw
  · obtain ⟨index', agrees⟩ := h.held wt hwt k w hw notify
    exact ⟨index', fun above => agrees (Nat.lt_of_succ_lt above)⟩
  · rcases cases hd with ⟨rfl, rfl⟩ | hd
    · obtain ⟨index', agrees⟩ := h.held wt hwt _ w (prop.symm.trans hw) notify
      exact ⟨index', agrees (by omega) _ entry⟩
    · exact h.taken wt hwt k d' w hd hw notify

end Step

/-- In every run in which no accepted request replaces an entry whose `Propose` call
still waits, a call that returns nil was for the entry that the node applied at its
index. -/
theorem propose_sound {S : Setup} {past : List (Sys × Action)} {σ : Sys}
    (run : Run S past σ) (meets : Meets (OnDelivery S Proc.KeepsAwaited) past)
    (i : String) (k : Nat) (e : Entry) (returned : .proposeNil i k e ∈ σ.events) :
    (∃ e', .applyBegin i k e' ∈ σ.events) ∧
      ∀ e', .applyBegin i k e' ∈ σ.events → e'.term = e.term ∧ e'.command = e.command := by
  obtain ⟨taken, hands, _⟩ : ∃ taken, (σ.procs i).view.Hands (σ.eventsOf i) taken ∧
      (σ.procs i).view.Waits taken := by
    refine Run.view_invariant
      (I := fun v events => ∃ taken, v.Hands events taken ∧ v.Waits taken) ?_ ?_ run meets i
    · refine fun i => ⟨fun _ => none, ⟨?_, ?_, ?_, ?_, ?_, ?_⟩, ⟨?_, ?_, ?_, ?_, ?_⟩⟩ <;>
        simp [Setup.start, Setup.startProc, Proc.view, Proc.applies, newNode]
    · rintro σ a σ' i m o ok acted ⟨taken, hands, waits⟩
      obtain ⟨v, touches, popped⟩ := acted.shows
      have hands := hands.touch waits touches
      have waits := waits.touch touches fun call hm accepts => by
        obtain ⟨k, rfl, hk, hi⟩ : Feeds S σ a i (.message (.appendCall call)) := hm ▸ acted.feeds
        exact ok.at hk hi accepts.1
      rcases popped with view | ⟨_, d, pops, _⟩
      · exact view ▸ ⟨taken, hands, waits⟩
      · exact ⟨_, hands.pop pops, waits.pop pops⟩
  have id : (σ.procs i).view.id = i := (Setup.identity run i).1
  have mine {event : Event} (node : event.node = i) (h : event ∈ σ.events) :
      event ∈ σ.eventsOf i := List.mem_filter.mpr ⟨h, by simpa using node⟩
  obtain ⟨d, hd, agrees, begun⟩ := hands.answered k e (id.symm ▸ mine rfl returned)
  refine ⟨⟨d.entry, (List.mem_filter.mp (id ▸ begun)).1⟩, fun e' begun' => ?_⟩
  obtain ⟨d', hd', rfl⟩ := hands.given k e' (id.symm ▸ mine rfl begun')
  obtain rfl := Option.some.inj (hd.symm.trans hd')
  exact agrees

theorem propose_sound_commit :
    ∃ past σ, Run trio past σ ∧ .proposeNil "a" 1 ⟨1, 1, join "d" "d:1"⟩ ∈ σ.events ∧
      ∀ e, .applyBegin "a" 1 e ∈ σ.events → e.term = 1 ∧ e.command = join "d" "d:1" := by
  obtain ⟨past, σ, run, check⟩ := Run.of_actions trio
    (commitA (join "d" "d:1") ++ [.wake "a" 0])
    (fun past σ => decide (Meets (OnDelivery trio Proc.KeepsAwaited) past ∧
      .proposeNil "a" 1 ⟨1, 1, join "d" "d:1"⟩ ∈ σ.events)) (by decide +kernel)
  obtain ⟨meets, returned⟩ := of_decide_eq_true check
  exact ⟨past, σ, run, returned, (propose_sound run meets "a" 1 _ returned).2⟩

/-- The call of the client of a is told of the entry of c that replaced its own: it
returns nil, and a has applied nothing but the entry of c. -/
theorem propose_sound_overwritten :
    ∃ past σ, Run trio past σ ∧ σ.eventsOf "a" =
      [.proposeNil "a" 1 ⟨1, 1, join "d" "d:1"⟩, .applyEnd "a" 1,
        .applyBegin "a" 1 ⟨2, 1, join "e" "e:1"⟩] := by
  obtain ⟨past, σ, run, check⟩ := Run.of_actions trio
    (overwriteA (join "d" "d:1") (join "e" "e:1") ++
      [.deliver 12, .resume "a" 0, .resume "a" 0, .resume "a" 0, .wake "a" 0])
    (fun _ σ => decide (σ.eventsOf "a" =
      [.proposeNil "a" 1 ⟨1, 1, join "d" "d:1"⟩, .applyEnd "a" 1,
        .applyBegin "a" 1 ⟨2, 1, join "e" "e:1"⟩])) (by decide +kernel)
  exact ⟨past, σ, run, of_decide_eq_true check⟩

end DistributedCache.Raft
