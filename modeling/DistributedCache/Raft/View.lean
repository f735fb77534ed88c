import DistributedCache.Raft.Frames
import DistributedCache.Raft.NodeSteps

/-!
The apply loop and the waiting `Propose` calls of one process, apart from the
rest of it. `View` is the part of a process they depend on, and `Touches` lists
what a handler can do to that part. A handler that reaches the apply loop may
take one entry after that, which `View.Pops` describes.
-/
namespace DistributedCache.Raft

open Node (Delivery)

/-- The entry a goroutine is applying, and how far it has come. -/
def Task.delivery? : Task → Option (Delivery × Phase)
  | .applying d phase _ => some (d, phase)
  | _ => none

def Proc.applies (p : Proc) : List (Delivery × Phase) :=
  p.tasks.filterMap Task.delivery?

structure View where
  id : String
  log : List Entry
  lastApplied : Nat
  proposals : GoMap Nat Proposal
  channels : Nat
  applies : List (Delivery × Phase)
  waiting : List Waiting
  ready : List Nat

def Proc.view (p : Proc) : View where
  id := p.node.id
  log := p.node.log
  lastApplied := p.node.lastApplied
  proposals := p.node.proposals
  channels := p.node.channels
  applies := p.applies
  waiting := p.waiting
  ready := p.ready

/-- The apply loop takes the entry behind `lastApplied`. -/
structure View.Pops (v : View) (d : Delivery) (v' : View) : Prop where
  index : d.index = v.lastApplied + 1
  entry : v.log[d.index]? = some d.entry
  prop : d.prop = v.proposals.lookup d.index
  view : v' = { v with
    lastApplied := v.lastApplied + 1, applies := v.applies ++ [(d, .pending)] }

/-- What handling `m` does to the view before the apply loop, and what it shows outside. -/
inductive Touches (p : Proc) (m : Input) : List Event → View → Prop
  | same : Touches p m [] p.view
  | store (call : Call AppendEntriesRequest) (received : m = .message (.appendCall call))
      (accepts : p.node.Accepts call.req) :
      Touches p m [] { p.view with log := (p.node.storeEntries call.req).log }
  | propose (cmd : Command) : Touches p m [] (p.proposed cmd).view
  | begin (l₁ l₂ : List (Delivery × Phase)) (d : Delivery)
      (task : p.applies = l₁ ++ (d, .pending) :: l₂) :
      Touches p m [.applyBegin p.node.id d.index d.entry]
        { p.view with applies := l₁ ++ (d, .running) :: l₂ }
  | move (l₁ l₂ : List (Delivery × Phase)) (d : Delivery) (phase phase' : Phase)
      (task : p.applies = l₁ ++ (d, phase) :: l₂)
      (inside : phase ≠ .pending ∧ phase ≠ .returned) (further : phase' ≠ .pending) :
      Touches p m (if phase' = .returned then [.applyEnd p.node.id d.index] else [])
        { p.view with applies := l₁ ++ (d, phase') :: l₂ }
  | finish (l₁ l₂ : List (Delivery × Phase)) (d : Delivery)
      (task : p.applies = l₁ ++ (d, .returned) :: l₂) :
      Touches p m [] { p.view with
        applies := l₁ ++ l₂
        proposals := (p.node.finishApply d).1.proposals
        ready := p.ready ++ (p.node.finishApply d).2.toList }
  | wake (k : Nat) (w : Waiting) (waits : p.waiting[k]? = some w) (ready : w.notify ∈ p.ready) :
      Touches p m [.proposeNil p.node.id w.index w.entry] { p.view with
        waiting := p.waiting.eraseIdx k, ready := p.ready.erase w.notify }
  | cancel (k : Nat) (w : Waiting) (waits : p.waiting[k]? = some w) :
      Touches p m [] { p.view with
        waiting := p.waiting.eraseIdx k, proposals := p.node.proposals.erase w.index }

/-- The node as the apply loop finds it, where handling `m` enters the loop or, after a
callback, comes back to it. -/
def Proc.loopHead (p : Proc) (m : Input) : Option Node :=
  match m with
  | .message (.appendCall call) =>
      match p.node.handleAppendEntries call.req with
      | .ok (n, .committed) => some n
      | _ => none
  | .message (.appendReply call resp) =>
      match p.node.handleAppendResponse call.peerID call.req resp with
      | .ok (n, .apply) => some n
      | _ => none
  | .act (.propose _ cmd) =>
      if p.node.role = .leader ∧ p.node.peerAddrsLocked = [] then
        some { (p.proposed cmd).node with commitIndex := p.node.log.length }
      else none
  | .act (.resume _ k) =>
      match p.tasks[k]? with
      | some (.applying d .returned _) => some (p.finished k d).node
      | _ => none
  | _ => none

/-- Handling `m` reaches the apply loop with an entry left to apply. -/
def Proc.Takes (p : Proc) (m : Input) : Prop :=
  ∃ n ∈ p.loopHead m, n.lastApplied < n.commitIndex

instance (p : Proc) (m : Input) : Decidable (p.Takes m) :=
  inferInstanceAs (Decidable (∃ n ∈ p.loopHead m, n.lastApplied < n.commitIndex))

/-- A whole handler: the view `v` is the one the apply loop is reached with. -/
def Proc.Shows (p : Proc) (m : Input) (o : Out) (v : View) : Prop :=
  Touches p m o.events v ∧ (o.proc.view = v ∨
    p.Takes m ∧ ∃ d, v.Pops d o.proc.view ∧ d.index ≤ o.proc.node.commitIndex)

section Tasks

theorem split_at {α : Type} {l : List α} {k : Nat} {x : α} (h : l[k]? = some x) :
    ∃ l₁ l₂, l = l₁ ++ x :: l₂ ∧ l.eraseIdx k = l₁ ++ l₂ ∧ ∀ y, l.set k y = l₁ ++ y :: l₂ := by
  induction l generalizing k with
  | nil => simp at h
  | cons a l ih =>
      cases k with
      | zero =>
          obtain rfl : a = x := by simpa using h
          exact ⟨[], l, rfl, rfl, fun _ => rfl⟩
      | succ k =>
          obtain ⟨l₁, l₂, hl, erase, set⟩ := ih (by simpa using h)
          exact ⟨a :: l₁, l₂, by rw [hl]; rfl, by rw [List.eraseIdx_cons_succ, erase]; rfl,
            fun y => by rw [List.set_cons_succ, set]; rfl⟩

variable {p : Proc} {k : Nat}

/-- Ending a goroutine that applies nothing. -/
theorem applies_eraseIdx {task : Task} (h : p.tasks[k]? = some task)
    (none : task.delivery? = none) : (p.tasks.eraseIdx k).filterMap Task.delivery? = p.applies := by
  obtain ⟨l₁, l₂, hl, erase, _⟩ := split_at h
  rw [erase, Proc.applies, hl]
  simp [none]

theorem applies_split {d : Delivery} {phase : Phase} {c : Cont}
    (h : p.tasks[k]? = some (.applying d phase c)) :
    ∃ l₁ l₂, p.applies = l₁ ++ (d, phase) :: l₂ ∧
      (p.tasks.eraseIdx k).filterMap Task.delivery? = l₁ ++ l₂ ∧
      ∀ phase' c', (p.tasks.set k (.applying d phase' c')).filterMap Task.delivery? =
        l₁ ++ (d, phase') :: l₂ := by
  obtain ⟨l₁, l₂, hl, erase, set⟩ := split_at h
  refine ⟨l₁.filterMap Task.delivery?, l₂.filterMap Task.delivery?, ?_, ?_, fun phase' c' => ?_⟩
  · rw [Proc.applies, hl]
    simp [Task.delivery?]
  · rw [erase, List.filterMap_append]
  · rw [set]
    simp [Task.delivery?]

end Tasks

section Handlers

variable {membership : Bool} {p p' : Proc} {m : Input} {o : Out}

theorem Node.Aside.view_eq (h : p.node.Aside p'.node) (tasks : p'.applies = p.applies)
    (waiting : p'.waiting = p.waiting) (ready : p'.ready = p.ready) : p'.view = p.view := by
  simp only [Proc.view, h.id, h.log, h.applied, h.proposals, h.channels, tasks, waiting, ready]

theorem Touches.of_view (view : p'.view = p.view) : Touches p m [] p'.view :=
  view ▸ .same

/-- The apply loop takes an entry, or the goroutine goes on without one. -/
theorem Proc.Shows.of_applyCommitted {c : Cont} (h : p'.applyCommitted c = .ok o)
    (head : p.loopHead m = some p'.node) (touches : Touches p m [] p'.view) :
    p.Shows m o p'.view := by
  rcases Proc.applyCommitted_ok h with ⟨n, d, hpop, rfl⟩ | ⟨_, hres⟩
  · obtain ⟨older, rfl, index, entry, prop⟩ := Node.popCommitted_ok hpop
    refine ⟨touches, .inr ⟨⟨p'.node, head, older⟩, d, ⟨index, ?_, ?_, ?_⟩, ?_⟩⟩
    · rw [index]
      exact entry
    · rw [index]
      exact prop
    · simp [Proc.view, Proc.applies, Task.delivery?]
    · rw [index]
      exact older
  · rcases Proc.resumeCont_ok hres with ⟨_, rfl⟩ | ⟨call, _, rfl⟩ | ⟨_, n, calls, hrep, rfl⟩
    · exact ⟨touches, .inl rfl⟩
    · exact ⟨touches, .inl rfl⟩
    · exact ⟨touches, .inl ((Node.Still.of_replicateLocked hrep).view_eq rfl rfl rfl)⟩

theorem Proc.Shows.of_touches {events : List Event} {sent : List Msg} {v : View}
    (touches : Touches p m events v) (view : p'.view = v) :
    p.Shows m ⟨p', sent, events⟩ v :=
  ⟨touches, .inl view⟩

/-- A step inside a callback: the node may change, but not what the view shows. -/
theorem Proc.Shows.of_phase (p' : Proc) {k : Nat} {d : Delivery} {phase : Phase}
    (phase' : Phase) {c : Cont} (task : p.tasks[k]? = some (.applying d phase c))
    (inside : phase ≠ .pending ∧ phase ≠ .returned) (further : phase' ≠ .pending)
    (view : p'.view = p.view) (tasks : p'.tasks = p.tasks) (sent : List Msg) :
    ∃ v, p.Shows m ⟨(p'.toPhase k d phase' c).proc, sent, (p'.toPhase k d phase' c).events⟩ v := by
  obtain ⟨l₁, l₂, before, _, after⟩ := applies_split task
  have id : p'.node.id = p.node.id := congrArg View.id view
  refine ⟨_, ?_, .inl rfl⟩
  have moved : (p'.toPhase k d phase' c).proc.view =
      { p.view with applies := l₁ ++ (d, phase') :: l₂ } := by
    rw [← view, ← after phase' c, ← tasks]
    rfl
  have events : (p'.toPhase k d phase' c).events =
      if phase' = .returned then [.applyEnd p.node.id d.index] else [] := by
    rw [← id]
    rfl
  rw [moved, events]
  exact .move l₁ l₂ d phase phase' before inside further

theorem Touches.of_handleAppendEntries {call : Call AppendEntriesRequest} {n : Node}
    {status : Node.AppendStatus} (h : p.node.handleAppendEntries call.req = .ok (n, status)) :
    Touches p (.message (.appendCall call)) [] (Proc.view { p with node := n }) := by
  have still := Node.Still.of_observeLeader p.node call.req
  have stored (commitIndex : Nat) : Proc.view { p with node :=
      { (p.node.observeLeader call.req).storeEntries call.req with commitIndex } } =
      { p.view with log := (p.node.storeEntries call.req).log } := by
    rw [← Node.storeEntries_observeLeader, Proc.view, Proc.view]
    congr 1
    · exact still.id
    · exact still.applied
    · exact still.proposals
    · exact still.channels
  rcases Node.handleAppendEntries_ok h with
    ⟨_, rfl, _⟩ | ⟨_, rfl, _⟩ | ⟨accepts, rfl, _⟩ | ⟨accepts, _, _, rfl⟩
  · exact .same
  · exact .of_view (still.view_eq rfl rfl rfl)
  · rw [stored]
    exact .store call rfl accepts
  · rw [stored]
    exact .store call rfl accepts

/-- What every handler does to callbacks and waiting calls. -/
theorem Handles.shows (h : Handles membership p m o) : ∃ v, p.Shows m o v := by
  have same {p' : Proc} {sent : List Msg} (still : p.node.Still p'.node)
      (tasks : p'.applies = p.applies) (waiting : p'.waiting = p.waiting)
      (ready : p'.ready = p.ready) : ∃ v, p.Shows m ⟨p', sent, []⟩ v :=
    ⟨_, .of_touches .same (still.view_eq tasks waiting ready)⟩
  cases h with
  | standAlone n el idle h alone =>
      exact same (.of_startElectionLocked h) (by simp [Proc.applies, Task.delivery?]) rfl rfl
  | stand n el idle h peers => exact same (.of_startElectionLocked h) rfl rfl rfl
  | heartbeat n calls leads h => exact same (.of_replicateLocked h) rfl rfl rfl
  | refuse => exact ⟨_, .of_touches .same rfl⟩
  | proposeAlone cmd o leads alone h =>
      exact ⟨_, .of_applyCommitted h (by simp [Proc.loopHead, leads, alone]) (.propose cmd)⟩
  | propose cmd n calls leads peers h =>
      exact ⟨_, .of_touches (.propose cmd)
        ((Node.Still.of_replicateLocked h).view_eq rfl rfl rfl)⟩
  | vote call n resp h => exact same (.of_handleRequestVote h) rfl rfl rfl
  | outvoted call resp newer => exact same ⟨⟨rfl, rfl, rfl, rfl, rfl⟩, rfl⟩ rfl rfl rfl
  | granted call resp granted =>
      exact same ⟨⟨rfl, rfl, rfl, rfl, rfl⟩, rfl⟩ (by simp [Proc.applies, Task.delivery?]) rfl rfl
  | denied call resp => exact ⟨_, .of_touches .same rfl⟩
  | rejected call n h => exact ⟨_, .of_touches (.of_handleAppendEntries h) rfl⟩
  | stored call n h => exact ⟨_, .of_touches (.of_handleAppendEntries h) rfl⟩
  | committed call n o h apply =>
      exact ⟨_, .of_applyCommitted apply (by simp [Proc.loopHead, h]) (.of_handleAppendEntries h)⟩
  | answered call resp n calls h => exact same (.of_handleAppendResponse h) rfl rfl rfl
  | acknowledged call resp n o h apply =>
      exact ⟨_, .of_applyCommitted apply (by simp [Proc.loopHead, h])
        (.of_view ((Node.Still.of_handleAppendResponse h).view_eq rfl rfl rfl))⟩
  | win k term n calls task h =>
      refine same (.of_winElection h) ?_ rfl rfl
      rcases task with task | task
      · exact applies_eraseIdx task rfl
      · exact applies_eraseIdx task rfl
  | count k term peerID e task election few =>
      exact same ⟨⟨rfl, rfl, rfl, rfl, rfl⟩, rfl⟩ (applies_eraseIdx task rfl) rfl rfl
  | countLast k term peerID e task election enough =>
      refine same ⟨⟨rfl, rfl, rfl, rfl, rfl⟩, rfl⟩ ?_ rfl rfl
      rw [← applies_eraseIdx task rfl]
      simp [Proc.applies, Proc.counted, Task.delivery?]
  | begin k d c task =>
      obtain ⟨l₁, l₂, before, _, after⟩ := applies_split task
      refine ⟨_, .of_touches (.begin l₁ l₂ d before) ?_⟩
      rw [← after .running c]
      rfl
  | run k d c task =>
      have node := Proc.afterCallback_node membership p d.entry.command
      obtain ⟨tasks, waiting, ready, further⟩ :
          (p.afterCallback membership d.entry.command).1.tasks = p.tasks ∧
          (p.afterCallback membership d.entry.command).1.waiting = p.waiting ∧
          (p.afterCallback membership d.entry.command).1.ready = p.ready ∧
          (p.afterCallback membership d.entry.command).2 ≠ .pending := by
        obtain ⟨ring, same, further⟩ := p.afterCallback_ring membership d.entry.command
        rw [same]
        exact ⟨rfl, rfl, rfl, further⟩
      refine Proc.Shows.of_phase _ _ task (by simp) further ?_ tasks []
      refine Node.Aside.view_eq ?_ ?_ waiting ready
      · rw [node]
        exact ⟨rfl, rfl, rfl, rfl, rfl⟩
      · rw [Proc.applies, tasks, Proc.applies]
  | addPeer k d c task =>
      refine Proc.Shows.of_phase { p with node := (p.node.addPeer _ _).1 } _ task (by simp) ?_
        ((Node.Aside.of_addPeer _ _ _).view_eq rfl rfl rfl) rfl []
      split <;> simp
  | replicate k d c n calls task h =>
      exact Proc.Shows.of_phase { p with node := n } .returned task (by simp) (by simp)
        ((Node.Still.of_replicateLocked h).view_eq rfl rfl rfl) rfl _
  | removePeer k d c task =>
      exact Proc.Shows.of_phase { p with node := p.node.removePeer _ } .returned task (by simp)
        (by simp) rfl rfl []
  | finish k d c o task h =>
      obtain ⟨l₁, l₂, before, after, _⟩ := applies_split task
      refine ⟨_, .of_applyCommitted h (by simp [Proc.loopHead, task]) ?_⟩
      have view : (p.finished k d).view = { p.view with
          applies := l₁ ++ l₂
          proposals := (p.node.finishApply d).1.proposals
          ready := p.ready ++ (p.node.finishApply d).2.toList } := by
        rw [← after]
        simp only [Proc.finished, Proc.view, Proc.applies, Node.finishApply]
        split <;> rfl
      rw [view]
      exact .finish l₁ l₂ d before
  | wake k w waits ready => exact ⟨_, .of_touches (.wake k w waits ready) rfl⟩
  | cancel k w waits => exact ⟨_, .of_touches (.cancel k w waits) rfl⟩

end Handlers

section Deliveries

variable {p : Proc} {m : Input} {events : List Event} {v : View}

/-- What a handler is applying before the loop, it was applying already. -/
theorem Touches.delivery (h : Touches p m events v) :
    ∀ x ∈ v.applies, ∃ y ∈ p.applies, x.1 = y.1 := by
  have same : ∀ x ∈ p.applies, ∃ y ∈ p.applies, x.1 = y.1 := fun x hx => ⟨x, hx, rfl⟩
  have moved {l₁ l₂ : List (Delivery × Phase)} {d : Delivery} {phase phase' : Phase}
      (task : p.applies = l₁ ++ (d, phase) :: l₂) :
      ∀ x ∈ l₁ ++ (d, phase') :: l₂, ∃ y ∈ p.applies, x.1 = y.1 := by
    intro x hx
    by_cases here : x = (d, phase')
    · exact ⟨(d, phase), by simp [task], by rw [here]⟩
    · refine ⟨x, ?_, rfl⟩
      simp only [task, List.mem_append, List.mem_cons, here, false_or] at hx ⊢
      tauto
  cases h with
  | begin l₁ l₂ d task => exact moved task
  | move l₁ l₂ d phase phase' task inside further => exact moved task
  | finish l₁ l₂ d task =>
      intro x hx
      refine ⟨x, ?_, rfl⟩
      simp only [task, List.mem_append, List.mem_cons] at hx ⊢
      tauto
  | _ => exact same

theorem Touches.begins (h : Touches p m events v) {j : String} {k : Nat} {e : Entry}
    (begun : .applyBegin j k e ∈ events) :
    ∃ x ∈ p.applies, x.1.index = k ∧ x.1.entry = e := by
  cases h with
  | begin l₁ l₂ d task =>
      obtain ⟨_, rfl, rfl⟩ := Event.applyBegin.inj (List.mem_singleton.mp begun)
      exact ⟨(d, .pending), by simp [task], rfl, rfl⟩
  | move l₁ l₂ d phase phase' task inside further =>
      split at begun <;> simp at begun
  | _ => simp at begun

end Deliveries

end DistributedCache.Raft
