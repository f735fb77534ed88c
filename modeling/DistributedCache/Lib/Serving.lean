import DistributedCache.Lib.Framing
import DistributedCache.Lib.Transition

/-!
Serving the requests that arrive on a stream.

A handler decodes a request from what has arrived, has it answered, writes the answer and
reads on, until the stream ends, cannot be decoded or fails. Bytes arrive at any time and in
pieces of any size. The decoder has to be steady: what it makes of the bytes that are there
does not change when more arrive, unless it has failed for the lack of them. Which requests
are answered and what is written then depends on the bytes alone and not on the pieces.
-/
namespace Serving

open Framing Transition

variable {γ ε α β : Type}

/-- More bytes behind a stream change nothing, but for the errors of a stream that is too
short. -/
structure Steady (starved : ε → Bool) (x : Decoder γ ε α) : Prop where
  ok : ∀ {s a rest}, x.run s = .ok (a, rest) → ∀ more, x.run (s ++ more) = .ok (a, rest ++ more)
  error : ∀ {s e}, x.run s = .error e → starved e = false → ∀ more, x.run (s ++ more) = .error e

section Steady

variable {starved : ε → Bool} {x y : Decoder γ ε α} {f : α → Decoder γ ε β}

theorem steady_pure (a : α) : Steady starved (pure a : Decoder γ ε α) where
  ok := by
    intro s b rest h more
    cases h
    rfl
  error := by
    intro s e h
    cases h

theorem steady_throw (e : ε) : Steady starved (throw e : Decoder γ ε α) where
  ok := by
    intro s a rest h
    cases h
  error := by
    intro s e' h _ more
    cases h
    rfl

theorem Steady.bind (first : Steady starved x) (later : ∀ a, Steady starved (f a)) :
    Steady starved (x >>= f) where
  ok := by
    intro s b rest h more
    obtain ⟨a, mid, step, next⟩ := run_bind_eq_ok h
    rw [run_bind (first.ok step more)]
    exact (later a).ok next more
  error := by
    intro s e h fed more
    cases step : x.run s with
    | error e' =>
        rw [run_bind_error step] at h
        cases h
        exact run_bind_error (first.error step fed more)
    | ok p =>
        rw [run_bind step] at h
        rw [run_bind (first.ok step more)]
        exact (later p.1).error h fed more

theorem steady_ite {c : Prop} [Decidable c] (yes : Steady starved x) (no : Steady starved y) :
    Steady starved (if c then x else y) := by
  split
  · exact yes
  · exact no

end Steady

/-- What a handler needs to know of its protocol. -/
structure Service (γ ε α β : Type) where
  decode : Decoder γ ε α
  encode : β → List γ
  /-- The errors of a stream that is too short. -/
  starved : ε → Bool
  /-- The last answer on a stream that cannot be decoded, if there is one. -/
  complaint : ε → Option β

inductive Phase (α β : Type)
  | reading
  | handling (request : α)
  | writing (response : β)
  /-- Writing the last answer. -/
  | parting (response : β)
  | closed
  deriving DecidableEq

/-- A request that has been read and not been answered yet. -/
def Phase.pending : Phase α β → List α
  | .handling request => [request]
  | .reading | .writing _ | .parting _ | .closed => []

/-- A connection: what has arrived and has not been read, whether more can arrive, what has
been written, and where the handler stands. -/
structure Conn (γ α β : Type) where
  inbox : List γ := []
  ended : Bool := false
  outbox : List γ := []
  phase : Phase α β := .reading

inductive Event (γ β : Type)
  | arrive (bytes : List γ)
  /-- The peer sends nothing more. -/
  | hangUp
  | read
  /-- The deadline of a read passes. -/
  | expire
  | answer (response : β)
  | write
  /-- A write fails when some of its bytes are out. -/
  | fail (count : Nat)

namespace Conn

/-- A read waits while it lacks bytes that may still arrive. -/
def read (svc : Service γ ε α β) (c : Conn γ α β) : Except Unit (Conn γ α β) :=
  match svc.decode.run c.inbox with
  | .ok (request, rest) => .ok { c with inbox := rest, phase := .handling request }
  | .error e =>
      if svc.starved e && !c.ended then .error ()
      else match svc.complaint e with
        | some response => .ok { c with phase := .parting response }
        | none => .ok { c with phase := .closed }

def exec (svc : Service γ ε α β) (c : Conn γ α β) (event : Event γ β) :
    Except Unit (Conn γ α β) :=
  match event, c.phase with
  | .arrive bytes, _ =>
      if c.ended then .error () else .ok { c with inbox := c.inbox ++ bytes }
  | .hangUp, _ => .ok { c with ended := true }
  | .read, .reading => c.read svc
  | .expire, .reading => .ok { c with phase := .closed }
  | .answer response, .handling _ => .ok { c with phase := .writing response }
  | .write, .writing response =>
      .ok { c with outbox := c.outbox ++ svc.encode response, phase := .reading }
  | .write, .parting response =>
      .ok { c with outbox := c.outbox ++ svc.encode response, phase := .closed }
  | .fail count, .writing response | .fail count, .parting response =>
      .ok { c with outbox := c.outbox ++ (svc.encode response).take count, phase := .closed }
  | _, _ => .error ()

/-- The decoder has failed on what is there, for good. -/
def Stuck (svc : Service γ ε α β) (c : Conn γ α β) (e : ε) : Prop :=
  svc.decode.run c.inbox = .error e ∧ (svc.starved e = true → c.ended = true)

/-- What a step can be. -/
inductive Steps (svc : Service γ ε α β) (c : Conn γ α β) : Event γ β → Conn γ α β → Prop
  | arrive {bytes : List γ} (more : c.ended = false) :
      Steps svc c (.arrive bytes) { c with inbox := c.inbox ++ bytes }
  | hangUp : Steps svc c .hangUp { c with ended := true }
  | read {request : α} {rest : List γ} (reading : c.phase = .reading)
      (decoded : svc.decode.run c.inbox = .ok (request, rest)) :
      Steps svc c .read { c with inbox := rest, phase := .handling request }
  | complain {e : ε} {response : β} (reading : c.phase = .reading) (stuck : c.Stuck svc e)
      (complaint : svc.complaint e = some response) :
      Steps svc c .read { c with phase := .parting response }
  | leave {e : ε} (reading : c.phase = .reading) (stuck : c.Stuck svc e)
      (complaint : svc.complaint e = none) :
      Steps svc c .read { c with phase := .closed }
  | expire (reading : c.phase = .reading) : Steps svc c .expire { c with phase := .closed }
  | answer {request : α} {response : β} (handling : c.phase = .handling request) :
      Steps svc c (.answer response) { c with phase := .writing response }
  | write {response : β} (writing : c.phase = .writing response) :
      Steps svc c .write
        { c with outbox := c.outbox ++ svc.encode response, phase := .reading }
  | part {response : β} (parting : c.phase = .parting response) :
      Steps svc c .write
        { c with outbox := c.outbox ++ svc.encode response, phase := .closed }
  | fail {response : β} {count : Nat}
      (busy : c.phase = .writing response ∨ c.phase = .parting response) :
      Steps svc c (.fail count)
        { c with outbox := c.outbox ++ (svc.encode response).take count, phase := .closed }

variable {svc : Service γ ε α β} {c c' : Conn γ α β} {event : Event γ β}

theorem steps_read (reading : c.phase = .reading) (h : c.read svc = .ok c') :
    Steps svc c .read c' := by
  unfold Conn.read at h
  split at h
  · rename_i request rest decoded
    cases h
    exact .read reading decoded
  · rename_i e failed
    split at h
    · cases h
    · rename_i ends
      have stuck : c.Stuck svc e := by
        refine ⟨failed, fun short => ?_⟩
        simpa [short] using ends
      split at h
      · rename_i response complaint
        cases h
        exact .complain reading stuck complaint
      · rename_i complaint
        cases h
        exact .leave reading stuck complaint

theorem steps_of_exec (h : c.exec svc event = .ok c') : Steps svc c event c' := by
  unfold exec at h
  split at h
  · split at h
    · cases h
    · rename_i more
      cases h
      exact .arrive (Bool.eq_false_iff.mpr more)
  · cases h
    exact .hangUp
  · rename_i reading
    exact steps_read reading h
  · rename_i reading
    cases h
    exact .expire reading
  · rename_i handling
    cases h
    exact .answer handling
  · rename_i writing
    cases h
    exact .write writing
  · rename_i parting
    cases h
    exact .part parting
  · rename_i writing
    cases h
    exact .fail (.inl writing)
  · rename_i parting
    cases h
    exact .fail (.inr parting)
  · cases h

end Conn

/-- All runs of one connection. -/
abbrev Connected (svc : Service γ ε α β) (past : List (Conn γ α β × Event γ β))
    (c : Conn γ α β) : Prop :=
  Run (ofExec (· = {}) (Conn.exec svc)) past c

theorem Connected.of_events (svc : Service γ ε α β) (events : List (Event γ β))
    (check : List (Conn γ α β × Event γ β) → Conn γ α β → Bool)
    (h : (trace (Conn.exec svc) [] {} events).any (fun r => check r.1 r.2) = true) :
    ∃ past c, Connected svc past c ∧ check past c = true :=
  Run.of_trace (· = {}) rfl events check h

section Past

def Event.bytes : Event γ β → List γ
  | .arrive bytes => bytes
  | .hangUp | .read | .expire | .answer _ | .write | .fail _ => []

/-- All bytes that have arrived. -/
def received (past : List (Conn γ α β × Event γ β)) : List γ :=
  past.reverse.flatMap fun x => x.2.bytes

def exchange (x : Conn γ α β × Event γ β) : Option (α × β) :=
  match x.1.phase, x.2 with
  | .handling request, .answer response => some (request, response)
  | _, _ => none

/-- The requests that have been answered with their answers, in order. -/
def exchanged (past : List (Conn γ α β × Event γ β)) : List (α × β) :=
  past.reverse.filterMap exchange

/-- No deadline passes and no write fails. -/
def Smooth (_ : Conn γ α β) : Event γ β → Prop
  | .expire | .fail _ => False
  | .arrive _ | .hangUp | .read | .answer _ | .write => True

instance (c : Conn γ α β) (event : Event γ β) : Decidable (Smooth c event) :=
  match event with
  | .expire | .fail _ => isFalse id
  | .arrive _ | .hangUp | .read | .answer _ | .write => isTrue trivial

variable {past : List (Conn γ α β × Event γ β)} {c : Conn γ α β} {event : Event γ β}

theorem received_cons : received ((c, event) :: past) = received past ++ event.bytes := by
  simp [received]

theorem exchanged_answer {request : α} {response : β} (handling : c.phase = .handling request) :
    exchanged ((c, Event.answer response) :: past) = exchanged past ++ [(request, response)] := by
  simp [exchanged, exchange, handling]

theorem exchanged_other (other : ∀ response, event ≠ .answer response) :
    exchanged ((c, event) :: past) = exchanged past := by
  have none : exchange (c, event) = none := by
    unfold exchange
    split
    · rename_i response _ same
      exact absurd same (other response)
    · rfl
  simp [exchanged, none]

end Past

section Serves

/-- The bytes of some answers. -/
def Service.written (svc : Service γ ε α β) (pairs : List (α × β)) : List γ :=
  pairs.flatMap fun x => svc.encode x.2

/-- The bytes of the last answer. -/
def Service.farewell (svc : Service γ ε α β) (e : ε) : List γ :=
  match svc.complaint e with
  | some response => svc.encode response
  | none => []

variable {svc : Service γ ε α β} {past : List (Conn γ α β × Event γ β)} {c c' : Conn γ α β}
  {event : Event γ β} {pairs : List (α × β)}

theorem Service.written_concat (svc : Service γ ε α β) (pairs : List (α × β)) (x : α × β) :
    svc.written (pairs ++ [x]) = svc.written pairs ++ svc.encode x.2 := by
  simp [Service.written]

/-- What has been written, by where the handler stands. -/
def Conn.Output (svc : Service γ ε α β) (smooth : Prop) (pairs : List (α × β))
    (c : Conn γ α β) : Prop :=
  match c.phase with
  | .reading | .handling _ => c.outbox = svc.written pairs
  | .writing response => c.outbox ++ svc.encode response = svc.written pairs
  | .parting response => c.outbox = svc.written pairs ∧
      ∃ e, c.Stuck svc e ∧ svc.complaint e = some response
  | .closed => (¬ smooth ∧ c.outbox <+: svc.written pairs) ∨
      ∃ e, c.Stuck svc e ∧ c.outbox <+: svc.written pairs ++ svc.farewell e ∧
        (smooth → c.outbox = svc.written pairs ++ svc.farewell e)

/-- The requests of the stream are the ones answered, the one in hand, and those that are
still to be read, whatever may arrive. -/
structure Serves (svc : Service γ ε α β) (past : List (Conn γ α β × Event γ β))
    (c : Conn γ α β) : Prop where
  stream : ∀ more, decodeAll svc.decode (received past ++ more) =
    ((exchanged past).map Prod.fst ++ c.phase.pending ++
        (decodeAll svc.decode (c.inbox ++ more)).1,
      (decodeAll svc.decode (c.inbox ++ more)).2)
  output : c.Output svc (Meets Smooth past) (exchanged past)

theorem Conn.Stuck.arrive {e : ε} (steady : Steady svc.starved svc.decode)
    (stuck : c.Stuck svc e) (open' : c.ended = false) (bytes : List γ) :
    ({ c with inbox := c.inbox ++ bytes } : Conn γ α β).Stuck svc e := by
  have fed : svc.starved e = false := by
    cases short : svc.starved e with
    | false => rfl
    | true => exact absurd (stuck.2 short) (by simp [open'])
  exact ⟨steady.error stuck.1 fed bytes, stuck.2⟩

theorem Conn.Stuck.hangUp {e : ε} (stuck : c.Stuck svc e) :
    ({ c with ended := true } : Conn γ α β).Stuck svc e :=
  ⟨stuck.1, fun _ => rfl⟩

/-- What happens at the other end changes nothing of what has been written. -/
theorem Conn.Output.keep {smooth smooth' : Prop} (output : c.Output svc smooth pairs)
    (same : smooth' ↔ smooth) (phase : c'.phase = c.phase) (outbox : c'.outbox = c.outbox)
    (stuck : ∀ e, c.Stuck svc e → c'.Stuck svc e) : c'.Output svc smooth' pairs := by
  unfold Conn.Output at output ⊢
  rw [phase, outbox]
  cases at' : c.phase with
  | reading | handling | writing =>
      rw [at'] at output
      exact output
  | parting response =>
      rw [at'] at output
      obtain ⟨whole, e, bad, complaint⟩ := output
      exact ⟨whole, e, stuck e bad, complaint⟩
  | closed =>
      rw [at'] at output
      refine output.imp (fun broken => ⟨mt same.mp broken.1, broken.2⟩) ?_
      rintro ⟨e, bad, front, whole⟩
      exact ⟨e, stuck e bad, front, fun h => whole (same.mp h)⟩

theorem Conn.Output.step (steady : Steady svc.starved svc.decode)
    (output : c.Output svc (Meets Smooth past) (exchanged past))
    (step : Conn.Steps svc c event c') :
    c'.Output svc (Meets Smooth ((c, event) :: past)) (exchanged ((c, event) :: past)) := by
  have smooth : Meets Smooth ((c, event) :: past) ↔ Smooth c event ∧ Meets Smooth past :=
    meets_cons Smooth c event past
  cases step with
  | arrive more =>
      rw [exchanged_other nofun]
      exact output.keep (smooth.trans (iff_of_eq (true_and _))) rfl rfl fun e bad =>
        bad.arrive steady more _
  | hangUp =>
      rw [exchanged_other nofun]
      exact output.keep (smooth.trans (iff_of_eq (true_and _))) rfl rfl fun e bad => bad.hangUp
  | read reading decoded =>
      rw [exchanged_other nofun]
      simpa only [Conn.Output, reading] using output
  | complain reading stuck complaint =>
      rw [exchanged_other nofun]
      simp only [Conn.Output, reading] at output
      exact ⟨output, _, stuck, complaint⟩
  | @leave e reading stuck complaint =>
      rw [exchanged_other nofun]
      simp only [Conn.Output, reading] at output
      have silent : svc.farewell e = [] := by rw [Service.farewell, complaint]
      refine .inr ⟨_, stuck, ?_⟩
      rw [silent, List.append_nil]
      exact ⟨output ▸ List.prefix_refl _, fun _ => output⟩
  | expire reading =>
      rw [exchanged_other nofun]
      simp only [Conn.Output, reading] at output
      exact .inl ⟨fun all => (smooth.mp all).1, output ▸ List.prefix_refl _⟩
  | answer handling =>
      simp only [Conn.Output, handling] at output
      rw [exchanged_answer handling]
      change c.outbox ++ _ = svc.written _
      rw [svc.written_concat, output]
  | write writing =>
      rw [exchanged_other nofun]
      simpa only [Conn.Output, writing] using output
  | @part response parting =>
      rw [exchanged_other nofun]
      simp only [Conn.Output, parting] at output
      obtain ⟨whole, e, stuck, complaint⟩ := output
      have last : svc.farewell e = svc.encode response := by rw [Service.farewell, complaint]
      refine .inr ⟨e, stuck, ?_⟩
      rw [last, ← whole]
      exact ⟨List.prefix_refl _, fun _ => rfl⟩
  | @fail response count busy =>
      rw [exchanged_other nofun]
      have broken : ¬ Meets Smooth ((c, Event.fail count) :: past) := fun all => (smooth.mp all).1
      cases busy with
      | inl writing =>
          simp only [Conn.Output, writing] at output
          refine .inl ⟨broken, ?_⟩
          rw [← output]
          exact (List.prefix_append_right_inj _).mpr (List.take_prefix _ _)
      | inr parting =>
          simp only [Conn.Output, parting] at output
          obtain ⟨whole, e, stuck, complaint⟩ := output
          have last : svc.farewell e = svc.encode response := by rw [Service.farewell, complaint]
          refine .inr ⟨e, stuck, ?_, fun all => absurd all broken⟩
          rw [last, ← whole]
          exact (List.prefix_append_right_inj _).mpr (List.take_prefix _ _)

theorem Serves.step (steady : Steady svc.starved svc.decode) (consumes : Consumes svc.decode)
    (serves : Serves svc past c) (step : Conn.Steps svc c event c') :
    Serves svc ((c, event) :: past) c' := by
  refine ⟨fun more => ?_, serves.output.step steady step⟩
  rw [received_cons]
  cases step with
  | @arrive bytes =>
      rw [exchanged_other nofun, Event.bytes,
        List.append_assoc, serves.stream, ← List.append_assoc c.inbox]
  | @read request rest reading decoded =>
      have next := decodeAll_ok consumes (steady.ok decoded more)
      rw [exchanged_other nofun, Event.bytes,
        List.append_nil, serves.stream, next, reading]
      simp [Phase.pending]
  | answer handling =>
      rw [exchanged_answer handling, Event.bytes, List.append_nil, serves.stream, handling]
      simp [Phase.pending]
  | hangUp =>
      rw [exchanged_other nofun, Event.bytes,
        List.append_nil, serves.stream]
  | complain phase | leave phase | expire phase | write phase | part phase =>
      rw [exchanged_other nofun, Event.bytes,
        List.append_nil, serves.stream, phase]
      rfl
  | fail busy =>
      rw [exchanged_other nofun, Event.bytes,
        List.append_nil, serves.stream]
      cases busy with
      | inl phase | inr phase =>
          rw [phase]
          rfl

theorem Connected.serves (steady : Steady svc.starved svc.decode)
    (consumes : Consumes svc.decode) (run : Connected svc past c) : Serves svc past c := by
  refine Run.induct_from (C := fun _ _ => True) (I := Serves svc) ?_ ?_ run fun _ _ => trivial
  · exact ⟨fun more => rfl, rfl⟩
  · intro past c event c' serves _ step
    exact serves.step steady consumes (Conn.steps_of_exec step)

end Serves

/-- What the handlers of all connections share: how a request is answered, with what it meets
outside, and what else happens. -/
structure Program (S α β ω κ : Type) where
  dispatch : S → ω → α → Option (S × β)
  background : S → κ → S

structure Host (S γ α β : Type) where
  server : S
  conns : Nat → Conn γ α β

inductive Act (γ β ω κ : Type)
  | event (i : Nat) (e : Event γ β)
  | serve (i : Nat) (outside : ω)
  | background (what : κ)

/-- A request that has been answered on a connection. -/
structure Served (α β ω : Type) where
  conn : Nat
  outside : ω
  request : α
  response : β

section Host

variable {S ω κ : Type}

def Host.set (h : Host S γ α β) (i : Nat) (c : Conn γ α β) : Host S γ α β :=
  { h with conns := Function.update h.conns i c }

def Host.exec (svc : Service γ ε α β) (prog : Program S α β ω κ) (h : Host S γ α β) :
    Act γ β ω κ → Except Unit (Host S γ α β)
  -- Answers come from the server only.
  | .event _ (.answer _) => .error ()
  | .event i e => ((h.conns i).exec svc e).map (h.set i)
  | .serve i outside =>
      match (h.conns i).phase with
      | .handling request =>
          match prog.dispatch h.server outside request with
          | some (server, response) =>
              ((h.conns i).exec svc (.answer response)).map ({ h with server := server }.set i)
          | none => .error ()
      | _ => .error ()
  | .background what => .ok { h with server := prog.background h.server what }

/-- All runs of a server that starts with a state and without connections. -/
abbrev Hosted (svc : Service γ ε α β) (prog : Program S α β ω κ) (server : S)
    (past : List (Host S γ α β × Act γ β ω κ)) (h : Host S γ α β) : Prop :=
  Run (ofExec (· = ⟨server, fun _ => {}⟩) (Host.exec svc prog)) past h

theorem Hosted.of_acts (svc : Service γ ε α β) (prog : Program S α β ω κ) (server : S)
    (acts : List (Act γ β ω κ)) (check : List (Host S γ α β × Act γ β ω κ) → Host S γ α β → Bool)
    (h : (trace (Host.exec svc prog) [] ⟨server, fun _ => {}⟩ acts).any
      (fun r => check r.1 r.2) = true) :
    ∃ past host, Hosted svc prog server past host ∧ check past host = true :=
  Run.of_trace (· = ⟨server, fun _ => {}⟩) rfl acts check h

inductive Host.Steps (svc : Service γ ε α β) (prog : Program S α β ω κ) (h : Host S γ α β) :
    Act γ β ω κ → Host S γ α β → Prop
  | event {i : Nat} {e : Event γ β} {c : Conn γ α β} (plain : ∀ response, e ≠ .answer response)
      (step : (h.conns i).exec svc e = .ok c) :
      Host.Steps svc prog h (.event i e) (h.set i c)
  | serve {i : Nat} {outside : ω} {request : α} {response : β} {server : S}
      (handling : (h.conns i).phase = .handling request)
      (answer : prog.dispatch h.server outside request = some (server, response)) :
      Host.Steps svc prog h (.serve i outside)
        ({ h with server := server }.set i { h.conns i with phase := .writing response })
  | background {what : κ} : Host.Steps svc prog h (.background what)
      { h with server := prog.background h.server what }

variable {svc : Service γ ε α β} {prog : Program S α β ω κ} {server : S}
  {past : List (Host S γ α β × Act γ β ω κ)} {h h' : Host S γ α β} {act : Act γ β ω κ}

theorem Host.conns_set_self (h : Host S γ α β) (i : Nat) (c : Conn γ α β) :
    (h.set i c).conns i = c := by
  simp [Host.set]

theorem Host.conns_set_of_ne {i j : Nat} (other : j ≠ i) (h : Host S γ α β) (c : Conn γ α β) :
    (h.set j c).conns i = h.conns i := by
  simp [Host.set, Function.update_of_ne other.symm]

theorem Host.steps_of_exec (step : h.exec svc prog act = .ok h') :
    Host.Steps svc prog h act h' := by
  cases act with
  | background what =>
      cases step
      exact .background
  | event i e =>
      have plain : ∀ response, e ≠ .answer response := by
        rintro response rfl
        cases step
      have same : h.exec svc prog (.event i e) = ((h.conns i).exec svc e).map (h.set i) := by
        cases e with
        | answer response => exact absurd rfl (plain response)
        | arrive | hangUp | read | expire | write | fail => rfl
      rw [same] at step
      cases moved : (h.conns i).exec svc e with
      | error =>
          rw [moved] at step
          cases step
      | ok c =>
          rw [moved] at step
          cases step
          exact .event plain moved
  | serve i outside =>
      unfold Host.exec at step
      dsimp only at step
      split at step
      · rename_i request handling
        split at step
        · rename_i server response answer
          have moved : (h.conns i).exec svc (.answer response) =
              .ok { h.conns i with phase := .writing response } := by
            simp only [Conn.exec, handling]
          rw [moved] at step
          cases step
          exact .serve handling answer
        · cases step
      · cases step

/-- The answer that a step has given. -/
def served (prog : Program S α β ω κ) (x : Host S γ α β × Act γ β ω κ) :
    Option (Served α β ω) :=
  match x.2 with
  | .serve i outside =>
      match (x.1.conns i).phase with
      | .handling request =>
          (prog.dispatch x.1.server outside request).map fun y => ⟨i, outside, request, y.2⟩
      | _ => none
  | .event _ _ | .background _ => none

/-- All answers of a run, in order. -/
def answers (prog : Program S α β ω κ) (past : List (Host S γ α β × Act γ β ω κ)) :
    List (Served α β ω) :=
  past.reverse.filterMap (served prog)

/-- What a step is for one of the connections. -/
def project (prog : Program S α β ω κ) (i : Nat) (x : Host S γ α β × Act γ β ω κ) :
    Option (Conn γ α β × Event γ β) :=
  match x.2 with
  | .event j e => if j = i then some (x.1.conns i, e) else none
  | .serve j _ => if j = i then
      (served prog x).map fun y => (x.1.conns i, .answer y.response) else none
  | .background _ => none

theorem served_serve {i : Nat} {outside : ω} {request : α} {response : β} {server : S}
    (handling : (h.conns i).phase = .handling request)
    (answer : prog.dispatch h.server outside request = some (server, response)) :
    served prog (h, .serve i outside) = some ⟨i, outside, request, response⟩ := by
  simp only [served, handling, answer, Option.map_some]

theorem answers_cons (prog : Program S α β ω κ) (x : Host S γ α β × Act γ β ω κ) :
    answers prog (x :: past) = answers prog past ++ (served prog x).toList := by
  cases made : served prog x with
  | none => simp [answers, made]
  | some y => simp [answers, made]

/-- On each connection the server is a handler for one, and the answers there are those that
the server has given to it. -/
theorem Hosted.connected (run : Hosted svc prog server past h) (i : Nat) :
    Connected svc (past.filterMap (project prog i)) (h.conns i) ∧
      exchanged (past.filterMap (project prog i)) =
        ((answers prog past).filter fun x => x.conn = i).map fun x => (x.request, x.response) := by
  refine Run.induct_from (C := fun _ _ => True) (I := fun past h =>
    Connected svc (past.filterMap (project prog i)) (h.conns i) ∧
      exchanged (past.filterMap (project prog i)) =
        ((answers prog past).filter fun x => x.conn = i).map fun x => (x.request, x.response))
    ⟨Run.start (s := ({} : Conn γ α β)) rfl, rfl⟩ ?_ run fun _ _ => trivial
  rintro past h act h' ⟨run, same⟩ _ taken
  cases Host.steps_of_exec taken with
  | background =>
      rw [answers_cons, List.filterMap_cons_none rfl]
      exact ⟨run, by rw [same]; simp [served]⟩
  | @event j e c plain step =>
      have quiet : (served prog (h, Act.event j e)).toList = [] := rfl
      rw [answers_cons, quiet, List.append_nil]
      by_cases here : j = i
      · subst here
        have seen : project prog j (h, .event j e) = some (h.conns j, e) := if_pos rfl
        rw [List.filterMap_cons_some seen, Host.conns_set_self, exchanged_other plain]
        exact ⟨.next run step, same⟩
      · have unseen : project prog i (h, .event j e) = none := if_neg here
        rw [List.filterMap_cons_none unseen, Host.conns_set_of_ne here]
        exact ⟨run, same⟩
  | @serve j outside request response server handling answer =>
      have made := served_serve handling answer
      rw [answers_cons, made, Option.toList_some, List.filter_append, List.map_append, ← same]
      by_cases here : j = i
      · subst here
        have seen : project prog j (h, .serve j outside) = some (h.conns j, .answer response) := by
          simp only [project, if_pos, made, Option.map_some]
        rw [List.filterMap_cons_some seen, Host.conns_set_self, exchanged_answer handling]
        refine ⟨.next run ?_, by simp⟩
        change (h.conns j).exec svc (.answer response) = _
        simp only [Conn.exec, handling]
      · have unseen : project prog i (h, .serve j outside) = none := if_neg here
        rw [List.filterMap_cons_none unseen, Host.conns_set_of_ne here]
        exact ⟨run, by simp [here]⟩

end Host

end Serving
