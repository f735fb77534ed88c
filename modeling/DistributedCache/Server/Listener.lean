import Mathlib.Data.List.Count
import DistributedCache.Lib.Transition

/-!
`ListenAndServe`: the loop that accepts connections, and the goroutines it starts.

The channel `connSem` has room for `MaxConnections` tokens. A connection is admitted by a
token, and its goroutine takes a token out when `handleConn` has returned, and only then
counts itself out of the wait group. The loop returns when it has been told to stop and the
wait group is empty.
-/
namespace DistributedCache.Server

/-- The room of `connSem` that `New` makes for the configured number. -/
def maxConnections (configured : Int) : Nat :=
  if configured ≤ 0 then 1024 else configured.toNat

/-- Where the goroutine of a connection is: in `handleConn`, behind it, without its token, and
out of the wait group. -/
inductive Stage
  | serving
  | left
  | freed
  | done
  deriving DecidableEq, Repr

/-- There is a token in the channel for the goroutine. -/
def Stage.holds : Stage → Bool
  | .serving | .left => true
  | .freed | .done => false

/-- The wait group counts the goroutine. -/
def Stage.counts : Stage → Bool
  | .serving | .left | .freed => true
  | .done => false

/-- Where the loop is: in `Accept`, with a connection, with a token for it, in `wg.Wait`, and
behind it. -/
inductive Loop
  | accepting
  | holding
  | admitted
  | draining
  | returned
  deriving DecidableEq, Repr

structure Listener where
  loop : Loop := .accepting
  /-- The context is done. -/
  canceled : Bool := false
  /-- The listener has been closed. -/
  closed : Bool := false
  connSem : Nat := 0
  wg : Nat := 0
  goroutines : List Stage := []
  deriving DecidableEq, Repr

namespace Listener

inductive Action
  | cancel
  | close
  | accept
  /-- `Accept` returns an error. -/
  | acceptFails
  /-- The cases of the `select`, the last one the default. -/
  | take
  | quit
  | refuse
  | spawn
  | goroutine (i : Nat)
  | wait
  deriving DecidableEq, Repr

/-- Why a step is not taken. -/
inductive Halt
  | blocked
  /-- The panic of a wait group. -/
  | negativeCounter
  deriving DecidableEq, Repr

def moved (l : Listener) (i : Nat) (stage : Stage) : Listener :=
  { l with goroutines := l.goroutines.set i stage }

def exec (limit : Nat) (l : Listener) : Action → Except Halt Listener
  | .cancel => .ok { l with canceled := true }
  | .close => if l.canceled then .ok { l with closed := true } else .error .blocked
  | .accept =>
      if l.loop = .accepting ∧ l.closed = false then .ok { l with loop := .holding }
      else .error .blocked
  | .acceptFails =>
      if l.loop = .accepting then
        if l.canceled ∨ l.closed then .ok { l with loop := .draining } else .ok l
      else .error .blocked
  | .take =>
      if l.loop = .holding ∧ l.connSem < limit then
        .ok { l with loop := .admitted, connSem := l.connSem + 1 }
      else .error .blocked
  | .quit =>
      if l.loop = .holding ∧ l.canceled then .ok { l with loop := .draining }
      else .error .blocked
  -- The default is for when no other case can be taken.
  | .refuse =>
      if l.loop = .holding ∧ ¬ l.connSem < limit ∧ ¬ l.canceled then
        .ok { l with loop := .accepting }
      else .error .blocked
  | .spawn =>
      if l.loop = .admitted then
        .ok { l with
          loop := .accepting, wg := l.wg + 1, goroutines := l.goroutines ++ [.serving] }
      else .error .blocked
  | .goroutine i =>
      match l.goroutines[i]? with
      | some .serving => .ok (l.moved i .left)
      | some .left =>
          if l.connSem = 0 then .error .blocked
          else .ok { l.moved i .freed with connSem := l.connSem - 1 }
      | some .freed =>
          if l.wg = 0 then .error .negativeCounter
          else .ok { l.moved i .done with wg := l.wg - 1 }
      | some .done | none => .error .blocked
  | .wait =>
      if l.loop = .draining ∧ l.wg = 0 then .ok { l with loop := .returned } else .error .blocked

/-- All runs of `ListenAndServe` once it listens. -/
abbrev Runs (limit : Nat) (past : List (Listener × Action)) (l : Listener) : Prop :=
  Transition.Run (Transition.ofExec (· = {}) (exec limit)) past l

theorem Runs.of_actions (limit : Nat) (actions : List Action) {past : List (Listener × Action)}
    {l : Listener} (h : Transition.trace (exec limit) [] {} actions = some (past, l)) :
    Runs limit past l :=
  .trace actions (.start rfl) h

/-- The tokens in the channel and the count of the wait group are those of the goroutines. -/
structure Books (limit : Nat) (l : Listener) : Prop where
  tokens : l.connSem = l.goroutines.countP Stage.holds + if l.loop = .admitted then 1 else 0
  counted : l.wg = l.goroutines.countP Stage.counts
  room : l.connSem ≤ limit
  closed : l.closed = true → l.canceled = true
  leaving : l.loop = .draining ∨ l.loop = .returned → l.canceled = true
  empty : l.loop = .returned → l.wg = 0

/-- What a step can be. -/
inductive Steps (limit : Nat) (l : Listener) : Action → Listener → Prop
  | cancel : Steps limit l .cancel { l with canceled := true }
  | close (canceled : l.canceled = true) : Steps limit l .close { l with closed := true }
  | accept (loop : l.loop = .accepting) (listening : l.closed = false) :
      Steps limit l .accept { l with loop := .holding }
  | drain (loop : l.loop = .accepting) (ended : l.canceled ∨ l.closed) :
      Steps limit l .acceptFails { l with loop := .draining }
  | log (loop : l.loop = .accepting) (going : ¬ (l.canceled ∨ l.closed)) :
      Steps limit l .acceptFails l
  | take (loop : l.loop = .holding) (free : l.connSem < limit) :
      Steps limit l .take { l with loop := .admitted, connSem := l.connSem + 1 }
  | quit (loop : l.loop = .holding) (canceled : l.canceled = true) :
      Steps limit l .quit { l with loop := .draining }
  | refuse (loop : l.loop = .holding) (full : ¬ l.connSem < limit) (going : ¬ l.canceled) :
      Steps limit l .refuse { l with loop := .accepting }
  | spawn (loop : l.loop = .admitted) :
      Steps limit l .spawn { l with
        loop := .accepting, wg := l.wg + 1, goroutines := l.goroutines ++ [.serving] }
  | leave {i : Nat} (stage : l.goroutines[i]? = some .serving) :
      Steps limit l (.goroutine i) (l.moved i .left)
  | free {i : Nat} (stage : l.goroutines[i]? = some .left) :
      Steps limit l (.goroutine i) { l.moved i .freed with connSem := l.connSem - 1 }
  | finish {i : Nat} (stage : l.goroutines[i]? = some .freed) :
      Steps limit l (.goroutine i) { l.moved i .done with wg := l.wg - 1 }
  | wait (loop : l.loop = .draining) (empty : l.wg = 0) :
      Steps limit l .wait { l with loop := .returned }

variable {limit : Nat} {past : List (Listener × Action)} {l l' : Listener} {a : Action}

theorem steps_of_exec (h : exec limit l a = .ok l') : Steps limit l a l' := by
  cases a with
  | cancel =>
      cases h
      exact .cancel
  | close =>
      simp only [exec] at h
      split at h
      · rename_i canceled
        cases h
        exact .close canceled
      · cases h
  | accept =>
      simp only [exec] at h
      split at h
      · rename_i ready
        cases h
        exact .accept ready.1 ready.2
      · cases h
  | acceptFails =>
      simp only [exec] at h
      split at h
      · rename_i loop
        split at h
        · rename_i ended
          cases h
          exact .drain loop ended
        · rename_i going
          cases h
          exact .log loop going
      · cases h
  | take =>
      simp only [exec] at h
      split at h
      · rename_i ready
        cases h
        exact .take ready.1 ready.2
      · cases h
  | quit =>
      simp only [exec] at h
      split at h
      · rename_i ready
        cases h
        exact .quit ready.1 ready.2
      · cases h
  | refuse =>
      simp only [exec] at h
      split at h
      · rename_i ready
        cases h
        exact .refuse ready.1 ready.2.1 ready.2.2
      · cases h
  | spawn =>
      simp only [exec] at h
      split at h
      · rename_i loop
        cases h
        exact .spawn loop
      · cases h
  | goroutine i =>
      simp only [exec] at h
      split at h
      · rename_i stage
        cases h
        exact .leave stage
      · rename_i stage
        split at h
        · cases h
        · cases h
          exact .free stage
      · rename_i stage
        split at h
        · cases h
        · cases h
          exact .finish stage
      · cases h
      · cases h
  | wait =>
      simp only [exec] at h
      split at h
      · rename_i ready
        cases h
        exact .wait ready.1 ready.2
      · cases h

/-- A goroutine moves on: what is counted loses the old stage and gains the new one. -/
theorem countP_moved (p : Stage → Bool) {i : Nat} {old : Stage} (stage : Stage)
    (found : l.goroutines[i]? = some old) :
    (l.moved i stage).goroutines.countP p + (if p old then 1 else 0) =
      l.goroutines.countP p + if p stage then 1 else 0 := by
  obtain ⟨bound, rfl⟩ := List.getElem?_eq_some_iff.mp found
  have split := List.countP_set (p := p) (a := stage) bound
  have some : p l.goroutines[i] = true → 0 < l.goroutines.countP p := fun holds =>
    List.countP_pos_iff.mpr ⟨_, List.getElem_mem bound, holds⟩
  change (l.goroutines.set i stage).countP p + _ = _
  rw [split]
  by_cases old : p l.goroutines[i] = true
  · have positive := some old
    rw [if_pos old]
    omega
  · rw [if_neg old]
    omega

theorem Books.step (books : Books limit l) (step : Steps limit l a l') : Books limit l' := by
  obtain ⟨tokens, counted, room, closed, leaving, empty⟩ := books
  cases step with
  | cancel => exact ⟨tokens, counted, room, fun _ => rfl, fun _ => rfl, empty⟩
  | close canceled => exact ⟨tokens, counted, room, fun _ => canceled, leaving, empty⟩
  | accept loop =>
      rw [loop, if_neg (by decide)] at tokens
      exact ⟨tokens, counted, room, closed, nofun, nofun⟩
  | drain loop ended =>
      rw [loop, if_neg (by decide)] at tokens
      exact ⟨tokens, counted, room, closed, fun _ => ended.elim id closed, nofun⟩
  | log => exact ⟨tokens, counted, room, closed, leaving, empty⟩
  | take loop free =>
      rw [loop, if_neg (by decide)] at tokens
      exact ⟨congrArg (· + 1) tokens, counted, free, closed, nofun, nofun⟩
  | quit loop canceled =>
      rw [loop, if_neg (by decide)] at tokens
      exact ⟨tokens, counted, room, closed, fun _ => canceled, nofun⟩
  | refuse loop =>
      rw [loop, if_neg (by decide)] at tokens
      exact ⟨tokens, counted, room, closed, nofun, nofun⟩
  | spawn loop =>
      rw [loop, if_pos rfl] at tokens
      refine ⟨?_, ?_, room, closed, nofun, nofun⟩
      · simp [tokens, Stage.holds]
      · simp [counted, Stage.counts]
  | leave stage =>
      have held := countP_moved Stage.holds .left stage
      have known := countP_moved Stage.counts .left stage
      refine ⟨?_, ?_, room, closed, leaving, empty⟩
      · exact tokens.trans (congrArg (· + _) (Nat.add_right_cancel held).symm)
      · exact counted.trans (Nat.add_right_cancel known).symm
  | @free i stage =>
      have held : (l.moved i .freed).goroutines.countP Stage.holds + 1 =
          l.goroutines.countP Stage.holds := countP_moved Stage.holds .freed stage
      have known := countP_moved Stage.counts .freed stage
      refine ⟨?_, ?_, Nat.le_trans (Nat.sub_le _ _) room, closed, leaving, empty⟩
      · change l.connSem - 1 = (l.moved i .freed).goroutines.countP Stage.holds +
          if l.loop = .admitted then 1 else 0
        omega
      · exact counted.trans (Nat.add_right_cancel known).symm
  | @finish i stage =>
      have held := countP_moved Stage.holds .done stage
      have known : (l.moved i .done).goroutines.countP Stage.counts + 1 =
          l.goroutines.countP Stage.counts := countP_moved Stage.counts .done stage
      refine ⟨?_, ?_, room, closed, leaving, fun returned => ?_⟩
      · exact tokens.trans (congrArg (· + _) (Nat.add_right_cancel held).symm)
      · change l.wg - 1 = (l.moved i .done).goroutines.countP Stage.counts
        omega
      · change l.wg - 1 = 0
        rw [empty returned]
  | wait loop none =>
      rw [loop, if_neg (by decide)] at tokens
      exact ⟨tokens, counted, room, closed, fun _ => leaving (.inl loop), fun _ => none⟩

theorem Runs.books (run : Runs limit past l) : Books limit l := by
  refine Transition.Run.invariant_from (C := fun _ _ => True) ?_ ?_ run fun _ _ => trivial
  · exact ⟨rfl, rfl, Nat.zero_le limit, nofun, nofun, nofun⟩
  · intro l a l' books _ step
    exact books.step (steps_of_exec step)

/-- The goroutines that the wait group counts are those that are not done. -/
theorem Books.done (books : Books limit l) (none : l.wg = 0) :
    ∀ stage ∈ l.goroutines, stage = .done := by
  intro stage mem
  have zero := List.countP_eq_zero.mp (books.counted.symm.trans none) stage mem
  cases stage with
  | serving | left | freed => exact absurd rfl zero
  | done => rfl

/-- No goroutine waits for a token to take out or brings the wait group below zero. -/
theorem Books.moves (books : Books limit l) {i : Nat} {stage : Stage}
    (found : l.goroutines[i]? = some stage) (other : stage ≠ .done) :
    ∃ l', exec limit l (.goroutine i) = .ok l' := by
  cases stage with
  | serving =>
      refine ⟨l.moved i .left, ?_⟩
      simp only [exec, found]
  | left =>
      have tokens := books.tokens
      have held : 0 < l.goroutines.countP Stage.holds :=
        List.countP_pos_iff.mpr ⟨.left, List.mem_of_getElem? found, rfl⟩
      refine ⟨{ l.moved i .freed with connSem := l.connSem - 1 }, ?_⟩
      simp only [exec, found]
      exact if_neg (by omega)
  | freed =>
      have counted := books.counted
      have known : 0 < l.goroutines.countP Stage.counts :=
        List.countP_pos_iff.mpr ⟨.freed, List.mem_of_getElem? found, rfl⟩
      refine ⟨{ l.moved i .done with wg := l.wg - 1 }, ?_⟩
      simp only [exec, found]
      exact if_neg (by omega)
  | done => exact absurd rfl other

theorem maxConnections_pos (configured : Int) : 0 < maxConnections configured := by
  unfold maxConnections
  split
  · decide
  · omega

/-- There are never more handlers than `MaxConnections`, and a connection is refused only while
there are as many that have not given their token back. No goroutine waits for a token to take
out or brings the wait group below zero. When the loop returns it has been told to, and all
goroutines are done. -/
theorem listener_keeps_books {configured : Int} (run : Runs (maxConnections configured) past l) :
    l.goroutines.count .serving ≤ maxConnections configured ∧
    (∀ l', exec (maxConnections configured) l .refuse = .ok l' →
      0 < maxConnections configured ∧
      l.goroutines.countP Stage.holds = maxConnections configured) ∧
    (∀ (i : Nat) (stage : Stage), l.goroutines[i]? = some stage → stage ≠ .done →
      ∃ l', exec (maxConnections configured) l (.goroutine i) = .ok l') ∧
    (l.loop = .returned → l.canceled = true ∧ ∀ stage ∈ l.goroutines, stage = .done) := by
  have books := run.books
  refine ⟨?_, fun l' refused => ?_, fun i stage found other => ?_, fun returned => ?_⟩
  · have fewer : l.goroutines.count .serving ≤ l.goroutines.countP Stage.holds :=
      List.countP_mono_left fun stage _ serving => by
        obtain rfl : stage = .serving := by simpa using serving
        rfl
    have tokens := books.tokens
    have room := books.room
    omega
  · have tokens := books.tokens
    have room := books.room
    cases steps_of_exec refused with
    | refuse loop full =>
        rw [loop, if_neg (by decide)] at tokens
        exact ⟨maxConnections_pos configured, by omega⟩
  · exact books.moves found other
  · exact ⟨books.leaving (.inr returned), books.done (books.empty returned)⟩

/-- With room for one connection, the second one is refused. -/
theorem listener_keeps_books_full : ∃ past l l', Runs (maxConnections 1) past l ∧
    l.goroutines = [.serving] ∧ exec (maxConnections 1) l .refuse = .ok l' ∧
    l.goroutines.countP Stage.holds = maxConnections 1 := by
  have run := Runs.of_actions (maxConnections 1) [.accept, .take, .spawn, .accept] rfl
  exact ⟨_, _, _, run, rfl, rfl, ((listener_keeps_books run).2.1 _ rfl).2⟩

section Shutdown

/-- The steps that are still before the loop, each with those of a goroutine it may start. -/
def loopAhead : Loop → Nat
  | .holding => 7
  | .admitted => 6
  | .accepting => 2
  | .draining => 1
  | .returned => 0

/-- The steps that are still ahead once nothing more can be accepted. -/
def ahead (l : Listener) : Nat :=
  loopAhead l.loop + l.goroutines.countP (· = .serving) + l.goroutines.countP Stage.holds +
    l.goroutines.countP Stage.counts

/-- The steps of the loop and of the goroutines. -/
def Action.inner (a : Action) : Bool :=
  a ≠ .cancel ∧ a ≠ .close

theorem ahead_le (l : Listener) : l.ahead ≤ 7 + 3 * l.goroutines.length := by
  have loop : loopAhead l.loop ≤ 7 := by cases l.loop <;> decide
  have serving : l.goroutines.countP (· = .serving) ≤ l.goroutines.length :=
    List.countP_le_length
  have held : l.goroutines.countP Stage.holds ≤ l.goroutines.length := List.countP_le_length
  have counted : l.goroutines.countP Stage.counts ≤ l.goroutines.length := List.countP_le_length
  unfold ahead
  omega

/-- A goroutine that moves on has fewer steps ahead. -/
theorem ahead_moved_lt {i : Nat} {old stage : Stage} (found : l.goroutines[i]? = some old)
    (next : (old, stage) ∈ [(Stage.serving, Stage.left), (.left, .freed), (.freed, .done)]) :
    loopAhead l.loop + (l.moved i stage).goroutines.countP (· = .serving) +
        (l.moved i stage).goroutines.countP Stage.holds +
        (l.moved i stage).goroutines.countP Stage.counts < l.ahead := by
  have serving := countP_moved (· = .serving) stage found
  have held := countP_moved Stage.holds stage found
  have counted := countP_moved Stage.counts stage found
  unfold ahead
  simp only [List.mem_cons, Prod.mk.injEq, List.not_mem_nil, or_false] at next
  obtain ⟨rfl, rfl⟩ | ⟨rfl, rfl⟩ | ⟨rfl, rfl⟩ := next
  all_goals
    simp [Stage.holds, Stage.counts] at serving held counted
    omega

theorem Steps.ahead_lt (step : Steps limit l a l') (canceled : l.canceled = true)
    (closed : l.closed = true) (inner : a.inner = true) : l'.ahead < l.ahead := by
  cases step with
  | cancel => cases inner
  | close => cases inner
  | accept loop listening => exact absurd (closed.symm.trans listening) (by decide)
  | log loop going => exact absurd (.inl canceled) going
  | refuse loop full going => exact absurd canceled going
  | drain loop | take loop | quit loop | wait loop =>
      simp only [ahead, loop, loopAhead]
      omega
  | spawn loop =>
      simp only [ahead, loop, loopAhead, List.countP_append]
      simp [Stage.holds, Stage.counts]
      omega
  | leave stage => exact ahead_moved_lt stage (by decide)
  | free stage => exact ahead_moved_lt stage (by decide)
  | finish stage => exact ahead_moved_lt stage (by decide)

theorem Steps.ahead_eq (step : Steps limit l a l') (outer : ¬ a.inner = true) :
    l'.ahead = l.ahead := by
  cases step with
  | cancel | close => rfl
  | accept | drain | log | take | quit | refuse | spawn | leave | free | finish | wait =>
      exact absurd rfl outer

theorem Steps.canceled (step : Steps limit l a l') (canceled : l.canceled = true) :
    l'.canceled = true := by
  cases step with
  | cancel => rfl
  | close | accept | drain | log | take | quit | refuse | spawn | leave | free | finish | wait =>
      exact canceled

theorem Steps.closed (step : Steps limit l a l') (closed : l.closed = true) :
    l'.closed = true := by
  cases step with
  | close => rfl
  | cancel | accept | drain | log | take | quit | refuse | spawn | leave | free | finish | wait =>
      exact closed

/-- Once nothing more can be accepted, the loop returns: until then some step of it or of a
goroutine can be taken, and there are not many of them, in whatever order they are taken. -/
theorem shutdown_completes (run : Runs limit past l) (closed : l.closed = true) :
    (l.loop ≠ .returned → ∃ a l', a.inner = true ∧ exec limit l a = .ok l') ∧
    ∀ past' l', Transition.Run (Transition.ofExec (· = l) (exec limit)) past' l' →
      (past'.countP fun x => x.2.inner) ≤ 7 + 3 * l.goroutines.length := by
  have books := run.books
  have canceled := books.closed closed
  refine ⟨fun going => ?_, fun past' l' more => ?_⟩
  · cases loop : l.loop with
    | accepting =>
        refine ⟨.acceptFails, { l with loop := .draining }, rfl, ?_⟩
        simp [exec, loop, canceled]
    | holding =>
        refine ⟨.quit, { l with loop := .draining }, rfl, ?_⟩
        simp [exec, loop, canceled]
    | admitted => exact ⟨.spawn, _, rfl, if_pos loop⟩
    | draining =>
        by_cases empty : l.wg = 0
        · exact ⟨.wait, _, rfl, if_pos ⟨loop, empty⟩⟩
        · have some : 0 < l.goroutines.countP Stage.counts := by
            have counted := books.counted
            omega
          obtain ⟨stage, mem, counts⟩ := List.countP_pos_iff.mp some
          obtain ⟨i, found⟩ := List.mem_iff_getElem?.mp mem
          have other : stage ≠ .done := by
            rintro rfl
            cases counts
          obtain ⟨l', step⟩ := books.moves found other
          exact ⟨.goroutine i, l', rfl, step⟩
    | returned => exact absurd loop going
  · have bound : (past'.countP fun x => x.2.inner) + l'.ahead ≤ l.ahead ∧
        l'.canceled = true ∧ l'.closed = true := by
      refine Transition.Run.induct_from (C := fun _ _ => True) (I := fun past' l' =>
        (past'.countP fun x => x.2.inner) + l'.ahead ≤ l.ahead ∧
          l'.canceled = true ∧ l'.closed = true) ?_ ?_ more fun _ _ => trivial
      · exact ⟨Nat.le_of_eq (Nat.zero_add _), canceled, closed⟩
      · rintro past' k a k' ⟨bound, canceled, closed⟩ _ taken
        have step := steps_of_exec taken
        refine ⟨?_, step.canceled canceled, step.closed closed⟩
        rw [List.countP_cons]
        by_cases inner : a.inner = true
        · have less := step.ahead_lt canceled closed inner
          rw [if_pos inner]
          omega
        · rw [if_neg inner, step.ahead_eq inner]
          exact bound
    have limit := ahead_le l
    omega

/-- The context is done while one connection is served and another one has been accepted. -/
theorem shutdown_completes_one : ∃ past l, Runs (maxConnections 0) past l ∧ l.loop = .holding ∧
    l.goroutines = [.serving] ∧ (∃ a l', a.inner = true ∧ exec (maxConnections 0) l a = .ok l') ∧
    ∀ past' l', Transition.Run (Transition.ofExec (· = l) (exec (maxConnections 0))) past' l' →
      (past'.countP fun x => x.2.inner) ≤ 10 := by
  have run := Runs.of_actions (maxConnections 0)
    [.accept, .take, .spawn, .accept, .cancel, .close] rfl
  obtain ⟨some, bound⟩ := shutdown_completes run rfl
  exact ⟨_, _, run, rfl, rfl, some (by decide), bound⟩

end Shutdown

end Listener

end DistributedCache.Server
