import DistributedCache.Raft.Consistent
import DistributedCache.Raft.View

/-!
The events of one node along a run. What holds of the view of a node and of the
events it has shown is kept by every step if every handler of that node keeps it.
-/
namespace DistributedCache.Raft

open Transition (Meets)

def Event.node : Event → String
  | .applyBegin i _ _ | .applyEnd i _ | .proposeNil i _ _ => i

theorem Touches.node_eq {p : Proc} {m : Input} {events : List Event} {v : View}
    (h : Touches p m events v) : ∀ e ∈ events, e.node = p.node.id := by
  cases h with
  | begin l₁ l₂ d task => simp [Event.node]
  | move l₁ l₂ d phase phase' task inside further =>
      split <;> simp [Event.node]
  | wake k w waits ready => simp [Event.node]
  | _ => simp

def Sys.eventsOf (σ : Sys) (i : String) : List Event :=
  σ.events.filter fun e => e.node = i

/-- Process `i` handles `m` in a step of the deployment. -/
structure Acted (S : Setup) (σ : Sys) (a : Action) (σ' : Sys) (i : String) (m : Input)
    (o : Out) : Prop where
  feeds : Feeds S σ a i m
  proc : σ'.procs i = o.proc
  events : σ'.eventsOf i = o.events ++ σ.eventsOf i
  shows : ∃ v, (σ.procs i).Shows m o v

section Runs

variable {S : Setup} {C : Sys → Action → Prop} {I : View → List Event → Prop}

theorem eventsOf_put (σ : Sys) (net : List Msg) {j : String} {o : Out}
    (own : ∀ e ∈ o.events, e.node = j) (i : String) :
    (σ.put j net o).eventsOf i = if i = j then o.events ++ σ.eventsOf j else σ.eventsOf i := by
  simp only [Sys.put, Sys.eventsOf, List.filter_append]
  split
  · rename_i same
    rw [same, List.filter_eq_self.mpr fun e he => by simpa using own e he]
  · rename_i other
    rw [List.filter_eq_nil_iff.mpr fun e he => by simpa [own e he] using Ne.symm other]
    rfl

/-- Every step leaves a process and its events alone or is one of its handlers. -/
theorem exec_handled {σ σ' : Sys} {a : Action} (ids : ∀ i, (σ.node i).id = i)
    (h : exec S σ a = .ok σ') (i : String) :
    (σ'.procs i = σ.procs i ∧ σ'.eventsOf i = σ.eventsOf i) ∨
      ∃ m o, Feeds S σ a i m ∧ Handles S.membership (σ.procs i) m o ∧ σ'.procs i = o.proc ∧
        σ'.eventsOf i = o.events ++ σ.eventsOf i := by
  have handled {j : String} {net : List Msg} {m : Input} {o : Out}
      (hh : Handles S.membership (σ.procs j) m o) (feeds : Feeds S σ a j m) :
      ((σ.put j net o).procs i = σ.procs i ∧ (σ.put j net o).eventsOf i = σ.eventsOf i) ∨
        ∃ m o', Feeds S σ a i m ∧ Handles S.membership (σ.procs i) m o' ∧
          (σ.put j net o).procs i = o'.proc ∧
          (σ.put j net o).eventsOf i = o'.events ++ σ.eventsOf i := by
    obtain ⟨v, shows⟩ := hh.shows
    have own : ∀ e ∈ o.events, e.node = j := fun e he =>
      (shows.1.node_eq e he).trans (ids j)
    have events := eventsOf_put σ net own i
    by_cases hi : i = j
    · subst hi
      rw [if_pos rfl] at events
      exact .inr ⟨m, o, feeds, hh, σ.put_procs_self i net o, events⟩
    · rw [if_neg hi] at events
      exact .inl ⟨σ.put_procs_of_ne net o hi, events⟩
  rcases exec_cases h with ⟨k, rfl⟩ | ⟨k, m, j, o, rfl, hm, hj, hh, rfl⟩ |
    ⟨j, o, ha, member, hh, rfl⟩
  · exact .inl ⟨rfl, rfl⟩
  · exact handled hh ⟨k, rfl, hm, hj⟩
  · exact handled hh ⟨rfl, ha, member⟩

theorem exec_acted {σ σ' : Sys} {a : Action} (ids : ∀ i, (σ.node i).id = i)
    (h : exec S σ a = .ok σ') (i : String) :
    (σ'.procs i = σ.procs i ∧ σ'.eventsOf i = σ.eventsOf i) ∨
      ∃ m o, Acted S σ a σ' i m o := by
  rcases exec_handled ids h i with same | ⟨m, o, feeds, hh, proc, events⟩
  · exact .inl same
  · exact .inr ⟨m, o, feeds, proc, events, hh.shows⟩

/-- A property of the view of a node and of its events holds in every run if every
handler keeps it. -/
theorem Run.view_invariant (start : ∀ i, I (S.start.procs i).view [])
    (keep : ∀ σ a σ' i m o, C σ a → Acted S σ a σ' i m o →
      I (σ.procs i).view (σ.eventsOf i) → I o.proc.view (o.events ++ σ.eventsOf i))
    {past : List (Sys × Action)} {σ : Sys} (run : Run S past σ) (meets : Meets C past)
    (i : String) : I (σ.procs i).view (σ.eventsOf i) := by
  refine Transition.Run.induct (C := C)
    (I := fun _ σ => I (σ.procs i).view (σ.eventsOf i)) ?_ ?_ run meets
  · rintro _ rfl
    exact start i
  · intro past σ a σ' run _ before here step
    rcases exec_acted (fun j => (Setup.identity run j).1) step i with
      ⟨proc, events⟩ | ⟨m, o, acted⟩
    · rw [proc, events]
      exact before
    · rw [acted.proc, acted.events]
      exact keep σ a σ' i m o here acted before

end Runs

end DistributedCache.Raft
