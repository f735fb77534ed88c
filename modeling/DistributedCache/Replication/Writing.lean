import DistributedCache.Replication.Alone

/-!
One `WriteSet` without TTL on stores without limit, while no other write of its key
runs. Until it fails, its own node and every node that has acknowledged it hold the
value, and they keep it as long as no other write of the key starts.
-/
namespace DistributedCache.Replication

variable {w : Setup} {now : Int} {s s' : Sys} {a : Action} {i k : String} {v : List UInt8}
  {c : Nat} {p p' : Proc}

/-- The store has the value under the key, with no expiry. -/
def Proc.Keeps (p : Proc) (k : String) (v : List UInt8) : Prop :=
  ∃ e, p.store.entries.lookup k = some e ∧ e.value.value = v ∧ e.value.expiresAt = 0

/-- The store has no entry for the key. -/
def Proc.Lacks (p : Proc) (k : String) : Prop :=
  p.store.entries.lookup k = none

theorem Proc.Lacks.acts (h : p.Lacks k) (sound : p.store.Sound) (acts : Acts now k False p p') :
    p'.Lacks k := by
  cases acts with
  | inl same =>
      rw [Lacks, same]
      exact h
  | inr applied =>
      obtain ⟨o, eq, other⟩ := applied
      rw [Lacks, eq]
      refine Option.eq_none_iff_forall_ne_some.mpr fun e found => ?_
      cases h.symm.trans (Cache.Store.of_lookup_apply sound (Bool.eq_false_iff.mpr other) found)

theorem Proc.lacks_delete (sound : p.store.Sound) (now : Int) (k : String) :
    (p.delete now k).Lacks k :=
  (Cache.Store.lookup_delete sound now k k).trans (if_pos rfl)

/-- No store has a limit. -/
def Sys.Unlimited (s : Sys) : Prop :=
  ∀ i, (s.procs i).store.maxBytes ≤ 0

theorem Sys.Unlimited.step (h : s.Unlimited) (step : Step w now s a s') : s'.Unlimited := by
  intro i
  rw [(step.acts i "").maxBytes]
  exact h i

theorem Proc.Keeps.acts (h : p.Keeps k v) (sound : p.store.Sound) (limit : p.store.maxBytes ≤ 0)
    (acts : Acts now k False p p') : p'.Keeps k v := by
  cases acts with
  | inl same =>
      rw [Keeps, same]
      exact h
  | inr applied =>
      obtain ⟨e, found, value, forever⟩ := h
      obtain ⟨o, eq, other⟩ := applied
      rw [Keeps, eq]
      rcases Cache.Store.lookup_apply_of_not_writes sound limit
        (Bool.eq_false_iff.mpr other) with same | ⟨e', found', old⟩
      · exact ⟨e, same.trans found, value, forever⟩
      · obtain rfl := Option.some.inj (found.symm.trans found')
        rw [Cache.Entry.isExpired, if_pos forever] at old
        cases old

theorem Proc.keeps_set (sound : p.store.Sound) (limit : p.store.maxBytes ≤ 0) (now : Int)
    (k : String) (v : List UInt8) : (p.set now k v 0).Keeps k v := by
  obtain ⟨e, found, eq⟩ := Cache.Store.lookup_set_self
    (Cache.Store.set_unlimited sound limit now k v 0).1
  exact ⟨e, found, by rw [eq], by rw [eq]; rfl⟩

/-- What is kept is what `Get` returns. -/
theorem Proc.Keeps.get (h : p.Keeps k v) (now : Int) : (p.store.get now k).2 = some v := by
  obtain ⟨e, found, value, forever⟩ := h
  refine (Cache.Store.get_result p.store now k v).mpr ⟨e, found, ?_, value⟩
  rw [Cache.Entry.isExpired, if_pos forever]

/-- What a node needs to keep what it is given. -/
def Proc.Roomy (p : Proc) : Prop :=
  p.store.Sound ∧ p.store.maxBytes ≤ 0

/-- The effect of `WriteSet` without TTL. -/
theorem keeps_effects (w : Setup) (k : String) (v : List UInt8) :
    Effects w k (.set k v 0) Proc.Roomy (Proc.Keeps · k v) where
  acts := fun roomy keeps acts => keeps.acts roomy.1 roomy.2 acts
  deletes := nofun
  serves := fun op roomy keeps => by
    rw [Call.request, op]
    dsimp only
    rw [serve]
    split
    · exact Proc.keeps_set roomy.1 roomy.2 _ k v
    · exact keeps
  gains := fun op roomy => by
    rw [Call.request, op]
    dsimp only
    rw [serve]
    split
    · exact fun _ => Proc.keeps_set roomy.1 roomy.2 _ k v
    · exact fun answered => absurd rfl answered

/-- Call `c` at `node` writes `v` under `k`, and no other write of `k` is running. -/
structure Sys.Writing (node k : String) (v : List UInt8) (c : Nat) (s : Sys) : Prop
    extends Sys.Sole node (.set k v 0) k c s, Sys.Acked c (Proc.Keeps · k v) s where
  own : ∀ call : Call, s.calls[c]? = some call → call.Sure → (s.procs node).Keeps k v

theorem Sys.Regular.roomy (reg : s.Regular w) (free : s.Unlimited) (i : String) :
    (s.procs i).Roomy :=
  ⟨reg.sound i, free i⟩

theorem Sys.Still.writing {node : String} (still : s.Still k) (reg : s.Regular w)
    (free : s.Unlimited) (step : Step w now s (.start node (.set k v 0)) s') :
    s'.Writing node k v s.calls.length := by
  refine ⟨still.sole reg step, reg.acked step, fun call' there sure => ?_⟩
  obtain ⟨p, call, started, rfl⟩ := step.started
  rw [List.getElem?_concat_length] at there
  obtain rfl := Option.some.inj there
  change (Function.update s.procs node p node).Keeps k v
  rw [Function.update_self]
  cases started with
  | setAlone | set => exact Proc.keeps_set (reg.sound node) (free node) now k v
  | refused | setFailed | lookupFailed => exact absurd sure (Call.not_sure_error rfl)

theorem Sys.Writing.step {node : String} (h : s.Writing node k v c) (reg : s.Regular w)
    (free : s.Unlimited) (quiet : NoWrite k s (now, a)) (step : Step w now s a s') :
    s'.Writing node k v c := by
  have effects := keeps_effects w k v
  refine ⟨h.toSole.step nofun reg quiet step,
    h.toAcked.step h.toSole nofun effects (reg.roomy free) quiet step, fun call' there sure => ?_⟩
  obtain ⟨call, found, wasSure⟩ := h.sure_before nofun step there sure
  exact h.keeps nofun effects.toPreserves quiet step there sure node (reg.roomy free node)
    (h.own call found wasSure)

/-- Along a run that starts no other write of the key. -/
theorem Sys.Writing.run {node : String} {u : Sys} (h : u.Writing node k v c)
    (reg : u.Regular w) (free : u.Unlimited) {past : List (Sys × Int × Action)}
    (run : RunFrom w u past s) (quiet : Transition.Meets (NoWrite k) past) :
    s.Writing node k v c ∧ s.Regular w ∧ s.Unlimited :=
  Transition.Run.invariant_from
    (I := fun s => s.Writing node k v c ∧ s.Regular w ∧ s.Unlimited) ⟨h, reg, free⟩
    (fun _ _ _ ⟨h, reg, free⟩ quiet step =>
      ⟨h.step reg free quiet (exec_step step), reg.step (exec_step step),
        free.step (exec_step step)⟩) run quiet

end DistributedCache.Replication
