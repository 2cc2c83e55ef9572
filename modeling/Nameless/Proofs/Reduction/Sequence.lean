/-
Nameless/Proofs/Reduction/Sequence.lean

The reduction sequence of a term, and the functions that go along it.

`Term.Trail t steps` says that `steps` are the terms after `t` in its reduction
sequence, up to and including the first term that a step leaves as it is.  Where a term
has a trail, each of the loops is an equation:

    t.reductions limit  = (t :: steps).take limit
    t.reductions? limit = some (t :: steps)          if steps.length < limit
    t.trace fuel        = some steps                 if steps.length < fuel
    t.normalize fuel    = some (steps.getLastD t)    if steps.length < fuel

Conversely, a loop that ends has gone along a trail (`exists_trail_of_normalize`,
`trail_of_trace`, `exists_trail_of_reductions?`), so all of them end for the same terms
within the same bound.
-/
import Nameless.Reduction.Normalize

namespace Nameless.Term

/-- `steps` are the terms after `t` in its reduction sequence, up to the first one that a
step leaves as it is. -/
inductive Trail : Term → List Term → Prop
  | stop {t : Term} : t.step = t → Trail t []
  | next {t : Term} {steps : List Term} :
      t.step ≠ t → Trail t.step steps → Trail t (t.step :: steps)

namespace Trail

variable {t : Term} {steps : List Term}

/-- A trail ends in a fixpoint of the step. -/
theorem step_getLastD (h : Trail t steps) : (steps.getLastD t).step = steps.getLastD t := by
  induction h with
  | stop hstep => exact hstep
  | next _ _ ih => rwa [List.getLastD_cons]

/-! ### The loops along a trail -/

theorem normalize_eq (h : Trail t steps) (fuel : Nat) :
    t.normalize fuel = if steps.length < fuel then some (steps.getLastD t) else none := by
  induction h generalizing fuel with
  | stop hstep =>
    cases fuel with
    | zero => rfl
    | succ fuel =>
      rw [normalize, if_pos hstep, List.length_nil, if_pos (Nat.succ_pos fuel)]
      rfl
  | next hstep _ ih =>
    cases fuel with
    | zero => rfl
    | succ fuel =>
      rw [normalize, if_neg hstep, ih, List.getLastD_cons, List.length_cons]
      simp only [Nat.add_lt_add_iff_right]

theorem traceOnto_eq (h : Trail t steps) (fuel : Nat) (passed : List Term) :
    t.traceOnto fuel passed
      = if steps.length < fuel then some (steps.reverse ++ passed) else none := by
  induction h generalizing fuel passed with
  | stop hstep =>
    cases fuel with
    | zero => rfl
    | succ fuel =>
      rw [traceOnto, if_pos hstep, List.length_nil, if_pos (Nat.succ_pos fuel)]
      rfl
  | next hstep _ ih =>
    cases fuel with
    | zero => rfl
    | succ fuel =>
      rw [traceOnto, if_neg hstep, ih, List.reverse_cons, List.append_assoc, List.length_cons]
      simp only [Nat.add_lt_add_iff_right, List.singleton_append]

theorem trace_eq (h : Trail t steps) (fuel : Nat) :
    t.trace fuel = if steps.length < fuel then some steps else none := by
  rw [trace, h.traceOnto_eq]
  split
  · rw [Option.map_some, List.append_nil, List.reverse_reverse]
  · rfl

theorem reductions_eq (h : Trail t steps) (limit : Nat) :
    t.reductions limit = (t :: steps).take limit := by
  induction h generalizing limit with
  | stop hstep =>
    cases limit with
    | zero => rfl
    | succ limit => rw [reductions, if_pos hstep, List.take_succ_cons, List.take_nil]
  | next hstep _ ih =>
    cases limit with
    | zero => rfl
    | succ limit => rw [reductions, if_neg hstep, ih, List.take_succ_cons]

theorem reductions?_eq_some (h : Trail t steps) {limit : Nat} (hlt : steps.length < limit) :
    t.reductions? limit = some (t :: steps) := by
  have hwhole : t.reductions limit = t :: steps := by
    rw [h.reductions_eq, List.take_of_length_le hlt]
  have hlast : (t :: steps).getLast? = some (steps.getLastD t) := by
    rw [List.getLast?_cons, List.getLastD_eq_getLast?]
  rw [reductions?, hwhole, hlast]
  exact if_pos (decide_eq_true h.step_getLastD)

end Trail

/-! ### Loops that end -/

section

variable {t : Term}

theorem exists_trail_of_normalize {fuel : Nat} {n : Term} (h : t.normalize fuel = some n) :
    ∃ steps, Trail t steps ∧ steps.length < fuel ∧ steps.getLastD t = n := by
  induction fuel generalizing t with
  | zero => cases h
  | succ fuel ih =>
    rw [normalize] at h
    by_cases hstep : t.step = t
    · rw [if_pos hstep] at h
      exact ⟨[], .stop hstep, Nat.succ_pos fuel, Option.some.inj h⟩
    · rw [if_neg hstep] at h
      obtain ⟨steps, htrail, hlt, hlast⟩ := ih h
      refine ⟨t.step :: steps, .next hstep htrail, Nat.succ_lt_succ hlt, ?_⟩
      rw [List.getLastD_cons, hlast]

/-- A larger bound changes no normal form. -/
theorem normalize_mono {fuel fuel' : Nat} {n : Term} (hle : fuel ≤ fuel')
    (h : t.normalize fuel = some n) : t.normalize fuel' = some n := by
  obtain ⟨steps, htrail, hlt, hlast⟩ := exists_trail_of_normalize h
  rw [htrail.normalize_eq, if_pos (Nat.lt_of_lt_of_le hlt hle), hlast]

theorem exists_trail_of_traceOnto {fuel : Nat} {passed all : List Term}
    (h : t.traceOnto fuel passed = some all) :
    ∃ steps, Trail t steps ∧ steps.length < fuel := by
  induction fuel generalizing t passed with
  | zero => cases h
  | succ fuel ih =>
    rw [traceOnto] at h
    by_cases hstep : t.step = t
    · exact ⟨[], .stop hstep, Nat.succ_pos fuel⟩
    · rw [if_neg hstep] at h
      obtain ⟨steps, htrail, hlt⟩ := ih h
      exact ⟨t.step :: steps, .next hstep htrail, Nat.succ_lt_succ hlt⟩

theorem trail_of_trace {fuel : Nat} {steps : List Term} (h : t.trace fuel = some steps) :
    Trail t steps ∧ steps.length < fuel := by
  obtain ⟨all, hall, -⟩ := Option.map_eq_some_iff.mp h
  obtain ⟨steps', htrail, hlt⟩ := exists_trail_of_traceOnto hall
  rw [htrail.trace_eq, if_pos hlt] at h
  obtain rfl := Option.some.inj h
  exact ⟨htrail, hlt⟩

theorem exists_trail_of_getLast? {limit : Nat} {u : Term}
    (h : (t.reductions limit).getLast? = some u) (hu : u.step = u) :
    ∃ steps, Trail t steps ∧ steps.length < limit := by
  induction limit generalizing t with
  | zero => cases h
  | succ limit ih =>
    by_cases hstep : t.step = t
    · exact ⟨[], .stop hstep, Nat.succ_pos limit⟩
    · rw [reductions, if_neg hstep] at h
      have hrest : (t.step.reductions limit).getLast? = some u := by
        cases hitems : t.step.reductions limit with
        | nil =>
          -- `t` would be the last item, but it is no fixpoint
          rw [hitems] at h
          obtain rfl : t = u := Option.some.inj h
          exact absurd hu hstep
        | cons v items => rwa [hitems, List.getLast?_cons_cons] at h
      obtain ⟨steps, htrail, hlt⟩ := ih hrest
      exact ⟨t.step :: steps, .next hstep htrail, Nat.succ_lt_succ hlt⟩

theorem exists_trail_of_reductions? {limit : Nat} {items : List Term}
    (h : t.reductions? limit = some items) :
    ∃ steps, items = t :: steps ∧ Trail t steps ∧ steps.length < limit := by
  have hend : ((t.reductions limit).getLast?.any fun u => u.step = u) = true := by
    rw [reductions?] at h
    split at h
    · assumption
    · cases h
  obtain ⟨u, hlast, hu⟩ := (Option.any_eq_true _ _).mp hend
  obtain ⟨steps, htrail, hlt⟩ := exists_trail_of_getLast? hlast (of_decide_eq_true hu)
  rw [htrail.reductions?_eq_some hlt] at h
  exact ⟨steps, (Option.some.inj h).symm, htrail, hlt⟩

end

/-- The sequence begins with the term itself. -/
theorem reductions_succ_eq_cons (limit : Nat) (t : Term) :
    t.reductions (limit + 1) = t :: (t.reductions (limit + 1)).tail := by
  rw [reductions]
  split <;> rfl

/-- Reduction stops at the last term that tracing gives, within the same bound. -/
theorem normalize_eq_trace (fuel : Nat) (t : Term) :
    t.normalize fuel = (t.trace fuel).map fun steps => steps.getLastD t := by
  refine Option.ext fun n => ?_
  constructor
  · intro h
    obtain ⟨steps, htrail, hlt, rfl⟩ := exists_trail_of_normalize h
    rw [htrail.trace_eq, if_pos hlt, Option.map_some]
  · intro h
    obtain ⟨steps, hsteps, rfl⟩ := Option.map_eq_some_iff.mp h
    obtain ⟨htrail, hlt⟩ := trail_of_trace hsteps
    rw [htrail.normalize_eq, if_pos hlt]

/-- Tracing gives what the whole sequence holds after its first term, within the same bound. -/
theorem trace_eq_reductions? (fuel : Nat) (t : Term) :
    t.trace fuel = (t.reductions? fuel).map List.tail := by
  refine Option.ext fun steps => ?_
  constructor
  · intro h
    obtain ⟨htrail, hlt⟩ := trail_of_trace h
    rw [htrail.reductions?_eq_some hlt]
    rfl
  · intro h
    obtain ⟨items, hitems, rfl⟩ := Option.map_eq_some_iff.mp h
    obtain ⟨steps, rfl, htrail, hlt⟩ := exists_trail_of_reductions? hitems
    rw [htrail.trace_eq, if_pos hlt, List.tail_cons]

end Nameless.Term
