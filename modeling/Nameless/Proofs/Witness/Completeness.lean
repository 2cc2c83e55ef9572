/-
Nameless/Proofs/Witness/Completeness.lean

Running a term makes witnesses that are verified.

Checking derives the outcome again by another way than the one that made the witness:
normalization is traced step by step when the witness is made, and checked by the term that
reduction stops at together with a walk along the recorded steps.  Both go along the trail of
the term, so the bound that was enough for the one is enough for the other
(`verify_of_execute`).  Without a witness, running passes along the reduction sequence, which
is the same trail again (`Settings.execute_normalize`).
-/
import Nameless.Desk.Sheet
import Nameless.Proofs.Witness.RecordedSteps

namespace Nameless

theorem Outcome.same_refl (r : Outcome) : r.same r = true := by
  cases r with
  | value t => exact decide_eq_true rfl
  | closure env b => rw [same, Env.same_iff.mpr fun _ => rfl, beq_self_eq_true, Bool.and_self]

/-- Normalization gives the same whether results are proved or not; the witness apart. -/
theorem Settings.execute_normalize (prove numerals : Bool) (fuel : Nat) (t : Term) :
    (Settings.mk .normalize prove numerals).execute fuel t
      = (t.trace fuel).map fun steps =>
          ⟨steps.getLastD t, if prove then some (.ofSteps t steps) else none, "β", steps⟩ := by
  cases prove with
  | true => rfl
  | false =>
    rw [Term.trace_eq_reductions?, Option.map_map]
    rfl

namespace Witness

/-! ### Verification -/

theorem verify_ofSteps {fuel : Nat} {t : Term} {steps : List Term}
    (h : t.trace fuel = some steps) : (ofSteps t steps).verify fuel (.term t) = some true := by
  obtain ⟨htrail, hlt⟩ := Term.trail_of_trace h
  have hsteps := (stepsHold_iff htrail (steps.map .term)).mpr (.inr ⟨0, by simp⟩)
  rw [ofSteps, verify_norm_of_trail htrail hlt, hsteps, Item.term_same_iff.mpr rfl, Bool.and_true]

theorem verify_ofStep (fuel : Nat) (t : Term) : (ofStep t).verify fuel (.term t) = some true := by
  rw [verify_of_ne_composite (ofStep t) nofun, ofStep, leafHolds, Item.term_same_iff.mpr rfl]

theorem verify_eval {fuel : Nat} {t : Term} {r : Outcome} (h : t.eval fuel = some r) :
    (eval (.term t) (.outcome r)).verify fuel (.term t) = some true := by
  rw [verify_of_ne_composite (eval _ _) nofun, leafHolds, h, Option.map_some, Claimed.same,
    Outcome.same_refl]

/-- Whatever witness a run makes, it is verified within the bound of the run. -/
theorem verify_of_execute {s : Settings} {fuel : Nat} {t : Term} {e : Execution} {w : Witness}
    (h : s.execute fuel t = some e) (hw : e.witness = some w) :
    w.verify fuel (.term t) = some true := by
  obtain ⟨mode, prove, numerals⟩ := s
  cases mode with
  | normalize =>
    rw [Settings.execute_normalize] at h
    obtain ⟨steps, hsteps, rfl⟩ := Option.map_eq_some_iff.mp h
    cases prove with
    | true =>
      obtain rfl := Option.some.inj hw
      exact verify_ofSteps hsteps
    | false => cases hw
  | reduce =>
    obtain rfl := Option.some.inj h
    obtain rfl := Option.some.inj hw
    exact verify_ofStep fuel t
  | eval =>
    obtain ⟨r, hr, rfl⟩ := Option.map_eq_some_iff.mp h
    obtain rfl := Option.some.inj hw
    exact verify_eval hr

end Witness

end Nameless
