/-
Nameless/Proofs/Witness/RecordedSteps.lean

Which recorded steps are verified.

A witness of normalization may record steps.  Checking walks along them: each must be the
step of the term before it, and the last one must be the recorded result, which is compared
with the term that reduction stops at.  The walk itself does not stop where reduction does,
and it does not ask whether it has come so far.  Still there is little freedom: no term
before the end of the reduction sequence is the last one, so a shorter walk ends somewhere
else, and after the end there is only the last term, over and over (`followSteps_eq_some_iff`):

    followSteps t items = some n  ↔  ∃ k, items = steps ++ [n, .., n]  (k times)

where `steps` is the trail of `t` and `n` its last term.  `verify_norm_eq_true_iff` says what
this means for the witness as a whole.
-/
import Nameless.Proofs.Reduction.Sequence
import Nameless.Proofs.Witness.Soundness

namespace Nameless.Witness

open Term (var lam app omega Trail)

/-! ### The walk -/

/-- At a fixpoint the walk goes nowhere, however long it is. -/
theorem followSteps_of_step_eq_self {t : Term} (h : t.step = t) (items : List Item) :
    followSteps t items = some t ↔ ∃ k, items = (List.replicate k t).map Item.term := by
  induction items with
  | nil => exact ⟨fun _ => ⟨0, rfl⟩, fun _ => rfl⟩
  | cons item items ih =>
    constructor
    · intro hfollow
      cases item with
      | datum d => cases hfollow
      | term u =>
        rw [followSteps, h] at hfollow
        by_cases htu : t = u
        · subst htu
          rw [if_pos rfl] at hfollow
          obtain ⟨k, rfl⟩ := ih.mp hfollow
          exact ⟨k + 1, rfl⟩
        · rw [if_neg htu] at hfollow
          cases hfollow
    · rintro ⟨k, hk⟩
      cases k with
      | zero => cases hk
      | succ k =>
        obtain ⟨rfl, hrest⟩ := List.cons.inj hk
        rw [followSteps, if_pos h]
        exact ih.mpr ⟨k, hrest⟩

/-- The walk ends in the last term of a trail if and only if it makes all its steps, and
stays there. -/
theorem followSteps_eq_some_iff {t : Term} {steps : List Term} (h : Trail t steps)
    (items : List Item) :
    followSteps t items = some (steps.getLastD t) ↔
      ∃ k, items = (steps ++ List.replicate k (steps.getLastD t)).map Item.term := by
  induction h generalizing items with
  | stop hstep => exact followSteps_of_step_eq_self hstep items
  | @next t steps hstep htrail ih =>
    rw [List.getLastD_cons]
    constructor
    · intro hfollow
      cases items with
      | nil =>
        -- `t` is not the last term, since a step changes it
        have ht : t = steps.getLastD t.step := Option.some.inj hfollow
        have hlast := htrail.step_getLastD
        rw [← ht] at hlast
        exact absurd hlast hstep
      | cons item items =>
        cases item with
        | datum d => cases hfollow
        | term u =>
          rw [followSteps] at hfollow
          by_cases htu : t.step = u
          · subst htu
            rw [if_pos rfl] at hfollow
            obtain ⟨k, rfl⟩ := (ih items).mp hfollow
            exact ⟨k, rfl⟩
          · rw [if_neg htu] at hfollow
            cases hfollow
    · rintro ⟨k, rfl⟩
      rw [List.cons_append, List.map_cons, followSteps, if_pos rfl]
      exact (ih _).mpr ⟨k, rfl⟩

/-! ### Verification -/

/-- A witness that is no composite is verified by its own check. -/
theorem verify_of_ne_composite (w : Witness) (h : ∀ parts label, w ≠ composite parts label)
    (fuel : Nat) (t : Term) : w.verify fuel (.term t) = leafHolds fuel t w := by
  rw [verify, allHold]
  · cases leafHolds fuel t w with
    | none => rfl
    | some holds =>
      cases holds with
      | false => rfl
      | true =>
        dsimp only
        rw [allHold]
  · exact h

/-- The recorded steps hold for the last term of a trail if there are none, or if they are the
trail with further copies of that term. -/
theorem stepsHold_iff {t : Term} {steps : List Term} (h : Trail t steps) (items : List Item) :
    stepsHold t (.term (steps.getLastD t)) items = true ↔
      items = [] ∨ ∃ k, items = (steps ++ List.replicate k (steps.getLastD t)).map Item.term := by
  have hwalk : ((followSteps t items).any fun u =>
      (Item.term u).same (.term (steps.getLastD t))) = true
        ↔ followSteps t items = some (steps.getLastD t) := by
    rw [Option.any_eq_true]
    constructor
    · rintro ⟨u, hu, hsame⟩
      rw [hu, Item.term.inj (Item.term_same_iff.mp hsame)]
    · intro hfollow
      exact ⟨_, hfollow, Item.term_same_iff.mpr rfl⟩
  rw [stepsHold, Bool.or_eq_true, List.isEmpty_iff, hwalk, followSteps_eq_some_iff h]

/-- What is checked of a witness of normalization, for a term with a trail. -/
theorem verify_norm_of_trail {t : Term} {steps : List Term} {fuel : Nat} (h : Trail t steps)
    (hlt : steps.length < fuel) (x r : Item) (items : List Item) :
    (norm x r items).verify fuel (.term t)
      = some ((Item.term (steps.getLastD t)).same r && stepsHold t r items) := by
  rw [verify_of_ne_composite (norm x r items) nofun, leafHolds, h.normalize_eq, if_pos hlt,
    Option.map_some]

/-- **What a witness of normalization with recorded steps says.**  Let reduction of `e` stop at
`n`; then `e.reductions fuel` is its whole reduction sequence.  The witness is verified for `e`
if and only if its result is `n` and its steps, unless it records none, are the terms of the
sequence after the first, each of them in its place, and then any number of copies of `n`. -/
theorem verify_norm_eq_true_iff {fuel : Nat} {e n : Term} (h : e.normalize fuel = some n) :
    (∀ limit, e.reductions limit = (e.reductions fuel).take limit) ∧
    ∀ fuel', fuel ≤ fuel' → ∀ (x r : Item) (s : List Item),
      ∃ holds, (norm x r s).verify fuel' (.term e) = some holds ∧
        (holds = true ↔ r = .term n ∧
          (s = [] ∨
            ∃ k, s = ((e.reductions fuel).tail ++ List.replicate k n).map Item.term)) := by
  obtain ⟨steps, htrail, hlt, rfl⟩ := Term.exists_trail_of_normalize h
  have hitems : e.reductions fuel = e :: steps := by
    rw [htrail.reductions_eq, List.take_of_length_le hlt]
  rw [hitems]
  refine ⟨htrail.reductions_eq, fun fuel' hle x r s => ?_⟩
  refine ⟨_, verify_norm_of_trail htrail (Nat.lt_of_lt_of_le hlt hle) x r s, ?_⟩
  rw [Bool.and_eq_true, Item.term_same_iff]
  refine and_congr_right fun hr => ?_
  rw [hr, stepsHold_iff htrail, List.tail_cons]

/-- `(λ. 0 (λ. 0 0)) (λ. 5 (0 0))` becomes `(λ. 5 (0 0)) (λ. 0 0)` and then `4 Ω`, which a step
leaves as it is.  The two steps are verified with copies of `4 Ω` after them, but not if the
first is skipped, the last is left out, or a plain value stands in their place. -/
theorem verify_norm_eq_true_iff_stuck :
    let e := app (lam (app (var 0) (lam (app (var 0) (var 0)))))
      (lam (app (var 5) (app (var 0) (var 0))))
    let u := app (lam (app (var 5) (app (var 0) (var 0)))) (lam (app (var 0) (var 0)))
    let n := app (var 4) omega
    let w := norm (.term (var 7)) (.term n)
    e.normalize 3 = some n ∧ e.reductions 3 = [e, u, n] ∧
    (w [.term u, .term n, .term n, .term n]).verify 3 (.term e) = some true ∧
    (w [.term n]).verify 3 (.term e) = some false ∧
    (w [.term u]).verify 3 (.term e) = some false ∧
    (w [.datum .absent]).verify 3 (.term e) = some false := by
  intro e u n w
  have hnorm : e.normalize 3 = some n := by decide +kernel
  have hitems : e.reductions 3 = [e, u, n] := by decide +kernel
  obtain ⟨-, hverify⟩ := verify_norm_eq_true_iff hnorm
  rw [hitems] at hverify
  have hfalse : ∀ s : List Item, s ≠ [] →
      (∀ k, s ≠ ([u, n] ++ List.replicate k n).map Item.term) →
      (w s).verify 3 (.term e) = some false := by
    intro s hs hk
    obtain ⟨holds, hholds, hiff⟩ := hverify 3 (Nat.le_refl 3) (.term (var 7)) (.term n) s
    cases holds with
    | false => exact hholds
    | true =>
      obtain ⟨-, hnil | ⟨k, hsteps⟩⟩ := hiff.mp rfl
      · exact absurd hnil hs
      · exact absurd hsteps (hk k)
  refine ⟨hnorm, hitems, ?_, hfalse _ nofun fun k hk => ?_, hfalse _ nofun nofun,
    hfalse _ nofun nofun⟩
  · obtain ⟨holds, hholds, hiff⟩ := hverify 3 (Nat.le_refl 3) (.term (var 7)) (.term n)
      [.term u, .term n, .term n, .term n]
    rw [hiff.mpr ⟨rfl, .inr ⟨2, rfl⟩⟩] at hholds
    exact hholds
  · have hun : n = u := Item.term.inj (List.cons.inj hk).1
    cases (Term.app.inj hun).1

end Nameless.Witness
