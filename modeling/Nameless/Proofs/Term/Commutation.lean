/-
Nameless/Proofs/Term/Commutation.lean

How shifting and substitution pass each other where cutoffs, amounts and targets may be
any integers.  `Term.shiftBy` and `Term.substAt` refuse an index that would fall below
zero.  With natural numbers nothing falls, so a chain of them runs through to its end,
and it ends in the term that `shift` and `subst` give.  The laws of these carry over:
both sides of each law are carried out, and come to the same term.

* two substitutions change places (`substAt_substAt`);
* a shift passes a substitution on either side of its target, and is undone by a
  substitution into the gap it has opened (`shiftBy_substAt`).
-/
import Nameless.Proofs.Term.Substitution

namespace Nameless.Term

/-! ### Chains with natural numbers -/

theorem substAt_bind (k : Nat) (m r : Term) (next : Term → Except NegativeIndex Term) :
    (m.substAt k r >>= next) = next (m.subst k r) := by
  rw [substAt_natCast]
  rfl

theorem shiftBy_bind (c a : Nat) (m : Term) (next : Term → Except NegativeIndex Term) :
    (m.shiftBy c a >>= next) = next (m.shift c a) := by
  rw [shiftBy_natCast]
  rfl

/-- Putting for `k` into a body and a replacement that are both shifted first. -/
theorem substAt_of_shiftBy (k c c' a : Nat) (m n : Term) :
    (do
      let m' ← m.shiftBy c a
      let n' ← n.shiftBy c' a
      m'.substAt k n') = .ok ((m.shift c a).subst k (n.shift c' a)) := by
  rw [shiftBy_bind, shiftBy_bind, substAt_natCast]

/-! ### Two substitutions -/

/-- **The substitution lemma.**  For `i ≤ j`, putting `n` for `i` and then `l` for `j` is the
same as putting `l` for `j + 1` first, with a gap at `i`, and then for `i` what putting `l` for
`j` makes of `n`.  No index falls below zero on either way. -/
theorem substAt_substAt (m n l : Term) {i j : Nat} (h : i ≤ j) :
    (m.subst i n).subst j l = (m.subst (j + 1) (l.shift i 1)).subst i (n.subst j l) ∧
    (do
      let m' ← m.substAt i n
      m'.substAt j l) = .ok ((m.subst i n).subst j l) ∧
    (do
      let l' ← l.shiftBy i 1
      let m' ← m.substAt (j + 1) l'
      let n' ← n.substAt j l
      m'.substAt i n') = .ok ((m.subst i n).subst j l) := by
  have hsubst := subst_subst m n l h
  refine ⟨hsubst, ?_, ?_⟩
  · rw [substAt_bind, substAt_natCast]
  · rw [hsubst, ← Int.natCast_one, ← Int.natCast_add, shiftBy_bind, substAt_bind, substAt_bind,
      substAt_natCast]

/-- Under a binder, the indices of `λ. 0 1 2 3 4 5` are bound, below 1, 1 itself, between 1 and
3, 3 itself, and above 3. -/
theorem substAt_substAt_ranges :
    let m := lam (app (app (app (app (app (var 0) (var 1)) (var 2)) (var 3)) (var 4)) (var 5))
    let n := app (var 0) (var 2)
    let l := lam (app (var 0) (var 1))
    let l' := lam (app (var 0) (var 2))
    let u := lam (app (app (app (app (app (var 0) (var 1)) (app (var 1) l')) (var 2)) l') (var 3))
    (do
      let m' ← m.substAt (1 : Nat) n
      m'.substAt (2 : Nat) l) = .ok u ∧
    (do
      let l' ← l.shiftBy (1 : Nat) 1
      let m' ← m.substAt ((2 : Nat) + 1) l'
      let n' ← n.substAt (2 : Nat) l
      m'.substAt (1 : Nat) n') = .ok u := by
  intro m n l l' u
  obtain ⟨-, hleft, hright⟩ := substAt_substAt m n l (show 1 ≤ 2 by decide)
  have hu : (m.subst 1 n).subst 2 l = u := by decide +kernel
  rw [hu] at hleft hright
  exact ⟨hleft, hright⟩

/-! ### Shifts and substitution -/

/-- **A shift passes a substitution.**  One that begins at the target or below it moves the
target; one that begins at the target or above it begins one higher in the body.  One that
opens a gap at the target is undone by the substitution. -/
theorem shiftBy_substAt (m n : Term) (i c a : Nat) :
    (do
      let m' ← m.substAt i n
      m'.shiftBy c a) = .ok ((m.subst i n).shift c a) ∧
    (c ≤ i →
      (m.subst i n).shift c a = (m.shift c a).subst (i + a) (n.shift c a) ∧
      (do
        let m' ← m.shiftBy c a
        let n' ← n.shiftBy c a
        m'.substAt (i + a) n') = .ok ((m.subst i n).shift c a)) ∧
    (i ≤ c →
      (m.subst i n).shift c a = (m.shift (c + 1) a).subst i (n.shift c a) ∧
      (do
        let m' ← m.shiftBy (c + 1) a
        let n' ← n.shiftBy c a
        m'.substAt i n') = .ok ((m.subst i n).shift c a)) ∧
    (m.shift i 1).subst i n = m ∧
    (do
      let m' ← m.shiftBy i 1
      m'.substAt i n) = .ok m := by
  have hcancel : (m.shift i 1).subst i n = m := by
    rw [subst_shift m n (Nat.le_refl i) (Nat.le_refl i), shift_zero]
  refine ⟨?_, fun hle => ?_, fun hge => ?_, hcancel, ?_⟩
  · rw [substAt_bind, shiftBy_natCast]
  · have hshift := shift_subst_of_le m a n hle
    refine ⟨hshift, ?_⟩
    rw [hshift, ← Int.natCast_add, substAt_of_shiftBy]
  · have hshift := shift_subst_of_ge m a n hge
    refine ⟨hshift, ?_⟩
    rw [hshift, ← Int.natCast_one, ← Int.natCast_add, substAt_of_shiftBy]
  · rw [← Int.natCast_one, shiftBy_bind, substAt_natCast, hcancel]

/-- A shift by 3 from below the target 2 and from above the target 1, and a gap at 1. -/
theorem shiftBy_substAt_sides :
    let m := lam (app (app (app (var 0) (var 1)) (app (var 2) (var 3))) (var 4))
    let n := app (var 0) (var 2)
    (do
      let m' ← m.shiftBy (1 : Nat) (3 : Nat)
      let n' ← n.shiftBy (1 : Nat) (3 : Nat)
      m'.substAt ((2 : Nat) + (3 : Nat)) n')
      = .ok (lam (app (app (app (var 0) (var 1)) (app (var 5) (app (var 1) (var 6)))) (var 6))) ∧
    (do
      let m' ← m.shiftBy ((2 : Nat) + 1) (3 : Nat)
      let n' ← n.shiftBy (2 : Nat) (3 : Nat)
      m'.substAt (1 : Nat) n')
      = .ok (lam (app (app (app (var 0) (var 1)) (app (app (var 1) (var 6)) (var 2))) (var 6))) ∧
    (do
      let m' ← m.shiftBy (1 : Nat) 1
      m'.substAt (1 : Nat) n) = .ok m := by
  intro m n
  obtain ⟨-, hbelow, -, -⟩ := shiftBy_substAt m n 2 1 3
  obtain ⟨-, -, habove, -, hgap⟩ := shiftBy_substAt m n 1 2 3
  obtain ⟨-, hbelow⟩ := hbelow (by decide)
  obtain ⟨-, habove⟩ := habove (by decide)
  refine ⟨hbelow.trans (congrArg Except.ok ?_), habove.trans (congrArg Except.ok ?_), hgap⟩
  · decide +kernel
  · decide +kernel

end Nameless.Term
