/-
Nameless/Proofs/Reduction/Renaming.lean

Reduction and the shifting of free indices.  A shift keeps the shape of a term, so the
search finds the redex in the same place, and contracting it passes the shift
(`shift_subst_of_ge`).  Hence one step commutes with a shift (`step_shift`),

    (t.shift c a).step = t.step.shift c a.

The loops compare a term with its step.  A shift is injective, so this comparison comes
out the same on both sides (`step_shift_eq_self_iff`), and the runs stop together: the
reduction sequence of a shifted term is the sequence of the term, shifted item by item.
-/
import Nameless.Proofs.Reduction.NormalOrder
import Nameless.Proofs.Term.ShiftImage

namespace Nameless.Term

/-! ### One step -/

theorem shift_ne_lam {f : Term} (hf : ∀ b, f ≠ lam b) (c a : Nat) : ∀ b, f.shift c a ≠ lam b := by
  intro b
  cases f with
  | var i =>
    rw [shift_var]
    split
    · exact Term.noConfusion
    · exact Term.noConfusion
  | lam b' => exact absurd rfl (hf b')
  | app g x =>
    rw [shift_app]
    exact Term.noConfusion

/-- A shift makes no redex and removes none. -/
theorem hasRedex_shift (t : Term) : ∀ c a : Nat, (t.shift c a).hasRedex = t.hasRedex := by
  induction t with
  | var i =>
    intro c a
    rw [shift_var]
    split
    · rw [hasRedex_var, hasRedex_var]
    · rfl
  | lam b ih =>
    intro c a
    rw [shift_lam, hasRedex_lam, hasRedex_lam, ih]
  | app f x ihf ihx =>
    intro c a
    rcases f.eq_lam_or_forall_ne with ⟨b, rfl⟩ | hf
    · rw [shift_app, shift_lam, hasRedex_redex, hasRedex_redex]
    · rw [shift_app, hasRedex_app (shift_ne_lam hf c a), hasRedex_app hf, ihf, ihx]

/-- A step commutes with a shift. -/
theorem step_shift (t : Term) : ∀ c a : Nat, (t.shift c a).step = t.step.shift c a := by
  induction t with
  | var i =>
    intro c a
    have hvar : (var i).hasRedex = false := hasRedex_var i
    rw [step_of_hasRedex_eq_false hvar]
    exact step_of_hasRedex_eq_false ((hasRedex_shift _ c a).trans hvar)
  | lam b ih =>
    intro c a
    rw [shift_lam, step_lam, step_lam, shift_lam, ih]
  | app f x ihf ihx =>
    intro c a
    rcases f.eq_lam_or_forall_ne with ⟨b, rfl⟩ | hf
    · -- the contracted binder is gone, so the cutoff in the body is one lower
      rw [shift_app, shift_lam, step_redex, step_redex, shift_subst_of_ge b a x (Nat.zero_le c)]
    · have hf' := shift_ne_lam hf c a
      rcases hredex : f.hasRedex with - | -
      · rw [shift_app, step_app_of_hasRedex_eq_false hf' ((hasRedex_shift f c a).trans hredex),
          step_app_of_hasRedex_eq_false hf hredex, shift_app, ihx]
      · rw [shift_app, step_app_of_hasRedex hf' ((hasRedex_shift f c a).trans hredex),
          step_app_of_hasRedex hf hredex, shift_app, ihf]

/-- A step leaves the shifted term as it is exactly if it leaves the term as it is. -/
theorem step_shift_eq_self_iff {t : Term} {c a : Nat} :
    (t.shift c a).step = t.shift c a ↔ t.step = t := by
  rw [step_shift]
  exact (shift_injective c a).eq_iff

/-! ### Runs -/

theorem reductions_shift (c a limit : Nat) :
    ∀ t : Term, (t.shift c a).reductions limit = (t.reductions limit).map (shift c a) := by
  induction limit with
  | zero =>
    intro t
    rfl
  | succ limit ih =>
    intro t
    rw [reductions, reductions]
    -- the comparison that ends the loop comes out the same on both sides
    by_cases hstop : t.step = t
    · rw [if_pos hstop, if_pos (step_shift_eq_self_iff.mpr hstop)]
      rfl
    · rw [if_neg hstop, if_neg (step_shift_eq_self_iff.not.mpr hstop), step_shift, ih]
      rfl

theorem reductions?_shift (c a limit : Nat) (t : Term) :
    (t.shift c a).reductions? limit = (t.reductions? limit).map (List.map (shift c a)) := by
  have hlast : (((t.reductions limit).map (shift c a)).getLast?.any fun u => u.step = u)
      = ((t.reductions limit).getLast?.any fun u => u.step = u) := by
    rw [List.getLast?_map, Option.any_map]
    simp only [step_shift_eq_self_iff]
  rw [reductions?, reductions?, reductions_shift, hlast]
  split
  · rfl
  · rfl

theorem normalize_shift (c a fuel : Nat) :
    ∀ t : Term, (t.shift c a).normalize fuel = (t.normalize fuel).map (shift c a) := by
  induction fuel with
  | zero =>
    intro t
    rfl
  | succ fuel ih =>
    intro t
    rw [normalize, normalize]
    by_cases hstop : t.step = t
    · rw [if_pos hstop, if_pos (step_shift_eq_self_iff.mpr hstop)]
      rfl
    · rw [if_neg hstop, if_neg (step_shift_eq_self_iff.not.mpr hstop), step_shift, ih]

/-- **Reduction commutes with the renaming of free indices.**  A step on the shifted term is the
shifted step.  So the reduction sequences are the same up to the shift, item by item and with
the same end if they have one; normalization returns on both terms or on neither, within the
same bound, and what it returns is the same up to the shift. -/
theorem reduction_shiftBy (t : Term) (c a : Nat) :
    t.shiftBy c a = .ok (t.shift c a) ∧
    t.step.shiftBy c a = .ok (t.shift c a).step ∧
    (∀ limit,
      (t.shift c a).reductions limit = (t.reductions limit).map (shift c a) ∧
      (t.shift c a).reductions? limit = (t.reductions? limit).map (List.map (shift c a))) ∧
    ((∃ fuel n, (t.shift c a).normalize fuel = some n) ↔ ∃ fuel n, t.normalize fuel = some n) ∧
    (∀ fuel n, (t.shift c a).normalize fuel = some n ↔
      ∃ m, t.normalize fuel = some m ∧ m.shiftBy c a = .ok n) := by
  have hnormalize (fuel : Nat) (n : Term) : (t.shift c a).normalize fuel = some n ↔
      ∃ m, t.normalize fuel = some m ∧ m.shiftBy c a = .ok n := by
    simp only [normalize_shift, Option.map_eq_some_iff, shiftBy_natCast_eq_ok_iff]
  refine ⟨shiftBy_natCast c a t, ?_, fun limit => ⟨?_, ?_⟩, ?_, hnormalize⟩
  · rw [shiftBy_natCast, step_shift]
  · exact reductions_shift c a limit t
  · exact reductions?_shift c a limit t
  · refine exists_congr fun fuel => ?_
    simp only [hnormalize, shiftBy_natCast_eq_ok_iff]
    constructor
    · rintro ⟨_, m, hm, -⟩
      exact ⟨m, hm⟩
    · rintro ⟨m, hm⟩
      exact ⟨m.shift c a, m, hm, rfl⟩

end Nameless.Term
