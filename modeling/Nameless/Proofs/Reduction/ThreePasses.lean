/-
Nameless/Proofs/Reduction/ThreePasses.lean

Contraction with a substitution that moves no index but the one it replaces.  The kernel's
substitution lowers the indices above its target on the way.  The textbook does it in
three passes:

    raise the argument,  put it for index 0,  lower what is free in the outcome.

The last pass may be refused, or capture an index, in general.  Here it does neither: all
occurrences of index 0 have been replaced, and nothing in a raised argument has come to
stand for it, however many binders have been crossed (`substKeeping_lowered`).  So both
ways agree (`contract_three_passes`).
-/
import Nameless.Proofs.Term.Lowering
import Nameless.Reduction.Redex

namespace Nameless.Term

/-- Puts `replacement` for the index `target`, shifted up by the binders crossed to get there,
and leaves every other index alone. -/
def substKeeping (target : Nat) (body replacement : Term) : Except NegativeIndex Term :=
  body.replace fun i d =>
    if i = target + d then replacement.shiftBy 0 d else .ok (var i)

theorem substKeeping_var (k i : Nat) (r : Term) :
    (var i).substKeeping k r = if i = k then .ok r else .ok (var i) := by
  rw [substKeeping, replace_var, Nat.add_zero]
  rfl

theorem substKeeping_lam_eq_ok_iff {k : Nat} {b r u : Term} :
    (lam b).substKeeping k r = .ok u ↔
      ∃ b', b.substKeeping (k + 1) (r.shift 0 1) = .ok b' ∧ lam b' = u := by
  have hraise (d : Nat) : (r.shift 0 1).shiftBy 0 d = r.shiftBy 0 (d + 1 : Nat) := by
    rw [← Int.natCast_zero, shiftBy_natCast, shiftBy_natCast, shift_one_shift]
  simp only [substKeeping, replace_lam_eq_ok_iff, hraise, Nat.add_assoc, Nat.add_comm 1]

theorem substKeeping_app_eq_ok_iff {k : Nat} {f x r u : Term} :
    (app f x).substKeeping k r = .ok u ↔
      ∃ f' x', f.substKeeping k r = .ok f' ∧ x.substKeeping k r = .ok x' ∧ app f' x' = u := by
  simp only [substKeeping, replace_app_eq_ok_iff]

/-- Below any number of binders, a raised replacement leaves nothing at the target, and so
lowering closes the gap there. -/
theorem substKeeping_lowered (b : Term) :
    ∀ (k : Nat) (a : Term), ∃ b', b.substKeeping k (a.shift k 1) = .ok b' ∧
      b'.shiftBy k (-1) = .ok (b.subst k a) := by
  induction b with
  | var i =>
    intro k a
    rcases Nat.lt_trichotomy i k with hi | rfl | hi
    · refine ⟨var i, by rw [substKeeping_var, if_neg (by omega)], ?_⟩
      rw [shiftBy_var, if_neg (by omega), subst_var_of_lt hi]
    · refine ⟨a.shift i 1, by rw [substKeeping_var, if_pos rfl], ?_⟩
      rw [subst_var_self]
      exact shiftBy_neg_shift a 1 i
    · refine ⟨var i, by rw [substKeeping_var, if_neg (by omega)], ?_⟩
      have hlower : (i : Int) + -1 = (i - 1 : Nat) := by omega
      rw [shiftBy_var, if_pos (by omega), subst_var_of_gt hi, hlower, ofIndex_natCast]
  | lam b ih =>
    intro k a
    -- crossing the binder and being raised may change places
    obtain ⟨b', hput, hlower⟩ := ih (k + 1) (a.shift 0 1)
    rw [shift_succ_shift_one] at hput
    rw [subst_lam]
    exact ⟨lam b', substKeeping_lam_eq_ok_iff.mpr ⟨b', hput, rfl⟩,
      shiftBy_lam_eq_ok_iff.mpr ⟨_, hlower, rfl⟩⟩
  | app f x ihf ihx =>
    intro k a
    obtain ⟨f', hputf, hlowerf⟩ := ihf k a
    obtain ⟨x', hputx, hlowerx⟩ := ihx k a
    rw [subst_app]
    exact ⟨app f' x', substKeeping_app_eq_ok_iff.mpr ⟨f', x', hputf, hputx, rfl⟩,
      shiftBy_app_eq_ok_iff.mpr ⟨_, _, hlowerf, hlowerx, rfl⟩⟩

/-- **Contraction in three passes.**  Raising the argument, putting it for index 0 with all other
indices kept, and lowering the outcome is never refused, and gives the contractum. -/
theorem contract_three_passes (b a : Term) :
    ∃ u,
      (do
        let a' ← a.shiftBy 0 1
        let b' ← b.substKeeping 0 a'
        b'.shiftBy 0 (-1)) = .ok u ∧
      (Item.term (app (lam b) a)).contract = .ok u := by
  obtain ⟨b', hput, hlower⟩ := substKeeping_lowered b 0 a
  have hraise : a.shiftBy 0 1 = .ok (a.shift 0 1) := shiftBy_natCast 0 1 a
  refine ⟨b.subst 0 a, ?_, rfl⟩
  rw [hraise]
  show (b.substKeeping 0 (a.shift 0 1) >>= fun b' => b'.shiftBy 0 (-1)) = _
  rw [hput]
  exact hlower

end Nameless.Term
