/-
Nameless/Proofs/Term/Substitution.lean

The laws of shifting and substitution.  Both are computed in one pass that
compares each index with the number of binders around it; here they get their
recursive equations (`subst_var`, `subst_lam`, `subst_app`, beside those of
`shift`), and from these everything else follows by induction on the term:

* shifts compose (`shift_shift_of_mem`) and commute (`shift_shift_comm`);
* a shift passes a substitution on either side of its target
  (`shift_subst_of_le`, `shift_subst_of_ge`), and a gap that a shift has opened
  is closed again by substituting into it (`subst_shift`);
* two substitutions change places (`subst_subst`):

    (M.subst i N).subst j L
      = (M.subst (j + 1) (L.shift i 1)).subst i (N.subst j L)     for i ≤ j.

In each of them an index is in one of a few ranges relative to the cutoffs and
targets.  The variable cases name the range and let the equations for that range
rewrite; the abstraction cases move all cutoffs and targets up by one.
-/
import Nameless.Term.Shift

namespace Nameless.Term

/-! ### Equations for a variable, by the range of its index -/

theorem shift_var_of_le {c i : Nat} (h : c ≤ i) (a : Nat) :
    (var i).shift c a = var (i + a) := by
  rw [shift_var, if_pos h]

theorem shift_var_of_lt {c i : Nat} (h : i < c) (a : Nat) : (var i).shift c a = var i := by
  rw [shift_var, if_neg (Nat.not_le.mpr h)]

theorem subst_var (k i : Nat) (r : Term) :
    (var i).subst k r = if i = k then r else if k < i then var (i - 1) else var i := by
  simp only [subst, mapVars_var, Nat.add_zero, shift_zero]

theorem subst_var_self (k : Nat) (r : Term) : (var k).subst k r = r := by
  rw [subst_var, if_pos rfl]

theorem subst_var_of_lt {k i : Nat} (h : i < k) (r : Term) : (var i).subst k r = var i := by
  rw [subst_var, if_neg (by omega), if_neg (by omega)]

theorem subst_var_of_gt {k i : Nat} (h : k < i) (r : Term) :
    (var i).subst k r = var (i - 1) := by
  rw [subst_var, if_neg (by omega), if_pos h]

@[simp] theorem subst_app (k : Nat) (f a r : Term) :
    (app f a).subst k r = app (f.subst k r) (a.subst k r) := by
  simp only [subst, mapVars_app]

/-! ### Shifts among themselves -/

/-- A second shift whose cutoff lies in the gap that the first has opened widens the gap. -/
theorem shift_shift_of_mem (t : Term) :
    ∀ {c c' a : Nat} (b : Nat), c ≤ c' → c' ≤ c + a →
      (t.shift c a).shift c' b = t.shift c (a + b) := by
  induction t with
  | var i =>
    intro c c' a b hle hmem
    rcases Nat.lt_or_ge i c with hi | hi
    · rw [shift_var_of_lt hi, shift_var_of_lt hi, shift_var_of_lt (by omega)]
    · rw [shift_var_of_le hi, shift_var_of_le hi, shift_var_of_le (by omega), Nat.add_assoc]
  | lam m ih =>
    intro c c' a b hle hmem
    rw [shift_lam, shift_lam, shift_lam, ih b (by omega) (by omega)]
  | app f x ihf ihx =>
    intro c c' a b hle hmem
    rw [shift_app, shift_app, shift_app, ihf b hle hmem, ihx b hle hmem]

/-- Two shifts change places; the lower one moves the cutoff of the upper one. -/
theorem shift_shift_comm (t : Term) :
    ∀ {c c' : Nat} (a b : Nat), c' ≤ c →
      (t.shift c a).shift c' b = (t.shift c' b).shift (c + b) a := by
  induction t with
  | var i =>
    intro c c' a b hle
    rcases Nat.lt_or_ge i c' with hi | hi
    · rw [shift_var_of_lt (by omega), shift_var_of_lt hi, shift_var_of_lt (by omega)]
    · rcases Nat.lt_or_ge i c with hic | hic
      · rw [shift_var_of_lt hic, shift_var_of_le hi, shift_var_of_lt (by omega)]
      · rw [shift_var_of_le hic, shift_var_of_le (by omega), shift_var_of_le hi,
          shift_var_of_le (by omega), Nat.add_right_comm]
  | lam m ih =>
    intro c c' a b hle
    rw [shift_lam, shift_lam, shift_lam, shift_lam, ih a b (by omega), Nat.add_right_comm]
  | app f x ihf ihx =>
    intro c c' a b hle
    rw [shift_app, shift_app, shift_app, shift_app, ihf a b hle, ihx a b hle]

/-- A shift one binder further in, seen from outside it. -/
theorem shift_succ_shift_one (t : Term) (c a : Nat) :
    (t.shift 0 1).shift (c + 1) a = (t.shift c a).shift 0 1 :=
  (shift_shift_comm t a 1 (Nat.zero_le c)).symm

/-- Crossing `d` binders after one more. -/
theorem shift_one_shift (t : Term) (d : Nat) : (t.shift 0 1).shift 0 d = t.shift 0 (d + 1) := by
  rw [shift_shift_of_mem t d (Nat.le_refl 0) (by omega), Nat.add_comm]

/-- Substitution enters an abstraction with the target and the replacement moved past the
binder. -/
@[simp] theorem subst_lam (k : Nat) (b r : Term) :
    (lam b).subst k r = lam (b.subst (k + 1) (r.shift 0 1)) := by
  simp only [subst, mapVars_lam, shift_one_shift, Nat.add_assoc, Nat.add_comm 1]

/-! ### Shifts and substitution -/

/-- Substituting at an index inside the gap that a shift has opened closes it by one. -/
theorem subst_shift (t : Term) :
    ∀ {c k a : Nat} (r : Term), c ≤ k → k ≤ c + a →
      (t.shift c (a + 1)).subst k r = t.shift c a := by
  induction t with
  | var i =>
    intro c k a r hle hmem
    rcases Nat.lt_or_ge i c with hi | hi
    · rw [shift_var_of_lt hi, shift_var_of_lt hi, subst_var_of_lt (by omega)]
    · rw [shift_var_of_le hi, shift_var_of_le hi, subst_var_of_gt (by omega)]
      rfl
  | lam m ih =>
    intro c k a r hle hmem
    rw [shift_lam, shift_lam, subst_lam, ih _ (by omega) (by omega)]
  | app f x ihf ihx =>
    intro c k a r hle hmem
    rw [shift_app, shift_app, subst_app, ihf r hle hmem, ihx r hle hmem]

/-- A shift that ends below the target moves the target. -/
theorem shift_subst_of_le (m : Term) :
    ∀ {c i : Nat} (a : Nat) (n : Term), c ≤ i →
      (m.subst i n).shift c a = (m.shift c a).subst (i + a) (n.shift c a) := by
  induction m with
  | var v =>
    intro c i a n hle
    rcases Nat.lt_trichotomy v i with hv | rfl | hv
    · rw [subst_var_of_lt hv]
      rcases Nat.lt_or_ge v c with hvc | hvc
      · rw [shift_var_of_lt hvc, subst_var_of_lt (by omega)]
      · rw [shift_var_of_le hvc, subst_var_of_lt (by omega)]
    · rw [subst_var_self, shift_var_of_le hle, subst_var_self]
    · rw [subst_var_of_gt hv, shift_var_of_le (by omega), shift_var_of_le (by omega),
        subst_var_of_gt (by omega)]
      congr 1
      omega
  | lam b ih =>
    intro c i a n hle
    rw [subst_lam, shift_lam, shift_lam, subst_lam, ih a _ (by omega), shift_succ_shift_one,
      Nat.add_right_comm]
  | app f x ihf ihx =>
    intro c i a n hle
    rw [subst_app, shift_app, shift_app, subst_app, ihf a n hle, ihx a n hle]

/-- A shift that starts above the target starts one higher in the body. -/
theorem shift_subst_of_ge (m : Term) :
    ∀ {c i : Nat} (a : Nat) (n : Term), i ≤ c →
      (m.subst i n).shift c a = (m.shift (c + 1) a).subst i (n.shift c a) := by
  induction m with
  | var v =>
    intro c i a n hle
    rcases Nat.lt_trichotomy v i with hv | rfl | hv
    · rw [subst_var_of_lt hv, shift_var_of_lt (by omega), shift_var_of_lt (by omega),
        subst_var_of_lt hv]
    · rw [subst_var_self, shift_var_of_lt (by omega), subst_var_self]
    · rw [subst_var_of_gt hv]
      rcases Nat.lt_or_ge c v with hvc | hvc
      · rw [shift_var_of_le (by omega), shift_var_of_le (by omega), subst_var_of_gt (by omega)]
        congr 1
        omega
      · rw [shift_var_of_lt (by omega), shift_var_of_lt (by omega), subst_var_of_gt hv]
  | lam b ih =>
    intro c i a n hle
    rw [subst_lam, shift_lam, shift_lam, subst_lam, ih a _ (by omega), shift_succ_shift_one]
  | app f x ihf ihx =>
    intro c i a n hle
    rw [subst_app, shift_app, shift_app, subst_app, ihf a n hle, ihx a n hle]

/-! ### Two substitutions -/

/-- **The substitution lemma.**  The outer substitution may go first, at a target and with a
replacement that still count the index the inner one removes. -/
theorem subst_subst (m : Term) :
    ∀ {i j : Nat} (n l : Term), i ≤ j →
      (m.subst i n).subst j l = (m.subst (j + 1) (l.shift i 1)).subst i (n.subst j l) := by
  induction m with
  | var v =>
    intro i j n l hle
    rcases Nat.lt_trichotomy v i with hv | rfl | hv
    · rw [subst_var_of_lt hv, subst_var_of_lt (by omega), subst_var_of_lt (by omega),
        subst_var_of_lt hv]
    · rw [subst_var_self, subst_var_of_lt (by omega), subst_var_self]
    · rw [subst_var_of_gt hv]
      rcases Nat.lt_trichotomy v (j + 1) with hvj | rfl | hvj
      · rw [subst_var_of_lt (by omega), subst_var_of_lt hvj, subst_var_of_gt hv]
      · -- the outer replacement arrives with a gap at `i`, which the inner target closes
        rw [Nat.add_sub_cancel, subst_var_self, subst_var_self,
          subst_shift l _ (Nat.le_refl i) (Nat.le_refl i), shift_zero]
      · rw [subst_var_of_gt (by omega), subst_var_of_gt hvj, subst_var_of_gt (by omega)]
  | lam b ih =>
    intro i j n l hle
    -- under the binder both replacements are shifted, and the shifts have to pass outwards
    rw [subst_lam, subst_lam, subst_lam, subst_lam, ih _ _ (by omega), shift_succ_shift_one,
      ← shift_subst_of_le n 1 l (Nat.zero_le j)]
  | app f x ihf ihx =>
    intro i j n l hle
    rw [subst_app, subst_app, subst_app, subst_app, ihf n l hle, ihx n l hle]

end Nameless.Term
