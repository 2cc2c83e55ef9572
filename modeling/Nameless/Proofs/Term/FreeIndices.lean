/-
Nameless/Proofs/Term/FreeIndices.lean

Free indices.  `freeIndices` walks the term, subtracts the depth from every index that
reaches past it, and sorts what is left; `Free k t` says by recursion on the term that
`k` occurs free.  The list holds exactly the indices that are free
(`mem_freeIndices`), and a term without any is the same under every shift
(`Closed.shift_eq`).  In general a shift leaves a gap between the free indices below
its cutoff and those above (`free_shift`), and a substitution closes the gap that its
target leaves and brings in what is free in the replacement (`free_subst`).

Written forms limit all indices, whether they are free or bound: `EachIndex P t` says
that each of them, as it stands in the term, has the property `P`.
-/
import Mathlib.Data.Finset.Dedup
import Mathlib.Data.List.Sort
import Nameless.Proofs.Term.Substitution

namespace Nameless.Term

/-! ### The list and the predicate -/

theorem mem_eraseRepsBy_loop (k : Nat) (ns : List Nat) :
    ∀ (n : Nat) (passed : List Nat),
      k ∈ List.eraseRepsBy.loop (· == ·) n ns passed ↔ k ∈ passed ∨ k = n ∨ k ∈ ns := by
  induction ns with
  | nil =>
    intro n passed
    simp [List.eraseRepsBy.loop, or_comm]
  | cons m ns ih =>
    intro n passed
    rw [List.eraseRepsBy.loop]
    by_cases h : n = m
    · subst h
      simp only [beq_self_eq_true, ih, List.mem_cons, or_self_left]
    · simp only [beq_eq_false_iff_ne.mpr h, ih, List.mem_cons]
      tauto

/-- Dropping repetitions keeps every number. -/
theorem mem_eraseReps (k : Nat) (ns : List Nat) : k ∈ ns.eraseReps ↔ k ∈ ns := by
  rcases ns with - | ⟨n, ns⟩
  · rfl
  · simp [List.eraseReps, List.eraseRepsBy, mem_eraseRepsBy_loop]

theorem mem_freeOnto (t : Term) :
    ∀ (d k : Nat) (rest : List Nat), k ∈ t.freeOnto d rest ↔ t.Free (k + d) ∨ k ∈ rest := by
  induction t with
  | var i =>
    intro d k rest
    by_cases h : d ≤ i
    · rw [freeOnto, if_pos h, List.mem_cons, Free]
      have hk : k = i - d ↔ i = k + d := by omega
      rw [hk]
    · rw [freeOnto, if_neg h, Free]
      have hk : ¬ i = k + d := by omega
      simp only [hk, false_or]
  | lam b ih =>
    intro d k rest
    rw [freeOnto, ih, Free, Nat.add_assoc]
  | app f a ihf iha =>
    intro d k rest
    rw [freeOnto, ihf, iha, Free, or_assoc]

/-- The list of free indices holds the indices that occur free, and no others. -/
theorem mem_freeIndices {t : Term} {k : Nat} : k ∈ t.freeIndices ↔ t.Free k := by
  rw [freeIndices, mem_eraseReps, List.mem_mergeSort, mem_freeOnto, Nat.add_zero]
  simp

theorem freeIndices_eq_nil_iff {t : Term} : t.freeIndices = [] ↔ t.Closed := by
  rw [List.eq_nil_iff_forall_not_mem, Closed]
  simp only [mem_freeIndices]

/-- The free indices as a set. -/
def freeSet (t : Term) : Finset Nat :=
  t.freeIndices.toFinset

@[simp] theorem mem_freeSet {t : Term} {k : Nat} : k ∈ t.freeSet ↔ t.Free k := by
  rw [freeSet, List.mem_toFinset, mem_freeIndices]

/-! ### Shifting what is not free -/

theorem shift_of_free_lt {t : Term} :
    ∀ {c : Nat} (a : Nat), (∀ k, t.Free k → k < c) → t.shift c a = t := by
  induction t with
  | var i =>
    intro c a h
    exact shift_var_of_lt (h i rfl) a
  | lam b ih =>
    intro c a h
    rw [shift_lam, ih a]
    intro k hk
    rcases k with - | k
    · exact Nat.succ_pos c
    · exact Nat.succ_lt_succ (h k hk)
  | app f x ihf ihx =>
    intro c a h
    rw [shift_app, ihf a fun k hk => h k (Or.inl hk), ihx a fun k hk => h k (Or.inr hk)]

theorem Closed.shift_eq {t : Term} (h : t.Closed) (c a : Nat) : t.shift c a = t :=
  shift_of_free_lt a fun k hk => absurd hk (h k)

/-! ### What is free after a shift -/

/-- A shift keeps the free indices below the cutoff and moves the others up; in between it
leaves a gap. -/
theorem free_shift {t : Term} :
    ∀ {c a k : Nat}, (t.shift c a).Free k ↔
      (k < c ∧ t.Free k) ∨ (c + a ≤ k ∧ t.Free (k - a)) := by
  induction t with
  | var i =>
    intro c a k
    rcases Nat.lt_or_ge i c with hi | hi
    · rw [shift_var_of_lt hi]
      simp only [Free]
      omega
    · rw [shift_var_of_le hi]
      simp only [Free]
      omega
  | lam b ih =>
    intro c a k
    rw [shift_lam, Free, ih, Nat.add_right_comm c 1 a, Nat.add_lt_add_iff_right,
      Nat.add_le_add_iff_right, Free, Free]
    refine or_congr_right (and_congr_right fun hle => ?_)
    rw [Nat.sub_add_comm (Nat.le_trans (Nat.le_add_left a c) hle)]
  | app f x ihf ihx =>
    intro c a k
    rw [shift_app, Free, ihf, ihx, Free, Free]
    tauto

/-- Nothing is free in the gap. -/
theorem not_free_shift {k d : Nat} (h : k < d) (t : Term) : ¬ (t.shift 0 d).Free k := by
  rw [free_shift]
  omega

/-! ### What is free after a substitution -/

/-- A substitution keeps the free indices below the target and lowers those above it.  Those
of the replacement come in where the target occurs. -/
theorem free_subst {t : Term} :
    ∀ {k j : Nat} {r : Term}, (t.subst k r).Free j ↔
      (j < k ∧ t.Free j) ∨ (k ≤ j ∧ t.Free (j + 1)) ∨ (t.Free k ∧ r.Free j) := by
  induction t with
  | var i =>
    intro k j r
    rcases Nat.lt_trichotomy i k with hi | rfl | hi
    · rw [subst_var_of_lt hi]
      simp only [Free]
      omega
    · rw [subst_var_self]
      simp only [Free]
      have hbelow : ¬ (j < i ∧ i = j) := by omega
      have habove : ¬ (i ≤ j ∧ i = j + 1) := by omega
      simp only [hbelow, habove, true_and, false_or]
    · rw [subst_var_of_gt hi]
      simp only [Free]
      omega
  | lam b ih =>
    intro k j r
    -- the replacement has moved past the binder, and so have its free indices
    have hreplacement : (r.shift 0 1).Free (j + 1) ↔ r.Free j := by
      rw [free_shift]
      simp
    rw [subst_lam, Free, ih, hreplacement, Nat.add_lt_add_iff_right, Nat.add_le_add_iff_right,
      Free, Free, Free]
  | app f x ihf ihx =>
    intro k j r
    rw [subst_app, Free, ihf, ihx, Free, Free, Free, and_or_left, and_or_left, or_and_right]
    exact or_or_or_comm.trans (or_congr_right or_or_or_comm)

/-! ### All indices -/

/-- Every index in the term, free or bound, has the property. -/
def EachIndex (P : Nat → Prop) : Term → Prop
  | var i => P i
  | lam b => b.EachIndex P
  | app f a => f.EachIndex P ∧ a.EachIndex P

instance decidableEachIndex (P : Nat → Prop) [DecidablePred P] :
    (t : Term) → Decidable (t.EachIndex P)
  | var i => inferInstanceAs (Decidable (P i))
  | lam b => decidableEachIndex P b
  | app f a =>
    have := decidableEachIndex P f
    have := decidableEachIndex P a
    inferInstanceAs (Decidable (_ ∧ _))

end Nameless.Term
