/-
Nameless/Proofs/Reduction/Scope.lean

Free indices under reduction.  A substitution is exact about them:

    free (M.subst k N) = {i ∈ free M | i < k} ∪ {i - 1 | i ∈ free M, i > k}
                           ∪ (free N, if k ∈ free M)

(`freeSet_subst`).  For a redex this says that the contractum has no free index which the
redex does not have.  Hence no step brings one in, whichever redex is contracted
(`Beta.freeSet_subset`), and the free indices along a reduction sequence become fewer or
stay the same; what is closed stays closed.
-/
import Mathlib.Data.Finset.Image
import Nameless.Proofs.Reduction.Beta
import Nameless.Proofs.Term.FreeIndices

namespace Nameless.Term

open Relation (ReflTransGen)

/-- Free indices below the target stay, those above move down by one, and those of the
replacement are added if the target is free. -/
theorem freeSet_subst (m n : Term) (k : Nat) :
    (m.subst k n).freeSet
      = m.freeSet.filter (· < k) ∪ (m.freeSet.filter (k < ·)).image (· - 1)
        ∪ (if k ∈ m.freeSet then n.freeSet else ∅) := by
  ext j
  have habove : (∃ i, (m.Free i ∧ k < i) ∧ i - 1 = j) ↔ k ≤ j ∧ m.Free (j + 1) := by
    constructor
    · rintro ⟨i, ⟨hfree, hlt⟩, rfl⟩
      rw [Nat.sub_add_cancel (Nat.zero_lt_of_lt hlt)]
      exact ⟨Nat.le_sub_one_of_lt hlt, hfree⟩
    · rintro ⟨hle, hfree⟩
      exact ⟨j + 1, ⟨hfree, Nat.lt_succ_of_le hle⟩, rfl⟩
  have hreplacement : j ∈ (if k ∈ m.freeSet then n.freeSet else ∅) ↔ m.Free k ∧ n.Free j := by
    split <;> simp_all
  rw [mem_freeSet, free_subst, Finset.mem_union, Finset.mem_union, hreplacement]
  simp only [Finset.mem_filter, Finset.mem_image, mem_freeSet, habove]
  rw [or_assoc, and_comm (a := m.Free j)]

/-! ### One step, in any order -/

/-- Contracting a redex brings in no free index. -/
theorem Beta.free_of_free {t u : Term} (h : Beta t u) : ∀ {k : Nat}, u.Free k → t.Free k := by
  induction h using Beta.induction with
  | redex b a =>
    intro k hk
    rcases free_subst.mp hk with ⟨hlt, -⟩ | ⟨-, hbody⟩ | ⟨-, hargument⟩
    · exact absurd hlt (Nat.not_lt_zero k)
    · exact Or.inl hbody
    · exact Or.inr hargument
  | body b b' _ ih =>
    intro k hk
    exact ih hk
  | function f f' a _ ih =>
    intro k hk
    exact hk.imp_left ih
  | argument f a a' _ ih =>
    intro k hk
    exact hk.imp_right ih

theorem Beta.freeSet_subset {t u : Term} (h : Beta t u) : u.freeSet ⊆ t.freeSet := by
  intro k
  rw [mem_freeSet, mem_freeSet]
  exact h.free_of_free

/-! ### Reduction sequences -/

theorem freeSet_subset_of_reduces {t u : Term} (h : ReflTransGen Beta t u) :
    u.freeSet ⊆ t.freeSet := by
  induction h with
  | refl => exact Finset.Subset.refl _
  | tail _ hstep ih => exact hstep.freeSet_subset.trans ih

theorem reduces_of_mem_reductions {u : Term} :
    ∀ {limit : Nat} {t : Term}, u ∈ t.reductions limit → ReflTransGen Beta t u := by
  intro limit
  induction limit with
  | zero =>
    intro t h
    cases h
  | succ limit ih =>
    intro t h
    rw [reductions] at h
    split at h
    · rw [List.mem_singleton.mp h]
    · rcases List.mem_cons.mp h with rfl | h
      · exact ReflTransGen.refl
      · exact (reduces_step t).trans (ih h)

/-- Every term of a reduction sequence reduces to each later one. -/
theorem pairwise_reductions (limit : Nat) :
    ∀ t : Term, (t.reductions limit).Pairwise (ReflTransGen Beta) := by
  induction limit with
  | zero =>
    intro t
    exact List.Pairwise.nil
  | succ limit ih =>
    intro t
    rw [reductions]
    split
    · exact List.pairwise_singleton _ t
    · refine List.pairwise_cons.mpr ⟨fun u hu => ?_, ih t.step⟩
      exact (reduces_step t).trans (reduces_of_mem_reductions hu)

/-- **Free indices are tracked exactly and never grow.**  A substitution, which no index falls
below zero in, has the free indices that are left of the body and, if its target is free, those
of the replacement.  So a step has no new ones, each term of a reduction sequence has none but
those of the terms before it, and every reduct of a closed term is closed. -/
theorem freeSet_never_grows :
    (∀ (m n : Term) (k : Nat),
      m.substAt k n = .ok (m.subst k n) ∧
      (m.subst k n).freeSet
        = m.freeSet.filter (· < k) ∪ (m.freeSet.filter (k < ·)).image (· - 1)
          ∪ (if k ∈ m.freeSet then n.freeSet else ∅)) ∧
    (∀ t : Term, t.step.freeSet ⊆ t.freeSet) ∧
    (∀ (t : Term) (limit : Nat),
      (∀ u ∈ t.reductions limit, u.freeSet ⊆ t.freeSet) ∧
      (t.reductions limit).Pairwise fun u v => v.freeSet ⊆ u.freeSet) ∧
    (∀ t u : Term, ReflTransGen Beta t u → t.Closed → u.Closed) := by
  refine ⟨fun m n k => ⟨substAt_natCast k n m, freeSet_subst m n k⟩, fun t => ?_,
    fun t limit => ⟨fun u hu => ?_, ?_⟩, fun t u h ht k hk => ?_⟩
  · exact freeSet_subset_of_reduces (reduces_step t)
  · exact freeSet_subset_of_reduces (reduces_of_mem_reductions hu)
  · exact (pairwise_reductions limit t).imp freeSet_subset_of_reduces
  · exact ht k (mem_freeSet.mp (freeSet_subset_of_reduces h (mem_freeSet.mpr hk)))

/-- Putting `0 5` for 1 in `λ. 0 1 2 3`, which has 0, 1 and 2 free, leaves 0, 1 and 5.  The
closed term `(λ. λ. 1) (λ. 0) Ω` comes to `λ. 0` in two steps. -/
theorem freeSet_never_grows_closed :
    let m := lam (app (app (app (var 0) (var 1)) (var 2)) (var 3))
    let n := app (var 0) (var 5)
    let t := app (app constant identity) omega
    m.freeSet = {0, 1, 2} ∧ (m.subst 1 n).freeSet = {0, 1, 5} ∧
    identity ∈ t.reductions 3 ∧ identity.freeSet ⊆ t.freeSet ∧
    t.Closed ∧ identity.Closed := by
  intro m n t
  obtain ⟨hsubst, -, hitems, hclosed⟩ := freeSet_never_grows
  have hm : m.freeSet = {0, 1, 2} := by
    ext j
    simp only [m, mem_freeSet, Free, Finset.mem_insert, Finset.mem_singleton]
    omega
  have hn : n.freeSet = {0, 5} := by
    ext j
    simp only [n, mem_freeSet, Free, Finset.mem_insert, Finset.mem_singleton]
    omega
  have hmn : (m.subst 1 n).freeSet = {0, 1, 5} := by
    rw [(hsubst m n 1).2, hm, hn]
    decide
  have hmem : identity ∈ t.reductions 3 := by decide +kernel
  have ht : t.Closed := freeIndices_eq_nil_iff.mp (by decide +kernel)
  exact ⟨hm, hmn, hmem, (hitems t 3).1 identity hmem, ht,
    hclosed t identity (reduces_of_mem_reductions hmem) ht⟩

end Nameless.Term
