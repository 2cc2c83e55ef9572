/-
Nameless/Proofs/Term/Lowering.lean

Shifts by an amount that may be negative.  Such a shift is refused where an index would
fall below zero.  The index that is looked at is the one that stands in the term: for a
free index `k` under `d` binders it is `k + d`, and so

    t.shiftBy c a is refused  ↔  some free k ≥ c occurs under d binders with k + d + a < 0.

If `k + a < 0 ≤ k + d + a`, the shift goes through and the occurrence is no longer free:
one of the `d` binders has captured it.  The free indices of the outcome are those of
`t.movedFree c a` that are not negative (`freeSet_shiftBy`), and nothing is captured if and
only if none of them is negative (`shiftBy_free_or_captured`).

A shift down always goes through after the shift up that it undoes (`shiftBy_neg_shift`).
-/
import Mathlib.Data.Finset.Image
import Nameless.Proofs.Term.FreeIndices
import Nameless.Proofs.Term.Replacement

namespace Nameless.Term

/-! ### Shifts by any amount, by the form of the term -/

section ShiftBy

variable {c a : Int} {u : Term}

theorem ofIndex_eq_ok_iff {n : Int} : ofIndex n = .ok u ↔ ∃ m : Nat, (m : Int) = n ∧ var m = u := by
  rw [ofIndex]
  split
  · rename_i hneg
    constructor
    · intro h
      cases h
    · rintro ⟨m, rfl, -⟩
      omega
  · rename_i hpos
    have hn : (n.toNat : Int) = n := Int.toNat_of_nonneg (by omega)
    constructor
    · intro h
      exact ⟨n.toNat, hn, Except.ok.inj h⟩
    · rintro ⟨m, rfl, rfl⟩
      rfl

theorem ofIndex_natCast (m : Nat) : ofIndex m = .ok (var m) :=
  ofIndex_eq_ok_iff.mpr ⟨m, rfl, rfl⟩

/-- An amount of zero is no exception. -/
theorem shiftBy_eq_replace (c a : Int) (t : Term) :
    t.shiftBy c a
      = t.replace fun i d => if c + d ≤ i then ofIndex (i + a) else .ok (var i) := by
  by_cases ha : a = 0
  · subst ha
    have hsame (i d : Nat) :
        (if c + d ≤ i then ofIndex (i + 0) else .ok (var i)) = .ok (var i) := by
      rw [Int.add_zero, ofIndex_natCast, ite_self]
    rw [shiftBy, if_pos rfl, replace_eq, replaceAt_congr hsame, replaceAt_var]
  · rw [shiftBy, if_neg ha]

theorem shiftBy_var (c a : Int) (i : Nat) :
    (var i).shiftBy c a = if c ≤ i then ofIndex (i + a) else .ok (var i) := by
  rw [shiftBy_eq_replace, replace_var, Int.natCast_zero, Int.add_zero]

theorem shiftBy_lam_eq_ok_iff {b : Term} :
    (lam b).shiftBy c a = .ok u ↔ ∃ b', b.shiftBy (c + 1) a = .ok b' ∧ lam b' = u := by
  simp only [shiftBy_eq_replace, replace_lam_eq_ok_iff, Int.natCast_succ, Int.add_assoc,
    Int.add_comm 1]

theorem shiftBy_app_eq_ok_iff {f x : Term} :
    (app f x).shiftBy c a = .ok u ↔
      ∃ f' x', f.shiftBy c a = .ok f' ∧ x.shiftBy c a = .ok x' ∧ app f' x' = u := by
  simp only [shiftBy_eq_replace, replace_app_eq_ok_iff]

end ShiftBy

/-! ### Occurrences -/

theorem mem_walk_var {i j d : Nat} : (var j, d) ∈ (var i).walk ↔ j = i ∧ d = 0 := by
  simp [walk, walkOnto]

theorem mem_walk_lam {b : Term} {j d : Nat} :
    (var j, d) ∈ (lam b).walk ↔ ∃ e, (var j, e) ∈ b.walk ∧ e + 1 = d := by
  show (var j, d) ∈ (lam b, 0) :: b.walkOnto 1 [] ↔ _
  rw [walkOnto_eq]
  simp

theorem mem_walk_app {f x : Term} {j d : Nat} :
    (var j, d) ∈ (app f x).walk ↔ (var j, d) ∈ f.walk ∨ (var j, d) ∈ x.walk := by
  show (var j, d) ∈ (app f x, 0) :: f.walkOnto 0 x.walk ↔ _
  rw [walkOnto_eq]
  simp

/-- A shift goes through exactly if each free index that it moves can be moved in all the
places where it stands. -/
theorem exists_shiftBy_eq_ok_iff {t : Term} {a : Int} :
    ∀ {c : Nat}, (∃ u, t.shiftBy c a = .ok u) ↔
      ∀ k d : Nat, (var (k + d), d) ∈ t.walk → c ≤ k → 0 ≤ (k : Int) + d + a := by
  induction t with
  | var i =>
    intro c
    simp only [mem_walk_var, shiftBy_var]
    split
    · rename_i hle
      simp only [ofIndex_eq_ok_iff]
      constructor
      · rintro ⟨u, m, hm, -⟩ k d ⟨hi, rfl⟩ -
        omega
      · intro h
        have hpos := h i 0 ⟨rfl, rfl⟩ (by omega)
        exact ⟨_, (i + a).toNat, by omega, rfl⟩
    · rename_i hlt
      refine iff_of_true ⟨_, rfl⟩ ?_
      rintro k d ⟨rfl, rfl⟩ hle
      omega
  | lam b ih =>
    intro c
    have hbody : (∃ u, (lam b).shiftBy c a = .ok u) ↔ ∃ b', b.shiftBy (c + 1 : Nat) a = .ok b' := by
      simp only [shiftBy_lam_eq_ok_iff]
      constructor
      · rintro ⟨_, b', hb, -⟩
        exact ⟨b', hb⟩
      · rintro ⟨b', hb⟩
        exact ⟨lam b', b', hb, rfl⟩
    rw [hbody, ih]
    constructor
    · intro h k d hmem hle
      obtain ⟨e, he, rfl⟩ := mem_walk_lam.mp hmem
      have hstored : k + (e + 1) = k + 1 + e := by omega
      rw [hstored] at he
      have hpos := h (k + 1) e he (by omega)
      omega
    · intro h k d hmem hle
      -- the index `k` of the body is `k - 1` outside, under one binder more
      obtain ⟨k, rfl⟩ : ∃ j, k = j + 1 := ⟨k - 1, by omega⟩
      have hstored : k + 1 + d = k + (d + 1) := by omega
      rw [hstored] at hmem
      have hpos := h k (d + 1) (mem_walk_lam.mpr ⟨d, hmem, rfl⟩) (by omega)
      omega
  | app f x ihf ihx =>
    intro c
    have hparts : (∃ u, (app f x).shiftBy c a = .ok u) ↔
        (∃ f', f.shiftBy c a = .ok f') ∧ ∃ x', x.shiftBy c a = .ok x' := by
      simp only [shiftBy_app_eq_ok_iff]
      constructor
      · rintro ⟨_, f', x', hf, hx, -⟩
        exact ⟨⟨f', hf⟩, x', hx⟩
      · rintro ⟨⟨f', hf⟩, x', hx⟩
        exact ⟨app f' x', f', x', hf, hx, rfl⟩
    rw [hparts, ihf, ihx]
    constructor
    · rintro ⟨hf, hx⟩ k d hmem
      exact (mem_walk_app.mp hmem).elim (hf k d) (hx k d)
    · intro h
      exact ⟨fun k d hmem => h k d (mem_walk_app.mpr (Or.inl hmem)),
        fun k d hmem => h k d (mem_walk_app.mpr (Or.inr hmem))⟩

/-! ### What is free after a shift that goes through -/

/-- A free index that would be negative is not free any more. -/
theorem free_shiftBy {t : Term} {a : Int} :
    ∀ {c k : Nat} {u : Term}, t.shiftBy c a = .ok u →
      (u.Free k ↔ (k < c ∧ t.Free k) ∨ ∃ j : Nat, c ≤ j ∧ t.Free j ∧ (j : Int) + a = k) := by
  induction t with
  | var i =>
    intro c k u h
    rw [shiftBy_var] at h
    split at h
    · rename_i hle
      obtain ⟨m, hm, rfl⟩ := ofIndex_eq_ok_iff.mp h
      simp only [Free]
      constructor
      · rintro rfl
        exact Or.inr ⟨i, by omega, rfl, hm.symm⟩
      · rintro (⟨hlt, rfl⟩ | ⟨j, -, rfl, hj⟩)
        · omega
        · omega
    · rename_i hlt
      obtain rfl := Except.ok.inj h
      simp only [Free]
      constructor
      · rintro rfl
        exact Or.inl ⟨by omega, rfl⟩
      · rintro (⟨-, rfl⟩ | ⟨j, hle, rfl, -⟩)
        · rfl
        · omega
  | lam b ih =>
    intro c k u h
    obtain ⟨b', hb, rfl⟩ := shiftBy_lam_eq_ok_iff.mp h
    -- under the binder cutoff, index and moved index are all one higher
    rw [Free, ih (c := c + 1) hb, Free, Nat.add_lt_add_iff_right]
    refine or_congr_right ⟨?_, ?_⟩
    · rintro ⟨j, hle, hfree, hj⟩
      obtain ⟨j, rfl⟩ : ∃ i, j = i + 1 := ⟨j - 1, by omega⟩
      exact ⟨j, by omega, hfree, by omega⟩
    · rintro ⟨j, hle, hfree, hj⟩
      exact ⟨j + 1, by omega, hfree, by omega⟩
  | app f x ihf ihx =>
    intro c k u h
    obtain ⟨f', x', hf, hx, rfl⟩ := shiftBy_app_eq_ok_iff.mp h
    rw [Free, ihf hf, ihx hx]
    simp only [Free, and_or_left, or_and_right, exists_or]
    exact or_or_or_comm

/-- The free indices of a term with `a` added to those from `c` on.  They may be negative. -/
def movedFree (c : Nat) (a : Int) (t : Term) : Finset Int :=
  (t.freeSet.filter (· < c)).image (fun k : Nat => (k : Int))
    ∪ (t.freeSet.filter (c ≤ ·)).image (fun k : Nat => (k : Int) + a)

theorem mem_movedFree {c : Nat} {a z : Int} {t : Term} :
    z ∈ t.movedFree c a ↔
      (∃ k : Nat, (t.Free k ∧ k < c) ∧ (k : Int) = z) ∨
        ∃ k : Nat, (t.Free k ∧ c ≤ k) ∧ (k : Int) + a = z := by
  simp only [movedFree, Finset.mem_union, Finset.mem_image, Finset.mem_filter, mem_freeSet]

/-- Of the moved indices those are free that are not negative. -/
theorem freeSet_shiftBy {t u : Term} {c : Nat} {a : Int} (h : t.shiftBy c a = .ok u) :
    u.freeSet.image (fun k : Nat => (k : Int)) = (t.movedFree c a).filter (0 ≤ ·) := by
  ext z
  simp only [Finset.mem_image, Finset.mem_filter, mem_freeSet, mem_movedFree, free_shiftBy h]
  constructor
  · rintro ⟨k, ⟨hlt, hfree⟩ | ⟨j, hle, hfree, hj⟩, rfl⟩
    · exact ⟨Or.inl ⟨k, ⟨hfree, hlt⟩, rfl⟩, by omega⟩
    · exact ⟨Or.inr ⟨j, ⟨hfree, hle⟩, hj⟩, by omega⟩
  · rintro ⟨⟨k, ⟨hfree, hlt⟩, rfl⟩ | ⟨j, ⟨hfree, hle⟩, hj⟩, hpos⟩
    · exact ⟨k, Or.inl ⟨hlt, hfree⟩, rfl⟩
    · exact ⟨z.toNat, Or.inr ⟨j, hle, hfree, by omega⟩, by omega⟩

theorem movedFree_nonneg_iff {t : Term} {c : Nat} {a : Int} :
    (∀ z ∈ t.movedFree c a, 0 ≤ z) ↔ ∀ k ∈ t.freeSet, c ≤ k → 0 ≤ (k : Int) + a := by
  simp only [mem_movedFree, mem_freeSet]
  constructor
  · intro h k hfree hle
    exact h _ (Or.inr ⟨k, ⟨hfree, hle⟩, rfl⟩)
  · rintro h z (⟨k, -, rfl⟩ | ⟨k, ⟨hfree, hle⟩, rfl⟩)
    · omega
    · exact h k hfree hle

/-- **What a shift does to free indices, down as well as up.**  It is refused exactly if a free
index that it moves stands somewhere under so few binders that the index in the term would be
negative.  If it goes through, the indices that are free are the moved ones that are not
negative; so none has been lost to a binder if and only if none would be negative. -/
theorem shiftBy_free_or_captured (t : Term) (c : Nat) (a : Int) :
    ((∃ e, t.shiftBy c a = .error e) ↔
      ∃ k d : Nat, (var (k + d), d) ∈ t.walk ∧ c ≤ k ∧ (k : Int) + d + a < 0) ∧
    (∀ u, t.shiftBy c a = .ok u →
      u.freeSet.image (fun k : Nat => (k : Int)) = (t.movedFree c a).filter (0 ≤ ·) ∧
      (u.freeSet.image (fun k : Nat => (k : Int)) = t.movedFree c a ↔
        ∀ k ∈ t.freeSet, c ≤ k → 0 ≤ (k : Int) + a)) := by
  refine ⟨?_, fun u h => ⟨freeSet_shiftBy h, ?_⟩⟩
  · have herror : (∃ e, t.shiftBy c a = .error e) ↔ ¬ ∃ u, t.shiftBy c a = .ok u := by
      cases t.shiftBy c a <;> simp
    rw [herror, exists_shiftBy_eq_ok_iff]
    push Not
    rfl
  · rw [freeSet_shiftBy h, Finset.filter_eq_self, movedFree_nonneg_iff]

/-- Lowering `λ. 1`, in which 0 is free, gives `λ. 0`: the index has become the binder's own,
and its value -1 is lost. -/
theorem shiftBy_free_or_captured_identity :
    (lam (var 1)).freeSet = {0} ∧
    (lam (var 1)).shiftBy (0 : Nat) (-1) = .ok identity ∧
    (lam (var 1)).movedFree 0 (-1) = {-1} ∧
    identity.freeSet.image (fun k : Nat => (k : Int)) = ∅ ∧
    (var 0).shiftBy (0 : Nat) (-1) = .error ⟨-1⟩ := by
  have hfree : (lam (var 1)).freeSet = {0} := by
    ext j
    simp only [mem_freeSet, Free, Finset.mem_singleton]
    omega
  have hshift : (lam (var 1)).shiftBy (0 : Nat) (-1) = .ok identity := by decide +kernel
  have hmoved : (lam (var 1)).movedFree 0 (-1) = {-1} := by
    rw [movedFree, hfree]
    decide
  obtain ⟨hleft, -⟩ := (shiftBy_free_or_captured (lam (var 1)) 0 (-1)).2 identity hshift
  rw [hmoved] at hleft
  exact ⟨hfree, hshift, hmoved, hleft.trans (by decide), by decide +kernel⟩

/-- Two steps down, the free index 1 of `λ. 2` would become -1.  But what stands in the term is 2,
so the shift goes through, and nothing is free any more. -/
theorem shiftBy_captures :
    (lam (var 2)).shiftBy (0 : Nat) (-2) = .ok (lam (var 0)) ∧
    (lam (var 0)).freeSet.image (fun k : Nat => (k : Int)) ≠ (lam (var 2)).movedFree 0 (-2) := by
  have hshift : (lam (var 2)).shiftBy (0 : Nat) (-2) = .ok (lam (var 0)) := by decide +kernel
  refine ⟨hshift, fun h => ?_⟩
  have hmem : (-1 : Int) ∈ (lam (var 2)).movedFree 0 (-2) :=
    mem_movedFree.mpr (Or.inr ⟨1, ⟨rfl, Nat.zero_le 1⟩, rfl⟩)
  rw [← h, freeSet_shiftBy hshift] at hmem
  exact absurd (Finset.mem_filter.mp hmem).2 (by decide)

/-! ### Lowering what was raised -/

/-- A shift down undoes the shift up. -/
theorem shiftBy_neg_shift (t : Term) (n : Nat) :
    ∀ c : Nat, (t.shift c n).shiftBy c (-n) = .ok t := by
  induction t with
  | var i =>
    intro c
    rcases Nat.lt_or_ge i c with hi | hi
    · rw [shift_var_of_lt hi, shiftBy_var, if_neg (by omega)]
    · have hback : ((i + n : Nat) : Int) + -n = (i : Nat) := by omega
      rw [shift_var_of_le hi, shiftBy_var, if_pos (by omega), hback, ofIndex_natCast]
  | lam b ih =>
    intro c
    rw [shift_lam]
    exact shiftBy_lam_eq_ok_iff.mpr ⟨b, ih (c + 1), rfl⟩
  | app f x ihf ihx =>
    intro c
    rw [shift_app]
    exact shiftBy_app_eq_ok_iff.mpr ⟨f, x, ihf c, ihx c, rfl⟩

end Nameless.Term
