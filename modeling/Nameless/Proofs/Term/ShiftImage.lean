/-
Nameless/Proofs/Term/ShiftImage.lean

Which terms a shift up gives, and how shifts follow each other.  A shift by `a` at the
cutoff `c` leaves a gap, in which nothing is free, and this is all that can be said of
what it gives:

    (∃ t, t.shift c a = u)  ↔  no k with c ≤ k < c + a is free in u

(`exists_shift_eq_iff`).  Under a binder the gap lies one higher, and so does the cutoff,
which is why the free indices of the whole term decide about every variable in it.

The shift down undoes the shift up, so a term comes from one term at most
(`shift_injective`), and the shift down finds it.  On other terms the shift down promises
nothing: it may be refused, or an index may be captured.
-/
import Nameless.Proofs.Term.Commutation
import Nameless.Proofs.Term.Lowering

namespace Nameless.Term

/-! ### The image of a shift -/

/-- Both terms are what the shift down makes of the shifted term. -/
theorem shift_injective (c a : Nat) : Function.Injective (shift c a) := by
  intro t u h
  have ht := shiftBy_neg_shift t a c
  rw [h, shiftBy_neg_shift u a c] at ht
  exact (Except.ok.inj ht).symm

theorem not_free_gap {t : Term} {c a k : Nat} (h : (t.shift c a).Free k) :
    ¬ (c ≤ k ∧ k < c + a) := by
  rw [free_shift] at h
  omega

/-- A term with a gap among its free indices has been shifted. -/
theorem exists_shift_eq_of_gap {u : Term} {a : Nat} :
    ∀ {c : Nat}, (∀ k, u.Free k → ¬ (c ≤ k ∧ k < c + a)) → ∃ t : Term, t.shift c a = u := by
  induction u with
  | var i =>
    intro c hgap
    have hi := hgap i rfl
    rcases Nat.lt_or_ge i c with hlt | hle
    · exact ⟨var i, shift_var_of_lt hlt a⟩
    · refine ⟨var (i - a), ?_⟩
      rw [shift_var_of_le (by omega), Nat.sub_add_cancel (by omega)]
  | lam b ih =>
    intro c hgap
    -- index 0 of the body is bound, and lies below the gap there
    have hbody : ∀ k, b.Free k → ¬ (c + 1 ≤ k ∧ k < c + 1 + a) := by
      rintro (- | k) hk
      · omega
      · have hk' := hgap k hk
        omega
    obtain ⟨t, rfl⟩ := ih hbody
    exact ⟨lam t, shift_lam c a t⟩
  | app f x ihf ihx =>
    intro c hgap
    obtain ⟨t, rfl⟩ := ihf fun k hk => hgap k (Or.inl hk)
    obtain ⟨s, rfl⟩ := ihx fun k hk => hgap k (Or.inr hk)
    exact ⟨app t s, shift_app c a t s⟩

theorem exists_shift_eq_iff {u : Term} {c a : Nat} :
    (∃ t : Term, t.shift c a = u) ↔ ∀ k, u.Free k → ¬ (c ≤ k ∧ k < c + a) := by
  constructor
  · rintro ⟨t, rfl⟩ k
    exact not_free_gap
  · exact exists_shift_eq_of_gap

/-! ### Shifts up and down -/

theorem shiftBy_natCast_eq_ok_iff {t u : Term} {c a : Nat} :
    t.shiftBy c a = .ok u ↔ t.shift c a = u := by
  rw [shiftBy_natCast, Except.ok.injEq]

/-- **Shifts up, and the shifts down that undo them.**  A term comes from a shift up exactly if
nothing is free in the gap that the shift leaves; it comes from one term only, and that is what
the shift down gives.  Two shifts at one cutoff add up, and two at different cutoffs change
places, the lower one moving the cutoff of the upper one. -/
theorem shiftBy_image_and_composition :
    (∀ (u : Term) (c a : Nat),
      ((∃ t : Term, t.shiftBy c a = .ok u) ↔ ∀ k ∈ u.freeIndices, ¬ (c ≤ k ∧ k < c + a)) ∧
      (∀ t : Term, t.shiftBy c a = .ok u →
        u.shiftBy c (-a) = .ok t ∧ ∀ t' : Term, t'.shiftBy c a = .ok u → t' = t)) ∧
    (∀ (t : Term) (c a b : Nat), ∃ v,
      (do
        let t' ← t.shiftBy c a
        t'.shiftBy c b) = .ok v ∧
      t.shiftBy c (a + b) = .ok v) ∧
    (∀ (t : Term) (c c' a b : Nat), c' ≤ c → ∃ v,
      (do
        let t' ← t.shiftBy c a
        t'.shiftBy c' b) = .ok v ∧
      (do
        let t' ← t.shiftBy c' b
        t'.shiftBy (c + b) a) = .ok v) := by
  refine ⟨fun u c a => ⟨?_, fun t ht => ?_⟩, fun t c a b => ⟨t.shift c (a + b), ?_, ?_⟩,
    fun t c c' a b hle => ⟨(t.shift c a).shift c' b, ?_, ?_⟩⟩
  · simp only [shiftBy_natCast_eq_ok_iff, mem_freeIndices, exists_shift_eq_iff]
  · obtain rfl := shiftBy_natCast_eq_ok_iff.mp ht
    refine ⟨shiftBy_neg_shift t a c, fun t' ht' => ?_⟩
    exact shift_injective c a (shiftBy_natCast_eq_ok_iff.mp ht')
  · rw [shiftBy_bind, shiftBy_natCast,
      shift_shift_of_mem t b (Nat.le_refl c) (Nat.le_add_right c a)]
  · rw [← Int.natCast_add, shiftBy_natCast]
  · rw [shiftBy_bind, shiftBy_natCast]
  · rw [shiftBy_bind, ← Int.natCast_add, shiftBy_natCast, shift_shift_comm t a b hle]

/-- `λ. 0 1 5`, in which 0 and 4 are free, comes from `λ. 0 1 2` by a shift that leaves a gap
from 1 to 3.  The shift by 3 at 2 and the one by 2 at 1 change places. -/
theorem shiftBy_image_and_composition_gap :
    let t := lam (app (app (var 0) (var 1)) (var 2))
    let u := lam (app (app (var 0) (var 1)) (var 5))
    t.shiftBy (1 : Nat) (3 : Nat) = .ok u ∧ u.shiftBy (1 : Nat) (-(3 : Nat)) = .ok t ∧
    (∀ k ∈ u.freeIndices, ¬ (1 ≤ k ∧ k < 4)) ∧
    ∃ v,
      (do
        let u' ← u.shiftBy (2 : Nat) (3 : Nat)
        u'.shiftBy (1 : Nat) (2 : Nat)) = .ok v ∧
      (do
        let u' ← u.shiftBy (1 : Nat) (2 : Nat)
        u'.shiftBy ((2 : Nat) + (2 : Nat)) (3 : Nat)) = .ok v := by
  intro t u
  obtain ⟨himage, -, hcomm⟩ := shiftBy_image_and_composition
  obtain ⟨hgap, hback⟩ := himage u 1 3
  have ht : t.shiftBy (1 : Nat) (3 : Nat) = .ok u := by decide +kernel
  exact ⟨ht, (hback t ht).1, hgap.mp ⟨t, ht⟩, hcomm u 2 1 3 2 (by decide)⟩

end Nameless.Term
