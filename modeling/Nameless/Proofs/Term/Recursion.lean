/-
Nameless/Proofs/Term/Recursion.lean

Shifting and substitution by recursion on the term.

`Term.shiftBy` and `Term.substAt` pass over a term once and compare each index with the
number of binders around it.  The textbook has no such number: it enters an abstraction with
the cutoff or the target one higher, and substitution with its replacement shifted by one,

    shiftBy c a (λ b)    =  λ (shiftBy (c + 1) a b)
    substAt k r (λ b)    =  λ (substAt (k + 1) (shiftBy 0 1 r) b).

`shiftByRec` and `substAtRec` are these definitions, and both agree with the pass at every
integer (`shiftBy_eq_shiftByRec`, `substAt_eq_substAtRec`).  For substitution this rests on
the composition of shifts: a replacement that is shifted by one at each of `d` binders has
been shifted by `d`.

They agree in their refusals too.  An index falls below zero at the leftmost occurrence where
it can, and that occurrence decides what is refused (`shiftBy_eq_error_iff`,
`substAt_eq_error_iff`).
-/
import Nameless.Proofs.Term.Commutation
import Nameless.Proofs.Term.Lowering

namespace Nameless.Term

/-! ### The definitions by recursion -/

/-- Shifting by recursion: under a binder the cutoff is one higher. -/
def shiftByRec (cutoff amount : Int) : Term → Except NegativeIndex Term
  | var i => if cutoff ≤ i then ofIndex (i + amount) else .ok (var i)
  | lam b => do
    let b' ← b.shiftByRec (cutoff + 1) amount
    return lam b'
  | app f x => do
    let f' ← f.shiftByRec cutoff amount
    let x' ← x.shiftByRec cutoff amount
    return app f' x'

/-- Substitution by recursion: under a binder the target is one higher, and the replacement is
shifted by one. -/
def substAtRec (target : Int) (body replacement : Term) : Except NegativeIndex Term :=
  match body with
  | var i =>
    if (i : Int) = target then .ok replacement
    else if target < i then ofIndex (i - 1)
    else .ok (var i)
  | lam b => do
    let r ← replacement.shiftByRec 0 1
    let b' ← b.substAtRec (target + 1) r
    return lam b'
  | app f x => do
    let f' ← f.substAtRec target replacement
    let x' ← x.substAtRec target replacement
    return app f' x'

/-! ### The pass, by the form of the term -/

theorem shiftBy_lam (c a : Int) (b : Term) :
    (lam b).shiftBy c a = (do
      let b' ← b.shiftBy (c + 1) a
      return lam b') := by
  simp only [shiftBy_eq_replace, replace_lam, Int.natCast_succ, Int.add_assoc, Int.add_comm 1]

theorem shiftBy_app (c a : Int) (f x : Term) :
    (app f x).shiftBy c a = (do
      let f' ← f.shiftBy c a
      let x' ← x.shiftBy c a
      return app f' x') := by
  simp only [shiftBy_eq_replace, replace_app]

theorem substAt_var (k : Int) (i : Nat) (r : Term) :
    (var i).substAt k r
      = if (i : Int) = k then .ok r else if k < i then ofIndex (i - 1) else .ok (var i) := by
  rw [substAt, replace_var, shift_zero, Int.natCast_zero, Int.add_zero]

/-- The replacement is shifted first, which is never refused. -/
theorem substAt_lam (k : Int) (b r : Term) :
    (lam b).substAt k r = (do
      let r' ← r.shiftBy 0 1
      let b' ← b.substAt (k + 1) r'
      return lam b') := by
  have hraise : (r.shiftBy 0 1 >>= fun r' => do
      let b' ← b.substAt (k + 1) r'
      return lam b') = (do
        let b' ← b.substAt (k + 1) (r.shift 0 1)
        return lam b') :=
    shiftBy_bind 0 1 r _
  rw [hraise]
  simp only [substAt, replace_lam, shift_one_shift, Int.natCast_succ, Int.add_assoc, Int.add_comm 1]

theorem substAt_app (k : Int) (f x r : Term) :
    (app f x).substAt k r = (do
      let f' ← f.substAt k r
      let x' ← x.substAt k r
      return app f' x') := by
  simp only [substAt, replace_app]

/-! ### Agreement -/

theorem shiftBy_eq_shiftByRec (t : Term) : ∀ c a, t.shiftBy c a = t.shiftByRec c a := by
  induction t with
  | var i =>
    intro c a
    exact shiftBy_var c a i
  | lam b ih =>
    intro c a
    rw [shiftBy_lam, ih, shiftByRec]
  | app f x ihf ihx =>
    intro c a
    rw [shiftBy_app, ihf, ihx, shiftByRec]

theorem substAt_eq_substAtRec (t : Term) : ∀ k r, t.substAt k r = t.substAtRec k r := by
  induction t with
  | var i =>
    intro k r
    exact substAt_var k i r
  | lam b ih =>
    intro k r
    simp only [substAt_lam, ih, shiftBy_eq_shiftByRec, substAtRec]
  | app f x ihf ihx =>
    intro k r
    rw [substAt_app, ihf, ihx, substAtRec]

/-! ### Refusals -/

theorem ofIndex_eq_error_iff {n : Int} {e : NegativeIndex} :
    ofIndex n = .error e ↔ n < 0 ∧ e = ⟨n⟩ := by
  rw [ofIndex]
  split
  · rename_i hneg
    simp [hneg, eq_comm]
  · rename_i hpos
    simp [hpos]

/-- A shift is refused at the leftmost variable that it would move below zero. -/
theorem shiftBy_eq_error_iff {t : Term} {c a : Int} {e : NegativeIndex} :
    t.shiftBy c a = .error e ↔
      ∃ p, t.occurrences.find? (fun p => c + p.2 ≤ p.1 ∧ (p.1 : Int) + a < 0) = some p ∧
        e = ⟨p.1 + a⟩ := by
  rw [shiftBy_eq_replace]
  apply replace_eq_error_iff_of_refuses
  intro p e
  split
  · rename_i hle
    simp [ofIndex_eq_error_iff, hle]
  · rename_i hlt
    simp [hlt]

/-- Likewise a substitution, which moves the variables above its target by one. -/
theorem substAt_eq_error_iff {t r : Term} {k : Int} {e : NegativeIndex} :
    t.substAt k r = .error e ↔
      ∃ p, t.occurrences.find? (fun p => k + p.2 < p.1 ∧ (p.1 : Int) - 1 < 0) = some p ∧
        e = ⟨p.1 - 1⟩ := by
  rw [substAt]
  apply replace_eq_error_iff_of_refuses
  intro p e
  split
  · rename_i heq
    have hlt : ¬ k + p.2 < p.1 := by omega
    simp [hlt]
  · split
    · rename_i hlt
      simp [ofIndex_eq_error_iff, hlt]
    · rename_i hge
      simp [hge]

/-- **Shifting and substitution are what the textbook defines by recursion**, at all integers and
with their refusals.  A shift enters an abstraction with its cutoff one higher; a substitution
enters it with its target one higher and its replacement shifted by one; both go through an
application from left to right.  What is refused is the index that the leftmost of the variables
that would fall below zero would get. -/
theorem shiftBy_substAt_by_recursion :
    (∀ (c a : Int) (t : Term), t.shiftBy c a = t.shiftByRec c a) ∧
    (∀ (k : Int) (t r : Term), t.substAt k r = t.substAtRec k r) ∧
    (∀ (c a : Int) (b : Term), (lam b).shiftBy c a = (do
      let b' ← b.shiftBy (c + 1) a
      return lam b')) ∧
    (∀ (c a : Int) (f x : Term), (app f x).shiftBy c a = (do
      let f' ← f.shiftBy c a
      let x' ← x.shiftBy c a
      return app f' x')) ∧
    (∀ (k : Int) (b r : Term), (lam b).substAt k r = (do
      let r' ← r.shiftBy 0 1
      let b' ← b.substAt (k + 1) r'
      return lam b')) ∧
    (∀ (k : Int) (f x r : Term), (app f x).substAt k r = (do
      let f' ← f.substAt k r
      let x' ← x.substAt k r
      return app f' x')) ∧
    (∀ (c a : Int) (t : Term) (e : NegativeIndex), t.shiftBy c a = .error e ↔
      ∃ p, t.occurrences.find? (fun p => c + p.2 ≤ p.1 ∧ (p.1 : Int) + a < 0) = some p ∧
        e = ⟨p.1 + a⟩) ∧
    (∀ (k : Int) (t r : Term) (e : NegativeIndex), t.substAt k r = .error e ↔
      ∃ p, t.occurrences.find? (fun p => k + p.2 < p.1 ∧ (p.1 : Int) - 1 < 0) = some p ∧
        e = ⟨p.1 - 1⟩) :=
  ⟨fun c a t => shiftBy_eq_shiftByRec t c a, fun k t r => substAt_eq_substAtRec t k r,
    shiftBy_lam, shiftBy_app, substAt_lam, substAt_app,
    fun _ _ _ _ => shiftBy_eq_error_iff, fun _ _ _ _ => substAt_eq_error_iff⟩

end Nameless.Term
