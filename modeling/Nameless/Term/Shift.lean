/-
Nameless/Term/Shift.lean

Shifting and substitution.  `Term.shift c a` adds `a` to every index that is free at
cutoff `c`; `Term.subst k r` puts `r` for index `k`, shifted past the binders on the
way down, and closes the gap that `k` leaves.  Both visit each variable once and
compare its index with the number of binders around it.

`Term.shiftBy` and `Term.substAt` take arbitrary integers for cutoff, amount and
target.  They refuse where an index would fall below zero, and on natural numbers
they are `shift` and `subst` (`shiftBy_natCast`, `substAt_natCast`).
-/
import Nameless.Term.Replace

namespace Nameless

/-- An index that would have fallen below zero. -/
structure NegativeIndex where
  got : Int
deriving DecidableEq

namespace Term

/-- The variable with the given index, which must not be negative. -/
def ofIndex (n : Int) : Except NegativeIndex Term :=
  if n < 0 then .error ⟨n⟩ else .ok (var n.toNat)

/-! ### Natural numbers -/

/-- Adds `amount` to every index that is free at `cutoff`: to the numbers from `cutoff` on,
where each binder on the way moves the cutoff up by one. -/
def shift (cutoff amount : Nat) (t : Term) : Term :=
  t.mapVars fun i d => if cutoff + d ≤ i then var (i + amount) else var i

/-- Puts `replacement` for the index `target`, shifted up by the binders crossed to get
there, and lowers every index above `target` by one. -/
def subst (target : Nat) (body replacement : Term) : Term :=
  body.mapVars fun i d =>
    if i = target + d then replacement.shift 0 d
    else if target + d < i then var (i - 1)
    else var i

/-! ### Integers -/

/-- Shifting by an amount that may be negative, at a cutoff that may be negative.  An
amount of zero leaves the term alone. -/
def shiftBy (cutoff amount : Int) (t : Term) : Except NegativeIndex Term :=
  if amount = 0 then .ok t
  else t.replace fun i d =>
    if cutoff + d ≤ i then ofIndex (i + amount) else .ok (var i)

/-- Substitution at a target that may be negative. -/
def substAt (target : Int) (body replacement : Term) : Except NegativeIndex Term :=
  body.replace fun i d =>
    if (i : Int) = target + d then .ok (replacement.shift 0 d)
    else if target + d < i then ofIndex (i - 1)
    else .ok (var i)

/-! ### The recursive equations -/

theorem mapVarsAt_succ (f : Nat → Nat → Term) (t : Term) :
    ∀ d, t.mapVarsAt f (d + 1) = t.mapVarsAt (fun i k => f i (k + 1)) d := by
  induction t with
  | var i => intro d; rfl
  | lam b ih => intro d; simp [mapVarsAt, ih]
  | app g a ihg iha => intro d; simp [mapVarsAt, ihg, iha]

theorem mapVars_lam (f : Nat → Nat → Term) (b : Term) :
    (lam b).mapVars f = lam (b.mapVars fun i d => f i (d + 1)) := by
  simp [mapVars_eq, mapVarsAt, mapVarsAt_succ]

theorem mapVars_app (f : Nat → Nat → Term) (g a : Term) :
    (app g a).mapVars f = app (g.mapVars f) (a.mapVars f) := by
  simp [mapVars_eq, mapVarsAt]

theorem mapVars_var (f : Nat → Nat → Term) (i : Nat) : (var i).mapVars f = f i 0 := by
  simp [mapVars_eq, mapVarsAt]

@[simp] theorem shift_var (c a i : Nat) :
    (var i).shift c a = if c ≤ i then var (i + a) else var i := by
  simp [shift, mapVars_var]

@[simp] theorem shift_lam (c a : Nat) (b : Term) :
    (lam b).shift c a = lam (b.shift (c + 1) a) := by
  simp only [shift, mapVars_lam, Nat.add_assoc, Nat.add_comm 1]

@[simp] theorem shift_app (c a : Nat) (f x : Term) :
    (app f x).shift c a = app (f.shift c a) (x.shift c a) := by
  simp only [shift, mapVars_app]

/-! ### Agreement on natural numbers -/

/-- Replacing with answers that agree gives the same term. -/
theorem replaceAt_congr {ε : Type} {f g : Nat → Nat → Except ε Term} (h : ∀ i d, f i d = g i d)
    (t : Term) (d : Nat) : t.replaceAt f d = t.replaceAt g d := by
  have : f = g := funext fun i => funext fun d => h i d
  rw [this]

theorem shift_zero (c : Nat) (t : Term) : t.shift c 0 = t := by
  induction t generalizing c with
  | var i => simp
  | lam b ih => simp [ih]
  | app f a ihf iha => simp [ihf, iha]

theorem shiftBy_natCast (c a : Nat) (t : Term) : t.shiftBy c a = .ok (t.shift c a) := by
  by_cases ha : a = 0
  · subst ha
    simp [shiftBy, shift_zero]
  · have ha' : ¬ ((a : Int) = 0) := by omega
    rw [shiftBy, if_neg ha', replace_eq, shift, mapVars_eq, ← replaceAt_ok]
    apply replaceAt_congr
    intro i d
    by_cases h : c + d ≤ i
    · have h' : (c : Int) + d ≤ i := by omega
      have hpos : ¬ ((i : Int) + a < 0) := by omega
      rw [if_pos h, if_pos h', ofIndex, if_neg hpos]
      congr 2
    · have h' : ¬ ((c : Int) + d ≤ i) := by omega
      rw [if_neg h, if_neg h']

theorem substAt_natCast (k : Nat) (r t : Term) : t.substAt k r = .ok (t.subst k r) := by
  rw [substAt, replace_eq, Term.subst, mapVars_eq, ← replaceAt_ok]
  apply replaceAt_congr
  intro i d
  by_cases h : i = k + d
  · have h' : (i : Int) = k + d := by omega
    rw [if_pos h, if_pos h']
  · have h' : ¬ ((i : Int) = k + d) := by omega
    rw [if_neg h, if_neg h']
    by_cases hlt : k + d < i
    · have hlt' : (k : Int) + d < i := by omega
      have hpos : ¬ ((i : Int) - 1 < 0) := by omega
      rw [if_pos hlt, if_pos hlt', ofIndex, if_neg hpos]
      congr 2
      omega
    · have hlt' : ¬ ((k : Int) + d < i) := by omega
      rw [if_neg hlt, if_neg hlt']

end Term

end Nameless
