/-
Nameless/Proofs/Text/Decimal.lean

Decimal numerals.  `Text.numeral` reads digits from left to right, each time multiplying
what it has by ten; what it computes is the sum of the digits, each times its power of
ten (`numeral_eq_ofDigits`).  `Term.decimal` writes digits the other way, from remainders
by ten, and reading gives the number back (`numeral_decimal`).
-/
import Mathlib.Data.List.Induction
import Mathlib.Data.Nat.Digits.Defs
import Nameless.Term.Display
import Nameless.Text.Character

namespace Nameless.Text

/-- The value of a digit; any other character counts as zero. -/
def digit (c : Char) : Nat :=
  (digitValue? c).getD 0

/-! ### The value of a numeral -/

theorem numeralFrom_append_singleton (ds : List Char) (c : Char) :
    ∀ n, numeralFrom n (ds ++ [c]) = 10 * numeralFrom n ds + digit c := by
  induction ds with
  | nil => intro n; rfl
  | cons d ds ih => intro n; exact ih _

theorem numeral_append_singleton (ds : List Char) (c : Char) :
    numeral (ds ++ [c]) = 10 * numeral ds + digit c :=
  numeralFrom_append_singleton ds c 0

/-- A numeral denotes the sum of its digits, each times its power of ten. -/
theorem numeral_eq_ofDigits (ds : List Char) :
    numeral ds = Nat.ofDigits 10 (ds.map digit).reverse := by
  induction ds using List.reverseRecOn with
  | nil => rfl
  | append_singleton ds c ih =>
    rw [numeral_append_singleton, ih, List.map_append, List.reverse_append]
    show _ = Nat.ofDigits 10 (digit c :: (ds.map digit).reverse)
    rw [Nat.ofDigits_cons, Nat.add_comm]

/-! ### The digits that are written -/

theorem toNat_of_isDigit {c : Char} (h : c.isDigit = true) : 48 ≤ c.toNat ∧ c.toNat ≤ 57 := by
  simp only [Char.isDigit, Bool.and_eq_true, decide_eq_true_eq] at h
  exact h

theorem digitValue?_of_isDigit {c : Char} (h : c.isDigit = true) :
    digitValue? c = some (c.toNat - 48) := by
  have hrange : (48 ≤ c.toNat && c.toNat < 48 + 10) = true := by
    obtain ⟨hlow, hhigh⟩ := toNat_of_isDigit h
    simp only [Bool.and_eq_true, decide_eq_true_eq]
    omega
  -- the row of ASCII digits stands first in the table
  have hfirst : zeroDigits.find? (fun first => first ≤ c.toNat && c.toNat < first + 10)
      = some 48 := List.find?_cons_of_pos hrange
  rw [digitValue?, hfirst]
  rfl

theorem isDigit_of_isDigit {c : Char} (h : c.isDigit = true) : isDigit c = true := by
  rw [isDigit, digitValue?_of_isDigit h]
  rfl

theorem digit_digitChar {d : Nat} (h : d < 10) : digit d.digitChar = d := by
  have hdigit : d.digitChar.isDigit = true := by
    rw [Nat.isDigit_digitChar]
    exact decide_eq_true h
  rw [digit, digitValue?_of_isDigit hdigit, Nat.toNat_digitChar_sub_48_of_lt_ten h]
  rfl

/-- Reading a number as it is written gives the number. -/
theorem numeral_decimal (n : Nat) : numeral (Term.decimal n) = n := by
  rw [Term.decimal]
  induction n using Nat.strongRecOn with
  | ind n ih =>
    rcases Nat.lt_or_ge n 10 with hn | hn
    · rw [Nat.toDigits_of_lt_base hn, ← List.nil_append [n.digitChar],
        numeral_append_singleton, digit_digitChar hn]
      exact Nat.zero_add n
    · rw [Nat.toDigits_of_base_le (by decide) hn, numeral_append_singleton, ih (n / 10) (by omega),
        digit_digitChar (Nat.mod_lt n (by decide)), Nat.div_add_mod]

theorem isDigit_of_mem_decimal {c : Char} {n : Nat} (h : c ∈ Term.decimal n) :
    c.isDigit = true :=
  Nat.isDigit_of_mem_toDigits (by decide) (by decide) h

theorem decimal_ne_nil (n : Nat) : Term.decimal n ≠ [] :=
  Nat.toDigits_ne_nil

end Nameless.Text
