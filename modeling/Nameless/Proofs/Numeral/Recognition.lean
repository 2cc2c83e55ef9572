/-
Nameless/Proofs/Numeral/Recognition.lean

Which terms are numerals.  `Term.church` builds a numeral from the inside, one application
around the other; `Term.churchValue?` takes it apart from the outside and counts.  The two
meet in

    countFrom n t = some m  ↔  t = (app (var 1))^[k] (var 0) for a k with n + k = m

(`countFrom_eq_some_iff`).  Counting goes on exactly where the function of an application is
index 1, and ends well exactly at index 0.  So a term that is a numeral but for one place,
at any depth, has no value.

A numeral is displayed as an abstraction, which a decimal numeral never looks like.  Writing
a term as a number therefore changes how it is written exactly if it is a numeral.
-/
import Nameless.Proofs.Numeral.Arithmetic
import Nameless.Proofs.Text.Decimal

namespace Nameless.Term

/-! ### Counting -/

theorem countFrom_var (n i : Nat) : countFrom n (var i) = if i = 0 then some n else none := by
  simp [countFrom]

theorem countFrom_lam (n : Nat) (b : Term) : countFrom n (lam b) = none := by
  simp [countFrom]

theorem countFrom_app (n : Nat) (f x : Term) :
    countFrom n (app f x) = if f = var 1 then countFrom (n + 1) x else none := by
  rw [countFrom]

/-- A row of applications is counted to its end. -/
theorem countFrom_iterate_app (k : Nat) :
    ∀ n, countFrom n ((app (var 1))^[k] (var 0)) = some (n + k) := by
  induction k with
  | zero =>
    intro n
    exact countFrom_var n 0
  | succ k ih =>
    intro n
    rw [Function.iterate_succ_apply', countFrom_app, if_pos rfl, ih, Nat.add_assoc, Nat.add_comm 1]

/-- What is counted is a row of applications. -/
theorem exists_iterate_app_of_countFrom {t : Term} :
    ∀ {n m : Nat}, countFrom n t = some m → ∃ k, n + k = m ∧ t = (app (var 1))^[k] (var 0) := by
  induction t with
  | var i =>
    intro n m h
    rw [countFrom_var] at h
    split at h
    · next hi => exact ⟨0, Option.some.inj h, congrArg var hi⟩
    · cases h
  | lam b _ =>
    intro n m h
    rw [countFrom_lam] at h
    cases h
  | app f x _ ihx =>
    intro n m h
    rw [countFrom_app] at h
    split at h
    · next hf =>
      obtain ⟨k, hk, hx⟩ := ihx h
      refine ⟨k + 1, by omega, ?_⟩
      rw [Function.iterate_succ_apply', ← hx, hf]
    · cases h

theorem countFrom_eq_some_iff {t : Term} {n m : Nat} :
    countFrom n t = some m ↔ ∃ k, n + k = m ∧ t = (app (var 1))^[k] (var 0) := by
  constructor
  · exact exists_iterate_app_of_countFrom
  · rintro ⟨k, rfl, rfl⟩
    exact countFrom_iterate_app k n

/-! ### Numerals -/

/-- The value of a term is the number that it is the numeral of. -/
theorem churchValue?_eq_some_iff {t : Term} {n : Nat} : t.churchValue? = some n ↔ t = church n := by
  rw [church_eq]
  constructor
  · intro h
    rw [churchValue?.eq_def] at h
    split at h
    · obtain ⟨k, hk, hbody⟩ := countFrom_eq_some_iff.mp h
      rw [Nat.zero_add] at hk
      rw [hbody, hk]
    · cases h
  · rintro rfl
    exact countFrom_eq_some_iff.mpr ⟨n, Nat.zero_add n, rfl⟩

theorem churchValue?_church (n : Nat) : (church n).churchValue? = some n :=
  churchValue?_eq_some_iff.mpr rfl

theorem churchValue?_eq_none_iff {t : Term} : t.churchValue? = none ↔ ∀ n, t ≠ church n := by
  simp only [Option.eq_none_iff_forall_ne_some, ne_eq, churchValue?_eq_some_iff]

theorem church_injective : Function.Injective church := by
  intro m n h
  have hm := churchValue?_church m
  rw [h, churchValue?_church] at hm
  exact (Option.some.inj hm).symm

/-! ### Numerals as they are written -/

theorem displayNumeral_church (n : Nat) :
    (church n).displayNumeral = String.ofList (decimal n) := by
  rw [displayNumeral, churchValue?_church]

/-- No number is written like an abstraction. -/
theorem decimal_ne_display_lam (n : Nat) (b : Term) :
    String.ofList (decimal n) ≠ (lam b).display := by
  intro h
  have hmem : 'λ' ∈ decimal n := by
    rw [String.ofList_injective h]
    exact List.mem_cons_self
  exact absurd (Text.isDigit_of_mem_decimal hmem) (by decide)

/-- Writing a term as a number makes a difference for numerals alone. -/
theorem displayNumeral_ne_display_iff {t : Term} :
    t.displayNumeral ≠ t.display ↔ ∃ n, t = church n := by
  constructor
  · intro h
    cases hvalue : t.churchValue? with
    | none =>
      rw [displayNumeral, hvalue] at h
      exact absurd rfl h
    | some n => exact ⟨n, churchValue?_eq_some_iff.mp hvalue⟩
  · rintro ⟨n, rfl⟩
    rw [displayNumeral_church]
    exact decimal_ne_display_lam n _

/-- **Numerals are recognised exactly.**  A term has the value `n` if and only if it is the numeral
of `n`, and no value if and only if it is no numeral; so different numbers have different
numerals.  A numeral is written as its number where numbers are asked for, and no other term is
written differently there. -/
theorem churchValue?_recognises :
    (∀ (t : Term) (n : Nat), t.churchValue? = some n ↔ t = church n) ∧
    (∀ t : Term, t.churchValue? = none ↔ ∀ n, t ≠ church n) ∧
    Function.Injective church ∧
    (∀ n, (church n).displayNumeral = String.ofList (decimal n)) ∧
    (∀ t : Term, t.displayNumeral ≠ t.display ↔ ∃ n, t = church n) :=
  ⟨fun _ _ => churchValue?_eq_some_iff, fun _ => churchValue?_eq_none_iff, church_injective,
    displayNumeral_church, fun _ => displayNumeral_ne_display_iff⟩

end Nameless.Term
