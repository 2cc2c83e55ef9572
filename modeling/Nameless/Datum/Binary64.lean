/-
Nameless/Datum/Binary64.lean

Numbers with 53 significant bits, as exact values.  `Binary64.ofRatio` rounds a
quotient to the nearest of them, a tie going to the even significand.
`Binary64.display` writes the shortest decimal that reads back as the same number,
the nearest one if there are two and the even one if both are as near, positionally
for exponents from -4 to 15 and with an exponent beyond.

All arithmetic is on natural numbers.
-/
namespace Nameless

/-- The number `± significand · 2 ^ exponent`.  The significand has 53 bits, or fewer at the
least exponent. -/
structure Binary64 where
  negative : Bool
  significand : Nat
  exponent : Int
deriving DecidableEq, Inhabited

namespace Binary64

/-- The least exponent. -/
def leastExponent : Int := -1074

/-- `n · 2 ^ k` over `d`, as numerator and denominator. -/
def scaled (n d : Nat) (k : Int) : Nat × Nat :=
  if k < 0 then (n, d * Nat.pow 2 (-k).toNat) else (n * Nat.pow 2 k.toNat, d)

/-- The quotient rounded to the nearest whole number, a tie going to the even one. -/
def roundQuotient (n d : Nat) : Nat :=
  let q := n / d
  let r := n % d
  if 2 * r < d then q
  else if d < 2 * r then q + 1
  else if q % 2 = 0 then q else q + 1

/-- The nearest number to `n / d`. -/
def ofRatio (negative : Bool) (n d : Nat) : Binary64 :=
  if n = 0 then ⟨negative, 0, leastExponent⟩
  else
    let guess : Int := (n.log2 : Int) - d.log2 - 52
    let (n₀, d₀) := scaled n d (-guess)
    let tight : Int := if n₀ / d₀ < Nat.pow 2 52 then guess - 1 else guess
    let e := max tight leastExponent
    let (n₁, d₁) := scaled n d (-e)
    let m := roundQuotient n₁ d₁
    if m = Nat.pow 2 53 then ⟨negative, Nat.pow 2 52, e + 1⟩ else ⟨negative, m, e⟩

/-- The nearest number to `digits · 10 ^ -scale`. -/
def ofDecimal (negative : Bool) (digits scale : Nat) : Binary64 :=
  ofRatio negative digits (Nat.pow 10 scale)

/-- The absolute value, as numerator and denominator. -/
def ratio (x : Binary64) : Nat × Nat :=
  scaled x.significand 1 x.exponent

/-- The whole number that `x` is, if it is one. -/
def toInt? (x : Binary64) : Option Int :=
  let (n, d) := x.ratio
  if n % d = 0 then some (if x.negative then -((n / d : Nat) : Int) else (n / d : Nat)) else none

/-! ### The shortest decimal -/

/-- A decimal `digits · 10 ^ exponent`. -/
structure Decimal where
  digits : Nat
  exponent : Int

/-- `n / d` as a multiple of `10 ^ p`: numerator and denominator. -/
def inTens (n d : Nat) (p : Int) : Nat × Nat :=
  if p < 0 then (n * Nat.pow 10 (-p).toNat, d) else (n, d * Nat.pow 10 p.toNat)

/-- Whether a decimal reads back as the given positive number. -/
def readsBack (x : Binary64) (c : Decimal) : Bool :=
  let (n, d) := if c.exponent < 0 then (c.digits, Nat.pow 10 (-c.exponent).toNat)
    else (c.digits * Nat.pow 10 c.exponent.toNat, 1)
  ofRatio false n d = { x with negative := false }

/-- The exponent of the leading decimal digit of `n / d`, found from an estimate that is at
most one too high. -/
def leadingPlace (n d : Nat) : Int :=
  let digitsOf (k : Nat) : Int := (Nat.toDigits 10 k).length
  let guess := digitsOf n - digitsOf d
  let (a, b) := inTens n d guess
  if a < b then guess - 1 else guess

/-- The nearest decimal with `count` digits that reads back as `x`, if there is one. -/
def withDigits (x : Binary64) (count : Nat) : Option Decimal :=
  let (n, d) := x.ratio
  let p := leadingPlace n d - (count : Int) + 1
  let (a, b) := inTens n d p
  let low : Decimal := ⟨a / b, p⟩
  let high : Decimal := ⟨a / b + 1, p⟩
  match readsBack x low, readsBack x high with
  | true, true => some ⟨roundQuotient a b, p⟩
  | true, false => some low
  | false, true => some high
  | false, false => none

/-- The first number of digits from `count` on, among `tries` of them, that suffices. -/
def shortestFrom (x : Binary64) : (tries : Nat) → (count : Nat) → Decimal
  | 0, _ => ⟨0, 0⟩
  | t + 1, count => (withDigits x count).getD (shortestFrom x t (count + 1))

/-- The shortest decimal that reads back; seventeen digits always do. -/
def shortest (x : Binary64) : Decimal :=
  shortestFrom x 17 1

/-! ### Written form -/

/-- A sign and at least two digits. -/
def exponentText (e : Int) : List Char :=
  let digits := Nat.toDigits 10 e.natAbs
  (if e < 0 then '-' else '+') :: (if digits.length < 2 then '0' :: digits else digits)

/-- The digits with the point after the first `point` of them; at least one digit stands on
each side. -/
def positional (digits : List Char) (point : Int) : List Char :=
  if point ≤ 0 then '0' :: '.' :: (List.replicate (-point).toNat '0' ++ digits)
  else
    let whole := digits.take point.toNat ++ List.replicate (point.toNat - digits.length) '0'
    let fraction := digits.drop point.toNat
    whole ++ '.' :: (if fraction = [] then ['0'] else fraction)

/-- The digits with the point after the first one, and an exponent. -/
def scientific (digits : List Char) (point : Int) : List Char :=
  let tail := digits.drop 1
  digits.take 1 ++ (if tail = [] then [] else '.' :: tail) ++ 'e' :: exponentText (point - 1)

/-- The written form of a number. -/
def display (x : Binary64) : String :=
  let sign := if x.negative then ['-'] else []
  if x.significand = 0 then String.ofList (sign ++ ['0', '.', '0'])
  else
    let c := x.shortest
    let all := Nat.toDigits 10 c.digits
    let digits := (all.reverse.dropWhile (· = '0')).reverse
    let point := (all.length : Int) + c.exponent
    String.ofList
      (sign ++ if point ≤ -4 || 16 < point then scientific digits point else positional digits point)

end Binary64

end Nameless
