/-
Nameless/Witness/Basic.lean

Witnesses: records of what is claimed about a term.  A witness holds the subject of
its claim and the outcome it claims, and nothing in it is trusted; checking derives
the outcome again.  Any plain value may stand where a term or an outcome is expected,
and where a witness is expected, since that is what checking has to cope with.
-/
import Nameless.Datum.Basic
import Nameless.Evaluation.Machine
import Nameless.Reduction.Normalize
import Nameless.Report.Diagnostic

namespace Nameless

/-- What an evaluation is claimed to end in: an outcome, or a plain value in its place. -/
inductive Claimed where
  | outcome (r : Outcome)
  | datum (d : Datum)
deriving Inhabited

namespace Claimed

/-- Equality of claimed outcomes. -/
def same : Claimed → Claimed → Bool
  | outcome r, outcome r' => r.same r'
  | datum d, datum d' => d.same d'
  | _, _ => false

/-- The written form of a claimed outcome. -/
def plain : Claimed → String
  | outcome r => r.display
  | datum d => d.plain

/-- What is said when a plain value is asked for the bindings that an outcome has. -/
def noBindingsMessage (d : Datum) : String :=
  "'" ++ d.kind ++ "' object has no attribute 'captured_environment'"

end Claimed

/-- A witness.  `alpha` claims that two terms are equal, `beta` that one step leads from one
to the other, `eval` that a term evaluates to an outcome, and `norm` that a term reduces to
another, through the recorded steps if there are any.  `consistency` claims that the battery
of checks passes, and a `composite` claims what all its parts claim.  `other` is no witness
at all. -/
inductive Witness where
  | alpha (left right : Item)
  | beta (before after : Item)
  | eval (subject : Item) (result : Claimed)
  | norm (subject result : Item) (steps : List Item)
  | consistency
  | composite (parts : List Witness) (label : String)
  | other (d : Datum)
deriving Inhabited

namespace Witness

/-! ### Equality -/

/-- Equality of lists of items. -/
def sameItems : List Item → List Item → Bool
  | [], [] => true
  | x :: xs, y :: ys => x.same y && sameItems xs ys
  | _, _ => false

mutual

/-- Whether two witnesses are of one kind with equal parts. -/
def same : Witness → Witness → Bool
  | alpha l r, alpha l' r' => l.same l' && r.same r'
  | beta b a, beta b' a' => b.same b' && a.same a'
  | eval s r, eval s' r' => s.same s' && r.same r'
  | norm s r ss, norm s' r' ss' => s.same s' && r.same r' && sameItems ss ss'
  | consistency, consistency => true
  | composite ps l, composite ps' l' => sameAll ps ps' && l == l'
  | other d, other d' => d.same d'
  | _, _ => false

/-- Equality of lists of witnesses. -/
def sameAll : List Witness → List Witness → Bool
  | [], [] => true
  | x :: xs, y :: ys => x.same y && sameAll xs ys
  | _, _ => false

end

/-! ### Written form -/

/-- The written form of a witness.  What is no witness is written as itself. -/
def display : Witness → String
  | alpha l r => "α-equivalence: " ++ l.plain ++ " ≡ " ++ r.plain
  | beta b a => "β-reduction: " ++ b.plain ++ " → " ++ a.plain
  | eval s r => "evaluation: " ++ s.plain ++ " ⇒ " ++ r.plain
  | norm s r steps =>
    "normalization: " ++ s.plain ++ " →* " ++ r.plain ++ s!" ({steps.length} steps)"
  | consistency => "consistency: kernel properties verified"
  | composite parts label => s!"composite proof ({parts.length} subproofs): " ++ label
  | other d => d.plain

/-- The items that a value is the collection of: the characters of a text or the members of
a list.  No other value has members. -/
def members : Datum → Except Datum (List Item)
  | .text s => .ok (s.toList.map fun c => .datum (.text c.toString))
  | .listing xs => .ok (xs.map .datum)
  | d => .error d

/-- What is said of a value without members. -/
def noMembersMessage (d : Datum) : String :=
  "'" ++ d.kind ++ "' object is not iterable"

/-- What is said when a plain value is asked to check a term. -/
def noCheckMessage (d : Datum) : String :=
  "'" ++ d.kind ++ "' object has no attribute 'check'"

end Witness

/-! ### Making witnesses -/

/-- Two items that are claimed to be equal terms and differ. -/
structure Disagreement where
  left : Item
  right : Item

/-- The diagnostic of a disagreement. -/
def Disagreement.diagnostic (style : Style) (e : Disagreement) : Diagnostic :=
  .brief ("'" ++ style.bold e.left.plain ++ "' and '" ++ style.bold e.right.plain
    ++ "' are not α-equivalent") e.left.plain

namespace Witness

/-- A witness that two items are equal, which must be so. -/
def ofEqual (left right : Item) : Except Disagreement Witness :=
  if left.same right then .ok (alpha left right) else .error ⟨left, right⟩

/-- A witness of one step of reduction. -/
def ofStep (t : Term) : Witness :=
  beta (.term t) (.term t.step)

/-- A witness of evaluation. -/
def ofEval (fuel : Nat) (t : Term) : Option Witness :=
  (t.eval fuel).map fun r => eval (.term t) (.outcome r)

/-- A witness of normalization without steps. -/
def ofNormalize (fuel : Nat) (t : Term) : Option Witness :=
  (t.normalize fuel).map fun n => norm (.term t) (.term n) []

/-- A witness of normalization through the given steps, the last of which is the result. -/
def ofSteps (t : Term) (steps : List Term) : Witness :=
  norm (.term t) (.term (steps.getLastD t)) (steps.map .term)

/-- A witness of normalization that records every step. -/
def ofTrace (fuel : Nat) (t : Term) : Option Witness :=
  (t.trace fuel).map (ofSteps t)

end Witness

end Nameless
