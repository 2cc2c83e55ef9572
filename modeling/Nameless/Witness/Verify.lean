/-
Nameless/Witness/Verify.lean

Checking witnesses.  A leaf is checked by deriving its claim again from the term at
hand; a composite holds if all its parts hold, and what is no witness never does.
Composites are opened on a stack of witnesses still to be checked, so their depth
costs no nesting of calls.

Evaluation and normalization may not end, so checking takes a bound for them and
answers `none` when it runs out.
-/
import Nameless.Reduction.Battery
import Nameless.Witness.Basic

namespace Nameless

namespace Witness

/-- The last of the recorded steps, if each is one step of reduction from the one before. -/
def followSteps (t : Term) : List Item → Option Term
  | [] => some t
  | .term u :: rest => if t.step = u then followSteps u rest else none
  | .datum _ :: _ => none

/-- Whether recorded steps lead from a term to the claimed result.  No steps claim nothing. -/
def stepsHold (t : Term) (result : Item) (steps : List Item) : Bool :=
  steps.isEmpty || (followSteps t steps).any fun u => (Item.term u).same result

/-- Whether a witness that is no composite holds for a term. -/
def leafHolds (fuel : Nat) (t : Term) : Witness → Option Bool
  | alpha l r => some (l.term?.isSome && l.same r)
  | beta _ after => some ((Item.term t.step).same after)
  | eval _ result => (t.eval fuel).map fun r => (Claimed.outcome r).same result
  | norm _ result steps =>
    (t.normalize fuel).map fun n => (Item.term n).same result && stepsHold t result steps
  | consistency => some Term.batteryPasses
  | composite _ _ => some false
  | other _ => some false

/-! ### The stack -/

mutual

/-- The number of nodes of a witness. -/
def weight : Witness → Nat
  | composite parts _ => weightAll parts + 1
  | alpha _ _ => 1
  | beta _ _ => 1
  | eval _ _ => 1
  | norm _ _ _ => 1
  | consistency => 1
  | other _ => 1

/-- The number of nodes of several witnesses. -/
def weightAll : List Witness → Nat
  | [] => 0
  | w :: ws => w.weight + weightAll ws

end

theorem weight_pos (w : Witness) : 0 < w.weight := by
  cases w <;> simp [weight]

theorem weightAll_append (ws vs : List Witness) :
    weightAll (ws ++ vs) = weightAll ws + weightAll vs := by
  induction ws with
  | nil => simp [weightAll]
  | cons w ws ih => simp only [List.cons_append, weightAll, ih]; omega

/-- Whether all witnesses on the stack hold for a term. -/
def allHold (fuel : Nat) (t : Term) : List Witness → Option Bool
  | [] => some true
  | composite parts _ :: rest => allHold fuel t (parts ++ rest)
  | w :: rest =>
    match leafHolds fuel t w with
    | none => none
    | some false => some false
    | some true => allHold fuel t rest
termination_by ws => weightAll ws
decreasing_by
  · simp only [weightAll_append, weightAll, weight]; omega
  · have := weight_pos w
    simp only [weightAll]; omega

/-- Whether a witness holds for an item, which must be a term. -/
def verify (fuel : Nat) (w : Witness) : Item → Option Bool
  | .term t => allHold fuel t [w]
  | .datum _ => some false

/-- Whether a witness holds for a term, asked of the witness itself; a plain value cannot be
asked. -/
def check (fuel : Nat) (w : Witness) (t : Term) : Except Datum (Option Bool) :=
  match w with
  | other d => .error d
  | composite parts label => .ok (verify fuel (composite parts label) (.term t))
  | leaf => .ok (leafHolds fuel t leaf)

end Witness

/-! ### Items with witnesses -/

/-- An item bundled with a witness about it. -/
structure Proven where
  subject : Item
  witness : Witness

namespace Proven

/-- Whether the witness holds for the item. -/
def verify (fuel : Nat) (p : Proven) : Option Bool :=
  p.witness.verify fuel p.subject

/-- The item and its witness in brackets. -/
def display (p : Proven) : String :=
  p.subject.plain ++ " [" ++ p.witness.display ++ "]"

end Proven

end Nameless
