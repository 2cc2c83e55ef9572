/-
Nameless/Written/Parse.lean

Reading display notation.  A term is an index, a binder and a dot before a term, or a
row of terms in parentheses; a row is the application of its first term to the others
in turn, and a whole text is a row without parentheses.

Reading keeps a stack of the groups that are open, each with the application read in
it so far and the number of binders that wait for the next term, so the depth of a
text costs no nesting of calls.
-/
import Nameless.Report.Diagnostic
import Nameless.Term.Basic
import Nameless.Written.Token

namespace Nameless

/-- What is wrong with a text. -/
inductive SyntaxFault where
  | stray (s : Token.Stray)
  | empty
  | missingDot (binder : Token)
  | parenthesis (token : Token)
  | strayDot (dot : Token)
  | unfinished
deriving DecidableEq

/-- Why a text is not read: it is not display notation, or it has a numeral with too many
digits. -/
inductive ReadError where
  | syntactic (text : String) (fault : SyntaxFault)
  | longNumeral (digits : Nat)
deriving DecidableEq

/-- The most digits that a numeral may have. -/
def maxDigits : Nat := 4300

/-! ### Groups -/

/-- A group: the parenthesis that opened it (none for the whole text), the application of
the terms read in it so far, and the number of binders waiting for the next one. -/
structure Group where
  opening : Option Token
  term : Option Term
  waiting : Nat

/-- A group with nothing in it. -/
def Group.start (opening : Option Token) : Group := ⟨opening, none, 0⟩

/-- `n` abstractions around a term. -/
def Term.lams : Nat → Term → Term
  | 0, t => t
  | n + 1, t => lams n (.lam t)

/-- The group after one more term, which becomes the body of the waiting binders. -/
def Group.add (g : Group) (t : Term) : Group :=
  let body := t.lams g.waiting
  { g with
    term := some (match g.term with
      | none => body
      | some f => .app f body)
    waiting := 0 }

/-- Reads the tokens into the innermost group and the groups around it. -/
def readTokens (inner : Group) (outer : List Group) :
    List Token → Except (SyntaxFault ⊕ Nat) Term
  | [] =>
    if 0 < inner.waiting then .error (.inl .unfinished)
    else
      match inner.opening, inner.term with
      | some token, _ => .error (.inl (.parenthesis token))
      | none, some t => .ok t
      | none, none => .error (.inl .empty)
  | ⟨.index, text, _⟩ :: rest =>
    if maxDigits < text.length then .error (.inr text.length)
    else readTokens (inner.add (.var (Text.numeral text))) outer rest
  | ⟨.binder, _, _⟩ :: ⟨.dot, _, _⟩ :: rest =>
    readTokens { inner with waiting := inner.waiting + 1 } outer rest
  | ⟨.binder, text, start⟩ :: _ => .error (.inl (.missingDot ⟨.binder, text, start⟩))
  | ⟨.opening, text, start⟩ :: rest =>
    readTokens (.start (some ⟨.opening, text, start⟩)) (inner :: outer) rest
  | ⟨.closing, text, start⟩ :: rest =>
    if 0 < inner.waiting then .error (.inl (.parenthesis ⟨.closing, text, start⟩))
    else
      match inner.opening, inner.term, outer with
      | some _, some t, group :: groups => readTokens (group.add t) groups rest
      | _, _, _ => .error (.inl (.parenthesis ⟨.closing, text, start⟩))
  | ⟨.dot, text, start⟩ :: _ => .error (.inl (.strayDot ⟨.dot, text, start⟩))

/-- The term that a text is the display notation of. -/
def Term.parse (text : String) : Except ReadError Term :=
  match Token.scan text.toList with
  | .error s => .error (.syntactic text (.stray s))
  | .ok [] => .error (.syntactic text .empty)
  | .ok tokens =>
    match readTokens (.start none) [] tokens with
    | .ok t => .ok t
    | .error (.inl fault) => .error (.syntactic text fault)
    | .error (.inr digits) => .error (.longNumeral digits)

/-! ### Reports -/

namespace SyntaxFault

/-- What is said of a text with the fault, with the text and its parts in bold. -/
def message (style : Style) (text : String) : SyntaxFault → String
  | stray s =>
    "'" ++ style.bold text ++ "' contains unexpected character '" ++ style.bold s.char.toString ++ "'"
  | empty => "λ-term cannot be empty"
  | missingDot _ => "'" ++ style.bold text ++ "' has a bind without a declarator"
  | parenthesis _ => "'" ++ style.bold text ++ "' has mismatched parentheses"
  | strayDot _ => "'" ++ style.bold text ++ "' has declarator before bind"
  | unfinished => "'" ++ style.bold text ++ "' ends where a λ-term was expected"

/-- The stretch of the text that the fault is about. -/
def stretch (text : String) : SyntaxFault → Nat × Nat
  | stray s => (s.position, s.position + 1)
  | empty => (0, text.length)
  | missingDot t => (t.start, t.stop)
  | parenthesis t => (t.start, t.stop)
  | strayDot t => (t.start, t.stop)
  | unfinished => (text.length - 1, text.length)

/-- The diagnostic of a fault in a text.  There is nothing to point at in an empty text. -/
def diagnostic (style : Style) (text : String) (fault : SyntaxFault) : Diagnostic where
  message := fault.message style text
  subject := text
  start := (fault.stretch text).1
  stop := (fault.stretch text).2
  pointed := fault ≠ .empty
  internal := false

end SyntaxFault

/-- What is said of a numeral with too many digits. -/
def longNumeralMessage (digits : Nat) : String :=
  s!"Exceeds the limit ({maxDigits} digits) for integer string conversion: value has {digits} " ++
    "digits; use sys.set_int_max_str_digits() to increase the limit"

end Nameless
