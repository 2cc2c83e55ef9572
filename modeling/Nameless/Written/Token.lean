/-
Nameless/Written/Token.lean

The tokens of display notation: parentheses, binders, dots and indices.  A binder is
`λ` or a backslash with any ASCII letters and underscores after it, which are
decoration; an index is a row of decimal digits of any script.  Blanks stand between
tokens where one likes.  `Token.scan` cuts a text into its tokens, each with the
position of its first character, or finds the first position where no token and no
blank can begin.
-/
import Nameless.Text.Character

namespace Nameless

/-- The kinds of token. -/
inductive Token.Kind where
  | opening
  | closing
  | binder
  | dot
  | index
deriving DecidableEq, Inhabited

/-- A token: its kind, its characters, and the position of the first of them. -/
structure Token where
  kind : Token.Kind
  text : List Char
  start : Nat
deriving DecidableEq, Inhabited

namespace Token

/-- The position after the last character. -/
def stop (t : Token) : Nat := t.start + t.text.length

/-- Whether a character may follow the sign of a binder. -/
def isNameChar (c : Char) : Bool :=
  ('A' ≤ c && c ≤ 'Z') || ('a' ≤ c && c ≤ 'z') || c = '_'

/-- Whether a character is the sign of a binder. -/
def isBinderSign (c : Char) : Bool :=
  c = 'λ' || c = '\\'

/-- The kind of the token that a character begins. -/
def Kind.ofChar? (c : Char) : Option Kind :=
  if c = '(' then some .opening
  else if c = ')' then some .closing
  else if isBinderSign c then some .binder
  else if c = '.' then some .dot
  else if Text.isDigit c then some .index
  else none

/-- Whether a character goes on with a token of the kind. -/
def Kind.continues : Kind → Char → Bool
  | .binder, c => isNameChar c
  | .index, c => Text.isDigit c
  | _, _ => false

/-- A position where no token can begin, and the character there. -/
structure Stray where
  position : Nat
  char : Char
deriving DecidableEq

/-- The tokens of a text that begins at position `start`, newest first in front of those
already found. -/
def scanOnto (found : List Token) (start : Nat) : List Char → Except Stray (List Token)
  | [] => .ok found
  | c :: rest =>
    if Text.isBlank c then scanOnto found (start + 1) rest
    else
      match Kind.ofChar? c with
      | none => .error ⟨start, c⟩
      | some kind =>
        let text := c :: rest.takeWhile kind.continues
        scanOnto (⟨kind, text, start⟩ :: found) (start + text.length)
          (rest.dropWhile kind.continues)
termination_by text => text.length
decreasing_by
  · simp
  · exact Nat.lt_succ_of_le (List.dropWhile_suffix _).length_le

/-- The tokens of a text, in order. -/
def scan (text : List Char) : Except Stray (List Token) :=
  (scanOnto [] 0 text).map List.reverse

end Token

end Nameless
