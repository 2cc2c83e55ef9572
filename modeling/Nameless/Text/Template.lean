/-
Nameless/Text/Template.lean

Message templates.  An empty pair of braces stands for the next argument, a number
between braces for the argument with that number, and a doubled brace for the brace
itself.  After the number may come a path into the argument, a conversion mark and a
layout.  A template is first cut into pieces, each decided by the characters up to
it, and then filled in from left to right; the first fault on the way is the one
reported.

A path picks characters of a text, or attributes.  What attributes a text has is not said
here: it is a parameter (`Attributes`), and so is all that lies behind the first attribute
of a path.
-/
import Nameless.Text.Padding

namespace Nameless.Text

/-- Why a template cannot be filled in.  A fault behind an attribute is known by the name of its
kind and its text. -/
inductive TemplateError where
  | loneOpen
  | loneClose
  | unfinishedField
  | openInName
  | unfinishedConversion
  | afterConversion
  | unfinishedLayout
  | tooManyDigits
  | automaticAfterManual
  | manualAfterAutomatic
  | tooDeep
  | emptyAttribute
  | afterBracket
  | missingBracket
  | conversion (mark : Char)
  | layout (e : LayoutError)
  | argument (number : Nat)
  | name (key : String)
  | foreign (kind text : String)
  | position
  | positionKind
  | noSubject
deriving Inhabited

/-- The wording of a fault. -/
def TemplateError.message : TemplateError → String
  | loneOpen => "Single '\x7b' encountered in format string"
  | loneClose => "Single '\x7d' encountered in format string"
  | unfinishedField => "expected '\x7d' before end of string"
  | openInName => "unexpected '\x7b' in field name"
  | unfinishedConversion => "end of string while looking for conversion specifier"
  | afterConversion => "expected ':' after conversion specifier"
  | unfinishedLayout => "unmatched '\x7b' in format spec"
  | tooManyDigits => "Too many decimal digits in format string"
  | automaticAfterManual =>
    "cannot switch from manual field specification to automatic field numbering"
  | manualAfterAutomatic =>
    "cannot switch from automatic field numbering to manual field specification"
  | tooDeep => "Max string recursion exceeded"
  | emptyAttribute => "Empty attribute in format string"
  | afterBracket => "Only '.' or '[' may follow ']' in format field specifier"
  | missingBracket => "Missing ']' in format string"
  | conversion mark =>
    "Unknown conversion specifier " ++
      (if mark.toNat = 127 then "\\x7f" else named mark)
  | layout e => e.message
  | argument n => s!"Replacement index {n} out of range for positional args tuple"
  | name key => quote key
  | foreign _ text => text
  | position => "string index out of range"
  | positionKind => "string indices must be integers, not 'str'"
  | noSubject => "list index out of range"

/-! ### Pieces -/

/-- A piece of a template: a character, or a field with its name, its conversion mark and
its layout, if it has them. -/
inductive Piece where
  | literal (c : Char)
  | field (name : List Char) (conversion : Option Char) (layout : Option (List Char))

/-- Where a scan of a template stands.  Names and layouts read so far are kept newest first. -/
inductive Scan where
  | outside
  | name (read : List Char) (bracketed : Bool)
  | conversion (name : List Char)
  | converted (name : List Char) (mark : Char)
  | layout (name : List Char) (mark : Option Char) (read : List Char) (depth : Nat)

/-- One piece in front of the others. -/
def emit (p : Piece) (found : List Piece × Option TemplateError) :
    List Piece × Option TemplateError :=
  (p :: found.1, found.2)

/-- The pieces of a template up to its end or its first fault. -/
def pieces : Scan → List Char → List Piece × Option TemplateError
  | .outside, [] => ([], none)
  | .outside, '{' :: '{' :: rest => emit (.literal '{') (pieces .outside rest)
  | .outside, ['{'] => ([], some .loneOpen)
  | .outside, '{' :: rest => pieces (.name [] false) rest
  | .outside, '}' :: '}' :: rest => emit (.literal '}') (pieces .outside rest)
  | .outside, '}' :: _ => ([], some .loneClose)
  | .outside, c :: rest => emit (.literal c) (pieces .outside rest)
  | .name _ _, [] => ([], some .unfinishedField)
  | .name read true, c :: rest => pieces (.name (c :: read) (c ≠ ']')) rest
  | .name _ false, '{' :: _ => ([], some .openInName)
  | .name read false, '[' :: rest => pieces (.name ('[' :: read) true) rest
  | .name read false, '}' :: rest => emit (.field read.reverse none none) (pieces .outside rest)
  | .name read false, ':' :: rest => pieces (.layout read.reverse none [] 1) rest
  | .name read false, '!' :: rest => pieces (.conversion read.reverse) rest
  | .name read false, c :: rest => pieces (.name (c :: read) false) rest
  | .conversion _, [] => ([], some .unfinishedConversion)
  | .conversion name, c :: rest => pieces (.converted name c) rest
  | .converted _ _, [] => ([], some .unfinishedLayout)
  | .converted name mark, '}' :: rest =>
    emit (.field name (some mark) none) (pieces .outside rest)
  | .converted name mark, ':' :: rest => pieces (.layout name (some mark) [] 1) rest
  | .converted _ _, _ :: _ => ([], some .afterConversion)
  | .layout _ _ _ _, [] => ([], some .unfinishedLayout)
  | .layout name mark read depth, '{' :: rest =>
    pieces (.layout name mark ('{' :: read) (depth + 1)) rest
  | .layout name mark read depth, '}' :: rest =>
    if depth ≤ 1 then emit (.field name mark (some read.reverse)) (pieces .outside rest)
    else pieces (.layout name mark ('}' :: read) (depth - 1)) rest
  | .layout name mark read depth, c :: rest => pieces (.layout name mark (c :: read) depth) rest
termination_by _ text => text.length
decreasing_by all_goals simp only [List.length_cons]; omega

/-! ### Arguments -/

/-- How the fields of a template are numbered: not decided yet, by themselves with the next
number, or by the template. -/
inductive Numbering where
  | undecided
  | automatic (next : Nat)
  | manual

/-- The number that a text is, if it is one. -/
def number? (text : List Char) : Except TemplateError (Option Nat) :=
  let digits := text.takeWhile isDigit
  if largestCount < numeral digits then .error .tooManyDigits
  else .ok (if text.isEmpty || digits.length < text.length then none else some (numeral digits))

/-- The argument that the first part of a field name stands for, and the numbering after it. -/
def argument (args : List String) (numbering : Numbering) (first : List Char) :
    Except TemplateError (String × Numbering) := do
  let pick (n : Nat) (after : Numbering) : Except TemplateError (String × Numbering) :=
    match args[n]? with
    | some a => .ok (a, after)
    | none => .error (.argument n)
  match ← number? first, numbering with
  | some _, .automatic _ => throw .manualAfterAutomatic
  | some n, _ => pick n .manual
  | none, _ =>
    if !first.isEmpty then throw (.name (String.ofList first))
    match numbering with
    | .undecided => pick 0 (.automatic 1)
    | .automatic next => pick next (.automatic (next + 1))
    | .manual => throw .automaticAfterManual

/-- Whether a character begins a step of a path. -/
def beginsStep (c : Char) : Bool :=
  c = '.' || c = '['

/-! ### Values -/

/-- A text under a conversion mark. -/
def convert (text : String) : Option Char → Except TemplateError String
  | none => .ok text
  | some 's' => .ok text
  | some 'r' => .ok (quote text)
  | some 'a' => .ok (quoteAscii text)
  | some mark => .error (.conversion mark)

/-- What a field can stand for, known by how it is written: it is converted under the mark of
the field first, and then laid out. -/
abbrev Value := Option Char → Except TemplateError (List Char → Except TemplateError (List Char))

/-- A text as a value. -/
def Value.ofText (text : String) : Value := fun mark => do
  let converted ← convert text mark
  return fun layout => (layOut layout converted.toList).mapError .layout

/-- What the attributes of a text lead to.  The path begins with the name of an attribute, the
dot before it left out. -/
abbrev Attributes := (text : String) → (path : List Char) → Except TemplateError Value

/-- No text has any attribute. -/
def Attributes.none : Attributes := fun _ path =>
  .error (.foreign "AttributeError" ("'str' object has no attribute '"
    ++ String.ofList (path.takeWhile fun c => !beginsStep c) ++ "'"))

/-- Follows a path into a text.  A number in brackets picks a character, and a text has no other
positions. -/
def follow (attributes : Attributes) (text : String) :
    (path : List Char) → Except TemplateError Value
  | [] => .ok (.ofText text)
  | '.' :: rest =>
    if (rest.takeWhile fun c => !beginsStep c).isEmpty then .error .emptyAttribute
    else attributes text rest
  | '[' :: rest =>
    let name := rest.takeWhile (· ≠ ']')
    match _hrest : rest.dropWhile (· ≠ ']') with
    | [] => .error .missingBracket
    | _ :: more => do
      let position? ← number? name
      if name.isEmpty then throw .emptyAttribute
      match position? with
      | none => throw .positionKind
      | some n =>
        match text.toList[n]? with
        | some c => follow attributes c.toString more
        | none => throw .position
  | _ :: _ => .error .afterBracket
termination_by path => path.length
decreasing_by
  have hle : (rest.dropWhile (· ≠ ']')).length ≤ rest.length :=
    (List.dropWhile_suffix _).length_le
  rw [_hrest] at hle
  simp only [List.length_cons] at hle ⊢
  omega

/-! ### Filling in -/

section

variable (inner : Numbering → List Char → Except TemplateError (List Char × Numbering))
  (attributes : Attributes) (args : List String)

/-- What a field is replaced by, and the numbering after it.  A layout with fields of its own
is filled in by `inner` first. -/
def fillField (numbering : Numbering) (name : List Char) (mark : Option Char)
    (layout : Option (List Char)) : Except TemplateError (List Char × Numbering) := do
  let (arg, numbering) ← argument args numbering (name.takeWhile fun c => !beginsStep c)
  let value ← follow attributes arg (name.dropWhile fun c => !beginsStep c)
  let converted ← value mark
  let layout := layout.getD []
  let (layout, numbering) ←
    if layout.contains '{' then inner numbering layout else pure (layout, numbering)
  let laid ← converted layout
  return (laid, numbering)

/-- Fills in the pieces one after the other. -/
def fillPieces : Numbering → List Piece → Except TemplateError (List Char × Numbering)
  | numbering, [] => .ok ([], numbering)
  | numbering, .literal c :: rest => do
    let (text, after) ← fillPieces numbering rest
    return (c :: text, after)
  | numbering, .field name mark layout :: rest => do
    let (laid, numbering) ← fillField inner attributes args numbering name mark layout
    let (text, after) ← fillPieces numbering rest
    return (laid ++ text, after)

end

/-- Fills in a template whose layouts may hold fields down to the given depth. -/
def fillIn (attributes : Attributes) (args : List String) :
    (depth : Nat) → Numbering → List Char → Except TemplateError (List Char × Numbering)
  | 0, _, _ => .error .tooDeep
  | d + 1, numbering, template => do
    let (found, fault) := pieces .outside template
    let filled ← fillPieces (fillIn attributes args d) attributes args numbering found
    match fault with
    | some e => throw e
    | none => return filled

/-- The template with its fields filled in by the arguments. -/
def fillTemplate (attributes : Attributes) (template : String) (args : List String) :
    Except TemplateError String := do
  let (text, _) ← fillIn attributes args 2 .undecided template.toList
  return String.ofList text

end Nameless.Text
