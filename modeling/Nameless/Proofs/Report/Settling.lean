/-
Nameless/Proofs/Report/Settling.lean

What becomes of the faults that a typed line can meet.

A forgiving reporter prints one report of such a fault and puts every line away
(`settle_typed`).  A fault that has a diagnostic is settled by that.  The others are taken
for faults of the program, and go on after the report.  Their texts are filled in like any
template on the way, which leaves them as they are since no brace stands in them
(`settle_of_braceless`).

A line that is taken up and put away again leaves the marks of a reporter as they were if no
line of that source was being worked on (`Reporter.Clear`), and putting all lines away does
nothing if none of any source was (`Reporter.AtRest`).
-/
import Nameless.Desk.Fault
import Nameless.Proofs.Text.Filling

namespace Nameless

/-! ### Marks -/

namespace Reporter

theorem setMark_setMark (path : String) (m m' : Mark) (marks : List (String × Mark)) :
    setMark path m' (setMark path m marks) = setMark path m' marks := by
  induction marks with
  | nil => rw [setMark, setMark, setMark, if_pos rfl]
  | cons p marks ih =>
    obtain ⟨q, k⟩ := p
    by_cases hq : q = path
    · rw [setMark, if_pos hq, setMark, if_pos hq, setMark, if_pos hq]
    · rw [setMark, if_neg hq, setMark, if_neg hq, ih, setMark, if_neg hq]

theorem mark_mark (r : Reporter) (path : String) (m m' : Mark) :
    (r.mark path m).mark path m' = r.mark path m' := by
  rw [mark, mark, mark, setMark_setMark]

/-- The reporter knows the source, and works on no line of it. -/
def Clear (r : Reporter) (path : String) : Prop :=
  setMark path .none r.traceback = r.traceback

/-- The reporter works on no line, and knows the source. -/
structure AtRest (r : Reporter) (path : String) : Prop where
  clear : ∀ p ∈ r.traceback, p.2 = .none
  known : path ∈ r.traceback.map Prod.fst

theorem setMark_of_clear {path : String} {marks : List (String × Mark)}
    (hclear : ∀ p ∈ marks, p.2 = .none) (hknown : path ∈ marks.map Prod.fst) :
    setMark path .none marks = marks := by
  induction marks with
  | nil => cases hknown
  | cons p marks ih =>
    obtain ⟨q, k⟩ := p
    obtain ⟨hk, hclear⟩ := List.forall_mem_cons.mp hclear
    by_cases hq : q = path
    · rw [setMark, if_pos hq, ← hk]
    · have hmarks : path ∈ marks.map Prod.fst :=
        (List.mem_cons.mp hknown).resolve_left fun h => hq h.symm
      rw [setMark, if_neg hq, ih hclear hmarks]

theorem map_setMark {path : String} {m : Mark} {marks : List (String × Mark)}
    (hknown : path ∈ marks.map Prod.fst) :
    (setMark path m marks).map (fun (p, _) => (p, Mark.none))
      = marks.map fun (p, _) => (p, Mark.none) := by
  induction marks with
  | nil => cases hknown
  | cons p marks ih =>
    obtain ⟨q, k⟩ := p
    by_cases hq : q = path
    · rw [setMark, if_pos hq, List.map_cons, List.map_cons]
    · have hmarks : path ∈ marks.map Prod.fst :=
        (List.mem_cons.mp hknown).resolve_left fun h => hq h.symm
      rw [setMark, if_neg hq, List.map_cons, List.map_cons, ih hmarks]

theorem clear_setMark {path : String} {marks : List (String × Mark)}
    (hclear : ∀ p ∈ marks, p.2 = .none) : ∀ p ∈ setMark path .none marks, p.2 = .none := by
  induction marks with
  | nil => exact List.forall_mem_singleton.mpr rfl
  | cons p marks ih =>
    obtain ⟨q, k⟩ := p
    obtain ⟨hk, hclear⟩ := List.forall_mem_cons.mp hclear
    rw [setMark]
    split
    · exact List.forall_mem_cons.mpr ⟨rfl, hclear⟩
    · exact List.forall_mem_cons.mpr ⟨hk, ih hclear⟩

theorem mem_setMark (path : String) (m : Mark) (marks : List (String × Mark)) :
    path ∈ (setMark path m marks).map Prod.fst := by
  induction marks with
  | nil => exact List.mem_singleton.mpr rfl
  | cons p marks ih =>
    obtain ⟨q, k⟩ := p
    rw [setMark]
    split
    · next hq => exact List.mem_cons.mpr (.inl hq.symm)
    · exact List.mem_cons_of_mem q ih

theorem clear_clearLine (r : Reporter) (path : String) : (r.clearLine path).Clear path :=
  setMark_setMark path .none .none r.traceback

theorem Clear.clearLine_eq {r : Reporter} {path : String} (h : r.Clear path) :
    r.clearLine path = r := by
  rw [clearLine, mark, h]

theorem Clear.clearLines_enterLine {r : Reporter} {path : String} (h : r.Clear path)
    (line : String) (number : Int) :
    (r.enterLine path line number).clearLines = r.clearLines := by
  have hknown : path ∈ r.traceback.map Prod.fst := by
    rw [← h]
    exact mem_setMark path .none r.traceback
  rw [clearLines, enterLine, mark, map_setMark hknown]
  rfl

theorem atRest_clearLine {r : Reporter} (hclear : ∀ p ∈ r.traceback, p.2 = .none)
    (path : String) : (r.clearLine path).AtRest path :=
  ⟨clear_setMark hclear, mem_setMark path .none r.traceback⟩

namespace AtRest

variable {r : Reporter} {path : String} (h : r.AtRest path)
include h

theorem isClear : r.Clear path :=
  setMark_of_clear h.clear h.known

theorem clearLines_eq : r.clearLines = r := by
  have hmarks : r.traceback.map (fun (p, _) => (p, Mark.none)) = r.traceback := by
    conv_rhs => rw [← List.map_id r.traceback]
    exact List.map_congr_left fun p hp => Prod.ext rfl (h.clear p hp).symm
  rw [clearLines, hmarks]

end AtRest

end Reporter

/-! ### Faults -/

/-- What is reported of something unexpected. -/
def Diagnostic.unexpected (kind text : String) : Diagnostic where
  message := "unknown error: '" ++ kind ++ ": " ++ text ++ "'"
  subject := ""
  start := 0
  stop := 0
  pointed := true
  internal := true

theorem Diagnostic.braceless_unexpected_iff {kind text : String} :
    Text.Braceless (Diagnostic.unexpected kind text).message.toList ↔
      Text.Braceless kind.toList ∧ Text.Braceless text.toList := by
  have hmessage : (Diagnostic.unexpected kind text).message
      = "unknown error: '" ++ kind ++ ": " ++ text ++ "'" := rfl
  have hparts : Text.Braceless "unknown error: '".toList ∧ Text.Braceless ": ".toList ∧
      Text.Braceless "'".toList := by
    decide
  rw [hmessage]
  simp only [String.toList_append, Text.braceless_append, hparts, true_and, and_true]

namespace Fault

/-- The faults that a typed line can meet: it cannot be read, or an index is too large to be
encoded or to be written out. -/
inductive Typed : Fault → Prop
  | read (e : ReadError) : Typed (.read e)
  | wideIndex (i : Nat) : Typed (.wideIndex i)
  | longIndex : Typed .longIndex

/-- Whether a fault is taken for one of the program. -/
def isInternal : Fault → Bool
  | read (.syntactic _ _) => false
  | unknownMode _ => false
  | cannotOpen _ => false
  | reservedPath => false
  | _ => true

/-- What is reported of a fault. -/
def diagnosis (style : Style) (f : Fault) : Diagnostic :=
  match f.incident style with
  | .diagnosed d => d
  | .unexpected kind text => .unexpected kind text
  | _ => default

end Fault

namespace Reporter

theorem errorText_ne (r : Reporter) (d : Diagnostic) : r.errorText d ≠ "" := by
  intro h
  have hend := (String.append_eq_empty_iff.mp (String.append_eq_empty_iff.mp h).1).2
  exact absurd hend (by decide)

theorem braceless_longNumeralMessage (digits : Nat) :
    Text.Braceless (longNumeralMessage digits).toList := by
  delta longNumeralMessage
  simp only [String.toList_append, Text.braceless_append]
  exact ⟨⟨⟨⟨⟨by decide, Text.braceless_toString _⟩, by decide⟩, Text.braceless_toString digits⟩,
    by decide⟩, by decide⟩

theorem braceless_wideIndexMessage (i : Nat) : Text.Braceless (wideIndexMessage i).toList := by
  delta wideIndexMessage
  simp only [String.toList_append, Text.braceless_append]
  exact ⟨⟨by decide, Text.braceless_toString i⟩, by decide⟩

theorem braceless_utf8Message (e : Text.Utf8Error) : Text.Braceless e.message.toList := by
  have hhex : Text.Braceless (Text.hexDigits e.byte) := by
    have hlt := e.byte.toNat_lt
    refine List.forall_mem_cons.mpr ⟨?_, List.forall_mem_singleton.mpr ?_⟩
    · exact Text.digitChar_ne_brace (by omega)
    · exact Text.digitChar_ne_brace (by omega)
  have hreason : Text.Braceless e.reason.message.toList := by
    cases e.reason <;> decide
  delta Text.Utf8Error.message
  dsimp only
  simp only [String.toList_append, Text.braceless_append]
  refine ⟨⟨⟨by decide, ?_⟩, by decide⟩, hreason⟩
  split
  · simp only [String.toList_append, Text.braceless_append]
    refine ⟨⟨⟨by decide, ?_⟩, by decide⟩, Text.braceless_toString _⟩
    show Text.Braceless (String.ofList (Text.hexDigits e.byte)).toList
    rwa [String.toList_ofList]
  · simp only [String.toList_append, Text.braceless_append]
    exact ⟨⟨⟨by decide, Text.braceless_toString _⟩, by decide⟩, Text.braceless_toString _⟩

theorem report_forgiving {r : Reporter} (hr : r.fatal = false) (d : Diagnostic)
    (after : Verdict) : r.report d after = (r.errorText d, r.clearLines, after) := by
  rw [report, throw, hr]
  rfl

theorem report_fatal {r : Reporter} (hr : r.fatal = true) (d : Diagnostic) (after : Verdict) :
    r.report d after = (r.errorText d, r, .ends errorStatus) := by
  rw [report, throw, hr]
  rfl

/-- Something unexpected is reported as it is if no brace stands in its kind and its text. -/
theorem settle_of_braceless (r : Reporter) {kind text : String}
    (hkind : Text.Braceless kind.toList) (htext : Text.Braceless text.toList) :
    r.settle (.unexpected kind text) = r.report (.unexpected kind text) .goesOn := by
  have hplain : Text.Braceless ("unknown error: '" ++ kind ++ ": " ++ text ++ "'").toList :=
    Diagnostic.braceless_unexpected_iff.mpr ⟨hkind, htext⟩
  rw [settle, Diagnostic.ofTemplate, Text.fillTemplate_of_braceless hplain]
  rfl

/-- Every fault but one of a report itself is reported, and settled by that unless it is taken
for one of the program. -/
theorem settle_fault (r : Reporter) {f : Fault} (hf : ∀ e, f ≠ .report e) :
    r.settle (f.incident r.style)
      = r.report (f.diagnosis r.style) (if f.isInternal then .goesOn else .settled) := by
  cases f with
  | read e =>
    cases e with
    | syntactic text fault => rfl
    | longNumeral digits =>
      exact settle_of_braceless r (by decide) (braceless_longNumeralMessage digits)
  | unknownMode name => rfl
  | cannotOpen path => rfl
  | reservedPath => rfl
  | notText e => exact settle_of_braceless r (by decide) (braceless_utf8Message e)
  | nulInPath => exact settle_of_braceless r (by decide) (by decide)
  | wideIndex i => exact settle_of_braceless r (by decide) (braceless_wideIndexMessage i)
  | longIndex => exact settle_of_braceless r (by decide) (by decide +kernel)
  | noResult => exact settle_of_braceless r (by decide) (by decide)
  | report e => exact absurd rfl (hf e)

/-- A forgiving reporter reports a fault and puts every line away; the fault is settled, unless
it is taken for one of the program. -/
theorem settle_typed {r : Reporter} (hr : r.fatal = false) {f : Fault} (hf : f.Typed) :
    r.settle (f.incident r.style)
      = (r.errorText (f.diagnosis r.style), r.clearLines,
          if f.isInternal then .goesOn else .settled) := by
  have hreported : ∀ e, f ≠ .report e := by
    rintro e rfl
    cases hf
  rw [settle_fault r hreported, report_forgiving hr]

end Reporter

end Nameless
