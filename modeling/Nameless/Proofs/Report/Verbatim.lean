/-
Nameless/Proofs/Report/Verbatim.lean

Which unexpected incidents are reported word for word.

The kind and the text of something unexpected become part of a template before they are
reported.  Without braces the template stays as it is.  With braces it never does: either it
cannot be filled in, and then nothing is printed and the fault of the template takes the place
of the incident, or what is reported is another message (`settle_verbatim_iff`).

Two things are assumed of what the reporter is given.  Its style brings no brace into the
empty text, which is what the fields of the template stand for, and no attribute of a text
leads to a value that writes out the field that asks for it (`Text.Attributes.NoEcho`).
-/
import Nameless.Proofs.Report.Settling

namespace Nameless

/-! ### Reports -/

/-- A style that leaves every text alone. -/
def Style.LeavesAlone (style : Style) : Prop :=
  ∀ weight ink text, style.paint weight ink text = text

namespace Reporter

/-- The lines being worked on, as they stand above an error. -/
def heading (r : Reporter) : String :=
  (if 1 < r.lineTexts.length then "Traceback:\n" else "") ++ String.join r.lineTexts

/-- What becomes of the reporter, and of something unexpected, after a report of it. -/
def aftermath (r : Reporter) : Reporter × Verdict :=
  if r.fatal then (r, .ends errorStatus) else (r.clearLines, .goesOn)

theorem report_goesOn (r : Reporter) (d : Diagnostic) :
    r.report d .goesOn = (r.errorText d, r.aftermath) := by
  rw [report, throw, aftermath]
  cases r.fatal <;> rfl

/-- A report about the program shows no pointer, so that its message stands at its end. -/
theorem errorText_of_internal (r : Reporter) {d : Diagnostic} (h : d.internal = true) :
    r.errorText d
      = r.heading ++ r.style.paint .bold (some Diagnostic.Severity.error.ink) "[internal] "
        ++ r.style.paint .bold (some Diagnostic.Severity.error.ink) "error: "
        ++ d.message ++ "\n" := by
  have hpointer : r.pointerText .error d = "" := by
    rw [pointerText, Diagnostic.showsPointer, h]
    rfl
  rw [errorText, hpointer, h, String.append_empty]
  rfl

/-- Two reports about the program that print the same have the same message. -/
theorem message_of_errorText {r : Reporter} {d e : Diagnostic} (hd : d.internal = true)
    (he : e.internal = true) (h : r.errorText d = r.errorText e) : d.message = e.message := by
  rw [errorText_of_internal r hd, errorText_of_internal r he] at h
  exact (String.append_right_inj _).mp ((String.append_left_inj _).mp h)

/-! ### Settling something unexpected -/

/-- Something unexpected is reported with the message that its template gives, or not at all. -/
theorem settle_eq_of_fill (r : Reporter) (kind text : String) :
    r.settle (.unexpected kind text)
      = match Text.fillTemplate r.attributes (Diagnostic.unexpected kind text).message
            [r.style.bold ""] with
        | .ok message =>
          (r.errorText { Diagnostic.unexpected kind text with message }, r.aftermath)
        | .error e => ("", r, .failed e) := by
  have hmessage : (Diagnostic.unexpected kind text).message
      = "unknown error: '" ++ kind ++ ": " ++ text ++ "'" := rfl
  rw [settle, Diagnostic.ofTemplate, hmessage, List.map_singleton]
  cases Text.fillTemplate r.attributes ("unknown error: '" ++ kind ++ ": " ++ text ++ "'")
    [r.style.bold ""] with
  | ok message => exact report_goesOn r _
  | error e => rfl

/-- **Something unexpected is reported word for word if and only if no brace stands in its kind
and its text**, provided that the style brings no brace into the empty text and no attribute
echoes its field.  The report then ends in its kind and its text, and the program ends with status
1 after it if the reporter is fatal; if not, every line is put away and the incident goes on.
With a brace, either nothing is printed and the fault of the template takes its place, or
another message is reported in the same way. -/
theorem settle_verbatim_iff {r : Reporter} (hbold : Text.Braceless (r.style.bold "").toList)
    (hattributes : r.attributes.NoEcho) (kind text : String) :
    (r.settle (.unexpected kind text)
        = (r.errorText (.unexpected kind text),
            if r.fatal then (r, .ends 1) else (r.clearLines, .goesOn)) ↔
      Text.Braceless kind.toList ∧ Text.Braceless text.toList) ∧
    ((∃ e, r.settle (.unexpected kind text) = ("", r, .failed e)) ∨
      ∃ message, r.settle (.unexpected kind text)
        = (r.errorText { Diagnostic.unexpected kind text with message },
            if r.fatal then (r, .ends 1) else (r.clearLines, .goesOn))) ∧
    (r.style.LeavesAlone →
      r.errorText (.unexpected kind text)
        = r.heading ++ "[internal] error: unknown error: '" ++ kind ++ ": " ++ text ++ "'\n") := by
  have hargs : ∀ a ∈ [r.style.bold ""], Text.Braceless a.toList :=
    List.forall_mem_singleton.mpr hbold
  refine ⟨?_, ?_, fun hstyle => ?_⟩
  · rw [← Diagnostic.braceless_unexpected_iff, ← Text.fillTemplate_eq_self_iff hattributes hargs,
      settle_eq_of_fill]
    constructor
    · intro h
      split at h
      · next message hfill =>
        rw [hfill]
        exact congrArg Except.ok (message_of_errorText rfl rfl (congrArg Prod.fst h))
      · -- no report ends in a failure
        next e hfill =>
        have hverdict := congrArg (fun s => s.2.2) h
        dsimp only at hverdict
        split at hverdict <;> cases hverdict
    · intro h
      rw [h]
      rfl
  · rw [settle_eq_of_fill]
    split
    · next message hfill => exact .inr ⟨message, rfl⟩
    · next e hfill => exact .inl ⟨e, rfl⟩
  · rw [errorText_of_internal r rfl, hstyle, hstyle]
    have hmessage : (Diagnostic.unexpected kind text).message
        = "unknown error: '" ++ kind ++ ": " ++ text ++ "'" := rfl
    have hopening : "[internal] error: unknown error: '"
        = "[internal] " ++ "error: " ++ "unknown error: '" := rfl
    have hclosing : "'\n" = "'" ++ "\n" := rfl
    rw [hmessage, hopening, hclosing]
    simp only [String.append_assoc]

/-- Let its class be the one attribute of a text.  The text `{x}` asks for a field that there is
not, so that nothing is printed; of `{{x}}` one pair of braces is lost; and `{.__class__}` is
replaced by what is written for the class. -/
theorem settle_verbatim_iff_braces :
    let r := Reporter.mk false false .plain (fun _ path =>
      if path = "__class__".toList then .ok fun _ => .ok fun _ => .ok "<class 'str'>".toList
      else .error (.foreign "AttributeError"
        ("'str' object has no attribute '" ++ String.ofList path ++ "'"))) []
    r.settle (.unexpected "ValueError" "\x7bx\x7d")
        ≠ (r.errorText (.unexpected "ValueError" "\x7bx\x7d"), r.clearLines, .goesOn) ∧
      (r.settle (.unexpected "ValueError" "\x7bx\x7d")).1 = "" ∧
      (r.settle (.unexpected "ValueError" "\x7b\x7bx\x7d\x7d")).1
        = "[internal] error: unknown error: 'ValueError: \x7bx\x7d'\n" ∧
      (r.settle (.unexpected "ValueError" "\x7b.__class__\x7d")).1
        = "[internal] error: unknown error: 'ValueError: <class 'str'>'\n" := by
  intro r
  have hattributes : r.attributes.NoEcho := by
    intro text path value mark converted layout laid _ hvalue hconverted hlaid start layout? hwithin
    have hvalue : (if path = "__class__".toList then _ else _) = Except.ok value := hvalue
    split at hvalue
    · obtain rfl := Except.ok.inj hvalue
      obtain rfl := Except.ok.inj hconverted
      obtain rfl := Except.ok.inj hlaid
      -- there is no dot in what the field is replaced by
      have hdot : '.' ∈ (Text.Piece.field (start ++ '.' :: path) mark layout?).written :=
        List.mem_cons_of_mem _ (List.mem_append_left _ (List.mem_append_right _ List.mem_cons_self))
      exact absurd (hwithin.subset hdot) (by decide)
    · cases hvalue
  refine ⟨fun h => ?_, by decide +kernel, by decide +kernel, by decide +kernel⟩
  exact absurd ((settle_verbatim_iff (by decide) hattributes _ _).1.mp h).2 (by decide)

end Reporter

end Nameless
