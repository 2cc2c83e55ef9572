/-
Nameless/Proofs/Desk/Prompt.lean

What a line does at the prompt, to the last text and mark.

Between two lines nothing is under way at the desk (`Desk.Vacant`).  A line that finishes a
statement finds a reply, which is the result of the statement or the fault that it meets
(`Settings.reply`).  It prints the trace and then the reply, and leaves everything else at
the desk as it was, but that a fault puts all lines away (`runFinished_runOn`):

    (runFinished fuel mode? prove? text line).runOn d
      = reply.map fun r => (ending r, d.replied (trace ++ [closing r]) r).

A line to be encoded does the same with another reply (`encodeLine_runOn`).  So what a line
leaves behind at the prompt is what it keeps of its text (`runLine_of_unfinished`,
`runLine_of_finished`).
-/
import Nameless.Desk.Console
import Nameless.Proofs.Desk.Opening

namespace Nameless

/-! ### Replies -/

namespace Settings

/-- What a text is answered with when it is run: the result, or the fault that it meets. -/
def reply (s : Settings) (verbose : Bool) (fuel : Nat) (text : String) :
    Option (Except Fault String) :=
  match Term.parse text with
  | .ok t => s.answer verbose fuel t
  | .error e => some (.error (.read e))

/-- What is traced when a text is run. -/
def replyTrace (s : Settings) (r : Reporter) (fuel : Nat) (text : String) :
    List (Channel × String) :=
  match Term.parse text with
  | .ok t => s.trace r fuel t
  | .error _ => []

theorem reply_of_parse {text : String} {t : Term} (h : Term.parse text = .ok t) (s : Settings)
    (verbose : Bool) (fuel : Nat) : s.reply verbose fuel text = s.answer verbose fuel t := by
  rw [reply, h]

theorem replyTrace_of_parse {text : String} {t : Term} (h : Term.parse text = .ok t)
    (s : Settings) (r : Reporter) (fuel : Nat) :
    s.replyTrace r fuel text = s.trace r fuel t := by
  rw [replyTrace, h]

end Settings

/-! ### Indices that cannot be written out -/

namespace Work

theorem longIndexBound_eq : longIndexBound = 10 ^ maxDigits := by
  -- for a variable exponent, so that the power is not computed
  have hpow : ∀ n, Nat.pow 10 n = 10 ^ n := fun _ => rfl
  delta longIndexBound
  exact hpow maxDigits

theorem one_lt_longIndexBound : 1 < longIndexBound := by
  rw [longIndexBound_eq]
  exact Nat.one_lt_pow (by decide) (by decide)

theorem hasLongIndex_of_countFrom {t : Term} {n m : Nat} (h : t.countFrom n = some m) :
    hasLongIndex t = false := by
  have hbound := one_lt_longIndexBound
  induction t generalizing n with
  | var i =>
    rw [Term.countFrom] at h
    · split at h
      · next hi =>
        cases hi
        exact decide_eq_false (by omega)
      · cases h
    · exact nofun
  | lam b => cases h
  | app f a _ ih =>
    rw [Term.countFrom] at h
    split at h
    · next hf =>
      subst hf
      have hone : hasLongIndex (.var 1) = false := decide_eq_false (by omega)
      rw [hasLongIndex, hone, Bool.false_or, ih h]
    · cases h

/-- The indices of a Church numeral are not long. -/
theorem hasLongIndex_of_churchValue? {t : Term} {n : Nat} (h : t.churchValue? = some n) :
    hasLongIndex t = false := by
  rw [Term.churchValue?.eq_def] at h
  split at h
  · next b => exact (hasLongIndex_of_countFrom h : hasLongIndex b = false)
  · cases h

theorem shown_eq_error_iff {s : Settings} {t : Term} {f : Fault} :
    shown s t = .error f ↔ f = .longIndex ∧ hasLongIndex t = true := by
  rw [shown]
  split
  · next n _ hvalue =>
    rw [hasLongIndex_of_churchValue? hvalue]
    exact ⟨by rintro ⟨⟩, by rintro ⟨-, ⟨⟩⟩⟩
  · rw [written]
    cases hasLongIndex t with
    | false => exact ⟨by rintro ⟨⟩, by rintro ⟨-, ⟨⟩⟩⟩
    | true => exact ⟨fun h => ⟨(Except.error.inj h).symm, rfl⟩, fun h => by rw [h.1]; rfl⟩

end Work

namespace Settings

variable {s : Settings} {verbose : Bool} {fuel : Nat} {f : Fault}

/-- A step is traced that cannot be written out. -/
def Untraceable (s : Settings) (verbose : Bool) (fuel : Nat) (t : Term) : Prop :=
  verbose = true ∧ ∃ u ∈ s.traced fuel t, Work.hasLongIndex u = true

theorem untraceable_iff {t : Term} :
    (verbose && (s.traced fuel t).any Work.hasLongIndex) = true
      ↔ s.Untraceable verbose fuel t := by
  rw [Bool.and_eq_true, List.any_eq_true, Untraceable]

theorem exists_witness_of_prove {t : Term} {x : Execution} (hprove : s.prove = true)
    (hx : s.execute fuel t = some x) : ∃ w, x.witness = some w := by
  rw [execute, hprove, if_pos rfl] at hx
  split at hx
  · obtain ⟨steps, -, rfl⟩ := Option.map_eq_some_iff.mp hx
    exact ⟨_, rfl⟩
  · cases hx
    exact ⟨_, rfl⟩
  · obtain ⟨r, -, rfl⟩ := Option.map_eq_some_iff.mp hx
    exact ⟨_, rfl⟩

/-- Nothing stops a term that is run but an index that cannot be written out: with traces one of
a step on the way, one of the result, and with proofs one of the term itself. -/
theorem answer_eq_error_iff {t : Term} :
    s.answer verbose fuel t = some (.error f)
      ↔ f = .longIndex ∧ (s.Untraceable verbose fuel t ∨ ∃ x, s.execute fuel t = some x ∧
          (Work.hasLongIndex x.result = true ∨
            (s.prove = true ∧ Work.hasLongIndex t = true))) := by
  rw [answer]
  split
  · next hlong =>
    exact ⟨fun h => ⟨(Except.error.inj (Option.some.inj h)).symm, .inl (untraceable_iff.mp hlong)⟩,
      fun h => by rw [h.1]⟩
  · next hlong =>
    rw [untraceable_iff] at hlong
    rw [or_iff_right hlong]
    cases hx : s.execute fuel t with
    | none => exact ⟨by rintro ⟨⟩, by rintro ⟨-, _, ⟨⟩, -⟩⟩
    | some x =>
      have hsome : (∃ y, some x = some y ∧ (Work.hasLongIndex y.result = true ∨
          (s.prove = true ∧ Work.hasLongIndex t = true)))
          ↔ (Work.hasLongIndex x.result = true ∨
            (s.prove = true ∧ Work.hasLongIndex t = true)) := by
        refine ⟨?_, fun h => ⟨x, rfl, h⟩⟩
        rintro ⟨_, h, hy⟩
        exact Option.some.inj h ▸ hy
      rw [Option.map_some, Option.some.injEq, hsome]
      cases hshown : Work.shown s x.result with
      | error g =>
        obtain ⟨rfl, hresult⟩ := Work.shown_eq_error_iff.mp hshown
        exact ⟨fun h => ⟨(Except.error.inj h).symm, .inl hresult⟩, fun h => by rw [h.1]; rfl⟩
      | ok text =>
        have hresult : ¬ Work.hasLongIndex x.result = true := fun h => by
          rw [Work.shown_eq_error_iff.mpr ⟨rfl, h⟩] at hshown
          cases hshown
        rw [or_iff_right hresult, Bool.eq_false_iff.mpr hresult, Bool.or_false]
        cases hprove : s.prove with
        | false => exact ⟨by rintro ⟨⟩, by rintro ⟨-, ⟨⟩, -⟩⟩
        | true =>
          obtain ⟨w, hw⟩ := exists_witness_of_prove hprove hx
          rw [hw]
          cases hterm : Work.hasLongIndex t with
          | false => exact ⟨by rintro ⟨⟩, by rintro ⟨-, -, ⟨⟩⟩⟩
          | true =>
            exact ⟨fun h => ⟨(Except.error.inj h).symm, rfl, rfl⟩, fun h => by rw [h.1]; rfl⟩

/-- A term is not answered within the bound if its run does not end, and is not stopped by a
trace either. -/
theorem answer_eq_none_iff {t : Term} :
    s.answer verbose fuel t = none
      ↔ s.execute fuel t = none ∧ ¬ s.Untraceable verbose fuel t := by
  rw [answer]
  split
  · next hlong => exact ⟨by rintro ⟨⟩, fun h => absurd (untraceable_iff.mp hlong) h.2⟩
  · next hlong =>
    rw [untraceable_iff] at hlong
    rw [Option.map_eq_none_iff, and_iff_left hlong]

theorem typed_of_reply {text : String} (h : s.reply verbose fuel text = some (.error f)) :
    f.Typed := by
  rw [reply] at h
  split at h
  · rw [(answer_eq_error_iff.mp h).1]
    exact .longIndex
  · cases h
    exact .read _

end Settings

/-- The text that a reply ends with: a result, or the report of a fault. -/
def Reporter.closing (r : Reporter) : Except Fault String → Channel × String
  | .ok result => (.results, result ++ "\n")
  | .error f => (.reports, r.errorText (f.diagnosis r.style))

/-- How a line ends that is replied to.  A fault of the user ends no more than the line; one
that is taken for a fault of the program goes on. -/
def Work.ending : Except Fault String → Except Signal Unit
  | .ok _ => .ok ()
  | .error f => if f.isInternal then .error (.fault f) else .ok ()

/-! ### A desk between two lines -/

/-- Settings with another mode, or with proving turned on or off. -/
def Settings.override (s : Settings) (mode? : Option Mode) (prove? : Option Bool) : Settings :=
  { s with mode := mode?.getD s.mode, prove := prove?.getD s.prove }

namespace Sheet

/-- Turns to other settings. -/
def override (mode? : Option Mode) (prove? : Option Bool) (s : Sheet) : Sheet :=
  { s with settings := s.settings.override mode? prove? }

/-- Puts mode and proving back. -/
def restore (saved : Settings) (s : Sheet) : Sheet :=
  { s with settings := { s.settings with mode := saved.mode, prove := saved.prove } }

/-- Has these results waiting. -/
def holding (results : List String) (s : Sheet) : Sheet :=
  { s with results := results }

/-- An interactive worksheet on which nothing waits. -/
structure Idle (s : Sheet) : Prop where
  interactive : s.interactive = true
  queue : s.queue = []
  results : s.results = []

theorem Idle.finish_record {sheet : Sheet} (h : sheet.Idle) (s : Statement) (out : String) :
    ((sheet.enqueue s).record out).finish s = sheet.holding [out] := by
  simp [enqueue, enqueueIn, record, finish, holding, h.interactive, h.queue, h.results]

theorem Idle.finish_enqueue {sheet : Sheet} (h : sheet.Idle) (s : Statement) :
    (sheet.enqueue s).finish s = sheet := by
  obtain ⟨path, settings, interactive, queue, results⟩ := sheet
  obtain rfl : queue = [] := h.queue
  obtain rfl : interactive = true := h.interactive
  simp [enqueue, enqueueIn, finish]

end Sheet

/-- Nothing waits on the worksheet, no line of it is being worked on, and no error is fatal. -/
structure Desk.Vacant (d : Desk) : Prop where
  idle : d.sheet.Idle
  clear : d.reporter.Clear d.sheet.path
  forgiving : d.reporter.fatal = false

/-- Nothing waits on the worksheet, no line is being worked on, and no error is fatal. -/
structure Desk.Ready (d : Desk) : Prop where
  idle : d.sheet.Idle
  atRest : d.reporter.AtRest d.sheet.path
  forgiving : d.reporter.fatal = false

/-- The desk when texts have been printed for a reply; a fault puts all lines away. -/
def Desk.replied (d : Desk) (texts : List (Channel × String)) : Except Fault String → Desk
  | .ok _ => d.printAll texts
  | .error _ => (d.printAll texts).mapReporter Reporter.clearLines

namespace Desk

variable {d : Desk}

theorem Vacant.override (hd : d.Vacant) (mode? : Option Mode) (prove? : Option Bool) :
    (d.mapSheet (Sheet.override mode? prove?)).Vacant :=
  ⟨⟨hd.idle.interactive, hd.idle.queue, hd.idle.results⟩, hd.clear, hd.forgiving⟩

theorem Ready.vacant (hd : d.Ready) : d.Vacant :=
  ⟨hd.idle, hd.atRest.isClear, hd.forgiving⟩

theorem Ready.printAll (hd : d.Ready) (texts : List (Channel × String)) :
    (d.printAll texts).Ready :=
  ⟨hd.idle, hd.atRest, hd.forgiving⟩

/-- Where no line is being worked on, a reply does nothing but print. -/
theorem Ready.replied_eq (hd : d.Ready) (texts : List (Channel × String))
    (r : Except Fault String) : d.replied texts r = d.printAll texts := by
  cases r with
  | ok out => rfl
  | error f => exact congrArg (fun r => Desk.mk r _ _) hd.atRest.clearLines_eq

end Desk

namespace Work

variable {fuel : Nat} {d : Desk}

theorem settle_typed {f : Fault} (hf : f.Typed) (hd : d.reporter.fatal = false) :
    settle (.fault f) d
      = (ending (.error f), (d.printAll [d.reporter.closing (.error f)]).mapReporter
          Reporter.clearLines) := by
  rw [settle, Reporter.settle_typed hd hf]
  dsimp only
  rw [Desk.print_eq_printAll d (d.reporter.errorText_ne _), ending]
  cases f.isInternal <;> rfl

theorem guarded_of_typed {work : Work Unit} {f : Fault} {e : Desk}
    (h : work.runOn d = some (.error (.fault f), e)) (hf : f.Typed)
    (he : e.reporter.fatal = false) :
    (guarded work).runOn d
      = some (ending (.error f), (e.printAll [e.reporter.closing (.error f)]).mapReporter
          Reporter.clearLines) := by
  rw [guarded, Act.runOn_ofFunction, h, Option.map_some]
  exact congrArg some (settle_typed hf he)

theorem guarded_of_ok {work : Work Unit} {e : Desk} (h : work.runOn d = some (.ok (), e)) :
    (guarded work).runOn d = some (.ok (), e) := by
  rw [guarded, Act.runOn_ofFunction, h, Option.map_some]

theorem guarded_of_none {work : Work Unit} (h : work.runOn d = none) :
    (guarded work).runOn d = none := by
  rw [guarded, Act.runOn_ofFunction, h, Option.map_none]

theorem withSettings_runOn {mode? : Option Mode} {prove? : Option Bool} {work : Work Unit}
    {r : Except Signal Unit} {e : Desk}
    (h : work.runOn (d.mapSheet (Sheet.override mode? prove?)) = some (r, e)) :
    (withSettings mode? prove? work).runOn d
      = some (r, e.mapSheet (Sheet.restore d.sheet.settings)) := by
  rw [withSettings, Act.runOn_bind_ok (Act.runOn_get d)]
  dsimp only
  rw [Act.runOn_bind_ok (Act.runOn_modify _ d)]
  exact Act.runOn_ensuring h _

theorem withSettings_of_none {mode? : Option Mode} {prove? : Option Bool} {work : Work Unit}
    (h : work.runOn (d.mapSheet (Sheet.override mode? prove?)) = none) :
    (withSettings mode? prove? work).runOn d = none := by
  rw [withSettings, Act.runOn_bind_ok (Act.runOn_get d)]
  dsimp only
  rw [Act.runOn_bind_ok (Act.runOn_modify _ d), Act.ensuring, Act.runOn_ofFunction]
  exact congrArg (Option.map _) h

theorem printResults_of_holding (hd : d.sheet.Idle) (out : String) :
    printResults.runOn (d.mapSheet (Sheet.holding [out]))
      = some (.ok (), d.printAll [(.results, out ++ "\n")]) := by
  obtain ⟨reporter, ⟨path, settings, interactive, queue, results⟩, printed⟩ := d
  obtain rfl : results = [] := hd.results
  exact printResults_eq _

/-- A statement that is typed is read and run at once.  Its result then waits, or its line is
still the one being worked on. -/
theorem add_run_runOn (hd : d.Vacant) (text : String) (line : Int) :
    (do
      add text line
      run fuel).runOn d
      = (d.sheet.settings.reply d.reporter.verbose fuel text).map fun r =>
          match r with
          | .ok out =>
            (.ok (), (d.printAll (d.sheet.settings.replyTrace d.reporter fuel text)).mapSheet
              (Sheet.holding [out]))
          | .error f =>
            (.error (.fault f), (d.printAll
              (d.sheet.settings.replyTrace d.reporter fuel text)).mapReporter
                (·.enterLine d.sheet.path text line)) := by
  cases hparse : Term.parse text with
  | error e =>
    rw [Act.runOn_bind_error (add_of_error line d hparse), Settings.reply, Settings.replyTrace,
      hparse]
    exact congrArg (fun printed => some (_, Desk.mk _ _ printed)) (List.append_nil _).symm
  | ok t =>
    have hqueue : (d.mapSheet (·.enqueue ⟨line, text, t⟩)).sheet.queue = [⟨line, text, t⟩] := by
      rw [Desk.mapSheet, Sheet.enqueue, hd.idle.queue, Sheet.enqueueIn]
    have hrun := fun x h => (runStatement_runOn fuel ⟨line, text, t⟩
      (d.mapSheet (·.enqueue ⟨line, text, t⟩))).trans (congrArg (Option.map _)
        (h : d.sheet.settings.answer d.reporter.verbose fuel t = x))
    rw [Act.runOn_bind_ok (add_of_ok line hd.clear hparse), run,
      Act.runOn_bind_ok (Act.runOn_get _), hqueue, runStatements,
      Settings.reply_of_parse hparse, Settings.replyTrace_of_parse hparse]
    cases hanswer : d.sheet.settings.answer d.reporter.verbose fuel t with
    | none =>
      rw [Act.runOn_bind_none (hrun _ hanswer)]
      rfl
    | some r =>
      cases r with
      | error f =>
        rw [Act.runOn_bind_error (hrun _ hanswer)]
        show some (_, Desk.mk _ ((d.sheet.enqueue ⟨line, text, t⟩).finish ⟨line, text, t⟩) _) = _
        rw [hd.idle.finish_enqueue]
        rfl
      | ok out =>
        rw [Act.runOn_bind_ok (hrun _ hanswer), runStatements, Act.runOn_pure]
        show some (_, Desk.mk (d.reporter.clearLine d.sheet.path)
          (((d.sheet.enqueue ⟨line, text, t⟩).record out).finish ⟨line, text, t⟩) _) = _
        rw [hd.clear.clearLine_eq, hd.idle.finish_record]
        rfl

end Work

namespace Dialogue

variable {fuel : Nat} {d : Desk}

/-- A finished line prints its trace and its reply, and changes nothing else but that a fault puts
all lines away. -/
theorem runFinished_runOn (hd : d.Vacant) (mode? : Option Mode) (prove? : Option Bool)
    (text : String) (line : Int) :
    (runFinished fuel mode? prove? text line).runOn d
      = ((d.sheet.settings.override mode? prove?).reply d.reporter.verbose fuel text).map fun r =>
          (Work.ending r, d.replied
            ((d.sheet.settings.override mode? prove?).replyTrace d.reporter fuel text
              ++ [(d.reporter.enterLine d.sheet.path text line).closing r]) r) := by
  have hrun := @Work.add_run_runOn fuel _ (hd.override mode? prove?) text line
  cases hreply : (d.sheet.settings.override mode? prove?).reply d.reporter.verbose fuel text with
  | none =>
    have hnone : _ = none := hrun.trans (congrArg (Option.map _) hreply)
    exact Work.guarded_of_none (Act.runOn_bind_none (Work.withSettings_of_none hnone))
  | some r =>
    have hsome := hrun.trans (congrArg (Option.map _) hreply)
    cases r with
    | ok out =>
      have hprint := @Work.printResults_of_holding (d.printAll
        ((d.sheet.settings.override mode? prove?).replyTrace d.reporter fuel text)) hd.idle out
      refine Work.guarded_of_ok ?_
      rw [Act.runOn_bind_ok (Work.withSettings_runOn hsome), Desk.replied,
        ← Desk.printAll_printAll]
      exact hprint
    | error f =>
      rw [runFinished, Work.guarded_of_typed (Act.runOn_bind_error (Work.withSettings_runOn hsome))
        (Settings.typed_of_reply hreply) hd.forgiving, Option.map_some, Desk.replied,
        ← Desk.printAll_printAll]
      exact congrArg (fun r => some (_, Desk.mk r _ _)) (hd.clear.clearLines_enterLine text line)

/-- What a text is encoded to, or the fault that it meets. -/
def encoding (text : String) : Except Fault String :=
  match Term.parse text with
  | .ok t =>
    match t.encode with
    | .ok bytes => .ok (bytesHex " " bytes)
    | .error i => .error (.wideIndex i)
  | .error e => .error (.read e)

theorem typed_of_encoding {text : String} {f : Fault} (h : encoding text = .error f) :
    f.Typed := by
  rw [encoding] at h
  split at h
  · split at h
    · cases h
    · cases h
      exact .wideIndex _
  · cases h
    exact .read _

theorem encoding_runOn (text : String) (d : Desk) :
    (do
      let t ← Act.ofExcept .read (Term.parse text)
      let bytes ← Act.ofExcept .wideIndex t.encode
      modify fun d => d.print .results (bytesHex " " bytes ++ "\n") : Work Unit).runOn d
      = some (match encoding text with
          | .ok digits => (.ok (), d.printAll [(.results, digits ++ "\n")])
          | .error f => (.error (.fault f), d)) := by
  rw [encoding]
  cases Term.parse text with
  | error e => rfl
  | ok t =>
    rw [Act.runOn_bind_ok (Act.runOn_ofExcept_ok _ t d)]
    dsimp only
    cases t.encode with
    | error i => rfl
    | ok bytes =>
      rw [Act.runOn_bind_ok (Act.runOn_ofExcept_ok _ bytes d), Act.runOn_modify,
        d.print_eq_printAll (Desk.append_newline_ne _)]

/-- A line to be encoded prints its reply, and leaves the desk as it was. -/
theorem encodeLine_runOn (hd : d.Ready) (text : String) :
    (encodeLine text).runOn d
      = some (Work.ending (encoding text), d.printAll [d.reporter.closing (encoding text)]) := by
  have hrun := encoding_runOn text d
  cases hencoding : encoding text with
  | ok digits =>
    rw [hencoding] at hrun
    exact Work.guarded_of_ok hrun
  | error f =>
    rw [hencoding] at hrun
    rw [encodeLine, Work.guarded_of_typed hrun (typed_of_encoding hencoding) hd.forgiving]
    show some (_, (⟨d.reporter.clearLines, _, _⟩ : Desk)) = _
    rw [hd.atRest.clearLines_eq]
    rfl

theorem atDesk_runOn {work : Work Unit} {c : Console} {r : Except Signal Unit} {e : Desk}
    (h : work.runOn c.desk = some (r, e)) :
    (atDesk work).runOn c = some (r, { c with desk := e }) := by
  rw [atDesk, Act.onPart, Act.runOn_ofFunction, h, Option.map_some]

end Dialogue

/-! ### A line of a term -/

namespace Console

/-- The text that a line makes of what is pending. -/
def taken (c : Console) (line : String) : List Char :=
  Draft.tidy (c.pending.toList ++ ' ' :: line.toList)

/-- The prompt after a line that leaves a text unfinished. -/
def keeping (c : Console) (text : List Char) : Console :=
  { c with
    pending := String.ofList text
    lineNumber := c.lineNumber + 1
    prompt := secondaryPrompt }

/-- The prompt after a line that leaves nothing unfinished. -/
def finishing (c : Console) : Console :=
  { c with pending := "", lineNumber := c.lineNumber + 1, prompt := primaryPrompt }

/-- Prints texts one after the other. -/
def printAll (c : Console) (texts : List (Channel × String)) : Console :=
  { c with desk := c.desk.printAll texts }

end Console

namespace Dialogue

variable {fuel : Nat} {c : Console} {mode? : Option Mode} {prove? : Option Bool} {line : String}

theorem runLine_of_unfinished (h : Draft.unfinished (c.taken line) = true) :
    (runLine fuel mode? prove? line).runOn c = some (.ok (), c.keeping (c.taken line)) := by
  rw [runLine, Act.runOn_bind_ok (Act.runOn_modify _ c), Act.runOn_bind_ok (Act.runOn_get _)]
  show Act.runOn (if Draft.unfinished (c.taken line) = true then _ else _) _ = _
  rw [if_pos h]
  rfl

theorem runLine_of_not_unfinished (h : Draft.unfinished (c.taken line) = false) :
    (runLine fuel mode? prove? line).runOn c
      = Act.runOn (unless (c.taken line).isEmpty do
          atDesk (runFinished fuel mode? prove? (String.ofList (c.taken line))
            (c.lineNumber + 1 : Nat))) c.finishing := by
  rw [runLine, Act.runOn_bind_ok (Act.runOn_modify _ c), Act.runOn_bind_ok (Act.runOn_get _)]
  show Act.runOn (if Draft.unfinished (c.taken line) = true then _ else _) _ = _
  rw [if_neg (Bool.eq_false_iff.mp h)]
  exact Act.runOn_bind_ok rfl

theorem runLine_of_empty (h : c.taken line = []) :
    (runLine fuel mode? prove? line).runOn c = some (.ok (), c.finishing) := by
  rw [runLine_of_not_unfinished (by rw [h]; rfl), h]
  rfl

/-- A line that finishes a statement prints the trace and the reply. -/
theorem runLine_of_finished (hc : c.desk.Vacant) (h : Draft.unfinished (c.taken line) = false)
    (hne : c.taken line ≠ []) :
    (runLine fuel mode? prove? line).runOn c
      = ((c.desk.sheet.settings.override mode? prove?).reply c.desk.reporter.verbose fuel
          (String.ofList (c.taken line))).map fun r =>
            (Work.ending r, { c.finishing with
              desk := c.desk.replied
                ((c.desk.sheet.settings.override mode? prove?).replyTrace c.desk.reporter fuel
                    (String.ofList (c.taken line))
                  ++ [(c.desk.reporter.enterLine c.desk.sheet.path (String.ofList (c.taken line))
                      (c.lineNumber + 1 : Nat)).closing r]) r }) := by
  have hempty : ¬ (c.taken line).isEmpty = true := fun h => hne (List.isEmpty_iff.mp h)
  rw [runLine_of_not_unfinished h, if_neg hempty, atDesk, Act.onPart, Act.runOn_ofFunction]
  show Option.map _ ((runFinished _ _ _ _ _).runOn c.desk) = _
  rw [runFinished_runOn hc, Option.map_map]
  rfl

end Dialogue

end Nameless
