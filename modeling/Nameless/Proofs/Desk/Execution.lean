/-
Nameless/Proofs/Desk/Execution.lean

What running statements comes to.

The result of a statement depends on its term, on the settings, and on whether the
reporter is verbose, since a trace has to be written out: `Settings.answer` says how, and
running a statement gives that answer at every desk, with the trace `Settings.trace` printed
on the way and nothing else (`produce_runOn`).  A warning is never printed, since the
witnesses that are made are verified.  A step that cannot be written out stops a run that
traces its steps as they are reached, also one that would not have ended.

Statements are run in order, up to the first that a fault stops.  `Settings.answers` says how
far this comes, and the desk that is left follows from that (`runStatements_runOn`):

    (runStatements fuel ss).runOn d = (answers ss).map fun p => (p.ending, d.ran fuel ss p)
-/
import Nameless.Desk.Work
import Nameless.Proofs.Report.Settling
import Nameless.Proofs.Witness.Completeness

namespace Nameless

/-! ### Actions -/

namespace Act

variable {σ α β : Type} {act : Act σ α} {next : α → Act σ β} {s s' : σ}

theorem runOn_bind_ok {a : α} (h : act.runOn s = some (.ok a, s')) :
    (act >>= next).runOn s = (next a).runOn s' := by
  rw [runOn_bind, h, Option.bind_some]

theorem runOn_bind_error {signal : Signal} (h : act.runOn s = some (.error signal, s')) :
    (act >>= next).runOn s = some (.error signal, s') := by
  rw [runOn_bind, h, Option.bind_some]

theorem runOn_bind_none (h : act.runOn s = none) : (act >>= next).runOn s = none := by
  rw [runOn_bind, h, Option.bind_none]

theorem runOn_bind_pure (act : Act σ α) (f : α → β) (s : σ) :
    (do
      let a ← act
      return f a).runOn s
      = (act.runOn s).map fun (r, s') => (r.map f, s') := by
  rw [runOn_bind]
  cases act.runOn s with
  | none => rfl
  | some p =>
    obtain ⟨r, s'⟩ := p
    cases r <;> rfl

theorem runOn_ofFuel (x : Option α) (s : σ) :
    (ofFuel x).runOn s = x.map fun a => (.ok a, s) := rfl

theorem runOn_ofExcept_ok {ε : Type} (f : ε → Fault) (a : α) (s : σ) :
    (ofExcept f (.ok a)).runOn s = some (.ok a, s) := rfl

theorem runOn_ensuring {r : Except Signal α} (h : act.runOn s = some (r, s'))
    (cleanUp : σ → σ) : (act.ensuring cleanUp).runOn s = some (r, cleanUp s') := by
  rw [ensuring, runOn_ofFunction, h, Option.map_some]

end Act

/-! ### What is printed -/

namespace Desk

/-- Prints texts one after the other. -/
def printAll (d : Desk) (texts : List (Channel × String)) : Desk :=
  { d with printed := d.printed ++ texts }

theorem printAll_nil (d : Desk) : d.printAll [] = d := by
  rw [printAll, List.append_nil]

theorem printAll_printAll (d : Desk) (texts more : List (Channel × String)) :
    (d.printAll texts).printAll more = d.printAll (texts ++ more) := by
  rw [printAll, printAll, printAll, List.append_assoc]

theorem print_eq_printAll (d : Desk) {text : String} (h : text ≠ "") {channel : Channel} :
    d.print channel text = d.printAll [(channel, text)] := by
  rw [print, if_neg h]
  rfl

theorem append_newline_ne (text : String) : text ++ "\n" ≠ "" := fun h => by
  simpa using congrArg String.length h

end Desk

/-! ### Answers -/

/-- The steps of a term that are traced within the bound: all that are reached, where each is
traced as it is reached, and else those of a run that has ended. -/
def Settings.traced (s : Settings) (fuel : Nat) (t : Term) : List Term :=
  if s.streams then (t.reductions (fuel + 1)).tail
  else ((s.execute fuel t).map Execution.steps).getD []

/-- The result of running a term as it is shown, or the fault that stops it. -/
def Settings.answer (s : Settings) (verbose : Bool) (fuel : Nat) (t : Term) :
    Option (Except Fault String) :=
  if verbose && (s.traced fuel t).any Work.hasLongIndex then some (.error .longIndex)
  else (s.execute fuel t).map fun x =>
    (Work.shown s x.result).bind fun text =>
      match s.prove, x.witness with
      | true, some w =>
        if Work.hasLongIndex t || Work.hasLongIndex x.result then .error .longIndex
        else .ok (text ++ "\n  " ++ w.display)
      | _, _ => .ok text

/-- An answer is known by its text. -/
theorem Settings.answer_eq_of_text {s : Settings} {verbose : Bool} {fuel : Nat} {t : Term}
    {out : String} (h : (s.answer verbose fuel t).map Except.toOption = some (some out)) :
    s.answer verbose fuel t = some (.ok out) := by
  obtain ⟨r, hr, hout⟩ := Option.map_eq_some_iff.mp h
  cases r with
  | ok out' => rw [hr, Option.some.inj hout]
  | error f => cases hout

/-- What a verbose reporter prints of steps: one text for each, up to the first that cannot be
written out. -/
def Reporter.traceTexts (r : Reporter) (rule : String) (steps : List Term) :
    List (Channel × String) :=
  if r.verbose then
    (steps.takeWhile fun t => !Work.hasLongIndex t).map fun t =>
      (.reports, r.stepText rule t.display)
  else []

/-- The trace of running a term that ends or is stopped. -/
def Settings.trace (s : Settings) (r : Reporter) (fuel : Nat) (t : Term) :
    List (Channel × String) :=
  ((s.answer r.verbose fuel t).map fun _ => r.traceTexts s.mode.rule (s.traced fuel t)).getD []

namespace Reporter

variable {r : Reporter} {t : Term}

theorem traceTexts_of_quiet (h : r.verbose = false) (rule : String) (steps : List Term) :
    r.traceTexts rule steps = [] := by
  rw [traceTexts, h]
  rfl

theorem traceTexts_nil (r : Reporter) (rule : String) : r.traceTexts rule [] = [] := by
  rw [traceTexts]
  split <;> rfl

theorem traceTexts_of_long (h : Work.hasLongIndex t = true) (rule : String) (steps : List Term) :
    r.traceTexts rule (t :: steps) = [] := by
  rw [traceTexts, List.takeWhile_cons, h]
  split <;> rfl

/-- What is printed of a step comes before what is printed of the later ones, unless it stops the
trace. -/
theorem traceTexts_cons (h : ¬ (r.verbose && Work.hasLongIndex t) = true) (rule : String)
    (steps : List Term) :
    r.traceTexts rule (t :: steps) = r.traceTexts rule [t] ++ r.traceTexts rule steps := by
  cases hverbose : r.verbose with
  | false =>
    rw [traceTexts_of_quiet hverbose, traceTexts_of_quiet hverbose, traceTexts_of_quiet hverbose]
    rfl
  | true =>
    rw [hverbose, Bool.true_and, Bool.not_eq_true] at h
    rw [traceTexts, traceTexts, traceTexts, List.takeWhile_cons, List.takeWhile_cons, h, hverbose]
    rfl

theorem stepText_ne (r : Reporter) (rule outcome : String) : r.stepText rule outcome ≠ "" :=
  Desk.append_newline_ne _

end Reporter

namespace Settings

variable {s : Settings} {fuel : Nat} {t : Term} {x : Execution}

theorem trace_of_quiet {r : Reporter} (h : r.verbose = false) (s : Settings) (fuel : Nat)
    (t : Term) : s.trace r fuel t = [] := by
  rw [trace, Reporter.traceTexts_of_quiet h]
  cases s.answer r.verbose fuel t <;> rfl

theorem channel_of_trace {r : Reporter} : ∀ p ∈ s.trace r fuel t, p.1 = .reports := by
  intro p hp
  rw [trace] at hp
  cases hanswer : s.answer r.verbose fuel t with
  | none =>
    rw [hanswer] at hp
    cases hp
  | some _ =>
    rw [hanswer, Option.map_some, Option.getD_some, Reporter.traceTexts] at hp
    split at hp
    · obtain ⟨u, -, rfl⟩ := List.mem_map.mp hp
      rfl
    · cases hp

/-- A run that traces its steps as they are reached is normalization without a witness. -/
theorem execute_of_streams (h : s.streams = true) (fuel : Nat) (t : Term) :
    s.execute fuel t = (t.trace fuel).map fun steps =>
      ⟨steps.getLastD t, none, s.mode.rule, steps⟩ := by
  obtain ⟨mode, prove, numerals⟩ := s
  obtain ⟨hmode, hprove⟩ := (Bool.and_eq_true_iff.mp h)
  obtain rfl : mode = .normalize := of_decide_eq_true hmode
  obtain rfl : prove = false := by
    cases prove with
    | false => rfl
    | true => cases hprove
  exact execute_normalize false numerals fuel t

/-- A run that has ended has traced its steps, whichever way. -/
theorem traced_of_execute (h : s.execute fuel t = some x) : s.traced fuel t = x.steps := by
  rw [traced]
  split
  · next hstreams =>
    rw [execute_of_streams hstreams] at h
    obtain ⟨steps, hsteps, rfl⟩ := Option.map_eq_some_iff.mp h
    obtain ⟨htrail, hlt⟩ := Term.trail_of_trace hsteps
    rw [htrail.reductions_eq, List.take_of_length_le (by rw [List.length_cons]; omega),
      List.tail_cons]
  · rw [h]
    rfl

theorem rule_of_execute (h : s.execute fuel t = some x) : x.rule = s.mode.rule := by
  rw [execute] at h
  split at h
  · split at h
    · obtain ⟨steps, -, rfl⟩ := Option.map_eq_some_iff.mp h
      rfl
    · obtain ⟨items, -, rfl⟩ := Option.map_eq_some_iff.mp h
      rfl
  · obtain rfl := Option.some.inj h
    rfl
  · obtain ⟨r, -, rfl⟩ := Option.map_eq_some_iff.mp h
    rfl

end Settings

/-- A text is read as a term, and running that term gives a result. -/
def Settings.Answers (s : Settings) (verbose : Bool) (fuel : Nat) (text : List Char)
    (out : String) : Prop :=
  ∃ t, Term.parse (String.ofList text) = .ok t ∧ s.answer verbose fuel t = some (.ok out)

/-- Drafts are answered one by one. -/
def Settings.AnswersAll (s : Settings) (verbose : Bool) (fuel : Nat) (xs : List Draft)
    (outs : List String) : Prop :=
  List.Forall₂ (fun x out => s.Answers verbose fuel x.text out) xs outs

/-! ### Running a term -/

namespace Work

variable {fuel : Nat} {d : Desk}

theorem traceStep_runOn (rule : String) (t : Term) (d : Desk) :
    (traceStep rule t).runOn d
      = some (if d.reporter.verbose && hasLongIndex t then .error (.fault .longIndex) else .ok (),
          d.printAll (d.reporter.traceTexts rule [t])) := by
  rw [traceStep, Act.runOn_bind_ok (Act.runOn_get d)]
  cases hverbose : d.reporter.verbose with
  | false =>
    rw [Reporter.traceTexts_of_quiet hverbose, Desk.printAll_nil]
    rfl
  | true =>
    cases hlong : hasLongIndex t with
    | true =>
      rw [Reporter.traceTexts_of_long hlong, Desk.printAll_nil, written, hlong]
      rfl
    | false =>
      have htexts : d.reporter.traceTexts rule [t]
          = [(.reports, d.reporter.traceStep rule t.display)] := by
        rw [Reporter.traceTexts, Reporter.traceStep, hverbose, List.takeWhile_cons, hlong]
        rfl
      have hne : d.reporter.traceStep rule t.display ≠ "" := by
        rw [Reporter.traceStep, hverbose]
        exact d.reporter.stepText_ne rule t.display
      rw [htexts, ← d.print_eq_printAll hne, written, hlong]
      rfl

theorem traceSteps_runOn (rule : String) (steps : List Term) (d : Desk) :
    (traceSteps rule steps).runOn d
      = some (if d.reporter.verbose && steps.any hasLongIndex then .error (.fault .longIndex)
          else .ok (), d.printAll (d.reporter.traceTexts rule steps)) := by
  induction steps generalizing d with
  | nil =>
    rw [traceSteps, Act.runOn_pure, Reporter.traceTexts_nil, Desk.printAll_nil, List.any_nil,
      Bool.and_false]
    rfl
  | cons t steps ih =>
    have hstep := traceStep_runOn rule t d
    by_cases hstop : (d.reporter.verbose && hasLongIndex t) = true
    · obtain ⟨hverbose, hlong⟩ := Bool.and_eq_true_iff.mp hstop
      rw [if_pos hstop, Reporter.traceTexts_of_long hlong] at hstep
      rw [traceSteps, Act.runOn_bind_error hstep, Reporter.traceTexts_of_long hlong,
        List.any_cons, hlong, hverbose]
      rfl
    · rw [if_neg hstop] at hstep
      rw [traceSteps, Act.runOn_bind_ok hstep, ih, Desk.printAll_printAll,
        Reporter.traceTexts_cons hstop rule steps, List.any_cons, Bool.and_or_distrib_left,
        Bool.eq_false_iff.mpr hstop, Bool.false_or]
      rfl

/-- Normalization that is traced on the way traces all that it reaches. -/
theorem normalizeTracing_eq (rule : String) (fuel : Nat) (t : Term) :
    normalizeTracing rule fuel t = (do
      traceSteps rule (t.reductions (fuel + 1)).tail
      Act.ofFuel (t.normalize fuel)) := by
  induction fuel generalizing t with
  | zero =>
    have hnone : (t.reductions 1).tail = [] := by
      rw [Term.reductions]
      split <;> rfl
    rw [normalizeTracing, hnone, traceSteps, pure_bind, Term.normalize]
  | succ fuel ih =>
    rw [normalizeTracing, Term.normalize, Term.reductions]
    by_cases hu : t.step = t
    · rw [if_pos hu, if_pos hu, if_pos hu, List.tail_cons, traceSteps, pure_bind]
      rfl
    · rw [if_neg hu, if_neg hu, if_neg hu, List.tail_cons, Term.reductions_succ_eq_cons,
        traceSteps, bind_assoc, ih]

theorem execute_eq_traceSteps (fuel : Nat) (t : Term) (d : Desk) :
    (execute fuel t).runOn d = (do
      traceSteps d.sheet.settings.mode.rule (d.sheet.settings.traced fuel t)
      let x ← Act.ofFuel (d.sheet.settings.execute fuel t)
      return (x.result, x.witness)).runOn d := by
  rw [execute, Act.runOn_bind_ok (Act.runOn_get d)]
  dsimp only
  split
  · next hstreams =>
    rw [normalizeTracing_eq, bind_assoc, Settings.traced, if_pos hstreams,
      Settings.execute_of_streams hstreams, Term.normalize_eq_trace]
    cases t.trace fuel <;> rfl
  · next hstreams =>
    cases hx : d.sheet.settings.execute fuel t with
    | none =>
      have hnone : d.sheet.settings.traced fuel t = [] := by
        rw [Settings.traced, if_neg hstreams, hx]
        rfl
      rw [hnone]
      rfl
    | some x =>
      rw [Settings.traced_of_execute hx, ← Settings.rule_of_execute hx]
      rfl

/-- Running a term gives what it comes to, unless a step that is traced cannot be written out. -/
theorem execute_runOn (fuel : Nat) (t : Term) (d : Desk) :
    (execute fuel t).runOn d
      = if d.reporter.verbose && (d.sheet.settings.traced fuel t).any hasLongIndex then
          some (.error (.fault .longIndex), d.printAll
            (d.reporter.traceTexts d.sheet.settings.mode.rule (d.sheet.settings.traced fuel t)))
        else (d.sheet.settings.execute fuel t).map fun x =>
          (.ok (x.result, x.witness), d.printAll
            (d.reporter.traceTexts d.sheet.settings.mode.rule
              (d.sheet.settings.traced fuel t))) := by
  have hsteps := traceSteps_runOn d.sheet.settings.mode.rule (d.sheet.settings.traced fuel t) d
  rw [execute_eq_traceSteps]
  split at hsteps
  · next hstop => rw [Act.runOn_bind_error hsteps, if_pos hstop]
  · next hstop =>
    rw [Act.runOn_bind_ok hsteps, if_neg hstop]
    cases d.sheet.settings.execute fuel t <;> rfl

theorem confirm_runOn {s : Statement} {w : Witness} (d : Desk)
    (h : w.verify fuel (.term s.term) = some true) :
    (confirm fuel s w).runOn d = some (.ok (), d) := by
  have hverify : (Act.ofFuel ((Proven.mk (.term s.term) w).verify fuel)).runOn d
      = some (.ok true, d) := by
    rw [Act.runOn_ofFuel, Proven.verify, h, Option.map_some]
  rw [confirm, Act.runOn_bind_ok hverify]
  rfl

/-- The results that wait are printed in order, one on a line. -/
theorem printResults_eq (d : Desk) :
    printResults.runOn d
      = some (.ok (), { d.printAll (d.sheet.results.map fun out => (.results, out ++ "\n")) with
          sheet := { d.sheet with results := [] } }) := by
  have hfold (outs : List String) (d : Desk) :
      outs.foldl (fun d out => d.print .results (out ++ "\n")) d
        = d.printAll (outs.map fun out => (.results, out ++ "\n")) := by
    induction outs generalizing d with
    | nil => rw [List.foldl_nil, List.map_nil, Desk.printAll_nil]
    | cons out outs ih =>
      rw [List.foldl_cons, ih, d.print_eq_printAll (Desk.append_newline_ne out),
        Desk.printAll_printAll, List.map_cons, List.singleton_append]
  rw [printResults, Act.runOn_modify, hfold]
  rfl

/-- Producing a result is finding the answer, with nothing but the trace printed. -/
theorem produce_runOn (fuel : Nat) (s : Statement) (d : Desk) :
    (produce fuel s).runOn d
      = (d.sheet.settings.answer d.reporter.verbose fuel s.term).map fun r =>
          (r.mapError .fault, d.printAll (d.sheet.settings.trace d.reporter fuel s.term)) := by
  have hrun := execute_runOn fuel s.term d
  rw [Settings.trace, Settings.answer, produce]
  split at hrun
  · next hstop =>
    rw [Act.runOn_bind_error hrun, if_pos hstop]
    rfl
  · next hstop =>
    rw [if_neg hstop]
    cases hx : d.sheet.settings.execute fuel s.term with
    | none =>
      rw [hx] at hrun
      exact Act.runOn_bind_none hrun
    | some x =>
      rw [hx] at hrun
      rw [Act.runOn_bind_ok hrun, Option.map_some, Option.map_some, Option.map_some,
        Option.getD_some]
      dsimp only
      rw [Act.runOn_bind_ok (Act.runOn_get _)]
      show Act.runOn (Act.ofExcept id (shown d.sheet.settings x.result) >>= _) _ = _
      cases shown d.sheet.settings x.result with
      | error f => rfl
      | ok text =>
        rw [Act.runOn_bind_ok (Act.runOn_ofExcept_ok id text _)]
        show Act.runOn (match d.sheet.settings.prove, x.witness with
          | true, some w => _
          | _, _ => _) _ = _
        cases hprove : d.sheet.settings.prove with
        | false => rfl
        | true =>
          cases hw : x.witness with
          | none => rfl
          | some w =>
            dsimp only
            rw [Act.runOn_bind_ok (confirm_runOn _ (Witness.verify_of_execute hx hw))]
            cases hasLongIndex s.term || hasLongIndex x.result <;> rfl

end Work

/-! ### Progress -/

/-- What stops work on a source: a fault, and what was being worked on. -/
structure Stop where
  mark : Mark
  fault : Fault

/-- How far work on the lines of a source has come: what it has given, and what stopped it, if
anything did. -/
structure Progress (α : Type) where
  done : List α
  stop : Option Stop

namespace Progress

variable {α β : Type}

/-- One result in front of the others. -/
def cons (a : α) (p : Progress α) : Progress α :=
  ⟨a :: p.done, p.stop⟩

/-- How the work ends. -/
def ending (p : Progress α) : Except Signal Unit :=
  match p.stop with
  | none => .ok ()
  | some stop => .error (.fault stop.fault)

/-- What has been taken up, the last of it perhaps without a result. -/
def takenUp (p : Progress α) (work : List β) : List β :=
  work.take (p.done.length + p.stop.toList.length)

theorem takenUp_cons (a : α) (p : Progress α) (b : β) (work : List β) :
    (p.cons a).takenUp (b :: work) = b :: p.takenUp work := by
  rw [takenUp, cons, List.length_cons, Nat.add_right_comm, List.take_succ_cons, takenUp]

theorem ending_eq_ok_iff {p : Progress α} : p.ending = .ok () ↔ p.stop = none := by
  rw [ending]
  cases p.stop with
  | none => exact ⟨fun _ => rfl, fun _ => rfl⟩
  | some stop => exact ⟨by rintro ⟨⟩, by rintro ⟨⟩⟩

end Progress

namespace Reporter

/-- The reporter at the line that stopped some work, if one did. -/
def stoppedBy (r : Reporter) (path : String) : Option Stop → Reporter
  | none => r
  | some stop => r.mark path stop.mark

/-- The reporter after work on the lines of a source: no line is left but the one that stopped
the work, if one did. -/
def leaving {α : Type} (r : Reporter) (path : String) (work : List α) (stop? : Option Stop) :
    Reporter :=
  (if work.isEmpty then r else r.clearLine path).stoppedBy path stop?

variable {α : Type} {r : Reporter} {path : String}

theorem Clear.leaving_eq (h : r.Clear path) (work : List α) (stop? : Option Stop) :
    r.leaving path work stop? = r.stoppedBy path stop? := by
  rw [leaving, h.clearLine_eq, ite_self]

theorem leaving_clearLine (r : Reporter) (path : String) (a : α) (work : List α)
    (stop? : Option Stop) :
    (r.clearLine path).leaving path work stop? = r.leaving path (a :: work) stop? :=
  (clear_clearLine r path).leaving_eq work stop?

end Reporter

/-! ### Running statements -/

/-- The mark of a statement being worked on. -/
def Statement.mark (s : Statement) : Mark := ⟨some s.text, some s.line⟩

/-- The answers to statements, up to the first that ends in a fault. -/
def Settings.answers (s : Settings) (verbose : Bool) (fuel : Nat) :
    List Statement → Option (Progress String)
  | [] => some ⟨[], none⟩
  | st :: rest =>
    match s.answer verbose fuel st.term with
    | none => none
    | some (.error f) => some ⟨[], some ⟨st.mark, f⟩⟩
    | some (.ok out) => (s.answers verbose fuel rest).map (.cons out)

namespace Settings

variable {s : Settings} {verbose : Bool} {fuel : Nat} {ss : List Statement} {p : Progress String}

/-- The first statement stops the others, or its answer comes before theirs. -/
theorem answers_cons_eq_some_iff {st : Statement} :
    s.answers verbose fuel (st :: ss) = some p ↔
      (∃ f, s.answer verbose fuel st.term = some (.error f) ∧ p = ⟨[], some ⟨st.mark, f⟩⟩) ∨
        ∃ out q, s.answer verbose fuel st.term = some (.ok out) ∧
          s.answers verbose fuel ss = some q ∧ p = q.cons out := by
  rw [answers]
  constructor
  · intro h
    split at h
    · cases h
    · next f hf => exact .inl ⟨f, hf, (Option.some.inj h).symm⟩
    · next out hout =>
      obtain ⟨q, hq, rfl⟩ := Option.map_eq_some_iff.mp h
      exact .inr ⟨out, q, hout, hq, rfl⟩
  · rintro (⟨f, hf, rfl⟩ | ⟨out, q, hout, hq, rfl⟩)
    · rw [hf]
    · rw [hout, hq]
      rfl

/-- There are no more answers than statements. -/
theorem length_of_answers (h : s.answers verbose fuel ss = some p) :
    p.done.length ≤ ss.length := by
  induction ss generalizing p with
  | nil =>
    obtain rfl := Option.some.inj h
    exact Nat.le_refl 0
  | cons st ss ih =>
    rcases answers_cons_eq_some_iff.mp h with ⟨f, -, rfl⟩ | ⟨out, q, -, hq, rfl⟩
    · exact Nat.zero_le _
    · exact Nat.succ_le_succ (ih hq)

/-- If nothing stops them, all statements have been taken up. -/
theorem takenUp_of_answers (h : s.answers verbose fuel ss = some p) (hstop : p.stop = none) :
    p.takenUp ss = ss := by
  induction ss generalizing p with
  | nil => exact List.take_nil
  | cons st ss ih =>
    rcases answers_cons_eq_some_iff.mp h with ⟨f, -, rfl⟩ | ⟨out, q, -, hq, rfl⟩
    · cases hstop
    · rw [Progress.takenUp_cons, ih hq hstop]

end Settings

namespace Sheet

/-- Records results of statements, and finishes them; the first without a result is finished as
well. -/
def finishAll (sheet : Sheet) : List Statement → List String → Sheet
  | s :: ss, out :: outs => ((sheet.record out).finish s).finishAll ss outs
  | s :: _, [] => sheet.finish s
  | [], _ => sheet

theorem finish_settings (sheet : Sheet) (s : Statement) :
    (sheet.finish s).settings = sheet.settings := by
  rw [finish]
  split <;> rfl

theorem finish_path (sheet : Sheet) (s : Statement) : (sheet.finish s).path = sheet.path := by
  rw [finish]
  split <;> rfl

end Sheet

namespace Desk

/-- The desk when statements have been run. -/
def ran (d : Desk) (fuel : Nat) (ss : List Statement) (p : Progress String) : Desk :=
  ⟨d.reporter.leaving d.sheet.path ss p.stop, d.sheet.finishAll ss p.done,
    d.printed ++ (p.takenUp ss).flatMap fun s => d.sheet.settings.trace d.reporter fuel s.term⟩

theorem ran_nil (d : Desk) (fuel : Nat) : d.ran fuel [] ⟨[], none⟩ = d := by
  show Desk.mk d.reporter d.sheet (d.printed ++ []) = d
  rw [List.append_nil]

theorem ran_fault (d : Desk) (fuel : Nat) (s : Statement) (ss : List Statement) (f : Fault) :
    d.ran fuel (s :: ss) ⟨[], some ⟨s.mark, f⟩⟩
      = ⟨d.reporter.mark d.sheet.path s.mark, d.sheet.finish s,
          d.printed ++ d.sheet.settings.trace d.reporter fuel s.term⟩ := by
  have htrace : (Progress.takenUp ⟨([] : List String), some ⟨s.mark, f⟩⟩ (s :: ss)).flatMap
      (fun s => d.sheet.settings.trace d.reporter fuel s.term)
        = d.sheet.settings.trace d.reporter fuel s.term := List.flatMap_singleton _ s
  rw [ran, htrace, ← Reporter.mark_mark d.reporter d.sheet.path .none s.mark]
  rfl

theorem ran_cons (d : Desk) (fuel : Nat) (s : Statement) (ss : List Statement) (out : String)
    (p : Progress String) :
    d.ran fuel (s :: ss) (p.cons out)
      = ran ⟨d.reporter.clearLine d.sheet.path, (d.sheet.record out).finish s,
          d.printed ++ d.sheet.settings.trace d.reporter fuel s.term⟩ fuel ss p := by
  rw [ran, ran, Progress.takenUp_cons, List.flatMap_cons, Sheet.finish_settings,
    Sheet.finish_path, ← List.append_assoc]
  -- a trace does not depend on the marks
  exact congrArg (fun r => Desk.mk r _ _)
    (Reporter.leaving_clearLine d.reporter d.sheet.path s ss p.stop).symm

end Desk

namespace Work

/-- A statement that is run records its answer and is finished, also by a fault. -/
theorem runStatement_runOn (fuel : Nat) (s : Statement) (d : Desk) :
    (runStatement fuel s).runOn d
      = (d.sheet.settings.answer d.reporter.verbose fuel s.term).map fun r =>
          match r with
          | .ok text =>
            (.ok (), ⟨d.reporter.clearLine d.sheet.path, (d.sheet.record text).finish s,
              d.printed ++ d.sheet.settings.trace d.reporter fuel s.term⟩)
          | .error f =>
            (.error (.fault f), ⟨d.reporter.mark d.sheet.path s.mark, d.sheet.finish s,
              d.printed ++ d.sheet.settings.trace d.reporter fuel s.term⟩) := by
  let e := d.mapReporter (·.mark d.sheet.path s.mark)
  rw [runStatement, Act.runOn_bind_ok (Act.runOn_get d)]
  dsimp only
  rw [Act.runOn_bind_ok (Act.runOn_modify _ d)]
  show Act.runOn _ e = _
  -- entering the line leaves what the answer depends on as it was
  have hproduce := fun x h => (produce_runOn fuel s e).trans
    (congrArg (Option.map _)
      (h : d.sheet.settings.answer d.reporter.verbose fuel s.term = x))
  cases hanswer : d.sheet.settings.answer d.reporter.verbose fuel s.term with
  | none =>
    refine Act.runOn_bind_none ?_
    rw [Act.ensuring, Act.runOn_ofFunction, Act.runOn_bind_none (hproduce _ hanswer)]
    rfl
  | some r =>
    cases r with
    | error f =>
      rw [Act.runOn_bind_error
        (Act.runOn_ensuring (Act.runOn_bind_error (hproduce _ hanswer)) _)]
      rfl
    | ok text =>
      have hbody : (produce fuel s >>= fun result =>
          modify (Desk.mapSheet (·.record result))).runOn e
          = some (.ok (), (e.printAll (d.sheet.settings.trace d.reporter fuel s.term)).mapSheet
              (·.record text)) := by
        rw [Act.runOn_bind_ok (hproduce _ hanswer), Act.runOn_modify]
        rfl
      rw [Act.runOn_bind_ok (Act.runOn_ensuring hbody _), Act.runOn_modify, Option.map_some]
      dsimp only
      rw [Reporter.clearLine, ← Reporter.mark_mark d.reporter d.sheet.path s.mark]
      rfl

/-- Statements are run in order, up to the first that a fault stops. -/
theorem runStatements_runOn (fuel : Nat) (ss : List Statement) (d : Desk) :
    (runStatements fuel ss).runOn d
      = (d.sheet.settings.answers d.reporter.verbose fuel ss).map fun p =>
          (p.ending, d.ran fuel ss p) := by
  induction ss generalizing d with
  | nil =>
    rw [Settings.answers, Option.map_some, Desk.ran_nil]
    rfl
  | cons s ss ih =>
    have hrun := runStatement_runOn fuel s d
    rw [runStatements, Settings.answers]
    cases hanswer : d.sheet.settings.answer d.reporter.verbose fuel s.term with
    | none =>
      rw [hanswer] at hrun
      exact Act.runOn_bind_none hrun
    | some r =>
      rw [hanswer] at hrun
      cases r with
      | error f =>
        rw [Act.runOn_bind_error hrun, Option.map_some, Desk.ran_fault]
        rfl
      | ok out =>
        rw [Act.runOn_bind_ok hrun, ih, Option.map_map, Sheet.finish_settings]
        refine congrArg (Option.map · _) (funext fun p => ?_)
        rw [Function.comp_apply, Desk.ran_cons]
        rfl

end Work

end Nameless
