/-
Nameless/Proofs/Desk/FileRun.lean

A file is run as a whole or not at all.

What running a source comes to is said without a desk first: its statements are read up to the
first that cannot be (`Source.statements`), and only if all are, they are answered up to the first
that ends in a fault (`Settings.answers`).  `Settings.results` is the two together.

Without tracing, the work on a desk prints nothing before the end, and the marks of the reporter
are those of the line at fault.  The program then prints either the results or one report
(`transcriptOf`), so a run of the program on a file is the transcript of `Settings.results`
(`run_of_file`).
-/
import Nameless.Desk.Program
import Nameless.Proofs.Desk.Proving

namespace Nameless

/-! ### What a source comes to -/

/-- What running a source comes to without traces: the answers to its statements, and what stops
it. -/
def Settings.results (s : Settings) (fuel : Nat) (path : String) (source : Work.Source) :
    Option (Progress String) :=
  match (source.statements path).stop with
  | some stop => some ⟨[], some stop⟩
  | none => s.answers false fuel (source.statements path).done

namespace Work.Source

variable {path : String} {source : Source}

/-- A source is stopped if one of its drafts cannot be read. -/
theorem exists_stop_of_parse {content : List UInt8} {text : List Char} {x : Draft}
    {e : ReadError} (path : String) (htext : Text.decodeUtf8 content = .ok text)
    (hx : x ∈ Draft.assemble (Text.lines text))
    (he : Term.parse (String.ofList x.text) = .error e) :
    ∃ stop, ((Source.bytes content).statements path).stop = some stop := by
  cases hstop : ((Source.bytes content).statements path).stop with
  | some stop => exact ⟨stop, rfl⟩
  | none =>
    obtain ⟨content', text', hbytes, htext', hread⟩ := exists_text_of_statements hstop
    obtain rfl := Source.bytes.inj hbytes
    obtain rfl := Except.ok.inj (htext.symm.trans htext')
    rw [hread] at hstop
    obtain ⟨t, ht⟩ := Draft.stop_readAll_eq_none_iff.mp hstop x hx
    rw [he] at ht
    cases ht

/-- What stops the reading of a source is never a fault of a report. -/
theorem ne_report_of_statements {stop : Stop} (h : (source.statements path).stop = some stop)
    (e : Text.TemplateError) : stop.fault ≠ .report e := by
  have hfault {f : Fault} (hf : f ≠ .report e) (hstop : some ⟨.none, f⟩ = some stop) :
      stop.fault ≠ .report e := by
    rwa [← Option.some.inj hstop]
  unfold statements at h
  split_ifs at h
  · exact hfault Fault.noConfusion h
  · exact hfault Fault.noConfusion h
  · split at h
    · exact hfault Fault.noConfusion h
    · split at h
      · exact hfault Fault.noConfusion h
      · obtain ⟨e', he'⟩ := Draft.exists_read_of_readAll h
        rw [he']
        exact Fault.noConfusion

end Work.Source

namespace Settings

variable {s : Settings} {fuel : Nat} {ss : List Statement}

/-- Statements are stopped only by an index that cannot be written out. -/
theorem fault_of_answers {verbose : Bool} {p : Progress String} {stop : Stop}
    (h : s.answers verbose fuel ss = some p) (hstop : p.stop = some stop) :
    stop.fault = .longIndex := by
  induction ss generalizing p with
  | nil =>
    obtain rfl := Option.some.inj h
    cases hstop
  | cons st ss ih =>
    rcases answers_cons_eq_some_iff.mp h with ⟨f, hf, rfl⟩ | ⟨out, q, -, hq, rfl⟩
    · obtain rfl := Option.some.inj hstop
      exact (answer_eq_error_iff.mp hf).1
    · exact ih hq hstop

/-- Without traces, a larger bound changes no answer. -/
theorem answer_mono {fuel' : Nat} {t : Term} {r : Except Fault String} (hle : fuel ≤ fuel')
    (h : s.answer false fuel t = some r) : s.answer false fuel' t = some r := by
  rw [answer, Bool.false_and, if_neg Bool.false_ne_true] at h ⊢
  obtain ⟨x, hx, rfl⟩ := Option.map_eq_some_iff.mp h
  rw [execute_mono hle hx, Option.map_some]

/-- If every statement ends when it is run, one bound is large enough for all of them. -/
theorem exists_answers (h : ∀ st ∈ ss, ∃ fuel x, s.execute fuel st.term = some x) :
    ∃ n p, ∀ fuel, n ≤ fuel → s.answers false fuel ss = some p := by
  induction ss with
  | nil => exact ⟨0, ⟨[], none⟩, fun _ _ => rfl⟩
  | cons st ss ih =>
    obtain ⟨⟨m, x, hx⟩, hss⟩ := List.forall_mem_cons.mp h
    obtain ⟨r, hr⟩ : ∃ r, s.answer false m st.term = some r := by
      rw [answer, Bool.false_and, if_neg Bool.false_ne_true, hx, Option.map_some]
      exact ⟨_, rfl⟩
    cases r with
    | error f =>
      refine ⟨m, ⟨[], some ⟨st.mark, f⟩⟩, fun fuel hle => ?_⟩
      rw [answers, answer_mono hle hr]
    | ok out =>
      obtain ⟨n, p, hn⟩ := ih hss
      refine ⟨max m n, p.cons out, fun fuel hle => ?_⟩
      rw [answers, answer_mono (Nat.le_trans (Nat.le_max_left m n) hle) hr]
      dsimp only
      rw [hn fuel (Nat.le_trans (Nat.le_max_right m n) hle), Option.map_some]

variable {path : String} {source : Work.Source}

theorem results_of_stop {stop : Stop} (h : (source.statements path).stop = some stop) :
    s.results fuel path source = some ⟨[], some stop⟩ := by
  rw [results, h]

theorem results_of_read (h : (source.statements path).stop = none) :
    s.results fuel path source = s.answers false fuel (source.statements path).done := by
  rw [results, h]

/-- If the terms of a source end when they are run, one bound is large enough for the source. -/
theorem exists_results
    (h : ∀ content text, source = .bytes content → Text.decodeUtf8 content = .ok text →
      ∀ x ∈ Draft.assemble (Text.lines text), ∀ t, Term.parse (String.ofList x.text) = .ok t →
        ∃ fuel y, s.execute fuel t = some y) :
    ∃ n p, ∀ fuel, n ≤ fuel → s.results fuel path source = some p := by
  cases hstop : (source.statements path).stop with
  | some stop => exact ⟨0, _, fun fuel _ => results_of_stop hstop⟩
  | none =>
    obtain ⟨content, text, hbytes, htext, hread⟩ := Work.Source.exists_text_of_statements hstop
    have hterms : ∀ st ∈ (source.statements path).done,
        ∃ fuel y, s.execute fuel st.term = some y := by
      intro st hst
      rw [hread] at hst hstop
      obtain ⟨x, hx, hread⟩ := Draft.exists_readAs hst
      exact h content text hbytes htext x hx st.term hread.term
    obtain ⟨n, p, hn⟩ := exists_answers hterms
    exact ⟨n, p, fun fuel hle => (results_of_read hstop).trans (hn fuel hle)⟩

theorem answersAll_of_results {outs : List String}
    (h : s.results fuel path source = some ⟨outs, none⟩) :
    ∃ content text, source = .bytes content ∧ Text.decodeUtf8 content = .ok text ∧
      s.AnswersAll false fuel (Draft.assemble (Text.lines text)) outs := by
  cases hstop : (source.statements path).stop with
  | some stop =>
    rw [results_of_stop hstop] at h
    cases h
  | none =>
    obtain ⟨content, text, hbytes, htext, hread⟩ := Work.Source.exists_text_of_statements hstop
    rw [results_of_read hstop, hread] at h
    rw [hread] at hstop
    exact ⟨content, text, hbytes, htext, answersAll_iff.mpr ⟨hstop, h⟩⟩

theorem results_of_answersAll {content : List UInt8} {text : List Char} {outs : List String}
    (hpath : path ≠ promptPath) (hnul : '\x00' ∉ path.toList)
    (htext : Text.decodeUtf8 content = .ok text)
    (h : s.AnswersAll false fuel (Draft.assemble (Text.lines text)) outs) :
    s.results fuel path (.bytes content) = some ⟨outs, none⟩ := by
  obtain ⟨hstop, hanswers⟩ := answersAll_iff.mp h
  have hread := Work.Source.statements_of_text hpath hnul htext
  rw [← hread] at hstop hanswers
  exact (results_of_read hstop).trans hanswers

theorem ne_report_of_results {p : Progress String} {stop : Stop}
    (h : s.results fuel path source = some p) (hp : p.stop = some stop) (e : Text.TemplateError) :
    stop.fault ≠ .report e := by
  cases hstop : (source.statements path).stop with
  | some stop' =>
    rw [results_of_stop hstop] at h
    obtain rfl := Option.some.inj h
    obtain rfl := Option.some.inj hp
    exact Work.Source.ne_report_of_statements hstop e
  | none =>
    rw [results_of_read hstop] at h
    rw [fault_of_answers h hp]
    exact Fault.noConfusion

end Settings

/-! ### The program on a file -/

theorem Mode.ofName?_name (mode : Mode) : Mode.ofName? mode.name = some mode := by
  cases mode <;> decide

namespace Program

open Work (Source)

variable {style : Style} {attributes : Text.Attributes} {options : Options} {path : String}

/-- What is printed of a file, and how the program ends. -/
def transcriptOf (style : Style) (attributes : Text.Attributes) (path : String)
    (p : Progress String) : Transcript :=
  match p.stop with
  | none => ⟨String.join (p.done.map (· ++ "\n")), .returns⟩
  | some stop =>
    ⟨(Reporter.mk true false style attributes [(path, stop.mark)]).errorText
        (stop.fault.diagnosis style),
      .exits Reporter.errorStatus⟩

/-- A reporter that is fatal ends the program after its one report. -/
theorem transcript_of_stop {work : Work Unit} {d : Desk} {p : Progress String} {stop : Stop}
    {sheet : Sheet} (hp : p.stop = some stop) (hf : ∀ e, stop.fault ≠ .report e)
    (h : work.runOn d = some (.error (.fault stop.fault),
      ⟨⟨true, false, style, attributes, [(path, stop.mark)]⟩, sheet, []⟩)) :
    transcript work d = some (transcriptOf style attributes path p) := by
  rw [transcript, Work.guarded, Act.runOn_ofFunction, h, Option.map_some, Option.map_some]
  dsimp only
  rw [Work.settle]
  dsimp only
  rw [Reporter.settle_fault (Reporter.mk true false style attributes [(path, stop.mark)]) hf,
    Reporter.report_fatal rfl]
  dsimp only
  rw [Desk.print_eq_printAll _ (Reporter.errorText_ne _ _), transcriptOf, hp]
  simp [Desk.output, Desk.printAll, String.join]

theorem transcript_of_ok {work : Work Unit} {d e : Desk} {p : Progress String}
    (hp : p.stop = none) (h : work.runOn d = some (.ok (), e))
    (hprinted : e.printed = p.done.map fun out => (.results, out ++ "\n")) :
    transcript work d = some (transcriptOf style attributes path p) := by
  have houtput : e.output none = String.join (p.done.map (· ++ "\n")) := by
    rw [Desk.output, hprinted]
    simp [Function.comp_def]
  rw [transcript, Work.guarded_of_ok h, Option.map_some, transcriptOf, hp]
  dsimp only
  rw [houtput]

/-- The desk of a file that has been opened, before any statement is read. -/
def opened (style : Style) (attributes : Text.Attributes) (options : Options) (path : String) :
    Desk :=
  (Desk.fresh (reporter style attributes options)).opened path options.settings false

/-- A file is opened by reading its statements. -/
theorem openFor_runOn (source : Source) :
    (openFor options path false source).runOn (Desk.fresh (reporter style attributes options))
      = some ((source.statements path).ending,
          (opened style attributes options path).queued (source.statements path)) :=
  Work.openSheet_runOn path (Mode.ofName?_name options.settings.mode) (fun _ => rfl)
    options.settings.prove options.settings.numerals source _

section

variable (htrace : options.trace = false) {source : Source}
include htrace

/-- The reporter at a line of the file, if nothing is traced. -/
theorem mark_opened (mark : Mark) :
    (opened style attributes options path).reporter.mark path mark
      = ⟨true, false, style, attributes, [(path, mark)]⟩ := by
  obtain ⟨file, settings, trace⟩ := options
  obtain rfl : trace = false := htrace
  show Reporter.mk _ _ _ _ (Reporter.setMark path mark (Reporter.setMark path .none [])) = _
  rw [Reporter.setMark_setMark]
  rfl

/-- A file that cannot be read is stopped when it is opened. -/
theorem openFor_of_stop {stop : Stop} (h : (source.statements path).stop = some stop) :
    ∃ sheet, (openFor options path false source).runOn
        (Desk.fresh (reporter style attributes options))
      = some (.error (.fault stop.fault),
          ⟨⟨true, false, style, attributes, [(path, stop.mark)]⟩, sheet, []⟩) := by
  refine ⟨((opened style attributes options path).queued (source.statements path)).sheet, ?_⟩
  rw [openFor_runOn, Progress.ending, Desk.queued, h]
  exact congrArg (fun r => some (_, Desk.mk r _ _)) (mark_opened htrace stop.mark)

/-- The statements of an opened file are answered in order, with nothing printed. -/
theorem run_of_opened_quiet (h : (source.statements path).stop = none) (fuel : Nat) :
    (Work.run fuel).runOn ((opened style attributes options path).queued (source.statements path))
      = (options.settings.answers false fuel (source.statements path).done).map fun p =>
          (p.ending, ⟨(opened style attributes options path).reporter.stoppedBy path p.stop,
            ⟨path, options.settings, false, (source.statements path).done, p.done⟩, []⟩) := by
  have hquiet : (Desk.fresh (reporter style attributes options)).reporter.verbose = false :=
    htrace
  have htexts (ss : List Statement) : (ss.flatMap fun s => options.settings.trace
      (opened style attributes options path).reporter fuel s.term) = [] :=
    List.flatMap_eq_nil_iff.mpr fun s _ => Settings.trace_of_quiet htrace _ _ _
  rw [opened, Work.run_of_opened h, hquiet]
  refine congrArg (Option.map · _) (funext fun p => ?_)
  exact congrArg (fun printed => (_, Desk.mk _ _ printed)) (htexts _)

/-- A file is run by reading its statements and answering them, and nothing is printed but the
answers or one report. -/
theorem transcript_runFile (fuel : Nat) :
    transcript (runFile fuel options path source) (Desk.fresh (reporter style attributes options))
      = (options.settings.results fuel path source).map (transcriptOf style attributes path) := by
  cases hstop : (source.statements path).stop with
  | some stop =>
    obtain ⟨sheet, hopen⟩ := @openFor_of_stop style attributes options path htrace source stop hstop
    rw [Settings.results_of_stop hstop, Option.map_some]
    exact transcript_of_stop rfl (Source.ne_report_of_statements hstop)
      (Act.runOn_bind_error hopen)
  | none =>
    have hopen := @openFor_runOn style attributes options path source
    rw [Progress.ending_eq_ok_iff.mpr hstop] at hopen
    have hfile : (runFile fuel options path source).runOn
        (Desk.fresh (reporter style attributes options)) = _ := Act.runOn_bind_ok hopen
    have hrun := @run_of_opened_quiet style attributes options path htrace source hstop fuel
    rw [Settings.results_of_read hstop]
    cases hanswers : options.settings.answers false fuel (source.statements path).done with
    | none =>
      rw [hanswers] at hrun
      rw [transcript, Work.guarded_of_none (hfile.trans (Act.runOn_bind_none hrun))]
      rfl
    | some p =>
      obtain ⟨outs, stop?⟩ := p
      rw [hanswers, Option.map_some] at hrun
      rw [Option.map_some]
      cases stop? with
      | some stop =>
        have hstopped := hfile.trans (Act.runOn_bind_error hrun)
        dsimp only at hstopped
        rw [Reporter.stoppedBy, mark_opened htrace] at hstopped
        refine transcript_of_stop rfl (fun _ => ?_) hstopped
        rw [Settings.fault_of_answers hanswers rfl]
        exact Fault.noConfusion
      | none =>
        rw [Act.runOn_bind_ok hrun, Work.printResults_eq] at hfile
        exact transcript_of_ok rfl hfile rfl

theorem runFile_of_stop {stop : Stop} (h : (source.statements path).stop = some stop)
    (fuel : Nat) :
    (runFile fuel options path source).runOn (Desk.fresh (reporter style attributes options))
      = (openFor options path false source).runOn
          (Desk.fresh (reporter style attributes options)) := by
  obtain ⟨sheet, hopen⟩ := @openFor_of_stop style attributes options path htrace source stop h
  rw [runFile, Act.runOn_bind_error hopen, hopen]

end

theorem run_of_file {args : List String} (hargs : Options.ofArguments args = .run options)
    (hfile : options.file = some path) (htrace : options.trace = false) (fuel : Nat)
    (style : Style) (attributes : Text.Attributes) (files : String → Source)
    (lines : List String) :
    run fuel style attributes args files lines
      = (options.settings.results fuel path (files path)).map
          (transcriptOf style attributes path) := by
  rw [run, hargs]
  dsimp only
  rw [runOptions, hfile]
  exact transcript_runFile htrace fuel

/-- **A file is run as a whole or not at all.**  The program ends if the terms of the statements
do.  Whenever it ends, it has printed the results of all statements, in order and nothing else,
and returns; or it has printed one report and no result, and exits with status 1.  If a
statement cannot be read, opening the file is all that is done.  If all statements are answered,
their results are printed. -/
theorem file_run_all_or_nothing {args : List String}
    (hargs : Options.ofArguments args = .run options) (hfile : options.file = some path)
    (htrace : options.trace = false) (style : Style) (attributes : Text.Attributes)
    (files : String → Source) (lines : List String) :
    ((∀ content text, files path = .bytes content → Text.decodeUtf8 content = .ok text →
        ∀ x ∈ Draft.assemble (Text.lines text), ∀ t, Term.parse (String.ofList x.text) = .ok t →
          ∃ fuel y, options.settings.execute fuel t = some y) →
      ∃ n t, ∀ fuel, n ≤ fuel → run fuel style attributes args files lines = some t) ∧
    (∀ fuel t, run fuel style attributes args files lines = some t →
      (∃ content text outs, files path = .bytes content ∧ Text.decodeUtf8 content = .ok text ∧
        options.settings.AnswersAll false fuel (Draft.assemble (Text.lines text)) outs ∧
        t = ⟨String.join (outs.map (· ++ "\n")), .returns⟩) ∨
      ∃ (mark : Mark) (f : Fault), (∀ e, f ≠ .report e) ∧
        t = ⟨(Reporter.mk true false style attributes [(path, mark)]).errorText
            (f.diagnosis style), .exits 1⟩) ∧
    (∀ content text x e, files path = .bytes content → Text.decodeUtf8 content = .ok text →
      x ∈ Draft.assemble (Text.lines text) → Term.parse (String.ofList x.text) = .error e →
        ∃ t, t.ending = .exits 1 ∧ ∀ fuel, run fuel style attributes args files lines = some t ∧
          (runFile fuel options path (files path)).runOn
              (Desk.fresh (reporter style attributes options))
            = (openFor options path false (files path)).runOn
                (Desk.fresh (reporter style attributes options))) ∧
    (∀ fuel content text outs, path ≠ promptPath → '\x00' ∉ path.toList →
      files path = .bytes content → Text.decodeUtf8 content = .ok text →
      options.settings.AnswersAll false fuel (Draft.assemble (Text.lines text)) outs →
        run fuel style attributes args files lines
          = some ⟨String.join (outs.map (· ++ "\n")), .returns⟩) := by
  have hrun (fuel : Nat) := run_of_file hargs hfile htrace fuel style attributes files lines
  refine ⟨fun hends => ?_, fun fuel t ht => ?_, ?_, ?_⟩
  · obtain ⟨n, p, hn⟩ := @Settings.exists_results _ path _ hends
    refine ⟨n, transcriptOf style attributes path p, fun fuel hle => ?_⟩
    rw [hrun, hn fuel hle, Option.map_some]
  · rw [hrun] at ht
    obtain ⟨⟨outs, stop?⟩, hresults, rfl⟩ := Option.map_eq_some_iff.mp ht
    cases stop? with
    | some stop =>
      exact .inr ⟨stop.mark, stop.fault, Settings.ne_report_of_results hresults rfl, rfl⟩
    | none =>
      obtain ⟨content, text, hbytes, htext, houts⟩ := Settings.answersAll_of_results hresults
      exact .inl ⟨content, text, outs, hbytes, htext, houts, rfl⟩
  · intro content text x e hbytes htext hx he
    obtain ⟨stop, hstop⟩ := Source.exists_stop_of_parse path htext hx he
    rw [← hbytes] at hstop
    -- the bound plays no part: no statement is run
    refine ⟨transcriptOf style attributes path ⟨[], some stop⟩, rfl, fun fuel => ⟨?_, ?_⟩⟩
    · rw [hrun, Settings.results_of_stop hstop, Option.map_some]
    · exact runFile_of_stop htrace hstop fuel
  · intro fuel content text outs hpath hnul hbytes htext houts
    rw [hrun, hbytes, Settings.results_of_answersAll hpath hnul htext houts]
    rfl

/-- Of the file `(λx.0 1)` and `)`, the first statement could be answered and nothing is printed of
it; with `2` in place of `)`, both results are printed. -/
theorem file_run_all_or_nothing_two_statements :
    (∃ t, t.ending = .exits 1 ∧ ∀ fuel, run fuel .plain .none ["a.lam"]
      (fun _ => .bytes "(λx.0 1)\n)\n".toUTF8.toList) [] = some t) ∧
    run 3 .plain .none ["a.lam"] (fun _ => .bytes "(λx.0 1)\n2\n".toUTF8.toList) []
      = some ⟨"1\n2\n", .returns⟩ := by
  have hargs : Options.ofArguments ["a.lam"] = .run { file := some "a.lam" } := rfl
  constructor
  · have hparse : Term.parse ")" = .error (.syntactic ")" (.parenthesis ⟨.closing, [')'], 0⟩)) := by
      decide +kernel
    obtain ⟨-, -, hstops, -⟩ := file_run_all_or_nothing hargs rfl rfl .plain .none
      (fun _ => .bytes "(λx.0 1)\n)\n".toUTF8.toList) []
    obtain ⟨t, ht, hrun⟩ := hstops _ "(λx.0 1)\n)\n".toList ⟨")".toList, 2⟩ _ rfl
      (by decide +kernel) (by decide +kernel) hparse
    exact ⟨t, ht, fun fuel => (hrun fuel).1⟩
  · have hassemble : Draft.assemble (Text.lines "(λx.0 1)\n2\n".toList)
        = [⟨"(λx.0 1)".toList, 1⟩, ⟨"2".toList, 2⟩] := by
      decide +kernel
    have hfirst : ({} : Settings).Answers false 3 "(λx.0 1)".toList "1" :=
      ⟨.app (.lam (.var 0)) (.var 1), by decide +kernel,
        Settings.answer_eq_of_text (by decide +kernel)⟩
    have hsecond : ({} : Settings).Answers false 3 "2".toList "2" :=
      ⟨.var 2, by decide +kernel, Settings.answer_eq_of_text (by decide +kernel)⟩
    obtain ⟨-, -, -, hreturns⟩ := file_run_all_or_nothing hargs rfl rfl .plain .none
      (fun _ => .bytes "(λx.0 1)\n2\n".toUTF8.toList) []
    refine hreturns 3 _ "(λx.0 1)\n2\n".toList ["1", "2"] (by decide) (by decide) rfl
      (by decide +kernel) ?_
    rw [hassemble]
    exact .cons hfirst (.cons hsecond .nil)

end Program

end Nameless
