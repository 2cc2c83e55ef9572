/-
Nameless/Proofs/Desk/Opening.lean

What opening a source comes to.

Drafts are read in order, up to the first that cannot be (`Draft.readAll`).  A source is opened
by reading the statements of its lines, unless it cannot be read at all; `Source.statements` says
how far this comes, and the desk that is left follows from that (`openSheet_runOn`):

    (openSheet path mode .. source).runOn d
      = some (p.ending, (d.opened path settings interactive).queued p)

for the progress `p`.  The statements begin on different lines, so all that are read are in the
queue, in order (`exists_queue_of_source`).  A source that is opened and run to its end has an
answer to each of its drafts (`exists_answers_of_source`).
-/
import Nameless.Proofs.Desk.Assembly
import Nameless.Proofs.Desk.Execution

namespace Nameless

/-! ### Reading -/

/-- The statement that a draft is read as. -/
structure Draft.ReadAs (x : Draft) (s : Statement) : Prop where
  line : s.line = x.line
  text : s.text = String.ofList x.text
  term : Term.parse (String.ofList x.text) = .ok s.term

/-- Drafts read as statements, up to the first that cannot be read. -/
def Draft.readAll : List Draft → Progress Statement
  | [] => ⟨[], none⟩
  | x :: xs =>
    match Term.parse (String.ofList x.text) with
    | .error e => ⟨[], some ⟨⟨some (String.ofList x.text), some x.line⟩, .read e⟩⟩
    | .ok t => (readAll xs).cons ⟨x.line, String.ofList x.text, t⟩

/-- The statements of a source, as far as they can be read. -/
def Work.Source.statements (path : String) (source : Source) : Progress Statement :=
  if path = promptPath then ⟨[], some ⟨.none, .reservedPath⟩⟩
  else if path.toList.contains '\x00' then ⟨[], some ⟨.none, .nulInPath⟩⟩
  else
    match source with
    | .unreadable => ⟨[], some ⟨.none, .cannotOpen path⟩⟩
    | .bytes content =>
      match Text.decodeUtf8 content with
      | .error e => ⟨[], some ⟨.none, .notText e⟩⟩
      | .ok text => Draft.readAll (Draft.assemble (Text.lines text))

namespace Draft

variable {x : Draft} {xs : List Draft}

theorem readAll_of_ok {t : Term} (h : Term.parse (String.ofList x.text) = .ok t)
    (xs : List Draft) :
    readAll (x :: xs) = (readAll xs).cons ⟨x.line, String.ofList x.text, t⟩ := by
  rw [readAll, h]

theorem readAll_of_error {e : ReadError} (h : Term.parse (String.ofList x.text) = .error e)
    (xs : List Draft) :
    readAll (x :: xs) = ⟨[], some ⟨⟨some (String.ofList x.text), some x.line⟩, .read e⟩⟩ := by
  rw [readAll, h]

/-- Drafts are read to the end exactly if each can be read. -/
theorem stop_readAll_eq_none_iff :
    (readAll xs).stop = none ↔ ∀ x ∈ xs, ∃ t, Term.parse (String.ofList x.text) = .ok t := by
  induction xs with
  | nil => exact ⟨fun _ => List.forall_mem_nil _, fun _ => rfl⟩
  | cons x xs ih =>
    rw [List.forall_mem_cons, ← ih]
    cases hparse : Term.parse (String.ofList x.text) with
    | error e =>
      rw [readAll_of_error hparse]
      refine ⟨by rintro ⟨⟩, ?_⟩
      rintro ⟨⟨t, ht⟩, -⟩
      cases ht
    | ok t =>
      rw [readAll_of_ok hparse]
      exact ⟨fun h => ⟨⟨t, rfl⟩, h⟩, fun h => h.2⟩

/-- Drafts that are read to the end are read as statements one by one. -/
theorem forall₂_readAs (h : (readAll xs).stop = none) :
    List.Forall₂ ReadAs xs (readAll xs).done := by
  induction xs with
  | nil => exact .nil
  | cons x xs ih =>
    cases hparse : Term.parse (String.ofList x.text) with
    | error e =>
      rw [readAll_of_error hparse] at h
      cases h
    | ok t =>
      rw [readAll_of_ok hparse] at h ⊢
      exact .cons ⟨rfl, rfl, hparse⟩ (ih h)

/-- What is read is read from one of the drafts. -/
theorem exists_readAs {s : Statement} (hs : s ∈ (readAll xs).done) : ∃ x ∈ xs, x.ReadAs s := by
  induction xs with
  | nil => cases hs
  | cons x xs ih =>
    cases hparse : Term.parse (String.ofList x.text) with
    | error e =>
      rw [readAll_of_error hparse] at hs
      cases hs
    | ok t =>
      rw [readAll_of_ok hparse] at hs
      rcases List.mem_cons.mp hs with rfl | hs
      · exact ⟨x, List.mem_cons_self, rfl, rfl, hparse⟩
      · obtain ⟨y, hy, hread⟩ := ih hs
        exact ⟨y, List.mem_cons_of_mem x hy, hread⟩

/-- What stops the reading of drafts is that one of them cannot be read. -/
theorem exists_read_of_readAll {stop : Stop} (h : (readAll xs).stop = some stop) :
    ∃ e, stop.fault = .read e := by
  induction xs with
  | nil => cases h
  | cons x xs ih =>
    cases hparse : Term.parse (String.ofList x.text) with
    | error e =>
      rw [readAll_of_error hparse] at h
      obtain rfl := Option.some.inj h
      exact ⟨e, rfl⟩
    | ok t =>
      rw [readAll_of_ok hparse] at h
      exact ih h

end Draft

namespace Work.Source

variable {path : String} {source : Source}

/-- A source whose statements are read to the end is a text. -/
theorem exists_text_of_statements (h : (source.statements path).stop = none) :
    ∃ content text, source = .bytes content ∧ Text.decodeUtf8 content = .ok text ∧
      source.statements path = Draft.readAll (Draft.assemble (Text.lines text)) := by
  unfold statements at h ⊢
  split_ifs at h ⊢
  split at h
  · cases h
  · next content =>
    split at h
    · cases h
    · next text htext =>
      exact ⟨content, text, rfl, htext, rfl⟩

theorem statements_of_text {content : List UInt8} {text : List Char} (hpath : path ≠ promptPath)
    (hnul : '\x00' ∉ path.toList) (htext : Text.decodeUtf8 content = .ok text) :
    (Source.bytes content).statements path = Draft.readAll (Draft.assemble (Text.lines text)) := by
  have hcontains : ¬ path.toList.contains '\x00' = true := fun h =>
    hnul (List.contains_iff_mem.mp h)
  unfold statements
  rw [if_neg hpath, if_neg hcontains]
  dsimp only
  rw [htext]

end Work.Source

/-! ### The queue -/

namespace Sheet

theorem enqueueIn_eq_append {s : Statement} {queue : List Statement}
    (h : ∀ r ∈ queue, r.line ≠ s.line) : enqueueIn s queue = queue ++ [s] := by
  induction queue with
  | nil => rfl
  | cons r queue ih =>
    obtain ⟨hr, hqueue⟩ := List.forall_mem_cons.mp h
    rw [enqueueIn, if_neg hr, ih hqueue, List.cons_append]

/-- Statements that begin on different lines, after those of the queue, are queued in order. -/
theorem foldl_enqueue {ss : List Statement} {sheet : Sheet} (hss : ss.Pairwise (·.line < ·.line))
    (hqueue : ∀ r ∈ sheet.queue, ∀ s ∈ ss, r.line < s.line) :
    ss.foldl enqueue sheet = { sheet with queue := sheet.queue ++ ss } := by
  induction ss generalizing sheet with
  | nil => rw [List.foldl_nil, List.append_nil]
  | cons s ss ih =>
    obtain ⟨hs, hss⟩ := List.pairwise_cons.mp hss
    have hline : ∀ r ∈ sheet.queue, r.line ≠ s.line := fun r hr =>
      Int.ne_of_lt (hqueue r hr s List.mem_cons_self)
    have hqueue' : ∀ r ∈ sheet.queue ++ [s], ∀ u ∈ ss, r.line < u.line := by
      intro r hr u hu
      rcases List.mem_append.mp hr with hr | hr
      · exact hqueue r hr u (List.mem_cons_of_mem s hu)
      · obtain rfl := List.mem_singleton.mp hr
        exact hs u hu
    rw [List.foldl_cons, enqueue, enqueueIn_eq_append hline, ih hss hqueue', List.append_assoc,
      List.singleton_append]

end Sheet

/-- Drafts and what they are read as begin on the same lines. -/
theorem Draft.pairwise_line_of_readAs {xs : List Draft} {ss : List Statement}
    (h : List.Forall₂ ReadAs xs ss) (hxs : xs.Pairwise (·.line < ·.line)) :
    ss.Pairwise (·.line < ·.line) := by
  have hlines : ss.map (·.line) = xs.map fun x => (x.line : Int) := by
    induction h with
    | nil => rfl
    | cons hx _ ih => rw [List.map_cons, List.map_cons, hx.line, ih (List.pairwise_cons.mp hxs).2]
  have hpairwise : (xs.map fun x => (x.line : Int)).Pairwise (· < ·) :=
    List.pairwise_map.mpr (hxs.imp fun h => Int.ofNat_lt.mpr h)
  rw [← hlines] at hpairwise
  exact List.pairwise_map.mp hpairwise

/-! ### Opening -/

namespace Desk

/-- The desk with an empty worksheet opened on a path. -/
def opened (d : Desk) (path : String) (settings : Settings) (interactive : Bool) : Desk :=
  { d with
    reporter := { d.reporter.clearLine path with fatal := d.reporter.fatal && !interactive }
    sheet := ⟨path, settings, interactive, [], []⟩ }

/-- The desk when statements have been read. -/
def queued (d : Desk) (p : Progress Statement) : Desk :=
  ⟨d.reporter.stoppedBy d.sheet.path p.stop, p.done.foldl Sheet.enqueue d.sheet, d.printed⟩

theorem clear_opened (d : Desk) (path : String) (settings : Settings) (interactive : Bool) :
    (d.opened path settings interactive).reporter.Clear path :=
  Reporter.clear_clearLine d.reporter path

/-- What is read of a whole source is what waits. -/
theorem queued_readAll {lines : List (List Char)}
    (h : (Draft.readAll (Draft.assemble lines)).stop = none) (d : Desk) (path : String)
    (settings : Settings) (interactive : Bool) :
    (d.opened path settings interactive).queued (Draft.readAll (Draft.assemble lines))
      = { d.opened path settings interactive with
          sheet := ⟨path, settings, interactive, (Draft.readAll (Draft.assemble lines)).done,
            []⟩ } := by
  have hlines := Draft.pairwise_line_of_readAs (Draft.forall₂_readAs h)
    (Draft.pairwise_line_assemble lines)
  rw [queued, h, Sheet.foldl_enqueue hlines (List.forall_mem_nil _)]
  rfl

end Desk

namespace Work

variable {fuel : Nat}

theorem add_of_ok {text : String} {t : Term} (line : Int) {d : Desk}
    (hd : d.reporter.Clear d.sheet.path) (h : Term.parse text = .ok t) :
    (add text line).runOn d = some (.ok (), d.mapSheet (·.enqueue ⟨line, text, t⟩)) := by
  rw [add, Act.runOn_bind_ok (Act.runOn_get d), h]
  show some (_, Desk.mk ((d.reporter.enterLine d.sheet.path text line).clearLine d.sheet.path) _ _)
    = _
  rw [Reporter.enterLine, Reporter.clearLine, Reporter.mark_mark]
  exact congrArg (fun r => some (_, Desk.mk r _ _)) hd.clearLine_eq

theorem add_of_error {text : String} {e : ReadError} (line : Int) (d : Desk)
    (h : Term.parse text = .error e) :
    (add text line).runOn d = some (.error (.fault (.read e)),
      d.mapReporter (·.enterLine d.sheet.path text line)) := by
  rw [add, Act.runOn_bind_ok (Act.runOn_get d), h]
  rfl

/-- Drafts are read and queued in order, up to the first that cannot be read. -/
theorem addDrafts_runOn {d : Desk} (hd : d.reporter.Clear d.sheet.path) (xs : List Draft) :
    (addDrafts xs).runOn d = some ((Draft.readAll xs).ending, d.queued (Draft.readAll xs)) := by
  induction xs generalizing d with
  | nil => rfl
  | cons x xs ih =>
    rw [addDrafts]
    cases hparse : Term.parse (String.ofList x.text) with
    | error e =>
      rw [Act.runOn_bind_error (add_of_error x.line d hparse), Draft.readAll_of_error hparse]
      rfl
    | ok t =>
      rw [Act.runOn_bind_ok (add_of_ok x.line hd hparse), Draft.readAll_of_ok hparse]
      exact ih hd

theorem openSheet_prompt {modeName : String} {mode : Mode}
    (hmode : Mode.ofName? modeName = some mode) (prove numerals : Bool) (source : Source)
    (d : Desk) :
    (openSheet promptPath modeName prove numerals true source).runOn d
      = some (.ok (), d.opened promptPath ⟨mode, prove, numerals⟩ true) := by
  rw [openSheet.eq_def, hmode]
  rfl

/-- A source is opened by reading its statements into an empty worksheet. -/
theorem openSheet_runOn (path : String) {modeName : String} {mode : Mode} {interactive : Bool}
    (hmode : Mode.ofName? modeName = some mode)
    (hprompt : path = promptPath → interactive = false) (prove numerals : Bool) (source : Source)
    (d : Desk) :
    (openSheet path modeName prove numerals interactive source).runOn d
      = some ((source.statements path).ending,
          (d.opened path ⟨mode, prove, numerals⟩ interactive).queued
            (source.statements path)) := by
  have hclear := d.clear_opened path ⟨mode, prove, numerals⟩ interactive
  -- a fault of the source itself is met with no line at work
  have hfault (f : Fault) :
      some (.error (.fault f), d.opened path ⟨mode, prove, numerals⟩ interactive)
      = some ((Progress.mk ([] : List Statement) (some ⟨.none, f⟩)).ending,
          (d.opened path ⟨mode, prove, numerals⟩ interactive).queued ⟨[], some ⟨.none, f⟩⟩) :=
    congrArg (fun r => some (_, Desk.mk r _ _)) hclear.clearLine_eq.symm
  rw [openSheet.eq_def, hmode]
  unfold Source.statements
  dsimp only
  rw [Act.runOn_bind_ok (Act.runOn_modify _ d)]
  show Act.runOn _ (d.opened path ⟨mode, prove, numerals⟩ interactive) = _
  by_cases hpath : path = promptPath
  · obtain rfl := hprompt hpath
    rw [if_pos hpath, if_pos hpath]
    exact hfault .reservedPath
  · rw [if_neg hpath, if_neg hpath]
    by_cases hnul : path.toList.contains '\x00' = true
    · rw [if_pos hnul, if_pos hnul]
      exact hfault .nulInPath
    · rw [if_neg hnul, if_neg hnul]
      cases source with
      | unreadable => exact hfault (.cannotOpen path)
      | bytes content =>
        dsimp only
        cases Text.decodeUtf8 content with
        | error e => exact hfault (.notText e)
        | ok text => exact addDrafts_runOn hclear _

/-- A source whose statements can all be read is opened, and they are queued in order. -/
theorem exists_queue_of_source {path modeName : String} {mode : Mode} {content : List UInt8}
    {text : List Char} (hmode : Mode.ofName? modeName = some mode) (hpath : path ≠ promptPath)
    (hnul : '\x00' ∉ path.toList) (htext : Text.decodeUtf8 content = .ok text)
    (hread : ∀ x ∈ Draft.assemble (Text.lines text),
      ∃ t, Term.parse (String.ofList x.text) = .ok t)
    (prove numerals interactive : Bool) (d : Desk) :
    ∃ e, (openSheet path modeName prove numerals interactive (.bytes content)).runOn d
        = some (.ok (), e) ∧
      List.Forall₂ Draft.ReadAs (Draft.assemble (Text.lines text)) e.sheet.queue := by
  have hstop := Draft.stop_readAll_eq_none_iff.mpr hread
  have hopen := @openSheet_runOn path modeName mode interactive hmode (absurd · hpath)
    prove numerals (.bytes content) d
  rw [Source.statements_of_text hpath hnul htext, Progress.ending_eq_ok_iff.mpr hstop] at hopen
  refine ⟨_, hopen, ?_⟩
  rw [Desk.queued_readAll hstop]
  exact Draft.forall₂_readAs hstop

end Work

/-! ### A source that is run to its end -/

namespace Settings

variable {s : Settings} {verbose : Bool} {fuel : Nat}

/-- Drafts are answered one by one exactly if all of them are read, and all that is read has an
answer. -/
theorem answersAll_iff {xs : List Draft} {outs : List String} :
    s.AnswersAll verbose fuel xs outs ↔
      (Draft.readAll xs).stop = none ∧
        s.answers verbose fuel (Draft.readAll xs).done = some ⟨outs, none⟩ := by
  induction xs generalizing outs with
  | nil =>
    constructor
    · rintro ⟨⟩
      exact ⟨rfl, rfl⟩
    · rintro ⟨-, ⟨⟩⟩
      exact .nil
  | cons x xs ih =>
    constructor
    · rintro (_ | ⟨⟨t, ht, hout⟩, hrest⟩)
      obtain ⟨hstop, houts⟩ := ih.mp hrest
      rw [Draft.readAll_of_ok ht]
      exact ⟨hstop, answers_cons_eq_some_iff.mpr (.inr ⟨_, _, hout, houts, rfl⟩)⟩
    · rintro ⟨hstop, houts⟩
      cases ht : Term.parse (String.ofList x.text) with
      | error e =>
        rw [Draft.readAll_of_error ht] at hstop
        cases hstop
      | ok t =>
        rw [Draft.readAll_of_ok ht] at hstop houts
        rcases answers_cons_eq_some_iff.mp houts with ⟨f, -, hf⟩ | ⟨out, ⟨rest, _⟩, hout, hrest, hq⟩
        · cases hf
        · cases hq
          exact .cons ⟨t, ht, hout⟩ (ih.mpr ⟨hstop, hrest⟩)

end Settings

/-- The statements of a file stay in its queue, and their results wait. -/
theorem Sheet.finishAll_of_file {sheet : Sheet} (h : sheet.interactive = false)
    {ss : List Statement} {outs : List String} (hle : outs.length ≤ ss.length) :
    sheet.finishAll ss outs = { sheet with results := sheet.results ++ outs } := by
  have hfinish (sheet : Sheet) (h : sheet.interactive = false) (s : Statement) :
      sheet.finish s = sheet := by
    rw [finish, h]
    rfl
  induction ss generalizing sheet outs with
  | nil =>
    obtain rfl := List.length_eq_zero_iff.mp (Nat.le_zero.mp hle)
    rw [finishAll, List.append_nil]
  | cons s ss ih =>
    cases outs with
    | nil => rw [finishAll, hfinish sheet h, List.append_nil]
    | cons out outs =>
      have hrest := @ih (sheet.record out) h outs (Nat.le_of_succ_le_succ hle)
      rw [finishAll, hfinish (sheet.record out) h, hrest, record, List.append_assoc,
        List.singleton_append]

namespace Work

variable {fuel : Nat} {d : Desk} {path : String} {settings : Settings}

/-- What is run of an opened file is what was read of it. -/
theorem run_of_opened {source : Source} (h : (source.statements path).stop = none) :
    (run fuel).runOn ((d.opened path settings false).queued (source.statements path))
      = (settings.answers d.reporter.verbose fuel (source.statements path).done).map fun p =>
          (p.ending, ⟨(d.opened path settings false).reporter.stoppedBy path p.stop,
            ⟨path, settings, false, (source.statements path).done, p.done⟩,
            d.printed ++ (p.takenUp (source.statements path).done).flatMap fun s =>
              settings.trace (d.opened path settings false).reporter fuel s.term⟩) := by
  obtain ⟨_, text, -, -, hstatements⟩ := Source.exists_text_of_statements h
  rw [hstatements] at h ⊢
  rw [Desk.queued_readAll h, run, Act.runOn_bind_ok (Act.runOn_get _), runStatements_runOn]
  show (settings.answers d.reporter.verbose fuel _).map _ = _
  cases hanswers : settings.answers d.reporter.verbose fuel _ with
  | none => rfl
  | some p =>
    have hsheet := Sheet.finishAll_of_file
      (rfl : (Sheet.mk path settings false
        (Draft.readAll (Draft.assemble (Text.lines text))).done []).interactive = false)
      (Settings.length_of_answers hanswers)
    rw [Option.map_some, Option.map_some, Desk.ran, hsheet]
    exact congrArg (fun r => some (_, Desk.mk r _ _))
      ((d.clear_opened path settings false).leaving_eq _ p.stop)

/-- A source that is opened and run to its end: each of its drafts is read and answered. -/
theorem exists_answers_of_source {path modeName : String} {prove numerals : Bool}
    {content : List UInt8} {text : List Char} {d e : Desk}
    (htext : Text.decodeUtf8 content = .ok text)
    (h : (do
      openSheet path modeName prove numerals false (.bytes content)
      run fuel).runOn d = some (.ok (), e)) :
    ∃ mode, Mode.ofName? modeName = some mode ∧
      (Settings.mk mode prove numerals).AnswersAll d.reporter.verbose fuel
        (Draft.assemble (Text.lines text)) e.sheet.results := by
  cases hmode : Mode.ofName? modeName with
  | none =>
    rw [openSheet.eq_def, hmode] at h
    cases h
  | some mode =>
    have hopen := openSheet_runOn path hmode (fun _ => rfl) prove numerals (.bytes content) d
    cases hstop : ((Source.bytes content).statements path).stop with
    | some stop =>
      rw [Progress.ending, hstop] at hopen
      rw [Act.runOn_bind_error hopen] at h
      cases h
    | none =>
      rw [Progress.ending_eq_ok_iff.mpr hstop] at hopen
      rw [Act.runOn_bind_ok hopen, run_of_opened hstop] at h
      obtain ⟨⟨outs, stop⟩, hanswers, hend⟩ := Option.map_eq_some_iff.mp h
      obtain ⟨hending, rfl⟩ := Prod.mk.inj hend
      obtain rfl : stop = none := Progress.ending_eq_ok_iff.mp hending
      obtain ⟨content', text', hbytes, htext', hstatements⟩ :=
        Source.exists_text_of_statements hstop
      obtain rfl := Source.bytes.inj hbytes
      obtain rfl : text = text' := Except.ok.inj (htext.symm.trans htext')
      rw [hstatements] at hstop hanswers
      exact ⟨mode, rfl, Settings.answersAll_iff.mpr ⟨hstop, hanswers⟩⟩

end Work

end Nameless
