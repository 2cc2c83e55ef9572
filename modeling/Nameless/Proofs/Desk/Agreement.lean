/-
Nameless/Proofs/Desk/Agreement.lean

A source and the prompt agree.

The lines of a source are brought together to statements, all of them are read, and then
all are run.  Typed at the prompt the same lines are taken up one by one: what is unfinished
is kept, and what a line finishes is run at once.  If the source is run to its end, the prompt
prints its results, in their order, and no line ends the dialogue
(`prompt_prints_results_of_source`).

One step of the argument is a line.  It is no command, since it begins like the rest of a
statement that can be read, and no command does (`ofLine_of_gather`).  So what the prompt
keeps after it is what is pending in `Draft.gather`, and what it prints is the answer to the
statement that the line finishes (`respond_line`).  The run follows by induction on the
lines (`respond_lines`): at its end nothing is pending, since parentheses are balanced in
whatever can be read.
-/
import Nameless.Proofs.Desk.Prompt
import Nameless.Proofs.Written.Words

namespace Nameless

/-! ### Lines that are no commands -/

namespace Command

/-- Whether a line of a statement can begin with the character: a token does, or a comment. -/
def beginsTerm (c : Char) : Bool :=
  c = ';' || (Token.Kind.ofChar? c).isSome

theorem not_beginsTerm_of_name : ∀ v ∈ Verb.all,
    (v.name.toList.head?.any fun c => !beginsTerm c) = true := by
  decide

theorem ofName?_takeWhile {c : Char} (hc : beginsTerm c = true) (rest : List Char) :
    Verb.ofName? (String.ofList ((c :: rest).takeWhile isNameChar)) = none := by
  rw [Verb.ofName?, List.find?_eq_none]
  intro v hv hname
  have hlist : v.name.toList = (c :: rest).takeWhile isNameChar := by
    rw [of_decide_eq_true hname, String.toList_ofList]
  have hhead := not_beginsTerm_of_name v hv
  rw [hlist, List.takeWhile_cons] at hhead
  split at hhead
  · rw [List.head?_cons, Option.any_some, hc] at hhead
    cases hhead
  · cases hhead

/-- A line that begins like part of a term is a term. -/
theorem ofLine_eq_term {line : String} {c : Char} {rest : List Char}
    (hline : Text.trim line.toList = c :: rest) (hc : beginsTerm c = true) :
    ofLine line = .term (String.ofList (c :: rest)) := by
  have hmark : c ≠ '?' := by
    rintro rfl
    revert hc
    decide
  rw [ofLine, hline]
  split
  · next h => cases h
  · next h => exact absurd (List.cons.inj h).1 hmark
  · rw [ofTrimmed, ofName?_takeWhile hc]

theorem ofLine_eq_nothing {line : List Char} (h : Text.trim line = []) :
    ofLine (String.ofList line) = .nothing := by
  rw [ofLine, String.toList_ofList, h]

end Command

section

open Draft

variable {pending : Option Draft} (hpending : ∀ d ∈ pending, d.Open)
include hpending

/-- No line of a source whose statements can be read is a command. -/
theorem ofLine_of_gather {number : Nat} {line : List Char} {rest : List (List Char)}
    (hread : ∀ x ∈ gather pending number (line :: rest),
      ∃ t, Term.parse (String.ofList x.text) = .ok t) :
    Text.trim line = [] ∨
      Command.ofLine (String.ofList line) = .term (String.ofList (Text.trim line)) := by
  cases hline : Text.trim line with
  | nil => exact .inl rfl
  | cons c w =>
    refine .inr (Command.ofLine_eq_term (by rw [String.toList_ofList, hline]) ?_)
    rw [Command.beginsTerm, Bool.or_eq_true, decide_eq_true_eq, Option.isSome_iff_exists]
    by_cases hc : c = ';'
    · exact .inl hc
    · obtain ⟨w', htidy⟩ := exists_tidy_eq_cons hline hc
      obtain ⟨before, hjoined, hbefore⟩ := exists_joined_eq (pendingText pending) c w'
      have hnext : (next pending number line).text = before ++ c :: w' := by
        rw [next, htidy, hjoined]
      have hne : (next pending number line).text ≠ [] := by
        rw [hnext]
        exact List.append_ne_nil_of_right_ne_nil _ (List.cons_ne_nil _ _)
      -- the line is a part of the statement that it goes on with or begins
      obtain ⟨x, hx, more, hmore⟩ := exists_extends_of_gather hpending hne
      obtain ⟨t, ht⟩ := hread x hx
      have htext : (String.ofList x.text).toList = before ++ c :: (w' ++ more) := by
        rw [String.toList_ofList, ← hmore, hnext, List.append_assoc, List.cons_append]
      have hblank : Text.isBlank c = false :=
        (Text.trimmed_trim line).head c (by rw [hline]; rfl)
      exact .inr (Term.exists_kind_of_parse ht htext hbefore hblank)

end

/-! ### What is printed -/

namespace Desk

/-- From `d` to `e` the texts `outs` are printed among the results, one after the other.
Besides them only reports are printed, and only by a verbose reporter, and nothing else
changes. -/
def Prints (d : Desk) (outs : List String) (e : Desk) : Prop :=
  ∃ more, e = d.printAll more ∧
    more.filter (fun p => p.1 = .results) = outs.map (Prod.mk .results) ∧
    (d.reporter.verbose = false → more = outs.map (Prod.mk .results))

variable {d e e' : Desk} {outs outs' : List String}

theorem Prints.refl (d : Desk) : d.Prints [] d :=
  ⟨[], d.printAll_nil.symm, rfl, fun _ => rfl⟩

theorem Prints.sheet (h : d.Prints outs e) : e.sheet = d.sheet := by
  obtain ⟨more, rfl, -⟩ := h
  rfl

theorem Prints.verbose (h : d.Prints outs e) : e.reporter.verbose = d.reporter.verbose := by
  obtain ⟨more, rfl, -⟩ := h
  rfl

theorem Prints.trans (h : d.Prints outs e) (h' : e.Prints outs' e') :
    d.Prints (outs ++ outs') e' := by
  obtain ⟨more, rfl, hfilter, hquiet⟩ := h
  obtain ⟨more', rfl, hfilter', hquiet'⟩ := h'
  refine ⟨more ++ more', d.printAll_printAll more more', ?_, fun hverbose => ?_⟩
  · rw [List.filter_append, hfilter, hfilter', List.map_append]
  · rw [hquiet hverbose, hquiet' hverbose, List.map_append]

/-- A trace and a result after it. -/
theorem prints_result (d : Desk) (s : Settings) (fuel : Nat) (t : Term) (out : String) :
    d.Prints [out] (d.printAll (s.trace d.reporter fuel t ++ [(.results, out)])) := by
  have hreports : (s.trace d.reporter fuel t).filter (fun p => p.1 = .results) = [] := by
    rw [List.filter_eq_nil_iff]
    intro p hp
    rw [Settings.channel_of_trace p hp]
    decide
  refine ⟨_, rfl, ?_, fun hverbose => ?_⟩
  · rw [List.filter_append, hreports]
    rfl
  · rw [Settings.trace_of_quiet hverbose]
    rfl

end Desk

/-! ### A line, and a run of lines -/

theorem Settings.AnswersAll.exists_append {s : Settings} {verbose : Bool} {fuel : Nat}
    {xs ys : List Draft} {outs : List String} (h : s.AnswersAll verbose fuel (xs ++ ys) outs) :
    ∃ first last, outs = first ++ last ∧ s.AnswersAll verbose fuel xs first ∧
      s.AnswersAll verbose fuel ys last := by
  induction xs generalizing outs with
  | nil => exact ⟨[], outs, rfl, .nil, h⟩
  | cons x xs ih =>
    cases h with
    | cons hx hrest =>
      obtain ⟨first, last, rfl, hfirst, hlast⟩ := ih hrest
      exact ⟨_ :: first, last, rfl, .cons hx hfirst, hlast⟩

/-- A prompt between two lines: nothing is under way, and what is unfinished is what is
pending. -/
structure Console.Awaits (c : Console) (pending : Option Draft) : Prop where
  vacant : c.desk.Vacant
  pending : c.pending.toList = Draft.pendingText pending

namespace Dialogue

open Draft

variable {fuel : Nat}

section

variable {pending : Option Draft} (hpending : ∀ d ∈ pending, d.Open) {c : Console}
  (hc : c.Awaits pending)
include hpending hc

/-- A line of a term keeps what is unfinished, or answers what it finishes. -/
theorem runLine_runOn {number : Nat} {line : List Char} {outs : List String}
    (h : c.desk.sheet.settings.AnswersAll c.desk.reporter.verbose fuel
      (finished pending number line).toList outs) :
    ∃ c', (runLine fuel none none (String.ofList (Text.trim line))).runOn c = some (.ok (), c') ∧
      c.desk.Prints (outs.map (· ++ "\n")) c'.desk ∧
      c'.Awaits (left pending number line) := by
  have htaken : c.taken (String.ofList (Text.trim line)) = (next pending number line).text := by
    rw [Console.taken, hc.pending, String.toList_ofList,
      tidy_append_space (neat_pendingText hpending)]
    rfl
  rcases line_cases pending number line with ⟨hopen, hleft, hfinished⟩ |
    ⟨hnil, hleft, hfinished⟩ | ⟨hopen, hne, hleft, hfinished⟩
  · rw [hfinished] at h
    cases h
    rw [← htaken] at hopen
    refine ⟨_, runLine_of_unfinished hopen, .refl c.desk, hc.vacant, ?_⟩
    rw [hleft, htaken]
    exact String.toList_ofList
  · rw [hfinished] at h
    cases h
    rw [← htaken] at hnil
    refine ⟨_, runLine_of_empty hnil, .refl c.desk, hc.vacant, ?_⟩
    rw [hleft]
    rfl
  · rw [hfinished] at h
    cases h with
    | cons hout hnil =>
      cases hnil
      obtain ⟨t, ht, hanswer⟩ := hout
      have hreply : (c.desk.sheet.settings.override none none).reply c.desk.reporter.verbose fuel
          (String.ofList (next pending number line).text) = some (.ok _) :=
        (Settings.reply_of_parse ht _ _ _).trans hanswer
      rw [← htaken] at hopen hne hreply ht
      rw [runLine_of_finished hc.vacant hopen hne, hreply, Settings.replyTrace_of_parse ht, hleft]
      refine ⟨_, rfl, c.desk.prints_result c.desk.sheet.settings fuel t _, ?_, rfl⟩
      exact ⟨hc.vacant.idle, hc.vacant.clear, hc.vacant.forgiving⟩

/-- A line of a source is answered as a line of a term is, or there is nothing on it. -/
theorem respond_line {number : Nat} {line : List Char} {rest : List (List Char)}
    {outs : List String}
    (hread : ∀ x ∈ gather pending number (line :: rest),
      ∃ t, Term.parse (String.ofList x.text) = .ok t)
    (h : c.desk.sheet.settings.AnswersAll c.desk.reporter.verbose fuel
      (finished pending number line).toList outs) :
    ∃ c', (respond fuel (String.ofList line)).runOn c = some (.ok false, c') ∧
      c.desk.Prints (outs.map (· ++ "\n")) c'.desk ∧
      c'.Awaits (left pending number line) := by
  rcases ofLine_of_gather hpending hread with hblank | hterm
  · obtain ⟨hfinished, hleft⟩ := left_of_tidy_eq_nil hpending number (tidy_eq_nil hblank)
    rw [hfinished] at h
    cases h
    rw [respond, Command.ofLine_eq_nothing hblank, perform]
    exact ⟨c, rfl, .refl c.desk, hc.vacant, hc.pending.trans hleft.symm⟩
  · obtain ⟨c', hrun, hprints, hc'⟩ := runLine_runOn hpending hc h
    refine ⟨c', ?_, hprints, hc'⟩
    rw [respond, hterm, perform, Act.runOn_bind_ok hrun, Act.runOn_pure]

/-- The prompt answers lines one by one as their statements are answered, and in the end
nothing is pending. -/
theorem respond_lines {number : Nat} {lines : List (List Char)} {outs : List String}
    (h : c.desk.sheet.settings.AnswersAll c.desk.reporter.verbose fuel
      (gather pending number lines) outs) :
    ∃ c', ((lines.map String.ofList).mapM (respond fuel)).runOn c
        = some (.ok (List.replicate lines.length false), c') ∧
      c.desk.Prints (outs.map (· ++ "\n")) c'.desk ∧ c'.Awaits none := by
  induction lines generalizing pending c number outs with
  | nil =>
    cases pending with
    | none =>
      cases h
      exact ⟨c, rfl, .refl c.desk, hc⟩
    | some d =>
      cases h with
      | cons hd _ =>
        -- what can be read has no parenthesis left open
        obtain ⟨t, ht, -⟩ := hd
        have hcount := Term.count_of_parse ht
        have hopen := of_decide_eq_true (hpending d rfl).unfinished
        rw [String.toList_ofList] at hcount
        omega
  | cons line rest ih =>
    obtain ⟨first, last, rfl, hfinished, hrest⟩ := Settings.AnswersAll.exists_append h
    have hread := stop_readAll_eq_none_iff.mp (Settings.answersAll_iff.mp h).1
    obtain ⟨c₁, hrun, hprints, hc₁⟩ := respond_line hpending hc hread hfinished
    rw [← hprints.sheet, ← hprints.verbose] at hrest
    obtain ⟨c₂, hrun', hprints', hc₂⟩ := ih (open_left hpending number line) hc₁ hrest
    refine ⟨c₂, ?_, ?_, hc₂⟩
    · rw [List.map_cons, List.mapM_cons, Act.runOn_bind_ok hrun, Act.runOn_bind_ok hrun',
        Act.runOn_pure]
      rfl
    · rw [List.map_append]
      exact hprints.trans hprints'

end

/-- **Source and prompt agree.**  If a source is opened and run to its end, then its lines typed
at a fresh prompt in the same settings print the results that it leaves, each with a line end,
in the same order and with nothing else among the results; without traces they are all that is
printed.  No line ends the dialogue, and none is left unfinished. -/
theorem prompt_prints_results_of_source {path modeName : String} {prove numerals : Bool}
    {content : List UInt8} {text : List Char} {reporter : Reporter} {done : Desk}
    (htext : Text.decodeUtf8 content = .ok text)
    (hdone : (do
      Work.openSheet path modeName prove numerals false (.bytes content)
      Work.run fuel).runOn (Desk.fresh reporter) = some (.ok (), done))
    (source : Work.Source) :
    ∃ c, (do
        atDesk (Work.openSheet promptPath modeName prove numerals true source)
        ((Text.lines text).map String.ofList).mapM (respond fuel)).runOn
          (Console.start (Desk.fresh reporter))
        = some (.ok (List.replicate (Text.lines text).length false), c) ∧
      c.pending = "" ∧
      (c.desk.printed.filter fun p => p.1 = .results)
        = done.sheet.results.map (fun result => (.results, result ++ "\n")) ∧
      (reporter.verbose = false →
        c.desk.printed = done.sheet.results.map fun result => (.results, result ++ "\n")) := by
  obtain ⟨mode, hmode, hanswers⟩ := Work.exists_answers_of_source htext hdone
  have hopen := Work.openSheet_prompt hmode prove numerals source (Desk.fresh reporter)
  let d := (Desk.fresh reporter).opened promptPath ⟨mode, prove, numerals⟩ true
  have hc : (Console.start d).Awaits none :=
    ⟨⟨⟨rfl, rfl, rfl⟩, Desk.clear_opened _ _ _ _, Bool.and_false _⟩, rfl⟩
  rw [Draft.assemble_eq_gather] at hanswers
  obtain ⟨c, hrun, ⟨more, hmore, hfilter, hquiet⟩, hawaits⟩ :=
    @respond_lines fuel none (by rintro x ⟨⟩) _ hc 1 (Text.lines text) done.sheet.results hanswers
  have hprinted : c.desk.printed = more := congrArg Desk.printed hmore
  rw [List.map_map] at hfilter hquiet
  refine ⟨c, ?_, String.toList_eq_nil_iff.mp hawaits.pending, ?_, fun h => ?_⟩
  · rw [Act.runOn_bind_ok (atDesk_runOn hopen)]
    exact hrun
  · rw [hprinted]
    exact hfilter
  · rw [hprinted]
    exact hquiet h

/-- One statement is broken over three lines, with a comment and a blank line in it. -/
theorem prompt_prints_results_of_source_broken :
    ∃ done c,
      (do
        Work.openSheet "notes" "normalize" true false false
          (.bytes "(λx.0 ;; id\n\n 7)\n;; 2\n(1 (λx.0 2))\n".toUTF8.toList)
        Work.run 9).runOn (Desk.fresh ⟨true, false, .plain, .none, []⟩) = some (.ok (), done) ∧
      (do
        atDesk (Work.openSheet promptPath "normalize" true false true .unreadable)
        ["(λx.0 ;; id", "", " 7)", ";; 2", "(1 (λx.0 2))"].mapM (respond 9)).runOn
          (Console.start (Desk.fresh ⟨true, false, .plain, .none, []⟩))
        = some (.ok [false, false, false, false, false], c) ∧
      c.desk.printed = done.sheet.results.map (fun result => (.results, result ++ "\n")) ∧
      done.sheet.results
        = ["7\n  normalization: (λx.0 7) →* 7 (1 steps)",
          "(1 2)\n  normalization: (1 (λx.0 2)) →* (1 2) (1 steps)"] := by
  have htext : Text.decodeUtf8 "(λx.0 ;; id\n\n 7)\n;; 2\n(1 (λx.0 2))\n".toUTF8.toList
      = .ok "(λx.0 ;; id\n\n 7)\n;; 2\n(1 (λx.0 2))\n".toList := by
    decide +kernel
  have hlines : (Text.lines "(λx.0 ;; id\n\n 7)\n;; 2\n(1 (λx.0 2))\n".toList).map String.ofList
      = ["(λx.0 ;; id", "", " 7)", ";; 2", "(1 (λx.0 2))"] := by
    decide +kernel
  have hsource : ((do
        Work.openSheet "notes" "normalize" true false false
          (.bytes "(λx.0 ;; id\n\n 7)\n;; 2\n(1 (λx.0 2))\n".toUTF8.toList)
        Work.run 9 : Work Unit).runOn (Desk.fresh ⟨true, false, .plain, .none, []⟩)).map
          (fun p => (p.1.isOk, p.2.sheet.results))
      = some (true, ["7\n  normalization: (λx.0 7) →* 7 (1 steps)",
          "(1 2)\n  normalization: (1 (λx.0 2)) →* (1 2) (1 steps)"]) := by
    decide +kernel
  obtain ⟨⟨r, done⟩, hdone, hpair⟩ := Option.map_eq_some_iff.mp hsource
  obtain ⟨hok, hresults⟩ := Prod.mk.inj hpair
  cases r with
  | error signal => cases hok
  | ok _ =>
    obtain ⟨c, hrun, -, -, hprinted⟩ :=
      prompt_prints_results_of_source htext hdone .unreadable
    rw [hlines] at hrun
    exact ⟨done, c, hdone, hrun, hprinted rfl, hresults⟩

end Dialogue

end Nameless
