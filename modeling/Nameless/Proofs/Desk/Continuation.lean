/-
Nameless/Proofs/Desk/Continuation.lean

Statements that go on over several lines at the prompt.

A statement may be cut where parentheses are open.  The prompt keeps the text of the first
line and joins the later ones to it, so in the end it runs the same term; but it does not keep
the mode or the proving that the first line asked for.  Whatever the first line begins with,
the last one runs the statement in the settings of the dialogue (`printedBy_pieces`).  So a
plain statement may be cut, and one after the name of a command only if running its term in
both settings comes to the same (`printedBy_continued`).
-/
import Nameless.Proofs.Desk.Agreement
import Nameless.Proofs.Desk.Layout
import Nameless.Proofs.Desk.Session

namespace Nameless

/-! ### Lines that begin with the name of a command -/

namespace Command

open Text (Blanks Trimmed trim isBlank)

theorem mem_all (v : Verb) : v ∈ Verb.all := by
  cases v with
  | run mode => cases mode <;> decide
  | _ => decide

theorem all_name : ∀ v ∈ Verb.all, v.name.toList ≠ [] ∧ Verb.ofName? v.name = some v ∧
    (v.name.toList.all fun c => isNameChar c && !isBlank c && c ≠ '?') = true := by
  decide

theorem name_chars (v : Verb) :
    ∀ c ∈ v.name.toList, isNameChar c = true ∧ isBlank c = false ∧ c ≠ '?' := by
  intro c hc
  have hall := List.all_eq_true.mp (all_name v (mem_all v)).2.2 c hc
  simpa [and_assoc] using hall

theorem trimmed_name (v : Verb) : Trimmed v.name.toList where
  head c hc := (name_chars v c (List.mem_of_mem_head? hc)).2.1
  last c hc := (name_chars v c (List.mem_of_getLast? hc)).2.1

/-- Trimming a name and a text after it leaves the name, and the text up to blanks around it. -/
theorem exists_trim_name (v : Verb) (text : List Char) :
    ∃ rest, trim (v.name.toList ++ ' ' :: text) = v.name.toList ++ rest ∧
      (∀ c ∈ rest.head?, isNameChar c = false) ∧ trim rest = trim text := by
  obtain ⟨hne, -, -⟩ := all_name v (mem_all v)
  obtain ⟨before, after, hbefore, hafter, htext⟩ := Text.exists_trim text
  have hspace : Blanks (' ' :: before) := List.forall_mem_cons.mpr ⟨by decide, hbefore⟩
  cases htrim : trim text with
  | nil =>
    refine ⟨[], ?_, nofun, rfl⟩
    rw [htrim, List.nil_append] at htext
    rw [htext, List.append_nil, ← List.cons_append,
      Text.trim_append_right (List.forall_mem_append.mpr ⟨hspace, hafter⟩),
      Text.trim_of_trimmed (trimmed_name v)]
  | cons c w =>
    rw [htrim] at htext
    have hlast := (Text.trimmed_trim text).last
    rw [htrim] at hlast
    refine ⟨' ' :: before ++ (c :: w), ?_, ?_, ?_⟩
    · have htrimmed : Trimmed (v.name.toList ++ (' ' :: before ++ (c :: w))) := by
        constructor
        · rw [List.head?_append_of_ne_nil _ hne]
          exact (trimmed_name v).head
        · rw [← List.append_assoc, List.getLast?_append_of_ne_nil _ (List.cons_ne_nil c w)]
          exact hlast
      have hline := @Text.trim_eq_of_trimmed [] _ after nofun htrimmed hafter
      rw [← hline, htext]
      simp
    · rintro b ⟨⟩
      decide
    · have hrest := @Text.trim_eq_of_trimmed (' ' :: before) (c :: w) [] hspace
        (htrim ▸ Text.trimmed_trim text) nofun
      rwa [List.append_nil] at hrest

/-- A name with a space after it begins the command with that name. -/
theorem ofLine_name (v : Verb) (text : List Char) :
    ofLine (v.name ++ " " ++ String.ofList text) = .verb v (String.ofList (trim text)) := by
  obtain ⟨hne, hofName, -⟩ := all_name v (mem_all v)
  obtain ⟨rest, htrim, hrest, htext⟩ := exists_trim_name v text
  have hline : trim (v.name ++ " " ++ String.ofList text).toList = v.name.toList ++ rest := by
    rw [← htrim]
    simp only [String.toList_append, String.toList_ofList, List.append_assoc]
    rfl
  have hchars : ∀ c ∈ v.name.toList, isNameChar c = true := fun c hc => (name_chars v c hc).1
  have hstop : rest.takeWhile isNameChar = [] ∧ rest.dropWhile isNameChar = rest := by
    cases rest with
    | nil => exact ⟨rfl, rfl⟩
    | cons c rest =>
      have hc := Bool.eq_false_iff.mp (hrest c rfl)
      exact ⟨List.takeWhile_cons_of_neg hc, List.dropWhile_cons_of_neg hc⟩
  have htrimmed : ofTrimmed (v.name.toList ++ rest) = .verb v (String.ofList (trim text)) := by
    rw [ofTrimmed, List.takeWhile_append_of_pos hchars, List.dropWhile_append_of_pos hchars,
      hstop.1, hstop.2, List.append_nil, String.ofList_toList, hofName, htext]
  rw [ofLine, hline]
  cases hcons : v.name.toList with
  | nil => exact absurd hcons hne
  | cons n ns =>
    have hmark : n ≠ '?' := (name_chars v n (hcons ▸ List.mem_cons_self)).2.2
    rw [hcons, List.cons_append] at htrimmed
    rw [List.cons_append]
    split
    · next h => cases h
    · next h => exact absurd (List.cons.inj h).1 hmark
    · exact htrimmed

/-- A word of a text that can be read begins no command. -/
theorem ofLine_of_parse {t : Term} {before piece after : List Char}
    (ht : Term.parse (String.ofList (before ++ (piece ++ after))) = .ok t)
    (hbefore : ∀ b ∈ before.getLast?, isBlank b = true) :
    trim piece = [] ∨
      ofLine (String.ofList piece) = .term (String.ofList (trim piece)) := by
  obtain ⟨blanks, blanks', hblanks, -, hpiece⟩ := Text.exists_trim piece
  cases htrim : trim piece with
  | nil => exact .inl rfl
  | cons c w =>
    refine .inr (ofLine_eq_term (by rw [String.toList_ofList, htrim]) ?_)
    rw [htrim] at hpiece
    have hfirst : isBlank c = false := (Text.trimmed_trim piece).head c (by rw [htrim]; rfl)
    have htext : (String.ofList (before ++ (piece ++ after))).toList
        = (before ++ blanks) ++ c :: (w ++ (blanks' ++ after)) := by
      rw [String.toList_ofList, hpiece]
      simp
    have hbefore' : ∀ b ∈ (before ++ blanks).getLast?, isBlank b = true := by
      rcases eq_or_ne blanks [] with rfl | hne
      · rwa [List.append_nil]
      · rw [List.getLast?_append_of_ne_nil _ hne]
        exact fun b hb => hblanks b (List.mem_of_getLast? hb)
    obtain ⟨kind, hkind⟩ := Term.exists_kind_of_parse ht htext hbefore' hfirst
    rw [beginsTerm, hkind, Option.isSome_some, Bool.or_true]

end Command

/-- How a statement is entered: as it is, or after the name of a mode or of proving. -/
inductive Entry where
  | plain
  | run (mode : Mode)
  | prove

namespace Entry

/-- The line that a text is entered with. -/
def line : Entry → List Char → String
  | plain, text => String.ofList text
  | run mode, text => (Verb.run mode).name ++ " " ++ String.ofList text
  | prove, text => Verb.prove.name ++ " " ++ String.ofList text

/-- The mode that is asked for. -/
def mode? : Entry → Option Mode
  | run mode => some mode
  | _ => none

/-- The proving that is asked for. -/
def prove? : Entry → Option Bool
  | prove => some true
  | _ => none

/-- The settings that are asked for. -/
def settings (w : Entry) (s : Settings) : Settings :=
  s.override w.mode? w.prove?

theorem statement?_line (w : Entry) {text : List Char}
    (htext : Command.ofLine (String.ofList text) = .term (String.ofList (Text.trim text))) :
    (Command.ofLine (w.line text)).statement?
      = some (w.mode?, w.prove?, String.ofList (Text.trim text)) := by
  cases w with
  | plain =>
    rw [line, htext]
    rfl
  | run mode =>
    rw [line, Command.ofLine_name]
    rfl
  | prove =>
    rw [line, Command.ofLine_name]
    rfl

end Entry

/-! ### What lines print -/

/-- What has been printed at a desk when a term has been run: the trace, and the result or the
report of a fault on the line with the text and the number. -/
def Desk.told (d : Desk) (s : Settings) (fuel : Nat) (t : Term) (text : String) (number : Nat) :
    Option (List (Channel × String)) :=
  (s.answer d.reporter.verbose fuel t).map fun r =>
    d.printed ++ (s.trace d.reporter fuel t
      ++ [(d.reporter.enterLine d.sheet.path text number).closing r])

theorem Settings.trace_of_answer {s : Settings} {r : Reporter} {fuel : Nat} {t : Term}
    (h : s.answer r.verbose fuel t = none) : s.trace r fuel t = [] := by
  rw [trace, h]
  rfl

theorem Desk.told_of_quiet {d : Desk} {s : Settings} {fuel : Nat} {t : Term} {out : String}
    (hquiet : d.reporter.verbose = false) (h : s.answer false fuel t = some (.ok out))
    {text : String} {number : Nat} :
    d.told s fuel t text number = some (d.printed ++ [(.results, out ++ "\n")]) := by
  rw [told, hquiet, h, Settings.trace_of_quiet hquiet]
  rfl

/-- Unless a fault is met, what is printed tells trace and result. -/
theorem Desk.told_eq_iff {d : Desk} {s s' : Settings} {fuel : Nat} {t : Term}
    (h : ∀ f, s.answer d.reporter.verbose fuel t ≠ some (.error f))
    (h' : ∀ f, s'.answer d.reporter.verbose fuel t ≠ some (.error f))
    (text text' : String) (number number' : Nat) :
    d.told s fuel t text number = d.told s' fuel t text' number' ↔
      s.answer d.reporter.verbose fuel t = s'.answer d.reporter.verbose fuel t ∧
        s.trace d.reporter fuel t = s'.trace d.reporter fuel t := by
  rw [told, told]
  cases hanswer : s.answer d.reporter.verbose fuel t with
  | none =>
    cases hanswer' : s'.answer d.reporter.verbose fuel t with
    | none =>
      rw [Settings.trace_of_answer hanswer, Settings.trace_of_answer hanswer']
      exact ⟨fun _ => ⟨rfl, rfl⟩, fun _ => rfl⟩
    | some r => exact ⟨nofun, fun h => nomatch h.1⟩
  | some r =>
    cases hanswer' : s'.answer d.reporter.verbose fuel t with
    | none => exact ⟨nofun, fun h => nomatch h.1⟩
    | some r' =>
      cases r with
      | error f => exact absurd hanswer (h f)
      | ok out =>
        cases r' with
        | error f => exact absurd hanswer' (h' f)
        | ok out' =>
          rw [Option.map_some, Option.map_some, Option.some.injEq, Option.some.injEq,
            Except.ok.injEq, List.append_right_inj]
          constructor
          · intro htold
            obtain ⟨htrace, hlast⟩ := List.append_inj' htold rfl
            have hout : out ++ "\n" = out' ++ "\n" :=
              congrArg Prod.snd (List.singleton_inj.mp hlast)
            exact ⟨String.append_left_inj _ |>.mp hout, htrace⟩
          · rintro ⟨rfl, htrace⟩
            rw [htrace]
            rfl

namespace Dialogue

open Draft

variable {fuel : Nat} {settings : Settings} {c : Console}

/-- What has been printed when lines have been carried out, one after the other up to the first
that is stopped. -/
def printedBy (fuel : Nat) (lines : List String) (c : Console) :
    Option (List (Channel × String)) :=
  ((lines.mapM (respond fuel)).runOn c).map fun p => p.2.desk.printed

theorem printedBy_cons {line : String} {b : Bool} {c' : Console}
    (h : (respond fuel line).runOn c = some (.ok b, c')) (lines : List String) :
    printedBy fuel (line :: lines) c = printedBy fuel lines c' := by
  rw [printedBy, List.mapM_cons, Act.runOn_bind_ok h,
    Act.runOn_bind_pure ((lines.mapM (respond fuel))) (b :: ·), Option.map_map]
  rfl

theorem printedBy_singleton (line : String) :
    printedBy fuel [line] c = ((respond fuel line).runOn c).map fun p => p.2.desk.printed := by
  rw [printedBy, List.mapM_cons, List.mapM_nil]
  simp only [pure_bind]
  rw [Act.runOn_bind_pure _ ([·]), Option.map_map]
  rfl

/-- A line of a term is carried out by taking it up. -/
theorem respond_of_statement? {line text : String} {mode? : Option Mode} {prove? : Option Bool}
    (h : (Command.ofLine line).statement? = some (mode?, prove?, text)) :
    (respond fuel line).runOn c
      = ((runLine fuel mode? prove? text).runOn c).map fun (r, c') =>
          (r.map fun _ => false, c') := by
  rw [respond, perform_of_statement? h, Act.runOn_bind_pure _ fun _ => false]

/-- What a line makes of the text that is kept. -/
theorem taken_trim (hc : c.Settled settings) (piece : List Char) :
    c.taken (String.ofList (Text.trim piece)) = joined c.pending.toList (tidy piece) := by
  rw [Console.taken, String.toList_ofList, tidy_append_space hc.neat]

section

variable (hc : c.Settled settings) {piece : List Char}
include hc

theorem respond_keeps (w : Entry)
    (hpiece : Command.ofLine (String.ofList piece) = .term (String.ofList (Text.trim piece)))
    (h : unfinished (joined c.pending.toList (tidy piece)) = true) :
    (respond fuel (w.line piece)).runOn c
      = some (.ok false, c.keeping (joined c.pending.toList (tidy piece))) := by
  rw [← taken_trim hc] at h ⊢
  rw [respond_of_statement? (w.statement?_line hpiece), runLine_of_unfinished h]
  rfl

/-- A line that finishes a statement prints what running it in the settings asked for prints.
Only the place of a fault depends on the line. -/
theorem respond_prints (w : Entry) {t : Term}
    (hpiece : Command.ofLine (String.ofList piece) = .term (String.ofList (Text.trim piece)))
    (h : unfinished (joined c.pending.toList (tidy piece)) = false)
    (ht : Term.parse (String.ofList (joined c.pending.toList (tidy piece))) = .ok t) :
    ∃ text, ((respond fuel (w.line piece)).runOn c).map (fun p => p.2.desk.printed)
      = c.desk.told (w.settings settings) fuel t text (c.lineNumber + 1) := by
  have hne : joined c.pending.toList (tidy piece) ≠ [] := fun hnil => by
    rw [hnil] at ht
    exact Term.parse_nil_ne_ok ht
  rw [← taken_trim hc] at h ht hne
  rw [respond_of_statement? (w.statement?_line hpiece), runLine_of_finished hc.ready.vacant h hne,
    Settings.reply_of_parse ht, Settings.replyTrace_of_parse ht, hc.settings]
  simp only [hc.ready.replied_eq]
  rw [Option.map_map, Option.map_map]
  exact ⟨_, rfl⟩

/-- A plain line that goes on with what is unfinished, and leaves it so. -/
theorem respond_of_unfinished
    (hpiece : Text.trim piece = [] ∨
      Command.ofLine (String.ofList piece) = .term (String.ofList (Text.trim piece)))
    (h : unfinished (joined c.pending.toList (tidy piece)) = true) :
    ∃ c', (respond fuel (String.ofList piece)).runOn c = some (.ok false, c') ∧
      c'.Settled settings ∧ c'.pending.toList = joined c.pending.toList (tidy piece) ∧
      c'.desk = c.desk ∧ c.lineNumber ≤ c'.lineNumber := by
  rcases hpiece with hblank | hterm
  · refine ⟨c, ?_, hc, ?_, rfl, le_rfl⟩
    · rw [respond, Command.ofLine_eq_nothing hblank, perform]
      rfl
    · rw [tidy_eq_nil hblank, joined_nil]
  · exact ⟨_, respond_keeps hc .plain hterm h, hc.keeping (hc.neat.joined (neat_tidy piece)) h,
      String.toList_ofList, rfl, Nat.le_succ _⟩

end

/-- Plain lines that go on with what is unfinished, up to its end, print what running the whole
in the settings of the dialogue prints. -/
theorem printedBy_pieces (hc : c.Settled settings) {text : List Char}
    {pieces : List (List Char)} {t : Term} (htext : Rejoins text c.pending.toList)
    (hopen : unfinished text = true) (hcuts : OpenCuts text pieces)
    (ht : Term.parse (String.ofList (spaced text pieces)) = .ok t) :
    ∃ line number, c.lineNumber < number ∧
      printedBy fuel (pieces.map String.ofList) c = c.desk.told settings fuel t line number := by
  have hclosed : unfinished (spaced text pieces) = false := unfinished_of_parse ht
  induction pieces generalizing c text with
  | nil =>
    rw [spaced, List.flatMap_nil, List.append_nil] at hclosed
    exact absurd (hopen.symm.trans hclosed) (by decide)
  | cons piece pieces ih =>
    have hword : Text.trim piece = [] ∨
        Command.ofLine (String.ofList piece) = .term (String.ofList (Text.trim piece)) := by
      have hspaced : spaced text (piece :: pieces)
          = (text ++ [' ']) ++ (piece ++ pieces.flatMap (' ' :: ·)) := by
        simp [spaced]
      refine Command.ofLine_of_parse (hspaced ▸ ht) fun b hb => ?_
      rw [List.getLast?_concat] at hb
      cases hb
      decide
    have hsemicolon := (semicolon_not_mem_of_spaced ht).2 piece List.mem_cons_self
    have hnext := htext.next (bears_self piece) hsemicolon
    rw [spaced_cons] at ht hclosed
    cases hopen' : unfinished (text ++ ' ' :: piece) with
    | true =>
      obtain ⟨c', hrun, hc', hpending, hdesk, hle⟩ := @respond_of_unfinished fuel settings c hc
        piece hword (hnext.unfinished_eq.trans hopen')
      obtain ⟨line, number, hlt, hprinted⟩ := ih hc' (hpending ▸ hnext) hopen' hcuts.2 ht hclosed
      refine ⟨line, number, hle.trans_lt hlt, ?_⟩
      rw [List.map_cons, printedBy_cons hrun, hprinted, hdesk]
    | false =>
      -- no cut is left where parentheses are open, so this was the last piece
      cases pieces with
      | cons => exact absurd (hcuts.2.1.symm.trans hopen') (by decide)
      | nil =>
        rw [spaced, List.flatMap_nil, List.append_nil] at ht
        have hclosed' := hnext.unfinished_eq.trans hopen'
        have hterm := hword.resolve_left fun hblank => by
          rw [tidy_eq_nil hblank, joined_nil, htext.unfinished_eq, hopen] at hclosed'
          cases hclosed'
        obtain ⟨line, hprinted⟩ :=
          @respond_prints fuel settings c hc piece .plain t hterm hclosed' (hnext.parse ht)
        refine ⟨line, c.lineNumber + 1, Nat.lt_succ_self _, ?_⟩
        rw [List.map_cons, List.map_nil, printedBy_singleton]
        exact hprinted

section

variable (hc : c.Settled settings) (hpending : c.pending = "") {piece : List Char}
  {pieces : List (List Char)} {t : Term}
  (ht : Term.parse (String.ofList (spaced piece pieces)) = .ok t)
include hc hpending ht

/-- However it is entered, a statement that goes on over several lines is run in the settings of
the dialogue. -/
theorem printedBy_cut (hcuts : OpenCuts piece pieces) (hpieces : pieces ≠ []) (w : Entry) :
    ∃ line number, c.lineNumber + 1 < number ∧
      printedBy fuel (w.line piece :: pieces.map String.ofList) c
        = c.desk.told settings fuel t line number := by
  have hopen : unfinished piece = true := by
    cases pieces with
    | nil => exact absurd rfl hpieces
    | cons => exact hcuts.1
  have hfirst : Rejoins piece (tidy piece) :=
    .first (bears_self piece) (semicolon_not_mem_of_spaced ht).1
  have hkept : joined c.pending.toList (tidy piece) = tidy piece := by
    rw [hpending]
    rfl
  have hterm := (@Command.ofLine_of_parse t [] piece _ ht nofun).resolve_left fun hblank => by
    have hopen' := hfirst.unfinished_eq.trans hopen
    rw [tidy_eq_nil hblank] at hopen'
    cases hopen'
  have hrun := @respond_keeps fuel settings c hc piece w hterm
    (by rw [hkept, hfirst.unfinished_eq, hopen])
  rw [hkept] at hrun
  rw [printedBy_cons hrun]
  have hc' := hc.keeping (neat_tidy piece) (hfirst.unfinished_eq.trans hopen)
  refine @printedBy_pieces fuel settings _ hc' piece pieces t ?_ hopen hcuts ht
  rw [Console.keeping, String.toList_ofList]
  exact hfirst

/-- On one line it is run in the settings that it asks for. -/
theorem printedBy_whole (w : Entry) :
    ∃ line, printedBy fuel [w.line (spaced piece pieces)] c
      = c.desk.told (w.settings settings) fuel t line (c.lineNumber + 1) := by
  have hsemicolon : ';' ∉ spaced piece pieces := by
    simpa using Term.semicolon_not_mem_of_parse ht
  have hwhole : Rejoins (spaced piece pieces) (tidy (spaced piece pieces)) :=
    .first (bears_self _) hsemicolon
  have htaken : joined c.pending.toList (tidy (spaced piece pieces))
      = tidy (spaced piece pieces) := by
    rw [hpending]
    rfl
  have hparse := hwhole.parse ht
  have hterm := (@Command.ofLine_of_parse t [] (spaced piece pieces) []
    (by rwa [List.append_nil]) nofun).resolve_left fun hblank => by
      rw [tidy_eq_nil hblank] at hparse
      exact Term.parse_nil_ne_ok hparse
  rw [printedBy_singleton]
  refine respond_prints hc w hterm ?_ ?_
  · rw [htaken, hwhole.unfinished_eq, unfinished_of_parse ht]
  · rw [htaken, hparse]

end

/-- **What continuation keeps.**  At any point of a dialogue at which nothing is unfinished, let a
text that can be read be cut at spaces where parentheses are open, and its first piece be entered
in any way, the others as they are.  Then the term of the whole text is run in the settings of the
dialogue, and what the first line asked for is forgotten; on one line the text is run in the
settings that it asks for.  So both ways print the same exactly if the term has the same trace and
the same result in both settings, unless an index cannot be written out, which is then reported
for a later line. -/
theorem printedBy_continued (h : Session settings c) (hpending : c.pending = "")
    {piece : List Char} {pieces : List (List Char)} {t : Term}
    (ht : Term.parse (String.ofList (spaced piece pieces)) = .ok t)
    (hcuts : OpenCuts piece pieces) (hpieces : pieces ≠ []) (w : Entry) (fuel : Nat) :
    (∃ line number, c.lineNumber + 1 < number ∧
      printedBy fuel (w.line piece :: pieces.map String.ofList) c
        = c.desk.told settings fuel t line number) ∧
    (∃ line, printedBy fuel [w.line (spaced piece pieces)] c
      = c.desk.told (w.settings settings) fuel t line (c.lineNumber + 1)) ∧
    ((∀ f, settings.answer c.desk.reporter.verbose fuel t ≠ some (.error f)) →
      (∀ f, (w.settings settings).answer c.desk.reporter.verbose fuel t ≠ some (.error f)) →
      (printedBy fuel (w.line piece :: pieces.map String.ofList) c
          = printedBy fuel [w.line (spaced piece pieces)] c ↔
        settings.answer c.desk.reporter.verbose fuel t
            = (w.settings settings).answer c.desk.reporter.verbose fuel t ∧
          settings.trace c.desk.reporter fuel t
            = (w.settings settings).trace c.desk.reporter fuel t)) := by
  have hc := settled_of_session h
  have hcut := @printedBy_cut fuel settings c hc hpending piece pieces t ht hcuts hpieces w
  have hwhole := @printedBy_whole fuel settings c hc hpending piece pieces t ht w
  refine ⟨hcut, hwhole, fun hfault hfault' => ?_⟩
  obtain ⟨line, number, -, hcut⟩ := hcut
  obtain ⟨line', hwhole⟩ := hwhole
  rw [hcut, hwhole]
  exact Desk.told_eq_iff hfault hfault' line line' number (c.lineNumber + 1)

/-- One reduction step is asked for, but over two lines the term is normalized. -/
theorem printedBy_continued_reduce :
    ∃ d, (Work.openSheet promptPath "normalize" false false true .unreadable).runOn
        (Desk.fresh ⟨true, false, .plain, .none, []⟩) = some (.ok (), d) ∧
      printedBy 9 ["reduce ((λx.λx.1", "0) 1)"] (Console.start d) = some [(.results, "0\n")] ∧
      printedBy 9 ["reduce ((λx.λx.1 0) 1)"] (Console.start d)
        = some [(.results, "(λx.1 1)\n")] := by
  have hmode : Mode.ofName? "normalize" = some .normalize := by decide
  have hopen := Work.openSheet_prompt hmode false false .unreadable
    (Desk.fresh ⟨true, false, .plain, .none, []⟩)
  let d := (Desk.fresh ⟨true, false, .plain, .none, []⟩).opened promptPath
    ⟨.normalize, false, false⟩ true
  have hsession : Session ⟨.normalize, false, false⟩ (Console.start d) :=
    .start (by exact nofun) hmode hopen
  have ht : Term.parse (String.ofList (spaced "((λx.λx.1".toList ["0) 1)".toList]))
      = .ok (.app (.app (.lam (.lam (.var 1))) (.var 0)) (.var 1)) := by
    decide +kernel
  have hcuts : OpenCuts "((λx.λx.1".toList ["0) 1)".toList] := ⟨by decide, trivial⟩
  have hcut : (Settings.mk .normalize false false).answer false 9
      (.app (.app (.lam (.lam (.var 1))) (.var 0)) (.var 1)) = some (.ok "0") :=
    Settings.answer_eq_of_text (by decide +kernel)
  have hwhole : (Settings.mk .reduce false false).answer false 9
      (.app (.app (.lam (.lam (.var 1))) (.var 0)) (.var 1)) = some (.ok "(λx.1 1)") :=
    Settings.answer_eq_of_text (by decide +kernel)
  obtain ⟨⟨line, number, -, hlines⟩, ⟨line', hline⟩, -⟩ :=
    printedBy_continued hsession rfl ht hcuts (List.cons_ne_nil _ _) (.run .reduce) 9
  have hspaced : (Entry.run .reduce).line (spaced "((λx.λx.1".toList ["0) 1)".toList])
      = "reduce ((λx.λx.1 0) 1)" := by
    decide +kernel
  rw [hspaced] at hline
  exact ⟨d, hopen, hlines.trans (Desk.told_of_quiet rfl hcut),
    hline.trans (Desk.told_of_quiet rfl hwhole)⟩

end Dialogue

end Nameless
