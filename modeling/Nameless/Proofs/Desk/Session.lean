/-
Nameless/Proofs/Desk/Session.lean

Whole dialogues.

`Console.Turn` says what a command can do at a prompt, and `turn_perform` that it does one of
these things.  What is true of every dialogue follows from that.

Between two lines the prompt is settled (`Console.Settled`): nothing waits, the settings are
those that the dialogue began with, and a text is kept exactly if the second prompt is shown.
A turn preserves this, whether it ends well or is stopped by a fault (`Settled.turn`).  So it
holds after each line of a dialogue (`prompt_settled`), by induction on the lines.
-/
import Nameless.Proofs.Desk.Prompt

namespace Nameless

/-! ### What a command can do -/

namespace Command

/-- The line of a term that a command takes up, with the mode and the proving that it asks for. -/
def statement? : Command → Option (Option Mode × Option Bool × String)
  | .term text => some (none, none, text)
  | .verb (.run mode) argument => some (some mode, none, argument)
  | .verb .prove argument => some (none, some true, argument)
  | _ => none

/-- Whether a command asks for the end of the dialogue. -/
def ends : Command → Bool
  | .verb .endOfInput _ => true
  | .verb .exit _ => true
  | _ => false

theorem ends_of_statement? {command : Command} {line : Option Mode × Option Bool × String}
    (h : command.statement? = some line) : command.ends = false := by
  cases command with
  | nothing => rfl
  | term text => rfl
  | verb v argument =>
    cases v with
    | endOfInput => cases h
    | exit => cases h
    | _ => rfl

theorem ends_iff {command : Command} :
    command.ends = true ↔ ∃ argument, command = .verb .exit argument ∨
      command = .verb .endOfInput argument := by
  constructor
  · intro h
    cases command with
    | nothing => cases h
    | term text => cases h
    | verb v argument =>
      cases v with
      | endOfInput => exact ⟨argument, .inr rfl⟩
      | exit => exact ⟨argument, .inl rfl⟩
      | _ => cases h
  · rintro ⟨argument, rfl | rfl⟩ <;> rfl

end Command

theorem Desk.exists_print (d : Desk) (channel : Channel) (text : String) :
    ∃ texts, d.print channel text = d.printAll texts := by
  by_cases h : text = ""
  · exact ⟨[], by rw [print, if_pos h, printAll_nil]⟩
  · exact ⟨[(channel, text)], d.print_eq_printAll h⟩

namespace Console

/-- The statement that a command finishes at a prompt, with the settings that it is run in. -/
def finishes (c : Console) (command : Command) : Option (Settings × String) :=
  command.statement?.bind fun (mode?, prove?, line) =>
    if Draft.unfinished (c.taken line) || (c.taken line).isEmpty then none
    else some (c.desk.sheet.settings.override mode? prove?, String.ofList (c.taken line))

/-- What a command can come to at a prompt, where `none` means that it has not ended. -/
inductive Turn (fuel : Nat) (c : Console) (command : Command) :
    Option (Except Signal Bool × Console) → Prop
  /-- A statement is finished and replied to. -/
  | replies {s : Settings} {text : String} : c.finishes command = some (s, text) →
      Turn fuel c command ((s.reply c.desk.reporter.verbose fuel text).map fun r =>
        ((Work.ending r).map fun _ => false, c.finishing.printAll
          (s.replyTrace c.desk.reporter fuel text
            ++ [(c.desk.reporter.enterLine c.desk.sheet.path text
              (c.lineNumber + 1 : Nat)).closing r])))
  /-- A term is encoded. -/
  | encodes {argument : String} : command = .verb .encode argument →
      Turn fuel c command (some ((Work.ending (Dialogue.encoding argument)).map fun _ => false,
        c.printAll [c.desk.reporter.closing (Dialogue.encoding argument)]))
  /-- A text is kept that is unfinished. -/
  | keeps {text : List Char} : c.finishes command = none →
      (∀ argument, command ≠ .verb .encode argument) →
      Draft.Neat text → Draft.unfinished text = true →
      Turn fuel c command (some (.ok command.ends, c.keeping text))
  /-- There is nothing on the line. -/
  | skips : c.finishes command = none → (∀ argument, command ≠ .verb .encode argument) →
      Turn fuel c command (some (.ok command.ends, c.finishing))
  /-- Nothing is done but to print texts. -/
  | prints (texts : List (Channel × String)) : c.finishes command = none →
      (∀ argument, command ≠ .verb .encode argument) →
      Turn fuel c command (some (.ok command.ends, c.printAll texts))

end Console

namespace Dialogue

open Console (Turn)

variable {fuel : Nat} {c : Console}

theorem perform_of_statement? {command : Command} {mode? : Option Mode} {prove? : Option Bool}
    {line : String} (h : command.statement? = some (mode?, prove?, line)) :
    perform fuel command = (do
      runLine fuel mode? prove? line
      return false) := by
  cases command with
  | nothing => cases h
  | term text =>
    cases h
    rfl
  | verb v argument =>
    cases v with
    | run mode =>
      cases h
      rfl
    | prove =>
      cases h
      rfl
    | _ => cases h

/-- A line of a term is kept, skipped or replied to. -/
theorem turn_runLine (hc : c.desk.Ready) {command : Command} {mode? : Option Mode}
    {prove? : Option Bool} {line : String}
    (h : command.statement? = some (mode?, prove?, line)) :
    Turn fuel c command ((perform fuel command).runOn c) := by
  have hends : command.ends = false := Command.ends_of_statement? h
  have hencode : ∀ argument, command ≠ .verb .encode argument := by
    rintro argument rfl
    cases h
  rw [perform_of_statement? h, Act.runOn_bind_pure _ fun _ => false]
  cases hopen : Draft.unfinished (c.taken line) with
  | true =>
    have hfinishes : c.finishes command = none := by
      rw [Console.finishes, h, Option.bind_some]
      exact if_pos (by rw [hopen, Bool.true_or])
    rw [runLine_of_unfinished hopen, ← hends]
    exact .keeps hfinishes hencode (Draft.neat_tidy _) hopen
  | false =>
    by_cases hnil : c.taken line = []
    · have hfinishes : c.finishes command = none := by
        rw [Console.finishes, h, Option.bind_some]
        exact if_pos (by rw [hnil, List.isEmpty_nil, Bool.or_true])
      rw [runLine_of_empty hnil, ← hends]
      exact .skips hfinishes hencode
    · have hempty : ¬ (c.taken line).isEmpty = true := fun h => hnil (List.isEmpty_iff.mp h)
      have hfinishes : c.finishes command
          = some (c.desk.sheet.settings.override mode? prove?, String.ofList (c.taken line)) := by
        rw [Console.finishes, h, Option.bind_some]
        exact if_neg (by rwa [hopen, Bool.false_or])
      rw [runLine_of_finished hc.vacant hopen hnil, Option.map_map]
      simp only [hc.replied_eq]
      exact .replies hfinishes

theorem turn_print (text : String) {command : Command} (hfinishes : c.finishes command = none)
    (hencode : ∀ argument, command ≠ .verb .encode argument) :
    Turn fuel c command (some (.ok command.ends, c.print text)) := by
  obtain ⟨texts, htexts⟩ := c.desk.exists_print .results text
  rw [Console.print, htexts]
  exact .prints texts hfinishes hencode

/-- A command does one of the things that it can do. -/
theorem turn_perform (hc : c.desk.Ready) (command : Command) :
    Turn fuel c command ((perform fuel command).runOn c) := by
  cases command with
  | nothing => exact turn_print "" rfl (by rintro _ ⟨⟩)
  | term text => exact turn_runLine hc rfl
  | verb v argument =>
    cases v with
    | run mode => exact turn_runLine hc rfl
    | prove => exact turn_runLine hc rfl
    | encode =>
      rw [perform, Act.runOn_bind_pure _ fun _ => false,
        atDesk_runOn (encodeLine_runOn hc argument)]
      exact .encodes rfl
    | help => exact turn_print _ rfl (by rintro _ ⟨⟩)
    | endOfInput => exact turn_print _ rfl (by rintro _ ⟨⟩)
    | exit => exact turn_print "" rfl (by rintro _ ⟨⟩)

end Dialogue

/-! ### Dialogues -/

/-- A prompt between two lines of a dialogue in some settings: the desk is ready in these
settings, and a text is kept, with parentheses open in it, if the second prompt is shown. -/
structure Console.Settled (settings : Settings) (c : Console) : Prop where
  ready : c.desk.Ready
  settings : c.desk.sheet.settings = settings
  pending : (c.pending = "" ∧ c.prompt = primaryPrompt) ∨
    (Draft.Neat c.pending.toList ∧ Draft.unfinished c.pending.toList = true ∧
      c.prompt = secondaryPrompt)

namespace Console.Settled

variable {settings : Settings} {c : Console} (hc : c.Settled settings)
include hc

theorem neat : Draft.Neat c.pending.toList := by
  rcases hc.pending with ⟨hnone, -⟩ | ⟨hneat, -⟩
  · rw [hnone]
    exact Draft.neat_nil
  · exact hneat

theorem printAll (texts : List (Channel × String)) : (c.printAll texts).Settled settings :=
  ⟨hc.ready.printAll texts, hc.settings, hc.pending⟩

theorem finishing : c.finishing.Settled settings :=
  ⟨hc.ready, hc.settings, .inl ⟨rfl, rfl⟩⟩

theorem keeping {text : List Char} (hneat : Draft.Neat text)
    (hopen : Draft.unfinished text = true) : (c.keeping text).Settled settings := by
  refine ⟨hc.ready, hc.settings, .inr ?_⟩
  rw [Console.keeping, String.toList_ofList]
  exact ⟨hneat, hopen, rfl⟩

/-- Whatever a command comes to, it leaves the prompt settled. -/
theorem turn {fuel : Nat} {command : Command} {r : Except Signal Bool} {c' : Console}
    (h : c.Turn fuel command (some (r, c'))) : c'.Settled settings := by
  generalize hrun : some (r, c') = run at h
  cases h with
  | replies =>
    obtain ⟨reply, -, hreply⟩ := Option.map_eq_some_iff.mp hrun.symm
    obtain ⟨-, rfl⟩ := Prod.mk.inj hreply
    exact hc.finishing.printAll _
  | encodes =>
    cases hrun
    exact hc.printAll _
  | keeps _ _ hneat hopen =>
    cases hrun
    exact hc.keeping hneat hopen
  | skips =>
    cases hrun
    exact hc.finishing
  | prints texts =>
    cases hrun
    exact hc.printAll texts

end Console.Settled

namespace Dialogue

open Console (primaryPrompt secondaryPrompt)

/-- The prompts of a dialogue in some settings.  It begins with an empty worksheet, opened by a
reporter that works on no line, and goes on with line after line, whatever becomes of them. -/
inductive Session (settings : Settings) : Console → Prop
  | start {reporter : Reporter} {modeName : String} {source : Work.Source} {d : Desk} :
      (∀ p ∈ reporter.traceback, p.2 = .none) → Mode.ofName? modeName = some settings.mode →
      (Work.openSheet promptPath modeName settings.prove settings.numerals true source).runOn
        (Desk.fresh reporter) = some (.ok (), d) →
      Session settings (Console.start d)
  | line {c c' : Console} {r : Except Signal Bool} {fuel : Nat} {text : String} :
      Session settings c → (respond fuel text).runOn c = some (r, c') → Session settings c'

theorem settled_start {settings : Settings} {reporter : Reporter} {modeName : String}
    {source : Work.Source} {d : Desk} (hclear : ∀ p ∈ reporter.traceback, p.2 = .none)
    (hmode : Mode.ofName? modeName = some settings.mode)
    (hopen : (Work.openSheet promptPath modeName settings.prove settings.numerals true source).runOn
      (Desk.fresh reporter) = some (.ok (), d)) :
    (Console.start d).Settled settings := by
  rw [Work.openSheet_prompt hmode] at hopen
  cases hopen
  refine ⟨⟨⟨rfl, rfl, rfl⟩, ?_, Bool.and_false _⟩, rfl, .inl ⟨rfl, rfl⟩⟩
  exact ⟨(Reporter.atRest_clearLine hclear _).clear, (Reporter.atRest_clearLine hclear _).known⟩

theorem settled_of_session {settings : Settings} {c : Console} (h : Session settings c) :
    c.Settled settings := by
  induction h with
  | start hclear hmode hopen => exact settled_start hclear hmode hopen
  | @line c c' r fuel text _ hrun ih =>
    have hturn := @turn_perform fuel c ih.ready (.ofLine text)
    rw [← respond, hrun] at hturn
    exact ih.turn hturn

/-- **The prompt between lines.**  At every point of every dialogue, also after a line that was
stopped by a fault, no statement and no result waits, mode, proving and numerals are those that
the dialogue began with, no line is being worked on and no error is fatal.  Either nothing is
unfinished and the first prompt is shown; or a text is, without comments and without blanks at
its ends, in which more parentheses are opened than closed, and the second prompt is shown. -/
theorem prompt_settled {settings : Settings} {c : Console} (h : Session settings c) :
    c.desk.sheet.queue = [] ∧ c.desk.sheet.results = [] ∧ c.desk.sheet.settings = settings ∧
      (∀ p ∈ c.desk.reporter.traceback, p.2 = .none) ∧ c.desk.reporter.fatal = false ∧
      ((c.pending = "" ∧ c.prompt = primaryPrompt) ∨
        (Text.Trimmed c.pending.toList ∧ Draft.CommentFree c.pending.toList ∧
          c.pending.toList.count ')' < c.pending.toList.count '(' ∧
          c.prompt = secondaryPrompt)) := by
  obtain ⟨⟨hidle, hrest, hforgiving⟩, hsettings, hpending⟩ := settled_of_session h
  refine ⟨hidle.queue, hidle.results, hsettings, hrest.clear, hforgiving, ?_⟩
  rcases hpending with hnone | ⟨hneat, hopen, hprompt⟩
  · exact .inl hnone
  · exact .inr ⟨hneat.trimmed, hneat.commentFree, of_decide_eq_true hopen, hprompt⟩

/-- A dialogue with an unfinished line, a fault that goes on, a syntax error, and another
unfinished line. -/
theorem prompt_settled_after_faults :
    ∃ d c₁ c₂ c₃ c₄ r₁ r₂ r₃ r₄,
      (Work.openSheet promptPath "eval" true true true .unreadable).runOn
        (Desk.fresh ⟨true, false, .plain, .none, []⟩) = some (.ok (), d) ∧
      (respond 9 " reduce ((λx.0 ;; (").runOn (Console.start d) = some (r₁, c₁) ∧
      (respond 9 "encode 18446744073709551616").runOn c₁ = some (r₂, c₂) ∧
      (respond 9 "0) 1))").runOn c₂ = some (r₃, c₃) ∧
      (respond 9 "prove (0").runOn c₃ = some (r₄, c₄) ∧
      r₂.isOk = false ∧ c₃.pending = "" ∧ c₄.pending = "(0" ∧
      c₄.desk.sheet.queue = [] ∧ c₄.desk.sheet.results = [] ∧
      c₄.desk.sheet.settings = ⟨.eval, true, true⟩ ∧
      (∀ p ∈ c₄.desk.reporter.traceback, p.2 = .none) ∧ c₄.desk.reporter.fatal = false := by
  have hrun : (((Work.openSheet promptPath "eval" true true true .unreadable).runOn
      (Desk.fresh ⟨true, false, .plain, .none, []⟩)).bind fun p₀ =>
        ((respond 9 " reduce ((λx.0 ;; (").runOn (Console.start p₀.2)).bind fun p₁ =>
          ((respond 9 "encode 18446744073709551616").runOn p₁.2).bind fun p₂ =>
            ((respond 9 "0) 1))").runOn p₂.2).bind fun p₃ =>
              ((respond 9 "prove (0").runOn p₃.2).map fun p₄ =>
                (p₀.1.isOk, p₂.1.isOk, p₃.2.pending, p₄.2.pending))
      = some (true, false, "", "(0") := by
    decide +kernel
  obtain ⟨⟨r₀, d⟩, hopen, hrun⟩ := Option.bind_eq_some_iff.mp hrun
  obtain ⟨⟨r₁, c₁⟩, h₁, hrun⟩ := Option.bind_eq_some_iff.mp hrun
  obtain ⟨⟨r₂, c₂⟩, h₂, hrun⟩ := Option.bind_eq_some_iff.mp hrun
  obtain ⟨⟨r₃, c₃⟩, h₃, hrun⟩ := Option.bind_eq_some_iff.mp hrun
  obtain ⟨⟨r₄, c₄⟩, h₄, hrun⟩ := Option.map_eq_some_iff.mp hrun
  simp only [Prod.mk.injEq] at hrun
  obtain ⟨hok, hstopped, hnone, hkept⟩ := hrun
  cases r₀ with
  | error signal => cases hok
  | ok _ =>
    have hmode : Mode.ofName? "eval" = some .eval := by decide
    have hstart : Session ⟨.eval, true, true⟩ (Console.start d) :=
      .start (by exact nofun) hmode hopen
    have hsession : Session ⟨.eval, true, true⟩ c₄ := (((hstart.line h₁).line h₂).line h₃).line h₄
    obtain ⟨hqueue, hresults, hsettings, hmarks, hforgiving, -⟩ := prompt_settled hsession
    exact ⟨d, c₁, c₂, c₃, c₄, r₁, r₂, r₃, r₄, hopen, h₁, h₂, h₃, h₄, hstopped, hnone, hkept,
      hqueue, hresults, hsettings, hmarks, hforgiving⟩

end Dialogue

end Nameless
