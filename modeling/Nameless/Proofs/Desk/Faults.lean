/-
Nameless/Proofs/Desk/Faults.lean

What stops a line at the prompt.

`Console.Meets` lists the faults that a command can meet: a text cannot be read, an index is
too large to be encoded, or an index of a result, or of a step that is traced, is too long to
be written out.  The last can only happen to indices that grow on the way, since what can be
read can be written (`hasLongIndex_of_parse`).

Each of these faults is reported, and no line ends the dialogue unless it asks for that.  But
not every fault is settled by its report: those about large indices are taken for faults of
the program, and stop the line (`prompt_stopped_iff`).
-/
import Nameless.Proofs.Desk.Session
import Nameless.Proofs.Written.Words

namespace Nameless

/-! ### What can be read can be written -/

theorem Text.digit_lt (c : Char) : digit c < 10 := by
  rw [digit, digitValue?]
  cases hfind : zeroDigits.find? (fun first => first ≤ c.toNat && c.toNat < first + 10) with
  | none =>
    rw [Option.map_none, Option.getD_none]
    decide
  | some first =>
    have hrange := List.find?_some hfind
    simp only [Bool.and_eq_true, decide_eq_true_eq] at hrange
    rw [Option.map_some, Option.getD_some]
    omega

theorem Token.value_lt (tok : Token) : tok.value < 10 ^ tok.text.length := by
  have hdigits : ∀ d ∈ (tok.text.map Text.digit).reverse, d < 10 := by
    intro d hd
    obtain ⟨c, -, rfl⟩ := List.mem_map.mp (List.mem_reverse.mp hd)
    exact Text.digit_lt c
  have hlt := Nat.ofDigits_lt_base_pow_length (by decide : 1 < 10) hdigits
  rwa [List.length_reverse, List.length_map] at hlt

theorem shortNumerals_of_readTokens {inner : Group} {outer : List Group} {ts : List Token}
    {t : Term} (h : readTokens inner outer ts = .ok t) : ShortNumerals ts := by
  fun_induction readTokens inner outer ts with
  | case3 => exact List.forall_mem_nil _
  | case6 inner outer text start rest hlen ih =>
    exact List.forall_mem_cons.mpr ⟨fun _ => Nat.not_lt.mp hlen, ih h⟩
  | case7 inner outer text start text' start' rest ih =>
    exact .cons (by rintro ⟨⟩) (.cons (by rintro ⟨⟩) (ih h))
  | case9 inner outer text start rest ih => exact .cons (by rintro ⟨⟩) (ih h)
  | case11 inner text start rest _ o t' group groups _ _ ih => exact .cons (by rintro ⟨⟩) (ih h)
  | _ => cases h

mutual

theorem Spells.hasLongIndex_eq {ts : List Token} {t : Term} :
    Spells ts t → ShortNumerals ts → Work.hasLongIndex t = false
  | @Spells.index tok hk, hs => by
    have hlen := hs tok (List.mem_singleton_self _) hk
    have hlt : tok.value < Work.longIndexBound := by
      rw [Work.longIndexBound_eq]
      exact tok.value_lt.trans_le (Nat.pow_le_pow_right (by decide) hlen)
    exact decide_eq_false (Nat.not_le.mpr hlt)
  | .abstraction _ _ h, hs => h.hasLongIndex_eq hs.tail.tail
  | .group _ _ h, hs => h.hasLongIndex_eq hs.tail.left

theorem SpellsRow.hasLongIndex_eq {ts : List Token} {t : Term} :
    SpellsRow ts t → ShortNumerals ts → Work.hasLongIndex t = false
  | .first h, hs => h.hasLongIndex_eq hs
  | .next hf ha, hs => by
    rw [Work.hasLongIndex, hf.hasLongIndex_eq hs.left, ha.hasLongIndex_eq hs.right, Bool.or_false]

end

theorem Work.hasLongIndex_of_parse {text : String} {t : Term} (h : Term.parse text = .ok t) :
    hasLongIndex t = false := by
  obtain ⟨tokens, -, hread⟩ := Term.exists_readTokens_of_parse h
  have hrow := spellsRow_of_readTokens hread (.whole rfl (.binders .zero))
  exact hrow.hasLongIndex_eq (shortNumerals_of_readTokens hread)

/-! ### The faults of a command -/

namespace Console

/-- The faults that a command meets at a prompt. -/
inductive Meets (fuel : Nat) (c : Console) (command : Command) : Fault → Prop
  /-- The statement that it finishes cannot be read. -/
  | unread {s : Settings} {text : String} {e : ReadError} :
      c.finishes command = some (s, text) → Term.parse text = .error e →
      Meets fuel c command (.read e)
  /-- The statement is run, but an index of its result has too many digits to be written out,
  or, with traces, one of a step on the way, whether the run would have ended or not. -/
  | unwritable {s : Settings} {text : String} {t : Term} :
      c.finishes command = some (s, text) → Term.parse text = .ok t →
      (s.Untraceable c.desk.reporter.verbose fuel t ∨
        ∃ x, s.execute fuel t = some x ∧ Work.hasLongIndex x.result = true) →
      Meets fuel c command .longIndex
  /-- The term to be encoded cannot be read. -/
  | uncoded {argument : String} {e : ReadError} :
      command = .verb .encode argument → Term.parse argument = .error e →
      Meets fuel c command (.read e)
  /-- The term to be encoded has an index that does not fit. -/
  | wide {argument : String} {t : Term} {i : Nat} :
      command = .verb .encode argument → Term.parse argument = .ok t → t.wideIndex? = some i →
      Meets fuel c command (.wideIndex i)

variable {fuel : Nat} {c : Console} {command : Command} {f : Fault}

theorem meets_iff_reply {s : Settings} {text : String}
    (h : c.finishes command = some (s, text)) :
    c.Meets fuel command f ↔ s.reply c.desk.reporter.verbose fuel text = some (.error f) := by
  constructor
  · intro hmeets
    cases hmeets with
    | unread h' hparse =>
      cases h.symm.trans h'
      rw [Settings.reply, hparse]
    | unwritable h' hparse hlong =>
      cases h.symm.trans h'
      rw [Settings.reply_of_parse hparse, Settings.answer_eq_error_iff]
      refine ⟨rfl, hlong.imp_right ?_⟩
      rintro ⟨x, hx, hresult⟩
      exact ⟨x, hx, .inl hresult⟩
    | uncoded hencode =>
      subst hencode
      cases h
    | wide hencode =>
      subst hencode
      cases h
  · intro hreply
    cases hparse : Term.parse text with
    | error e =>
      rw [Settings.reply, hparse] at hreply
      cases hreply
      exact .unread h hparse
    | ok t =>
      rw [Settings.reply_of_parse hparse, Settings.answer_eq_error_iff] at hreply
      obtain ⟨rfl, hlong⟩ := hreply
      refine .unwritable h hparse (hlong.imp_right ?_)
      rintro ⟨x, hx, hlong⟩
      -- what was read can be written, also in a proof
      refine ⟨x, hx, hlong.resolve_right fun hterm => ?_⟩
      exact absurd ((Work.hasLongIndex_of_parse hparse).symm.trans hterm.2) (by decide)

theorem meets_iff_encoding {argument : String} :
    c.Meets fuel (.verb .encode argument) f ↔ Dialogue.encoding argument = .error f := by
  constructor
  · intro hmeets
    cases hmeets with
    | unread h => cases h
    | unwritable h => cases h
    | uncoded hencode hparse =>
      cases hencode
      rw [Dialogue.encoding, hparse]
    | wide hencode hparse hwide =>
      cases hencode
      rw [Dialogue.encoding, hparse]
      dsimp only
      rw [Term.encode, hwide]
  · intro hencoding
    rw [Dialogue.encoding] at hencoding
    cases hparse : Term.parse argument with
    | error e =>
      rw [hparse] at hencoding
      cases hencoding
      exact .uncoded rfl hparse
    | ok t =>
      rw [hparse] at hencoding
      dsimp only at hencoding
      rw [Term.encode] at hencoding
      cases hwide : t.wideIndex? with
      | none =>
        rw [hwide] at hencoding
        cases hencoding
      | some i =>
        rw [hwide] at hencoding
        cases hencoding
        exact .wide rfl hparse hwide

theorem not_meets (hfinishes : c.finishes command = none)
    (hencode : ∀ argument, command ≠ .verb .encode argument) : ¬ c.Meets fuel command f := by
  intro h
  cases h with
  | unread h => cases hfinishes.symm.trans h
  | unwritable h => cases hfinishes.symm.trans h
  | uncoded h => exact hencode _ h
  | wide h => exact hencode _ h

end Console

namespace Work

theorem ending_eq_error_iff {r : Except Fault String} {signal : Signal} :
    (ending r).map (fun _ => false) = .error signal
      ↔ ∃ f, r = .error f ∧ f.isInternal = true ∧ signal = .fault f := by
  cases r with
  | ok out =>
    refine ⟨by rintro ⟨⟩, ?_⟩
    rintro ⟨_, h, -⟩
    cases h
  | error f =>
    rw [ending]
    cases hf : f.isInternal with
    | false =>
      refine ⟨by rintro ⟨⟩, ?_⟩
      rintro ⟨g, hg, hinternal, -⟩
      cases hg
      cases hf.symm.trans hinternal
    | true =>
      refine ⟨fun h => ⟨f, rfl, hf, (Except.error.inj h).symm⟩, ?_⟩
      rintro ⟨g, hg, -, hsignal⟩
      cases hg
      rw [hsignal]
      rfl

theorem ending_ne_true {r : Except Fault String} :
    (ending r).map (fun _ => false) ≠ .ok true := by
  cases r with
  | ok out => rintro ⟨⟩
  | error f =>
    rw [ending]
    cases f.isInternal <;> rintro ⟨⟩

end Work

namespace Settings

theorem reply_eq_none_iff {s : Settings} {verbose : Bool} {fuel : Nat} {text : String} :
    s.reply verbose fuel text = none
      ↔ ∃ t, Term.parse text = .ok t ∧ s.execute fuel t = none ∧
        ¬ s.Untraceable verbose fuel t := by
  cases hparse : Term.parse text with
  | error e =>
    rw [reply, hparse]
    refine ⟨by rintro ⟨⟩, ?_⟩
    rintro ⟨_, h, -⟩
    cases h
  | ok t =>
    rw [reply_of_parse hparse, answer_eq_none_iff]
    refine ⟨fun h => ⟨t, rfl, h⟩, ?_⟩
    rintro ⟨_, ht, h⟩
    exact Except.ok.inj ht ▸ h

end Settings

/-! ### How a command ends -/

theorem Command.ends_of_finishes {c : Console} {command : Command} {p : Settings × String}
    (h : c.finishes command = some p) : command.ends = false := by
  obtain ⟨line, hline, -⟩ := Option.bind_eq_some_iff.mp h
  exact ends_of_statement? hline

namespace Console.Turn

variable {fuel : Nat} {c : Console} {command : Command}

/-- A command has not ended if it runs a term that does not end, and no trace stops it. -/
theorem eq_none_iff {run : Option (Except Signal Bool × Console)} (h : c.Turn fuel command run) :
    run = none ↔ ∃ s text t, c.finishes command = some (s, text) ∧ Term.parse text = .ok t ∧
      s.execute fuel t = none ∧ ¬ s.Untraceable c.desk.reporter.verbose fuel t := by
  cases h with
  | @replies s text hfinishes =>
    rw [Option.map_eq_none_iff, Settings.reply_eq_none_iff, hfinishes]
    constructor
    · rintro ⟨t, hparse, hnone⟩
      exact ⟨s, text, t, rfl, hparse, hnone⟩
    · rintro ⟨_, _, t, hsome, hparse, hnone⟩
      cases hsome
      exact ⟨t, hparse, hnone⟩
  | encodes h =>
    subst h
    exact ⟨nofun, fun ⟨_, _, _, hsome, _⟩ => nomatch hsome⟩
  | keeps hfinishes =>
    rw [hfinishes]
    exact ⟨nofun, fun ⟨_, _, _, hsome, _⟩ => nomatch hsome⟩
  | skips hfinishes =>
    rw [hfinishes]
    exact ⟨nofun, fun ⟨_, _, _, hsome, _⟩ => nomatch hsome⟩
  | prints _ hfinishes =>
    rw [hfinishes]
    exact ⟨nofun, fun ⟨_, _, _, hsome, _⟩ => nomatch hsome⟩

/-- A command that has ended was replied to, or it met no fault. -/
theorem replied_or_quiet {r : Except Signal Bool} {c' : Console}
    (h : c.Turn fuel command (some (r, c'))) :
    (∃ q, (∀ f, c.Meets fuel command f ↔ q = .error f) ∧ command.ends = false ∧
      r = (Work.ending q).map (fun _ => false) ∧
      ∃ texts marks, c'.desk.printed = c.desk.printed ++ texts ++
        [{ c.desk.reporter with traceback := marks }.closing q]) ∨
    ((∀ f, ¬ c.Meets fuel command f) ∧ r = .ok command.ends) := by
  generalize hrun : some (r, c') = run at h
  cases h with
  | @replies s text hfinishes =>
    obtain ⟨q, hreply, hq⟩ := Option.map_eq_some_iff.mp hrun.symm
    cases hq
    refine .inl ⟨q, fun f => ?_, Command.ends_of_finishes hfinishes, rfl, _, _,
      (List.append_assoc _ _ _).symm⟩
    rw [meets_iff_reply hfinishes, hreply, Option.some.injEq]
  | @encodes argument h =>
    subst h
    cases hrun
    refine .inl ⟨_, fun f => meets_iff_encoding, rfl, rfl, [], c.desk.reporter.traceback, ?_⟩
    rw [List.append_nil]
    rfl
  | keeps hfinishes hencode =>
    cases hrun
    exact .inr ⟨fun _ => not_meets hfinishes hencode, rfl⟩
  | skips hfinishes hencode =>
    cases hrun
    exact .inr ⟨fun _ => not_meets hfinishes hencode, rfl⟩
  | prints _ hfinishes hencode =>
    cases hrun
    exact .inr ⟨fun _ => not_meets hfinishes hencode, rfl⟩

variable {r : Except Signal Bool} {c' : Console} (h : c.Turn fuel command (some (r, c')))
include h

theorem eq_true_iff : r = .ok true ↔ command.ends = true := by
  rcases h.replied_or_quiet with ⟨q, -, hends, rfl, -⟩ | ⟨-, rfl⟩
  · rw [hends]
    exact ⟨fun h => absurd h Work.ending_ne_true, nofun⟩
  · exact ⟨fun h => Except.ok.inj h, fun h => congrArg Except.ok h⟩

theorem eq_error_iff {signal : Signal} :
    r = .error signal ↔
      ∃ f, c.Meets fuel command f ∧ f.isInternal = true ∧ signal = .fault f := by
  rcases h.replied_or_quiet with ⟨q, hmeets, -, rfl, -⟩ | ⟨hmeets, rfl⟩
  · simp only [hmeets]
    exact Work.ending_eq_error_iff
  · exact ⟨nofun, fun ⟨f, hf, _⟩ => absurd hf (hmeets f)⟩

/-- A fault that is met is reported. -/
theorem reports {f : Fault} (hf : c.Meets fuel command f) :
    ∃ texts marks, c'.desk.printed = c.desk.printed ++ texts ++
      [(.reports, { c.desk.reporter with traceback := marks }.errorText
        (f.diagnosis c.desk.reporter.style))] := by
  rcases h.replied_or_quiet with ⟨q, hmeets, -, -, hprinted⟩ | ⟨hmeets, -⟩
  · rw [(hmeets f).mp hf] at hprinted
    exact hprinted
  · exact absurd hf (hmeets f)

end Console.Turn

theorem Console.Meets.isInternal_iff {fuel : Nat} {c : Console} {command : Command} {f : Fault}
    (h : c.Meets fuel command f) :
    f.isInternal = true ↔ ∀ text fault, f ≠ .read (.syntactic text fault) := by
  have hread (e : ReadError) : Fault.isInternal (.read e) = true
      ↔ ∀ text fault, Fault.read e ≠ .read (.syntactic text fault) := by
    cases e with
    | syntactic text fault => exact ⟨nofun, fun h => absurd rfl (h text fault)⟩
    | longNumeral digits => exact ⟨fun _ => nofun, fun _ => rfl⟩
  cases h with
  | unread => exact hread _
  | uncoded => exact hread _
  | unwritable => exact ⟨fun _ => nofun, fun _ => rfl⟩
  | wide => exact ⟨fun _ => nofun, fun _ => rfl⟩

namespace Dialogue

/-- **What stops a line.**  At every point of every dialogue, a line comes to an end unless it
runs a term that does not, and no step that is traced on the way stops it.  It asks the dialogue
to end exactly if it is one of the two commands for that.  Every fault that it meets is reported,
as the last text printed.  It is stopped exactly by those faults that are not errors of syntax: an
index with too many digits to be read or to be written out, or one that is too large to be
encoded. -/
theorem prompt_stopped_iff {settings : Settings} {c : Console} (h : Session settings c)
    (fuel : Nat) (line : String) :
    ((respond fuel line).runOn c = none ↔
      ∃ s text t, c.finishes (.ofLine line) = some (s, text) ∧ Term.parse text = .ok t ∧
        s.execute fuel t = none ∧ ¬ s.Untraceable c.desk.reporter.verbose fuel t) ∧
    ∀ r c', (respond fuel line).runOn c = some (r, c') →
      (r = .ok true ↔ ∃ argument, Command.ofLine line = .verb .exit argument ∨
        Command.ofLine line = .verb .endOfInput argument) ∧
      (∀ signal, r = .error signal ↔
        ∃ f, c.Meets fuel (.ofLine line) f ∧ (∀ text fault, f ≠ .read (.syntactic text fault)) ∧
          signal = .fault f) ∧
      ∀ f, c.Meets fuel (.ofLine line) f →
        ∃ texts marks, c'.desk.printed = c.desk.printed ++ texts ++
          [(.reports, { c.desk.reporter with traceback := marks }.errorText
            (f.diagnosis c.desk.reporter.style))] := by
  have hturn := @turn_perform fuel c (settled_of_session h).ready (.ofLine line)
  rw [← respond] at hturn
  refine ⟨hturn.eq_none_iff, fun r c' hrun => ?_⟩
  rw [hrun] at hturn
  refine ⟨hturn.eq_true_iff.trans Command.ends_iff, fun signal => ?_, fun f => hturn.reports⟩
  rw [hturn.eq_error_iff]
  exact exists_congr fun f => and_congr_right fun hf => and_congr_left fun _ => hf.isInternal_iff

/-- The first index that does not fit stops the line that is to encode it, after the report. -/
theorem prompt_stopped_iff_wide :
    ∃ d c', (Work.openSheet promptPath "normalize" false false true .unreadable).runOn
        (Desk.fresh ⟨true, false, .plain, .none, []⟩) = some (.ok (), d) ∧
      (respond 0 "encode 18446744073709551616").runOn (Console.start d)
        = some (.error (.fault (.wideIndex 18446744073709551616)), c') ∧
      c'.desk.printed = [(.reports, "[internal] error: unknown error: 'ValueError: " ++
        "De Bruijn index 18446744073709551616 does not fit in 64 bits'\n")] := by
  have hmode : Mode.ofName? "normalize" = some .normalize := by decide
  have hline : Command.ofLine "encode 18446744073709551616"
      = .verb .encode "18446744073709551616" := by
    decide +kernel
  have hparse : Term.parse "18446744073709551616" = .ok (.var 18446744073709551616) := by
    decide +kernel
  have hprinted : ((do
        atDesk (Work.openSheet promptPath "normalize" false false true .unreadable)
        respond 0 "encode 18446744073709551616" : Dialogue Bool).runOn
          (Console.start (Desk.fresh ⟨true, false, .plain, .none, []⟩))).map (·.2.desk.printed)
      = some [(.reports, "[internal] error: unknown error: 'ValueError: " ++
        "De Bruijn index 18446744073709551616 does not fit in 64 bits'\n")] := by
    decide +kernel
  have hopen := Work.openSheet_prompt hmode false false .unreadable
    (Desk.fresh ⟨true, false, .plain, .none, []⟩)
  let d := (Desk.fresh ⟨true, false, .plain, .none, []⟩).opened promptPath
    ⟨.normalize, false, false⟩ true
  have hsession : Session ⟨.normalize, false, false⟩ (Console.start d) :=
    .start (by exact nofun) hmode hopen
  rw [Act.runOn_bind_ok (atDesk_runOn hopen)] at hprinted
  obtain ⟨⟨r, c'⟩, hrun, hprinted⟩ := Option.map_eq_some_iff.mp hprinted
  obtain ⟨-, hstopped⟩ := prompt_stopped_iff hsession 0 "encode 18446744073709551616"
  obtain ⟨-, herror, -⟩ := hstopped r c' hrun
  have hmeets := @Console.Meets.wide 0 (Console.start d) _ _ _ _ hline hparse rfl
  have hr := (herror _).mpr ⟨_, hmeets, fun _ _ => nofun, rfl⟩
  exact ⟨d, c', hopen, hr ▸ hrun, hprinted⟩

end Dialogue

end Nameless
