/-
Nameless/Proofs/Desk/Proving.lean

Proving changes no answer and never fails.

Whether results are proved decides by which way a term is run: normalization then traces every
step and keeps the steps in its witness, and passes along the reduction sequence otherwise.
Both ways give the same result and report the same steps, and they take the same bound
(`Settings.exists_witness_of_execute`).  The witness is the one that the mode makes of the term
(`Mode.witness?`), and it is verified within the bound of the run and every larger one, since
a larger bound changes no run (`Settings.execute_mono`).

So the warning that a witness is not verified is never given.  Whatever is printed while
statements are run is their traces, one after the other (`printed_of_runStatements`):

    e.printed = d.printed ++ done.flatMap fun s => settings.trace reporter fuel s.term

where `done` are the statements that were taken up, all of them if the run ended well.
-/
import Nameless.Proofs.Desk.Prompt

namespace Nameless

/-- The witness that a mode makes of running a term. -/
def Mode.witness? (fuel : Nat) (t : Term) : Mode → Option Witness
  | .normalize => Witness.ofTrace fuel t
  | .reduce => some (Witness.ofStep t)
  | .eval => Witness.ofEval fuel t

namespace Settings

variable {s : Settings} {fuel : Nat} {t : Term} {x : Execution}

/-! ### Running with a proof and without -/

/-- A term that is run in some mode is run with the same result and the same steps whether
results are proved or not.  Only normalization drops its witness if they are not. -/
theorem exists_witness_of_execute (h : s.execute fuel t = some x) :
    ∃ w, s.mode.witness? fuel t = some w ∧
      (∀ numerals, (Settings.mk s.mode true numerals).execute fuel t
        = some { x with witness := some w }) ∧
      ∀ numerals, (Settings.mk s.mode false numerals).execute fuel t
        = some { x with witness := if s.mode = .normalize then none else some w } := by
  obtain ⟨mode, prove, numerals⟩ := s
  cases mode with
  | normalize =>
    rw [execute_normalize] at h
    obtain ⟨steps, hsteps, rfl⟩ := Option.map_eq_some_iff.mp h
    refine ⟨.ofSteps t steps, ?_, fun numerals => ?_, fun numerals => ?_⟩
    · rw [Mode.witness?, Witness.ofTrace, hsteps, Option.map_some]
    · rw [execute_normalize, hsteps]
      rfl
    · rw [execute_normalize, hsteps]
      rfl
  | reduce =>
    obtain rfl := Option.some.inj h
    exact ⟨.ofStep t, rfl, fun _ => rfl, fun _ => rfl⟩
  | eval =>
    obtain ⟨r, hr, rfl⟩ := Option.map_eq_some_iff.mp h
    refine ⟨.eval (.term t) (.outcome r), ?_, fun numerals => ?_, fun numerals => ?_⟩
    · rw [Mode.witness?, Witness.ofEval, hr, Option.map_some]
    · rw [execute, hr]
      rfl
    · rw [execute, hr]
      rfl

/-- The same for any settings of a mode, given both ways of running in it. -/
theorem execute_of_mode {mode : Mode} {w : Witness} {w? : Option Witness}
    (htrue : ∀ numerals, (Settings.mk mode true numerals).execute fuel t
      = some { x with witness := some w })
    (hfalse : ∀ numerals, (Settings.mk mode false numerals).execute fuel t
      = some { x with witness := w? })
    (hmode : s.mode = mode) :
    ∃ w', (s.prove = true → w' = some w) ∧
      s.execute fuel t = some { x with witness := w' } := by
  obtain ⟨_, prove, numerals⟩ := s
  subst hmode
  cases prove with
  | true => exact ⟨some w, fun _ => rfl, htrue numerals⟩
  | false => exact ⟨w?, nofun, hfalse numerals⟩

/-- A larger bound changes no run that has ended. -/
theorem execute_mono {fuel' : Nat} (hle : fuel ≤ fuel') (h : s.execute fuel t = some x) :
    s.execute fuel' t = some x := by
  obtain ⟨mode, prove, numerals⟩ := s
  cases mode with
  | normalize =>
    rw [execute_normalize] at h ⊢
    obtain ⟨steps, hsteps, rfl⟩ := Option.map_eq_some_iff.mp h
    obtain ⟨htrail, hlt⟩ := Term.trail_of_trace hsteps
    rw [htrail.trace_eq, if_pos (Nat.lt_of_lt_of_le hlt hle), Option.map_some]
  | reduce => exact h
  | eval =>
    obtain ⟨r, hr, rfl⟩ := Option.map_eq_some_iff.mp h
    rw [execute, eval_mono hle hr, Option.map_some]

/-- The witness of normalization without steps is verified as well. -/
theorem verify_ofNormalize (hmode : s.mode = .normalize) (h : s.execute fuel t = some x) :
    Witness.ofNormalize fuel t = some (.norm (.term t) (.term x.result) []) ∧
      ∀ fuel', fuel ≤ fuel' →
        (Witness.norm (.term t) (.term x.result) []).verify fuel' (.term t) = some true := by
  obtain ⟨mode, prove, numerals⟩ := s
  obtain rfl : mode = .normalize := hmode
  rw [execute_normalize] at h
  obtain ⟨steps, hsteps, rfl⟩ := Option.map_eq_some_iff.mp h
  obtain ⟨htrail, hlt⟩ := Term.trail_of_trace hsteps
  refine ⟨?_, fun fuel' hle => ?_⟩
  · rw [Witness.ofNormalize, htrail.normalize_eq, if_pos hlt, Option.map_some]
  · rw [Witness.verify_norm_of_trail htrail (Nat.lt_of_lt_of_le hlt hle),
      (Witness.stepsHold_iff htrail []).mpr (.inl rfl), Item.term_same_iff.mpr rfl, Bool.and_true]

/-- With proofs, the answer to a term that can be written out is the answer without them, and
the witness on a line of its own. -/
theorem answer_of_prove {mode : Mode} {numerals : Bool} {w : Witness} {w? : Option Witness}
    (htrue : (Settings.mk mode true numerals).execute fuel t = some { x with witness := some w })
    (hfalse : (Settings.mk mode false numerals).execute fuel t = some { x with witness := w? })
    (ht : Work.hasLongIndex t = false) (verbose : Bool) :
    (Settings.mk mode true numerals).answer verbose fuel t
      = ((Settings.mk mode false numerals).answer verbose fuel t).map fun r =>
          r.map fun text => text ++ "\n  " ++ w.display := by
  have hshow : Work.shown (Settings.mk mode false numerals) x.result
      = Work.shown (Settings.mk mode true numerals) x.result := rfl
  rw [answer, answer, traced_of_execute htrue, traced_of_execute hfalse, htrue, hfalse]
  dsimp only
  cases verbose && x.steps.any Work.hasLongIndex with
  | true => rfl
  | false =>
    rw [if_neg Bool.false_ne_true, if_neg Bool.false_ne_true, Option.map_some, Option.map_some,
      Option.map_some, hshow]
    cases hshown : Work.shown (Settings.mk mode true numerals) x.result with
    | error f => rfl
    | ok text =>
      -- what is shown can be written out, so the witness can
      have hresult : Work.hasLongIndex x.result = false := by
        rw [Bool.eq_false_iff]
        intro hlong
        rw [Work.shown_eq_error_iff.mpr ⟨rfl, hlong⟩] at hshown
        cases hshown
      rw [ht, hresult]
      rfl

end Settings

namespace Work

variable {fuel : Nat} {d e : Desk}

/-! ### What a run prints -/

/-- Statements that are run print their traces and nothing else, up to the one that a fault
stops. -/
theorem printed_of_runStatements {ss : List Statement} {r : Except Signal Unit}
    (h : (runStatements fuel ss).runOn d = some (r, e)) :
    ∃ done, done <+: ss ∧ (r = .ok () → done = ss) ∧
      e.printed = d.printed ++
        done.flatMap fun s => d.sheet.settings.trace d.reporter fuel s.term := by
  rw [runStatements_runOn] at h
  obtain ⟨p, hanswers, hp⟩ := Option.map_eq_some_iff.mp h
  obtain ⟨rfl, rfl⟩ := Prod.mk.inj hp
  refine ⟨p.takenUp ss, List.take_prefix _ _, fun hok => ?_, rfl⟩
  exact Settings.takenUp_of_answers hanswers (Progress.ending_eq_ok_iff.mp hok)

/-! ### Proving -/

open Term (var lam app omega)

/-- **Proving changes no answer and never fails.**  Let a term be run in some settings, which
gives `x`.  Then it is run in the same mode with proofs and without, and both give the result
and the steps of `x`; at the desk, the result is handed on and the steps are reported, unless
one of them cannot be written out.  With proofs there is a witness `w`, which is the one that
the mode makes.  It is verified for the term, so confirming it does nothing, and it is all that
proofs add to the answer.  In normalization the witness without steps is verified as well, with
the same result.  And no run of a worksheet prints anything but traces. -/
theorem proving_keeps_answers {s : Settings} {t : Term} {x : Execution}
    (h : s.execute fuel t = some x) :
    (∃ w, s.mode.witness? fuel t = some w ∧
      (∀ fuel', fuel ≤ fuel' → w.verify fuel' (.term t) = some true) ∧
      (∀ numerals,
        (Settings.mk s.mode true numerals).execute fuel t = some { x with witness := some w } ∧
        (Settings.mk s.mode false numerals).execute fuel t
          = some { x with witness := if s.mode = .normalize then none else some w }) ∧
      (∀ d : Desk, d.sheet.settings.mode = s.mode → ∃ w?,
        (d.sheet.settings.prove = true → w? = some w) ∧
        (execute fuel t).runOn d
          = some (if d.reporter.verbose && x.steps.any hasLongIndex
              then .error (.fault .longIndex) else .ok (x.result, w?),
            d.printAll (d.reporter.traceTexts x.rule x.steps))) ∧
      (∀ (d : Desk) (line : Int) (text : String),
        (confirm fuel ⟨line, text, t⟩ w).runOn d = some (.ok (), d)) ∧
      (hasLongIndex t = false → ∀ numerals verbose,
        (Settings.mk s.mode true numerals).answer verbose fuel t
          = ((Settings.mk s.mode false numerals).answer verbose fuel t).map fun r =>
              r.map fun text => text ++ "\n  " ++ w.display)) ∧
    (s.mode = .normalize →
      Witness.ofNormalize fuel t = some (.norm (.term t) (.term x.result) []) ∧
      ∀ fuel', fuel ≤ fuel' →
        (Witness.norm (.term t) (.term x.result) []).verify fuel' (.term t) = some true) ∧
    ∀ (d e : Desk) (r : Except Signal Unit), (run fuel).runOn d = some (r, e) →
      ∃ done, done <+: d.sheet.queue ∧ (r = .ok () → done = d.sheet.queue) ∧
        e.printed = d.printed ++
          done.flatMap fun st => d.sheet.settings.trace d.reporter fuel st.term := by
  obtain ⟨w, hw, htrue, hfalse⟩ := Settings.exists_witness_of_execute h
  have hverified : ∀ fuel', fuel ≤ fuel' → w.verify fuel' (.term t) = some true :=
    fun fuel' hle => Witness.verify_of_execute (Settings.execute_mono hle (htrue false)) rfl
  refine ⟨⟨w, hw, hverified, ?_, ?_, ?_, ?_⟩, ?_, ?_⟩
  · exact fun numerals => ⟨htrue numerals, hfalse numerals⟩
  · intro d hmode
    obtain ⟨w?, hw?, hexecute⟩ := Settings.execute_of_mode htrue hfalse hmode
    refine ⟨w?, hw?, ?_⟩
    rw [execute_runOn, Settings.traced_of_execute hexecute, ← Settings.rule_of_execute hexecute,
      hexecute]
    dsimp only
    cases d.reporter.verbose && x.steps.any hasLongIndex <;> rfl
  · intro d line text
    exact confirm_runOn d (hverified fuel (Nat.le_refl fuel))
  · intro ht numerals verbose
    exact Settings.answer_of_prove (htrue numerals) (hfalse numerals) ht verbose
  · exact fun hmode => Settings.verify_ofNormalize hmode h
  · intro d e r hrun
    rw [run, Act.runOn_bind_ok (Act.runOn_get d)] at hrun
    exact printed_of_runStatements hrun

/-- `(λ. 0 (λ. 0 0)) (λ. 5 (0 0))` stops at `4 Ω` after two steps, with proofs and without, and
the witness of them is verified, though `4 Ω` is no normal form. -/
theorem proving_keeps_answers_stuck :
    let t := app (lam (app (var 0) (lam (app (var 0) (var 0)))))
      (lam (app (var 5) (app (var 0) (var 0))))
    let u := app (lam (app (var 5) (app (var 0) (var 0)))) (lam (app (var 0) (var 0)))
    let n := app (var 4) omega
    let w := Witness.norm (.term t) (.term n) [.term u, .term n]
    (Settings.mk .normalize false false).execute 3 t = some ⟨n, none, "β", [u, n]⟩ ∧
    (Settings.mk .normalize true false).execute 3 t = some ⟨n, some w, "β", [u, n]⟩ ∧
    w.verify 3 (.term t) = some true ∧
    (Witness.norm (.term t) (.term n) []).verify 3 (.term t) = some true := by
  intro t u n w
  have htrace : t.trace 3 = some [u, n] := by decide +kernel
  have hexecute : (Settings.mk .normalize false false).execute 3 t
      = some ⟨n, none, "β", [u, n]⟩ := by
    rw [Settings.execute_normalize, htrace]
    rfl
  obtain ⟨⟨w', hw', hverified, hboth, -⟩, hnormalize, -⟩ := proving_keeps_answers hexecute
  obtain rfl : w = w' := by
    rw [Mode.witness?, Witness.ofTrace, htrace] at hw'
    exact Option.some.inj hw'
  exact ⟨hexecute, (hboth false).1, hverified 3 (Nat.le_refl 3),
    (hnormalize rfl).2 3 (Nat.le_refl 3)⟩

end Work

end Nameless
