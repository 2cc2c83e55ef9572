/-
Nameless/Proofs/Witness/Soundness.lean

What a verified witness is worth.  `Witness.leaves` are the witnesses that are left
when all composites are opened, and `Witness.Holds` says, kind by kind, that what a leaf
records is so: the recorded step, evaluation or normalization of the recorded subject
ends in the recorded outcome.

Verification checks the leaves one by one and nothing else (`allHold_eq_true_iff`), but
it derives each outcome from the term at hand and never looks at the recorded subject.
So a verified leaf holds *about the term it was checked for*,

    w.verify fuel (.term e) = some true  →  (l.about e).Holds     for every leaf l of w,

where `l.about e` is `l` with `e` for its subject; and as it stands it holds if and only
if the recorded subject has the same outcome as `e` (`verify_holds_about`).  A leaf with
a forged subject is verified and false (`verify_holds_about_forged`).
-/
import Nameless.Proofs.Evaluation.Run
import Nameless.Proofs.Evaluation.Sameness
import Nameless.Proofs.Reduction.NormalOrder
import Nameless.Witness.Verify

namespace Nameless

/-! ### Equality of items and claimed outcomes -/

@[simp] theorem Item.term_same_iff {t : Term} {i : Item} :
    (Item.term t).same i = true ↔ i = .term t := by
  cases i with
  | term u => rw [same, beq_iff_eq, Item.term.injEq, eq_comm]
  | datum d => exact ⟨nofun, nofun⟩

theorem Claimed.outcome_same_iff {r : Outcome} {c : Claimed} :
    (Claimed.outcome r).same c = true ↔ ∃ s, c = .outcome s ∧ r.same s = true := by
  cases c with
  | outcome s => simp [same]
  | datum d => simp [same]

namespace Witness

/-! ### Leaves -/

mutual

/-- The witnesses other than composites that a witness is made of, in order. -/
def leaves : Witness → List Witness
  | composite parts _ => leavesAll parts
  | alpha l r => [alpha l r]
  | beta b a => [beta b a]
  | eval s r => [eval s r]
  | norm s r steps => [norm s r steps]
  | consistency => [consistency]
  | other d => [other d]

/-- The leaves of several witnesses. -/
def leavesAll : List Witness → List Witness
  | [] => []
  | w :: ws => w.leaves ++ leavesAll ws

end

theorem leaves_of_ne_composite {w : Witness} (h : ∀ parts label, w ≠ composite parts label) :
    w.leaves = [w] := by
  cases w with
  | composite parts label => exact absurd rfl (h parts label)
  | _ => rw [leaves]

theorem leavesAll_append (ws vs : List Witness) :
    leavesAll (ws ++ vs) = leavesAll ws ++ leavesAll vs := by
  induction ws with
  | nil => rfl
  | cons w ws ih => rw [List.cons_append, leavesAll, leavesAll, ih, List.append_assoc]

/-- The stack of witnesses holds if and only if every leaf on it does. -/
theorem allHold_eq_true_iff {fuel : Nat} {t : Term} {ws : List Witness} :
    allHold fuel t ws = some true ↔ ∀ l ∈ leavesAll ws, leafHolds fuel t l = some true := by
  fun_induction allHold fuel t ws with
  | case1 => simp [leavesAll]
  | case2 parts label rest ih =>
    rw [ih, leavesAll_append, leavesAll, leaves]
  | case3 w rest hne hnone =>
    simp [leavesAll, leaves_of_ne_composite hne, hnone]
  | case4 w rest hne hfalse =>
    simp [leavesAll, leaves_of_ne_composite hne, hfalse]
  | case5 w rest hne htrue ih =>
    simp [leavesAll, leaves_of_ne_composite hne, htrue, ih]

/-! ### What a leaf records -/

/-- What the leaf records is so.  Every kind speaks of the subject that it records; a
composite is no leaf, and what is no witness records nothing. -/
def Holds : Witness → Prop
  | alpha l r => ∃ t, l = .term t ∧ r = .term t
  | beta before after => ∃ t, before = .term t ∧ after = .term t.step
  | eval subject result =>
    ∃ t fuel r s, subject = .term t ∧ result = .outcome s ∧ t.eval fuel = some r ∧ r.same s = true
  | norm subject result _ =>
    ∃ t fuel n, subject = .term t ∧ result = .term n ∧ t.normalize fuel = some n
  | consistency => Term.batteryPasses = true
  | composite _ _ => False
  | other _ => False

/-- The leaf with another subject. -/
def about (e : Term) : Witness → Witness
  | beta _ after => beta (.term e) after
  | eval _ result => eval (.term e) result
  | norm _ result steps => norm (.term e) result steps
  | w => w

/-- The recorded subject does not differ from `e` in what the leaf is about: in the step, in
the outcome of evaluation, or in the outcome of normalization. -/
def SubjectAgrees (e : Term) : Witness → Prop
  | beta before _ => ∃ t, before = .term t ∧ t.step = e.step
  | eval subject _ =>
    ∃ t fuel fuel' r s, subject = .term t ∧ t.eval fuel = some r ∧ e.eval fuel' = some s ∧
      r.same s = true
  | norm subject _ _ =>
    ∃ t fuel fuel' n, subject = .term t ∧ t.normalize fuel = some n ∧ e.normalize fuel' = some n
  | _ => True

/-- A leaf that checking accepts for `e` holds about `e`. -/
theorem holds_about_of_leafHolds {fuel : Nat} {e : Term} {l : Witness}
    (h : leafHolds fuel e l = some true) : (l.about e).Holds := by
  cases l with
  | alpha l r =>
    cases l with
    | term t =>
      have hsame : (Item.term t).same r = true := Option.some.inj h
      exact ⟨t, rfl, Item.term_same_iff.mp hsame⟩
    | datum d => cases h
  | beta before after => exact ⟨e, rfl, Item.term_same_iff.mp (Option.some.inj h)⟩
  | eval subject result =>
    obtain ⟨r, hr, hsame⟩ := Option.map_eq_some_iff.mp h
    obtain ⟨s, hs, hrs⟩ := Claimed.outcome_same_iff.mp hsame
    exact ⟨e, fuel, r, s, rfl, hs, hr, hrs⟩
  | norm subject result steps =>
    obtain ⟨n, hn, hsame⟩ := Option.map_eq_some_iff.mp h
    obtain ⟨hresult, -⟩ := Bool.and_eq_true_iff.mp hsame
    exact ⟨e, fuel, n, rfl, Item.term_same_iff.mp hresult, hn⟩
  | consistency => exact Option.some.inj h
  | composite parts label => cases h
  | other d => cases h

/-- A leaf that holds about `e` holds as it stands exactly if its subject agrees with `e`. -/
theorem holds_iff_subjectAgrees {e : Term} {l : Witness} (h : (l.about e).Holds) :
    l.Holds ↔ l.SubjectAgrees e := by
  cases l with
  | alpha l r => exact ⟨fun _ => trivial, fun _ => h⟩
  | beta before after =>
    obtain ⟨_, ⟨⟩, rfl⟩ := h
    constructor
    · rintro ⟨t, rfl, hstep⟩
      exact ⟨t, rfl, (Item.term.inj hstep).symm⟩
    · rintro ⟨t, rfl, hstep⟩
      exact ⟨t, rfl, congrArg Item.term hstep.symm⟩
  | eval subject result =>
    obtain ⟨_, fuel, r, s, ⟨⟩, rfl, hr, hrs⟩ := h
    constructor
    · rintro ⟨t, fuel', q, _, rfl, ⟨⟩, hq, hqs⟩
      rw [Outcome.same_congr hrs] at hqs
      exact ⟨t, fuel', fuel, q, r, rfl, hq, hr, hqs⟩
    · rintro ⟨t, fuel', fuel'', q, r', rfl, hq, hr', hqr⟩
      obtain rfl := eval_unique hr hr'
      rw [← Outcome.same_congr hrs] at hqr
      exact ⟨t, fuel', q, s, rfl, rfl, hq, hqr⟩
  | norm subject result steps =>
    obtain ⟨_, fuel, n, ⟨⟩, rfl, hn⟩ := h
    constructor
    · rintro ⟨t, fuel', _, rfl, ⟨⟩, hm⟩
      exact ⟨t, fuel', fuel, n, rfl, hm, hn⟩
    · rintro ⟨t, fuel', fuel'', m, rfl, hm, hm'⟩
      obtain rfl := Term.normalize_unique hn hm'
      exact ⟨t, fuel', n, rfl, rfl, hm⟩
  | consistency => exact ⟨fun _ => trivial, fun _ => h⟩
  | composite parts label => exact h.elim
  | other d => exact h.elim

/-! ### What verification shows -/

open Term (var app identity)

/-- **A verified witness holds about the term it was checked for.**  Its leaves are verified
whatever subjects they record, and so a leaf holds as it stands if and only if the recorded
subject agrees with that term. -/
theorem verify_holds_about {fuel : Nat} {w : Witness} {i : Item}
    (h : w.verify fuel i = some true) :
    ∃ e, i = .term e ∧
      ∀ l ∈ w.leaves, (l.about e).Holds ∧ (l.Holds ↔ l.SubjectAgrees e) := by
  cases i with
  | datum d => cases h
  | term e =>
    refine ⟨e, rfl, fun l hl => ?_⟩
    have hleaf : leafHolds fuel e l = some true := by
      refine allHold_eq_true_iff.mp h l ?_
      rwa [leavesAll, leavesAll, List.append_nil]
    have habout := holds_about_of_leafHolds hleaf
    exact ⟨habout, holds_iff_subjectAgrees habout⟩

/-- Three leaves with the forged subject `7` are verified for `(λ. 0) 1`: its step, its value
and its normal form are `1`.  None of them holds as it stands. -/
theorem verify_holds_about_forged :
    (composite [beta (.term (var 7)) (.term (var 1)),
        composite [eval (.term (var 7)) (.outcome (.value (var 1))),
          norm (.term (var 7)) (.term (var 1)) []] ""] "").verify 8
        (.term (app identity (var 1))) = some true ∧
      ∀ l ∈ [beta (.term (var 7)) (.term (var 1)),
        eval (.term (var 7)) (.outcome (.value (var 1))),
        norm (.term (var 7)) (.term (var 1)) []],
        (l.about (app identity (var 1))).Holds ∧ ¬ l.Holds := by
  have hverify : (composite [beta (.term (var 7)) (.term (var 1)),
      composite [eval (.term (var 7)) (.outcome (.value (var 1))),
        norm (.term (var 7)) (.term (var 1)) []] ""] "").verify 8
      (.term (app identity (var 1))) = some true := by
    decide +kernel
  obtain ⟨e, he, hleaves⟩ := verify_holds_about hverify
  obtain rfl := Item.term.inj he
  refine ⟨hverify, fun l hl => ⟨(hleaves l hl).1, ?_⟩⟩
  simp only [List.mem_cons, List.not_mem_nil, or_false] at hl
  rcases hl with rfl | rfl | rfl
  · rintro ⟨_, ⟨⟩, hstep⟩
    rw [Term.step_of_hasRedex_eq_false (Term.hasRedex_var 7)] at hstep
    cases hstep
  · rintro ⟨_, fuel, r, _, ⟨⟩, ⟨⟩, hr, hsame⟩
    obtain rfl := eval_unique (show (var 7).eval 2 = some (.value (var 7)) from rfl) hr
    cases hsame
  · rintro ⟨_, fuel, n, ⟨⟩, ⟨⟩, hn⟩
    have hself : (var 7).normalize 1 = some (var 7) := by decide +kernel
    cases Term.normalize_unique hself hn

end Witness

end Nameless
