/-
Nameless/Proofs/Witness/Leaves.lean

Verification is the conjunction over the leaves.

The stack of witnesses opens a composite where it stands, and stops at the first leaf that
fails.  A leaf behind a failed one is not looked at, so an answer does not mean that all
leaves have been checked.  But if the check of every leaf ends, so does that of the stack
(`exists_allHold`), and one bound is large enough for all of them (`exists_bound_of_ends`).
From there on

    w.verify fuel (.term t) = some true  ↔  l.check fuel t = .ok (some true)  for every leaf l,

where a leaf that is no witness has no check that could hold.  Only the set of the leaves
counts, not how they are grouped, labelled, ordered or repeated (`verify_conjunction`).
-/
import Nameless.Proofs.Witness.RecordedSteps

namespace Nameless.Witness

variable {fuel : Nat} {t : Term}

/-! ### The check of one leaf -/

/-- The witness's own check of the term ends, if it has one. -/
def Ends (l : Witness) (t : Term) : Prop :=
  ∃ fuel, l.check fuel t ≠ .ok none

/-- A witness that can be asked at all says of itself what verification says of it. -/
theorem check_eq_verify {w : Witness} (h : ∀ d, w ≠ other d) :
    w.check fuel t = .ok (w.verify fuel (.term t)) := by
  cases w with
  | composite parts label => rfl
  | other d => exact absurd rfl (h d)
  | _ =>
    rw [verify_of_ne_composite _ (by simp)]
    rfl

/-- A plain value cannot be asked, and on the stack it fails. -/
theorem check_eq_true_iff {l : Witness} (h : ∀ parts label, l ≠ composite parts label) :
    l.check fuel t = .ok (some true) ↔ leafHolds fuel t l = some true := by
  cases l with
  | composite parts label => exact absurd rfl (h parts label)
  | other d => exact ⟨nofun, nofun⟩
  | _ => exact ⟨Except.ok.inj, congrArg Except.ok⟩

theorem leafHolds_mono {fuel' : Nat} (hle : fuel ≤ fuel') {l : Witness} {holds : Bool}
    (h : leafHolds fuel t l = some holds) : leafHolds fuel' t l = some holds := by
  cases l with
  | eval subject result =>
    obtain ⟨r, hr, rfl⟩ := Option.map_eq_some_iff.mp h
    rw [leafHolds, eval_mono hle hr, Option.map_some]
  | norm subject result steps =>
    obtain ⟨n, hn, rfl⟩ := Option.map_eq_some_iff.mp h
    rw [leafHolds, Term.normalize_mono hle hn, Option.map_some]
  | _ => exact h

theorem Ends.exists_leafHolds {l : Witness} (h : l.Ends t) :
    ∃ fuel holds, leafHolds fuel t l = some holds := by
  obtain ⟨fuel, hfuel⟩ := h
  cases l with
  | composite parts label => exact ⟨fuel, false, rfl⟩
  | other d => exact ⟨fuel, false, rfl⟩
  | _ =>
    refine ⟨fuel, Option.ne_none_iff_exists'.mp fun hnone => hfuel ?_⟩
    exact congrArg Except.ok hnone

/-! ### The stack -/

mutual

theorem ne_composite_of_mem_leaves {l : Witness} :
    ∀ {w : Witness}, l ∈ w.leaves → ∀ parts label, l ≠ composite parts label
  | composite parts label, h => by
    rw [leaves] at h
    exact ne_composite_of_mem_leavesAll h
  | alpha .., h | beta .., h | eval .., h | norm .., h | consistency, h | other _, h => by
    rw [leaves] at h
    obtain rfl := List.mem_singleton.mp h
    simp

theorem ne_composite_of_mem_leavesAll {l : Witness} :
    ∀ {ws : List Witness}, l ∈ leavesAll ws → ∀ parts label, l ≠ composite parts label
  | [], h => absurd h List.not_mem_nil
  | w :: ws, h => by
    rw [leavesAll] at h
    rcases List.mem_append.mp h with hw | hws
    · exact ne_composite_of_mem_leaves hw
    · exact ne_composite_of_mem_leavesAll hws

end

theorem exists_allHold {ws : List Witness}
    (h : ∀ l ∈ leavesAll ws, ∃ holds, leafHolds fuel t l = some holds) :
    ∃ holds, allHold fuel t ws = some holds := by
  fun_induction allHold fuel t ws with
  | case1 => exact ⟨true, rfl⟩
  | case2 parts label rest ih =>
    apply ih
    rwa [leavesAll_append, ← leaves, ← leavesAll]
  | case3 w rest hne hnone =>
    obtain ⟨holds, hw⟩ := h w (by simp [leavesAll, leaves_of_ne_composite hne])
    rw [hnone] at hw
    cases hw
  | case4 w rest hne hfalse => exact ⟨false, rfl⟩
  | case5 w rest hne htrue ih =>
    exact ih fun l hl => h l (List.mem_append_right w.leaves hl)

/-- One bound is large enough for all leaves whose checks end. -/
theorem exists_bound_of_ends {ls : List Witness} (h : ∀ l ∈ ls, l.Ends t) :
    ∃ n, ∀ fuel, n ≤ fuel → ∀ l ∈ ls, ∃ holds, leafHolds fuel t l = some holds := by
  induction ls with
  | nil => exact ⟨0, fun _ _ _ hl => absurd hl List.not_mem_nil⟩
  | cons w ls ih =>
    obtain ⟨hw, hls⟩ := List.forall_mem_cons.mp h
    obtain ⟨m, holds, hm⟩ := hw.exists_leafHolds
    obtain ⟨n, hn⟩ := ih hls
    refine ⟨max m n, fun fuel hle => List.forall_mem_cons.mpr ⟨⟨holds, ?_⟩, ?_⟩⟩
    · exact leafHolds_mono (Nat.le_trans (Nat.le_max_left m n) hle) hm
    · exact hn fuel (Nat.le_trans (Nat.le_max_right m n) hle)

/-! ### Verification -/

theorem verify_eq_true_iff {w : Witness} {e : Item} :
    w.verify fuel e = some true ↔
      ∃ t, e = .term t ∧ ∀ l ∈ w.leaves, l.check fuel t = .ok (some true) := by
  cases e with
  | datum d => simp [verify]
  | term t =>
    have hone : leavesAll [w] = w.leaves := by rw [leavesAll, leavesAll, List.append_nil]
    rw [verify, allHold_eq_true_iff, hone]
    constructor
    · intro h
      refine ⟨t, rfl, fun l hl => ?_⟩
      exact (check_eq_true_iff (ne_composite_of_mem_leaves hl)).mpr (h l hl)
    · rintro ⟨_, ⟨⟩, h⟩ l hl
      exact (check_eq_true_iff (ne_composite_of_mem_leaves hl)).mp (h l hl)

theorem exists_verify {w : Witness} {e : Item}
    (h : ∀ t, e = .term t → ∀ l ∈ w.leaves, ∃ holds, leafHolds fuel t l = some holds) :
    ∃ holds, w.verify fuel e = some holds := by
  cases e with
  | datum d => exact ⟨false, rfl⟩
  | term t =>
    apply exists_allHold
    rw [leavesAll, leavesAll, List.append_nil]
    exact h t rfl

open Term (var app identity)

/-- **Verification is the conjunction over the leaves.**  If the checks of all leaves end, then
within every bound that is large enough a witness is verified or not, and it is verified if and
only if the item is a term and each leaf is a witness whose own check of the term holds.  So two
witnesses with the same leaves are verified alike, whatever their composites.  A witness says
the same of itself when it is asked, and so does an item bundled with it. -/
theorem verify_conjunction {w : Witness} {e : Item}
    (hends : ∀ t, e = .term t → ∀ l ∈ w.leaves, l.Ends t) :
    ∃ n, ∀ fuel, n ≤ fuel →
      (∃ holds, w.verify fuel e = some holds ∧
        (holds = true ↔
          ∃ t, e = .term t ∧ ∀ l ∈ w.leaves, l.check fuel t = .ok (some true))) ∧
      (∀ w' : Witness, (∀ l, l ∈ w'.leaves ↔ l ∈ w.leaves) →
        w'.verify fuel e = w.verify fuel e) ∧
      (∀ t, e = .term t → (∀ d, w ≠ other d) → w.check fuel t = .ok (w.verify fuel e)) ∧
      (Proven.mk e w).verify fuel = w.verify fuel e := by
  obtain ⟨n, hn⟩ : ∃ n, ∀ fuel, n ≤ fuel → ∀ t, e = .term t →
      ∀ l ∈ w.leaves, ∃ holds, leafHolds fuel t l = some holds := by
    cases e with
    | datum d => exact ⟨0, nofun⟩
    | term t =>
      obtain ⟨n, hn⟩ := exists_bound_of_ends (hends t rfl)
      refine ⟨n, fun fuel hle u hu => ?_⟩
      obtain rfl := Item.term.inj hu
      exact hn fuel hle
  refine ⟨n, fun fuel hle => ?_⟩
  obtain ⟨holds, hw⟩ := exists_verify (hn fuel hle)
  have hiff : holds = true ↔
      ∃ t, e = .term t ∧ ∀ l ∈ w.leaves, l.check fuel t = .ok (some true) := by
    rw [← verify_eq_true_iff, hw, Option.some.injEq]
  refine ⟨⟨holds, hw, hiff⟩, fun w' hleaves => ?_, ?_, rfl⟩
  · obtain ⟨holds', hw'⟩ := exists_verify (w := w') fun t ht l hl =>
      hn fuel hle t ht l ((hleaves l).mp hl)
    have htrue : w'.verify fuel e = some true ↔ w.verify fuel e = some true := by
      simp only [verify_eq_true_iff, hleaves]
    rw [hw, hw', Option.some.injEq, Option.some.injEq, ← Bool.eq_iff_iff] at htrue
    rw [hw, hw', htrue]
  · rintro t rfl hother
    exact check_eq_verify hother

/-- A plain value deep inside the composites is found, though every witness beside it holds. -/
theorem verify_conjunction_plain_value :
    let e := app identity (var 1)
    let reduces := norm (.term e) (.term (var 1)) []
    let w := composite [reduces, composite [composite [other (.text "qed")] "", reduces] ""] ""
    ∃ n, ∀ fuel, n ≤ fuel → w.verify fuel (.term e) = some false := by
  intro e reduces w
  have hleaves : w.leaves = [reduces, other (.text "qed"), reduces] := by
    simp [leaves, leavesAll, reduces, w]
  have hreduces : reduces.Ends e := by
    refine ⟨2, fun h => ?_⟩
    exact absurd (Except.ok.inj h) (by decide +kernel)
  have hother : (other (.text "qed")).Ends e := ⟨0, nofun⟩
  have hends : ∀ t, Item.term e = .term t → ∀ l ∈ w.leaves, l.Ends t := by
    rintro t ⟨⟩
    rw [hleaves]
    simp [hreduces, hother]
  obtain ⟨n, hn⟩ := verify_conjunction hends
  refine ⟨n, fun fuel hle => ?_⟩
  obtain ⟨⟨holds, hverify, hiff⟩, -⟩ := hn fuel hle
  cases holds with
  | false => exact hverify
  | true =>
    obtain ⟨t, -, hall⟩ := hiff.mp rfl
    have hchecked := hall (other (.text "qed")) (by simp [hleaves])
    cases hchecked

end Nameless.Witness
