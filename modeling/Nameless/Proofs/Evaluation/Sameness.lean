/-
Nameless/Proofs/Evaluation/Sameness.lean

Equality of environments and outcomes.  `Env.same` compares two environments by their
sizes and in one direction only: every binding of the first is looked up in the second.
Since the keys of an environment are distinct, that is enough for them to be the same
map (`Env.same_iff`), and so outcomes that are the same as a third one are the same
(`Outcome.same_congr`).
-/
import Mathlib.Data.List.Nodup
import Mathlib.Data.List.Perm.Subperm
import Nameless.Evaluation.Machine

namespace Nameless

namespace Env

theorem mem_iff_lookup {i : Nat} {t : Term} {ps : List (Nat × Term)} :
    (ps.map Prod.fst).Nodup → ((i, t) ∈ ps ↔ ps.lookup i = some t) := by
  induction ps with
  | nil => simp
  | cons p rest ih =>
    obtain ⟨j, u⟩ := p
    intro hnodup
    obtain ⟨hj, hrest⟩ := List.nodup_cons.mp hnodup
    by_cases h : i = j
    · subst h
      -- the key does not come again
      have hnot : (i, t) ∉ rest := fun hmem =>
        hj (List.mem_map.mpr ⟨(i, t), hmem, rfl⟩)
      simp [hnot, eq_comm]
    · rw [lookup_cons_of_ne h, ← ih hrest]
      simp [h]

/-- The bindings are the pairs of an index and the term that is looked up for it. -/
theorem mem_bindings_iff {e : Env} {i : Nat} {t : Term} :
    (i, t) ∈ e.bindings ↔ e.get? i = some t :=
  mem_iff_lookup e.distinct

theorem nodup_bindings (e : Env) : e.bindings.Nodup :=
  List.Nodup.of_map Prod.fst e.distinct

theorem get?_eq_of_mem_iff {e e' : Env} (h : ∀ p, p ∈ e.bindings ↔ p ∈ e'.bindings) (i : Nat) :
    e.get? i = e'.get? i := by
  ext t
  exact mem_bindings_iff.symm.trans ((h (i, t)).trans mem_bindings_iff)

/-- Environments are the same if and only if every index has the same term in both. -/
theorem same_iff {e e' : Env} : e.same e' = true ↔ ∀ i, e.get? i = e'.get? i := by
  have hmem : (∀ p ∈ e.bindings, (e'.get? p.1 == some p.2) = true) ↔
      e.bindings ⊆ e'.bindings := by
    refine forall₂_congr fun p _ => ?_
    rw [beq_iff_eq]
    exact mem_bindings_iff.symm
  rw [same, Bool.and_eq_true, beq_iff_eq, List.all_eq_true, hmem]
  constructor
  · rintro ⟨hsize, hsub⟩ i
    -- as many bindings on both sides, so the inclusion is no proper one
    have hperm : e.bindings.Perm e'.bindings :=
      (List.subperm_of_subset e.nodup_bindings hsub).perm_of_length_le (Nat.le_of_eq hsize.symm)
    exact get?_eq_of_mem_iff (fun p => hperm.mem_iff) i
  · intro hget
    have hiff : ∀ p, p ∈ e.bindings ↔ p ∈ e'.bindings := by
      rintro ⟨i, t⟩
      rw [mem_bindings_iff, mem_bindings_iff, hget]
    have hperm := (List.perm_ext_iff_of_nodup e.nodup_bindings e'.nodup_bindings).mpr hiff
    exact ⟨hperm.length_eq, hperm.subset⟩

end Env

/-- Comparing with either of two outcomes that are the same gives one answer. -/
theorem Outcome.same_congr {r s : Outcome} (h : r.same s = true) (q : Outcome) :
    q.same s = q.same r := by
  cases r with
  | value t =>
    cases s with
    | value u =>
      obtain rfl : t = u := of_decide_eq_true h
      rfl
    | closure env b => cases h
  | closure e b =>
    cases s with
    | value u => cases h
    | closure e' b' =>
      rw [same, Bool.and_eq_true, beq_iff_eq, Env.same_iff] at h
      obtain ⟨hget, rfl⟩ := h
      cases q with
      | value t => rfl
      | closure e'' b'' =>
        have henv : e''.same e' = e''.same e := by
          rw [Bool.eq_iff_iff, Env.same_iff, Env.same_iff]
          simp only [hget]
        rw [same, same, henv]

end Nameless
