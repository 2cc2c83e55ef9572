/-
Nameless/Proofs/Reduction/NormalOrder.lean

The normal-order step and the loop around it, by the shape of the term.

The search for the first redex keeps a stack of places, each with the path to it.
`searchRedex_cons` takes one place off the stack: what is found there does not
depend on what lies below it, and the path of the place is the outer part of the
path that is found.  Everything else is read off from it:

* `firstRedex?`, `hasRedex` and `step` have one equation for each form of a term;
* `step t` is `t` with the first redex contracted in place (`step_of_firstRedex?`,
  `plug_of_firstRedex?`).

The loop is iteration of `step` up to the first fixpoint.  `normalize_of_iterate`
says that once some iterate is a fixpoint, the loop ends with it at one definite
count of steps, whatever bound above that count it is given.
-/
import Mathlib.Logic.Function.Iterate
import Nameless.Reduction.Normalize

namespace Nameless

/-! ### Paths -/

/-- The inner part of a path is plugged first. -/
theorem Path.plug_append (inner outer : Path) (t : Term) :
    Path.plug (inner ++ outer) t = outer.plug (inner.plug t) := by
  induction inner generalizing t with
  | nil => rfl
  | cons frame inner ih => exact ih (frame.wrap t)

/-- A redex that was found in a sub-term, seen from further out. -/
def Occurrence.within (o : Occurrence) (outer : Path) : Occurrence :=
  ⟨o.redex, o.path ++ outer⟩

theorem Occurrence.within_within (o : Occurrence) (path outer : Path) :
    (o.within path).within outer = o.within (path ++ outer) := by
  simp only [within, List.append_assoc]

/-- One level further out, what is put for the redex has that level around it. -/
theorem Occurrence.plug_within (o : Occurrence) (frame : Frame) (t : Term) :
    (o.within [frame]).path.plug t = frame.wrap (o.path.plug t) := by
  rw [within, Path.plug_append]
  rfl

/-- An application is a redex or not by the form of its function. -/
theorem Term.eq_lam_or_forall_ne (t : Term) : (∃ b, t = .lam b) ∨ ∀ b, t ≠ .lam b := by
  by_cases h : ∃ b, t = .lam b
  · exact Or.inl h
  · exact Or.inr fun b hb => h ⟨b, hb⟩

/-! ### The search, one place at a time -/

/-- An application of anything but an abstraction is no redex, so its two parts are the
next places. -/
theorem searchRedex_app {f : Term} (hf : ∀ b, f ≠ .lam b) (a : Term) (path : Path)
    (rest : List (Term × Path)) :
    searchRedex ((.app f a, path) :: rest)
      = searchRedex ((f, .function a :: path) :: (a, .argument f :: path) :: rest) := by
  rw [searchRedex]
  exact hf

/-- The place on top of the stack is searched by itself, and the rest of the stack only
if nothing is found there. -/
theorem searchRedex_cons (t : Term) :
    ∀ (path : Path) (rest : List (Term × Path)),
      searchRedex ((t, path) :: rest)
        = (t.firstRedex?.map fun o => o.within path).or (searchRedex rest) := by
  induction t with
  | var i =>
    intro path rest
    rw [Term.firstRedex?, searchRedex, searchRedex, searchRedex]
    rfl
  | lam b ih =>
    intro path rest
    rw [Term.firstRedex?, searchRedex, ih, searchRedex, ih, searchRedex, Option.or_none,
      Option.map_map]
    simp only [Function.comp_def, Occurrence.within_within, List.singleton_append]
  | app f a ihf iha =>
    intro path rest
    rcases f.eq_lam_or_forall_ne with ⟨b, rfl⟩ | hne
    · rw [Term.firstRedex?, searchRedex, searchRedex]
      rfl
    · -- both sides search the two parts in turn, and differ in the paths alone
      rw [Term.firstRedex?, searchRedex_app hne, ihf, iha, searchRedex_app hne, ihf, iha,
        searchRedex, Option.or_none, ← Option.or_assoc, Option.map_or, Option.map_map,
        Option.map_map]
      simp only [Function.comp_def, Occurrence.within_within, List.singleton_append]

namespace Term

/-! ### The first redex, by the form of the term -/

@[simp] theorem firstRedex?_var (i : Nat) : (var i).firstRedex? = none := by
  rw [firstRedex?, searchRedex, searchRedex]

@[simp] theorem firstRedex?_redex (b a : Term) :
    (app (lam b) a).firstRedex? = some ⟨⟨b, a⟩, []⟩ := by
  rw [firstRedex?, searchRedex]

@[simp] theorem firstRedex?_lam (b : Term) :
    (lam b).firstRedex? = b.firstRedex?.map fun o => o.within [.body] := by
  rw [firstRedex?, searchRedex, searchRedex_cons, searchRedex, Option.or_none]

theorem firstRedex?_app {f : Term} (hf : ∀ b, f ≠ lam b) (a : Term) :
    (app f a).firstRedex?
      = (f.firstRedex?.map fun o => o.within [.function a]).or
          (a.firstRedex?.map fun o => o.within [.argument f]) := by
  rw [firstRedex?, searchRedex_app hf, searchRedex_cons, searchRedex_cons, searchRedex,
    Option.or_none]

/-- What the search finds is in the term, at the end of the path that it gives. -/
theorem plug_of_firstRedex? {t : Term} :
    ∀ {o : Occurrence}, t.firstRedex? = some o → o.path.plug o.redex.toTerm = t := by
  induction t with
  | var i =>
    intro o h
    simp at h
  | lam b ih =>
    intro o h
    rw [firstRedex?_lam] at h
    obtain ⟨p, hp, rfl⟩ := Option.map_eq_some_iff.mp h
    rw [← ih hp]
    exact p.plug_within .body _
  | app f a ihf iha =>
    intro o h
    rcases f.eq_lam_or_forall_ne with ⟨b, rfl⟩ | hne
    · rw [firstRedex?_redex] at h
      obtain rfl := Option.some.inj h
      rfl
    · rw [firstRedex?_app hne] at h
      rcases Option.or_eq_some_iff.mp h with h | ⟨-, h⟩
      · obtain ⟨p, hp, rfl⟩ := Option.map_eq_some_iff.mp h
        have hplug := p.plug_within (.function a) p.redex.toTerm
        rwa [ihf hp] at hplug
      · obtain ⟨p, hp, rfl⟩ := Option.map_eq_some_iff.mp h
        have hplug := p.plug_within (.argument f) p.redex.toTerm
        rwa [iha hp] at hplug

/-! ### Whether there is a redex -/

theorem hasRedex_eq_false_iff {t : Term} : t.hasRedex = false ↔ t.firstRedex? = none := by
  rw [hasRedex, Option.isSome_eq_false_iff, Option.isNone_iff_eq_none]

@[simp] theorem hasRedex_var (i : Nat) : (var i).hasRedex = false := by
  simp [hasRedex]

@[simp] theorem hasRedex_redex (b a : Term) : (app (lam b) a).hasRedex = true := by
  simp [hasRedex]

@[simp] theorem hasRedex_lam (b : Term) : (lam b).hasRedex = b.hasRedex := by
  simp [hasRedex]

theorem hasRedex_app {f : Term} (hf : ∀ b, f ≠ lam b) (a : Term) :
    (app f a).hasRedex = (f.hasRedex || a.hasRedex) := by
  simp [hasRedex, firstRedex?_app hf]

/-- An application without a redex has no abstraction in front, and no redex in its parts. -/
theorem hasRedex_app_eq_false {f a : Term} (h : (app f a).hasRedex = false) :
    (∀ b, f ≠ lam b) ∧ f.hasRedex = false ∧ a.hasRedex = false := by
  have hf : ∀ b, f ≠ lam b := by
    rintro b rfl
    rw [hasRedex_redex] at h
    cases h
  rw [hasRedex_app hf, Bool.or_eq_false_iff] at h
  exact ⟨hf, h⟩

/-! ### The step, by the form of the term -/

theorem step_of_firstRedex? {t : Term} {o : Occurrence} (h : t.firstRedex? = some o) :
    t.step = o.path.plug o.redex.contract := by
  rw [step, h]

/-- A term without a redex stays as it is. -/
theorem step_of_hasRedex_eq_false {t : Term} (h : t.hasRedex = false) : t.step = t := by
  rw [step, hasRedex_eq_false_iff.mp h]

/-- A term whose first redex is the one of a sub-term makes the step of that sub-term. -/
theorem step_within {t u : Term} {o : Occurrence} {frame : Frame} (ht : t.firstRedex? = some o)
    (hu : u.firstRedex? = some (o.within [frame])) : u.step = frame.wrap t.step := by
  rw [step_of_firstRedex? hu, step_of_firstRedex? ht, Occurrence.plug_within]
  rfl

@[simp] theorem step_redex (b a : Term) : (app (lam b) a).step = b.subst 0 a := by
  rw [step_of_firstRedex? (firstRedex?_redex b a)]
  rfl

@[simp] theorem step_lam (b : Term) : (lam b).step = lam b.step := by
  rcases h : b.firstRedex? with - | o
  · rw [step, firstRedex?_lam, step, h]
    rfl
  · have hl : (lam b).firstRedex? = some (o.within [.body]) := by
      rw [firstRedex?_lam, h]
      rfl
    exact step_within h hl

/-- A redex in the function goes before every redex in the argument. -/
theorem step_app_of_hasRedex {f : Term} (hf : ∀ b, f ≠ lam b) (h : f.hasRedex = true)
    (a : Term) : (app f a).step = app f.step a := by
  obtain ⟨o, ho⟩ := Option.isSome_iff_exists.mp h
  have hfa : (app f a).firstRedex? = some (o.within [.function a]) := by
    rw [firstRedex?_app hf, ho]
    rfl
  exact step_within ho hfa

/-- Once the function has no redex, the argument is next. -/
theorem step_app_of_hasRedex_eq_false {f : Term} (hf : ∀ b, f ≠ lam b)
    (h : f.hasRedex = false) (a : Term) : (app f a).step = app f a.step := by
  have hnone : f.firstRedex? = none := hasRedex_eq_false_iff.mp h
  rcases ha : a.firstRedex? with - | o
  · rw [step, firstRedex?_app hf, hnone, step, ha]
    rfl
  · have hfa : (app f a).firstRedex? = some (o.within [.argument f]) := by
      rw [firstRedex?_app hf, hnone, ha]
      rfl
    exact step_within ha hfa

/-! ### The loop -/

/-- What the loop returns is an iterate of the step that the step leaves as it is. -/
theorem iterate_of_normalize {n : Term} :
    ∀ {fuel : Nat} {t : Term}, t.normalize fuel = some n → ∃ k, step^[k] t = n ∧ n.step = n := by
  intro fuel
  induction fuel with
  | zero =>
    intro t h
    simp [normalize] at h
  | succ fuel ih =>
    intro t h
    by_cases hstop : t.step = t
    · simp only [normalize, if_pos hstop, Option.some.injEq] at h
      subst h
      exact ⟨0, rfl, hstop⟩
    · simp only [normalize, if_neg hstop] at h
      obtain ⟨k, hk, hn⟩ := ih h
      exact ⟨k + 1, hk, hn⟩

/-- A fixpoint among the iterates is where the loop ends: after one definite number of
steps, and with that fixpoint for every bound that allows them.  An earlier fixpoint would
be the same term, since nothing comes after it. -/
theorem normalize_of_iterate {n : Term} (hn : n.step = n) :
    ∀ {k : Nat} {t : Term}, step^[k] t = n →
      ∃ m, ∀ fuel, t.normalize fuel = if m < fuel then some n else none := by
  intro k
  induction k with
  | zero =>
    rintro t rfl
    refine ⟨0, fun fuel => ?_⟩
    rcases fuel with - | fuel
    · rfl
    · simp only [normalize, Function.iterate_zero, id_eq] at hn ⊢
      rw [if_pos hn, if_pos (Nat.succ_pos fuel)]
  | succ k ih =>
    intro t hk
    by_cases hstop : t.step = t
    · -- the loop stops before `k + 1` steps are made, but at the same term
      have htn : t = n := by
        rw [← hk, Function.iterate_fixed hstop]
      subst htn
      exact ih (by rw [Function.iterate_fixed hstop])
    · obtain ⟨m, hm⟩ := ih hk
      refine ⟨m + 1, fun fuel => ?_⟩
      rcases fuel with - | fuel
      · rfl
      · simp only [normalize, if_neg hstop, hm, Nat.add_lt_add_iff_right]

/-- The bound decides whether there is an answer, and never which. -/
theorem normalize_unique {t m n : Term} {fuel fuel' : Nat} (hm : t.normalize fuel = some m)
    (hn : t.normalize fuel' = some n) : m = n := by
  obtain ⟨k, hk, hfix⟩ := iterate_of_normalize hm
  obtain ⟨b, hb⟩ := normalize_of_iterate hfix hk
  rw [hb] at hn
  split at hn
  · exact Option.some.inj hn
  · cases hn

end Term

end Nameless
