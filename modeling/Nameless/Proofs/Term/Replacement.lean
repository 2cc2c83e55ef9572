/-
Nameless/Proofs/Term/Replacement.lean

Replacing the variables of a term, seen from their occurrences.

`Term.replace` works with a stack of tasks and a stack of finished terms.  A task to visit
a term puts one finished term on top of those that are there, whatever tasks wait behind it
(`runTasks_visit`), so the machine never looks for a finished term that is missing, and
one is left at the end.

What it gives is decided by the variables of the term, taken from left to right, each with
the number of binders around it (`occurrences`):

* if `f` answers at every one of them, the answers are put in their places
  (`replace_eq_ok_iff`);
* if not, the refusal is the one at the leftmost of those where `f` refuses
  (`replace_eq_error_iff`).

Both go by the form of the term.  Under a binder the occurrences are one deeper, and an
application has those of the function before those of the argument.
-/
import Nameless.Term.Replace

namespace Nameless.Term

variable {ε : Type} {f : Nat → Nat → Except ε Term} {t u : Term}

/-! ### Replacement that may be refused, by the form of the term -/

theorem replaceAt_succ (f : Nat → Nat → Except ε Term) (t : Term) :
    ∀ d, t.replaceAt f (d + 1) = t.replaceAt (fun i k => f i (k + 1)) d := by
  induction t with
  | var i => intro d; rfl
  | lam b ih => intro d; simp only [replaceAt, ih]
  | app g x ihg ihx => intro d; simp only [replaceAt, ihg, ihx]

theorem replace_var (f : Nat → Nat → Except ε Term) (i : Nat) : (var i).replace f = f i 0 := by
  rw [replace_eq, replaceAt]

theorem replace_lam (f : Nat → Nat → Except ε Term) (b : Term) :
    (lam b).replace f = (do
      let b' ← b.replace fun i d => f i (d + 1)
      return lam b') := by
  rw [replace_eq, replace_eq, replaceAt, replaceAt_succ]

theorem replace_app (f : Nat → Nat → Except ε Term) (g x : Term) :
    (app g x).replace f = (do
      let g' ← g.replace f
      let x' ← x.replace f
      return app g' x') := by
  rw [replace_eq, replace_eq, replace_eq, replaceAt]

theorem replace_lam_eq_ok_iff {b : Term} :
    (lam b).replace f = .ok u ↔
      ∃ b', b.replace (fun i d => f i (d + 1)) = .ok b' ∧ lam b' = u := by
  rw [replace_lam]
  cases b.replace (fun i d => f i (d + 1)) with
  | error e => simp [bind, Except.bind]
  | ok b' => simp [bind, Except.bind, pure, Except.pure]

theorem replace_app_eq_ok_iff {g x : Term} :
    (app g x).replace f = .ok u ↔
      ∃ g' x', g.replace f = .ok g' ∧ x.replace f = .ok x' ∧ app g' x' = u := by
  rw [replace_app]
  cases g.replace f with
  | error e => simp [bind, Except.bind]
  | ok g' =>
    cases x.replace f with
    | error e => simp [bind, Except.bind]
    | ok x' => simp [bind, Except.bind, pure, Except.pure]

theorem replace_lam_eq_error_iff {b : Term} {e : ε} :
    (lam b).replace f = .error e ↔ b.replace (fun i d => f i (d + 1)) = .error e := by
  rw [replace_lam]
  cases b.replace (fun i d => f i (d + 1)) with
  | error e' => exact Iff.rfl
  | ok b' => simp [bind, Except.bind, pure, Except.pure]

/-- The argument is looked at only after the function has gone through. -/
theorem replace_app_eq_error_iff {g x : Term} {e : ε} :
    (app g x).replace f = .error e ↔
      g.replace f = .error e ∨ (∃ g', g.replace f = .ok g') ∧ x.replace f = .error e := by
  rw [replace_app]
  cases g.replace f with
  | error e' => simp [bind, Except.bind]
  | ok g' =>
    cases x.replace f with
    | error e' => simp [bind, Except.bind]
    | ok x' => simp [bind, Except.bind, pure, Except.pure]

theorem replaceAt_var (t : Term) :
    ∀ d, t.replaceAt (fun i _ => (.ok (var i) : Except ε Term)) d = .ok t := by
  induction t with
  | var i => intro d; rfl
  | lam b ih => intro d; simp [replaceAt, ih, bind, Except.bind, pure, Except.pure]
  | app g x ihg ihx =>
    intro d
    simp [replaceAt, ihg, ihx, bind, Except.bind, pure, Except.pure]

/-! ### Occurrences -/

/-- In a term that stands under `d` binders, every sub-term stands under `d` more. -/
theorem walkOnto_eq (t : Term) :
    ∀ (d : Nat) (rest : List (Term × Nat)),
      t.walkOnto d rest = t.walk.map (fun s => (s.1, s.2 + d)) ++ rest := by
  induction t with
  | var i =>
    intro d rest
    simp [walk, walkOnto]
  | lam b ih =>
    intro d rest
    show (lam b, d) :: b.walkOnto (d + 1) rest
      = ((lam b, 0) :: b.walkOnto 1 []).map (fun s => (s.1, s.2 + d)) ++ rest
    rw [ih (d + 1), ih 1]
    simp [Nat.add_assoc, Nat.add_comm 1]
  | app f x ihf ihx =>
    intro d rest
    show (app f x, d) :: f.walkOnto d (x.walkOnto d rest)
      = ((app f x, 0) :: f.walkOnto 0 x.walk).map (fun s => (s.1, s.2 + d)) ++ rest
    rw [ihf d, ihx d, ihf 0]
    simp

/-- The index of a sub-term that is a variable, with the binders around it. -/
def indexAt? : Term × Nat → Option (Nat × Nat)
  | (var i, d) => some (i, d)
  | _ => none

/-- The indices of the variables from left to right, each with the number of binders around
it. -/
def occurrences (t : Term) : List (Nat × Nat) :=
  t.walk.filterMap indexAt?

theorem indexAt?_deeper (s : Term × Nat) (d : Nat) :
    indexAt? (s.1, s.2 + d) = (indexAt? s).map fun p => (p.1, p.2 + d) := by
  obtain ⟨t, e⟩ := s
  cases t <;> rfl

@[simp] theorem occurrences_var (i : Nat) : (var i).occurrences = [(i, 0)] := rfl

@[simp] theorem occurrences_lam (b : Term) :
    (lam b).occurrences = b.occurrences.map fun p => (p.1, p.2 + 1) := by
  show (b.walkOnto 1 []).filterMap indexAt? = _
  rw [walkOnto_eq, List.append_nil, List.filterMap_map, occurrences, List.map_filterMap]
  congr 1
  funext s
  exact indexAt?_deeper s 1

@[simp] theorem occurrences_app (g x : Term) :
    (app g x).occurrences = g.occurrences ++ x.occurrences := by
  show (g.walkOnto 0 x.walk).filterMap indexAt? = _
  rw [walkOnto_eq, List.filterMap_append]
  show (g.walk.map id).filterMap indexAt? ++ _ = _
  rw [List.map_id]
  rfl

/-! ### What the occurrences decide -/

/-- Only the answers at the occurrences matter. -/
theorem replace_congr {f f' : Nat → Nat → Except ε Term}
    (h : ∀ p ∈ t.occurrences, f p.1 p.2 = f' p.1 p.2) : t.replace f = t.replace f' := by
  induction t generalizing f f' with
  | var i =>
    rw [replace_var, replace_var]
    exact h (i, 0) List.mem_cons_self
  | lam b ih =>
    have hbody : ∀ p ∈ b.occurrences, f p.1 (p.2 + 1) = f' p.1 (p.2 + 1) := by
      intro p hp
      apply h (p.1, p.2 + 1)
      rw [occurrences_lam]
      exact List.mem_map_of_mem hp
    rw [replace_lam, replace_lam,
      @ih (fun i d => f i (d + 1)) (fun i d => f' i (d + 1)) hbody]
  | app g x ihg ihx =>
    rw [occurrences_app] at h
    rw [replace_app, replace_app, ihg fun p hp => h p (List.mem_append_left _ hp),
      ihx fun p hp => h p (List.mem_append_right _ hp)]

/-- Whether `f` refuses the variable at an occurrence. -/
def refusesAt (f : Nat → Nat → Except ε Term) (p : Nat × Nat) : Bool :=
  !(f p.1 p.2).isOk

theorem refusesAt_eq_true_iff {p : Nat × Nat} :
    refusesAt f p = true ↔ ∃ e, f p.1 p.2 = .error e := by
  rw [refusesAt]
  cases f p.1 p.2 <;> simp [Except.isOk, Except.toBool]

theorem refusesAt_eq_false_iff {p : Nat × Nat} :
    refusesAt f p = false ↔ ∃ u, f p.1 p.2 = .ok u := by
  rw [refusesAt]
  cases f p.1 p.2 <;> simp [Except.isOk, Except.toBool]

/-- A refusal comes from the leftmost occurrence that is refused. -/
theorem replace_eq_error_iff {e : ε} :
    t.replace f = .error e ↔
      ∃ p, t.occurrences.find? (refusesAt f) = some p ∧ f p.1 p.2 = .error e := by
  induction t generalizing f e with
  | var i =>
    rw [replace_var, occurrences_var, List.find?_singleton]
    cases hrefuses : refusesAt f (i, 0) with
    | true => simp
    | false =>
      obtain ⟨u, hu⟩ := refusesAt_eq_false_iff.mp hrefuses
      simp [hu]
  | lam b ih =>
    rw [replace_lam_eq_error_iff, ih, occurrences_lam, List.find?_map]
    constructor
    · rintro ⟨p, hp, he⟩
      exact ⟨(p.1, p.2 + 1), congrArg (Option.map _) hp, he⟩
    · rintro ⟨q, hq, he⟩
      obtain ⟨p, hp, rfl⟩ := Option.map_eq_some_iff.mp hq
      exact ⟨p, hp, he⟩
  | app g x ihg ihx =>
    rw [replace_app_eq_error_iff, occurrences_app, List.find?_append]
    cases hfirst : g.occurrences.find? (refusesAt f) with
    | some p =>
      -- the function is refused, and the argument is not looked at
      obtain ⟨e', he'⟩ := refusesAt_eq_true_iff.mp (List.find?_some hfirst)
      have hg : g.replace f = .error e' := ihg.mpr ⟨p, hfirst, he'⟩
      simp [hg, he']
    | none =>
      have hg : ∃ g', g.replace f = .ok g' := by
        cases hreplace : g.replace f with
        | ok g' => exact ⟨g', rfl⟩
        | error e' =>
          obtain ⟨p, hp, -⟩ := ihg.mp hreplace
          rw [hfirst] at hp
          cases hp
      obtain ⟨g', hg'⟩ := hg
      rw [ihx, Option.none_or]
      simp [hg']

/-- The same, where it is known which occurrences are refused and how. -/
theorem replace_eq_error_iff_of_refuses {refused : Nat × Nat → Bool} {refusal : Nat × Nat → ε}
    (h : ∀ p e, f p.1 p.2 = .error e ↔ refused p = true ∧ e = refusal p) {e : ε} :
    t.replace f = .error e ↔ ∃ p, t.occurrences.find? refused = some p ∧ e = refusal p := by
  have hrefuses : refusesAt f = refused := by
    funext p
    rw [Bool.eq_iff_iff, refusesAt_eq_true_iff]
    simp [h]
  rw [replace_eq_error_iff, hrefuses]
  constructor
  · rintro ⟨p, hp, he⟩
    exact ⟨p, hp, ((h p e).mp he).2⟩
  · rintro ⟨p, hp, he⟩
    exact ⟨p, hp, (h p e).mpr ⟨List.find?_some hp, he⟩⟩

theorem exists_answer_of_replace (h : t.replace f = .ok u) :
    ∀ p ∈ t.occurrences, ∃ v, f p.1 p.2 = .ok v := by
  intro p hp
  cases hfind : t.occurrences.find? (refusesAt f) with
  | some q =>
    obtain ⟨e, he⟩ := refusesAt_eq_true_iff.mp (List.find?_some hfind)
    rw [replace_eq_error_iff.mpr ⟨q, hfind, he⟩] at h
    cases h
  | none =>
    have hp' := List.find?_eq_none.mp hfind p hp
    exact refusesAt_eq_false_iff.mp (Bool.eq_false_iff.mpr hp')

theorem replace_of_answers {g : Nat → Nat → Term}
    (h : ∀ p ∈ t.occurrences, f p.1 p.2 = .ok (g p.1 p.2)) :
    t.replace f = .ok (t.mapVarsAt g 0) := by
  rw [@replace_congr ε t f (fun i d => .ok (g i d)) h, replace_eq, replaceAt_ok]

/-- Replacement goes through exactly if there is an answer at every occurrence, and puts the
answers in their places. -/
theorem replace_eq_ok_iff :
    t.replace f = .ok u ↔
      ∃ g : Nat → Nat → Term,
        (∀ p ∈ t.occurrences, f p.1 p.2 = .ok (g p.1 p.2)) ∧ t.mapVarsAt g 0 = u := by
  constructor
  · intro h
    -- what stands for a refusal does not matter, since there is none at an occurrence
    have hg : ∀ p ∈ t.occurrences, f p.1 p.2 = .ok ((f p.1 p.2).toOption.getD t) := by
      intro p hp
      obtain ⟨v, hv⟩ := exists_answer_of_replace h p hp
      rw [hv]
      rfl
    refine ⟨fun i d => (f i d).toOption.getD t, hg, ?_⟩
    exact Except.ok.inj ((replace_of_answers hg).symm.trans h)
  · rintro ⟨g, hg, rfl⟩
    exact replace_of_answers hg

/-! ### The two stacks -/

/-- **Replacement with two stacks is replacement by recursion.**  Visiting a term puts its
replacement on top of the finished terms and goes on with the tasks that wait, or stops with its
refusal.  So the machine never finds too few finished terms, and leaves exactly one.  That is the
term with every variable swapped for the answer at its index and depth, if there is one for each
of them, and otherwise the leftmost refusal. -/
theorem replace_with_two_stacks (f : Nat → Nat → Except ε Term) (t : Term) :
    (∀ (d : Nat) (tasks : List Task) (done : List Term),
      runTasks f (.visit d t :: tasks) done = (do
        let u ← t.replaceAt f d
        runTasks f tasks (u :: done))) ∧
    runTasks f [.visit 0 t] [] = (t.replaceAt f 0).map (fun u => some [u]) ∧
    t.replace f = t.replaceAt f 0 ∧
    (∀ u, t.replace f = .ok u ↔
      ∃ g : Nat → Nat → Term,
        (∀ p ∈ t.occurrences, f p.1 p.2 = .ok (g p.1 p.2)) ∧ t.mapVarsAt g 0 = u) ∧
    (∀ e, t.replace f = .error e ↔
      ∃ p, t.occurrences.find? (refusesAt f) = some p ∧ f p.1 p.2 = .error e) := by
  have hvisit (d : Nat) (tasks : List Task) (done : List Term) :
      runTasks f (.visit d t :: tasks) done = (do
        let u ← t.replaceAt f d
        runTasks f tasks (u :: done)) := by
    rw [runTasks_visit]
    cases t.replaceAt f d <;> rfl
  refine ⟨hvisit, ?_, replace_eq f t, fun u => replace_eq_ok_iff, fun e => replace_eq_error_iff⟩
  rw [hvisit]
  cases t.replaceAt f 0 with
  | error e => rfl
  | ok u => simp [runTasks, bind, Except.bind, Except.map]

end Nameless.Term
