/-
Nameless/Proofs/Evaluation/Readback.lean

The terms that a configuration of the evaluation machine stands for, and what a
transition does to them.

Code in an environment stands for the term in which the bindings have been put in and
the binders they belong to are gone.  An index that has no binding counts those binders
too, so in the term it should be lower; but the machine leaves it as it is, both when it
meets it and when it writes a closure as a term.  So the machine's own terms stand for
others, in which free indices may be lower (`Raised`), and what code stands for is a
relation (`Env.Reads`) rather than a function.

The continuations of a configuration stand for a path, so that the whole configuration
stands for a term.  Each transition then either leaves that term as it is and makes the
configuration lighter, or contracts the redex at the end of the path (`Moves.reads`).
Calling is contraction because a binding more is a substitution (`Env.Reads.push`).
-/
import Mathlib.Algebra.GroupWithZero.Nat
import Mathlib.Data.List.Forall2
import Nameless.Proofs.Evaluation.Run
import Nameless.Proofs.Term.Substitution
import Nameless.Proofs.Reduction.Beta

namespace Nameless

open Term (var lam app)

/-! ### Raised indices -/

/-- `Raised d t u`: under `d` binders, `u` is `t` up to free indices, which may be higher. -/
inductive Term.Raised : Nat → Term → Term → Prop
  | bound {d i : Nat} (hi : i < d) : Raised d (var i) (var i)
  | free {d i j : Nat} (hi : d ≤ i) (hij : i ≤ j) : Raised d (var i) (var j)
  | lam {d : Nat} {b b' : Term} : Raised (d + 1) b b' → Raised d (lam b) (lam b')
  | app {d : Nat} {f f' a a' : Term} :
      Raised d f f' → Raised d a a' → Raised d (app f a) (app f' a')

namespace Term.Raised

theorem refl (t : Term) : ∀ d, Raised d t t := by
  induction t with
  | var i =>
    intro d
    rcases Nat.lt_or_ge i d with hi | hi
    · exact .bound hi
    · exact .free hi (Nat.le_refl i)
  | lam b ih =>
    intro d
    exact .lam (ih (d + 1))
  | app f a ihf iha =>
    intro d
    exact .app (ihf d) (iha d)

theorem shift {d : Nat} {t u : Term} (h : Raised d t u) (a : Nat) :
    Raised (d + a) (t.shift d a) (u.shift d a) := by
  induction h with
  | bound hi =>
    rw [shift_var_of_lt hi]
    exact .bound (by omega)
  | free hi hij =>
    rw [shift_var_of_le hi, shift_var_of_le (Nat.le_trans hi hij)]
    exact .free (by omega) (by omega)
  | @lam d b b' _ ih =>
    rw [shift_lam, shift_lam]
    refine .lam ?_
    rw [show d + a + 1 = d + 1 + a by omega]
    exact ih
  | app _ _ ihf iha =>
    rw [shift_app, shift_app]
    exact .app ihf iha

/-- Nothing can have been raised to an index that is not there, or to the lowest. -/
theorem eq_of_free {d : Nat} {t u : Term} (h : Raised d t u) :
    (∀ k, u.Free (k + d) → k = 0) → t = u := by
  induction h with
  | bound hi =>
    intro _
    rfl
  | @free d i j hi hij =>
    intro hu
    have hj : j - d = 0 := hu (j - d) (Nat.sub_add_cancel (Nat.le_trans hi hij)).symm
    rw [show i = j by omega]
  | lam _ ih =>
    intro hu
    rw [ih hu]
  | app _ _ ihf iha =>
    intro hu
    rw [ihf fun k hk => hu k (Or.inl hk), iha fun k hk => hu k (Or.inr hk)]

theorem eq_of_closed {t u : Term} (h : Raised 0 t u) (hu : u.Closed) : t = u :=
  h.eq_of_free fun k hk => absurd hk (hu k)

end Term.Raised

open Term (Raised)

/-! ### What code stands for -/

/-- `e.Reads d t u`: under `d` binders, the code `t` stands for `u` in the environment `e`. -/
inductive Env.Reads (e : Env) : Nat → Term → Term → Prop
  | inner {d i : Nat} (hi : i < d) : Reads e d (var i) (var i)
  | bound {d i : Nat} {v t : Term} (hi : d ≤ i) (hv : e.get? (i - d) = some v)
      (ht : Raised 0 t v) : Reads e d (var i) (t.shift 0 d)
  | free {d i j : Nat} (hj : d ≤ j) (hji : j ≤ i) (hi : e.get? (i - d) = none) :
      Reads e d (var i) (var j)
  | lam {d : Nat} {b b' : Term} : Reads e (d + 1) b b' → Reads e d (lam b) (lam b')
  | app {d : Nat} {f f' a a' : Term} :
      Reads e d f f' → Reads e d a a' → Reads e d (app f a) (app f' a')

/-- The code `t` under `d` binders written as a term, as it is done with closures. -/
def Env.write (e : Env) (d : Nat) (t : Term) : Term :=
  t.mapVarsAt (fun i d =>
    if d ≤ i then
      match e.get? (i - d) with
      | some bound => bound.shift 0 d
      | none => var i
    else var i) d

namespace Env

theorem write_var_of_lt (e : Env) {d i : Nat} (h : i < d) : e.write d (var i) = var i := by
  rw [write, Term.mapVarsAt, if_neg (Nat.not_le.mpr h)]

theorem write_var_of_some {e : Env} {d i : Nat} {v : Term} (h : d ≤ i)
    (hv : e.get? (i - d) = some v) : e.write d (var i) = v.shift 0 d := by
  rw [write, Term.mapVarsAt, if_pos h, hv]

theorem write_var_of_none {e : Env} {d i : Nat} (h : d ≤ i) (hi : e.get? (i - d) = none) :
    e.write d (var i) = var i := by
  rw [write, Term.mapVarsAt, if_pos h, hi]

theorem write_lam (e : Env) (d : Nat) (b : Term) : e.write d (lam b) = lam (e.write (d + 1) b) :=
  rfl

theorem write_app (e : Env) (d : Nat) (f a : Term) :
    e.write d (app f a) = app (e.write d f) (e.write d a) := rfl

theorem write_empty (t : Term) : ∀ d, empty.write d t = t := by
  induction t with
  | var i =>
    intro d
    rcases Nat.lt_or_ge i d with hi | hi
    · exact write_var_of_lt empty hi
    · exact write_var_of_none hi (get?_empty (i - d))
  | lam b ih =>
    intro d
    rw [write_lam, ih]
  | app f a ihf iha =>
    intro d
    rw [write_app, ihf, iha]

/-- Written as a term, code stays what it stands for, up to its free indices. -/
theorem Reads.raised_write {e : Env} {d : Nat} {t u : Term} (h : e.Reads d t u) :
    Raised d u (e.write d t) := by
  induction h with
  | inner hi =>
    rw [write_var_of_lt e hi]
    exact .bound hi
  | @bound d i v t hi hv ht =>
    rw [write_var_of_some hi hv]
    have hshift := ht.shift d
    rwa [Nat.zero_add] at hshift
  | free hj hji hi =>
    rw [write_var_of_none (Nat.le_trans hj hji) hi]
    exact .free hj hji
  | lam _ ih => exact .lam ih
  | app _ _ ihf iha => exact .app ihf iha

end Env

/-- In no environment, code stands for what it may have been raised from. -/
theorem Term.Raised.reads {d : Nat} {t u : Term} (h : Raised d t u) : Env.empty.Reads d u t := by
  induction h with
  | bound hi => exact .inner hi
  | free hi hij => exact .free hi hij (Env.get?_empty _)
  | lam _ ih => exact .lam ih
  | app _ _ ihf iha => exact .app ihf iha

/-- Under one binder less and with one binding more, code stands for what it stood for with
the argument in place of that binder's index. -/
theorem Env.Reads.push {e : Env} {a v : Term} (ha : Raised 0 a v) {t : Term} :
    ∀ {d : Nat} {u : Term}, e.Reads (d + 1) t u →
      (e.push v).Reads d t (u.subst d (a.shift 0 d)) := by
  induction t with
  | var i =>
    intro d u h
    have hget (hi : d < i) : (e.push v).get? (i - d) = e.get? (i - (d + 1)) := by
      rw [show i - d = i - (d + 1) + 1 by omega, get?_push_succ]
    cases h with
    | inner hi =>
      rcases Nat.lt_or_eq_of_le (Nat.le_of_lt_succ hi) with hi | rfl
      · rw [Term.subst_var_of_lt hi]
        exact .inner hi
      · rw [Term.subst_var_self]
        refine .bound (Nat.le_refl i) ?_ ha
        rw [Nat.sub_self, get?_push_zero]
    | @bound _ _ w t hi hw ht =>
      -- `t` was moved past one binder more than are left, and is moved back
      rw [Term.subst_shift t _ (Nat.zero_le d) (by omega)]
      exact .bound (by omega) ((hget hi).trans hw) ht
    | @free _ _ j hj hji hi =>
      -- the index is lowered in the term and left in the code, so it stays the lower one
      rw [Term.subst_var_of_gt hj]
      exact .free (by omega) (by omega) ((hget (Nat.le_trans hj hji)).trans hi)
  | lam b ih =>
    intro d u h
    cases h with
    | lam h =>
      rw [Term.subst_lam, Term.shift_shift_of_mem a 1 (Nat.le_refl 0) (Nat.zero_le _)]
      exact .lam (ih h)
  | app f x ihf ihx =>
    intro d u h
    cases h with
    | app hf hx =>
      rw [Term.subst_app]
      exact .app (ihf hf) (ihx hx)

/-! ### What a configuration stands for -/

/-- What an outcome stands for. -/
inductive Outcome.Reads : Outcome → Term → Prop
  | value {t u : Term} : Raised 0 u t → Reads (value t) u
  | closure {env : Env} {b b' : Term} : env.Reads 1 b b' → Reads (closure env b) (lam b')

/-- What the machine is working on stands for. -/
inductive Focus.Reads : Focus → Term → Prop
  | term {env : Env} {t u : Term} : env.Reads 0 t u → Reads (term env t) u
  | outcome {r : Outcome} {u : Term} : r.Reads u → Reads (outcome r) u

/-- The level of a path that a continuation stands for. -/
inductive Continuation.Reads : Continuation → Frame → Prop
  | argument {a a' : Term} {env : Env} : env.Reads 0 a a' → Reads (argument a env) (.function a')
  | apply {f : Outcome} {f' : Term} : f.Reads f' → Reads (apply f) (.argument f')

/-- `c.Reads path t`: what the machine works on stands for `t`, and the continuations for the
path from there to the whole term. -/
structure Configuration.Reads (c : Configuration) (path : Path) (t : Term) : Prop where
  focus : c.1.Reads t
  path : List.Forall₂ Continuation.Reads c.2 path

theorem Configuration.reads_start (t : Term) : (Configuration.start t).Reads [] t :=
  ⟨.term (Raised.refl t 0).reads, .nil⟩

theorem Outcome.toTerm_closure (env : Env) (b : Term) :
    (closure env b).toTerm = env.write 0 (lam b) := by
  rw [toTerm]
  rcases he : env.isEmpty with - | -
  · rw [if_neg (by decide), Term.mapVars_eq]
    rfl
  · obtain ⟨bindings, distinct⟩ := env
    obtain rfl : bindings = [] := List.isEmpty_iff.mp he
    exact (Env.write_empty (lam b) 0).symm

/-- Written as a term, an outcome stays what it stands for, up to its free indices. -/
theorem Outcome.Reads.raised {r : Outcome} {u : Term} (h : r.Reads u) : Raised 0 u r.toTerm := by
  cases h with
  | value h => exact h
  | closure h =>
    rw [toTerm_closure]
    exact .lam h.raised_write

/-- What can be called stands for an abstraction, and its body for the body of that. -/
theorem Outcome.Reads.closure? {f : Outcome} {f' : Term} (h : f.Reads f') {env : Env} {b : Term}
    (hf : f.closure? = some (env, b)) : ∃ b', f' = lam b' ∧ env.Reads 1 b b' := by
  rcases Outcome.closure?_eq_some hf with rfl | ⟨rfl, rfl⟩
  · cases h with
    | closure h => exact ⟨_, rfl, h⟩
  · cases h with
    | value h =>
      cases h with
      | lam h => exact ⟨_, rfl, h.reads⟩

/-! ### What a transition does -/

/-- What is left to do before the next call. -/
def Continuation.weight : Continuation → Nat
  | argument a _ => 3 * a.size + 2
  | apply _ => 1

@[inherit_doc Continuation.weight]
def Focus.weight : Focus → Nat
  | term _ t => 3 * t.size
  | outcome _ => 0

@[inherit_doc Continuation.weight]
def Configuration.weight (c : Configuration) : Nat :=
  c.1.weight + (c.2.map Continuation.weight).sum

/-- What a variable is looked up as stands for what the variable stands for. -/
theorem Env.Reads.lookup {e : Env} {i : Nat} {u : Term} (h : e.Reads 0 (var i) u) :
    Raised 0 u ((e.get? i).getD (var i)) := by
  cases h with
  | inner hi => exact absurd hi (Nat.not_lt_zero i)
  | bound _ hv ht =>
    rw [Nat.sub_zero] at hv
    rw [hv, Term.shift_zero]
    exact ht
  | free hj hji hi =>
    rw [Nat.sub_zero] at hi
    rw [hi]
    exact .free hj hji

/-- A transition leaves the whole term as it is and makes the configuration lighter; or it is
a call, and contracts the redex at the end of the path. -/
theorem Moves.reads {c c' : Configuration} (h : Moves c c') {path : Path} {t : Term}
    (hc : c.Reads path t) :
    (∃ path' t', c'.Reads path' t' ∧ path'.plug t' = path.plug t ∧ c'.weight < c.weight) ∨
    ∃ (r f : Outcome) (ks : List Continuation) (path' : Path) (b : Term),
      c = (.outcome r, .apply f :: ks) ∧ path = .argument (lam b) :: path' ∧
      c'.Reads path' (Redex.contract ⟨b, t⟩) := by
  obtain ⟨hfocus, hpath⟩ := hc
  cases h with
  | lookup env i ks =>
    left
    cases hfocus with
    | term ht =>
      refine ⟨path, t, ⟨.outcome (.value ht.lookup), hpath⟩, rfl, ?_⟩
      simp [Configuration.weight, Focus.weight, Term.size]
  | abstraction env b ks =>
    left
    cases hfocus with
    | term ht =>
      cases ht with
      | lam hb =>
        refine ⟨path, _, ⟨.outcome (.closure hb), hpath⟩, rfl, ?_⟩
        simp [Configuration.weight, Focus.weight, Term.size]
  | function env f a ks =>
    left
    cases hfocus with
    | term ht =>
      cases ht with
      | app hf ha =>
        refine ⟨_ :: path, _, ⟨.term hf, .cons (.argument ha) hpath⟩, rfl, ?_⟩
        simp only [Configuration.weight, Focus.weight, Continuation.weight, Term.size,
          List.map_cons, List.sum_cons]
        omega
  | argument r a env ks =>
    left
    cases hfocus with
    | outcome hr =>
      rcases hpath with - | ⟨ha, hks⟩
      cases ha with
      | argument ha =>
        refine ⟨_ :: _, _, ⟨.term ha, .cons (.apply hr) hks⟩, rfl, ?_⟩
        simp only [Configuration.weight, Focus.weight, Continuation.weight, List.map_cons,
          List.sum_cons]
        omega
  | @call r f env b ks hf =>
    right
    cases hfocus with
    | outcome hr =>
      rcases hpath with - | ⟨hfun, hks⟩
      cases hfun with
      | apply hfun =>
        obtain ⟨b', rfl, hb⟩ := hfun.closure? hf
        -- the argument is written as a term before it is bound, which may raise indices in it
        have hpush := hb.push hr.raised
        rw [Term.shift_zero] at hpush
        exact ⟨r, f, ks, _, b', rfl, rfl, .term hpush, hks⟩
  | @stuck r f ks hf =>
    left
    obtain ⟨g, rfl, -⟩ := Outcome.exists_value_of_closure? hf
    cases hfocus with
    | outcome hr =>
      rcases hpath with - | ⟨hfun, hks⟩
      cases hfun with
      | apply hfun =>
        cases hfun with
        | value hg =>
          refine ⟨_, _, ⟨.outcome (.value (.app hg hr.raised)), hks⟩, rfl, ?_⟩
          simp [Configuration.weight, Focus.weight, Continuation.weight]

end Nameless
