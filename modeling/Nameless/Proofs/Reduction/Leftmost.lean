/-
Nameless/Proofs/Reduction/Leftmost.lean

Which redex the search finds, and what the step does to the rest of the term.

Equal sub-terms may occur in several places, so an occurrence is told by its address:
the numbers of the children to enter, from the root down, where the children are
numbered in display order.  `t.subterm? p` is the sub-term at the address `p`, and
`t.putAt p s` is `t` with `s` in its place; both go down from the root, while a path is
kept and plugged from the inside out.  `Path.address` joins the two: plugging a path is
putting a sub-term at its address (`Path.putAt_plug`), and leaves what stands off the
path as it was (`Path.subterm?_plug_of_not_prefix`).

Pre-order is the lexicographic order of addresses, `List.Lex (· < ·)`: a term comes before
its sub-terms, since a list comes before its extensions, and what stands in a function
before what stands in its argument.  So the first redex is the one with the least address
(`firstRedex?_least`).
-/
import Mathlib.Data.List.Induction
import Mathlib.Data.List.Lex
import Nameless.Proofs.Reduction.Beta

namespace Nameless

namespace Term

/-- The sub-term at an address: the numbers of the children to enter, from the root. -/
def subterm? : List Nat → Term → Option Term
  | [], t => some t
  | n :: p, t => t.children[n]?.bind fun s => s.subterm? p

/-- The term with `s` put for the sub-term at an address.  An address outside the term
leaves it alone. -/
def putAt : List Nat → Term → Term → Term
  | [], _, s => s
  | 0 :: p, lam b, s => lam (b.putAt p s)
  | 0 :: p, app f a, s => app (f.putAt p s) a
  | 1 :: p, app f a, s => app f (a.putAt p s)
  | _ :: _, t, _ => t

end Term

/-- The number of the child that the frame leads into. -/
def Frame.child : Frame → Nat
  | body => 0
  | function _ => 0
  | argument _ => 1

/-- The address of the end of a path.  The path begins there, the address at the root. -/
def Path.address (path : Path) : List Nat :=
  (path.map Frame.child).reverse

theorem Redex.toTerm_injective : Function.Injective Redex.toTerm := by
  rintro ⟨b, a⟩ ⟨b', a'⟩ h
  obtain ⟨hlam, rfl⟩ := Term.app.inj h
  obtain rfl := Term.lam.inj hlam
  rfl

/-! ### One level -/

theorem Frame.children_wrap (frame : Frame) (t : Term) :
    (frame.wrap t).children[frame.child]? = some t := by
  cases frame <;> rfl

/-- The other child, if there is one, belongs to the frame. -/
theorem Frame.children_wrap_of_ne {frame : Frame} {n : Nat} (h : n ≠ frame.child) (t u : Term) :
    (frame.wrap t).children[n]? = (frame.wrap u).children[n]? := by
  cases frame with
  | body =>
    rcases n with - | n
    · exact absurd rfl h
    · rfl
  | function a =>
    rcases n with - | n
    · exact absurd rfl h
    · rfl
  | argument f =>
    rcases n with - | - | n
    · rfl
    · exact absurd rfl h
    · rfl

theorem Frame.putAt_wrap (frame : Frame) (p : List Nat) (s t : Term) :
    (frame.wrap t).putAt (frame.child :: p) s = frame.wrap (t.putAt p s) := by
  cases frame <;> rfl

theorem Frame.exists_wrap_of_children {t u : Term} {n : Nat} (h : t.children[n]? = some u) :
    ∃ frame : Frame, frame.child = n ∧ frame.wrap u = t := by
  cases t with
  | var i => cases h
  | lam b =>
    rcases n with - | n
    · obtain rfl := Option.some.inj h
      exact ⟨.body, rfl, rfl⟩
    · cases h
  | app f a =>
    rcases n with - | - | n
    · obtain rfl := Option.some.inj h
      exact ⟨.function a, rfl, rfl⟩
    · obtain rfl := Option.some.inj h
      exact ⟨.argument f, rfl, rfl⟩
    · cases h

theorem Frame.wrap_inj {frame frame' : Frame} {t u : Term} (hchild : frame.child = frame'.child)
    (h : frame.wrap t = frame'.wrap u) : frame = frame' ∧ t = u := by
  cases frame <;> cases frame' <;> simp_all [child, wrap]

/-! ### Paths and addresses -/

namespace Path

theorem address_concat (path : Path) (frame : Frame) :
    address (path ++ [frame]) = frame.child :: path.address := by
  simp [address]

theorem plug_concat (path : Path) (frame : Frame) (t : Term) :
    plug (path ++ [frame]) t = frame.wrap (path.plug t) :=
  plug_append path [frame] t

/-- What is plugged stands at the address of the path. -/
theorem subterm?_plug (path : Path) (s : Term) :
    (path.plug s).subterm? path.address = some s := by
  induction path using List.reverseRecOn with
  | nil => rfl
  | append_singleton path frame ih =>
    rw [address_concat, plug_concat, Term.subterm?, Frame.children_wrap, Option.bind_some, ih]

/-- Plugging a path from the inside out puts the sub-term at its address. -/
theorem putAt_plug (path : Path) (s u : Term) :
    (path.plug u).putAt path.address s = path.plug s := by
  induction path using List.reverseRecOn with
  | nil => rfl
  | append_singleton path frame ih =>
    rw [address_concat, plug_concat, plug_concat, Frame.putAt_wrap, ih]

/-- A place that is neither above the end of the path nor below it holds the same whatever
is plugged. -/
theorem subterm?_plug_of_not_prefix {path : Path} (s u : Term) :
    ∀ {p : List Nat}, ¬ p <+: path.address → ¬ path.address <+: p →
      (path.plug s).subterm? p = (path.plug u).subterm? p := by
  induction path using List.reverseRecOn with
  | nil =>
    intro p _ hbelow
    exact absurd List.nil_prefix hbelow
  | append_singleton path frame ih =>
    intro p habove hbelow
    rw [address_concat] at habove hbelow
    rw [plug_concat, plug_concat]
    rcases p with - | ⟨n, p⟩
    · exact absurd List.nil_prefix habove
    · rw [Term.subterm?, Term.subterm?]
      by_cases hn : n = frame.child
      · subst hn
        rw [Frame.children_wrap, Frame.children_wrap, Option.bind_some, Option.bind_some]
        apply ih
        · exact fun h => habove (List.cons_prefix_cons.mpr ⟨rfl, h⟩)
        · exact fun h => hbelow (List.cons_prefix_cons.mpr ⟨rfl, h⟩)
      · rw [Frame.children_wrap_of_ne hn]

/-- A term has one path to each address. -/
theorem eq_of_address_eq {path path' : Path} {s u : Term} (haddress : path.address = path'.address)
    (h : path.plug s = path'.plug u) : path = path' := by
  induction path using List.reverseRecOn generalizing path' with
  | nil =>
    rcases List.eq_nil_or_concat path' with rfl | ⟨path', frame', rfl⟩
    · rfl
    · rw [List.concat_eq_append, address_concat] at haddress
      cases haddress
  | append_singleton path frame ih =>
    rcases List.eq_nil_or_concat path' with rfl | ⟨path', frame', rfl⟩
    · rw [address_concat] at haddress
      cases haddress
    · rw [List.concat_eq_append] at haddress h ⊢
      rw [address_concat, address_concat, List.cons.injEq] at haddress
      rw [plug_concat, plug_concat] at h
      obtain ⟨rfl, hplug⟩ := Frame.wrap_inj haddress.1 h
      rw [ih haddress.2 hplug]

end Path

namespace Term

/-- Every address in a term is the address of a path. -/
theorem exists_path_of_subterm? {p : List Nat} {s : Term} :
    ∀ {t : Term}, t.subterm? p = some s → ∃ path : Path, path.address = p ∧ path.plug s = t := by
  induction p with
  | nil =>
    intro t h
    exact ⟨[], rfl, (Option.some.inj h).symm⟩
  | cons n p ih =>
    intro t h
    obtain ⟨u, hu, hs⟩ := Option.bind_eq_some_iff.mp h
    obtain ⟨frame, rfl, rfl⟩ := Frame.exists_wrap_of_children hu
    obtain ⟨path, rfl, rfl⟩ := ih hs
    exact ⟨path ++ [frame], path.address_concat frame, path.plug_concat frame s⟩

/-- Addresses and paths lead to the same sub-terms. -/
theorem redexFree_iff_subterm? {t : Term} :
    RedexFree t ↔ ∀ p s, t.subterm? p = some s → s.isRedex = false := by
  constructor
  · intro h p s hs
    obtain ⟨path, -, hplug⟩ := exists_path_of_subterm? hs
    exact h path s hplug
  · rintro h path s rfl
    exact h path.address s (path.subterm?_plug s)

theorem firstRedex?_eq_none_iff {t : Term} : t.firstRedex? = none ↔ RedexFree t := by
  rw [← hasRedex_eq_false_iff, redexFree_iff]

/-! ### The first redex -/

/-- No redex stands before the one that is found. -/
theorem firstRedex?_least {t : Term} :
    ∀ {o : Occurrence}, t.firstRedex? = some o →
      ∀ {p : List Nat} {s : Term}, t.subterm? p = some s → s.isRedex = true →
        o.path.address = p ∨ List.Lex (· < ·) o.path.address p := by
  induction t with
  | var i =>
    intro o h
    simp at h
  | lam b ih =>
    intro o h p s hs hredex
    rw [firstRedex?_lam] at h
    obtain ⟨o, ho, rfl⟩ := Option.map_eq_some_iff.mp h
    rw [Occurrence.within, Path.address_concat]
    rcases p with - | ⟨n, p⟩
    · obtain rfl := Option.some.inj hs
      cases hredex
    · obtain ⟨u, hu, hs⟩ := Option.bind_eq_some_iff.mp hs
      rcases n with - | n
      · obtain rfl := Option.some.inj hu
        exact (ih ho hs hredex).imp (congrArg _) List.Lex.cons
      · cases hu
  | app f a ihf iha =>
    intro o h p s hs hredex
    rcases f.eq_lam_or_forall_ne with ⟨b, rfl⟩ | hne
    · rw [firstRedex?_redex] at h
      obtain rfl := Option.some.inj h
      exact (List.lex_nil_or_eq_nil p).symm.imp_left Eq.symm
    · rw [firstRedex?_app hne] at h
      rcases p with - | ⟨n, p⟩
      · -- the whole term is no redex
        obtain rfl := Option.some.inj hs
        obtain ⟨r, hr⟩ := exists_toTerm_of_isRedex hredex
        exact absurd (Term.app.inj hr).1.symm (hne r.body)
      · obtain ⟨u, hu, hs⟩ := Option.bind_eq_some_iff.mp hs
        rcases Option.or_eq_some_iff.mp h with h | ⟨hnone, h⟩
        · obtain ⟨o, ho, rfl⟩ := Option.map_eq_some_iff.mp h
          rw [Occurrence.within, Path.address_concat]
          rcases n with - | n
          · obtain rfl := Option.some.inj hu
            exact (ihf ho hs hredex).imp (congrArg _) List.Lex.cons
          · exact Or.inr (List.Lex.rel (Nat.succ_pos n))
        · obtain ⟨o, ho, rfl⟩ := Option.map_eq_some_iff.mp h
          rw [Occurrence.within, Path.address_concat]
          rcases n with - | - | n
          · -- the function has been searched before, and has none
            obtain rfl := Option.some.inj hu
            have hfree := firstRedex?_eq_none_iff.mp (Option.map_eq_none_iff.mp hnone)
            have hfalse := redexFree_iff_subterm?.mp hfree p s hs
            rw [hredex] at hfalse
            cases hfalse
          · obtain rfl := Option.some.inj hu
            exact (iha ho hs hredex).imp (congrArg _) List.Lex.cons
          · cases hu

theorem subterm?_of_firstRedex? {t : Term} {o : Occurrence} (h : t.firstRedex? = some o) :
    t.subterm? o.path.address = some o.redex.toTerm := by
  have hplug := o.path.subterm?_plug o.redex.toTerm
  rwa [plug_of_firstRedex? h] at hplug

/-- There is one occurrence of a redex at the least address. -/
theorem firstRedex?_of_least {t : Term} {o : Occurrence} (hplug : o.path.plug o.redex.toTerm = t)
    (hleast : ∀ p s, t.subterm? p = some s → s.isRedex = true →
      o.path.address = p ∨ List.Lex (· < ·) o.path.address p) :
    t.firstRedex? = some o := by
  have hat : t.subterm? o.path.address = some o.redex.toTerm := by
    rw [← hplug, Path.subterm?_plug]
  rcases hfirst : t.firstRedex? with - | o'
  · have hfalse : true = false :=
      redexFree_iff_subterm?.mp (firstRedex?_eq_none_iff.mp hfirst) _ _ hat
    cases hfalse
  · have haddress : o'.path.address = o.path.address := by
      rcases firstRedex?_least hfirst hat rfl with heq | hbefore
      · exact heq
      · rcases hleast _ _ (subterm?_of_firstRedex? hfirst) rfl with heq | hafter
        · exact heq.symm
        · exact absurd hafter (asymm_of (List.Lex (· < ·)) hbefore)
    have hpath : o'.path = o.path :=
      Path.eq_of_address_eq haddress ((plug_of_firstRedex? hfirst).trans hplug.symm)
    have hredex : o'.redex = o.redex := by
      have hat' := subterm?_of_firstRedex? hfirst
      rw [haddress, hat] at hat'
      exact Redex.toTerm_injective (Option.some.inj hat').symm
    obtain ⟨redex, path⟩ := o
    obtain rfl : o'.redex = redex := hredex
    obtain rfl : o'.path = path := hpath
    rfl

/-- **The search finds the leftmost outermost redex, and the step contracts it in place.**  It
finds nothing if and only if no sub-term is a redex.  What it finds is a redex at the end of the
path it gives, before all others in pre-order; no other occurrence is like that.  The step puts
the contractum at that address, and what stands off the path is as before. -/
theorem firstRedex?_leftmost_outermost (t : Term) :
    (t.firstRedex? = none ↔ ∀ p s, t.subterm? p = some s → s.isRedex = false) ∧
    (∀ o : Occurrence, t.firstRedex? = some o ↔
      t.subterm? o.path.address = some o.redex.toTerm ∧
      (∀ p s, t.subterm? p = some s → s.isRedex = true →
        o.path.address = p ∨ List.Lex (· < ·) o.path.address p) ∧
      o.path.plug o.redex.toTerm = t) ∧
    (∀ o : Occurrence, t.firstRedex? = some o →
      t.step = t.putAt o.path.address o.redex.contract ∧
      t.step.subterm? o.path.address = some o.redex.contract ∧
      ∀ p, ¬ p <+: o.path.address → ¬ o.path.address <+: p →
        t.step.subterm? p = t.subterm? p) := by
  refine ⟨?_, fun o => ⟨fun h => ?_, ?_⟩, fun o h => ?_⟩
  · rw [firstRedex?_eq_none_iff, redexFree_iff_subterm?]
  · exact ⟨subterm?_of_firstRedex? h, fun p s hs => firstRedex?_least h hs, plug_of_firstRedex? h⟩
  · rintro ⟨-, hleast, hplug⟩
    exact firstRedex?_of_least hplug hleast
  · have hstep := step_of_firstRedex? h
    have hplug := plug_of_firstRedex? h
    refine ⟨?_, ?_, fun p habove hbelow => ?_⟩
    · rw [hstep, ← o.path.putAt_plug _ o.redex.toTerm, hplug]
    · rw [hstep, Path.subterm?_plug]
    · rw [hstep, Path.subterm?_plug_of_not_prefix _ o.redex.toTerm habove hbelow, hplug]

/-- In `λ. 0 (0 ((λ. 0) 5)) ((λ. 0) 5)` the redex `(λ. 0) 5` occurs twice, and the deeper
occurrence comes first. -/
theorem firstRedex?_leftmost_outermost_twice :
    let r : Redex := ⟨var 0, var 5⟩
    let t := lam (app (app (var 0) (app (var 0) r.toTerm)) r.toTerm)
    let path : Path := [.argument (var 0), .argument (var 0), .function r.toTerm, .body]
    t.firstRedex? = some ⟨r, path⟩ ∧
    path.address = [0, 0, 1, 1] ∧
    t.step = lam (app (app (var 0) (app (var 0) (var 5))) r.toTerm) ∧
    t.step.subterm? [0, 1] = some r.toTerm := by
  intro r t path
  obtain ⟨-, -, hstep⟩ := firstRedex?_leftmost_outermost t
  have hfirst : t.firstRedex? = some ⟨r, path⟩ := by
    simp [t, r, path, Redex.toTerm, firstRedex?_app, Occurrence.within]
  obtain ⟨hput, -, hoff⟩ := hstep _ hfirst
  refine ⟨hfirst, by decide, hput.trans (by decide +kernel), ?_⟩
  rw [hoff [0, 1] (by decide) (by decide)]
  rfl

end Term

end Nameless
