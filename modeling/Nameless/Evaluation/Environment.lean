/-
Nameless/Evaluation/Environment.lean

Environments: finite maps from indices to terms that remember the order in which
their keys came in.  `Env.push` binds index 0 and moves every other binding up by
one, which is how an environment looks from one binder further in.  Two environments
are the same map if every index has the same term in both; the order only shows when
an environment is written out.

Bindings may also be offered as plain values.  Equal keys are one key, the first of
them; then every key must be a natural number and every value a term, checked in
order, the key of a binding before its value.
-/
import Nameless.Datum.Basic

namespace Nameless

/-- A finite map from indices to terms, in order of insertion. -/
structure Env where
  bindings : List (Nat × Term)
  distinct : (bindings.map Prod.fst).Nodup

namespace Env

/-- The environment that binds nothing. -/
def empty : Env := ⟨[], List.nodup_nil⟩

instance : Inhabited Env := ⟨empty⟩

/-- Whether nothing is bound. -/
def isEmpty (e : Env) : Bool := e.bindings.isEmpty

/-- The number of bindings. -/
def size (e : Env) : Nat := e.bindings.length

/-- The term bound to an index. -/
def get? (e : Env) (i : Nat) : Option Term := e.bindings.lookup i

/-! ### Insertion -/

/-- Puts `t` in the place of the value of `i`, or at the end if there is none. -/
def insertPair (i : Nat) (t : Term) : List (Nat × Term) → List (Nat × Term)
  | [] => [(i, t)]
  | (j, u) :: rest => if j = i then (i, t) :: rest else (j, u) :: insertPair i t rest

theorem keys_insertPair (i : Nat) (t : Term) (ps : List (Nat × Term)) :
    (insertPair i t ps).map Prod.fst
      = if i ∈ ps.map Prod.fst then ps.map Prod.fst else ps.map Prod.fst ++ [i] := by
  induction ps with
  | nil => simp [insertPair]
  | cons p rest ih =>
    obtain ⟨j, u⟩ := p
    by_cases h : j = i
    · simp [insertPair, h]
    · have h' : ¬ i = j := fun hij => h hij.symm
      by_cases hm : i ∈ rest.map Prod.fst
      · rw [if_pos hm] at ih
        rw [if_pos (by simp only [List.map_cons, List.mem_cons]; exact Or.inr hm)]
        simp only [insertPair, if_neg h, List.map_cons, ih]
      · rw [if_neg hm] at ih
        rw [if_neg (by simp only [List.map_cons, List.mem_cons]; exact fun hc => hc.elim h' hm)]
        simp only [insertPair, if_neg h, List.map_cons, ih, List.cons_append]

/-- Binds `i` to `t`.  An index that is bound already keeps its place in the order. -/
def insert (e : Env) (i : Nat) (t : Term) : Env where
  bindings := insertPair i t e.bindings
  distinct := by
    rw [keys_insertPair]
    split
    · exact e.distinct
    · next h =>
      rw [List.nodup_append]
      refine ⟨e.distinct, by simp, ?_⟩
      intro a ha b hb hab
      rw [List.mem_singleton] at hb
      exact h (hb ▸ hab ▸ ha)

/-- The bindings with every index moved up by one. -/
def moveUp (ps : List (Nat × Term)) : List (Nat × Term) :=
  ps.map fun p => (p.1 + 1, p.2)

/-- The environment one binder further in: every binding moves up by one and index 0 is
bound to `t`, at the end of the order. -/
def push (e : Env) (t : Term) : Env where
  bindings := moveUp e.bindings ++ [(0, t)]
  distinct := by
    have hkeys : (moveUp e.bindings).map Prod.fst = (e.bindings.map Prod.fst).map (· + 1) := by
      simp only [moveUp, List.map_map, Function.comp_def]
    rw [List.map_append, hkeys, List.nodup_append]
    refine ⟨List.Pairwise.map _ (fun a b h => ?_) e.distinct, by simp, ?_⟩
    · intro hab
      exact h (Nat.succ.inj hab)
    · intro a ha b hb hab
      obtain ⟨k, -, rfl⟩ := List.mem_map.mp ha
      rw [List.map_cons, List.map_nil, List.mem_singleton] at hb
      omega

/-! ### Looking up -/

theorem lookup_cons_of_ne {i j : Nat} (h : j ≠ i) (t : Term) (ps : List (Nat × Term)) :
    ((i, t) :: ps).lookup j = ps.lookup j := by
  rw [List.lookup_cons, beq_eq_false_iff_ne.mpr h]

theorem lookup_insertPair (i j : Nat) (t : Term) (ps : List (Nat × Term)) :
    (insertPair i t ps).lookup j = if j = i then some t else ps.lookup j := by
  induction ps with
  | nil =>
    by_cases h : j = i
    · simp [insertPair, h]
    · rw [if_neg h, insertPair, lookup_cons_of_ne h]
  | cons p rest ih =>
    obtain ⟨k, u⟩ := p
    by_cases hk : k = i
    · subst hk
      by_cases h : j = k
      · simp [insertPair, h]
      · rw [insertPair, if_pos rfl, if_neg h, lookup_cons_of_ne h, lookup_cons_of_ne h]
    · rw [insertPair, if_neg hk]
      by_cases hj : j = k
      · subst hj
        simp [hk]
      · rw [lookup_cons_of_ne hj, lookup_cons_of_ne hj, ih]

@[simp] theorem get?_empty (i : Nat) : empty.get? i = none := rfl

/-- Inserting binds one index and leaves the others alone. -/
theorem get?_insert (e : Env) (i j : Nat) (t : Term) :
    (e.insert i t).get? j = if j = i then some t else e.get? j :=
  lookup_insertPair i j t e.bindings

theorem lookup_moveUp (t : Term) (ps : List (Nat × Term)) (j : Nat) :
    (moveUp ps ++ [(0, t)]).lookup (j + 1) = ps.lookup j := by
  induction ps with
  | nil => exact lookup_cons_of_ne (Nat.succ_ne_zero j) t []
  | cons p rest ih =>
    obtain ⟨k, u⟩ := p
    by_cases h : j = k
    · simp [moveUp, h]
    · rw [lookup_cons_of_ne h, ← ih]
      exact lookup_cons_of_ne (fun hjk => h (Nat.succ.inj hjk)) u _

theorem lookup_moveUp_zero (t : Term) (ps : List (Nat × Term)) :
    (moveUp ps ++ [(0, t)]).lookup 0 = some t := by
  induction ps with
  | nil => simp [moveUp]
  | cons p rest ih => exact (lookup_cons_of_ne (Nat.succ_ne_zero p.1).symm p.2 _).trans ih

@[simp] theorem get?_push_zero (e : Env) (t : Term) : (e.push t).get? 0 = some t :=
  lookup_moveUp_zero t e.bindings

@[simp] theorem get?_push_succ (e : Env) (t : Term) (j : Nat) :
    (e.push t).get? (j + 1) = e.get? j :=
  lookup_moveUp t e.bindings j

/-- What holds of everything bound, and of the term that is bound next, goes on holding. -/
theorem forall_get?_push {Q : Term → Prop} {e : Env} {t : Term}
    (he : ∀ i v, e.get? i = some v → Q v) (ht : Q t) :
    ∀ i v, (e.push t).get? i = some v → Q v := by
  rintro (- | i) v hv
  · rw [get?_push_zero] at hv
    exact Option.some.inj hv ▸ ht
  · rw [get?_push_succ] at hv
    exact he i v hv

/-! ### Comparison and written form -/

/-- Whether two environments are the same map. -/
def same (e e' : Env) : Bool :=
  e.size == e'.size && e.bindings.all fun (i, t) => e'.get? i == some t

/-- The bindings in the order of their indices. -/
def sorted (e : Env) : List (Nat × Term) :=
  e.bindings.mergeSort fun p q => p.1 ≤ q.1

/-- The written form, in order of insertion. -/
def display (e : Env) : String :=
  let pairs := e.bindings.map fun (i, t) => String.ofList (Term.decimal i) ++ ": " ++ t.constructors
  "Environment(\x7b" ++ ", ".intercalate pairs ++ "\x7d)"

end Env

/-! ### Bindings offered as items -/

/-- Why bindings do not make an environment, or why an index is not bound. -/
inductive EnvError where
  | key (got : Datum)
  | value (got : Datum)
  | listKey (got : Datum)
  | unbound (key : Datum)

namespace EnvError

/-- The wording of a refusal. -/
def message : EnvError → String
  | key d => "environment keys must be non-negative ints, got " ++ d.quoted
  | value d => "environment values must be λ-terms, got " ++ d.quoted
  | listKey d => "unhashable type: '" ++ d.kind ++ "'"
  | unbound d => d.quoted

end EnvError

namespace Env

/-- Puts an item in the place of the value of an equal key, or at the end. -/
def offer (key : Datum) (item : Item) : List (Datum × Item) → List (Datum × Item)
  | [] => [(key, item)]
  | (k, i) :: rest => if k.same key then (k, item) :: rest else (k, i) :: offer key item rest

/-- Brings equal keys together.  A list cannot be a key. -/
def collect (found : List (Datum × Item)) :
    List (Datum × Item) → Except EnvError (List (Datum × Item))
  | [] => .ok found
  | (.listing xs, _) :: _ => .error (.listKey (.listing xs))
  | (k, i) :: rest => collect (offer k i found) rest

/-- Binds the offered keys to the offered values, one after the other. -/
def insertAll (e : Env) : List (Datum × Item) → Except EnvError Env
  | [] => .ok e
  | (k, i) :: rest =>
    match k.toNat?, i with
    | none, _ => .error (.key k)
    | some _, .datum d => .error (.value d)
    | some n, .term t => insertAll (e.insert n t) rest

/-- The environment with the offered bindings. -/
def ofItems (pairs : List (Datum × Item)) : Except EnvError Env := do
  let found ← collect [] pairs
  empty.insertAll found

/-- The bindings of an environment, as offered items. -/
def toItems (e : Env) : List (Datum × Item) :=
  e.bindings.map fun (i, t) => (.whole i, .term t)

/-- Binds an offered key to an offered value. -/
def insertItem (e : Env) (key : Datum) (item : Item) : Except EnvError Env :=
  ofItems (e.toItems ++ [(key, item)])

/-- Binds index 0 to an offered value, one binder further in. -/
def pushItem (e : Env) : Item → Except EnvError Env
  | .term t => .ok (e.push t)
  | .datum d => .error (.value d)

/-- The term bound to an offered key, which is the index that it equals. -/
def find? (e : Env) (key : Datum) : Except EnvError (Option Term) :=
  match key with
  | .listing xs => .error (.listKey (.listing xs))
  | d =>
    match d.toInt? with
    | some n => .ok (if n < 0 then none else e.get? n.toNat)
    | none => .ok none

/-- The term bound to an offered key, which must be bound. -/
def find (e : Env) (key : Datum) : Except EnvError Term := do
  match ← e.find? key with
  | some t => .ok t
  | none => .error (.unbound key)

end Env

end Nameless
