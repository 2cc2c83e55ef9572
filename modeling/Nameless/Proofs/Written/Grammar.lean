/-
Nameless/Proofs/Written/Grammar.lean

The reader and its grammar.  Over the tokens of a text, the grammar is

    term  ::=  index  |  binder dot term  |  ( row )
    row   ::=  term   |  row term

and a whole text is a row.  `Spells ts t` and `SpellsRow ts t` say that the tokens `ts`
derive a term or a row that denotes `t`; since a row grows at its right end, it denotes
the application of its first term to the others in turn.

The reader goes through the tokens once, with a stack of open groups.  The two
directions are:

* a term that comes next is added to the innermost group, and a row fills an empty one,
  whatever the stack and the tokens after it (`Spells.readTokens_append`,
  `SpellsRow.readTokens_append`), by induction on the derivation;
* at every point the tokens read so far are those of the groups on the stack
  (`StackSpelled`), each of which holds a row and the binders that wait for a term; so
  when the reader returns, the tokens derive what it returns (`spellsRow_of_readTokens`).

Together with `readTokens_ne_long`, which sorts out the refusals, this is
`parse_accepts_grammar`.
-/
import Nameless.Proofs.Text.Decimal
import Nameless.Written.Parse

namespace Nameless

/-! ### The grammar -/

/-- The value of an index: the sum of its digits, each times its power of ten. -/
def Token.value (tok : Token) : Nat :=
  Nat.ofDigits 10 (tok.text.map Text.digit).reverse

mutual

/-- The tokens spell the term: an index, a binder and a dot before a term, or a row of terms
in parentheses. -/
inductive Spells : List Token → Term → Prop
  | index {tok : Token} : tok.kind = .index → Spells [tok] (.var tok.value)
  | abstraction {b d : Token} {ts : List Token} {t : Term} :
      b.kind = .binder → d.kind = .dot → Spells ts t → Spells (b :: d :: ts) (.lam t)
  | group {o c : Token} {ts : List Token} {t : Term} :
      o.kind = .opening → c.kind = .closing → SpellsRow ts t → Spells (o :: (ts ++ [c])) t

/-- The tokens spell one term or several in a row, the first of which is applied to the
others in turn. -/
inductive SpellsRow : List Token → Term → Prop
  | first {ts : List Token} {t : Term} : Spells ts t → SpellsRow ts t
  | next {ts us : List Token} {f a : Term} :
      SpellsRow ts f → Spells us a → SpellsRow (ts ++ us) (.app f a)

end

/-- No index has more digits than can be read. -/
def ShortNumerals (ts : List Token) : Prop :=
  ∀ tok ∈ ts, tok.kind = .index → tok.text.length ≤ maxDigits

theorem ShortNumerals.left {ts us : List Token} (h : ShortNumerals (ts ++ us)) :
    ShortNumerals ts :=
  fun tok htok => h tok (List.mem_append_left us htok)

theorem ShortNumerals.right {ts us : List Token} (h : ShortNumerals (ts ++ us)) :
    ShortNumerals us :=
  fun tok htok => h tok (List.mem_append_right ts htok)

theorem ShortNumerals.tail {tok : Token} {ts : List Token} (h : ShortNumerals (tok :: ts)) :
    ShortNumerals ts :=
  fun tok' htok => h tok' (List.mem_cons_of_mem tok htok)

theorem ShortNumerals.append {ts us : List Token} (hts : ShortNumerals ts)
    (hus : ShortNumerals us) : ShortNumerals (ts ++ us) :=
  List.forall_mem_append.mpr ⟨hts, hus⟩

theorem ShortNumerals.cons {tok : Token} {ts : List Token} (hk : tok.kind ≠ .index)
    (h : ShortNumerals ts) : ShortNumerals (tok :: ts) :=
  List.forall_mem_cons.mpr ⟨fun hindex => absurd hindex hk, h⟩

/-! ### One token at a time -/

section Steps

variable {inner : Group} {outer : List Group} {rest : List Token}

theorem readTokens_index {tok : Token} (hk : tok.kind = .index)
    (hlen : tok.text.length ≤ maxDigits) :
    readTokens inner outer (tok :: rest) = readTokens (inner.add (.var tok.value)) outer rest := by
  obtain ⟨kind, text, start⟩ := tok
  obtain rfl : kind = .index := hk
  have hvalue : Text.numeral text = Token.value ⟨.index, text, start⟩ :=
    Text.numeral_eq_ofDigits text
  rw [readTokens, if_neg (Nat.not_lt.mpr hlen), hvalue]

theorem readTokens_abstraction {b d : Token} (hb : b.kind = .binder) (hd : d.kind = .dot) :
    readTokens inner outer (b :: d :: rest)
      = readTokens { inner with waiting := inner.waiting + 1 } outer rest := by
  obtain ⟨kind, text, start⟩ := b
  obtain rfl : kind = .binder := hb
  obtain ⟨kind, text', start'⟩ := d
  obtain rfl : kind = .dot := hd
  rw [readTokens]

theorem readTokens_opening {o : Token} (ho : o.kind = .opening) :
    readTokens inner outer (o :: rest) = readTokens (.start (some o)) (inner :: outer) rest := by
  obtain ⟨kind, text, start⟩ := o
  obtain rfl : kind = .opening := ho
  rw [readTokens]

theorem readTokens_closing {o c : Token} (hc : c.kind = .closing) {t : Term} :
    readTokens ⟨some o, some t, 0⟩ (inner :: outer) (c :: rest)
      = readTokens (inner.add t) outer rest := by
  obtain ⟨kind, text, start⟩ := c
  obtain rfl : kind = .closing := hc
  simp [readTokens]

end Steps

/-! ### What the grammar derives is read -/

mutual

/-- A term that is spelled next is added to the innermost group. -/
theorem Spells.readTokens_append {ts : List Token} {t : Term} :
    Spells ts t → ShortNumerals ts → ∀ (inner : Group) (outer : List Group) (rest : List Token),
      readTokens inner outer (ts ++ rest) = readTokens (inner.add t) outer rest
  | .index hk, hs, inner, outer, rest => readTokens_index hk (hs _ (List.mem_singleton_self _) hk)
  | .abstraction hb hd h, hs, inner, outer, rest => by
    rw [List.cons_append, List.cons_append, readTokens_abstraction hb hd,
      h.readTokens_append hs.tail.tail]
    rfl
  | .group ho hc h, hs, inner, outer, rest => by
    rw [List.cons_append, List.append_assoc, readTokens_opening ho,
      h.readTokens_append hs.tail.left, List.singleton_append, readTokens_closing hc]

/-- A row of terms that is spelled next fills an empty group. -/
theorem SpellsRow.readTokens_append {ts : List Token} {t : Term} :
    SpellsRow ts t → ShortNumerals ts →
      ∀ (opening : Option Token) (outer : List Group) (rest : List Token),
        readTokens (.start opening) outer (ts ++ rest) = readTokens ⟨opening, some t, 0⟩ outer rest
  | .first h, hs, opening, outer, rest => h.readTokens_append hs _ outer rest
  | .next hf ha, hs, opening, outer, rest => by
    rw [List.append_assoc, hf.readTokens_append hs.left, ha.readTokens_append hs.right]
    rfl

end

/-! ### What is read is derived -/

/-- A number of binders, each with its dot. -/
inductive SpellsBinders : Nat → List Token → Prop
  | zero : SpellsBinders 0 []
  | succ {n : Nat} {ts : List Token} {b d : Token} :
      SpellsBinders n ts → b.kind = .binder → d.kind = .dot → SpellsBinders (n + 1) (ts ++ [b, d])

/-- Binders wait for the term that comes after them. -/
theorem SpellsBinders.spells_lams {n : Nat} {bs : List Token} (hbs : SpellsBinders n bs) :
    ∀ {ts : List Token} {t : Term}, Spells ts t → Spells (bs ++ ts) (t.lams n) := by
  induction hbs with
  | zero =>
    intro ts t h
    exact h
  | succ _ hb hd ih =>
    intro ts t h
    rw [List.append_assoc]
    exact ih (.abstraction hb hd h)

/-- The tokens that have gone into a group: a row of terms, if there are any, and the
binders that wait. -/
inductive Group.Spelled : Group → List Token → Prop
  | binders {o : Option Token} {n : Nat} {bs : List Token} :
      SpellsBinders n bs → Spelled ⟨o, none, n⟩ bs
  | row {o : Option Token} {n : Nat} {ts bs : List Token} {t : Term} :
      SpellsRow ts t → SpellsBinders n bs → Spelled ⟨o, some t, n⟩ (ts ++ bs)

theorem Group.Spelled.of_spellsRow {ts : List Token} {t : Term} (h : SpellsRow ts t)
    (o : Option Token) : Group.Spelled ⟨o, some t, 0⟩ ts := by
  have hrow : Group.Spelled ⟨o, some t, 0⟩ (ts ++ []) := .row h .zero
  rwa [List.append_nil] at hrow

theorem Group.Spelled.add {g : Group} {ts us : List Token} {t : Term} (h : g.Spelled ts)
    (ht : Spells us t) : (g.add t).Spelled (ts ++ us) := by
  cases h with
  | binders hbs => exact .of_spellsRow (.first (hbs.spells_lams ht)) _
  | row hf hbs =>
    rw [List.append_assoc]
    exact .of_spellsRow (hf.next (hbs.spells_lams ht)) _

theorem Group.Spelled.wait {g : Group} {ts : List Token} {b d : Token} (h : g.Spelled ts)
    (hb : b.kind = .binder) (hd : d.kind = .dot) :
    Group.Spelled { g with waiting := g.waiting + 1 } (ts ++ [b, d]) := by
  cases h with
  | binders hbs => exact .binders (hbs.succ hb hd)
  | row hf hbs =>
    rw [List.append_assoc]
    exact .row hf (hbs.succ hb hd)

/-- A group in which no binder waits holds a row of terms. -/
theorem Group.Spelled.spellsRow {g : Group} {ts : List Token} {t : Term} (h : g.Spelled ts)
    (hterm : g.term = some t) (hwait : ¬ 0 < g.waiting) : SpellsRow ts t := by
  cases h with
  | binders hbs => cases hterm
  | row hf hbs =>
    obtain rfl := Option.some.inj hterm
    cases hbs with
    | zero => rwa [List.append_nil]
    | succ _ _ _ => exact absurd (Nat.succ_pos _) hwait

/-- The tokens that have gone into the innermost group and those around it: each group but
the outermost stands after its parenthesis. -/
inductive StackSpelled : Group → List Group → List Token → Prop
  | whole {g : Group} {ts : List Token} :
      g.opening = none → g.Spelled ts → StackSpelled g [] ts
  | nested {g outer : Group} {outers : List Group} {o : Token} {ts us : List Token} :
      StackSpelled outer outers ts → g.opening = some o → o.kind = .opening → g.Spelled us →
      StackSpelled g (outer :: outers) (ts ++ o :: us)

/-- What goes into the innermost group comes after everything else. -/
theorem StackSpelled.extend {g : Group} {outers : List Group} {ts vs : List Token}
    (h : StackSpelled g outers ts) (g' : Group) (hopen : g'.opening = g.opening)
    (hext : ∀ us, g.Spelled us → g'.Spelled (us ++ vs)) : StackSpelled g' outers (ts ++ vs) := by
  cases h with
  | whole ho hg => exact .whole (hopen.trans ho) (hext _ hg)
  | nested hout ho hk hg =>
    rw [List.append_assoc]
    exact .nested hout (hopen.trans ho) hk (hext _ hg)

section Read

variable {inner group : Group} {outer : List Group} {us : List Token} {text : List Char}
  {start : Nat}

theorem StackSpelled.index (h : StackSpelled inner outer us) :
    StackSpelled (inner.add (.var (Text.numeral text))) outer (us ++ [⟨.index, text, start⟩]) := by
  have hindex : Spells [⟨.index, text, start⟩] (.var (Text.numeral text)) := by
    rw [Text.numeral_eq_ofDigits]
    exact .index rfl
  exact h.extend _ rfl fun _ hg => hg.add hindex

theorem StackSpelled.binder (h : StackSpelled inner outer us) {text' : List Char} {start' : Nat} :
    StackSpelled { inner with waiting := inner.waiting + 1 } outer
      (us ++ [⟨.binder, text, start⟩, ⟨.dot, text', start'⟩]) :=
  h.extend _ rfl fun _ hg => hg.wait rfl rfl

theorem StackSpelled.opening (h : StackSpelled inner outer us) :
    StackSpelled (.start (some ⟨.opening, text, start⟩)) (inner :: outer)
      (us ++ [⟨.opening, text, start⟩]) :=
  .nested h rfl rfl (.binders .zero)

/-- A group and its parentheses become one term of the group around it. -/
theorem StackSpelled.closing (h : StackSpelled inner (group :: outer) us) {t : Term}
    (hterm : inner.term = some t) (hwait : ¬ 0 < inner.waiting) :
    StackSpelled (group.add t) outer (us ++ [⟨.closing, text, start⟩]) := by
  cases h with
  | @nested _ _ _ o vs ws hout ho hk hg =>
    have hgroup : Spells (o :: (ws ++ [⟨.closing, text, start⟩])) t :=
      .group hk rfl (hg.spellsRow hterm hwait)
    rw [List.append_assoc vs, List.cons_append]
    exact hout.extend _ rfl fun _ hg => hg.add hgroup

end Read

/-- Tokens that are read to the end spell the term that is returned, after those that have
been read before. -/
theorem spellsRow_of_readTokens {inner : Group} {outer : List Group} {ts : List Token} {t : Term}
    (h : readTokens inner outer ts = .ok t) :
    ∀ {us : List Token}, StackSpelled inner outer us → SpellsRow (us ++ ts) t := by
  -- the cases in which tokens are refused return nothing
  fun_induction readTokens inner outer ts with
  | case1 => cases h
  | case2 => cases h
  | case3 inner outer hwait t' hterm hopen =>
    -- the end: the innermost group has no parenthesis, so it is the whole text
    intro us hus
    obtain rfl := Except.ok.inj h
    rw [List.append_nil]
    cases hus with
    | whole _ hg => exact hg.spellsRow hterm hwait
    | nested _ ho _ _ => cases hopen.symm.trans ho
  | case4 => cases h
  | case5 => cases h
  | case6 inner outer text start rest hlen ih =>
    intro us hus
    rw [List.append_cons]
    exact ih h hus.index
  | case7 inner outer text start text' start' rest ih =>
    -- a binder and its dot are two tokens
    intro us hus
    rw [List.append_cons, List.append_cons, List.append_assoc us]
    exact ih h hus.binder
  | case8 => cases h
  | case9 inner outer text start rest ih =>
    intro us hus
    rw [List.append_cons]
    exact ih h hus.opening
  | case10 => cases h
  | case11 inner text start rest hwait o t' group groups hterm hopen ih =>
    intro us hus
    rw [List.append_cons]
    exact ih h (hus.closing hterm hwait)
  | case12 => cases h
  | case13 => cases h

/-! ### The reader and the grammar -/

/-- No index is refused for its digits unless it has too many. -/
theorem readTokens_ne_long {inner : Group} {outer : List Group} {ts : List Token}
    (hs : ShortNumerals ts) (n : Nat) : readTokens inner outer ts ≠ .error (.inr n) := by
  fun_induction readTokens inner outer ts with
  | case5 inner outer text start rest hlong =>
    exact absurd hlong (Nat.not_lt.mpr (hs _ List.mem_cons_self rfl))
  | case6 inner outer text start rest _ ih => exact ih hs.tail
  | case7 inner outer text start text' start' rest ih => exact ih hs.tail.tail
  | case9 inner outer text start rest ih => exact ih hs.tail
  | case11 inner text start rest _ o t group groups _ _ ih => exact ih hs.tail
  | _ => nofun

theorem readTokens_eq_ok_iff {ts : List Token} (hs : ShortNumerals ts) {t : Term} :
    readTokens (.start none) [] ts = .ok t ↔ SpellsRow ts t := by
  constructor
  · intro h
    exact spellsRow_of_readTokens h (.whole rfl (.binders .zero))
  · intro h
    have hread := h.readTokens_append hs none [] []
    rw [List.append_nil] at hread
    rw [hread]
    rfl

/-- The refusal of a text, by the refusal of its tokens. -/
def ReadError.ofRefusal (text : String) : SyntaxFault ⊕ Nat → ReadError
  | .inl fault => .syntactic text fault
  | .inr digits => .longNumeral digits

namespace Term

section Parse

variable {text : String} {tokens : List Token}

theorem parse_of_scan (hscan : Token.scan text.toList = .ok tokens) :
    parse text = (readTokens (.start none) [] tokens).mapError (.ofRefusal text) := by
  rw [parse, hscan]
  cases tokens with
  | nil => rfl
  | cons tok rest =>
    dsimp only
    rcases readTokens (.start none) [] (tok :: rest) with (fault | digits) | t <;> rfl

theorem parse_eq_ok_iff (hscan : Token.scan text.toList = .ok tokens)
    (hs : ShortNumerals tokens) {t : Term} : parse text = .ok t ↔ SpellsRow tokens t := by
  rw [parse_of_scan hscan, ← readTokens_eq_ok_iff hs]
  rcases readTokens (.start none) [] tokens with refusal | u
  · exact ⟨nofun, nofun⟩
  · exact ⟨fun h => congrArg _ (Except.ok.inj h), fun h => congrArg _ (Except.ok.inj h)⟩

/-- **The reader accepts exactly its grammar.**  A text whose tokens have no index too long to
be read is read as `t` if and only if its tokens spell `t` as a row of terms; they spell at
most one term, and if they spell none, the text is refused as no display notation. -/
theorem parse_accepts_grammar (hscan : Token.scan text.toList = .ok tokens)
    (hs : ∀ tok ∈ tokens, tok.kind = .index → tok.text.length ≤ maxDigits) :
    (∀ t, parse text = .ok t ↔ SpellsRow tokens t) ∧
      (∀ t u, SpellsRow tokens t → SpellsRow tokens u → t = u) ∧
      ((¬ ∃ t, SpellsRow tokens t) → ∃ fault, parse text = .error (.syntactic text fault)) := by
  refine ⟨fun t => parse_eq_ok_iff hscan hs, fun t u ht hu => ?_, fun hnone => ?_⟩
  · rw [← parse_eq_ok_iff hscan hs] at ht hu
    exact Except.ok.inj (ht.symm.trans hu)
  · rw [parse_of_scan hscan]
    rcases hread : readTokens (.start none) [] tokens with (fault | digits) | t
    · exact ⟨fault, rfl⟩
    · exact absurd hread (readTokens_ne_long hs digits)
    · exact absurd ⟨t, (readTokens_eq_ok_iff hs).mp hread⟩ hnone

/-- A bare row whose first term is an abstraction, closed off by the space after its body, and
whose second is a group with another one in it; the last index is a digit of another script. -/
theorem parse_accepts_grammar_nested :
    Token.scan "\\.0 (λx.1 ٣)".toList = .ok
        [⟨.binder, ['\\'], 0⟩, ⟨.dot, ['.'], 1⟩, ⟨.index, ['0'], 2⟩, ⟨.opening, ['('], 4⟩,
          ⟨.binder, ['λ', 'x'], 5⟩, ⟨.dot, ['.'], 7⟩, ⟨.index, ['1'], 8⟩, ⟨.index, ['٣'], 10⟩,
          ⟨.closing, [')'], 11⟩] ∧
      parse "\\.0 (λx.1 ٣)" = .ok (app (lam (var 0)) (app (lam (var 1)) (var 3))) := by
  have hscan : Token.scan "\\.0 (λx.1 ٣)".toList = .ok
      [⟨.binder, ['\\'], 0⟩, ⟨.dot, ['.'], 1⟩, ⟨.index, ['0'], 2⟩, ⟨.opening, ['('], 4⟩,
        ⟨.binder, ['λ', 'x'], 5⟩, ⟨.dot, ['.'], 7⟩, ⟨.index, ['1'], 8⟩, ⟨.index, ['٣'], 10⟩,
        ⟨.closing, [')'], 11⟩] := by
    decide +kernel
  have hzero : Spells [⟨.index, ['0'], 2⟩] (var 0) := .index rfl
  have hone : Spells [⟨.index, ['1'], 8⟩] (var 1) := .index rfl
  have hthree : Spells [⟨.index, ['٣'], 10⟩] (var 3) := .index rfl
  have hgroup : Spells [⟨.opening, ['('], 4⟩, ⟨.binder, ['λ', 'x'], 5⟩, ⟨.dot, ['.'], 7⟩,
      ⟨.index, ['1'], 8⟩, ⟨.index, ['٣'], 10⟩, ⟨.closing, [')'], 11⟩]
      (app (lam (var 1)) (var 3)) :=
    .group rfl rfl (.next (.first (.abstraction rfl rfl hone)) hthree)
  have hrow := SpellsRow.next (.first (.abstraction (b := ⟨.binder, ['\\'], 0⟩)
    (d := ⟨.dot, ['.'], 1⟩) rfl rfl hzero)) hgroup
  exact ⟨hscan, ((parse_accepts_grammar hscan (by decide)).1 _).mpr hrow⟩

end Parse

end Term

end Nameless
