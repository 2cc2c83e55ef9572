/-
Nameless/Proofs/Written/Refusals.lean

Where a text is refused.

Tokens are viable if some text can go on from them to a text that is read (`Viable`).
Whatever the reader has taken up so far is viable: the groups on its stack wait for one more
term and their closing parentheses, and the text `0)..)` brings them
(`viable_of_stackSpelled`).  So the reader stops no later than it has to.  Nor does it stop
too early.  What it reports is one of these (`SyntaxFault.LocatedIn`):

* a closing parenthesis or a dot with which the tokens are viable no longer;
* a binder that no dot follows;
* at the end, that a term is missing, or the innermost parenthesis that is not closed.

`locatedIn_of_readTokens` shows this along the run of the reader, with the stack of groups
and the tokens that have gone into it as the invariant.  Together with the places of tokens
this is `parse_error_located`.
-/
import Nameless.Proofs.Written.Places

namespace Nameless

/-! ### Parentheses that are not closed -/

/-- The tokens close no parenthesis but their own: up to each point, no more are closed than
opened.  So a parenthesis that stands in front of them stays open. -/
def LeavesOpen (ts : List Token) : Prop :=
  ∀ n, (ts.take n).countP (·.kind = .closing) ≤ (ts.take n).countP (·.kind = .opening)

theorem LeavesOpen.append {ts us : List Token} (hts : LeavesOpen ts) (hus : LeavesOpen us) :
    LeavesOpen (ts ++ us) := by
  intro n
  rw [List.take_append, List.countP_append, List.countP_append]
  exact Nat.add_le_add (hts n) (hus _)

theorem leavesOpen_nil : LeavesOpen [] := by
  intro n
  rw [List.take_nil]
  exact Nat.le_refl 0

theorem LeavesOpen.cons {tok : Token} {ts : List Token} (hk : tok.kind ≠ .closing)
    (h : LeavesOpen ts) : LeavesOpen (tok :: ts) := by
  intro n
  cases n with
  | zero => exact leavesOpen_nil 0
  | succ n =>
    have hn := h n
    simp only [List.take_succ_cons, List.countP_cons, hk]
    simp only [decide_false, Bool.false_eq_true, if_false]
    omega

mutual

theorem Spells.leavesOpen {ts : List Token} {t : Term} : Spells ts t → LeavesOpen ts
  | .index hk => leavesOpen_nil.cons (by simp [hk])
  | .abstraction hb hd h => (h.leavesOpen.cons (by simp [hd])).cons (by simp [hb])
  | @Spells.group o c ts _ ho hc h => by
    intro n
    cases n with
    | zero => exact leavesOpen_nil 0
    | succ n =>
      -- the last parenthesis is paired with the first
      have hinner := h.leavesOpen n
      have hlast : ([c].take (n - ts.length)).countP (·.kind = .closing) ≤ 1 :=
        List.countP_le_length.trans (List.length_take_le' _ _)
      simp only [List.take_succ_cons, List.take_append, List.countP_cons, List.countP_append, ho,
        decide_true, if_true]
      simp only [reduceCtorEq, decide_false, Bool.false_eq_true, if_false]
      omega

theorem SpellsRow.leavesOpen {ts : List Token} {t : Term} : SpellsRow ts t → LeavesOpen ts
  | .first h => h.leavesOpen
  | .next hf ha => hf.leavesOpen.append ha.leavesOpen

end

/-- Among tokens that leave nothing open of their own, every parenthesis is closed. -/
theorem not_leavesOpen_of_balanced {ts : List Token} (hts : LeavesOpen ts)
    (hcount : ts.countP (·.kind = .opening) = ts.countP (·.kind = .closing))
    {before after : List Token} {o : Token} (h : ts = before ++ o :: after)
    (ho : o.kind = .opening) : ¬ LeavesOpen after := by
  intro hafter
  have hbefore := hts before.length
  have hall := hafter after.length
  rw [h, List.take_left] at hbefore
  rw [List.take_length] at hall
  rw [h] at hcount
  simp only [List.countP_append, List.countP_cons, ho, decide_true, if_true, reduceCtorEq,
    decide_false, Bool.false_eq_true, if_false] at hcount
  omega

/-! ### Viable tokens -/

/-- Some text goes on from the tokens, so that all is read. -/
def Viable (ts : List Token) : Prop :=
  ∃ (more : List Char) (us : List Token) (t : Term),
    Token.scan more = .ok us ∧ readTokens (.start none) [] (ts ++ us) = .ok t

theorem SpellsBinders.readTokens_append {n : Nat} {bs : List Token} (h : SpellsBinders n bs)
    (inner : Group) (outer : List Group) (rest : List Token) :
    readTokens inner outer (bs ++ rest)
      = readTokens { inner with waiting := inner.waiting + n } outer rest := by
  induction h generalizing rest with
  | zero => rfl
  | succ _ hb hd ih =>
    rw [List.append_assoc, ih]
    exact readTokens_abstraction hb hd

/-- What has gone into a group is read into it. -/
theorem Group.Spelled.readTokens_append {g : Group} {us : List Token} (h : g.Spelled us)
    (hs : ShortNumerals us) (outer : List Group) (rest : List Token) :
    readTokens (.start g.opening) outer (us ++ rest) = readTokens g outer rest := by
  cases h with
  | @binders o n _ hbs =>
    rw [hbs.readTokens_append]
    show readTokens ⟨o, none, 0 + n⟩ outer rest = _
    rw [Nat.zero_add]
  | @row o n ts bs t hrow hbs =>
    rw [List.append_assoc, hrow.readTokens_append hs.left, hbs.readTokens_append]
    show readTokens ⟨o, some t, 0 + n⟩ outer rest = _
    rw [Nat.zero_add]

/-- The reader comes to a stack by the tokens that have gone into it. -/
theorem StackSpelled.readTokens_append {inner : Group} {outer : List Group} {us : List Token}
    (h : StackSpelled inner outer us) (hs : ShortNumerals us) (rest : List Token) :
    readTokens (.start none) [] (us ++ rest) = readTokens inner outer rest := by
  induction h generalizing rest with
  | whole ho hg => rw [← ho, hg.readTokens_append hs]
  | nested _ ho hk hg ih =>
    rw [List.append_assoc, ih hs.left, List.cons_append, readTokens_opening hk, ← ho,
      hg.readTokens_append hs.right.tail]

/-- As many closing parentheses, from a place on. -/
def closers (start : Nat) : Nat → List Token
  | 0 => []
  | n + 1 => ⟨.closing, [')'], start⟩ :: closers (start + 1) n

theorem scanOnto_closers (found : List Token) (start n : Nat) :
    Token.scanOnto found start (List.replicate n ')')
      = .ok ((closers start n).reverse ++ found) := by
  induction n generalizing found start with
  | zero => rw [List.replicate_zero, Token.scanOnto]; rfl
  | succ n ih =>
    rw [List.replicate_succ, Token.scanOnto_closing, ih, closers, List.reverse_cons,
      List.append_assoc, List.singleton_append]

/-- A group that holds a term and waits for none is closed, and so are those around it. -/
theorem StackSpelled.readTokens_closers {inner : Group} {outer : List Group} {us : List Token}
    (h : StackSpelled inner outer us) (t : Term) (start : Nat) :
    ∃ t', readTokens ⟨inner.opening, some t, 0⟩ outer (closers start outer.length) = .ok t' := by
  induction h generalizing t start with
  | whole ho _ =>
    rw [ho]
    exact ⟨t, rfl⟩
  | @nested _ group _ _ _ _ _ ho _ _ ih =>
    rw [ho, List.length_cons, closers, readTokens_closing rfl]
    exact ih _ (start + 1)

theorem scan_closers (n : Nat) :
    Token.scan ('0' :: List.replicate n ')') = .ok (⟨.index, ['0'], 0⟩ :: closers 1 n) := by
  have hstop : Token.Kind.StopsAt .index (List.replicate n ')') := by
    intro c hc
    rw [List.eq_of_mem_replicate (List.mem_of_mem_head? hc)]
    decide
  have hzero : Token.scanOnto [] 0 ('0' :: List.replicate n ')')
      = Token.scanOnto [⟨.index, ['0'], 0⟩] 1 (List.replicate n ')') :=
    Token.scanOnto_token (by decide) (by decide) [] _ nofun hstop [] 0
  rw [Token.scan_eq_ok_iff, hzero, scanOnto_closers, List.reverse_cons]

/-- Whatever has been taken up is viable. -/
theorem viable_of_stackSpelled {inner : Group} {outer : List Group} {us : List Token}
    (h : StackSpelled inner outer us) (hs : ShortNumerals us) : Viable us := by
  obtain ⟨t, ht⟩ : ∃ t, readTokens (inner.add (.var (Token.value ⟨.index, ['0'], 0⟩))) outer
      (closers 1 outer.length) = .ok t := h.readTokens_closers _ 1
  refine ⟨_, _, t, scan_closers outer.length, ?_⟩
  rw [h.readTokens_append hs, readTokens_index rfl (by decide), ht]

/-- Nothing goes on from tokens that are refused whatever comes after them. -/
theorem not_viable_of_refused {inner : Group} {outer : List Group} {us : List Token} {tok : Token}
    (h : StackSpelled inner outer us) (hs : ShortNumerals us) {e : SyntaxFault ⊕ Nat}
    (herror : ∀ rest, readTokens inner outer (tok :: rest) = .error e) :
    ¬ Viable (us ++ [tok]) := by
  rintro ⟨more, vs, t, -, hread⟩
  rw [List.append_assoc, h.readTokens_append hs, List.singleton_append, herror] at hread
  cases hread

/-! ### What is reported -/

/-- What is reported of tokens, and where.

`closing` and `dot`: a token is reported as soon as nothing can go on from it.  `binder`: no dot
follows.  `opening` and `unfinished`: the tokens are at their end and something could still go
on; the parenthesis that is reported is not closed, while all those after it are. -/
inductive SyntaxFault.LocatedIn : List Token → SyntaxFault → Prop
  | closing {before after : List Token} {tok : Token} :
      tok.kind = .closing → Viable before → ¬ Viable (before ++ [tok]) →
      LocatedIn (before ++ tok :: after) (.parenthesis tok)
  | dot {before after : List Token} {tok : Token} :
      tok.kind = .dot → Viable before → ¬ Viable (before ++ [tok]) →
      LocatedIn (before ++ tok :: after) (.strayDot tok)
  | binder {before after : List Token} {tok : Token} :
      tok.kind = .binder → Viable before → (∀ d ∈ after.head?, d.kind ≠ .dot) →
      LocatedIn (before ++ tok :: after) (.missingDot tok)
  | opening {before after : List Token} {tok : Token} :
      tok.kind = .opening → Viable before → Viable (before ++ tok :: after) →
      (∀ t, readTokens (.start none) [] (before ++ tok :: after) ≠ .ok t) →
      LeavesOpen after →
      (∀ xs o ys, after = xs ++ o :: ys → o.kind = .opening → ¬ LeavesOpen ys) →
      LocatedIn (before ++ tok :: after) (.parenthesis tok)
  | unfinished {tokens : List Token} :
      Viable tokens → (∀ t, readTokens (.start none) [] tokens ≠ .ok t) →
      LocatedIn tokens .unfinished

/-- A group in which no binder waits leaves no parenthesis open. -/
theorem Group.Spelled.closed {g : Group} {ts : List Token} (h : g.Spelled ts)
    (hwait : ¬ 0 < g.waiting) :
    LeavesOpen ts ∧ ts.countP (·.kind = .opening) = ts.countP (·.kind = .closing) := by
  cases hterm : g.term with
  | some t =>
    have hrow := h.spellsRow hterm hwait
    exact ⟨hrow.leavesOpen, hrow.balanced⟩
  | none =>
    cases h with
    | binders hbs =>
      cases hbs with
      | zero => exact ⟨leavesOpen_nil, rfl⟩
      | succ _ _ _ => exact absurd (Nat.succ_pos _) hwait
    | row _ _ => cases hterm

theorem StackSpelled.not_read {inner : Group} {outer : List Group} {us : List Token}
    (h : StackSpelled inner outer us) (hs : ShortNumerals us) {e : SyntaxFault ⊕ Nat}
    (herror : readTokens inner outer [] = .error e) (t : Term) :
    readTokens (.start none) [] us ≠ .ok t := by
  have hread := h.readTokens_append hs []
  rw [List.append_nil, herror] at hread
  rw [hread]
  exact nofun

/-- The reader refuses tokens where something is wrong with them, after those that it has taken
up already. -/
theorem locatedIn_of_readTokens {inner : Group} {outer : List Group} {ts : List Token}
    {fault : SyntaxFault} (h : readTokens inner outer ts = .error (.inl fault)) :
    ∀ {us : List Token}, StackSpelled inner outer us → ShortNumerals us → us ++ ts ≠ [] →
      fault.LocatedIn (us ++ ts) := by
  fun_induction readTokens inner outer ts with
  | case1 inner outer hwait =>
    intro us hus hs _
    cases h
    have herror : readTokens inner outer [] = .error (.inl .unfinished) := by
      rw [readTokens, if_pos hwait]
    rw [List.append_nil]
    exact .unfinished (viable_of_stackSpelled hus hs) (hus.not_read hs herror)
  | case2 inner outer hwait tok hopen =>
    intro us hus hs _
    cases h
    have herror : readTokens inner outer [] = .error (.inl (.parenthesis tok)) := by
      rw [readTokens, if_neg hwait, hopen]
    have hviable := viable_of_stackSpelled hus hs
    have hread := hus.not_read hs herror
    rw [List.append_nil]
    cases hus with
    | whole ho _ => cases hopen.symm.trans ho
    | nested hout ho hk hg =>
      -- what comes after the parenthesis is what has gone into its group
      cases hopen.symm.trans ho
      obtain ⟨hleaves, hcount⟩ := hg.closed hwait
      exact .opening hk (viable_of_stackSpelled hout hs.left) hviable hread hleaves
        fun _ _ _ hafter => not_leavesOpen_of_balanced hleaves hcount hafter
  | case3 => cases h
  | case4 inner outer hwait hterm hopen =>
    intro us hus _ hne
    -- nothing has been read, and nothing is there
    cases hus with
    | nested _ ho _ _ => cases hopen.symm.trans ho
    | whole _ hg =>
      cases hg with
      | row _ _ => cases hterm
      | binders hbs =>
        cases hbs with
        | zero => exact absurd rfl hne
        | succ _ _ _ => exact absurd (Nat.succ_pos _) hwait
  | case5 => cases h
  | case6 inner outer text start rest hlen ih =>
    intro us hus hs hne
    have hshort : ShortNumerals [⟨.index, text, start⟩] :=
      List.forall_mem_singleton.mpr fun _ => Nat.not_lt.mp hlen
    rw [List.append_cons] at hne ⊢
    exact ih h hus.index (hs.append hshort) hne
  | case7 inner outer text start text' start' rest ih =>
    intro us hus hs hne
    have hshort : ShortNumerals [⟨.binder, text, start⟩, ⟨.dot, text', start'⟩] :=
      .cons (by simp) (.cons (by simp) (List.forall_mem_nil _))
    rw [List.append_cons, List.append_cons, List.append_assoc us] at hne ⊢
    exact ih h hus.binder (hs.append hshort) hne
  | case8 inner outer text start rest hdot =>
    intro us hus hs _
    cases h
    refine .binder rfl (viable_of_stackSpelled hus hs) fun d hd hkind => ?_
    obtain ⟨kind, text', start'⟩ := d
    obtain rfl : kind = .dot := hkind
    obtain ⟨more, rfl⟩ := List.head?_eq_some_iff.mp hd
    exact hdot _ _ _ rfl
  | case9 inner outer text start rest ih =>
    intro us hus hs hne
    have hshort : ShortNumerals [⟨.opening, text, start⟩] :=
      .cons (by simp) (List.forall_mem_nil _)
    rw [List.append_cons] at hne ⊢
    exact ih h hus.opening (hs.append hshort) hne
  | case10 inner outer text start rest hwait =>
    intro us hus hs _
    cases h
    have hrefused (more : List Token) :
        readTokens inner outer (⟨.closing, text, start⟩ :: more)
          = .error (.inl (.parenthesis ⟨.closing, text, start⟩)) := by
      simp [readTokens, hwait]
    exact .closing rfl (viable_of_stackSpelled hus hs) (not_viable_of_refused hus hs hrefused)
  | case11 inner text start rest hwait o t group groups hterm hopen ih =>
    intro us hus hs hne
    have hshort : ShortNumerals [⟨.closing, text, start⟩] :=
      .cons (by simp) (List.forall_mem_nil _)
    rw [List.append_cons] at hne ⊢
    exact ih h (hus.closing hterm hwait) (hs.append hshort) hne
  | case12 inner outer text start rest hwait hgroup =>
    intro us hus hs _
    cases h
    have hrefused (more : List Token) :
        readTokens inner outer (⟨.closing, text, start⟩ :: more)
          = .error (.inl (.parenthesis ⟨.closing, text, start⟩)) := by
      rw [readTokens, if_neg hwait]
      exact hgroup
    exact .closing rfl (viable_of_stackSpelled hus hs) (not_viable_of_refused hus hs hrefused)
  | case13 inner outer text start rest =>
    intro us hus hs _
    cases h
    have hrefused (more : List Token) :
        readTokens inner outer (⟨.dot, text, start⟩ :: more)
          = .error (.inl (.strayDot ⟨.dot, text, start⟩)) := by
      rw [readTokens]
    exact .dot rfl (viable_of_stackSpelled hus hs) (not_viable_of_refused hus hs hrefused)

/-! ### Where a text is refused -/

namespace SyntaxFault

/-- The token that is reported, if it is one. -/
def token? : SyntaxFault → Option Token
  | missingDot tok => some tok
  | parenthesis tok => some tok
  | strayDot tok => some tok
  | _ => none

variable {fault : SyntaxFault} {tokens : List Token}

theorem stretch_of_token? {tok : Token} (h : fault.token? = some tok) (text : String) :
    fault.stretch text = (tok.start, tok.stop) := by
  cases fault with
  | missingDot _ => cases h; rfl
  | parenthesis _ => cases h; rfl
  | strayDot _ => cases h; rfl
  | _ => cases h

/-- A token of the text is reported, or its end. -/
theorem LocatedIn.token_or_end (h : fault.LocatedIn tokens) :
    (∃ tok ∈ tokens, fault.token? = some tok) ∨ fault = .unfinished := by
  cases h with
  | unfinished _ _ => exact .inr rfl
  | _ => exact .inl ⟨_, List.mem_append_right _ List.mem_cons_self, rfl⟩

end SyntaxFault

namespace Term

variable {text subject : String} {fault : SyntaxFault}

theorem parse_of_stray {s : Token.Stray} (h : Token.scan text.toList = .error s) :
    parse text = .error (.syntactic text (.stray s)) := by
  rw [parse, h]

theorem length_pos_of_parse (h : parse text = .error (.syntactic subject fault))
    (hne : fault ≠ .empty) : 0 < text.length := by
  refine Nat.pos_of_ne_zero fun hzero => ?_
  obtain rfl := String.length_eq_zero_iff.mp hzero
  have hempty : parse "" = .error (.syntactic "" .empty) := by decide +kernel
  rw [hempty] at h
  cases h
  exact absurd rfl hne

theorem subject_of_parse (h : parse text = .error (.syntactic subject fault)) : subject = text := by
  rw [parse] at h
  split at h
  · cases h; rfl
  · cases h; rfl
  · split at h
    · cases h
    · cases h; rfl
    · cases h

/-- A text that is scanned is refused for its tokens, unless it has none. -/
theorem locatedIn_of_parse (h : parse text = .error (.syntactic subject fault))
    (hne : fault ≠ .empty) {tokens : List Token} (hscan : Token.scan text.toList = .ok tokens) :
    fault.LocatedIn tokens := by
  cases tokens with
  | nil =>
    rw [parse, hscan] at h
    cases h
    exact absurd rfl hne
  | cons tok rest =>
    rw [parse_of_scan hscan] at h
    rcases hread : readTokens (.start none) [] (tok :: rest) with (fault' | digits) | t
    · rw [hread] at h
      cases h
      exact @locatedIn_of_readTokens _ _ _ _ hread [] (.whole rfl (.binders .zero))
        (List.forall_mem_nil _) (List.cons_ne_nil tok rest)
    · rw [hread] at h
      cases h
    · rw [hread] at h
      cases h

/-- **A refusal points at the right place.**  Unless there is nothing in it, a text that is no
display notation is refused with a stretch of it that has at least one character.  If it cannot
be scanned, this is the first place at which no token and no blank begins.  Otherwise a token
that is reported is the stretch, and what is wrong with it is as `SyntaxFault.LocatedIn`
says. -/
theorem parse_error_located (h : parse text = .error (.syntactic subject fault))
    (hne : fault ≠ .empty) (style : Style) :
    let d := fault.diagnostic style subject
    d.subject = text ∧ 0 ≤ d.start ∧ d.start < d.stop ∧ d.stop ≤ text.length ∧
    (∀ s, Token.scan text.toList = .error s → d.start = s.position ∧ s.IsFirst text.toList) ∧
    ∀ tokens, Token.scan text.toList = .ok tokens →
      fault.LocatedIn tokens ∧
      ∀ tok ∈ fault.token?, Text.between text.toList d.start d.stop = tok.text := by
  obtain rfl := subject_of_parse h
  intro d
  refine ⟨rfl, Int.natCast_nonneg _, ?_⟩
  cases hscan : Token.scan subject.toList with
  | error s =>
    cases h.symm.trans (parse_of_stray hscan)
    have hfirst := Token.Stray.isFirst_of_scan hscan
    obtain ⟨hlt, -⟩ := List.getElem?_eq_some_iff.mp hfirst.char
    rw [String.length_toList] at hlt
    refine ⟨?_, ?_, ?_, nofun⟩
    · show (s.position : Int) < (s.position + 1 : Nat)
      omega
    · show ((s.position + 1 : Nat) : Int) ≤ subject.length
      omega
    · rintro _ ⟨⟩
      exact ⟨rfl, hfirst⟩
  | ok tokens =>
    have hlocated := locatedIn_of_parse h hne hscan
    rcases hlocated.token_or_end with ⟨tok, hmem, htok⟩ | rfl
    · have hstands := Token.standsIn_of_scan hscan tok hmem
      have hstretch := SyntaxFault.stretch_of_token? htok subject
      have hstart : d.start = tok.start := congrArg (fun p : Nat × Nat => (p.1 : Int)) hstretch
      have hstop : d.stop = tok.stop := congrArg (fun p : Nat × Nat => (p.2 : Int)) hstretch
      have hlt := hstands.start_lt_stop
      have hle := hstands.stop_le
      rw [String.length_toList] at hle
      rw [hstart, hstop]
      refine ⟨by omega, by omega, nofun, ?_⟩
      rintro _ ⟨⟩
      refine ⟨hlocated, fun tok' htok' => ?_⟩
      cases htok.symm.trans htok'
      exact hstands.between_eq
    · have hpos := length_pos_of_parse h hne
      refine ⟨?_, Int.le_refl _, nofun, ?_⟩
      · show ((subject.length - 1 : Nat) : Int) < subject.length
        omega
      · rintro _ ⟨⟩
        exact ⟨hlocated, nofun⟩

/-- The outer parenthesis of `(λx.(0 1) (2 (3)` is not closed either, but the one that is reported
is the innermost. -/
theorem parse_error_located_innermost :
    parse "(λx.(0 1) (2 (3)"
        = .error (.syntactic "(λx.(0 1) (2 (3)" (.parenthesis ⟨.opening, ['('], 10⟩)) ∧
      Text.between "(λx.(0 1) (2 (3)".toList 10 11 = ['('] ∧
      ∃ before after, Token.scan "(λx.(0 1) (2 (3)".toList
          = .ok (before ++ ⟨.opening, ['('], 10⟩ :: after) ∧
        Viable (before ++ ⟨.opening, ['('], 10⟩ :: after) ∧ LeavesOpen after := by
  have hparse : parse "(λx.(0 1) (2 (3)"
      = .error (.syntactic "(λx.(0 1) (2 (3)" (.parenthesis ⟨.opening, ['('], 10⟩)) := by
    decide +kernel
  obtain ⟨tokens, hscan⟩ : ∃ tokens, Token.scan "(λx.(0 1) (2 (3)".toList = .ok tokens := by
    refine ⟨[⟨.opening, ['('], 0⟩, ⟨.binder, ['λ', 'x'], 1⟩, ⟨.dot, ['.'], 3⟩,
      ⟨.opening, ['('], 4⟩, ⟨.index, ['0'], 5⟩, ⟨.index, ['1'], 7⟩, ⟨.closing, [')'], 8⟩,
      ⟨.opening, ['('], 10⟩, ⟨.index, ['2'], 11⟩, ⟨.opening, ['('], 13⟩, ⟨.index, ['3'], 14⟩,
      ⟨.closing, [')'], 15⟩], ?_⟩
    decide +kernel
  obtain ⟨-, -, -, -, -, hlocated⟩ := parse_error_located hparse nofun .plain
  obtain ⟨hlocated, hbetween⟩ := hlocated tokens hscan
  refine ⟨hparse, hbetween _ rfl, ?_⟩
  cases hlocated with
  | closing hk _ _ => cases hk
  | opening _ _ hviable _ hleaves _ => exact ⟨_, _, hscan, hviable, hleaves⟩

end Term

end Nameless
