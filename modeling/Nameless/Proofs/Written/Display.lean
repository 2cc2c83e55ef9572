/-
Nameless/Proofs/Written/Display.lean

Reading undoes writing.  Display notation is scanned token by token: `scanOnto_token`
takes one token off the front, provided that what comes after it does not go on with
it.  In a displayed term that is always so, since an index is followed by a space, a
parenthesis or the end of the text, and a binder by its dot.

So the tokens of a displayed term spell that term (`exists_spells_displayOnto`), and
what the grammar derives is read (`parse_display`).  No parentheses stand around an
abstraction, and none are needed: its body is one term, so what follows it is never
taken for a part of it.
-/
import Nameless.Proofs.Term.FreeIndices
import Nameless.Proofs.Written.Grammar

namespace Nameless

namespace Token

/-! ### Scanning one token -/

/-- What comes next does not go on with a token of the kind. -/
def Kind.StopsAt (kind : Kind) (rest : List Char) : Prop :=
  ∀ c ∈ rest.head?, kind.continues c = false

theorem Kind.StopsAt.takeWhile {kind : Kind} {rest : List Char} (h : kind.StopsAt rest) :
    rest.takeWhile kind.continues = [] := by
  cases rest with
  | nil => rfl
  | cons c rest => exact List.takeWhile_cons_of_neg (Bool.eq_false_iff.mp (h c rfl))

theorem Kind.StopsAt.dropWhile {kind : Kind} {rest : List Char} (h : kind.StopsAt rest) :
    rest.dropWhile kind.continues = rest := by
  cases rest with
  | nil => rfl
  | cons c rest => exact List.dropWhile_cons_of_neg (Bool.eq_false_iff.mp (h c rfl))

theorem Kind.ofChar?_of_isDigit {c : Char} (h : Text.isDigit c = true) :
    Kind.ofChar? c = some .index := by
  have hne (d : Char) (hd : Text.isDigit d = false) : c ≠ d := by
    rintro rfl
    rw [h] at hd
    cases hd
  have hsign : isBinderSign c = false := by
    rw [isBinderSign, decide_eq_false (hne 'λ' (by decide)), decide_eq_false (hne '\\' (by decide))]
    rfl
  rw [ofChar?, if_neg (hne '(' (by decide)), if_neg (hne ')' (by decide)),
    if_neg (Bool.eq_false_iff.mp hsign), if_neg (hne '.' (by decide)), if_pos h]

theorem scanOnto_blank {c : Char} (h : Text.isBlank c = true) (found : List Token) (start : Nat)
    (rest : List Char) : scanOnto found start (c :: rest) = scanOnto found (start + 1) rest := by
  rw [scanOnto, if_pos h]

/-- A token ends where what comes next does not go on with it. -/
theorem scanOnto_token {kind : Kind} {c : Char} (hblank : Text.isBlank c = false)
    (hkind : Kind.ofChar? c = some kind) (word rest : List Char)
    (hword : ∀ d ∈ word, kind.continues d = true) (hrest : kind.StopsAt rest)
    (found : List Token) (start : Nat) :
    scanOnto found start (c :: (word ++ rest))
      = scanOnto (⟨kind, c :: word, start⟩ :: found) (start + (word.length + 1)) rest := by
  have htake : (word ++ rest).takeWhile kind.continues = word := by
    rw [List.takeWhile_append_of_pos hword, hrest.takeWhile, List.append_nil]
  have hdrop : (word ++ rest).dropWhile kind.continues = rest := by
    rw [List.dropWhile_append_of_pos hword, hrest.dropWhile]
  rw [scanOnto, if_neg (Bool.eq_false_iff.mp hblank), hkind]
  simp only [htake, hdrop, List.length_cons]

section Marks

variable (found : List Token) (start : Nat) (rest : List Char)

/-- A token of one character, of a kind that nothing goes on with. -/
theorem scanOnto_mark {kind : Kind} {c : Char} (hblank : Text.isBlank c = false)
    (hkind : Kind.ofChar? c = some kind) (hmark : ∀ d, kind.continues d = false) :
    scanOnto found start (c :: rest)
      = scanOnto (⟨kind, [c], start⟩ :: found) (start + 1) rest :=
  scanOnto_token hblank hkind [] rest (List.forall_mem_nil _) (fun d _ => hmark d) found start

theorem scanOnto_opening : scanOnto found start ('(' :: rest)
    = scanOnto (⟨.opening, ['('], start⟩ :: found) (start + 1) rest :=
  scanOnto_mark found start rest (by decide) (by decide) fun _ => rfl

theorem scanOnto_closing : scanOnto found start (')' :: rest)
    = scanOnto (⟨.closing, [')'], start⟩ :: found) (start + 1) rest :=
  scanOnto_mark found start rest (by decide) (by decide) fun _ => rfl

theorem scanOnto_dot : scanOnto found start ('.' :: rest)
    = scanOnto (⟨.dot, ['.'], start⟩ :: found) (start + 1) rest :=
  scanOnto_mark found start rest (by decide) (by decide) fun _ => rfl

/-- A binder as it is written, with the dot that ends it. -/
theorem scanOnto_binder : scanOnto found start (Term.binder ++ '.' :: rest)
    = scanOnto (⟨.dot, ['.'], start + 2⟩ :: ⟨.binder, Term.binder, start⟩ :: found)
        (start + 3) rest := by
  have hdot : Kind.StopsAt .binder ('.' :: rest) := by
    rintro c ⟨⟩
    decide
  have hname : ∀ d ∈ ['x'], Kind.continues .binder d = true := by
    intro d hd
    rw [List.mem_singleton.mp hd]
    rfl
  rw [← scanOnto_dot]
  exact scanOnto_token (by decide) (by decide) ['x'] _ hname hdot found start

end Marks

end Token

namespace Term

open Token (Kind scanOnto scanOnto_token scanOnto_blank scanOnto_opening scanOnto_closing
  scanOnto_binder)

/-! ### The tokens of a displayed term -/

theorem not_blank_of_isDigit {c : Char} (h : c.isDigit = true) : Text.isBlank c = false := by
  obtain ⟨hlow, hhigh⟩ := Text.toNat_of_isDigit h
  simp only [Text.isBlank, Text.blankRanges, List.any_cons, List.any_nil, Bool.or_false,
    Bool.or_eq_false_iff, Bool.and_eq_false_iff, decide_eq_false_iff_not]
  omega

theorem scanOnto_decimal (i : Nat) {rest : List Char} (hrest : Kind.StopsAt .index rest)
    (found : List Token) (start : Nat) :
    ∃ stop, scanOnto found start (decimal i ++ rest)
      = scanOnto (⟨.index, decimal i, start⟩ :: found) stop rest := by
  obtain ⟨c, word, hword⟩ := List.exists_cons_of_ne_nil (Text.decimal_ne_nil i)
  have hdigit : ∀ d ∈ c :: word, d.isDigit = true := by
    rw [← hword]
    exact fun d => Text.isDigit_of_mem_decimal
  have hfirst : c.isDigit = true := hdigit c List.mem_cons_self
  have hbegins := Kind.ofChar?_of_isDigit (Text.isDigit_of_isDigit hfirst)
  have hcontinues : ∀ d ∈ word, Kind.continues .index d = true := fun d hd =>
    Text.isDigit_of_isDigit (hdigit d (List.mem_cons_of_mem c hd))
  rw [hword]
  exact ⟨_, scanOnto_token (not_blank_of_isDigit hfirst) hbegins word rest
    hcontinues hrest found start⟩

/-- The tokens of a displayed term spell it. -/
theorem exists_spells_displayOnto {t : Term} :
    t.EachIndex (fun i => (decimal i).length ≤ maxDigits) →
    ∀ (found : List Token) (start : Nat) (rest : List Char), Kind.StopsAt .index rest →
      ∃ ts stop, Spells ts t ∧ ShortNumerals ts ∧
        scanOnto found start (t.displayOnto rest) = scanOnto (ts.reverse ++ found) stop rest := by
  induction t with
  | var i =>
    intro hshort found start rest hrest
    obtain ⟨stop, hscan⟩ := scanOnto_decimal i hrest found start
    have hvalue : Token.value ⟨.index, decimal i, start⟩ = i := by
      rw [Token.value, ← Text.numeral_eq_ofDigits, Text.numeral_decimal]
    have hspells : Spells [⟨.index, decimal i, start⟩] (var i) := by
      have hindex : Spells [⟨.index, decimal i, start⟩]
          (var (Token.value ⟨.index, decimal i, start⟩)) := .index rfl
      rwa [hvalue] at hindex
    refine ⟨_, stop, hspells, ?_, hscan⟩
    intro tok htok _
    rw [List.mem_singleton.mp htok]
    exact hshort
  | lam b ih =>
    intro hshort found start rest hrest
    obtain ⟨ts, stop, hspells, hs, hscan⟩ := ih hshort
      (⟨.dot, ['.'], start + 2⟩ :: ⟨.binder, binder, start⟩ :: found) (start + 3) rest hrest
    refine ⟨⟨.binder, binder, start⟩ :: ⟨.dot, ['.'], start + 2⟩ :: ts, stop,
      .abstraction rfl rfl hspells, (hs.cons (by simp)).cons (by simp), ?_⟩
    rw [displayOnto, scanOnto_binder, hscan]
    simp
  | app f a ihf iha =>
    rintro ⟨hf, ha⟩ found start rest hrest
    have hspace : Kind.StopsAt .index (' ' :: a.displayOnto (')' :: rest)) := by
      rintro c ⟨⟩
      decide
    have hclose : Kind.StopsAt .index (')' :: rest) := by
      rintro c ⟨⟩
      decide
    obtain ⟨ts, stop, hts, hshortf, hscanf⟩ :=
      ihf hf (⟨.opening, ['('], start⟩ :: found) (start + 1) _ hspace
    obtain ⟨us, stop', hus, hshorta, hscana⟩ :=
      iha ha (ts.reverse ++ ⟨.opening, ['('], start⟩ :: found) (stop + 1) _ hclose
    have hshort : ShortNumerals [⟨.closing, [')'], stop'⟩] :=
      ShortNumerals.cons (by simp) (List.forall_mem_nil _)
    refine ⟨⟨.opening, ['('], start⟩ :: ((ts ++ us) ++ [⟨.closing, [')'], stop'⟩]), stop' + 1,
      .group rfl rfl (.next (.first hts) hus),
      ((hshortf.append hshorta).append hshort).cons (by simp), ?_⟩
    rw [displayOnto, scanOnto_opening, hscanf, scanOnto_blank (by decide), hscana,
      scanOnto_closing]
    simp

/-! ### Reading what is displayed -/

/-- A displayed term is scanned to tokens that spell it. -/
theorem exists_scan_display {t : Term}
    (h : t.EachIndex fun i => (decimal i).length ≤ maxDigits) :
    ∃ ts, Token.scan t.display.toList = .ok ts ∧ Spells ts t ∧ ShortNumerals ts := by
  obtain ⟨ts, stop, hspells, hshort, hscanOnto⟩ := exists_spells_displayOnto h [] 0 [] nofun
  refine ⟨ts, ?_, hspells, hshort⟩
  rw [display, String.toList_ofList, Token.scan, hscanOnto, scanOnto, List.append_nil]
  show Except.ok ts.reverse.reverse = _
  rw [List.reverse_reverse]

/-- **Reading undoes display**, for every term whose indices have no more digits than can be
read. -/
theorem parse_display {t : Term}
    (h : t.EachIndex fun i => (decimal i).length ≤ maxDigits) : parse t.display = .ok t := by
  obtain ⟨ts, hscan, hspells, hshort⟩ := exists_scan_display h
  exact (parse_eq_ok_iff hscan hshort).mpr (.first hspells)

/-- Abstractions stand without parentheses in front of an argument, at the end of a group and
in a body. -/
theorem parse_display_abstractions :
    (app (app (lam (app (var 1) (lam (var 20)))) (lam (lam (var 0)))) (var 3)).display
        = "((λx.(1 λx.20) λx.λx.0) 3)" ∧
      parse "((λx.(1 λx.20) λx.λx.0) 3)"
        = .ok (app (app (lam (app (var 1) (lam (var 20)))) (lam (lam (var 0)))) (var 3)) := by
  have hdisplay : (app (app (lam (app (var 1) (lam (var 20)))) (lam (lam (var 0)))) (var 3)).display
      = "((λx.(1 λx.20) λx.λx.0) 3)" := by
    decide +kernel
  refine ⟨hdisplay, ?_⟩
  rw [← hdisplay]
  exact parse_display (by decide +kernel)

end Term

end Nameless
