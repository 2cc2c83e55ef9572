/-
Nameless/Proofs/Written/Words.lean

The characters of a text that is read.  No token goes on across a blank, so a text is
scanned word by word: first what stands before a blank, then what stands after it, as if
each were a text of its own (`scanOnto_append_blank`).  Two things follow for every text
that denotes a term:

* each of its words begins with a character that begins a token (`exists_kind_of_parse`),
  so none begins with a letter;
* it has as many opening as closing parentheses (`count_of_parse`): each of them is a
  token of its own, and the grammar pairs them.
-/
import Mathlib.Data.List.TakeWhile
import Nameless.Proofs.Written.Display

namespace Nameless

/-! ### Blanks -/

namespace Text

theorem exists_range_of_isBlank {b : Char} (hb : isBlank b = true) :
    ∃ r ∈ blankRanges, r.1 ≤ b.toNat ∧ b.toNat ≤ r.2 := by
  obtain ⟨r, hr, hrange⟩ := List.any_eq_true.mp hb
  rw [Bool.and_eq_true, decide_eq_true_eq, decide_eq_true_eq] at hrange
  exact ⟨r, hr, hrange⟩

theorem not_isDigit_of_isBlank {b : Char} (hb : isBlank b = true) : isDigit b = false := by
  have hapart : ∀ r ∈ blankRanges, ∀ first ∈ zeroDigits, first + 10 ≤ r.1 ∨ r.2 < first := by
    decide
  obtain ⟨r, hr, hlow, hhigh⟩ := exists_range_of_isBlank hb
  rw [isDigit, digitValue?, Option.isSome_map, Option.isSome_eq_false_iff,
    Option.isNone_iff_eq_none, List.find?_eq_none]
  intro first hfirst hrow
  rw [Bool.and_eq_true, decide_eq_true_eq, decide_eq_true_eq] at hrow
  rcases hapart r hr first hfirst with h | h <;> omega

end Text

namespace Token

theorem toNat_of_isNameChar {c : Char} (hc : isNameChar c = true) :
    65 ≤ c.toNat ∧ c.toNat ≤ 122 := by
  simp only [isNameChar, Bool.or_eq_true, Bool.and_eq_true, decide_eq_true_eq] at hc
  rcases hc with (⟨hlow, hhigh⟩ | ⟨hlow, hhigh⟩) | rfl
  · have hle : c.toNat ≤ 90 := hhigh
    exact ⟨hlow, by omega⟩
  · have hle : 97 ≤ c.toNat := hlow
    exact ⟨by omega, hhigh⟩
  · decide

/-- No token goes on across a blank. -/
theorem Kind.not_continues_of_isBlank {b : Char} (hb : Text.isBlank b = true) (kind : Kind) :
    kind.continues b = false := by
  cases kind with
  | binder =>
    have hapart : ∀ r ∈ Text.blankRanges, r.2 < 65 ∨ 122 < r.1 := by decide
    obtain ⟨r, hr, hlow, hhigh⟩ := Text.exists_range_of_isBlank hb
    refine Bool.eq_false_iff.mpr fun hname => ?_
    have hletter := toNat_of_isNameChar hname
    rcases hapart r hr with h | h <;> omega
  | index => exact Text.not_isDigit_of_isBlank hb
  | _ => rfl

/-! ### Scanning word by word -/

section Stop

variable {p : Char → Bool} {b : Char}

theorem takeWhile_append_stop (hb : p b = false) (xs ys : List Char) :
    (xs ++ b :: ys).takeWhile p = xs.takeWhile p := by
  induction xs with
  | nil => exact List.takeWhile_cons_of_neg (Bool.eq_false_iff.mp hb)
  | cons x xs ih => rw [List.cons_append, List.takeWhile_cons, List.takeWhile_cons, ih]

theorem dropWhile_append_stop (hb : p b = false) (xs ys : List Char) :
    (xs ++ b :: ys).dropWhile p = xs.dropWhile p ++ b :: ys := by
  induction xs with
  | nil => exact List.dropWhile_cons_of_neg (Bool.eq_false_iff.mp hb)
  | cons x xs ih =>
    rw [List.cons_append, List.dropWhile_cons, List.dropWhile_cons, ih]
    split <;> rfl

end Stop

/-- A text is scanned up to a blank and then on from it. -/
theorem scanOnto_append_blank {b : Char} (hb : Text.isBlank b = true) (xs ys : List Char)
    (found : List Token) (start : Nat) :
    scanOnto found start (xs ++ b :: ys)
      = (scanOnto found start xs).bind fun found' =>
          scanOnto found' (start + (xs.length + 1)) ys := by
  fun_induction scanOnto found start xs with
  | case1 found start => exact scanOnto_blank hb found start ys
  | case2 found start c rest hc ih =>
    rw [List.cons_append, scanOnto_blank hc, ih, List.length_cons, Nat.add_assoc start 1,
      Nat.add_comm 1]
  | case3 found start c rest hc hkind =>
    rw [List.cons_append, scanOnto, if_neg hc, hkind]
    rfl
  | case4 found start c rest hc kind hkind text ih =>
    have hstop := Kind.not_continues_of_isBlank hb kind
    have hlength : (rest.takeWhile kind.continues).length + (rest.dropWhile kind.continues).length
        = rest.length := by
      rw [← List.length_append, List.takeWhile_append_dropWhile]
    have hposition : start + text.length + ((rest.dropWhile kind.continues).length + 1)
        = start + ((c :: rest).length + 1) := by
      simp only [text, List.length_cons]
      omega
    rw [List.cons_append, scanOnto, if_neg hc, hkind]
    simp only [takeWhile_append_stop hstop, dropWhile_append_stop hstop]
    rw [ih, hposition]

theorem exists_kind_of_scanOnto {c : Char} (hc : Text.isBlank c = false) {found ts : List Token}
    {start : Nat} {rest : List Char} (h : scanOnto found start (c :: rest) = .ok ts) :
    ∃ kind, Kind.ofChar? c = some kind := by
  rw [scanOnto, if_neg (Bool.eq_false_iff.mp hc)] at h
  rcases hkind : Kind.ofChar? c with - | kind
  · rw [hkind] at h
    cases h
  · exact ⟨kind, rfl⟩

theorem scan_eq_ok_iff {text : List Char} {ts : List Token} :
    scan text = .ok ts ↔ scanOnto [] 0 text = .ok ts.reverse := by
  rw [scan]
  rcases scanOnto [] 0 text with stray | found
  · constructor
    · intro h
      cases h
    · intro h
      cases h
  · show Except.ok found.reverse = .ok ts ↔ Except.ok found = .ok ts.reverse
    rw [Except.ok.injEq, Except.ok.injEq, List.reverse_eq_iff]

/-! ### Counting parentheses -/

/-- Wherever the sign stands, it is a token by itself, and the only one of its kind. -/
structure Kind.IsMark (kind : Kind) (sign : Char) : Prop where
  not_blank : Text.isBlank sign = false
  ofChar?_iff : ∀ c, Kind.ofChar? c = some kind ↔ c = sign
  not_continues : ∀ k : Kind, k.continues sign = false

theorem Kind.isMark_opening : Kind.IsMark .opening '(' where
  not_blank := by decide
  ofChar?_iff c := by
    simp only [Kind.ofChar?]
    split_ifs <;> simp_all
  not_continues k := by cases k <;> decide

theorem Kind.isMark_closing : Kind.IsMark .closing ')' where
  not_blank := by decide
  ofChar?_iff c := by
    simp only [Kind.ofChar?]
    split_ifs <;> simp_all
  not_continues k := by cases k <;> decide

/-- A text has as many tokens of the kind as it has signs. -/
theorem Kind.IsMark.countP_scanOnto {kind : Kind} {sign : Char} (hmark : kind.IsMark sign)
    {found ts : List Token} {start : Nat} {text : List Char}
    (h : scanOnto found start text = .ok ts) :
    ts.countP (·.kind = kind) = found.countP (·.kind = kind) + text.count sign := by
  fun_induction scanOnto found start text with
  | case1 found start =>
    obtain rfl := Except.ok.inj h
    rfl
  | case2 found start c rest hc ih =>
    have hne : c ≠ sign := by
      rintro rfl
      rw [hmark.not_blank] at hc
      cases hc
    rw [ih h, List.count_cons_of_ne hne]
  | case3 => cases h
  | case4 found start c rest hc k hkind word ih =>
    -- what goes on with a token holds no sign
    have hword : (rest.takeWhile k.continues).count sign = 0 := by
      refine List.count_eq_zero.mpr fun hmem => ?_
      exact Bool.eq_false_iff.mp (hmark.not_continues k) (List.mem_takeWhile_imp hmem)
    have hrest : rest.count sign = (rest.dropWhile k.continues).count sign := by
      conv_lhs => rw [← List.takeWhile_append_dropWhile (p := k.continues) (l := rest)]
      rw [List.count_append, hword, Nat.zero_add]
    have hfirst : k = kind ↔ c = sign := by
      rw [← hmark.ofChar?_iff, hkind, Option.some.injEq]
    rw [ih h, List.countP_cons, List.count_cons, hrest]
    by_cases hk : k = kind
    · simp only [hk, hfirst.mp hk, decide_true, beq_self_eq_true, if_true]
      omega
    · simp [hk, mt hfirst.mpr hk]

theorem Kind.IsMark.countP_scan {kind : Kind} {sign : Char} (hmark : kind.IsMark sign)
    {text : List Char} {ts : List Token} (h : scan text = .ok ts) :
    ts.countP (·.kind = kind) = text.count sign := by
  have hcount := hmark.countP_scanOnto (scan_eq_ok_iff.mp h)
  rwa [List.countP_reverse, List.countP_nil, Nat.zero_add] at hcount

end Token

mutual

/-- Every term has as many opening as closing parentheses. -/
theorem Spells.balanced {ts : List Token} {t : Term} :
    Spells ts t → ts.countP (·.kind = .opening) = ts.countP (·.kind = .closing)
  | .index hk => by simp [hk]
  | .abstraction hb hd h => by simp [hb, hd, h.balanced]
  | .group ho hc h => by simp [ho, hc, h.balanced]

/-- So has every row of terms. -/
theorem SpellsRow.balanced {ts : List Token} {t : Term} :
    SpellsRow ts t → ts.countP (·.kind = .opening) = ts.countP (·.kind = .closing)
  | .first h => h.balanced
  | .next hf ha => by simp [hf.balanced, ha.balanced]

end

namespace Term

/-! ### Texts that denote a term -/

theorem exists_readTokens_of_parse {text : String} {t : Term} (h : parse text = .ok t) :
    ∃ tokens, Token.scan text.toList = .ok tokens ∧ readTokens (.start none) [] tokens = .ok t := by
  rcases hscan : Token.scan text.toList with stray | tokens
  · rw [parse, hscan] at h
    cases h
  · rw [parse_of_scan hscan] at h
    rcases hread : readTokens (.start none) [] tokens with refusal | u
    · rw [hread] at h
      cases h
    · rw [hread] at h
      obtain rfl := Except.ok.inj h
      exact ⟨tokens, rfl, hread⟩

theorem exists_spellsRow_of_parse {text : String} {t : Term} (h : parse text = .ok t) :
    ∃ tokens, Token.scan text.toList = .ok tokens ∧ SpellsRow tokens t := by
  obtain ⟨tokens, hscan, hread⟩ := exists_readTokens_of_parse h
  exact ⟨tokens, hscan, spellsRow_of_readTokens hread (.whole rfl (.binders .zero))⟩

/-- A text that denotes a term has as many opening as closing parentheses. -/
theorem count_of_parse {text : String} {t : Term} (h : parse text = .ok t) :
    text.toList.count '(' = text.toList.count ')' := by
  obtain ⟨tokens, hscan, hrow⟩ := exists_spellsRow_of_parse h
  rw [← Token.Kind.isMark_opening.countP_scan hscan, hrow.balanced,
    Token.Kind.isMark_closing.countP_scan hscan]

/-- In a text that denotes a term, the first character of every word begins a token. -/
theorem exists_kind_of_parse {text : String} {t : Term} (h : parse text = .ok t)
    {before rest : List Char} {c : Char} (htext : text.toList = before ++ c :: rest)
    (hbefore : ∀ b ∈ before.getLast?, Text.isBlank b = true) (hc : Text.isBlank c = false) :
    ∃ kind, Token.Kind.ofChar? c = some kind := by
  obtain ⟨tokens, hscan, -⟩ := exists_spellsRow_of_parse h
  rw [htext, Token.scan_eq_ok_iff] at hscan
  rcases List.eq_nil_or_concat before with rfl | ⟨before, b, rfl⟩
  · exact Token.exists_kind_of_scanOnto hc hscan
  · rw [List.concat_eq_append] at hbefore hscan
    rw [List.getLast?_concat] at hbefore
    rw [List.append_assoc, List.singleton_append,
      Token.scanOnto_append_blank (hbefore b rfl)] at hscan
    rcases hfirst : Token.scanOnto [] 0 before with stray | found
    · rw [hfirst] at hscan
      cases hscan
    · rw [hfirst] at hscan
      exact Token.exists_kind_of_scanOnto hc hscan

end Term

end Nameless
