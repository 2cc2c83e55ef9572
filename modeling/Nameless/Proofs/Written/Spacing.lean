/-
Nameless/Proofs/Written/Spacing.lean

Blanks between words do not matter.  What a text denotes depends on the kinds and the
characters of its tokens alone, not on their places (`parse_toOption`): places are kept for
the reports.  The tokens without their places, `Token.bares`, are those of the words of
the text one after the other (`bares_append_blank`).  So a text may be trimmed, and what
stands between two of its words may be any blanks; it denotes the same term
(`parse_eq_ok_of_bares`).
-/
import Nameless.Proofs.Text.Trim
import Nameless.Proofs.Written.Words

namespace Nameless

/-! ### Reading without places -/

/-- A token without its place. -/
def Token.bare (tok : Token) : Token := { tok with start := 0 }

/-- A group whose parenthesis has no place. -/
def Group.bare (g : Group) : Group := { g with opening := g.opening.map Token.bare }

/-- Whether tokens are read, and as what, does not depend on their places. -/
theorem readTokens_bare (inner : Group) (outer : List Group) (ts : List Token) :
    (readTokens inner.bare (outer.map Group.bare) (ts.map Token.bare)).toOption
      = (readTokens inner outer ts).toOption := by
  fun_induction readTokens inner outer ts with
  | case1 inner outer hwaiting => simp [readTokens, Group.bare, hwaiting, Except.toOption]
  | case2 inner outer hwaiting tok hopening =>
    simp [readTokens, Group.bare, hwaiting, hopening, Except.toOption]
  | case3 inner outer hwaiting t hterm hopening =>
    simp [readTokens, Group.bare, hwaiting, hopening, hterm]
  | case4 inner outer hwaiting hterm hopening =>
    simp [readTokens, Group.bare, hwaiting, hopening, hterm]
  | case5 inner outer text start rest hlong =>
    simp [readTokens, Token.bare, hlong]
  | case6 inner outer text start rest hlong ih =>
    rw [List.map_cons, Token.bare, readTokens, if_neg hlong]
    exact ih
  | case7 inner outer text start text' start' rest ih =>
    rw [List.map_cons, List.map_cons, Token.bare, Token.bare, readTokens]
    exact ih
  | case8 inner outer text start rest hdot =>
    rw [List.map_cons, Token.bare, readTokens]
    · rfl
    · intro text' start' rest' hrest
      obtain ⟨⟨kind, word, place⟩, more, rfl, hbare, -⟩ := List.map_eq_cons_iff.mp hrest
      cases hbare
      exact hdot _ _ _ rfl
  | case9 inner outer text start rest ih =>
    rw [List.map_cons, Token.bare, readTokens]
    exact ih
  | case10 inner outer text start rest hwaiting =>
    simp [readTokens, Token.bare, Group.bare, hwaiting, Except.toOption]
  | case11 inner text start rest hwaiting o t group groups hterm hopening ih =>
    simp only [List.map_cons, Token.bare, readTokens, Group.bare, hwaiting, hopening, hterm]
    exact ih
  | case12 inner outer text start rest hwaiting hgroup =>
    rw [List.map_cons, Token.bare, readTokens, if_neg (show ¬ 0 < inner.bare.waiting from hwaiting)]
    · rfl
    · intro o t group groups hopening hterm houter
      obtain ⟨o', hopening, -⟩ := Option.map_eq_some_iff.mp hopening
      obtain ⟨group', groups', rfl, -, -⟩ := List.map_eq_cons_iff.mp houter
      exact hgroup o' t group' groups' hopening hterm rfl
  | case13 inner outer text start rest => rfl

/-! ### Scanning without places -/

namespace Token

/-- The tokens of a text without their places, if it can be scanned. -/
def bares (text : List Char) : Option (List Token) :=
  (scan text).toOption.map (·.map bare)

theorem bares_eq_some_iff {text : List Char} {us : List Token} :
    bares text = some us ↔ ∃ ts, scanOnto [] 0 text = .ok ts ∧ (ts.map bare).reverse = us := by
  rw [bares, scan]
  cases scanOnto [] 0 text with
  | error stray => simp [Except.map, Except.toOption]
  | ok ts => simp [Except.map, Except.toOption]

/-- A text has the same tokens wherever it begins, in front of those found before. -/
theorem exists_scanOnto {found ts : List Token} {start : Nat} {text : List Char}
    (h : scanOnto found start text = .ok ts) (found' : List Token) (start' : Nat) :
    ∃ ts' new, scanOnto found' start' text = .ok ts' ∧
      ts.map bare = new ++ found.map bare ∧ ts'.map bare = new ++ found'.map bare := by
  fun_induction scanOnto found start text generalizing found' start' with
  | case1 found start =>
    obtain rfl := Except.ok.inj h
    exact ⟨found', [], by rw [scanOnto], rfl, rfl⟩
  | case2 found start c rest hc ih =>
    obtain ⟨ts', new, hscan, hts, hts'⟩ := ih h found' (start' + 1)
    exact ⟨ts', new, by rw [scanOnto_blank hc, hscan], hts, hts'⟩
  | case3 => cases h
  | case4 found start c rest hc kind hkind text ih =>
    obtain ⟨ts', new, hscan, hts, hts'⟩ :=
      ih h (⟨kind, text, start'⟩ :: found') (start' + text.length)
    refine ⟨ts', new ++ [bare ⟨kind, text, 0⟩], ?_, ?_, ?_⟩
    · rw [scanOnto, if_neg hc, hkind]
      exact hscan
    · rw [hts, List.append_assoc]
      rfl
    · rw [hts', List.append_assoc]
      rfl

/-- The words of a text are scanned one by one. -/
theorem bares_append_blank {b : Char} (hb : Text.isBlank b = true) (xs ys : List Char) :
    bares (xs ++ b :: ys) = (bares xs).bind fun ts => (bares ys).map (ts ++ ·) := by
  ext us
  simp only [Option.bind_eq_some_iff, Option.map_eq_some_iff, bares_eq_some_iff,
    scanOnto_append_blank hb]
  constructor
  · rintro ⟨ts, hscan, rfl⟩
    cases hxs : scanOnto [] 0 xs with
    | error stray =>
      rw [hxs] at hscan
      cases hscan
    | ok found =>
      rw [hxs] at hscan
      obtain ⟨ts', new, hys, hts, hts'⟩ := exists_scanOnto hscan [] 0
      refine ⟨_, ⟨found, rfl, rfl⟩, _, ⟨ts', hys, rfl⟩, ?_⟩
      rw [hts, hts', List.map_nil, List.append_nil, List.reverse_append]
  · rintro ⟨_, ⟨found, hxs, rfl⟩, _, ⟨ts, hys, rfl⟩, rfl⟩
    obtain ⟨ts', new, hscan, hts, hts'⟩ := exists_scanOnto hys found (0 + (xs.length + 1))
    refine ⟨ts', ?_, ?_⟩
    · rw [hxs]
      exact hscan
    · rw [hts, hts', List.map_nil, List.append_nil, List.reverse_append]

theorem bares_nil : bares [] = some [] :=
  bares_eq_some_iff.mpr ⟨[], by rw [scanOnto], rfl⟩

theorem bares_blanks_append {before : List Char} (hbefore : Text.Blanks before)
    (text : List Char) : bares (before ++ text) = bares text := by
  induction before with
  | nil => rfl
  | cons b before ih =>
    obtain ⟨hb, hbefore⟩ := List.forall_mem_cons.mp hbefore
    have happend := bares_append_blank hb [] (before ++ text)
    rw [bares_nil, Option.bind_some, ih hbefore] at happend
    rw [List.cons_append, ← List.nil_append (b :: _), happend]
    simp

theorem bares_append_blanks {after : List Char} (hafter : Text.Blanks after)
    (text : List Char) : bares (text ++ after) = bares text := by
  cases after with
  | nil => rw [List.append_nil]
  | cons b after =>
    obtain ⟨hb, hafter⟩ := List.forall_mem_cons.mp hafter
    have hnone := bares_blanks_append hafter []
    rw [List.append_nil] at hnone
    rw [bares_append_blank hb, hnone, bares_nil]
    simp

/-- Trimming takes no token away. -/
theorem bares_trim (text : List Char) : bares (Text.trim text) = bares text := by
  obtain ⟨before, after, hbefore, hafter, htext⟩ := Text.exists_trim text
  conv_rhs => rw [htext]
  rw [bares_blanks_append hbefore, bares_append_blanks hafter]

/-- What is no blank and no part of a token does not stand in a text that can be scanned. -/
theorem not_mem_of_scanOnto {c : Char} (hblank : Text.isBlank c = false)
    (hkind : Kind.ofChar? c = none) (hcontinues : ∀ kind : Kind, kind.continues c = false)
    {found ts : List Token} {start : Nat} {text : List Char}
    (h : scanOnto found start text = .ok ts) : c ∉ text := by
  fun_induction scanOnto found start text with
  | case1 => exact List.not_mem_nil
  | case2 found start d rest hd ih =>
    refine not_or.mpr ⟨?_, ih h⟩ ∘ List.mem_cons.mp
    rintro rfl
    exact absurd (hblank.symm.trans hd) (by decide)
  | case3 => cases h
  | case4 found start d rest hd kind hk text ih =>
    refine not_or.mpr ⟨?_, ?_⟩ ∘ List.mem_cons.mp
    · rintro rfl
      rw [hkind] at hk
      cases hk
    · rw [← List.takeWhile_append_dropWhile (p := kind.continues) (l := rest), List.mem_append,
        not_or]
      refine ⟨fun hmem => ?_, ih h⟩
      exact absurd ((hcontinues kind).symm.trans (List.mem_takeWhile_imp hmem)) (by decide)

end Token

/-! ### Texts that denote the same term -/

namespace Term

/-- What a text denotes depends on its tokens alone, without their places. -/
theorem parse_toOption (text : List Char) :
    (parse (String.ofList text)).toOption
      = (Token.bares text).bind fun ts => (readTokens (.start none) [] ts).toOption := by
  rw [Token.bares]
  cases hscan : Token.scan text with
  | error stray =>
    rw [parse, String.toList_ofList, hscan]
    rfl
  | ok ts =>
    have hbare := readTokens_bare (.start none) [] ts
    rw [parse_of_scan (by rw [String.toList_ofList, hscan])]
    refine Eq.trans ?_ hbare.symm
    cases readTokens (.start none) [] ts <;> rfl

theorem parse_eq_ok_of_bares {xs ys : List Char} (h : Token.bares xs = Token.bares ys) {t : Term}
    (hxs : parse (String.ofList xs) = .ok t) : parse (String.ofList ys) = .ok t := by
  have hys : (parse (String.ofList ys)).toOption = some t := by
    rw [parse_toOption, ← h, ← parse_toOption, hxs]
    rfl
  cases hparse : parse (String.ofList ys) with
  | error e =>
    rw [hparse] at hys
    cases hys
  | ok u =>
    rw [hparse] at hys
    exact congrArg _ (Option.some.inj hys)

theorem parse_nil_ne_ok {t : Term} : parse (String.ofList []) ≠ .ok t := by
  intro h
  have hnone := parse_toOption []
  rw [h, Token.bares_nil] at hnone
  cases hnone

/-- No semicolon stands in a text that denotes a term, so it has no comment. -/
theorem semicolon_not_mem_of_parse {text : String} {t : Term} (h : parse text = .ok t) :
    ';' ∉ text.toList := by
  obtain ⟨tokens, hscan, -⟩ := exists_spellsRow_of_parse h
  refine Token.not_mem_of_scanOnto (by decide) (by decide) (fun kind => ?_)
    (Token.scan_eq_ok_iff.mp hscan)
  cases kind <;> decide

end Term

end Nameless
