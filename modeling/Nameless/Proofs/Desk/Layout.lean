/-
Nameless/Proofs/Desk/Layout.lean

The layout of a source does not matter.

A written term may be broken at any of its spaces.  Parentheses are open at each of them
(`openCuts_display`), so a line that stops there leaves its text unfinished, and the next
piece goes on with it.  Whether a text is finished is decided by counting parentheses in
what has been joined so far, and whether it is complete by the reader, from its tokens;
neither is changed by breaking, indenting and joining again (`Rejoins`), so the two agree
at every break.

`gather_written` is the step: the lines of one broken text become one statement, under the
number of the first of them.  `gather_of_layout` is the run, by induction on the layout,
and with it `openSheet_queues_layout` says what a source queues.  The step holds for every text
that can be read, with the breaks where parentheses are open.
-/
import Nameless.Proofs.Desk.Opening
import Nameless.Proofs.Written.Spacing

namespace Nameless

namespace Draft

open Text (Blanks trim isBlank)

/-! ### Texts in pieces -/

/-- The first piece, and each other one after a space. -/
def spaced (piece : List Char) (pieces : List (List Char)) : List Char :=
  piece ++ pieces.flatMap (' ' :: ·)

/-- At each place where the text was cut, parentheses are open. -/
def OpenCuts : List Char → List (List Char) → Prop
  | _, [] => True
  | text, piece :: pieces => unfinished text = true ∧ OpenCuts (text ++ ' ' :: piece) pieces

theorem spaced_cons (text piece : List Char) (pieces : List (List Char)) :
    spaced text (piece :: pieces) = spaced (text ++ ' ' :: piece) pieces := by
  simp [spaced]

theorem prefix_spaced (piece : List Char) (pieces : List (List Char)) :
    piece <+: spaced piece pieces :=
  List.prefix_append _ _

/-- A line bears a piece of text: there may be blanks around it, and a comment after it. -/
def Bears (piece line : List Char) : Prop :=
  ∃ before after comment, Blanks before ∧ Blanks after ∧
    (comment = [] ∨ [';', ';'] <+: comment) ∧ line = before ++ (piece ++ (after ++ comment))

theorem bears_self (piece : List Char) : Bears piece piece :=
  ⟨[], [], [], nofun, nofun, .inl rfl, by simp⟩

theorem cutComment_append_of_not_mem {text : List Char} (h : ';' ∉ text) (rest : List Char) :
    cutComment (text ++ rest) = text ++ cutComment rest := by
  induction text with
  | nil => rfl
  | cons c text ih =>
    have hhead : ¬ [';', ';'] <+: c :: (text ++ rest) := fun hsign =>
      h ((List.cons_prefix_cons.mp hsign).1 ▸ List.mem_cons_self)
    rw [List.cons_append, cutComment_cons hhead, ih fun hmem => h (List.mem_cons_of_mem c hmem),
      List.cons_append]

theorem cutComment_of_comment {comment : List Char}
    (h : comment = [] ∨ [';', ';'] <+: comment) : cutComment comment = [] := by
  rcases h with rfl | hsign
  · rfl
  · exact cutComment_of_sign hsign

theorem semicolon_not_mem_of_blanks {text : List Char} (h : Blanks text) : ';' ∉ text :=
  fun hmem => not_blank_semicolon (h _ hmem)

/-- What counts of a line is the piece that it bears. -/
theorem Bears.tidy_eq {piece line : List Char} (h : Bears piece line) (hpiece : ';' ∉ piece) :
    tidy line = trim piece := by
  obtain ⟨before, after, comment, hbefore, hafter, hcomment, rfl⟩ := h
  rw [tidy, cutComment_append_of_not_mem (semicolon_not_mem_of_blanks hbefore),
    cutComment_append_of_not_mem hpiece,
    cutComment_append_of_not_mem (semicolon_not_mem_of_blanks hafter),
    cutComment_of_comment hcomment, List.append_nil, Text.trim_append_blanks hbefore hafter]

/-! ### Joining the pieces again -/

theorem count_blanks {c : Char} (hc : isBlank c = false) {text : List Char} (h : Blanks text) :
    text.count c = 0 := by
  refine List.count_eq_zero.mpr fun hmem => ?_
  exact absurd (hc.symm.trans (h c hmem)) (by decide)

theorem count_trim {c : Char} (hc : isBlank c = false) (text : List Char) :
    (trim text).count c = text.count c := by
  obtain ⟨before, after, hbefore, hafter, htext⟩ := Text.exists_trim text
  conv_rhs => rw [htext]
  rw [List.count_append, List.count_append, count_blanks hc hbefore, count_blanks hc hafter,
    Nat.zero_add, Nat.add_zero]

theorem count_joined {c : Char} (hc : isBlank c = false) (text line : List Char) :
    (joined text line).count c = text.count c + line.count c := by
  have hspace : ' ' ≠ c := by
    rintro rfl
    exact absurd hc (by decide)
  rcases eq_or_ne text [] with rfl | htext
  · rw [joined, List.count_nil, Nat.zero_add]
  · rcases eq_or_ne line [] with rfl | hline
    · rw [joined_nil, List.count_nil, Nat.add_zero]
    · rw [joined_eq_append htext hline, List.count_append, List.count_cons_of_ne hspace]

theorem bares_joined (text line : List Char) :
    Token.bares (joined text line) = Token.bares (text ++ ' ' :: line) := by
  rcases eq_or_ne text [] with rfl | htext
  · exact (Token.bares_blanks_append Text.blanks_space line).symm
  · rcases eq_or_ne line [] with rfl | hline
    · rw [joined_nil, Token.bares_append_blanks Text.blanks_space]
    · rw [joined_eq_append htext hline]

/-- A tidy text that has the tokens of another one, and as many of each sign. -/
structure Rejoins (text whole : List Char) : Prop where
  neat : Neat whole
  count : ∀ c, isBlank c = false → whole.count c = text.count c
  bares : Token.bares whole = Token.bares text

namespace Rejoins

variable {text whole piece line : List Char}

theorem unfinished_eq (h : Rejoins text whole) : unfinished whole = unfinished text := by
  rw [unfinished, unfinished, h.count ')' (by decide), h.count '(' (by decide)]

theorem first (hline : Bears piece line) (hpiece : ';' ∉ piece) : Rejoins piece (tidy line) where
  neat := neat_tidy line
  count c hc := by rw [hline.tidy_eq hpiece, count_trim hc]
  bares := by rw [hline.tidy_eq hpiece, Token.bares_trim]

/-- The next piece goes on with the text after a space. -/
theorem next (h : Rejoins text whole) (hline : Bears piece line) (hpiece : ';' ∉ piece) :
    Rejoins (text ++ ' ' :: piece) (joined whole (tidy line)) where
  neat := h.neat.joined (neat_tidy line)
  count c hc := by
    have hspace : ' ' ≠ c := by
      rintro rfl
      exact absurd hc (by decide)
    rw [count_joined hc, h.count c hc, (first hline hpiece).count c hc, List.count_append,
      List.count_cons_of_ne hspace]
  bares := by
    have hspace : isBlank ' ' = true := by decide
    rw [bares_joined, Token.bares_append_blank hspace, h.bares, (first hline hpiece).bares,
      ← Token.bares_append_blank hspace]

theorem parse (h : Rejoins text whole) {t : Term} (ht : Term.parse (String.ofList text) = .ok t) :
    Term.parse (String.ofList whole) = .ok t :=
  Term.parse_eq_ok_of_bares h.bares.symm ht

end Rejoins

/-! ### A broken text -/

/-- The lines that bear the pieces, one for each, with lines in front of them that bear
nothing. -/
inductive Continues : List (List Char) → List (List Char) → Prop
  | nil : Continues [] []
  | filler {line piece : List Char} {pieces lines : List (List Char)} :
      Bears [] line → Continues (piece :: pieces) lines →
        Continues (piece :: pieces) (line :: lines)
  | piece {line piece : List Char} {pieces lines : List (List Char)} :
      Bears piece line → Continues pieces lines → Continues (piece :: pieces) (line :: lines)

section

variable {number : Nat} {line : List Char} {rest : List (List Char)}

theorem gather_of_unfinished {pending : Option Draft}
    (h : unfinished (next pending number line).text = true) :
    gather pending number (line :: rest)
      = gather (some (next pending number line)) (number + 1) rest := by
  rw [gather, left, finished, h, if_pos rfl, Bool.true_or, if_pos rfl, Option.toList_none,
    List.nil_append]

theorem gather_of_finished {pending : Option Draft}
    (h : unfinished (next pending number line).text = false)
    (hne : (next pending number line).text ≠ []) :
    gather pending number (line :: rest)
      = next pending number line :: gather none (number + 1) rest := by
  have hempty : ¬ (next pending number line).text.isEmpty = true := fun h =>
    hne (List.isEmpty_iff.mp h)
  rw [gather, left, finished, h, Bool.false_or, if_neg hempty, if_neg Bool.false_ne_true,
    Option.toList_some, List.singleton_append]

/-- A line with nothing on it is passed over. -/
theorem gather_of_tidy_eq_nil {pending : Option Draft}
    (hpending : ∀ d ∈ pending, unfinished d.text = true) (hline : tidy line = []) :
    gather pending number (line :: rest) = gather pending (number + 1) rest := by
  cases pending with
  | none =>
    have htext : (next none number line).text = [] := hline
    rw [gather, left, finished, htext]
    rfl
  | some d =>
    have hnext : next (some d) number line = d := by
      show (⟨joined d.text (tidy line), d.line⟩ : Draft) = d
      rw [hline, joined_nil]
    have hopen : unfinished (next (some d) number line).text = true := by
      rw [hnext]
      exact hpending d rfl
    rw [gather_of_unfinished hopen, hnext]

/-- Pieces that go on with what is pending finish it when they have all come. -/
theorem gather_continues {pieces lines : List (List Char)} (hlines : Continues pieces lines)
    {text : List Char} {d : Draft} (hd : Rejoins text d.text) (hopen : unfinished text = true)
    (hcuts : OpenCuts text pieces) (hpieces : ∀ piece ∈ pieces, ';' ∉ piece)
    (hclosed : unfinished (spaced text pieces) = false) (number : Nat)
    (rest : List (List Char)) :
    ∃ whole, Rejoins (spaced text pieces) whole ∧
      gather (some d) number (lines ++ rest)
        = ⟨whole, d.line⟩ :: gather none (number + lines.length) rest := by
  induction hlines generalizing text d number with
  | nil =>
    rw [spaced, List.flatMap_nil, List.append_nil] at hclosed
    exact absurd (hopen.symm.trans hclosed) (by decide)
  | @filler line piece pieces lines hline _ ih =>
    have hpending : ∀ x ∈ some d, unfinished x.text = true := by
      rintro x ⟨⟩
      rw [hd.unfinished_eq, hopen]
    obtain ⟨whole, hwhole, hgather⟩ := ih hd hopen hcuts hpieces hclosed (number + 1)
    refine ⟨whole, hwhole, ?_⟩
    rw [List.cons_append, gather_of_tidy_eq_nil hpending (hline.tidy_eq List.not_mem_nil), hgather,
      List.length_cons, Nat.add_assoc, Nat.add_comm 1]
  | @piece line piece pieces lines hline hlines ih =>
    obtain ⟨hpiece, hpieces⟩ := List.forall_mem_cons.mp hpieces
    have hnext : Rejoins (text ++ ' ' :: piece) (next (some d) number line).text :=
      hd.next hline hpiece
    rw [spaced_cons] at hclosed ⊢
    rw [List.cons_append]
    cases hopen' : unfinished (text ++ ' ' :: piece) with
    | true =>
      obtain ⟨whole, hwhole, hgather⟩ := ih hnext hopen' hcuts.2 hpieces hclosed (number + 1)
      refine ⟨whole, hwhole, ?_⟩
      rw [gather_of_unfinished (hnext.unfinished_eq.trans hopen'), hgather, List.length_cons,
        Nat.add_assoc, Nat.add_comm 1]
      rfl
    | false =>
      -- no cut is left where parentheses are open, so this was the last piece
      cases hlines with
      | nil =>
        have hne : (next (some d) number line).text ≠ [] :=
          (prefix_joined d.text (tidy line)).ne_nil
            (ne_nil_of_unfinished (hd.unfinished_eq.trans hopen))
        refine ⟨_, ?_, gather_of_finished (hnext.unfinished_eq.trans hopen') hne⟩
        rw [spaced, List.flatMap_nil, List.append_nil]
        exact hnext
      | filler => exact absurd (hcuts.2.1.symm.trans hopen') (by decide)
      | piece => exact absurd (hcuts.2.1.symm.trans hopen') (by decide)

theorem unfinished_of_parse {text : List Char} {t : Term}
    (h : Term.parse (String.ofList text) = .ok t) : unfinished text = false := by
  have hcount := Term.count_of_parse h
  rw [String.toList_ofList] at hcount
  rw [unfinished, hcount, decide_eq_false_iff_not]
  exact Nat.lt_irrefl _

theorem semicolon_not_mem_of_spaced {piece : List Char} {pieces : List (List Char)} {t : Term}
    (h : Term.parse (String.ofList (spaced piece pieces)) = .ok t) :
    ';' ∉ piece ∧ ∀ p ∈ pieces, ';' ∉ p := by
  have hsemicolon : ';' ∉ spaced piece pieces := by
    simpa using Term.semicolon_not_mem_of_parse h
  refine ⟨fun h => hsemicolon ((prefix_spaced piece pieces).mem h), fun p hp h => ?_⟩
  exact hsemicolon (List.mem_append_right _
    (List.mem_flatMap.mpr ⟨p, hp, List.mem_cons_of_mem _ h⟩))

/-- The lines of a broken text that can be read become one statement, under the number of the
first of them. -/
theorem gather_written {piece : List Char} {pieces lines : List (List Char)} {t : Term}
    (ht : Term.parse (String.ofList (spaced piece pieces)) = .ok t)
    (hcuts : OpenCuts piece pieces) (hline : Bears piece line) (hlines : Continues pieces lines)
    (number : Nat) (rest : List (List Char)) :
    ∃ whole, Term.parse (String.ofList whole) = .ok t ∧
      gather none number (line :: (lines ++ rest))
        = ⟨whole, number⟩ :: gather none (number + 1 + lines.length) rest := by
  obtain ⟨hpiece, hpieces⟩ := semicolon_not_mem_of_spaced ht
  have hclosed : unfinished (spaced piece pieces) = false := unfinished_of_parse ht
  have hfirst : Rejoins piece (next none number line).text := .first hline hpiece
  cases hopen : unfinished piece with
  | true =>
    obtain ⟨whole, hwhole, hgather⟩ := gather_continues hlines hfirst hopen hcuts hpieces hclosed
      (number + 1) rest
    refine ⟨whole, hwhole.parse ht, ?_⟩
    rw [gather_of_unfinished (hfirst.unfinished_eq.trans hopen), hgather]
    rfl
  | false =>
    cases hlines with
    | nil =>
      rw [spaced, List.flatMap_nil, List.append_nil] at ht
      have hparse := hfirst.parse ht
      have hne : (next none number line).text ≠ [] := fun h => by
        rw [h] at hparse
        exact Term.parse_nil_ne_ok hparse
      exact ⟨_, hparse, gather_of_finished (hfirst.unfinished_eq.trans hopen) hne⟩
    | filler => exact absurd (hcuts.1.symm.trans hopen) (by decide)
    | piece => exact absurd (hcuts.1.symm.trans hopen) (by decide)

end

end Draft

/-! ### The spaces of a written term -/

namespace Term

theorem displayOnto_append (t : Term) (rest more : List Char) :
    t.displayOnto (rest ++ more) = t.displayOnto rest ++ more := by
  induction t generalizing rest with
  | var i => rw [displayOnto, displayOnto, List.append_assoc]
  | lam b ih => rw [displayOnto, displayOnto, ih, List.append_assoc, List.cons_append]
  | app f a ihf iha =>
    rw [displayOnto, displayOnto, ← List.cons_append, iha, ← List.cons_append, ihf,
      List.cons_append]

theorem displayOnto_eq (t : Term) (rest : List Char) :
    t.displayOnto rest = t.displayOnto [] ++ rest :=
  t.displayOnto_append [] rest

theorem not_mem_decimal {c : Char} (hc : c.isDigit = false) (i : Nat) : c ∉ decimal i :=
  fun h => absurd (hc.symm.trans (Text.isDigit_of_mem_decimal h)) (by decide)

theorem displayOnto_lam (b : Term) :
    (lam b).displayOnto [] = 'λ' :: 'x' :: '.' :: b.displayOnto [] := rfl

theorem displayOnto_app (f a : Term) :
    (app f a).displayOnto [] = '(' :: (f.displayOnto [] ++ ' ' :: (a.displayOnto [] ++ [')'])) := by
  rw [displayOnto, displayOnto_eq f, displayOnto_eq a]

theorem balanced_displayOnto (t : Term) :
    (t.displayOnto []).count '(' = (t.displayOnto []).count ')' := by
  induction t with
  | var i =>
    rw [displayOnto, List.append_nil, List.count_eq_zero.mpr (not_mem_decimal (by decide) i),
      List.count_eq_zero.mpr (not_mem_decimal (by decide) i)]
  | lam b ih => simpa [displayOnto_lam] using ih
  | app f a ihf iha => simp [displayOnto_app, ihf, iha]; omega

section Space

variable {c : Char} {text more xs ys : List Char}

/-- A space in a longer text is one in the text itself, if another sign was put in front. -/
theorem exists_of_cons_eq (hc : c ≠ ' ') (h : c :: text = xs ++ ' ' :: ys) :
    ∃ xs', xs = c :: xs' ∧ text = xs' ++ ' ' :: ys := by
  rcases List.cons_eq_append_iff.mp h with ⟨-, hys⟩ | ⟨xs', hxs, htext⟩
  · exact absurd (List.cons.inj hys).1.symm hc
  · exact ⟨xs', hxs, htext⟩

/-- Likewise if another sign was put at the end. -/
theorem exists_of_concat_eq (hc : c ≠ ' ') (h : text ++ [c] = xs ++ ' ' :: ys) :
    ∃ ys', text = xs ++ ' ' :: ys' := by
  rcases List.eq_nil_or_concat ys with rfl | ⟨ys', d, rfl⟩
  · exact absurd (List.append_inj_right' h rfl) (by simpa using hc)
  · rw [List.concat_eq_append, ← List.cons_append, ← List.append_assoc] at h
    exact ⟨ys', List.append_inj_left' h rfl⟩

/-- A space in two texts with a space between them. -/
theorem cases_of_append_eq (h : text ++ ' ' :: more = xs ++ ' ' :: ys) :
    (∃ ys', text = xs ++ ' ' :: ys') ∨ xs = text ∨
      ∃ xs', xs = text ++ ' ' :: xs' ∧ more = xs' ++ ' ' :: ys := by
  rcases List.append_eq_append_iff.mp h with ⟨_ | ⟨d, xs'⟩, hxs, hmore⟩ |
    ⟨_ | ⟨d, ys'⟩, htext, hmore⟩
  · exact .inr (.inl (by rw [hxs, List.append_nil]))
  · obtain ⟨rfl, hys⟩ := List.cons.inj hmore
    exact .inr (.inr ⟨xs', hxs, hys⟩)
  · exact .inr (.inl (by rw [htext, List.append_nil]))
  · obtain ⟨rfl, -⟩ := List.cons.inj hmore
    exact .inl ⟨ys', htext⟩

end Space

/-- Before each space of a written term parentheses are open. -/
theorem count_lt_of_displayOnto {t : Term} {xs ys : List Char}
    (h : t.displayOnto [] = xs ++ ' ' :: ys) : xs.count ')' < xs.count '(' := by
  induction t generalizing xs ys with
  | var i =>
    rw [displayOnto, List.append_nil] at h
    have hspace : ' ' ∈ decimal i := by
      rw [h]
      exact List.mem_append_right _ List.mem_cons_self
    exact absurd hspace (not_mem_decimal (by decide) i)
  | lam b ih =>
    rw [displayOnto_lam] at h
    obtain ⟨xs₁, rfl, h₁⟩ := exists_of_cons_eq (by decide) h
    obtain ⟨xs₂, rfl, h₂⟩ := exists_of_cons_eq (by decide) h₁
    obtain ⟨xs₃, rfl, h₃⟩ := exists_of_cons_eq (by decide) h₂
    simpa using ih h₃
  | app f a ihf iha =>
    rw [displayOnto_app] at h
    obtain ⟨inner, rfl, hinner⟩ := exists_of_cons_eq (by decide) h
    have hf := balanced_displayOnto f
    rcases cases_of_append_eq hinner with ⟨ys', hspace⟩ | rfl | ⟨xs', rfl, hargument⟩
    · have hlt := ihf hspace
      simp only [List.count_cons_self, List.count_cons_of_ne (show '(' ≠ ')' by decide)]
      omega
    · simp only [List.count_cons_self, List.count_cons_of_ne (show '(' ≠ ')' by decide)]
      omega
    · obtain ⟨ys', hspace⟩ := exists_of_concat_eq (by decide) hargument
      have hlt := iha hspace
      simp only [List.count_cons_self, List.count_append,
        List.count_cons_of_ne (show '(' ≠ ')' by decide),
        List.count_cons_of_ne (show ' ' ≠ ')' by decide),
        List.count_cons_of_ne (show ' ' ≠ '(' by decide)]
      omega

/-- A written term may be cut at any of its spaces. -/
theorem openCuts_display {t : Term} {piece : List Char} {pieces : List (List Char)}
    (h : Draft.spaced piece pieces = t.displayOnto []) : Draft.OpenCuts piece pieces := by
  induction pieces generalizing piece with
  | nil => trivial
  | cons next pieces ih =>
    refine ⟨?_, ih (by rw [← h, Draft.spaced_cons])⟩
    have hspace : t.displayOnto [] = piece ++ ' ' :: Draft.spaced next pieces := by
      rw [← h]
      rfl
    exact decide_eq_true (count_lt_of_displayOnto hspace)

end Term

/-! ### Layouts -/

namespace Draft

/-- The lines, numbered from `number` on, lay out the terms, each with the number of the line
that it begins on: a term begins on a line of its own and may be broken at any of its spaces,
and lines that bear nothing may stand anywhere. -/
inductive Layout : Nat → List (Nat × Term) → List (List Char) → Prop
  | done {number : Nat} : Layout number [] []
  | filler {number : Nat} {ts : List (Nat × Term)} {line : List Char} {rest : List (List Char)} :
      Bears [] line → Layout (number + 1) ts rest → Layout number ts (line :: rest)
  | term {number : Nat} {t : Term} {ts : List (Nat × Term)} {piece line : List Char}
      {pieces lines rest : List (List Char)} :
      spaced piece pieces = t.display.toList → Bears piece line → Continues pieces lines →
        Layout (number + 1 + lines.length) ts rest →
          Layout number ((number, t) :: ts) (line :: (lines ++ rest))

/-- A draft begins on the line with the number, and is read as the term. -/
def Denotes (x : Draft) (p : Nat × Term) : Prop :=
  x.line = p.1 ∧ Term.parse (String.ofList x.text) = .ok p.2

/-- Each term that is laid out becomes one statement. -/
theorem gather_of_layout {number : Nat} {ts : List (Nat × Term)} {lines : List (List Char)}
    (h : Layout number ts lines)
    (hshort : ∀ p ∈ ts, p.2.EachIndex fun i => (Term.decimal i).length ≤ maxDigits) :
    List.Forall₂ Denotes (gather none number lines) ts := by
  induction h with
  | done => exact .nil
  | filler hline _ ih =>
    rw [gather_of_tidy_eq_nil (by rintro x ⟨⟩) (hline.tidy_eq List.not_mem_nil)]
    exact ih hshort
  | @term number t ts piece line pieces lines rest hdisplay hline hlines _ ih =>
    obtain ⟨ht, hshort⟩ := List.forall_mem_cons.mp hshort
    rw [Term.display, String.toList_ofList] at hdisplay
    have hparse : Term.parse (String.ofList (spaced piece pieces)) = .ok t := by
      obtain ⟨tokens, hscan, hspells, hnumerals⟩ := Term.exists_scan_display ht
      rw [hdisplay]
      exact (Term.parse_eq_ok_iff hscan hnumerals).mpr (.first hspells)
    obtain ⟨whole, hwhole, hgather⟩ := gather_written hparse (Term.openCuts_display hdisplay)
      hline hlines number rest
    rw [hgather]
    exact .cons ⟨rfl, hwhole⟩ (ih hshort)

end Draft

namespace Work

theorem exists_parse_of_denotes {xs : List Draft} {ts : List (Nat × Term)}
    (h : List.Forall₂ Draft.Denotes xs ts) :
    ∀ x ∈ xs, ∃ t, Term.parse (String.ofList x.text) = .ok t := by
  induction h with
  | nil => exact List.forall_mem_nil _
  | cons hx _ ih => exact List.forall_mem_cons.mpr ⟨⟨_, hx.2⟩, ih⟩

/-- Drafts are read as statements of what they denote. -/
theorem statements_of_denotes {xs : List Draft} {ts : List (Nat × Term)} {ss : List Statement}
    (hts : List.Forall₂ Draft.Denotes xs ts) (hss : List.Forall₂ Draft.ReadAs xs ss) :
    ss.map (fun s => (s.line, s.term)) = ts.map fun p => ((p.1 : Int), p.2) := by
  induction hts generalizing ss with
  | nil =>
    cases hss
    rfl
  | @cons x p xs ts hx _ ih =>
    cases hss with
    | cons hs hss =>
      have hterm : _ = p.2 := Except.ok.inj (hs.term.symm.trans hx.2)
      rw [List.map_cons, List.map_cons, ih hss, hs.line, hx.1, hterm]

/-- **The layout of a source does not matter.**  If the lines of a source lay out terms whose
indices are not too long to be read, opening it succeeds and queues exactly these terms, in
order, each under the number of the line that it begins on. -/
theorem openSheet_queues_layout {path modeName : String} {mode : Mode} {content : List UInt8}
    {text : List Char} {ts : List (Nat × Term)} (hmode : Mode.ofName? modeName = some mode)
    (hpath : path ≠ promptPath) (hnul : '\x00' ∉ path.toList)
    (htext : Text.decodeUtf8 content = .ok text) (hlayout : Draft.Layout 1 ts (Text.lines text))
    (hshort : ∀ p ∈ ts, p.2.EachIndex fun i => (Term.decimal i).length ≤ maxDigits)
    (prove numerals interactive : Bool) (d : Desk) :
    ∃ e, (openSheet path modeName prove numerals interactive (.bytes content)).runOn d
        = some (.ok (), e) ∧
      e.sheet.queue.map (fun s => (s.line, s.term)) = ts.map fun p => ((p.1 : Int), p.2) := by
  have hgather := Draft.gather_of_layout hlayout hshort
  rw [← Draft.assemble_eq_gather] at hgather
  obtain ⟨e, hopen, hqueue⟩ := exists_queue_of_source hmode hpath hnul htext
    (exists_parse_of_denotes hgather) prove numerals interactive d
  exact ⟨e, hopen, statements_of_denotes hgather hqueue⟩

/-- A term in three pieces, with comments behind and between them that hold parentheses, and
one whose comment follows without a space. -/
theorem openSheet_queues_layout_broken :
    ∃ e,
      (openSheet "notes" "eval" false false false
          (.bytes "\t;; K\n  ((λx.λx.1 ;; (\n;; ))\n\n 0) \r\n 1)\nλx.0;;id\n\n".toUTF8.toList)).runOn
        (Desk.fresh ⟨true, false, .plain, .none, []⟩) = some (.ok (), e) ∧
      e.sheet.queue.map (fun s => (s.line, s.term))
        = [(2, .app (.app (.lam (.lam (.var 1))) (.var 0)) (.var 1)), (7, .lam (.var 0))] := by
  have htext : Text.decodeUtf8
      "\t;; K\n  ((λx.λx.1 ;; (\n;; ))\n\n 0) \r\n 1)\nλx.0;;id\n\n".toUTF8.toList
      = .ok "\t;; K\n  ((λx.λx.1 ;; (\n;; ))\n\n 0) \r\n 1)\nλx.0;;id\n\n".toList := by
    decide +kernel
  have hlines : Text.lines "\t;; K\n  ((λx.λx.1 ;; (\n;; ))\n\n 0) \r\n 1)\nλx.0;;id\n\n".toList
      = ["\t;; K".toList, "  ((λx.λx.1 ;; (".toList, ";; ))".toList, [], " 0) ".toList,
        " 1)".toList, "λx.0;;id".toList, []] := by
    decide +kernel
  have hbroken : Draft.spaced "((λx.λx.1".toList ["0)".toList, "1)".toList]
      = (Term.app (.app (.lam (.lam (.var 1))) (.var 0)) (.var 1)).display.toList := by
    decide +kernel
  have hwhole : Draft.spaced "λx.0".toList [] = (Term.lam (.var 0)).display.toList := by
    decide +kernel
  have hmore : Draft.Continues ["0)".toList, "1)".toList]
      [";; ))".toList, [], " 0) ".toList, " 1)".toList] :=
    .filler ⟨[], [], ";; ))".toList, by decide, by decide, .inr ⟨_, rfl⟩, rfl⟩
      (.filler (Draft.bears_self [])
        (.piece ⟨[' '], [' '], [], by decide, by decide, .inl rfl, rfl⟩
          (.piece ⟨[' '], [], [], by decide, by decide, .inl rfl, rfl⟩ .nil)))
  have hlayout : Draft.Layout 1
      [(2, .app (.app (.lam (.lam (.var 1))) (.var 0)) (.var 1)), (7, .lam (.var 0))]
      ["\t;; K".toList, "  ((λx.λx.1 ;; (".toList, ";; ))".toList, [], " 0) ".toList,
        " 1)".toList, "λx.0;;id".toList, []] :=
    .filler ⟨['\t'], [], ";; K".toList, by decide, by decide, .inr ⟨_, rfl⟩, rfl⟩
      (.term hbroken ⟨[' ', ' '], [' '], ";; (".toList, by decide, by decide, .inr ⟨_, rfl⟩, rfl⟩
        hmore
        (.term hwhole ⟨[], [], ";;id".toList, by decide, by decide, .inr ⟨_, rfl⟩, rfl⟩ .nil
          (.filler (Draft.bears_self []) .done)))
  have hmode : Mode.ofName? "eval" = some .eval := by decide
  have hpath : "notes" ≠ promptPath := by decide
  have hnul : '\x00' ∉ "notes".toList := by decide
  exact openSheet_queues_layout hmode hpath hnul htext (by rw [hlines]; exact hlayout)
    (by decide +kernel) false false false _

end Work

end Nameless
