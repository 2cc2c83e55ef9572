/-
Nameless/Proofs/Desk/Assembly.lean

How lines come together to statements.

Comments end with their line, so a line counts by its tidy text alone, and what is
unfinished goes on with the tidy text of the next line after one space (`joined`).  There
are two ways to get there.  Lines of a source are tidied first and then joined; a line
typed at the prompt is trimmed, joined to what is unfinished, and then tidied as a whole,
so what was tidy already is tidied again.  Both give the same text
(`trim_append_space`, `tidy_append_space`), since a text that is tidy has no comment and no
blanks at its ends.

`gather` assembles statements from a pending draft on, the oldest first; it is what
`assemble` does with a list that grows at its other end (`assemble_eq_gather`).  Whatever
is pending is the beginning of the next statement (`exists_extends_of_gather`), and the
statements begin on different lines, in order (`pairwise_line_assemble`).
-/
import Mathlib.Data.List.Basic
import Nameless.Desk.Draft
import Nameless.Proofs.Text.Trim

namespace Nameless.Draft

open Text (Blanks Trimmed trim isBlank)

/-! ### Comments -/

/-- No comment begins in the text. -/
def CommentFree (text : List Char) : Prop :=
  ¬ [';', ';'] <:+: text

theorem commentFree_nil : CommentFree [] :=
  fun h => absurd (List.infix_nil.mp h) (List.cons_ne_nil _ _)

theorem cutComment_cons {c : Char} {rest : List Char} (h : ¬ [';', ';'] <+: c :: rest) :
    cutComment (c :: rest) = c :: cutComment rest := by
  rw [cutComment]
  exact if_neg h

theorem cutComment_of_sign {text : List Char} (h : [';', ';'] <+: text) :
    cutComment text = [] := by
  obtain ⟨tail, rfl⟩ := h
  exact if_pos ⟨tail, rfl⟩

theorem prefix_cutComment (text : List Char) : cutComment text <+: text := by
  fun_induction cutComment text with
  | case1 => exact List.prefix_rfl
  | case2 => exact List.nil_prefix
  | case3 c rest hhead ih => exact List.cons_prefix_cons.mpr ⟨rfl, ih⟩

theorem commentFree_cons_iff {c : Char} {rest : List Char} :
    CommentFree (c :: rest) ↔ ¬ [';', ';'] <+: c :: rest ∧ CommentFree rest := by
  rw [CommentFree, List.infix_cons_iff, not_or, CommentFree]

theorem commentFree_cutComment (text : List Char) : CommentFree (cutComment text) := by
  fun_induction cutComment text with
  | case1 => exact commentFree_nil
  | case2 => exact commentFree_nil
  | case3 c rest hhead ih =>
    refine commentFree_cons_iff.mpr ⟨fun h => ?_, ih⟩
    -- a comment at the head would have been there before the rest was cut
    exact hhead (h.trans (List.cons_prefix_cons.mpr ⟨rfl, prefix_cutComment rest⟩))

/-- No comment begins at the head of a longer text, unless its sign is formed where the two
parts meet. -/
theorem not_sign_append {c : Char} {text rest : List Char} (h : ¬ [';', ';'] <+: c :: text)
    (hrest : text = [] → rest.head? ≠ some ';') : ¬ [';', ';'] <+: c :: (text ++ rest) := by
  intro hsign
  obtain ⟨hc, hsign⟩ := List.cons_prefix_cons.mp hsign
  cases text with
  | nil =>
    obtain ⟨tail, rfl⟩ := hsign
    exact hrest rfl rfl
  | cons d text =>
    obtain ⟨hd, -⟩ := List.cons_prefix_cons.mp hsign
    exact h (List.cons_prefix_cons.mpr ⟨hc, List.cons_prefix_cons.mpr ⟨hd, List.nil_prefix⟩⟩)

/-- What follows a text without a comment is cut by itself. -/
theorem cutComment_append {text rest : List Char} (htext : CommentFree text)
    (hrest : rest.head? ≠ some ';') : cutComment (text ++ rest) = text ++ cutComment rest := by
  induction text with
  | nil => rfl
  | cons c text ih =>
    obtain ⟨hhead, htext⟩ := commentFree_cons_iff.mp htext
    rw [List.cons_append, cutComment_cons (not_sign_append hhead fun _ => hrest), ih htext,
      List.cons_append]

theorem cutComment_of_commentFree {text : List Char} (h : CommentFree text) :
    cutComment text = text := by
  have happend : cutComment (text ++ []) = text ++ [] := cutComment_append h nofun
  rwa [List.append_nil] at happend

/-- What follows a comment is cut with it. -/
theorem cutComment_append_of_not_commentFree {text : List Char} (htext : ¬ CommentFree text)
    (rest : List Char) : cutComment (text ++ rest) = cutComment text := by
  induction text with
  | nil => exact absurd commentFree_nil htext
  | cons c text ih =>
    by_cases hhead : [';', ';'] <+: c :: text
    · rw [cutComment_of_sign hhead, cutComment_of_sign (hhead.trans (List.prefix_append _ rest))]
    · have htext' : ¬ CommentFree text := fun h => htext (commentFree_cons_iff.mpr ⟨hhead, h⟩)
      have hne : text ≠ [] := by
        rintro rfl
        exact htext' commentFree_nil
      rw [List.cons_append, cutComment_cons (not_sign_append hhead fun h => absurd h hne),
        cutComment_cons hhead, ih htext']

/-! ### Tidy texts -/

/-- A text without comments and without blanks at its ends. -/
structure Neat (text : List Char) : Prop where
  trimmed : Trimmed text
  commentFree : CommentFree text

theorem neat_nil : Neat [] := ⟨Text.trimmed_nil, commentFree_nil⟩

theorem neat_tidy (line : List Char) : Neat (tidy line) where
  trimmed := Text.trimmed_trim _
  commentFree := by
    obtain ⟨before, after, -, -, htext⟩ := Text.exists_trim (cutComment line)
    refine fun h => commentFree_cutComment line (h.trans ?_)
    exact ⟨before, after, by rw [List.append_assoc, tidy, ← htext]⟩

theorem not_blank_semicolon : ¬ isBlank ';' = true := by decide

theorem cutComment_blanks_append {before : List Char} (hbefore : Blanks before)
    (text : List Char) : cutComment (before ++ text) = before ++ cutComment text := by
  induction before with
  | nil => rfl
  | cons b before ih =>
    obtain ⟨hb, hbefore⟩ := List.forall_mem_cons.mp hbefore
    have hhead : ¬ [';', ';'] <+: b :: (before ++ text) := by
      rintro ⟨tail, htail⟩
      obtain ⟨rfl, -⟩ := List.cons.inj htail
      exact not_blank_semicolon hb
    rw [List.cons_append, cutComment_cons hhead, ih hbefore, List.cons_append]

theorem exists_cutComment_append_blanks {after : List Char} (hafter : Blanks after)
    (text : List Char) :
    ∃ left, Blanks left ∧ cutComment (text ++ after) = cutComment text ++ left := by
  by_cases htext : CommentFree text
  · have hhead : after.head? ≠ some ';' := fun h =>
      not_blank_semicolon (hafter _ (List.mem_of_mem_head? h))
    refine ⟨cutComment after, fun c hc => hafter c ((prefix_cutComment after).mem hc), ?_⟩
    rw [cutComment_append htext hhead, cutComment_of_commentFree htext]
  · exact ⟨[], nofun, by rw [cutComment_append_of_not_commentFree htext, List.append_nil]⟩

/-- Trimming a line before it is tidied changes nothing. -/
theorem tidy_trim (line : List Char) : tidy (trim line) = tidy line := by
  obtain ⟨before, after, hbefore, hafter, hline⟩ := Text.exists_trim line
  obtain ⟨left, hleft, hcut⟩ := exists_cutComment_append_blanks hafter (trim line)
  calc tidy (trim line)
      = trim (before ++ (cutComment (trim line) ++ left)) :=
        (Text.trim_append_blanks hbefore hleft _).symm
    _ = trim (cutComment (before ++ (trim line ++ after))) := by
        rw [cutComment_blanks_append hbefore, hcut]
    _ = tidy line := by rw [← hline, tidy]

theorem tidy_eq_nil {line : List Char} (h : trim line = []) : tidy line = [] := by
  rw [← tidy_trim, h]
  rfl

/-! ### Joining lines -/

/-- A text that goes on with another one after a space; nothing is joined to nothing. -/
def joined : List Char → List Char → List Char
  | [], line => line
  | text, [] => text
  | text, line => text ++ ' ' :: line

theorem joined_eq_append {text line : List Char} (htext : text ≠ []) (hline : line ≠ []) :
    joined text line = text ++ ' ' :: line := by
  cases text with
  | nil => exact absurd rfl htext
  | cons c text =>
    cases line with
    | nil => exact absurd rfl hline
    | cons d line => rfl

theorem joined_nil (text : List Char) : joined text [] = text := by
  cases text <;> rfl

theorem prefix_joined (text line : List Char) : text <+: joined text line := by
  cases text with
  | nil => exact List.nil_prefix
  | cons c text =>
    cases line with
    | nil => exact List.prefix_rfl
    | cons d line => exact List.prefix_append _ _

/-- What is joined to a text stands after a blank, unless it stands at the head. -/
theorem exists_joined_eq (text : List Char) (c : Char) (line : List Char) :
    ∃ before, joined text (c :: line) = before ++ c :: line ∧
      ∀ b ∈ before.getLast?, isBlank b = true := by
  cases text with
  | nil => exact ⟨[], rfl, nofun⟩
  | cons d text =>
    refine ⟨d :: text ++ [' '], ?_, ?_⟩
    · rw [List.append_assoc]
      rfl
    · rw [List.getLast?_concat]
      rintro b ⟨⟩
      rfl

theorem commentFree_append_space {text line : List Char} (htext : CommentFree text)
    (hline : CommentFree line) : CommentFree (text ++ ' ' :: line) := by
  induction text with
  | nil =>
    refine commentFree_cons_iff.mpr ⟨fun h => ?_, hline⟩
    exact absurd (List.cons_prefix_cons.mp h).1 (by decide)
  | cons c text ih =>
    obtain ⟨hhead, htext⟩ := commentFree_cons_iff.mp htext
    exact commentFree_cons_iff.mpr ⟨not_sign_append hhead fun _ => nofun, ih htext⟩

theorem Neat.joined {text line : List Char} (htext : Neat text) (hline : Neat line) :
    Neat (joined text line) := by
  rcases eq_or_ne text [] with rfl | hne
  · exact hline
  · rcases eq_or_ne line [] with rfl | hne'
    · rwa [joined_nil]
    · rw [joined_eq_append hne hne']
      refine ⟨⟨?_, ?_⟩, commentFree_append_space htext.commentFree hline.commentFree⟩
      · intro c hc
        rw [List.head?_append_of_ne_nil text hne] at hc
        exact htext.trimmed.head c hc
      · intro c hc
        rw [List.append_cons, List.getLast?_append_of_ne_nil _ hne'] at hc
        exact hline.trimmed.last c hc

/-- Lines of a source: the next line is tidied, and then joined. -/
theorem trim_append_space {text line : List Char} (htext : Neat text) (hne : text ≠ [])
    (hline : Neat line) : trim (text ++ ' ' :: line) = joined text line := by
  rcases eq_or_ne line [] with rfl | hne'
  · rw [Text.trim_append_right Text.blanks_space, Text.trim_of_trimmed htext.trimmed, joined_nil]
  · rw [← joined_eq_append hne hne', Text.trim_of_trimmed (htext.joined hline).trimmed]

theorem exists_cutComment_trim (line : List Char) :
    ∃ after, Blanks after ∧ cutComment (trim line) = tidy line ++ after := by
  obtain ⟨before, after, hbefore, hafter, htext⟩ := Text.exists_trim (cutComment (trim line))
  refine ⟨after, hafter, ?_⟩
  cases before with
  | nil => rw [← tidy_trim line]; exact htext
  | cons b before =>
    -- the trimmed line would begin with a blank
    obtain ⟨tail, htail⟩ := prefix_cutComment (trim line)
    have hhead : b ∈ (trim line).head? := by
      rw [← htail, htext]
      rfl
    have hb := (Text.trimmed_trim line).head b hhead
    rw [(List.forall_mem_cons.mp hbefore).1] at hb
    cases hb

/-- A line that does not begin with a semicolon keeps its first character. -/
theorem exists_tidy_eq_cons {line rest : List Char} {c : Char} (hline : trim line = c :: rest)
    (hc : c ≠ ';') : ∃ rest', tidy line = c :: rest' := by
  obtain ⟨after, hafter, hcut⟩ := exists_cutComment_trim line
  have hhead : ¬ [';', ';'] <+: c :: rest := fun h => hc (List.cons_prefix_cons.mp h).1.symm
  rw [hline, cutComment_cons hhead] at hcut
  cases htidy : tidy line with
  | nil =>
    -- only blanks would be left of the line
    rw [htidy, List.nil_append] at hcut
    have hblank : isBlank c = true := hafter c (by rw [← hcut]; exact List.mem_cons_self)
    have htrimmed := (Text.trimmed_trim line).head c (by rw [hline]; rfl)
    rw [hblank] at htrimmed
    cases htrimmed
  | cons d rest' =>
    rw [htidy, List.cons_append] at hcut
    rw [(List.cons.inj hcut).1]
    exact ⟨rest', rfl⟩

/-- Lines at the prompt: the next line is trimmed and joined, and the whole is tidied. -/
theorem tidy_append_space {text : List Char} (htext : Neat text) (line : List Char) :
    tidy (text ++ ' ' :: trim line) = joined text (tidy line) := by
  obtain ⟨after, hafter, hcut⟩ := exists_cutComment_trim line
  have hspace : cutComment (text ++ ' ' :: trim line) = (text ++ ' ' :: tidy line) ++ after := by
    have hhead : (' ' :: trim line).head? ≠ some ';' := fun h =>
      absurd (Option.some.inj h) (by decide)
    rw [cutComment_append htext.commentFree hhead, ← List.singleton_append,
      cutComment_blanks_append Text.blanks_space, hcut, List.append_assoc]
    rfl
  rw [tidy, hspace, Text.trim_append_right hafter]
  rcases eq_or_ne text [] with rfl | hne
  · have hbefore := @Text.trim_append_blanks [' '] [] Text.blanks_space nofun (tidy line)
    rw [List.append_nil, Text.trim_of_trimmed (neat_tidy line).trimmed] at hbefore
    exact hbefore
  · exact trim_append_space htext hne (neat_tidy line)

/-! ### Gathering statements -/

/-- The text that is pending. -/
def pendingText (pending : Option Draft) : List Char :=
  pending.elim [] text

/-- The draft that a line goes on with or begins. -/
def next (pending : Option Draft) (number : Nat) (line : List Char) : Draft :=
  ⟨joined (pendingText pending) (tidy line), pending.elim number Draft.line⟩

/-- What is pending after a line. -/
def left (pending : Option Draft) (number : Nat) (line : List Char) : Option Draft :=
  if unfinished (next pending number line).text then some (next pending number line) else none

/-- The statement that a line finishes, if there is one. -/
def finished (pending : Option Draft) (number : Nat) (line : List Char) : Option Draft :=
  if unfinished (next pending number line).text || (next pending number line).text.isEmpty then none
  else some (next pending number line)

/-- The statements of lines that are numbered from `number` on, in order, with a draft that
is pending before them. -/
def gather (pending : Option Draft) (number : Nat) : List (List Char) → List Draft
  | [] => pending.toList
  | line :: rest =>
    (finished pending number line).toList ++ gather (left pending number line) (number + 1) rest

/-- Drafts that can be pending: tidy, and unfinished. -/
structure Open (d : Draft) : Prop where
  neat : Neat d.text
  unfinished : unfinished d.text = true

theorem ne_nil_of_unfinished {text : List Char} (h : unfinished text = true) : text ≠ [] := by
  rintro rfl
  cases h

/-- A line leaves its draft pending, or there is nothing on it, or it finishes its draft. -/
theorem line_cases (pending : Option Draft) (number : Nat) (line : List Char) :
    (unfinished (next pending number line).text = true ∧
      left pending number line = some (next pending number line) ∧
      finished pending number line = none) ∨
    ((next pending number line).text = [] ∧ left pending number line = none ∧
      finished pending number line = none) ∨
    (unfinished (next pending number line).text = false ∧ (next pending number line).text ≠ [] ∧
      left pending number line = none ∧
      finished pending number line = some (next pending number line)) := by
  rw [left, finished]
  cases hopen : unfinished (next pending number line).text with
  | true => exact .inl ⟨rfl, rfl, rfl⟩
  | false =>
    cases htext : (next pending number line).text with
    | nil => exact .inr (.inl ⟨rfl, rfl, rfl⟩)
    | cons c text => exact .inr (.inr ⟨rfl, List.cons_ne_nil _ _, rfl, rfl⟩)

section

variable {pending : Option Draft} (hpending : ∀ d ∈ pending, d.Open)
include hpending

theorem neat_pendingText : Neat (pendingText pending) := by
  cases pending with
  | none => exact neat_nil
  | some d => exact (hpending d rfl).neat

theorem neat_next (number : Nat) (line : List Char) : Neat (next pending number line).text :=
  (neat_pendingText hpending).joined (neat_tidy line)

theorem open_left (number : Nat) (line : List Char) :
    ∀ d ∈ left pending number line, d.Open := by
  rcases line_cases pending number line with ⟨hopen, hleft, -⟩ | ⟨-, hleft, -⟩ | ⟨-, -, hleft, -⟩
  · rw [hleft]
    rintro d ⟨⟩
    exact ⟨neat_next hpending number line, hopen⟩
  · rw [hleft]
    exact nofun
  · rw [hleft]
    exact nofun

/-- A line with nothing on it changes nothing. -/
theorem left_of_tidy_eq_nil (number : Nat) {line : List Char} (h : tidy line = []) :
    finished pending number line = none ∧
      pendingText (left pending number line) = pendingText pending := by
  have hnext : (next pending number line).text = pendingText pending := by
    rw [next, h, joined_nil]
  rcases line_cases pending number line with ⟨-, hleft, hfinished⟩ | ⟨hnil, hleft, hfinished⟩ |
    ⟨hopen, hne, -, -⟩
  · refine ⟨hfinished, ?_⟩
    rw [hleft]
    exact hnext
  · refine ⟨hfinished, ?_⟩
    rw [hleft, ← hnext, hnil]
    rfl
  · cases pending with
    | none => exact absurd hnext hne
    | some d =>
      rw [hnext] at hopen
      exact absurd ((hpending d rfl).unfinished.symm.trans hopen) (by decide)

/-- One line is taken up by the next draft. -/
theorem take_eq_next (drafts : List Draft) (number : Nat) (line : List Char) :
    take pending.isSome (pending.toList ++ drafts) number line
      = ((next pending number line).text,
          if (next pending number line).text = [] then drafts
          else next pending number line :: drafts) := by
  cases pending with
  | none =>
    simp only [take, next, pendingText, Option.isSome_none, Option.toList_none, Option.elim_none,
      List.nil_append, List.isEmpty_iff, joined]
    exact (apply_ite (Prod.mk (tidy line)) _ _ _).symm
  | some d =>
    obtain ⟨hneat, hopen⟩ := hpending d rfl
    have hd := ne_nil_of_unfinished hopen
    have htext : trim (d.text ++ ' ' :: tidy line) = (next (some d) number line).text :=
      trim_append_space hneat hd (neat_tidy line)
    have hne : (next (some d) number line).text ≠ [] :=
      (prefix_joined d.text (tidy line)).ne_nil hd
    rw [if_neg hne]
    simp only [take, Option.isSome_some, Option.toList_some, List.cons_append, List.nil_append,
      htext]
    rfl

theorem assembleFrom_cons (drafts : List Draft) (number : Nat) (line : List Char)
    (rest : List (List Char)) :
    assembleFrom pending.isSome (pending.toList ++ drafts) number (line :: rest)
      = assembleFrom (unfinished (next pending number line).text)
          (if (next pending number line).text = [] then drafts
            else next pending number line :: drafts)
          (number + 1) rest := by
  rw [assembleFrom, take_eq_next hpending]

theorem assembleFrom_eq_gather (drafts : List Draft) (number : Nat) (lines : List (List Char)) :
    assembleFrom pending.isSome (pending.toList ++ drafts) number lines
      = drafts.reverse ++ gather pending number lines := by
  induction lines generalizing pending drafts number with
  | nil => cases pending <;> simp [assembleFrom, gather]
  | cons line rest ih =>
    have ih' := fun drafts => ih (open_left hpending number line) drafts (number + 1)
    rw [assembleFrom_cons hpending, gather]
    rcases line_cases pending number line with ⟨hopen, hleft, hfinished⟩ |
      ⟨hnil, hleft, hfinished⟩ | ⟨hopen, hne, hleft, hfinished⟩
    · rw [hleft] at ih'
      rw [hleft, hfinished, hopen, if_neg (ne_nil_of_unfinished hopen)]
      exact ih' drafts
    · rw [hleft] at ih'
      rw [hleft, hfinished, hnil, if_pos rfl]
      exact ih' drafts
    · rw [hleft] at ih'
      rw [hleft, hfinished, hopen, if_neg hne]
      refine (ih' _).trans ?_
      rw [List.reverse_cons, List.append_assoc, Option.toList_some]

/-- What a line goes on with or begins is the beginning of a statement. -/
theorem exists_extends_of_gather {number : Nat} {line : List Char} {rest : List (List Char)}
    (hne : (next pending number line).text ≠ []) :
    ∃ e ∈ gather pending number (line :: rest), (next pending number line).text <+: e.text := by
  induction rest generalizing pending number line with
  | nil =>
    refine ⟨next pending number line, ?_, List.prefix_rfl⟩
    rcases line_cases pending number line with ⟨-, hleft, hfinished⟩ | ⟨hnil, -⟩ |
      ⟨-, -, hleft, hfinished⟩
    · simp [gather, hleft]
    · exact absurd hnil hne
    · simp [gather, hfinished]
  | cons line' rest ih =>
    have ih' := @ih _ (open_left hpending number line) (number + 1) line'
    rw [gather]
    rcases line_cases pending number line with ⟨-, hleft, hfinished⟩ | ⟨hnil, -⟩ |
      ⟨-, -, hleft, hfinished⟩
    · rw [hleft] at ih'
      rw [hleft, hfinished]
      have hbegins : (next pending number line).text
          <+: (next (some (next pending number line)) (number + 1) line').text :=
        prefix_joined _ _
      obtain ⟨e, he, hext⟩ := ih' (hbegins.ne_nil hne)
      exact ⟨e, he, hbegins.trans hext⟩
    · exact absurd hnil hne
    · rw [hfinished]
      exact ⟨_, List.mem_cons_self, List.prefix_rfl⟩

end

theorem assemble_eq_gather (lines : List (List Char)) : assemble lines = gather none 1 lines :=
  @assembleFrom_eq_gather none nofun [] 1 lines

/-- The number of the line that the next statement begins on. -/
def firstLine (pending : Option Draft) (number : Nat) : Nat :=
  pending.elim number Draft.line

theorem lines_of_gather {pending : Option Draft} {number : Nat}
    (hnumber : firstLine pending number ≤ number) (lines : List (List Char)) :
    (∀ e ∈ gather pending number lines, firstLine pending number ≤ e.line) ∧
      (gather pending number lines).Pairwise (·.line < ·.line) := by
  induction lines generalizing pending number with
  | nil => cases pending <;> simp [gather, firstLine]
  | cons line rest ih =>
    obtain ⟨hafter, hrest⟩ := @ih none (number + 1) le_rfl
    rw [gather]
    rcases line_cases pending number line with ⟨-, hleft, hfinished⟩ | ⟨-, hleft, hfinished⟩ |
      ⟨-, -, hleft, hfinished⟩
    · rw [hleft, hfinished]
      exact @ih (some (next pending number line)) (number + 1) (Nat.le_succ_of_le hnumber)
    · rw [hleft, hfinished]
      exact ⟨fun e he => (Nat.le_succ_of_le hnumber).trans (hafter e he), hrest⟩
    · rw [hleft, hfinished]
      constructor
      · refine List.forall_mem_cons.mpr ⟨le_rfl, fun e he => ?_⟩
        exact (Nat.le_succ_of_le hnumber).trans (hafter e he)
      · refine List.pairwise_cons.mpr ⟨fun e he => ?_, hrest⟩
        exact (Nat.lt_succ_of_le hnumber).trans_le (hafter e he)

/-- Statements begin on different lines, in order. -/
theorem pairwise_line_assemble (lines : List (List Char)) :
    (assemble lines).Pairwise (·.line < ·.line) := by
  rw [assemble_eq_gather]
  exact (@lines_of_gather none 1 le_rfl lines).2

end Nameless.Draft
