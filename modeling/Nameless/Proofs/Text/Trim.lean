/-
Nameless/Proofs/Text/Trim.lean

Trimming.  A trimmed text neither begins nor ends with a blank.  Every text is its trimmed
form with blanks before and after it (`exists_trim`), and there is only one way to see it
so (`trim_eq_of_trimmed`); what else is said of trimming follows from these two.
-/
import Mathlib.Data.List.TakeWhile
import Nameless.Text.Character

namespace Nameless.Text

/-- All characters are blanks. -/
def Blanks (text : List Char) : Prop :=
  ∀ c ∈ text, isBlank c = true

instance (text : List Char) : Decidable (Blanks text) :=
  List.decidableBAll (fun c => isBlank c = true) text

/-- No blank stands at either end. -/
structure Trimmed (text : List Char) : Prop where
  head : ∀ c ∈ text.head?, isBlank c = false
  last : ∀ c ∈ text.getLast?, isBlank c = false

theorem blanks_space : Blanks [' '] :=
  List.forall_mem_singleton.mpr rfl

theorem trimmed_nil : Trimmed [] := ⟨nofun, nofun⟩

theorem dropWhile_of_head {text : List Char} (h : ∀ c ∈ text.head?, isBlank c = false) :
    text.dropWhile isBlank = text := by
  cases text with
  | nil => rfl
  | cons c rest => exact List.dropWhile_cons_of_neg (Bool.eq_false_iff.mp (h c rfl))

theorem head_dropWhile (text : List Char) :
    ∀ c ∈ (text.dropWhile isBlank).head?, isBlank c = false := by
  induction text with
  | nil => nofun
  | cons c rest ih =>
    rw [List.dropWhile_cons]
    split
    · exact ih
    · next h =>
      rintro d ⟨⟩
      exact Bool.eq_false_iff.mpr h

theorem blanks_takeWhile (text : List Char) : Blanks (text.takeWhile isBlank) :=
  fun c hc => List.all_eq_true.mp List.all_takeWhile c hc

/-- A trimmed text with blanks around it is trimmed to that text. -/
theorem trim_eq_of_trimmed {before text after : List Char} (hbefore : Blanks before)
    (htext : Trimmed text) (hafter : Blanks after) : trim (before ++ (text ++ after)) = text := by
  rw [trim, List.dropWhile_append_of_pos hbefore]
  cases text with
  | nil =>
    rw [List.nil_append, List.dropWhile_eq_nil_iff.mpr hafter]
    rfl
  | cons c rest =>
    have hafter' : Blanks after.reverse := fun d hd => hafter d (List.mem_reverse.mp hd)
    have hlast : ∀ d ∈ (c :: rest).reverse.head?, isBlank d = false := by
      rw [List.head?_reverse]
      exact htext.last
    have hhead : ((c :: rest) ++ after).dropWhile isBlank = (c :: rest) ++ after :=
      dropWhile_of_head fun d hd => htext.head d hd
    rw [hhead, List.reverse_append, List.dropWhile_append_of_pos hafter', dropWhile_of_head hlast,
      List.reverse_reverse]

theorem trimmed_trim (text : List Char) : Trimmed (trim text) where
  head := by
    intro c hc
    -- what is left of the text begins as it did before its end was cut
    obtain ⟨rest, hrest⟩ : ∃ rest, trim text ++ rest = text.dropWhile isBlank := by
      refine ⟨((text.dropWhile isBlank).reverse.takeWhile isBlank).reverse, ?_⟩
      rw [trim, ← List.reverse_append, List.takeWhile_append_dropWhile, List.reverse_reverse]
    refine head_dropWhile text c ?_
    rw [← hrest, List.head?_append, hc]
    rfl
  last := by
    rw [trim, List.getLast?_reverse]
    exact head_dropWhile _

/-- A text is its trimmed form with blanks before and after it. -/
theorem exists_trim (text : List Char) :
    ∃ before after, Blanks before ∧ Blanks after ∧ text = before ++ (trim text ++ after) := by
  refine ⟨text.takeWhile isBlank, ((text.dropWhile isBlank).reverse.takeWhile isBlank).reverse,
    blanks_takeWhile text, fun c hc => blanks_takeWhile _ c (List.mem_reverse.mp hc), ?_⟩
  rw [trim, ← List.reverse_append, List.takeWhile_append_dropWhile, List.reverse_reverse,
    List.takeWhile_append_dropWhile]

theorem trim_of_trimmed {text : List Char} (h : Trimmed text) : trim text = text := by
  have htrim := @trim_eq_of_trimmed [] text [] nofun h nofun
  rwa [List.nil_append, List.append_nil] at htrim

/-- Blanks around a text do not matter. -/
theorem trim_append_blanks {before after : List Char} (hbefore : Blanks before)
    (hafter : Blanks after) (text : List Char) : trim (before ++ (text ++ after)) = trim text := by
  obtain ⟨before', after', hbefore', hafter', htext⟩ := exists_trim text
  calc trim (before ++ (text ++ after))
      = trim (before ++ ((before' ++ (trim text ++ after')) ++ after)) := by rw [← htext]
    _ = trim ((before ++ before') ++ (trim text ++ (after' ++ after))) := by
        simp only [List.append_assoc]
    _ = trim text := trim_eq_of_trimmed (List.forall_mem_append.mpr ⟨hbefore, hbefore'⟩)
        (trimmed_trim text) (List.forall_mem_append.mpr ⟨hafter', hafter⟩)

theorem trim_append_right {after : List Char} (hafter : Blanks after) (text : List Char) :
    trim (text ++ after) = trim text :=
  @trim_append_blanks [] after nofun hafter text

end Nameless.Text
