/-
Nameless/Proofs/Text/Filling.lean

Which templates are left as they are when they are filled in.

A template is its pieces as they are written, one after the other (`flatMap_written_pieces`).
Filled in, it is what takes their place.  A doubled brace is replaced by one, and no field is
replaced by a text that contains the field: what a text gives without its attributes has at
most one of the two braces, as a fill character, and of attributes it is assumed
(`Attributes.NoEcho`).

So filling in falls behind the template at its first brace, and never catches up.  Where `lag`
is what is written and not yet replaced,

    lag ++ ps.flatMap Piece.written ≠ filled        if lag ≠ []

for what the other pieces `ps` are filled in with (`lag_append_ne_of_fillPieces`): to get past
the end of a piece, what replaces it would have to contain it.  Hence a template is left as it
is if and only if no brace stands in it (`fillTemplate_eq_self_iff`).
-/
import Mathlib.Data.List.Basic
import Nameless.Proofs.Text.Decimal
import Nameless.Text.Template

namespace Nameless.Text

variable {text : List Char} {attributes : Attributes}

/-- No brace stands in the text. -/
def Braceless (text : List Char) : Prop :=
  ∀ c ∈ text, c ≠ '{' ∧ c ≠ '}'

instance (text : List Char) : Decidable (Braceless text) :=
  List.decidableBAll (fun c => c ≠ '{' ∧ c ≠ '}') text

theorem braceless_append {text more : List Char} :
    Braceless (text ++ more) ↔ Braceless text ∧ Braceless more :=
  List.forall_mem_append

theorem braceless_toString (n : Nat) : Braceless (toString n).toList := by
  intro c hc
  have hdecimal : (toString n).toList = Term.decimal n := String.toList_ofList
  rw [hdecimal] at hc
  have hdigit := isDigit_of_mem_decimal hc
  constructor <;> rintro rfl <;> exact absurd hdigit (by decide)

theorem Braceless.mono {more : List Char} (h : Braceless more) (hsub : text ⊆ more) :
    Braceless text :=
  fun c hc => h c (hsub hc)

/-! ### Templates without fields -/

theorem pieces_of_braceless {text : List Char} (h : Braceless text) :
    pieces .outside text = (text.map .literal, none) := by
  induction text with
  | nil => rw [pieces, List.map_nil]
  | cons c text ih =>
    obtain ⟨⟨hopen, hclose⟩, htext⟩ := List.forall_mem_cons.mp h
    rw [pieces, ih htext, emit, List.map_cons]
    all_goals simp_all

theorem fillPieces_literal
    (inner : Numbering → List Char → Except TemplateError (List Char × Numbering))
    (attributes : Attributes) (args : List String) (numbering : Numbering) (text : List Char) :
    fillPieces inner attributes args numbering (text.map .literal) = .ok (text, numbering) := by
  induction text with
  | nil => rfl
  | cons c text ih =>
    rw [List.map_cons, fillPieces, ih]
    rfl

/-- A template without braces has nothing to be filled in. -/
theorem fillTemplate_of_braceless {template : String} (h : Braceless template.toList)
    (attributes : Attributes) (args : List String) :
    fillTemplate attributes template args = .ok template := by
  rw [fillTemplate, fillIn, pieces_of_braceless h]
  dsimp only
  rw [fillPieces_literal]
  exact congrArg Except.ok String.ofList_toList

/-! ### What attributes may lead to -/

/-- A piece as it is written in a template. -/
def Piece.written : Piece → List Char
  | literal c => if c = '{' ∨ c = '}' then [c, c] else [c]
  | field name mark layout =>
    '{' :: (name ++ (mark.elim [] (['!', ·]) ++ (layout.elim [] (':' :: ·) ++ ['}'])))

/-- No field with attributes is echoed: wherever the path of a field goes on with an attribute
of a text without braces, what replaces the field does not contain the field as it is written. -/
def Attributes.NoEcho (attributes : Attributes) : Prop :=
  ∀ (text : String) (path : List Char) (value : Value) (mark : Option Char)
    (converted : List Char → Except TemplateError (List Char)) (layout laid : List Char),
    Braceless text.toList → attributes text path = .ok value → value mark = .ok converted →
      converted layout = .ok laid →
        ∀ start layout?, ¬ (Piece.field (start ++ '.' :: path) mark layout?).written <:+: laid

/-! ### What replaces a field -/

theorem exists_of_bind_eq_ok {ε α β : Type} {x : Except ε α} {f : α → Except ε β} {r : β}
    (h : x >>= f = .ok r) : ∃ a, x = .ok a ∧ f a = .ok r := by
  cases x with
  | error e => cases h
  | ok a => exact ⟨a, rfl, h⟩

theorem mem_fillUp {c fill : Char} {align : Align} {width : Nat}
    (h : c ∈ fillUp fill align width text) : c = fill ∨ c ∈ text := by
  unfold fillUp at h
  rcases List.mem_append.mp h with h | h
  · rcases List.mem_append.mp h with h | h
    · exact .inl (List.eq_of_mem_replicate h)
    · exact .inr h
  · exact .inl (List.eq_of_mem_replicate h)

/-- A text is laid out with one fill character. -/
theorem exists_fill_of_layOut {layout laid : List Char} (h : layOut layout text = .ok laid) :
    ∃ fill, ∀ c ∈ laid, c = fill ∨ c ∈ text := by
  rw [layOut] at h
  split at h
  · obtain rfl := Except.ok.inj h
    exact ⟨' ', fun c hc => .inr hc⟩
  · obtain ⟨l, -, h⟩ := exists_of_bind_eq_ok h
    split at h
    · cases h
    · obtain rfl := Except.ok.inj h
      refine ⟨(l.fill <|> l.pad).getD ' ', fun c hc => ?_⟩
      refine (mem_fillUp hc).imp_right fun hc => ?_
      split at hc
      · exact List.mem_of_mem_take hc
      · exact hc

theorem digitChar_ne_brace {d : Nat} (h : d < 16) :
    Nat.digitChar d ≠ '{' ∧ Nat.digitChar d ≠ '}' := by
  have hdigits : ∀ d < 16, Nat.digitChar d ≠ '{' ∧ Nat.digitChar d ≠ '}' := by decide
  exact hdigits d h

theorem braceless_hexOnto (width n : Nat) {rest : List Char} (h : Braceless rest) :
    Braceless (hexOnto width n rest) := by
  induction width generalizing n rest with
  | zero => exact h
  | succ width ih =>
    refine ih (n / 16) (List.forall_mem_cons.mpr ⟨?_, h⟩)
    exact digitChar_ne_brace (Nat.mod_lt n (by decide))

theorem braceless_escapeCode (n : Nat) : Braceless (escapeCode n) := by
  rw [escapeCode]
  split_ifs
  all_goals
    exact List.forall_mem_cons.mpr ⟨by decide, List.forall_mem_cons.mpr
      ⟨by decide, braceless_hexOnto _ n nofun⟩⟩

theorem braceless_quoteChar {mark c : Char} (hc : c ≠ '{' ∧ c ≠ '}') :
    Braceless (quoteChar mark c) := by
  have hplain : Braceless [c] := List.forall_mem_singleton.mpr hc
  rw [quoteChar]
  split_ifs
  · exact List.forall_mem_cons.mpr ⟨by decide, hplain⟩
  · decide
  · decide
  · decide
  · exact hplain
  · exact braceless_escapeCode c.toNat

theorem braceless_quoted {escape : Char → List Char} (h : ∀ c ∈ text, Braceless (escape c)) :
    Braceless (quoteMark text :: (text.flatMap escape ++ [quoteMark text])) := by
  have hmark : quoteMark text ≠ '{' ∧ quoteMark text ≠ '}' := by
    rw [quoteMark]
    split <;> decide
  refine List.forall_mem_cons.mpr ⟨hmark, braceless_append.mpr ⟨fun c hc => ?_, ?_⟩⟩
  · obtain ⟨d, hd, hc⟩ := List.mem_flatMap.mp hc
    exact h d hd c hc
  · exact List.forall_mem_singleton.mpr hmark

theorem braceless_convert {found converted : String} {mark : Option Char}
    (h : convert found mark = .ok converted) (hfound : Braceless found.toList) :
    Braceless converted.toList := by
  have hescape (c : Char) (hc : c ∈ found.toList) :
      Braceless (quoteChar (quoteMark found.toList) c) :=
    braceless_quoteChar (hfound c hc)
  rw [convert.eq_def] at h
  split at h
  · obtain rfl := Except.ok.inj h
    exact hfound
  · obtain rfl := Except.ok.inj h
    exact hfound
  · obtain rfl := Except.ok.inj h
    rw [quote, String.toList_ofList]
    exact braceless_quoted hescape
  · obtain rfl := Except.ok.inj h
    rw [quoteAscii, String.toList_ofList]
    refine braceless_quoted fun c hc => ?_
    split
    · exact hescape c hc
    · exact braceless_escapeCode c.toNat
  · cases h

theorem open_mem_written (name : List Char) (mark : Option Char) (layout : Option (List Char)) :
    '{' ∈ (Piece.field name mark layout).written :=
  List.mem_cons_self

theorem close_mem_written (name : List Char) (mark : Option Char) (layout : Option (List Char)) :
    '}' ∈ (Piece.field name mark layout).written := by
  rw [Piece.written]
  simp

/-- A text without braces is written without one of the two braces, whatever the layout. -/
theorem not_written_infix_of_ofText {found : String} {mark mark' : Option Char}
    {converted : List Char → Except TemplateError (List Char)} {layout laid : List Char}
    (hfound : Braceless found.toList) (hconvert : Value.ofText found mark = .ok converted)
    (hlaid : converted layout = .ok laid) (name : List Char) (layout? : Option (List Char)) :
    ¬ (Piece.field name mark' layout?).written <:+: laid := by
  obtain ⟨text, htext, h⟩ := exists_of_bind_eq_ok hconvert
  obtain rfl := Except.ok.inj h
  have hplain := braceless_convert htext hfound
  obtain ⟨fill, hfill⟩ : ∃ fill, ∀ c ∈ laid, c = fill ∨ c ∈ text.toList := by
    dsimp only at hlaid
    cases hlay : layOut layout text.toList with
    | error e =>
      rw [hlay] at hlaid
      cases hlaid
    | ok l =>
      rw [hlay] at hlaid
      obtain rfl := Except.ok.inj hlaid
      exact exists_fill_of_layOut hlay
  intro hwithin
  -- both braces would be the fill character
  have hopen : '{' = fill :=
    (hfill _ (hwithin.subset (open_mem_written name mark' layout?))).resolve_right
      fun hmem => (hplain _ hmem).1 rfl
  have hclose : '}' = fill :=
    (hfill _ (hwithin.subset (close_mem_written name mark' layout?))).resolve_right
      fun hmem => (hplain _ hmem).2 rfl
  rw [← hopen] at hclose
  exact absurd hclose (by decide)

/-- A path that can be followed into a text without braces leads to such a text, or on to an
attribute of one. -/
theorem exists_text_of_follow {arg : String} {path : List Char} {value : Value}
    (h : follow attributes arg path = .ok value) (harg : Braceless arg.toList) :
    ∃ found : String, Braceless found.toList ∧
      (value = .ofText found ∨
        ∃ start rest, path = start ++ '.' :: rest ∧ attributes found rest = .ok value) := by
  fun_induction follow attributes arg path with
  | case1 arg => exact ⟨arg, harg, .inl (Except.ok.inj h).symm⟩
  | case2 => cases h
  | case3 arg rest hname => exact ⟨arg, harg, .inr ⟨[], rest, rfl, h⟩⟩
  | case4 => cases h
  | case5 arg rest name c more hrest ih =>
    obtain ⟨position?, -, h⟩ := exists_of_bind_eq_ok h
    dsimp only at h
    split at h
    · cases h
    · rcases position? with - | n
      · cases h
      · dsimp only at h
        split at h
        · next d hd =>
          have hplain : Braceless d.toString.toList := by
            rw [Char.toString, String.toList_singleton]
            exact List.forall_mem_singleton.mpr (harg d (List.mem_of_getElem? hd))
          obtain ⟨found, hfound, hvalue | ⟨start, path, hpath, hvalue⟩⟩ := ih d h hplain
          · exact ⟨found, hfound, .inl hvalue⟩
          · refine ⟨found, hfound, .inr ⟨'[' :: (name ++ c :: start), path, ?_, hvalue⟩⟩
            have hsplit : rest = name ++ c :: more := by
              rw [← hrest, List.takeWhile_append_dropWhile]
            rw [hsplit, hpath]
            simp
        · cases h
  | case6 => cases h

theorem mem_of_argument {args : List String} {numbering after : Numbering} {first : List Char}
    {arg : String} (h : argument args numbering first = .ok (arg, after)) : arg ∈ args := by
  unfold argument at h
  dsimp only at h
  have hpick {n : Nat} {a : String} {next : Numbering} (ha : args[n]? = some a)
      (h : (.ok (a, next) : Except TemplateError _) = .ok (arg, after)) : arg ∈ args := by
    obtain ⟨rfl, -⟩ := Prod.mk.inj (Except.ok.inj h)
    exact List.mem_of_getElem? ha
  obtain ⟨n?, -, h⟩ := exists_of_bind_eq_ok h
  split at h
  · cases h
  · split at h
    · next ha => exact hpick ha h
    · cases h
  · split at h
    · cases h
    · split at h
      · split at h
        · next ha => exact hpick ha h
        · cases h
      · split at h
        · next ha => exact hpick ha h
        · cases h
      · cases h

section Filling

variable {args : List String} {numbering after : Numbering}
  {inner : Numbering → List Char → Except TemplateError (List Char × Numbering)}

/-- No field is replaced by a text that contains it. -/
theorem not_written_infix_of_fillField (hattributes : attributes.NoEcho)
    (hargs : ∀ a ∈ args, Braceless a.toList) {name laid : List Char} {mark : Option Char}
    {layout : Option (List Char)}
    (h : fillField inner attributes args numbering name mark layout = .ok (laid, after)) :
    ¬ (Piece.field name mark layout).written <:+: laid := by
  rw [fillField] at h
  obtain ⟨⟨arg, numbering₁⟩, harg, h⟩ := exists_of_bind_eq_ok h
  obtain ⟨value, hfollow, h⟩ := exists_of_bind_eq_ok h
  obtain ⟨converted, hconverted, h⟩ := exists_of_bind_eq_ok h
  -- the layout that is used has its own fields filled in
  obtain ⟨layout', hlaid⟩ : ∃ layout', converted layout' = .ok laid := by
    have hlay {layout' : List Char} {numbering₂ : Numbering} (h : (do
        let laid ← converted layout'
        return (laid, numbering₂)) = Except.ok (laid, after)) : converted layout' = .ok laid := by
      obtain ⟨laid', hlaid, h⟩ := exists_of_bind_eq_ok h
      obtain ⟨rfl, -⟩ := Prod.mk.inj (Except.ok.inj h)
      exact hlaid
    dsimp only at h
    split at h
    · obtain ⟨⟨layout', numbering₂⟩, -, h⟩ := exists_of_bind_eq_ok h
      exact ⟨layout', hlay h⟩
    · exact ⟨_, hlay h⟩
  obtain ⟨found, hfound, rfl | ⟨start, rest, hpath, hvalue⟩⟩ :=
    exists_text_of_follow hfollow (hargs arg (mem_of_argument harg))
  · exact not_written_infix_of_ofText hfound hconverted hlaid name layout
  · have hname : name = (name.takeWhile fun c => !beginsStep c) ++ start ++ '.' :: rest := by
      rw [List.append_assoc, ← hpath, List.takeWhile_append_dropWhile]
    rw [hname]
    exact hattributes _ _ _ _ _ _ _ hfound hvalue hconverted hlaid _ layout

end Filling

/-! ### A template and its pieces -/

/-- What has been read of a field, as it is written. -/
def Scan.written : Scan → List Char
  | outside => []
  | name read _ => '{' :: read.reverse
  | conversion key => '{' :: (key ++ ['!'])
  | converted key mark => '{' :: (key ++ ['!', mark])
  | layout key mark read _ => '{' :: (key ++ (mark.elim [] (['!', ·]) ++ ':' :: read.reverse))

/-- A template that is cut to its end is its pieces as they are written. -/
theorem flatMap_written_pieces {scan : Scan} (h : (pieces scan text).2 = none) :
    (pieces scan text).1.flatMap Piece.written = scan.written ++ text := by
  fun_induction pieces scan text
  all_goals simp_all [emit, Piece.written, Scan.written]

/-! ### Falling behind -/

section Lag

variable {args : List String} {numbering after : Numbering} {ps : List Piece}
  {inner : Numbering → List Char → Except TemplateError (List Char × Numbering)}
  {filled : List Char} (hattributes : attributes.NoEcho)
  (hargs : ∀ a ∈ args, Braceless a.toList)
include hattributes hargs

/-- A piece is replaced by itself if it is a character other than a brace, and else by a text that
does not contain it. -/
theorem exists_of_fillPieces_cons {p : Piece}
    (h : fillPieces inner attributes args numbering (p :: ps) = .ok (filled, after)) :
    ∃ laid more numbering', fillPieces inner attributes args numbering' ps = .ok (more, after) ∧
      filled = laid ++ more ∧
      ((p.written = laid ∧ Braceless laid) ∨ ¬ p.written <:+: laid) := by
  cases p with
  | literal c =>
    rw [fillPieces] at h
    obtain ⟨⟨more, after'⟩, hmore, h⟩ := exists_of_bind_eq_ok h
    obtain ⟨rfl, rfl⟩ := Prod.mk.inj (Except.ok.inj h)
    refine ⟨[c], more, numbering, hmore, rfl, ?_⟩
    rw [Piece.written]
    split
    · exact .inr fun hwithin => absurd hwithin.length_le (by simp)
    · next hc => exact .inl ⟨rfl, List.forall_mem_singleton.mpr (not_or.mp hc)⟩
  | field name mark layout =>
    rw [fillPieces] at h
    obtain ⟨⟨laid, numbering'⟩, hlaid, h⟩ := exists_of_bind_eq_ok h
    obtain ⟨⟨more, after'⟩, hmore, h⟩ := exists_of_bind_eq_ok h
    obtain ⟨rfl, rfl⟩ := Prod.mk.inj (Except.ok.inj h)
    exact ⟨laid, more, numbering', hmore, rfl,
      .inr (not_written_infix_of_fillField hattributes hargs hlaid)⟩

/-- Pieces that are filled in behind what is written do not catch up with it. -/
theorem lag_append_ne_of_fillPieces {lag : List Char} (hlag : lag ≠ [])
    (h : fillPieces inner attributes args numbering ps = .ok (filled, after)) :
    lag ++ ps.flatMap Piece.written ≠ filled := by
  induction ps generalizing lag numbering filled with
  | nil =>
    obtain ⟨rfl, -⟩ := Prod.mk.inj (Except.ok.inj h)
    exact fun heq => hlag (List.append_eq_nil_iff.mp heq).1
  | cons p ps ih =>
    obtain ⟨laid, more, numbering', hmore, rfl, hp⟩ := exists_of_fillPieces_cons hattributes hargs h
    have hshort (rest : List Char) : laid ≠ lag ++ p.written ++ rest := by
      rintro hlaid
      rcases hp with ⟨hself, -⟩ | hwithin
      · have hlength := congrArg List.length hlaid
        rw [hself, List.length_append, List.length_append] at hlength
        have := List.length_pos_iff.mpr hlag
        omega
      · exact hwithin ⟨lag, rest, hlaid.symm⟩
    rw [List.flatMap_cons, ← List.append_assoc]
    intro heq
    rcases List.append_eq_append_iff.mp heq with ⟨rest, hlaid, -⟩ | ⟨left, hleft, hrest⟩
    · exact hshort rest hlaid
    · refine ih (fun hnil => hshort [] ?_) hmore hrest.symm
      rw [hleft, hnil, List.append_nil, List.append_nil]

/-- Pieces that are filled in as they are written have no brace. -/
theorem braceless_of_fillPieces
    (h : fillPieces inner attributes args numbering ps = .ok (ps.flatMap Piece.written, after)) :
    Braceless (ps.flatMap Piece.written) := by
  induction ps generalizing numbering with
  | nil => exact List.forall_mem_nil _
  | cons p ps ih =>
    obtain ⟨laid, more, numbering', hmore, heq, hp⟩ := exists_of_fillPieces_cons hattributes hargs h
    rw [List.flatMap_cons] at heq ⊢
    rcases hp with ⟨rfl, hplain⟩ | hwithin
    · obtain rfl := List.append_cancel_left heq
      exact braceless_append.mpr ⟨hplain, ih hmore⟩
    · -- filling in falls behind here
      exfalso
      rcases List.append_eq_append_iff.mp heq with ⟨rest, hlaid, -⟩ | ⟨left, hleft, hrest⟩
      · exact hwithin ⟨[], rest, hlaid.symm⟩
      · refine lag_append_ne_of_fillPieces hattributes hargs (fun hnil => hwithin ?_) hmore
          hrest.symm
        exact ⟨[], [], by rw [hleft, hnil, List.append_nil, List.append_nil, List.nil_append]⟩

/-- A template is left as it is exactly if no brace stands in it. -/
theorem fillTemplate_eq_self_iff {template : String} :
    fillTemplate attributes template args = .ok template ↔ Braceless template.toList := by
  refine ⟨fun h => ?_, fun h => fillTemplate_of_braceless h attributes args⟩
  obtain ⟨⟨filled, after⟩, hfilled, h⟩ := exists_of_bind_eq_ok h
  have hsame : filled = template.toList := by
    rw [← Except.ok.inj h, String.toList_ofList]
  subst hsame
  have hwritten (hend : (pieces .outside template.toList).2 = none) :
      (pieces .outside template.toList).1.flatMap Piece.written = template.toList :=
    flatMap_written_pieces hend
  rw [fillIn] at hfilled
  rcases hpieces : pieces .outside template.toList with ⟨ps, fault⟩
  simp only [hpieces] at hfilled hwritten
  obtain ⟨⟨text, numbering'⟩, hps, h⟩ := exists_of_bind_eq_ok hfilled
  rcases fault with - | e
  · obtain ⟨rfl, rfl⟩ := Prod.mk.inj (Except.ok.inj h)
    rw [← hwritten rfl] at hps ⊢
    exact braceless_of_fillPieces hattributes hargs hps
  · cases h

end Lag

end Nameless.Text
