/-
Nameless/Proofs/Written/Partition.lean

Scanning partitions a text.  Two descriptions of the scanner, neither of which runs along the
text:

* The tokens that are found are the one way to partition the text (`PartitionFrom`): stretches
  of it from left to right, each a word of the pattern of its kind and none that could go on,
  with nothing but blanks outside of them.
* A text is scanned if and only if each character may stand where it stands (`Admissible`):
  blanks and all characters of a pattern may stand anywhere, but a letter only in a name, which
  begins right after the sign of a binder.

The pattern of a kind is a language, written as a regular expression.  At each place it leaves
the scanner one token to take (`longestIn_iff`); tokens can touch, so what ends an index or a
binder is the next character alone.  From this one step the two runs follow, from the scanner
to the partition (`exists_partitionFrom_of_scanOnto`) and back (`scanOnto_of_partitionFrom`),
and `admissible_append_iff` is the step for the characters.
-/
import Mathlib.Computability.Language
import Nameless.Proofs.Written.Places

namespace Nameless.Token

open Computability

/-! ### Patterns -/

/-- The sign of a binder. -/
def IsSign (c : Char) : Prop := c = 'λ' ∨ c = '\\'

/-- An ASCII letter or an underscore. -/
def IsLetter (c : Char) : Prop := c.isAlpha = true ∨ c = '_'

/-- The words of one character with the property. -/
def oneOf (p : Char → Prop) : Language Char := {word | ∃ c, p c ∧ word = [c]}

/-- The words that are tokens of the kind. -/
def Kind.pattern : Kind → Language Char
  | .opening => oneOf (· = '(')
  | .closing => oneOf (· = ')')
  | .binder => oneOf IsSign * (oneOf IsLetter)∗
  | .dot => oneOf (· = '.')
  | .index => oneOf (Text.isDigit · = true) * (oneOf (Text.isDigit · = true))∗

section Languages

variable {p q : Char → Prop} {word : List Char}

theorem mem_kstar_oneOf_iff : word ∈ (oneOf p)∗ ↔ ∀ c ∈ word, p c := by
  constructor
  · rintro hword c hc
    obtain ⟨parts, rfl, hparts⟩ := Language.mem_kstar.mp hword
    obtain ⟨part, hpart, hc⟩ := List.mem_flatten.mp hc
    obtain ⟨d, hd, rfl⟩ := hparts part hpart
    rwa [List.mem_singleton.mp hc]
  · intro hword
    refine Language.mem_kstar.mpr ⟨word.map ([·]), ?_, ?_⟩
    · rw [← List.flatMap_def, List.flatMap_singleton']
    · rintro _ hpart
      obtain ⟨c, hc, rfl⟩ := List.mem_map.mp hpart
      exact ⟨c, hword c hc, rfl⟩

theorem mem_oneOf_mul_kstar_iff :
    word ∈ oneOf p * (oneOf q)∗ ↔ ∃ c name, p c ∧ (∀ d ∈ name, q d) ∧ word = c :: name := by
  constructor
  · intro hword
    obtain ⟨_, ⟨c, hc, rfl⟩, name, hname, rfl⟩ := Language.mem_mul.mp hword
    exact ⟨c, name, hc, mem_kstar_oneOf_iff.mp hname, rfl⟩
  · rintro ⟨c, name, hc, hname, rfl⟩
    exact Language.mem_mul.mpr ⟨[c], ⟨c, hc, rfl⟩, name, mem_kstar_oneOf_iff.mpr hname, rfl⟩

end Languages

theorem isBinderSign_iff {c : Char} : isBinderSign c = true ↔ IsSign c := by
  rw [isBinderSign, Bool.or_eq_true, decide_eq_true_eq, decide_eq_true_eq, IsSign]

theorem isNameChar_iff {c : Char} : isNameChar c = true ↔ IsLetter c := by
  have hupper : c.isUpper = true ↔ 'A' ≤ c ∧ c ≤ 'Z' := decide_eq_true_iff
  have hlower : c.isLower = true ↔ 'a' ≤ c ∧ c ≤ 'z' := by
    refine Bool.and_eq_true_iff.trans (and_congr ?_ ?_) <;> exact decide_eq_true_iff
  have halpha : c.isAlpha = true ↔ c.isUpper = true ∨ c.isLower = true := Bool.or_eq_true_iff
  rw [IsLetter, halpha, hupper, hlower]
  simp only [isNameChar, Bool.or_eq_true, Bool.and_eq_true, decide_eq_true_eq]

namespace Kind

/-- The characters that the words of the kind begin with. -/
def Begins : Kind → Char → Prop
  | .opening, c => c = '('
  | .closing, c => c = ')'
  | .binder, c => IsSign c
  | .dot, c => c = '.'
  | .index, c => Text.isDigit c = true

theorem ofChar?_eq_some_iff {c : Char} {kind : Kind} : ofChar? c = some kind ↔ kind.Begins c := by
  constructor
  · intro h
    simp only [ofChar?] at h
    split_ifs at h with hopening hclosing hsign hdot hdigit <;> cases h
    · exact hopening
    · exact hclosing
    · exact isBinderSign_iff.mp hsign
    · exact hdot
    · exact hdigit
  · intro h
    cases kind with
    | binder => rcases h with rfl | rfl <;> decide
    | index => exact ofChar?_of_isDigit h
    | _ =>
      cases h
      decide

theorem not_isBlank_of_ofChar? {c : Char} {kind : Kind} (h : ofChar? c = some kind) :
    Text.isBlank c = false := by
  have hbegins := ofChar?_eq_some_iff.mp h
  cases kind with
  | binder => rcases hbegins with rfl | rfl <;> decide
  | index =>
    refine Bool.eq_false_iff.mpr fun hblank => ?_
    exact absurd (hbegins.symm.trans (Text.not_isDigit_of_isBlank hblank)) (by decide)
  | _ =>
    cases hbegins
    decide

/-- The words of a kind are what the scanner takes for a token of it: a character that begins
one, and characters that go on with it. -/
theorem mem_pattern_iff {kind : Kind} {word : List Char} :
    word ∈ kind.pattern ↔
      ∃ c name, ofChar? c = some kind ∧ (∀ d ∈ name, kind.continues d = true) ∧
        word = c :: name := by
  have hmark (p : Char → Prop) : word ∈ oneOf p ↔
      ∃ c name, p c ∧ (∀ d ∈ name, false = true) ∧ word = c :: name := by
    constructor
    · rintro ⟨c, hc, rfl⟩
      exact ⟨c, [], hc, List.forall_mem_nil _, rfl⟩
    · rintro ⟨c, name, hc, hname, rfl⟩
      obtain rfl : name = [] := List.eq_nil_iff_forall_not_mem.mpr fun d hd => by cases hname d hd
      exact ⟨c, hc, rfl⟩
  simp only [ofChar?_eq_some_iff]
  cases kind with
  | binder =>
    simp only [continues, isNameChar_iff]
    exact mem_oneOf_mul_kstar_iff
  | index => exact mem_oneOf_mul_kstar_iff
  | _ => exact hmark _

end Kind

/-! ### Tokens that cannot go on -/

/-- The token stands in the text, it is a word of its kind, and the next character does not go on
with it: no digit comes after an index and no letter after a binder. -/
structure LongestIn (tok : Token) (text : List Char) : Prop where
  stands : tok.StandsIn text
  mem_pattern : tok.text ∈ tok.kind.pattern
  maximal : ∀ c ∈ text[tok.stop]?,
    (tok.kind = .index → Text.isDigit c = false) ∧ (tok.kind = .binder → ¬ IsLetter c)

theorem Kind.not_continues_iff {kind : Kind} {c : Char} :
    kind.continues c = false ↔
      (kind = .index → Text.isDigit c = false) ∧ (kind = .binder → ¬ IsLetter c) := by
  cases kind with
  | binder => simp [continues, ← isNameChar_iff]
  | _ => simp [continues]

theorem StandsIn.drop_start {tok : Token} {text : List Char} (h : tok.StandsIn text) :
    text.drop tok.start = tok.text ++ text.drop tok.stop := by
  obtain ⟨before, after, rfl, hstart⟩ := h.eq_append
  rw [stop, ← List.drop_drop, List.drop_left' hstart, List.drop_left]

theorem standsIn_of_drop {text word rest : List Char} {n : Nat} (h : text.drop n = word ++ rest)
    (hne : word ≠ []) (kind : Kind) : StandsIn ⟨kind, word, n⟩ text where
  ne_nil := hne
  eq_append := by
    refine ⟨text.take n, rest, ?_, List.length_take_of_le ?_⟩
    · rw [← h, List.take_append_drop]
    · -- there are characters left from the place on
      by_contra hlt
      rw [List.drop_of_length_le (by omega)] at h
      exact hne (List.append_eq_nil_iff.mp h.symm).1

/-- At each place there is one token that cannot go on, the one that the scanner takes. -/
theorem longestIn_iff {tok : Token} {text : List Char} :
    tok.LongestIn text ↔
      ∃ c rest, text.drop tok.start = c :: rest ∧ Kind.ofChar? c = some tok.kind ∧
        tok.text = c :: rest.takeWhile tok.kind.continues := by
  constructor
  · intro h
    obtain ⟨c, name, hc, hname, hword⟩ := Kind.mem_pattern_iff.mp h.mem_pattern
    have hstop : tok.kind.StopsAt (text.drop tok.stop) := by
      intro d hd
      rw [List.head?_drop] at hd
      exact Kind.not_continues_iff.mpr (h.maximal d hd)
    refine ⟨c, name ++ text.drop tok.stop, ?_, hc, ?_⟩
    · rw [h.stands.drop_start, hword, List.cons_append]
    · rw [List.takeWhile_append_of_pos hname, hstop.takeWhile, List.append_nil, hword]
  · rintro ⟨c, rest, hdrop, hc, hword⟩
    have happend : text.drop tok.start = tok.text ++ rest.dropWhile tok.kind.continues := by
      rw [hdrop, hword, List.cons_append, List.takeWhile_append_dropWhile]
    have hstands : tok.StandsIn text :=
      standsIn_of_drop happend (hword ▸ List.cons_ne_nil _ _) tok.kind
    refine ⟨hstands, ?_, fun d hd => Kind.not_continues_iff.mp ?_⟩
    · exact Kind.mem_pattern_iff.mpr ⟨c, _, hc, fun d => List.mem_takeWhile_imp, hword⟩
    · have hrest : text.drop tok.stop = rest.dropWhile tok.kind.continues :=
        List.append_cancel_left (hstands.drop_start.symm.trans happend)
      rw [← List.head?_drop, hrest] at hd
      exact tok.kind.stopsAt_dropWhile rest d hd

theorem LongestIn.eq_of_drop {tok : Token} {text rest : List Char} {n : Nat} {c : Char}
    (h : tok.LongestIn text) (hstart : tok.start = n) (hdrop : text.drop n = c :: rest) :
    ∃ kind, Kind.ofChar? c = some kind ∧
      tok = ⟨kind, c :: rest.takeWhile kind.continues, n⟩ := by
  obtain ⟨d, rest', hdrop', hbegins, hword⟩ := longestIn_iff.mp h
  subst hstart
  cases hdrop.symm.trans hdrop'
  exact ⟨tok.kind, hbegins, by rw [← hword]⟩

/-! ### Partitions -/

/-- The tokens partition the text from the place `n` on: they are stretches of it, from left to
right and apart from each other, none of them could go on, and what is outside of them is
blank. -/
structure PartitionFrom (n : Nat) (text : List Char) (ts : List Token) : Prop where
  tokens : ∀ tok ∈ ts, n ≤ tok.start ∧ tok.LongestIn text
  ordered : ts.Pairwise fun s t => s.stop ≤ t.start
  outside : ∀ i c, n ≤ i → text[i]? = some c →
    (∀ tok ∈ ts, i < tok.start ∨ tok.stop ≤ i) → Text.isBlank c = true

namespace PartitionFrom

variable {n : Nat} {text : List Char} {ts : List Token} {c : Char}

theorem nil (h : text.drop n = []) : PartitionFrom n text [] where
  tokens := List.forall_mem_nil _
  ordered := .nil
  outside i c hi hc := by
    rw [List.drop_eq_nil_iff] at h
    rw [List.getElem?_eq_none (by omega)] at hc
    cases hc

/-- A blank is outside of all tokens. -/
theorem blank_iff (hc : text[n]? = some c) (hblank : Text.isBlank c = true) :
    PartitionFrom n text ts ↔ PartitionFrom (n + 1) text ts := by
  constructor
  · intro h
    refine ⟨fun tok htok => ?_, h.ordered, fun i d hi => h.outside i d (by omega)⟩
    obtain ⟨hstart, hlongest⟩ := h.tokens tok htok
    refine ⟨Nat.lt_of_le_of_ne hstart ?_, hlongest⟩
    -- no token begins with a blank
    rintro rfl
    obtain ⟨d, rest, hdrop, hd, -⟩ := longestIn_iff.mp hlongest
    rw [← List.head?_drop, hdrop, List.head?_cons] at hc
    cases hc
    exact absurd (hblank.symm.trans (Kind.not_isBlank_of_ofChar? hd)) (by decide)
  · intro h
    refine ⟨fun tok htok => ?_, h.ordered, fun i d hi hd hout => ?_⟩
    · obtain ⟨hstart, hlongest⟩ := h.tokens tok htok
      exact ⟨by omega, hlongest⟩
    · rcases Nat.eq_or_lt_of_le hi with rfl | hlt
      · rwa [Option.some.inj (hd.symm.trans hc)]
      · exact h.outside i d hlt hd hout

/-- A token in front of a partition of what follows it. -/
theorem cons {tok : Token} (htok : tok.LongestIn text) (h : PartitionFrom tok.stop text ts) :
    PartitionFrom tok.start text (tok :: ts) where
  tokens := by
    have hlt := htok.stands.start_lt_stop
    refine List.forall_mem_cons.mpr ⟨⟨Nat.le_refl _, htok⟩, fun t ht => ?_⟩
    obtain ⟨hstart, hlongest⟩ := h.tokens t ht
    exact ⟨by omega, hlongest⟩
  ordered := List.pairwise_cons.mpr ⟨fun t ht => (h.tokens t ht).1, h.ordered⟩
  outside i c hi hc hout := by
    obtain ⟨hfirst, hout⟩ := List.forall_mem_cons.mp hout
    exact h.outside i c (by omega) hc hout

/-- What is not blank begins the first token. -/
theorem exists_cons (h : PartitionFrom n text ts) (hc : text[n]? = some c)
    (hblank : Text.isBlank c = false) :
    ∃ tok us, ts = tok :: us ∧ tok.start = n ∧ tok.LongestIn text ∧
      PartitionFrom tok.stop text us := by
  obtain ⟨t, ht, hstart, hstop⟩ : ∃ t ∈ ts, t.start ≤ n ∧ n < t.stop := by
    by_contra! hout
    have hc := h.outside n c (Nat.le_refl n) hc fun t ht => by have := hout t ht; omega
    exact absurd (hblank.symm.trans hc) (by decide)
  cases ts with
  | nil => cases ht
  | cons tok us =>
    obtain ⟨⟨hle, hlongest⟩, htokens⟩ := List.forall_mem_cons.mp h.tokens
    obtain ⟨hfirst, hordered⟩ := List.pairwise_cons.mp h.ordered
    refine ⟨tok, us, rfl, ?_, hlongest, ?_⟩
    · have hlt := hlongest.stands.start_lt_stop
      rcases List.mem_cons.mp ht with rfl | ht
      · omega
      · -- a token further right begins after the place
        have := hfirst t ht
        omega
    · refine ⟨fun u hu => ⟨hfirst u hu, (htokens u hu).2⟩, hordered, fun i d hi hd hout => ?_⟩
      have hlt := hlongest.stands.start_lt_stop
      exact h.outside i d (by omega) hd (List.forall_mem_cons.mpr ⟨.inr hi, hout⟩)

theorem eq_nil (h : PartitionFrom n text ts) (hend : text.drop n = []) : ts = [] := by
  refine List.eq_nil_iff_forall_not_mem.mpr fun tok htok => ?_
  obtain ⟨hstart, hlongest⟩ := h.tokens tok htok
  have hlt := hlongest.stands.start_lt_stop
  have hle := hlongest.stands.stop_le
  rw [List.drop_eq_nil_iff] at hend
  omega

end PartitionFrom

/-! ### The scanner finds the partition -/

/-- The part of a text that is left after its first character. -/
theorem drop_succ_of_drop {text rest : List Char} {n : Nat} {c : Char}
    (h : text.drop n = c :: rest) : text[n]? = some c ∧ text.drop (n + 1) = rest := by
  rw [← List.head?_drop, ← List.drop_drop, h]
  exact ⟨rfl, rfl⟩

/-- The scanner takes a token that cannot go on, and goes on after it. -/
theorem longestIn_of_drop {text rest : List Char} {n : Nat} {c : Char} (h : text.drop n = c :: rest)
    {kind : Kind} (hkind : Kind.ofChar? c = some kind) :
    let tok : Token := ⟨kind, c :: rest.takeWhile kind.continues, n⟩
    tok.LongestIn text ∧ text.drop tok.stop = rest.dropWhile kind.continues := by
  intro tok
  have hlongest : tok.LongestIn text := longestIn_iff.mpr ⟨c, rest, h, hkind, rfl⟩
  refine ⟨hlongest, List.append_cancel_left (hlongest.stands.drop_start.symm.trans ?_)⟩
  rw [List.cons_append, List.takeWhile_append_dropWhile, h]

/-- What is found on the way from a place to the end partitions this part of the text. -/
theorem exists_partitionFrom_of_scanOnto {found r : List Token} {start : Nat} {rest : List Char}
    (h : scanOnto found start rest = .ok r) {text : List Char} (hrest : text.drop start = rest) :
    ∃ ts, r = ts.reverse ++ found ∧ PartitionFrom start text ts := by
  fun_induction scanOnto found start rest with
  | case1 found start => exact ⟨[], (Except.ok.inj h).symm, .nil hrest⟩
  | case2 found start c rest hc ih =>
    obtain ⟨hchar, hnext⟩ := drop_succ_of_drop hrest
    obtain ⟨ts, hr, hts⟩ := ih h hnext
    exact ⟨ts, hr, (PartitionFrom.blank_iff hchar hc).mpr hts⟩
  | case3 => cases h
  | case4 found start c rest hc kind hkind word ih =>
    obtain ⟨hlongest, hnext⟩ := longestIn_of_drop hrest hkind
    obtain ⟨ts, rfl, hts⟩ := ih h hnext
    exact ⟨⟨kind, word, start⟩ :: ts, by simp, .cons hlongest hts⟩

/-- Whatever partitions a text from a place on is found on the way from there. -/
theorem scanOnto_of_partitionFrom {start : Nat} {text rest : List Char}
    (hrest : text.drop start = rest) (found : List Token) :
    ∀ {ts}, PartitionFrom start text ts →
      scanOnto found start rest = .ok (ts.reverse ++ found) := by
  fun_induction scanOnto found start rest with
  | case1 found start =>
    intro ts h
    obtain rfl := h.eq_nil hrest
    rfl
  | case2 found start c rest hc ih =>
    intro ts h
    obtain ⟨hchar, hnext⟩ := drop_succ_of_drop hrest
    exact ih hnext ((PartitionFrom.blank_iff hchar hc).mp h)
  | case3 found start c rest hc hkind =>
    intro ts h
    obtain ⟨hchar, -⟩ := drop_succ_of_drop hrest
    obtain ⟨tok, us, -, hstart, hlongest, -⟩ := h.exists_cons hchar (Bool.eq_false_iff.mpr hc)
    obtain ⟨kind, hbegins, -⟩ := hlongest.eq_of_drop hstart hrest
    cases hkind.symm.trans hbegins
  | case4 found start c rest hc kind hkind word ih =>
    intro ts h
    obtain ⟨hchar, -⟩ := drop_succ_of_drop hrest
    obtain ⟨tok, us, rfl, hstart, hlongest, hus⟩ :=
      h.exists_cons hchar (Bool.eq_false_iff.mpr hc)
    -- the first token of the partition is the one that the scanner takes
    obtain ⟨kind', hbegins, rfl⟩ := hlongest.eq_of_drop hstart hrest
    cases hkind.symm.trans hbegins
    rw [ih (longestIn_of_drop hrest hkind).2 hus, List.reverse_cons, List.append_assoc]
    rfl

theorem scan_eq_ok_iff_partitionFrom {text : List Char} {ts : List Token} :
    scan text = .ok ts ↔ PartitionFrom 0 text ts := by
  rw [scan_eq_ok_iff]
  constructor
  · intro h
    obtain ⟨us, hus, hpartition⟩ := exists_partitionFrom_of_scanOnto h List.drop_zero
    rw [List.append_nil, List.reverse_inj] at hus
    rwa [hus]
  · intro h
    rw [scanOnto_of_partitionFrom List.drop_zero [] h, List.append_nil]

/-! ### The texts that are scanned -/

/-- The text ends with the sign of a binder and letters after it. -/
def EndsInName (text : List Char) : Prop :=
  ∃ front sign name, text = front ++ sign :: name ∧ IsSign sign ∧ ∀ d ∈ name, IsLetter d

/-- What may come next: a blank, a digit, a parenthesis, a dot, the sign of a binder, or a letter
in a name that begins right after such a sign. -/
def MayFollow (before : List Char) (c : Char) : Prop :=
  Text.isBlank c = true ∨ Text.isDigit c = true ∨ c ∈ ['(', ')', '.', 'λ', '\\'] ∨
    IsLetter c ∧ EndsInName before

/-- Each character of the text may stand where it stands. -/
def Admissible (text : List Char) : Prop :=
  ∀ before c after, text = before ++ c :: after → MayFollow before c

theorem mayFollow_of_ofChar? {c : Char} {kind : Kind} (h : Kind.ofChar? c = some kind)
    (before : List Char) : MayFollow before c := by
  have hbegins := Kind.ofChar?_eq_some_iff.mp h
  cases kind with
  | binder =>
    rcases hbegins with rfl | rfl <;> exact .inr (.inr (.inl (by decide)))
  | index => exact .inr (.inl hbegins)
  | _ =>
    cases hbegins
    exact .inr (.inr (.inl (by decide)))

/-- Nothing comes before the first character, so it begins a token unless it is blank. -/
theorem MayFollow.exists_kind {c : Char} (h : MayFollow [] c) (hblank : ¬ Text.isBlank c = true) :
    ∃ kind, Kind.ofChar? c = some kind := by
  rcases h with h | h | h | ⟨-, front, sign, name, h, -⟩
  · exact absurd h hblank
  · exact ⟨.index, Kind.ofChar?_of_isDigit h⟩
  · simp only [List.mem_cons, List.not_mem_nil, or_false] at h
    rcases h with rfl | rfl | rfl | rfl | rfl <;> exact ⟨_, rfl⟩
  · simp at h

section Append

variable {word rest : List Char}

theorem MayFollow.append {before : List Char} {c : Char} (h : MayFollow before c)
    (word : List Char) : MayFollow (word ++ before) c := by
  refine h.imp_right (.imp_right (.imp_right ?_))
  rintro ⟨hc, front, sign, name, rfl, hsign, hname⟩
  exact ⟨hc, word ++ front, sign, name, by rw [List.append_assoc], hsign, hname⟩

/-- A word ends where no name of it goes on: it has no sign, or no letter comes next. -/
def CutsOff (word rest : List Char) : Prop :=
  (∀ c ∈ word, ¬ IsSign c) ∨ ∀ c ∈ rest.head?, ¬ IsLetter c

theorem CutsOff.mayFollow {before after : List Char} {c : Char}
    (hcut : CutsOff word (before ++ c :: after)) (h : MayFollow (word ++ before) c) :
    MayFollow before c := by
  refine h.imp_right (.imp_right (.imp_right ?_))
  rintro ⟨hc, front, sign, name, happend, hsign, hname⟩
  refine ⟨hc, ?_⟩
  rcases List.append_eq_append_iff.mp happend with ⟨more, rfl, rfl⟩ | ⟨more, rfl, hmore⟩
  · exact ⟨more, sign, name, rfl, hsign, hname⟩
  · cases more with
    | nil => exact ⟨[], sign, name, hmore.symm, hsign, hname⟩
    | cons d more =>
      -- the sign is in the word, and its name reaches from there to the character
      obtain ⟨rfl, rfl⟩ := List.cons.inj hmore
      rcases hcut with hword | hrest
      · exact absurd hsign (hword sign (by simp))
      · cases before with
        | nil => exact absurd hc (hrest c rfl)
        | cons e before => exact absurd (hname e (by simp)) (hrest e rfl)

/-- Where a word ends, what comes after it is a text of its own. -/
theorem admissible_append_iff (hword : Admissible word) (hcut : CutsOff word rest) :
    Admissible (word ++ rest) ↔ Admissible rest := by
  constructor
  · rintro h before c after rfl
    exact hcut.mayFollow (h (word ++ before) c after (by rw [List.append_assoc]))
  · intro h before c after happend
    rcases List.append_eq_append_iff.mp happend with ⟨more, rfl, rfl⟩ | ⟨more, rfl, hmore⟩
    · exact (h more c after rfl).append word
    · cases more with
      | nil => simpa using (h [] c after hmore.symm).append before
      | cons d more =>
        obtain ⟨rfl, -⟩ := List.cons.inj hmore
        exact hword before c more rfl

end Append

theorem admissible_nil : Admissible [] := by
  intro before c after h
  simp at h

theorem admissible_cons {c : Char} {name : List Char} (hc : MayFollow [] c)
    (hname : ∀ before d after, name = before ++ d :: after → MayFollow (c :: before) d) :
    Admissible (c :: name) := by
  intro before d after h
  cases before with
  | nil =>
    obtain ⟨rfl, -⟩ := List.cons.inj h
    exact hc
  | cons b before =>
    obtain ⟨rfl, hrest⟩ := List.cons.inj h
    exact hname before d after hrest

theorem admissible_blank {c : Char} (h : Text.isBlank c = true) : Admissible [c] := by
  refine admissible_cons (.inl h) fun before d after hnil => ?_
  simp at hnil

section Word

variable {kind : Kind} {c : Char} (hkind : Kind.ofChar? c = some kind) {name : List Char}
  (hname : ∀ d ∈ name, kind.continues d = true)
include hkind hname

theorem admissible_word : Admissible (c :: name) := by
  refine admissible_cons (mayFollow_of_ofChar? hkind []) ?_
  rintro before d after rfl
  have hd := hname d (by simp)
  cases kind with
  | index => exact .inr (.inl hd)
  | binder =>
    have hsign := Kind.ofChar?_eq_some_iff.mp hkind
    have hbefore : ∀ e ∈ before, IsLetter e := fun e he =>
      isNameChar_iff.mp (hname e (List.mem_append_left _ he))
    exact .inr (.inr (.inr ⟨isNameChar_iff.mp hd, [], c, before, rfl, hsign, hbefore⟩))
  | _ => cases hd

/-- Only a binder has a sign, and no letter comes after the longest one. -/
theorem cutsOff_word {rest : List Char} (hstop : kind.StopsAt rest) :
    CutsOff (c :: name) rest := by
  by_cases hbinder : kind = .binder
  · subst hbinder
    refine .inr fun d hd hletter => ?_
    exact absurd ((hstop d hd).symm.trans (isNameChar_iff.mpr hletter)) (by decide)
  · refine .inl fun d hd hsign => ?_
    rcases List.mem_cons.mp hd with rfl | hd
    · have hbegins : Kind.ofChar? d = some .binder := Kind.ofChar?_eq_some_iff.mpr hsign
      exact hbinder (Option.some.inj (hkind.symm.trans hbegins))
    · have hcontinues := hname d hd
      rcases hsign with rfl | rfl <;> cases kind <;> exact absurd hcontinues (by decide)

end Word

/-- A text is scanned, whatever was found before and wherever it begins, if and only if each of
its characters may stand where it stands. -/
theorem exists_scanOnto_iff (found : List Token) (start : Nat) (text : List Char) :
    (∃ ts, scanOnto found start text = .ok ts) ↔ Admissible text := by
  fun_induction scanOnto found start text with
  | case1 found start => exact ⟨fun _ => admissible_nil, fun _ => ⟨found, rfl⟩⟩
  | case2 found start c rest hc ih =>
    have hcut : CutsOff [c] rest := by
      refine .inl fun d hd hsign => ?_
      rw [List.mem_singleton.mp hd] at hsign
      rcases hsign with rfl | rfl <;> exact absurd hc (by decide)
    exact ih.trans (admissible_append_iff (admissible_blank hc) hcut).symm
  | case3 found start c rest hc hkind =>
    refine ⟨by rintro ⟨_, ⟨⟩⟩, fun h => ?_⟩
    obtain ⟨kind, hbegins⟩ := (h [] c rest rfl).exists_kind hc
    cases hkind.symm.trans hbegins
  | case4 found start c rest hc kind hkind word ih =>
    have hname : ∀ d ∈ rest.takeWhile kind.continues, kind.continues d = true :=
      fun d => List.mem_takeWhile_imp
    have happend := admissible_append_iff (admissible_word hkind hname)
      (cutsOff_word hkind hname (kind.stopsAt_dropWhile rest))
    rw [List.cons_append, List.takeWhile_append_dropWhile] at happend
    exact ih.trans happend.symm

/-- **Scanning partitions the text.**  The tokens of a text are the only ones that partition it:
stretches of it in order, each a word of its kind that cannot go on, and only blanks outside of
them.  There are such tokens if and only if each character is a blank, a digit, a parenthesis, a
dot or the sign of a binder, or a letter in a name right after such a sign. -/
theorem scan_partitions_text (text : List Char) :
    (∀ ts, scan text = .ok ts ↔ PartitionFrom 0 text ts) ∧
      ((∃ ts, scan text = .ok ts) ↔ Admissible text) := by
  refine ⟨fun ts => scan_eq_ok_iff_partitionFrom, ?_⟩
  rw [exists_scan_iff, exists_scanOnto_iff]

/-- Tokens that touch: a name ends at the next sign, and an index at a parenthesis. -/
example : scan "λx_\\.10(2 ٣)".toList
    = .ok [⟨.binder, ['λ', 'x', '_'], 0⟩, ⟨.binder, ['\\'], 3⟩, ⟨.dot, ['.'], 4⟩,
        ⟨.index, ['1', '0'], 5⟩, ⟨.opening, ['('], 7⟩, ⟨.index, ['2'], 8⟩, ⟨.index, ['٣'], 10⟩,
        ⟨.closing, [')'], 11⟩] := by
  decide +kernel

end Nameless.Token
