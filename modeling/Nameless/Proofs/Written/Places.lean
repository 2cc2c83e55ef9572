/-
Nameless/Proofs/Written/Places.lean

Where tokens stand, and where scanning stops.

A token that is found is a stretch of the text, of one character at least, and it stands
where it says (`standsIn_of_scan`).  If a text cannot be scanned, the place that is given
is the first at which it goes wrong: everything before it is cut into tokens and blanks, and
the character there begins no token, goes on with none and is no blank
(`Stray.isFirst_of_scan`).  So the prefixes of the text that can be scanned are exactly those
up to that place.
-/
import Nameless.Proofs.Written.Words

namespace Nameless.Token

/-! ### The place of a token -/

/-- The token is a stretch of the text, where it says that it stands. -/
structure StandsIn (tok : Token) (text : List Char) : Prop where
  ne_nil : tok.text ≠ []
  eq_append : ∃ before after, text = before ++ (tok.text ++ after) ∧ before.length = tok.start

namespace StandsIn

variable {tok : Token} {text : List Char}

theorem start_lt_stop (h : tok.StandsIn text) : tok.start < tok.stop := by
  have hpos := List.length_pos_iff.mpr h.ne_nil
  rw [stop]
  omega

theorem stop_le (h : tok.StandsIn text) : tok.stop ≤ text.length := by
  obtain ⟨before, after, rfl, hstart⟩ := h.eq_append
  simp only [stop, List.length_append, hstart]
  omega

theorem between_eq (h : tok.StandsIn text) : Text.between text tok.start tok.stop = tok.text := by
  have hplace (i : Nat) (hi : i ≤ text.length) : Text.place text.length i = i := by
    rw [Text.place, if_neg (by omega), Int.toNat_natCast, Nat.min_eq_left hi]
  have hlt := h.start_lt_stop
  rw [Text.between, hplace _ h.stop_le, hplace _ (by have := h.stop_le; omega)]
  obtain ⟨before, after, rfl, hstart⟩ := h.eq_append
  rw [List.drop_take, List.drop_left' hstart, stop, Nat.add_sub_cancel_left, List.take_left]

end StandsIn

/-- Scanning goes on through a text `whole` of which `before` has been scanned. -/
theorem standsIn_of_scanOnto {found ts : List Token} {start : Nat} {text : List Char}
    (h : scanOnto found start text = .ok ts) {whole before : List Char}
    (hwhole : whole = before ++ text) (hstart : before.length = start)
    (hfound : ∀ tok ∈ found, tok.StandsIn whole) : ∀ tok ∈ ts, tok.StandsIn whole := by
  fun_induction scanOnto found start text generalizing before with
  | case1 found start =>
    obtain rfl := Except.ok.inj h
    exact hfound
  | case2 found start c rest hc ih =>
    refine @ih h (before ++ [c]) ?_ ?_ hfound
    · rw [hwhole, List.append_cons]
    · rw [List.length_append, hstart, List.length_singleton]
  | case3 => cases h
  | case4 found start c rest hc kind hkind text ih =>
    have hrest : c :: rest = text ++ rest.dropWhile kind.continues := by
      rw [List.cons_append, List.takeWhile_append_dropWhile]
    refine @ih h (before ++ text) ?_ ?_ ?_
    · rw [hwhole, hrest, List.append_assoc]
    · rw [List.length_append, hstart]
    · refine List.forall_mem_cons.mpr ⟨⟨List.cons_ne_nil _ _, ?_⟩, hfound⟩
      exact ⟨before, rest.dropWhile kind.continues, by rw [hwhole, hrest], hstart⟩

/-- Every token of a text stands in it. -/
theorem standsIn_of_scan {text : List Char} {ts : List Token} (h : scan text = .ok ts) :
    ∀ tok ∈ ts, tok.StandsIn text := by
  intro tok htok
  have hscan := scan_eq_ok_iff.mp h
  exact @standsIn_of_scanOnto _ _ _ _ hscan text [] rfl rfl nofun tok (List.mem_reverse.mpr htok)

/-! ### The first place without a token -/

theorem exists_scan_iff {text : List Char} :
    (∃ ts, scan text = .ok ts) ↔ ∃ ts, scanOnto [] 0 text = .ok ts := by
  constructor
  · rintro ⟨ts, hts⟩
    exact ⟨_, scan_eq_ok_iff.mp hts⟩
  · rintro ⟨ts, hts⟩
    exact ⟨ts.reverse, scan_eq_ok_iff.mpr (by rw [hts, List.reverse_reverse])⟩

theorem scan_eq_error_iff {text : List Char} {s : Stray} :
    scan text = .error s ↔ scanOnto [] 0 text = .error s := by
  rw [scan]
  cases scanOnto [] 0 text with
  | error s' => exact Iff.rfl
  | ok found => exact ⟨by rintro ⟨⟩, by rintro ⟨⟩⟩

/-- Up to a place, but no further, a text can be scanned: the character there is no blank and
begins no token, and a text that reaches beyond it cannot be scanned. -/
structure Stray.IsFirst (s : Stray) (text : List Char) : Prop where
  char : text[s.position]? = some s.char
  not_blank : Text.isBlank s.char = false
  not_begins : Kind.ofChar? s.char = none
  scans_iff : ∀ n, (∃ ts, scan (text.take n) = .ok ts) ↔ n ≤ s.position

theorem Kind.stopsAt_dropWhile (kind : Kind) (rest : List Char) :
    kind.StopsAt (rest.dropWhile kind.continues) := by
  intro c hc
  have hhead := List.head?_dropWhile_not kind.continues rest
  rw [hc] at hhead
  simpa using hhead

theorem Kind.StopsAt.take {kind : Kind} {rest : List Char} (h : kind.StopsAt rest) (n : Nat) :
    kind.StopsAt (rest.take n) := by
  intro c hc
  rw [List.head?_take] at hc
  split at hc
  · cases hc
  · exact h c hc

section Cut

variable {kind : Kind} {c : Char} (hblank : Text.isBlank c = false)
  (hkind : Kind.ofChar? c = some kind) {word : List Char}
  (hword : ∀ d ∈ word, kind.continues d = true) (found : List Token) (start : Nat)
include hblank hkind hword

/-- The beginning of a token is a token. -/
theorem exists_scanOnto_take_word (rest : List Char) {n : Nat} (hn : n ≤ word.length) :
    ∃ ts, scanOnto found start ((c :: (word ++ rest)).take n) = .ok ts := by
  cases n with
  | zero => exact ⟨found, by rw [List.take_zero, scanOnto]⟩
  | succ n =>
    have hscan := scanOnto_token hblank hkind (word.take n) []
      (fun d hd => hword d (List.mem_of_mem_take hd)) (by rintro _ ⟨⟩) found start
    rw [List.append_nil, scanOnto] at hscan
    rw [List.take_succ_cons, List.take_append_of_le_length (by omega)]
    exact ⟨_, hscan⟩

theorem scanOnto_take_token {rest : List Char} (hrest : kind.StopsAt rest) (n : Nat) :
    scanOnto found start ((c :: (word ++ rest)).take (word.length + 1 + n))
      = scanOnto (⟨kind, c :: word, start⟩ :: found) (start + (word.length + 1))
          (rest.take n) := by
  rw [Nat.add_right_comm, List.take_succ_cons, List.take_length_add_append,
    scanOnto_token hblank hkind word _ hword (hrest.take n)]

end Cut

theorem exists_first_of_scanOnto {found : List Token} {start : Nat} {text : List Char} {s : Stray}
    (h : scanOnto found start text = .error s) :
    ∃ k, s.position = start + k ∧ text[k]? = some s.char ∧ Text.isBlank s.char = false ∧
      Kind.ofChar? s.char = none ∧
      ∀ n, (∃ ts, scanOnto found start (text.take n) = .ok ts) ↔ n ≤ k := by
  fun_induction scanOnto found start text with
  | case1 => cases h
  | case2 found start c rest hc ih =>
    obtain ⟨k, hk, hchar, hblank, hbegins, hscans⟩ := ih h
    refine ⟨k + 1, by omega, hchar, hblank, hbegins, fun n => ?_⟩
    cases n with
    | zero => simp [scanOnto]
    | succ n => rw [List.take_succ_cons, scanOnto_blank hc, hscans, Nat.succ_le_succ_iff]
  | case3 found start c rest hc hkind =>
    obtain rfl := Except.error.inj h
    refine ⟨0, rfl, rfl, Bool.eq_false_iff.mpr hc, hkind, fun n => ?_⟩
    cases n with
    | zero => simp [scanOnto]
    | succ n =>
      rw [List.take_succ_cons, scanOnto, if_neg hc, hkind]
      simp
  | case4 found start c rest hc kind hkind text ih =>
    obtain ⟨k, hk, hchar, hblank, hbegins, hscans⟩ := ih h
    have hrest : c :: rest = text ++ rest.dropWhile kind.continues := by
      rw [List.cons_append, List.takeWhile_append_dropWhile]
    have hword : ∀ d ∈ rest.takeWhile kind.continues, kind.continues d = true :=
      fun d => List.mem_takeWhile_imp
    refine ⟨text.length + k, by omega, ?_, hblank, hbegins, fun n => ?_⟩
    · rw [hrest, List.getElem?_append_right (by omega), Nat.add_sub_cancel_left, hchar]
    · have hc' := Bool.eq_false_iff.mpr hc
      rw [hrest]
      rcases Nat.lt_or_ge n text.length with hn | hn
      · -- the place is not in this token
        have hcut := exists_scanOnto_take_word hc' hkind hword found start
          (rest.dropWhile kind.continues) (Nat.le_of_lt_succ hn)
        exact ⟨fun _ => by omega, fun _ => hcut⟩
      · obtain ⟨m, rfl⟩ := Nat.exists_eq_add_of_le hn
        have hcut : scanOnto found start
            ((text ++ rest.dropWhile kind.continues).take (text.length + m))
              = scanOnto (⟨kind, text, start⟩ :: found) (start + text.length)
                  ((rest.dropWhile kind.continues).take m) :=
          scanOnto_take_token hc' hkind hword found start (kind.stopsAt_dropWhile rest) m
        rw [hcut]
        exact (hscans m).trans (by omega)

/-- Scanning stops at the first place where a text goes wrong. -/
theorem Stray.isFirst_of_scan {text : List Char} {s : Stray} (h : scan text = .error s) :
    s.IsFirst text := by
  obtain ⟨k, hk, hchar, hblank, hbegins, hscans⟩ :=
    exists_first_of_scanOnto (scan_eq_error_iff.mp h)
  rw [Nat.zero_add] at hk
  subst hk
  refine ⟨hchar, hblank, hbegins, fun n => ?_⟩
  rw [exists_scan_iff, hscans n]

end Nameless.Token
