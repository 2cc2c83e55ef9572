/-
Nameless/Proofs/Wire/Classification.lean

What decoding says of bytes, whether they are the binary form of a term or not.  The scan
knows only a number, how many terms are owed; the law speaks of the binary forms of all
terms and of their prefixes (`Warrants`):

* bytes that go on after a binary form are trailing from there on;
* bytes that stop before a binary form does are incomplete, from the piece on that is cut
  off or missing;
* bytes that leave every binary form where a piece should begin have a bad tag there.

`Owing n ps m` joins the two: after the pieces `ps`, of `n` terms `m` are still owed.  It
says how far the scan has come (`Owing.readPieces_eq`), and that the pieces can be completed
to `n` terms, with one variable for each term that is owed (`Owing.exists_terms`);
conversely, wherever the pieces of a term are cut, something is owed
(`Owing.of_pieces_append`).

All bytes can be divided into pieces up to a point where no whole piece can be taken
(`exists_owing`), so the cases of the law leave nothing out; and each case makes the scan
stop in its own way, so no two of them hold at once.
-/
import Nameless.Proofs.Wire.RoundTrip

namespace Nameless

/-! ### Pieces in order -/

namespace WirePiece

/-- The bytes of a piece: its tag, and eight bytes for the index of a variable. -/
def bytes : WirePiece → List UInt8
  | var i => tags.var :: littleEndianOnto 8 i []
  | lam => [tags.lam]
  | app => [tags.app]

/-- The number of terms that follow a piece. -/
def arity : WirePiece → Nat
  | var _ => 0
  | lam => 1
  | app => 2

/-- An index can be written in eight bytes. -/
def Fits : WirePiece → Prop
  | var i => i < indexLimit
  | lam => True
  | app => True

/-- The bytes are a piece that is cut off somewhere, or missing altogether. -/
def Cut (p : WirePiece) (d : List UInt8) : Prop :=
  d <+: p.bytes ∧ d ≠ p.bytes

theorem bytes_ne_nil (p : WirePiece) : p.bytes ≠ [] := by
  cases p <;> exact List.cons_ne_nil _ _

theorem cut_nil (p : WirePiece) : p.Cut [] :=
  ⟨List.nil_prefix, p.bytes_ne_nil.symm⟩

theorem Cut.length_lt {p : WirePiece} {d : List UInt8} (h : p.Cut d) :
    d.length < p.bytes.length :=
  Nat.lt_of_le_of_ne h.1.length_le fun heq => h.2 (h.1.eq_of_length heq)

/-- Any eight bytes are an index. -/
theorem exists_bytes_eq {word : List UInt8} (hword : word.length = 8) :
    ∃ p : WirePiece, p.Fits ∧ p.bytes = tags.var :: word := by
  refine ⟨.var (ofLittleEndian word), Term.fits_var_iff.mpr (hword ▸ ofLittleEndian_lt word), ?_⟩
  have hback := littleEndianOnto_ofLittleEndian word []
  rw [hword, List.append_nil] at hback
  rw [bytes, hback]

end WirePiece

/-- A byte that begins a piece. -/
def IsTag (g : UInt8) : Prop :=
  g = tags.var ∨ g = tags.lam ∨ g = tags.app

namespace Term

/-- The pieces of a term in the order of its binary form. -/
def pieces : Term → List WirePiece
  | var i => [.var i]
  | lam b => .lam :: b.pieces
  | app f a => .app :: (f.pieces ++ a.pieces)

theorem bytesOnto_eq (t : Term) (rest : List UInt8) :
    t.bytesOnto rest = t.pieces.flatMap WirePiece.bytes ++ rest := by
  induction t generalizing rest with
  | var i =>
    rw [bytesOnto, ← List.nil_append rest, littleEndianOnto_append]
    simp [pieces, WirePiece.bytes]
  | lam b ih => simp [bytesOnto, pieces, WirePiece.bytes, ih]
  | app f a ihf iha => simp [bytesOnto, pieces, WirePiece.bytes, ihf, iha]

theorem fits_iff_pieces {t : Term} : t.Fits ↔ ∀ p ∈ t.pieces, p.Fits := by
  induction t with
  | var i =>
    rw [pieces, List.forall_mem_singleton]
    exact Iff.rfl
  | lam b ih =>
    rw [pieces, List.forall_mem_cons, ← ih]
    exact (and_iff_right trivial).symm
  | app f a ihf iha =>
    rw [pieces, List.forall_mem_cons, List.forall_mem_append, ← ihf, ← iha]
    exact (and_iff_right trivial).symm

theorem encode_eq_ok_iff_pieces {t : Term} {e : List UInt8} :
    t.encode = .ok e ↔ (∀ p ∈ t.pieces, p.Fits) ∧ e = t.pieces.flatMap WirePiece.bytes := by
  rw [encode_eq_ok_iff, fits_iff_pieces, bytesOnto_eq, List.append_nil]

end Term

/-! ### Reading one piece -/

section OnePiece

variable {found : List WirePiece} {offset owed : Nat}

/-- A piece pays one term and owes as many as follow it. -/
theorem readPieces_piece {p : WirePiece} (hp : p.Fits) (rest : List UInt8) :
    readPieces found offset (owed + 1) (p.bytes ++ rest)
      = readPieces (p :: found) (offset + p.bytes.length) (owed + p.arity) rest := by
  cases p with
  | var i =>
    have hword := length_littleEndianOnto 8 i
    have hvalue : ofLittleEndian (littleEndianOnto 8 i []) = i :=
      ofLittleEndian_littleEndianOnto (Term.fits_var_iff.mp hp)
    rw [WirePiece.bytes, List.cons_append, readPieces_var hword, hvalue, List.length_cons, hword]
    rfl
  | lam => exact readPieces_lam rest
  | app => exact readPieces_app rest

/-- Where a piece is cut off or missing, reading stops. -/
theorem readPieces_of_cut {p : WirePiece} {d : List UInt8} (h : p.Cut d) :
    readPieces found offset (owed + 1) d = .error (.incomplete offset) := by
  have hlt := h.length_lt
  cases d with
  | nil => rw [readPieces]
  | cons g w =>
    -- only an index has more than one byte
    cases p with
    | lam => exact absurd (Nat.lt_of_succ_lt_succ hlt) (Nat.not_lt_zero _)
    | app => exact absurd (Nat.lt_of_succ_lt_succ hlt) (Nat.not_lt_zero _)
    | var i =>
      obtain ⟨rfl, -⟩ := List.cons_prefix_cons.mp h.1
      rw [WirePiece.bytes, List.length_cons, List.length_cons, length_littleEndianOnto] at hlt
      rw [readPieces.eq_def]
      simp only [if_true]
      split
      · simp only [List.length_cons] at hlt
        omega
      · rfl

/-- Where a piece should begin and no tag stands, reading stops. -/
theorem readPieces_of_not_tag {g : UInt8} (hg : ¬ IsTag g) (more : List UInt8) :
    readPieces found offset (owed + 1) (g :: more) = .error (.badTag g offset) := by
  simp only [IsTag, not_or] at hg
  rw [readPieces.eq_def]
  simp only [hg, if_false]

end OnePiece

/-- After the tag of a variable there are eight bytes for its index, or too few; then zeros may
follow them. -/
theorem exists_index (w : List UInt8) :
    (∃ (p : WirePiece) (more : List UInt8), p.Fits ∧ tags.var :: w = p.bytes ++ more) ∨
    (∃ p : WirePiece, p.Fits ∧ p.Cut (tags.var :: w)) := by
  rcases Nat.lt_or_ge w.length 8 with hlt | hge
  · have hlen : (w ++ List.replicate (8 - w.length) 0).length = 8 := by
      rw [List.length_append, List.length_replicate]
      omega
    obtain ⟨p, hfits, hbytes⟩ := WirePiece.exists_bytes_eq hlen
    refine Or.inr ⟨p, hfits, ?_, fun heq => ?_⟩
    · rw [hbytes]
      exact List.cons_prefix_cons.mpr ⟨rfl, List.prefix_append _ _⟩
    · have hlength := congrArg List.length (heq.trans hbytes)
      rw [List.length_cons, List.length_cons, hlen] at hlength
      omega
  · obtain ⟨p, hfits, hbytes⟩ := WirePiece.exists_bytes_eq (List.length_take_of_le hge)
    refine Or.inl ⟨p, w.drop 8, hfits, ?_⟩
    rw [hbytes, List.cons_append, List.take_append_drop]

/-- Bytes begin with a whole piece, or are a piece that is cut off, or begin with no tag. -/
theorem exists_piece (d : List UInt8) :
    (∃ (p : WirePiece) (more : List UInt8), p.Fits ∧ d = p.bytes ++ more) ∨
    (∃ p : WirePiece, p.Fits ∧ p.Cut d) ∨
    (∃ (g : UInt8) (more : List UInt8), d = g :: more ∧ ¬ IsTag g) := by
  cases d with
  | nil => exact Or.inr (Or.inl ⟨.lam, trivial, WirePiece.cut_nil .lam⟩)
  | cons g w =>
    by_cases htag : IsTag g
    · rcases htag with rfl | rfl | rfl
      · exact (exists_index w).imp_right Or.inl
      · exact Or.inl ⟨.lam, w, trivial, rfl⟩
      · exact Or.inl ⟨.app, w, trivial, rfl⟩
    · exact Or.inr (Or.inr ⟨g, w, rfl, htag⟩)

/-! ### Terms that are owed -/

/-- `n` terms are to come; after the pieces, `m` terms are still owed. -/
inductive Owing : Nat → List WirePiece → Nat → Prop
  | nothing (n : Nat) : Owing n [] n
  | piece {n m : Nat} {p : WirePiece} {ps : List WirePiece} :
      Owing (n + p.arity) ps m → Owing (n + 1) (p :: ps) m

theorem owing_append_iff {ps qs : List WirePiece} :
    ∀ {n m : Nat}, Owing n (ps ++ qs) m ↔ ∃ k, Owing n ps k ∧ Owing k qs m := by
  induction ps with
  | nil =>
    intro n m
    constructor
    · intro h
      exact ⟨n, .nothing n, h⟩
    · rintro ⟨k, hps, hqs⟩
      cases hps with
      | nothing => exact hqs
  | cons p ps ih =>
    intro n m
    constructor
    · intro h
      cases h with
      | piece h =>
        obtain ⟨k, hps, hqs⟩ := ih.mp h
        exact ⟨k, .piece hps, hqs⟩
    · rintro ⟨k, hps, hqs⟩
      cases hps with
      | piece hps => exact .piece (ih.mpr ⟨k, hps, hqs⟩)

namespace Owing

variable {n m : Nat} {ps : List WirePiece}

/-- The scan has read the pieces, and what it owes is what is owed. -/
theorem readPieces_eq (h : Owing n ps m) (hfits : ∀ p ∈ ps, p.Fits) (found : List WirePiece)
    (offset : Nat) (rest : List UInt8) :
    readPieces found offset n (ps.flatMap WirePiece.bytes ++ rest)
      = readPieces (ps.reverse ++ found) (offset + (ps.flatMap WirePiece.bytes).length) m rest := by
  induction h generalizing found offset with
  | nothing n => rfl
  | @piece n m p ps _ ih =>
    obtain ⟨hp, hps⟩ := List.forall_mem_cons.mp hfits
    rw [List.flatMap_cons, List.append_assoc, readPieces_piece hp, ih hps, List.reverse_cons,
      List.append_assoc, List.singleton_append, List.length_append, Nat.add_assoc]

/-- One variable for each term that is owed completes the pieces. -/
theorem exists_terms (h : Owing n ps m) :
    ∃ ts : List Term, ts.length = n ∧
      ts.flatMap Term.pieces = ps ++ List.replicate m (.var 0) := by
  induction h with
  | nothing n =>
    refine ⟨List.replicate n (.var 0), List.length_replicate, ?_⟩
    rw [List.flatMap_replicate]
    exact List.flatten_replicate_singleton
  | @piece n m p ps _ ih =>
    obtain ⟨ts, hlen, hts⟩ := ih
    rw [List.cons_append, ← hts]
    -- a piece takes as many terms as follow it, and makes one of them
    cases p with
    | var i => exact ⟨.var i :: ts, congrArg Nat.succ hlen, rfl⟩
    | lam =>
      match ts, hlen with
      | b :: ts, hlen => exact ⟨.lam b :: ts, hlen, rfl⟩
    | app =>
      match ts, hlen with
      | f :: a :: ts, hlen =>
        refine ⟨.app f a :: ts, Nat.succ.inj hlen, ?_⟩
        simp only [List.flatMap_cons, Term.pieces, List.cons_append, List.append_assoc]

theorem exists_term (h : Owing 1 ps m) :
    ∃ t : Term, t.pieces = ps ++ List.replicate m (.var 0) := by
  obtain ⟨ts, hlen, hts⟩ := h.exists_terms
  obtain ⟨t, rfl⟩ := List.length_eq_one_iff.mp hlen
  exact ⟨t, by rwa [List.flatMap_cons, List.flatMap_nil, List.append_nil] at hts⟩

/-- A term pays for itself. -/
theorem of_pieces (t : Term) : ∀ n, Owing (n + 1) t.pieces n := by
  induction t with
  | var i =>
    intro n
    exact .piece (.nothing n)
  | lam b ih =>
    intro n
    exact .piece (ih n)
  | app f a ihf iha =>
    intro n
    exact .piece (owing_append_iff.mpr ⟨n + 1, ihf (n + 1), iha n⟩)

/-- Before its last piece, something is owed of a term. -/
theorem of_pieces_append {t : Term} {p : WirePiece} {rest : List WirePiece}
    (h : t.pieces = ps ++ p :: rest) : ∃ m, Owing 1 ps (m + 1) := by
  have hall := of_pieces t 0
  rw [h] at hall
  obtain ⟨k, hps, hrest⟩ := owing_append_iff.mp hall
  cases hrest with
  | piece _ => exact ⟨_, hps⟩

end Owing

/-- All bytes are some pieces, up to where all terms have come or no whole piece can be taken. -/
theorem exists_owing (n : Nat) (d : List UInt8) :
    ∃ (ps : List WirePiece) (m : Nat) (rest : List UInt8),
      Owing n ps m ∧ (∀ p ∈ ps, p.Fits) ∧ d = ps.flatMap WirePiece.bytes ++ rest ∧
      (m = 0 ∨
        (∃ p : WirePiece, p.Fits ∧ p.Cut rest) ∨
        (∃ g more, rest = g :: more ∧ ¬ IsTag g)) := by
  -- on the number of bytes, since every piece takes some
  induction hlen : d.length using Nat.strong_induction_on generalizing n d with
  | _ len ih =>
    rcases n with - | n
    · exact ⟨[], 0, d, .nothing 0, List.forall_mem_nil _, rfl, Or.inl rfl⟩
    · rcases exists_piece d with ⟨p, more, hp, rfl⟩ | hstop
      · have hlt : more.length < len := by
          have hpos := List.length_pos_iff.mpr p.bytes_ne_nil
          rw [List.length_append] at hlen
          omega
        obtain ⟨ps, m, rest, howing, hfits, rfl, hend⟩ := ih _ hlt (n + p.arity) more rfl
        refine ⟨p :: ps, m, rest, .piece howing, List.forall_mem_cons.mpr ⟨hp, hfits⟩, ?_, hend⟩
        rw [List.flatMap_cons, List.append_assoc]
      · exact ⟨[], n + 1, d, .nothing (n + 1), List.forall_mem_nil _, rfl, Or.inr hstop⟩

/-! ### The law -/

namespace Term

/-- In the binary form of the term, position `n` lies in the piece that begins at position
`o`. -/
def PieceSpans (t : Term) (o n : Nat) : Prop :=
  ∃ passed p rest, t.pieces = passed ++ p :: rest ∧
    (passed.flatMap WirePiece.bytes).length = o ∧ o ≤ n ∧ n < o + p.bytes.length

/-- The bytes are some first pieces of the term, all of them whole. -/
def BeginsWithPieces (t : Term) (d : List UInt8) : Prop :=
  ∃ passed rest, t.pieces = passed ++ rest ∧ d = passed.flatMap WirePiece.bytes

end Term

/-- The bytes `d` warrant the answer: it says of them what is true among the binary forms of all
terms. -/
def Warrants (d : List UInt8) : Except DecodeError Term → Prop
  | .error .empty => d = []
  | .ok t => t.encode = .ok d
  | .error (.trailing o) => o < d.length ∧ ∃ t : Term, t.encode = .ok (d.take o)
  | .error (.incomplete o) =>
    d ≠ [] ∧ ∃ (t : Term) (e : List UInt8),
      t.encode = .ok e ∧ d <+: e ∧ d ≠ e ∧ t.PieceSpans o d.length
  | .error (.badTag g o) =>
    (∃ (t : Term) (e : List UInt8),
      t.encode = .ok e ∧ d.take o <+: e ∧ d.take o ≠ e ∧ t.BeginsWithPieces (d.take o)) ∧
    d[o]? = some g ∧ ¬ IsTag g

/-! ### Something is said of all bytes -/

/-- What stops within a piece of a term is a proper prefix of its binary form. -/
theorem prefix_of_cut {p : WirePiece} {part : List UInt8} (hcut : p.Cut part)
    (ps rest : List WirePiece) :
    ps.flatMap WirePiece.bytes ++ part <+: (ps ++ p :: rest).flatMap WirePiece.bytes ∧
    ps.flatMap WirePiece.bytes ++ part ≠ (ps ++ p :: rest).flatMap WirePiece.bytes := by
  rw [List.flatMap_append, List.flatMap_cons]
  constructor
  · exact (List.prefix_append_right_inj _).mpr (hcut.1.trans (List.prefix_append _ _))
  · intro heq
    have hlength := congrArg List.length (List.append_cancel_left heq)
    have hlt := hcut.length_lt
    rw [List.length_append] at hlength
    omega

namespace Owing

variable {m : Nat} {ps : List WirePiece}

theorem encode_completed (h : Owing 1 ps m) (hfits : ∀ p ∈ ps, p.Fits) :
    ∃ t : Term, t.pieces = ps ++ List.replicate m (.var 0) ∧
      t.encode = .ok (t.pieces.flatMap WirePiece.bytes) := by
  obtain ⟨t, ht⟩ := h.exists_term
  refine ⟨t, ht, Term.encode_eq_ok_iff_pieces.mpr ⟨?_, rfl⟩⟩
  rw [ht]
  refine List.forall_mem_append.mpr ⟨hfits, fun p hp => ?_⟩
  obtain rfl := List.eq_of_mem_replicate hp
  exact (by decide : 0 < indexLimit)

/-- Where one whole term has come, the bytes are its binary form or go on after it. -/
theorem warrants_of_paid (h : Owing 1 ps 0) (hfits : ∀ p ∈ ps, p.Fits) (rest : List UInt8) :
    ∃ v, Warrants (ps.flatMap WirePiece.bytes ++ rest) v := by
  obtain ⟨t, ht, hencode⟩ := h.encode_completed hfits
  rw [ht, List.replicate_zero, List.append_nil] at hencode
  rcases rest with - | ⟨b, rest⟩
  · refine ⟨.ok t, ?_⟩
    rw [List.append_nil]
    exact hencode
  · refine ⟨.error (.trailing (ps.flatMap WirePiece.bytes).length), ?_, t, ?_⟩
    · rw [List.length_append, List.length_cons]
      omega
    · rw [List.take_left]
      exact hencode

/-- Where the bytes end within a piece, or before it, they are incomplete from that piece on. -/
theorem warrants_incomplete (h : Owing 1 ps (m + 1)) (hfits : ∀ p ∈ ps, p.Fits) {p : WirePiece}
    (hp : p.Fits) {rest : List UInt8} (hcut : p.Cut rest)
    (hempty : ps.flatMap WirePiece.bytes ++ rest ≠ []) :
    Warrants (ps.flatMap WirePiece.bytes ++ rest)
      (.error (.incomplete (ps.flatMap WirePiece.bytes).length)) := by
  -- the piece that is cut off is the first of those that complete the term
  have hnext : Owing 1 (ps ++ [p]) (m + p.arity) :=
    owing_append_iff.mpr ⟨m + 1, h, .piece (.nothing _)⟩
  obtain ⟨t, ht, hencode⟩ := hnext.encode_completed
    (List.forall_mem_append.mpr ⟨hfits, List.forall_mem_singleton.mpr hp⟩)
  rw [List.append_assoc, List.singleton_append] at ht
  obtain ⟨hbegins, hproper⟩ := prefix_of_cut hcut ps (List.replicate (m + p.arity) (.var 0))
  rw [← ht] at hbegins hproper
  refine ⟨hempty, t, _, hencode, hbegins, hproper, ps, p, _, ht, rfl, ?_, ?_⟩
  · rw [List.length_append]
    exact Nat.le_add_right _ _
  · rw [List.length_append]
    exact Nat.add_lt_add_left hcut.length_lt _

/-- Where a piece is owed and no tag stands, there is a bad tag. -/
theorem warrants_badTag (h : Owing 1 ps (m + 1)) (hfits : ∀ p ∈ ps, p.Fits) {g : UInt8}
    (hg : ¬ IsTag g) (more : List UInt8) :
    Warrants (ps.flatMap WirePiece.bytes ++ g :: more)
      (.error (.badTag g (ps.flatMap WirePiece.bytes).length)) := by
  obtain ⟨t, ht, hencode⟩ := h.encode_completed hfits
  obtain ⟨hbegins, hproper⟩ :=
    prefix_of_cut (WirePiece.cut_nil (.var 0)) ps (List.replicate m (.var 0))
  rw [← List.replicate_succ, ← ht, List.append_nil] at hbegins hproper
  refine ⟨⟨t, _, hencode, ?_⟩, ?_, hg⟩
  · rw [List.take_left]
    exact ⟨hbegins, hproper, ps, _, ht, rfl⟩
  · rw [List.getElem?_append_right (Nat.le_refl _), Nat.sub_self]
    rfl

end Owing

theorem exists_warrants (d : List UInt8) : ∃ v, Warrants d v := by
  by_cases hempty : d = []
  · exact ⟨.error .empty, hempty⟩
  · obtain ⟨ps, m, rest, howing, hfits, rfl, hend⟩ := exists_owing 1 d
    rcases m with - | m
    · exact howing.warrants_of_paid hfits rest
    · rcases hend with hzero | ⟨p, hp, hcut⟩ | ⟨g, more, rfl, hg⟩
      · exact absurd hzero (Nat.succ_ne_zero m)
      · exact ⟨_, howing.warrants_incomplete hfits hp hcut hempty⟩
      · exact ⟨_, howing.warrants_badTag hfits hg more⟩

/-! ### What is said is what decoding answers -/

namespace Term

theorem decode_of_readPieces {d : List UInt8} {e : DecodeError} (hne : d ≠ [])
    (h : readPieces [] 0 1 d = .error e) : decode d = .error e := by
  rw [decode, if_neg (fun hempty => hne (List.isEmpty_iff.mp hempty)), h]

theorem decode_append {t : Term} {e rest : List UInt8} (he : t.encode = .ok e)
    (hne : rest ≠ []) : decode (e ++ rest) = .error (.trailing e.length) := by
  obtain ⟨hfits, rfl⟩ := encode_eq_ok_iff.mp he
  refine decode_of_readPieces (List.append_ne_nil_of_right_ne_nil _ hne) ?_
  obtain ⟨b, more, rfl⟩ := List.exists_cons_of_ne_nil hne
  rw [← bytesOnto_append, List.nil_append, readPieces_bytesOnto hfits, Nat.zero_add, readPieces]

variable {t : Term} {passed rest : List WirePiece} {p : WirePiece}

/-- The scan comes to every piece of a term while something is owed. -/
theorem exists_readPieces (hfits : ∀ q ∈ t.pieces, q.Fits) (ht : t.pieces = passed ++ p :: rest) :
    ∃ m, ∀ more, readPieces [] 0 1 (passed.flatMap WirePiece.bytes ++ more)
      = readPieces passed.reverse (passed.flatMap WirePiece.bytes).length (m + 1) more := by
  obtain ⟨m, howing⟩ := Owing.of_pieces_append ht
  rw [ht] at hfits
  refine ⟨m, fun more => ?_⟩
  rw [howing.readPieces_eq (List.forall_mem_append.mp hfits).1, List.append_nil, Nat.zero_add]

theorem decode_of_cut {d e : List UInt8} {o : Nat} (hne : d ≠ []) (he : t.encode = .ok e)
    (hd : d <+: e) (hspan : t.PieceSpans o d.length) : decode d = .error (.incomplete o) := by
  obtain ⟨hfits, rfl⟩ := encode_eq_ok_iff_pieces.mp he
  obtain ⟨passed, p, rest, ht, rfl, hle, hlt⟩ := hspan
  rw [ht, List.flatMap_append, List.flatMap_cons] at hd
  -- the bytes are the pieces before the cut, and a part of the piece that it is in
  obtain ⟨part, rfl⟩ := List.prefix_of_prefix_length_le (List.prefix_append _ _) hd hle
  rw [List.length_append, Nat.add_lt_add_iff_left] at hlt
  have hpart : part <+: p.bytes :=
    List.prefix_of_prefix_length_le ((List.prefix_append_right_inj _).mp hd)
      (List.prefix_append _ _) (Nat.le_of_lt hlt)
  have hcut : p.Cut part := ⟨hpart, fun heq => Nat.ne_of_lt hlt (congrArg List.length heq)⟩
  obtain ⟨m, hread⟩ := exists_readPieces hfits ht
  exact decode_of_readPieces hne ((hread part).trans (readPieces_of_cut hcut))

theorem decode_of_not_tag (hfits : ∀ q ∈ t.pieces, q.Fits) (ht : t.pieces = passed ++ p :: rest)
    {g : UInt8} (hg : ¬ IsTag g) (more : List UInt8) :
    decode (passed.flatMap WirePiece.bytes ++ g :: more)
      = .error (.badTag g (passed.flatMap WirePiece.bytes).length) := by
  obtain ⟨m, hread⟩ := exists_readPieces hfits ht
  refine decode_of_readPieces (List.append_ne_nil_of_right_ne_nil _ (List.cons_ne_nil g more)) ?_
  exact (hread _).trans (readPieces_of_not_tag hg more)

end Term

theorem Warrants.decode_eq {d : List UInt8} {v : Except DecodeError Term} (h : Warrants d v) :
    Term.decode d = v := by
  cases v with
  | ok t => exact Term.decode_eq_ok_iff.mpr (Term.encode_eq_ok_iff.mp h)
  | error fault =>
    cases fault with
    | empty =>
      obtain rfl : d = [] := h
      rfl
    | trailing o =>
      obtain ⟨ho, t, he⟩ := h
      have hne : d.drop o ≠ [] := fun hnil => Nat.not_le.mpr ho (List.drop_eq_nil_iff.mp hnil)
      have hdecode := Term.decode_append he hne
      rwa [List.take_append_drop, List.length_take_of_le (Nat.le_of_lt ho)] at hdecode
    | incomplete o =>
      obtain ⟨hne, t, e, he, hd, -, hspan⟩ := h
      exact Term.decode_of_cut hne he hd hspan
    | badTag g o =>
      obtain ⟨⟨t, e, he, -, hproper, passed, rest, ht, hpassed⟩, hget, hg⟩ := h
      obtain ⟨hfits, rfl⟩ := Term.encode_eq_ok_iff_pieces.mp he
      obtain ⟨ho, rfl⟩ := List.getElem?_eq_some_iff.mp hget
      rcases rest with - | ⟨p, rest⟩
      · -- with no piece left, the bytes before the tag would be the whole binary form
        rw [ht, List.append_nil] at hproper
        exact absurd hpassed hproper
      · have hdecode := Term.decode_of_not_tag hfits ht hg (d.drop (o + 1))
        rwa [← hpassed, List.getElem_cons_drop, List.take_append_drop,
          List.length_take_of_le (Nat.le_of_lt ho)] at hdecode

/-- Every position within the bytes of some pieces lies in one of them. -/
theorem exists_piece_at {ps : List WirePiece} :
    ∀ {n : Nat}, n < (ps.flatMap WirePiece.bytes).length →
      ∃ passed p rest, ps = passed ++ p :: rest ∧
        (passed.flatMap WirePiece.bytes).length ≤ n ∧
        n < (passed.flatMap WirePiece.bytes).length + p.bytes.length := by
  induction ps with
  | nil =>
    intro n h
    exact absurd h (Nat.not_lt_zero n)
  | cons p ps ih =>
    intro n h
    rw [List.flatMap_cons, List.length_append] at h
    rcases Nat.lt_or_ge n p.bytes.length with hlt | hge
    · refine ⟨[], p, ps, rfl, Nat.zero_le n, ?_⟩
      rwa [List.flatMap_nil, List.length_nil, Nat.zero_add]
    · obtain ⟨passed, q, rest, rfl, hle, hlt⟩ := ih (n := n - p.bytes.length) (by omega)
      refine ⟨p :: passed, q, rest, rfl, ?_, ?_⟩
      · rw [List.flatMap_cons, List.length_append]
        omega
      · rw [List.flatMap_cons, List.length_append]
        omega

/-- **Decoding classifies all bytes.**  Of the answers that there are, exactly one is warranted
by the bytes, and it is the one that decoding gives.  In particular, bytes that are cut out of
the binary form of whatever term are incomplete from the piece on, in that term, where the cut
is. -/
theorem Term.decode_classifies (d : List UInt8) :
    (∃! v, Warrants d v) ∧
    (∀ v, decode d = v ↔ Warrants d v) ∧
    (∀ (t : Term) (e : List UInt8), t.encode = .ok e → d <+: e → d ≠ e → d ≠ [] →
      ∃ o, t.PieceSpans o d.length ∧ decode d = .error (.incomplete o)) := by
  obtain ⟨v, hv⟩ := exists_warrants d
  refine ⟨⟨v, hv, fun w hw => ?_⟩, fun w => ⟨?_, Warrants.decode_eq⟩,
    fun t e he hd hproper hne => ?_⟩
  · exact hw.decode_eq.symm.trans hv.decode_eq
  · rintro rfl
    rwa [hv.decode_eq]
  · have hlt : d.length < e.length :=
      Nat.lt_of_le_of_ne hd.length_le fun heq => hproper (hd.eq_of_length heq)
    rw [(encode_eq_ok_iff_pieces.mp he).2] at hlt
    obtain ⟨passed, p, rest, ht, hle, hlt⟩ := exists_piece_at hlt
    have hspan : t.PieceSpans (passed.flatMap WirePiece.bytes).length d.length :=
      ⟨passed, p, rest, ht, rfl, hle, hlt⟩
    exact ⟨_, hspan, decode_of_cut hne he hd hspan⟩

/-- The binary form of `(λ. 5) 0` cut after two bytes of its first index, which begins at
byte 2. -/
theorem Term.decode_classifies_cut_index :
    let t := app (lam (var 5)) (var 0)
    let e : List UInt8 := [3, 2, 1, 5, 0, 0, 0, 0, 0, 0, 0, 1, 0, 0, 0, 0, 0, 0, 0, 0]
    let d : List UInt8 := [3, 2, 1, 5, 0]
    t.encode = .ok e ∧ d <+: e ∧ d ≠ e ∧ d ≠ [] ∧
    (∃ o, t.PieceSpans o 5 ∧ decode d = .error (.incomplete o)) ∧
    Warrants d (.error (.incomplete 2)) := by
  intro t e d
  obtain ⟨-, hiff, hcut⟩ := decode_classifies d
  have he : t.encode = .ok e := by decide +kernel
  have hd : d <+: e := by decide
  have hproper : d ≠ e := by decide
  have hne : d ≠ [] := List.cons_ne_nil _ _
  exact ⟨he, hd, hproper, hne, hcut t e he hd hproper hne, (hiff _).mp (by decide +kernel)⟩

end Nameless
