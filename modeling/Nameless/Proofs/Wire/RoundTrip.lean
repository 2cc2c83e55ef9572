/-
Nameless/Proofs/Wire/RoundTrip.lean

The binary form is exact: a term has one if and only if its indices fit, and bytes are
decoded to a term if and only if they are its binary form.

Decoding goes over the bytes twice.  Reading finds pieces, newest first, and counts the
terms that are owed; assembling puts the pieces together again from the newest on.  What
lies between the two is `Term.piecesOnto`, the pieces of a term in the order in which they
are found:

* reading the binary form of a term finds its pieces and pays one term
  (`readPieces_bytesOnto`);
* whatever is read when `n` terms are owed are the pieces of `n` terms, and the bytes are
  the binary forms of these terms, one after the other (`exists_terms_of_readPieces`);
* the pieces of a term are assembled to that term on top of the stack
  (`assemblePieces_piecesOnto`), so the stack never runs empty and one term is left.
-/
import Mathlib.Algebra.Group.Nat.Defs
import Nameless.Proofs.Term.FreeIndices
import Nameless.Wire

namespace Nameless

/-! ### Numbers in bytes -/

theorem littleEndianOnto_append (k n : Nat) (xs ys : List UInt8) :
    littleEndianOnto k n (xs ++ ys) = littleEndianOnto k n xs ++ ys := by
  induction k generalizing n with
  | zero => rfl
  | succ k ih => rw [littleEndianOnto, littleEndianOnto, ih, List.cons_append]

theorem length_littleEndianOnto (k n : Nat) : (littleEndianOnto k n []).length = k := by
  induction k generalizing n with
  | zero => rfl
  | succ k ih => rw [littleEndianOnto, List.length_cons, ih]

/-- A number that fits is read back from its bytes. -/
theorem ofLittleEndian_littleEndianOnto {k n : Nat} (h : n < 256 ^ k) :
    ofLittleEndian (littleEndianOnto k n []) = n := by
  induction k generalizing n with
  | zero =>
    rw [littleEndianOnto, ofLittleEndian]
    omega
  | succ k ih =>
    have hdiv : n / 256 < 256 ^ k := by
      rw [Nat.div_lt_iff_lt_mul (by decide), ← Nat.pow_succ]
      exact h
    rw [littleEndianOnto, ofLittleEndian, ih hdiv, UInt8.toNat_ofNat']
    exact Nat.mod_add_div n 256

theorem ofLittleEndian_lt (word : List UInt8) : ofLittleEndian word < 256 ^ word.length := by
  induction word with
  | nil => exact Nat.one_pos
  | cons b word ih =>
    have hb : b.toNat < 256 := b.toNat_lt
    rw [ofLittleEndian, List.length_cons, Nat.pow_succ]
    omega

/-- Bytes are the only ones of their number that stand for what they stand for. -/
theorem littleEndianOnto_ofLittleEndian (word rest : List UInt8) :
    littleEndianOnto word.length (ofLittleEndian word) rest = word ++ rest := by
  induction word with
  | nil => rfl
  | cons b word ih =>
    have hb : b.toNat < 256 := b.toNat_lt
    have hlow : UInt8.ofNat (b.toNat + 256 * ofLittleEndian word) = b := by
      apply UInt8.toNat_inj.mp
      rw [UInt8.toNat_ofNat', Nat.add_mul_mod_self_left, Nat.mod_eq_of_lt hb]
    have hhigh : (b.toNat + 256 * ofLittleEndian word) / 256 = ofLittleEndian word := by
      omega
    rw [List.length_cons, ofLittleEndian, littleEndianOnto, hlow, hhigh, ih, List.cons_append]

/-! ### Reading one piece -/

section Pieces

variable {found : List WirePiece} {offset owed : Nat}

/-- An index pays one of the terms owed. -/
theorem readPieces_var {word : List UInt8} (hword : word.length = 8) (rest : List UInt8) :
    readPieces found offset (owed + 1) (tags.var :: (word ++ rest))
      = readPieces (.var (ofLittleEndian word) :: found) (offset + 9) owed rest := by
  match word, hword with
  | [b₀, b₁, b₂, b₃, b₄, b₅, b₆, b₇], _ =>
    rw [readPieces.eq_def]
    exact if_pos rfl

/-- An abstraction still owes its body. -/
theorem readPieces_lam (rest : List UInt8) :
    readPieces found offset (owed + 1) (tags.lam :: rest)
      = readPieces (.lam :: found) (offset + 1) (owed + 1) rest := by
  rw [readPieces.eq_def]
  exact (if_neg (by decide)).trans (if_pos rfl)

/-- An application owes two terms for one. -/
theorem readPieces_app (rest : List UInt8) :
    readPieces found offset (owed + 1) (tags.app :: rest)
      = readPieces (.app :: found) (offset + 1) (owed + 2) rest := by
  rw [readPieces.eq_def]
  exact (if_neg (by decide)).trans ((if_neg (by decide)).trans (if_pos rfl))

end Pieces

/-! ### The pieces of a term -/

namespace Term

/-- Every index can be written in eight bytes. -/
def Fits (t : Term) : Prop :=
  t.EachIndex (· < indexLimit)

theorem fits_var_iff {i : Nat} : (var i).Fits ↔ i < 256 ^ 8 := by
  rw [Fits, EachIndex, show indexLimit = 256 ^ 8 by decide]

/-- The pieces of a term in the order in which they are found, newest first in front of
those found before. -/
def piecesOnto : Term → List WirePiece → List WirePiece
  | var i, found => .var i :: found
  | lam b, found => b.piecesOnto (.lam :: found)
  | app f a, found => a.piecesOnto (f.piecesOnto (.app :: found))

theorem bytesOnto_append (t : Term) (xs ys : List UInt8) :
    t.bytesOnto (xs ++ ys) = t.bytesOnto xs ++ ys := by
  induction t generalizing xs with
  | var i => rw [bytesOnto, bytesOnto, littleEndianOnto_append, List.cons_append]
  | lam b ih => rw [bytesOnto, bytesOnto, ih, List.cons_append]
  | app f a ihf iha => rw [bytesOnto, bytesOnto, iha, ihf, List.cons_append]

theorem length_bytesOnto (t : Term) (rest : List UInt8) :
    (t.bytesOnto rest).length = (t.bytesOnto []).length + rest.length := by
  rw [← List.length_append, ← bytesOnto_append, List.nil_append]

theorem bytesOnto_ne_nil (t : Term) (rest : List UInt8) : t.bytesOnto rest ≠ [] := by
  cases t <;> exact List.cons_ne_nil _ _

/-- Reading the binary form of a term finds its pieces and pays one term. -/
theorem readPieces_bytesOnto {t : Term} (ht : t.Fits) (found : List WirePiece)
    (offset owed : Nat) (rest : List UInt8) :
    readPieces found offset (owed + 1) (t.bytesOnto rest)
      = readPieces (t.piecesOnto found) (offset + (t.bytesOnto []).length) owed rest := by
  induction t generalizing found offset owed rest with
  | var i =>
    have hword := length_littleEndianOnto 8 i
    have hvalue : ofLittleEndian (littleEndianOnto 8 i []) = i :=
      ofLittleEndian_littleEndianOnto (fits_var_iff.mp ht)
    rw [bytesOnto, ← List.nil_append rest, littleEndianOnto_append, readPieces_var hword, hvalue,
      bytesOnto, List.length_cons, hword]
    rfl
  | lam b ih =>
    rw [bytesOnto, readPieces_lam, ih ht, bytesOnto, List.length_cons, piecesOnto]
    congr 1
    omega
  | app f a ihf iha =>
    obtain ⟨hf, ha⟩ := ht
    rw [bytesOnto, readPieces_app, ihf hf, iha ha, bytesOnto, List.length_cons,
      f.length_bytesOnto (a.bytesOnto []), piecesOnto]
    congr 1
    omega

/-- The pieces of a term are put together to that term. -/
theorem assemblePieces_piecesOnto (t : Term) (found : List WirePiece) (done : List Term) :
    assemblePieces (t.piecesOnto found) done = assemblePieces found (t :: done) := by
  induction t generalizing found done with
  | var i => rfl
  | lam b ih =>
    rw [piecesOnto, ih]
    rfl
  | app f a ihf iha =>
    -- the argument is finished first, so the function lies on top of it
    rw [piecesOnto, iha, ihf]
    rfl

end Term

/-! ### What is read -/

/-- Pieces that pay `owed` terms are the pieces of that many terms, and the bytes they are
read from are the binary forms of these terms. -/
theorem exists_terms_of_readPieces {found pieces : List WirePiece} {offset owed : Nat}
    {bytes : List UInt8} (h : readPieces found offset owed bytes = .ok pieces) :
    ∃ ts : List Term, ts.length = owed ∧ (∀ t ∈ ts, t.Fits) ∧
      bytes = ts.foldr Term.bytesOnto [] ∧
      pieces = ts.foldl (fun found t => t.piecesOnto found) found := by
  -- a piece turns the terms that are owed after it into those that were owed before it
  fun_induction readPieces found offset owed bytes with
  | case1 found offset =>
    obtain rfl := Except.ok.inj h
    exact ⟨[], rfl, List.forall_mem_nil _, rfl, rfl⟩
  | case2 => cases h
  | case3 => cases h
  | case4 found offset owed b₀ b₁ b₂ b₃ b₄ b₅ b₆ b₇ more ih =>
    obtain ⟨ts, hlen, hfits, rfl, rfl⟩ := ih h
    have hindex : (Term.var (ofLittleEndian [b₀, b₁, b₂, b₃, b₄, b₅, b₆, b₇])).Fits :=
      Term.fits_var_iff.mpr (ofLittleEndian_lt _)
    refine ⟨_ :: ts, congrArg Nat.succ hlen, List.forall_mem_cons.mpr ⟨hindex, hfits⟩, ?_, rfl⟩
    rw [List.foldr_cons, Term.bytesOnto]
    exact congrArg _
      (littleEndianOnto_ofLittleEndian [b₀, b₁, b₂, b₃, b₄, b₅, b₆, b₇] _).symm
  | case5 => cases h
  | case6 found offset owed rest _ ih =>
    obtain ⟨ts, hlen, hfits, rfl, rfl⟩ := ih h
    match ts, hlen, hfits with
    | b :: ts, hlen, hfits =>
      obtain ⟨hb, hfits⟩ := List.forall_mem_cons.mp hfits
      exact ⟨.lam b :: ts, hlen, List.forall_mem_cons.mpr ⟨hb, hfits⟩, rfl, rfl⟩
  | case7 found offset owed rest _ _ ih =>
    obtain ⟨ts, hlen, hfits, rfl, rfl⟩ := ih h
    match ts, hlen, hfits with
    | f :: a :: ts, hlen, hfits =>
      obtain ⟨hf, hfits⟩ := List.forall_mem_cons.mp hfits
      obtain ⟨ha, hfits⟩ := List.forall_mem_cons.mp hfits
      exact ⟨.app f a :: ts, Nat.succ.inj hlen, List.forall_mem_cons.mpr ⟨⟨hf, ha⟩, hfits⟩,
        rfl, rfl⟩
  | case8 => cases h

namespace Term

/-! ### Decoding and encoding -/

/-- The bytes that are decoded to a term are its binary form. -/
theorem decode_eq_ok_iff {bytes : List UInt8} {t : Term} :
    decode bytes = .ok t ↔ t.Fits ∧ bytes = t.bytesOnto [] := by
  constructor
  · intro h
    rw [decode] at h
    split at h
    · cases h
    · split at h
      · cases h
      · next pieces hread =>
        obtain ⟨ts, hlen, hfits, hbytes, rfl⟩ := exists_terms_of_readPieces hread
        obtain ⟨u, rfl⟩ := List.length_eq_one_iff.mp hlen
        rw [List.foldl_cons, List.foldl_nil, assemblePieces_piecesOnto, assemblePieces] at h
        obtain rfl := Except.ok.inj h
        exact ⟨hfits u List.mem_cons_self, hbytes⟩
  · rintro ⟨ht, rfl⟩
    have hne : (t.bytesOnto []).isEmpty ≠ true := fun h =>
      t.bytesOnto_ne_nil [] (List.isEmpty_iff.mp h)
    rw [decode, if_neg hne, readPieces_bytesOnto ht, readPieces]
    simp only [assemblePieces_piecesOnto, assemblePieces]

theorem wideIndex?_eq_none_iff {t : Term} : t.wideIndex? = none ↔ t.Fits := by
  induction t with
  | var i =>
    show (if i < indexLimit then none else some i) = none ↔ i < indexLimit
    split <;> simp_all
  | lam b ih => exact ih
  | app f a ihf iha =>
    show (f.wideIndex?.orElse fun _ => a.wideIndex?) = none ↔ f.Fits ∧ a.Fits
    rw [Option.orElse_eq_or, Option.or_eq_none_iff, ihf, iha]

theorem encode_eq_ok_iff {t : Term} {bytes : List UInt8} :
    t.encode = .ok bytes ↔ t.Fits ∧ bytes = t.bytesOnto [] := by
  rw [← wideIndex?_eq_none_iff, encode]
  cases t.wideIndex? with
  | some i => simp
  | none => simp [eq_comm]

/-- **The binary form is exact.**  A term is encoded if and only if all its indices are below
2^64, and it is encoded as the bytes `bytes` if and only if these are decoded to it: decoding
undoes encoding, and no other bytes than the binary form of a term are decoded to it. -/
theorem encode_iff_decode :
    (∀ t : Term, (∃ bytes, t.encode = .ok bytes) ↔ t.EachIndex (· < 2 ^ 64)) ∧
      ∀ (t : Term) (bytes : List UInt8), t.encode = .ok bytes ↔ decode bytes = .ok t := by
  constructor
  · intro t
    simp only [encode_eq_ok_iff, exists_and_left, exists_eq, and_true]
    rfl
  · intro t bytes
    rw [encode_eq_ok_iff, decode_eq_ok_iff]

end Term

end Nameless
