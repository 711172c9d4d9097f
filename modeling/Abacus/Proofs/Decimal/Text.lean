import Abacus.Proofs.Binary64.Bits
import Abacus.Proofs.Decimal.Shortest
import Abacus.Proofs.Text.Lexemes

/-!
# The texts of doubles are numerals

A numeral is scanned as it is written (`Numeral.scan?_chars`). The text of a finite double that is
not negative is a numeral, and reading it gives the double back (`exists_numeral`), whichever layout
is used: the digits of the shortest decimal are all there, and the point, the zeros and the power of
ten that are added say where they count.
-/

namespace Abacus.Decimal

open Binary64

/-! ### Digits -/

theorem ofDigits_append (xs ys : List Char) :
    ofDigits (xs ++ ys) = ofDigits xs * 10 ^ ys.length + ofDigits ys := by
  induction ys using List.reverseRecOn with
  | nil => simp [ofDigits]
  | append_singleton ys y ih =>
    rw [← List.append_assoc]
    simp only [ofDigits, List.foldl_append, List.foldl_cons, List.foldl_nil, List.length_append,
      List.length_singleton, pow_succ] at ih ⊢
    rw [ih]
    ring

theorem ofDigits_zeros (k : ℕ) : ofDigits (List.replicate k '0') = 0 := by
  induction k with
  | zero => rfl
  | succ k ih =>
    rw [List.replicate_succ', ofDigits_append, ih]
    rfl

theorem ofDigits_digitChars (n : ℕ) : ofDigits (digitChars n) = n := Nat.ofDigitChars_ten_toDigits

theorem digitChars_ne_nil (n : ℕ) : digitChars n ≠ [] := Nat.toDigits_ne_nil

/-! ### Numerals and their texts -/

namespace Numeral

/-- The text of a power of ten. -/
def powerChars : Option ℤ → List Char
  | some e => 'e' :: intChars e
  | none => []

/-- The text of a numeral. -/
def chars (n : Numeral) : List Char :=
  n.whole ++ ((if n.hasPoint then '.' :: n.decimals else []) ++ powerChars n.power)

/-- A numeral of digits, with digits in front of the point. -/
structure IsWritten (n : Numeral) : Prop where
  whole_ne_nil : n.whole ≠ []
  whole : ∀ c ∈ n.whole, isDigit c
  decimals : ∀ c ∈ n.decimals, isDigit c
  decimals_eq_nil : n.hasPoint = false → n.decimals = []

/-- A text that does not continue a numeral. -/
def EndsNumeral (rest : List Char) : Prop :=
  ∀ c ∈ rest.head?, isDigit c = false ∧ c ≠ '.' ∧ c ≠ 'e' ∧ c ≠ 'E'

/-- A power of ten is read up to a text that starts with no digit. -/
theorem scanPower_digits {ds rest : List Char} (hne : ds ≠ []) (hds : ∀ d ∈ ds, isDigit d)
    (hrest : ∀ c ∈ rest.head?, isDigit c = false) :
    scanPower ('e' :: (ds ++ rest)) = (some (ofDigits ds : ℤ), rest) ∧
      scanPower ('e' :: '-' :: (ds ++ rest)) = (some (-(ofDigits ds : ℤ)), rest) := by
  obtain ⟨htake, hdrop⟩ := Lexeme.span_append hds hrest
  obtain ⟨d, ds, rfl⟩ := List.exists_cons_of_ne_nil hne
  have hd : isDigit d := hds d List.mem_cons_self
  have hminus : d ≠ '-' := by rintro rfl; cases hd
  have hplus : d ≠ '+' := by rintro rfl; cases hd
  rw [List.cons_append] at htake hdrop ⊢
  constructor
  · simp [scanPower, hminus, hplus, htake, hdrop]
  · simp [scanPower, htake, hdrop]

theorem scanPower_powerChars {rest : List Char} (hrest : EndsNumeral rest) (power : Option ℤ) :
    scanPower (powerChars power ++ rest) = (power, rest) := by
  cases power with
  | none =>
    cases rest with
    | nil => rfl
    | cons c rest =>
      obtain ⟨-, -, he, hE⟩ := hrest c rfl
      simp [powerChars, scanPower, he, hE]
  | some e =>
    obtain ⟨hplus, hminus⟩ := scanPower_digits (digitChars_ne_nil e.natAbs)
      (fun _ hc => Lexeme.isDigit_of_mem_digitChars hc) fun c hc => (hrest c hc).1
    rw [ofDigits_digitChars] at hplus hminus
    by_cases he : e < 0
    · have hchars : intChars e = '-' :: digitChars e.natAbs := if_pos he
      rw [powerChars, hchars, List.cons_append, List.cons_append, hminus,
        show -(e.natAbs : ℤ) = e by omega]
    · have hchars : intChars e = digitChars e.natAbs := if_neg he
      rw [powerChars, hchars, List.cons_append, hplus, show (e.natAbs : ℤ) = e by omega]

/-- **Numerals are scanned as they are written.** -/
theorem scan?_chars {n : Numeral} (hn : n.IsWritten) {rest : List Char} (hrest : EndsNumeral rest) :
    scan? (n.chars ++ rest) = some (n, rest) := by
  obtain ⟨whole, hasPoint, decimals, power⟩ := n
  obtain ⟨hne, hwhole, hdecimals, hnil⟩ := hn
  dsimp only at hne hwhole hdecimals hnil
  have hpower := scanPower_powerChars hrest power
  -- neither digits nor a point follow the digits in front of a power
  have hends : ∀ c ∈ (powerChars power ++ rest).head?, isDigit c = false ∧ c ≠ '.' := by
    cases power with
    | none => exact fun c hc => ⟨(hrest c hc).1, (hrest c hc).2.1⟩
    | some e =>
      rintro c ⟨⟩
      exact ⟨by decide, by decide⟩
  obtain ⟨d, ds, rfl⟩ := List.exists_cons_of_ne_nil hne
  cases hasPoint with
  | true =>
    have hpoint : ∀ c ∈ ('.' :: (decimals ++ (powerChars power ++ rest))).head?,
        isDigit c = false := by
      rintro c ⟨⟩
      decide
    obtain ⟨htake, hdrop⟩ := Lexeme.span_append hwhole hpoint
    obtain ⟨htake', hdrop'⟩ := Lexeme.span_append hdecimals fun c hc => (hends c hc).1
    have htext : chars ⟨d :: ds, true, decimals, power⟩ ++ rest =
        d :: ds ++ '.' :: (decimals ++ (powerChars power ++ rest)) := by
      simp [chars]
    rw [htext, scan?]
    simp only [htake, hdrop, htake', hdrop', hpower]
  | false =>
    obtain rfl := hnil rfl
    obtain ⟨htake, hdrop⟩ := Lexeme.span_append hwhole fun c hc => (hends c hc).1
    have htext : chars ⟨d :: ds, false, [], power⟩ ++ rest =
        d :: ds ++ (powerChars power ++ rest) := by
      simp [chars]
    rw [htext, scan?]
    simp only [htake, hdrop]
    split
    · next h _ => cases h
    · next h _ => cases h
    · next h _ => exact absurd rfl (hends '.' (by rw [h]; rfl)).2
    · rw [hpower]

end Numeral

/-! ### Layouts -/

/-- The natural that the digits of a numeral write, without regard to the point. -/
def Numeral.digits (n : Numeral) : ℕ := ofDigits (n.whole ++ n.decimals)

/-- The power of ten by which the digits of a numeral count. -/
def Numeral.exponent (n : Numeral) : ℤ := n.power.getD 0 - n.decimals.length

/-- A numeral writes a decimal: with its digits and exponent, or with zeros in place of the
exponent. -/
structure Numeral.Writes (n : Numeral) (d : Digits) : Prop where
  written : n.IsWritten
  toRat : (n.digits : ℚ) * 10 ^ n.exponent = d.toRat
  form : n.digits = d.digits ∧ n.exponent = d.exponent ∨ -1 ≤ n.exponent ∧ n.exponent ≤ 0

theorem Numeral.Writes.of_eq {n : Numeral} {d : Digits} (hn : n.IsWritten)
    (hdigits : n.digits = d.digits) (hexponent : n.exponent = d.exponent) : n.Writes d :=
  ⟨hn, by rw [hdigits, hexponent, Digits.toRat], .inl ⟨hdigits, hexponent⟩⟩

section

variable {d : Digits} {ds : List Char}

theorem isDigit_of_mem_zeros {k : ℕ} {c : Char} (hc : c ∈ List.replicate k '0') : isDigit c := by
  rw [List.eq_of_mem_replicate hc]
  rfl

/-- Zeros and all digits stand behind the point. -/
theorem writes_behindPoint (hds : ∀ c ∈ ds, isDigit c) (hvalue : ofDigits ds = d.digits)
    (hpoint : d.exponent + ds.length ≤ 0) :
    Numeral.Writes ⟨['0'], true, List.replicate (-(d.exponent + ds.length)).toNat '0' ++ ds, none⟩
      d := by
  refine .of_eq ⟨by simp, by simp [isDigit], ?_, fun h => by cases h⟩ ?_ ?_
  · intro c hc
    exact (List.mem_append.1 hc).elim isDigit_of_mem_zeros (hds c)
  · rw [Numeral.digits, ← List.append_assoc, ofDigits_append, ← hvalue]
    have hzero : ofDigits (['0'] ++ List.replicate (-(d.exponent + ds.length)).toNat '0') = 0 :=
      ofDigits_zeros (_ + 1)
    rw [hzero, Nat.zero_mul, Nat.zero_add]
  · simp only [Numeral.exponent, Option.getD_none, List.length_append, List.length_replicate]
    push_cast
    omega

/-- The point stands between the digits. -/
theorem writes_aroundPoint (hds : ∀ c ∈ ds, isDigit c) (hvalue : ofDigits ds = d.digits)
    (hneg : d.exponent < 0) (hpoint : 0 < d.exponent + ds.length) :
    Numeral.Writes ⟨ds.take (d.exponent + ds.length).toNat, true,
      ds.drop (d.exponent + ds.length).toNat, none⟩ d := by
  refine .of_eq ⟨?_, fun c hc => hds c (List.mem_of_mem_take hc),
    fun c hc => hds c (List.mem_of_mem_drop hc), fun h => by cases h⟩ ?_ ?_
  · rw [← List.length_pos_iff, List.length_take]
    omega
  · rw [Numeral.digits, List.take_append_drop, hvalue]
  · simp only [Numeral.exponent, Option.getD_none, List.length_drop]
    omega

/-- Zeros stand in place of a power of ten, and perhaps one behind a point. -/
theorem writes_integer (hne : ds ≠ []) (hds : ∀ c ∈ ds, isDigit c)
    (hvalue : ofDigits ds = d.digits) {k : ℕ} (hk : d.exponent = k) (pointZero : Bool) :
    Numeral.Writes ⟨ds ++ List.replicate k '0', pointZero, if pointZero then ['0'] else [], none⟩
      d := by
  refine ⟨⟨by simp [hne], ?_, ?_, fun hpoint => if_neg (Bool.eq_false_iff.1 hpoint)⟩, ?_, .inr ?_⟩
  · intro c hc
    exact (List.mem_append.1 hc).elim (hds c) isDigit_of_mem_zeros
  · cases pointZero <;> simp [isDigit]
  · -- a zero behind the point makes the digits ten times as many, and count a tenth
    have hdigits (decimals : List Char) (hzero : ofDigits decimals = 0) :
        ofDigits (ds ++ List.replicate k '0' ++ decimals) =
          d.digits * 10 ^ k * 10 ^ decimals.length := by
      rw [ofDigits_append, ofDigits_append, ofDigits_zeros, hzero, hvalue, List.length_replicate,
        Nat.add_zero, Nat.add_zero]
    have hdecimals : ofDigits (if pointZero then ['0'] else []) = 0 := by cases pointZero <;> rfl
    simp only [Numeral.digits, Numeral.exponent, hdigits _ hdecimals, Option.getD_none,
      Digits.toRat, hk]
    push_cast
    rw [zero_sub, zpow_neg, zpow_natCast, zpow_natCast]
    field_simp
  · cases pointZero <;> simp [Numeral.exponent]

/-- The positional text of a decimal. -/
theorem exists_positional (layout : Layout) (hne : ds ≠ []) (hds : ∀ c ∈ ds, isDigit c)
    (hvalue : ofDigits ds = d.digits) :
    ∃ n : Numeral, n.Writes d ∧ positionalChars layout ds (d.exponent + ds.length) = n.chars ∧
      n.hasPoint = (layout.pointZero || d.exponent < 0) := by
  have hlen := List.length_pos_iff.2 hne
  simp only [positionalChars]
  split
  · next hpoint =>
    have hneg : d.exponent < 0 := by omega
    refine ⟨_, writes_behindPoint hds hvalue hpoint, ?_, ?_⟩
    · simp [Numeral.chars, Numeral.powerChars]
    · simp [hneg]
  · next hpoint =>
    split
    · next hlt =>
      have hneg : d.exponent < 0 := by omega
      refine ⟨_, writes_aroundPoint hds hvalue hneg (by omega), ?_, ?_⟩
      · simp [Numeral.chars, Numeral.powerChars]
      · simp [hneg]
    · next hlt =>
      obtain ⟨k, hk⟩ := Int.eq_ofNat_of_zero_le (show 0 ≤ d.exponent by omega)
      have hzeros : (d.exponent + ds.length).toNat - ds.length = k := by omega
      have hneg : ¬ d.exponent < 0 := by omega
      refine ⟨_, writes_integer hne hds hvalue hk layout.pointZero, ?_, ?_⟩
      · rw [hzeros]
        cases layout.pointZero <;> simp [Numeral.chars, Numeral.powerChars]
      · simp [hneg]

/-- The text of a decimal with a power of ten. -/
theorem exists_scientific (hne : ds ≠ []) (hds : ∀ c ∈ ds, isDigit c)
    (hvalue : ofDigits ds = d.digits) :
    ∃ n : Numeral, n.Writes d ∧ scientificChars ds (d.exponent + ds.length - 1) = n.chars ∧
      n.power.isSome := by
  match ds, hne with
  | [c], _ =>
    refine ⟨⟨[c], false, [], some d.exponent⟩, .of_eq ?_ hvalue ?_, ?_, rfl⟩
    · exact ⟨by simp, hds, by simp, fun _ => rfl⟩
    · simp [Numeral.exponent]
    · simp [scientificChars, Numeral.chars, Numeral.powerChars]
  | c :: c' :: rest, _ =>
    refine ⟨⟨[c], true, c' :: rest, some (d.exponent + (c :: c' :: rest).length - 1)⟩,
      .of_eq ?_ hvalue ?_, ?_, rfl⟩
    · obtain ⟨hc, hrest⟩ := List.forall_mem_cons.1 hds
      exact ⟨by simp, by simpa using hc, hrest, nofun⟩
    · simp only [Numeral.exponent, Option.getD_some, List.length_cons]
      push_cast
      omega
    · simp [scientificChars, Numeral.chars, Numeral.powerChars]

end

/-- A positive decimal is written as a numeral. -/
theorem Digits.exists_numeral (layout : Layout) (d : Digits) :
    ∃ n : Numeral, n.Writes d ∧ d.chars layout = n.chars ∧
      (layout.pointZero → n.isInteger = false) := by
  have hds : ∀ c ∈ digitChars d.digits, isDigit c := fun _ hc =>
    Lexeme.isDigit_of_mem_digitChars hc
  unfold Digits.chars
  simp only
  split
  · obtain ⟨n, hwrites, hchars, hpoint⟩ :=
      exists_positional (d := d) layout (digitChars_ne_nil _) hds (ofDigits_digitChars _)
    refine ⟨n, hwrites, hchars, fun h => ?_⟩
    rw [Numeral.isInteger, hpoint, h]
    rfl
  · obtain ⟨n, hwrites, hchars, hpower⟩ :=
      exists_scientific (d := d) (digitChars_ne_nil _) hds (ofDigits_digitChars _)
    refine ⟨n, hwrites, hchars, fun _ => ?_⟩
    rw [Numeral.isInteger, Option.isNone_eq_false_iff.2 hpower, Bool.and_false]

/-- **The text of a double is a numeral that is read as the double**, if the double is finite and
not negative. Where integers end in a point and a zero, the numeral is none of an integer. -/
theorem exists_numeral {x : Float} {p : Parts} (h : parts? x = some p)
    (hsign : isNegative x = false) (layout : Layout) :
    ∃ n : Numeral, n.IsWritten ∧ chars layout x = n.chars ∧ n.toDouble false = x ∧
      (layout.pointZero → n.isInteger = false) := by
  obtain ⟨hp, hnegative, -⟩ := parts?_spec h
  have hx := ofMagnitude_bits h
  rw [hnegative, hsign] at hx
  have hchars : chars layout x =
      if p.significand = 0 then '0' :: (if layout.pointZero then ['.', '0'] else [])
      else (shortest p).chars layout := by
    simp only [chars, isNaN_eq_false h, hsign, h, Bool.false_eq_true, if_false]
  rw [hchars]
  split
  · next hzero =>
    -- zero has no shortest decimal, and is written as an integer
    have hwrites : Numeral.Writes
        ⟨['0'], layout.pointZero, if layout.pointZero then ['0'] else [], none⟩ ⟨0, 0⟩ :=
      @writes_integer ⟨0, 0⟩ ['0'] (by simp) (by simp [isDigit]) (ofDigits_zeros 1) 0 rfl _
    refine ⟨_, hwrites.written, ?_, ?_, ?_⟩
    · cases layout.pointZero <;> simp [Numeral.chars, Numeral.powerChars]
    · have hdigits : ofDigits (['0'] ++ if layout.pointZero then ['0'] else []) = 0 := by
        cases layout.pointZero <;> rfl
      have hbits : p.bits = 0 := by
        have hmin := hp.normal.resolve_left (by omega)
        simp [Parts.bits, hzero, hmin]
      have hdouble (e : ℤ) : toDouble false 0 e = ofMagnitude false 0 := rfl
      rw [Numeral.toDouble, hdigits, hdouble, ← hbits, hx]
    · intro hpoint
      simp [Numeral.isInteger, hpoint]
  · next hzero =>
    obtain ⟨n, hwrites, hchars, hinteger⟩ := (shortest p).exists_numeral layout
    refine ⟨n, hwrites.written, hchars, ?_, hinteger⟩
    have hdouble := toDouble_shortest hp (Nat.pos_of_ne_zero hzero) hwrites.toRat hwrites.form false
    exact hdouble.trans hx

end Abacus.Decimal

/-! ### Numerals are lexemes -/

namespace Abacus.Lexeme

open Decimal (Numeral)
open Decimal.Numeral (EndsNumeral)

theorem EndsOperand.endsNumeral {rest : List Char} (h : EndsOperand rest) : EndsNumeral rest := by
  intro c hc
  have hcontinues := h c hc
  refine ⟨isDigit_eq_false hcontinues, ?_, ?_, ?_⟩
  all_goals
    rintro rfl
    cases hcontinues

/-- A numeral starts with a digit, so that it is tried as a number. -/
theorem next?_chars {n : Numeral} (hn : n.IsWritten) {rest tail : List Char} {v : Value}
    (h : number? (n.chars ++ rest) = some (v, tail)) :
    next? (n.chars ++ rest) = some (number v, tail) := by
  obtain ⟨d, ds, hds⟩ := List.exists_cons_of_ne_nil hn.whole_ne_nil
  have hd : isWordChar d := (isWordChar_iff d).2 (.inr (hn.whole d (hds ▸ List.mem_cons_self)))
  have hchars : n.chars ++ rest = d :: (ds ++
      ((if n.hasPoint then '.' :: n.decimals else []) ++ Numeral.powerChars n.power) ++ rest) := by
    simp [Numeral.chars, hds]
  rw [hchars] at h ⊢
  rw [next?_of_not_isPunctuation (not_isPunctuation_of_isWordChar hd), h]

theorem next?_numeral {n : Numeral} (hn : n.IsWritten) {rest : List Char}
    (hrest : EndsOperand rest) :
    next? (n.chars ++ rest) = some (number (n.value false), rest) := by
  refine next?_chars hn ?_
  rw [number?, Numeral.scan?_chars hn hrest.endsNumeral]
  split
  · next h =>
    -- a percent sign would continue the numeral
    cases h
    cases hrest '%' rfl
  · next h =>
    cases h
    rfl
  · next h => cases h

/-- A percent sign belongs to the numeral in front of it, whatever follows. -/
theorem next?_percent {n : Numeral} (hn : n.IsWritten) (rest : List Char) :
    next? (n.chars ++ '%' :: rest) = some (number (n.value true), rest) := by
  have hends : EndsNumeral ('%' :: rest) := by
    rintro c ⟨⟩
    decide
  refine next?_chars hn ?_
  rw [number?, Numeral.scan?_chars hn hends]
  rfl

end Abacus.Lexeme
