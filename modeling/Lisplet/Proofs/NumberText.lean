import Lisplet.Number.Numeral
import Lisplet.Proofs.DecimalRounding
import Lisplet.Proofs.DoubleBits

/-!
# Number text is a numeral

`scan_decimal`: what is written for a decimal is a numeral in full, whichever layout is chosen, in
source text and in the inspected form alike, and it denotes the same decimal up to zeros that are moved
into the coefficient. With the rounding of shortest decimals this gives `scan_double`: the text of a
finite double reads back as that double, except that a negative zero loses its sign.
-/

namespace Lisplet

namespace Numeral

/-! ### The parts of a numeral -/

/-- What cannot go on a run of digits. -/
def EndsDigits (cs : List Char) : Prop := ∀ c ∈ cs.head?, c.isDigit = false

theorem takeWhile_digits {ds rest : List Char} (hd : ∀ c ∈ ds, c.isDigit) (hr : EndsDigits rest) :
    (ds ++ rest).takeWhile Char.isDigit = ds := by
  rw [List.takeWhile_append_of_pos hd]
  cases rest with
  | nil => simp
  | cons c cs => simp [hr c rfl]

theorem dropWhile_digits {ds rest : List Char} (hd : ∀ c ∈ ds, c.isDigit) (hr : EndsDigits rest) :
    (ds ++ rest).dropWhile Char.isDigit = rest := by
  rw [List.dropWhile_append_of_pos hd]
  cases rest with
  | nil => rfl
  | cons c cs => simp [hr c rfl]

theorem scanFraction_point {ds rest : List Char} (hd : ∀ c ∈ ds, c.isDigit) (hr : EndsDigits rest) :
    scanFraction ('.' :: (ds ++ rest)) = (ds, rest) := by
  simp only [scanFraction, takeWhile_digits hd hr, dropWhile_digits hd hr]

def signText (negative : Bool) : List Char := if negative then ['-'] else []

theorem scanSign_signText (negative : Bool) {c : Char} (cs : List Char) (hc : c.isDigit) :
    scanSign (signText negative ++ c :: cs) = (negative, c :: cs) := by
  cases negative with
  | true => rfl
  | false =>
    have hne : c ≠ '-' := fun h => by subst h; exact absurd hc (by decide)
    unfold scanSign signText
    split
    · rename_i h
      exact absurd (List.cons.inj h).1 hne
    · rfl

/-- Digits behind a sign are the whole part; the rest is a fraction and an exponent. -/
theorem scan_whole (negative : Bool) (whole rest : List Char) (hne : whole ≠ [])
    (hd : ∀ c ∈ whole, c.isDigit) (hr : EndsDigits rest) :
    scan (signText negative ++ (whole ++ rest)) =
      some (⟨negative, whole, (scanFraction rest).1,
          ((scanExponent? (scanFraction rest).2).getD (0, (scanFraction rest).2)).1⟩,
        ((scanExponent? (scanFraction rest).2).getD (0, (scanFraction rest).2)).2) := by
  obtain ⟨c, cs, rfl⟩ := List.exists_cons_of_ne_nil hne
  have hsign := scanSign_signText negative (cs ++ rest) (hd c (by simp))
  rw [← List.cons_append] at hsign
  simp only [scan, hsign, takeWhile_digits hd hr, dropWhile_digits hd hr, List.isEmpty_cons,
    Bool.false_eq_true, ↓reduceIte]

end Numeral

namespace NumberStyle

open Numeral

theorem isDigit_of_mem_digits {n : Nat} {c : Char} (hc : c ∈ Nat.toDigits 10 n) : c.isDigit :=
  Nat.isDigit_of_mem_toDigits (by decide) (by decide) hc

theorem isDigit_zeros (k : Nat) : ∀ c ∈ List.replicate k '0', c.isDigit := fun c hc => by
  rw [List.eq_of_mem_replicate hc]; decide

theorem exponent_source (e : Int) :
    source.exponent e = 'e' :: (if 0 < e then '+' else '-') :: Nat.toDigits 10 e.natAbs := by
  have hlen : 0 < (Nat.toDigits 10 e.natAbs).length := Nat.length_toDigits_pos
  have hpad : source.exponentWidth - (Nat.toDigits 10 e.natAbs).length = 0 := Nat.sub_eq_zero_of_le hlen
  simp [exponent, hpad]

section
variable (style : NumberStyle)

def exponentDigits (e : Int) : List Char :=
  List.replicate (style.exponentWidth - (Nat.toDigits 10 e.natAbs).length) '0' ++ Nat.toDigits 10 e.natAbs

theorem exponent_eq (e : Int) :
    style.exponent e = 'e' :: (if 0 < e then '+' else '-') :: style.exponentDigits e := rfl

theorem isDigit_exponentDigits (e : Int) : ∀ c ∈ style.exponentDigits e, c.isDigit :=
  List.forall_mem_append.2 ⟨isDigit_zeros _, fun _ => isDigit_of_mem_digits⟩

theorem ofDigitChars_exponentDigits (e : Int) : Nat.ofDigitChars 10 (style.exponentDigits e) 0 = e.natAbs := by
  rw [exponentDigits, Nat.ofDigitChars_append, Nat.ofDigitChars_replicate_zero, Nat.mul_zero,
    Nat.ofDigitChars_ten_toDigits]

theorem endsDigits_exponent (e : Int) : EndsDigits (style.exponent e) := by
  rintro c ⟨⟩
  decide

theorem scanExponentSign_exponent {e : Int} (he : e ≠ 0) :
    scanExponentSign ((if 0 < e then '+' else '-') :: style.exponentDigits e) =
      (decide (e < 0), style.exponentDigits e) := by
  rcases Int.lt_or_gt_of_ne he with h | h
  · rw [if_neg (Int.not_lt.2 (Int.le_of_lt h)), decide_eq_true h]; rfl
  · rw [if_pos h, decide_eq_false (Int.not_lt.2 (Int.le_of_lt h))]; rfl

theorem signed_natAbs (e : Int) :
    (if decide (e < 0) = true then -((e.natAbs : Nat) : Int) else (e.natAbs : Nat)) = e := by
  simp only [decide_eq_true_eq]
  split <;> omega

theorem scanExponent?_exponent {e : Int} (he : e ≠ 0) :
    scanExponent? (style.exponent e) = some (e, []) := by
  have hd := style.isDigit_exponentDigits e
  have hend : EndsDigits [] := by rintro c ⟨⟩
  have htake := takeWhile_digits hd hend
  have hdrop := dropWhile_digits hd hend
  rw [List.append_nil] at htake hdrop
  have hne : (style.exponentDigits e).isEmpty = false := by simp [exponentDigits, Nat.toDigits_ne_nil]
  rw [exponent_eq]
  simp only [scanExponent?, true_or, ↓reduceIte, style.scanExponentSign_exponent he, htake, hdrop, hne,
    Bool.false_eq_true, ofDigitChars_exponentDigits, signed_natAbs]

end

/-! ### The layouts -/

theorem digits_isDigit (d : Decimal) : ∀ c ∈ d.digits, c.isDigit := fun _ => isDigit_of_mem_digits

theorem ofDigitChars_digits (d : Decimal) : Nat.ofDigitChars 10 d.digits 0 = d.coefficient :=
  Nat.ofDigitChars_ten_toDigits

theorem endsDigits_nil : EndsDigits [] := by rintro c ⟨⟩

theorem endsDigits_point (cs : List Char) : EndsDigits ('.' :: cs) := by
  rintro c ⟨⟩; decide

/-- Digits on both sides of a point are the whole part and the fraction; the rest is an exponent. -/
theorem scan_point (negative : Bool) {whole fraction rest : List Char} (hne : whole ≠ [])
    (hwhole : ∀ c ∈ whole, c.isDigit) (hfraction : ∀ c ∈ fraction, c.isDigit) (hr : EndsDigits rest) :
    scan (signText negative ++ (whole ++ '.' :: (fraction ++ rest))) =
      some (⟨negative, whole, fraction, ((scanExponent? rest).getD (0, rest)).1⟩,
        ((scanExponent? rest).getD (0, rest)).2) := by
  have hscan := scan_whole negative whole ('.' :: (fraction ++ rest)) hne hwhole (endsDigits_point _)
  rwa [scanFraction_point hfraction hr] at hscan

theorem scan_pointed (negative : Bool) {whole fraction : List Char} (hne : whole ≠ [])
    (hwhole : ∀ c ∈ whole, c.isDigit) (hfraction : ∀ c ∈ fraction, c.isDigit) :
    scan (signText negative ++ (whole ++ '.' :: fraction)) = some (⟨negative, whole, fraction, 0⟩, []) := by
  have hscan := scan_point negative hne hwhole hfraction endsDigits_nil
  rwa [List.append_nil] at hscan

/-- What a numeral denotes is the decimal with `k` more zeros in its coefficient. -/
def Denotes (n : Numeral) (d : Decimal) : Prop :=
  ∃ k : Nat, n.toDecimal = ⟨d.coefficient * 10 ^ k, d.exponent - k⟩

theorem Denotes.nearestDecimal {n : Numeral} {d : Decimal} (h : Denotes n d) :
    Binary64.nearestDecimal n.toDecimal = Binary64.nearestDecimal d := by
  obtain ⟨k, hk⟩ := h
  rw [hk, Binary64.nearestDecimal_scale, Int.sub_add_cancel]

/-- A style whose texts are numerals: at most a zero is the fraction of a whole number, and a number with one
digit before its point needs no exponent. -/
structure IsReadable (style : NumberStyle) : Prop where
  wholeEnd : style.wholeEnd = [] ∨ style.wholeEnd = ['.', '0']
  least : style.least < 1
  greatest : 1 ≤ style.greatest

theorem isReadable_source : source.IsReadable := ⟨.inl rfl, by decide, by decide⟩

theorem isReadable_inspection : inspection.IsReadable := ⟨.inr rfl, by decide, by decide⟩

section
variable {style : NumberStyle}

theorem scan_positional (hs : style.IsReadable) (d : Decimal) (negative : Bool) :
    ∃ n, scan (signText negative ++ style.positional d.digits d.point) = some (n, []) ∧
      n.negative = negative ∧ Denotes n d := by
  have hdig := digits_isDigit d
  have hval := ofDigitChars_digits d
  have hne : d.digits ≠ [] := Nat.toDigits_ne_nil
  have hpoint : d.point = d.exponent + d.digits.length := rfl
  unfold positional
  split
  · -- whole, padded with zeros
    rename_i hle
    obtain ⟨k, hk⟩ : ∃ k : Nat, d.exponent = k := ⟨d.exponent.toNat, by omega⟩
    have hzeros : (d.point - d.digits.length).toNat = k := by omega
    have hwhole : ∀ c ∈ d.digits ++ List.replicate k '0', c.isDigit :=
      List.forall_mem_append.2 ⟨hdig, isDigit_zeros k⟩
    have hcoefficient : Nat.ofDigitChars 10 (d.digits ++ List.replicate k '0') 0 = d.coefficient * 10 ^ k := by
      rw [Nat.ofDigitChars_append, Nat.ofDigitChars_replicate_zero, hval, Nat.mul_comm]
    rw [hzeros]
    rcases hs.wholeEnd with hend | hend
    · have hscan := scan_whole negative _ [] (by simp [hne]) hwhole endsDigits_nil
      refine ⟨_, by rw [hend]; exact hscan, rfl, k, ?_⟩
      show Decimal.mk (Nat.ofDigitChars 10 ((d.digits ++ List.replicate k '0') ++ []) 0) (0 - (0 : Nat)) = _
      rw [List.append_nil, hcoefficient, hk]
      simp
    · have hscan := scan_pointed negative (by simp [hne]) hwhole (isDigit_zeros 1)
      refine ⟨_, by rw [hend]; exact hscan, rfl, k + 1, ?_⟩
      show Decimal.mk (Nat.ofDigitChars 10 ((d.digits ++ List.replicate k '0') ++ ['0']) 0) (0 - (1 : Nat)) = _
      rw [Nat.ofDigitChars_append, hcoefficient, hk, Nat.pow_succ]
      congr 1
      · show 10 * (d.coefficient * 10 ^ k) + 0 = _
        ring
      · omega
  · split
    · -- the point inside the digits
      rename_i hlt hpos
      have htake : ∀ c ∈ d.digits.take d.point.toNat, c.isDigit := fun c hc => hdig c (List.mem_of_mem_take hc)
      have hdrop : ∀ c ∈ d.digits.drop d.point.toNat, c.isDigit := fun c hc => hdig c (List.mem_of_mem_drop hc)
      refine ⟨_, scan_pointed negative (by simp [hne]; omega) htake hdrop, rfl, 0, ?_⟩
      show Decimal.mk (Nat.ofDigitChars 10 (d.digits.take d.point.toNat ++ d.digits.drop d.point.toNat) 0)
        (0 - ((d.digits.drop d.point.toNat).length : Nat)) = _
      rw [List.take_append_drop, hval, List.length_drop]
      congr 1
      · omega
      · omega
    · -- the point before the digits
      rename_i hlt hpos
      have hzeros : ∀ c ∈ List.replicate (-d.point).toNat '0' ++ d.digits, c.isDigit :=
        List.forall_mem_append.2 ⟨isDigit_zeros _, hdig⟩
      refine ⟨_, scan_pointed negative (List.cons_ne_nil '0' []) (by simp) hzeros, rfl, 0, ?_⟩
      show Decimal.mk (Nat.ofDigitChars 10 (['0'] ++ (List.replicate (-d.point).toNat '0' ++ d.digits)) 0)
        (0 - ((List.replicate (-d.point).toNat '0' ++ d.digits).length : Nat)) = _
      rw [Nat.ofDigitChars_append, Nat.ofDigitChars_append,
        show Nat.ofDigitChars 10 ['0'] 0 = 0 from rfl, Nat.ofDigitChars_replicate_zero, Nat.mul_zero, hval]
      simp only [List.length_append, List.length_replicate]
      congr 1
      · omega
      · omega

theorem scan_scientific (d : Decimal) (negative : Bool) (hpoint : d.point ≠ 1) :
    ∃ n, scan (signText negative ++ style.scientific d.digits d.point) = some (n, []) ∧
      n.negative = negative ∧ Denotes n d := by
  have hdig := digits_isDigit d
  have hval := ofDigitChars_digits d
  have hpt : d.point = d.exponent + d.digits.length := rfl
  have hne : d.digits ≠ [] := Nat.toDigits_ne_nil
  have hlen : 0 < d.digits.length := List.length_pos_iff.2 hne
  have hexp := style.scanExponent?_exponent (e := d.point - 1) (by omega)
  have htake : ∀ c ∈ d.digits.take 1, c.isDigit := fun c hc => hdig c (List.mem_of_mem_take hc)
  unfold scientific
  rw [List.append_assoc]
  split
  · rename_i hone
    have hscan := scan_whole negative _ _ (by simp [hne]) htake (style.endsDigits_exponent (d.point - 1))
    have hfrac : scanFraction (style.exponent (d.point - 1)) = ([], style.exponent (d.point - 1)) := rfl
    rw [hfrac, hexp] at hscan
    refine ⟨_, hscan, rfl, 0, ?_⟩
    show Decimal.mk (Nat.ofDigitChars 10 (d.digits.take 1 ++ []) 0) (d.point - 1 - (0 : Nat)) = _
    rw [List.append_nil, List.take_of_length_le hone, hval]
    congr 1
    · omega
    · omega
  · have hdrop : ∀ c ∈ d.digits.drop 1, c.isDigit := fun c hc => hdig c (List.mem_of_mem_drop hc)
    have hscan := scan_point negative (by simp [hne]) htake hdrop (style.endsDigits_exponent (d.point - 1))
    rw [hexp] at hscan
    refine ⟨_, hscan, rfl, 0, ?_⟩
    show Decimal.mk (Nat.ofDigitChars 10 (d.digits.take 1 ++ d.digits.drop 1) 0)
      (d.point - 1 - ((d.digits.drop 1).length : Nat)) = _
    rw [List.take_append_drop, hval, List.length_drop]
    congr 1
    · omega
    · omega

/-- The text of a decimal is a numeral that denotes it. -/
theorem scan_decimal (hs : style.IsReadable) (d : Decimal) (negative : Bool) :
    ∃ n, scan (signText negative ++ style.decimal d) = some (n, []) ∧
      n.negative = negative ∧ Denotes n d := by
  unfold decimal
  split
  · exact scan_positional hs d negative
  · rename_i h
    refine scan_scientific d negative fun h1 => h ?_
    rw [h1]
    exact ⟨hs.least, hs.greatest⟩

theorem double_of_code_ne {x : Float} (hx : x.isFinite) (hzero : Binary64.code x ≠ 0) :
    style.double x =
      signText (Binary64.isNegative x) ++ style.decimal (Binary64.shortest (Binary64.code x)) := by
  have hlt := (Binary64.isFinite_iff x).1 hx
  simp only [double, Binary64.isNaN_eq_false hx, Nat.ne_of_lt hlt, Bool.false_eq_true, ↓reduceIte]
  simp [hzero, signText]

end

/-- What a finite double is read back as. -/
def readBack (x : Float) : Float := if Binary64.code x = 0 then Binary64.ofCode false 0 else x

/-- The text of a finite double is a numeral in full, and reads back as the double. -/
theorem scan_double {x : Float} (hx : x.isFinite) :
    ∃ n, scan (source.double x) = some (n, []) ∧ n.toDouble = readBack x := by
  have hlt := (Binary64.isFinite_iff x).1 hx
  unfold readBack
  split
  · rename_i hzero
    refine ⟨⟨false, ['0'], [], 0⟩, ?_, rfl⟩
    simp only [double, Binary64.isNaN_eq_false hx, Nat.ne_of_lt hlt, Bool.false_eq_true, ↓reduceIte]
    simp [hzero, source]
    decide
  · rename_i hzero
    obtain ⟨n, hscan, hneg, hden⟩ :=
      scan_decimal isReadable_source (Binary64.shortest (Binary64.code x)) (Binary64.isNegative x)
    refine ⟨n, by rw [double_of_code_ne hx hzero]; exact hscan, ?_⟩
    rw [Numeral.toDouble, Binary64.ofDecimal, hneg, hden.nearestDecimal, Binary64.nearestDecimal_shortest hlt,
      Binary64.ofCode_code]

/-! ### The characters of number text -/

def isNumeric (c : Char) : Bool := c.isDigit || ['.', 'e', '+', '-'].contains c

theorem isNumeric_of_isDigit {c : Char} (h : c.isDigit) : isNumeric c := by simp [isNumeric, h]

theorem isNumeric_positional (d : Decimal) : ∀ c ∈ source.positional d.digits d.point, isNumeric c := by
  have hdig : ∀ c ∈ d.digits, isNumeric c := fun c hc => isNumeric_of_isDigit (digits_isDigit d c hc)
  have hzeros : ∀ k, ∀ c ∈ List.replicate k '0', isNumeric c :=
    fun k c hc => isNumeric_of_isDigit (isDigit_zeros k c hc)
  unfold positional
  intro c hc
  split at hc
  · simp only [source, List.append_nil, List.mem_append] at hc
    exact hc.elim (hdig c) (hzeros _ c)
  · split at hc
    · simp only [List.mem_append, List.mem_cons] at hc
      rcases hc with hc | rfl | hc
      · exact hdig c (List.mem_of_mem_take hc)
      · decide
      · exact hdig c (List.mem_of_mem_drop hc)
    · simp only [List.mem_append, List.mem_cons] at hc
      rcases hc with rfl | rfl | hc | hc
      · decide
      · decide
      · exact hzeros _ c hc
      · exact hdig c hc

theorem isNumeric_scientific (d : Decimal) : ∀ c ∈ source.scientific d.digits d.point, isNumeric c := by
  have hdig : ∀ c ∈ d.digits, isNumeric c := fun c hc => isNumeric_of_isDigit (digits_isDigit d c hc)
  unfold scientific
  rw [exponent_source]
  intro c hc
  simp only [List.mem_append, List.mem_cons] at hc
  rcases hc with (hc | hc) | rfl | hc | hc
  · exact hdig c (List.mem_of_mem_take hc)
  · split at hc
    · cases hc
    · rcases List.mem_cons.1 hc with rfl | hc
      · decide
      · exact hdig c (List.mem_of_mem_drop hc)
  · decide
  · rw [hc]; split <;> decide
  · exact isNumeric_of_isDigit (isDigit_of_mem_digits hc)

theorem isNumeric_double {x : Float} (hx : x.isFinite) : ∀ c ∈ source.double x, isNumeric c := by
  have hlt := (Binary64.isFinite_iff x).1 hx
  simp only [double, Binary64.isNaN_eq_false hx, Nat.ne_of_lt hlt, Bool.false_eq_true, ↓reduceIte, decimal]
  have hsign : ∀ b : Prop, [Decidable b] → ∀ c ∈ (if b then ['-'] else []), isNumeric c := by
    intro b _ c hc
    split at hc
    · rw [List.mem_singleton.1 hc]; decide
    · cases hc
  intro c hc
  split at hc
  · rcases List.mem_append.1 hc with hc | hc
    · exact hsign _ c hc
    · rw [List.mem_singleton.1 hc]; decide
  · rcases List.mem_append.1 hc with hc | hc
    · exact hsign _ c hc
    · split at hc
      · exact isNumeric_positional _ c hc
      · exact isNumeric_scientific _ c hc

theorem double_readBack {x : Float} (hx : x.isFinite) : source.double (readBack x) = source.double x := by
  unfold readBack
  split
  · rename_i hzero
    have htext : source.double (Binary64.ofCode false 0) = ['0'] := by decide +kernel
    have hfinite : 0 ≠ Binary64.infinity := hzero ▸ Nat.ne_of_lt ((Binary64.isFinite_iff x).1 hx)
    rw [htext, double, Binary64.isNaN_eq_false hx]
    simp [hzero, hfinite, source]
  · rfl

theorem code_readBack (x : Float) : Binary64.code (readBack x) = Binary64.code x := by
  unfold readBack
  split
  · rename_i hzero
    rw [hzero]
    decide +kernel
  · rfl

theorem isFinite_readBack {x : Float} (hx : x.isFinite) : (readBack x).isFinite := by
  unfold readBack
  split
  · decide +kernel
  · exact hx

end NumberStyle

theorem Number.eq_readBack {x : Float} (hx : x.isFinite) :
    eq (.double x) (.double (NumberStyle.readBack x)) = true := by
  unfold NumberStyle.readBack
  split
  · rename_i hzero
    exact (eq_double_iff hx (by decide +kernel)).2 (.inr ⟨hzero, by decide +kernel⟩)
  · exact eq_self hx

/-- Finite doubles are equal if they are read back as the same double. -/
theorem Number.eq_iff_readBack {x y : Float} (hx : x.isFinite) (hy : y.isFinite) :
    eq (.double x) (.double y) = true ↔ NumberStyle.readBack x = NumberStyle.readBack y := by
  rw [eq_double_iff hx hy]
  constructor
  · rintro (rfl | ⟨hx0, hy0⟩)
    · rfl
    · rw [NumberStyle.readBack, NumberStyle.readBack, if_pos hx0, if_pos hy0]
  · intro h
    have hcode : Binary64.code x = Binary64.code y := by
      rw [← NumberStyle.code_readBack x, h, NumberStyle.code_readBack]
    by_cases hx0 : Binary64.code x = 0
    · exact .inr ⟨hx0, hcode ▸ hx0⟩
    · rw [NumberStyle.readBack, NumberStyle.readBack, if_neg hx0, if_neg (hcode ▸ hx0)] at h
      exact .inl h

end Lisplet
