import Lisplet.Proofs.Grammar

/-!
# Number text is exact

`text_exact`: the text of a finite double other than zero is a numeral that denotes exactly what the inspected
form denotes, and is laid out by the place of the point among its digits. Both are written from the shortest
decimal, and keep its value (`isNumeralOf_double`). Its digits neither start nor end with a zero, since enough
steps strip all zeros behind (`coefficient_strip`), and that decimal is not zero (`coefficient_shortest`). They
and the point are what is cut out of the inspected form, wherever it has zeros and a point (`cutDigits_decimal`).
-/

namespace Lisplet

open Numeral

/-! ### What is denoted -/

def Decimal.toRat (d : Decimal) : ℚ := d.coefficient * 10 ^ d.exponent

def Numeral.toRat (n : Numeral) : ℚ := if n.negative then -n.toDecimal.toRat else n.toDecimal.toRat

/-- The text is in full a numeral that denotes `q`. -/
def IsNumeralOf (q : ℚ) (cs : List Char) : Prop := ∃ n, scan cs = some (n, []) ∧ n.toRat = q

/-- The number `0.ds`. -/
def pointed (ds : List Char) : ℚ := Nat.ofDigitChars 10 ds 0 / 10 ^ ds.length

namespace Decimal
variable {d : Decimal}

theorem toRat_eq_pointed (d : Decimal) : d.toRat = pointed d.digits * 10 ^ d.point := by
  rw [toRat, pointed, NumberStyle.ofDigitChars_digits, point, zpow_add₀ (by norm_num), zpow_natCast]
  field_simp

theorem toRat_pos (h : d.coefficient ≠ 0) : 0 < d.toRat :=
  mul_pos (Nat.cast_pos.2 (Nat.pos_of_ne_zero h)) (zpow_pos (by norm_num) _)

theorem toRat_scale (c k : Nat) (e : Int) : toRat ⟨c * 10 ^ k, e - k⟩ = toRat ⟨c, e⟩ := by
  simp only [toRat]
  rw [zpow_sub₀ (by norm_num), zpow_natCast]
  push_cast
  field_simp

end Decimal

theorem NumberStyle.Denotes.toRat {n : Numeral} {d : Decimal} (h : NumberStyle.Denotes n d) :
    n.toDecimal.toRat = d.toRat := by
  obtain ⟨k, hk⟩ := h
  rw [hk, Decimal.toRat_scale]

/-! ### Significant digits -/

/-- Digits without a zero at either end. -/
structure IsSignificant (ds : List Char) : Prop where
  isDigits : IsDigits ds
  head : ds.head? ≠ some '0'
  last : ds.getLast? ≠ some '0'

namespace Decimal
variable {d : Decimal}

theorem head?_toDigits {n : Nat} (h : n ≠ 0) : (Nat.toDigits 10 n).head? ≠ some '0' := by
  induction n using Nat.strongRecOn with
  | _ n ih =>
    rcases Nat.lt_or_ge n 10 with hlt | hge
    · rw [Nat.toDigits_of_lt_base hlt]
      simpa using h
    · rw [Nat.toDigits_of_base_le (by decide) hge, List.head?_append_of_ne_nil _ Nat.toDigits_ne_nil]
      exact ih (n / 10) (by omega) (by omega)

theorem getLast?_toDigits {n : Nat} (h : n % 10 ≠ 0) : (Nat.toDigits 10 n).getLast? ≠ some '0' := by
  rcases Nat.lt_or_ge n 10 with hlt | hge
  · rw [Nat.toDigits_of_lt_base hlt]
    simpa using fun hn : n = 0 => h (by rw [hn])
  · rw [Nat.toDigits_of_base_le (by decide) hge, List.getLast?_concat]
    simpa using h

theorem isSignificant_digits (h : d.coefficient % 10 ≠ 0) : IsSignificant d.digits where
  isDigits := ⟨Nat.toDigits_ne_nil, NumberStyle.digits_isDigit d⟩
  head := head?_toDigits fun h0 => h (by rw [h0])
  last := getLast?_toDigits h

theorem coefficient_strip {k c : Nat} (e : Int) (hc : c ≠ 0) (hk : c < 10 ^ k) :
    (strip k c e).coefficient % 10 ≠ 0 := by
  induction k generalizing c e with
  | zero => omega
  | succ k ih =>
    rw [strip]
    split
    · exact ih _ (by omega) (by omega)
    · assumption

theorem coefficient_trim (h : d.coefficient ≠ 0) : d.trim.coefficient % 10 ≠ 0 := by
  have hlt : d.coefficient < 10 ^ d.digits.length :=
    (Nat.length_toDigits_le_iff (by decide) Nat.length_toDigits_pos).1 le_rfl
  rw [trim, if_neg h]
  exact coefficient_strip _ h hlt

end Decimal

namespace Binary64

theorem coefficient_shortest {code : Nat} (hpos : code ≠ 0) (h : code < infinity) :
    (shortest code).coefficient % 10 ≠ 0 := by
  refine Decimal.coefficient_trim fun hzero => hpos ?_
  have hread := nearestDecimal_shortest h
  rw [shortest, nearestDecimal_trim, nearestDecimal, if_pos (.inl hzero)] at hread
  exact hread.symm

theorem code_ne_zero {x : Float} (h : (Number.double x).isZero = false) : code x ≠ 0 := by
  intro hzero
  have hzeros : ∀ b, (Number.double (ofCode b 0)).isZero = true := by decide +kernel
  rw [← ofCode_code x, hzero, hzeros] at h
  cases h

end Binary64

/-! ### The layouts of source text -/

/-- How a positive number `0.digits * 10 ^ point` is laid out. -/
inductive LaidOut (digits : List Char) (point : Int) : List Char → Prop
  | whole (hlow : digits.length ≤ point) (hhigh : point ≤ 21) :
    LaidOut digits point (digits ++ List.replicate (point - digits.length).toNat '0')
  | inner (hlow : 0 < point) (hhigh : point ≤ 21) (hlength : point < digits.length) :
    LaidOut digits point (digits.take point.toNat ++ '.' :: digits.drop point.toNat)
  | below (hlow : -6 < point) (hhigh : point ≤ 0) :
    LaidOut digits point ('0' :: '.' :: (List.replicate (-point).toNat '0' ++ digits))
  /-- One digit, a fraction unless there are no more, and an exponent with its sign and no zero in front. -/
  | exponent {first : Char} {rest e : List Char} (hfar : point ≤ -6 ∨ 21 < point) (hdigits : digits = first :: rest)
    (he : IsDigits e) (hhead : e.head? ≠ some '0') (hvalue : Nat.ofDigitChars 10 e 0 = (point - 1).natAbs)
    (hne : point - 1 ≠ 0) :
    LaidOut digits point (first :: ((if rest = [] then [] else '.' :: rest) ++
      'e' :: (if 0 < point - 1 then '+' else '-') :: e))

namespace NumberStyle

theorem laidOut_positional {digits : List Char} {point : Int} (hlow : -6 < point) (hhigh : point ≤ 21) :
    LaidOut digits point (source.positional digits point) := by
  unfold positional
  split
  · rename_i hlength
    rw [show source.wholeEnd = [] from rfl, List.append_nil]
    exact .whole hlength hhigh
  · split
    · rename_i hlength hpos
      exact .inner hpos hhigh (by omega)
    · exact .below hlow (by omega)

theorem laidOut_scientific {digits : List Char} {point : Int} (hd : digits ≠ []) (hfar : point ≤ -6 ∨ 21 < point) :
    LaidOut digits point (source.scientific digits point) := by
  obtain ⟨first, rest, rfl⟩ := List.exists_cons_of_ne_nil hd
  have hne : point - 1 ≠ 0 := by omega
  have h : LaidOut (first :: rest) point _ := .exponent hfar rfl ⟨Nat.toDigits_ne_nil, fun _ => isDigit_of_mem_digits⟩
    (Decimal.head?_toDigits (by omega)) (Nat.ofDigitChars_ten_toDigits (n := (point - 1).natAbs)) hne
  convert h using 1
  rw [scientific, exponent_source]
  cases rest <;> simp

theorem laidOut_decimal (d : Decimal) : LaidOut d.digits d.point (source.decimal d) := by
  unfold decimal
  split
  · rename_i h
    exact laidOut_positional h.1 h.2
  · rename_i h
    refine laidOut_scientific Nat.toDigits_ne_nil ?_
    change ¬ (-6 < _ ∧ _ ≤ 21) at h
    omega

/-- In either style a double is spelled as its shortest decimal, with its sign. -/
theorem isNumeralOf_double {style : NumberStyle} (hs : style.IsReadable) {x : Float} (hx : x.isFinite)
    (hzero : Binary64.code x ≠ 0) :
    let r := (Binary64.shortest (Binary64.code x)).toRat
    IsNumeralOf (if Binary64.isNegative x then -r else r) (style.double x) := by
  obtain ⟨n, hscan, hneg, hden⟩ :=
    scan_decimal hs (Binary64.shortest (Binary64.code x)) (Binary64.isNegative x)
  refine ⟨n, by rw [double_of_code_ne hx hzero]; exact hscan, ?_⟩
  rw [Numeral.toRat, hneg, hden.toRat]

end NumberStyle

/-! ### The digits of an inspected number -/

namespace NumberStyle

theorem takeWhile_until {c : Char} {cs : List Char} (h : c ∉ cs) (rest : List Char) :
    (cs ++ c :: rest).takeWhile (· != c) = cs ∧ (cs ++ c :: rest).dropWhile (· != c) = c :: rest := by
  have hcs : ∀ a ∈ cs, (a != c) = true := fun a ha => bne_iff_ne.2 (ne_of_mem_of_not_mem ha h)
  rw [List.takeWhile_append_of_pos hcs, List.dropWhile_append_of_pos hcs]
  simp

theorem takeWhile_all {c : Char} {cs : List Char} (h : c ∉ cs) :
    cs.takeWhile (· != c) = cs ∧ cs.dropWhile (· != c) = [] := by
  have hcs : ∀ a ∈ cs, (a != c) = true := fun a ha => bne_iff_ne.2 (ne_of_mem_of_not_mem ha h)
  exact ⟨List.takeWhile_eq_self_iff.2 hcs, List.dropWhile_eq_nil_iff.2 hcs⟩

theorem dropWhile_zeros (k : Nat) {cs : List Char} (h : cs.head? ≠ some '0') :
    (List.replicate k '0' ++ cs).dropWhile (· == '0') = cs := by
  rw [List.dropWhile_append_of_pos fun a ha => beq_iff_eq.2 (List.eq_of_mem_replicate ha)]
  cases cs with
  | nil => rfl
  | cons c cs => exact List.dropWhile_cons_of_neg (by simpa using h)

theorem stripZeros_eq {ds : List Char} (h : IsSignificant ds) (before after : Nat) (point : Int) :
    stripZeros (List.replicate before '0' ++ (ds ++ List.replicate after '0')) point = (ds, point - before) := by
  have hfront : (ds ++ List.replicate after '0').head? ≠ some '0' := by
    rw [List.head?_append_of_ne_nil _ h.isDigits.1]
    exact h.head
  have hback : ds.reverse.head? ≠ some '0' := by
    rw [List.head?_reverse]
    exact h.last
  simp only [stripZeros, dropWhile_zeros before hfront, List.reverse_append, List.reverse_replicate,
    dropWhile_zeros after hback, List.reverse_reverse, List.length_append, List.length_replicate,
    Nat.add_sub_cancel]

theorem stripZeros_self {ds : List Char} (h : IsSignificant ds) (point : Int) : stripZeros ds point = (ds, point) := by
  simpa using stripZeros_eq h 0 0 point

theorem cutMantissa_point {whole fraction : List Char} (h : '.' ∉ whole) (e : Int) :
    cutMantissa (whole ++ '.' :: fraction) e = stripZeros (whole ++ fraction) (whole.length + e) := by
  obtain ⟨htake, hdrop⟩ := takeWhile_until h fraction
  simp only [cutMantissa, htake, hdrop, List.drop_succ_cons, List.drop_zero]

theorem cutMantissa_whole {whole : List Char} (h : '.' ∉ whole) (e : Int) :
    cutMantissa whole e = stripZeros whole (whole.length + e) := by
  obtain ⟨htake, hdrop⟩ := takeWhile_all h
  simp only [cutMantissa, htake, hdrop, List.drop_nil, List.append_nil]

theorem cutDigits_plain {cs : List Char} (h : 'e' ∉ cs) : cutDigits cs = cutMantissa cs 0 := by
  obtain ⟨htake, hdrop⟩ := takeWhile_all h
  simp only [cutDigits, htake, hdrop]
  rfl

theorem cutDigits_exponent {cs : List Char} (h : 'e' ∉ cs) (style : NumberStyle) {e : Int} (he : e ≠ 0) :
    cutDigits (cs ++ style.exponent e) = cutMantissa cs e := by
  rw [exponent_eq]
  obtain ⟨htake, hdrop⟩ := takeWhile_until h ((if 0 < e then '+' else '-') :: style.exponentDigits e)
  simp only [cutDigits, htake, hdrop, List.drop_succ_cons, List.drop_zero, style.scanExponentSign_exponent he,
    style.ofDigitChars_exponentDigits, signed_natAbs]

theorem not_mem_digits {cs : List Char} (h : ∀ c ∈ cs, c.isDigit) {c : Char} (hc : c.isDigit = false) : c ∉ cs := by
  intro hmem
  rw [h c hmem] at hc
  cases hc

theorem mark_not_mem {whole fraction : List Char} (hwhole : ∀ c ∈ whole, c.isDigit)
    (hfraction : ∀ c ∈ fraction, c.isDigit) :
    'e' ∉ whole ++ '.' :: fraction := by
  simp only [List.mem_append, List.mem_cons, not_or]
  exact ⟨not_mem_digits hwhole rfl, by decide, not_mem_digits hfraction rfl⟩

theorem cutDigits_point {whole fraction : List Char} (hwhole : ∀ c ∈ whole, c.isDigit)
    (hfraction : ∀ c ∈ fraction, c.isDigit) :
    cutDigits (whole ++ '.' :: fraction) = stripZeros (whole ++ fraction) whole.length := by
  rw [cutDigits_plain (mark_not_mem hwhole hfraction), cutMantissa_point (not_mem_digits hwhole rfl), add_zero]

variable {d : Decimal}

theorem cutDigits_positional (h : IsSignificant d.digits) :
    cutDigits (inspection.positional d.digits d.point) = (d.digits, d.point) := by
  have hdigits := h.isDigits.2
  unfold positional
  split
  · rename_i hlength
    generalize hk : (d.point - d.digits.length).toNat = k
    have hwhole : ∀ c ∈ d.digits ++ List.replicate k '0', c.isDigit :=
      List.forall_mem_append.2 ⟨hdigits, isDigit_zeros k⟩
    have hzeros : d.digits ++ List.replicate k '0' ++ ['0'] = d.digits ++ List.replicate (k + 1) '0' := by
      rw [List.append_assoc, List.replicate_succ']
    have hstrip := stripZeros_eq h 0 (k + 1) (d.digits ++ List.replicate k '0').length
    rw [show inspection.wholeEnd = ['.', '0'] from rfl, cutDigits_point hwhole (by simp), hzeros]
    refine hstrip.trans (Prod.ext rfl ?_)
    simp only [List.length_append, List.length_replicate]
    omega
  · split
    · rename_i hlength hpos
      have htake : ∀ c ∈ d.digits.take d.point.toNat, c.isDigit := fun c hc => hdigits c (List.mem_of_mem_take hc)
      have hdrop : ∀ c ∈ d.digits.drop d.point.toNat, c.isDigit := fun c hc => hdigits c (List.mem_of_mem_drop hc)
      rw [cutDigits_point htake hdrop, List.take_append_drop, stripZeros_self h, List.length_take]
      refine Prod.ext rfl ?_
      dsimp only
      omega
    · rename_i hlength hpos
      generalize hk : (-d.point).toNat = k
      have hfraction : ∀ c ∈ List.replicate k '0' ++ d.digits, c.isDigit :=
        List.forall_mem_append.2 ⟨isDigit_zeros k, hdigits⟩
      have hwhole : ∀ c ∈ ['0'], c.isDigit := by simp
      have hstrip := stripZeros_eq h (k + 1) 0 1
      rw [List.replicate_zero, List.append_nil, List.replicate_succ, List.cons_append] at hstrip
      refine (cutDigits_point hwhole hfraction).trans (hstrip.trans (Prod.ext rfl ?_))
      dsimp only
      omega

theorem cutDigits_scientific (h : IsSignificant d.digits) (hpoint : d.point ≠ 1) :
    cutDigits (inspection.scientific d.digits d.point) = (d.digits, d.point) := by
  have htake : ∀ c ∈ d.digits.take 1, c.isDigit := fun c hc => h.isDigits.2 c (List.mem_of_mem_take hc)
  have hdrop : ∀ c ∈ d.digits.drop 1, c.isDigit := fun c hc => h.isDigits.2 c (List.mem_of_mem_drop hc)
  have hlength : (d.digits.take 1).length = 1 := by
    have := List.length_pos_iff.2 h.isDigits.1
    rw [List.length_take]
    omega
  have hpoint' : d.point - 1 ≠ 0 := by omega
  unfold scientific
  split
  · rename_i hone
    rw [List.append_nil, cutDigits_exponent (not_mem_digits htake rfl) _ hpoint',
      cutMantissa_whole (not_mem_digits htake rfl), hlength, List.take_of_length_le hone, stripZeros_self h]
    exact Prod.ext rfl (by dsimp only; omega)
  · rw [cutDigits_exponent (mark_not_mem htake hdrop) _ hpoint', cutMantissa_point (not_mem_digits htake rfl), hlength,
      List.take_append_drop, stripZeros_self h]
    exact Prod.ext rfl (by dsimp only; omega)

/-- The digits of a decimal and its point come back out of its inspected form. -/
theorem cutDigits_decimal (h : IsSignificant d.digits) : cutDigits (inspection.decimal d) = (d.digits, d.point) := by
  unfold decimal
  split
  · exact cutDigits_positional h
  · rename_i hfar
    refine cutDigits_scientific h fun h1 => hfar ?_
    rw [h1]
    decide

end NumberStyle

/-- The number `q` that a double other than zero is written as: its inspected form denotes `q`, from that form without
the sign the digits and the point of the magnitude are cut, and the text denotes `q`, reads back, and has the layout
of these digits. -/
structure Number.IsExact (x : Float) (q : ℚ) (digits : List Char) (point : Int) : Prop where
  inspected : IsNumeralOf q (double x).inspect
  cut : NumberStyle.cutDigits (double (Binary64.ofCode false (Binary64.code x))).inspect = (digits, point)
  significant : IsSignificant digits
  magnitude : |q| = pointed digits * 10 ^ point
  denoted : IsNumeralOf q (double x).text
  numeral : IsNumeral (double x).text
  back : ∀ strict start, readLiteral strict (double x).text start = .ok (.double x)
  layout : ∃ layout, LaidOut digits point layout ∧
    (double x).text = signText (decide (q < 0)) ++ layout

open NumberStyle in
theorem Number.inspect_magnitude {x : Float} (hlt : Binary64.code x < Binary64.infinity) (hcode : Binary64.code x ≠ 0) :
    (double (Binary64.ofCode false (Binary64.code x))).inspect =
      inspection.decimal (Binary64.shortest (Binary64.code x)) := by
  have habs : (Binary64.ofCode false (Binary64.code x)).isFinite := by
    rw [Binary64.isFinite_iff, Binary64.code_ofCode hlt]
    exact hlt
  refine (double_of_code_ne habs (by rwa [Binary64.code_ofCode hlt])).trans ?_
  rw [Binary64.code_ofCode hlt, Binary64.isNegative_ofCode hlt]
  rfl

open NumberStyle in
/-- The text of a double denotes what its inspected form denotes, reads back, and has the layout of its digits. -/
theorem Number.text_exact {x : Float} (hx : x.isFinite) (hzero : (double x).isZero = false) :
    let d := Binary64.shortest (Binary64.code x)
    ∃ q : ℚ, IsExact x q d.digits d.point := by
  intro d
  have hcode := Binary64.code_ne_zero hzero
  have hlt : Binary64.code x < Binary64.infinity := (Binary64.isFinite_iff x).1 hx
  have hcoefficient : d.coefficient % 10 ≠ 0 := Binary64.coefficient_shortest hcode hlt
  have hsignificant := Decimal.isSignificant_digits hcoefficient
  have hpos : 0 < d.toRat := Decimal.toRat_pos fun h => hcoefficient (by rw [h])
  obtain ⟨n, hscan, hdouble⟩ := scan_double hx
  refine ⟨if Binary64.isNegative x then -d.toRat else d.toRat, isNumeralOf_double isReadable_inspection hx hcode, ?_,
    hsignificant, ?_, isNumeralOf_double isReadable_source hx hcode, isNumeral_of_scan hscan, fun strict start => ?_,
    _, laidOut_decimal d, ?_⟩
  · rw [inspect_magnitude hlt hcode, cutDigits_decimal hsignificant]
  · rw [← Decimal.toRat_eq_pointed]
    split
    · rw [abs_neg, abs_of_pos hpos]
    · rw [abs_of_pos hpos]
  · have htext : (double x).text = source.double x := rfl
    simp [readLiteral, htext, hscan, hdouble, readBack, hcode]
  · have hnegative : decide ((if Binary64.isNegative x then -d.toRat else d.toRat) < 0) = Binary64.isNegative x := by
      cases Binary64.isNegative x
      · simpa using hpos.le
      · simpa using hpos
    rw [hnegative]
    exact double_of_code_ne hx hcode

/-- A negative double that is written with zeros behind the point, and inspected with an exponent. -/
theorem Number.text_exact_small :
    let x := Binary64.ofDecimal true ⟨125, -8⟩
    x.isFinite ∧ (double x).isZero = false ∧
    (double x).inspect = "-1.25e-06".toList ∧ (double x).text = "-0.00000125".toList ∧
    ∃ q : ℚ, |q| = 125 / 10 ^ 8 ∧ IsNumeralOf q (double x).inspect ∧ IsNumeralOf q (double x).text := by
  intro x
  have hfinite : x.isFinite := by decide +kernel
  have hzero : (double x).isZero = false := by decide +kernel
  have hinspect : (double x).inspect = "-1.25e-06".toList := by decide +kernel
  have htext : (double x).text = "-0.00000125".toList := by decide +kernel
  have hshortest : Binary64.shortest (Binary64.code x) = ⟨125, -8⟩ := by decide +kernel
  obtain ⟨q, hexact⟩ := text_exact hfinite hzero
  have habs := hexact.magnitude
  rw [hshortest, ← Decimal.toRat_eq_pointed] at habs
  exact ⟨hfinite, hzero, hinspect, htext, q, by rw [habs]; norm_num [Decimal.toRat], hexact.inspected, hexact.denoted⟩

end Lisplet
