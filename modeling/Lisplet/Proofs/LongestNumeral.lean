import Lisplet.Proofs.FirstMatch
import Lisplet.Proofs.Grammar
import Lisplet.Text.Digit
import Lisplet.Text.Integer

/-!
# The longest numeral of a literal

`readLiteral_longest`: a literal that starts as a number is read as the number of the longest numeral at its
front. What the scan leaves is behind every numeral that the literal starts with (`Numeral.scan_suffix`), and
what it takes is a text that is converted to the double that is read (`Numeral.scan_converts`), so that reading
does not fail. A strict reader refuses the literal unless it is that numeral in full.
-/

namespace Lisplet

namespace Numeral

/-! ### Every numeral at the front -/

theorem scanFraction_suffix (cs : List Char) : (scanFraction cs).2 <:+ cs := by
  obtain ⟨front, -, hcs⟩ := scanFraction_eq cs
  exact ⟨front, hcs.symm⟩

/-- What is left behind an exponent, if there is one. -/
def behindExponent (cs : List Char) : List Char := ((scanExponent? cs).getD (0, cs)).2

/-- What is left behind a fraction and an exponent, each if there is one. -/
def behindWhole (cs : List Char) : List Char := behindExponent (scanFraction cs).2

theorem behindExponent_suffix (cs : List Char) : behindExponent cs <:+ cs := by
  unfold behindExponent
  cases hscan : scanExponent? cs with
  | none => exact List.suffix_refl cs
  | some scanned =>
    obtain ⟨front, -, hcs⟩ := scanExponent?_eq_some hscan
    exact ⟨front, hcs.symm⟩

theorem behindWhole_suffix (cs : List Char) : behindWhole cs <:+ cs :=
  (behindExponent_suffix _).trans (scanFraction_suffix cs)

theorem IsExponent.behind_suffix {exponent : List Char} (h : IsExponent exponent) (rest : List Char) :
    behindExponent ((exponent ++ rest).dropWhile Char.isDigit) <:+ rest := by
  cases h with
  | none => exact (behindExponent_suffix _).trans (List.dropWhile_suffix _)
  | @mark e sign ds he hsign hds =>
    have hdigit : e.isDigit = false := by rcases he with rfl | rfl <;> rfl
    have htake : ((ds ++ rest).takeWhile Char.isDigit).isEmpty = false := by
      rw [List.takeWhile_append_of_pos hds.2]
      simp [hds.1]
    rw [List.cons_append, List.dropWhile_cons_of_neg (by simp [hdigit]), List.append_assoc]
    simp only [behindExponent, scanExponent?, he, ↓reduceIte, scanExponentSign_digits hsign hds rest, htake,
      Bool.false_eq_true, Option.getD_some]
    rw [List.dropWhile_append_of_pos hds.2]
    exact List.dropWhile_suffix _

theorem IsFraction.behind_suffix {fraction exponent : List Char} (h : IsFraction fraction) (he : IsExponent exponent)
    (rest : List Char) : behindWhole ((fraction ++ (exponent ++ rest)).dropWhile Char.isDigit) <:+ rest := by
  cases h with
  | none =>
    cases he with
    | none => exact (behindWhole_suffix _).trans (List.dropWhile_suffix _)
    | @mark e sign ds hmark hsign hds =>
      -- the mark of an exponent is neither a digit nor a point
      have hexponent := (IsExponent.mark hmark hsign hds).behind_suffix rest
      have hdrop : ((e :: (sign ++ ds)) ++ rest).dropWhile Char.isDigit = (e :: (sign ++ ds)) ++ rest := by
        rcases hmark with rfl | rfl <;> rfl
      have hpoint : scanFraction ((e :: (sign ++ ds)) ++ rest) = ([], (e :: (sign ++ ds)) ++ rest) := by
        rcases hmark with rfl | rfl <;> rfl
      rw [hdrop] at hexponent
      rwa [List.nil_append, hdrop, behindWhole, hpoint]
  | @point ds hds =>
    rw [List.cons_append, List.dropWhile_cons_of_neg (by decide), behindWhole, scanFraction,
      List.dropWhile_append_of_pos hds]
    exact he.behind_suffix rest

/-- The scan takes no less than any numeral at the front. -/
theorem scan_suffix {front rest left : List Char} {n : Numeral} (h : IsNumeral front)
    (hscan : scan (front ++ rest) = some (n, left)) : left <:+ rest := by
  obtain ⟨negative, hwhole, hfraction, hexponent⟩ := h
  rename_i whole fraction exponent
  set behind := fraction ++ (exponent ++ rest)
  have hsplit : signText negative ++ (whole ++ (fraction ++ exponent)) ++ rest =
      signText negative ++ ((whole ++ behind.takeWhile Char.isDigit) ++ behind.dropWhile Char.isDigit) := by
    rw [List.append_assoc whole, List.takeWhile_append_dropWhile]
    simp only [behind, List.append_assoc]
  have hdigits : ∀ c ∈ whole ++ behind.takeWhile Char.isDigit, c.isDigit = true :=
    List.forall_mem_append.2 ⟨hwhole.2, fun c => List.mem_takeWhile_imp⟩
  have hends : EndsDigits (behind.dropWhile Char.isDigit) := by
    intro c hc
    have := List.head?_dropWhile_not Char.isDigit behind
    rw [hc] at this
    exact this
  rw [hsplit, scan_whole negative _ _ (by simp [hwhole.1]) hdigits hends] at hscan
  obtain ⟨-, rfl⟩ := Prod.mk.inj (Option.some.inj hscan)
  exact hfraction.behind_suffix hexponent rest

/-- The longest numeral that a text starts with. -/
structure IsLongest (cs front : List Char) : Prop where
  isNumeral : IsNumeral front
  isPrefix : front <+: cs
  longest : ∀ p, IsNumeral p → p <+: cs → p <+: front

theorem exists_isLongest {cs rest : List Char} {n : Numeral} (h : scan cs = some (n, rest)) :
    ∃ front, cs = front ++ rest ∧ IsLongest cs front := by
  obtain ⟨front, hfront, rfl⟩ := scan_isNumeral h
  refine ⟨front, rfl, hfront, List.prefix_append .., ?_⟩
  rintro p hp ⟨rest', hrest'⟩
  have hsuffix : rest <:+ rest' := scan_suffix hp (hrest' ▸ h)
  have hlen := congrArg List.length hrest'
  simp only [List.length_append] at hlen
  exact List.prefix_of_prefix_length_le (hrest' ▸ List.prefix_append p rest') (List.prefix_append ..)
    (by have := hsuffix.length_le; omega)

theorem IsNumeral.ne_nil {cs : List Char} (h : IsNumeral cs) : cs ≠ [] := by
  obtain ⟨negative, hwhole, -, -⟩ := h
  simp [hwhole.1]

/-! ### Texts that are converted to doubles -/

inductive Sign : List Char → Bool → Prop
  | none : Sign [] false
  | plus : Sign ['+'] false
  | minus : Sign ['-'] true

/-- Digits of any script, with single underscores between them, and the number that they stand for. -/
def DigitRow (ds : List Char) (n : Nat) : Prop := Text.readDigits false 0 ds = some n

def digitCount (ds : List Char) : Nat := ds.countP fun c => (Text.digit? c).isSome

/-- Digits with a point before, among or behind them, or none; the number that they stand for without the point,
and how many of them are behind it. -/
inductive Coefficient : List Char → Nat → Nat → Prop
  | whole {ds : List Char} {n : Nat} (h : DigitRow ds n) : Coefficient ds n 0
  | pointBehind {ds : List Char} {n : Nat} (h : DigitRow ds n) : Coefficient (ds ++ ['.']) n 0
  | pointBefore {ds : List Char} {n : Nat} (h : DigitRow ds n) : Coefficient ('.' :: ds) n (digitCount ds)
  | pointAmong {ds es : List Char} {n m : Nat} (hds : DigitRow ds n) (hes : DigitRow es m) :
    Coefficient (ds ++ '.' :: es) (10 ^ digitCount es * n + m) (digitCount es)

inductive Scale : List Char → Int → Prop
  | none : Scale [] 0
  | mark {e : Char} {sign ds : List Char} {negative : Bool} {n : Nat} (he : e = 'e' ∨ e = 'E')
    (hsign : Sign sign negative) (hds : DigitRow ds n) : Scale (e :: (sign ++ ds)) (if negative then -n else n)

/-- The texts that are converted to a double: numbers in decimal notation, and the words for the infinities and for
what is no number, in letters of either case. There may be blanks around them. -/
inductive Converts : List Char → Float → Prop
  | decimal {sign ds es : List Char} {negative : Bool} {n k : Nat} {e : Int} (hsign : Sign sign negative)
    (hds : Coefficient ds n k) (hes : Scale es e) :
    Converts (sign ++ (ds ++ es)) (Binary64.ofDecimal negative ⟨n, e - k⟩)
  | infinity {sign word : List Char} {negative : Bool} (hsign : Sign sign negative)
    (hword : String.ofList (word.map Char.toLower) ∈ ["inf", "infinity"]) :
    Converts (sign ++ word) (Binary64.ofCode negative Binary64.infinity)
  | notNumber {sign word : List Char} {negative : Bool} {x : Float} (hsign : Sign sign negative)
    (hword : String.ofList (word.map Char.toLower) = "nan") (hx : x.isNaN = true) : Converts (sign ++ word) x
  | blanks {cs : List Char} {x : Float} (h : Converts (Text.trim cs) x) : Converts cs x

theorem digit?_of_isDigit {c : Char} (h : c.isDigit = true) : Text.digit? c = some (c.toNat - '0'.toNat) := by
  have hrange := Char.isDigit_iff_toNat.1 h
  have hzero : Text.zeros.find? (fun z => z ≤ c.toNat && c.toNat < z + 10) = some '0'.toNat := by
    refine List.find?_cons_of_pos ?_
    simp only [show '0'.toNat = 48 from rfl, show '9'.toNat = 57 from rfl] at hrange
    simp only [Bool.and_eq_true, decide_eq_true_eq]
    omega
  rw [Text.digit?, hzero, Option.map_some]

theorem readDigits_eq {ds : List Char} (hds : ∀ c ∈ ds, c.isDigit = true) {closed : Bool} (n : Nat)
    (h : ds ≠ [] ∨ closed = true) : Text.readDigits closed n ds = some (Nat.ofDigitChars 10 ds n) := by
  induction ds generalizing closed n with
  | nil =>
    obtain rfl : closed = true := by simpa using h
    rfl
  | cons c ds ih =>
    obtain ⟨hc, hds⟩ := List.forall_mem_cons.1 hds
    simp only [Text.readDigits, digit?_of_isDigit hc]
    rw [ih hds _ (.inr rfl), Nat.ofDigitChars_cons]

theorem IsDigits.digitRow {ds : List Char} (h : IsDigits ds) : DigitRow ds (Nat.ofDigitChars 10 ds 0) :=
  readDigits_eq h.2 0 (.inl h.1)

theorem digitCount_eq {ds : List Char} (hds : ∀ c ∈ ds, c.isDigit = true) : digitCount ds = ds.length :=
  List.countP_eq_length.2 fun c hc => by rw [digit?_of_isDigit (hds c hc)]; rfl

theorem sign_signText (negative : Bool) : Sign (signText negative) negative := by
  cases negative with
  | true => exact .minus
  | false => exact .none

theorem scanFraction_coefficient {whole : List Char} (hwhole : IsDigits whole) (cs : List Char) :
    ∃ front, cs = front ++ (scanFraction cs).2 ∧
      Coefficient (whole ++ front) (Nat.ofDigitChars 10 (whole ++ (scanFraction cs).1) 0)
        (scanFraction cs).1.length := by
  unfold scanFraction
  split
  · rename_i cs
    refine ⟨'.' :: cs.takeWhile Char.isDigit, by rw [List.cons_append, List.takeWhile_append_dropWhile], ?_⟩
    dsimp only
    by_cases hds : (cs.takeWhile Char.isDigit).isEmpty = true
    · rw [List.isEmpty_iff.1 hds, List.append_nil]
      exact .pointBehind hwhole.digitRow
    · have hdigits := isDigits_takeWhile hds
      rw [Nat.ofDigitChars_append, Nat.ofDigitChars_eq_ofDigitChars_zero, ← digitCount_eq hdigits.2]
      exact .pointAmong hwhole.digitRow hdigits.digitRow
  · refine ⟨[], rfl, ?_⟩
    dsimp only
    rw [List.append_nil]
    exact .whole hwhole.digitRow

theorem scanExponentSign_sign (cs : List Char) :
    ∃ sign, Sign sign (scanExponentSign cs).1 ∧ cs = sign ++ (scanExponentSign cs).2 := by
  unfold scanExponentSign
  split
  · exact ⟨['+'], .plus, rfl⟩
  · exact ⟨_, sign_signText _, scanSign_eq cs⟩

theorem scanExponent?_scale {cs rest : List Char} {e : Int} (h : scanExponent? cs = some (e, rest)) :
    ∃ front, Scale front e ∧ cs = front ++ rest := by
  obtain ⟨mark, behind, ds, rfl, hmark, hds, hbehind, rfl⟩ := scanExponent?_parts h
  obtain ⟨sign, hsign, hcs⟩ := scanExponentSign_sign behind
  exact ⟨_, .mark hmark hsign hds.digitRow, by rw [List.cons_append, List.append_assoc, ← hbehind, ← hcs]⟩

/-- What is taken off a literal is converted to the double that the numeral denotes. -/
theorem scan_converts {cs rest : List Char} {n : Numeral} (h : scan cs = some (n, rest)) :
    ∃ front, Converts front n.toDouble ∧ cs = front ++ rest := by
  obtain ⟨behind, rfl, hwhole, hdigits, hscan⟩ := exists_whole h
  obtain ⟨fraction, hbehind, hcoefficient⟩ := scanFraction_coefficient hwhole behind
  obtain ⟨exponent, hscale, hrest⟩ := exists_exponent .none scanExponent?_scale hscan
  rw [← hdigits] at hcoefficient
  refine ⟨_, .decimal (sign_signText n.negative) hcoefficient hscale, ?_⟩
  conv_lhs => rw [hbehind, hrest]
  simp only [List.append_assoc]

end Numeral

open Numeral

/-- A literal that starts as a number has a longest numeral at its front, which is what the first match of the
pattern takes. It is converted to a double, and without strictness that is what the literal is read as. With
strictness so it is if the literal is a numeral in full, and else it is malformed. -/
theorem readLiteral_longest {cs : List Char} (h : startsNumber cs = true) (start : Nat) :
    ∃ front rest x, cs = front ++ rest ∧ Pattern.numeral.first? cs = some rest ∧ IsLongest cs front ∧ front ≠ [] ∧
      Converts front x ∧ readLiteral false cs start = .ok (.double x) ∧
      (IsNumeral cs → readLiteral true cs start = .ok (.double x)) ∧
      (¬ IsNumeral cs → readLiteral true cs start =
        .error (.unreadable (.malformedNumber (String.ofList cs) start))) := by
  obtain ⟨⟨n, rest⟩, hscan⟩ := Option.ne_none_iff_exists'.1 (scan_of_startsNumber h)
  obtain ⟨front, hcs, hlongest⟩ := exists_isLongest hscan
  obtain ⟨front', hconverts, hcs'⟩ := scan_converts hscan
  obtain rfl : front' = front := List.append_cancel_right (hcs'.symm.trans hcs)
  have hvalue : literalValue cs = .double n.toDouble := by rw [literalValue, hscan]
  refine ⟨front', rest, n.toDouble, hcs, by rw [Pattern.first?_numeral, hscan]; rfl, hlongest,
    hlongest.isNumeral.ne_nil, hconverts, ?_, fun hnumeral => ?_, fun hnumeral => ?_⟩
  · rw [readLiteral_eq, hvalue]
    rfl
  · have hover : overhangs cs = false := Bool.eq_false_iff.2 fun hover => (overhangs_iff.1 hover).2 hnumeral
    rw [readLiteral_eq, hover, hvalue]
    rfl
  · rw [readLiteral_eq, overhangs_iff.2 ⟨h, hnumeral⟩]
    rfl

/-- An exponent without digits is given back, and the point before it is not. -/
theorem readLiteral_longest_mark :
    startsNumber "-0.e+x".toList = true ∧
    ∃ x, Converts "-0.".toList x ∧ IsLongest "-0.e+x".toList "-0.".toList ∧
      readLiteral false "-0.e+x".toList 7 = .ok (.double x) ∧
      readLiteral true "-0.e+x".toList 7 = .error (.unreadable (.malformedNumber "-0.e+x" 7)) := by
  have hstart : startsNumber "-0.e+x".toList = true := by decide
  obtain ⟨front, rest, x, hcs, hfirst, hlongest, -, hconverts, hlenient, -, hstrict⟩ := readLiteral_longest hstart 7
  have hrest : Pattern.numeral.first? "-0.e+x".toList = some "e+x".toList := by decide
  obtain rfl : "e+x".toList = rest := Option.some.inj (hrest.symm.trans hfirst)
  obtain rfl : "-0.".toList = front := List.append_cancel_right (show "-0.".toList ++ "e+x".toList = _ from hcs)
  have hoverhangs : ¬ IsNumeral "-0.e+x".toList := fun hnumeral =>
    absurd (hlongest.longest _ hnumeral (List.prefix_refl _)).length_le (by decide)
  exact ⟨hstart, x, hconverts, hlongest, hlenient, hstrict hoverhangs⟩

end Lisplet
