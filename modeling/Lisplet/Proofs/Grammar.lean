import Lisplet.Proofs.RoundTrip

/-!
# The grammar of numerals

`IsNumeral` is the grammar of number literals, given by its parts. `scan` takes a numeral off the
front of a literal (`scan_isNumeral`) and takes a numeral in full (`scan_of_isNumeral`). So a literal
overhangs exactly if it starts as a number and is not in the grammar (`overhangs_iff`).
-/

namespace Lisplet

namespace Numeral

def IsDigits (ds : List Char) : Prop := ds ≠ [] ∧ ∀ c ∈ ds, c.isDigit = true

inductive IsFraction : List Char → Prop
  | none : IsFraction []
  | point {ds : List Char} (h : ∀ c ∈ ds, c.isDigit = true) : IsFraction ('.' :: ds)

inductive IsExponent : List Char → Prop
  | none : IsExponent []
  | mark {e : Char} {sign ds : List Char} (he : e = 'e' ∨ e = 'E') (hsign : sign = [] ∨ sign = ['+'] ∨ sign = ['-'])
    (hds : IsDigits ds) : IsExponent (e :: (sign ++ ds))

/-- An optional minus, digits, an optional fraction and an optional exponent. -/
inductive IsNumeral : List Char → Prop
  | mk (negative : Bool) {whole fraction exponent : List Char} (hwhole : IsDigits whole)
    (hfraction : IsFraction fraction) (hexponent : IsExponent exponent) :
    IsNumeral (signText negative ++ (whole ++ (fraction ++ exponent)))

/-! ### What is taken off a literal -/

theorem isDigits_takeWhile {cs : List Char} (h : (cs.takeWhile Char.isDigit).isEmpty ≠ true) :
    IsDigits (cs.takeWhile Char.isDigit) :=
  ⟨fun hnil => h (List.isEmpty_iff.2 hnil), fun _ => List.mem_takeWhile_imp⟩

theorem scanSign_eq (cs : List Char) : cs = signText (scanSign cs).1 ++ (scanSign cs).2 := by
  unfold scanSign
  split <;> rfl

theorem scanFraction_eq (cs : List Char) :
    ∃ front, IsFraction front ∧ cs = front ++ (scanFraction cs).2 := by
  unfold scanFraction
  split
  · rename_i cs
    refine ⟨'.' :: cs.takeWhile Char.isDigit, .point fun c => List.mem_takeWhile_imp, ?_⟩
    rw [List.cons_append, List.takeWhile_append_dropWhile]
  · exact ⟨[], .none, rfl⟩

theorem scanExponentSign_eq (cs : List Char) :
    ∃ sign, (sign = [] ∨ sign = ['+'] ∨ sign = ['-']) ∧ cs = sign ++ (scanExponentSign cs).2 := by
  unfold scanExponentSign
  split
  · exact ⟨['+'], by simp, rfl⟩
  · refine ⟨signText (scanSign cs).1, ?_, scanSign_eq cs⟩
    cases (scanSign cs).1 <;> simp [signText]

/-- An exponent that is scanned: a mark, what stands for a sign, and digits. -/
theorem scanExponent?_parts {cs rest : List Char} {e : Int} (h : scanExponent? cs = some (e, rest)) :
    ∃ mark behind ds, cs = mark :: behind ∧ (mark = 'e' ∨ mark = 'E') ∧ IsDigits ds ∧
      (scanExponentSign behind).2 = ds ++ rest ∧
      e = if (scanExponentSign behind).1 then -(Nat.ofDigitChars 10 ds 0 : Int) else Nat.ofDigitChars 10 ds 0 := by
  unfold scanExponent? at h
  split at h
  · cases h
  · rename_i c cs
    split at h
    · rename_i hmark
      dsimp only at h
      split at h
      · cases h
      · rename_i hdigits
        cases h
        exact ⟨c, cs, _, rfl, hmark, isDigits_takeWhile hdigits, List.takeWhile_append_dropWhile.symm, rfl⟩
    · cases h

theorem scanExponent?_eq_some {cs rest : List Char} {e : Int} (h : scanExponent? cs = some (e, rest)) :
    ∃ front, IsExponent front ∧ cs = front ++ rest := by
  obtain ⟨mark, behind, ds, rfl, hmark, hds, hbehind, -⟩ := scanExponent?_parts h
  obtain ⟨sign, hsign, hcs⟩ := scanExponentSign_eq behind
  exact ⟨_, .mark hmark hsign hds, by rw [List.cons_append, List.append_assoc, ← hbehind, ← hcs]⟩

/-- Where no exponent is scanned, it is empty and zero. -/
theorem exists_exponent {P : List Char → Int → Prop} {cs rest : List Char} {e : Int} (hnone : P [] 0)
    (hsome : ∀ {e rest}, scanExponent? cs = some (e, rest) → ∃ front, P front e ∧ cs = front ++ rest)
    (h : (scanExponent? cs).getD (0, cs) = (e, rest)) : ∃ front, P front e ∧ cs = front ++ rest := by
  cases hscan : scanExponent? cs with
  | none =>
    rw [hscan] at h
    cases h
    exact ⟨[], hnone, rfl⟩
  | some scanned =>
    rw [hscan] at h
    cases h
    exact hsome hscan

/-- A literal that is scanned has a sign and digits at its front, and the rest is scanned for a fraction and an
exponent. -/
theorem exists_whole {cs rest : List Char} {n : Numeral} (h : scan cs = some (n, rest)) :
    ∃ behind, cs = signText n.negative ++ (n.whole ++ behind) ∧ IsDigits n.whole ∧
      n.fraction = (scanFraction behind).1 ∧
      (scanExponent? (scanFraction behind).2).getD (0, (scanFraction behind).2) = (n.exponent, rest) := by
  unfold scan at h
  dsimp only at h
  split at h
  · cases h
  · rename_i hwhole
    cases h
    refine ⟨(scanSign cs).2.dropWhile Char.isDigit, ?_, isDigits_takeWhile hwhole, rfl, rfl⟩
    rw [List.takeWhile_append_dropWhile, ← scanSign_eq]

/-- What is taken off a literal is a numeral. -/
theorem scan_isNumeral {cs rest : List Char} {n : Numeral} (h : scan cs = some (n, rest)) :
    ∃ front, IsNumeral front ∧ cs = front ++ rest := by
  obtain ⟨behind, rfl, hwhole, -, hscan⟩ := exists_whole h
  obtain ⟨fraction, hfraction, hbehind⟩ := scanFraction_eq behind
  obtain ⟨exponent, hexponent, hrest⟩ :=
    exists_exponent (P := fun front _ => IsExponent front) .none scanExponent?_eq_some hscan
  refine ⟨_, .mk n.negative hwhole hfraction hexponent, ?_⟩
  conv_lhs => rw [hbehind, hrest]
  simp only [List.append_assoc]

theorem isNumeral_of_scan {cs : List Char} {n : Numeral} (h : scan cs = some (n, [])) : IsNumeral cs := by
  obtain ⟨front, hfront, rfl⟩ := scan_isNumeral h
  rwa [List.append_nil]

/-! ### Numerals in full -/

theorem IsExponent.endsDigits {exponent : List Char} (h : IsExponent exponent) : EndsDigits exponent := by
  cases h with
  | none => rintro c ⟨⟩
  | mark he =>
    rintro c ⟨⟩
    rcases he with rfl | rfl <;> decide

theorem IsFraction.endsDigits {fraction exponent : List Char} (h : IsFraction fraction) (he : IsExponent exponent) :
    EndsDigits (fraction ++ exponent) := by
  cases h with
  | none => exact he.endsDigits
  | point =>
    rintro c ⟨⟩
    decide

theorem IsFraction.scan {fraction exponent : List Char} (h : IsFraction fraction) (he : IsExponent exponent) :
    (scanFraction (fraction ++ exponent)).2 = exponent := by
  cases h with
  | none =>
    cases he with
    | none => rfl
    | mark hmark => rcases hmark with rfl | rfl <;> rfl
  | point hds => rw [List.cons_append, scanFraction_point hds he.endsDigits]

theorem scanExponentSign_digits {sign ds : List Char} (hsign : sign = [] ∨ sign = ['+'] ∨ sign = ['-'])
    (hds : IsDigits ds) (rest : List Char) : (scanExponentSign (sign ++ (ds ++ rest))).2 = ds ++ rest := by
  rcases hsign with rfl | rfl | rfl
  · obtain ⟨c, cs, rfl⟩ := List.exists_cons_of_ne_nil hds.1
    have hc := hds.2 c (List.mem_cons_self ..)
    have hplus : c ≠ '+' := fun h => by rw [h] at hc; cases hc
    rw [List.nil_append, List.cons_append, scanExponentSign.eq_2 _ fun _ h => hplus (List.cons.inj h).1]
    exact congrArg (·.2) (scanSign_signText false (cs ++ rest) hc)
  · rfl
  · rfl

theorem IsExponent.scan {exponent : List Char} (h : IsExponent exponent) :
    ∃ e, (scanExponent? exponent).getD (0, exponent) = (e, []) := by
  cases h with
  | none => exact ⟨0, rfl⟩
  | @mark e sign ds he hsign hds =>
    have hend : EndsDigits [] := by rintro c ⟨⟩
    have htake := takeWhile_digits hds.2 hend
    have hdrop := dropWhile_digits hds.2 hend
    have hscan := scanExponentSign_digits hsign hds []
    rw [List.append_nil] at htake hdrop hscan
    have hne : ds.isEmpty = false := List.isEmpty_eq_false_iff.2 hds.1
    simp only [scanExponent?, he, ↓reduceIte, hscan, htake, hdrop, hne, Bool.false_eq_true, Option.getD_some]
    exact ⟨_, rfl⟩

/-- A numeral is taken in full. -/
theorem scan_of_isNumeral {cs : List Char} (h : IsNumeral cs) : ∃ n, scan cs = some (n, []) := by
  obtain ⟨negative, hwhole, hfraction, hexponent⟩ := h
  obtain ⟨e, he⟩ := hexponent.scan
  have hscan := scan_whole negative _ _ hwhole.1 hwhole.2 (hfraction.endsDigits hexponent)
  rw [hfraction.scan hexponent, he] at hscan
  exact ⟨_, hscan⟩

end Numeral

open Numeral

theorem startsNumber_of_scan {cs : List Char} (h : scan cs ≠ none) : startsNumber cs = true := by
  by_contra hstart
  exact h (scan_eq_none (by simpa using hstart))

theorem scan_of_startsNumber {cs : List Char} (h : startsNumber cs = true) : scan cs ≠ none := by
  unfold startsNumber at h
  split at h
  · simp [scan, scanSign, h]
  · rename_i c rest _
    have hsign := scanSign_signText false rest h
    rw [show signText false ++ c :: rest = c :: rest from rfl] at hsign
    simp [scan, hsign, h]
  · cases h

/-- A literal overhangs if it starts as a number and is not one in full. -/
theorem overhangs_iff {cs : List Char} : overhangs cs = true ↔ startsNumber cs = true ∧ ¬ IsNumeral cs := by
  unfold overhangs
  constructor
  · intro h
    split at h
    · rename_i n rest hscan
      refine ⟨startsNumber_of_scan (by simp [hscan]), fun hnumeral => ?_⟩
      obtain ⟨n', hscan'⟩ := scan_of_isNumeral hnumeral
      rw [hscan] at hscan'
      cases hscan'
      cases h
    · cases h
  · rintro ⟨hstart, hnumeral⟩
    cases hscan : scan cs with
    | none => exact absurd hscan (scan_of_startsNumber hstart)
    | some scanned =>
      obtain ⟨n, rest⟩ := scanned
      obtain ⟨front, hfront, rfl⟩ := scan_isNumeral hscan
      cases rest with
      | nil => exact absurd (by rwa [List.append_nil]) hnumeral
      | cons c rest => rfl

end Lisplet
