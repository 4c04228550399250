import Lisplet.Number.Layout
import Mathlib

/-!
# Decimals that read back

`nearestDecimal_shortest`: the shortest decimal of a finite magnitude rounds to that magnitude. The
search keeps only decimals that read back; where it finds none the exact decimal stands in, which
rounds to itself (`nearestDecimal_exactDecimal`). Moving powers of ten between the coefficient and
the exponent changes neither the place of the point nor the quotient, hence not the rounding
(`nearestDecimal_scale`).
-/

namespace Lisplet

namespace Decimal

theorem digits_mul_pow {c : Nat} (hc : 0 < c) (k : Nat) :
    Nat.toDigits 10 (c * 10 ^ k) = Nat.toDigits 10 c ++ List.replicate k '0' := by
  induction k with
  | zero => simp
  | succ k ih =>
    have hpos : 0 < c * 10 ^ k := Nat.mul_pos hc (Nat.pow_pos (by decide))
    have hstep := Nat.toDigits_append_toDigits (b := 10) (d := 0) (by decide) hpos (by decide)
    rw [Nat.toDigits_zero, ih, List.append_assoc, ← List.replicate_succ'] at hstep
    rw [hstep, show c * 10 ^ (k + 1) = 10 * (c * 10 ^ k) + 0 by ring]

/-- The place of the point is that of the number, however it is scaled. -/
theorem point_scale {c : Nat} (hc : 0 < c) (k : Nat) (e : Int) :
    (⟨c * 10 ^ k, e⟩ : Decimal).point = (⟨c, e + k⟩ : Decimal).point := by
  simp only [point, digits, digits_mul_pow hc, List.length_append, List.length_replicate]
  push_cast
  ring

/-- The number of digits is the one with `10 ^ (length - 1) ≤ coefficient < 10 ^ length`. -/
theorem length_digits_le {c k : Nat} (hk : 0 < k) (h : c < 10 ^ k) : (Nat.toDigits 10 c).length ≤ k :=
  (Nat.length_toDigits_le_iff (by decide) hk).2 h

theorem lt_length_digits {c k : Nat} (h : 10 ^ k ≤ c) : k < (Nat.toDigits 10 c).length := by
  rcases Nat.eq_zero_or_pos k with rfl | hk
  · exact Nat.length_toDigits_pos
  · exact Nat.lt_of_not_le fun hle =>
      Nat.not_lt.2 h ((Nat.length_toDigits_le_iff (by decide) hk).1 hle)

end Decimal

namespace Binary64

theorem nearestDecimal_scale (c k : Nat) (e : Int) :
    nearestDecimal ⟨c * 10 ^ k, e⟩ = nearestDecimal ⟨c, e + k⟩ := by
  rcases Nat.eq_zero_or_pos c with rfl | hc
  · simp [nearestDecimal]
  have hne : c * 10 ^ k ≠ 0 := Nat.ne_of_gt (Nat.mul_pos hc (Nat.pow_pos (by decide)))
  simp only [nearestDecimal, Decimal.point_scale hc, hne, Nat.ne_of_gt hc, false_or]
  -- both quotients are the same one, up to the power of ten that `m` counts
  obtain ⟨m, hden, hnum⟩ : ∃ m, (-e).toNat = (-(e + k)).toNat + m ∧ k + e.toNat = (e + k).toNat + m :=
    ⟨(-e).toNat - (-(e + k)).toNat, by omega, by omega⟩
  have hratio : nearest (c * 10 ^ k * 10 ^ e.toNat) (10 ^ (-e).toNat) =
      nearest (c * 10 ^ (e + k).toNat) (10 ^ (-(e + k)).toNat) := by
    rw [mul_assoc, ← pow_add, hnum, hden, pow_add, pow_add, ← mul_assoc]
    exact nearest_mul_right _ _ (Nat.pow_pos (by decide))
  exact if_congr Iff.rfl rfl (if_congr Iff.rfl rfl hratio)

theorem nearestDecimal_strip (k c : Nat) (e : Int) :
    nearestDecimal (Decimal.strip k c e) = nearestDecimal ⟨c, e⟩ := by
  induction k generalizing c e with
  | zero => rfl
  | succ k ih =>
    rw [Decimal.strip]
    split
    · rename_i h
      have hc : c / 10 * 10 ^ 1 = c := by omega
      rw [ih, ← Nat.cast_one (R := Int), ← nearestDecimal_scale, hc]
    · rfl

theorem nearestDecimal_trim (d : Decimal) : nearestDecimal d.trim = nearestDecimal d := by
  rw [Decimal.trim]
  split
  · rfl
  · exact nearestDecimal_strip ..

/-! ### The exact decimal -/

theorem significand_lt (code : Nat) : significand code < 2 ^ 53 := by
  have hb : binade = 2 ^ 52 := rfl
  have := Nat.mod_lt code binade_pos
  unfold significand
  split <;> omega

theorem significand_pos {code : Nat} (h : 0 < code) : 0 < significand code := by
  have := binade_pos
  unfold significand
  split <;> omega

theorem shift_lt {code : Nat} (h : code < infinity) : shift code < 2046 := by
  have hdiv : code / binade < 2047 := (Nat.div_lt_iff_lt_mul binade_pos).2 h
  unfold shift
  omega

/-- Powers of two leave room between the smallest magnitude and `10 ^ -331`. -/
theorem pow_ten_le_pow_five {j : Nat} (hj : j ≤ 1074) : 10 ^ (j - 331) ≤ 5 ^ j := by
  rcases Nat.lt_or_ge j 331 with h | h
  · rw [Nat.sub_eq_zero_of_le (Nat.le_of_lt h)]
    exact Nat.pow_pos (by decide)
  · obtain ⟨i, rfl⟩ := Nat.exists_eq_add_of_le h
    have hi : i ≤ 16 * 46 + 7 := by omega
    have hgap : 2 ^ i ≤ 5 ^ 331 :=
      calc 2 ^ i ≤ 2 ^ (16 * 46 + 7) := pow_le_pow_right₀ (by decide) hi
        _ = (2 ^ 16) ^ 46 * 2 ^ 7 := by rw [pow_add, pow_mul]
        _ ≤ (5 ^ 7) ^ 46 * 5 ^ 9 := Nat.mul_le_mul (Nat.pow_le_pow_left (by decide) _) (by decide)
        _ = 5 ^ 331 := by rw [← pow_mul, ← pow_add]
    calc 10 ^ (331 + i - 331) = 2 ^ i * 5 ^ i := by rw [Nat.add_sub_cancel_left, ← Nat.mul_pow]
      _ ≤ 5 ^ 331 * 5 ^ i := Nat.mul_le_mul hgap le_rfl
      _ = 5 ^ (331 + i) := (pow_add ..).symm

theorem point_exactDecimal {code : Nat} (hpos : 0 < code) (h : code < infinity) :
    -330 ≤ (exactDecimal code).point ∧ (exactDecimal code).point ≤ 310 := by
  have hsig := significand_pos hpos
  have hlt := significand_lt code
  have hshift := shift_lt h
  unfold exactDecimal
  split
  · have hup : significand code * 2 ^ (shift code - 1074) < 10 ^ 310 :=
      calc significand code * 2 ^ (shift code - 1074) ≤ 2 ^ 53 * 2 ^ 971 :=
            Nat.mul_le_mul (Nat.le_of_lt hlt) (Nat.pow_le_pow_right (by decide) (by omega))
        _ < 10 ^ 310 := by decide +kernel
    have hlen := Decimal.length_digits_le (by decide) hup
    constructor
    · show (-330 : Int) ≤ 0 + _; omega
    · show (0 : Int) + ((Nat.toDigits 10 (significand code * 2 ^ (shift code - 1074))).length : Nat) ≤ 310
      omega
  · obtain ⟨j, hj⟩ : ∃ j, 1074 - shift code = j := ⟨_, rfl⟩
    rw [hj]
    have hup : significand code * 5 ^ j < 10 ^ (16 + j) :=
      calc significand code * 5 ^ j < 2 ^ 53 * 5 ^ j := Nat.mul_lt_mul_of_pos_right hlt (Nat.pow_pos (by decide))
        _ ≤ 10 ^ 16 * 10 ^ j := Nat.mul_le_mul (by norm_num) (Nat.pow_le_pow_left (by decide) _)
        _ = 10 ^ (16 + j) := (Nat.pow_add ..).symm
    have hdown : 10 ^ (j - 331) ≤ significand code * 5 ^ j :=
      (pow_ten_le_pow_five (by omega)).trans (Nat.le_mul_of_pos_left _ hsig)
    have hlen := Decimal.length_digits_le (by omega) hup
    have hlen' := Decimal.lt_length_digits hdown
    show -330 ≤ -(j : Int) + ((Nat.toDigits 10 (significand code * 5 ^ j)).length : Nat) ∧
      -(j : Int) + ((Nat.toDigits 10 (significand code * 5 ^ j)).length : Nat) ≤ 310
    omega

theorem one_eq {n : Nat} (h : n = 1074) : one = 2 ^ n := by
  unfold one
  rw [← h, Nat.pow_eq]

theorem nearest_ratio_exactDecimal {code : Nat} (h : code < infinity) :
    nearest (exactDecimal code).ratio.1 (exactDecimal code).ratio.2 = code := by
  have hunits := nearest_units (Nat.le_of_lt h)
  have hscaled : units code = significand code * 2 ^ shift code := rfl
  -- the exponent of the unit is kept abstract, so that the unit is never computed
  obtain ⟨top, htop⟩ : ∃ top, top = 1074 := ⟨_, rfl⟩
  rw [hscaled, one_eq htop] at hunits
  unfold exactDecimal
  rw [← htop]
  split
  · rename_i hs
    have hratio : nearest (significand code * 2 ^ (shift code - top)) 1 = code := by
      rw [← nearest_mul_right _ _ (k := 2 ^ top) (Nat.pow_pos (by decide)),
        mul_assoc, ← pow_add, Nat.sub_add_cancel hs, one_mul, hunits]
    simpa [Decimal.ratio] using hratio
  · rename_i hs
    obtain ⟨j, hj⟩ : ∃ j, top - shift code = j := ⟨_, rfl⟩
    have hratio : nearest (significand code * 5 ^ j) (2 ^ j * 5 ^ j) = code := by
      rw [nearest_mul_right _ _ (Nat.pow_pos (by decide)),
        ← nearest_mul_right _ _ (k := 2 ^ shift code) (Nat.pow_pos (by decide)), ← pow_add,
        show j + shift code = top by omega, hunits]
    rw [← Nat.mul_pow] at hratio
    simpa [Decimal.ratio, hj] using hratio

theorem nearestDecimal_exactDecimal {code : Nat} (h : code < infinity) :
    nearestDecimal (exactDecimal code) = code := by
  rcases Nat.eq_zero_or_pos code with rfl | hpos
  · decide +kernel
  have hpoint := point_exactDecimal hpos h
  have hratio := nearest_ratio_exactDecimal h
  have hcoef : (exactDecimal code).coefficient ≠ 0 := by
    have hsig := significand_pos hpos
    unfold exactDecimal
    split
    · exact Nat.ne_of_gt (Nat.mul_pos hsig (Nat.pow_pos (by decide)))
    · exact Nat.ne_of_gt (Nat.mul_pos hsig (Nat.pow_pos (by decide)))
  rw [nearestDecimal, if_neg (by simp only [hcoef, false_or]; omega), if_neg (by omega), hratio]

theorem nearestDecimal_shortest {code : Nat} (h : code < infinity) :
    nearestDecimal (shortest code) = code := by
  rw [shortest, nearestDecimal_trim]
  cases hd : shortest? code with
  | none => exact nearestDecimal_exactDecimal h
  | some d =>
    obtain ⟨k, -, hk⟩ := List.exists_of_findSome?_eq_some hd
    simpa using List.find?_some hk

end Binary64

end Lisplet
