import Lisplet.Number
import Mathlib

/-!
# A double is its sign and its code

`ofCode_code`: putting the sign and the code of a double together again gives the double. The bits of
a double hold its sign, its exponent and its mantissa; unpacking and packing them is the identity on
words whose only NaN is the canonical one, and every double is such a word. The finite doubles are
those with a code below `infinity` (`isFinite_iff`); of these only the two zeros are equal to another one
(`Number.eq_double_iff`).
-/

namespace Lisplet.Binary64

open Float.Model Float.Model.UnpackedFloat

abbrev Word := BitVec Format.binary64.numBits

namespace Word
variable {b : Word}

theorem packComponents_self (b : Word) :
    packComponents .binary64 (Sign.ofBitVec (unpackSign b)) (unpackExponent b) (unpackMantissa b) = b := by
  have hsign : ∀ v : BitVec 1, (Sign.ofBitVec v).toBitVec = v := by decide
  unfold packComponents
  rw [hsign]
  ext i hi
  simp [unpackSign, unpackExponent, unpackMantissa]
  grind

theorem toNat_unpackExponent (b : Word) : (unpackExponent b).toNat = b.toNat / 2 ^ 52 % 2 ^ 11 := by
  simp [unpackExponent, Nat.shiftRight_eq_div_pow]

theorem unpackExponent_eq_neg_one_iff :
    unpackExponent b = -1#_ ↔ b.toNat / 2 ^ 52 % 2 ^ 11 = 2047 := by
  rw [← BitVec.toNat_inj, toNat_unpackExponent]; rfl

theorem unpackExponent_eq_zero_iff : unpackExponent b = 0#_ ↔ b.toNat / 2 ^ 52 % 2 ^ 11 = 0 := by
  rw [← BitVec.toNat_inj, toNat_unpackExponent]; rfl

theorem unpackMantissa_eq_zero_iff : unpackMantissa b = 0#_ ↔ b.toNat % 2 ^ 52 = 0 := by
  rw [← BitVec.toNat_inj]
  simp [unpackMantissa]

theorem unpack_eq_zero_iff : (∃ s, UnpackedFloat.unpack .binary64 b = .zero s) ↔ b.toNat % 2 ^ 63 = 0 := by
  have hparts : b.toNat % 2 ^ 63 = 0 ↔ unpackMantissa b = 0#_ ∧ unpackExponent b = 0#_ := by
    rw [unpackMantissa_eq_zero_iff, unpackExponent_eq_zero_iff]
    omega
  have hne : unpackExponent b = -1#_ → unpackExponent b ≠ 0#_ := by
    rw [ne_eq, unpackExponent_eq_neg_one_iff, unpackExponent_eq_zero_iff]
    omega
  rw [hparts]
  unfold UnpackedFloat.unpack
  dsimp only
  split
  · rename_i hones
    refine iff_of_false ?_ fun h => hne hones h.2
    rintro ⟨s, hs⟩
    split at hs <;> cases hs
  · split
    · rename_i hexp
      split
      · rename_i hman
        exact iff_of_true ⟨_, rfl⟩ ⟨hman, hexp⟩
      · rename_i hman
        exact iff_of_false (by simp) fun h => hman h.1
    · rename_i hexp
      exact iff_of_false (by simp) fun h => hexp h.2

/-- A subnormal magnitude is packed with the exponent zero. -/
theorem pack_subnormal (s : Sign) (m : BitVec 52) (hm : 0 < m.toNat) :
    UnpackedFloat.pack .binary64 (.finite s m.toNat ((0 : Nat) - (1023 + 52) + 1) hm) =
      packComponents .binary64 s 0#_ m := by
  have hlog : m.toNat.log2 < 52 := (Nat.log2_lt (Nat.ne_of_gt hm)).2 m.isLt
  refine (if_neg ?_).trans ?_
  · show ¬ _ + 1 = 1 + 52
    omega
  · rw [BitVec.ofNat_toNat, BitVec.setWidth_eq]

/-- A normal magnitude is packed with its own exponent and without its leading bit. -/
theorem pack_normal (s : Sign) (e : BitVec 11) (m : BitVec 52) (he : e ≠ -1#_)
    (hm : 0 < (1#1 ++ m).toNat) :
    UnpackedFloat.pack .binary64 (.finite s (1#1 ++ m).toNat ((e.toNat : Int) - (1023 + 52)) hm) =
      packComponents .binary64 s e m := by
  have hval : (1#1 ++ m).toNat = 2 ^ 52 + m.toNat := by
    rw [BitVec.toNat_append, ← Nat.shiftLeft_add_eq_or_of_lt m.isLt]; rfl
  have hlog : (1#1 ++ m).toNat.log2 = 52 := by
    rw [hval, Nat.log2_eq_iff (by omega)]
    exact ⟨Nat.le_add_right .., Nat.add_lt_add_left m.isLt _⟩
  have hbias : ((e.toNat : Int) - (1023 + 52) + 1023 + 52).toNat = e.toNat := by omega
  have hfits : ¬ 2 ^ 11 ≤ ((e.toNat : Int) - (1023 + 52) + 1023 + 52).toNat + 1 := by
    have hne : e.toNat ≠ 2047 := fun h => he (BitVec.eq_of_toNat_eq h)
    have := e.isLt
    omega
  refine (if_neg hfits).trans ((if_pos (congrArg (· + 1) hlog)).trans ?_)
  have hexp : BitVec.ofNat 11 ((e.toNat : Int) - (1023 + 52) + 1023 + 52).toNat = e := by
    rw [hbias]; exact BitVec.eq_of_toNat_eq (by simp)
  have hman : BitVec.ofNat 52 (1#1 ++ m).toNat = m := by
    refine BitVec.eq_of_toNat_eq ?_
    rw [hval, BitVec.toNat_ofNat, Nat.add_mod_left]
    exact Nat.mod_eq_of_lt m.isLt
  exact congrArg₂ (packComponents .binary64 s) hexp hman

theorem pack_unpack (hb : Format.binary64.Valid b) :
    UnpackedFloat.pack .binary64 (UnpackedFloat.unpack .binary64 b) = b := by
  have hself := packComponents_self b
  unfold UnpackedFloat.unpack
  dsimp only
  split
  · rename_i hexp
    split
    · rename_i hman
      rw [hexp, hman] at hself
      exact hself
    · rename_i hman
      exact (hb.eq_packedNaN hexp hman).symm
  · rename_i hexp
    split
    · rename_i hzero
      split
      · rename_i hman
        rw [hzero, hman] at hself
        exact hself
      · rename_i hman
        have hpos : 0 < (unpackMantissa b).toNat :=
          Nat.pos_of_ne_zero fun h => hman (BitVec.eq_of_toNat_eq h)
        have hpack := pack_subnormal (Sign.ofBitVec (unpackSign b)) (unpackMantissa b) hpos
        rw [hzero] at hself ⊢
        exact hpack.trans hself
    · exact (pack_normal _ _ _ hexp _).trans hself

end Word

theorem ofBits_toBits (x : Float) : Float.ofBits x.toBits = x := by
  obtain ⟨⟨bits, hvalid⟩⟩ := x
  show Float.ofModel (Float.Model.pack (UnpackedFloat.unpack .binary64 bits.toBitVec)) = _
  simp only [Float.Model.pack, Word.pack_unpack hvalid]

theorem toBits_ofBits {bits : UInt64} (h : Format.binary64.Valid bits.toBitVec) :
    (Float.ofBits bits).toBits = bits := by
  show UInt64.ofBitVec (UnpackedFloat.pack .binary64 (UnpackedFloat.unpack .binary64 bits.toBitVec)) = bits
  rw [Word.pack_unpack h]

theorem unpack_injective {x y : Float} (h : x.toModel.unpack = y.toModel.unpack) : x = y := by
  have hpack : ∀ z : Float, Float.ofModel (Float.Model.pack z.toModel.unpack) = z := ofBits_toBits
  rw [← hpack x, h, hpack y]

theorem unpack_eq_zero_iff (x : Float) : (∃ s, x.toModel.unpack = .zero s) ↔ code x = 0 :=
  Word.unpack_eq_zero_iff (b := x.toBits.toBitVec)

theorem ofCode_code (x : Float) : ofCode (isNegative x) (code x) = x := by
  have hsign : signBit = 2 ^ 63 := rfl
  have hlt : x.toBits.toNat < 2 ^ 64 := x.toBits.toNat_lt
  have hbits : (if isNegative x then signBit + code x else code x) = x.toBits.toNat := by
    simp only [isNegative, code, decide_eq_true_eq, hsign]
    split <;> omega
  rw [ofCode, hbits, UInt64.ofNat_toNat, ofBits_toBits]

theorem isFinite_iff (x : Float) : x.isFinite ↔ code x < infinity := by
  have hcode : code x = x.toBits.toNat % 2 ^ 63 := rfl
  have hinf : infinity = 2047 * 2 ^ 52 := rfl
  have hlt : code x < infinity ↔ ¬ x.toBits.toNat / 2 ^ 52 % 2 ^ 11 = 2047 := by
    rw [hcode, hinf]; omega
  rw [hlt]
  refine Iff.trans ?_ (not_congr (Word.unpackExponent_eq_neg_one_iff (b := x.toBits.toBitVec)))
  show (UnpackedFloat.unpack .binary64 x.toBits.toBitVec).isFinite = true ↔ _
  unfold UnpackedFloat.unpack
  dsimp only
  split
  · rename_i h
    refine iff_of_false ?_ (not_not_intro h)
    split <;> simp [UnpackedFloat.isFinite]
  · rename_i h
    refine iff_of_true ?_ h
    split
    · split <;> rfl
    · rfl

/-- A finite magnitude is a double without a sign. -/
theorem toBits_ofCode {c : Nat} (h : c < infinity) : (ofCode false c).toBits.toNat = c := by
  have hinf : infinity = 2047 * 2 ^ 52 := rfl
  have hsize : UInt64.size = 2 ^ 64 := rfl
  have hbits : (UInt64.ofNat c).toBitVec.toNat = c := UInt64.toNat_ofNat_of_lt' (by omega)
  have hvalid : Format.binary64.Valid (UInt64.ofNat c).toBitVec := by
    refine ⟨fun hexp => ?_⟩
    have := (Word.unpackExponent_eq_neg_one_iff (b := (UInt64.ofNat c).toBitVec)).1 hexp
    omega
  show (Float.ofBits (UInt64.ofNat c)).toBits.toNat = c
  rw [toBits_ofBits hvalid]
  exact hbits

theorem code_ofCode {c : Nat} (h : c < infinity) : code (ofCode false c) = c := by
  have hinf : infinity = 2047 * 2 ^ 52 := rfl
  have hsign : signBit = 2 ^ 63 := rfl
  rw [code, toBits_ofCode h]
  exact Nat.mod_eq_of_lt (by omega)

theorem isNegative_ofCode {c : Nat} (h : c < infinity) : isNegative (ofCode false c) = false := by
  have hinf : infinity = 2047 * 2 ^ 52 := rfl
  have hsign : signBit = 2 ^ 63 := rfl
  rw [isNegative, toBits_ofCode h]
  exact decide_eq_false (by omega)

theorem isNaN_eq_false {x : Float} (h : x.isFinite) : x.isNaN = false := by
  change x.toModel.unpack.isFinite = true at h
  show x.toModel.unpack.isNaN = false
  cases hx : x.toModel.unpack <;> simp_all [UnpackedFloat.isFinite, UnpackedFloat.isNaN]

end Lisplet.Binary64

namespace Lisplet.Number

open Float.Model Float.Model.UnpackedFloat

theorem eq_iff_compare {x y : Float} :
    eq (.double x) (.double y) = true ↔ x.toModel.unpack.compare y.toModel.unpack = some .eq := by
  have hlt : x < y ↔ x.toModel.unpack.compare y.toModel.unpack = some .lt := by
    show decide ((x.toModel.unpack.compare y.toModel.unpack == some .lt) = true) = true ↔ _
    simp
  have hbeq : (x == y) = (x.toModel.unpack.compare y.toModel.unpack == some .eq) := rfl
  simp only [eq, compare?, hlt, hbeq]
  split_ifs <;> simp_all

theorem compare_eq_some_eq {u v : UnpackedFloat} (hu : u.isFinite) (hv : v.isFinite) :
    u.compare v = some .eq ↔ u = v ∨ (∃ s, u = .zero s) ∧ ∃ s, v = .zero s := by
  cases u with
  | infinity | notANumber => cases hu
  | zero s =>
    cases v with
    | infinity | notANumber => cases hv
    | zero s' => simp [UnpackedFloat.compare]
    | finite s' m' e' hm' => cases s' <;> simp [UnpackedFloat.compare]
  | finite s m e hm =>
    cases v with
    | infinity | notANumber => cases hv
    | zero s' => cases s <;> simp [UnpackedFloat.compare]
    | finite s' m' e' hm' =>
      cases s <;> cases s' <;> simp [UnpackedFloat.compare, Ordering.then_eq_eq, and_comm]

/-- The only different finite doubles that are equal are the two zeros. -/
theorem eq_double_iff {x y : Float} (hx : x.isFinite) (hy : y.isFinite) :
    eq (.double x) (.double y) = true ↔ x = y ∨ Binary64.code x = 0 ∧ Binary64.code y = 0 := by
  rw [eq_iff_compare, compare_eq_some_eq hx hy, Binary64.unpack_eq_zero_iff, Binary64.unpack_eq_zero_iff]
  exact or_congr_left ⟨Binary64.unpack_injective, fun h => by rw [h]⟩

theorem eq_self {x : Float} (h : x.isFinite) : eq (.double x) (.double x) = true := (eq_double_iff h h).2 (.inl rfl)

end Lisplet.Number
