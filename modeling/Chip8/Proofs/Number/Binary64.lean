import Chip8.Number.Binary64
import Mathlib

/-!
# Binary64 numbers from one on

A number whose whole part is positive is at least one, and so is the binary64 number nearest to a
positive integer. Anything below one is smaller than either. The bits of a number are compared
through its fields, in the form in which the comparison itself reads them.
-/

set_option autoImplicit false

namespace Chip8.Binary64

open Float.Model (Format)
open Float.Model.UnpackedFloat

/-! ## Comparison with one -/

/-- The number is finite and at least one: its leading bit stands for one or for more. -/
def ReachesOne (x : Float) : Prop :=
  ∃ m e h, x.toModel.unpack = .finite .positive m e h ∧ 2 ^ 52 ≤ m ∧ -52 ≤ e

theorem lt_iff_compare {x y : Float} :
    x < y ↔ x.toModel.unpack.compare y.toModel.unpack = some .lt := by
  have hlt : x < y ↔ (x.toModel.unpack.compare y.toModel.unpack == some .lt) = true :=
    decide_eq_true_iff
  rw [hlt, beq_iff_eq]

theorem compare_finite_eq_lt {m₁ m₂ : Nat} {e₁ e₂ : Int} {h₁ : 0 < m₁} {h₂ : 0 < m₂} :
    Float.Model.UnpackedFloat.compare (.finite .positive m₁ e₁ h₁) (.finite .positive m₂ e₂ h₂) =
      some .lt ↔ e₁ < e₂ ∨ e₁ = e₂ ∧ m₁ < m₂ := by
  simp only [Float.Model.UnpackedFloat.compare, Option.some.injEq, Ordering.then_eq_lt,
    Int.compare_eq_lt, Int.compare_eq_eq, Nat.compare_eq_lt]

theorem unpack_one :
    (1.0 : Float).toModel.unpack = .finite .positive (2 ^ 52) (-52) (by decide) := by rfl

/-- A number below one is smaller than any that reaches one. -/
theorem lt_of_reachesOne {x y : Float} (hx : x < 1.0) (hy : ReachesOne y) : x < y := by
  obtain ⟨m, e, h, hy, hm, he⟩ := hy
  rw [lt_iff_compare, unpack_one] at hx
  rw [lt_iff_compare, hy]
  cases hu : x.toModel.unpack with
  | notANumber => rw [hu] at hx; cases hx
  | infinity s => cases s with
    | negative => rfl
    | positive => rw [hu] at hx; cases hx
  | zero s => cases s <;> rfl
  | finite s m' e' h' =>
    cases s with
    | negative => rfl
    | positive =>
      rw [hu, compare_finite_eq_lt] at hx
      rw [compare_finite_eq_lt]
      omega

/-- A number that reaches one is not below it. -/
theorem not_lt_one_of_reachesOne {x : Float} (h : ReachesOne x) : ¬ x < 1.0 := by
  obtain ⟨m, e, h, hx, hm, he⟩ := h
  rw [lt_iff_compare, unpack_one, hx, compare_finite_eq_lt]
  omega

/-! ## Fields -/

theorem toNat_unpackExponent (b : BitVec Format.binary64.numBits) :
    (unpackExponent b).toNat = (b.toNat >>> 52) % 2 ^ 11 := by
  simp [unpackExponent]

theorem toNat_unpackMantissa (b : BitVec Format.binary64.numBits) :
    (unpackMantissa b).toNat = b.toNat % 2 ^ 52 := by
  simp [unpackMantissa]

theorem toNat_unpackSign (b : BitVec Format.binary64.numBits) :
    (unpackSign b).toNat = (b.toNat >>> 63) % 2 := by
  simp [unpackSign]

/-- The bits of a positive normal number give its fields. -/
theorem unpack_normal {b : BitVec Format.binary64.numBits} {bits : Nat} (hb : b.toNat = bits)
    (hsign : bits >>> 63 = 0) (hlow : (bits >>> 52) % 2 ^ 11 ≠ 0)
    (htop : (bits >>> 52) % 2 ^ 11 ≠ 2047) :
    ∃ h, unpack Format.binary64 b = .finite .positive (2 ^ 52 + bits % 2 ^ 52)
      (((bits >>> 52) % 2 ^ 11 : Nat) - 1075) h := by
  have hexponent := toNat_unpackExponent b
  rw [hb] at hexponent
  have hones : unpackExponent b ≠ -1#_ := by
    intro heq
    exact htop (hexponent.symm.trans (congrArg BitVec.toNat heq))
  have hzeros : unpackExponent b ≠ 0#_ := by
    intro heq
    exact hlow (hexponent.symm.trans (congrArg BitVec.toNat heq))
  have hpositive : Sign.ofBitVec (unpackSign b) = .positive := by
    have hbit : unpackSign b = 0#1 := by
      apply BitVec.eq_of_toNat_eq
      rw [toNat_unpackSign, hb, hsign]
      rfl
    rw [hbit]
    rfl
  have hmantissa : (1#1 ++ unpackMantissa b).toNat = 2 ^ 52 + bits % 2 ^ 52 := by
    rw [BitVec.toNat_append, ← Nat.shiftLeft_add_eq_or_of_lt (unpackMantissa b).isLt,
      toNat_unpackMantissa, hb]
    rfl
  refine ⟨by omega, ?_⟩
  simp only [unpack, if_neg hones, if_neg hzeros, hpositive, hmantissa, hexponent]
  rfl

theorem unpackSign_packComponents {spec : Format} {sign exponent mantissa} :
    unpackSign (packComponents spec sign exponent mantissa) = sign.toBitVec := by
  ext i hi
  have hzero : i = 0 := by omega
  subst hzero
  simp [unpackSign, packComponents, BitVec.getLsbD_append, BitVec.getElem_append]

theorem ofNat_ne {w k : Nat} {c : BitVec w} (h : k % 2 ^ w ≠ c.toNat) : BitVec.ofNat w k ≠ c :=
  fun heq => h ((BitVec.toNat_ofNat k w).symm.trans (congrArg BitVec.toNat heq))

/-- A positive normal number is unpacked to what it was packed from. -/
theorem unpack_pack_normal {m : Nat} {e : Int} (h : 0 < m) (hm : 2 ^ 52 ≤ m) (hm' : m < 2 ^ 53)
    (he : -1074 ≤ e) (he' : e < 972) :
    unpack Format.binary64 (pack Format.binary64 (.finite .positive m e h)) =
      .finite .positive m e h := by
  obtain ⟨k, hk⟩ : ∃ k : Nat, e = k - 1075 := ⟨(e + 1075).toNat, by omega⟩
  have hbiased : (e + Format.binary64.exponentBias +
      Format.binary64.mantissaBitsWithoutImplicit).toNat = k := by
    show (e + (1023 : Nat) + (52 : Nat)).toNat = k
    omega
  have hlog : m.log2 + 1 = Format.binary64.mantissaBits := by
    rw [(Nat.log2_eq_iff (by omega)).2 ⟨hm, hm'⟩]
    rfl
  have hpack : pack Format.binary64 (.finite .positive m e h) =
      packComponents Format.binary64 .positive (BitVec.ofNat 11 k) (BitVec.ofNat 52 m) := by
    simp only [pack, hbiased, if_pos hlog]
    exact if_neg (by show ¬ 2 ^ 11 ≤ k + 1; omega)
  have hones : BitVec.ofNat 11 k ≠ -1#11 := ofNat_ne (by show k % 2 ^ 11 ≠ 2047; omega)
  have hzeros : BitVec.ofNat 11 k ≠ 0#11 := ofNat_ne (by show k % 2 ^ 11 ≠ 0; omega)
  have hmantissa : (1#1 ++ BitVec.ofNat 52 m).toNat = m := by
    rw [BitVec.toNat_append, ← Nat.shiftLeft_add_eq_or_of_lt (BitVec.ofNat 52 m).isLt,
      BitVec.toNat_ofNat]
    change 1 <<< 52 + m % 2 ^ 52 = m
    omega
  rw [hpack]
  simp only [unpack, unpackMantissa_packComponents, unpackExponent_packComponents,
    unpackSign_packComponents, if_neg hones, if_neg hzeros, hmantissa]
  congr 1
  show ((BitVec.ofNat 11 k).toNat : Int) - ((1023 : Nat) + (52 : Nat)) = e
  rw [BitVec.toNat_ofNat]
  omega

/-! ## Whole parts -/

theorem exponent_of_truncateFields_pos {exponent fraction : Nat} (hf : fraction < 2 ^ 52)
    (h : 0 < truncateFields exponent fraction) : 1023 ≤ exponent := by
  refine Nat.le_of_not_lt fun hlt => ?_
  have hsmall : 2 ^ 53 ≤ 2 ^ (1075 - exponent) := Nat.pow_le_pow_right (by decide) (by omega)
  unfold truncateFields at h
  by_cases hzero : exponent = 0
  · rw [if_pos hzero] at h
    omega
  · rw [if_neg hzero] at h
    dsimp only at h
    rw [if_neg (by omega), Nat.shiftRight_eq_div_pow, Nat.div_eq_of_lt] at h
    · omega
    · show 1 <<< 52 + fraction < _
      omega

/-- A number whose whole part is at least one reaches one. -/
theorem reachesOne_of_truncate {x : Float} {count : Int} (h : truncate x = .ok count)
    (hc : 0 < count) : ReachesOne x := by
  unfold truncate at h
  dsimp only at h
  have hmask : (x.toBits.toNat >>> fractionSize) &&& topExponent =
      (x.toBits.toNat >>> 52) % 2 ^ 11 :=
    Nat.and_two_pow_sub_one_eq_mod _ 11
  rw [hmask] at h
  generalize hbits : x.toBits.toNat = bits at h
  by_cases htop : (bits >>> 52) % 2 ^ 11 = topExponent
  · rw [if_pos htop] at h
    cases h
  · rw [if_neg htop] at h
    have hcount := Except.ok.inj h
    by_cases hsign : bits >>> 63 = 0
    · rw [if_pos hsign] at hcount
      have hlow : 1023 ≤ (bits >>> 52) % 2 ^ 11 :=
        exponent_of_truncateFields_pos
          (show bits % (1 <<< fractionSize) < 2 ^ 52 from Nat.mod_lt _ (by decide)) (by omega)
      obtain ⟨hpos, hunpack⟩ := unpack_normal (b := x.toModel.toBits.toBitVec) hbits hsign
        (by omega) htop
      exact ⟨_, _, hpos, hunpack, by omega, by omega⟩
    · rw [if_neg hsign] at hcount
      omega

/-! ## Integers -/

theorem le_roundedDiv {num den bound : Nat} (hden : 0 < den) (h : bound * den ≤ num) :
    bound ≤ roundedDiv num den := by
  have hquotient : bound ≤ num / den := (Nat.le_div_iff_mul_le hden).2 h
  unfold roundedDiv
  dsimp only
  split <;> omega

theorem floorLog2_one {n : Nat} (h : 0 < n) : floorLog2 n 1 = n.log2 := by
  have hle : 1 <<< n.log2 ≤ n := by
    rw [Nat.one_shiftLeft]
    exact Nat.log2_self_le (by omega)
  have hzero : Nat.log2 1 = 0 := by decide
  simp only [floorLog2, hzero]
  simp [hle]

/-- The bits that a positive integer is rounded to lie from those of one up to those of
infinity. -/
theorem ratioBits_one {n bits : Nat} (h : 0 < n) (hbits : ratioBits? n 1 = some bits) :
    1023 * 2 ^ 52 ≤ bits ∧ bits < 2047 * 2 ^ 52 := by
  have hself : 2 ^ n.log2 ≤ n := Nat.log2_self_le (by omega)
  unfold ratioBits? at hbits
  rw [floorLog2_one h] at hbits
  dsimp only at hbits
  have hq : max minExponent ((n.log2 : Int) - fractionSize) = n.log2 - 52 := by
    show max (-1074) ((n.log2 : Int) - (52 : Nat)) = _
    omega
  rw [hq] at hbits
  generalize hm : (if 0 ≤ (n.log2 : Int) - 52 then
    roundedDiv n (1 <<< ((n.log2 : Int) - 52).toNat)
    else roundedDiv (n <<< (-((n.log2 : Int) - 52)).toNat) 1) = m at hbits
  have hlow : 2 ^ 52 ≤ m := by
    rw [← hm]
    by_cases hle : 0 ≤ (n.log2 : Int) - 52
    · rw [if_pos hle]
      rw [Nat.one_shiftLeft]
      refine le_roundedDiv (Nat.two_pow_pos _) ?_
      rw [← Nat.pow_add, show 52 + ((n.log2 : Int) - 52).toNat = n.log2 by omega]
      exact hself
    · rw [if_neg hle]
      refine le_roundedDiv Nat.one_pos ?_
      have hmul := Nat.mul_le_mul_right (2 ^ (-((n.log2 : Int) - 52)).toNat) hself
      rw [← Nat.pow_add, show n.log2 + (-((n.log2 : Int) - 52)).toNat = 52 by omega] at hmul
      rw [Nat.mul_one, Nat.shiftLeft_eq]
      exact hmul
  -- the exponent field is one less than it would be without the leading one of `m`
  by_cases hfin : ((n.log2 : Int) - 52 - minExponent).toNat <<< fractionSize + m < infinityBits
  · rw [if_pos hfin] at hbits
    have heq := Option.some.inj hbits
    have hshift : ((n.log2 : Int) - 52 - minExponent).toNat <<< fractionSize =
        (n.log2 + 1022) * 2 ^ 52 := by
      rw [Nat.shiftLeft_eq]
      show ((n.log2 : Int) - 52 - (-1074)).toNat * 2 ^ 52 = _
      congr 1
      omega
    have hinf : infinityBits = 2047 * 2 ^ 52 := by decide
    rw [hshift] at heq hfin
    omega
  · rw [if_neg hfin] at hbits
    cases hbits

/-- The number whose bits lie from those of one up to those of infinity reaches one. -/
theorem reachesOne_ofBits {bits : Nat} (hlow : 1023 * 2 ^ 52 ≤ bits)
    (hhigh : bits < 2047 * 2 ^ 52) : ReachesOne (Float.ofBits (UInt64.ofNat bits)) := by
  have hb : (UInt64.ofNat bits).toBitVec.toNat = bits := by
    show bits % 2 ^ 64 = bits
    omega
  obtain ⟨hpos, hunpack⟩ := unpack_normal hb (by omega) (by omega) (by omega)
  have hround := unpack_pack_normal (e := ((bits >>> 52) % 2 ^ 11 : Nat) - 1075) hpos
    (by omega) (by omega) (by omega) (by omega)
  rw [← hunpack] at hround
  exact ⟨_, _, hpos, hround.trans hunpack, by omega, by omega⟩

/-- A positive integer, as a binary64 number, reaches one. -/
theorem reachesOne_ofInt {z : Int} (hz : 0 < z) {x : Float} (h : ofInt z = .ok x) :
    ReachesOne x := by
  unfold ofInt ofRatio at h
  rw [if_neg (by decide), if_neg (by omega)] at h
  cases hbits : ratioBits? z.natAbs (1 : Int).natAbs with
  | none =>
      rw [hbits] at h
      cases h
  | some bits =>
      rw [hbits] at h
      have hsign : (z < 0) = ((1 : Int) < 0) :=
        propext ⟨fun hneg => by omega, fun hneg => by omega⟩
      simp only [if_pos hsign] at h
      rw [← Except.ok.inj h]
      obtain ⟨hlow, hhigh⟩ := ratioBits_one (by omega) hbits
      exact reachesOne_ofBits hlow hhigh

end Chip8.Binary64
