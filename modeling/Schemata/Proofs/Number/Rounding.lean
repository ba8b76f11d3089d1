import Mathlib.Tactic
import Schemata.Number.Layout

/-!
Rounding ratios to the values of a binary format.

A value of a format stands for an interval of reals (`Interval.Holds`). Main result: `round_eq`. Every ratio in the
interval of a value rounds to the value, whatever numerator and denominator it is given by.

Unpacking the bits of a 64-bit number and packing them again changes nothing (`ofBits_toBits`), so sign, exponent and
significand determine a finite number: `parts_finite`.
-/

namespace Schemata.Number

/-! ## Scaled ratios -/

theorem scale_den_pos {b num den : ℕ} (hb : 0 < b) (hd : 0 < den) (e : ℤ) : 0 < (scale b num den e).2 := by
  unfold scale
  split_ifs
  · exact hd
  · exact Nat.mul_pos hd (Nat.pow_pos hb)

theorem scale_ratio {b : ℕ} (hb : 0 < b) (num den : ℕ) (e : ℤ) :
    ((scale b num den e).1 : ℚ) / (scale b num den e).2 = num / den * (b : ℚ) ^ e := by
  have hb' : (b : ℚ) ≠ 0 := by exact_mod_cast hb.ne'
  unfold scale
  split_ifs with h
  · obtain ⟨k, rfl⟩ := Int.eq_ofNat_of_zero_le h
    simp only [Nat.pow_eq, Int.toNat_natCast, Nat.cast_mul, Nat.cast_pow, zpow_natCast]
    ring
  · obtain ⟨k, hk⟩ := Int.eq_ofNat_of_zero_le (show 0 ≤ -e by omega)
    obtain rfl : e = -(k : ℤ) := by omega
    simp only [neg_neg, Nat.pow_eq, Int.toNat_natCast, Nat.cast_mul, Nat.cast_pow, zpow_neg, zpow_natCast]
    field_simp

/-! ## Rounding a quotient -/

theorem roundDiv_eq {num den k : ℕ} (hd : 0 < den) (hlo : (k : ℚ) - 1 / 2 ≤ num / den)
    (hhi : (num : ℚ) / den ≤ k + 1 / 2)
    (htie : k % 2 = 0 ∨ ((k : ℚ) - 1 / 2 < num / den ∧ (num : ℚ) / den < k + 1 / 2)) :
    roundDiv num den = k := by
  have hd' : (0 : ℚ) < den := by exact_mod_cast hd
  have h1 : 2 * k * den ≤ 2 * num + den := by
    rw [le_div_iff₀ hd'] at hlo
    have : (2 * k * den : ℚ) ≤ 2 * num + den := by linarith
    exact_mod_cast this
  have h2 : 2 * num ≤ 2 * k * den + den := by
    rw [div_le_iff₀ hd'] at hhi
    have : (2 * num : ℚ) ≤ 2 * k * den + den := by linarith
    exact_mod_cast this
  have h3 : k % 2 = 0 ∨ (2 * k * den < 2 * num + den ∧ 2 * num < 2 * k * den + den) := by
    refine htie.imp_right fun ⟨ha, hb⟩ => ⟨?_, ?_⟩
    · rw [lt_div_iff₀ hd'] at ha
      have : (2 * k * den : ℚ) < 2 * num + den := by linarith
      exact_mod_cast this
    · rw [div_lt_iff₀ hd'] at hb
      have : (2 * num : ℚ) < 2 * k * den + den := by linarith
      exact_mod_cast this
  obtain ⟨q, r, hr, rfl⟩ : ∃ q r, r < den ∧ num = den * q + r :=
    ⟨num / den, num % den, Nat.mod_lt _ hd, (Nat.div_add_mod num den).symm⟩
  have hq : (den * q + r) / den = q := by
    rw [Nat.mul_add_div hd, Nat.div_eq_of_lt hr, add_zero]
  have hm : (den * q + r) % den = r := by rw [Nat.mul_add_mod, Nat.mod_eq_of_lt hr]
  have hqk : q ≤ k := by
    by_contra hc
    linarith [Nat.mul_le_mul_left den (show k + 1 ≤ q by omega)]
  have hkq : k ≤ q + 1 := by
    by_contra hc
    linarith [Nat.mul_le_mul_left den (show q + 2 ≤ k by omega)]
  unfold roundDiv
  simp only [hq, hm]
  rcases (show q = k ∨ k = q + 1 by omega) with rfl | rfl
  · have hr2 : 2 * r ≤ den := by linarith
    rw [if_neg]
    simp only [Bool.or_eq_true, decide_eq_true_eq, Bool.and_eq_true, beq_iff_eq, not_or, not_and, not_lt, gt_iff_lt]
    refine ⟨hr2, fun heq => ?_⟩
    rcases h3 with h3 | ⟨_, h3⟩
    · omega
    · linarith
  · have hr2 : den ≤ 2 * r := by linarith
    rw [if_pos]
    simp only [Bool.or_eq_true, decide_eq_true_eq, Bool.and_eq_true, beq_iff_eq, gt_iff_lt]
    rcases hr2.lt_or_eq with h | h
    · exact Or.inl h
    · refine Or.inr ⟨h.symm, ?_⟩
      rcases h3 with h3 | ⟨h3, _⟩
      · omega
      · linarith


/-! ## The nearest value of a format -/

theorem log2_ratio {num den : ℕ} (hn : 0 < num) (hd : 0 < den) :
    (2 : ℚ) ^ ((num.log2 : ℤ) - den.log2 - 1) < num / den ∧ (num : ℚ) / den < 2 ^ ((num.log2 : ℤ) - den.log2 + 1) := by
  have hd' : (0 : ℚ) < den := by exact_mod_cast hd
  have n1 : (2 : ℚ) ^ (num.log2 : ℤ) ≤ num := by exact_mod_cast Nat.log2_self_le hn.ne'
  have n2 : (num : ℚ) < 2 ^ ((num.log2 : ℤ) + 1) := by exact_mod_cast (Nat.lt_log2_self : num < 2 ^ (num.log2 + 1))
  have d1 : (2 : ℚ) ^ (den.log2 : ℤ) ≤ den := by exact_mod_cast Nat.log2_self_le hd.ne'
  have d2 : (den : ℚ) < 2 ^ ((den.log2 : ℤ) + 1) := by exact_mod_cast (Nat.lt_log2_self : den < 2 ^ (den.log2 + 1))
  constructor
  · rw [lt_div_iff₀ hd']
    calc (2 : ℚ) ^ ((num.log2 : ℤ) - den.log2 - 1) * den
        < 2 ^ ((num.log2 : ℤ) - den.log2 - 1) * 2 ^ ((den.log2 : ℤ) + 1) := by gcongr
      _ = 2 ^ (num.log2 : ℤ) := by rw [← zpow_add₀ (by norm_num)]; congr 1; ring
      _ ≤ num := n1
  · rw [div_lt_iff₀ hd']
    calc (num : ℚ) < 2 ^ ((num.log2 : ℤ) + 1) := n2
      _ = 2 ^ ((num.log2 : ℤ) - den.log2 + 1) * 2 ^ (den.log2 : ℤ) := by
        rw [← zpow_add₀ (by norm_num)]; congr 1; ring
      _ ≤ 2 ^ ((num.log2 : ℤ) - den.log2 + 1) * den := by gcongr

/-- the last place of a ratio follows from its binary order of magnitude `l` -/
theorem lastPlace_eq (f : BinaryFormat) {num den : ℕ} (hn : 0 < num) (hd : 0 < den) {l : ℤ}
    (hlo : (2 : ℚ) ^ l ≤ num / den) (hhi : (num : ℚ) / den < 2 ^ (l + 1)) :
    f.lastPlace num den = max (l - f.precision + 1) f.minExp := by
  obtain ⟨h1, h2⟩ := log2_ratio hn hd
  set e : ℤ := (num.log2 : ℤ) - den.log2 with he
  have hle : l < e + 1 := (zpow_lt_zpow_iff_right₀ (by norm_num : (1 : ℚ) < 2)).1 (hlo.trans_lt h2)
  have hge : e - 1 < l + 1 := (zpow_lt_zpow_iff_right₀ (by norm_num : (1 : ℚ) < 2)).1 (h1.trans hhi)
  have hcmp : (scale 2 num den (-e)).2 ≤ (scale 2 num den (-e)).1 ↔ l = e := by
    have hp : (0 : ℚ) < (scale 2 num den (-e)).2 := by exact_mod_cast scale_den_pos (by norm_num) hd _
    have hr := scale_ratio (b := 2) (by norm_num) num den (-e)
    have : (scale 2 num den (-e)).2 ≤ (scale 2 num den (-e)).1 ↔ (2 : ℚ) ^ e ≤ num / den := by
      rw [← Nat.cast_le (α := ℚ), ← one_le_div₀ hp, hr, zpow_neg, ← div_eq_mul_inv]
      exact one_le_div₀ (by positivity)
    rw [this]
    constructor
    · intro h
      have := (zpow_lt_zpow_iff_right₀ (by norm_num : (1 : ℚ) < 2)).1 (h.trans_lt hhi)
      omega
    · rintro rfl
      exact hlo
  unfold BinaryFormat.lastPlace
  simp only [← he, ge_iff_le, hcmp]
  split_ifs with h
  · rw [h]
  · have : e - f.precision = l - f.precision + 1 := by omega
    rw [this]


/-- a dyadic as the format writes it: a full significand, or the least exponent -/
structure Canonical (f : BinaryFormat) (d : Dyadic) : Prop where
  bound : d.significand < 2 ^ f.precision
  full : 2 ^ (f.precision - 1) ≤ d.significand ∨ d.exponent = f.minExp
  least : f.minExp ≤ d.exponent
  most : d.exponent ≤ f.maxExp

/-- is a rational one of the reals of the interval? -/
def Interval.Holds (i : Interval) (r : ℚ) : Prop :=
  if i.closed then i.lower * 2 ^ i.exponent ≤ r ∧ r ≤ i.upper * 2 ^ i.exponent
  else i.lower * 2 ^ i.exponent < r ∧ r < i.upper * 2 ^ i.exponent

theorem Interval.Holds.le {i : Interval} {r : ℚ} (h : i.Holds r) :
    i.lower * 2 ^ i.exponent ≤ r ∧ r ≤ i.upper * 2 ^ i.exponent := by
  unfold Holds at h
  split_ifs at h
  · exact h
  · exact ⟨h.1.le, h.2.le⟩

theorem Interval.Holds.lt {i : Interval} {r : ℚ} (h : i.Holds r) (hc : i.closed = false) :
    i.lower * 2 ^ i.exponent < r ∧ r < i.upper * 2 ^ i.exponent := by
  simpa [Holds, hc] using h

theorem interval_upper (f : BinaryFormat) (d : Dyadic) :
    ((f.interval d).upper : ℚ) * 2 ^ (f.interval d).exponent = (d.significand + 1 / 2) * 2 ^ d.exponent := by
  have : (2 : ℚ) ^ (d.exponent - 2) = 2 ^ d.exponent / 4 := by
    rw [zpow_sub₀ (by norm_num)]; norm_num
  simp only [BinaryFormat.interval, this]
  push_cast
  ring

theorem interval_lower (f : BinaryFormat) (d : Dyadic) (hs : 0 < d.significand) :
    ((f.interval d).lower : ℚ) * 2 ^ (f.interval d).exponent
      = (d.significand - if d.significand = 2 ^ (f.precision - 1) ∧ d.exponent > f.minExp then 1 / 4 else 1 / 2)
        * 2 ^ d.exponent := by
  have : (2 : ℚ) ^ (d.exponent - 2) = 2 ^ d.exponent / 4 := by
    rw [zpow_sub₀ (by norm_num)]; norm_num
  simp only [BinaryFormat.interval, this, Nat.pow_eq]
  split_ifs
  · rw [Nat.cast_sub (by omega)]; push_cast; ring
  · rw [Nat.cast_sub (by omega)]; push_cast; ring

/-- every ratio in the interval of a value rounds to the value -/
theorem round_eq (f : BinaryFormat) (hp : 2 ≤ f.precision) {d : Dyadic} (hc : Canonical f d) (hs : 0 < d.significand)
    {num den : ℕ} (hd : 0 < den) (hr : (f.interval d).Holds (num / den)) : f.round num den = some d := by
  obtain ⟨m, q⟩ := d
  obtain ⟨hm, hfull, hmin, hmax⟩ := hc
  simp only at hm hfull hmin hmax hs
  obtain ⟨hlo, hhi⟩ := hr.le
  rw [interval_upper] at hhi
  rw [interval_lower f _ hs] at hlo
  simp only at hlo hhi
  have h2 : (1 : ℚ) < 2 := by norm_num
  have hq0 : (0 : ℚ) < 2 ^ q := by positivity
  have hm1 : (1 : ℚ) ≤ m := by exact_mod_cast hs
  have hpos : (0 : ℚ) < num / den := by
    refine lt_of_lt_of_le ?_ hlo
    apply mul_pos _ hq0
    split_ifs <;> linarith
  have hn : 0 < num := by
    rcases Nat.eq_zero_or_pos num with rfl | h
    · simp at hpos
    · exact h
  have hm2 : (m : ℚ) + 1 ≤ 2 ^ f.precision := by exact_mod_cast hm
  have hlt : (num : ℚ) / den < 2 ^ ((f.precision : ℤ) + q) := by
    rw [zpow_add₀ (by norm_num), zpow_natCast]
    exact hhi.trans_lt (mul_lt_mul_of_pos_right (by linarith) hq0)
  -- the binary order of magnitude of the ratio
  obtain ⟨l, hl1, hl2⟩ : ∃ l : ℤ, (2 : ℚ) ^ l ≤ num / den ∧ (num : ℚ) / den < 2 ^ (l + 1) :=
    exists_mem_Ico_zpow hpos h2
  have hlq : l < f.precision + q := (zpow_lt_zpow_iff_right₀ h2).1 (hl1.trans_lt hlt)
  have hplace := lastPlace_eq f hn hd hl1 hl2
  have hscaled : ∀ e : ℤ, ((scale 2 num den (-e)).1 : ℚ) / (scale 2 num den (-e)).2 = num / den / 2 ^ e := by
    intro e
    rw [scale_ratio (by norm_num), zpow_neg, ← div_eq_mul_inv]; norm_num
  have hden : ∀ e : ℤ, 0 < (scale 2 num den e).2 := scale_den_pos (by norm_num) hd
  have htie : m % 2 = 0 ∨ ((m : ℚ) - 1 / 2 < num / den / 2 ^ q ∧ (num : ℚ) / den / 2 ^ q < m + 1 / 2) := by
    rcases Nat.mod_two_eq_zero_or_one m with h | h
    · exact Or.inl h
    · obtain ⟨hl, hu⟩ := hr.lt (by simp [BinaryFormat.interval, h])
      rw [interval_upper] at hu
      rw [interval_lower f _ hs] at hl
      simp only at hl hu
      rw [div_lt_iff₀ hq0, lt_div_iff₀ hq0]
      refine Or.inr ⟨lt_of_le_of_lt ?_ hl, hu⟩
      gcongr
      split_ifs <;> norm_num
  by_cases hcase : q = f.minExp ∨ (2 : ℚ) ^ ((f.precision : ℤ) - 1 + q) ≤ num / den
  · -- the ratio has the magnitude of the value itself
    have hplace' : f.lastPlace num den = q := by
      rw [hplace]
      rcases hcase with rfl | h
      · apply max_eq_right; omega
      · have := (zpow_lt_zpow_iff_right₀ h2).1 (h.trans_lt hl2)
        rw [max_eq_left (by omega)]; omega
    have hround : roundDiv (scale 2 num den (-q)).1 (scale 2 num den (-q)).2 = m := by
      apply roundDiv_eq (hden _)
      · rw [hscaled, le_div_iff₀ hq0]
        refine le_trans ?_ hlo
        gcongr
        split_ifs <;> norm_num
      · rw [hscaled, div_le_iff₀ hq0]; exact hhi
      · rw [hscaled]; exact htie
    have hne : m ≠ 2 ^ f.precision := by omega
    simp [BinaryFormat.round, hn.ne', hplace', hround, hne, hmax]
  · -- the ratio lies below a power of two that is the value
    push Not at hcase
    obtain ⟨hqm, hlow⟩ := hcase
    have hge : 2 ^ (f.precision - 1) ≤ m := hfull.resolve_right hqm
    have hpow : (2 : ℚ) ^ ((f.precision : ℤ) - 1 + q) = 2 ^ (f.precision - 1) * 2 ^ q := by
      rw [zpow_add₀ (by norm_num), ← zpow_natCast, Nat.cast_sub (by omega)]; norm_num
    have hmeq : m = 2 ^ (f.precision - 1) := by
      by_contra hne
      have : (2 : ℚ) ^ (f.precision - 1) + 1 ≤ m := by exact_mod_cast (show 2 ^ (f.precision - 1) + 1 ≤ m by omega)
      rw [if_neg (fun h => hne h.1)] at hlo
      rw [hpow] at hlow
      exact absurd (hlo.trans_lt hlow) (not_lt.2 (mul_le_mul_of_nonneg_right (by linarith) hq0.le))
    have hgt : q > f.minExp := by omega
    rw [if_pos ⟨hmeq, hgt⟩] at hlo
    have hmq : (m : ℚ) = 2 ^ (f.precision - 1) := by exact_mod_cast hmeq
    have hhalf : (2 : ℚ) ^ (q - 1) = 2 ^ q / 2 := by rw [zpow_sub₀ (by norm_num)]; norm_num
    have hdouble : (2 ^ f.precision : ℕ) = 2 * m := by
      rw [hmeq, ← pow_succ']; congr 1; omega
    have hplace' : f.lastPlace num den = q - 1 := by
      have hl : (2 : ℚ) ^ ((f.precision : ℤ) - 2 + q) ≤ num / den := by
        have : (2 : ℚ) ^ ((f.precision : ℤ) - 2 + q) = m / 2 * 2 ^ q := by
          have : (f.precision : ℤ) - 2 + q = (f.precision : ℤ) - 1 + q - 1 := by ring
          rw [this, zpow_sub₀ (by norm_num), hpow, hmq]; ring
        rw [this]
        exact (mul_le_mul_of_nonneg_right (by linarith) hq0.le).trans hlo
      have h3 := (zpow_lt_zpow_iff_right₀ h2).1 (hl.trans_lt hl2)
      have h4 := (zpow_lt_zpow_iff_right₀ h2).1 (hl1.trans_lt hlow)
      rw [hplace, max_eq_left (by omega)]; omega
    have hround : roundDiv (scale 2 num den (-(q - 1))).1 (scale 2 num den (-(q - 1))).2 = 2 ^ f.precision := by
      rw [hdouble]
      have hq1 : (0 : ℚ) < 2 ^ q / 2 := by positivity
      rw [hpow, ← hmq] at hlow
      apply roundDiv_eq (hden _)
      · rw [hscaled, hhalf, le_div_iff₀ hq1]; push_cast; linarith
      · rw [hscaled, hhalf, div_le_iff₀ hq1]; push_cast; linarith
      · exact Or.inl (by omega)
    rw [neg_sub] at hround
    simp [BinaryFormat.round, hn.ne', hplace', hround, hmax, hmeq]

open Float.Model Float.Model.UnpackedFloat

/-! ## Packing and unpacking -/

theorem sign_round (b : BitVec 1) : (Sign.ofBitVec b).toBitVec = b := by
  revert b; decide

theorem packComponents_unpack (b : BitVec 64) :
    packComponents Format.binary64 (.ofBitVec (@unpackSign Format.binary64 b)) (@unpackExponent Format.binary64 b) (@unpackMantissa Format.binary64 b) = b := by
  unfold packComponents
  rw [sign_round]
  unfold unpackSign unpackExponent unpackMantissa
  ext i hi
  have hb : b.getLsbD i = b[i] := BitVec.getLsbD_eq_getElem hi
  simp only [BitVec.getElem_append, BitVec.getElem_cast]
  split
  · simpa using hb
  · split
    · have : 52 + (i - 52) = i := by omega
      simpa [this] using hb
    · have : 63 + (i - 52 - 11) = i := by omega
      simpa [this] using hb

theorem mant_toNat (b : BitVec 64) : (@unpackMantissa Format.binary64 b).toNat = b.toNat % 2^52 := by
  simp [unpackMantissa]
theorem exp_toNat (b : BitVec 64) : (@unpackExponent Format.binary64 b).toNat = b.toNat / 2^52 % 2048 := by
  simp [unpackExponent, Nat.shiftRight_eq_div_pow]

theorem pack_finite (s : Sign) (m : ℕ) (e : ℤ) (hm : 0 < m) :
    UnpackedFloat.pack Format.binary64 (.finite s m e hm) =
      if 2 ^ Format.binary64.exponentBits ≤
          (e + Format.binary64.exponentBias + Format.binary64.mantissaBitsWithoutImplicit).toNat + 1 then
        packedInfinity Format.binary64 s
      else if m.log2 + 1 = 1 + Format.binary64.mantissaBitsWithoutImplicit then
        packComponents Format.binary64 s
          (.ofNat _ (e + Format.binary64.exponentBias + Format.binary64.mantissaBitsWithoutImplicit).toNat) (.ofNat _ m)
      else packComponents Format.binary64 s 0#_ (.ofNat _ m) := rfl

theorem unpack_pack (b : BitVec 64) (h : Format.binary64.Valid b) : UnpackedFloat.pack Format.binary64 (UnpackedFloat.unpack Format.binary64 b) = b := by
  have hc := packComponents_unpack b
  unfold UnpackedFloat.unpack
  dsimp only
  by_cases he : @unpackExponent Format.binary64 b = -1#_
  · rw [if_pos he]
    by_cases hm : @unpackMantissa Format.binary64 b = 0#_
    · rw [if_pos hm]
      rw [he, hm] at hc
      exact hc
    · rw [if_neg hm]
      exact (h.eq_packedNaN he hm).symm
  · rw [if_neg he]
    by_cases he0 : @unpackExponent Format.binary64 b = 0#_
    · rw [if_pos he0]
      by_cases hm : @unpackMantissa Format.binary64 b = 0#_
      · rw [dif_pos hm]
        rw [he0, hm] at hc
        exact hc
      · rw [dif_neg hm, pack_finite, he0]
        have hlt := (@unpackMantissa Format.binary64 b).isLt
        have hlog : (@unpackMantissa Format.binary64 b).toNat.log2 < 52 := by
          rw [Nat.log2_lt (by intro h0; apply hm; exact BitVec.eq_of_toNat_eq (by simpa using h0))]
          exact hlt
        rw [if_neg (by decide), if_neg (by simp; omega)]
        simp only [BitVec.ofNat_toNat, BitVec.setWidth_eq]
        rw [he0] at hc
        exact hc
    · rw [if_neg he0, pack_finite]
      have hlt := (@unpackMantissa Format.binary64 b).isLt
      have helt := (@unpackExponent Format.binary64 b).isLt
      have hne : (@unpackExponent Format.binary64 b).toNat ≠ 2047 := by
        intro h1
        exact he (BitVec.eq_of_toNat_eq h1)
      have hm : (1#1 ++ @unpackMantissa Format.binary64 b).toNat
          = 2 ^ 52 + (@unpackMantissa Format.binary64 b).toNat := by
        rw [BitVec.toNat_append, ← Nat.shiftLeft_add_eq_or_of_lt hlt]
        rfl
      have hlog : (1#1 ++ @unpackMantissa Format.binary64 b).toNat.log2 = 52 := by
        have hlt' : (@unpackMantissa Format.binary64 b).toNat < 2 ^ 52 := hlt
        rw [Nat.log2_eq_iff (by omega), hm]
        omega
      have hexp : ((((@unpackExponent Format.binary64 b).toNat : Int) - (Format.binary64.exponentBias + Format.binary64.mantissaBitsWithoutImplicit)) + Format.binary64.exponentBias + Format.binary64.mantissaBitsWithoutImplicit).toNat = (@unpackExponent Format.binary64 b).toNat := by omega
      rw [hexp, if_neg (by simp at *; omega), if_pos (by rw [hlog]; rfl), hm]
      rw [BitVec.ofNat_add]
      simp only [BitVec.ofNat_toNat, BitVec.setWidth_eq]
      have h52 : BitVec.ofNat Format.binary64.mantissaBitsWithoutImplicit (2 ^ 52) = 0#_ := by decide
      rw [h52, BitVec.zero_add]
      exact hc

theorem ofBits_toBits (x : Float) : Float.ofBits x.toBits = x := by
  obtain ⟨⟨bits, valid⟩⟩ := x
  have hmodel {a b : Float.Model} (h : a.toBits = b.toBits) : a = b := by
    cases a
    cases b
    cases h
    rfl
  exact congrArg Float.ofModel (hmodel (congrArg UInt64.ofBitVec (unpack_pack _ valid)))

/-! ## Sign, exponent and significand -/

theorem parts_finite {x : Float} {negative : Bool} {d : Dyadic} (h : parts x = .finite negative d) :
    Canonical double d ∧ ofDyadic negative d = x := by
  have hlt := x.toBits.toNat_lt
  unfold parts at h
  simp only [Nat.pow_eq] at h
  set bits := x.toBits.toNat with hbits
  have hx : x = Float.ofBits (UInt64.ofNat bits) := by
    rw [hbits, UInt64.ofNat_toNat, ofBits_toBits]
  have hm : bits % 2 ^ 52 < 2 ^ 52 := Nat.mod_lt _ (by norm_num)
  have hsum : bits / 2 ^ 63 * 2 ^ 63 + (bits / 2 ^ 52 % 2048 * 2 ^ 52 + bits % 2 ^ 52) = bits := by omega
  have hsign : bits / 2 ^ 63 = if bits ≥ 2 ^ 63 then 1 else 0 := by
    split <;> omega
  split at h
  · split at h <;> cases h
  · rename_i he
    have hsigned (body : ℕ) (hb : body = bits / 2 ^ 52 % 2048 * 2 ^ 52 + bits % 2 ^ 52) :
        (if decide (bits ≥ 2 ^ 63) = true then body + Nat.pow 2 63 else body) = bits := by
      by_cases hneg : bits ≥ 2 ^ 63
      · simp only [hneg, decide_true, if_true, Nat.pow_eq]
        rw [if_pos hneg] at hsign
        omega
      · simp only [hneg, decide_false, Bool.false_eq_true, if_false]
        rw [if_neg hneg] at hsign
        omega
    split at h
    · rename_i he0
      simp only [Parts.finite.injEq] at h
      obtain ⟨rfl, rfl⟩ := h
      refine ⟨⟨by simp only [double]; omega, .inr rfl, le_rfl, by simp [double]⟩, ?_⟩
      rw [hx]
      unfold ofDyadic
      simp only [Nat.pow_eq, hm, if_true]
      congr 2
      have := hsigned (bits % 2 ^ 52) (by rw [he0]; omega)
      simpa using this
    · rename_i he0
      simp only [Parts.finite.injEq] at h
      obtain ⟨rfl, rfl⟩ := h
      refine ⟨⟨by simp only [double]; omega, .inl (by simp only [double]; omega), ?_, ?_⟩, ?_⟩
      · simp only [double]; omega
      · simp only [double]; omega
      rw [hx]
      unfold ofDyadic
      have hnot : ¬ (bits % 2 ^ 52 + 2 ^ 52 < 2 ^ 52) := by omega
      simp only [Nat.pow_eq, hnot, if_false]
      congr 2
      have hexp : (((bits / 2 ^ 52 % 2048 : ℕ) : ℤ) - 1075 + 1075).toNat = bits / 2 ^ 52 % 2048 := by omega
      rw [hexp, Nat.add_sub_cancel]
      exact hsigned _ rfl

end Schemata.Number
