import Mathlib.Tactic
import Schemata.Proofs.Number.Order
import Schemata.Proofs.Number.Reading

/-!
Numbers without a fraction.

Rounding gives a value of the format (`round_canonical`), and an integer for an integer (`round_whole`). So the text of
a whole number reads back as a whole number, also where the text has fewer digits than the number: the search for the
shortest decimal never goes below the grid of the integers, since that grid holds the number itself.
-/

namespace Schemata.Number

open Float.Model Float.Model.UnpackedFloat

/-! ## Rounding -/

theorem roundDiv_bounds (num den : ℕ) : num / den ≤ roundDiv num den ∧ roundDiv num den ≤ num / den + 1 := by
  unfold roundDiv
  simp only
  split_ifs <;> omega

theorem roundDiv_mul {k den : ℕ} (hd : 0 < den) : roundDiv (k * den) den = k := by
  unfold roundDiv
  simp [Nat.mul_div_cancel _ hd, hd.ne]

/-- the significand before it is taken to the next power of two -/
theorem round_value {f : BinaryFormat} (hp : 1 ≤ f.precision) {num den : ℕ} (hn : 0 < num) {d : Dyadic}
    (h : f.round num den = some d) :
    let q := f.lastPlace num den
    let m := roundDiv (scale 2 num den (-q)).1 (scale 2 num den (-q)).2
    (d.significand : ℚ) * 2 ^ d.exponent = m * 2 ^ q ∧ d.exponent ≤ f.maxExp ∧
      (m ≠ 2 ^ f.precision ∧ d = ⟨m, q⟩ ∨ m = 2 ^ f.precision ∧ d = ⟨2 ^ (f.precision - 1), q + 1⟩) := by
  intro q m
  have hround : f.round num den = if m = 2 ^ f.precision
      then (if q + 1 > f.maxExp then none else some ⟨2 ^ (f.precision - 1), q + 1⟩)
      else (if q > f.maxExp then none else some ⟨m, q⟩) := by
    unfold BinaryFormat.round
    rw [if_neg hn.ne']
    change (fun e : ℕ × ℤ => if e.2 > f.maxExp then none else some (⟨e.1, e.2⟩ : Dyadic))
      (if m = Nat.pow 2 f.precision then (Nat.pow 2 (f.precision - 1), q + 1) else (m, q)) = _
    simp only [Nat.pow_eq]
    split <;> rfl
  rw [hround] at h
  split_ifs at h with hm hmax hmax
  · obtain rfl := Option.some.inj h
    refine ⟨?_, not_lt.1 hmax, .inr ⟨hm, rfl⟩⟩
    rw [hm, zpow_add_one₀ (by norm_num)]
    push_cast
    rw [← pow_sub_mul_pow 2 hp]
    ring
  · obtain rfl := Option.some.inj h
    exact ⟨rfl, not_lt.1 hmax, .inl ⟨hm, rfl⟩⟩

theorem scaled_ratio (num den : ℕ) (q : ℤ) :
    ((scale 2 num den (-q)).1 : ℚ) / (scale 2 num den (-q)).2 = num / den / 2 ^ q := by
  rw [scale_ratio (by norm_num), zpow_neg, ← div_eq_mul_inv]
  norm_num

/-- a rounded ratio is a value of the format -/
theorem round_canonical {f : BinaryFormat} (hp : 1 ≤ f.precision) (hrange : f.minExp ≤ f.maxExp) {num den : ℕ} (hd : 0 < den)
    {d : Dyadic} (h : f.round num den = some d) : Canonical f d := by
  rcases Nat.eq_zero_or_pos num with rfl | hn
  · obtain rfl : ⟨0, f.minExp⟩ = d := by simpa [BinaryFormat.round] using h
    exact ⟨by simp, .inr rfl, le_rfl, hrange⟩
  obtain ⟨-, hmost, hcases⟩ := round_value hp hn h
  have hpos : (0 : ℚ) < num / den := div_pos (by exact_mod_cast hn) (by exact_mod_cast hd)
  -- the binary order of magnitude of the ratio
  obtain ⟨l, hl1, hl2⟩ : ∃ l : ℤ, (2 : ℚ) ^ l ≤ num / den ∧ (num : ℚ) / den < 2 ^ (l + 1) :=
    exists_mem_Ico_zpow hpos (by norm_num)
  have hplace := lastPlace_eq f hn hd hl1 hl2
  set q := f.lastPlace num den with hq
  have hden : 0 < (scale 2 num den (-q)).2 := scale_den_pos (by norm_num) hd _
  have hscaled := scaled_ratio num den q
  set N := (scale 2 num den (-q)).1
  set D := (scale 2 num den (-q)).2
  have hq0 : (0 : ℚ) < 2 ^ q := by positivity
  have hD : (0 : ℚ) < D := by exact_mod_cast hden
  have hhigh : N / D < 2 ^ f.precision := by
    refine (Nat.div_lt_iff_lt_mul hden).2 ?_
    have hlt : (N : ℚ) / D < 2 ^ f.precision := by
      rw [hscaled, div_lt_iff₀ hq0, ← zpow_natCast, ← zpow_add₀ (by norm_num)]
      refine hl2.trans_le (zpow_le_zpow_right₀ (by norm_num) ?_)
      omega
    rw [div_lt_iff₀ hD] at hlt
    exact_mod_cast hlt
  have hlow : q = f.minExp ∨ 2 ^ (f.precision - 1) ≤ N / D := by
    by_cases hmin : q = f.minExp
    · exact .inl hmin
    · refine .inr ((Nat.le_div_iff_mul_le hden).2 ?_)
      have hle : (2 : ℚ) ^ (f.precision - 1) ≤ N / D := by
        rw [hscaled, le_div_iff₀ hq0, ← zpow_natCast, ← zpow_add₀ (by norm_num)]
        refine (zpow_le_zpow_right₀ (by norm_num) ?_).trans hl1
        omega
      rw [le_div_iff₀ hD] at hle
      exact_mod_cast hle
  obtain ⟨hm1, hm2⟩ := roundDiv_bounds N D
  have hleast : f.minExp ≤ q := hplace ▸ le_max_right _ _
  rcases hcases with ⟨hne, rfl⟩ | ⟨-, rfl⟩
  · exact ⟨by simp only; omega, hlow.symm.imp (fun h => h.trans hm1) id, hleast, hmost⟩
  · exact ⟨Nat.pow_lt_pow_right (by norm_num) (by omega), .inl le_rfl, hleast.trans (by simp), hmost⟩

/-- an integer is rounded to an integer -/
theorem round_whole {f : BinaryFormat} (hp : 1 ≤ f.precision) {num den v : ℕ} (hd : 0 < den) (hv : (num : ℚ) / den = v)
    {d : Dyadic} (h : f.round num den = some d) : ∃ w : ℕ, (d.significand : ℚ) * 2 ^ d.exponent = w := by
  rcases Nat.eq_zero_or_pos num with rfl | hn
  · obtain rfl : ⟨0, f.minExp⟩ = d := by simpa [BinaryFormat.round] using h
    exact ⟨0, by simp⟩
  obtain ⟨hvalue, -⟩ := round_value hp hn h
  rw [hvalue]
  set q := f.lastPlace num den
  rcases le_or_gt 0 q with hq | hq
  · obtain ⟨k, hk⟩ := Int.eq_ofNat_of_zero_le hq
    rw [hk, zpow_natCast]
    exact ⟨_ * 2 ^ k, by push_cast; rfl⟩
  · -- below the point there is nothing to round
    obtain ⟨k, hk⟩ : ∃ k : ℕ, q = -k := ⟨(-q).toNat, by omega⟩
    have hden : 0 < (scale 2 num den (-q)).2 := scale_den_pos (by norm_num) hd _
    have hD : ((scale 2 num den (-q)).2 : ℚ) ≠ 0 := by exact_mod_cast hden.ne'
    have hexact : (scale 2 num den (-q)).1 = v * 2 ^ k * (scale 2 num den (-q)).2 := by
      have := scaled_ratio num den q
      rw [hv, div_eq_iff hD, hk, zpow_neg, zpow_natCast, div_inv_eq_mul] at this
      rw [hk]
      exact_mod_cast this
    refine ⟨v, ?_⟩
    rw [hexact, roundDiv_mul hden, hk, zpow_neg, zpow_natCast]
    push_cast
    field_simp

/-! ## Whole numbers -/

/-- bits that are no infinity and not NaN are kept -/
theorem toBits_ofBits {k : ℕ} (hk : k < 2 ^ 64) (he : k / 2 ^ 52 % 2048 < 2047) :
    (Float.ofBits (UInt64.ofNat k)).toBits.toNat = k := by
  have hbits : (UInt64.ofNat k).toBitVec.toNat = k := by simpa using hk
  have hvalid : Format.binary64.Valid (UInt64.ofNat k).toBitVec := by
    refine ⟨fun h => ?_⟩
    have hexp := exp_toNat (UInt64.ofNat k).toBitVec
    rw [h, hbits] at hexp
    have hones : (-BitVec.ofNat Format.binary64.exponentBits 1).toNat = 2047 := by decide
    omega
  have hpack : (Float.ofBits (UInt64.ofNat k)).toBits.toBitVec =
      UnpackedFloat.pack Format.binary64 (UnpackedFloat.unpack Format.binary64 (UInt64.ofNat k).toBitVec) := rfl
  rw [← UInt64.toNat_toBitVec, hpack, unpack_pack _ hvalid, hbits]

theorem parts_ofDyadic {negative : Bool} {d : Dyadic} (hd : Canonical double d) :
    parts (ofDyadic negative d) = .finite negative d := by
  obtain ⟨m, e⟩ := d
  obtain ⟨hbound, hfull, hleast, hmost⟩ := hd
  simp only [double] at hbound hfull hleast hmost
  -- the bits but for the sign
  obtain ⟨body, hbody, hlt, hexp, hmant⟩ : ∃ body : ℕ, (if m < Nat.pow 2 52 then m
        else (e + 1075).toNat * Nat.pow 2 52 + (m - Nat.pow 2 52)) = body ∧ body < 2047 * 2 ^ 52 ∧
      (body / 2 ^ 52 = if m < 2 ^ 52 then 0 else (e + 1075).toNat) ∧
      body % 2 ^ 52 = if m < 2 ^ 52 then m else m - 2 ^ 52 := by
    refine ⟨_, rfl, ?_⟩
    simp only [Nat.pow_eq]
    split_ifs with hm
    · omega
    · have : (e + 1075).toNat < 2047 := by omega
      omega
  have hof : ofDyadic negative ⟨m, e⟩ = Float.ofBits (UInt64.ofNat (if negative then body + 2 ^ 63 else body)) := by
    rw [← hbody]
    rfl
  have hbits : (ofDyadic negative ⟨m, e⟩).toBits.toNat = if negative then body + 2 ^ 63 else body := by
    rw [hof]
    refine toBits_ofBits ?_ ?_ <;> split_ifs <;> omega
  have hsign : decide ((if negative then body + 2 ^ 63 else body) ≥ 2 ^ 63) = negative := by
    cases negative <;> simp; omega
  have hdiv : (if negative then body + 2 ^ 63 else body) / 2 ^ 52 % 2048 = if m < 2 ^ 52 then 0 else (e + 1075).toNat := by
    rw [← hexp]
    split_ifs <;> omega
  have hmod : (if negative then body + 2 ^ 63 else body) % 2 ^ 52 = if m < 2 ^ 52 then m else m - 2 ^ 52 := by
    rw [← hmant]
    split_ifs <;> omega
  unfold parts
  simp only [hbits, Nat.pow_eq, hsign, hdiv, hmod]
  split_ifs with h1 h2 h3
  all_goals first
    | omega
    | (simp only [Parts.finite.injEq, Dyadic.mk.injEq, true_and]; omega)

/-- an integer is rounded to a number -/
theorem isNaN_ofInt (n : ℤ) : isNaN (ofInt n) = false := by
  unfold ofInt ofRatio?
  cases hround : double.round n.natAbs 1 with
  | none =>
    simp only [Option.map_none]
    cases decide (n < 0) <;> decide +kernel
  | some d =>
    simp only [Option.map_some]
    rw [isNaN, parts_ofDyadic (round_canonical (by decide) (by decide) Nat.one_pos hround)]

theorem ratio_whole {d : Dyadic} {v : ℕ} (h : (d.significand : ℚ) * 2 ^ d.exponent = v) : d.ratio.1 % d.ratio.2 = 0 := by
  have hden : (d.ratio.2 : ℚ) ≠ 0 := by exact_mod_cast (ratio_den_pos d).ne'
  have := ratio_value d
  rw [h, div_eq_iff hden] at this
  have hmul : d.ratio.1 = v * d.ratio.2 := by exact_mod_cast this
  rw [hmul, Nat.mul_mod_left]

theorem isWhole_iff {x : Float} : isWhole x = true ↔
    ∃ negative d, parts x = .finite negative d ∧ ∃ v : ℕ, (d.significand : ℚ) * 2 ^ d.exponent = v := by
  constructor
  · intro h
    have hfinite : ∃ negative d, parts x = .finite negative d := by
      unfold isWhole at h
      split at h
      · exact ⟨_, _, by assumption⟩
      · cases h
    obtain ⟨negative, d, hx⟩ := hfinite
    refine ⟨negative, d, hx, d.ratio.1 / d.ratio.2, ?_⟩
    rw [isWhole_parts hx, beq_iff_eq] at h
    rw [← ratio_value, Nat.cast_div (Nat.dvd_of_mod_eq_zero h) (by exact_mod_cast (ratio_den_pos d).ne')]
  · rintro ⟨negative, d, hx, v, hv⟩
    rw [isWhole_parts hx, ratio_whole hv]
    rfl

theorem isWhole_signed_zero (negative : Bool) : isWhole (signed negative 0.0) = true :=
  isWhole_iff.2 ⟨negative, ⟨0, -1074⟩, by cases negative <;> decide +kernel, 0, by simp⟩

/-! ## Whole numbers as text -/

/-- a decimal that is an integer reads as a whole number -/
theorem ofDecimal_whole {negative : Bool} {c v : ℕ} {e : ℤ} (hv : (c : ℚ) * 10 ^ e = v) {x : Float}
    (h : ofDecimal negative c e = .number x) : isWhole x = true := by
  unfold ofDecimal at h
  split at h
  · obtain rfl := Reading.number.inj h
    exact isWhole_signed_zero negative
  · simp only at h
    split_ifs at h
    · obtain rfl := Reading.number.inj h
      exact isWhole_signed_zero negative
    · unfold ofParts ofRatio? at h
      have hden : 0 < (scale 10 c 1 e).2 := scale_den_pos (by norm_num) Nat.one_pos _
      cases hround : double.round (scale 10 c 1 e).1 (scale 10 c 1 e).2 with
      | none => rw [hround] at h; cases h
      | some d =>
        rw [hround] at h
        obtain rfl := Reading.number.inj h
        have hratio : ((scale 10 c 1 e).1 : ℚ) / (scale 10 c 1 e).2 = v := by
          rw [scale_ratio (by norm_num), ← hv]
          norm_num
        exact isWhole_iff.2 ⟨negative, d, parts_ofDyadic (round_canonical (by decide) (by decide) hden hround),
          round_whole (by decide) hden hratio hround⟩

/-- a numeral that spells an integer reads as a whole number, or lies beyond the range -/
theorem parse?_whole {s : String} {negative : Bool} {ds : List Char} {fs : Option (List Char)} {e : Option Int}
    (hs : s.toList = (if negative then ['-'] else []) ++ numeral ds fs e) (h : IsNumeral ds fs e) {v : ℕ}
    (hv : (Nat.ofDigitChars 10 (ds ++ fs.getD []) 0 : ℚ) * 10 ^ ((e.getD 0 : ℤ) - (fs.getD []).length) = v) :
    isWhole ((parse? s).getD 0.0) = true := by
  unfold parse?
  split
  · rename_i x hx
    rw [read_numeral hs h] at hx
    exact ofDecimal_whole hv hx
  · exact isWhole_signed_zero false

theorem parse?_int (n : ℤ) : isWhole ((parse? (toString n)).getD 0.0) = true := by
  obtain ⟨htext, hnum⟩ := int_numeral n
  exact parse?_whole htext hnum (v := n.natAbs) (by simp [Nat.ofDigitChars_ten_toDigits])

/-- the grid of the integers holds every whole value -/
theorem gridPoint_zero {f : BinaryFormat} {d : Dyadic} (hs : 0 < d.significand) {v : ℕ}
    (hv : (d.significand : ℚ) * 2 ^ d.exponent = v) : ((f.interval d).gridPoint 0).isSome = true := by
  have hvalue := interval_value f d
  have hholds := interval_holds_value f hs
  rw [hv] at hvalue
  rw [hvalue] at hholds
  set i := f.interval d
  have hden : 0 < (scale 10 (scale 2 i.value 1 i.exponent).1 (scale 2 i.value 1 i.exponent).2 (-0)).2 :=
    scale_den_pos (by norm_num) (scale_den_pos (by norm_num) Nat.one_pos _) _
  have hratio := scale_ratio (b := 10) (by norm_num) (scale 2 i.value 1 i.exponent).1 (scale 2 i.value 1 i.exponent).2 (-0)
  rw [scale_ratio (by norm_num) i.value 1 i.exponent] at hratio
  unfold Interval.gridPoint
  set vn := (scale 10 (scale 2 i.value 1 i.exponent).1 (scale 2 i.value 1 i.exponent).2 (-0)).1
  set vd := (scale 10 (scale 2 i.value 1 i.exponent).1 (scale 2 i.value 1 i.exponent).2 (-0)).2
  have hvd : (vd : ℚ) ≠ 0 := by exact_mod_cast hden.ne'
  have hexact : vn = v * vd := by
    have : (vn : ℚ) / vd = v := by simpa [hvalue] using hratio
    rw [div_eq_iff hvd] at this
    exact_mod_cast this
  have hdown : i.contains (vn / vd) 0 = true := by
    rw [contains_iff, hexact, Nat.mul_div_cancel _ hden]
    simpa using hholds
  change (if i.contains (vn / vd) 0 && i.contains (vn / vd + 1) 0 then some (roundDiv vn vd)
    else if i.contains (vn / vd) 0 then some (vn / vd) else _).isSome = true
  rw [hdown]
  split <;> rfl

theorem trim_exponent_le (fuel : ℕ) (d : Decimal) : d.exponent ≤ (d.trim fuel).exponent := by
  induction fuel generalizing d with
  | zero => exact le_rfl
  | succ fuel ih =>
    simp only [Decimal.trim]
    split_ifs
    · exact (by simp : d.exponent ≤ d.exponent + 1).trans (ih _)
    · exact le_rfl

/-- a search passes over grids without a point and ends at the first that has one -/
theorem search_cases (i : Interval) (point : ℤ) (fuel n : ℕ) : i.search point fuel n = ⟨0, 0⟩ ∨
    ∃ c k : ℕ, k < n + fuel ∧ i.Holds (c * 10 ^ (point - k)) ∧ i.search point fuel n = Decimal.trim 400 ⟨c, point - k⟩ ∧
      ∀ j : ℕ, n ≤ j → j < k → i.gridPoint (point - j) = none := by
  induction fuel generalizing n with
  | zero => exact .inl rfl
  | succ fuel ih =>
    rw [Interval.search]
    cases hg : i.gridPoint (point - n) with
    | some c => exact .inr ⟨c, n, by omega, gridPoint_holds hg, rfl, fun j h1 h2 => by omega⟩
    | none =>
      rcases ih (n + 1) with h | ⟨c, k, hk, hholds, h, hpassed⟩
      · exact .inl h
      · refine .inr ⟨c, k, by omega, hholds, h, fun j h1 h2 => ?_⟩
        rcases Nat.eq_or_lt_of_le h1 with rfl | h1
        · exact hg
        · exact hpassed j h1 h2

/-- the shortest decimal of a whole value has no digits behind the point -/
theorem shortest_whole {f : BinaryFormat} {d : Dyadic} {v : ℕ} (hv : (d.significand : ℚ) * 2 ^ d.exponent = v)
    (hlarge : (v : ℚ) ≤ 2 ^ (1100 : ℤ)) : 0 ≤ (shortest f d).exponent ∧
      ((shortest f d).coefficient ≠ 0 → (shortest f d).exponent < 5000) ∧ (shortest f d).coefficient < 10 ^ 19 := by
  rcases Nat.eq_zero_or_pos d.significand with hz | hs
  · simp [shortest, hz]
  have hvpos : (1 : ℚ) ≤ v := by
    have : (0 : ℚ) < v := by
      rw [← hv]
      exact mul_pos (by exact_mod_cast hs) (by positivity)
    exact_mod_cast this
  have hratio : (d.ratio.1 : ℚ) / d.ratio.2 = v := (ratio_value d).trans hv
  have hnum : 0 < d.ratio.1 := by
    rcases Nat.eq_zero_or_pos d.ratio.1 with h | h
    · rw [h, Nat.cast_zero, zero_div] at hratio
      linarith
    · exact h
  obtain ⟨-, hhigh⟩ := decimalPoint_bounds hnum (ratio_den_pos d) (a := 0) (b := 1100) (by norm_num) le_rfl
    (by simpa [hratio] using hvpos) (by rw [hratio]; exact hlarge)
  set point := decimalPoint d.ratio.1 d.ratio.2 with hpoint
  have hpos : 0 < point := by
    rw [hratio] at hhigh
    exact (one_lt_zpow_iff_right₀ (by norm_num : (1 : ℚ) < 10)).1 (hvpos.trans_lt hhigh)
  rw [ratio_value] at hhigh
  have heq : shortest f d = (f.interval d).search point 18 1 := by
    unfold shortest
    rw [if_neg hs.ne']
  rw [heq]
  rcases search_cases (f.interval d) point 18 1 with h | ⟨c, k, hk, hholds, h, hpassed⟩
  · simp [h]
  rw [h]
  have hnonneg : 0 ≤ point - k := by
    by_contra hneg
    obtain ⟨j, hj⟩ : ∃ j : ℕ, point = j := ⟨point.toNat, by omega⟩
    have hnone := hpassed j (by omega) (by omega)
    rw [hj, sub_self] at hnone
    have hsome := gridPoint_zero (f := f) hs hv
    rw [hnone] at hsome
    cases hsome
  refine ⟨hnonneg.trans (trim_exponent_le 400 _), fun hc => ?_,
    (trim_coefficient_le 400 _).trans_lt (coefficient_small hs hhigh (by omega) hholds)⟩
  have hup := hholds.le.2
  rw [interval_upper, ← trim_value 400 ⟨c, point - k⟩] at hup
  set t := Decimal.trim 400 ⟨c, point - k⟩
  have hcoefficient : (1 : ℚ) ≤ t.coefficient := by exact_mod_cast Nat.pos_of_ne_zero hc
  have hten : (0 : ℚ) < 10 ^ t.exponent := by positivity
  have hsig : (1 : ℚ) ≤ d.significand := by exact_mod_cast hs
  have hq : (0 : ℚ) < 2 ^ d.exponent := by positivity
  have hle : (10 : ℚ) ^ t.exponent ≤ 10 ^ (1101 : ℤ) := by
    calc (10 : ℚ) ^ t.exponent ≤ t.coefficient * 10 ^ t.exponent := by nlinarith
      _ ≤ (d.significand + 1 / 2) * 2 ^ d.exponent := hup
      _ ≤ 2 * (d.significand * 2 ^ d.exponent) := by nlinarith
      _ = 2 * v := by rw [hv]
      _ ≤ 2 * 2 ^ (1100 : ℤ) := by linarith
      _ = 2 ^ (1101 : ℤ) := by rw [← zpow_one_add₀ (by norm_num)]; norm_num
      _ ≤ 10 ^ (1101 : ℤ) := zpow_le_zpow_left₀ (by norm_num) (by norm_num) (by norm_num)
  have := (zpow_le_zpow_iff_right₀ (by norm_num : (1 : ℚ) < 10)).1 hle
  omega

/-- the digits of a whole value read as a whole number -/
theorem digits_whole (n : Layout) (hn : n.highest ≤ 20) {f : BinaryFormat} {d : Dyadic} {v : ℕ}
    (hv : (d.significand : ℚ) * 2 ^ d.exponent = v) (hlarge : (v : ℚ) ≤ 2 ^ (1100 : ℤ)) {s : String} {negative : Bool}
    (hs : s.toList = (if negative then ['-'] else []) ++ (n.digits (shortest f d)).toList) :
    isWhole ((parse? s).getD 0.0) = true := by
  obtain ⟨hexp, hsmall, hcoefficient⟩ := shortest_whole (f := f) hv hlarge
  rcases Nat.eq_zero_or_pos (shortest f d).coefficient with hz | hpos
  · have hdigits : (n.digits (shortest f d)).toList = numeral ['0'] none none := by
      simp [Layout.digits, hz, numeral, fractionChars, exponentChars]
    rw [hdigits] at hs
    exact parse?_whole hs ⟨by simp, by simp, by simp, by simp⟩ (v := 0) (by simp [Nat.ofDigitChars_cons])
  · obtain ⟨ds, fs, e, hds, hnum, -, hvalue⟩ := digits_numeral n hn hpos hcoefficient (by
      have := hsmall hpos.ne'
      omega)
    obtain ⟨k, hk⟩ := Int.eq_ofNat_of_zero_le hexp
    rw [hds] at hs
    refine parse?_whole hs hnum (v := (shortest f d).coefficient * 10 ^ k) ?_
    rw [hvalue, hk]
    push_cast
    rw [zpow_natCast]

/-- **Whole numbers stay whole.** The text of a whole number reads as a whole number, whichever format it is written for. -/
theorem parse?_text_whole (n : Layout) (hn : n.highest ≤ 20) {x : Float} (h : isWhole x = true) :
    isWhole ((parse? (n.text single x)).getD 0.0) = true := by
  obtain ⟨negative, d, hx, v, hv⟩ := isWhole_iff.1 h
  have hne : single ≠ double := by decide
  have htext : (n.text single x).toList = (if negative then ['-'] else []) ++
      (n.digits (shortest single ((single.round d.ratio.1 d.ratio.2).getD d))).toList := by
    simp only [Layout.text, hx, if_neg hne, String.toList_append]
    cases negative <;> rfl
  have hbound {f : BinaryFormat} {d : Dyadic} {v : ℕ} (hd : Canonical f d) (hp : f.precision + f.maxExp ≤ 1100)
      (hv : (d.significand : ℚ) * 2 ^ d.exponent = v) : (v : ℚ) ≤ 2 ^ (1100 : ℤ) := by
    have hsig : (d.significand : ℚ) ≤ 2 ^ f.precision := by exact_mod_cast hd.bound.le
    rw [← hv]
    calc (d.significand : ℚ) * 2 ^ d.exponent ≤ 2 ^ f.precision * 2 ^ f.maxExp := by
          gcongr
          · norm_num
          · exact hd.most
      _ = 2 ^ (f.precision + f.maxExp) := by rw [zpow_add₀ (by norm_num), zpow_natCast]
      _ ≤ 2 ^ (1100 : ℤ) := zpow_le_zpow_right₀ (by norm_num) hp
  cases hround : single.round d.ratio.1 d.ratio.2 with
  | none =>
    rw [hround] at htext
    exact digits_whole n hn hv (hbound (parts_finite hx).1 (by decide) hv) htext
  | some s =>
    rw [hround] at htext
    obtain ⟨w, hw⟩ := round_whole (by decide) (ratio_den_pos d) ((ratio_value d).trans hv) hround
    have hcanon := round_canonical (by decide) (by decide) (ratio_den_pos d) hround
    exact digits_whole n hn hw (hbound hcanon (by decide) hw) htext

end Schemata.Number
