import Mathlib.Tactic
import Schemata.Proofs.Number.Rounding

/-!
The search for the fewest digits.

Main result: `shortest_spec`. The search always ends with a decimal that lies in the interval of the value, after at most
eighteen digits: by then the grid is finer than the interval.
-/

namespace Schemata.Number

/-! ## Decimal grids -/

theorem contains_iff (i : Interval) (c : ℕ) (g : ℤ) : i.contains c g = true ↔ i.Holds (c * 10 ^ g) := by
  have hc := scale_ratio (b := 10) (by norm_num) c 1 g
  have hu := scale_ratio (b := 2) (by norm_num) 1 1 i.exponent
  have hcd : (0 : ℚ) < (scale 10 c 1 g).2 := by exact_mod_cast scale_den_pos (by norm_num) Nat.one_pos _
  have hud : (0 : ℚ) < (scale 2 1 1 i.exponent).2 := by exact_mod_cast scale_den_pos (by norm_num) Nat.one_pos _
  simp only [Nat.cast_one, div_one, one_mul, Nat.cast_ofNat] at hc hu
  rw [div_eq_iff hcd.ne'] at hc
  rw [div_eq_iff hud.ne'] at hu
  have key : ∀ k : ℕ, ((k * ((scale 2 1 1 i.exponent).1 * (scale 10 c 1 g).2) : ℕ) : ℚ)
      = k * 2 ^ i.exponent * ((scale 2 1 1 i.exponent).2 * (scale 10 c 1 g).2) := by
    intro k; push_cast; rw [hu]; ring
  have hpoint : (((scale 10 c 1 g).1 * (scale 2 1 1 i.exponent).2 : ℕ) : ℚ)
      = c * 10 ^ g * ((scale 2 1 1 i.exponent).2 * (scale 10 c 1 g).2) := by
    push_cast; rw [hc]; ring
  have hpos : (0 : ℚ) < (scale 2 1 1 i.exponent).2 * (scale 10 c 1 g).2 := mul_pos hud hcd
  unfold Interval.contains Interval.Holds
  simp only
  split_ifs
  · rw [Bool.and_eq_true, decide_eq_true_eq, decide_eq_true_eq, ← Nat.cast_le (α := ℚ), ← Nat.cast_le (α := ℚ),
      key, key, hpoint, mul_le_mul_iff_left₀ hpos, mul_le_mul_iff_left₀ hpos]
  · rw [Bool.and_eq_true, decide_eq_true_eq, decide_eq_true_eq, ← Nat.cast_lt (α := ℚ), ← Nat.cast_lt (α := ℚ),
      key, key, hpoint, mul_lt_mul_iff_left₀ hpos, mul_lt_mul_iff_left₀ hpos]

theorem gridPoint_holds {i : Interval} {g : ℤ} {c : ℕ} (h : i.gridPoint g = some c) : i.Holds (c * 10 ^ g) := by
  rw [← contains_iff]
  unfold Interval.gridPoint at h
  simp only [Bool.and_eq_true] at h
  split_ifs at h with h1 h2 h3
  · unfold roundDiv at h
    simp only [Option.some.injEq] at h
    rw [← h]
    split_ifs
    · exact h1.2
    · exact h1.1
  · cases h; exact h2
  · cases h; exact h3

/-- a grid finer than the interval has a point in it next to the value -/
theorem gridPoint_isSome {i : Interval} {g : ℤ} (hv : i.Holds (i.value * 2 ^ i.exponent))
    (hg : (10 : ℚ) ^ g < (i.upper - i.lower) * 2 ^ i.exponent) : (i.gridPoint g).isSome := by
  by_contra hnone
  have hpg : (0 : ℚ) < 10 ^ g := by positivity
  unfold Interval.gridPoint at hnone
  simp only [Bool.and_eq_true] at hnone
  have hratio := scale_ratio (b := 10) (by norm_num) (scale 2 i.value 1 i.exponent).1 (scale 2 i.value 1 i.exponent).2 (-g)
  rw [scale_ratio (by norm_num) i.value 1 i.exponent] at hratio
  have hden : 0 < (scale 10 (scale 2 i.value 1 i.exponent).1 (scale 2 i.value 1 i.exponent).2 (-g)).2 :=
    scale_den_pos (by norm_num) (scale_den_pos (by norm_num) Nat.one_pos _) _
  set vn := (scale 10 (scale 2 i.value 1 i.exponent).1 (scale 2 i.value 1 i.exponent).2 (-g)).1
  set vd := (scale 10 (scale 2 i.value 1 i.exponent).1 (scale 2 i.value 1 i.exponent).2 (-g)).2
  have hvd : (0 : ℚ) < vd := by exact_mod_cast hden
  simp only [Nat.cast_one, div_one, Nat.cast_ofNat, zpow_neg, ← div_eq_mul_inv] at hratio
  have hfloor : ((vn / vd : ℕ) : ℚ) * 10 ^ g ≤ i.value * 2 ^ i.exponent := by
    rw [← le_div_iff₀ hpg, ← hratio, le_div_iff₀ hvd]
    exact_mod_cast Nat.div_mul_le_self vn vd
  have hceil : i.value * 2 ^ i.exponent < (((vn / vd : ℕ) : ℚ) + 1) * 10 ^ g := by
    rw [← div_lt_iff₀ hpg, ← hratio, div_lt_iff₀ hvd]
    exact_mod_cast Nat.lt_mul_of_div_lt (Nat.lt_succ_self _) hden
  have hdown : ¬ i.Holds ((vn / vd : ℕ) * 10 ^ g) := by
    rw [← contains_iff]; intro h; apply hnone; split_ifs <;> simp_all
  have hup : ¬ i.Holds ((vn / vd + 1 : ℕ) * 10 ^ g) := by
    rw [← contains_iff]; intro h; apply hnone; split_ifs <;> simp_all
  push_cast at hup
  unfold Interval.Holds at hv hdown hup
  split_ifs at hv hdown hup
  · rw [not_and, not_le] at hdown hup
    have h1 : ((vn / vd : ℕ) : ℚ) * 10 ^ g < i.lower * 2 ^ i.exponent := by
      by_contra hc; have := hdown (not_lt.1 hc); linarith [hv.2]
    have h2 := hup (by linarith [hv.1])
    nlinarith
  · rw [not_and, not_lt] at hdown hup
    have h1 : ((vn / vd : ℕ) : ℚ) * 10 ^ g ≤ i.lower * 2 ^ i.exponent := by
      by_contra hc; have := hdown (not_le.1 hc); linarith [hv.2]
    have h2 := hup (by linarith [hv.1])
    nlinarith


/-! ## Trimming and searching -/

theorem trim_value (fuel : ℕ) (d : Decimal) :
    ((d.trim fuel).coefficient : ℚ) * 10 ^ (d.trim fuel).exponent = d.coefficient * 10 ^ d.exponent := by
  induction fuel generalizing d with
  | zero => rfl
  | succ fuel ih =>
    simp only [Decimal.trim]
    split_ifs with h
    · rw [ih]
      have hdiv : (d.coefficient : ℚ) = (d.coefficient / 10 : ℕ) * 10 := by
        exact_mod_cast (Nat.div_mul_cancel (Nat.dvd_of_mod_eq_zero h.2)).symm
      rw [zpow_add₀ (by norm_num), zpow_one, hdiv]; push_cast; ring
    · rfl

theorem trim_coefficient_le (fuel : ℕ) (d : Decimal) : (d.trim fuel).coefficient ≤ d.coefficient := by
  induction fuel generalizing d with
  | zero => exact le_rfl
  | succ fuel ih =>
    simp only [Decimal.trim]
    split_ifs
    · exact (ih _).trans (Nat.div_le_self _ _)
    · exact le_rfl

/-- a search that meets a fine enough grid ends with a point of the interval -/
theorem search_spec (i : Interval) (point : ℤ) (fuel n k : ℕ) (hk : k < fuel)
    (hsome : (i.gridPoint (point - (n + k : ℕ))).isSome) :
    ∃ c j : ℕ, j < fuel ∧ i.Holds (c * 10 ^ (point - (n + j : ℕ)))
      ∧ i.search point fuel n = Decimal.trim 400 ⟨c, point - (n + j : ℕ)⟩ := by
  induction fuel generalizing n k with
  | zero => omega
  | succ fuel ih =>
    unfold Interval.search
    cases hg : i.gridPoint (point - n) with
    | some c =>
      refine ⟨c, 0, Nat.succ_pos _, ?_, ?_⟩
      · simpa using gridPoint_holds hg
      · simp [hg]
    | none =>
      cases k with
      | zero => simp [hg] at hsome
      | succ k =>
        have hcast : ((n + 1 + k : ℕ) : ℤ) = ((n + (k + 1) : ℕ) : ℤ) := by push_cast; ring
        obtain ⟨c, j, hj, hc, hs⟩ := ih (n + 1) k (by omega) (by rw [hcast]; exact hsome)
        have hcast' : ((n + 1 + j : ℕ) : ℤ) = ((n + (j + 1) : ℕ) : ℤ) := by push_cast; ring
        rw [hcast'] at hc hs
        exact ⟨c, j + 1, by omega, hc, by simpa [hg] using hs⟩


/-! ## The decimal point -/

/-- `10 ^ g ≤ 2 ^ e`, compared in whole numbers -/
def powersOrdered (g e : ℤ) : Bool :=
  (scale 10 1 1 g).1 * (scale 2 1 1 e).2 ≤ (scale 2 1 1 e).1 * (scale 10 1 1 g).2

theorem powersOrdered_iff (g e : ℤ) : powersOrdered g e = true ↔ (10 : ℚ) ^ g ≤ 2 ^ e := by
  have hc := scale_ratio (b := 10) (by norm_num) 1 1 g
  have hu := scale_ratio (b := 2) (by norm_num) 1 1 e
  have hcd : (0 : ℚ) < (scale 10 1 1 g).2 := by exact_mod_cast scale_den_pos (by norm_num) Nat.one_pos _
  have hud : (0 : ℚ) < (scale 2 1 1 e).2 := by exact_mod_cast scale_den_pos (by norm_num) Nat.one_pos _
  simp only [Nat.cast_one, div_one, one_mul, Nat.cast_ofNat] at hc hu
  unfold powersOrdered
  rw [decide_eq_true_eq, ← hc, ← hu, div_le_div_iff₀ hcd hud]
  exact_mod_cast Iff.rfl

/-- the decimal magnitude that `decimalPoint` starts from -/
def magnitude (e : ℤ) : ℤ := (e * 30103).fdiv 100000

theorem magnitude_low : ∀ k : ℕ, k < 2300 → powersOrdered (magnitude ((k : ℤ) - 1150) - 3) ((k : ℤ) - 1151) = true := by
  have h : (List.range 2300).all (fun k => powersOrdered (magnitude ((k : ℤ) - 1150) - 3) ((k : ℤ) - 1151)) = true := by
    decide +kernel
  intro k hk
  exact List.all_eq_true.1 h k (List.mem_range.2 hk)

theorem magnitude_high : ∀ k : ℕ, k < 2300 → powersOrdered (-(magnitude ((k : ℤ) - 1150) + 2)) (-((k : ℤ) - 1149)) = true := by
  have h : (List.range 2300).all
      (fun k => powersOrdered (-(magnitude ((k : ℤ) - 1150) + 2)) (-((k : ℤ) - 1149))) = true := by
    decide +kernel
  intro k hk
  exact List.all_eq_true.1 h k (List.mem_range.2 hk)

theorem decimalPoint_bounds {num den : ℕ} (hn : 0 < num) (hd : 0 < den) {a b : ℤ} (ha : -1100 ≤ a) (hb : b ≤ 1100)
    (hlo : (2 : ℚ) ^ a ≤ num / den) (hhi : (num : ℚ) / den ≤ 2 ^ b) :
    (10 : ℚ) ^ (decimalPoint num den - 2) ≤ num / den ∧ (num : ℚ) / den < 10 ^ decimalPoint num den := by
  obtain ⟨h1, h2⟩ := log2_ratio hn hd
  set e : ℤ := (num.log2 : ℤ) - den.log2 with he
  have two : (1 : ℚ) < 2 := by norm_num
  have ten : (1 : ℚ) ≤ 10 := by norm_num
  have e1 := (zpow_lt_zpow_iff_right₀ two).1 (hlo.trans_lt h2)
  have e2 := (zpow_lt_zpow_iff_right₀ two).1 (h1.trans_le hhi)
  obtain ⟨k, hk⟩ := Int.eq_ofNat_of_zero_le (show 0 ≤ e + 1150 by omega)
  have hek : e = (k : ℤ) - 1150 := by omega
  have low : (10 : ℚ) ^ (magnitude e - 3) ≤ num / den := by
    have := (powersOrdered_iff _ _).1 (magnitude_low k (by omega))
    rw [← hek] at this
    refine this.trans (le_trans (le_of_eq ?_) h1.le)
    congr 1; omega
  have high : (num : ℚ) / den < 10 ^ (magnitude e + 2) := by
    have := (powersOrdered_iff _ _).1 (magnitude_high k (by omega))
    rw [← hek, zpow_neg, zpow_neg, inv_le_inv₀ (by positivity) (by positivity)] at this
    refine h2.trans_le (le_trans (le_of_eq ?_) this)
    congr 1; omega
  have below : ∀ j : ℤ, (scale 10 num den (-j)).1 < (scale 10 num den (-j)).2 ↔ (num : ℚ) / den < 10 ^ j := by
    intro j
    have hp : (0 : ℚ) < (scale 10 num den (-j)).2 := by exact_mod_cast scale_den_pos (by norm_num) hd _
    have hr := scale_ratio (b := 10) (by norm_num) num den (-j)
    rw [← Nat.cast_lt (α := ℚ), ← div_lt_one hp, hr, zpow_neg, ← div_eq_mul_inv]
    exact div_lt_one (by positivity)
  have up : ∀ j : ℤ, ¬ (num : ℚ) / den < 10 ^ j → (10 : ℚ) ^ (j + 1 - 2) ≤ num / den := by
    intro j hj
    exact (zpow_le_zpow_right₀ ten (by omega)).trans (not_lt.1 hj)
  unfold decimalPoint
  simp only [← he, decide_eq_true_eq, below, show (e * 30103).fdiv 100000 = magnitude e from rfl]
  split_ifs with b1 b2 b3
  · exact ⟨by rw [show magnitude e - 1 - 2 = magnitude e - 3 by ring]; exact low, b1⟩
  · exact ⟨up _ b1, b2⟩
  · exact ⟨by have := up _ b2; rwa [show magnitude e - 1 + 1 + 1 - 2 = magnitude e - 1 + 2 - 2 by ring] at this, b3⟩
  · refine ⟨?_, ?_⟩
    · have := up _ b3; rwa [show magnitude e - 1 + 2 + 1 - 2 = magnitude e - 1 + 3 - 2 by ring] at this
    · rw [show magnitude e - 1 + 3 = magnitude e + 2 by ring]; exact high


/-! ## Shortest digits -/

theorem ratio_value (d : Dyadic) : ((d.ratio.1 : ℚ) / d.ratio.2) = d.significand * 2 ^ d.exponent := by
  unfold Dyadic.ratio
  rw [scale_ratio (by norm_num)]; norm_num

theorem ratio_den_pos (d : Dyadic) : 0 < d.ratio.2 := scale_den_pos (by norm_num) Nat.one_pos _

theorem interval_value (f : BinaryFormat) (d : Dyadic) :
    ((f.interval d).value : ℚ) * 2 ^ (f.interval d).exponent = d.significand * 2 ^ d.exponent := by
  have : (2 : ℚ) ^ (d.exponent - 2) = 2 ^ d.exponent / 4 := by
    rw [zpow_sub₀ (by norm_num)]; norm_num
  simp only [BinaryFormat.interval, this]
  push_cast
  ring

theorem interval_holds_value (f : BinaryFormat) {d : Dyadic} (hs : 0 < d.significand) :
    (f.interval d).Holds ((f.interval d).value * 2 ^ (f.interval d).exponent) := by
  have hq : (0 : ℚ) < 2 ^ d.exponent := by positivity
  unfold Interval.Holds
  rw [interval_value, interval_upper, interval_lower f d hs]
  split_ifs <;> constructor <;> nlinarith

/-- the values of the format lie between two powers of two -/
theorem canonical_magnitude {d : Dyadic} (hc : Canonical double d) (hs : 0 < d.significand) :
    ∃ a b : ℤ, -1074 ≤ a ∧ b ≤ 1024 ∧ (2 : ℚ) ^ a ≤ d.significand * 2 ^ d.exponent ∧
      (d.significand : ℚ) * 2 ^ d.exponent ≤ 2 ^ b := by
  have hm1 : (1 : ℚ) ≤ d.significand := by exact_mod_cast hs
  have hm2 : (d.significand : ℚ) ≤ 2 ^ (53 : ℤ) := by exact_mod_cast hc.bound.le
  have hleast : -1074 ≤ d.exponent := hc.least
  have hmost : d.exponent ≤ 971 := hc.most
  refine ⟨d.exponent, 53 + d.exponent, by omega, by omega, le_mul_of_one_le_left (by positivity) hm1, ?_⟩
  rw [zpow_add₀ (by norm_num)]
  exact mul_le_mul_of_nonneg_right hm2 (by positivity)

/-- the grid of eighteen digits is finer than any interval of the format -/
theorem grid_finer {d : Dyadic} (hc : Canonical double d) (hs : 0 < d.significand) {g : ℤ}
    (hg : (10 : ℚ) ^ (g + 16) ≤ d.significand * 2 ^ d.exponent) :
    (10 : ℚ) ^ g < ((double.interval d).upper - (double.interval d).lower) * 2 ^ (double.interval d).exponent := by
  have hq : (0 : ℚ) < 2 ^ d.exponent := by positivity
  rw [zpow_add₀ (by norm_num)] at hg
  rw [sub_mul, interval_upper, interval_lower double d hs]
  norm_num at hg
  split_ifs with h
  · have hm : (d.significand : ℚ) = 2 ^ 52 := by exact_mod_cast h.1
    rw [hm] at hg ⊢
    nlinarith
  · have hm : (d.significand : ℚ) < 2 ^ 53 := by exact_mod_cast hc.bound
    nlinarith

/-- a point of the interval has few digits on a grid close below the decimal point -/
theorem coefficient_small {f : BinaryFormat} {d : Dyadic} (hs : 0 < d.significand) {point : ℤ}
    (hhigh : (d.significand : ℚ) * 2 ^ d.exponent < 10 ^ point) {c k : ℕ} (hk : k ≤ 18)
    (hc : (f.interval d).Holds (c * 10 ^ (point - k))) : c < 10 ^ 19 := by
  have hq : (0 : ℚ) < 2 ^ d.exponent := by positivity
  have hm1 : (1 : ℚ) ≤ d.significand := by exact_mod_cast hs
  have hup := hc.le.2
  rw [interval_upper] at hup
  have hpg : (0 : ℚ) < 10 ^ (point - k) := by positivity
  have hsplit : (10 : ℚ) ^ point = 10 ^ k * 10 ^ (point - k) := by
    rw [← zpow_natCast, ← zpow_add₀ (by norm_num)]; congr 1; ring
  have hten : (10 : ℚ) ^ k ≤ 10 ^ 18 := pow_le_pow_right₀ (by norm_num) hk
  have hc2 : (c : ℚ) < 10 ^ 19 := by
    rw [hsplit] at hhigh
    have : (c : ℚ) * 10 ^ (point - k) < 2 * 10 ^ k * 10 ^ (point - k) := by nlinarith
    have := lt_of_mul_lt_mul_right this hpg.le
    linarith
  exact_mod_cast hc2

theorem shortest_spec {d : Dyadic} (hc : Canonical double d) (hs : 0 < d.significand) :
    (double.interval d).Holds ((shortest double d).coefficient * 10 ^ (shortest double d).exponent)
      ∧ (shortest double d).coefficient < 10 ^ 19 := by
  obtain ⟨a, b, ha, hb, h1, h2⟩ := canonical_magnitude hc hs
  rw [← ratio_value] at h1 h2
  have hnum : 0 < d.ratio.1 := by
    have hpos : (0 : ℚ) < d.ratio.1 / d.ratio.2 := LT.lt.trans_le (by positivity) h1
    rcases Nat.eq_zero_or_pos d.ratio.1 with h | h
    · simp [h] at hpos
    · exact h
  obtain ⟨hlow, hhigh⟩ := decimalPoint_bounds hnum (ratio_den_pos d) (by omega) (by omega) h1 h2
  set point := decimalPoint d.ratio.1 d.ratio.2 with hpoint
  rw [ratio_value] at hlow hhigh
  have hsome : ((double.interval d).gridPoint (point - (1 + 17 : ℕ))).isSome := by
    apply gridPoint_isSome (interval_holds_value double hs)
    apply grid_finer hc hs
    refine le_trans (le_of_eq ?_) hlow
    congr 1; push_cast; ring
  obtain ⟨c, j, hj, hholds, hsearch⟩ := search_spec (double.interval d) point 18 1 17 (by norm_num) hsome
  have heq : shortest double d = Decimal.trim 400 ⟨c, point - (1 + j : ℕ)⟩ := by
    rw [← hsearch]
    unfold shortest
    rw [if_neg hs.ne']
  rw [heq, trim_value]
  exact ⟨hholds, (trim_coefficient_le _ _).trans_lt (coefficient_small hs hhigh (by omega) hholds)⟩

end Schemata.Number
