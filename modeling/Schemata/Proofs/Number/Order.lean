import Mathlib.Tactic
import Mathlib.Data.Prod.Lex
import Schemata.Proofs.Number.Rounding

/-!
The order of 64-bit numbers.

Every number but NaN has a place in one linear order (`place`), and `<`, `≤` and `==` compare places. So bounds can be
combined (`lt_of_le_of_lt`, `lt_of_lt_of_le`) and, among finite numbers, told apart (`lt_of_not_le`), and only NaN differs
from itself (`beq_self_iff`).
-/

namespace Schemata.Number

open Float.Model Float.Model.UnpackedFloat

/-! ## Places -/

/-- where a number stands: its class, then exponent and mantissa with the sign; NaN stands nowhere -/
def place : UnpackedFloat → Option (ℤ ×ₗ ℤ ×ₗ ℤ)
  | .notANumber => none
  | .infinity .negative => some (toLex (-2, toLex (0, 0)))
  | .finite .negative m e _ => some (toLex (-1, toLex (-e, -m)))
  | .zero _ => some (toLex (0, toLex (0, 0)))
  | .finite .positive m e _ => some (toLex (1, toLex (e, m)))
  | .infinity .positive => some (toLex (2, toLex (0, 0)))

theorem isLE_then {a b : Ordering} : (a.then b).isLE = true ↔ a = .lt ∨ a = .eq ∧ b.isLE = true := by
  cases a <;> cases b <;> decide

theorem isGE_then {a b : Ordering} : (a.then b).isGE = true ↔ a = .gt ∨ a = .eq ∧ b.isGE = true := by
  cases a <;> cases b <;> decide

theorem unpacked_lt_iff (a b : UnpackedFloat) : a.lt b = true ↔ ∃ x y, place a = some x ∧ place b = some y ∧ x < y := by
  rcases a with (_ | _) | _ | _ | ⟨_ | _, m, e, hm⟩ <;> rcases b with (_ | _) | _ | _ | ⟨_ | _, n, k, hn⟩ <;>
    unfold UnpackedFloat.lt UnpackedFloat.compare place <;> dsimp only <;>
    simp [Prod.Lex.lt_iff, Ordering.then_eq_lt, Ordering.swap_eq_lt, Ordering.then_eq_gt, compare_lt_iff_lt,
      compare_gt_iff_gt]
  decide

theorem unpacked_le_iff (a b : UnpackedFloat) : a.le b = true ↔ ∃ x y, place a = some x ∧ place b = some y ∧ x ≤ y := by
  rcases a with (_ | _) | _ | _ | ⟨_ | _, m, e, hm⟩ <;> rcases b with (_ | _) | _ | _ | ⟨_ | _, n, k, hn⟩ <;>
    unfold UnpackedFloat.le UnpackedFloat.compare place <;> dsimp only <;>
    simp [Prod.Lex.le_iff, isLE_then, isGE_then, compare_lt_iff_lt, compare_gt_iff_gt, Nat.isLE_compare,
      Nat.isGE_compare]
  all_goals decide

/-- where a number stands in the order -/
def placeOf (x : Float) : Option (ℤ ×ₗ ℤ ×ₗ ℤ) := place x.toModel.unpack

theorem lt_iff (x y : Float) : x < y ↔ ∃ a b, placeOf x = some a ∧ placeOf y = some b ∧ a < b := by
  rw [placeOf, placeOf, ← unpacked_lt_iff]
  change decide (x.toModel.unpack.lt y.toModel.unpack = true) = true ↔ _
  rw [decide_eq_true_iff]

theorem le_iff (x y : Float) : x ≤ y ↔ ∃ a b, placeOf x = some a ∧ placeOf y = some b ∧ a ≤ b := by
  rw [placeOf, placeOf, ← unpacked_le_iff]
  change decide (x.toModel.unpack.le y.toModel.unpack = true) = true ↔ _
  rw [decide_eq_true_iff]

theorem le_of_lt {x y : Float} (h : x < y) : x ≤ y := by
  obtain ⟨a, b, ha, hb, hab⟩ := (lt_iff x y).1 h
  exact (le_iff x y).2 ⟨a, b, ha, hb, hab.le⟩

theorem lt_of_lt_of_le {x y z : Float} (hxy : x < y) (hyz : y ≤ z) : x < z := by
  obtain ⟨a, b, ha, hb, hab⟩ := (lt_iff x y).1 hxy
  obtain ⟨b', c, hb', hc, hbc⟩ := (le_iff y z).1 hyz
  rw [hb] at hb'
  cases hb'
  exact (lt_iff x z).2 ⟨a, c, ha, hc, hab.trans_le hbc⟩

theorem lt_of_le_of_lt {x y z : Float} (hxy : x ≤ y) (hyz : y < z) : x < z := by
  obtain ⟨a, b, ha, hb, hab⟩ := (le_iff x y).1 hxy
  obtain ⟨b', c, hb', hc, hbc⟩ := (lt_iff y z).1 hyz
  rw [hb] at hb'
  cases hb'
  exact (lt_iff x z).2 ⟨a, c, ha, hc, hab.trans_lt hbc⟩

/-! ## Finite numbers -/

theorem place_eq_none {u : UnpackedFloat} (h : place u = none) : u = .notANumber := by
  rcases u with (_ | _) | _ | _ | ⟨_ | _, m, e, hm⟩ <;> first | rfl | cases h

/-- only the highest exponent is that of an infinity or of NaN, and only bits without exponent and mantissa are those of a zero -/
theorem unpack_cases (b : BitVec 64) :
    @unpackExponent Format.binary64 b = -1#_ ∧ (∀ s, UnpackedFloat.unpack Format.binary64 b ≠ .zero s) ∨
      UnpackedFloat.unpack Format.binary64 b ≠ .notANumber ∧ (@unpackExponent Format.binary64 b = 0#_ ∧
        @unpackMantissa Format.binary64 b = 0#_ ∨ ∀ s, UnpackedFloat.unpack Format.binary64 b ≠ .zero s) := by
  unfold UnpackedFloat.unpack
  dsimp only
  by_cases he : @unpackExponent Format.binary64 b = -1#_
  · rw [if_pos he]
    refine .inl ⟨he, fun s h => ?_⟩
    by_cases hm : @unpackMantissa Format.binary64 b = 0#_
    · rw [if_pos hm] at h
      cases h
    · rw [if_neg hm] at h
      cases h
  · rw [if_neg he]
    by_cases he0 : @unpackExponent Format.binary64 b = 0#_
    · rw [if_pos he0]
      by_cases hm : @unpackMantissa Format.binary64 b = 0#_
      · rw [dif_pos hm]
        exact .inr ⟨fun h => (by cases h), .inl ⟨he0, hm⟩⟩
      · rw [dif_neg hm]
        exact .inr ⟨fun h => (by cases h), .inr fun s h => (by cases h)⟩
    · rw [if_neg he0]
      exact .inr ⟨fun h => (by cases h), .inr fun s h => (by cases h)⟩

theorem unpack_nan {x : Float} (h : x.toModel.unpack = .notANumber) : isFinite x = false := by
  rcases unpack_cases x.toModel.toBits.toBitVec with ⟨he, -⟩ | ⟨hnot, -⟩
  · have hexp := exp_toNat x.toModel.toBits.toBitVec
    rw [he] at hexp
    have : x.toBits.toNat / Nat.pow 2 52 % 2048 = 2047 := by
      rw [Nat.pow_eq]
      exact hexp.symm
    simp only [isFinite, parts, this, if_true]
    by_cases hm : x.toBits.toNat % Nat.pow 2 52 = 0 <;> simp [hm]
  · exact absurd h hnot

/-- a finite number has a place -/
theorem placeOf_finite {x : Float} (h : isFinite x = true) : ∃ a, placeOf x = some a := by
  cases hx : placeOf x with
  | some a => exact ⟨a, rfl⟩
  | none =>
    rw [unpack_nan (place_eq_none hx)] at h
    cases h

theorem lt_of_not_le {x y : Float} (hx : isFinite x = true) (hy : isFinite y = true) (h : ¬ x ≤ y) : y < x := by
  obtain ⟨a, ha⟩ := placeOf_finite hx
  obtain ⟨b, hb⟩ := placeOf_finite hy
  rw [le_iff] at h
  exact (lt_iff y x).2 ⟨b, a, hb, ha, not_le.1 fun hab => h ⟨a, b, ha, hb, hab⟩⟩

/-! ## Equal numbers -/

theorem unpacked_beq_iff (a b : UnpackedFloat) : (a.compare b == some .eq) = true ↔ ∃ x, place a = some x ∧ place b = some x := by
  rcases a with (_ | _) | _ | _ | ⟨_ | _, m, e, hm⟩ <;> rcases b with (_ | _) | _ | _ | ⟨_ | _, n, k, hn⟩ <;>
    unfold UnpackedFloat.compare place <;> dsimp only <;>
    simp [Ordering.then_eq_eq, Ordering.swap_eq_eq]
  case infinity.negative.infinity.negative => decide
  case infinity.positive.infinity.positive => decide
  all_goals exact and_congr eq_comm eq_comm

/-- numbers are equal when they have one place -/
theorem beq_iff (x y : Float) : (x == y) = true ↔ ∃ a, placeOf x = some a ∧ placeOf y = some a :=
  unpacked_beq_iff x.toModel.unpack y.toModel.unpack

theorem beq_comm (x y : Float) : (x == y) = (y == x) := by
  rw [Bool.eq_iff_iff, beq_iff, beq_iff]
  simp only [and_comm]

theorem beq_trans {x y z : Float} (hxy : (x == y) = true) (hyz : (y == z) = true) : (x == z) = true := by
  obtain ⟨a, hx, hy⟩ := (beq_iff x y).1 hxy
  obtain ⟨b, hy', hz⟩ := (beq_iff y z).1 hyz
  rw [hy] at hy'
  cases hy'
  exact (beq_iff x z).2 ⟨a, hx, hz⟩

theorem unpack_nan_iff {x : Float} : x.toModel.unpack = .notANumber ↔ isNaN x = true := by
  have hexp := exp_toNat x.toModel.toBits.toBitVec
  have hmant := mant_toNat x.toModel.toBits.toBitVec
  by_cases he : @unpackExponent Format.binary64 x.toModel.toBits.toBitVec = -1#_
  · have he' : x.toBits.toNat / Nat.pow 2 52 % 2048 = 2047 := by
      rw [he] at hexp
      exact hexp.symm
    unfold Float.Model.unpack UnpackedFloat.unpack
    dsimp only
    rw [if_pos he]
    by_cases hm : @unpackMantissa Format.binary64 x.toModel.toBits.toBitVec = 0#_
    · have hm' : x.toBits.toNat % Nat.pow 2 52 = 0 := by
        rw [hm] at hmant
        exact hmant.symm
      simp [hm, isNaN, parts, he', hm']
    · have hm' : x.toBits.toNat % Nat.pow 2 52 ≠ 0 := fun h => hm (BitVec.eq_of_toNat_eq (hmant.trans h))
      simp [hm, isNaN, parts, he', hm']
  · have he' : x.toBits.toNat / Nat.pow 2 52 % 2048 ≠ 2047 := fun h => he (BitVec.eq_of_toNat_eq (hexp.trans h))
    have hnot : isNaN x = false := by
      simp only [isNaN, parts, he', if_false]
      split_ifs <;> rfl
    rcases unpack_cases x.toModel.toBits.toBitVec with ⟨h, -⟩ | ⟨h, -⟩
    · exact absurd h he
    · rw [hnot]
      exact ⟨fun hnan => absurd hnan h, nofun⟩

/-- only NaN differs from itself -/
theorem beq_self_iff {x : Float} : (x == x) = true ↔ isNaN x = false := by
  rw [beq_iff, ← Bool.not_eq_true, ← unpack_nan_iff]
  constructor
  · rintro ⟨a, ha, -⟩ hnan
    rw [placeOf, hnan] at ha
    cases ha
  · intro hnan
    cases hx : placeOf x with
    | some a => exact ⟨a, rfl, rfl⟩
    | none => exact absurd (place_eq_none hx) hnan

theorem unpack_injective {x y : Float} (h : x.toModel.unpack = y.toModel.unpack) : x = y := by
  obtain ⟨⟨a, ha⟩⟩ := x
  obtain ⟨⟨b, hb⟩⟩ := y
  have hab := congrArg (UnpackedFloat.pack Format.binary64) h
  simp only [Float.Model.unpack, unpack_pack _ ha, unpack_pack _ hb] at hab
  cases UInt64.toBitVec_inj.1 hab
  rfl

/-- equal numbers are the same, or zeros of either sign -/
theorem eq_of_beq {x y : Float} (h : (x == y) = true) :
    x = y ∨ (∃ s, x.toModel.unpack = .zero s) ∧ ∃ s, y.toModel.unpack = .zero s := by
  change (x.toModel.unpack.compare y.toModel.unpack == some Ordering.eq) = true at h
  rcases hx : x.toModel.unpack with (_ | _) | _ | _ | ⟨_ | _, m, e, hm⟩ <;>
    rcases hy : y.toModel.unpack with (_ | _) | _ | _ | ⟨_ | _, n, k, hn⟩ <;> rw [hx, hy] at h <;>
    unfold UnpackedFloat.compare at h <;> simp [Ordering.then_eq_eq] at h
  all_goals first
    | exact .inr ⟨⟨_, rfl⟩, _, rfl⟩
    | exact .inl (unpack_injective (hx.trans hy.symm))
    | (obtain ⟨rfl, rfl⟩ := h; exact .inl (unpack_injective (hx.trans hy.symm)))

theorem isWhole_parts {x : Float} {negative : Bool} {d : Dyadic} (h : parts x = .finite negative d) :
    isWhole x = (d.ratio.1 % d.ratio.2 == 0) := by
  simp only [isWhole, h]

theorem isWhole_zero {x : Float} {s : UnpackedFloat.Sign} (h : x.toModel.unpack = .zero s) : isWhole x = true := by
  rcases unpack_cases x.toModel.toBits.toBitVec with ⟨-, hnot⟩ | ⟨-, ⟨he, hm⟩ | hnot⟩
  · exact absurd h (hnot s)
  · have hexp := exp_toNat x.toModel.toBits.toBitVec
    have hmant := mant_toNat x.toModel.toBits.toBitVec
    rw [he] at hexp
    rw [hm] at hmant
    have he0 : x.toBits.toNat / Nat.pow 2 52 % 2048 = 0 := by
      rw [Nat.pow_eq]
      exact hexp.symm
    have hm0 : x.toBits.toNat % Nat.pow 2 52 = 0 := by
      rw [Nat.pow_eq]
      exact hmant.symm
    have hparts : ∃ negative, parts x = .finite negative ⟨0, -1074⟩ := by simp [parts, he0, hm0]
    obtain ⟨negative, hparts⟩ := hparts
    rw [isWhole_parts hparts, show (⟨0, -1074⟩ : Dyadic).ratio.1 = 0 from rfl, Nat.zero_mod]
    rfl
  · exact absurd h (hnot s)

theorem isWhole_of_beq {x y : Float} (h : (x == y) = true) (hy : isWhole y = true) : isWhole x = true := by
  obtain rfl | ⟨⟨s, hs⟩, -⟩ := eq_of_beq h
  · exact hy
  · exact isWhole_zero hs

end Schemata.Number
