import Mathlib.Tactic
import Schemata.Number.Layout
import Schemata.Number.Reading
import Schemata.Proofs.Number.Rounding
import Schemata.Proofs.Number.Shortest
import Schemata.Proofs.Text.Basic

/-!
Numbers read back from their texts.

A text of digits with an optional fraction and exponent is a numeral; `readUnsigned_numeral` says which decimal it spells.
Main results: `read_text` (a finite number reads back from its text) and `read_int` (a machine integer reads as the number
nearest to it).
-/

namespace Schemata.Number

/-! ## Reading digits -/

theorem digitOf?_digit {c : Char} (h : c.isDigit = true) : digitOf? 10 c = some (c.toNat - '0'.toNat) := by
  have h1 : '0' ≤ c ∧ c ≤ '9' := by
    simp only [Char.isDigit, Bool.and_eq_true, decide_eq_true_eq] at h
    exact ⟨h.1, h.2⟩
  have h2 : c.toNat - '0'.toNat < 10 := by
    have h3 : c.val.toNat ≤ 57 := h1.2
    have h4 : c.toNat = c.val.toNat := rfl
    have h5 : '0'.toNat = 48 := rfl
    omega
  simp only [digitOf?, h1, and_self, if_true]
  exact if_pos (by simpa using h2)

theorem digit_ne {c : Char} (h : c.isDigit = true) : c ≠ '_' ∧ c ≠ '.' := by
  constructor <;> rintro rfl <;> revert h <;> decide

/-- digits are read up to the rest of the text -/
theorem scan_digits {ds : List Char} (hds : ∀ c ∈ ds, c.isDigit = true) (m : Mantissa) (rest : List Char) :
    Mantissa.scan 10 m (ds ++ rest) =
      Mantissa.scan 10 { m with
        value := Nat.ofDigitChars 10 ds m.value, digits := m.digits + ds.length,
        places := if m.point then m.places + ds.length else m.places } rest := by
  induction ds generalizing m with
  | nil => simp
  | cons c ds ih =>
    have hc := hds c (by simp)
    obtain ⟨h1, h2⟩ := digit_ne hc
    simp only [List.cons_append, Mantissa.scan, h1, h2, if_false, digitOf?_digit hc]
    rw [ih fun d hd => hds d (List.mem_cons_of_mem c hd)]
    simp only [Nat.ofDigitChars_cons, List.length_cons]
    congr 2
    · rw [Nat.mul_comm]
    · omega
    · split <;> omega

theorem exponentDigits_eq {ds : List Char} (hds : ∀ c ∈ ds, c.isDigit = true) {acc : Nat} (seen : Bool)
    (hlt : Nat.ofDigitChars 10 ds acc < 10000) (hne : seen = true ∨ ds ≠ []) :
    exponentDigits acc seen ds = (Nat.ofDigitChars 10 ds acc, true, []) := by
  induction ds generalizing acc seen with
  | nil =>
    rcases hne with rfl | h
    · simp [exponentDigits]
    · exact absurd rfl h
  | cons c ds ih =>
    have hc := hds c (by simp)
    obtain ⟨h1, h2⟩ := digit_ne hc
    have hacc : acc < 10000 := by
      rw [Nat.ofDigitChars_cons] at hlt
      rw [Nat.ofDigitChars_eq_ofDigitChars_zero] at hlt
      have : 1 ≤ 10 ^ ds.length := Nat.one_le_pow _ _ (by norm_num)
      nlinarith
    have hswap : acc * 10 + (c.toNat - '0'.toNat) = 10 * acc + (c.toNat - '0'.toNat) := by omega
    simp only [exponentDigits, h1, if_false, digitOf?_digit hc, hacc, if_true, hswap]
    rw [Nat.ofDigitChars_cons] at hlt ⊢
    exact ih (fun d hd => hds d (List.mem_cons_of_mem c hd)) true hlt (.inl rfl)

/-! ## Numerals -/

def fractionChars : Option (List Char) → List Char
  | some fs => '.' :: fs
  | none => []

def exponentChars : Option Int → List Char
  | some e => 'e' :: (exponentText e).toList
  | none => []

/-- digits, a fraction and an exponent -/
def numeral (ds : List Char) (fs : Option (List Char)) (e : Option Int) : List Char :=
  ds ++ fractionChars fs ++ exponentChars e

theorem exponentText_chars (e : Int) : ∃ ds, (exponentText e).toList = (if e < 0 then '-' else '+') :: ds ∧ ds ≠ [] ∧
    (∀ c ∈ ds, c.isDigit = true) ∧ Nat.ofDigitChars 10 ds 0 = e.natAbs := by
  have hdigits : ∀ c ∈ Nat.toDigits 10 e.natAbs, c.isDigit = true := fun c hc =>
    Nat.isDigit_of_mem_toDigits (by decide) (by decide) hc
  have hsign : (if e < 0 then "-" else "+").toList = [if e < 0 then '-' else '+'] := by
    split <;> rfl
  unfold exponentText
  simp only [String.toList_append, hsign]
  by_cases hlen : (toString e.natAbs).length < 2
  · refine ⟨'0' :: Nat.toDigits 10 e.natAbs, ?_, by simp, ?_, ?_⟩
    · rw [if_pos hlen, String.toList_append, Text.toList_toString_nat]
      rfl
    · intro c hc
      rcases List.mem_cons.1 hc with rfl | hc
      · rfl
      · exact hdigits c hc
    · simp [Nat.ofDigitChars_cons]
  · refine ⟨Nat.toDigits 10 e.natAbs, ?_, Nat.toDigits_ne_nil, hdigits, Nat.ofDigitChars_ten_toDigits⟩
    rw [if_neg hlen, Text.toList_toString_nat]
    rfl

theorem exponentPart_some {e : Int} (he : e.natAbs < 10000) :
    exponentPart 'e' ('e' :: (exponentText e).toList) = some (some e, []) := by
  obtain ⟨ds, hds, hne, hall, hval⟩ := exponentText_chars e
  obtain ⟨d, r, rfl⟩ := List.exists_cons_of_ne_nil hne
  have hd := digitOf?_digit (hall d (by simp))
  have hread := exponentDigits_eq hall false (by rw [hval]; exact he) (.inr hne)
  rw [hval] at hread
  by_cases hneg : e < 0
  · rw [hds, if_pos hneg]
    simp [exponentPart, hd, hread, abs_of_neg hneg]
  · rw [hds, if_neg hneg]
    simp [exponentPart, hd, hread, abs_of_nonneg (not_lt.1 hneg)]

/-- the characters of numerals -/
def isNumeralChar (c : Char) : Bool := c.isDigit || c == '.' || c == 'e' || c == '+' || c == '-'

theorem isNumeralChar_facts {c : Char} (h : isNumeralChar c = true) : c.toLower ≠ 'x' ∧ c ≠ '_' := by
  simp only [isNumeralChar, Bool.or_eq_true, beq_iff_eq] at h
  rcases h with (((h | rfl) | rfl) | rfl) | rfl
  · have hlow : c.toLower = c := by
      unfold Char.toLower
      rw [dif_neg]
      simp only [Char.isDigit, Bool.and_eq_true, decide_eq_true_eq] at h
      have h2 : c.val.toNat ≤ 57 := h.2
      rintro ⟨h3, -⟩
      have h4 : 65 ≤ c.val.toNat := h3
      omega
    rw [hlow]
    constructor <;> rintro rfl <;> revert h <;> decide
  all_goals decide

theorem numeral_chars {ds : List Char} {fs : Option (List Char)} {e : Option Int} (hds : ∀ c ∈ ds, c.isDigit = true)
    (hfs : ∀ l, fs = some l → ∀ c ∈ l, c.isDigit = true) : ∀ c ∈ numeral ds fs e, isNumeralChar c = true := by
  have hdigit {c : Char} (h : c.isDigit = true) : isNumeralChar c = true := by simp [isNumeralChar, h]
  intro c hc
  simp only [numeral, List.mem_append] at hc
  rcases hc with (hc | hc) | hc
  · exact hdigit (hds c hc)
  · cases fs with
    | none => simp [fractionChars] at hc
    | some l =>
      rcases List.mem_cons.1 hc with rfl | hc
      · decide
      · exact hdigit (hfs l rfl c hc)
  · cases e with
    | none => simp [exponentChars] at hc
    | some n =>
      obtain ⟨xs, hxs, -, hall, -⟩ := exponentText_chars n
      rcases List.mem_cons.1 hc with rfl | hc
      · decide
      · rw [hxs] at hc
        rcases List.mem_cons.1 hc with rfl | hc
        · split <;> decide
        · exact hdigit (hall c hc)

theorem readUnsigned_decimal (negative signedText : Bool) {cs : List Char} (h : ∀ c ∈ cs, isNumeralChar c = true) :
    readUnsigned negative signedText cs = readUnsigned.decimal negative signedText cs := by
  unfold readUnsigned
  split
  · rename_i x rest
    rw [if_neg]
    rintro ⟨hx, -⟩
    exact (isNumeralChar_facts (h x (by simp))).1 hx
  · rfl

/-- the parts of a numeral: digits, at least one of them before the point, and an exponent that is not beyond all use -/
structure IsNumeral (ds : List Char) (fs : Option (List Char)) (e : Option Int) : Prop where
  nonempty : ds ≠ []
  digits : ∀ c ∈ ds, c.isDigit = true
  fraction : ∀ l, fs = some l → ∀ c ∈ l, c.isDigit = true
  exponent : ∀ n, e = some n → n.natAbs < 10000

/-- a numeral reads as the decimal that it writes -/
theorem readUnsigned_numeral (negative signedText : Bool) {ds : List Char} {fs : Option (List Char)} {e : Option Int}
    (h : IsNumeral ds fs e) :
    readUnsigned negative signedText (numeral ds fs e) =
      ofDecimal negative (Nat.ofDigitChars 10 (ds ++ fs.getD []) 0) (e.getD 0 - (fs.getD []).length) := by
  obtain ⟨hne, hds, hfs, he⟩ := h
  have hchars := numeral_chars hds hfs (e := e)
  have hunder : '_' ∉ numeral ds fs e := fun hc => (isNumeralChar_facts (hchars '_' hc)).2 rfl
  have hexp : exponentPart 'e' (exponentChars e) = some (e, []) := by
    cases e with
    | none => rfl
    | some n => exact exponentPart_some (he n rfl)
  -- the digits stop where the exponent begins
  have hstop (m : Mantissa) : Mantissa.scan 10 m (exponentChars e) = (m, exponentChars e) := by
    cases e <;> simp [exponentChars, Mantissa.scan, show digitOf? 10 'e' = none by decide]
  have hlen : ds.length ≠ 0 := by simpa using hne
  rw [readUnsigned_decimal negative signedText hchars]
  unfold readUnsigned.decimal
  cases fs with
  | none =>
    have hscan : Mantissa.scan 10 {} (numeral ds none e) =
        (⟨Nat.ofDigitChars 10 ds 0, 0 + ds.length, 0, false⟩, exponentChars e) := by
      rw [numeral, fractionChars, List.append_nil, scan_digits hds, hstop]
      rfl
    simp [hscan, hlen, hexp, hunder]
  | some l =>
    have hl := hfs l rfl
    have hpoint (m : Mantissa) (hm : m.point = false) (r : List Char) :
        Mantissa.scan 10 m ('.' :: r) = Mantissa.scan 10 { m with point := true } r := by
      simp [Mantissa.scan, hm]
    have hscan : Mantissa.scan 10 {} (numeral ds (some l) e) =
        (⟨Nat.ofDigitChars 10 l (Nat.ofDigitChars 10 ds 0), 0 + ds.length + l.length, 0 + l.length, true⟩,
          exponentChars e) := by
      rw [numeral, List.append_assoc, scan_digits hds, fractionChars, List.cons_append, hpoint _ rfl, scan_digits hl,
        hstop]
      rfl
    simp [hscan, hlen, hexp, hunder, Nat.ofDigitChars_append]

/-! ## Reading a decimal -/

theorem magnitude_small : ∀ k : ℕ, k < 100 → powersOrdered (magnitude k) ((k : ℤ) + 1) = true ∧
    powersOrdered (-(magnitude k + 1)) (-(k : ℤ)) = true := by
  have h : (List.range 100).all (fun k => powersOrdered (magnitude k) ((k : ℤ) + 1) &&
      powersOrdered (-(magnitude k + 1)) (-(k : ℤ))) = true := by decide +kernel
  intro k hk
  have := List.all_eq_true.1 h k (List.mem_range.2 hk)
  simpa using this

/-- the size of a decimal in the interval of a value of the format -/
theorem decimal_size {d : Dyadic} (hc : Canonical double d) (hs : 0 < d.significand) {v : ℕ} {e : ℤ}
    (hv : v < 2 ^ 99) (hr : (double.interval d).Holds (v * 10 ^ e)) :
    v ≠ 0 ∧ -400 ≤ (v.log2 : ℤ) * 30103 / 100000 + e ∧ (v.log2 : ℤ) * 30103 / 100000 + e ≤ 320 := by
  have hq : (0 : ℚ) < 2 ^ d.exponent := by positivity
  have hm1 : (1 : ℚ) ≤ d.significand := by exact_mod_cast hs
  obtain ⟨a, b, ha, hb, hlo, hhi⟩ := canonical_magnitude hc hs
  have hrange := hr.le
  rw [interval_upper, interval_lower double d hs] at hrange
  have hten : (0 : ℚ) < 10 ^ e := by positivity
  have hhalf : (d.significand : ℚ) * 2 ^ d.exponent / 2 ≤ v * 10 ^ e := by
    refine le_trans ?_ hrange.1
    split_ifs <;> nlinarith
  have htwice : (v : ℚ) * 10 ^ e ≤ 2 * (d.significand * 2 ^ d.exponent) := by nlinarith [hrange.2]
  have hv0 : v ≠ 0 := by
    rintro rfl
    have : (0 : ℚ) < d.significand * 2 ^ d.exponent := by positivity
    simp only [Nat.cast_zero, zero_mul] at hhalf
    linarith
  -- the guards on the size let every value of the format pass
  have hlog1 : (2 : ℚ) ^ (v.log2 : ℤ) ≤ v := by exact_mod_cast Nat.log2_self_le hv0
  have hlog2 : (v : ℚ) < 2 ^ ((v.log2 : ℤ) + 1) := by exact_mod_cast (Nat.lt_log2_self : v < 2 ^ (v.log2 + 1))
  have hlog : v.log2 < 100 := by
    rw [Nat.log2_lt hv0]
    exact hv.trans (by norm_num)
  obtain ⟨hsmall, hlarge⟩ := magnitude_small v.log2 hlog
  rw [powersOrdered_iff] at hsmall hlarge
  have hdiv : (v.log2 : ℤ) * 30103 / 100000 = magnitude v.log2 := by
    unfold magnitude
    rw [Int.fdiv_eq_ediv_of_nonneg _ (by norm_num)]
  have two : (1 : ℚ) ≤ 2 := by norm_num
  have hnotbig : ¬ magnitude v.log2 + e > 320 := by
    intro hbig
    have hpow : (10 : ℚ) ^ (320 : ℤ) < 2 ^ ((v.log2 : ℤ) + 1) * 10 ^ e := by
      calc (10 : ℚ) ^ (320 : ℤ) < 10 ^ (magnitude v.log2 + e) := zpow_lt_zpow_right₀ (by norm_num) hbig
        _ = 10 ^ magnitude v.log2 * 10 ^ e := zpow_add₀ (by norm_num) _ _
        _ ≤ 2 ^ ((v.log2 : ℤ) + 1) * 10 ^ e := by gcongr
    have hupper : (2 : ℚ) ^ ((v.log2 : ℤ) + 1) * 10 ^ e ≤ 2 ^ (1026 : ℤ) := by
      calc (2 : ℚ) ^ ((v.log2 : ℤ) + 1) * 10 ^ e = 2 * (2 ^ (v.log2 : ℤ) * 10 ^ e) := by
            rw [zpow_add₀ (by norm_num)]; ring
        _ ≤ 2 * (v * 10 ^ e) := by gcongr
        _ ≤ 2 * (2 * 2 ^ b) := by linarith
        _ = 2 ^ (b + 2) := by rw [zpow_add₀ (by norm_num)]; ring
        _ ≤ 2 ^ (1026 : ℤ) := zpow_le_zpow_right₀ two (by omega)
    have hcheck := (powersOrdered_iff (-320) (-1026)).1 (by decide +kernel)
    rw [zpow_neg, zpow_neg, inv_le_inv₀ (by positivity) (by positivity)] at hcheck
    exact absurd (hpow.trans_le hupper) (not_lt.2 hcheck)
  have hnotsmall : ¬ magnitude v.log2 + e < -400 := by
    intro hlow
    rw [zpow_neg, zpow_neg, inv_le_inv₀ (by positivity) (by positivity)] at hlarge
    have hupper : (v : ℚ) * 10 ^ e < 2 * 10 ^ (-400 : ℤ) := by
      calc (v : ℚ) * 10 ^ e < 2 ^ ((v.log2 : ℤ) + 1) * 10 ^ e := by gcongr
        _ = 2 * (2 ^ (v.log2 : ℤ) * 10 ^ e) := by rw [zpow_add₀ (by norm_num)]; ring
        _ ≤ 2 * (10 ^ (magnitude v.log2 + 1) * 10 ^ e) := by gcongr
        _ = 2 * 10 ^ (magnitude v.log2 + 1 + e) := by rw [← zpow_add₀ (by norm_num)]
        _ ≤ 2 * 10 ^ (-400 : ℤ) := by gcongr; omega
    have hcheck := (powersOrdered_iff (-400) (-1076)).1 (by decide +kernel)
    have hbottom : (2 : ℚ) ^ (-1074 : ℤ) ≤ 2 * (v * 10 ^ e) := by
      calc (2 : ℚ) ^ (-1074 : ℤ) ≤ 2 ^ a := zpow_le_zpow_right₀ two ha
        _ ≤ 2 * (v * 10 ^ e) := by linarith
    have hsplit : (2 : ℚ) ^ (-1074 : ℤ) = 4 * 2 ^ (-1076 : ℤ) := by
      rw [show (-1074 : ℤ) = -1076 + 2 by norm_num, zpow_add₀ (by norm_num)]; ring
    rw [hsplit] at hbottom
    linarith
  rw [hdiv]
  exact ⟨hv0, not_lt.1 hnotsmall, not_lt.1 hnotbig⟩

/-- a decimal in the interval of a value reads as the value -/
theorem ofDecimal_eq {d : Dyadic} (hc : Canonical double d) (hs : 0 < d.significand) (negative : Bool) {v : ℕ} {e : ℤ}
    (hv : v < 2 ^ 99) (hr : (double.interval d).Holds (v * 10 ^ e)) :
    ofDecimal negative v e = .number (ofDyadic negative d) := by
  obtain ⟨hv0, hlow, hhigh⟩ := decimal_size hc hs hv hr
  have hround : double.round (scale 10 v 1 e).1 (scale 10 v 1 e).2 = some d := by
    refine round_eq double (by decide) hc hs (scale_den_pos (by norm_num) Nat.one_pos _) ?_
    rw [scale_ratio (by norm_num)]
    simpa using hr
  simp only [ofDecimal, hv0, if_false, not_lt.2 hhigh, not_lt.2 hlow, ofParts, ofRatio?, hround, Option.map_some]

/-! ## Round trips -/

/-- the digits of a positive decimal are a numeral that spells it -/
theorem digits_numeral (n : Layout) (hn : n.highest ≤ 20) {c : Decimal} (hc : 0 < c.coefficient)
    (hlarge : c.coefficient < 10 ^ 19) (hexp : c.exponent.natAbs < 5000) :
    ∃ ds fs e, (n.digits c).toList = numeral ds fs e ∧ IsNumeral ds fs e ∧
      Nat.ofDigitChars 10 (ds ++ fs.getD []) 0 < 10 ^ 22 ∧
      (Nat.ofDigitChars 10 (ds ++ fs.getD []) 0 : ℚ) * 10 ^ ((e.getD 0 : ℤ) - (fs.getD []).length) =
        c.coefficient * 10 ^ c.exponent := by
  set xs := Nat.toDigits 10 c.coefficient with hxs
  have hdigit : ∀ x ∈ xs, x.isDigit = true := fun x hx => Nat.isDigit_of_mem_toDigits (by decide) (by decide) hx
  have hzero (k : ℕ) : ∀ x ∈ List.replicate k '0', x.isDigit = true := fun x hx => by
    rw [List.eq_of_mem_replicate hx]
    rfl
  have hval : Nat.ofDigitChars 10 xs 0 = c.coefficient := Nat.ofDigitChars_ten_toDigits
  have hne : xs ≠ [] := Nat.toDigits_ne_nil
  have hpos : 0 < xs.length := List.length_pos_iff.2 hne
  have hlen : xs.length ≤ 19 := (Nat.length_toDigits_le_iff (by decide) (by decide)).2 hlarge
  have hsmall : c.coefficient < 10 ^ 22 := hlarge.trans (by norm_num)
  unfold Layout.digits
  rw [if_neg hc.ne']
  simp only [Text.toList_toString_nat, ← hxs]
  split
  · rename_i hpoint
    split
    · -- leading zeros behind the point
      rename_i hneg
      refine ⟨['0'], some (List.replicate (-((xs.length : ℤ) + c.exponent)).toNat '0' ++ xs), none, ?_,
        ⟨by simp, ?_, ?_, nofun⟩, ?_, ?_⟩
      · simp [numeral, fractionChars, exponentChars, zeros]
      · simp
      · rintro l ⟨⟩ x hx
        rcases List.mem_append.1 hx with hx | hx
        · exact hzero _ x hx
        · exact hdigit x hx
      · simpa [Nat.ofDigitChars_append, Nat.ofDigitChars_cons, hval] using hsmall
      · have hplaces : ((0 : ℤ) - ((List.replicate (-((xs.length : ℤ) + c.exponent)).toNat '0' ++ xs).length : ℕ)) =
            c.exponent := by
          simp only [List.length_append, List.length_replicate]
          omega
        simp only [Option.getD_some, Option.getD_none, hplaces]
        simp [Nat.ofDigitChars_append, Nat.ofDigitChars_cons, hval]
    · rename_i hnn
      split
      · -- trailing zeros before the point
        rename_i hle
        obtain ⟨j, hj⟩ : ∃ j : ℕ, c.exponent = j := ⟨c.exponent.toNat, by omega⟩
        have hj' : ((xs.length : ℤ) + c.exponent).toNat - xs.length = j := by omega
        refine ⟨xs ++ List.replicate j '0', none, none, ?_, ⟨by simp [hne], ?_, nofun, nofun⟩, ?_, ?_⟩
        · simp [numeral, fractionChars, exponentChars, zeros, hj']
        · intro x hx
          rcases List.mem_append.1 hx with hx | hx
          · exact hdigit x hx
          · exact hzero _ x hx
        · have hbound : c.coefficient < 10 ^ xs.length := (Nat.length_toDigits_le_iff (by decide) hpos).1 le_rfl
          have hpow : 10 ^ j * 10 ^ xs.length ≤ 10 ^ 21 := by
            rw [← pow_add]
            exact Nat.pow_le_pow_right (by norm_num) (by omega)
          simp only [Option.getD_none, List.append_nil, Nat.ofDigitChars_append, hval, Nat.ofDigitChars_replicate_zero]
          have : 10 ^ j * c.coefficient < 10 ^ j * 10 ^ xs.length := Nat.mul_lt_mul_of_pos_left hbound (by positivity)
          omega
        · simp [Nat.ofDigitChars_append, hval, hj, mul_comm]
      · -- a point among the digits
        rename_i hgt
        have hsplit : xs.take ((xs.length : ℤ) + c.exponent).toNat ++ xs.drop ((xs.length : ℤ) + c.exponent).toNat = xs :=
          List.take_append_drop _ _
        refine ⟨xs.take ((xs.length : ℤ) + c.exponent).toNat, some (xs.drop ((xs.length : ℤ) + c.exponent).toNat), none, ?_,
          ⟨?_, fun x hx => hdigit x (List.mem_of_mem_take hx), ?_, nofun⟩, ?_, ?_⟩
        · simp [numeral, fractionChars, exponentChars]
        · intro h0
          have := congrArg List.length h0
          simp only [List.length_take, List.length_nil] at this
          omega
        · rintro l ⟨⟩ x hx
          exact hdigit x (List.mem_of_mem_drop hx)
        · simpa [hsplit, hval] using hsmall
        · have hplaces : ((0 : ℤ) - ((xs.drop ((xs.length : ℤ) + c.exponent).toNat).length : ℕ)) = c.exponent := by
            simp only [List.length_drop]
            omega
          simp only [Option.getD_some, Option.getD_none, hplaces, hsplit, hval]
  · -- an exponent
    have hsplit : xs.take 1 ++ xs.drop 1 = xs := List.take_append_drop _ _
    have hfs : (if (xs.drop 1).isEmpty then none else some (xs.drop 1)).getD [] = xs.drop 1 := by
      cases hd : xs.drop 1 <;> simp
    refine ⟨xs.take 1, if (xs.drop 1).isEmpty then none else some (xs.drop 1), some ((xs.length : ℤ) + c.exponent - 1), ?_,
      ⟨?_, fun x hx => hdigit x (List.mem_of_mem_take hx), ?_, ?_⟩, ?_, ?_⟩
    · cases hd : xs.drop 1 <;> simp [numeral, fractionChars, exponentChars]
    · simpa using hne
    · intro l hl x hx
      split at hl
      · cases hl
      · obtain rfl : xs.drop 1 = l := by simpa using hl
        exact hdigit x (List.mem_of_mem_drop hx)
    · rintro k ⟨⟩
      omega
    · rw [hfs, hsplit, hval]
      exact hsmall
    · rw [hfs, hsplit, hval]
      have hplaces : (xs.length : ℤ) + c.exponent - 1 - ((xs.drop 1).length : ℕ) = c.exponent := by
        simp only [List.length_drop]
        omega
      simp only [Option.getD_some, hplaces]

/-- a finite number is written as a numeral behind its sign, and every way to spell the same decimal reads as the number -/
theorem text_numeral (n : Layout) (hn : n.highest ≤ 20) {x : Float} {negative : Bool} {d : Dyadic}
    (hx : parts x = .finite negative d) :
    ∃ ds fs e, (n.text double x).toList = (if negative then ['-'] else []) ++ numeral ds fs e ∧ IsNumeral ds fs e ∧
      Nat.ofDigitChars 10 (ds ++ fs.getD []) 0 < 10 ^ 22 ∧
      ∀ (v : ℕ) (k : ℤ), v < 2 ^ 99 → (v : ℚ) * 10 ^ k =
        (Nat.ofDigitChars 10 (ds ++ fs.getD []) 0 : ℚ) * 10 ^ ((e.getD 0 : ℤ) - (fs.getD []).length) →
        ofDecimal negative v k = .number x := by
  obtain ⟨hcanon, hof⟩ := parts_finite hx
  have htext : (n.text double x).toList = (if negative then ['-'] else []) ++ (n.digits (shortest double d)).toList := by
    simp only [Layout.text, hx, if_true, String.toList_append]
    cases negative <;> rfl
  rcases Nat.eq_zero_or_pos d.significand with hz | hs
  · have hzero : x = signed negative 0.0 := by
      have hbits : (0 : ℕ) < Nat.pow 2 52 := by decide
      simp only [← hof, ofDyadic, hz, hbits, if_true]
      cases negative <;> decide
    refine ⟨['0'], none, none, ?_, ⟨by simp, by simp, nofun, nofun⟩, by decide, fun v k _ hv => ?_⟩
    · rw [htext]
      simp [shortest, hz, Layout.digits, numeral, fractionChars, exponentChars]
    · have hv0 : v = 0 := by
        have : (v : ℚ) * 10 ^ k = 0 := by rw [hv]; norm_num [Nat.ofDigitChars_cons]
        rcases mul_eq_zero.1 this with h | h
        · exact_mod_cast h
        · exact absurd h (by positivity)
      simp [ofDecimal, hv0, hzero]
  · obtain ⟨hholds, hlarge⟩ := shortest_spec hcanon hs
    obtain ⟨hc0, hlow, hhigh⟩ := decimal_size hcanon hs (hlarge.trans (by norm_num)) hholds
    have hlog : (shortest double d).coefficient.log2 < 64 := by
      rw [Nat.log2_lt hc0]
      exact hlarge.trans (by norm_num)
    obtain ⟨ds, fs, e, hds, hnum, hbound, hvalue⟩ := digits_numeral n hn (Nat.pos_of_ne_zero hc0) hlarge (by omega)
    refine ⟨ds, fs, e, by rw [htext, hds], hnum, hbound, fun v k hv hvk => ?_⟩
    rw [← hof]
    refine ofDecimal_eq hcanon hs negative hv ?_
    rw [hvk, hvalue]
    exact hholds

theorem read_numeral {s : String} {negative : Bool} {ds : List Char} {fs : Option (List Char)} {e : Option Int}
    (hs : s.toList = (if negative then ['-'] else []) ++ numeral ds fs e) (h : IsNumeral ds fs e) :
    read s = ofDecimal negative (Nat.ofDigitChars 10 (ds ++ fs.getD []) 0) (e.getD 0 - (fs.getD []).length) := by
  cases negative with
  | true =>
    simp only [if_true, List.singleton_append] at hs
    simp only [read, hs]
    exact readUnsigned_numeral true true h
  | false =>
    simp only [Bool.false_eq_true, if_false, List.nil_append] at hs
    obtain ⟨c, r, hcr⟩ := List.exists_cons_of_ne_nil h.nonempty
    have hc : c.isDigit = true := h.digits c (by simp [hcr])
    have hplus : c ≠ '+' := by rintro rfl; revert hc; decide
    have hminus : c ≠ '-' := by rintro rfl; revert hc; decide
    have hnum : numeral ds fs e = c :: (r ++ fractionChars fs ++ exponentChars e) := by simp [numeral, hcr]
    have hread : read s = readUnsigned false false (numeral ds fs e) := by
      simp only [read, hs, hnum]
      split
      · rename_i heq
        exact absurd (List.cons.inj heq).1 hplus
      · rename_i heq
        exact absurd (List.cons.inj heq).1 hminus
      · rfl
    rw [hread, readUnsigned_numeral false false h]

/-- **Round trip.** A finite number reads back from its text, in every layout that writes no more than 21 digits before the
point. -/
theorem read_text (n : Layout) (hn : n.highest ≤ 20) {x : Float} (hx : isFinite x = true) :
    read (n.text double x) = .number x := by
  unfold isFinite at hx
  split at hx
  · rename_i negative d hparts
    obtain ⟨ds, fs, e, htext, hnum, hbound, hall⟩ := text_numeral n hn hparts
    rw [read_numeral htext hnum]
    exact hall _ _ (hbound.trans (by norm_num)) rfl
  · cases hx

/-- integers of 64 bits are in the range of the format -/
theorem ofRatio?_isSome (negative : Bool) {v : ℕ} (hv : v < 2 ^ 64) : ∃ x, ofRatio? negative v 1 = some x := by
  have hlog : v.log2 < 64 := by
    rcases Nat.eq_zero_or_pos v with rfl | hpos
    · decide
    · exact (Nat.log2_lt hpos.ne').2 hv
  have hplace : double.lastPlace v 1 ≤ 900 := by
    have h0 : Nat.log2 1 = 0 := by decide
    unfold BinaryFormat.lastPlace
    simp only [h0, double]
    refine max_le ?_ (by norm_num)
    split_ifs <;> omega
  have hmax : double.maxExp = 971 := rfl
  unfold ofRatio? BinaryFormat.round
  split_ifs with hz
  · exact ⟨_, rfl⟩
  · simp only
    split_ifs with h1 h2 h3
    · exact absurd h2 (by omega)
    · exact ⟨_, rfl⟩
    · exact absurd h3 (by omega)
    · exact ⟨_, rfl⟩

/-- an integer is written as a numeral behind its sign -/
theorem int_numeral (n : ℤ) : (toString n).toList = (if decide (n < 0) = true then ['-'] else []) ++
    numeral (Nat.toDigits 10 n.natAbs) none none ∧ IsNumeral (Nat.toDigits 10 n.natAbs) none none := by
  refine ⟨?_, Nat.toDigits_ne_nil, fun c hc => Nat.isDigit_of_mem_toDigits (by decide) (by decide) hc, nofun, nofun⟩
  rw [Text.toList_toString_int]
  simp [numeral, fractionChars, exponentChars]

/-- a machine integer reads as the number nearest to it -/
theorem read_int {n : ℤ} (hn : n.natAbs < 2 ^ 64) : read (toString n) = .number (ofInt n) := by
  obtain ⟨htext, hdigits⟩ := int_numeral n
  rw [read_numeral htext hdigits]
  simp only [Option.getD_none, List.append_nil, Nat.ofDigitChars_ten_toDigits, List.length_nil, Nat.cast_zero, sub_zero]
  obtain ⟨x, hx⟩ := ofRatio?_isSome (decide (n < 0)) hn
  rcases Nat.eq_zero_or_pos n.natAbs with h0 | hpos
  · obtain rfl : n = 0 := Int.natAbs_eq_zero.1 h0
    exact congrArg Reading.number (by decide)
  · have hlog : n.natAbs.log2 < 64 := (Nat.log2_lt hpos.ne').2 hn
    have hscale : scale 10 n.natAbs 1 0 = (n.natAbs, 1) := by simp [scale]
    unfold ofDecimal
    rw [if_neg hpos.ne', if_neg (by omega), if_neg (by omega), hscale]
    simp only [ofParts, ofInt, hx]

end Schemata.Number
