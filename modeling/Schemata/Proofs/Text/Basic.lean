import Mathlib.Tactic
import Schemata.Text.Quote

/-!
Laws of plain texts: the digits of numbers, the bytes of ASCII texts, and splitting at a separator.
-/

namespace Schemata.Text

/-! ## Digits -/

theorem mem_toDigits {b n : Nat} {c : Char} (hb : 1 < b) (h : c ∈ Nat.toDigits b n) :
    ∃ d < b, c = Nat.digitChar d := by
  induction n using Nat.strong_induction_on with
  | _ n ih =>
    rw [Nat.toDigits_eq_if hb] at h
    split at h
    · rename_i hn
      exact ⟨n, hn, by simpa using h⟩
    · rename_i hn
      rcases List.mem_append.1 h with h | h
      · exact ih (n / b) (Nat.div_lt_self (by omega) hb) h
      · exact ⟨n % b, Nat.mod_lt n (by omega), by simpa using h⟩

theorem toList_toString_nat (n : Nat) : (toString n).toList = Nat.toDigits 10 n := by
  rw [Nat.toString_eq_repr, Nat.toList_repr]

theorem toString_nat_injective {m n : Nat} (h : toString m = toString n) : m = n := by
  have hdigits := congrArg String.toList h
  rw [toList_toString_nat, toList_toString_nat] at hdigits
  rw [← Nat.ofDigitChars_ten_toDigits (n := m), hdigits, Nat.ofDigitChars_ten_toDigits]

theorem number_injective {s : String} {m n : Nat} (h : s ++ toString m = s ++ toString n) : m = n := by
  have hlist := congrArg String.toList h
  rw [String.toList_append, String.toList_append] at hlist
  exact toString_nat_injective (String.toList_injective (List.append_cancel_left hlist))

theorem toList_toString_int (n : Int) :
    (toString n).toList = (if n < 0 then ['-'] else []) ++ Nat.toDigits 10 n.natAbs := by
  cases n with
  | ofNat n =>
    have : ¬ ((Int.ofNat n) < 0) := by simp
    rw [if_neg this]
    exact toList_toString_nat n
  | negSucc n =>
    rw [if_pos (Int.negSucc_lt_zero n)]
    change ("-" ++ toString (n + 1)).toList = _
    rw [String.toList_append, toList_toString_nat]
    rfl

/-! ## Bytes -/

/-- the bytes of a character are all below 128 only if it has one byte, itself -/
theorem utf8EncodeChar_ascii {c : Char} (h : ∀ b ∈ String.utf8EncodeChar c, b.toNat < 128) :
    (String.utf8EncodeChar c).map (fun b => Char.ofNat b.toNat) = [c] := by
  have hlead {n : Nat} (bs : List UInt8) (hbs : String.utf8EncodeChar c = UInt8.ofNat n :: bs) : n % 2 ^ 8 < 128 := by
    have hb := h _ (hbs ▸ List.mem_cons_self)
    rwa [UInt8.toNat_ofNat'] at hb
  by_cases hc : c.val.toNat ≤ 127
  · have hbytes : String.utf8EncodeChar c = [UInt8.ofNat c.val.toNat] := by simp only [String.utf8EncodeChar, if_pos hc]
    rw [hbytes, List.map_singleton, UInt8.toNat_ofNat', Nat.mod_eq_of_lt (by omega)]
    exact congrArg (fun d => [d]) (Char.ofNat_toNat c)
  -- the first of several bytes is at least 192
  · exfalso
    by_cases h2 : c.val.toNat ≤ 2047
    · have := hlead _ (by simp only [String.utf8EncodeChar, if_neg hc, if_pos h2]; rfl)
      omega
    · by_cases h3 : c.val.toNat ≤ 65535
      · have := hlead _ (by simp only [String.utf8EncodeChar, if_neg hc, if_neg h2, if_pos h3]; rfl)
        omega
      · have := hlead _ (by simp only [String.utf8EncodeChar, if_neg hc, if_neg h2, if_neg h3]; rfl)
        omega

/-- the characters of a text; those of an ASCII text are its bytes, which are at hand where a text is only evaluated -/
def charsOf (s : String) : List Char :=
  let bytes := s.toByteArray.data.toList
  if bytes.all (·.toNat < 128) then bytes.map fun b => Char.ofNat b.toNat else s.toList

theorem charsOf_eq (s : String) : charsOf s = s.toList := by
  unfold charsOf
  simp only
  split
  · rename_i hall
    have hbytes : s.toByteArray.data.toList = s.toList.flatMap String.utf8EncodeChar := by
      obtain ⟨cs, rfl⟩ : ∃ cs, s = String.ofList cs := ⟨s.toList, String.ofList_toList.symm⟩
      simp [List.utf8Encode]
    rw [hbytes, List.all_flatMap, List.all_eq_true] at hall
    rw [hbytes, List.map_flatMap, List.flatMap_congr (g := fun c => [c]) fun c hc => ?_]
    · simp
    · exact utf8EncodeChar_ascii fun b hb => by simpa using List.all_eq_true.1 (hall c hc) b hb
  · rfl

/-! ## Runs of characters -/

/-- a run ends at the first character that does not belong to it -/
theorem takeWhile_stop {p : Char → Bool} {xs : List Char} {c : Char} (hxs : ∀ d ∈ xs, p d = true) (hc : p c = false)
    (rest : List Char) :
    (xs ++ c :: rest).takeWhile p = xs ∧ (xs ++ c :: rest).dropWhile p = c :: rest := by
  induction xs with
  | nil => simp [hc]
  | cons d xs ih =>
    obtain ⟨h1, h2⟩ := ih fun e he => hxs e (List.mem_cons_of_mem d he)
    simp [hxs d (by simp), h1, h2]

/-! ## Splitting and joining -/

theorem toList_intercalate (sep t : String) (ts : List String) :
    (sep.intercalate (t :: ts)).toList = t.toList ++ ts.flatMap (fun t => sep.toList ++ t.toList) := by
  induction ts generalizing t with
  | nil => simp
  | cons u ts ih =>
    rw [String.intercalate_cons_cons, String.toList_append, String.toList_append, ih]
    simp

theorem splitGo_ne_nil (sep : List Char) (skip : Nat) (acc cs : List Char) : splitGo sep skip acc cs ≠ [] := by
  induction cs generalizing skip acc with
  | nil => cases skip <;> simp [splitGo]
  | cons c cs ih =>
    cases skip with
    | succ n => simpa [splitGo] using ih n acc
    | zero =>
      simp only [splitGo]
      split
      · simp
      · exact ih 0 (c :: acc)

theorem splitGo_free {c : Char} {cs : List Char} (h : c ∉ cs) (acc : List Char) :
    splitGo [c] 0 acc cs = [acc.reverse ++ cs] := by
  induction cs generalizing acc with
  | nil => simp [splitGo]
  | cons d cs ih =>
    have hd : c ≠ d := fun heq => h (by simp [heq])
    rw [splitGo, if_neg (by simp [List.isPrefixOf, hd]), ih fun hc => h (List.mem_cons_of_mem d hc)]
    simp

/-- the last part of a text is what follows the last separator -/
theorem splitGo_last {c : Char} {b : List Char} (h : c ∉ b) (acc a : List Char) :
    (splitGo [c] 0 acc (a ++ c :: b)).getLast? = some b := by
  induction a generalizing acc with
  | nil =>
    rw [List.nil_append, splitGo, if_pos (by simp [List.isPrefixOf])]
    simp [splitGo_free h]
  | cons d a ih =>
    rw [List.cons_append, splitGo]
    split
    · rw [List.getLast?_cons_of_ne_nil (splitGo_ne_nil _ _ _ _)]
      exact ih []
    · exact ih _

theorem lastElement_append {c : Char} {a b : String} (h : c ∉ b.toList) :
    lastElement (a ++ String.singleton c ++ b) (String.singleton c) = b := by
  have hsplit : ((a ++ String.singleton c ++ b).toList) = a.toList ++ c :: b.toList := by simp
  rw [lastElement, splitOn, hsplit, show (String.singleton c).toList = [c] by simp, List.getLast?_map, splitGo_last h]
  simp

/-- what was split at a separator is put together with it -/
theorem intercalate_splitGo {sep : List Char} (hsep : sep ≠ []) (skip : Nat) (acc cs : List Char) :
    sep.intercalate (splitGo sep skip acc cs) = acc.reverse ++ cs.drop skip := by
  induction cs generalizing skip acc with
  | nil => cases skip <;> simp [splitGo]
  | cons c cs ih =>
    cases skip with
    | succ n => simpa [splitGo] using ih n acc
    | zero =>
      simp only [splitGo]
      split
      · rename_i hp
        obtain ⟨r, hr⟩ := List.isPrefixOf_iff_prefix.1 hp
        rw [List.intercalate_cons_of_ne_nil (splitGo_ne_nil _ _ _ _), ih]
        have hcs : cs.drop (sep.length - 1) = r := by
          cases sep with
          | nil => exact absurd rfl hsep
          | cons d sep =>
            obtain ⟨-, rfl⟩ := List.cons.inj hr
            simp
        rw [hcs, List.drop_zero, ← hr]
        simp
      · rw [ih]
        simp

theorem intercalate_splitOn {sep : String} (hsep : sep ≠ "") (s : String) : sep.intercalate (splitOn s sep) = s := by
  apply String.toList_injective
  have hne : sep.toList ≠ [] := by
    intro h
    exact hsep (String.toList_injective h)
  have := intercalate_splitGo hne 0 [] s.toList
  simpa [String.toList_intercalate, splitOn, Function.comp_def] using this

end Schemata.Text
