import Mathlib
import Schemata.Proofs.Number.Reading
import Schemata.Proofs.Source.Generation
import Schemata.Proofs.Text.Quote
import Schemata.Source.Print

/-!
Constants of generated validators: what their text means.

`textConstant`, `numberConstant` and `readExpression` read the three ways in which a generated file writes data. Texts come
back as they are (`textConstant_eq`). A constant number has no sign at zero, so a bound comes back `unsigned`
(`numberConstant_bound`). A list of values comes back with members that compare to all data as the written ones do
(`readValues_literals`): numbers compare without the sign of zero.
-/

namespace Schemata.Number

open Float.Model

/-- the number without the sign of its zero -/
def unsigned (x : Float) : Float := if x == 0.0 then 0.0 else x

theorem unpack_zero : (0.0 : Float).toModel.unpack = .zero .positive := by rfl

theorem beq_eq (x y : Float) : (x == y) = (x.toModel.unpack.compare y.toModel.unpack == some .eq) := rfl

theorem unpack_of_beq_zero {x : Float} (h : (x == 0.0) = true) : ∃ s, x.toModel.unpack = .zero s := by
  rw [beq_eq, unpack_zero] at h
  cases hx : x.toModel.unpack with
  | zero s => exact ⟨s, rfl⟩
  | notANumber => simp [hx, UnpackedFloat.compare] at h
  | infinity s => cases s <;> simp [hx, UnpackedFloat.compare] at h
  | finite s m e => cases s <;> simp [hx, UnpackedFloat.compare] at h

theorem compare_zero (u : UnpackedFloat) (s t : UnpackedFloat.Sign) : u.compare (.zero s) = u.compare (.zero t) := by
  cases u with
  | zero r => rfl
  | notANumber => rfl
  | infinity r => cases r <;> rfl
  | finite r m e => cases r <;> rfl

/-- comparisons do not see the sign of zero -/
theorem beq_unsigned (x y : Float) : (x == unsigned y) = (x == y) := by
  unfold unsigned
  split
  · rename_i h
    obtain ⟨s, hs⟩ := unpack_of_beq_zero h
    rw [beq_eq, beq_eq, unpack_zero, hs, compare_zero _ _ s]
  · rfl

end Schemata.Number

namespace Schemata

mutual

/-- does every integer lie in the range of its carrier? -/
def Value.fits : Value → Bool
  | .int signed w n =>
    if signed then decide (-2 ^ (w.bits - 1) ≤ n ∧ n < 2 ^ (w.bits - 1)) else decide (0 ≤ n ∧ n < 2 ^ w.bits)
  | .array xs => allFit xs
  | .object fs => fieldsFit fs
  | _ => true

def Value.allFit : List Value → Bool
  | [] => true
  | x :: xs => x.fits && allFit xs

def Value.fieldsFit : List (String × Value) → Bool
  | [] => true
  | (_, x) :: xs => x.fits && fieldsFit xs

end

end Schemata

namespace Schemata.Source

/-! ## Texts and numbers -/

/-- the text that a written text stands for -/
def textConstant (s : String) : Option String := Text.unquote (Text.quote s)

@[simp] theorem textConstant_eq (s : String) : textConstant s = some s := Text.unquote_quote s

def textConstants (ss : List String) : Option (List String) := ss.mapM textConstant

@[simp] theorem textConstants_eq (ss : List String) : textConstants ss = some ss := by
  induction ss with
  | nil => rfl
  | cons s ss ih =>
    unfold textConstants at ih ⊢
    simp [List.mapM_cons, ih]

/-- the integer that a written integer stands for -/
def intConstant (n : Int) : Option Int := (toString n).toInt?

@[simp] theorem intConstant_eq (n : Int) : intConstant n = some n := Int.toInt?_repr n

/-- constants begin with a digit, behind a sign that they may have -/
def isConstant : List Char → Bool
  | '-' :: cs => cs.head?.any Char.isDigit
  | cs => cs.head?.any Char.isDigit

/-- the number that a constant stands for; constants are exact, so zero has no sign -/
def numberConstant (t : String) : Option Float :=
  if isConstant t.toList then (Number.parse? t).map Number.unsigned else none

theorem numberConstant_numeral {t : String} {negative : Bool} {ds : List Char} {fs : Option (List Char)}
    {e : Option Int} {x : Float} (ht : t.toList = (if negative then ['-'] else []) ++ Number.numeral ds fs e)
    (h : Number.IsNumeral ds fs e) (hx : Number.read t = .number x) : numberConstant t = some (Number.unsigned x) := by
  obtain ⟨c, r, rfl⟩ := List.exists_cons_of_ne_nil h.nonempty
  have hc : c.isDigit = true := h.digits c (by simp)
  have hconst : isConstant t.toList = true := by
    have hminus : c ≠ '-' := by
      rintro rfl
      revert hc
      decide
    rw [ht]
    cases negative with
    | true => simp [isConstant, Number.numeral, hc]
    | false =>
      simp only [Number.numeral, Bool.false_eq_true, if_false, List.nil_append, List.cons_append]
      unfold isConstant
      split
      · rename_i heq
        exact absurd (List.cons.inj heq).1 hminus
      · simpa using hc
  simp [numberConstant, Number.parse?, hconst, hx]

/-- does a text show that it is a floating-point number? -/
def isFloating (c : Char) : Bool := c == '.' || c == 'e' || c == 'E' || c == 'n'

/-- **Bounds.** A bound is written as a constant with its value, but for the sign of zero. -/
theorem numberConstant_bound {x : Float} (hx : Number.isFinite x = true) :
    numberConstant (boundLiteral x) = some (Number.unsigned x) := by
  have hread : Number.read (numberLiteral x) = .number x := Number.read_text _ (by decide) hx
  unfold Number.isFinite at hx
  split at hx
  · rename_i negative d hparts
    obtain ⟨ds, fs, e, htext, hnum, hbound, hall⟩ := Number.text_numeral Number.Layout.general (by decide) hparts
    have htext : (numberLiteral x).toList = (if negative then ['-'] else []) ++ Number.numeral ds fs e := htext
    have hlit : boundLiteral x = if (numberLiteral x).toList.any isFloating then numberLiteral x
        else numberLiteral x ++ ".0" := rfl
    rw [hlit]
    split
    · exact numberConstant_numeral htext hnum hread
    · rename_i hany
      rw [htext] at hany
      -- a numeral that shows nothing has neither fraction nor exponent
      obtain rfl : fs = none := by
        cases fs with
        | none => rfl
        | some l => exact absurd (by simp [Number.numeral, Number.fractionChars, isFloating]) hany
      obtain rfl : e = none := by
        cases e with
        | none => rfl
        | some n => exact absurd (by simp [Number.numeral, Number.exponentChars, isFloating]) hany
      have hpoint : (numberLiteral x ++ ".0").toList =
          (if negative then ['-'] else []) ++ Number.numeral ds (some ['0']) none := by
        rw [String.toList_append, htext]
        simp [Number.numeral, Number.fractionChars, Number.exponentChars]
      have hnum' : Number.IsNumeral ds (some ['0']) none := by
        refine ⟨hnum.nonempty, hnum.digits, ?_, by simp⟩
        rintro l ⟨rfl⟩ c hc
        obtain rfl : c = '0' := by simpa using hc
        decide
      refine numberConstant_numeral hpoint hnum' ?_
      rw [Number.read_numeral hpoint hnum']
      have happ : Nat.ofDigitChars 10 (ds ++ ['0']) 0 = 10 * Nat.ofDigitChars 10 ds 0 := by
        rw [Nat.ofDigitChars_append]
        simp [Nat.ofDigitChars_cons]
      simp only [Option.getD_some, Option.getD_none, List.append_nil, happ] at hbound hall ⊢
      refine hall _ _ (by omega) ?_
      simp only [List.length_singleton, List.length_nil, Nat.cast_one, Nat.cast_zero, zero_sub, sub_zero, zpow_neg_one,
        zpow_zero, mul_one]
      push_cast
      ring
  · cases hx

/-! ## Expressions -/

/-- what follows an opening text -/
def after? (opening : String) (cs : List Char) : Option (List Char) :=
  if opening.toList.isPrefixOf cs then some (cs.drop opening.toList.length) else none

theorem after?_append (opening : String) (cs : List Char) : after? opening (opening.toList ++ cs) = some cs := by
  simp [after?]

section Listed

variable {α : Type} (item : List Char → Option (α × List Char))

/-- the items behind the first, up to the closing brace; at most `n` of them -/
def readFollowing : Nat → List Char → Option (List α × List Char)
  | 0, cs => (after? "\x7d" cs).map ([], ·)
  | n + 1, cs =>
    match after? ", " cs with
    | some cs =>
      (item cs).bind fun (a, cs) => (readFollowing n cs).map fun (as, cs) => (a :: as, cs)
    | none => (after? "\x7d" cs).map ([], ·)

/-- items with commas between them, up to the closing brace -/
def readListed (n : Nat) (cs : List Char) : Option (List α × List Char) :=
  match item cs with
  | some (a, cs) => (readFollowing item n cs).map fun (as, cs) => (a :: as, cs)
  | none => (after? "\x7d" cs).map ([], ·)

/-- a key and its item -/
def readEntry (cs : List Char) : Option ((String × α) × List Char) :=
  (after? "\"" cs).bind fun cs => (Text.readQuoted .plain cs).bind fun (k, cs) =>
    (after? ": " cs).bind fun cs => (item cs).map fun (a, cs) => ((String.ofList k, a), cs)

/-- the item reads from the text, whatever follows -/
def Reads (t : String) (a : α) : Prop := ∀ rest, item (t.toList ++ rest) = some (a, rest)

variable {item}

theorem readFollowing_eq {ts : List String} {as : List α} (h : List.Forall₂ (Reads item) ts as) {n : Nat}
    (hn : ts.length ≤ n) (rest : List Char) :
    readFollowing item n (ts.flatMap (fun t => ", ".toList ++ t.toList) ++ "\x7d".toList ++ rest) = some (as, rest) := by
  induction h generalizing n with
  | nil =>
    cases n with
    | zero => rfl
    | succ n => rfl
  | @cons t a ts as ht hts ih =>
    obtain ⟨n, rfl⟩ : ∃ m, n = m + 1 := ⟨n - 1, by simp at hn; omega⟩
    have hshape : (t :: ts).flatMap (fun t => ", ".toList ++ t.toList) ++ "\x7d".toList ++ rest = ", ".toList ++
        (t.toList ++ (ts.flatMap (fun t => ", ".toList ++ t.toList) ++ "\x7d".toList ++ rest)) := by
      simp only [List.flatMap_cons, List.append_assoc]
    rw [hshape, readFollowing, after?_append]
    simp only [ht _, Option.bind_some, ih (Nat.le_of_succ_le_succ hn), Option.map_some]

theorem readListed_eq (hclose : ∀ rest, item ("\x7d".toList ++ rest) = none) {ts : List String} {as : List α}
    (h : List.Forall₂ (Reads item) ts as) {n : Nat} (hn : ts.length ≤ n) (rest : List Char) :
    readListed item n ((", ".intercalate ts ++ "\x7d").toList ++ rest) = some (as, rest) := by
  cases h with
  | nil =>
    have : ((", ".intercalate [] ++ "\x7d").toList ++ rest) = "\x7d".toList ++ rest := by simp
    rw [this, readListed, hclose]
    exact congrArg (Option.map _) (after?_append _ _)
  | @cons t a ts as ht hts =>
    have hshape : (", ".intercalate (t :: ts) ++ "\x7d").toList ++ rest =
        t.toList ++ (ts.flatMap (fun t => ", ".toList ++ t.toList) ++ "\x7d".toList ++ rest) := by
      rw [String.toList_append, Text.toList_intercalate]
      simp only [List.append_assoc]
    rw [hshape, readListed, ht _]
    simp only [readFollowing_eq hts (Nat.le_of_succ_le hn), Option.map_some]

theorem readEntry_eq {t : String} {a : α} (h : Reads item t a) (k : String) :
    Reads (readEntry item) (Text.quote k ++ ": " ++ t) (k, a) := by
  intro rest
  have hshape : (Text.quote k ++ ": " ++ t).toList ++ rest = "\"".toList ++
      (k.toList.flatMap (fun c => (Text.quoteChar c).toList) ++ '"' :: (": ".toList ++ (t.toList ++ rest))) := by
    rw [String.toList_append, String.toList_append, Text.toList_quote]
    simp
  unfold readEntry
  simp only [hshape, after?_append, Option.bind_some, Text.readQuoted_quote, h _, Option.map_some, String.ofList_toList]

end Listed

/-- an expression and what follows it; `fuel` bounds its depth and the length of its lists -/
def readExpression : Nat → List Char → Option (Value × List Char)
  | 0, _ => none
  | fuel + 1, cs =>
    match cs with
    | 'n' :: cs => (after? "il" cs).map (.null, ·)
    | 't' :: cs => (after? "rue" cs).map (.bool true, ·)
    | 'f' :: 'a' :: cs => (after? "lse" cs).map (.bool false, ·)
    | 'f' :: 'l' :: cs =>
      (after? "oat64(" cs).bind fun cs =>
        (numberConstant (String.ofList (cs.takeWhile (· != ')')))).map fun x =>
          (.float x, (cs.dropWhile (· != ')')).drop 1)
    | '"' :: cs => (Text.readQuoted .plain cs).map fun (s, cs) => (.string (String.ofList s), cs)
    | '[' :: cs =>
      (after? "]any\x7b" cs).bind fun cs =>
        (readListed (readExpression fuel) fuel cs).map fun (xs, cs) => (.array xs, cs)
    | 'm' :: cs =>
      (after? "ap[string]any\x7b" cs).bind fun cs =>
        (readListed (readEntry (readExpression fuel)) fuel cs).map fun (fs, cs) => (.object fs, cs)
    | _ => none

theorem readExpression_close (fuel : Nat) (rest : List Char) : readExpression fuel ("\x7d".toList ++ rest) = none := by
  cases fuel <;> rfl

theorem readEntry_close (fuel : Nat) (rest : List Char) :
    readEntry (readExpression fuel) ("\x7d".toList ++ rest) = none := rfl

/-- the number in parentheses behind its type -/
theorem readExpression_number {t : String} {x : Float} (ht : ∀ c ∈ t.toList, c ≠ ')') (hx : numberConstant t = some x)
    (fuel : Nat) : Reads (readExpression (fuel + 1)) ("float64(" ++ t ++ ")") (.float x) := by
  intro rest
  have hshape : ("float64(" ++ t ++ ")").toList ++ rest = 'f' :: 'l' :: ("oat64(".toList ++ (t.toList ++ ')' :: rest)) := by
    simp
  have hall : ∀ c ∈ t.toList, (c != ')') = true := fun c hc => by simpa using ht c hc
  have htake : (t.toList ++ ')' :: rest).takeWhile (· != ')') = t.toList := by
    rw [List.takeWhile_append_of_pos hall]
    simp
  have hdrop : (t.toList ++ ')' :: rest).dropWhile (· != ')') = ')' :: rest := by
    rw [List.dropWhile_append_of_pos hall]
    simp
  rw [hshape]
  simp only [readExpression, after?_append, Option.bind_some, htake, hdrop, String.ofList_toList, hx, Option.map_some,
    List.drop_succ_cons, List.drop_zero]

/-- the two values compare alike to all data -/
def Same (w v : Value) : Prop := ∀ x, Value.equal x w = Value.equal x v

/-- data equal a number when they are an equal number -/
theorem equal_number {w : Value} {x : Float} (hw : w.number? = some x) (u : Value) :
    Value.equal u w = (u.number?.any (· == x)) := by
  cases u with
  | null => cases w <;> first | rfl | cases hw
  | bool b => cases w <;> first | rfl | cases hw
  | string s => cases w <;> first | rfl | cases hw
  | array xs => cases w <;> first | rfl | cases hw
  | object fs => cases w <;> first | rfl | cases hw
  | float a =>
    simp only [Value.equal, hw]
    rfl
  | single a =>
    simp only [Value.equal, hw]
    rfl
  | int s k n =>
    simp only [Value.equal, hw]
    rfl
  | literal t =>
    simp only [Value.equal, hw]
    cases (Value.literal t).number? <;> rfl

theorem same_number {w v : Value} {x y : Float} (hw : w.number? = some x) (hv : v.number? = some y)
    (hxy : ∀ z : Float, (z == x) = (z == y)) : Same w v := by
  intro u
  rw [equal_number hw, equal_number hv]
  simp only [hxy]

theorem equalItems_same {ws vs : List Value} (h : List.Forall₂ Same ws vs) (xs : List Value) :
    Value.equalItems xs ws = Value.equalItems xs vs := by
  induction h generalizing xs with
  | nil => rfl
  | cons hw _ ih =>
    cases xs with
    | nil => rfl
    | cons x xs => simp only [Value.equalItems, hw x, ih xs]

theorem equalFields_same {ws vs : List (String × Value)}
    (h : List.Forall₂ (fun w v => w.1 = v.1 ∧ Same w.2 v.2) ws vs) (xs : List (String × Value)) :
    Value.equalFields xs ws = Value.equalFields xs vs := by
  induction h generalizing xs with
  | nil => rfl
  | @cons w v ws vs hw _ ih =>
    obtain ⟨k, w⟩ := w
    obtain ⟨l, v⟩ := v
    obtain ⟨rfl, hw⟩ := hw
    cases xs with
    | nil => rfl
    | cons x xs => simp only [Value.equalFields, hw x.2, ih xs]

/-- a number behind its sign is read from its expression without the sign of zero -/
theorem readExpression_numeral {t : String} {negative : Bool} {ds : List Char} {fs : Option (List Char)}
    {e : Option Int} {x : Float} (ht : t.toList = (if negative then ['-'] else []) ++ Number.numeral ds fs e)
    (h : Number.IsNumeral ds fs e) (hx : Number.read t = .number x) (fuel : Nat) :
    Reads (readExpression (fuel + 1)) ("float64(" ++ t ++ ")") (.float (Number.unsigned x)) := by
  refine readExpression_number ?_ (numberConstant_numeral ht h hx) fuel
  rintro c hc rfl
  rw [ht] at hc
  rcases List.mem_append.1 hc with hc | hc
  · cases negative <;> simp at hc
  · exact absurd (Number.numeral_chars h.digits h.fraction _ hc) (by decide)

theorem fits_machine {n : Int} (h : (Value.int true .machine n).fits = true) : n.natAbs < 2 ^ 64 := by
  have hrange := of_decide_eq_true h
  norm_num [Width.bits] at hrange
  omega

theorem intercalate_length (ts : List String) : ts.length ≤ (", ".intercalate ts).toList.length + 1 ∧
    ∀ t ∈ ts, t.toList.length ≤ (", ".intercalate ts).toList.length := by
  cases ts with
  | nil => simp
  | cons t ts =>
    rw [Text.toList_intercalate, List.length_append]
    have key : ts.length ≤ (ts.flatMap fun t => ", ".toList ++ t.toList).length ∧
        ∀ u ∈ ts, u.toList.length ≤ (ts.flatMap fun t => ", ".toList ++ t.toList).length := by
      induction ts with
      | nil => simp
      | cons u ts ih =>
        obtain ⟨ih1, ih2⟩ := ih
        simp only [List.flatMap_cons, List.length_append, List.length_cons, List.mem_cons]
        refine ⟨by simp only [show (", ".toList).length = 2 from rfl]; omega, ?_⟩
        rintro w (rfl | hw)
        · omega
        · have := ih2 w hw
          omega
    obtain ⟨h1, h2⟩ := key
    refine ⟨by simp only [List.length_cons]; omega, fun u hu => ?_⟩
    rcases List.mem_cons.1 hu with rfl | hu
    · omega
    · have := h2 u hu
      omega

theorem readExpression_array {fuel : Nat} {ts : List String} {ws : List Value}
    (h : List.Forall₂ (Reads (readExpression fuel)) ts ws) (hn : ts.length ≤ fuel) :
    Reads (readExpression (fuel + 1)) ("[]any\x7b" ++ ", ".intercalate ts ++ "\x7d") (.array ws) := by
  intro rest
  have hshape : ("[]any\x7b" ++ ", ".intercalate ts ++ "\x7d").toList ++ rest =
      '[' :: ("]any\x7b".toList ++ ((", ".intercalate ts ++ "\x7d").toList ++ rest)) := by simp
  rw [hshape]
  simp only [readExpression, after?_append, Option.bind_some, readListed_eq (readExpression_close fuel) h hn,
    Option.map_some]

theorem readExpression_object {fuel : Nat} {ts : List String} {ws : List (String × Value)}
    (h : List.Forall₂ (Reads (readEntry (readExpression fuel))) ts ws) (hn : ts.length ≤ fuel) :
    Reads (readExpression (fuel + 1)) ("map[string]any\x7b" ++ ", ".intercalate ts ++ "\x7d") (.object ws) := by
  intro rest
  have hshape : ("map[string]any\x7b" ++ ", ".intercalate ts ++ "\x7d").toList ++ rest =
      'm' :: ("ap[string]any\x7b".toList ++ ((", ".intercalate ts ++ "\x7d").toList ++ rest)) := by simp
  rw [hshape]
  simp only [readExpression, after?_append, Option.bind_some, readListed_eq (readEntry_close fuel) h hn,
    Option.map_some]

mutual

/-- a value reads back from its expression as one that compares like it -/
theorem readExpression_literal {v : Value} {t : String} (h : literal v = .ok t) (hv : v.fits = true) {fuel : Nat}
    (hf : t.toList.length < fuel) : ∃ w, Reads (readExpression fuel) t w ∧ Same w v := by
  obtain ⟨fuel, rfl⟩ : ∃ m, fuel = m + 1 := ⟨fuel - 1, by omega⟩
  cases v with
  | null =>
    simp only [literal, Except.ok.injEq] at h
    subst h
    exact ⟨.null, fun rest => by simp [readExpression, after?], fun _ => rfl⟩
  | bool b =>
    simp only [literal, Except.ok.injEq] at h
    subst h
    refine ⟨.bool b, fun rest => ?_, fun _ => rfl⟩
    cases b <;> simp [readExpression, after?]
  | string s =>
    simp only [literal, Except.ok.injEq] at h
    subst h
    refine ⟨.string s, fun rest => ?_, fun _ => rfl⟩
    have hshape : (Text.quote s).toList ++ rest =
        '"' :: (s.toList.flatMap (fun c => (Text.quoteChar c).toList) ++ '"' :: rest) := by
      rw [Text.toList_quote]
      simp
    rw [hshape]
    simp only [readExpression, Text.readQuoted_quote, Option.map_some, String.ofList_toList]
  | float x =>
    simp only [literal] at h
    split at h
    · rename_i hx
      simp only [Except.ok.injEq] at h
      subst h
      have hread : Number.read (numberLiteral x) = .number x := Number.read_text _ (by decide) hx
      unfold Number.isFinite at hx
      split at hx
      · rename_i negative d hparts
        obtain ⟨ds, fs, e, htext, hnum, -, -⟩ := Number.text_numeral Number.Layout.general (by decide) hparts
        exact ⟨_, readExpression_numeral htext hnum hread fuel, same_number rfl rfl fun z => Number.beq_unsigned z x⟩
      · cases hx
    · cases h
  | single x => simp [literal] at h
  | literal d => simp [literal] at h
  | int signed w n =>
    cases signed <;> cases w <;> simp only [literal, reduceCtorEq, Except.ok.injEq] at h
    subst h
    obtain ⟨htext, hnum⟩ := Number.int_numeral n
    exact ⟨_, readExpression_numeral htext hnum (Number.read_int (fits_machine hv)) fuel,
      same_number rfl rfl fun z => Number.beq_unsigned z _⟩
  | array xs =>
    simp only [literal] at h
    cases hl : literals xs with
    | error e => simp [hl, Except.map] at h
    | ok ts =>
      simp only [hl, Except.map, Except.ok.injEq] at h
      subst h
      simp only [String.toList_append, List.length_append] at hf
      obtain ⟨hcount, hitem⟩ := intercalate_length ts
      have hopen : ("[]any\x7b".toList).length = 6 := rfl
      obtain ⟨ws, hreads, hsame⟩ := readExpression_literals hl (by simpa [Value.fits] using hv) fuel
        fun t ht => by have := hitem t ht; omega
      refine ⟨.array ws, readExpression_array hreads (by omega), fun x => ?_⟩
      cases x <;> first | rfl | exact equalItems_same hsame _
  | object fs =>
    simp only [literal] at h
    cases hl : literalFields fs with
    | error e => simp [hl, Except.map] at h
    | ok ts =>
      simp only [hl, Except.map, Except.ok.injEq] at h
      subst h
      simp only [String.toList_append, List.length_append] at hf
      obtain ⟨hcount, hitem⟩ := intercalate_length ts
      have hopen : ("map[string]any\x7b".toList).length = 15 := rfl
      obtain ⟨ws, hreads, hsame⟩ := readExpression_literalFields hl (by simpa [Value.fits] using hv) fuel
        fun t ht => by have := hitem t ht; omega
      refine ⟨.object ws, readExpression_object hreads (by omega), fun x => ?_⟩
      cases x <;> first | rfl | exact equalFields_same hsame _

theorem readExpression_literals {vs : List Value} {ts : List String} (h : literals vs = .ok ts)
    (hv : Value.allFit vs = true) (fuel : Nat) (hf : ∀ t ∈ ts, t.toList.length < fuel) :
    ∃ ws, List.Forall₂ (Reads (readExpression fuel)) ts ws ∧ List.Forall₂ Same ws vs := by
  cases vs with
  | nil =>
    obtain rfl : ts = [] := by simpa [literals] using h.symm
    exact ⟨[], .nil, .nil⟩
  | cons v vs =>
    obtain ⟨t, us, ht, hus, rfl⟩ := literals_cons h
    simp only [Value.allFit, Bool.and_eq_true] at hv
    obtain ⟨w, hw, hsame⟩ := readExpression_literal ht hv.1 (hf t (by simp))
    obtain ⟨ws, hws, hsames⟩ := readExpression_literals hus hv.2 fuel fun u hu => hf u (List.mem_cons_of_mem t hu)
    exact ⟨w :: ws, .cons hw hws, .cons hsame hsames⟩

theorem readExpression_literalFields {fs : List (String × Value)} {ts : List String} (h : literalFields fs = .ok ts)
    (hv : Value.fieldsFit fs = true) (fuel : Nat) (hf : ∀ t ∈ ts, t.toList.length < fuel) :
    ∃ ws, List.Forall₂ (Reads (readEntry (readExpression fuel))) ts ws ∧
      List.Forall₂ (fun w v => w.1 = v.1 ∧ Same w.2 v.2) ws fs := by
  cases fs with
  | nil =>
    obtain rfl : ts = [] := by simpa [literalFields] using h.symm
    exact ⟨[], .nil, .nil⟩
  | cons f fs =>
    obtain ⟨k, v⟩ := f
    obtain ⟨t, us, ht, hus, rfl⟩ := literalFields_cons h
    simp only [Value.fieldsFit, Bool.and_eq_true] at hv
    have hlen : t.toList.length < fuel := by
      have := hf _ List.mem_cons_self
      simp only [String.toList_append, List.length_append] at this
      omega
    obtain ⟨w, hw, hsame⟩ := readExpression_literal ht hv.1 hlen
    obtain ⟨ws, hws, hsames⟩ := readExpression_literalFields hus hv.2 fuel fun u hu => hf u (List.mem_cons_of_mem _ hu)
    exact ⟨(k, w) :: ws, .cons (readEntry_eq hw k) hws, .cons ⟨rfl, hsame⟩ hsames⟩

end

/-- the values that the initial value of a variable stands for -/
def readValues (ts : List String) : Option (List Value) :=
  match readExpression ((Initial.values ts).text.toList.length + 1) (Initial.values ts).text.toList with
  | some (.array ws, []) => some ws
  | _ => none

/-- **Lists of values.** The values of a variable are as many as were written, and compare like them. -/
theorem readValues_literals {vs : List Value} {ts : List String} (h : literals vs = .ok ts)
    (hv : Value.allFit vs = true) : ∃ ws, readValues ts = some ws ∧ List.Forall₂ Same ws vs := by
  have htext : (Initial.values ts).text = "[]any\x7b" ++ ", ".intercalate ts ++ "\x7d" := rfl
  obtain ⟨hcount, hitem⟩ := intercalate_length ts
  have hlen : (", ".intercalate ts).toList.length + 1 ≤ (Initial.values ts).text.toList.length := by
    rw [htext]
    simp only [String.toList_append, List.length_append]
    have : ("\x7d".toList).length = 1 := rfl
    omega
  obtain ⟨ws, hreads, hsame⟩ := readExpression_literals h hv (Initial.values ts).text.toList.length
    fun t ht => by have := hitem t ht; omega
  refine ⟨ws, ?_, hsame⟩
  have hread := readExpression_array hreads (by omega) []
  rw [← htext, List.append_nil] at hread
  simp only [readValues, hread]

end Schemata.Source
