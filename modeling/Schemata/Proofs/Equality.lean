import Mathlib.Tactic
import Schemata.Proofs.Dict
import Schemata.Proofs.Number.Whole
import Schemata.Proofs.Program.Meets

/-!
Equality of data.

`Value.equal` looks at its first argument and then at the second, but it is symmetric and transitive on all values
(`equal_comm`, `equal_trans`), and a value equals itself when all its numbers have a value other than NaN (`equal_self`).
Objects are equal when each entry has a partner, in any order (`equal_ofEntries`), and a number counts as its 64-bit
value, whatever carries it (`Restated`). The check for repetitions names the first item that equals an earlier one
(`FirstRepeat`).
-/

namespace Schemata

namespace Value

open Relation (ReflTransGen)

/-! ## The cases -/

/-- are both there, and equal as numbers? -/
def sameNumber : Option Float → Option Float → Bool
  | some x, some y => x == y
  | _, _ => false

/-- is the value a number or a literal? -/
def isNumeral : Value → Bool
  | float _ => true
  | single _ => true
  | int _ _ _ => true
  | literal _ => true
  | _ => false

mutual

/-- does every number in the value have a 64-bit value other than NaN? -/
def isMeasured : Value → Bool
  | float x => !Number.isNaN x
  | single x => !Number.isNaN x
  | literal t => match Number.read t with
    | .number x => !Number.isNaN x
    | _ => false
  | array xs => allMeasured xs
  | object fs => fieldsMeasured fs
  | _ => true

def allMeasured : List Value → Bool
  | [] => true
  | x :: xs => isMeasured x && allMeasured xs

def fieldsMeasured : List (String × Value) → Bool
  | [] => true
  | (_, x) :: xs => isMeasured x && fieldsMeasured xs

end

variable {u v w : Value}

theorem isNumeral_of_number? {x : Float} (h : v.number? = some x) : v.isNumeral = true := by
  cases v <;> first | rfl | cases h

theorem equal_numeral (hv : v.isNumeral = true) :
    v.equal w = true ↔ ∃ x y, v.number? = some x ∧ w.number? = some y ∧ (x == y) = true := by
  have hequal : v.equal w = sameNumber v.number? w.number? := by
    cases v <;> first | rfl | cases hv
  rw [hequal]
  cases v.number? <;> cases w.number? <;> simp [sameNumber]

theorem null_equal : null.equal w = true ↔ null = w := by
  cases w <;> simp [equal]

theorem bool_equal {b : Bool} : (bool b).equal w = true ↔ bool b = w := by
  cases w <;> simp [equal]

theorem string_equal {s : String} : (string s).equal w = true ↔ string s = w := by
  cases w <;> simp [equal]

theorem array_equal {xs : List Value} : (array xs).equal w = true ↔ ∃ ys, array ys = w ∧ equalItems xs ys = true := by
  cases w <;> simp [equal]

theorem object_equal {xs : List (String × Value)} :
    (object xs).equal w = true ↔ ∃ ys, object ys = w ∧ equalFields xs ys = true := by
  cases w <;> simp [equal]

theorem equalItems_cons {x : Value} {xs ys : List Value} :
    equalItems (x :: xs) ys = true ↔ ∃ y zs, y :: zs = ys ∧ x.equal y = true ∧ equalItems xs zs = true := by
  cases ys <;> simp [equalItems]

theorem equalFields_cons {k : String} {x : Value} {xs ys : List (String × Value)} :
    equalFields ((k, x) :: xs) ys = true ↔ ∃ y zs, (k, y) :: zs = ys ∧ x.equal y = true ∧ equalFields xs zs = true := by
  cases ys with
  | nil => simp [equalFields]
  | cons e zs =>
    obtain ⟨l, y⟩ := e
    simp [equalFields, and_assoc]

/-! ## The laws -/

theorem equal_self_numeral {x : Float} (h : v.number? = some x) : v.equal v = !Number.isNaN x := by
  rw [Bool.eq_iff_iff, equal_numeral (isNumeral_of_number? h), Bool.not_eq_true', ← Number.beq_self_iff]
  constructor
  · rintro ⟨y, z, hy, hz, hyz⟩
    obtain rfl := Option.some.inj (h.symm.trans hy)
    obtain rfl := Option.some.inj (h.symm.trans hz)
    exact hyz
  · exact fun hself => ⟨x, x, h, h, hself⟩

mutual

/-- **A value equals itself** if its numbers are measured, and only then. -/
theorem equal_self : ∀ v : Value, v.equal v = v.isMeasured
  | null => rfl
  | bool b => by simp [equal, isMeasured]
  | string s => by simp [equal, isMeasured]
  | float _ => equal_self_numeral rfl
  | single _ => equal_self_numeral rfl
  | int _ _ _ => by
    rw [equal_self_numeral rfl, Number.isNaN_ofInt]
    rfl
  | literal t => by
    cases ht : Number.read t with
    | number x =>
      rw [equal_self_numeral (show (literal t).number? = some x by simp only [number?, numeric, ht, if_true])]
      simp only [isMeasured, ht]
    | _ =>
      have hnone : (literal t).number? = none := by simp [number?, numeric, ht]
      simp only [equal, isMeasured, hnone, ht]
  | array xs => equalItems_self xs
  | object fs => equalFields_self fs

theorem equalItems_self : ∀ xs : List Value, equalItems xs xs = allMeasured xs
  | [] => rfl
  | x :: xs => by rw [equalItems, allMeasured, equal_self x, equalItems_self xs]

theorem equalFields_self : ∀ fs : List (String × Value), equalFields fs fs = fieldsMeasured fs
  | [] => rfl
  | (k, x) :: fs => by rw [equalFields, fieldsMeasured, equal_self x, equalFields_self fs, beq_self_eq_true, Bool.true_and]

end

theorem equal_symm_numeral (hv : v.isNumeral = true) (h : v.equal w = true) : w.equal v = true := by
  obtain ⟨x, y, hx, hy, hxy⟩ := (equal_numeral hv).1 h
  exact (equal_numeral (isNumeral_of_number? hy)).2 ⟨y, x, hy, hx, by rwa [Number.beq_comm]⟩

mutual

theorem equal_symm : ∀ {v w : Value}, v.equal w = true → w.equal v = true
  | null, _, h => null_equal.1 h ▸ h
  | bool _, _, h => bool_equal.1 h ▸ bool_equal.2 rfl
  | string _, _, h => string_equal.1 h ▸ string_equal.2 rfl
  | float _, _, h => equal_symm_numeral rfl h
  | single _, _, h => equal_symm_numeral rfl h
  | int _ _ _, _, h => equal_symm_numeral rfl h
  | literal _, _, h => equal_symm_numeral rfl h
  | array xs, _, h => by
    obtain ⟨ys, rfl, h⟩ := array_equal.1 h
    exact array_equal.2 ⟨xs, rfl, equalItems_symm h⟩
  | object xs, _, h => by
    obtain ⟨ys, rfl, h⟩ := object_equal.1 h
    exact object_equal.2 ⟨xs, rfl, equalFields_symm h⟩

theorem equalItems_symm : ∀ {xs ys : List Value}, equalItems xs ys = true → equalItems ys xs = true
  | [], ys, h => by
    rw [List.isEmpty_iff.1 h]
    rfl
  | x :: xs, _, h => by
    obtain ⟨y, ys, rfl, hxy, h⟩ := equalItems_cons.1 h
    exact equalItems_cons.2 ⟨x, xs, rfl, equal_symm hxy, equalItems_symm h⟩

theorem equalFields_symm : ∀ {xs ys : List (String × Value)}, equalFields xs ys = true → equalFields ys xs = true
  | [], ys, h => by
    rw [List.isEmpty_iff.1 h]
    rfl
  | (k, x) :: xs, _, h => by
    obtain ⟨y, ys, rfl, hxy, h⟩ := equalFields_cons.1 h
    exact equalFields_cons.2 ⟨x, xs, rfl, equal_symm hxy, equalFields_symm h⟩

end

theorem equal_comm (v w : Value) : v.equal w = w.equal v := Bool.eq_iff_iff.2 ⟨equal_symm, equal_symm⟩

theorem equal_trans_numeral (hu : u.isNumeral = true) (h : u.equal v = true) (h' : v.equal w = true) : u.equal w = true := by
  obtain ⟨x, y, hx, hy, hxy⟩ := (equal_numeral hu).1 h
  obtain ⟨y', z, hy', hz, hyz⟩ := (equal_numeral (isNumeral_of_number? hy)).1 h'
  obtain rfl := Option.some.inj (hy.symm.trans hy')
  exact (equal_numeral hu).2 ⟨x, z, hx, hz, Number.beq_trans hxy hyz⟩

mutual

theorem equal_trans : ∀ {u v w : Value}, u.equal v = true → v.equal w = true → u.equal w = true
  | null, _, _, h, h' => by rwa [← null_equal.1 h] at h'
  | bool _, _, _, h, h' => by rwa [← bool_equal.1 h] at h'
  | string _, _, _, h, h' => by rwa [← string_equal.1 h] at h'
  | float _, _, _, h, h' => equal_trans_numeral rfl h h'
  | single _, _, _, h, h' => equal_trans_numeral rfl h h'
  | int _ _ _, _, _, h, h' => equal_trans_numeral rfl h h'
  | literal _, _, _, h, h' => equal_trans_numeral rfl h h'
  | array xs, _, _, h, h' => by
    obtain ⟨ys, rfl, h⟩ := array_equal.1 h
    obtain ⟨zs, rfl, h'⟩ := array_equal.1 h'
    exact array_equal.2 ⟨zs, rfl, equalItems_trans h h'⟩
  | object xs, _, _, h, h' => by
    obtain ⟨ys, rfl, h⟩ := object_equal.1 h
    obtain ⟨zs, rfl, h'⟩ := object_equal.1 h'
    exact object_equal.2 ⟨zs, rfl, equalFields_trans h h'⟩

theorem equalItems_trans : ∀ {xs ys zs : List Value}, equalItems xs ys = true → equalItems ys zs = true → equalItems xs zs = true
  | [], ys, _, h, h' => by rwa [List.isEmpty_iff.1 h] at h'
  | x :: xs, _, _, h, h' => by
    obtain ⟨y, ys, rfl, hxy, h⟩ := equalItems_cons.1 h
    obtain ⟨z, zs, rfl, hyz, h'⟩ := equalItems_cons.1 h'
    exact equalItems_cons.2 ⟨z, zs, rfl, equal_trans hxy hyz, equalItems_trans h h'⟩

theorem equalFields_trans : ∀ {xs ys zs : List (String × Value)}, equalFields xs ys = true → equalFields ys zs = true →
    equalFields xs zs = true
  | [], ys, _, h, h' => by rwa [List.isEmpty_iff.1 h] at h'
  | (k, x) :: xs, _, _, h, h' => by
    obtain ⟨y, ys, rfl, hxy, h⟩ := equalFields_cons.1 h
    obtain ⟨z, zs, rfl, hyz, h'⟩ := equalFields_cons.1 h'
    exact equalFields_cons.2 ⟨z, zs, rfl, equal_trans hxy hyz, equalFields_trans h h'⟩

end

/-! ## Objects -/

theorem equalFields_iff_forall₂ {xs ys : List (String × Value)} :
    equalFields xs ys = true ↔ List.Forall₂ (fun e f => f.1 = e.1 ∧ e.2.equal f.2 = true) xs ys := by
  induction xs generalizing ys with
  | nil => cases ys <;> simp [equalFields]
  | cons e xs ih =>
    obtain ⟨k, x⟩ := e
    rw [equalFields_cons, List.forall₂_cons_left_iff]
    constructor
    · rintro ⟨y, zs, rfl, hxy, h⟩
      exact ⟨(k, y), zs, ⟨rfl, hxy⟩, ih.1 h, rfl⟩
    · rintro ⟨⟨_, y⟩, zs, ⟨rfl, hxy⟩, h, rfl⟩
      exact ⟨y, zs, rfl, hxy, ih.2 h⟩

/-- each entry has a partner, and there are no more -/
def Partners (es fs : List (String × Value)) : Prop :=
  es.length = fs.length ∧ ∀ e ∈ es, ∃ f ∈ fs, f.1 = e.1 ∧ e.2.equal f.2 = true

theorem Partners.perm {es es' fs fs' : List (String × Value)} (h : Partners es fs) (he : es.Perm es') (hf : fs.Perm fs') :
    Partners es' fs' := by
  refine ⟨he.length_eq.symm.trans (h.1.trans hf.length_eq), fun e hmem => ?_⟩
  obtain ⟨f, hfs, hpartner⟩ := h.2 e (he.mem_iff.2 hmem)
  exact ⟨f, hf.mem_iff.1 hfs, hpartner⟩

/-- entries in the order of their keys are equal place by place when each has a partner -/
theorem equalFields_iff {xs ys : Dict Value} (hx : Dict.Sorted xs) (hy : Dict.Sorted ys) :
    equalFields xs ys = true ↔ Partners xs ys := by
  rw [equalFields_iff_forall₂]
  constructor
  · intro h
    exact ⟨h.length_eq, fun e he => Lowering.forall₂_mem h he⟩
  · rintro ⟨hlength, hpartner⟩
    have hkeys : xs.map (·.1) = ys.map (·.1) := by
      have hsubset : xs.map (·.1) ⊆ ys.map (·.1) := by
        intro k hk
        obtain ⟨e, he, rfl⟩ := List.mem_map.1 hk
        obtain ⟨f, hf, hkey, -⟩ := hpartner e he
        exact List.mem_map.2 ⟨f, hf, hkey⟩
      have hperm := (List.subperm_of_subset hx.nodup hsubset).perm_of_length_le (by simp [hlength])
      refine hperm.eq_of_pairwise ?_ (List.pairwise_map.2 hx) (List.pairwise_map.2 hy)
      exact fun a b _ _ hab hba => absurd hab (lt_asymm hba)
    rw [List.forall₂_iff_get]
    refine ⟨hlength, fun i hi hi' => ?_⟩
    have hkey : (ys.get ⟨i, hi'⟩).1 = (xs.get ⟨i, hi⟩).1 := by
      have := List.getElem_of_eq hkeys (show i < (xs.map (·.1)).length by simpa using hi)
      simpa using this.symm
    obtain ⟨f, hf, hfkey, hequal⟩ := hpartner _ (List.get_mem xs ⟨i, hi⟩)
    have hsame : f = ys.get ⟨i, hi'⟩ := List.inj_on_of_nodup_map hy.nodup hf (List.get_mem _ _) (hfkey.trans hkey.symm)
    exact ⟨hkey, by rwa [← hsame]⟩

theorem ofList_perm {es : List (String × Value)} (h : (es.map (·.1)).Nodup) : (Dict.ofList es).Perm es := by
  refine (List.perm_ext_iff_of_nodup (Dict.sorted_ofList es).nodup.of_map h.of_map).2 fun e => ?_
  obtain ⟨k, x⟩ := e
  rw [← Dict.get?_eq_some (Dict.sorted_ofList es).nodup, Dict.get?_ofList, Dict.get?_reverse h, Dict.get?_eq_some h]

/-- **Key order carries no meaning.** Objects are equal when each entry of the first has a partner in the second and there are as
many in the second. -/
theorem equal_ofEntries {es fs : List (String × Value)} (he : (es.map (·.1)).Nodup) (hf : (fs.map (·.1)).Nodup) :
    (ofEntries es).equal (ofEntries fs) = true ↔ Partners es fs := by
  have hfields : (ofEntries es).equal (ofEntries fs) = equalFields (Dict.ofList es) (Dict.ofList fs) := rfl
  rw [hfields, equalFields_iff (Dict.sorted_ofList es) (Dict.sorted_ofList fs)]
  exact ⟨fun h => h.perm (ofList_perm he) (ofList_perm hf), fun h => h.perm (ofList_perm he).symm (ofList_perm hf).symm⟩

/-! ## Carriers of numbers -/

/-- somewhere in the value, another carrier of the same number -/
inductive Restated : Value → Value → Prop
  | number {v w : Value} {x : Float} (hv : v.number? = some x) (hw : w.number? = some x) : Restated v w
  | item (before : List Value) {v w : Value} (after : List Value) (h : Restated v w) :
      Restated (array (before ++ v :: after)) (array (before ++ w :: after))
  | member (before : List (String × Value)) (k : String) {v w : Value} (after : List (String × Value)) (h : Restated v w) :
      Restated (object (before ++ (k, v) :: after)) (object (before ++ (k, w) :: after))

theorem equalItems_congr (h : ∀ u, v.equal u = w.equal u) (before after us : List Value) :
    equalItems (before ++ v :: after) us = equalItems (before ++ w :: after) us := by
  induction before generalizing us with
  | nil => cases us <;> simp [equalItems, h]
  | cons x before ih => cases us <;> simp [equalItems, ih]

theorem equalFields_congr (h : ∀ u, v.equal u = w.equal u) (k : String) (before after us : List (String × Value)) :
    equalFields (before ++ (k, v) :: after) us = equalFields (before ++ (k, w) :: after) us := by
  induction before generalizing us with
  | nil => cases us <;> simp [equalFields, h]
  | cons x before ih => cases us <;> simp [equalFields, ih]

/-- a value restated compares as before -/
theorem Restated.equal (h : Restated v w) (u : Value) : v.equal u = w.equal u := by
  induction h generalizing u with
  | number hv hw =>
    rw [Bool.eq_iff_iff, equal_numeral (isNumeral_of_number? hv), equal_numeral (isNumeral_of_number? hw), hv, hw]
  | item before after _ ih => cases u <;> simp [Value.equal, equalItems_congr ih]
  | member before k after _ ih => cases u <;> simp [Value.equal, equalFields_congr ih]

theorem equal_of_restated (h : ReflTransGen Restated v w) (u : Value) : v.equal u = w.equal u := by
  induction h with
  | refl => rfl
  | tail _ hstep ih => exact ih.trans (hstep.equal u)

end Value

namespace Check

open Relation (ReflTransGen)

/-! ## Repetitions -/

/-- the item at the first place equals the one at the second, which comes before it -/
def Repeats (xs : List Value) (i j : Nat) : Prop := j < i ∧ ∃ x y, xs[i]? = some x ∧ xs[j]? = some y ∧ x.equal y = true

/-- the first item that equals an earlier one, and the first that it equals -/
structure FirstRepeat (xs : List Value) (i j : Nat) : Prop where
  repeats : Repeats xs i j
  first : ∀ m k, Repeats xs m k → i ≤ m
  earliest : ∀ k, Repeats xs i k → j ≤ k

theorem duplicate?_first {earlier xs : List Value} {i j : Nat} (hearlier : ∀ m k, Repeats (earlier ++ xs) m k → earlier.length ≤ m)
    (h : duplicate? earlier earlier.length xs = some (i, j)) : FirstRepeat (earlier ++ xs) i j := by
  induction xs generalizing earlier with
  | nil => cases h
  | cons x xs ih =>
    have hx : (earlier ++ x :: xs)[earlier.length]? = some x := by simp
    rw [duplicate?] at h
    cases hfind : earlier.findIdx? fun y => Value.equal x y with
    | some k =>
      simp only [hfind, Option.some.injEq, Prod.mk.injEq] at h
      obtain ⟨rfl, rfl⟩ := h
      obtain ⟨hlt, hequal, hbefore⟩ := List.findIdx?_eq_some_iff_getElem.1 hfind
      refine ⟨⟨hlt, x, earlier[k], hx, ?_, hequal⟩, hearlier, ?_⟩
      · rw [List.getElem?_append_left hlt, List.getElem?_eq_getElem hlt]
      · rintro l ⟨hl, y, z, hy, hz, hyz⟩
        by_contra hless
        obtain rfl := Option.some.inj (hx.symm.trans hy)
        rw [List.getElem?_append_left hl, List.getElem?_eq_getElem hl] at hz
        obtain rfl := Option.some.inj hz
        exact hbefore l (by omega) hyz
    | none =>
      simp only [hfind] at h
      have hnone := List.findIdx?_eq_none_iff.1 hfind
      rw [show earlier ++ x :: xs = (earlier ++ [x]) ++ xs by simp] at hearlier ⊢
      refine ih (fun m k hmk => ?_) (by simpa using h)
      have hle := hearlier m k hmk
      rcases Nat.lt_or_eq_of_le hle with hlt | rfl
      · simpa using hlt
      · -- the item right behind the earlier ones equals none of them
        obtain ⟨hk, y, z, hy, hz, hyz⟩ := hmk
        rw [List.append_assoc, List.singleton_append] at hy hz
        obtain rfl := Option.some.inj (hx.symm.trans hy)
        rw [List.getElem?_append_left hk] at hz
        exact absurd hyz (by simp [hnone z (List.mem_of_getElem? hz)])

/-- **Equality of data is an equivalence, and the check for repetitions is exact.** Equality is symmetric and transitive, and a value
equals itself if and only if each number in it has a 64-bit value other than NaN. Objects are equal when their entries are
partners in any order, and another carrier of a number changes no comparison, however deep it stands. The
check of a list finds nothing if no two items are equal, and otherwise reports one issue: at the first item that equals an
earlier one, with the first place of an equal item. -/
theorem equality_exact :
    (∀ v : Value, v.equal v = v.isMeasured) ∧ (∀ v w : Value, v.equal w = w.equal v) ∧
    (∀ u v w : Value, u.equal v = true → v.equal w = true → u.equal w = true) ∧
    (∀ es fs : List (String × Value), (es.map (·.1)).Nodup → (fs.map (·.1)).Nodup →
      ((Value.ofEntries es).equal (Value.ofEntries fs) = true ↔ Value.Partners es fs)) ∧
    (∀ v w : Value, ReflTransGen Value.Restated v w → ∀ u, v.equal u = w.equal u ∧ u.equal v = u.equal w) ∧
    ∀ (cx : Context) (xs : List Value) (p : Pointer), (unique cx xs p = [] ↔ xs.Pairwise fun x y => x.equal y = false) ∧
      (unique cx xs p ≠ [] → ∃ i j, FirstRepeat xs i j ∧
        unique cx xs p = [report cx (p.index i) .notUnique [("duplicateOf", .nat j)]]) := by
  refine ⟨Value.equal_self, Value.equal_comm, fun _ _ _ => Value.equal_trans, fun _ _ => Value.equal_ofEntries, fun v w h u => ?_,
    fun cx xs p => ⟨?_, fun hne => ?_⟩⟩
  · have hleft := Value.equal_of_restated h u
    exact ⟨hleft, by rw [Value.equal_comm u v, Value.equal_comm u w, hleft]⟩
  · rw [← List.isEmpty_iff, isEmpty_unique, distinct_iff]
    have hturned : (fun x y : Value => y.equal x = false) = fun x y => x.equal y = false := by
      funext x y
      rw [Value.equal_comm]
    rw [hturned]
  · cases hd : duplicate? [] 0 xs with
    | none =>
      rw [unique, hd] at hne
      exact absurd rfl hne
    | some r =>
      obtain ⟨i, j⟩ := r
      have hfirst : FirstRepeat ([] ++ xs) i j := duplicate?_first (fun _ _ _ => Nat.zero_le _) hd
      exact ⟨i, j, hfirst, by rw [unique, hd]⟩

/-- a switch, and twice one record: the second has its keys in another order and its number in another carrier -/
def records : List Value :=
  [.bool true, .ofEntries [("a", .int true .machine 1), ("b", .null)], .ofEntries [("b", .null), ("a", .literal "1.0")]]

theorem equality_exact_records :
    let cx : Context := ⟨default, false, fun code _ => code⟩
    (Value.ofEntries [("a", .int true .machine 1), ("b", .null)]).equal
        (.ofEntries [("b", .null), ("a", .literal "1.0")]) = true ∧
      ∃ i j, FirstRepeat records i j ∧
        unique cx records [] = [report cx (Pointer.index [] i) .notUnique [("duplicateOf", .nat j)]] := by
  intro cx
  obtain ⟨-, -, -, hobjects, -, hunique⟩ := equality_exact
  refine ⟨(hobjects _ _ (by decide) (by decide)).2 ?_, (hunique cx records []).2 fun hnone => ?_⟩
  · unfold Value.Partners
    decide +kernel
  · exact absurd (congrArg List.length hnone) (by decide +kernel)

end Check

end Schemata
