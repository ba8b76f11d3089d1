import Mathlib.Tactic
import Schemata.Proofs.Document.Shapes

/-!
Renderings mean what their nodes mean.

The shape that a rendering is lowered to has the verdict of its node, if the shapes below have the verdicts of the nodes below
(`verdict_forms`, one case for each kind). References close circles: their targets stand at the root or at a definition
(`Resolves`), and what they accept is known one step earlier, so the whole is an induction on the steps of the judgement
(`verdict_judge`).
-/

namespace Schemata.Document

open Schema (Body ofBody FiniteBounds)
open Lowering (lower)
open Check (Verdict)

/-! ## Scalars -/

theorem ofName?_empty : Format.ofName? "" = none := by decide

theorem acceptsText_options {L : Lowering.Context} {σ : Judging} (hσ : σ.formats = L.options.formats) (o : TextOptions)
    (s : String) : Primitive.acceptsText {
      type := .string, minLength := o.minLength, maxLength := o.maxLength, pattern := o.pattern
      format := if (Format.ofName? o.format).isSome && L.options.formats then o.format else "" } s = o.admits σ s := by
  unfold Primitive.acceptsText TextOptions.admits
  rw [hσ]
  cases hf : Format.ofName? o.format with
  | none => simp [ofName?_empty]
  | some format => cases L.options.formats <;> simp [ofName?_empty, hf]

theorem acceptsNumber_options {t : String} {k : Scalar} {o : NumberOptions}
    (hfinite : (numberSchema .plain t o).Everywhere fun b => FiniteBounds b.own) (x : Float) : Primitive.acceptsNumber {
      type := k
      min := (Lowering.bound (fun x y => x ≥ y) o.minimum (o.exclusiveMinimum.map .float)).1
      max := (Lowering.bound (fun x y => x ≤ y) o.maximum (o.exclusiveMaximum.map .float)).1
      exclusiveMin := (Lowering.bound (fun x y => x ≥ y) o.minimum (o.exclusiveMinimum.map .float)).2
      exclusiveMax := (Lowering.bound (fun x y => x ≤ y) o.maximum (o.exclusiveMaximum.map .float)).2
      multipleOf := o.multipleOf } x = o.admits x := by
  have hbounds := Schema.everywhere_ofKeywords.1 hfinite
  unfold Primitive.acceptsNumber NumberOptions.admits
  rw [Lowering.lower_bound hbounds.minimum (fun y hy => hbounds.exclusiveMinimum y (by simp [hy])) x,
    Lowering.upper_bound hbounds.maximum (fun y hy => hbounds.exclusiveMaximum y (by simp [hy])) x]
  simp only [Bool.and_assoc]

/-! ## Listed values -/

theorem equal_float {v : Value} {y : Float} (h : Value.equal v (.float y) = true) :
    ∃ x, v.number? = some x ∧ (x == y) = true := by
  cases v <;> simp only [Value.equal, Bool.false_eq_true] at h
  all_goals
    split at h
    · rename_i x z hx hz
      refine ⟨x, hx, ?_⟩
      have : z = y := by simpa [Value.number?, Value.numeric] using hz.symm
      rwa [← this]
    · cases h

theorem equal_null {v : Value} : Value.equal v .null = v.isNull := by
  cases v <;> simp [Value.equal, Value.isNull, Value.number?, Value.numeric]

theorem written_int (signed : Bool) (width : Width) (n : Int) :
    (Value.int signed width n).written = .float ((Number.parse? (toString n)).getD 0.0) := rfl

theorem written_float (x : Float) :
    (Value.float x).written = .float ((Number.parse? (Number.Layout.wire.text Number.double x)).getD 0.0) := rfl

theorem written_single (x : Float) :
    (Value.single x).written = .float ((Number.parse? (Number.Layout.wire.text Number.single x)).getD 0.0) := rfl

theorem isWhole_of_integer {x : Float} (h : numberType x = "integer") : Number.isWhole x = true := by
  unfold numberType at h
  split at h
  · rename_i hx
    unfold Number.isInt64 at hx
    exact (Bool.and_eq_true_iff.1 hx).1
  · exact absurd h (by decide)

/-- the integers among listed values stay whole -/
theorem written_whole {w : Value} (h : literalTypeOf w = .type "integer") :
    ∃ y, w.written = .float y ∧ Number.isWhole y = true := by
  cases w with
  | float x =>
    have hx := isWhole_of_integer (LiteralType.type.inj h)
    exact ⟨x, Schema.reread_finite id (Check.isFinite_of_isWhole hx), hx⟩
  | single x =>
    have hx := isWhole_of_integer (LiteralType.type.inj h)
    exact ⟨_, written_single x, Number.parse?_text_whole Number.Layout.wire (by decide) hx⟩
  | int signed width n => exact ⟨_, written_int signed width n, Number.parse?_int n⟩
  | bool b => exact absurd (LiteralType.type.inj h) (by decide)
  | string s => exact absurd (LiteralType.type.inj h) (by decide)
  | _ => cases h

/-- numbers are listed as numbers -/
theorem written_number {w : Value} {t : String} (h : literalTypeOf w = .type t) (ht : t = "number" ∨ t = "integer") :
    ∃ y, w.written = .float y := by
  cases w with
  | float x => exact ⟨_, written_float x⟩
  | single x => exact ⟨_, written_single x⟩
  | int signed width n => exact ⟨_, written_int signed width n⟩
  | bool b =>
    obtain rfl := LiteralType.type.inj h
    exact absurd ht (by decide)
  | string s =>
    obtain rfl := LiteralType.type.inj h
    exact absurd ht (by decide)
  | _ => cases h

theorem numberType_cases (x : Float) : numberType x = "integer" ∨ numberType x = "number" := ite_eq_or_eq _ _ _

/-- texts are listed as texts -/
theorem eq_string_of_type {w : Value} (h : literalTypeOf w = .type "string") : ∃ s, w = .string s := by
  cases w with
  | string s => exact ⟨s, rfl⟩
  | bool b => exact absurd (LiteralType.type.inj h) (by decide)
  | int signed width n => exact absurd (LiteralType.type.inj h) (by decide)
  | float x | single x =>
    have h := LiteralType.type.inj h
    rcases numberType_cases x with hx | hx <;> rw [hx] at h <;> exact absurd h (by decide)
  | _ => cases h

theorem eq_bool_of_type {w : Value} (h : literalTypeOf w = .type "boolean") : ∃ b, w = .bool b := by
  cases w with
  | bool b => exact ⟨b, rfl⟩
  | string s => exact absurd (LiteralType.type.inj h) (by decide)
  | int signed width n => exact absurd (LiteralType.type.inj h) (by decide)
  | float x | single x =>
    have h := LiteralType.type.inj h
    rcases numberType_cases x with hx | hx <;> rw [hx] at h <;> exact absurd h (by decide)
  | _ => cases h

theorem equal_bool {v : Value} {b : Bool} (h : Value.equal v (.bool b) = true) : v = .bool b := by
  cases v <;> simp [Value.equal, Value.number?, Value.numeric] at h ⊢
  exact h

theorem accepts_number {coerce : Bool} {v : Value} {x : Float} (hv : v.number? = some x) :
    Primitive.accepts coerce { type := .number } v = true := by
  have hread : v.reading coerce = some x := by
    unfold Value.reading
    rw [hv]
  simp [Primitive.accepts, hread, Primitive.acceptsNumber]

theorem accepts_integer {coerce : Bool} {v : Value} {x : Float} (hv : v.number? = some x) (hx : Number.isWhole x = true) :
    Primitive.accepts coerce { type := .integer } v = true := by
  have hread : v.reading coerce = some x := by
    unfold Value.reading
    rw [hv]
  simp [Primitive.accepts, hread, hx, Primitive.acceptsNumber]

/-- a value that equals a listed one is of the type that all listed values share -/
theorem accepts_literal {vs : List Value} (ht : IsLiteralType (literalType "" vs)) {v w : Value} (hw : w ∈ vs)
    (hnull : w.isNull = false) (heq : Value.equal v w.written = true) (coerce : Bool) :
    Primitive.accepts coerce { type := .ofName (literalType "" vs) } v = true := by
  have hne : literalType "" vs ≠ "" := by rcases ht with h | h | h | h <;> rw [h] <;> decide
  obtain ⟨-, -, hall⟩ := literalType_eq rfl hne (.inl rfl)
  generalize literalType "" vs = t at ht hall
  have hnumber {u : String} (hu : literalTypeOf w = .type u) (hn : u = "number" ∨ u = "integer") :
      Primitive.accepts coerce { type := .number } v = true := by
    obtain ⟨y, hy⟩ := written_number hu hn
    obtain ⟨x, hx, -⟩ := equal_float (hy ▸ heq)
    exact accepts_number hx
  rcases hall w hw with hpass | hsame | ⟨rfl, hint⟩
  · cases w with
    | null => cases hnull
    | _ => cases hpass
  · rcases ht with rfl | rfl | rfl | rfl
    · obtain ⟨s, rfl⟩ := eq_string_of_type hsame
      obtain rfl := Value.equal_string heq
      simp [Primitive.accepts, Primitive.acceptsText, Scalar.ofName, withinLimits, ofName?_empty]
    · obtain ⟨b, rfl⟩ := eq_bool_of_type hsame
      obtain rfl := equal_bool heq
      rfl
    · obtain ⟨y, hy, hwhole⟩ := written_whole hsame
      obtain ⟨x, hx, hxy⟩ := equal_float (hy ▸ heq)
      exact accepts_integer hx (Number.isWhole_of_beq hxy hwhole)
    · exact hnumber hsame (.inl rfl)
  · exact hnumber hint (.inr rfl)

/-- what a list of values is rendered as accepts those that equal one of them -/
theorem verdict_listed {ck : Check.Context} {L : Lowering.Context} {f : String → String} (hL : L.options.dialect = .plain)
    (hf : KeepsPlain f) {n : Node} {S : Schema} (hS : enumSchema .plain n = .ok S)
    (htok : ∀ v ∈ n.enumValues, ∀ t ∈ v.texts, Placeholder.occursIn t = false) {x : Shape}
    (h : lower L (S.reread f) = .ok x) (v : Value) :
    Verdict ck x v (n.enumValues.any fun want => Value.equal v want.written) := by
  have hany : (n.enumValues.map Value.written).any (fun want => Value.equal v want) =
      n.enumValues.any fun want => Value.equal v want.written := by
    rw [List.any_map]
    rfl
  -- null is listed, so it equals a listed value
  have hlisted (hnull : (n.enumValues.any Value.isNull && v.isNull) = true) :
      (n.enumValues.any fun want => Value.equal v want.written) = true := by
    obtain ⟨hsome, hv⟩ := Bool.and_eq_true_iff.1 hnull
    obtain ⟨w, hw, hnull⟩ := List.any_eq_true.1 hsome
    refine List.any_eq_true.2 ⟨w, hw, ?_⟩
    obtain rfl : w = .null := by cases w <;> first | rfl | cases hnull
    exact equal_null.trans hv
  rcases shape_enum hL hf hS htok h with rfl | ⟨ht, hx⟩
  · exact hany ▸ Check.verdict_enum _ (by simp) rfl
  · cases hnull : n.enumValues.any Value.isNull && v.isNull with
    | true =>
      obtain ⟨hsome, hv⟩ := Bool.and_eq_true_iff.1 hnull
      rw [hlisted hnull]
      rcases hx with rfl | rfl <;> exact Check.verdict_null hsome hv
    | false =>
      rcases hx with rfl | rfl
      · exact hany ▸ Check.verdict_enum _ hnull rfl
      · have hbare : (({} : Base).nullable && v.isNull) = false := rfl
        have hboth : Verdict ck (.allOf { nullable := n.enumValues.any Value.isNull }
            [.primitive {} { type := .ofName (literalType "" n.enumValues) }, .enum {} (n.enumValues.map Value.written)]) v _ :=
          Check.verdict_allOf
            (.cons (Check.verdict_primitive { type := .ofName (literalType "" n.enumValues) } hbare rfl)
              (.cons (Check.verdict_enum (n.enumValues.map Value.written) hbare rfl) .nil)) hnull rfl
        rw [hany] at hboth
        convert hboth using 1
        cases hv : n.enumValues.any fun want => Value.equal v want.written with
        | false => simp
        | true =>
          -- a listed value that the value equals is not null, so the type accepts it
          obtain ⟨w, hw, heq⟩ := List.any_eq_true.1 hv
          have hwnull : w.isNull = false := by
            by_contra hw'
            obtain rfl : w = .null := by cases w <;> first | rfl | exact absurd rfl hw'
            have hvnull : v.isNull = true := equal_null.symm.trans heq
            rw [List.any_eq_true.2 ⟨_, hw, rfl⟩, hvnull] at hnull
            cases hnull
          simp [accepts_literal ht hw hwnull heq]

/-! ## One node -/

/-- a node that documents in the plain dialect express in full -/
structure Expressible (n : Node) : Prop where
  nullable : n.kind ≠ .nullable
  custom : n.kind ≠ .custom
  keys : n.kind = .object → n.objectOptions.keys.Nodup
  union : n.kind = .union → n.children ≠ [] ∧ n.discriminator = ""
  const : n.kind = .const → n.constValue.isNull = false
  rules : n.info.rules = []
  extensions : n.info.extensions ++ n.info.openapi = []
  texts : ∀ t ∈ n.ownTexts, Placeholder.occursIn t = false
  counts : ∀ k ∈ n.textOptions.minLength.toList ++ n.textOptions.maxLength.toList ++ n.arrayOptions.minItems.toList
    ++ n.arrayOptions.maxItems.toList, IsWord k
  children : n.children.length < 2 ^ 63

instance (n : Node) : Decidable (Expressible n) :=
  decidable_of_iff (n.kind ≠ .nullable ∧ n.kind ≠ .custom ∧ (n.kind = .object → n.objectOptions.keys.Nodup) ∧
      (n.kind = .union → n.children ≠ [] ∧ n.discriminator = "") ∧ (n.kind = .const → n.constValue.isNull = false) ∧
      n.info.rules = [] ∧ n.info.extensions ++ n.info.openapi = [] ∧ (∀ t ∈ n.ownTexts, Placeholder.occursIn t = false) ∧
      (∀ k ∈ n.textOptions.minLength.toList ++ n.textOptions.maxLength.toList ++ n.arrayOptions.minItems.toList
        ++ n.arrayOptions.maxItems.toList, IsWord k) ∧ n.children.length < 2 ^ 63)
    ⟨fun ⟨h1, h2, h3, h4, h5, h6, h7, h8, h9, h10⟩ => ⟨h1, h2, h3, h4, h5, h6, h7, h8, h9, h10⟩,
      fun h => ⟨h.nullable, h.custom, h.keys, h.union, h.const, h.rules, h.extensions, h.texts, h.counts, h.children⟩⟩

/-- whatever the node is rendered as has the verdict -/
def Fits (ck : Check.Context) (L : Lowering.Context) (f : String → String) (R : Nat → Schema → Prop) (c : Nat) (v : Value)
    (b : Bool) : Prop :=
  ∀ T s, R c T → T.Everywhere (fun B => FiniteBounds B.own) → lower L (T.reread f) = .ok s → Verdict ck s v b

/-- a shape has all verdicts of a node -/
def Means (ck : Check.Context) (L : Lowering.Context) (f : String → String) (R : Nat → Schema → Prop) (c : Nat) (s : Shape) :
    Prop :=
  ∀ v b, Fits ck L f R c v b → Verdict ck s v b

section

variable {ck : Check.Context} {L : Lowering.Context} {cx : Context} {f : String → String} {R : Nat → Schema → Prop}
  {n : Node} {v : Value} {x : Shape} {answer : Nat → Value → Bool}

theorem means_all {cs : List Nat} {ss : List Schema} {xs : List Shape} (hss : List.Forall₂ R cs ss)
    (hfinite : ∀ s ∈ ss, s.Everywhere fun b => FiniteBounds b.own)
    (hxs : List.Forall₂ (fun s y => lower L (s.reread f) = .ok y) ss xs) : List.Forall₂ (Means ck L f R) cs xs := by
  induction hss generalizing xs with
  | nil =>
    cases hxs
    exact .nil
  | cons hs _ ih =>
    obtain _ | ⟨hy, hxs⟩ := hxs
    exact .cons (fun v b hb => hb _ _ hs (hfinite _ (by simp)) hy) (ih (fun s h => hfinite s (by simp [h])) hxs)

/-- the verdicts of shapes over one value -/
theorem verdicts_all {cs : List Nat} {xs : List Shape} (h : List.Forall₂ (Means ck L f R) cs xs)
    (hfits : ∀ c ∈ cs, Fits ck L f R c v (answer c v)) :
    List.Forall₂ (fun s b => Verdict ck s v b) xs (cs.map (answer · v)) := by
  induction h with
  | nil => exact .nil
  | cons hc _ ih => exact .cons (hc _ _ (hfits _ (by simp))) (ih fun c h => hfits c (by simp [h]))

/-! ### Tuples -/

theorem le_foldl_required {g : Graph} {acc k : Nat} {fixed : List Nat} (hk : acc ≤ k) :
    acc ≤ (fixed.zipIdx k).foldl (fun acc e => if g.isOptional e.1 then acc else e.2 + 1) acc := by
  induction fixed generalizing acc k with
  | nil => exact le_rfl
  | cons c fixed ih =>
    rw [List.zipIdx_cons, List.foldl_cons]
    split
    · exact ih (hk.trans (Nat.le_succ k))
    · exact (hk.trans (Nat.le_succ k)).trans (ih le_rfl)

theorem foldl_required_le {g : Graph} {acc k m : Nat} {fixed : List Nat} (hk : acc ≤ k) (hm : acc ≤ m) :
    (fixed.zipIdx k).foldl (fun acc e => if g.isOptional e.1 then acc else e.2 + 1) acc ≤ m ↔
      (fixed.drop (m - k)).all g.isOptional = true := by
  induction fixed generalizing acc k with
  | nil => simpa using hm
  | cons c fixed ih =>
    rw [List.zipIdx_cons, List.foldl_cons]
    rcases Nat.lt_or_ge k m with hlt | hge
    · -- the position is there, so it does not matter
      obtain ⟨j, hj⟩ : ∃ j, m - k = j + 1 := ⟨m - k - 1, by omega⟩
      have hnext : m - (k + 1) = j := by omega
      rw [hj, List.drop_succ_cons, ← hnext]
      split
      · exact ih (hk.trans (Nat.le_succ k)) hm
      · exact ih le_rfl hlt
    · rw [Nat.sub_eq_zero_of_le hge, List.drop_zero, List.all_cons]
      cases hopt : g.isOptional c with
      | true =>
        rw [if_pos rfl, ih (hk.trans (Nat.le_succ k)) hm, Nat.sub_eq_zero_of_le (by omega), List.drop_zero, Bool.true_and]
      | false =>
        have hle : k + 1 ≤ (fixed.zipIdx (k + 1)).foldl _ (k + 1) := le_foldl_required (g := g) le_rfl
        simp only [Bool.false_eq_true, if_false, Bool.false_and, iff_false, not_le]
        omega

/-- positions are required up to the last one that is not optional -/
theorem requiredItems_le {g : Graph} {m : Nat} {fixed : List Nat} :
    requiredItems g fixed ≤ m ↔ (fixed.drop m).all g.isOptional = true :=
  foldl_required_le (k := 0) le_rfl (Nat.zero_le m)

/-- the positions of a tuple and what follows them, with their renderings -/
theorem restSchema_positions {cx : Context} {R : Nat → Schema → Prop} {n : Node} {ss : List Schema}
    (hss : List.Forall₂ R n.children ss) (hrest : n.hasRest = true → ss ≠ []) : ∃ fixed rest,
      restSchema cx n ss = tupleSchema cx.options.dialect (requiredItems cx.graph n.positions) fixed rest ∧
        List.Forall₂ R n.positions fixed ∧ Option.Rel R n.rest rest := by
  unfold restSchema Node.positions Node.rest
  by_cases hr : n.hasRest = true
  · simp only [hr, if_true]
    obtain ⟨cs, c, hcs⟩ : ∃ cs c, n.children = cs ++ [c] := by
      obtain hnil | ⟨cs, c, hcs⟩ := List.eq_nil_or_concat' n.children
      · rw [hnil, List.forall₂_nil_left_iff] at hss
        exact absurd hss (hrest hr)
      · exact ⟨cs, c, hcs⟩
    rw [hcs] at hss
    obtain ⟨fixed, last, rfl, hfixed, hlast⟩ := Check.forall₂_append_left hss
    obtain ⟨s, hs, rfl⟩ : ∃ s, R c s ∧ last = [s] := by
      obtain ⟨s, rest, hs, hnil, rfl⟩ := List.forall₂_cons_left_iff.1 hlast
      exact ⟨s, hs, by rw [List.forall₂_nil_left_iff.1 hnil]⟩
    exact ⟨fixed, some s, by simp [hcs], by simpa [hcs] using hfixed, by simpa [hcs] using hs⟩
  · simp only [hr]
    exact ⟨ss, none, rfl, hss, .none⟩

theorem finite_tuple {k : Nat} {fixed : List Schema} {rest : Option Schema}
    (h : (tupleSchema .plain k fixed rest).Everywhere fun b => FiniteBounds b.own) :
    ∀ s ∈ fixed ++ rest.toList, s.Everywhere fun b => FiniteBounds b.own := by
  intro s hs
  refine (Schema.everywhere_ofBody.1 h).2 s (Schema.mem_below.2 ?_)
  rcases List.mem_append.1 hs with hs | hs
  · simp [Schema.Items.toList, Schema.Elements.ofItems, Schema.Elements.toList, hs]
  · obtain rfl := Option.mem_toList.1 hs
    simp [Schema.Extent.toList, Schema.Beyond.ofExtent, Schema.Beyond.toList]

/-- items with the shapes of their positions -/
theorem verdicts_zip {cs : List Nat} {shapes : List Shape} (h : List.Forall₂ (Means ck L f R) cs shapes) (xs : List Value)
    (hfits : ∀ e ∈ cs.zip xs, Fits ck L f R e.1 e.2 (answer e.1 e.2)) :
    List.Forall₂ (fun (e : Value × Shape) b => Verdict ck e.2 e.1 b) (xs.zip shapes)
      ((cs.zip xs).map fun e => answer e.1 e.2) := by
  induction h generalizing xs with
  | nil => simp
  | cons hc _ ih =>
    cases xs with
    | nil => simp
    | cons x xs => exact .cons (hc _ _ (hfits (_, x) List.mem_cons_self)) (ih xs fun e he => hfits e (List.mem_cons_of_mem _ he))

theorem verdict_tuple_items {positions : List Nat} {rest : Option Nat} {shapes : List Shape} {beyond : Shape}
    (hshapes : List.Forall₂ (Means ck L f R) positions shapes)
    (hbeyond : ∀ c ∈ rest, Means ck L f R c beyond ∧ beyond.isAbsent = false) (hnone : rest = none → beyond.isAbsent = true)
    (xs : List Value)
    (hfits : ∀ e ∈ positions.zip xs ++ rest.toList.flatMap fun c => (xs.drop positions.length).map (c, ·),
      Fits ck L f R e.1 e.2 (answer e.1 e.2)) :
    List.Forall₂ (fun (e : Value × Shape) b => Verdict ck e.2 e.1 b) (Check.positioned shapes beyond xs)
      ((positions.zip xs ++ rest.toList.flatMap fun c => (xs.drop positions.length).map (c, ·)).map fun e => answer e.1 e.2) := by
  rw [Check.positioned, List.map_append]
  refine List.rel_append (verdicts_zip hshapes xs fun e he => hfits e (List.mem_append_left _ he)) ?_
  cases rest with
  | none => simp [hnone rfl]
  | some c =>
    obtain ⟨hmeans, hpresent⟩ := hbeyond c rfl
    simp only [hpresent, Bool.false_eq_true, if_false, Option.toList_some, List.flatMap_cons, List.flatMap_nil, List.append_nil,
      List.map_map, List.forall₂_map_left_iff, List.forall₂_map_right_iff, ← hshapes.length_eq]
    refine List.forall₂_same.2 fun x hx => hmeans _ _ (hfits (c, x) ?_)
    exact List.mem_append_right _ (List.mem_flatMap.2 ⟨c, by simp, List.mem_map_of_mem hx⟩)

/-! ### Objects -/

/-- the fields of an object with the members that they are about -/
theorem verdicts_fields {vs : Dict Value} {fields : List (String × Nat)} {fs : List (String × Schema)}
    {xs : List (String × Shape)} (hfs : List.Forall₂ (fun f e => e.1 = f.1 ∧ R f.2 e.2) fields fs)
    (hfinite : ∀ e ∈ fs, e.2.Everywhere fun b => FiniteBounds b.own)
    (hxs : List.Forall₂ (fun e y => y.1 = e.1 ∧ lower L (e.2.reread f) = .ok y.2) fs xs)
    (hfits : ∀ e ∈ fields.filterMap fun f => (Dict.get? vs f.1).map (f.2, ·), Fits ck L f R e.1 e.2 (answer e.1 e.2)) :
    List.Forall₂ (fun e b => match Dict.get? vs e.1 with
        | some x => Verdict ck e.2 x b
        | none => b = true) xs (fields.map fun f => (Dict.get? vs f.1).all (answer f.2)) ∧
      xs.map (·.1) = fields.map (·.1) := by
  induction hfs generalizing xs with
  | nil =>
    cases hxs
    exact ⟨.nil, rfl⟩
  | @cons field e fields fs he _ ih =>
    obtain _ | @⟨_, y, _, ys, ⟨hname, hy⟩, hys⟩ := hxs
    obtain ⟨hall, hnames⟩ := ih (fun e h => hfinite e (List.mem_cons_of_mem _ h)) hys fun e h => hfits e (by
      rw [List.filterMap_cons]
      split
      · exact h
      · exact List.mem_cons_of_mem _ h)
    have hkey : y.1 = field.1 := hname.trans he.1
    refine ⟨.cons ?_ hall, by rw [List.map_cons, List.map_cons, hkey, hnames]⟩
    simp only [hkey]
    cases hx : Dict.get? vs field.1 with
    | none => rfl
    | some v =>
      have hcall : (field.2, v) ∈ (field :: fields).filterMap fun f => (Dict.get? vs f.1).map (f.2, ·) :=
        List.mem_filterMap.2 ⟨field, List.mem_cons_self, by rw [hx, Option.map_some]⟩
      exact hfits _ hcall _ _ he.2 (hfinite e List.mem_cons_self) hy

/-- the answers of the fields that have a member -/
theorem all_answers {vs : Dict Value} (fields : List (String × Nat)) :
    (fields.map fun f => (Dict.get? vs f.1).all (answer f.2)).all id =
      ((fields.filterMap fun f => (Dict.get? vs f.1).map (f.2, ·)).map fun e => answer e.1 e.2).all id := by
  induction fields with
  | nil => rfl
  | cons field fields ih =>
    rw [List.map_cons, List.all_cons, ih, List.filterMap_cons]
    cases Dict.get? vs field.1 <;> simp

theorem all_required {g : Graph} {vs : Dict Value} {fields : List (String × Nat)} :
    (sortedSet (sortStrings (requiredKeys g fields))).all (Dict.has vs ·) =
      fields.all fun f => g.isOptional f.2 || Dict.has vs f.1 := by
  rw [Bool.eq_iff_iff]
  simp only [List.all_eq_true, mem_sortedSet, sortStrings, List.mem_mergeSort, requiredKeys, List.mem_map, List.mem_filter,
    Bool.not_eq_true', Bool.or_eq_true, forall_exists_index, and_imp]
  constructor
  · intro h e he
    cases hopt : g.isOptional e.2 with
    | true => exact .inl rfl
    | false => exact .inr (h e.1 e he hopt rfl)
  · rintro h _ e he hopt rfl
    exact (h e he).resolve_left (by simp [hopt])

/-! ### Kinds -/

/-- the way of judging that a compiled document stands for -/
def judgingOf (ck : Check.Context) (L : Lowering.Context) (cx : Context) : Judging where
  coerce := ck.coerce
  formats := L.options.formats
  strict := cx.options.strict

/-- the answer of a node, from those of the nodes below -/
def concluded (ck : Check.Context) (L : Lowering.Context) (cx : Context) (n : Node) (answer : Nat → Value → Bool) (v : Value) :
    Bool :=
  cx.graph.concludes (judgingOf ck L cx) n v ((n.calls v).map fun e => answer e.1 e.2)

theorem concluded_leaf (hcalls : n.calls v = []) (hk : n.kind ≠ .union) :
    concluded ck L cx n answer v = n.admits cx.graph (judgingOf ck L cx) v := by
  rw [concluded, Graph.concludes, if_neg hk, hcalls, List.map_nil, List.all_nil, Bool.and_true]

theorem concluded_all (hk : n.kind ≠ .union) : concluded ck L cx n answer v =
    (n.admits cx.graph (judgingOf ck L cx) v && ((n.calls v).map fun e => answer e.1 e.2).all id) := by
  rw [concluded, Graph.concludes, if_neg hk]

theorem Verdict.of_eq {s : Shape} {b b' : Bool} (h : Verdict ck s v b) (hb : b' = b) : Verdict ck s v b' := hb ▸ h

variable (hL : L.options.dialect = .plain) (hf : KeepsPlain f)

include hL hf

theorem verdict_text (he : Expressible n) (hk : n.kind = .string) (h : lower L ((textSchema n.textOptions).reread f) = .ok x) :
    Verdict ck x v (concluded ck L cx n answer v) := by
  have hcounts {k : Int} (hk : k ∈ n.textOptions.minLength ∨ k ∈ n.textOptions.maxLength) : IsWord k :=
    he.counts k (by simpa [or_assoc] using hk.elim .inl (.inr ∘ .inl))
  obtain rfl := shape_text hL hf (fun k hk => hcounts (.inl hk)) (fun k hk => hcounts (.inr hk))
    (he.texts _ (by simp [Node.ownTexts])) (he.texts _ (by simp [Node.ownTexts])) h
  refine Verdict.of_eq (Check.verdict_primitive _ rfl rfl) ?_
  rw [concluded_leaf (by simp [Node.calls, hk]) (by simp [hk])]
  unfold Node.admits Primitive.accepts
  rw [hk]
  cases v <;> first | rfl | exact (acceptsText_options rfl _ _).symm

theorem verdict_number (hk : n.kind = .number)
    (hfinite : (numberSchema .plain "number" n.numberOptions).Everywhere fun b => FiniteBounds b.own)
    (h : lower L ((numberSchema .plain "number" n.numberOptions).reread f) = .ok x) :
    Verdict ck x v (concluded ck L cx n answer v) := by
  obtain rfl := shape_number hL hf (.inl ⟨rfl, rfl⟩) hfinite h
  refine Verdict.of_eq (Check.verdict_primitive _ rfl rfl) ?_
  rw [concluded_leaf (by simp [Node.calls, hk]) (by simp [hk])]
  unfold Node.admits Primitive.accepts
  rw [hk]
  exact congrArg (v.reading ck.coerce).any (funext fun y => (acceptsNumber_options hfinite y).symm)

theorem verdict_integer (hk : n.kind = .integer)
    (hfinite : (numberSchema .plain "integer" n.numberOptions).Everywhere fun b => FiniteBounds b.own)
    (h : lower L ((numberSchema .plain "integer" n.numberOptions).reread f) = .ok x) :
    Verdict ck x v (concluded ck L cx n answer v) := by
  obtain rfl := shape_number hL hf (.inr ⟨rfl, rfl⟩) hfinite h
  refine Verdict.of_eq (Check.verdict_primitive _ rfl rfl) ?_
  rw [concluded_leaf (by simp [Node.calls, hk]) (by simp [hk])]
  unfold Node.admits Primitive.accepts
  rw [hk]
  exact congrArg (fun p : Float → Bool => (v.reading ck.coerce).any fun y => Number.isWhole y && p y)
    (funext fun y => (acceptsNumber_options hfinite y).symm)

theorem verdict_array (he : Expressible n) (hk : n.kind = .array) {c : Nat} {S : Schema} (hc : n.children = [c])
    (hS : S.isAbsent = false) (hmeans : ∀ s, lower L (S.reread f) = .ok s → Means ck L f R c s)
    (hfits : ∀ e ∈ n.calls v, Fits ck L f R e.1 e.2 (answer e.1 e.2)) (h : lower L ((arraySchema n S).reread f) = .ok x) :
    Verdict ck x v (concluded ck L cx n answer v) := by
  have hcounts {k : Int} (hk : k ∈ n.arrayOptions.minItems ∨ k ∈ n.arrayOptions.maxItems) : IsWord k :=
    he.counts k (by simpa [or_assoc] using .inr (.inr hk))
  obtain ⟨item, hitem, rfl⟩ := shape_array hL hf hS (fun k hk => hcounts (.inl hk)) (fun k hk => hcounts (.inr hk)) h
  cases v with
  | array xs =>
    have hcalls : n.calls (.array xs) = xs.map (c, ·) := by simp [Node.calls, hk, hc]
    rw [hcalls] at hfits
    have hitems : List.Forall₂ (fun y b => Verdict ck item y b) xs (xs.map (answer c)) :=
      List.forall₂_map_right_iff.2 (List.forall₂_same.2 fun y hy => hmeans _ hitem _ _ (hfits _ (List.mem_map_of_mem hy)))
    refine Verdict.of_eq (Check.verdict_array (Lowering.lower_present hitem) hitems rfl) ?_
    rw [concluded_all (by simp [hk]), hcalls, List.map_map]
    simp only [Node.admits, hk]
    rfl
  | _ =>
    refine Verdict.of_eq (Check.verdict_array_of_ne rfl rfl rfl) ?_
    rw [concluded_leaf (by simp [Node.calls, hk]) (by simp [hk])]
    simp only [Node.admits, hk]

theorem verdict_tuple (he : Expressible n) (hk : n.kind = .tuple) (hd : cx.options.dialect = .plain) {ss : List Schema}
    (hpresent : ∀ c s, R c s → s.isAbsent = false) (hss : List.Forall₂ R n.children ss) (hrest : n.hasRest = true → ss ≠ [])
    (hfinite : (restSchema cx n ss).Everywhere fun b => FiniteBounds b.own)
    (hfits : ∀ e ∈ n.calls v, Fits ck L f R e.1 e.2 (answer e.1 e.2))
    (h : lower L ((restSchema cx n ss).reread f) = .ok x) : Verdict ck x v (concluded ck L cx n answer v) := by
  obtain ⟨fixed, rest, hform, hfixed, hafter⟩ := restSchema_positions hss hrest
  rw [hform, hd] at h hfinite
  have hbelow := finite_tuple hfinite
  have hpositions : n.positions.length ≤ n.children.length := by
    unfold Node.positions
    split <;> simp
  have hcount : requiredItems cx.graph n.positions ≤ n.positions.length := requiredItems_le.2 (by simp)
  have hword {k : Nat} (hk : k ≤ n.children.length) : IsWord k := by
    have := he.children
    unfold IsWord
    omega
  have hlength := hfixed.length_eq
  have hpresentAfter : ∀ s ∈ rest, s.isAbsent = false := by
    generalize n.rest = r at hafter
    cases hafter with
    | none => simp
    | some hc => simpa using hpresent _ _ hc
  obtain ⟨shapes, beyond, hshapes, hbeyond, rfl⟩ := shape_tuple hL hf hpresentAfter (hword (hcount.trans hpositions))
    (hword (by omega)) h
  have hmeans : List.Forall₂ (Means ck L f R) n.positions shapes :=
    means_all hfixed (fun s hs => hbelow s (List.mem_append_left _ hs)) hshapes
  obtain ⟨hclosed, hmore, hnone⟩ : rest.isNone = n.rest.isNone ∧
      (∀ c ∈ n.rest, Means ck L f R c beyond ∧ beyond.isAbsent = false) ∧ (n.rest = none → beyond.isAbsent = true) := by
    generalize n.rest = r at hafter
    cases hafter with
    | none =>
      obtain rfl := hbeyond
      exact ⟨rfl, by simp, fun _ => rfl⟩
    | @some c s hc =>
      refine ⟨rfl, fun d hd => ?_, by simp⟩
      obtain rfl := Option.mem_some.1 hd
      exact ⟨fun v b hb => hb _ _ hc (hbelow s (by simp)) hbeyond, Lowering.lower_present hbeyond⟩
  cases v with
  | array xs =>
    have hcalls : n.calls (.array xs) =
        n.positions.zip xs ++ n.rest.toList.flatMap fun c => (xs.drop n.positions.length).map (c, ·) := by
      simp [Node.calls, hk]
    rw [hcalls] at hfits
    refine Verdict.of_eq (Check.verdict_tuple (verdict_tuple_items hmeans hmore hnone xs hfits) rfl) ?_
    rw [concluded_all (by simp [hk]), hcalls]
    simp only [Node.admits, hk]
    have hlow : decide ((requiredItems cx.graph n.positions : Int) ≤ (xs.length : Int)) =
        (n.positions.drop xs.length).all cx.graph.isOptional := by
      rw [Bool.eq_iff_iff, decide_eq_true_iff, Int.ofNat_le]
      exact requiredItems_le
    rw [hclosed, ← hmeans.length_eq]
    simp only [withinLimits, Option.all_some, Option.all_none, hlow]
    cases n.rest <;> simp
  | _ =>
    refine Verdict.of_eq (Check.verdict_tuple_of_ne rfl rfl rfl) ?_
    rw [concluded_leaf (by simp [Node.calls, hk]) (by simp [hk])]
    simp only [Node.admits, hk]

theorem verdict_record (he : Expressible n) (hk : n.kind = .record) {c : Nat} {S : Schema} (hc : n.children = [c])
    (hS : S.isAbsent = false) (hmeans : ∀ s, lower L (S.reread f) = .ok s → Means ck L f R c s)
    (hfits : ∀ e ∈ n.calls v, Fits ck L f R e.1 e.2 (answer e.1 e.2)) (h : lower L ((recordSchema .plain n S).reread f) = .ok x) :
    Verdict ck x v (concluded ck L cx n answer v) := by
  obtain ⟨value, hvalue, rfl⟩ := shape_record hL hf hS (he.texts _ (by simp [Node.ownTexts])) h
  cases v with
  | object fs =>
    have hcalls : n.calls (.object fs) = fs.map (c, ·.2) := by simp [Node.calls, hk, hc]
    rw [hcalls] at hfits
    have hbeyond : Check.beyondFields [] { unknown := .checked, keyPattern := n.keyPattern } value fs = fs := by
      simp [Check.beyondFields, Lowering.lower_present hvalue, Check.unknownEntries]
    have hmembers : List.Forall₂ (fun e b => Verdict ck value e.2 b)
        (Check.beyondFields [] { unknown := .checked, keyPattern := n.keyPattern } value fs) (fs.map fun e => answer c e.2) := by
      rw [hbeyond]
      exact List.forall₂_map_right_iff.2 (List.forall₂_same.2 fun e h => hmeans _ hvalue _ _ (hfits _ (List.mem_map_of_mem h)))
    refine Verdict.of_eq (Check.verdict_object .nil hmembers rfl) ?_
    rw [concluded_all (by simp [hk]), hcalls, List.map_map]
    simp only [Node.admits, hk]
    simp [Function.comp_def, Bool.and_comm]
  | _ =>
    refine Verdict.of_eq (Check.verdict_object_of_ne rfl rfl rfl) ?_
    rw [concluded_leaf (by simp [Node.calls, hk]) (by simp [hk])]
    simp only [Node.admits, hk]

theorem verdict_object (he : Expressible n) (hk : n.kind = .object) {fs : List (String × Schema)}
    (hfs : List.Forall₂ (fun f e => e.1 = f.1 ∧ R f.2 e.2) (n.objectOptions.keys.zip n.children) fs)
    (hfinite : ∀ e ∈ fs, e.2.Everywhere fun b => FiniteBounds b.own)
    (hfits : ∀ e ∈ n.calls v, Fits ck L f R e.1 e.2 (answer e.1 e.2))
    (h : lower L ((objectSchema cx n fs).reread f) = .ok x) : Verdict ck x v (concluded ck L cx n answer v) := by
  have hnames : fs.map (·.1) = n.fields.map (·.1) := names_fields hfs
  have hsub : (n.fields.map (·.1)).Sublist n.objectOptions.keys := keys_zip_sublist _ _
  have hkey {k : String} (h : k ∈ n.fields.map (·.1)) : Placeholder.occursIn k = false :=
    he.texts k (by simp [Node.ownTexts, hsub.subset h])
  obtain ⟨fields, xs, hxs, hperm, rfl⟩ := shape_object hL hf (hnames ▸ (he.keys hk).sublist hsub)
    (fun e h => hkey (hnames ▸ List.mem_map_of_mem h))
    (fun k h => hkey ((List.filter_sublist.map _).subset h)) h
  cases v with
  | object vs =>
    have hcalls : n.calls (.object vs) = n.fields.filterMap fun f => (Dict.get? vs f.1).map (f.2, ·) := by
      simp [Node.calls, hk]
    rw [hcalls] at hfits
    obtain ⟨hall, hkeys⟩ := verdicts_fields hfs hfinite hxs hfits
    obtain ⟨bs, hbs, hbsperm⟩ := List.perm_comp_forall₂ hperm.symm hall
    have hbeyond {q : ObjectPolicy} : Check.beyondFields fields q .absent vs = [] := by
      simp [Check.beyondFields, Shape.isAbsent]
    refine Verdict.of_eq (Check.verdict_object hbs (by rw [hbeyond]; exact List.Forall₂.nil) rfl) ?_
    have hanswers : bs.all id = ((n.calls (.object vs)).map fun e => answer e.1 e.2).all id := by
      rw [hcalls, ← all_answers]
      exact hbsperm.all_eq
    have hlisted (k : String) : (fields.map (·.1)).contains k = (n.fields.map (·.1)).contains k := by
      rw [Bool.eq_iff_iff, List.contains_iff_mem, List.contains_iff_mem, ← (hperm.map (·.1)).mem_iff, hkeys]
      rfl
    rw [concluded_all (by simp [hk]), ← hanswers, all_required]
    simp only [Node.admits, hk, hlisted, judgingOf]
    rw [show n.objectOptions.keys.zip n.children = n.fields from rfl]
    cases cx.options.strict || decide (n.objectOptions.unlisted = .reject) <;>
      simp [Bool.and_assoc, Bool.and_comm]
  | _ =>
    refine Verdict.of_eq (Check.verdict_object_of_ne rfl rfl rfl) ?_
    rw [concluded_leaf (by simp [Node.calls, hk]) (by simp [hk])]
    simp only [Node.admits, hk]

theorem verdict_const (he : Expressible n) (hk : n.kind = .const)
    (h : lower L ((constSchema .plain n.constValue).reread f) = .ok x) :
    Verdict ck x v (concluded ck L cx n answer v) := by
  obtain rfl := shape_const hL hf (fun t ht => he.texts t (by simp [Node.ownTexts, ht])) (he.const hk) h
  refine Verdict.of_eq (Check.verdict_enum _ rfl rfl) ?_
  rw [concluded_leaf (by simp [Node.calls, hk]) (by simp [hk])]
  simp [Node.admits, hk]

theorem verdict_enum (he : Expressible n) (hk : n.kind = .enum) {S : Schema} (hS : enumSchema .plain n = .ok S)
    (h : lower L (S.reread f) = .ok x) : Verdict ck x v (concluded ck L cx n answer v) := by
  refine Verdict.of_eq (verdict_listed hL hf hS (fun w hw t ht => he.texts t ?_) h v) ?_
  · exact List.mem_append_right _ (List.mem_flatMap.2 ⟨w, List.mem_cons_of_mem _ hw, ht⟩)
  · rw [concluded_leaf (by simp [Node.calls, hk]) (by simp [hk])]
    simp only [Node.admits, hk]

theorem verdict_union (he : Expressible n) (hk : n.kind = .union) {ss : List Schema} (hss : List.Forall₂ R n.children ss)
    (hfinite : ∀ s ∈ ss, s.Everywhere fun b => FiniteBounds b.own)
    (hfits : ∀ e ∈ n.calls v, Fits ck L f R e.1 e.2 (answer e.1 e.2))
    (h : lower L ((ofBody { anyOf := some ss }).reread f) = .ok x) : Verdict ck x v (concluded ck L cx n answer v) := by
  have hne : ss ≠ [] := by
    rintro rfl
    exact (he.union hk).1 (List.forall₂_nil_right_iff.1 hss)
  obtain ⟨xs, hxs, rfl⟩ := shape_union hL hf hne h
  have hhands : Graph.handsOn n.kind = true := by rw [hk]; rfl
  obtain ⟨hcalls, -⟩ := Graph.handsOn_spec cx.graph (judgingOf ck L cx) hhands v
  rw [hcalls] at hfits
  have hall := verdicts_all (means_all hss hfinite hxs) fun c hc => hfits _ (List.mem_map_of_mem hc)
  refine Verdict.of_eq (Check.verdict_anyOf hall rfl rfl) ?_
  rw [concluded, Graph.concludes, if_pos hk, hcalls, List.map_map]
  rfl

theorem verdict_intersection (hk : n.kind = .intersection) {ss : List Schema} (hss : List.Forall₂ R n.children ss)
    (hfinite : ∀ s ∈ ss, s.Everywhere fun b => FiniteBounds b.own)
    (hfits : ∀ e ∈ n.calls v, Fits ck L f R e.1 e.2 (answer e.1 e.2))
    (h : lower L ((ofBody { allOf := some ss }).reread f) = .ok x) : Verdict ck x v (concluded ck L cx n answer v) := by
  obtain ⟨xs, hxs, rfl⟩ := shape_intersection hL hf h
  have hhands : Graph.handsOn n.kind = true := by rw [hk]; rfl
  obtain ⟨hcalls, hadmits⟩ := Graph.handsOn_spec cx.graph (judgingOf ck L cx) hhands v
  rw [hcalls] at hfits
  have hall := verdicts_all (means_all hss hfinite hxs) fun c hc => hfits _ (List.mem_map_of_mem hc)
  refine Verdict.of_eq (Check.verdict_allShape hall) ?_
  rw [concluded_all (by simp [hk]), hcalls, List.map_map]
  rw [hadmits, Bool.true_and]
  rfl

omit hL hf in
/-- a node that hands the value on has the verdict of its child -/
theorem concluded_sole (hk : n.kind = .optional ∨ n.kind = .validator ∨ n.kind = .ref) {c : Nat} (hc : n.children = [c]) :
    n.calls v = [(c, v)] ∧ concluded ck L cx n answer v = answer c v := by
  have hhands : Graph.handsOn n.kind = true := by rcases hk with hk | hk | hk <;> rw [hk] <;> rfl
  obtain ⟨hcalls, hadmits⟩ := Graph.handsOn_spec cx.graph (judgingOf ck L cx) hhands v
  rw [hc, List.map_singleton] at hcalls
  refine ⟨hcalls, ?_⟩
  rw [concluded_all (by rcases hk with hk | hk | hk <;> simp [hk]), hcalls, hadmits]
  simp

end

/-! ## Documents -/

/-- a reference leads to the shape of a node -/
def Resolves (ck : Check.Context) (L : Lowering.Context) (cx : Context) (O : List Nat) (f : String → String) (ref : String)
    (t : Nat) : Prop :=
  ref ≠ "" ∧ ∃ d T s name, Renders cx O d t T ∧ T.Everywhere (fun b => FiniteBounds b.own) ∧ lower L (T.reread f) = .ok s ∧
    Lowering.reference L ref = .ok (.ref {} name) ∧ ck.program.target? name = some s

/-- a graph that the plain dialect expresses in full -/
structure Plain (cx : Context) : Prop where
  numbered : cx.graph.Numbered
  nodes : ∀ id n, cx.graph.get? id = some n → Expressible n
  dialect : cx.options.dialect = .plain

/-- a document that is read back and lowered, with references that lead to their nodes -/
structure Setting (ck : Check.Context) (L : Lowering.Context) (cx : Context) (O : List Nat) (f : String → String) : Prop
    extends Plain cx where
  lowered : L.options.dialect = .plain
  keeps : KeepsPlain f
  self : ∀ t ∈ cx.self, Resolves ck L cx O f "#" t
  definition : ∀ t ∈ O, Resolves ck L cx O f (f (pointer t)) t

section

variable {ck : Check.Context} {L : Lowering.Context} {cx : Context} {O : List Nat} {f : String → String} {n : Node} {v : Value}
  {x : Shape} {answer : Nat → Value → Bool}

/-- the renderings of a node, however deep -/
def Rendered (cx : Context) (O : List Nat) (id : Nat) (s : Schema) : Prop := ∃ d, Renders cx O d id s

theorem Plain.noCustom (h : Plain cx) : NoCustom cx.graph := fun id n hn => (h.nodes id n hn).custom

/-- a reference has the verdict of its target -/
theorem verdict_reference {ref : String} {t : Nat} (ht : Resolves ck L cx O f ref t)
    (hfits : Fits ck L f (Rendered cx O) t v (answer t v)) (h : Lowering.reference L ref = .ok x) :
    Verdict ck x v (answer t v) := by
  obtain ⟨-, d, T, s, name, hT, hfinite, hs, href, htarget⟩ := ht
  rw [href] at h
  obtain rfl := Except.ok.inj h
  exact Check.verdict_ref htarget (hfits T s ⟨d, hT⟩ hfinite hs) rfl rfl

/-- **One node.** What a node is rendered as has the verdict that the node has. -/
theorem verdict_forms (hset : Setting ck L cx O f) (he : Expressible n) {S : Schema}
    (hS : Forms cx O (Rendered cx O) n S) (hfinite : S.Everywhere fun b => FiniteBounds b.own)
    (hfits : ∀ e ∈ n.calls v, Fits ck L f (Rendered cx O) e.1 e.2 (answer e.1 e.2)) (h : lower L (S.reread f) = .ok x) :
    Verdict ck x v (concluded ck L cx n answer v) := by
  have hL := hset.lowered
  have hf := hset.keeps
  have hpresent (c : Nat) (s : Schema) : Rendered cx O c s → s.isAbsent = false :=
    fun ⟨_, hd⟩ => hd.isAbsent hset.numbered hset.noCustom
  have hbelow {b : Body} (hb : S = ofBody b) {T : Schema} (hT : T ∈ b.below) : T.Everywhere fun b => FiniteBounds b.own :=
    (Schema.everywhere_ofBody.1 (hb ▸ hfinite)).2 T hT
  cases hS with
  | string hk => exact verdict_text hL hf he hk h
  | number hk =>
    rw [hset.dialect] at hfinite h
    exact verdict_number hL hf hk hfinite h
  | integer hk =>
    rw [hset.dialect] at hfinite h
    exact verdict_integer hL hf hk hfinite h
  | boolean hk =>
    obtain rfl := shape_boolean hL hf h
    refine Verdict.of_eq (Check.verdict_primitive _ rfl rfl) ?_
    rw [concluded_leaf (by simp [Node.calls, hk]) (by simp [hk])]
    cases v <;> simp [Node.admits, hk, Primitive.accepts, judgingOf]
  | null hk =>
    rw [hset.dialect] at h
    obtain rfl := shape_null hL hf h
    refine Verdict.of_eq (Check.verdict_primitive _ rfl rfl) ?_
    rw [concluded_leaf (by simp [Node.calls, hk]) (by simp [hk])]
    simp [Node.admits, hk, Primitive.accepts]
  | unknown hk =>
    obtain rfl := shape_unknown hL hf h
    refine Verdict.of_eq (Check.verdict_any rfl rfl) ?_
    rw [concluded_leaf (by simp [Node.calls, hk]) (by simp [hk])]
    simp [Node.admits, hk]
  | @object fs hk hlen hfs =>
    refine verdict_object hL hf he hk hfs (fun e he' => hbelow rfl ?_) hfits h
    have hmem := mem_ofList_fields (he.keys hk) hfs he'
    simp only [Schema.mem_below, Option.getD_some]
    exact .inl (List.mem_map_of_mem hmem)
  | @array c T hk hc hs =>
    refine verdict_array hL hf he hk hc (hpresent _ _ hs) (fun s hlow w b hb => hb T s hs (hbelow rfl ?_) hlow) hfits h
    refine Schema.mem_below.2 (.inr (.inr (.inr (.inl ?_))))
    simp [Schema.Items.toList, Schema.Elements.ofItems, Schema.Elements.toList]
  | tuple hk hss hrest => exact verdict_tuple hL hf he hk hset.dialect hpresent hss hrest hfinite hfits h
  | @record c T hk hc hs =>
    rw [hset.dialect] at hfinite h
    refine verdict_record hL hf he hk hc (hpresent _ _ hs) (fun s hlow w b hb => hb T s hs ?_ hlow) hfits h
    refine (Schema.everywhere_ofBody.1 hfinite).2 T (Schema.mem_below.2 (.inr (.inl ?_)))
    simp [Schema.Extent.toList, Schema.Beyond.ofExtent, Schema.Beyond.toList]
  | union hk hd hss =>
    exact verdict_union hL hf he hk hss (fun s hs => hbelow rfl (Schema.mem_below.2 (by simp [hs]))) hfits h
  | choice hk hd => exact absurd (he.union hk).2 hd
  | intersection hk hss =>
    exact verdict_intersection hL hf hk hss (fun s hs => hbelow rfl (Schema.mem_below.2 (by simp [hs]))) hfits h
  | enum hk hs =>
    rw [hset.dialect] at hs
    exact verdict_enum hL hf he hk hs h
  | const hk =>
    rw [hset.dialect] at h
    exact verdict_const hL hf he hk h
  | @self t hk hc ht =>
    obtain ⟨hcalls, heq⟩ := concluded_sole (.inr (.inr hk)) hc
    rw [heq]
    exact verdict_reference (hset.self t ht) (hfits (t, v) (by simp [hcalls]))
      (shape_reference hL (hf "#" (by decide)) (by decide) h)
  | @definition t hk hc ht ho =>
    obtain ⟨hcalls, heq⟩ := concluded_sole (.inr (.inr hk)) hc
    rw [heq]
    exact verdict_reference (hset.definition t ho) (hfits (t, v) (by simp [hcalls]))
      (shape_reference hL rfl (hset.definition t ho).1 h)
  | @validator c T hk hc hs =>
    obtain ⟨hcalls, heq⟩ := concluded_sole (.inr (.inl hk)) hc
    rw [heq]
    exact hfits (c, v) (by simp [hcalls]) S x hs hfinite h
  | custom hk => exact absurd hk he.custom

end

end Schemata.Document
