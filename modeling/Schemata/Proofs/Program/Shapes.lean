import Mathlib.Tactic
import Schemata.Proofs.Number.Order
import Schemata.Proofs.Program.Lowering

/-!
Shapes of plain levels.

In the plain dialect, a level without rules has the shape of its one type (`lower_typed`), of the values that it lists
(`lower_listed`), or of its compositions (`lower_composed`). What is lowered is never missing (`lower_present`).
-/

namespace Schemata.Lowering

open Schema (Body ofBody)

variable {L : Context} {b : Body}

theorem mapBase_eq {f : Base → Base} (hf : ∀ b, f b = b) (s : Shape) : s.mapBase f = s := by
  cases s <;> simp only [Shape.mapBase, hf]

/-- no rules are checked on a level without rules, and null is accepted where it was among the types -/
theorem finished_plain (hL : L.options.dialect = .plain) {k : Keywords} (hr : k.rules = []) (nullable : Bool) (s : Shape) :
    finished L k nullable s = .ok (s.mapBase fun base => { base with nullable := base.nullable || nullable }) := by
  unfold finished
  rw [hr, hL]
  change Except.ok (s.mapBase _) = _
  congr 1
  cases s <;> simp [Shape.mapBase]

theorem finished_same (hL : L.options.dialect = .plain) {k : Keywords} (hr : k.rules = []) (s : Shape) :
    finished L k false s = .ok s := by
  rw [finished_plain hL hr, mapBase_eq]
  simp

/-- a level that is no reference and has no rules -/
structure PlainLevel (L : Context) (b : Body) : Prop where
  dialect : L.options.dialect = .plain
  ref : b.own.ref = ""
  rules : b.own.rules = []
  oneOf : b.oneOf = none

theorem PlainLevel.lower (h : PlainLevel L b) : lower L (ofBody b) = (do
    let (shapes, nullable) ← typedShapes ((impliedTypes b).length > 1) (typedShape L b) (impliedTypes b)
    let anys ← lowerGiven L b.anyOf
    let alls ← lowerGiven L b.allOf
    return (allShape (valueParts (impliedTypes b) shapes (listed b.own) ++ (if anys.isEmpty then [] else [.anyOf {} anys])
      ++ alls)).mapBase fun base => { base with nullable := base.nullable || nullable }) := by
  rw [lower_ofBody, if_neg (not_not.2 h.ref), bodyShape]
  refine bind_congr fun x => bind_congr fun anys => ?_
  rw [h.oneOf]
  change (lowerGiven L b.allOf >>= fun alls => finished L b.own x.2 (allShape (partsOf b x.1 anys [] {} alls))) = _
  refine bind_congr fun alls => ?_
  rw [finished_plain h.dialect h.rules, partsOf]
  simp only [List.isEmpty_nil, if_true, List.append_nil]
  rfl

/-- a level of one type with nothing else -/
theorem lower_typed (h : PlainLevel L b) {t : String} (ht : impliedTypes b = [t]) (hlisted : listed b.own = [])
    (hany : b.anyOf = none) (hall : b.allOf = none) : lower L (ofBody b) = typedShape L b t := by
  rw [h.lower, ht, hlisted, hany, hall]
  simp only [List.length_singleton, gt_iff_lt, lt_self_iff_false, decide_false, typedShapes, Bool.and_false,
    Bool.false_eq_true, if_false]
  cases typedShape L b t with
  | error e => rfl
  | ok s =>
    change Except.ok (s.mapBase _) = Except.ok s
    rw [mapBase_eq]
    simp

/-- a level of compositions only -/
theorem lower_composed (h : PlainLevel L b) (ht : impliedTypes b = []) (hlisted : listed b.own = []) :
    lower L (ofBody b) = (do
      let anys ← lowerGiven L b.anyOf
      let alls ← lowerGiven L b.allOf
      return allShape ((if anys.isEmpty then [] else [.anyOf {} anys]) ++ alls)) := by
  rw [h.lower, ht, hlisted]
  change (lowerGiven L b.anyOf >>= fun anys => lowerGiven L b.allOf >>= fun alls => _) = _
  refine bind_congr fun anys => bind_congr fun alls => ?_
  refine congrArg Except.ok ?_
  rw [mapBase_eq]
  · rfl
  · simp

/-- a level that lists values, without a type -/
theorem lower_values (h : PlainLevel L b) (ht : impliedTypes b = []) {vs : List Value} (hlisted : listed b.own = vs)
    (hvs : vs ≠ []) (hany : b.anyOf = none) (hall : b.allOf = none) : lower L (ofBody b) = .ok (.enum {} vs) := by
  rw [h.lower, ht, hlisted, hany, hall]
  have hempty : vs.isEmpty = false := by simpa using hvs
  simp [typedShapes, valueParts, hempty, conforms, lowerGiven, allShape, Shape.mapBase, pure, Except.pure, bind, Except.bind]

/-- a level that lists values of a type; the type is checked too where the values could be of another -/
theorem lower_typedValues (h : PlainLevel L b) {t : String} {null : Bool} (hnull : t ≠ "null")
    (ht : impliedTypes b = if null then [t, "null"] else [t]) {vs : List Value} (hlisted : listed b.own = vs)
    (hvs : vs ≠ []) (hany : b.anyOf = none) (hall : b.allOf = none) {s : Shape} (hs : typedShape L b t = .ok s) :
    lower L (ofBody b) = .ok (if conforms (impliedTypes b) vs then .enum { nullable := null } vs
      else .allOf { nullable := null } [s, .enum {} vs]) := by
  have hshapes : typedShapes ((impliedTypes b).length > 1) (typedShape L b) (impliedTypes b) = .ok ([s], null) := by
    rw [ht]
    cases null <;> simp [typedShapes, hs, hnull, pure, Except.pure, bind, Except.bind, Except.map]
  rw [h.lower, hlisted, hshapes, hany, hall]
  have hempty : vs.isEmpty = false := by simpa using hvs
  by_cases hc : conforms (impliedTypes b) vs = true <;>
    simp [valueParts, hempty, hc, lowerGiven, allShape, anyShape, Shape.mapBase, pure, Except.pure, bind, Except.bind]

/-! ## Types -/

theorem stringShape_ok {k : Keywords} {x : Shape} (h : stringShape L k = .ok x) : x = .primitive {} {
    type := .string, minLength := k.minLength, maxLength := k.maxLength, pattern := k.pattern
    format := if (Format.ofName? k.format).isSome && L.options.formats then k.format else "" } := by
  unfold stringShape at h
  by_cases hp : k.pattern ≠ ""
  · rw [if_pos hp] at h
    obtain ⟨_, _, h⟩ := except_bind_ok h
    exact (Except.ok.inj h).symm
  · rw [if_neg hp] at h
    exact (Except.ok.inj h).symm

theorem numberShape_ok {t : Scalar} {k : Keywords} {x : Shape} (h : numberShape t k = .ok x) : x = .primitive {} {
    type := t
    min := (bound (fun x y => x ≥ y) k.minimum k.exclusiveMinimum).1
    max := (bound (fun x y => x ≤ y) k.maximum k.exclusiveMaximum).1
    exclusiveMin := (bound (fun x y => x ≥ y) k.minimum k.exclusiveMinimum).2
    exclusiveMax := (bound (fun x y => x ≤ y) k.maximum k.exclusiveMaximum).2
    multipleOf := k.multipleOf } := by
  unfold numberShape at h
  simp only at h
  split at h
  · obtain ⟨_, h1, -⟩ := except_bind_ok h
    cases h1
  · exact (Except.ok.inj h).symm

/-- of an inclusive and an exclusive lower bound, the tighter one is enough -/
theorem lower_bound {low strict : Option Float} (hlow : ∀ x, low = some x → Number.isFinite x = true)
    (hstrict : ∀ x, strict = some x → Number.isFinite x = true) (x : Float) :
    (bound (fun x y => x ≥ y) low (strict.map .float)).1.all (fun m =>
      !(if (bound (fun x y => x ≥ y) low (strict.map .float)).2 then decide (x ≤ m) else decide (x < m))) =
      (low.all (fun m => !decide (x < m)) && strict.all fun m => !decide (x ≤ m)) := by
  cases strict with
  | none => simp [bound]
  | some e =>
    cases low with
    | none => simp [bound]
    | some i =>
      by_cases h : i ≤ e
      · have himp : x < i → x ≤ e := fun hx => Number.le_of_lt (Number.lt_of_lt_of_le hx h)
        by_cases hx : x ≤ e <;> by_cases hi : x < i <;> simp_all [bound]
      · have hlt := Number.lt_of_not_le (hlow i rfl) (hstrict e rfl) h
        have himp : x ≤ e → x < i := fun hx => Number.lt_of_le_of_lt hx hlt
        by_cases hx : x ≤ e <;> by_cases hi : x < i <;> simp_all [bound]

theorem upper_bound {high strict : Option Float} (hhigh : ∀ x, high = some x → Number.isFinite x = true)
    (hstrict : ∀ x, strict = some x → Number.isFinite x = true) (x : Float) :
    (bound (fun x y => x ≤ y) high (strict.map .float)).1.all (fun m =>
      !(if (bound (fun x y => x ≤ y) high (strict.map .float)).2 then decide (x ≥ m) else decide (x > m))) =
      (high.all (fun m => !decide (m < x)) && strict.all fun m => !decide (m ≤ x)) := by
  cases strict with
  | none => simp [bound]
  | some e =>
    cases high with
    | none => simp [bound]
    | some i =>
      by_cases h : e ≤ i
      · have himp : i < x → e ≤ x := fun hx => Number.le_of_lt (Number.lt_of_le_of_lt h hx)
        by_cases hx : e ≤ x <;> by_cases hi : i < x <;> simp_all [bound]
      · have hlt := Number.lt_of_not_le (hstrict e rfl) (hhigh i rfl) h
        have himp : e ≤ x → i < x := fun hx => Number.lt_of_lt_of_le hlt hx
        by_cases hx : e ≤ x <;> by_cases hi : i < x <;> simp_all [bound]

theorem objectShape_ok {x : Shape} (h : objectShape L b = .ok x) :
    ∃ fields unknown extra, lowerOptional L b.properties = .ok fields ∧ lowerExtent L b.additional = .ok (unknown, extra) ∧
      x = .object {} fields extra {
        required := sortedSet b.own.required
        unknown := match unknown with
          | none => .allow
          | some true => .checked
          | some false => .strict
        keyPattern := keyPatternOf b } := by
  obtain ⟨fields, hfields, h⟩ := except_bind_ok h
  obtain ⟨⟨unknown, extra⟩, hextra, h⟩ := except_bind_ok h
  refine ⟨fields, unknown, extra, hfields, hextra, ?_⟩
  simp only at h
  split at h
  · obtain ⟨_, _, h⟩ := except_bind_ok h
    exact (Except.ok.inj h).symm
  · exact (Except.ok.inj h).symm

/-- the shape of a list whose items have one shape -/
theorem arrayShape_single {s : Schema} (hb : b.items = .single s) (hs : s.isAbsent = false) {x : Shape}
    (h : arrayShape L b = .ok x) : ∃ item, lower L s = .ok item ∧ x = .array {} item {
      minItems := b.own.minItems, maxItems := b.own.maxItems, unique := b.own.uniqueItems } := by
  obtain ⟨⟨o, single⟩, hitems, h⟩ := except_bind_ok h
  rw [hb, lowerItems, hs] at hitems
  obtain ⟨item, hitem, heq⟩ := except_map_ok hitems
  cases heq
  exact ⟨_, hitem, (Except.ok.inj h).symm⟩

/-- the shape of a list whose positions have shapes -/
theorem arrayShape_tuple {ss : List Schema} (hb : b.items = .tuple ss) {x : Shape} (h : arrayShape L b = .ok x) :
    ∃ shapes beyond rest, lowerList L ss = .ok shapes ∧ lowerExtent L b.additionalItems = .ok (beyond, rest) ∧
      x = .tuple {} shapes rest {
        minItems := b.own.minItems.getD 0
        maxItems := if beyond == some false then b.own.maxItems.filter fun (n : Int) => n < shapes.length else b.own.maxItems
        closed := beyond == some false
        unique := b.own.uniqueItems } := by
  obtain ⟨⟨o, single⟩, hitems, h⟩ := except_bind_ok h
  rw [hb, lowerItems] at hitems
  obtain ⟨shapes, hshapes, heq⟩ := except_map_ok hitems
  cases heq
  obtain ⟨⟨beyond, rest⟩, hrest, h⟩ := except_bind_ok h
  exact ⟨_, beyond, rest, hshapes, hrest, (Except.ok.inj h).symm⟩

/-! ## Shapes below -/

theorem lowerList_ok {ss : List Schema} {xs : List Shape} (h : lowerList L ss = .ok xs) :
    List.Forall₂ (fun s x => lower L s = .ok x) ss xs := by
  induction ss generalizing xs with
  | nil =>
    cases h
    exact .nil
  | cons s ss ih =>
    obtain ⟨x, hx, h⟩ := except_bind_ok h
    obtain ⟨ys, hys, h⟩ := except_bind_ok h
    cases h
    exact .cons hx (ih hys)

theorem lowerGiven_ok {o : Option (List Schema)} {xs : List Shape} (h : lowerGiven L o = .ok xs) :
    List.Forall₂ (fun s x => lower L s = .ok x) (o.getD []) xs := by
  cases o with
  | none =>
    cases h
    exact .nil
  | some ss => exact lowerList_ok h

theorem lowerFields_ok {fs : List (String × Schema)} {xs : List (String × Shape)} (h : lowerFields L fs = .ok xs) :
    List.Forall₂ (fun e x => x.1 = e.1 ∧ lower L e.2 = .ok x.2) fs xs := by
  induction fs generalizing xs with
  | nil =>
    cases h
    exact .nil
  | cons e fs ih =>
    obtain ⟨x, hx, h⟩ := except_bind_ok h
    obtain ⟨ys, hys, h⟩ := except_bind_ok h
    cases h
    exact .cons ⟨rfl, hx⟩ (ih hys)

theorem lowerOptional_ok {ps : Option (List (String × Schema))} {fields : List (String × Shape)}
    (h : lowerOptional L ps = .ok fields) : List.Forall₂ (fun e f => f.1 = e.1 ∧ lower L e.2 = .ok f.2) (ps.getD []) fields := by
  cases ps with
  | none =>
    cases h
    exact .nil
  | some fs => exact lowerFields_ok h

/-- the shape of a reference is a reference -/
theorem reference_ok {ref : String} {x : Shape} (h : reference L ref = .ok x) : ∃ name, x = .ref {} name := by
  unfold reference at h
  split at h
  · exact ⟨"", (Except.ok.inj h).symm⟩
  · split at h
    · cases h
    · split at h
      · cases h
      · exact ⟨_, (Except.ok.inj h).symm⟩

/-! ## Nothing is missing -/

theorem isAbsent_mapBase (f : Base → Base) (s : Shape) : (s.mapBase f).isAbsent = s.isAbsent := by
  cases s <;> rfl

theorem present_finished {k : Keywords} {nullable : Bool} {s x : Shape} (hs : s.isAbsent = false)
    (h : finished L k nullable s = .ok x) : x.isAbsent = false := by
  obtain ⟨_, _, h⟩ := except_bind_ok h
  rw [← Except.ok.inj h, isAbsent_mapBase, hs]

theorem present_typed {t : String} {x : Shape} (h : typedShape L b t = .ok x) : x.isAbsent = false := by
  unfold typedShape at h
  split at h
  · rw [stringShape_ok h]
    rfl
  · rw [numberShape_ok h]
    rfl
  · rw [numberShape_ok h]
    rfl
  · rw [← Except.ok.inj h]
    rfl
  · rw [← Except.ok.inj h]
    rfl
  · obtain ⟨_, _, _, _, _, rfl⟩ := objectShape_ok h
    rfl
  · obtain ⟨⟨_ | _, _⟩, _, h⟩ := except_bind_ok h
    · rw [← Except.ok.inj h]
      rfl
    · obtain ⟨_, _, h⟩ := except_bind_ok h
      rw [← Except.ok.inj h]
      rfl
  · cases h

theorem present_typedShapes {several : Bool} {ts : List String} {ss : List Shape} {nullable : Bool}
    (h : typedShapes several (typedShape L b) ts = .ok (ss, nullable)) : ∀ s ∈ ss, s.isAbsent = false := by
  induction ts generalizing ss nullable with
  | nil =>
    cases h
    simp
  | cons t ts ih =>
    rw [typedShapes] at h
    split at h
    · obtain ⟨⟨ss', n⟩, hss, heq⟩ := except_map_ok h
      cases heq
      exact ih hss
    · obtain ⟨s, hs, h⟩ := except_bind_ok h
      obtain ⟨⟨ss', n⟩, hss, h⟩ := except_bind_ok h
      cases h
      exact List.forall_mem_cons.2 ⟨present_typed hs, ih hss⟩

theorem present_valueParts {types : List String} {ss : List Shape} (hs : ∀ s ∈ ss, s.isAbsent = false) (vs : List Value) :
    ∀ s ∈ valueParts types ss vs, s.isAbsent = false := by
  have hany : (anyShape ss).isAbsent = false := by
    unfold anyShape
    split
    · exact hs _ (by simp)
    · rfl
  unfold valueParts
  split_ifs <;> simp [hany] <;> rfl

theorem present_allShape {ss : List Shape} (hs : ∀ s ∈ ss, s.isAbsent = false) : (allShape ss).isAbsent = false := by
  unfold allShape
  split
  · rfl
  · exact hs _ (by simp)
  · rfl

theorem present_list {ss : List Schema} {xs : List Shape} (hs : ∀ s ∈ ss, ∀ x, lower L s = .ok x → x.isAbsent = false)
    (h : lowerList L ss = .ok xs) : ∀ x ∈ xs, x.isAbsent = false := by
  induction ss generalizing xs with
  | nil =>
    cases h
    simp
  | cons s ss ih =>
    obtain ⟨x, hx, h⟩ := except_bind_ok h
    obtain ⟨ys, hys, h⟩ := except_bind_ok h
    cases h
    exact List.forall_mem_cons.2 ⟨hs s (by simp) x hx, ih (fun t ht => hs t (List.mem_cons_of_mem s ht)) hys⟩

/-- **No schema is lowered to a missing shape.** -/
theorem lower_present {s : Schema} {x : Shape} (h : lower L s = .ok x) : x.isAbsent = false := by
  induction s using Schema.treeInduction generalizing x with
  | absent =>
    rw [← Except.ok.inj h]
    rfl
  | node b ih =>
    rw [lower_ofBody] at h
    split at h
    · obtain ⟨y, hy, h⟩ := except_bind_ok h
      obtain ⟨name, rfl⟩ := reference_ok hy
      exact present_finished rfl h
    · obtain ⟨⟨shapes, nullable⟩, hshapes, h⟩ := except_bind_ok h
      obtain ⟨anys, _, h⟩ := except_bind_ok h
      obtain ⟨ones, _, h⟩ := except_bind_ok h
      obtain ⟨d, _, h⟩ := except_bind_ok h
      obtain ⟨alls, halls, h⟩ := except_bind_ok h
      refine present_finished (present_allShape ?_) h
      have hall : ∀ s ∈ alls, s.isAbsent = false := by
        cases hb : b.allOf with
        | none =>
          rw [hb] at halls
          cases halls
          simp
        | some ss =>
          rw [hb] at halls
          exact present_list (fun s hs x hx => ih.allOf s (by rwa [hb]) hx) halls
      intro s hs
      simp only [partsOf, List.mem_append] at hs
      rcases hs with ((hs | hs) | hs) | hs
      · exact present_valueParts (present_typedShapes hshapes) _ s hs
      · split at hs <;> simp at hs
        rw [hs]
        rfl
      · split at hs <;> simp at hs
        rw [hs]
        rfl
      · exact hall s hs

end Schemata.Lowering
