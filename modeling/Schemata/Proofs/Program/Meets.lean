import Mathlib.Tactic
import Schemata.Proofs.Dict
import Schemata.Proofs.Program.Reached
import Schemata.Proofs.Program.Verdict
import Schemata.Proofs.Schema.Bounds

/-!
What the keywords of a type ask for.

`Meets` reads the keywords of one type off a schema: the type of the value, its bounds, and for members and items a
judgement `J` about the schemas below. `typed_tells` is the bridge to programs: the shape of a type accepts a value just
when it meets the keywords, provided the shapes below tell what `J` says of their schemas.
-/

namespace Schemata

namespace Check

variable {cx : Context} {s : Shape} {v : Value} {P Q : Prop}

/-- some walk of the shape over the value ends, and finds nothing wrong exactly when the condition holds -/
def Tells (cx : Context) (s : Shape) (v : Value) (P : Prop) : Prop := ∃ b, Verdict cx s v b ∧ (b = true ↔ P)

theorem Verdict.tells {b : Bool} (h : Verdict cx s v b) (hb : b = true ↔ P) : Tells cx s v P := ⟨b, h, hb⟩

theorem Tells.congr (h : Tells cx s v P) (hPQ : P ↔ Q) : Tells cx s v Q := by
  obtain ⟨b, hb, hP⟩ := h
  exact ⟨b, hb, hP.trans hPQ⟩

/-- several verdicts at once -/
theorem tells_all {α γ : Type} {as : List α} {cs : List γ} {s : γ → Shape} {v : γ → Value} {P : α → Prop}
    (h : List.Forall₂ (fun a c => Tells cx (s c) (v c) (P a)) as cs) :
    ∃ bs, List.Forall₂ (fun c b => Verdict cx (s c) (v c) b) cs bs ∧ (bs.all id = true ↔ ∀ a ∈ as, P a) ∧
      (bs.any id = true ↔ ∃ a ∈ as, P a) := by
  induction h with
  | nil => exact ⟨[], .nil, by simp, by simp⟩
  | cons hac _ ih =>
    obtain ⟨b, hb, hP⟩ := hac
    obtain ⟨bs, hbs, hall, hany⟩ := ih
    refine ⟨b :: bs, .cons hb hbs, ?_, ?_⟩
    · rw [List.all_cons, Bool.and_eq_true, id, hP, hall, List.forall_mem_cons]
    · rw [List.any_cons, Bool.or_eq_true, id, hP, hany, List.exists_mem_cons_iff]

theorem distinct_iff {xs : List Value} : distinct xs = true ↔ xs.Pairwise fun x y => Value.equal y x = false := by
  induction xs with
  | nil => simp [distinct]
  | cons x xs ih => simp [distinct, ih]

theorem withinLimits_iff {got : Nat} {min max : Option Int} :
    withinLimits got min max = true ↔ (∀ n, min = some n → n ≤ (got : Int)) ∧ ∀ n, max = some n → (got : Int) ≤ n := by
  cases min <;> cases max <;> simp [withinLimits]

/-- a list without a shape for its items -/
theorem verdict_array_open {base : Base} {item : Shape} {l : ArrayLimits} {xs : List Value} (hi : item.isAbsent = true)
    (hr : base.rules = []) : Verdict cx (.array base item l) (.array xs)
      (withinLimits xs.length l.minItems l.maxItems && (!l.unique || distinct xs)) := by
  refine verdict_of_own (n := 0) (Bool.and_false _) hr fun p => ?_
  simp only [own, hi, if_true, Option.map_some]
  rw [isEmpty_append, isEmpty_length, isEmpty_ifUnique]

end Check

namespace Lowering

open Schema (Body ofBody FiniteBounds)
open Check (Verdict Tells)

/-! ## The keywords of a type -/

structure MeetsText (o : CompileOptions) (k : Keywords) (s : String) : Prop where
  minLength : ∀ n, k.minLength = some n → n ≤ (s.length : Int)
  maxLength : ∀ n, k.maxLength = some n → (s.length : Int) ≤ n
  pattern : k.pattern ≠ "" → Check.matchesText k.pattern s = true
  format : o.formats = true → ∀ f, Format.ofName? k.format = some f → f.holds s = true

/-- an exclusive bound is a number of its own, or makes the other bound exclusive -/
structure MeetsNumber (k : Keywords) (x : Float) : Prop where
  minimum : ∀ m, k.minimum = some m → ¬ x < m
  maximum : ∀ m, k.maximum = some m → ¬ m < x
  exclusiveMinimum : ∀ m, k.exclusiveMinimum = some (.float m) ∨ k.exclusiveMinimum = some (.bool true) ∧ k.minimum = some m →
    ¬ x ≤ m
  exclusiveMaximum : ∀ m, k.exclusiveMaximum = some (.float m) ∨ k.exclusiveMaximum = some (.bool true) ∧ k.maximum = some m →
    ¬ m ≤ x
  multipleOf : ∀ m, k.multipleOf = some m → Check.isMultiple x m = true

/-- the keys that a schema lists properties for -/
def keysOf (b : Body) : List String := (b.properties.getD []).map (·.1)

structure MeetsMembers (J : Schema → Value → Prop) (b : Body) (fs : Dict Value) : Prop where
  required : ∀ k ∈ b.own.required, Dict.has fs k = true
  properties : ∀ e ∈ b.properties.getD [], ∀ x, Dict.get? fs e.1 = some x → J e.2 x
  closed : b.additional = .flag false → ∀ e ∈ fs, e.1 ∈ keysOf b
  additional : ∀ s, b.additional = .sub s → ∀ e ∈ fs, e.1 ∉ keysOf b → J s e.2
  keys : keyPatternOf b ≠ "" → ∀ e ∈ fs, Check.matchesText (keyPatternOf b) e.1 = true

structure MeetsItems (J : Schema → Value → Prop) (b : Body) (xs : List Value) : Prop where
  minItems : ∀ n, b.own.minItems = some n → n ≤ (xs.length : Int)
  maxItems : ∀ n, b.own.maxItems = some n → (xs.length : Int) ≤ n
  unique : b.own.uniqueItems = true → xs.Pairwise fun x y => Value.equal y x = false
  single : ∀ s, b.items = .single s → ∀ x ∈ xs, J s x
  positions : ∀ ss, b.items = .tuple ss → ∀ e ∈ xs.zip ss, J e.2 e.1
  closed : ∀ ss, b.items = .tuple ss → b.additionalItems = .flag false → xs.length ≤ ss.length
  additional : ∀ ss, b.items = .tuple ss → ∀ s, b.additionalItems = .sub s → ∀ x ∈ xs.drop ss.length, J s x

/-- a value is of a type, and meets the keywords of the schema that are for this type -/
def Meets (J : Schema → Value → Prop) (o : CompileOptions) (b : Body) (v : Value) (t : String) : Prop :=
  match t with
  | "string" => ∃ s, v = .string s ∧ MeetsText o b.own s
  | "number" => ∃ x, v.reading o.coerce = some x ∧ MeetsNumber b.own x
  | "integer" => ∃ x, v.reading o.coerce = some x ∧ Number.isWhole x = true ∧ MeetsNumber b.own x
  | "boolean" => (∃ c, v = .bool c) ∨ o.coerce = true ∧ (v = .string "true" ∨ v = .string "false")
  | "null" => v = .null
  | "object" => ∃ fs, v = .object fs ∧ MeetsMembers J b fs
  | "array" => ∃ xs, v = .array xs ∧ MeetsItems J b xs
  | _ => False

/-! ## Scalars -/

theorem acceptsText_iff {L : Context} {k : Keywords} {s : String} : Primitive.acceptsText {
      type := .string, minLength := k.minLength, maxLength := k.maxLength, pattern := k.pattern
      format := if (Format.ofName? k.format).isSome && L.options.formats then k.format else "" } s = true ↔
    MeetsText L.options k s := by
  have hnone : Format.ofName? "" = none := by decide
  have hformat : (Format.ofName? (if (Format.ofName? k.format).isSome && L.options.formats then k.format else "")).all
      (·.holds s) = true ↔ (L.options.formats = true → ∀ f, Format.ofName? k.format = some f → f.holds s = true) := by
    cases hf : Format.ofName? k.format with
    | none => simp [hnone]
    | some f => cases L.options.formats <;> simp [hnone, hf]
  change (withinLimits s.length k.minLength k.maxLength && (decide (k.pattern = "") || Check.matchesText k.pattern s) &&
    (Format.ofName? (if (Format.ofName? k.format).isSome && L.options.formats then k.format else "")).all (·.holds s)) = true ↔ _
  rw [Bool.and_eq_true, Bool.and_eq_true, hformat, Check.withinLimits_iff, Bool.or_eq_true, decide_eq_true_eq]
  constructor
  · rintro ⟨⟨⟨hmin, hmax⟩, hpattern⟩, hformat⟩
    exact ⟨hmin, hmax, fun hne => hpattern.resolve_left hne, hformat⟩
  · intro h
    exact ⟨⟨⟨h.minLength, h.maxLength⟩, or_iff_not_imp_left.2 h.pattern⟩, h.format⟩

theorem lower_bound_iff {low : Option Float} {strict : Option Value} (hlow : ∀ x, low = some x → Number.isFinite x = true)
    (hstrict : ∀ x, strict = some (.float x) → Number.isFinite x = true) (x : Float) :
    (bound (fun x y => x ≥ y) low strict).1.all (fun m =>
      !(if (bound (fun x y => x ≥ y) low strict).2 then decide (x ≤ m) else decide (x < m))) = true ↔
    (∀ m, low = some m → ¬ x < m) ∧ ∀ m, strict = some (.float m) ∨ strict = some (.bool true) ∧ low = some m → ¬ x ≤ m := by
  rcases strict with _ | w
  · cases low <;> simp [bound]
  · cases w with
    | float e =>
      have h := @lower_bound low (some e) hlow (fun y hy => hstrict y (by simpa using hy)) x
      rw [Option.map_some] at h
      rw [h]
      cases low <;> simp
    | bool c =>
      cases low with
      | none => cases c <;> simp [bound]
      | some m =>
        have himp : x < m → x ≤ m := Number.le_of_lt
        cases c
        · simp [bound]
        · by_cases hle : x ≤ m <;> simp_all [bound]
    | _ => cases low <;> simp [bound]

theorem upper_bound_iff {high : Option Float} {strict : Option Value} (hhigh : ∀ x, high = some x → Number.isFinite x = true)
    (hstrict : ∀ x, strict = some (.float x) → Number.isFinite x = true) (x : Float) :
    (bound (fun x y => x ≤ y) high strict).1.all (fun m =>
      !(if (bound (fun x y => x ≤ y) high strict).2 then decide (x ≥ m) else decide (x > m))) = true ↔
    (∀ m, high = some m → ¬ m < x) ∧ ∀ m, strict = some (.float m) ∨ strict = some (.bool true) ∧ high = some m → ¬ m ≤ x := by
  rcases strict with _ | w
  · cases high <;> simp [bound]
  · cases w with
    | float e =>
      have h := @upper_bound high (some e) hhigh (fun y hy => hstrict y (by simpa using hy)) x
      rw [Option.map_some] at h
      rw [h]
      cases high <;> simp
    | bool c =>
      cases high with
      | none => cases c <;> simp [bound]
      | some m =>
        have himp : m < x → m ≤ x := Number.le_of_lt
        cases c
        · simp [bound]
        · by_cases hle : m ≤ x <;> simp_all [bound]
    | _ => cases high <;> simp [bound]

theorem acceptsNumber_iff {k : Keywords} (hk : FiniteBounds k) {t : Scalar} {x : Float} : Primitive.acceptsNumber {
      type := t
      min := (bound (fun x y => x ≥ y) k.minimum k.exclusiveMinimum).1
      max := (bound (fun x y => x ≤ y) k.maximum k.exclusiveMaximum).1
      exclusiveMin := (bound (fun x y => x ≥ y) k.minimum k.exclusiveMinimum).2
      exclusiveMax := (bound (fun x y => x ≤ y) k.maximum k.exclusiveMaximum).2
      multipleOf := k.multipleOf } x = true ↔ MeetsNumber k x := by
  have hmultiple : k.multipleOf.all (fun m => Check.isMultiple x m) = true ↔
      ∀ m, k.multipleOf = some m → Check.isMultiple x m = true := by
    cases k.multipleOf <;> simp
  unfold Primitive.acceptsNumber
  rw [Bool.and_eq_true, Bool.and_eq_true, lower_bound_iff hk.minimum hk.exclusiveMinimum,
    upper_bound_iff hk.maximum hk.exclusiveMaximum, hmultiple]
  constructor
  · rintro ⟨⟨⟨hmin, hemin⟩, hmax, hemax⟩, hm⟩
    exact ⟨hmin, hmax, hemin, hemax, hm⟩
  · intro h
    exact ⟨⟨⟨h.minimum, h.exclusiveMinimum⟩, h.maximum, h.exclusiveMaximum⟩, h.multipleOf⟩

variable {cx : Check.Context} {L : Context} {b : Body} {x : Shape} {J : Schema → Value → Prop}

theorem tells_primitive {q : Primitive} {v : Value} {P : Prop} (h : q.accepts cx.coerce v = true ↔ P) :
    Tells cx (.primitive {} q) v P :=
  (Check.verdict_primitive q (by simp) rfl).tells h

/-! ## Members -/

theorem fields_keys {ps : List (String × Schema)} {fields : List (String × Shape)}
    (h : List.Forall₂ (fun e f => f.1 = e.1 ∧ lower L e.2 = .ok f.2) ps fields) : fields.map (·.1) = ps.map (·.1) := by
  induction h with
  | nil => rfl
  | cons hef _ ih => rw [List.map_cons, List.map_cons, hef.1, ih]

/-- the members that properties are listed for -/
theorem fields_tell {ps : List (String × Schema)} {fields : List (String × Shape)}
    (h : List.Forall₂ (fun e f => f.1 = e.1 ∧ lower L e.2 = .ok f.2) ps fields)
    (hJ : ∀ e ∈ ps, ∀ y, lower L e.2 = .ok y → ∀ v, Tells cx y v (J e.2 v)) (fs : Dict Value) :
    ∃ bs, List.Forall₂ (fun f b => match Dict.get? fs f.1 with
        | some x => Verdict cx f.2 x b
        | none => b = true) fields bs ∧ (bs.all id = true ↔ ∀ e ∈ ps, ∀ x, Dict.get? fs e.1 = some x → J e.2 x) := by
  induction h with
  | nil => exact ⟨[], .nil, by simp⟩
  | @cons e f ps fields hef _ ih =>
    obtain ⟨bs, hbs, hall⟩ := ih fun d hd => hJ d (List.mem_cons_of_mem _ hd)
    obtain ⟨hkey, hf⟩ := hef
    cases hget : Dict.get? fs e.1 with
    | none =>
      refine ⟨true :: bs, .cons ?_ hbs, ?_⟩
      · rw [hkey, hget]
      · simpa [hget] using hall
    | some x =>
      obtain ⟨b, hb, hP⟩ := hJ e List.mem_cons_self f.2 hf x
      refine ⟨b :: bs, .cons ?_ hbs, ?_⟩
      · rw [hkey, hget]
        exact hb
      · rw [List.all_cons, Bool.and_eq_true, id, hP, hall, List.forall_mem_cons, hget]
        simp

/-- nothing more may come where the extent says so, and what has a shape is asked for -/
theorem lowerExtent_ok {e : Extent} {beyond : Option Bool} {rest : Shape} (h : lowerExtent L e = .ok (beyond, rest)) :
    (beyond = some false ↔ e = .flag false) ∧ (rest.isAbsent = false → beyond = some true) := by
  cases e with
  | unset =>
    cases h
    simp [Shape.isAbsent]
  | flag c =>
    cases h
    cases c <;> simp [Shape.isAbsent]
  | sub s =>
    obtain ⟨_, _, heq⟩ := except_map_ok h
    cases heq
    simp

/-- what is beyond the listed properties or positions -/
theorem beyond_tell {α : Type} {e : Extent} {beyond : Option Bool} {rest : Shape} (h : lowerExtent L e = .ok (beyond, rest))
    (hJ : ∀ s ∈ Schema.Extent.toList e, ∀ y, lower L s = .ok y → ∀ v, Tells cx y v (J s v)) (as : List α) (v : α → Value) :
    ∃ bs, (rest.isAbsent = true → bs = []) ∧ (rest.isAbsent = false → List.Forall₂ (fun a b => Verdict cx rest (v a) b) as bs) ∧
      (bs.all id = true ↔ ∀ s, e = .sub s → ∀ a ∈ as, J s (v a)) := by
  cases e with
  | unset =>
    cases h
    exact ⟨[], fun _ => rfl, nofun, by simp⟩
  | flag c =>
    cases h
    exact ⟨[], fun _ => rfl, nofun, by simp⟩
  | sub s =>
    obtain ⟨_, hy, heq⟩ := except_map_ok h
    cases heq
    have hs : s ∈ Schema.Extent.toList (.sub s) := by
      simp [Schema.Extent.toList, Schema.Beyond.ofExtent, Schema.Beyond.toList]
    obtain ⟨bs, hbs, hall, -⟩ := Check.tells_all (s := fun _ => rest) (v := v) (P := fun a => J s (v a))
      (List.forall₂_same.2 fun a (_ : a ∈ as) => hJ s hs rest hy (v a))
    refine ⟨bs, fun habs => ?_, fun _ => hbs, by simpa using hall⟩
    rw [lower_present hy] at habs
    cases habs

theorem object_tells (h : objectShape L b = .ok x)
    (hJ : ∀ s ∈ memberSchemas b, ∀ y, lower L s = .ok y → ∀ v, Tells cx y v (J s v)) (v : Value) :
    Tells cx x v (∃ fs, v = .object fs ∧ MeetsMembers J b fs) := by
  obtain ⟨fields, beyond, extra, hfields, hextra, rfl⟩ := objectShape_ok h
  cases v with
  | object fs =>
    have hforall := lowerOptional_ok hfields
    have hkeys : fields.map (·.1) = keysOf b := fields_keys hforall
    obtain ⟨hclosed, hpresent⟩ := lowerExtent_ok hextra
    obtain ⟨bs, hbs, hlisted⟩ := fields_tell hforall (fun e he => hJ e.2
      (List.mem_append_left _ (List.mem_map_of_mem he))) fs
    obtain ⟨cs, habsent, hcs, hbeyond⟩ := beyond_tell hextra (fun s hs => hJ s (List.mem_append_right _ hs))
      (Check.unknownEntries fs (keysOf b)) Prod.snd
    have hrequired : (sortedSet b.own.required).all (Dict.has fs ·) = true ↔ ∀ k ∈ b.own.required, Dict.has fs k = true := by
      simp [mem_sortedSet]
    have hpattern : (decide (keyPatternOf b = "") || fs.all fun e => Check.matchesText (keyPatternOf b) e.1) = true ↔
        (keyPatternOf b ≠ "" → ∀ e ∈ fs, Check.matchesText (keyPatternOf b) e.1 = true) := by
      rw [Bool.or_eq_true, decide_eq_true_eq, List.all_eq_true, or_iff_not_imp_left]
    have hentries : (∀ s, b.additional = .sub s → ∀ e ∈ Check.unknownEntries fs (keysOf b), J s e.2) ↔
        ∀ s, b.additional = .sub s → ∀ e ∈ fs, e.1 ∉ keysOf b → J s e.2 := by
      simp [Check.unknownEntries]
    -- stated at any policy: the one of `objectShape` is built from what `beyond` says
    have hfurther (q : ObjectPolicy) (hq : extra.isAbsent = false → q.unknown = .checked) :
        List.Forall₂ (fun e c => Verdict cx extra e.2 c) (Check.beyondFields fields q extra fs) cs := by
      rw [Check.beyondFields, hkeys]
      cases hrest : extra.isAbsent with
      | true => simp [habsent hrest]
      | false => simpa [hq hrest] using hcs hrest
    refine (Check.verdict_object hbs (hfurther _ fun hrest => by rw [hpresent hrest]) rfl).tells ?_
    -- keys without a property are refused just when nothing more may come
    have hstrict (q : UnknownKeys) (hq : q = .strict ↔ b.additional = .flag false) :
        (decide (q ≠ .strict) || fs.all fun e => (fields.map (·.1)).contains e.1) = true ↔
          (b.additional = .flag false → ∀ e ∈ fs, e.1 ∈ keysOf b) := by
      rw [Bool.or_eq_true, decide_eq_true_eq, hkeys, ← hq, List.all_eq_true, ← imp_iff_not_or]
      simp
    rw [Bool.and_eq_true, Bool.and_eq_true, Bool.and_eq_true, Bool.and_eq_true, hrequired, hlisted, hbeyond, hpattern, hentries,
      hstrict _ (by rw [← hclosed]; rcases beyond with _ | _ | _ <;> simp)]
    constructor
    · rintro ⟨⟨⟨⟨h1, h2⟩, h3⟩, h4⟩, h5⟩
      exact ⟨fs, rfl, h1, h2, h3, h4, h5⟩
    · rintro ⟨gs, heq, hm⟩
      cases heq
      exact ⟨⟨⟨⟨hm.required, hm.properties⟩, hm.closed⟩, hm.additional⟩, hm.keys⟩
  | _ => exact (Check.verdict_object_of_ne rfl (by simp) rfl).tells (by simp)

/-! ## Items -/

theorem unique_iff {c : Bool} {xs : List Value} :
    (!c || Check.distinct xs) = true ↔ (c = true → xs.Pairwise fun x y => Value.equal y x = false) := by
  cases c <;> simp [Check.distinct_iff]

/-- the shape of a list without a schema for its items -/
theorem arrayShape_open (hb : b.items = .unset ∨ b.items = .single .absent) (h : arrayShape L b = .ok x) :
    x = .array {} .absent { minItems := b.own.minItems, maxItems := b.own.maxItems, unique := b.own.uniqueItems } := by
  obtain ⟨⟨o, single⟩, hitems, h⟩ := except_bind_ok h
  have hnone : lowerItems L b.items = .ok (none, .absent) := by rcases hb with hb | hb <;> rw [hb] <;> rfl
  rw [hnone] at hitems
  cases hitems
  exact (Except.ok.inj h).symm

theorem list_tell {ss : List Schema} {ys : List Shape} (h : List.Forall₂ (fun s y => lower L s = .ok y) ss ys)
    (hJ : ∀ s ∈ ss, ∀ y, lower L s = .ok y → ∀ v, Tells cx y v (J s v)) :
    List.Forall₂ (fun s y => ∀ v, Tells cx y v (J s v)) ss ys := by
  induction h with
  | nil => exact .nil
  | cons hy _ ih => exact .cons (hJ _ List.mem_cons_self _ hy) (ih fun s hs => hJ s (List.mem_cons_of_mem _ hs))

/-- items with the schemas of their positions -/
theorem zip_tell {ss : List Schema} {ys : List Shape} (h : List.Forall₂ (fun s y => ∀ v, Tells cx y v (J s v)) ss ys)
    (xs : List Value) : List.Forall₂ (fun (e : Value × Schema) (f : Value × Shape) => Tells cx f.2 f.1 (J e.2 e.1))
      (xs.zip ss) (xs.zip ys) := by
  induction h generalizing xs with
  | nil => simp
  | cons hy _ ih =>
    cases xs with
    | nil => simp
    | cons x xs => exact .cons (hy x) (ih xs)

theorem array_tells (h : arrayShape L b = .ok x)
    (hJ : ∀ s ∈ itemSchemas b, ∀ y, lower L s = .ok y → ∀ v, Tells cx y v (J s v)) (habsent : ∀ v, J .absent v) (v : Value) :
    Tells cx x v (∃ xs, v = .array xs ∧ MeetsItems J b xs) := by
  -- a list without a schema for its items
  have hopen (hb : b.items = .unset ∨ b.items = .single .absent) : Tells cx x v (∃ xs, v = .array xs ∧ MeetsItems J b xs) := by
    rw [arrayShape_open hb h]
    cases v with
    | array xs =>
      refine (Check.verdict_array_open rfl rfl).tells ?_
      rw [Bool.and_eq_true, Check.withinLimits_iff, unique_iff]
      constructor
      · rintro ⟨⟨hmin, hmax⟩, hunique⟩
        refine ⟨xs, rfl, hmin, hmax, hunique, fun s hs y _ => ?_, ?_, ?_, ?_⟩
        · obtain rfl : s = .absent := by
            rcases hb with hb | hb <;> rw [hb] at hs <;> cases hs
            rfl
          exact habsent y
        all_goals rcases hb with hb | hb <;> simp [hb]
      · rintro ⟨ys, heq, hm⟩
        cases heq
        exact ⟨⟨hm.minItems, hm.maxItems⟩, hm.unique⟩
    | _ => exact (Check.verdict_array_of_ne rfl (by simp) rfl).tells (by simp)
  cases hitems : b.items with
  | unset => exact hopen (.inl hitems)
  | single s =>
    obtain rfl | ⟨c, rfl⟩ := Schema.eq_absent_or_ofBody s
    · exact hopen (.inr hitems)
    · obtain ⟨item, hitem, rfl⟩ := arrayShape_single hitems rfl h
      have hmem : ofBody c ∈ itemSchemas b := by
        rw [itemSchemas, hitems]
        exact List.mem_singleton_self _
      cases v with
      | array xs =>
        obtain ⟨bs, hbs, hall, -⟩ := Check.tells_all (s := fun _ => item) (v := id) (P := J (ofBody c))
          (List.forall₂_same.2 fun y (_ : y ∈ xs) => hJ _ hmem item hitem y)
        refine (Check.verdict_array (lower_present hitem) hbs rfl).tells ?_
        rw [Bool.and_eq_true, Bool.and_eq_true, Check.withinLimits_iff, unique_iff, hall]
        constructor
        · rintro ⟨⟨⟨hmin, hmax⟩, hunique⟩, hitems'⟩
          refine ⟨xs, rfl, hmin, hmax, hunique, fun s hs => ?_, by simp [hitems], by simp [hitems], by simp [hitems]⟩
          rw [hitems] at hs
          cases hs
          exact hitems'
        · rintro ⟨ys, heq, hm⟩
          cases heq
          exact ⟨⟨⟨hm.minItems, hm.maxItems⟩, hm.unique⟩, hm.single _ hitems⟩
      | _ => exact (Check.verdict_array_of_ne rfl (by simp) rfl).tells (by simp)
  | tuple ss =>
    obtain ⟨shapes, beyond, rest, hshapes, hrest, rfl⟩ := arrayShape_tuple hitems h
    have hmem {s : Schema} (hs : s ∈ ss ++ Schema.Extent.toList b.additionalItems) : s ∈ itemSchemas b := by
      rwa [itemSchemas, hitems]
    cases v with
    | array xs =>
      have hpositions := lowerList_ok hshapes
      have hlength : shapes.length = ss.length := hpositions.length_eq.symm
      obtain ⟨hclosed, -⟩ := lowerExtent_ok hrest
      obtain ⟨bs, hbs, hlisted, -⟩ := Check.tells_all (s := Prod.snd) (v := Prod.fst) (P := fun e : Value × Schema => J e.2 e.1)
        (zip_tell (list_tell hpositions fun s hs => hJ s (hmem (List.mem_append_left _ hs))) xs)
      obtain ⟨cs, habs, hcs, hbeyond⟩ := beyond_tell hrest (fun s hs => hJ s (hmem (List.mem_append_right _ hs)))
        (xs.drop ss.length) id
      have hboth : List.Forall₂ (fun (e : Value × Shape) b => Verdict cx e.2 e.1 b) (Check.positioned shapes rest xs) (bs ++ cs) := by
        refine List.rel_append hbs ?_
        cases hr : rest.isAbsent with
        | true => simp [habs hr]
        | false =>
          rw [if_neg (by simp), hlength]
          exact List.forall₂_map_left_iff.2 (hcs hr)
      have hmin : (∀ n, some (b.own.minItems.getD 0) = some n → n ≤ (xs.length : Int)) ↔
          ∀ n, b.own.minItems = some n → n ≤ (xs.length : Int) := by
        cases b.own.minItems <;> simp
      refine (Check.verdict_tuple hboth rfl).tells ?_
      rw [Bool.and_eq_true, Bool.and_eq_true, Bool.and_eq_true, Check.withinLimits_iff, Check.withinLimits_iff, unique_iff,
        List.all_append, Bool.and_eq_true, hlisted, hbeyond, hmin]
      constructor
      · rintro ⟨⟨⟨⟨-, hmax⟩, hunique⟩, hmin, hlimit⟩, hp, ha⟩
        have hfull (hflag : b.additionalItems = .flag false) : xs.length ≤ ss.length := by
          have := hlimit shapes.length (by simp [hclosed.2 hflag])
          omega
        refine ⟨xs, rfl, hmin, fun n hn => ?_, hunique, by simp [hitems], fun ts hts => ?_, fun ts hts => ?_, fun ts hts => ?_⟩
        · -- a limit that is dropped is no less than the number of positions
          by_cases hflag : beyond = some false
          · have hle := hfull (hclosed.1 hflag)
            by_cases hsmall : n < shapes.length
            · exact hmax n (by simp [hflag, hn, hsmall])
            · omega
          · exact hmax n (by simpa [hflag] using hn)
        all_goals
          rw [hitems] at hts
          cases hts
        · exact hp
        · exact hfull
        · exact fun s hs => ha s hs
      · rintro ⟨ys, heq, hm⟩
        cases heq
        refine ⟨⟨⟨⟨by simp, fun n hn => hm.maxItems n ?_⟩, hm.unique⟩, hm.minItems, fun n hn => ?_⟩, hm.positions _ hitems,
          hm.additional _ hitems⟩
        · by_cases hflag : beyond = some false
          · exact And.left (by simpa [hflag] using hn)
          · simpa [hflag] using hn
        · by_cases hflag : beyond = some false
          · have hle := hm.closed _ hitems (hclosed.1 hflag)
            obtain rfl : (shapes.length : Int) = n := by simpa [hflag] using hn
            omega
          · simp [hflag] at hn
    | _ => exact (Check.verdict_tuple_of_ne rfl (by simp) rfl).tells (by simp)

/-! ## One type -/

/-- **The shape of a type tells what its keywords ask for.** -/
theorem typed_tells (hk : FiniteBounds b.own) (hcoerce : cx.coerce = L.options.coerce) {t : String}
    (ht : t ∈ impliedTypes b) (h : typedShape L b t = .ok x)
    (hJ : ∀ s ∈ typedSchemas b, ∀ y, lower L s = .ok y → ∀ v, Tells cx y v (J s v)) (habsent : ∀ v, J .absent v) (v : Value) :
    Tells cx x v (Meets J L.options b v t) := by
  unfold typedShape at h
  split at h
  · rw [stringShape_ok h]
    refine tells_primitive ?_
    cases v with
    | string s => simpa [Primitive.accepts, Meets] using acceptsText_iff
    | _ => simp [Primitive.accepts, Meets]
  · rw [numberShape_ok h]
    refine tells_primitive ?_
    simp only [Primitive.accepts, Meets, hcoerce, Option.any_eq_true, acceptsNumber_iff hk]
  · rw [numberShape_ok h]
    refine tells_primitive ?_
    simp only [Primitive.accepts, Meets, hcoerce, Option.any_eq_true, Bool.and_eq_true, acceptsNumber_iff hk]
  · cases h
    refine tells_primitive ?_
    cases v <;> simp [Primitive.accepts, Meets, hcoerce]
  · cases h
    refine tells_primitive ?_
    cases v <;> simp [Primitive.accepts, Meets, Value.isNull]
  · exact object_tells h (fun s hs => hJ s (List.mem_append_left _ (by rwa [if_pos ht]))) v
  · exact array_tells h (fun s hs => hJ s (List.mem_append_right _ (by rwa [if_pos ht]))) habsent v
  · cases h

end Lowering

end Schemata
