import Schemata.Proofs.Program.Walk

/-!
Verdicts: whether a shape accepts a value, without the words in which issues are told.

`Verdict cx s v b` says that some walk of the shape over the value ends, and finds nothing wrong exactly when `b` is
true. Each kind of shape has one rule that gives its verdict from the verdicts below it; rules of the schema language
are left out, so the rules are about shapes that carry none. A program has the verdict of its root
(`Program.validate_verdict`).
-/

namespace Schemata

/-! ## Scalars -/

/-- is a count within its limits? -/
def withinLimits (got : Nat) (min max : Option Int) : Bool :=
  min.all (fun n => decide (n ≤ (got : Int))) && max.all fun n => decide ((got : Int) ≤ n)

/-- the number that a value stands for; with coercion also the finite number that a text spells -/
def Value.reading (coerce : Bool) (v : Value) : Option Float :=
  match v.number?, v with
  | some x, _ => some x
  | none, .string s => if coerce then (Number.parse? s).filter Number.isFinite else none
  | none, _ => none

def Value.isArray : Value → Bool
  | .array _ => true
  | _ => false

/-- is a text as long as it may be, and of the pattern and format? -/
def Primitive.acceptsText (q : Primitive) (s : String) : Bool :=
  withinLimits s.length q.minLength q.maxLength && (q.pattern = "" || Check.matchesText q.pattern s)
    && (Format.ofName? q.format).all (·.holds s)

/-- is a number within the bounds? -/
def Primitive.acceptsNumber (q : Primitive) (x : Float) : Bool :=
  q.min.all (fun m => !(if q.exclusiveMin then decide (x ≤ m) else decide (x < m)))
    && q.max.all (fun m => !(if q.exclusiveMax then decide (x ≥ m) else decide (x > m)))
    && q.multipleOf.all fun m => Check.isMultiple x m

/-- does a scalar type accept a value? -/
def Primitive.accepts (coerce : Bool) (q : Primitive) (v : Value) : Bool :=
  match q.type, v with
  | .string, .string s => q.acceptsText s
  | .string, _ => false
  | .number, v => (v.reading coerce).any q.acceptsNumber
  | .integer, v => (v.reading coerce).any fun x => Number.isWhole x && q.acceptsNumber x
  | .boolean, .bool _ => true
  | .boolean, .string s => coerce && (s = "true" || s = "false")
  | .boolean, _ => false
  | .null, v => v.isNull
  | .other _, _ => true

theorem Value.equal_string {v : Value} {s : String} (h : Value.equal v (.string s) = true) : v = .string s := by
  cases v <;> simp [Value.equal, Value.number?, Value.numeric] at h ⊢
  exact h

/-- a list of answers is one answer for each -/
theorem mapM_eq_some {α β : Type} {f : α → Option β} {as : List α} {bs : List β} :
    as.mapM f = some bs ↔ List.Forall₂ (fun a b => f a = some b) as bs := by
  induction as generalizing bs with
  | nil => simp [eq_comm]
  | cons a as ih =>
    simp only [List.mapM_cons, Option.bind_eq_bind, Option.bind_eq_some_iff, Option.pure_def, List.forall₂_cons_left_iff, ih]
    exact ⟨fun ⟨b, hb, cs, hcs, h⟩ => ⟨b, cs, hb, hcs, (Option.some.inj h).symm⟩,
      fun ⟨b, cs, hb, hcs, h⟩ => ⟨b, hb, cs, hcs, congrArg some h.symm⟩⟩

namespace Check

variable (cx : Context)

theorem isEmpty_append {α : Type} (xs ys : List α) : (xs ++ ys).isEmpty = (xs.isEmpty && ys.isEmpty) := by
  cases xs <;> rfl

@[simp] theorem isEmpty_issueIf (c : Bool) (i : Issue) : (issueIf c i).isEmpty = !c := by
  cases c <;> rfl

@[simp] theorem isEmpty_invalidType (p : Pointer) (t : String) (v : Value) : (invalidType cx p t v).isEmpty = false := rfl

theorem isEmpty_length (p : Pointer) (unit : String) (got : Nat) (min max : Option Int) :
    (length cx p unit got min max).isEmpty = withinLimits got min max := by
  have hlow (n : Int) : (!decide ((got : Int) < n)) = decide (n ≤ (got : Int)) := by
    rw [← decide_not]
    exact decide_eq_decide.2 not_lt
  have hhigh (n : Int) : (!decide ((got : Int) > n)) = decide ((got : Int) ≤ n) := by
    rw [← decide_not]
    exact decide_eq_decide.2 not_lt
  unfold length withinLimits
  cases min <;> cases max <;>
    simp only [isEmpty_append, isEmpty_issueIf, hlow, hhigh, Option.all_none, Option.all_some, List.isEmpty_nil]

theorem isEmpty_string (q : Primitive) (s : String) (p : Pointer) :
    (string cx q (.string s) p).isEmpty = q.acceptsText s := by
  unfold string Primitive.acceptsText
  have hpattern : (!(decide (q.pattern ≠ "") && !matchesText q.pattern s)) =
      (decide (q.pattern = "") || matchesText q.pattern s) := by
    rw [Bool.not_and, Bool.not_not, decide_not, Bool.not_not]
  cases Format.ofName? q.format <;>
    simp only [isEmpty_append, isEmpty_issueIf, isEmpty_length, hpattern, Option.all_none, Option.all_some,
      List.isEmpty_nil, Bool.not_not]

theorem isEmpty_bounds (q : Primitive) (p : Pointer) (x : Float) : (bounds cx q p x).isEmpty = q.acceptsNumber x := by
  unfold bounds Primitive.acceptsNumber
  cases q.min <;> cases q.max <;> cases q.multipleOf <;> cases q.exclusiveMin <;> cases q.exclusiveMax <;>
    simp [isEmpty_append, Bool.and_assoc]

theorem asNumber_eq (v : Value) : asNumber cx v = v.reading cx.coerce := by
  unfold asNumber numberOf Value.reading
  cases v.number? with
  | some x => rfl
  | none =>
    cases v <;> cases cx.coerce <;> simp

theorem isFinite_of_isWhole {x : Float} (h : Number.isWhole x = true) : Number.isFinite x = true := by
  unfold Number.isWhole at h
  split at h
  · rename_i heq
    simp only [Number.isFinite, heq]
  · cases h

theorem asInteger_eq (v : Value) : asInteger cx v = (v.reading cx.coerce).filter Number.isWhole := by
  unfold asInteger numberOf Value.reading
  cases v.number? with
  | some x => rfl
  | none =>
    cases v <;> cases cx.coerce <;> simp [Option.filter_filter]
    rename_i s
    cases Number.parse? s with
    | none => rfl
    | some x =>
      by_cases h : Number.isWhole x = true
      · simp [Option.filter, h, isFinite_of_isWhole h]
      · simp [Option.filter, h]

theorem isEmpty_primitive (q : Primitive) (v : Value) (p : Pointer) :
    (primitive cx q v p).isEmpty = q.accepts cx.coerce v := by
  unfold primitive Primitive.accepts
  cases hq : q.type with
  | string =>
    cases v with
    | string s => exact isEmpty_string cx q s p
    | _ => rfl
  | number =>
    rw [asNumber_eq]
    cases hv : v.reading cx.coerce <;> simp [hv, isEmpty_bounds]
  | integer =>
    rw [asInteger_eq]
    cases hv : v.reading cx.coerce with
    | none => simp [hv]
    | some x => by_cases h : Number.isWhole x = true <;> simp [hv, Option.filter, h, isEmpty_bounds]
  | boolean =>
    cases v with
    | string s =>
      simp only [boolean]
      split <;> simp_all
    | _ => rfl
  | null => cases v <;> rfl
  | other n => cases v <;> rfl

/-! ## Lists and keys -/

/-- do no two of the values equal each other? -/
def distinct : List Value → Bool
  | [] => true
  | x :: xs => xs.all (fun y => !Value.equal y x) && distinct xs

theorem duplicate?_isNone (earlier : List Value) (i : Nat) (xs : List Value) :
    (duplicate? earlier i xs).isNone = (xs.all (fun x => earlier.all fun y => !Value.equal x y) && distinct xs) := by
  induction xs generalizing earlier i with
  | nil => rfl
  | cons x xs ih =>
    rw [duplicate?, distinct, List.all_cons]
    cases hfind : earlier.findIdx? fun y => Value.equal x y with
    | some j =>
      obtain ⟨hj, hx, -⟩ := List.findIdx?_eq_some_iff_getElem.1 hfind
      have : (earlier.all fun y => !Value.equal x y) = false := by
        rw [List.all_eq_false]
        exact ⟨_, List.getElem_mem hj, by simp [hx]⟩
      simp [this]
    | none =>
      have hx : (earlier.all fun y => !Value.equal x y) = true := by
        rw [List.all_eq_true]
        intro y hy
        simpa using List.findIdx?_eq_none_iff.1 hfind y hy
      have hsnoc : (xs.all fun y => (earlier ++ [x]).all fun z => !Value.equal y z) =
          (xs.all (fun y => earlier.all fun z => !Value.equal y z) && xs.all fun y => !Value.equal y x) := by
        rw [Bool.eq_iff_iff]
        simp only [List.all_append, List.all_cons, List.all_nil, Bool.and_true, Bool.and_eq_true, List.all_eq_true]
        exact ⟨fun h => ⟨fun y hy => (h y hy).1, fun y hy => (h y hy).2⟩, fun h y hy => ⟨h.1 y hy, h.2 y hy⟩⟩
      simp only [ih, hsnoc, hx, Bool.true_and, Bool.and_assoc]

theorem isEmpty_unique (xs : List Value) (p : Pointer) : (unique cx xs p).isEmpty = distinct xs := by
  have h := duplicate?_isNone [] 0 xs
  rw [unique]
  cases hd : duplicate? [] 0 xs <;> simp_all

theorem isEmpty_missing (fs : Dict Value) (p : Pointer) (keys : List String) :
    (missing cx fs p keys).isEmpty = keys.all (Dict.has fs ·) := by
  rw [missing, List.isEmpty_map, Bool.eq_iff_iff]
  simp [List.filter_eq_nil_iff]

theorem isEmpty_unknownKeys (fs : Dict Value) (known : List String) (p : Pointer) :
    (unknownKeys cx fs known p).isEmpty = fs.all fun e => known.contains e.1 := by
  rw [unknownKeys, unknownEntries, List.isEmpty_map, Bool.eq_iff_iff]
  simp [List.filter_eq_nil_iff]

theorem isEmpty_keyPattern (pattern : String) (fs : Dict Value) (p : Pointer) :
    (keyPattern cx pattern fs p).isEmpty = (decide (pattern = "") || fs.all fun e => matchesText pattern e.1) := by
  rw [keyPattern]
  split
  · simp_all
  · rename_i h
    rw [List.isEmpty_map, Bool.eq_iff_iff]
    simp [h, List.filter_eq_nil_iff]

theorem all_requiredKeys (q : ObjectPolicy) (fields : List (String × Shape)) (f : String → Bool) :
    (q.requiredKeys fields).all f = q.required.all f := by
  rw [ObjectPolicy.requiredKeys, Bool.eq_iff_iff]
  simp only [List.all_append, Bool.and_eq_true, List.all_eq_true, List.mem_filter, Bool.not_eq_true',
    List.contains_eq_mem, decide_eq_true_eq, decide_eq_false_iff_not]
  constructor
  · rintro ⟨h1, h2⟩ k hk
    by_cases hf : k ∈ fields.map (·.1)
    · exact h1 k ⟨hf, hk⟩
    · exact h2 k ⟨hk, fun h => hf h.1⟩
  · exact fun h => ⟨fun k hk => h k hk.2, fun k hk => h k hk.1⟩

/-! ## Verdicts -/

/-- some walk ends, and finds nothing wrong exactly when the verdict is true -/
def Verdict (s : Shape) (v : Value) (b : Bool) : Prop :=
  ∃ fuel, ∀ p, (issues cx fuel s v p).map List.isEmpty = some b

variable {cx}

theorem Verdict.later {s : Shape} {v : Value} {b : Bool} {n m : Nat}
    (h : ∀ p, (issues cx n s v p).map List.isEmpty = some b) (hm : n ≤ m) (p : Pointer) :
    (issues cx m s v p).map List.isEmpty = some b :=
  (issues_le hm s v p).map List.isEmpty b (h p)

/-- one budget for several verdicts -/
theorem Verdict.common {α : Type} {s : α → Shape} {v : α → Value} {as : List α} {bs : List Bool}
    (h : List.Forall₂ (fun a b => Verdict cx (s a) (v a) b) as bs) :
    ∃ n, List.Forall₂ (fun a b => ∀ p, (issues cx n (s a) (v a) p).map List.isEmpty = some b) as bs := by
  induction h with
  | nil => exact ⟨0, .nil⟩
  | cons h _ ih =>
    obtain ⟨n, hn⟩ := h
    obtain ⟨m, hm⟩ := ih
    refine ⟨max n m, .cons (Verdict.later hn (le_max_left _ _)) (hm.imp fun a b h => ?_)⟩
    exact Verdict.later h (le_max_right _ _)

/-- null is accepted before anything else -/
theorem verdict_null {s : Shape} {v : Value} (hs : s.base.nullable = true) (hv : v.isNull = true) :
    Verdict cx s v true := by
  refine ⟨1, fun p => ?_⟩
  rw [issues_succ, hs, hv]
  rfl

/-- the verdict of a shape without rules is the one of its own checks -/
theorem verdict_of_own {s : Shape} {v : Value} {b : Bool} (hn : (s.base.nullable && v.isNull) = false)
    (hr : s.base.rules = []) {n : Nat} (h : ∀ p, (own cx (issues cx n) s v p).map List.isEmpty = some b) :
    Verdict cx s v b := by
  refine ⟨n + 1, fun p => ?_⟩
  rw [issues_succ, hn, if_neg (by simp), Option.map_map]
  have hrules : List.isEmpty ∘ rules cx s.base v p = List.isEmpty := by
    funext is
    cases is <;> simp [rules, hr]
  rw [hrules, h p]

section Shapes

variable {base : Base} {v : Value}

theorem verdict_any (hn : (base.nullable && v.isNull) = false) (hr : base.rules = []) : Verdict cx (.any base) v true :=
  verdict_of_own (n := 0) hn hr fun _ => rfl

theorem verdict_primitive (q : Primitive) (hn : (base.nullable && v.isNull) = false) (hr : base.rules = []) :
    Verdict cx (.primitive base q) v (q.accepts cx.coerce v) := by
  refine verdict_of_own (n := 0) hn hr fun p => ?_
  simp [own, isEmpty_primitive]

theorem verdict_enum (values : List Value) (hn : (base.nullable && v.isNull) = false) (hr : base.rules = []) :
    Verdict cx (.enum base values) v (values.any fun want => Value.equal v want) := by
  refine verdict_of_own (n := 0) hn hr fun p => ?_
  simp [own, enum]

theorem verdict_ref {name : String} {s : Shape} {b : Bool} (ht : cx.program.target? name = some s) (h : Verdict cx s v b)
    (hn : (base.nullable && v.isNull) = false) (hr : base.rules = []) : Verdict cx (.ref base name) v b := by
  obtain ⟨n, h⟩ := h
  refine verdict_of_own (n := n) hn hr fun p => ?_
  simp only [own, ht]
  exact h p

/-- answers that find nothing wrong exactly where the list says true -/
abbrev Answers (os : List (Option (List Issue))) (bs : List Bool) : Prop :=
  List.Forall₂ (fun o b => o.map List.isEmpty = some b) os bs

theorem concat_answers {os : List (Option (List Issue))} {bs : List Bool} (h : Answers os bs) :
    (concat os).map List.isEmpty = some (bs.all id) := by
  induction h with
  | nil => rfl
  | @cons o b os bs ho _ ih =>
    obtain ⟨is, rfl, rfl⟩ := Option.map_eq_some_iff.1 ho
    obtain ⟨js, hjs, hall⟩ := Option.map_eq_some_iff.1 ih
    rw [concat_cons, hjs]
    simp [isEmpty_append, hall]

theorem firstMatch_answers {check : Shape → Option (List Issue)} {otherwise : Issue} {ss : List Shape} {bs : List Bool}
    (h : List.Forall₂ (fun s b => (check s).map List.isEmpty = some b) ss bs) :
    (firstMatch check otherwise ss).map List.isEmpty = some (bs.any id) := by
  induction h with
  | nil => rfl
  | @cons s b ss bs hs _ ih =>
    obtain ⟨is, his, rfl⟩ := Option.map_eq_some_iff.1 hs
    rw [firstMatch, his]
    cases is with
    | nil => rfl
    | cons i is => simpa using ih

theorem anyOf_answers {check : Shape → Option (List Issue)} {p : Pointer} {ss : List Shape} {bs : List Bool}
    (h : List.Forall₂ (fun s b => (check s).map List.isEmpty = some b) ss bs) :
    (anyOf cx check p ss).map List.isEmpty = some (bs.any id) := by
  match ss, h with
  | [], h => exact firstMatch_answers h
  | [s], .cons hs .nil => simpa [anyOf] using hs
  | s :: t :: ss, h => exact firstMatch_answers h

theorem verdict_anyOf {ss : List Shape} {bs : List Bool} (h : List.Forall₂ (fun s b => Verdict cx s v b) ss bs)
    (hn : (base.nullable && v.isNull) = false) (hr : base.rules = []) : Verdict cx (.anyOf base ss) v (bs.any id) := by
  obtain ⟨n, h⟩ := Verdict.common h
  exact verdict_of_own (n := n) hn hr fun p => anyOf_answers (h.imp fun s b hs => hs p)

theorem verdict_allOf {ss : List Shape} {bs : List Bool} (h : List.Forall₂ (fun s b => Verdict cx s v b) ss bs)
    (hn : (base.nullable && v.isNull) = false) (hr : base.rules = []) : Verdict cx (.allOf base ss) v (bs.all id) := by
  obtain ⟨n, h⟩ := Verdict.common h
  refine verdict_of_own (n := n) hn hr fun p => concat_answers ?_
  exact List.forall₂_map_left_iff.2 (h.imp fun s b hs => hs p)

/-- all parts of a level must hold -/
theorem verdict_allShape {ss : List Shape} {bs : List Bool} (h : List.Forall₂ (fun s b => Verdict cx s v b) ss bs) :
    Verdict cx (Lowering.allShape ss) v (bs.all id) := by
  match ss, h with
  | [], .nil => exact verdict_any (by simp) rfl
  | [s], .cons hs .nil => simpa [Lowering.allShape] using hs
  | s :: t :: ss, h => exact verdict_allOf h (by simp) rfl

/-- one of the types of a level must hold -/
theorem verdict_anyShape {ss : List Shape} {bs : List Bool} (h : List.Forall₂ (fun s b => Verdict cx s v b) ss bs) :
    Verdict cx (Lowering.anyShape ss) v (bs.any id) := by
  match ss, h with
  | [], .nil => exact verdict_anyOf .nil (by simp) rfl
  | [s], .cons hs .nil => simpa [Lowering.anyShape] using hs
  | s :: t :: ss, h => exact verdict_anyOf h (by simp) rfl

theorem forall₂_append_left {α β : Type} {R : α → β → Prop} {as as' : List α} {bs : List β}
    (h : List.Forall₂ R (as ++ as') bs) :
    ∃ cs cs', bs = cs ++ cs' ∧ List.Forall₂ R as cs ∧ List.Forall₂ R as' cs' := by
  induction as generalizing bs with
  | nil => exact ⟨[], bs, rfl, .nil, h⟩
  | cons a as ih =>
    obtain _ | ⟨hb, h⟩ := h
    obtain ⟨cs, cs', rfl, h1, h2⟩ := ih h
    exact ⟨_ :: cs, cs', rfl, .cons hb h1, h2⟩

theorem answers_places {α : Type} {check : α → Pointer → Option (List Issue)} (place : Nat → Pointer) {as : List α}
    {bs : List Bool} (h : List.Forall₂ (fun a b => ∀ p, (check a p).map List.isEmpty = some b) as bs) (k : Nat) :
    Answers ((as.zipIdx k).map fun e => check e.1 (place e.2)) bs := by
  induction h generalizing k with
  | nil => exact .nil
  | cons hx _ ih => exact .cons (hx _) (ih (k + 1))

theorem answers_cons {is : List Issue} {b : Bool} {os : List (Option (List Issue))} {bs : List Bool} (h : is.isEmpty = b)
    (hs : Answers os bs) : Answers (some is :: os) (b :: bs) :=
  .cons (congrArg some h) hs

theorem answers_append {os os' : List (Option (List Issue))} {bs bs' : List Bool} (h : Answers os bs)
    (h' : Answers os' bs') : Answers (os ++ os') (bs ++ bs') :=
  List.rel_append h h'

theorem isEmpty_ifUnique (c : Bool) (xs : List Value) (p : Pointer) :
    (if c then unique cx xs p else []).isEmpty = (!c || distinct xs) := by
  cases c <;> simp [isEmpty_unique]

theorem verdict_array {item : Shape} {l : ArrayLimits} {xs : List Value} {bs : List Bool} (hi : item.isAbsent = false)
    (h : List.Forall₂ (fun x b => Verdict cx item x b) xs bs) (hr : base.rules = []) :
    Verdict cx (.array base item l) (.array xs)
      (withinLimits xs.length l.minItems l.maxItems && (!l.unique || distinct xs) && bs.all id) := by
  obtain ⟨n, h⟩ := Verdict.common h
  refine verdict_of_own (n := n) (Bool.and_false _) hr fun p => ?_
  simp only [own, hi, Bool.false_eq_true, if_false]
  have hflat : (length cx p "items" xs.length l.minItems l.maxItems ++ if l.unique then unique cx xs p else []).isEmpty =
      (withinLimits xs.length l.minItems l.maxItems && (!l.unique || distinct xs)) := by
    rw [isEmpty_append, isEmpty_length, isEmpty_ifUnique]
  exact concat_answers (answers_cons hflat (answers_places (fun i => p.index (0 + i : Nat)) h 0))

/-- the items of a tuple with the shapes of their positions, those beyond with the shape of the rest -/
def positioned (positions : List Shape) (rest : Shape) (xs : List Value) : List (Value × Shape) :=
  xs.zip positions ++ if rest.isAbsent then [] else (xs.drop positions.length).map (·, rest)

theorem verdict_tuple {positions : List Shape} {rest : Shape} {l : TupleLimits} {xs : List Value} {bs : List Bool}
    (h : List.Forall₂ (fun (e : Value × Shape) b => Verdict cx e.2 e.1 b) (positioned positions rest xs) bs)
    (hr : base.rules = []) :
    Verdict cx (.tuple base positions rest l) (.array xs)
      (withinLimits xs.length none l.maxItems && (!l.unique || distinct xs)
        && withinLimits xs.length (some l.minItems) (if l.closed then some (positions.length : Int) else none)
        && bs.all id) := by
  obtain ⟨n, h⟩ := Verdict.common (v := Prod.fst) (s := Prod.snd) h
  refine verdict_of_own (n := n) (Bool.and_false _) hr fun p => ?_
  obtain ⟨cs, ds, rfl, hlisted, hbeyond⟩ := forall₂_append_left h
  have hrest : Answers (if rest.isAbsent then []
      else (xs.drop positions.length).zipIdx.map fun e => issues cx n rest e.1 (p.index (positions.length + e.2 : Nat)))
      ds := by
    cases habs : rest.isAbsent with
    | true => simpa [habs] using hbeyond
    | false =>
      simp only [habs, Bool.false_eq_true, if_false, List.forall₂_map_left_iff] at hbeyond ⊢
      exact List.forall₂_map_left_iff.1 (answers_places (fun i => p.index (positions.length + i : Nat)) hbeyond 0)
  have hflat : (length cx p "items" xs.length none l.maxItems ++ (if l.unique then unique cx xs p else [])
      ++ length cx p "items" xs.length (some l.minItems) (if l.closed then some (positions.length : Int) else none)).isEmpty
      = (withinLimits xs.length none l.maxItems && (!l.unique || distinct xs)
        && withinLimits xs.length (some l.minItems) (if l.closed then some (positions.length : Int) else none)) := by
    rw [isEmpty_append, isEmpty_append, isEmpty_length, isEmpty_length, isEmpty_ifUnique]
  refine concat_answers (answers_cons hflat (answers_append ?_ hrest))
  exact answers_places (fun i => p.index i) hlisted 0

/-- the members of an object that no field lists, where they have a shape of their own -/
def beyondFields (fields : List (String × Shape)) (q : ObjectPolicy) (additional : Shape) (fs : Dict Value) :
    List (String × Value) :=
  if q.unknown = .checked && !additional.isAbsent then unknownEntries fs (fields.map (·.1)) else []

theorem verdict_object {fields : List (String × Shape)} {additional : Shape} {q : ObjectPolicy} {fs : Dict Value}
    {bs cs : List Bool}
    (hlisted : List.Forall₂ (fun e b => match Dict.get? fs e.1 with
      | some x => Verdict cx e.2 x b
      | none => b = true) fields bs)
    (hbeyond : List.Forall₂ (fun e b => Verdict cx additional e.2 b) (beyondFields fields q additional fs) cs)
    (hr : base.rules = []) :
    Verdict cx (.object base fields additional q) (.object fs)
      (q.required.all (Dict.has fs ·) && bs.all id
        && (q.unknown ≠ .strict || fs.all fun e => (fields.map (·.1)).contains e.1) && cs.all id
        && (q.keyPattern = "" || fs.all fun e => matchesText q.keyPattern e.1)) := by
  -- a field without a member counts as one that accepts it
  obtain ⟨n, hlisted⟩ := Verdict.common
    (s := fun e : String × Shape => if (Dict.get? fs e.1).isSome then e.2 else .any {})
    (v := fun e => (Dict.get? fs e.1).getD .null) (hlisted.imp fun e b h => by
      cases hx : Dict.get? fs e.1 with
      | some x => simpa [hx] using h
      | none =>
        obtain rfl : b = true := by simpa [hx] using h
        simpa using verdict_any (by rfl) rfl)
  obtain ⟨m, hbeyond⟩ := Verdict.common (s := fun _ : String × Value => additional) (v := Prod.snd) hbeyond
  refine verdict_of_own (n := max n m) (Bool.and_false _) hr fun p => ?_
  have hfields : Answers (fields.map fun e => match Dict.get? fs e.1 with
      | some x => issues cx (max n m) e.2 x (p.field e.1)
      | none => some []) bs := by
    refine List.forall₂_map_left_iff.2 (hlisted.imp fun e b h => ?_)
    have h' := Verdict.later h (le_max_left n m) (p.field e.1)
    cases hx : Dict.get? fs e.1 with
    | some x => simpa [hx] using h'
    | none =>
      rw [hx] at h'
      cases hm : max n m with
      | zero => rw [hm] at h'; cases h'
      | succ k => rw [hm] at h'; exact h'
  have hmore : Answers ((beyondFields fields q additional fs).map fun e =>
      issues cx (max n m) additional e.2 (p.field e.1)) cs :=
    List.forall₂_map_left_iff.2 (hbeyond.imp fun e b h => Verdict.later h (le_max_right n m) _)
  have hkeys : Answers [some (keyPattern cx q.keyPattern fs p)]
      [decide (q.keyPattern = "") || fs.all fun e => matchesText q.keyPattern e.1] :=
    answers_cons (isEmpty_keyPattern cx _ _ _) .nil
  have hmissing := (isEmpty_missing cx fs p (q.requiredKeys fields)).trans (all_requiredKeys q fields _)
  simp only [own]
  by_cases hstrict : q.unknown = .strict
  · obtain rfl : cs = [] := by simpa [beyondFields, hstrict] using hmore
    have hunknown := answers_cons (isEmpty_unknownKeys cx fs (fields.map (·.1)) p) List.Forall₂.nil
    rw [if_pos hstrict, List.cons_append]
    refine (concat_answers (answers_cons hmissing (answers_append (answers_append hfields hunknown) hkeys))).trans ?_
    simp [hstrict, Bool.and_assoc]
  · have hbeyond : (if q.unknown = .checked && !additional.isAbsent then
        (unknownEntries fs (fields.map (·.1))).map fun e => issues cx (max n m) additional e.2 (p.field e.1) else []) =
        (beyondFields fields q additional fs).map fun e => issues cx (max n m) additional e.2 (p.field e.1) := by
      unfold beyondFields
      split <;> rfl
    rw [if_neg hstrict, hbeyond, List.cons_append]
    refine (concat_answers (answers_cons hmissing (answers_append (answers_append hfields hmore) hkeys))).trans ?_
    simp [hstrict, Bool.and_assoc]

/-- a value of another type is refused -/
theorem verdict_object_of_ne {fields : List (String × Shape)} {additional : Shape} {q : ObjectPolicy}
    (hv : v.isObject = false) (hn : (base.nullable && v.isNull) = false) (hr : base.rules = []) :
    Verdict cx (.object base fields additional q) v false := by
  refine verdict_of_own (n := 0) hn hr fun p => ?_
  cases v <;> first | rfl | cases hv

theorem verdict_array_of_ne {item : Shape} {l : ArrayLimits} (hv : v.isArray = false)
    (hn : (base.nullable && v.isNull) = false) (hr : base.rules = []) : Verdict cx (.array base item l) v false := by
  refine verdict_of_own (n := 0) hn hr fun p => ?_
  cases v <;> first | rfl | cases hv

theorem verdict_tuple_of_ne {positions : List Shape} {rest : Shape} {l : TupleLimits} (hv : v.isArray = false)
    (hn : (base.nullable && v.isNull) = false) (hr : base.rules = []) :
    Verdict cx (.tuple base positions rest l) v false := by
  refine verdict_of_own (n := 0) hn hr fun p => ?_
  cases v <;> first | rfl | cases hv

end Shapes

end Check

/-- **A program has the verdict of its root.** -/
theorem Program.validate_verdict {p : Program} {coerce : Bool} {t : Wording} {v : Value} {b : Bool}
    (h : Check.Verdict ⟨p, coerce, t⟩ p.root v b) : ∃ is, p.validate coerce t v = .ok is ∧ is.isEmpty = b := by
  obtain ⟨fuel, h⟩ := h
  obtain ⟨is, his, hb⟩ := Option.map_eq_some_iff.1 (h Pointer.root)
  exact ⟨is, Check.validate_eq_ok.2 ⟨fuel, his⟩, hb⟩

end Schemata
