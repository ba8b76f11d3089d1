import Mathlib.Tactic
import Schemata.Proofs.Program.Meets
import Schemata.Proofs.Program.Tagged

/-!
The variant that a discriminator selects.

Issues tell where they were found, but whether there are any does not depend on the place: a walk that starts at another
pointer ends alike (`issues_moved`), so a walk from the root of a value gives its verdict everywhere (`verdict_of_root`).

The mapping of a dispatch leads from each tag to the last variant that has it (`places_cases`), and a value goes to the
variant whose tag its member is displayed as (`Selects`). Where no tags are asked for, or one variant has none, every
variant is tried.

Main result: `Choice.tells`. A level that is a choice and nothing else accepts a value that one variant alone accepts just
when it tries every variant, or selects this one.
-/

namespace Schemata.Check

/-! ## Where a value stands -/

variable {cx : Context} {check : Shape → Value → Pointer → Option (List Issue)} {s : Shape} {v : Value} {a a' : Pointer}

theorem isEmpty_ruleIssue (r : Rule) : (ruleIssue cx r v a').isEmpty = (ruleIssue cx r v a).isEmpty := by
  unfold ruleIssue
  cases Rule.compile r.expr with
  | error e => rfl
  | ok prog =>
    simp only
    cases prog.holds v with
    | error e => rfl
    | ok b => cases b <;> rfl

theorem rules_moved {b : Base} {o o' : Option (List Issue)} (h : Agree o o') :
    Agree (o.map (rules cx b v a)) (o'.map (rules cx b v a')) := by
  intro r hr
  obtain ⟨is, his, rfl⟩ := Option.map_eq_some_iff.1 hr
  obtain ⟨js, hjs, hempty⟩ := h is his
  refine ⟨_, by rw [hjs, Option.map_some], ?_⟩
  unfold rules
  rw [hempty]
  split
  · rw [Bool.eq_iff_iff, List.isEmpty_iff, List.isEmpty_iff, List.flatMap_eq_nil_iff, List.flatMap_eq_nil_iff]
    refine forall₂_congr fun r _ => ?_
    rw [← List.isEmpty_iff, ← List.isEmpty_iff, isEmpty_ruleIssue]
  · exact hempty

/-- a dispatch selects the same variant everywhere -/
theorem select_moved (d : Dispatch) (vs : List Shape) :
    (∃ t, select cx d vs v a = .ok t ∧ select cx d vs v a' = .ok t) ∨
      ∃ is js, select cx d vs v a = .error is ∧ select cx d vs v a' = .error js := by
  unfold select
  split
  · split
    · exact .inr ⟨_, _, rfl, rfl⟩
    · split
      · exact .inl ⟨_, rfl, rfl⟩
      · exact .inr ⟨_, _, rfl, rfl⟩
  · exact .inr ⟨_, _, rfl, rfl⟩

theorem own_moved (hcheck : ∀ t x b b', Agree (check t x b) (check t x b')) :
    Agree (own cx check s v a) (own cx check s v a') := by
  cases s with
  | absent => exact Agree.rfl
  | foreign b => exact Agree.rfl
  | any b => exact Agree.rfl
  | primitive b q => exact agree_some (by rw [isEmpty_primitive, isEmpty_primitive])
  | enum b vs => exact agree_some (by simp [enum])
  | ref b name =>
    simp only [own]
    split
    · exact hcheck _ v a a'
    · exact Agree.rfl
  | array b item l =>
    cases v with
    | array xs =>
      have hflat : Agree (some (length cx a "items" xs.length l.minItems l.maxItems ++ if l.unique then unique cx xs a else []))
          (some (length cx a' "items" xs.length l.minItems l.maxItems ++ if l.unique then unique cx xs a' else [])) :=
        agree_some (by simp only [isEmpty_append, isEmpty_length, isEmpty_ifUnique])
      simp only [own]
      split
      · exact hflat
      · exact concat_agree (.cons hflat (forall₂_map fun e _ => hcheck item e.1 _ _))
    | _ => exact agree_some rfl
  | tuple b positions rest l =>
    cases v with
    | array xs =>
      simp only [own]
      refine concat_agree (.cons (agree_some ?_) (List.rel_append (forall₂_map fun e _ => hcheck e.1.2 e.1.1 _ _) ?_))
      · simp only [isEmpty_append, isEmpty_length, isEmpty_ifUnique]
      · split
        · exact .nil
        · exact forall₂_map fun e _ => hcheck rest e.1 _ _
    | _ => exact agree_some rfl
  | object b fields additional q =>
    cases v with
    | object fs =>
      simp only [own]
      refine concat_agree (.cons (agree_some ?_) (List.rel_append (List.rel_append (forall₂_map fun e _ => ?_) ?_)
        (.cons (agree_some ?_) .nil)))
      · rw [isEmpty_missing, isEmpty_missing]
      · obtain ⟨k, t⟩ := e
        cases hget : Dict.get? fs k with
        | none => exact Agree.rfl
        | some x => exact hcheck t x _ _
      · split_ifs
        · exact .cons (agree_some (by rw [isEmpty_unknownKeys, isEmpty_unknownKeys])) .nil
        · exact forall₂_map fun e _ => hcheck additional e.2 _ _
        · exact .nil
      · rw [isEmpty_keyPattern, isEmpty_keyPattern]
    | _ => exact agree_some rfl
  | oneOf b vs d =>
    simp only [own]
    split
    · exact oneOf_agree (forall₂_map fun t _ => hcheck t v a a')
    · rcases @select_moved cx v a a' d vs with ⟨t, ht, ht'⟩ | ⟨is, js, his, hjs⟩
      · rw [ht, ht']
        exact hcheck t v a a'
      · rw [his, hjs]
        exact agree_some ((select_error hjs).trans (select_error his).symm)
  | anyOf b vs => exact anyOf_agree (List.forall₂_same.2 fun t _ => hcheck t v a a')
  | allOf b ps => exact concat_agree (forall₂_map fun t _ => hcheck t v a a')

/-- **A value is accepted everywhere or nowhere.** -/
theorem issues_moved (fuel : Nat) (s : Shape) (v : Value) (a a' : Pointer) :
    Agree (issues cx fuel s v a) (issues cx fuel s v a') := by
  induction fuel generalizing s v a a' with
  | zero => exact fun is h => nomatch h
  | succ fuel ih =>
    rw [issues_succ, issues_succ]
    split
    · exact Agree.rfl
    · exact rules_moved (own_moved ih)

/-- a walk from the root of a value gives its verdict -/
theorem verdict_of_root {fuel : Nat} {is : List Issue} (h : issues cx fuel s v Pointer.root = some is) :
    Verdict cx s v is.isEmpty := by
  refine ⟨fuel, fun a => ?_⟩
  obtain ⟨js, hjs, hempty⟩ := issues_moved fuel s v Pointer.root a is h
  rw [hjs, Option.map_some, hempty]

end Schemata.Check

namespace Schemata

namespace Check

variable {cx : Context} {base : Base} {ss : List Shape} {s : Shape} {d : Dispatch} {v : Value}

/-! ## Verdicts of choices -/

theorem answers_mapM {os : List (Option (List Issue))} {bs : List Bool} (h : Answers os bs) :
    ∃ rs, os.mapM id = some rs ∧ rs.map List.isEmpty = bs := by
  induction h with
  | nil => exact ⟨[], rfl, rfl⟩
  | @cons o b os bs ho _ ih =>
    obtain ⟨is, rfl, rfl⟩ := Option.map_eq_some_iff.1 ho
    obtain ⟨rs, hrs, rfl⟩ := ih
    exact ⟨is :: rs, by rw [List.mapM_cons, hrs]; rfl, rfl⟩

/-- without dispatch, exactly one variant must hold -/
theorem verdict_oneOf {bs : List Bool} (h : List.Forall₂ (fun s b => Verdict cx s v b) ss bs)
    (hn : (base.nullable && v.isNull) = false) (hr : base.rules = []) :
    Verdict cx (.oneOf base ss {}) v (decide (bs.count true = 1)) := by
  obtain ⟨n, h⟩ := Verdict.common h
  refine verdict_of_own (n := n) hn hr fun p => ?_
  obtain ⟨rs, hrs, rfl⟩ := answers_mapM (List.forall₂_map_left_iff.2 (h.imp fun s b hs => hs p))
  have hcount : (rs.map List.isEmpty).count true = (rs.filter List.isEmpty).length := by
    rw [List.count_eq_countP, List.countP_map, List.countP_eq_length_filter]
    congr 2
    funext is
    simp
  have hown : own cx (issues cx n) (.oneOf base ss {}) v p = oneOf cx ss.length p (ss.map fun s => issues cx n s v p) := rfl
  rw [hown, oneOf, hrs, hcount]
  simp only
  generalize (rs.filter List.isEmpty).length = matched
  match matched with
  | 0 => rfl
  | 1 => rfl
  | k + 2 => simp

/-- the shape at the place accepts the value, and no other does -/
def Alone (cx : Context) (ss : List Shape) (v : Value) (i : Nat) : Prop :=
  ∀ j s, ss[j]? = some s → ∃ fuel is, issues cx fuel s v Pointer.root = some is ∧ (is = [] ↔ j = i)

theorem Alone.verdict {i j : Nat} (h : Alone cx ss v i) (hs : ss[j]? = some s) : Verdict cx s v (decide (j = i)) := by
  obtain ⟨fuel, is, his, hiff⟩ := h j s hs
  have hempty : is.isEmpty = decide (j = i) := by
    rw [Bool.eq_iff_iff, List.isEmpty_iff, hiff, decide_eq_true_eq]
  exact hempty ▸ verdict_of_root his

/-- the variant that holds alone is the one that is found -/
theorem verdict_alone {i : Nat} (hi : i < ss.length) (h : Alone cx ss v i)
    (hn : (base.nullable && v.isNull) = false) (hr : base.rules = []) : Verdict cx (.oneOf base ss {}) v true := by
  have hall : List.Forall₂ (fun s b => Verdict cx s v b) ss ((List.range ss.length).map fun j => decide (j = i)) := by
    refine List.forall₂_iff_get.2 ⟨by simp, fun j hj hj' => ?_⟩
    simpa using h.verdict (List.getElem?_eq_getElem hj)
  have hone : ((List.range ss.length).map fun j => decide (j = i)).count true = 1 := by
    have hplace : ((List.range ss.length).map fun j => decide (j = i)).count true = (List.range ss.length).count i := by
      rw [List.count_eq_countP, List.count_eq_countP, List.countP_map]
      exact congrArg (List.countP · _) (funext fun j => by simp [beq_eq_decide])
    rw [hplace, List.count_eq_one_of_mem List.nodup_range (List.mem_range.2 hi)]
  simpa [hone] using verdict_oneOf hall hn hr

theorem verdict_selected {b : Bool} (hd : d.property ≠ "") (hs : ∀ p, select cx d ss v p = .ok s) (h : Verdict cx s v b)
    (hn : (base.nullable && v.isNull) = false) (hr : base.rules = []) : Verdict cx (.oneOf base ss d) v b := by
  obtain ⟨n, h⟩ := h
  refine verdict_of_own (n := n) hn hr fun p => ?_
  simp only [own, if_neg hd, hs]
  exact h p

theorem verdict_unselected (hd : d.property ≠ "") (h : ∀ p s, select cx d ss v p ≠ .ok s)
    (hn : (base.nullable && v.isNull) = false) (hr : base.rules = []) : Verdict cx (.oneOf base ss d) v false := by
  refine verdict_of_own (n := 0) hn hr fun p => ?_
  simp only [own, if_neg hd]
  cases hs : select cx d ss v p with
  | ok s => exact absurd hs (h p s)
  | error is => exact congrArg some (select_error hs)

/-- a value that one variant alone accepts is accepted just when it is handed to this one -/
theorem tells_selected {property : String} (hproperty : property ≠ "") {m : Dict Int} {i : Nat}
    (hm : ∀ t n, Dict.get? m t = some n → ∃ j : Nat, n = j ∧ j < ss.length)
    (h : Alone cx ss v i) : Tells cx (.oneOf {} ss { property, mapping := some m }) v
      (∃ fs x, v = .object fs ∧ Dict.get? fs property = some x ∧ Dict.get? m x.display = some (i : Int)) := by
  have hbare : (({} : Base).nullable && v.isNull) = false := rfl
  cases v with
  | object fs =>
    cases hx : Dict.get? fs property with
    | none => exact (verdict_unselected hproperty (fun p s => by simp [select, hx]) hbare rfl).tells (by simp [hx])
    | some x =>
      cases hn : Dict.get? m x.display with
      | none => exact (verdict_unselected hproperty (fun p s => by simp [select, hx, hn]) hbare rfl).tells (by simp [hx, hn])
      | some n =>
        obtain ⟨j, rfl, hj⟩ := hm _ _ hn
        have hplace := List.getElem?_eq_getElem hj
        have hselect (p : Pointer) : select cx { property, mapping := some m } ss (.object fs) p = .ok ss[j] :=
          select_index (d := { property, mapping := some m }) hx hn hplace p
        refine (verdict_selected hproperty hselect (h.verdict hplace) hbare rfl).tells ?_
        simp [hx, hn]
  | _ => exact (verdict_unselected hproperty (fun p s => by simp [select]) hbare rfl).tells (by simp)

end Check

namespace Lowering

open Schema (Body ofBody)
open Check (Tells)

variable {L : Context} {b : Body} {d : Discriminator} {vs : List Schema} {ts : List String} {v : Value} {i j : Nat} {t : String}

/-! ## Tags -/

/-- the mapping of tags to the places of their variants, from a place on -/
def places : (i : Nat) → Dict Int → List String → Dict Int
  | _, acc, [] => acc
  | i, acc, t :: ts => places (i + 1) (Dict.insert acc t i) ts

/-- the last place where a tag stands -/
structure IsLast (ts : List String) (t : String) (i : Nat) : Prop where
  here : ts[i]? = some t
  later : ∀ j, i < j → ts[j]? ≠ some t

theorem IsLast.unique (hi : IsLast ts t i) (hj : IsLast ts t j) : i = j := by
  rcases Nat.lt_trichotomy i j with h | h | h
  · exact absurd hj.here (hi.later j h)
  · exact h
  · exact absurd hi.here (hj.later i h)

theorem IsLast.cons {u : String} (h : IsLast ts t i) : IsLast (u :: ts) t (i + 1) where
  here := h.here
  later j hj := by
    obtain ⟨k, rfl⟩ : ∃ k, j = k + 1 := ⟨j - 1, by omega⟩
    exact h.later k (by omega)

/-- **Of two variants with one tag the later one stands.** -/
theorem places_cases (ts : List String) (t : String) (i : Nat) (acc : Dict Int) :
    (t ∉ ts ∧ Dict.get? (places i acc ts) t = Dict.get? acc t) ∨
      ∃ j, IsLast ts t j ∧ Dict.get? (places i acc ts) t = some ((i + j : Nat) : Int) := by
  induction ts generalizing i acc with
  | nil => exact .inl ⟨List.not_mem_nil, rfl⟩
  | cons u ts ih =>
    rw [places]
    rcases ih (i + 1) (Dict.insert acc u i) with ⟨hnone, hget⟩ | ⟨j, hlast, hget⟩
    · rw [hget, Dict.get?_insert]
      by_cases hu : u = t
      · refine .inr ⟨0, ⟨by rw [hu]; rfl, fun j hj => ?_⟩, by rw [if_pos hu]; simp⟩
        obtain ⟨k, rfl⟩ : ∃ k, j = k + 1 := ⟨j - 1, by omega⟩
        exact fun hk => hnone (List.mem_of_getElem? (by simpa using hk))
      · exact .inl ⟨by simp [hnone, Ne.symm hu], if_neg hu⟩
    · exact .inr ⟨j + 1, hlast.cons, by rw [hget]; congr 2; omega⟩

theorem get?_places {n : Int} : Dict.get? (places 0 [] ts) t = some n ↔ ∃ j : Nat, n = j ∧ IsLast ts t j := by
  rcases places_cases ts t 0 [] with ⟨hnone, hget⟩ | ⟨j, hlast, hget⟩
  · rw [hget]
    exact iff_of_false nofun fun ⟨j, _, hlast⟩ => hnone (List.mem_of_getElem? hlast.here)
  · rw [hget, Nat.zero_add, Option.some.injEq]
    constructor
    · rintro rfl
      exact ⟨j, rfl, hlast⟩
    · rintro ⟨k, rfl, hk⟩
      rw [hlast.unique hk]

theorem isLast_of_nodup (hts : ts.Nodup) (hi : ts[i]? = some t) : IsLast ts t i where
  here := hi
  later j hj hj' := by
    obtain ⟨hlt, -⟩ := List.getElem?_eq_some_iff.1 hi
    exact absurd ((List.getElem?_inj hlt hts).1 (hi.trans hj'.symm)) hj.ne

theorem tags_eq (h : List.Forall₂ (fun s t => tag L d s = .ok (some t)) vs ts) (i : Nat) (acc : Dict Int) :
    tags L d i acc vs = .ok (some (places i acc ts)) := by
  induction h generalizing i acc with
  | nil => rfl
  | cons hs _ ih =>
    rw [tags, hs]
    exact ih (i + 1) _

/-- either some variant has no tag, or the tags of all of them are mapped to places -/
theorem tags_cases {acc : Dict Int} {m : Option (Dict Int)} (h : tags L d i acc vs = .ok m) :
    (m = none ∧ ∃ s ∈ vs, tag L d s = .ok none) ∨
      ∃ ts, m = some (places i acc ts) ∧ List.Forall₂ (fun s t => tag L d s = .ok (some t)) vs ts := by
  induction vs generalizing i acc with
  | nil => exact .inr ⟨[], (Except.ok.inj h).symm, .nil⟩
  | cons s vs ih =>
    rw [tags] at h
    obtain ⟨o, ho, h⟩ := except_bind_ok h
    cases o with
    | none => exact .inl ⟨(Except.ok.inj h).symm, s, List.mem_cons_self, ho⟩
    | some t =>
      rcases ih h with ⟨hm, s', hs', hnone⟩ | ⟨ts, hm, hts⟩
      · exact .inl ⟨hm, s', List.mem_cons_of_mem s hs', hnone⟩
      · exact .inr ⟨t :: ts, hm, .cons ho hts⟩

/-- tags are asked for, and every variant has one -/
structure Dispatched (L : Context) (d : Discriminator) (vs : List Schema) : Prop where
  property : d.propertyName ≠ ""
  asked : L.options.discriminator = true
  tagged : ∀ s ∈ vs, ∃ t, tag L d s = .ok (some t)

theorem dispatch_cases {k : Keywords} (hk : k.discriminator = some d) {e : Dispatch} (h : dispatch L k vs = .ok e) :
    (e = {} ∧ ¬ Dispatched L d vs) ∨
      ∃ ts, e = { property := d.propertyName, mapping := some (places 0 [] ts) } ∧ Dispatched L d vs ∧
        List.Forall₂ (fun s t => tag L d s = .ok (some t)) vs ts := by
  unfold dispatch at h
  simp only [hk] at h
  split at h
  · rename_i hoff
    refine .inl ⟨(Except.ok.inj h).symm, fun hd => ?_⟩
    simp [hd.property, hd.asked] at hoff
  · rename_i hon
    simp only [Bool.or_eq_true, decide_eq_true_eq, Bool.not_eq_true', not_or, Bool.not_eq_false] at hon
    obtain ⟨m, hm, he⟩ := except_map_ok h
    rcases tags_cases hm with ⟨rfl, s, hs, hnone⟩ | ⟨ts, rfl, hts⟩
    · refine .inl ⟨he.symm, fun hd => ?_⟩
      obtain ⟨t, ht⟩ := hd.tagged s hs
      rw [hnone] at ht
      cases ht
    · refine .inr ⟨ts, he.symm, ⟨hon.1, hon.2, fun s hs => ?_⟩, hts⟩
      obtain ⟨t, -, ht⟩ := forall₂_mem hts hs
      exact ⟨t, ht⟩

/-! ## Levels -/

/-- a value has the tag of a variant, and no later variant has this tag -/
def Selects (L : Context) (d : Discriminator) (vs : List Schema) (v : Value) (i : Nat) : Prop :=
  ∃ fs x s, v = .object fs ∧ Dict.get? fs d.propertyName = some x ∧ vs[i]? = some s ∧ tag L d s = .ok (some x.display) ∧
    ∀ j s', i < j → vs[j]? = some s' → tag L d s' ≠ .ok (some x.display)

theorem selects_iff (hts : List.Forall₂ (fun s t => tag L d s = .ok (some t)) vs ts) :
    Selects L d vs v i ↔ ∃ fs x, v = .object fs ∧ Dict.get? fs d.propertyName = some x ∧ IsLast ts x.display i := by
  constructor
  · rintro ⟨fs, x, s, hv, hx, hs, htag, hlater⟩
    obtain ⟨t, ht, hst⟩ := Check.forall₂_index hts hs
    rw [htag] at hst
    cases hst
    refine ⟨fs, x, hv, hx, ht, fun j hj ht' => ?_⟩
    obtain ⟨s', hs', hst'⟩ := Check.forall₂_index hts.flip ht'
    exact hlater j s' hj hs' hst'
  · rintro ⟨fs, x, hv, hx, hlast⟩
    obtain ⟨s, hs, hst⟩ := Check.forall₂_index hts.flip hlast.here
    refine ⟨fs, x, s, hv, hx, hs, hst, fun j s' hj hs' htag => ?_⟩
    obtain ⟨t, ht, hst'⟩ := Check.forall₂_index hts hs'
    rw [htag] at hst'
    cases hst'
    exact hlast.later j hj ht

/-- a level that is a choice with a discriminator, and nothing else -/
structure Choice (b : Body) (d : Discriminator) (vs : List Schema) : Prop where
  ref : b.own.ref = ""
  untyped : impliedTypes b = []
  unlisted : listed b.own = []
  rules : b.own.rules = []
  strict : b.own.nullable = false
  discriminator : b.own.discriminator = some d
  oneOf : b.oneOf.getD [] = vs
  anyOf : b.anyOf.getD [] = []
  allOf : b.allOf.getD [] = []

theorem lowerGiven_eq (o : Option (List Schema)) : lowerGiven L o = lowerList L (o.getD []) := by
  cases o <;> rfl

theorem Choice.shape (hb : Choice b d vs) (hvs : vs ≠ []) {x : Shape} (h : lower L (ofBody b) = .ok x) :
    ∃ ones e, lowerList L vs = .ok ones ∧ dispatch L b.own vs = .ok e ∧ x = .oneOf {} ones e := by
  obtain ⟨shapes, nullable, anys, ones, e, alls, hshapes, hanys, hones, he, halls, -, rfl⟩ := lower_parts hb.ref h
  rw [lowerGiven_eq, hb.anyOf] at hanys
  rw [lowerGiven_eq, hb.allOf] at halls
  rw [lowerGiven_eq, hb.oneOf] at hones
  rw [hb.untyped] at hshapes
  cases hanys
  cases halls
  cases hshapes
  have hne : ones.isEmpty = false := by
    cases lowerList_ok hones with
    | nil => exact absurd rfl hvs
    | cons => rfl
  rw [dispatched, hne, if_neg (by simp), hb.oneOf] at he
  refine ⟨ones, e, hones, he, ?_⟩
  have hparts : partsOf b [] [] ones e [] = [.oneOf {} ones e] := by
    simp [partsOf, hb.unlisted, valueParts, hne]
  rw [hparts, allShape, Shape.mapBase]
  simp [hb.strict, hb.rules]

/-- **A choice accepts what one variant alone accepts** just when it tries every variant, or selects this one. -/
theorem Choice.tells (hb : Choice b d vs) {x : Shape} (h : lower L (ofBody b) = .ok x) :
    ∃ ones, lowerList L vs = .ok ones ∧ ∀ (cx : Check.Context) v i, i < vs.length →
      Check.Alone cx ones v i → Tells cx x v (Dispatched L d vs → Selects L d vs v i) := by
  by_cases hvs : vs = []
  · subst hvs
    exact ⟨[], rfl, fun cx v i hi => absurd hi (Nat.not_lt_zero i)⟩
  obtain ⟨ones, e, hones, he, rfl⟩ := hb.shape hvs h
  refine ⟨ones, hones, fun cx v i hi halone => ?_⟩
  have hlength : vs.length = ones.length := (lowerList_ok hones).length_eq
  have hbare : (({} : Base).nullable && v.isNull) = false := rfl
  rcases dispatch_cases hb.discriminator he with ⟨rfl, hnot⟩ | ⟨ts, rfl, hdispatched, hts⟩
  · exact (Check.verdict_alone (hlength ▸ hi) halone hbare rfl).tells (by simp [hnot])
  · have hplaces : ∀ t n, Dict.get? (places 0 [] ts) t = some n → ∃ j : Nat, n = j ∧ j < ones.length := by
      intro t n hn
      obtain ⟨j, rfl, hlast⟩ := get?_places.1 hn
      obtain ⟨hj, -⟩ := List.getElem?_eq_some_iff.1 hlast.here
      exact ⟨j, rfl, by rwa [← hlength, hts.length_eq]⟩
    refine (Check.tells_selected hdispatched.property hplaces halone).congr ?_
    simp [hdispatched, selects_iff hts, get?_places]

end Lowering

end Schemata
