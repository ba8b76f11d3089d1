import Mathlib.Tactic
import Schemata.Proofs.Program.Reached
import Schemata.Proofs.Program.Verdict

/-!
Checks with and without coercion.

With coercion a number and a truth value may also be given as text, so a scalar shape accepts more. What is built from
shapes accepts more with them, but for one thing: a union whose variants are all tried must have exactly one that accepts,
and coercion can add a second. `Visit` is one check of a walk and `Asks` says which further checks it asks for.

Main result: `validate_coerced`. A value that is accepted without coercion is accepted with it, or the walk comes to
a union that is tried and accepts its part of the value without coercion and finds it ambiguous with coercion.
`coerced_ambiguous` is a document where that happens, and `validate_coerced_untried` says that it needs such a union.
-/

namespace Schemata

/-! ## Scalars -/

/-- a value keeps its number -/
theorem Value.reading_coerce {v : Value} {x : Float} (h : v.reading false = some x) : v.reading true = some x := by
  unfold Value.reading at h ⊢
  cases hv : v.number? with
  | some y =>
    rw [hv] at h
    exact h
  | none =>
    rw [hv] at h
    cases v <;> simp at h

/-- a scalar type accepts what it accepts without coercion -/
theorem Primitive.accepts_coerce {q : Primitive} {v : Value} (h : q.accepts false v = true) : q.accepts true v = true := by
  unfold Primitive.accepts at h ⊢
  cases hq : q.type with
  | number =>
    rw [hq] at h
    obtain ⟨x, hx, hbounds⟩ := (Option.any_eq_true _ _).1 h
    exact (Option.any_eq_true _ _).2 ⟨x, Value.reading_coerce hx, hbounds⟩
  | integer =>
    rw [hq] at h
    obtain ⟨x, hx, hbounds⟩ := (Option.any_eq_true _ _).1 h
    exact (Option.any_eq_true _ _).2 ⟨x, Value.reading_coerce hx, hbounds⟩
  | boolean =>
    rw [hq] at h
    cases v with
    | bool b => rfl
    | _ => cases h
  | string =>
    rw [hq] at h
    cases v with
    | string s => exact h
    | _ => cases h
  | null =>
    rw [hq] at h
    exact h
  | other n => rfl

namespace Check

/-! ## The checks of a walk -/

/-- one check of a walk: a shape, the part of the value that it looks at, and the place of that part -/
structure Visit where
  shape : Shape
  value : Value
  place : Pointer

/-- the issues that a visit finds -/
def Visit.issues (cx : Context) (fuel : Nat) (w : Visit) : Option (List Issue) :=
  Check.issues cx fuel w.shape w.value w.place

section

variable (cx : Context)

/-- the checks that a shape has made below itself -/
inductive Calls : Visit → Visit → Prop
  | item {b : Base} {shape : Shape} {l : ArrayLimits} {xs : List Value} {a : Pointer} {i : Nat} {x : Value}
      (hx : xs[i]? = some x) : Calls ⟨.array b shape l, .array xs, a⟩ ⟨shape, x, a.index i⟩
  | position {b : Base} {shapes : List Shape} {rest : Shape} {l : TupleLimits} {xs : List Value} {a : Pointer} {i : Nat}
      {x : Value} {t : Shape} (hx : xs[i]? = some x) (ht : shapes[i]? = some t) :
      Calls ⟨.tuple b shapes rest l, .array xs, a⟩ ⟨t, x, a.index i⟩
  | beyond {b : Base} {shapes : List Shape} {rest : Shape} {l : TupleLimits} {xs : List Value} {a : Pointer} {i : Nat}
      {x : Value} (hx : xs[shapes.length + i]? = some x) :
      Calls ⟨.tuple b shapes rest l, .array xs, a⟩ ⟨rest, x, a.index (shapes.length + i : Nat)⟩
  | field {b : Base} {fields : List (String × Shape)} {additional : Shape} {q : ObjectPolicy} {fs : Dict Value}
      {a : Pointer} {k : String} {t : Shape} {x : Value} (ht : (k, t) ∈ fields) (hx : Dict.get? fs k = some x) :
      Calls ⟨.object b fields additional q, .object fs, a⟩ ⟨t, x, a.field k⟩
  | additional {b : Base} {fields : List (String × Shape)} {t : Shape} {q : ObjectPolicy} {fs : Dict Value} {a : Pointer}
      {k : String} {x : Value} (hq : q.unknown = .checked) (hx : (k, x) ∈ unknownEntries fs (fields.map (·.1))) :
      Calls ⟨.object b fields t q, .object fs, a⟩ ⟨t, x, a.field k⟩
  | tried {b : Base} {vs : List Shape} {d : Dispatch} {v : Value} {a : Pointer} {t : Shape} (hd : d.property = "")
      (ht : t ∈ vs) : Calls ⟨.oneOf b vs d, v, a⟩ ⟨t, v, a⟩
  | selected {b : Base} {vs : List Shape} {d : Dispatch} {v : Value} {a : Pointer} {t : Shape} (hd : d.property ≠ "")
      (ht : select cx d vs v a = .ok t) : Calls ⟨.oneOf b vs d, v, a⟩ ⟨t, v, a⟩
  | alternative {b : Base} {before after : List Shape} {t : Shape} {v : Value} {a : Pointer}
      (hbefore : ∀ u ∈ before, ∀ fuel, issues cx fuel u v a ≠ some []) :
      Calls ⟨.anyOf b (before ++ t :: after), v, a⟩ ⟨t, v, a⟩
  | part {b : Base} {ps : List Shape} {v : Value} {a : Pointer} {t : Shape} (ht : t ∈ ps) :
      Calls ⟨.allOf b ps, v, a⟩ ⟨t, v, a⟩
  | target {b : Base} {name : String} {v : Value} {a : Pointer} {t : Shape} (ht : cx.program.target? name = some t) :
      Calls ⟨.ref b name, v, a⟩ ⟨t, v, a⟩

/-- a visit asks for another: null that may be null is not looked at any further -/
def Asks (u w : Visit) : Prop := (u.shape.base.nullable && u.value.isNull) = false ∧ Calls cx u w

variable {cx}

/-- a visit only asks for shapes below its own, or behind its reference -/
theorem Calls.callee {u w : Visit} (h : Calls cx u w) : w.shape ∈ u.shape.callees cx.program := by
  cases h with
  | item hx => simp [Shape.callees]
  | position hx ht => exact List.mem_append_left _ (List.mem_of_getElem? ht)
  | beyond hx => simp [Shape.callees]
  | field ht hx => exact List.mem_append_left _ (List.mem_map_of_mem (f := (·.2)) ht)
  | additional hq hx => simp [Shape.callees]
  | tried hd ht => exact ht
  | selected hd ht => exact select_mem cx ht
  | alternative hbefore => simp [Shape.callees]
  | part ht => exact ht
  | target ht => simp [Shape.callees, ht]

end

/-- two walks of a shape over a value that end have the same answer -/
theorem issues_unique {cx : Context} {m n : Nat} {s : Shape} {v : Value} {a : Pointer} {is js : List Issue}
    (hm : issues cx m s v a = some is) (hn : issues cx n s v a = some js) : is = js := by
  have hm := issues_le (le_max_left m n) s v a is hm
  have hn := issues_le (le_max_right m n) s v a js hn
  exact Option.some.inj (hm.symm.trans hn)

/-! ## Answers that ease -/

/-- the second has an answer where the first has one, and finds nothing wrong where the first finds nothing wrong -/
def Eases (o o' : Option (List Issue)) : Prop := ∀ is, o = some is → ∃ js, o' = some js ∧ (is = [] → js = [])

theorem Eases.rfl {o : Option (List Issue)} : Eases o o := fun is h => ⟨is, h, id⟩

theorem eases_some {is js : List Issue} (h : is = [] → js = []) : Eases (some is) (some js) := by
  rintro _ ⟨⟩
  exact ⟨js, Eq.refl _, h⟩

theorem concat_eases {xs ys : List (Option (List Issue))} (h : List.Forall₂ Eases xs ys) : Eases (concat xs) (concat ys) := by
  induction h with
  | nil => exact Eases.rfl
  | @cons x y xs ys hxy _ ih =>
    intro r hr
    rw [concat_cons] at hr ⊢
    obtain ⟨a, rfl, hr⟩ := Option.bind_eq_some_iff.1 hr
    obtain ⟨b, hb, rfl⟩ := Option.map_eq_some_iff.1 hr
    obtain ⟨a', rfl, ha⟩ := hxy a (Eq.refl _)
    obtain ⟨b', hb', hb⟩ := ih b hb
    refine ⟨a' ++ b', by rw [hb', Option.bind_some, Option.map_some], ?_⟩
    intro hnil
    obtain ⟨hnil, hnil'⟩ := List.append_eq_nil_iff.1 hnil
    rw [ha hnil, hb hnil', List.append_nil]

variable {check check' : Shape → Option (List Issue)} {ss : List Shape}

/-- the second search may stop earlier, and goes no further than the first -/
theorem firstMatch_eases {i : Issue} (h : ∀ before t after, ss = before ++ t :: after →
      (∀ u ∈ before, ∃ js, check' u = some js ∧ js ≠ []) → Eases (check t) (check' t)) :
    Eases (firstMatch check i ss) (firstMatch check' i ss) := by
  induction ss with
  | nil => exact Eases.rfl
  | cons s ss ih =>
    intro r hr
    unfold firstMatch at hr ⊢
    have hs : Eases (check s) (check' s) := h [] s ss (Eq.refl _) (by simp)
    cases his : check s with
    | none =>
      rw [his] at hr
      cases hr
    | some is =>
      obtain ⟨js, hjs, hempty⟩ := hs is his
      rw [his] at hr
      rw [hjs]
      cases js with
      | nil => exact ⟨[], Eq.refl _, fun _ => Eq.refl _⟩
      | cons j js =>
        cases is with
        | nil => cases hempty (Eq.refl _)
        | cons k is =>
          refine ih (fun before t after heq hbefore => ?_) r hr
          refine h (s :: before) t after (by rw [heq, List.cons_append]) ?_
          exact List.forall_mem_cons.2 ⟨⟨j :: js, hjs, List.cons_ne_nil j js⟩, hbefore⟩

theorem anyOf_eases {cx cx' : Context} (hwording : cx'.wording = cx.wording) {a : Pointer}
    (h : ∀ before t after, ss = before ++ t :: after → (∀ u ∈ before, ∃ js, check' u = some js ∧ js ≠ []) →
      Eases (check t) (check' t)) : Eases (anyOf cx check a ss) (anyOf cx' check' a ss) := by
  have hreport : report cx' a .unionNoMatch [("variants", .nat ss.length)] =
      report cx a .unionNoMatch [("variants", .nat ss.length)] := by rw [report, report, hwording]
  match ss with
  | [] =>
    rw [anyOf, anyOf, hreport]
    · exact firstMatch_eases h
    all_goals simp
  | [s] => exact h [] s [] (Eq.refl _) (by simp)
  | s :: t :: ss =>
    rw [anyOf, anyOf, hreport]
    · exact firstMatch_eases h
    all_goals simp

/-- answers that ease one by one: as many find nothing wrong, or more -/
theorem mapM_eases {xs ys : List (Option (List Issue))} (h : List.Forall₂ Eases xs ys) {rs : List (List Issue)}
    (hrs : xs.mapM id = some rs) :
    ∃ rs', ys.mapM id = some rs' ∧ (rs.filter List.isEmpty).length ≤ (rs'.filter List.isEmpty).length := by
  simp only [mapM_eq_some] at hrs ⊢
  induction h generalizing rs with
  | nil =>
    cases hrs
    exact ⟨[], .nil, Nat.le_refl _⟩
  | cons hxy _ ih =>
    obtain _ | ⟨hr, hrs⟩ := hrs
    obtain ⟨r', hr', hempty⟩ := hxy _ hr
    obtain ⟨rs', hrs', hcount⟩ := ih hrs
    refine ⟨r' :: rs', .cons hr' hrs', ?_⟩
    rename_i r rs
    cases r with
    | nil => simpa [hempty rfl] using hcount
    | cons i r =>
      rw [List.filter_cons_of_neg (by simp), List.filter_cons]
      split
      · exact hcount.trans (Nat.le_succ _)
      · exact hcount

/-- where all variants are tried, a union that accepts still does so or comes to be ambiguous -/
theorem oneOf_eases {cx cx' : Context} {n : Nat} {a : Pointer} {xs ys : List (Option (List Issue))}
    (h : List.Forall₂ Eases xs ys) {is : List Issue} (his : oneOf cx n a xs = some is) :
    ∃ js, oneOf cx' n a ys = some js ∧
      (is = [] → js = [] ∨ ∃ m > 1, js = [report cx' a .unionAmbiguous [("matched", .nat m)]]) := by
  unfold oneOf at his ⊢
  cases hrs : xs.mapM id with
  | none =>
    rw [hrs] at his
    cases his
  | some rs =>
    obtain ⟨rs', hrs', hcount⟩ := mapM_eases h hrs
    rw [hrs] at his
    rw [hrs']
    refine ⟨_, rfl, ?_⟩
    rintro rfl
    have hone : (rs.filter List.isEmpty).length ≠ 0 := by
      intro hzero
      simp [hzero] at his
    rw [if_neg (by omega)]
    split
    · exact .inr ⟨_, ‹_›, rfl⟩
    · exact .inl rfl

/-! ## One step with coercion -/

variable {p : Program} {words : Wording}

/-- a union that tries its variants, and what it finds where more than one accepts -/
def Ambiguity (cx : Context) (s : Shape) (a : Pointer) (is : List Issue) : Prop :=
  (∃ b vs d, s = .oneOf b vs d ∧ d.property = "") ∧ ∃ m > 1, is = [report cx a .unionAmbiguous [("matched", .nat m)]]

/-- where the checks below ease with coercion, so does a shape before its rules that does not try its variants -/
theorem own_eases_untried {fuel : Nat} {s : Shape} {v : Value} {a : Pointer}
    (hbelow : ∀ w, Calls ⟨p, true, words⟩ ⟨s, v, a⟩ w →
      Eases (w.issues ⟨p, false, words⟩ fuel) (w.issues ⟨p, true, words⟩ fuel))
    (htried : ¬ ∃ b vs d, s = .oneOf b vs d ∧ d.property = "") :
    Eases (own ⟨p, false, words⟩ (issues ⟨p, false, words⟩ fuel) s v a)
      (own ⟨p, true, words⟩ (issues ⟨p, true, words⟩ fuel) s v a) := by
  cases s with
  | absent => exact Eases.rfl
  | foreign b => exact Eases.rfl
  | any b => exact Eases.rfl
  | enum b vs => exact Eases.rfl
  | primitive b q =>
    refine eases_some fun hnil => ?_
    have haccepts := isEmpty_primitive ⟨p, false, words⟩ q v a
    rw [hnil, List.isEmpty_nil] at haccepts
    exact List.isEmpty_iff.1 ((isEmpty_primitive ⟨p, true, words⟩ q v a).trans (Primitive.accepts_coerce haccepts.symm))
  | ref b name =>
    simp only [own]
    cases ht : p.target? name with
    | none => exact Eases.rfl
    | some t => exact hbelow ⟨t, v, a⟩ (.target ht)
  | array b item l =>
    cases v <;> try exact Eases.rfl
    rename_i xs
    simp only [own]
    split
    · exact Eases.rfl
    · refine concat_eases (.cons Eases.rfl (forall₂_map fun e he => ?_))
      have hx : xs[0 + e.2]? = some e.1 := by
        rw [Nat.zero_add]
        exact List.mem_zipIdx_iff_getElem?.1 he
      exact hbelow ⟨item, e.1, a.index (0 + e.2 : Nat)⟩ (.item hx)
  | tuple b positions rest l =>
    cases v <;> try exact Eases.rfl
    rename_i xs
    simp only [own]
    refine concat_eases (.cons Eases.rfl (List.rel_append (forall₂_map fun e he => ?_) ?_))
    · obtain ⟨⟨x, t⟩, i⟩ := e
      obtain ⟨hx, ht⟩ := List.getElem?_zip_eq_some.1 (List.mem_zipIdx_iff_getElem?.1 he)
      exact hbelow ⟨t, x, a.index i⟩ (.position hx ht)
    · split
      · exact .nil
      · refine forall₂_map fun e he => ?_
        have hx : xs[positions.length + e.2]? = some e.1 := by
          rw [← List.getElem?_drop]
          exact List.mem_zipIdx_iff_getElem?.1 he
        exact hbelow ⟨rest, e.1, a.index (positions.length + e.2 : Nat)⟩ (.beyond hx)
  | object b fields additional q =>
    cases v <;> try exact Eases.rfl
    rename_i fs
    simp only [own]
    refine concat_eases (.cons Eases.rfl (List.rel_append (List.rel_append (forall₂_map fun e he => ?_) ?_)
      (.cons Eases.rfl .nil)))
    · obtain ⟨k, t⟩ := e
      dsimp only
      cases hk : Dict.get? fs k with
      | none => exact Eases.rfl
      | some x => exact hbelow ⟨t, x, a.field k⟩ (.field he hk)
    · split_ifs with hstrict hchecked
      · exact .cons Eases.rfl .nil
      · refine forall₂_map fun e he => ?_
        simp only [Bool.and_eq_true, decide_eq_true_eq] at hchecked
        exact hbelow ⟨additional, e.2, a.field e.1⟩ (.additional hchecked.1 he)
      · exact .nil
  | oneOf b vs d =>
    have hd : d.property ≠ "" := fun hd => htried ⟨b, vs, d, rfl, hd⟩
    simp only [own, if_neg hd]
    have hsame : select ⟨p, false, words⟩ d vs v a = select ⟨p, true, words⟩ d vs v a := rfl
    rw [hsame]
    cases hselect : select ⟨p, true, words⟩ d vs v a with
    | ok t => exact hbelow ⟨t, v, a⟩ (.selected hd hselect)
    | error is => exact Eases.rfl
  | anyOf b vs =>
    refine anyOf_eases rfl fun before t after heq hbefore => ?_
    subst heq
    refine hbelow ⟨t, v, a⟩ (.alternative fun u hu n hn => ?_)
    obtain ⟨js, hjs, hne⟩ := hbefore u hu
    exact hne (issues_unique hjs hn)
  | allOf b ps =>
    apply concat_eases
    apply forall₂_map
    intro t ht
    exact hbelow ⟨t, v, a⟩ (.part ht)

/-- **One step.** Where the checks below ease with coercion, so does a shape before its rules, or it is ambiguous. -/
theorem own_eases {fuel : Nat} {s : Shape} {v : Value} {a : Pointer}
    (hbelow : ∀ w, Calls ⟨p, true, words⟩ ⟨s, v, a⟩ w →
      Eases (w.issues ⟨p, false, words⟩ fuel) (w.issues ⟨p, true, words⟩ fuel)) {is : List Issue}
    (his : own ⟨p, false, words⟩ (issues ⟨p, false, words⟩ fuel) s v a = some is) :
    ∃ js, own ⟨p, true, words⟩ (issues ⟨p, true, words⟩ fuel) s v a = some js ∧
      (is = [] → js = [] ∨ Ambiguity ⟨p, true, words⟩ s a js) := by
  by_cases htried : ∃ b vs d, s = .oneOf b vs d ∧ d.property = ""
  · obtain ⟨b, vs, d, rfl, hd⟩ := htried
    simp only [own, hd, if_true] at his ⊢
    have hvariants : List.Forall₂ Eases (vs.map fun t => issues ⟨p, false, words⟩ fuel t v a)
        (vs.map fun t => issues ⟨p, true, words⟩ fuel t v a) := by
      apply forall₂_map
      intro t ht
      exact hbelow ⟨t, v, a⟩ (.tried hd ht)
    obtain ⟨js, hjs, hverdict⟩ := oneOf_eases hvariants his
    refine ⟨js, hjs, fun hnil => ?_⟩
    exact (hverdict hnil).imp_right fun hm => ⟨⟨b, vs, d, rfl, hd⟩, hm⟩
  · obtain ⟨js, hjs, hnil⟩ := own_eases_untried hbelow htried is his
    exact ⟨js, hjs, fun h => .inl (hnil h)⟩

/-! ## Whole walks -/

/-- a union that tries its variants, accepts without coercion and is ambiguous with it -/
def Ambiguates (p : Program) (words : Wording) (w : Visit) : Prop :=
  (∃ fuel, w.issues ⟨p, false, words⟩ fuel = some []) ∧
    ∃ fuel is, w.issues ⟨p, true, words⟩ fuel = some is ∧ Ambiguity ⟨p, true, words⟩ w.shape w.place is

/-- **Walks ease.** A walk that comes to no union that coercion makes ambiguous accepts with coercion what it accepts without. -/
theorem issues_eases (fuel : Nat) {u : Visit}
    (hclear : ∀ w, Relation.ReflTransGen (Asks ⟨p, true, words⟩) u w → ¬ Ambiguates p words w) :
    Eases (u.issues ⟨p, false, words⟩ fuel) (u.issues ⟨p, true, words⟩ fuel) := by
  induction fuel generalizing u with
  | zero => exact fun is h => nomatch h
  | succ fuel ih =>
    obtain ⟨s, v, a⟩ := u
    intro is his
    have his₀ := his
    simp only [Visit.issues, issues_succ] at his ⊢
    split at his
    · rename_i hnull
      rw [if_pos hnull]
      exact ⟨[], rfl, fun _ => rfl⟩
    · rename_i hnull
      rw [if_neg hnull]
      obtain ⟨found, hfound, rfl⟩ := Option.map_eq_some_iff.1 his
      have hbelow (w : Visit) (hw : Calls ⟨p, true, words⟩ ⟨s, v, a⟩ w) :
          Eases (w.issues ⟨p, false, words⟩ fuel) (w.issues ⟨p, true, words⟩ fuel) :=
        ih fun z hz => hclear z (.head ⟨Bool.eq_false_iff.2 hnull, hw⟩ hz)
      obtain ⟨js, hjs, hverdict⟩ := own_eases hbelow hfound
      rw [hjs, Option.map_some]
      refine ⟨_, rfl, fun hnil => ?_⟩
      have hown : found = [] := by
        cases found with
        | nil => rfl
        | cons i found => cases hnil
      rcases hverdict hown with rfl | hambiguous
      · -- the rules run on the same value, and say the same
        subst hown
        exact hnil
      · obtain ⟨m, hm, rfl⟩ := hambiguous.2
        refine absurd ⟨⟨fuel + 1, ?_⟩, fuel + 1, _, ?_, hambiguous⟩ (hclear ⟨s, v, a⟩ .refl)
        · rw [his₀, hnil]
        · simp only [Visit.issues, issues_succ, if_neg hnull, hjs, Option.map_some]
          rfl

/-- a program accepts with coercion what it accepts without, where the walk comes to no union that coercion makes ambiguous -/
theorem validate_eases {v : Value} (h : p.validate false words v = .ok [])
    (hclear : ∀ w, Relation.ReflTransGen (Asks ⟨p, true, words⟩) ⟨p.root, v, Pointer.root⟩ w → ¬ Ambiguates p words w) :
    p.validate true words v = .ok [] := by
  obtain ⟨fuel, hfuel⟩ := validate_eq_ok.1 h
  obtain ⟨js, hjs, hnil⟩ := issues_eases fuel hclear [] hfuel
  obtain rfl := hnil rfl
  exact validate_eq_ok.2 ⟨fuel, hjs⟩

/-- everything that the walk of a program comes to is part of the program, or missing -/
theorem visit_mem {cx : Context} {v : Value} {a : Pointer} {w : Visit}
    (h : Relation.ReflTransGen (Asks cx) ⟨cx.program.root, v, a⟩ w) :
    w.shape.isAbsent = true ∨ w.shape ∈ cx.program.nodes := by
  induction h with
  | refl =>
    by_cases habs : cx.program.root.isAbsent = true
    · exact .inl habs
    · rw [Program.nodes_eq]
      exact .inr (Shape.nodes_subset_all List.mem_cons_self (Shape.self_mem_nodes (Bool.eq_false_iff.2 habs)))
  | @tail w z _ hask ih =>
    have hcallee := hask.2.callee
    rcases ih with habs | hmem
    · cases hw : w.shape with
      | absent =>
        rw [hw] at hcallee
        cases hcallee
      | _ =>
        rw [hw] at habs
        cases habs
    · exact Program.callees_mem hmem hcallee

/-- without a union that tries its variants, coercion only accepts more -/
theorem validate_coerced_untried {v : Value} (h : p.validate false words v = .ok [])
    (huntried : ∀ s ∈ p.nodes, ∀ b vs d, s = .oneOf b vs d → d.property ≠ "") : p.validate true words v = .ok [] := by
  apply validate_eases h
  rintro w hw ⟨-, fuel, is, -, ⟨b, vs, d, hs, hd⟩, -⟩
  rcases visit_mem hw with habs | hmem
  · rw [hs] at habs
    cases habs
  · exact huntried _ hmem b vs d hs hd

/-- **Coercion accepts more, but for unions.** What a program accepts without coercion it accepts with coercion, or its
walk with coercion comes to a union that tries its variants and whose part of the value it accepts without coercion and
finds ambiguous with it. -/
theorem validate_coerced {v : Value} (h : p.validate false words v = .ok []) :
    p.validate true words v = .ok [] ∨
      ∃ w, Relation.ReflTransGen (Asks ⟨p, true, words⟩) ⟨p.root, v, Pointer.root⟩ w ∧ Ambiguates p words w := by
  by_cases hclear : ∃ w, Relation.ReflTransGen (Asks ⟨p, true, words⟩) ⟨p.root, v, Pointer.root⟩ w ∧ Ambiguates p words w
  · exact .inr hclear
  · left
    apply validate_eases h
    intro w hw hambiguous
    exact hclear ⟨w, hw, hambiguous⟩

/-- a switch, and names that are texts or truth values -/
def switches : Program := { root := .object {} [("on", .primitive {} { type := .boolean }),
  ("names", .array {} (.oneOf {} [.primitive {} { type := .string }, .primitive {} { type := .boolean }] {}) {})] .absent {} }

/-- a switch that is on, with three names -/
def switched : Value := .object [("on", .bool true), ("names", .array [.string "ab", .bool false, .string "true"])]

theorem validate_coerced_switches : switches.validate false (fun _ _ => "") switched = .ok [] ∧
    (switches.validate true (fun _ _ => "") switched = .ok [] ∨
      ∃ w, Relation.ReflTransGen (Asks ⟨switches, true, fun _ _ => ""⟩) ⟨switches.root, switched, Pointer.root⟩ w ∧
        Ambiguates switches (fun _ _ => "") w) := by
  have haccepts : switches.validate false (fun _ _ => "") switched = .ok [] := by rfl
  exact ⟨haccepts, validate_coerced haccepts⟩

open Lowering

/-- a text or a truth value, and exactly one of them -/
def eitherText : String := "\x7b\"oneOf\":[\x7b\"type\":\"string\"\x7d,\x7b\"type\":\"boolean\"\x7d]\x7d"

/-- **Coercion that makes ambiguous.** A text that spells a truth value is one of both kinds without coercion, and of both
with it. -/
theorem coerced_ambiguous : ∃ S p, Schema.decode eitherText = .ok S ∧ Program.lower S {} = .ok p ∧
    passes { coerce := false } (.string "true") p = true ∧ refuses { coerce := true } (.string "true") p = true := by
  obtain ⟨S, hS, hlowers⟩ : ∃ S, Schema.decode eitherText = .ok S ∧ lowersTo {} (fun p =>
      passes { coerce := false } (.string "true") p && refuses { coerce := true } (.string "true") p) S = true := by
    apply Schema.decode_ofList
    · unfold eitherText
      with_reducible exact rfl
    · decide +kernel
  obtain ⟨p, hp, hboth⟩ := lower_of_lowersTo hlowers
  obtain ⟨hpasses, hrefuses⟩ := Bool.and_eq_true_iff.1 hboth
  exact ⟨S, p, hS, hp, hpasses, hrefuses⟩

end Check

end Schemata
