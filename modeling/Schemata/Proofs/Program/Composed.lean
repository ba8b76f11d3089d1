import Mathlib.Tactic
import Schemata.Proofs.Source.Agreement
import Schemata.Proofs.Pointer

/-!
Checks on a shared list of issues, at a place.

`Check.issues` says what is wrong with a value. A running check appends that to a list that it shares with the checks around
it (`appends`): rules wait until the checks of their shape are done, look whether the list has grown since a mark, and write
their own message over that of the last entry; the variants of a union get lists of their own.
What is appended does not depend on the list so far: it is what the check finds (`appends_adds`).

The place of a value only stands in front of the pointers of its issues (`issues_below`): no check looks at it, and no
message or parameter tells it. Together with the list of issues so far, to which a check only appends, this makes checks
compositional.

Main result: `Program.checkAt_compositional`, which leads every run of a program's check back to `Program.validate`.
-/

namespace Schemata.Check

open Source (Action Adds adds_some adds_nothing inTurn inTurn_adds inTurn_map_adds follow follow_some follow_assoc
  follow_none_right concat_append)

variable (cx : Context)

/-! ## Running on a shared list -/

/-- what a check does to the issues so far -/
abbrev Effect := List Issue → Option (List Issue)

/-- appends issues one after the other -/
def reports (is : List Issue) : Effect := fun iss => some (is.foldl (fun iss i => iss ++ [i]) iss)

/-- variants one after the other, each on a list of its own, up to the first that leaves it empty -/
def tryVariants (otherwise : Issue) (iss : List Issue) : List Effect → Option (List Issue)
  | [] => some (iss ++ [otherwise])
  | c :: cs =>
    match c [] with
    | none => none
    | some [] => some iss
    | some _ => tryVariants otherwise iss cs

/-- a single variant shares the list -/
def someVariant (p : Pointer) (iss : List Issue) : List Effect → Option (List Issue)
  | [c] => c iss
  | cs => tryVariants (report cx p .unionNoMatch [("variants", .nat cs.length)]) iss cs

/-- every variant runs on a list of its own; just one of these must stay empty -/
def oneVariant (p : Pointer) (iss : List Issue) (cs : List Effect) : Option (List Issue) :=
  (cs.mapM fun c : Effect => c []).map fun subs =>
    let matched := (subs.filter List.isEmpty).length
    if matched = 0 then iss ++ [report cx p .unionNoMatch [("variants", .nat cs.length)]]
    else if matched > 1 then iss ++ [report cx p .unionAmbiguous [("matched", .nat matched)]]
    else iss

/-- writes a message over that of the last entry -/
def overwrite (message : String) (iss : List Issue) : List Issue :=
  if message = "" then iss else iss.modify (iss.length - 1) fun i => { i with message }

/-- reports a rule that does not hold -/
def reportRule (v : Value) (p : Pointer) (iss : List Issue) (r : Rule) : List Issue :=
  let failed (params : List (String × Value)) : List Issue := overwrite r.message (iss ++ [report cx p .rule params])
  match Rule.compile r.expr with
  | .error _ => iss
  | .ok prog =>
    match prog.holds v with
    | .ok true => iss
    | .ok false => failed [("rule", .string r.expr)]
    | .error e => failed [("rule", .string r.expr), ("error", .string e)]

/-- the rules of a shape, when its checks are done: none of them runs where the list has grown beyond the mark -/
def deferred (b : Base) (v : Value) (p : Pointer) (mark : Nat) (iss : List Issue) : List Issue :=
  if iss.length > mark then iss else b.rules.foldl (reportRule cx v p) iss

/-- the check of a shape before its rules, given the checks below -/
def appendsOwn (check : Shape → Action) (s : Shape) (v : Value) (p : Pointer) : Effect :=
  match s with
  | .absent => some
  | .foreign _ => some
  | .any _ => some
  | .primitive _ q => reports (primitive cx q v p)
  | .array _ item l =>
    match v with
    | .array xs => inTurn [
        reports (length cx p "items" xs.length l.minItems l.maxItems),
        reports (if l.unique then unique cx xs p else []),
        if item.isAbsent then some else inTurn (xs.zipIdx.map fun (x, i) => check item x (p.index i))]
    | v => reports (invalidType cx p "array" v)
  | .tuple _ positions rest l =>
    match v with
    | .array xs => inTurn [
        reports (length cx p "items" xs.length none l.maxItems),
        reports (if l.unique then unique cx xs p else []),
        reports (length cx p "items" xs.length (some l.minItems) (if l.closed then some positions.length else none)),
        inTurn (xs.zipIdx.map fun (x, i) =>
          match positions[i]? with
          | some s => check s x (p.index i)
          | none => if rest.isAbsent then some else check rest x (p.index i))]
    | v => reports (invalidType cx p "array" v)
  | .object _ fields additional q =>
    match v with
    | .object fs => inTurn [
        reports (missing cx fs p (q.requiredKeys fields)),
        inTurn (fields.map fun (k, s) =>
          match Dict.get? fs k with
          | some x => check s x (p.field k)
          | none => some),
        if q.unknown = .strict then reports (unknownKeys cx fs (fields.map (·.1)) p)
        else if q.unknown = .checked && !additional.isAbsent then
          inTurn ((unknownEntries fs (fields.map (·.1))).map fun (k, x) => check additional x (p.field k))
        else some,
        reports (keyPattern cx q.keyPattern fs p)]
    | v => reports (invalidType cx p "object" v)
  | .oneOf _ variants d =>
    if d.property = "" then fun iss => oneVariant cx p iss (variants.map fun s => check s v p)
    else
      match select cx d variants v p with
      | .ok s => check s v p
      | .error is => reports is
  | .anyOf _ variants => fun iss => someVariant cx p iss (variants.map fun s => check s v p)
  | .allOf _ parts => inTurn (parts.map fun s => check s v p)
  | .enum _ values => reports (enum cx values v p)
  | .ref _ name =>
    match cx.program.target? name with
    | some s => check s v p
    | none => some

/-- the running check of a shape: the issues so far and what it appends; `none` when the budget of nested steps does not
suffice -/
def appends : Nat → Shape → Action
  | 0, _ => fun _ _ _ => none
  | fuel + 1, s => fun v p iss =>
    if s.base.nullable && v.isNull then some iss
    else (appendsOwn cx (appends fuel) s v p iss).map (deferred cx s.base v p iss.length)

/-! ## The list so far -/

variable {cx} {v : Value} {p : Pointer}

theorem reports_adds (is : List Issue) : Adds (reports is) (some is) := by
  intro iss
  rw [reports, Option.map_some]
  congr 1
  induction is generalizing iss with
  | nil => simp
  | cons i is ih => rw [List.foldl_cons, ih, List.append_assoc, List.singleton_append]

theorem tryVariants_adds {otherwise : Issue} {cs : List Effect} {check : Shape → Option (List Issue)}
    {ss : List Shape} (h : List.Forall₂ (fun c s => Adds c (check s)) cs ss) :
    Adds (fun iss => tryVariants otherwise iss cs) (firstMatch check otherwise ss) := by
  induction h with
  | nil => exact adds_some _
  | @cons c s cs ss hc _ ih =>
    intro iss
    simp only [tryVariants, hc.nil, firstMatch]
    cases check s with
    | none => rfl
    | some is =>
      cases is with
      | nil => simp
      | cons i is => exact ih iss

theorem forall₂_checks {check : Shape → Action} {check' : Shape → Option (List Issue)} (ss : List Shape)
    (h : ∀ s, Adds (check s v p) (check' s)) :
    List.Forall₂ (fun c s => Adds c (check' s)) (ss.map fun s => check s v p) ss := by
  rw [List.forall₂_map_left_iff]
  exact List.forall₂_same.2 fun s _ => h s

theorem someVariant_adds {check : Shape → Action} {check' : Shape → Option (List Issue)} (ss : List Shape)
    (h : ∀ s, Adds (check s v p) (check' s)) :
    Adds (fun iss => someVariant cx p iss (ss.map fun s => check s v p)) (anyOf cx check' p ss) := by
  have hss := forall₂_checks ss h
  match ss with
  | [] => exact tryVariants_adds hss
  | [s] => exact h s
  | s :: t :: ss =>
    simp only [someVariant, List.map_cons, List.length_cons, List.length_map, anyOf]
    exact tryVariants_adds hss

theorem oneVariant_adds {check : Shape → Action} {check' : Shape → Option (List Issue)} (ss : List Shape)
    (h : ∀ s, Adds (check s v p) (check' s)) :
    Adds (fun iss => oneVariant cx p iss (ss.map fun s => check s v p)) (oneOf cx ss.length p (ss.map check')) := by
  have hsubs : (ss.map fun s => check s v p).mapM (fun c : Effect => c []) = (ss.map check').mapM id := by
    induction ss with
    | nil => rfl
    | cons s ss ih => simp only [List.map_cons, List.mapM_cons, (h s).nil, ih, id]
  intro iss
  simp only [oneVariant, oneOf, hsubs, List.length_map]
  cases (ss.map check').mapM id with
  | none => rfl
  | some subs =>
    simp only [Option.map_some]
    split_ifs <;> simp

/-- only the new entry is written over -/
theorem overwrite_append (message : String) (iss : List Issue) (i : Issue) :
    overwrite message (iss ++ [i]) = iss ++ [if message = "" then i else { i with message }] := by
  have hlast (f : Issue → Issue) : (iss ++ [i]).modify iss.length f = iss ++ [f i] := by
    induction iss with
    | nil => rfl
    | cons j iss ih => rw [List.cons_append, List.length_cons, List.modify_succ_cons, ih, List.cons_append]
  unfold overwrite
  split
  · rfl
  · rw [List.length_append, List.length_singleton, Nat.add_sub_cancel, hlast]

theorem reportRule_append (r : Rule) (iss : List Issue) : reportRule cx v p iss r = iss ++ ruleIssue cx r v p := by
  unfold reportRule ruleIssue
  cases Rule.compile r.expr with
  | error e => simp
  | ok prog =>
    cases hholds : prog.holds v with
    | error e => simp only [hholds, overwrite_append]
    | ok holds => cases holds <;> simp [hholds, overwrite_append]

/-- the list has grown beyond the mark exactly when the shape found something -/
theorem deferred_append (b : Base) (iss is : List Issue) :
    deferred cx b v p iss.length (iss ++ is) = iss ++ rules cx b v p is := by
  have hrules (rs : List Rule) (iss : List Issue) :
      rs.foldl (reportRule cx v p) iss = iss ++ rs.flatMap fun r => ruleIssue cx r v p := by
    induction rs generalizing iss with
    | nil => simp
    | cons r rs ih => rw [List.foldl_cons, ih, reportRule_append, List.flatMap_cons, List.append_assoc]
  unfold deferred rules
  cases is with
  | nil => simp [hrules]
  | cons i is => simp

theorem concat_follow (o : Option (List Issue)) (os : List (Option (List Issue))) :
    concat (o :: os) = follow o (concat os) := concat_cons o os

theorem concat_nil : concat [] = some [] := rfl

theorem Adds.of_eq {a : Effect} {o o' : Option (List Issue)} (h : Adds a o') (heq : o = o') : Adds a o := heq ▸ h

theorem inTurn_nothing (cs : List Effect) (h : ∀ c ∈ cs, c = some) : Adds (inTurn cs) (some []) := by
  induction cs with
  | nil => exact adds_nothing
  | cons c cs ih =>
    obtain ⟨rfl, hcs⟩ := List.forall_mem_cons.1 h
    exact ih hcs

theorem tuple_adds {check : Shape → Action} {check' : Shape → Value → Pointer → Option (List Issue)}
    (h : ∀ s v p, Adds (check s v p) (check' s v p)) (rest : Shape) (k : Nat) (positions : List Shape) (xs : List Value) :
    Adds (inTurn ((xs.zipIdx k).map fun (x, i) =>
        match positions[i - k]? with
        | some s => check s x (p.index i)
        | none => if rest.isAbsent then some else check rest x (p.index i)))
      (concat (((xs.zip positions).zipIdx k).map (fun ((x, s), i) => check' s x (p.index i)) ++
        if rest.isAbsent then [] else (xs.drop positions.length).zipIdx.map fun (x, i) =>
          check' rest x (p.index (k + positions.length + i : Nat)))) := by
  induction positions generalizing k xs with
  | nil =>
    simp only [List.getElem?_nil, List.zip_nil_right, List.zipIdx_nil, List.map_nil, List.nil_append, List.length_nil,
      List.drop_zero, Nat.add_zero]
    cases rest.isAbsent with
    | true => exact inTurn_nothing _ fun e he => by simp_all
    | false =>
      rw [List.zipIdx_eq_map_add, List.map_map]
      exact inTurn_map_adds fun e _ => h rest e.1 _
  | cons s positions ih =>
    cases xs with
    | nil =>
      simp only [List.zipIdx_nil, List.map_nil, List.zip_nil_left, List.nil_append, List.drop_nil, ite_self]
      exact adds_nothing
    | cons x xs =>
      simp only [List.zipIdx_cons, List.map_cons, List.zip_cons_cons, List.cons_append, List.length_cons, List.drop_succ_cons,
        Nat.sub_self, List.getElem?_cons_zero]
      have hmap : (xs.zipIdx (k + 1)).map (fun e : Value × Nat =>
            match (s :: positions)[e.2 - k]? with
            | some t => check t e.1 (p.index e.2)
            | none => if rest.isAbsent then some else check rest e.1 (p.index e.2)) =
          (xs.zipIdx (k + 1)).map fun e : Value × Nat =>
            match positions[e.2 - (k + 1)]? with
            | some t => check t e.1 (p.index e.2)
            | none => if rest.isAbsent then some else check rest e.1 (p.index e.2) := by
        refine List.map_congr_left fun e he => ?_
        have hle : k + 1 ≤ e.2 := List.le_snd_of_mem_zipIdx he
        rw [show e.2 - k = e.2 - (k + 1) + 1 by omega, List.getElem?_cons_succ]
      have htail := ih (k + 1) xs
      rw [Nat.add_right_comm] at htail
      rw [concat_cons, hmap]
      exact (h s x _).bind htail

theorem beyond_adds {check : Shape → Action} {check' : Shape → Value → Pointer → Option (List Issue)}
    (h : ∀ s v p, Adds (check s v p) (check' s v p)) (fs : Dict Value) (known : List String) (additional : Shape)
    (q : ObjectPolicy) :
    Adds (if q.unknown = .strict then reports (unknownKeys cx fs known p)
        else if q.unknown = .checked && !additional.isAbsent then
          inTurn ((unknownEntries fs known).map fun (k, x) => check additional x (p.field k))
        else some)
      (concat (if q.unknown = .strict then [some (unknownKeys cx fs known p)]
        else if q.unknown = .checked && !additional.isAbsent then
          (unknownEntries fs known).map fun (k, x) => check' additional x (p.field k)
        else [])) := by
  split_ifs
  · rw [concat_follow, concat_nil, follow_none_right]
    exact reports_adds _
  · exact inTurn_map_adds fun e _ => h additional e.2 _
  · exact adds_nothing

theorem appendsOwn_adds {check : Shape → Action} {check' : Shape → Value → Pointer → Option (List Issue)}
    (h : ∀ s v p, Adds (check s v p) (check' s v p)) (s : Shape) :
    Adds (appendsOwn cx check s v p) (own cx check' s v p) := by
  cases s with
  | absent => exact adds_nothing
  | foreign b => exact adds_nothing
  | any b => exact adds_nothing
  | primitive b q => exact reports_adds _
  | array b item l =>
    cases v <;> try exact reports_adds _
    rename_i xs
    simp only [appendsOwn, own, Nat.zero_add]
    cases item.isAbsent with
    | true =>
      refine Adds.of_eq (inTurn_adds (.cons (reports_adds _) (.cons (reports_adds _) (.cons adds_nothing .nil)))) ?_
      simp only [concat_follow, concat_nil, follow_none_right, follow_some, if_true]
    | false =>
      refine Adds.of_eq (inTurn_adds (.cons (reports_adds _) (.cons (reports_adds _)
        (.cons (inTurn_map_adds fun e _ => h item e.1 (p.index e.2)) .nil)))) ?_
      simp only [concat_follow, concat_nil, follow_none_right, ← follow_assoc, follow_some]
      rfl
  | tuple b positions rest l =>
    cases v <;> try exact reports_adds _
    rename_i xs
    simp only [appendsOwn, own]
    have htuple := tuple_adds (p := p) h rest 0 positions xs
    simp only [Nat.sub_zero, Nat.zero_add] at htuple
    refine Adds.of_eq (inTurn_adds (.cons (reports_adds _) (.cons (reports_adds _) (.cons (reports_adds _)
      (.cons htuple .nil))))) ?_
    simp only [concat_follow, concat_nil, follow_none_right, ← follow_assoc, follow_some, List.append_assoc]
  | object b fields additional q =>
    cases v <;> try exact reports_adds _
    rename_i fs
    simp only [appendsOwn, own]
    have hfields : Adds (inTurn (fields.map fun e : String × Shape =>
          match Dict.get? fs e.1 with
          | some x => check e.2 x (p.field e.1)
          | none => some))
        (concat (fields.map fun e : String × Shape =>
          match Dict.get? fs e.1 with
          | some x => check' e.2 x (p.field e.1)
          | none => some [])) :=
      inTurn_map_adds fun e _ => by
        cases Dict.get? fs e.1 with
        | none => exact adds_nothing
        | some x => exact h e.2 x _
    refine Adds.of_eq (inTurn_adds (.cons (reports_adds _) (.cons hfields (.cons (beyond_adds h fs _ additional q)
      (.cons (reports_adds _) .nil))))) ?_
    simp only [concat_follow, concat_nil, follow_none_right, concat_append, List.cons_append, follow_assoc]
    all_goals rfl
  | oneOf b variants d =>
    simp only [appendsOwn, own]
    split
    · exact oneVariant_adds variants fun s => h s v p
    · cases select cx d variants v p with
      | ok s => exact h s v p
      | error is => exact reports_adds is
  | anyOf b variants => exact someVariant_adds variants fun s => h s v p
  | allOf b parts => exact inTurn_map_adds fun s _ => h s v p
  | enum b values => exact reports_adds _
  | ref b name =>
    simp only [appendsOwn, own]
    cases cx.program.target? name with
    | none => exact adds_nothing
    | some s => exact h s v p

theorem appends_adds (fuel : Nat) (s : Shape) (v : Value) (p : Pointer) :
    Adds (appends cx fuel s v p) (issues cx fuel s v p) := by
  induction fuel generalizing s v p with
  | zero => exact fun iss => rfl
  | succ fuel ih =>
    intro iss
    rw [issues_succ]
    simp only [appends]
    split
    · simp
    · rw [appendsOwn_adds ih s iss, Option.map_map, Option.map_map]
      congr 1
      funext is
      exact deferred_append _ _ _

end Schemata.Check

namespace Schemata

/-! ## The place of the value -/

/-- the issue with a place in front of its pointer -/
def Issue.below (a : Pointer) (i : Issue) : Issue := { i with pointer := a ++ i.pointer }

theorem Pointer.index_append (a p : Pointer) (i : Int) : Pointer.index (a ++ p) i = a ++ p.index i := List.append_assoc _ _ _

theorem Pointer.field_append (a p : Pointer) (k : String) : Pointer.field (a ++ p) k = a ++ p.field k :=
  List.append_assoc _ _ _

theorem Pointer.toList_text {p : Pointer} (hp : p ≠ []) : p.text.toList = p.flatMap fun s => '/' :: s.text.toList := by
  obtain ⟨s, q, rfl⟩ := List.exists_cons_of_ne_nil hp
  rw [Pointer.text_of_ne hp, String.toList_append, List.map_cons, Text.toList_intercalate, List.flatMap_map, List.flatMap_cons]
  rfl

/-- in texts, the place stands in front of the path -/
theorem Issue.path_below (a : Pointer) (i : Issue) : (i.below a).path =
    if a = [] then i.path else if i.pointer = [] then a.text else a.text ++ i.path := by
  split_ifs with ha hi
  · rw [ha]
    rfl
  · rw [Issue.path, Issue.below, hi, List.append_nil]
  · have hne : a ++ i.pointer ≠ [] := List.append_ne_nil_of_left_ne_nil ha _
    apply String.toList_injective
    rw [String.toList_append, Issue.path, Issue.path, Issue.below, Pointer.toList_text hne, Pointer.toList_text ha,
      Pointer.toList_text hi, List.flatMap_append]

end Schemata

namespace Schemata.Check

variable (cx : Context) (a p : Pointer) (v : Value)

theorem report_below (c : Code) (params : List (String × Value)) :
    report cx (a ++ p) c params = (report cx p c params).below a := rfl

theorem issueIf_below (c : Bool) (i : Issue) : issueIf c (i.below a) = (issueIf c i).map (Issue.below a) := by
  unfold issueIf
  split <;> rfl

theorem length_below (unit : String) (got : Nat) (min max : Option Int) :
    length cx (a ++ p) unit got min max = (length cx p unit got min max).map (Issue.below a) := by
  cases min <;> cases max <;> simp [length, report_below, issueIf_below]

theorem string_below (q : Primitive) : string cx q v (a ++ p) = (string cx q v p).map (Issue.below a) := by
  cases v <;> try rfl
  simp only [string, length_below, report_below, issueIf_below, List.map_append]
  cases Format.ofName? q.format <;> rfl

theorem bounds_below (q : Primitive) (x : Float) : bounds cx q (a ++ p) x = (bounds cx q p x).map (Issue.below a) := by
  simp only [bounds, report_below, issueIf_below, List.map_append]
  congr 1
  · congr 1
    · cases q.min with
      | none => rfl
      | some m => split_ifs <;> rfl
    · cases q.max with
      | none => rfl
      | some m => split_ifs <;> rfl
  · cases q.multipleOf <;> rfl

theorem boolean_below : boolean cx v (a ++ p) = (boolean cx v p).map (Issue.below a) := by
  cases v <;> try rfl
  simp only [boolean]
  split <;> rfl

theorem primitive_below (q : Primitive) : primitive cx q v (a ++ p) = (primitive cx q v p).map (Issue.below a) := by
  unfold primitive
  cases q.type with
  | string => exact string_below cx a p v q
  | number =>
    cases asNumber cx v with
    | none => rfl
    | some x => exact bounds_below cx a p q x
  | integer =>
    cases asInteger cx v with
    | none => rfl
    | some x => exact bounds_below cx a p q x
  | boolean => exact boolean_below cx a p v
  | null =>
    dsimp only
    split <;> rfl
  | other n => rfl

theorem unique_below (xs : List Value) : unique cx xs (a ++ p) = (unique cx xs p).map (Issue.below a) := by
  unfold unique
  split
  · rw [Pointer.index_append]
    rfl
  · rfl

theorem enum_below (values : List Value) : enum cx values v (a ++ p) = (enum cx values v p).map (Issue.below a) :=
  issueIf_below a _ (report cx p .invalidEnum [("allowed", .nat values.length)])

theorem missing_below (fs : Dict Value) (keys : List String) :
    missing cx fs (a ++ p) keys = (missing cx fs p keys).map (Issue.below a) := by
  simp only [missing, Pointer.field_append, report_below, List.map_map, Function.comp_def]

theorem unknownKeys_below (fs : Dict Value) (known : List String) :
    unknownKeys cx fs known (a ++ p) = (unknownKeys cx fs known p).map (Issue.below a) := by
  simp only [unknownKeys, Pointer.field_append, report_below, List.map_map, Function.comp_def]

theorem keyPattern_below (pattern : String) (fs : Dict Value) :
    keyPattern cx pattern fs (a ++ p) = (keyPattern cx pattern fs p).map (Issue.below a) := by
  unfold keyPattern
  split
  · rfl
  · simp only [Pointer.field_append, report_below, List.map_map, Function.comp_def]

theorem ruleIssue_below (r : Rule) : ruleIssue cx r v (a ++ p) = (ruleIssue cx r v p).map (Issue.below a) := by
  unfold ruleIssue
  cases Rule.compile r.expr with
  | error e => rfl
  | ok prog =>
    cases hholds : prog.holds v with
    | error e =>
      simp only [hholds]
      split <;> rfl
    | ok holds =>
      cases holds <;> simp only [hholds]
      · split <;> rfl
      · rfl

theorem rules_below (b : Base) (own : List Issue) :
    rules cx b v (a ++ p) (own.map (Issue.below a)) = (rules cx b v p own).map (Issue.below a) := by
  unfold rules
  cases own with
  | nil => simp only [List.map_nil, List.isEmpty_nil, if_true, ruleIssue_below, List.map_flatMap]
  | cons i own => rfl

/-- all issues that a check finds, below a place -/
def shift (o : Option (List Issue)) : Option (List Issue) := o.map (List.map (Issue.below a))

theorem concat_shift (os : List (Option (List Issue))) : concat (os.map (shift a)) = shift a (concat os) := by
  induction os with
  | nil => rfl
  | cons o os ih =>
    rw [List.map_cons, concat_cons, concat_cons, ih]
    cases o <;> cases concat os <;> simp [shift]

section Below

variable {cx a p v} {check : Shape → Value → Pointer → Option (List Issue)}
  (h : ∀ s x q, check s x (a ++ q) = shift a (check s x q))

include h

theorem firstMatch_below (otherwise : Issue) (ss : List Shape) :
    firstMatch (fun s => check s v (a ++ p)) (otherwise.below a) ss =
      shift a (firstMatch (fun s => check s v p) otherwise ss) := by
  induction ss with
  | nil => rfl
  | cons s ss ih =>
    simp only [firstMatch, h]
    cases check s v p with
    | none => rfl
    | some is =>
      cases is with
      | nil => rfl
      | cons i is =>
        simp only [h] at ih
        exact ih

theorem anyOf_below (ss : List Shape) :
    anyOf cx (fun s => check s v (a ++ p)) (a ++ p) ss = shift a (anyOf cx (fun s => check s v p) p ss) := by
  match ss with
  | [] => rfl
  | [s] => exact h s v p
  | s :: t :: ss =>
    simp only [anyOf, report_below]
    exact firstMatch_below h _ _

omit h in
theorem oneOf_below (count : Nat) (os : List (Option (List Issue))) :
    oneOf cx count (a ++ p) (os.map (shift a)) = shift a (oneOf cx count p os) := by
  have hmap : (os.map (shift a)).mapM id = (os.mapM id).map (List.map (List.map (Issue.below a))) := by
    induction os with
    | nil => rfl
    | cons o os ih =>
      simp only [List.map_cons, List.mapM_cons, ih, id]
      cases o <;> cases os.mapM id <;> rfl
  simp only [oneOf, hmap]
  cases os.mapM id with
  | none => rfl
  | some rs =>
    have hcount : ((rs.map (List.map (Issue.below a))).filter List.isEmpty).length = (rs.filter List.isEmpty).length := by
      rw [List.filter_map, List.length_map]
      congr 2
      funext is
      cases is <;> rfl
    simp only [Option.map_some, hcount, shift]
    split_ifs <;> rfl

omit h in
theorem select_below (d : Dispatch) (variants : List Shape) :
    select cx d variants v (a ++ p) = (select cx d variants v p).mapError (List.map (Issue.below a)) := by
  cases v <;> try rfl
  rename_i fs
  simp only [select, Pointer.field_append]
  cases Dict.get? fs d.property with
  | none => rfl
  | some tag =>
    dsimp only
    cases (Dict.get? (d.mapping.getD []) tag.display).bind fun i => variants[i.toNat]? <;> rfl

omit h in
theorem map_shift {α : Type} {l : List α} {f g : α → Option (List Issue)} (hfg : ∀ e ∈ l, f e = shift a (g e)) :
    l.map f = (l.map g).map (shift a) := by
  rw [List.map_map]
  exact List.map_congr_left hfg

theorem own_below (s : Shape) : own cx check s v (a ++ p) = shift a (own cx check s v p) := by
  have hunique (xs : List Value) (u : Bool) : (if u then unique cx xs (a ++ p) else []) =
      (if u then unique cx xs p else []).map (Issue.below a) := by
    cases u
    · rfl
    · exact unique_below cx a p xs
  cases s with
  | absent => rfl
  | foreign b => rfl
  | any b => rfl
  | primitive b q => exact congrArg some (primitive_below cx a p v q)
  | array b item l =>
    cases v <;> try rfl
    rename_i xs
    simp only [own, length_below, hunique, ← List.map_append]
    split
    · rfl
    · refine (congrArg concat (List.cons_eq_cons.2 ⟨rfl, map_shift fun e _ => ?_⟩)).trans (concat_shift a (some _ :: _))
      rw [Pointer.index_append]
      exact h item e.1 _
  | tuple b positions rest l =>
    cases v <;> try rfl
    rename_i xs
    simp only [own, length_below, hunique, ← List.map_append]
    refine (congrArg concat (List.cons_eq_cons.2 ⟨rfl, ?_⟩)).trans (concat_shift a (some _ :: (_ ++ _)))
    rw [List.map_append]
    congr 1
    · refine map_shift fun e _ => ?_
      rw [Pointer.index_append]
      exact h e.1.2 e.1.1 _
    · split
      · rfl
      · refine map_shift fun e _ => ?_
        rw [Pointer.index_append]
        exact h rest e.1 _
  | object b fields additional q =>
    cases v <;> try rfl
    rename_i fs
    simp only [own, missing_below, keyPattern_below, unknownKeys_below]
    refine (congrArg concat ?_).trans (concat_shift a (some _ :: (_ ++ _) ++ [some _]))
    simp only [List.map_append, List.map_cons, List.map_nil]
    congr 1
    congr 1
    congr 1
    · refine map_shift fun e _ => ?_
      cases Dict.get? fs e.1 with
      | none => rfl
      | some x =>
        rw [Pointer.field_append]
        exact h e.2 x _
    · split_ifs
      · rfl
      · refine map_shift fun e _ => ?_
        rw [Pointer.field_append]
        exact h additional e.2 _
      · rfl
  | oneOf b variants d =>
    simp only [own]
    split
    · rw [map_shift fun s _ => h s v p]
      exact oneOf_below _ _
    · rw [select_below]
      cases select cx d variants v p with
      | ok s => exact h s v p
      | error is => rfl
  | anyOf b variants => exact anyOf_below h variants
  | allOf b parts => exact (congrArg concat (map_shift fun s _ => h s v p)).trans (concat_shift a _)
  | enum b values => exact congrArg some (enum_below cx a p v values)
  | ref b name =>
    simp only [own]
    cases cx.program.target? name with
    | none => rfl
    | some s => exact h s v p

end Below

theorem issues_below (fuel : Nat) (s : Shape) : issues cx fuel s v (a ++ p) = shift a (issues cx fuel s v p) := by
  induction fuel generalizing s v p with
  | zero => rfl
  | succ fuel ih =>
    rw [issues_succ, issues_succ]
    split
    · rfl
    · rw [own_below fun s x q => ih q x s]
      cases own cx (issues cx fuel) s v p with
      | none => rfl
      | some is => exact congrArg some (rules_below cx a p v s.base is)

end Schemata.Check

namespace Schemata

/-! ## Programs -/

/-- the check that a program is built into, on a value at a place and with the issues so far; breaks off on references that
lead in a circle -/
def Program.checkAt (p : Program) (coerce : Bool) (t : Wording) (v : Value) (a : Pointer) (prior : List Issue) :
    Outcome (List Issue) :=
  match Check.appends ⟨p, coerce, t⟩ (p.budget v) p.root v a prior with
  | some is => .ok is
  | none => abort

section Programs

variable (p : Program) (coerce : Bool) (t : Wording) (v : Value) (a : Pointer) (prior : List Issue)

theorem Program.checkAt_eq : p.checkAt coerce t v a prior =
    match Check.issues ⟨p, coerce, t⟩ (p.budget v) p.root v a with
    | some is => .ok (prior ++ is)
    | none => abort := by
  rw [checkAt, Check.appends_adds]
  cases Check.issues ⟨p, coerce, t⟩ (p.budget v) p.root v a <;> rfl

variable {p coerce t v a prior} in
/-- the budget is enough for every run that ends -/
theorem Program.checkAt_eq_ok {is : List Issue} :
    p.checkAt coerce t v a prior = .ok is ↔ ∃ fuel, Check.appends ⟨p, coerce, t⟩ fuel p.root v a prior = some is := by
  constructor
  · intro h
    refine ⟨p.budget v, ?_⟩
    unfold checkAt at h
    split at h
    · rename_i heq
      cases h
      exact heq
    · cases h
  · rintro ⟨fuel, h⟩
    rw [Check.appends_adds] at h
    obtain ⟨js, hjs, rfl⟩ := Option.map_eq_some_iff.1 h
    have hroot : p.root ∈ p.shapes := List.mem_cons_self
    have henough : Check.issues ⟨p, coerce, t⟩ (p.budget v) p.root v a = some js := Check.issues_budget hroot hjs
    rw [checkAt_eq, henough]

/-- **Checks are compositional.** A check appends to the issues so far what it finds with none; what it finds at a place is
what it finds at the root, with the place in front of every path; and there it finds what is wrong with the value. -/
theorem Program.checkAt_compositional :
    p.checkAt coerce t v a prior = (p.checkAt coerce t v a []).map (prior ++ ·) ∧
    p.checkAt coerce t v a [] = (p.checkAt coerce t v Pointer.root []).map (List.map (Issue.below a)) ∧
    p.checkAt coerce t v Pointer.root [] = p.validate coerce t v := by
  have hplace := Check.issues_below ⟨p, coerce, t⟩ a Pointer.root v (p.budget v) p.root
  rw [Pointer.root, List.append_nil] at hplace
  simp only [checkAt_eq, hplace, Pointer.root, validate]
  cases Check.issues ⟨p, coerce, t⟩ (p.budget v) p.root v [] with
  | none => exact ⟨rfl, rfl, rfl⟩
  | some is => exact ⟨rfl, rfl, rfl⟩

end Programs

end Schemata
