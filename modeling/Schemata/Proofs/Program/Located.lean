import Schemata.Proofs.Pointer
import Schemata.Proofs.Program.Coerced

/-!
Where issues point.

A check carries the place of the value that it looks at. `Raises` says where its own issues may point from there: to this
place, to an item or a field that is there, or to a key that is not. All other issues come from the checks that it calls
(`own_every`), and these look at what really stands at their places (`Calls.stands`).

Main result: `validate_located`. Every issue points at a place in the value, but for a missing key or a missing discriminator:
there the pointer leads to an object and goes on with a key that this object lacks.
-/

namespace Schemata

/-- is the code about a key that is not there? -/
def Code.isMissing (c : Code) : Bool := c = .required || c = .discriminatorMissing

/-- the pointer leads to a place in the value, or to a key that an object in it lacks -/
def Issue.Located (root : Value) (i : Issue) : Prop :=
  if i.code.isMissing then ∃ p k fs, i.pointer = p.field k ∧ root.at? p = some (.object fs) ∧ Dict.get? fs k = none
  else ∃ x, root.at? i.pointer = some x

namespace Check

variable {cx : Context} {s : Shape} {v : Value} {a : Pointer} {Q : Issue → Prop}

/-! ## Issues of one shape -/

/-- what the checks of one shape may report themselves about a value at a place -/
inductive Raises (v : Value) (a : Pointer) (i : Issue) : Prop
  | here (hp : i.pointer = a) (hc : i.code.isMissing = false)
  | item {xs : List Value} {j : Nat} (hv : v = .array xs) (hj : j < xs.length) (hp : i.pointer = a.index j)
      (hc : i.code.isMissing = false)
  | entry {fs : Dict Value} {k : String} (hv : v = .object fs) (hk : k ∈ fs.map (·.1)) (hp : i.pointer = a.field k)
      (hc : i.code.isMissing = false)
  | lack {fs : Dict Value} {k : String} (hv : v = .object fs) (hk : k ∉ fs.map (·.1)) (hp : i.pointer = a.field k)
      (hc : i.code.isMissing = true)

/-- such issues are located where the value stands at the place -/
theorem Raises.located {root : Value} {i : Issue} (h : Raises v a i) (hv : root.at? a = some v) : i.Located root := by
  unfold Issue.Located
  cases h with
  | here hp hc =>
    rw [hc, hp]
    exact ⟨v, hv⟩
  | item hxs hj hp hc =>
    subst hxs
    rw [hc, hp, Value.at?_index hv]
    exact ⟨_, List.getElem?_eq_getElem hj⟩
  | entry hfs hk hp hc =>
    subst hfs
    rw [hc, hp, Value.at?_field hv]
    exact Option.isSome_iff_exists.1 (Dict.get?_isSome_iff.2 hk)
  | lack hfs hk hp hc =>
    subst hfs
    rw [hc]
    exact ⟨a, _, _, hp, hv, Dict.get?_eq_none_iff.2 hk⟩

/-- all of the issues are about the place itself -/
def Here (a : Pointer) (is : List Issue) : Prop := ∀ i ∈ is, i.pointer = a ∧ i.code.isMissing = false

theorem Here.raises {is : List Issue} (h : Here a is) : ∀ i ∈ is, Raises v a i := fun i hi => .here (h i hi).1 (h i hi).2

theorem here_nil : Here a [] := by simp [Here]

theorem Here.append {is js : List Issue} (h : Here a is) (h' : Here a js) : Here a (is ++ js) :=
  List.forall_mem_append.2 ⟨h, h'⟩

theorem here_report {c : Code} (hc : c.isMissing = false) (params : List (String × Value)) : Here a [report cx a c params] :=
  List.forall_mem_singleton.2 ⟨rfl, hc⟩

theorem here_issueIf {c : Code} (hc : c.isMissing = false) (b : Bool) (params : List (String × Value)) :
    Here a (issueIf b (report cx a c params)) := by
  cases b with
  | false => exact here_nil
  | true => exact here_report hc params

theorem here_length (unit : String) (got : Nat) (min max : Option Int) : Here a (length cx a unit got min max) := by
  unfold length
  refine .append ?_ ?_
  · cases min with
    | none => exact here_nil
    | some n => exact here_issueIf rfl _ _
  · cases max with
    | none => exact here_nil
    | some n => exact here_issueIf rfl _ _

theorem here_invalidType (expected : String) (w : Value) : Here a (invalidType cx a expected w) := here_report rfl _

theorem here_string (q : Primitive) : Here a (string cx q v a) := by
  unfold string
  split
  · refine .append (.append (here_length _ _ _ _) (here_issueIf rfl _ _)) ?_
    split
    · exact here_issueIf rfl _ _
    · exact here_nil
  · exact here_invalidType _ _

theorem here_bounds (q : Primitive) (x : Float) : Here a (bounds cx q a x) := by
  unfold bounds
  refine .append (.append ?_ ?_) ?_
  · split
    · split <;> exact here_issueIf rfl _ _
    · exact here_nil
  · split
    · split <;> exact here_issueIf rfl _ _
    · exact here_nil
  · split
    · exact here_issueIf rfl _ _
    · exact here_nil

theorem here_boolean : Here a (boolean cx v a) := by
  unfold boolean
  split
  · exact here_nil
  · split
    · exact here_nil
    · exact here_invalidType _ _
  · exact here_invalidType _ _

theorem here_primitive (q : Primitive) : Here a (primitive cx q v a) := by
  unfold primitive
  cases q.type with
  | string => exact here_string q
  | number =>
    dsimp only
    split
    · exact here_bounds q _
    · exact here_invalidType _ _
  | integer =>
    dsimp only
    split
    · exact here_bounds q _
    · exact here_invalidType _ _
  | boolean => exact here_boolean
  | null =>
    dsimp only
    split
    · exact here_nil
    · exact here_invalidType _ _
  | other n => exact here_nil

theorem here_ruleIssue (r : Rule) : Here a (ruleIssue cx r v a) := by
  have hissue (params : List (String × Value)) :
      Here a [if r.message = "" then report cx a .rule params else { report cx a .rule params with message := r.message }] := by
    rw [Here, List.forall_mem_singleton]
    split <;> exact ⟨rfl, rfl⟩
  unfold ruleIssue
  dsimp only
  split
  · exact here_nil
  · split
    · exact here_nil
    · exact hissue _
    · exact hissue _

theorem duplicate?_lt {earlier xs : List Value} {i j k : Nat} (h : duplicate? earlier i xs = some (j, k)) :
    j < i + xs.length := by
  induction xs generalizing earlier i with
  | nil => cases h
  | cons x xs ih =>
    rw [duplicate?] at h
    rw [List.length_cons]
    split at h
    · cases h
      omega
    · have := ih h
      omega

theorem raises_unique (xs : List Value) : ∀ i ∈ unique cx xs a, Raises (.array xs) a i := by
  unfold unique
  split
  · rename_i j k hdup
    have hj := duplicate?_lt hdup
    rw [Nat.zero_add] at hj
    exact List.forall_mem_singleton.2 (.item rfl hj rfl rfl)
  · simp

theorem raises_missing (fs : Dict Value) (keys : List String) : ∀ i ∈ missing cx fs a keys, Raises (.object fs) a i := by
  refine List.forall_mem_map.2 fun k hk => .lack rfl (fun hmem => ?_) rfl rfl
  obtain ⟨e, he, rfl⟩ := List.mem_map.1 hmem
  have hhas : Dict.has fs e.1 = true := List.any_eq_true.2 ⟨e, he, beq_self_eq_true _⟩
  simp [hhas] at hk

theorem raises_unknownKeys (fs : Dict Value) (known : List String) :
    ∀ i ∈ unknownKeys cx fs known a, Raises (.object fs) a i :=
  List.forall_mem_map.2 fun _ he => .entry rfl (List.mem_map_of_mem (List.mem_of_mem_filter he)) rfl rfl

theorem raises_keyPattern (pattern : String) (fs : Dict Value) :
    ∀ i ∈ keyPattern cx pattern fs a, Raises (.object fs) a i := by
  unfold keyPattern
  split
  · simp
  · exact List.forall_mem_map.2 fun _ he => .entry rfl (List.mem_map_of_mem (List.mem_of_mem_filter he)) rfl rfl

theorem raises_select {d : Dispatch} {vs : List Shape} {is : List Issue} (h : select cx d vs v a = .error is) :
    ∀ i ∈ is, Raises v a i := by
  unfold select at h
  split at h
  · split at h
    · rename_i hnone
      cases h
      exact List.forall_mem_singleton.2 (.lack rfl (Dict.get?_eq_none_iff.1 hnone) rfl rfl)
    · rename_i tag htag
      split at h
      · cases h
      · cases h
        refine List.forall_mem_singleton.2 (.entry rfl (Dict.get?_isSome_iff.1 ?_) rfl rfl)
        rw [htag]
        rfl
  · cases h
    exact (here_invalidType _ _).raises

/-! ## Issues of the checks below -/

/-- every issue that is found is of a kind -/
def Every (Q : Issue → Prop) (o : Option (List Issue)) : Prop := ∀ is, o = some is → ∀ i ∈ is, Q i

theorem every_some {is : List Issue} (h : ∀ i ∈ is, Q i) : Every Q (some is) := by
  rintro _ ⟨⟩
  exact h

theorem concat_every {os : List (Option (List Issue))} (h : ∀ o ∈ os, Every Q o) : Every Q (concat os) := by
  induction os with
  | nil => exact every_some (by simp)
  | cons o os ih =>
    intro is his
    rw [concat_cons] at his
    obtain ⟨xs, hxs, his⟩ := Option.bind_eq_some_iff.1 his
    obtain ⟨ys, hys, rfl⟩ := Option.map_eq_some_iff.1 his
    exact List.forall_mem_append.2
      ⟨h o (List.mem_cons_self ..) xs hxs, ih (fun o ho => h o (List.mem_cons_of_mem _ ho)) ys hys⟩

theorem firstMatch_every {check : Shape → Option (List Issue)} {otherwise : Issue} (h : Q otherwise) (ss : List Shape) :
    Every Q (firstMatch check otherwise ss) := by
  induction ss with
  | nil => exact every_some (List.forall_mem_singleton.2 h)
  | cons s ss ih =>
    unfold firstMatch
    split
    · intro is his
      cases his
    · exact every_some (by simp)
    · exact ih

/-- a union of one variant has its issues, any other its own -/
theorem anyOf_every {check : Shape → Option (List Issue)} {ss : List Shape} (hsingle : ∀ s, ss = [s] → Every Q (check s))
    (hown : ∀ is, Here a is → ∀ i ∈ is, Q i) : Every Q (anyOf cx check a ss) := by
  have hreport (ss : List Shape) : Q (report cx a .unionNoMatch [("variants", .nat ss.length)]) :=
    hown _ (here_report rfl _) _ (List.mem_singleton.2 rfl)
  rcases ss with _ | ⟨s, _ | ⟨t, ss⟩⟩
  · exact firstMatch_every (hreport _) _
  · exact hsingle s rfl
  · exact firstMatch_every (hreport _) _

theorem oneOf_every {count : Nat} {os : List (Option (List Issue))} : Every (Raises v a) (oneOf cx count a os) := by
  unfold oneOf
  split
  · intro is his
    cases his
  · refine every_some (Here.raises ?_)
    split
    · exact here_report rfl _
    · split
      · exact here_report rfl _
      · exact here_nil

/-- **Where issues come from.** Each issue of a shape is raised by its own checks or by a check that it calls. -/
theorem own_every {fuel : Nat} (hown : ∀ i, Raises v a i → Q i)
    (hbelow : ∀ w, Calls cx ⟨s, v, a⟩ w → Every Q (w.issues cx fuel)) : Every Q (own cx (issues cx fuel) s v a) := by
  have hhere {is : List Issue} (h : Here a is) : ∀ i ∈ is, Q i := fun i hi => hown i (h.raises i hi)
  cases s with
  | absent => exact every_some (by simp)
  | foreign b => exact every_some (by simp)
  | any b => exact every_some (by simp)
  | primitive b q => exact every_some (hhere (here_primitive q))
  | enum b vs => exact every_some (hhere (here_issueIf rfl _ _))
  | ref b name =>
    simp only [own]
    cases ht : cx.program.target? name with
    | none => exact every_some (by simp)
    | some t => exact hbelow ⟨t, v, a⟩ (.target ht)
  | array b item l =>
    cases v <;> try exact every_some (hhere (here_invalidType _ _))
    rename_i xs
    simp only [own]
    have hflat : ∀ i ∈ length cx a "items" xs.length l.minItems l.maxItems ++ (if l.unique then unique cx xs a else []), Q i := by
      refine List.forall_mem_append.2 ⟨hhere (here_length _ _ _ _), ?_⟩
      split
      · exact fun i hi => hown i (raises_unique xs i hi)
      · simp
    split
    · exact every_some hflat
    · refine concat_every (List.forall_mem_cons.2 ⟨every_some hflat, List.forall_mem_map.2 fun e he => ?_⟩)
      have hx : xs[0 + e.2]? = some e.1 := by
        rw [Nat.zero_add]
        exact List.mem_zipIdx_iff_getElem?.1 he
      exact hbelow ⟨item, e.1, a.index (0 + e.2 : Nat)⟩ (.item hx)
  | tuple b positions rest l =>
    cases v <;> try exact every_some (hhere (here_invalidType _ _))
    rename_i xs
    simp only [own]
    refine concat_every (List.forall_mem_cons.2 ⟨every_some (List.forall_mem_append.2 ⟨List.forall_mem_append.2
      ⟨hhere (here_length _ _ _ _), ?_⟩, hhere (here_length _ _ _ _)⟩), List.forall_mem_append.2 ⟨List.forall_mem_map.2 fun e he => ?_, ?_⟩⟩)
    · split
      · exact fun i hi => hown i (raises_unique xs i hi)
      · simp
    · obtain ⟨⟨x, t⟩, i⟩ := e
      obtain ⟨hx, ht⟩ := List.getElem?_zip_eq_some.1 (List.mem_zipIdx_iff_getElem?.1 he)
      exact hbelow ⟨t, x, a.index i⟩ (.position hx ht)
    · split
      · simp
      · refine List.forall_mem_map.2 fun e he => ?_
        have hx : xs[positions.length + e.2]? = some e.1 := by
          rw [← List.getElem?_drop]
          exact List.mem_zipIdx_iff_getElem?.1 he
        exact hbelow ⟨rest, e.1, a.index (positions.length + e.2 : Nat)⟩ (.beyond hx)
  | object b fields additional q =>
    cases v <;> try exact every_some (hhere (here_invalidType _ _))
    rename_i fs
    simp only [own]
    refine concat_every (List.forall_mem_cons.2 ⟨every_some fun i hi => hown i (raises_missing fs _ i hi),
      List.forall_mem_append.2 ⟨List.forall_mem_append.2 ⟨List.forall_mem_map.2 fun e he => ?_, ?_⟩,
        List.forall_mem_singleton.2 (every_some fun i hi => hown i (raises_keyPattern _ fs i hi))⟩⟩)
    · obtain ⟨k, t⟩ := e
      dsimp only
      cases hk : Dict.get? fs k with
      | none => exact every_some (by simp)
      | some x => exact hbelow ⟨t, x, a.field k⟩ (.field he hk)
    · split_ifs with hstrict hchecked
      · exact List.forall_mem_singleton.2 (every_some fun i hi => hown i (raises_unknownKeys fs _ i hi))
      · refine List.forall_mem_map.2 fun e he => ?_
        simp only [Bool.and_eq_true, decide_eq_true_eq] at hchecked
        exact hbelow ⟨additional, e.2, a.field e.1⟩ (.additional hchecked.1 he)
      · simp
  | oneOf b vs d =>
    simp only [own]
    split
    · exact fun is his i hi => hown i (oneOf_every is his i hi)
    · rename_i hd
      cases hselect : select cx d vs v a with
      | error is => exact every_some fun i hi => hown i (raises_select hselect i hi)
      | ok t => exact hbelow ⟨t, v, a⟩ (.selected hd hselect)
  | anyOf b vs =>
    refine anyOf_every (fun t ht => ?_) fun is his => hhere his
    subst ht
    exact hbelow ⟨t, v, a⟩ (@Calls.alternative cx b [] [] t v a (by simp))
  | allOf b ps => exact concat_every (List.forall_mem_map.2 fun t ht => hbelow ⟨t, v, a⟩ (.part ht))

/-! ## Places -/

/-- the visit looks at decoded data that stands at its place -/
structure Stands (root : Value) (w : Visit) : Prop where
  place : root.at? w.place = some w.value
  decoded : w.value.Decoded

/-- a check that is called looks at what stands at its place, too -/
theorem Calls.stands {root : Value} {u w : Visit} (h : Calls cx u w) (hu : Stands root u) : Stands root w := by
  obtain ⟨hplace, hdecoded⟩ := hu
  cases h with
  | item hx | position hx _ | beyond hx =>
    cases hdecoded with
    | array hxs => exact ⟨(Value.at?_index hplace _).trans hx, hxs _ (List.mem_of_getElem? hx)⟩
  | field _ hx =>
    cases hdecoded with
    | object hsorted hfs =>
      exact ⟨(Value.at?_field hplace _).trans hx, hfs _ ((Dict.get?_eq_some hsorted.nodup).1 hx)⟩
  | additional _ hx =>
    have hx := List.mem_of_mem_filter hx
    cases hdecoded with
    | object hsorted hfs =>
      exact ⟨(Value.at?_field hplace _).trans ((Dict.get?_eq_some hsorted.nodup).2 hx), hfs _ hx⟩
  | tried | selected | alternative | part | target => exact ⟨hplace, hdecoded⟩

/-- **Issues below a place.** -/
theorem issues_located {root : Value} (fuel : Nat) {w : Visit} (h : Stands root w) :
    Every (Issue.Located root) (w.issues cx fuel) := by
  induction fuel generalizing w with
  | zero =>
    intro is his
    cases his
  | succ fuel ih =>
    intro is his
    rw [Visit.issues, issues_succ] at his
    split at his
    · cases his
      simp
    · obtain ⟨js, hjs, rfl⟩ := Option.map_eq_some_iff.1 his
      unfold rules
      split
      · refine List.forall_mem_flatMap.2 fun r _ => ?_
        exact fun i hi => ((here_ruleIssue r).raises i hi).located h.place
      · exact own_every (fun i hi => hi.located h.place) (fun w' hw => ih (hw.stands h)) js hjs

end Check

/-- **Every issue points at a real place.** Whatever program checks a decoded value: the pointer of each issue leads to a place in
the value, unless the issue is about a missing key or a missing discriminator; then all but its last step leads to an object in
the value, and this object lacks the key that is the last step. -/
theorem Program.validate_located {p : Program} {coerce : Bool} {words : Wording} {v : Value} (hv : v.Decoded)
    {is : List Issue} (h : p.validate coerce words v = .ok is) : ∀ i ∈ is, i.Located v := by
  obtain ⟨fuel, hfuel⟩ := Check.validate_eq_ok.1 h
  have hroot : Check.Stands v ⟨p.root, v, Pointer.root⟩ := ⟨Value.at?_root v, hv⟩
  exact Check.issues_located fuel hroot is hfuel

/-- a list of objects that need an identifier -/
def listText : String :=
  "\x7b\"properties\":\x7b\"list\":\x7b\"items\":\x7b\"properties\":\x7b\"id\":\x7b\"type\":\"boolean\"\x7d\x7d," ++
    "\"required\":[\"id\"],\"additionalProperties\":\x7b\"type\":\"boolean\"\x7d\x7d\x7d\x7d\x7d"

/-- such a list; its second object lacks the identifier and has a key with a slash -/
def listValue : Value :=
  .object [("list", .array [.object [("id", .bool true)], .object [("a/b", .null)]])]

theorem validate_located_list : ∃ S p is, Schema.decode listText = .ok S ∧ Program.lower S {} = .ok p ∧ listValue.Decoded ∧
    p.validate false (fun _ _ => "") listValue = .ok is ∧
    is.map (fun i => (i.code, i.pointer)) = [(.required, [.field "list", .index 1, .field "id"]),
      (.invalidType, [.field "list", .index 1, .field "a/b"])] ∧ ∀ i ∈ is, i.Located listValue := by
  obtain ⟨S, hS, hlowers⟩ : ∃ S, Schema.decode listText = .ok S ∧ Lowering.lowersTo {} (fun p =>
      (p.validate false (fun _ _ => "") listValue).toOption.any fun is =>
        decide (is.map (fun i => (i.code, i.pointer)) = [(.required, [.field "list", .index 1, .field "id"]),
          (.invalidType, [.field "list", .index 1, .field "a/b"])])) S = true := by
    apply Schema.decode_ofList
    · unfold listText
      repeat' first | apply Schema.ofList_append | with_reducible exact rfl
    · decide +kernel
  obtain ⟨p, hp, hall⟩ := Lowering.lower_of_lowersTo hlowers
  obtain ⟨is, his, hall⟩ := ok_of_any hall
  have hv : listValue.Decoded := by
    have hone {k : String} {x : Value} (hx : x.Decoded) : (Value.object [(k, x)]).Decoded :=
      .object (List.pairwise_singleton ..) (List.forall_mem_singleton.2 hx)
    exact hone (.array (List.forall_mem_cons.2 ⟨hone (.bool true), List.forall_mem_singleton.2 (hone .null)⟩))
  exact ⟨S, p, is, hS, hp, hv, his, of_decide_eq_true hall, Program.validate_located hv his⟩

end Schemata
