import Mathlib.Tactic
import Schemata.Proofs.Program.Unsigned
import Schemata.Proofs.Source.Placement

/-!
Generated validators and programs find the same issues.

The function of a shape adds to the issues so far what the check of the shape finds (`Adds`). For the statements of one body
this is shown from the functions that they call (`body_adds`); for all functions it follows by induction on the budget
(`call_adds`), since a call of a function and a step of the check take the same part of it.

Main result: `run_generated`. A generated file and the program that it was made from find the same issues in the same order,
but for one thing: bounds are written as constants, and a constant zero has no sign. A program with a bound of negative zero
shows it in its issues, and the file shows zero instead (`run_negativeZero`).
-/

namespace Schemata.Source

/-! ## Adding issues -/

/-- the action adds what the check finds -/
def Adds (action : List Issue → Option (List Issue)) (o : Option (List Issue)) : Prop := ∀ iss, action iss = o.map (iss ++ ·)

/-- one list of issues after the other -/
def follow (o o' : Option (List Issue)) : Option (List Issue) := o.bind fun a => o'.map (a ++ ·)

@[simp] theorem follow_some (a b : List Issue) : follow (some a) (some b) = some (a ++ b) := rfl

theorem follow_nil (o : Option (List Issue)) : follow (some []) o = o := by cases o <;> rfl

theorem concat_append (xs ys : List (Option (List Issue))) :
    Check.concat (xs ++ ys) = follow (Check.concat xs) (Check.concat ys) := by
  induction xs with
  | nil => exact (follow_nil _).symm
  | cons x xs ih =>
    rw [List.cons_append, Check.concat_cons, Check.concat_cons, ih]
    cases x <;> cases Check.concat xs <;> cases Check.concat ys <;> simp [follow]

theorem concat_some_cons (a : List Issue) (xs : List (Option (List Issue))) :
    Check.concat (some a :: xs) = follow (some a) (Check.concat xs) := Check.concat_cons _ _

theorem concat_singleton (a : List Issue) : Check.concat [some a] = some a := by
  simp [Check.concat]

theorem Adds.bind {a b : List Issue → Option (List Issue)} {o o' : Option (List Issue)} (ha : Adds a o) (hb : Adds b o') :
    Adds (fun iss => (a iss).bind b) (follow o o') := by
  intro iss
  simp only [ha iss]
  cases o with
  | none => rfl
  | some x =>
    rw [Option.map_some, Option.bind_some, hb]
    cases o' <;> simp [follow]

theorem adds_some (a : List Issue) : Adds (fun iss => some (iss ++ a)) (some a) := fun _ => rfl

theorem adds_nothing : Adds some (some []) := fun iss => by simp

theorem inTurn_adds {actions : List (List Issue → Option (List Issue))} {os : List (Option (List Issue))}
    (h : List.Forall₂ Adds actions os) : Adds (inTurn actions) (Check.concat os) := by
  induction h with
  | nil => exact adds_nothing
  | @cons a o actions os ha _ ih =>
    rw [Check.concat_cons]
    exact ha.bind ih

theorem inTurn_map_adds {α : Type} {l : List α} {f : α → List Issue → Option (List Issue)} {g : α → Option (List Issue)}
    (h : ∀ a ∈ l, Adds (f a) (g a)) : Adds (inTurn (l.map f)) (Check.concat (l.map g)) := by
  refine inTurn_adds ?_
  induction l with
  | nil => exact .nil
  | cons a l ih => exact .cons (h a (by simp)) (ih fun b hb => h b (List.mem_cons_of_mem a hb))

/-! ## Statements -/

def Statement.isBind : Statement → Bool
  | .bind _ => true
  | _ => false

section Statements

variable {w : Wording} {calls : Nat → Action} {file : File} {v : Value} {p : Pointer} {x : Subject}

/-- statements that bind nothing, and what they add -/
structure Does (w : Wording) (calls : Nat → Action) (file : File) (v : Value) (p : Pointer) (x : Subject)
    (ss : List Statement) (o : Option (List Issue)) : Prop where
  plain : ∀ s ∈ ss, s.isBind = false
  adds : Adds (runBody w calls file v p ss x) o

theorem Does.nil : Does w calls file v p x [] (some []) := ⟨by simp, adds_nothing⟩

theorem runBody_cons {s : Statement} (hs : s.isBind = false) (ss : List Statement) :
    runBody w calls file v p (s :: ss) x = fun iss => (s.act w calls file v p x iss).bind (runBody w calls file v p ss x) := by
  funext iss
  cases s <;> first | rfl | cases hs

theorem Does.cons {s : Statement} {ss : List Statement} {o o' : Option (List Issue)} (hs : s.isBind = false)
    (ha : Adds (s.act w calls file v p x) o) (h : Does w calls file v p x ss o') :
    Does w calls file v p x (s :: ss) (follow o o') := by
  refine ⟨fun t ht => ?_, ?_⟩
  · rcases List.mem_cons.1 ht with rfl | ht
    · exact hs
    · exact h.plain t ht
  · rw [runBody_cons hs]
    exact ha.bind h.adds

theorem follow_none_right (o : Option (List Issue)) : follow o (some []) = o := by cases o <;> simp [follow]

theorem Does.single {s : Statement} {o : Option (List Issue)} (hs : s.isBind = false)
    (ha : Adds (s.act w calls file v p x) o) : Does w calls file v p x [s] o := by
  have := Does.cons hs ha Does.nil
  rwa [follow_none_right] at this

theorem follow_assoc (a b c : Option (List Issue)) : follow (follow a b) c = follow a (follow b c) := by
  cases a <;> cases b <;> cases c <;> simp [follow]

theorem Does.append {ss ts : List Statement} {o o' : Option (List Issue)} (h : Does w calls file v p x ss o)
    (h' : Does w calls file v p x ts o') : Does w calls file v p x (ss ++ ts) (follow o o') := by
  obtain ⟨hplain, hadds⟩ := h
  refine ⟨fun t ht => (List.mem_append.1 ht).elim (hplain t) (h'.plain t), fun iss => ?_⟩
  -- the first part runs to its end, since nothing in it binds
  have hrun (iss : List Issue) : runBody w calls file v p (ss ++ ts) x iss =
      (runBody w calls file v p ss x iss).bind (runBody w calls file v p ts x) := by
    clear hadds
    induction ss generalizing iss with
    | nil => rfl
    | cons s ss ih =>
      have hs := hplain s (by simp)
      rw [List.cons_append, runBody_cons hs, runBody_cons hs]
      simp only
      cases s.act w calls file v p x iss with
      | none => rfl
      | some is => exact ih (fun t ht => hplain t (List.mem_cons_of_mem s ht)) is
  rw [hrun]
  exact hadds.bind h'.adds iss

/-- a statement that is there only with its constant -/
theorem Does.when {α : Type} {f : α → Statement} {g : α → List Issue} (o : Option α)
    (h : ∀ a, (f a).isBind = false ∧ Adds ((f a).act w calls file v p x) (some (g a))) :
    Does w calls file v p x (when? o f) (some ((o.map g).getD [])) := by
  cases o with
  | none => exact Does.nil
  | some a => exact Does.single (h a).1 (h a).2

/-- a binding goes on with what it binds, and returns where it fails -/
theorem bind_adds {a : Assertion} {ss : List Statement} {o : Option (List Issue)}
    (hok : ∀ y, a.apply w v p = .ok y → Adds (runBody w calls file v p ss y) o)
    (herr : ∀ is, a.apply w v p = .error is → o = some is) : Adds (runBody w calls file v p (.bind a :: ss) x) o := by
  intro iss
  cases ha : a.apply w v p with
  | ok y =>
    simp only [runBody, ha]
    exact hok y ha iss
  | error is =>
    simp only [runBody, ha, herr is ha]
    rfl

theorem assert_adds {a : Assertion} {o : Option (List Issue)} (hok : ∀ y, a.apply w v p = .ok y → o = some [])
    (herr : ∀ is, a.apply w v p = .error is → o = some is) :
    Adds (runBody w calls file v p [.assert a] x) o := by
  refine (Does.single rfl fun iss => ?_).adds
  cases ha : a.apply w v p with
  | ok y => simp [Statement.act, ha, hok y ha]
  | error is => simp [Statement.act, ha, herr is ha]

end Statements

/-! ## Bodies -/

section Bodies

variable {w : Wording} {coerce : Bool} {calls : Nat → Action} {file : File} {v : Value} {p : Pointer} {x : Subject}

theorem length_eq (cx : Check.Context) (p : Pointer) (unit : String) (got : Nat) (min max : Option Int) :
    Check.length cx p unit got min max =
      (min.map fun n => Check.length cx p unit got (some n) none).getD [] ++
        (max.map fun n => Check.length cx p unit got none (some n)).getD [] := by
  cases min <;> cases max <;> simp [Check.length]

theorem bounds_eq (cx : Check.Context) (q : Primitive) (p : Pointer) (x : Float) :
    Check.bounds cx q p x =
      (q.min.map fun m => Check.bounds cx { type := .number, min := some m, exclusiveMin := q.exclusiveMin } p x).getD [] ++
      (q.max.map fun m => Check.bounds cx { type := .number, max := some m, exclusiveMax := q.exclusiveMax } p x).getD [] ++
      (q.multipleOf.map fun m => Check.bounds cx { type := .number, multipleOf := some m } p x).getD [] := by
  unfold Check.bounds
  cases q.min <;> cases q.max <;> cases q.multipleOf <;> simp

theorem pattern_eq (hmade : ∀ r : Variable, r ∈ file.vars → file.variable? r.name = some r.initial) {n : Nat} {t : String}
    (hr : (⟨n, .pattern t⟩ : Variable) ∈ file.vars) {re : Pattern} (hre : Pattern.parse t = .ok re) :
    file.pattern? ⟨n, .pattern t⟩ = some (t, re) := by
  simp [File.pattern?, hmade _ hr, hre, Except.toOption]

/-- the statements after the binding of a text -/
theorem string_adds (hvars : ∀ r : Variable, r ∈ file.vars → file.variable? r.name = some r.initial) {q : Primitive}
    (hq : q.type = .string) (hpattern : Verify.patternRuns q.pattern = .ok ()) {ss : List Statement}
    (hdecl : ∀ r ∈ variablesOf ss, r ∈ file.vars) {pool pool' : Pool} (hs : pool.Sound)
    (h : stringBody q pool = .ok (ss, pool')) (cx : Check.Context) (hcx : cx.wording = w) :
    Adds (runBody w calls file v p ss .nothing) (some (Check.primitive cx q v p)) := by
  subst hcx
  have hprim : Check.primitive cx q v p = Check.string cx q v p := by simp [Check.primitive, hq]
  rw [hprim]
  have hfail (is : List Issue) (h : Assertion.string.apply cx.wording v p = .error is) :
      some (Check.string cx q v p) = some is := by
    cases v <;> simp only [Assertion.apply, reduceCtorEq, Except.error.injEq] at h <;> rw [← h] <;> rfl
  rcases (stringBody_made hs h).2 with ⟨hmin, hmax, hpat, hfmt, rfl⟩ | ⟨ps, fs, hps, hfs, rfl⟩
  · refine assert_adds (fun y hy => ?_) hfail
    cases v <;> simp only [Assertion.apply, reduceCtorEq] at hy
    simp [Check.string, Check.length, hmin, hmax, hpat, hfmt, Check.issueIf, show Format.ofName? "" = none from rfl]
  · simp only [List.cons_append]
    refine bind_adds (fun y hy => ?_) hfail
    cases v <;> simp only [Assertion.apply, reduceCtorEq, Except.ok.injEq] at hy
    rename_i s
    subst hy
    have hmin : Does cx.wording calls file (.string s) p (.text s) (when? q.minLength .minLength)
        (some ((q.minLength.map fun n => Check.length cx p "characters" s.length (some n) none).getD [])) :=
      Does.when q.minLength fun n => ⟨rfl, fun iss => by
        simp only [Statement.act, intConstant_eq, Option.map_some]
        rfl⟩
    have hmax : Does cx.wording calls file (.string s) p (.text s) (when? q.maxLength .maxLength)
        (some ((q.maxLength.map fun n => Check.length cx p "characters" s.length none (some n)).getD [])) :=
      Does.when q.maxLength fun n => ⟨rfl, fun iss => by
        simp only [Statement.act, intConstant_eq, Option.map_some]
        rfl⟩
    have hpat : Does cx.wording calls file (.string s) p (.text s) ps (some (Check.issueIf
        (q.pattern ≠ "" && !Check.matchesText q.pattern s)
        (Check.report cx p .pattern [("pattern", .string q.pattern)]))) := by
      rcases hps with ⟨hne, rfl⟩ | ⟨hne, n, rfl⟩
      · simpa [hne, Check.issueIf] using Does.nil
      · obtain ⟨re, hre⟩ := Verify.patternRuns_ok hpattern hne
        have hvar : (⟨n, .pattern q.pattern⟩ : Variable) ∈ file.vars :=
          hdecl _ (by simp [variablesOf, Statement.variables])
        refine Does.single rfl fun iss => ?_
        simp only [Statement.act, pattern_eq hvars hvar hre, Option.map_some, Check.matchesText, hre]
        simp [hne]
        rfl
    have hfmt : Does cx.wording calls file (.string s) p (.text s) fs (some ((Format.ofName? q.format).elim []
        fun f => Check.issueIf (!f.holds s) (Check.report cx p .invalidFormat [("format", .string q.format)]))) := by
      rcases hfs with ⟨hne, rfl⟩ | ⟨f, hf, rfl⟩
      · simpa [hne, show Format.ofName? "" = none from rfl] using Does.nil
      · refine Does.single rfl fun iss => ?_
        simp only [Statement.act, textConstant_eq, Option.map_some, hf]
        rfl
    have := (((hmin.append hmax).append hpat).append hfmt).adds
    simp only [follow_some, ← length_eq] at this
    rw [Check.string]
    cases hformat : Format.ofName? q.format <;> rw [hformat] at this <;> exact this

/-- the statements after the binding of a number; its bounds lose the sign of zero -/
theorem number_adds {a : Assertion} {q : Primitive} (hfin : ∀ x ∈ q.limits, Number.isFinite x = true)
    (cx : Check.Context) {is : List Issue}
    (ha : (∃ x, a.apply cx.wording v p = .ok (.number x) ∧ is = Check.bounds cx q.unsigned p x) ∨
      a.apply cx.wording v p = .error is) :
    Adds (runBody cx.wording calls file v p (numberBody a q) .nothing) (some is) := by
  have hok (y : Subject) (hy : a.apply cx.wording v p = .ok y) :
      ∃ x, y = .number x ∧ is = Check.bounds cx q.unsigned p x := by
    rcases ha with ⟨x, hx, his⟩ | he
    · exact ⟨x, Except.ok.inj (hy.symm.trans hx), his⟩
    · exact nomatch hy.symm.trans he
  have herr (e : List Issue) (he : a.apply cx.wording v p = .error e) : some is = some e := by
    rcases ha with ⟨x, hx, -⟩ | hw
    · exact nomatch hx.symm.trans he
    · exact congrArg some (Except.error.inj (hw.symm.trans he))
  simp only [Primitive.limits, List.mem_append, Option.mem_toList] at hfin
  unfold numberBody
  split
  · rename_i hnone
    simp only [Bool.and_eq_true, Option.isNone_iff_eq_none] at hnone
    refine assert_adds (fun y hy => ?_) herr
    obtain ⟨x, -, rfl⟩ := hok y hy
    simp [Check.bounds, Primitive.unsigned, hnone.1.1, hnone.1.2, hnone.2]
  · simp only [List.cons_append]
    refine bind_adds (fun y hy => ?_) herr
    obtain ⟨x, rfl, rfl⟩ := hok y hy
    -- every bound that is there is finite, so its constant is its value without the sign of zero
    have hbound {f : Float → Statement} {g : Float → List Issue} (m : Option Float)
        (hm : ∀ b, m = some b → Number.isFinite b = true)
        (hf : ∀ b, Number.isFinite b = true → (f b).isBind = false ∧
          Adds ((f b).act cx.wording calls file v p (.number x)) (some (g (Number.unsigned b)))) :
        Does cx.wording calls file v p (.number x) (when? m f) (some (((m.map Number.unsigned).map g).getD [])) := by
      cases m with
      | none => exact Does.nil
      | some b => exact Does.single (hf b (hm b rfl)).1 (hf b (hm b rfl)).2
    have hmin := hbound (f := fun x => .minimum x q.exclusiveMin) (g := fun m => Check.bounds cx
      { type := .number, min := some m, exclusiveMin := q.exclusiveMin } p x) q.min (fun b hb => hfin b (.inl (.inl hb)))
      fun b hb => ⟨rfl, fun iss => by
        simp only [Statement.act, numberConstant_bound hb, Option.map_some]
        rfl⟩
    have hmax := hbound (f := fun x => .maximum x q.exclusiveMax) (g := fun m => Check.bounds cx
      { type := .number, max := some m, exclusiveMax := q.exclusiveMax } p x) q.max (fun b hb => hfin b (.inl (.inr hb)))
      fun b hb => ⟨rfl, fun iss => by
        simp only [Statement.act, numberConstant_bound hb, Option.map_some]
        rfl⟩
    have hmul := hbound (f := .multipleOf) (g := fun m => Check.bounds cx
      { type := .number, multipleOf := some m } p x) q.multipleOf (fun b hb => hfin b (.inr hb))
      fun b hb => ⟨rfl, fun iss => by
        simp only [Statement.act, numberConstant_bound hb, Option.map_some]
        rfl⟩
    have := ((hmin.append hmax).append hmul).adds
    simp only [follow_some] at this
    rw [bounds_eq cx q.unsigned p x]
    exact this

theorem primitive_adds (hvars : ∀ r : Variable, r ∈ file.vars → file.variable? r.name = some r.initial) {q : Primitive}
    (hfin : ∀ x ∈ q.limits, Number.isFinite x = true) (hpattern : q.type = .string → Verify.patternRuns q.pattern = .ok ())
    {ss : List Statement} (hdecl : ∀ r ∈ variablesOf ss, r ∈ file.vars) {pool pool' : Pool} (hs : pool.Sound)
    (cx : Check.Context) (hcx : cx.wording = w) (h : primitiveBody cx.coerce q pool = .ok (ss, pool')) :
    Adds (runBody w calls file v p ss .nothing) (some (Check.primitive cx q.unsigned v p)) := by
  unfold primitiveBody at h
  have htype : q.unsigned.type = q.type := rfl
  cases hq : q.type with
  | string =>
    rw [hq] at h
    have hsame : Check.primitive cx q.unsigned v p = Check.primitive cx q v p := by
      simp only [Check.primitive, htype, hq]
      rfl
    rw [hsame]
    exact string_adds hvars hq (hpattern hq) hdecl hs h cx hcx
  | number =>
    rw [hq] at h
    obtain ⟨rfl, -⟩ := gen_pure_ok h
    subst hcx
    simp only [Check.primitive, htype, hq]
    refine number_adds hfin cx ?_
    have hread : Check.asNumber (helpers cx.wording cx.coerce) v = Check.asNumber cx v := rfl
    simp only [Assertion.apply, hread]
    cases Check.asNumber cx v with
    | none => exact .inr rfl
    | some x => exact .inl ⟨x, rfl, rfl⟩
  | integer =>
    rw [hq] at h
    obtain ⟨rfl, -⟩ := gen_pure_ok h
    subst hcx
    simp only [Check.primitive, htype, hq]
    refine number_adds hfin cx ?_
    have hread : Check.asInteger (helpers cx.wording cx.coerce) v = Check.asInteger cx v := rfl
    simp only [Assertion.apply, hread]
    cases Check.asInteger cx v with
    | none => exact .inr rfl
    | some x => exact .inl ⟨x, rfl, rfl⟩
  | boolean =>
    rw [hq] at h
    obtain ⟨rfl, -⟩ := gen_pure_ok h
    subst hcx
    have hbool : Check.boolean (helpers cx.wording cx.coerce) v p = Check.boolean cx v p := rfl
    simp only [Check.primitive, htype, hq]
    refine assert_adds (fun y hy => ?_) fun e he => ?_
    · simp only [Assertion.apply, hbool] at hy
      split at hy
      · rename_i hnil
        rw [hnil]
      · cases hy
    · simp only [Assertion.apply, hbool] at he
      split at he
      · cases he
      · exact congrArg some (Except.error.inj he)
  | null =>
    rw [hq] at h
    obtain ⟨rfl, -⟩ := gen_pure_ok h
    subst hcx
    simp only [Check.primitive, htype, hq]
    refine assert_adds (fun y hy => ?_) fun e he => ?_
    · simp only [Assertion.apply] at hy
      split at hy
      · rename_i hnull
        rw [if_pos hnull]
      · cases hy
    · simp only [Assertion.apply] at he
      split at he
      · cases he
      · rename_i hnull
        rw [if_neg hnull, ← Except.error.inj he]
        rfl
  | other n =>
    rw [hq] at h
    cases h

theorem Adds.nil {action : List Issue → Option (List Issue)} {o : Option (List Issue)} (h : Adds action o) :
    action [] = o := by
  rw [h []]
  cases o <;> simp

/-- what arrays have in common: a value of another kind is reported, and nothing else -/
theorem array_error (cx : Check.Context) (hcx : cx.wording = w) {is : List Issue}
    (h : Assertion.array.apply w v p = .error is) :
    (∀ xs, v ≠ .array xs) ∧ some (Check.invalidType cx p "array" v) = some is := by
  subst hcx
  cases v <;> simp only [Assertion.apply, reduceCtorEq, Except.error.injEq] at h <;>
    exact ⟨fun _ => by simp, congrArg some h⟩

variable (calls) (file) (p) in
theorem maxItems_does (cx : Check.Context) (xs : List Value) (o : Option Int) :
    Does cx.wording calls file (.array xs) p (.items xs) (when? o .maxItems)
      (some ((o.map fun n => Check.length cx p "items" xs.length none (some n)).getD [])) :=
  Does.when o fun n => ⟨rfl, fun iss => by simp only [Statement.act, intConstant_eq, Option.map_some]; rfl⟩

variable (calls) (file) (p) in
theorem unique_does (cx : Check.Context) (xs : List Value) (unique : Bool) :
    Does cx.wording calls file (.array xs) p (.items xs) (if unique then [.unique] else [])
      (some (if unique then Check.unique cx xs p else [])) := by
  split
  · exact Does.single rfl fun iss => rfl
  · exact Does.nil

theorem array_adds {check : Shape → Value → Pointer → Option (List Issue)} (cx : Check.Context) (hcx : cx.wording = w)
    {b : Base} {i : Shape} {l : ArrayLimits} {n : Nat}
    (hitem : i.isAbsent = false → ∀ x q, Adds (calls n x q) (check i.unsigned x q)) :
    Adds (runBody w calls file v p (arrayBody (present i n) l) .nothing)
      (Check.own cx check (.array b i.unsigned l) v p) := by
  have hfail (is : List Issue) (h : Assertion.array.apply w v p = .error is) :
      Check.own cx check (.array b i.unsigned l) v p = some is := by
    obtain ⟨hv, his⟩ := array_error cx hcx h
    rw [← his]
    cases v <;> first | rfl | exact absurd rfl (hv _)
  subst hcx
  unfold arrayBody
  split
  · rename_i hnone
    simp only [Bool.and_eq_true, Option.isNone_iff_eq_none, Bool.not_eq_true'] at hnone
    obtain ⟨⟨⟨hmin, hmax⟩, hunique⟩, habs⟩ := hnone
    refine assert_adds (fun y hy => ?_) hfail
    cases v <;> simp only [Assertion.apply, reduceCtorEq] at hy
    have habs : i.isAbsent = true := by
      cases hi : i.isAbsent with
      | true => rfl
      | false => simp [present, hi] at habs
    simp [Check.own, Check.length, hmin, hmax, hunique, habs]
  · simp only [List.cons_append]
    refine bind_adds (fun y hy => ?_) hfail
    cases v <;> simp only [Assertion.apply, reduceCtorEq, Except.ok.injEq] at hy
    rename_i xs
    subst hy
    have hmin : Does cx.wording calls file (.array xs) p (.items xs) (when? l.minItems .minItems)
        (some ((l.minItems.map fun n => Check.length cx p "items" xs.length (some n) none).getD [])) :=
      Does.when l.minItems fun n => ⟨rfl, fun iss => by simp only [Statement.act, intConstant_eq, Option.map_some]; rfl⟩
    have hmax := maxItems_does calls file p cx xs l.maxItems
    have hunique := unique_does calls file p cx xs l.unique
    have hitems : Does cx.wording calls file (.array xs) p (.items xs) (when? (present i n) .items)
        (if i.isAbsent then some [] else Check.concat (xs.zipIdx.map fun e => check i.unsigned e.1 (p.index e.2))) := by
      cases hi : i.isAbsent with
      | true => simpa [present, hi, when?] using Does.nil
      | false =>
        simp only [present, hi, when?, Bool.false_eq_true, if_false]
        exact Does.single rfl (inTurn_map_adds fun e _ => hitem hi e.1 _)
    have := (((hmin.append hmax).append hunique).append hitems).adds
    simp only [follow_some, ← length_eq] at this
    simp only [Check.own, Shape.isAbsent_unsigned, Nat.zero_add]
    cases hi : i.isAbsent with
    | true => simpa [hi] using this
    | false =>
      simp only [hi, Bool.false_eq_true, if_false, concat_some_cons] at this ⊢
      exact this

/-- positions go to the functions of their shapes, and those beyond them to the function of the rest -/
theorem tupleItems_adds {check : Shape → Value → Pointer → Option (List Issue)} {rest : Option Nat} {ns : List Nat}
    {r : Shape} (hrest : ∀ n, rest = some n → ∀ x q, Adds (calls n x q) (check r x q)) {positions : List Shape}
    (xs : List Value) (k : Nat) (hcount : k + positions.length = ns.length)
    (hns : List.Forall₂ (fun n s => ∀ x q, Adds (calls n x q) (check s x q)) (ns.drop k) positions) :
    List.Forall₂ Adds
      ((xs.zipIdx k).filterMap (tupleItem calls p rest ns))
      (((xs.zip positions).zipIdx k).map (fun ((x, s), i) => check s x (p.index i)) ++
        if rest.isNone then []
        else (xs.drop positions.length).zipIdx.map fun (x, i) => check r x (p.index (ns.length + i : Nat))) := by
  induction positions generalizing k xs with
  | nil =>
    obtain rfl : k = ns.length := hcount
    simp only [List.zip_nil_right, List.zipIdx_nil, List.map_nil, List.nil_append, List.length_nil, List.drop_zero]
    rw [List.zipIdx_eq_map_add, List.filterMap_map]
    have hnone (i : Nat) : ns[ns.length + i]? = none := List.getElem?_eq_none (Nat.le_add_right _ _)
    cases rest with
    | none => simp [Function.comp_def, tupleItem]
    | some n =>
      simp only [Function.comp_def, tupleItem, hnone, Option.isNone_some, Bool.false_eq_true, if_false]
      rw [List.filterMap_eq_map']
      induction xs.zipIdx with
      | nil => exact .nil
      | cons e es ih => exact .cons (hrest n rfl _ _) ih
  | cons s positions ih =>
    cases xs with
    | nil => cases rest <;> simp
    | cons x xs =>
      obtain ⟨n, tail, hdrop⟩ : ∃ n tail, ns.drop k = n :: tail := by
        cases hd : ns.drop k with
        | nil =>
          rw [hd] at hns
          cases hns
        | cons n tail => exact ⟨n, tail, rfl⟩
      have hn : ns[k]? = some n := by
        have := congrArg (·[0]?) hdrop
        simpa using this
      have htail : ns.drop (k + 1) = tail := by
        rw [← List.drop_drop, hdrop]
        rfl
      rw [hdrop] at hns
      obtain ⟨hhead, hrests⟩ := List.forall₂_cons.1 hns
      have := ih xs (k + 1) (by simp at hcount; omega) (by rwa [htail])
      simp only [List.zipIdx_cons, List.filterMap_cons, tupleItem, hn, List.zip_cons_cons, List.map_cons, List.cons_append,
        List.length_cons, List.drop_succ_cons]
      exact .cons (hhead _ _) this

theorem tuple_adds {check : Shape → Value → Pointer → Option (List Issue)} (cx : Check.Context) (hcx : cx.wording = w)
    {b : Base} {is : List Shape} {r : Shape} {l : TupleLimits} {m : Nat} {ns : List Nat}
    (hrest : r.isAbsent = false → ∀ x q, Adds (calls m x q) (check r.unsigned x q))
    (hns : List.Forall₂ (fun n s => ∀ x q, Adds (calls n x q) (check s.unsigned x q)) ns is) :
    Adds (runBody w calls file v p
        (Statement.bind .array :: when? l.maxItems Statement.maxItems ++ (if l.unique then [Statement.unique] else [])
          ++ [Statement.tuple l.minItems l.closed (present r m) ns]) .nothing)
      (Check.own cx check (.tuple b (is.map Shape.unsigned) r.unsigned l) v p) := by
  have hfail (e : List Issue) (h : Assertion.array.apply w v p = .error e) :
      Check.own cx check (.tuple b (is.map Shape.unsigned) r.unsigned l) v p = some e := by
    obtain ⟨hv, his⟩ := array_error cx hcx h
    rw [← his]
    cases v <;> first | rfl | exact absurd rfl (hv _)
  subst hcx
  simp only [List.cons_append]
  refine bind_adds (fun y hy => ?_) hfail
  cases v <;> simp only [Assertion.apply, reduceCtorEq, Except.ok.injEq] at hy
  rename_i xs
  subst hy
  have hcount : ns.length = is.length := hns.length_eq
  have hmax := maxItems_does calls file p cx xs l.maxItems
  have hunique := unique_does calls file p cx xs l.unique
  have hpresent (n : Nat) (hn : present r m = some n) : r.isAbsent = false ∧ n = m := by
    unfold present at hn
    split at hn
    · cases hn
    · rename_i habs
      exact ⟨by simpa using habs, (Option.some.inj hn).symm⟩
  have hrest' : ∀ n, present r m = some n → ∀ x q, Adds (calls n x q) (check r.unsigned x q) := by
    intro n hn
    obtain ⟨habs, rfl⟩ := hpresent n hn
    exact hrest habs
  have hns' : List.Forall₂ (fun n s => ∀ x q, Adds (calls n x q) (check s x q)) (ns.drop 0) (is.map Shape.unsigned) := by
    rw [List.drop_zero, List.forall₂_map_right_iff]
    exact hns
  have hitems := inTurn_adds (tupleItems_adds (p := p) hrest' xs 0 (by simp [hcount]) hns')
  have htuple : Does cx.wording calls file (.array xs) p (.items xs) [.tuple l.minItems l.closed (present r m) ns]
      (follow (some (Check.length cx p "items" xs.length (some l.minItems) (if l.closed then some ns.length else none)))
        (Check.concat _)) :=
    Does.single rfl fun iss => by
      simp only [Statement.act, intConstant_eq, Option.bind_some]
      exact (adds_some _).bind hitems iss
  have := ((hmax.append hunique).append htuple).adds
  rw [follow_some, ← follow_assoc, follow_some, ← concat_some_cons] at this
  have hnone : (present r m).isNone = r.isAbsent := by
    unfold present
    split <;> simp_all
  have hlen : Check.length cx p "items" xs.length none l.maxItems =
      (l.maxItems.map fun n => Check.length cx p "items" xs.length none (some n)).getD [] := by
    rw [length_eq]
    rfl
  simp only [hnone, hcount, List.length_map] at this
  simp only [Check.own, Shape.isAbsent_unsigned, List.length_map, hlen]
  exact this

theorem fields_does {check : Shape → Value → Pointer → Option (List Issue)} (fs : Dict Value) {ns : List Nat}
    {fields : List (String × Shape)}
    (hns : List.Forall₂ (fun n s => ∀ x q, Adds (calls n x q) (check s.unsigned x q)) ns (fields.map (·.2))) :
    Does w calls file v p (.fields fs) (((fields.map (·.1)).zip ns).map fun (k, n) => .field k n)
      (Check.concat (fields.map fun (k, s) =>
        match Dict.get? fs k with
        | some x => check s.unsigned x (p.field k)
        | none => some [])) := by
  induction fields generalizing ns with
  | nil => exact Does.nil
  | cons f fields ih =>
    obtain ⟨k, s⟩ := f
    cases hns with
    | @cons n _ ns _ hn hns =>
      simp only [List.map_cons, List.zip_cons_cons, Check.concat_cons]
      refine Does.cons rfl (fun iss => ?_) (ih hns)
      simp only [Statement.act, textConstant_eq, Option.bind_some]
      cases Dict.get? fs k with
      | none => simp
      | some x => exact hn x (p.field k) iss

theorem requiredKeys_unsigned (q : ObjectPolicy) (fields : List (String × Shape)) :
    q.requiredKeys (fields.map fun (k, s) => (k, s.unsigned)) = q.requiredKeys fields := by
  simp [ObjectPolicy.requiredKeys, Function.comp_def]

theorem object_adds {check : Shape → Value → Pointer → Option (List Issue)}
    (hvars : ∀ r : Variable, r ∈ file.vars → file.variable? r.name = some r.initial) (cx : Check.Context)
    (hcx : cx.wording = w) {b : Base} {fields : List (String × Shape)} {a : Shape} {q : ObjectPolicy} {m : Nat}
    {ns : List Nat} (hpattern : Verify.patternRuns q.keyPattern = .ok ())
    (hns : List.Forall₂ (fun n s => ∀ x q, Adds (calls n x q) (check s.unsigned x q)) ns (fields.map (·.2)))
    (hadd : q.unknown = .checked → a.isAbsent = false → ∀ x q, Adds (calls m x q) (check a.unsigned x q))
    {ss : List Statement} (hdecl : ∀ r ∈ variablesOf ss, r ∈ file.vars) {pool pool' : Pool} (hs : pool.Sound)
    (h : objectBody fields ns (present a m) q pool = .ok (ss, pool')) :
    Adds (runBody w calls file v p ss .nothing)
      (Check.own cx check (.object b (fields.map fun (k, s) => (k, s.unsigned)) a.unsigned q) v p) := by
  have hfail (e : List Issue) (h : Assertion.object.apply w v p = .error e) :
      Check.own cx check (.object b (fields.map fun (k, s) => (k, s.unsigned)) a.unsigned q) v p = some e := by
    subst hcx
    cases v <;> simp only [Assertion.apply, reduceCtorEq, Except.error.injEq] at h <;> rw [← h] <;> rfl
  subst hcx
  have hnone : (present a m).isNone = a.isAbsent := by
    unfold present
    split <;> simp_all
  have hknown : (fields.map fun (k, s) => (k, s.unsigned)).map (·.1) = fields.map (·.1) := by
    simp [Function.comp_def]
  rcases (objectBody_made hs h).2 with ⟨hopen, rfl⟩ | ⟨ks, hks, rfl⟩
  · refine assert_adds (fun y hy => ?_) hfail
    cases v <;> simp only [Assertion.apply, reduceCtorEq] at hy
    simp only [isOpen, hnone, Bool.and_eq_true, Bool.or_eq_true, decide_eq_true_eq, List.isEmpty_iff] at hopen
    obtain ⟨⟨⟨hreq, rfl⟩, hkey⟩, hunknown⟩ := hopen
    have hbeyond : q.unknown ≠ .strict ∧ ¬ (q.unknown = .checked ∧ a.isAbsent = false) := by
      rcases hunknown with hu | ⟨hu, habs⟩ <;> simp_all
    simp [Check.own, ObjectPolicy.requiredKeys, Check.missing, hreq, Check.keyPattern, hkey, hbeyond.1, Check.concat,
      Bool.and_eq_true, hbeyond.2]
  · simp only [List.cons_append]
    refine bind_adds (fun y hy => ?_) hfail
    cases v <;> simp only [Assertion.apply, reduceCtorEq, Except.ok.injEq] at hy
    rename_i fs
    subst hy
    have hreq : Does cx.wording calls file (.object fs) p (.fields fs)
        (if (q.requiredKeys fields).isEmpty then [] else [.required (q.requiredKeys fields)])
        (some (Check.missing cx fs p (q.requiredKeys fields))) := by
      split
      · rename_i hempty
        rw [List.isEmpty_iff.1 hempty]
        exact Does.nil
      · exact Does.single rfl fun iss => by
          simp only [Statement.act, textConstants_eq, Option.map_some]
          rfl
    have hfields : Does cx.wording calls file (.object fs) p (.fields fs)
        (((fields.map (·.1)).zip ns).map fun e => .field e.1 e.2) _ := fields_does fs hns
    have hbeyond : Does cx.wording calls file (.object fs) p (.fields fs) (beyondStatements fields (present a m) q)
        (Check.concat (if q.unknown = .strict then [some (Check.unknownKeys cx fs (fields.map (·.1)) p)]
          else if q.unknown = .checked && !a.isAbsent then
            (Check.unknownEntries fs (fields.map (·.1))).map fun e => check a.unsigned e.2 (p.field e.1)
          else [])) := by
      unfold beyondStatements
      split
      · rw [concat_singleton]
        exact Does.single rfl fun iss => by
          simp only [Statement.act, textConstants_eq, Option.map_some]
          rfl
      · split
        · rename_i hchecked
          cases habs : a.isAbsent with
          | true => simpa [present, habs, hchecked, when?, Check.concat] using Does.nil
          | false =>
            simp only [present, habs, hchecked, when?, Bool.false_eq_true, if_false, decide_true, Bool.not_false,
              Bool.and_self, if_true]
            refine Does.single rfl fun iss => ?_
            simp only [Statement.act, textConstants_eq, Option.bind_some]
            exact inTurn_map_adds (fun e _ => hadd hchecked habs e.2 _) iss
        · rename_i hchecked
          simpa [hchecked, Check.concat] using Does.nil
    have hkeys : Does cx.wording calls file (.object fs) p (.fields fs) ks
        (some (Check.keyPattern cx q.keyPattern fs p)) := by
      rcases hks with ⟨hne, rfl⟩ | ⟨hne, n, rfl⟩
      · simpa [hne, Check.keyPattern] using Does.nil
      · obtain ⟨re, hre⟩ := Verify.patternRuns_ok hpattern hne
        have hvar : (⟨n, .pattern q.keyPattern⟩ : Variable) ∈ file.vars :=
          hdecl _ (by simp [variablesOf, Statement.variables])
        refine Does.single rfl fun iss => ?_
        simp only [Statement.act, pattern_eq hvars hvar hre, Option.map_some, Check.keyPattern, hne, if_false,
          Check.matchesText, hre]
        rfl
    have := (((hreq.append hfields).append hbeyond).append hkeys).adds
    rw [follow_assoc, follow_assoc, ← concat_singleton (Check.keyPattern cx q.keyPattern fs p), ← concat_append,
      ← concat_append, ← concat_some_cons] at this
    simp only [List.append_assoc] at this ⊢
    simp only [Check.own, requiredKeys_unsigned, hknown, Shape.isAbsent_unsigned, List.map_map, List.cons_append,
      List.append_assoc]
    exact this

/-! ### Unions, values and references -/

theorem oneOf_adds {check : Shape → Value → Pointer → Option (List Issue)} (cx : Check.Context) (hcx : cx.wording = w)
    {vs : List Shape} {ns : List Nat}
    (hns : List.Forall₂ (fun n s => ∀ x q, Adds (calls n x q) (check s.unsigned x q)) ns vs) :
    Adds (fun iss => oneOf w calls v p iss ns)
      (Check.oneOf cx vs.length p (vs.map fun s => check s.unsigned v p)) := by
  subst hcx
  have hresults : ns.mapM (fun n => calls n v p []) = (vs.map fun s => check s.unsigned v p).mapM id := by
    induction hns with
    | nil => rfl
    | cons hn _ ih => simp only [List.map_cons, List.mapM_cons, (hn v p).nil, ih, id]
  intro iss
  simp only [oneOf, Check.oneOf, hresults, hns.length_eq]
  cases (vs.map fun s => check s.unsigned v p).mapM id with
  | none => rfl
  | some rs => rfl

theorem tryEach_adds {check : Shape → Value → Pointer → Option (List Issue)} (otherwise : Issue) {vs : List Shape}
    {ns : List Nat} (hns : List.Forall₂ (fun n s => ∀ x q, Adds (calls n x q) (check s.unsigned x q)) ns vs) :
    Adds (fun iss => tryEach calls v p otherwise iss ns)
      (Check.firstMatch (fun s => check s v p) otherwise (vs.map Shape.unsigned)) := by
  induction hns with
  | nil => exact adds_some _
  | @cons n s ns vs hn _ ih =>
    intro iss
    simp only [tryEach, List.map_cons, Check.firstMatch, (hn v p).nil]
    cases check s.unsigned v p with
    | none => rfl
    | some is =>
      cases is with
      | nil => simp
      | cons i is => exact ih iss

theorem anyOf_adds {check : Shape → Value → Pointer → Option (List Issue)} (cx : Check.Context) (hcx : cx.wording = w)
    {vs : List Shape} {ns : List Nat}
    (hns : List.Forall₂ (fun n s => ∀ x q, Adds (calls n x q) (check s.unsigned x q)) ns vs) :
    Adds (fun iss => anyOf w calls v p iss ns) (Check.anyOf cx (fun s => check s v p) p (vs.map Shape.unsigned)) := by
  subst hcx
  have hlen := hns.length_eq
  match hns with
  | .nil => exact adds_some _
  | .cons hn .nil => exact hn v p
  | .cons hn (.cons hn' hns) =>
    simp only [List.length_cons] at hlen
    simp only [anyOf, List.map_cons, Check.anyOf, List.length_cons, List.length_map, hlen]
    exact tryEach_adds _ (.cons hn (.cons hn' hns))

/-- the function of a tag is the one of the variant that the tag leads to -/
theorem taggedVariants_get {ns : List Nat} {mapping : List (String × Int)} {ts : List (String × Nat)}
    (h : taggedVariants ns mapping = .ok ts) (tag : String) :
    Dict.get? ts tag = (Dict.get? mapping tag).bind fun i => ns[i.toNat]? := by
  induction mapping generalizing ts with
  | nil =>
    obtain rfl : ts = [] := by simpa [taggedVariants] using h.symm
    rfl
  | cons e mapping ih =>
    obtain ⟨t, i⟩ := e
    rw [taggedVariants] at h
    split at h
    · cases h
    · rename_i n hn
      cases hrest : taggedVariants ns mapping with
      | error e =>
        rw [hrest] at h
        cases h
      | ok us =>
        rw [hrest] at h
        obtain rfl : (t, n) :: us = ts := Except.ok.inj h
        have hn : ns[i.toNat]? = some n := by
          split at hn
          · cases hn
          · exact hn
        by_cases htag : t = tag
        · simp [Dict.get?, htag, hn]
        · have := ih hrest
          simpa [Dict.get?, List.find?_cons, htag] using this

theorem tagConstants_eq (ts : List (String × Nat)) : tagConstants ts = some ts := by
  induction ts with
  | nil => rfl
  | cons t ts ih =>
    simp only [tagConstants, textConstant_eq, Option.map_some] at ih ⊢
    rw [List.mapM_cons, ih]
    rfl

theorem tagged_adds {check : Shape → Value → Pointer → Option (List Issue)} (cx : Check.Context) (hcx : cx.wording = w)
    {vs : List Shape} {ns : List Nat} {d : Dispatch} {ts : List (String × Nat)}
    (hns : List.Forall₂ (fun n s => ∀ x q, Adds (calls n x q) (check s.unsigned x q)) ns vs)
    (hts : taggedVariants ns (d.mapping.getD []) = .ok ts) :
    Adds (fun iss => tagged w calls v p iss d.property ts)
      (match Check.select cx d (vs.map Shape.unsigned) v p with
        | .ok s => check s v p
        | .error is => some is) := by
  subst hcx
  cases v with
  | object fs =>
    simp only [tagged, Check.select]
    cases htag : Dict.get? fs d.property with
    | none => exact adds_some _
    | some tag =>
      simp only [taggedVariants_get hts]
      cases Dict.get? (d.mapping.getD []) tag.display with
      | none => exact adds_some _
      | some i =>
        simp only [Option.bind_some, List.getElem?_map]
        cases hn : ns[i.toNat]? with
        | none =>
          have hs : vs[i.toNat]? = none := by
            rw [List.getElem?_eq_none_iff] at hn ⊢
            rwa [← hns.length_eq]
          rw [hs]
          exact adds_some _
        | some n =>
          have hlt : i.toNat < vs.length := by
            rw [← hns.length_eq]
            exact (List.getElem?_eq_some_iff.1 hn).1
          have hs := List.getElem?_eq_getElem hlt
          rw [hs]
          exact forall₂_getElem? hns hn hs _ p
  | null => exact adds_some _
  | bool b => exact adds_some _
  | float x => exact adds_some _
  | single x => exact adds_some _
  | int s k n => exact adds_some _
  | literal t => exact adds_some _
  | string s => exact adds_some _
  | array xs => exact adds_some _

theorem allOf_does {check : Shape → Value → Pointer → Option (List Issue)} {vs : List Shape} {ns : List Nat}
    (hns : List.Forall₂ (fun n s => ∀ x q, Adds (calls n x q) (check s.unsigned x q)) ns vs) :
    Does w calls file v p x (ns.map .call) (Check.concat (vs.map fun s => check s.unsigned v p)) := by
  induction hns with
  | nil => exact Does.nil
  | cons hn _ ih =>
    simp only [List.map_cons, Check.concat_cons]
    exact Does.cons rfl (hn v p) ih

/-- values that compare alike give the same answer -/
theorem enum_same (cx : Check.Context) {ws vs : List Value} (h : List.Forall₂ Same ws vs) :
    Check.enum cx ws v p = Check.enum cx vs v p := by
  have hany : (ws.any fun want => Value.equal v want) = vs.any fun want => Value.equal v want := by
    induction h with
    | nil => rfl
    | cons hw _ ih => simp only [List.any_cons, hw v, ih]
  simp only [Check.enum, hany, h.length_eq]

theorem enum_adds (hvars : ∀ r : Variable, r ∈ file.vars → file.variable? r.name = some r.initial) (cx : Check.Context)
    (hcx : cx.wording = w) {vs : List Value} {ts : List String} (hts : literals vs = .ok ts)
    (hfit : Value.allFit vs = true) {r : Variable} (hr : r ∈ file.vars) (hi : r.initial = .values ts) :
    Adds (runBody w calls file v p [.enum r] x) (some (Check.enum cx vs v p)) := by
  subst hcx
  obtain ⟨ws, hread, hsame⟩ := readValues_literals hts hfit
  refine (Does.single rfl fun iss => ?_).adds
  have hvalues : file.values? r = some ws := by simp [File.values?, hvars r hr, hi, hread]
  simp only [Statement.act, hvalues, Option.map_some, ← enum_same cx hsame]
  rfl

end Bodies

/-! ## Functions -/

/-- are the data of a node ones that have a text: finite bounds, and integers in the range of their carriers? -/
def writable : Shape → Prop
  | .primitive _ q => ∀ x ∈ q.limits, Number.isFinite x = true
  | .enum _ vs => Value.allFit vs = true
  | _ => True

section Functions

variable {prog : Program} {o : Options} {file : File} {w : Wording}

/-- the functions of all verified shapes add what the check finds -/
def Agree (prog : Program) (calls : Nat → Action) (check : Shape → Value → Pointer → Option (List Issue)) : Prop :=
  ∀ k s, Placed prog.nodes k s.nodes → Verify.shape prog s = .ok () →
    ∀ v p, Adds (calls k v p) (check s.unsigned v p)

/-- siblings at their numbers -/
theorem Agree.all {calls : Nat → Action} {check : Shape → Value → Pointer → Option (List Issue)}
    (h : Agree prog calls check) {k : Nat} {ss : List Shape} (hk : Placed prog.nodes k (Shape.nodesAll ss))
    (hs : ∀ s ∈ ss, Verify.shape prog s = .ok ()) :
    List.Forall₂ (fun n s => ∀ x q, Adds (calls n x q) (check s.unsigned x q)) (numbers k ss) ss := by
  have hplaced := placed_numbers hk fun s hs' => Verify.present (hs s hs')
  refine List.forall₂_iff_zip.2 ⟨hplaced.length_eq, fun {n s} hmem => ?_⟩
  exact h n s ((List.forall₂_iff_zip.1 hplaced).2 hmem) (hs s (List.of_mem_zip hmem).2)

/-- **Bodies.** The body of the function of a verified shape adds what one step of the check finds, if the functions that it
calls do. -/
theorem body_adds (hverify : prog.verify = .ok ()) (hmade : file.Made prog o) {calls : Nat → Action}
    {check : Shape → Value → Pointer → Option (List Issue)} (hcalls : Agree prog calls check) {k : Nat} {s : Shape}
    (hk : Placed prog.nodes k s.nodes) (hs : Verify.shape prog s = .ok ()) (hw : writable s) {ss : List Statement}
    {pool pool' : Pool} (hpool : pool.Sound) (hbody : body (entries prog) o.coerce k s pool = .ok (ss, pool'))
    (hdecl : ∀ r ∈ variablesOf ss, r ∈ file.vars) (v : Value) (p : Pointer) :
    Adds (runBody w calls file v p ss .nothing) (Check.own ⟨prog.unsigned, o.coerce, w⟩ check s.unsigned v p) := by
  have hvars : ∀ r : Variable, r ∈ file.vars → file.variable? r.name = some r.initial := fun r hr => hmade.variable_eq hr
  cases s with
  | absent => exact absurd (Verify.present hs) (by simp [Shape.isAbsent])
  | foreign b => simp [body, fail] at hbody
  | any b =>
    obtain ⟨rfl, -⟩ := gen_pure_ok hbody
    exact adds_nothing
  | primitive b q =>
    rw [Shape.unsigned]
    exact primitive_adds hvars hw (Verify.primitive_ok hs).1 hdecl hpool ⟨prog.unsigned, o.coerce, w⟩ rfl hbody
  | array b i l =>
    rw [Shape.nodes] at hk
    obtain ⟨rfl, -⟩ := gen_pure_ok hbody
    rw [Shape.unsigned]
    refine array_adds ⟨prog.unsigned, o.coerce, w⟩ rfl fun habs => hcalls _ _ hk.tail ?_
    exact (Verify.array_ok hs).1.resolve_left (by simp [habs])
  | tuple b is r l =>
    rw [Shape.nodes] at hk
    obtain ⟨rfl, -⟩ := gen_pure_ok hbody
    obtain ⟨his, hr, -⟩ := Verify.tuple_ok hs
    rw [Shape.unsigned, Shape.unsignedAll_eq]
    refine tuple_adds ⟨prog.unsigned, o.coerce, w⟩ rfl (fun habs => ?_) (hcalls.all hk.tail.left his)
    have hrest := hk.tail.right
    rw [Shape.length_nodesAll] at hrest
    exact hcalls _ _ hrest (hr.resolve_left (by simp [habs]))
  | object b fs a q =>
    rw [Shape.nodes, Shape.nodesFields_eq] at hk
    obtain ⟨hfs, ha, hpat, -⟩ := Verify.object_ok hs
    rw [Shape.unsigned, Shape.unsignedFields_eq]
    refine object_adds hvars ⟨prog.unsigned, o.coerce, w⟩ rfl hpat (hcalls.all hk.tail.left hfs) (fun hq habs => ?_) hdecl
      hpool hbody
    have hadd := hk.tail.right
    rw [Shape.length_nodesAll, ← Shape.sizeFields_eq] at hadd
    exact hcalls _ _ hadd (ha hq habs)
  | oneOf b vs d =>
    rw [Shape.nodes] at hk
    have hns := hcalls.all hk.tail (Verify.oneOf_ok hs).1
    rw [Shape.unsigned, Shape.unsignedAll_eq]
    simp only [body] at hbody
    simp only [Check.own]
    split at hbody
    · rename_i hd
      obtain ⟨rfl, -⟩ := gen_pure_ok hbody
      rw [if_pos hd, List.length_map, List.map_map]
      refine (Does.single rfl ?_).adds
      exact oneOf_adds ⟨prog.unsigned, o.coerce, w⟩ rfl hns
    · rename_i hd
      rw [if_neg hd]
      cases hts : taggedVariants (numbers (k + 1) vs) (d.mapping.getD []) with
      | error e => simp [hts, fail] at hbody
      | ok ts =>
        rw [hts] at hbody
        obtain ⟨rfl, -⟩ := gen_pure_ok hbody
        refine (Does.single rfl fun iss => ?_).adds
        simp only [Statement.act, textConstant_eq, tagConstants_eq, Option.bind_some]
        exact tagged_adds ⟨prog.unsigned, o.coerce, w⟩ rfl hns hts iss
  | anyOf b vs =>
    rw [Shape.nodes] at hk
    obtain ⟨rfl, -⟩ := gen_pure_ok hbody
    rw [Shape.unsigned, Shape.unsignedAll_eq]
    refine (Does.single rfl ?_).adds
    exact anyOf_adds ⟨prog.unsigned, o.coerce, w⟩ rfl (hcalls.all hk.tail (Verify.anyOf_ok hs).1)
  | allOf b ps =>
    rw [Shape.nodes] at hk
    obtain ⟨rfl, -⟩ := gen_pure_ok hbody
    rw [Shape.unsigned, Shape.unsignedAll_eq]
    simp only [Check.own, List.map_map]
    exact (allOf_does (hcalls.all hk.tail (Verify.allOf_ok hs).1)).adds
  | enum b vs =>
    simp only [body] at hbody
    cases hts : literals vs with
    | error e => simp [hts, fail] at hbody
    | ok ts =>
      simp only [hts] at hbody
      obtain ⟨r, mid, hr, hbody⟩ := gen_bind_ok hbody
      obtain ⟨rfl, -⟩ := gen_pure_ok hbody
      obtain ⟨-, hi⟩ := newVariable_made hpool (fun us hus => ⟨vs, by cases hus; exact hts⟩) hr
      exact enum_adds hvars ⟨prog.unsigned, o.coerce, w⟩ rfl hts hw (hdecl r (by simp [variablesOf, Statement.variables])) hi
  | ref b name =>
    simp only [body] at hbody
    cases hn : entryOf? (entries prog) name with
    | none => simp [hn, fail] at hbody
    | some n =>
      simp only [hn] at hbody
      obtain ⟨rfl, -⟩ := gen_pure_ok hbody
      obtain ⟨t, ht, hplaced⟩ := entryOf_placed hverify hn
      rw [Shape.unsigned]
      simp only [Check.own, Program.target_unsigned, ht, Option.map_some]
      refine (Does.single rfl ?_).adds
      exact hcalls n t hplaced (verified_target hverify ht) v p

theorem rule_eq (hmade : file.Made prog o) {r : Variable} (hr : r ∈ file.vars) {rule : Rule} (hi : r.initial = .rule rule)
    {compiled : Rule.Program} (hc : Rule.compile rule.expr = .ok compiled) : file.rule? r = some rule := by
  simp [File.rule?, hmade.variable_eq hr, hi, hc, Except.toOption]

/-- deferred rules are the rules of the shape -/
theorem rules_eq (hmade : file.Made prog o) {vars : List Variable} {rules : List Rule}
    (hvars : vars.map Variable.initial = rules.map Initial.rule) (hdecl : ∀ r ∈ vars, r ∈ file.vars)
    (hrun : Verify.rulesRun rules = .ok ()) : vars.mapM file.rule? = some rules := by
  have hcompile := Verify.rulesRun_ok hrun
  clear hrun
  induction rules generalizing vars with
  | nil =>
    obtain rfl : vars = [] := by simpa using hvars
    rfl
  | cons rule rules ih =>
    cases vars with
    | nil => simp at hvars
    | cons r vars =>
      simp only [List.map_cons, List.cons.injEq] at hvars
      obtain ⟨compiled, hc⟩ := hcompile rule (by simp)
      have htail := ih hvars.2 (fun t ht => hdecl t (List.mem_cons_of_mem r ht))
        fun t ht => hcompile t (List.mem_cons_of_mem rule ht)
      rw [List.mapM_cons, rule_eq hmade (hdecl r (by simp)) hvars.1 hc, htail]
      rfl

/-- **Calls.** The function at the place of a verified shape adds what the check of the shape finds. -/
theorem call_adds (hverify : prog.verify = .ok ()) (hmade : file.Made prog o) (hw : ∀ s ∈ prog.nodes, writable s)
    (fuel : Nat) : Agree prog (file.call w fuel) (Check.issues ⟨prog.unsigned, o.coerce, w⟩ fuel) := by
  induction fuel with
  | zero => exact fun k s _ _ v p iss => rfl
  | succ fuel ih =>
    intro k s hk hs v p iss
    obtain ⟨ss, hss⟩ := Shape.nodes_ne_nil (Verify.present hs)
    have hnode : prog.nodes[k]? = some s := by
      rw [hss] at hk
      exact hk.head
    obtain ⟨g, hfind, hg, hof⟩ := hmade.function_at hnode
    obtain ⟨pool, pool', hpool, hbody⟩ := hof.body
    have hdecl : ∀ v ∈ g.variables, v ∈ file.vars := fun _ => hmade.declared hg
    have hadds := body_adds (w := w) hverify hmade ih hk hs (hw s (List.mem_of_getElem? hnode)) hpool hbody
      (fun r hr => hdecl r (List.mem_append_right _ hr)) v p
    have hrules := rules_eq hmade hof.rules (fun r hr => hdecl r (List.mem_append_left _ hr)) (Verify.rules_ok hs)
    simp only [File.call, hfind, Check.issues_succ, Shape.base_unsigned, hof.nullable]
    split
    · simp
    · rw [hadds iss]
      cases Check.own ⟨prog.unsigned, o.coerce, w⟩ (Check.issues ⟨prog.unsigned, o.coerce, w⟩ fuel) s.unsigned v p with
      | none => rfl
      | some is =>
        simp only [Option.map_some, Option.bind_some]
        -- without rules nothing is deferred; with them they run where the body has added nothing
        split
        · rename_i hempty
          have hnone : s.base.rules = [] := by
            have := hof.rules
            rw [List.isEmpty_iff.1 hempty] at this
            simpa using this.symm
          cases is <;> simp [Check.rules, hnone]
        · unfold runRules
          cases is with
          | nil =>
            simp only [List.append_nil, gt_iff_lt, lt_irrefl, if_false, hrules, Option.map_some, Check.rules,
              List.isEmpty_nil, if_true]
            rfl
          | cons i is =>
            rw [if_pos (by simp)]
            simp [Check.rules]

end Functions

/-! ## Files -/

/-- a run of the file ends, with these issues -/
def File.Yields (file : File) (w : Wording) (v : Value) (is : List Issue) : Prop := ∃ fuel, file.run w fuel v = some is

theorem run_eq {prog : Program} {o : Options} {file : File} (hgen : generate prog o = .ok file)
    (hbuild : prog.verify = .ok ()) (hw : ∀ s ∈ prog.nodes, writable s) (w : Wording) (fuel : Nat) (v : Value) :
    file.run w fuel v = Check.issues ⟨prog.unsigned, o.coerce, w⟩ fuel prog.unsigned.root v Pointer.root := by
  have hmade := generate_made hgen
  have hroot := verified_shapes hbuild prog.root List.mem_cons_self
  have hentry : file.entry = 0 := by rw [hmade.entry, entryOf_root (Verify.present hroot), Option.getD_some]
  have hadds := call_adds (w := w) hbuild hmade hw fuel 0 prog.root placed_root hroot v Pointer.root
  rw [File.run, hentry]
  exact hadds.nil

/-- **Generated validators.** If a program can be generated and run, its file finds the issues that the program without the
signs of its zero bounds finds, in the same order, and ends where that ends. Where no bound is negative zero, these are the
issues of the program itself. -/
theorem run_generated {prog : Program} {o : Options} {file : File} (hgen : generate prog o = .ok file)
    (hbuild : prog.verify = .ok ()) (hw : ∀ s ∈ prog.nodes, writable s) (w : Wording) :
    (∀ v is, file.Yields w v is ↔ prog.unsigned.validate o.coerce w v = .ok is) ∧
      (prog.Signless → ∀ v is, file.Yields w v is ↔ prog.validate o.coerce w v = .ok is) := by
  have hyields (v : Value) (is : List Issue) : file.Yields w v is ↔ prog.unsigned.validate o.coerce w v = .ok is := by
    simp only [File.Yields, run_eq hgen hbuild hw, Check.validate_eq_ok]
  refine ⟨hyields, fun hsign v is => ?_⟩
  rw [hyields, Program.unsigned_eq_self hsign]

/-- a list of numbers from one half on -/
def numberList : Program where
  root := .object {}
    [("next", .ref { nullable := true } ""), ("value", .primitive {} { type := .number, min := some 0.5 })] .absent
    { required := ["value"], unknown := .strict }

theorem run_generated_numberList : ∃ file, generate numberList {} = .ok file ∧ ∀ v is,
    file.Yields Language.english.wording v is ↔ numberList.validate false Language.english.wording v = .ok is := by
  have hsome : (generate numberList {}).toOption.isSome = true := by decide +kernel
  have hnodes : numberList.nodes = [numberList.root, .ref { nullable := true } "",
      .primitive {} { type := .number, min := some 0.5 }] := by
    rfl
  cases hgen : generate numberList {} with
  | error e =>
    rw [hgen] at hsome
    cases hsome
  | ok file =>
    have hw : ∀ s ∈ numberList.nodes, writable s := by
      rw [hnodes]
      intro s hs
      simp only [List.mem_cons, List.not_mem_nil, or_false] at hs
      rcases hs with rfl | rfl | rfl
      · exact trivial
      · exact trivial
      · intro x hx
        obtain rfl : x = 0.5 := by simpa [Primitive.limits] using hx
        decide +kernel
    have hsign : numberList.Signless := by
      intro s hs t ht
      obtain rfl : s = numberList.root := by simpa [numberList] using hs
      have ht : t ∈ numberList.nodes := by
        simp only [Program.nodes, Program.shapes, List.flatMap_cons]
        exact List.mem_append_left _ ht
      rw [hnodes] at ht
      simp only [List.mem_cons, List.not_mem_nil, or_false] at ht
      rcases ht with rfl | rfl | rfl
      · exact trivial
      · exact trivial
      · intro x hx
        obtain rfl : x = 0.5 := by simpa [Primitive.limits] using hx
        have hne : ((0.5 : Float) == 0.0) = false := by decide +kernel
        simp [Number.unsigned, hne]
    exact ⟨file, rfl, (run_generated hgen (by rfl) hw _).2 hsign⟩

/-- a number from negative zero on -/
def negativeZeroBound : Program where
  root := .primitive {} { type := .number, min := some (-0.0) }

/-- the program shows the sign of its bound, the file does not -/
theorem run_negativeZero : negativeZeroBound.verify = .ok () ∧ ∃ file is is', generate negativeZeroBound {} = .ok file ∧
    file.Yields Language.english.wording (.float (-1.0)) is ∧ is.map Issue.message = ["must be >= 0"] ∧
    negativeZeroBound.validate false Language.english.wording (.float (-1.0)) = .ok is' ∧
    is'.map Issue.message = ["must be >= -0"] := by
  refine ⟨by rfl, ?_⟩
  have hfile : ((generate negativeZeroBound {}).toOption.bind fun f =>
      (f.run Language.english.wording 1 (.float (-1.0))).map (·.map Issue.message)) = some ["must be >= 0"] := by
    decide +kernel
  have hprog : (negativeZeroBound.validate false Language.english.wording (.float (-1.0))).toOption.map
      (·.map Issue.message) = some ["must be >= -0"] := by
    decide +kernel
  cases hgen : generate negativeZeroBound {} with
  | error e =>
    rw [hgen] at hfile
    cases hfile
  | ok file =>
    rw [hgen] at hfile
    obtain ⟨is, his, hmessage⟩ := Option.map_eq_some_iff.1 hfile
    cases hval : negativeZeroBound.validate false Language.english.wording (.float (-1.0)) with
    | error e =>
      rw [hval] at hprog
      cases hprog
    | ok is' =>
      rw [hval] at hprog
      exact ⟨file, is, is', rfl, ⟨1, his⟩, hmessage, rfl, Option.some.inj hprog⟩

end Schemata.Source
