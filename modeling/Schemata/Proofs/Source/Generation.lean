import Mathlib.Tactic
import Schemata.Source.Generate

/-!
What generation makes: the functions and the variables of a file.

Generation threads a pool of variables through the nodes of a program. `Made` is what every step keeps: the pool stays
sound (numbers are distinct, lists of values are written by `literals`), and the variables that the step names come behind
those that were in the pool. `stringBody_made` and `objectBody_made` also list the statements of the two bodies that make
variables of their own; the other bodies are plain functions of their shape.

Main result: `generate_made`. Function `i` of a file is the one of node `i` of its program (`FunctionOf`), and the variables of
the file are those that its functions name, each once.
-/

namespace Schemata.Source

/-! ## Literals -/

theorem literals_cons {v : Value} {vs : List Value} {ts : List String} (h : literals (v :: vs) = .ok ts) :
    ∃ t us, literal v = .ok t ∧ literals vs = .ok us ∧ ts = t :: us := by
  simp only [literals, bind, Except.bind, pure, Except.pure] at h
  cases hv : literal v with
  | error e => simp [hv] at h
  | ok t =>
    cases hvs : literals vs with
    | error e => simp [hv, hvs] at h
    | ok us => exact ⟨t, us, rfl, rfl, by simpa [hv, hvs] using h.symm⟩

theorem literalFields_cons {k : String} {v : Value} {fs : List (String × Value)} {ts : List String}
    (h : literalFields ((k, v) :: fs) = .ok ts) :
    ∃ t us, literal v = .ok t ∧ literalFields fs = .ok us ∧ ts = (Text.quote k ++ ": " ++ t) :: us := by
  simp only [literalFields, bind, Except.bind, pure, Except.pure] at h
  cases hv : literal v with
  | error e => simp [hv] at h
  | ok t =>
    cases hvs : literalFields fs with
    | error e => simp [hv, hvs] at h
    | ok us => exact ⟨t, us, rfl, rfl, by simpa [hv, hvs] using h.symm⟩

/-! ## Variables -/

/-- variables are numbered in the order in which they are made, and a list of values is written by `literals` -/
structure Pool.Sound (pool : Pool) : Prop where
  below : ∀ v ∈ pool.made, v.number < pool.next
  distinct : (pool.made.map Variable.number).Nodup
  written : ∀ v ∈ pool.made, ∀ ts, v.initial = .values ts → ∃ vs, literals vs = .ok ts

theorem Pool.sound_empty : ({} : Pool).Sound := ⟨by simp, by simp, by simp⟩

theorem gen_bind_ok {α β : Type} {x : Gen α} {f : α → Gen β} {pool : Pool} {r : β × Pool}
    (h : (x >>= f) pool = .ok r) : ∃ a mid, x pool = .ok (a, mid) ∧ f a mid = .ok r := by
  cases hx : x pool with
  | error e => simp [bind, StateT.bind, Except.bind, hx] at h
  | ok am =>
    obtain ⟨a, mid⟩ := am
    refine ⟨a, mid, rfl, ?_⟩
    simpa [bind, StateT.bind, Except.bind, hx] using h

theorem gen_pure_ok {α : Type} {a b : α} {pool mid : Pool} (h : (pure a : Gen α) pool = .ok (b, mid)) :
    a = b ∧ pool = mid := by
  have : (Except.ok (a, pool) : Except GenerateError (α × Pool)) = .ok (b, mid) := h
  simpa using this

/-- the next pool of a step that makes `v` -/
theorem newVariable_ok {i : Initial} {v : Variable} {pool pool' : Pool} (hs : pool.Sound)
    (hw : ∀ ts, i = .values ts → ∃ vs, literals vs = .ok ts) (h : newVariable i pool = .ok (v, pool')) :
    pool'.Sound ∧ pool'.made = v :: pool.made ∧ v.initial = i := by
  simp only [newVariable, Except.ok.injEq, Prod.mk.injEq] at h
  obtain ⟨rfl, rfl⟩ := h
  refine ⟨⟨fun v hv => ?_, ?_, fun v hv => ?_⟩, rfl, rfl⟩
  · rcases List.mem_cons.1 hv with rfl | hv
    · exact Nat.lt_succ_self _
    · exact Nat.lt_succ_of_lt (hs.below v hv)
  · refine List.nodup_cons.2 ⟨fun hmem => ?_, hs.distinct⟩
    obtain ⟨w, hw, hnum⟩ := List.mem_map.1 hmem
    exact absurd (hs.below w hw) (by simp [hnum])
  · rcases List.mem_cons.1 hv with rfl | hv
    · exact hw
    · exact hs.written v hv

/-- the variables that a statement names -/
def Statement.variables : Statement → List Variable
  | .pattern v => [v]
  | .keyPattern v => [v]
  | .enum v => [v]
  | _ => []

def variablesOf (ss : List Statement) : List Variable := ss.flatMap Statement.variables

/-- what a step of generation leaves behind: a sound pool with the variables that were there and those that it names, in order -/
structure Made (pool pool' : Pool) (vs : List Variable) : Prop where
  sound : pool'.Sound
  made : pool'.made = vs.reverse ++ pool.made

theorem Made.refl {pool : Pool} (h : pool.Sound) : Made pool pool [] := ⟨h, rfl⟩

theorem Made.trans {p q r : Pool} {vs ws : List Variable} (h : Made p q vs) (h' : Made q r ws) : Made p r (vs ++ ws) :=
  ⟨h'.sound, by rw [h'.made, h.made, List.reverse_append, List.append_assoc]⟩

theorem newVariable_made {i : Initial} {v : Variable} {pool pool' : Pool} (hs : pool.Sound)
    (hw : ∀ ts, i = .values ts → ∃ vs, literals vs = .ok ts) (h : newVariable i pool = .ok (v, pool')) :
    Made pool pool' [v] ∧ v.initial = i := by
  obtain ⟨hsound, hmade, hi⟩ := newVariable_ok hs hw h
  exact ⟨⟨hsound, hmade⟩, hi⟩

/-- the statements of a pattern that may be missing -/
def patternStatements (make : Variable → Statement) (pattern : String) (ss : List Statement) : Prop :=
  (pattern = "" ∧ ss = []) ∨ (pattern ≠ "" ∧ ∃ n, ss = [make ⟨n, .pattern pattern⟩])

/-- makes the variable of a pattern, when there is one -/
def patternStep (make : Variable → Statement) (pattern : String) : Gen (List Statement) :=
  if pattern = "" then pure [] else newVariable (.pattern pattern) >>= fun v => pure [make v]

theorem patternStep_made {make : Variable → Statement} (hmake : ∀ v, (make v).variables = [v]) {pattern : String}
    {pool pool' : Pool} {ss : List Statement} (hs : pool.Sound) (h : patternStep make pattern pool = .ok (ss, pool')) :
    Made pool pool' (variablesOf ss) ∧ patternStatements make pattern ss := by
  unfold patternStep at h
  split at h
  · rename_i hp
    obtain ⟨rfl, rfl⟩ := gen_pure_ok h
    exact ⟨Made.refl hs, .inl ⟨hp, rfl⟩⟩
  · rename_i hp
    obtain ⟨v, mid, hv, h⟩ := gen_bind_ok h
    obtain ⟨rfl, rfl⟩ := gen_pure_ok h
    obtain ⟨hmade, hi⟩ := newVariable_made hs (by simp) hv
    refine ⟨by simpa [variablesOf, hmake] using hmade, .inr ⟨hp, v.number, ?_⟩⟩
    rw [← hi]

/-- the statements of a format that may be missing -/
def formatStatements (format : String) (ss : List Statement) : Prop :=
  (format = "" ∧ ss = []) ∨ ∃ f, Format.ofName? format = some f ∧ ss = [.format format f]

/-- finds the check of a format, when there is one -/
def formatStep (format : String) : Gen (List Statement) :=
  if format = "" then pure []
  else
    match Format.ofName? format with
    | some f => pure [.format format f]
    | none => fail (.unknownFormat format)

theorem formatStep_ok {format : String} {pool pool' : Pool} {ss : List Statement}
    (h : formatStep format pool = .ok (ss, pool')) : pool = pool' ∧ formatStatements format ss := by
  unfold formatStep at h
  split at h
  · rename_i hq
    obtain ⟨rfl, rfl⟩ := gen_pure_ok h
    exact ⟨rfl, .inl ⟨hq, rfl⟩⟩
  · cases hf : Format.ofName? format with
    | some f =>
      simp only [hf] at h
      obtain ⟨rfl, rfl⟩ := gen_pure_ok h
      exact ⟨rfl, .inr ⟨f, hf, rfl⟩⟩
    | none => simp [hf, fail] at h

theorem stringBody_eq (q : Primitive) : stringBody q =
    if q.minLength.isNone && q.maxLength.isNone && q.pattern = "" && q.format = "" then pure [.assert .string]
    else patternStep .pattern q.pattern >>= fun ps => formatStep q.format >>= fun fs =>
      pure (.bind .string :: when? q.minLength .minLength ++ when? q.maxLength .maxLength ++ ps ++ fs) := by
  unfold stringBody patternStep formatStep
  by_cases hp : q.pattern = "" <;> by_cases hf : q.format = ""
  · simp [hp, hf]
  · cases Format.ofName? q.format <;> simp [hp, hf]
  · simp [hp, hf]
  · cases Format.ofName? q.format <;> simp [hp, hf]

theorem variablesOf_append (ss ts : List Statement) : variablesOf (ss ++ ts) = variablesOf ss ++ variablesOf ts :=
  List.flatMap_append

theorem variablesOf_when {α : Type} (o : Option α) {f : α → Statement} (hf : ∀ a, (f a).variables = []) :
    variablesOf (when? o f) = [] := by
  cases o <;> simp [when?, variablesOf, hf]

theorem stringBody_made {q : Primitive} {pool pool' : Pool} {ss : List Statement} (hs : pool.Sound)
    (h : stringBody q pool = .ok (ss, pool')) :
    Made pool pool' (variablesOf ss) ∧
      ((q.minLength = none ∧ q.maxLength = none ∧ q.pattern = "" ∧ q.format = "" ∧ ss = [.assert .string]) ∨
        ∃ ps fs, patternStatements .pattern q.pattern ps ∧ formatStatements q.format fs ∧
          ss = .bind .string :: when? q.minLength .minLength ++ when? q.maxLength .maxLength ++ ps ++ fs) := by
  rw [stringBody_eq] at h
  split at h
  · rename_i hc
    obtain ⟨rfl, rfl⟩ := gen_pure_ok h
    simp only [Bool.and_eq_true, Option.isNone_iff_eq_none, decide_eq_true_eq] at hc
    exact ⟨Made.refl hs, .inl ⟨hc.1.1.1, hc.1.1.2, hc.1.2, hc.2, rfl⟩⟩
  · obtain ⟨ps, mid, hps, h⟩ := gen_bind_ok h
    obtain ⟨hm, hpat⟩ := patternStep_made (fun _ => rfl) hs hps
    obtain ⟨fs, mid', hfs, h⟩ := gen_bind_ok h
    obtain ⟨rfl, rfl⟩ := gen_pure_ok h
    obtain ⟨rfl, hformat⟩ := formatStep_ok hfs
    have hfs : variablesOf fs = [] := by
      rcases hformat with ⟨-, rfl⟩ | ⟨f, -, rfl⟩ <;> rfl
    refine ⟨?_, .inr ⟨ps, fs, hpat, hformat, rfl⟩⟩
    have hvars : variablesOf (.bind .string :: when? q.minLength .minLength ++ when? q.maxLength .maxLength ++ ps ++ fs)
        = variablesOf ps := by
      rw [← List.singleton_append]
      simp only [variablesOf_append, variablesOf_when _ (f := Statement.minLength) fun _ => rfl,
        variablesOf_when _ (f := Statement.maxLength) fun _ => rfl, hfs, List.append_nil]
      rfl
    rw [hvars]
    exact hm

/-- what an object does with the keys that no field lists -/
def beyondStatements (fields : List (String × Shape)) (additional : Option Nat) (q : ObjectPolicy) : List Statement :=
  if q.unknown = .strict then [.unknown (fields.map (·.1))]
  else if q.unknown = .checked then when? additional fun f => .additional f (fields.map (·.1))
  else []

/-- is the object without any constraint? -/
def isOpen (fields : List (String × Shape)) (additional : Option Nat) (q : ObjectPolicy) : Bool :=
  q.required.isEmpty && fields.isEmpty && q.keyPattern = "" &&
    (q.unknown = .allow || (q.unknown = .checked && additional.isNone))

theorem objectBody_eq (fields : List (String × Shape)) (ns : List Nat) (additional : Option Nat) (q : ObjectPolicy) :
    objectBody fields ns additional q =
      if isOpen fields additional q then pure [.assert .object]
      else patternStep .keyPattern q.keyPattern >>= fun ks =>
        pure (Statement.bind .object
          :: (if (q.requiredKeys fields).isEmpty then [] else [Statement.required (q.requiredKeys fields)])
          ++ ((fields.map (·.1)).zip ns).map (fun (k, n) => Statement.field k n) ++ beyondStatements fields additional q
          ++ ks) := by
  unfold objectBody patternStep isOpen beyondStatements
  by_cases hp : q.keyPattern = ""
  · simp [hp]
  · simp [hp]

theorem objectBody_made {fields : List (String × Shape)} {ns : List Nat} {additional : Option Nat} {q : ObjectPolicy}
    {pool pool' : Pool} {ss : List Statement} (hs : pool.Sound)
    (h : objectBody fields ns additional q pool = .ok (ss, pool')) :
    Made pool pool' (variablesOf ss) ∧
      ((isOpen fields additional q = true ∧ ss = [.assert .object]) ∨
        ∃ ks, patternStatements .keyPattern q.keyPattern ks ∧
          ss = Statement.bind .object
            :: (if (q.requiredKeys fields).isEmpty then [] else [Statement.required (q.requiredKeys fields)])
            ++ ((fields.map (·.1)).zip ns).map (fun (k, n) => Statement.field k n) ++ beyondStatements fields additional q
            ++ ks) := by
  rw [objectBody_eq] at h
  split at h
  · rename_i hc
    obtain ⟨rfl, rfl⟩ := gen_pure_ok h
    exact ⟨Made.refl hs, .inl ⟨hc, rfl⟩⟩
  · obtain ⟨ks, mid, hks, h⟩ := gen_bind_ok h
    obtain ⟨rfl, rfl⟩ := gen_pure_ok h
    obtain ⟨hm, hkeys⟩ := patternStep_made (fun _ => rfl) hs hks
    refine ⟨?_, .inr ⟨ks, hkeys, rfl⟩⟩
    have hfields : variablesOf (((fields.map (·.1)).zip ns).map (fun (k, n) => .field k n)) = [] := by
      simp only [variablesOf, List.flatMap_map]
      exact List.flatMap_eq_nil_iff.2 fun _ _ => rfl
    have hreq : variablesOf (if (q.requiredKeys fields).isEmpty then [] else [.required (q.requiredKeys fields)]) = [] := by
      split <;> rfl
    have hbeyond : variablesOf (beyondStatements fields additional q) = [] := by
      unfold beyondStatements
      split
      · rfl
      · split
        · exact variablesOf_when _ fun _ => rfl
        · rfl
    rw [← List.singleton_append]
    simp only [variablesOf_append, hfields, hreq, hbeyond, List.append_nil]
    exact hm

theorem numberBody_variables (a : Assertion) (q : Primitive) : variablesOf (numberBody a q) = [] := by
  unfold numberBody
  split
  · rfl
  · rw [← List.singleton_append]
    simp only [variablesOf_append, variablesOf_when q.min (f := fun x => .minimum x q.exclusiveMin) fun _ => rfl,
      variablesOf_when q.max (f := fun x => .maximum x q.exclusiveMax) fun _ => rfl,
      variablesOf_when q.multipleOf (f := Statement.multipleOf) fun _ => rfl, List.append_nil]
    rfl

theorem arrayBody_variables (item : Option Nat) (l : ArrayLimits) : variablesOf (arrayBody item l) = [] := by
  unfold arrayBody
  split
  · rfl
  · rw [← List.singleton_append]
    simp only [variablesOf_append, variablesOf_when l.minItems (f := Statement.minItems) fun _ => rfl,
      variablesOf_when l.maxItems (f := Statement.maxItems) fun _ => rfl,
      variablesOf_when item (f := Statement.items) fun _ => rfl, List.append_nil]
    split <;> rfl

theorem tupleBody_variables (o : Option Int) (u : Bool) (n : Int) (c : Bool) (r : Option Nat) (is : List Nat) :
    variablesOf (Statement.bind .array :: when? o Statement.maxItems ++ (if u then [Statement.unique] else [])
        ++ [Statement.tuple n c r is]) = [] := by
  rw [← List.singleton_append]
  simp only [variablesOf_append, variablesOf_when o (f := Statement.maxItems) fun _ => rfl, List.append_nil]
  cases u <;> rfl

theorem body_made {es : List (String × Nat)} {coerce : Bool} {id : Nat} {s : Shape} {pool pool' : Pool}
    {ss : List Statement} (hs : pool.Sound) (h : body es coerce id s pool = .ok (ss, pool')) :
    Made pool pool' (variablesOf ss) := by
  have hpure {ts : List Statement} (hts : variablesOf ts = []) (h : (pure ts : Gen _) pool = .ok (ss, pool')) :
      Made pool pool' (variablesOf ss) := by
    obtain ⟨rfl, rfl⟩ := gen_pure_ok h
    rw [hts]
    exact Made.refl hs
  cases s with
  | absent => exact hpure rfl h
  | foreign b => simp [body, fail] at h
  | any b => exact hpure rfl h
  | primitive b q =>
    simp only [body, primitiveBody] at h
    cases hq : q.type with
    | string =>
      rw [hq] at h
      exact (stringBody_made hs h).1
    | number =>
      rw [hq] at h
      exact hpure (numberBody_variables _ q) h
    | integer =>
      rw [hq] at h
      exact hpure (numberBody_variables _ q) h
    | boolean =>
      rw [hq] at h
      exact hpure rfl h
    | null =>
      rw [hq] at h
      exact hpure rfl h
    | other n =>
      rw [hq] at h
      simp [fail] at h
  | array b i l => exact hpure (arrayBody_variables _ l) h
  | tuple b is r l => exact hpure (tupleBody_variables _ _ _ _ _ _) h
  | object b fs a q => exact (objectBody_made hs h).1
  | oneOf b vs d =>
    simp only [body] at h
    split at h
    · exact hpure rfl h
    · cases ht : taggedVariants (numbers (id + 1) vs) (d.mapping.getD []) with
      | ok ts =>
        rw [ht] at h
        exact hpure rfl h
      | error e => simp [ht, fail] at h
  | anyOf b vs => exact hpure rfl h
  | allOf b ps =>
    refine hpure ?_ h
    simp only [variablesOf, List.flatMap_map]
    exact List.flatMap_eq_nil_iff.2 fun _ _ => rfl
  | enum b vs =>
    simp only [body] at h
    cases hl : literals vs with
    | error e => simp [hl, fail] at h
    | ok ts =>
      simp only [hl] at h
      obtain ⟨v, mid, hv, h⟩ := gen_bind_ok h
      obtain ⟨rfl, rfl⟩ := gen_pure_ok h
      have hw : ∀ us, Initial.values ts = .values us → ∃ vs, literals vs = .ok us := by
        rintro us ⟨rfl⟩
        exact ⟨vs, hl⟩
      exact (newVariable_made hs hw hv).1
  | ref b n =>
    simp only [body] at h
    cases hn : entryOf? es n with
    | some k =>
      simp only [hn] at h
      exact hpure rfl h
    | none => simp [hn, fail] at h

theorem ruleVariables_made {rs : List Rule} {pool pool' : Pool} {vs : List Variable} (hs : pool.Sound)
    (h : ruleVariables rs pool = .ok (vs, pool')) :
    Made pool pool' vs ∧ vs.map Variable.initial = rs.map Initial.rule := by
  induction rs generalizing pool vs with
  | nil =>
    obtain ⟨rfl, rfl⟩ := gen_pure_ok h
    exact ⟨Made.refl hs, rfl⟩
  | cons r rs ih =>
    simp only [ruleVariables] at h
    cases hc : Rule.compile r.expr with
    | error e => simp [hc, fail] at h
    | ok prog =>
      simp only [hc] at h
      obtain ⟨v, mid, hv, h⟩ := gen_bind_ok h
      obtain ⟨ws, mid', hws, h⟩ := gen_bind_ok h
      obtain ⟨rfl, rfl⟩ := gen_pure_ok h
      obtain ⟨hm, hi⟩ := newVariable_made hs (by simp) hv
      obtain ⟨hm', hi'⟩ := ih hm.sound hws
      exact ⟨hm.trans hm', by simp [hi, hi']⟩

/-- the variables that a function names -/
def Function.variables (f : Function) : List Variable := f.rules ++ variablesOf f.body

/-- how the function of a node is made: its rules, and then its body -/
structure FunctionOf (es : List (String × Nat)) (coerce : Bool) (id : Nat) (s : Shape) (f : Function) : Prop where
  number : f.number = id
  nullable : f.nullable = s.base.nullable
  rules : f.rules.map Variable.initial = s.base.rules.map Initial.rule
  body : ∃ pool pool' : Pool, pool.Sound ∧ body es coerce id s pool = .ok (f.body, pool')

theorem function_made {es : List (String × Nat)} {coerce : Bool} {id : Nat} {s : Shape} {pool pool' : Pool}
    {f : Function} (hs : pool.Sound) (h : function es coerce id s pool = .ok (f, pool')) :
    Made pool pool' f.variables ∧ FunctionOf es coerce id s f := by
  unfold function at h
  obtain ⟨rs, mid, hrs, h⟩ := gen_bind_ok h
  obtain ⟨ss, mid', hss, h⟩ := gen_bind_ok h
  obtain ⟨rfl, rfl⟩ := gen_pure_ok h
  obtain ⟨hm, hi⟩ := ruleVariables_made hs hrs
  exact ⟨hm.trans (body_made hm.sound hss), rfl, rfl, hi, mid, mid', hm.sound, hss⟩

theorem functions_made {es : List (String × Nat)} {coerce : Bool} {id : Nat} {shapes : List Shape} {pool pool' : Pool}
    {fs : List Function} (hs : pool.Sound) (h : functions es coerce id shapes pool = .ok (fs, pool')) :
    Made pool pool' (fs.flatMap Function.variables) ∧ fs.length = shapes.length ∧
      ∀ i s, shapes[i]? = some s → ∃ f, fs[i]? = some f ∧ FunctionOf es coerce (id + i) s f := by
  induction shapes generalizing id pool fs with
  | nil =>
    obtain ⟨rfl, rfl⟩ := gen_pure_ok h
    exact ⟨Made.refl hs, rfl, by simp⟩
  | cons s shapes ih =>
    simp only [functions] at h
    obtain ⟨f, mid, hf, h⟩ := gen_bind_ok h
    obtain ⟨gs, mid', hgs, h⟩ := gen_bind_ok h
    obtain ⟨rfl, rfl⟩ := gen_pure_ok h
    obtain ⟨hm, hof⟩ := function_made hs hf
    obtain ⟨hm', hlen, hall⟩ := ih hm.sound hgs
    refine ⟨hm.trans hm', by simp [hlen], fun i t ht => ?_⟩
    cases i with
    | zero =>
      obtain rfl : s = t := by simpa using ht
      exact ⟨f, rfl, hof⟩
    | succ i =>
      obtain ⟨g, hg, hog⟩ := hall i t (by simpa using ht)
      refine ⟨g, by simpa using hg, ?_⟩
      rwa [show id + (i + 1) = id + 1 + i by omega]

/-- **Generated files.** Function `i` is the one of node `i`, and the variables that are declared, each once, are those that the
functions name, in order. -/
structure File.Made (p : Program) (o : Options) (f : File) : Prop where
  functions : ∀ i s, p.nodes[i]? = some s → ∃ g, f.functions[i]? = some g ∧ FunctionOf (entries p) o.coerce i s g
  count : f.functions.length = p.nodes.length
  entry : f.entry = (entryOf? (entries p) "").getD 0
  vars : f.functions.flatMap Function.variables = f.vars
  distinct : (f.vars.map Variable.number).Nodup
  written : ∀ v ∈ f.vars, ∀ ts, v.initial = .values ts → ∃ vs, literals vs = .ok ts

/-- a variable that a function names is declared -/
theorem File.Made.declared {p : Program} {o : Options} {f : File} (h : f.Made p o) {g : Function} (hg : g ∈ f.functions)
    {v : Variable} (hv : v ∈ g.variables) : v ∈ f.vars := by
  rw [← h.vars]
  exact List.mem_flatMap.2 ⟨g, hg, hv⟩

theorem generate_made {p : Program} {o : Options} {f : File} (h : generate p o = .ok f) : f.Made p o := by
  unfold generate at h
  cases hf : functions (entries p) o.coerce 0 p.nodes {} with
  | error e => simp [hf] at h
  | ok r =>
    obtain ⟨fs, pool⟩ := r
    simp only [hf, Except.ok.injEq] at h
    subst h
    obtain ⟨hm, hlen, hall⟩ := functions_made Pool.sound_empty hf
    refine ⟨fun i s hs => by simpa using hall i s hs, hlen, rfl, ?_, ?_, fun v hv => ?_⟩
    · simp [hm.made]
    · rw [List.map_reverse]
      exact List.nodup_reverse.2 hm.sound.distinct
    · exact hm.sound.written v (List.mem_reverse.1 hv)

end Schemata.Source
