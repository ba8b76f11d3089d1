import Mathlib.Tactic
import Schemata.Proofs.Compile
import Schemata.Proofs.Json.Nesting

/-!
Constants accept themselves.

The node of a constant is rendered as a schema with the constant in it. On its way to a program the constant is written,
its names are filled in and it is read back (`Carried`); data without tokens comes back as it was, and the program lists
it (`constantShape`). So the predicate accepts what equals the constant, and nothing else (`compileNode_constant`). The
constant null is lost on the way in the plain dialect, where a keyword with the value `null` is one that is left out: the
predicate accepts everything (`compileNode_lost`).
-/

namespace Schemata

/-! ## Data -/

namespace Json

/-- the text of a number is one that the reader takes -/
theorem isNumber_wire {x : Float} (h : Number.isFinite x = true) : IsNumber (Number.Layout.wire.text Number.double x) where
  starts := by
    have hfinite := h
    unfold Number.isFinite at hfinite
    split at hfinite
    · rename_i negative d hparts
      obtain ⟨ds, fs, e, htext, hnum, -⟩ := Number.text_numeral Number.Layout.wire le_rfl hparts
      obtain ⟨c, cs, hds⟩ := List.exists_cons_of_ne_nil hnum.nonempty
      have hc : c.isDigit = true := hnum.digits c (by simp [hds])
      cases negative with
      | true => exact ⟨'-', _, htext, by decide⟩
      | false => exact ⟨c, _, htext.trans (by simp [Number.numeral, hds]; rfl), by simp [hc]⟩
    · cases hfinite
  spelled := spelled_wire _ h
  number := by
    rw [Number.parse?, Number.read_text _ le_rfl h]
    rfl

theorem mem_numeralsOf {xs : List Json} {t : String} : t ∈ numeralsOf xs ↔ ∃ x ∈ xs, t ∈ x.numerals := by
  induction xs with
  | nil => simp [numeralsOf]
  | cons x xs ih => simp [numeralsOf, ih]

theorem isNumber_ofData {c : Value} (h : c.Decoded) : ∀ t ∈ (ofData c).numerals, IsNumber t := by
  induction h with
  | null => simp [ofData, numerals]
  | bool b => simp [ofData, numerals]
  | float h => simpa [ofData, numerals] using isNumber_wire h
  | string s => simp [ofData, numerals]
  | @array xs _ ih =>
    intro t ht
    rw [ofData, ofDataItems_eq, numerals, mem_numeralsOf] at ht
    obtain ⟨j, hj, ht⟩ := ht
    obtain ⟨x, hx, rfl⟩ := List.mem_map.1 hj
    exact ih x hx t ht
  | @object fs _ _ ih =>
    intro t ht
    rw [ofData, ofDataFields_eq, numerals, mem_numeralsIn] at ht
    obtain ⟨f, hf, ht⟩ := ht
    obtain ⟨e, he, rfl⟩ := List.mem_map.1 hf
    exact ih e he t ht

mutual

/-- a document is nested as deep as its data -/
theorem nesting_ofData : ∀ c : Value, (ofData c).nesting = c.depth
  | .null | .bool _ | .float _ | .single _ | .int _ _ _ | .literal _ | .string _ => rfl
  | .array xs => congrArg (· + 1) (nesting_ofDataItems xs)
  | .object fs => congrArg (· + 1) (nesting_ofDataFields fs)

theorem nesting_ofDataItems : ∀ xs : List Value, nestingOf (ofDataItems xs) = Value.depths xs
  | [] => rfl
  | x :: xs => congrArg₂ max (nesting_ofData x) (nesting_ofDataItems xs)

theorem nesting_ofDataFields : ∀ fs : List (String × Value), nestingIn (ofDataFields fs) = Value.fieldDepths fs
  | [] => rfl
  | (_, x) :: fs => congrArg₂ max (nesting_ofData x) (nesting_ofDataFields fs)

end

theorem compactItems_ok {xs : List Value} (h : ∀ x ∈ xs, ∃ t, compact x = .ok t) : ∃ ts, compactItems xs = .ok ts := by
  induction xs with
  | nil => exact ⟨_, rfl⟩
  | cons x xs ih =>
    obtain ⟨t, ht⟩ := h x (by simp)
    obtain ⟨ts, hts⟩ := ih fun y hy => h y (by simp [hy])
    exact ⟨_, by rw [compactItems, ht, hts]; rfl⟩

theorem compactFields_ok {fs : List (String × Value)} (h : ∀ e ∈ fs, ∃ t, compact e.2 = .ok t) :
    ∃ ts, compactFields fs = .ok ts := by
  induction fs with
  | nil => exact ⟨_, rfl⟩
  | cons e fs ih =>
    obtain ⟨t, ht⟩ := h e (by simp)
    obtain ⟨ts, hts⟩ := ih fun d hd => h d (by simp [hd])
    exact ⟨_, by rw [compactFields, ht, hts]; rfl⟩

/-- data has a text -/
theorem compact_decoded {c : Value} (h : c.Decoded) : ∃ t, compact c = .ok t := by
  induction h with
  | null => exact ⟨_, rfl⟩
  | bool b => exact ⟨_, rfl⟩
  | float h => exact ⟨_, by rw [compact, floatText, if_pos h]⟩
  | string s => exact ⟨_, rfl⟩
  | array _ ih =>
    obtain ⟨ts, hts⟩ := compactItems_ok ih
    exact ⟨_, by rw [compact, hts]; rfl⟩
  | object _ _ ih =>
    obtain ⟨ts, hts⟩ := compactFields_ok ih
    exact ⟨_, by rw [compact, hts]; rfl⟩

end Json

/-! ## Documents that come back -/

namespace Schema

theorem valueEntry_ok (key : String) {o : Option Value} (h : ∀ v ∈ o, ∃ t, Json.compact v = .ok t) :
    ∃ es, valueEntry key o = .ok es := by
  cases o with
  | none => exact ⟨_, rfl⟩
  | some v =>
    obtain ⟨t, ht⟩ := h v rfl
    exact ⟨_, by rw [valueEntry, ht]; rfl⟩

theorem valuesEntry_ok (key : String) {vs : List Value} (h : ∀ v ∈ vs, ∃ t, Json.compact v = .ok t) :
    ∃ es, valuesEntry key vs = .ok es := by
  obtain ⟨ts, hts⟩ := Json.compactItems_ok h
  unfold valuesEntry
  split
  · exact ⟨_, rfl⟩
  · exact ⟨_, by rw [Json.compact, hts]; rfl⟩

theorem floatEntry_ok (key : String) {o : Option Float} (h : ∀ x, o = some x → Number.isFinite x = true) :
    ∃ es, floatEntry key o = .ok es := by
  cases o with
  | none => exact ⟨_, rfl⟩
  | some x => exact ⟨_, by rw [floatEntry, Json.floatText, if_pos (h x rfl)]; rfl⟩

/-- keywords can be written, if their values can -/
theorem entries_ok {k : Keywords} (hbounds : FiniteBounds k) (hvalues : ∀ v ∈ Keywords.values k, ∃ t, Json.compact v = .ok t)
    (below : Below) : ∃ es, entries k below = .ok es := by
  have hvalue {o : Option Value} (ho : ∀ v ∈ o, v ∈ Keywords.values k) (key : String) : ∃ es, valueEntry key o = .ok es :=
    valueEntry_ok key fun v hv => hvalues v (ho v hv)
  obtain ⟨t1, h1⟩ := hvalue (o := k.type) (fun v hv => by simp [Keywords.values, Option.mem_def.1 hv]) "type"
  obtain ⟨t2, h2⟩ := hvalue (o := k.default) (fun v hv => by simp [Keywords.values, Option.mem_def.1 hv]) "default"
  obtain ⟨t3, h3⟩ := valuesEntry_ok "examples" fun v (hv : v ∈ k.examples) => hvalues v (by simp [Keywords.values, hv])
  obtain ⟨t4, h4⟩ := valuesEntry_ok "enum" fun v (hv : v ∈ k.enum.getD []) => hvalues v (by simp [Keywords.values, hv])
  obtain ⟨t5, h5⟩ := hvalue (o := k.const) (fun v hv => by simp [Keywords.values, Option.mem_def.1 hv]) "const"
  obtain ⟨t6, h6⟩ := floatEntry_ok "minimum" hbounds.minimum
  obtain ⟨t7, h7⟩ := floatEntry_ok "maximum" hbounds.maximum
  obtain ⟨t8, h8⟩ := hvalue (o := k.exclusiveMinimum) (fun v hv => by simp [Keywords.values, Option.mem_def.1 hv]) "exclusiveMinimum"
  obtain ⟨t9, h9⟩ := hvalue (o := k.exclusiveMaximum) (fun v hv => by simp [Keywords.values, Option.mem_def.1 hv]) "exclusiveMaximum"
  obtain ⟨t10, h10⟩ := floatEntry_ok "multipleOf" hbounds.multipleOf
  simp only [entries, h1, h2, h3, h4, h5, h6, h7, h8, h9, h10]
  exact ⟨_, rfl⟩

/-- a level has a text, if all below it and its values have one -/
theorem hasText_level {b : Body} (hbelow : b.Below HasText) (hbounds : FiniteBounds b.own)
    (hvalues : ∀ v ∈ Keywords.values b.own, ∃ t, Json.compact v = .ok t) : HasText (ofBody b) := by
  refine hasText_ofBody hbelow (entries_ok hbounds hvalues) (Json.compactFields_ok fun e he => hvalues e.2 ?_)
  rw [Keywords.values]
  exact List.mem_append_right _ (List.mem_map_of_mem he)

/-- plain keywords have a text, if their values have one -/
theorem hasText_ofKeywords {k : Keywords} (hbounds : FiniteBounds k) (hvalues : ∀ v ∈ Keywords.values k, ∃ t, Json.compact v = .ok t) :
    HasText (ofKeywords k) :=
  hasText_level ⟨nofun, nofun, ⟨_, rfl⟩, nofun, nofun, nofun, nofun, nofun, nofun, nofun⟩ hbounds hvalues

/-- a schema that can be written, at most so deep, and what is read from its text once it is resolved -/
structure Carried (depth : Nat) (T S : Schema) : Prop where
  text : ∃ t, T.text = .ok t
  numbers : ∀ t ∈ T.json.numerals, Json.IsNumber t
  free : ∀ s ∈ T.json.strings, Placeholder.occursIn s = false
  nesting : T.json.nesting ≤ depth
  read : Schema.ofJson {} (T.json.mapStrings id) = .ok S
  present : S.isAbsent = false

/-- a text without tokens resolves, and is read unless it is too deep -/
theorem Carried.resolved {depth : Nat} {T S : Schema} (h : T.Carried depth S) (r : Registry) :
    ∃ raw out seen, T.text = .ok raw ∧ (r.resolve raw).2 = .ok (out, seen) ∧
      (∀ S', Schema.decode out = .ok S' → S' = S) ∧ (depth ≤ Json.maxDepth → Schema.decode out = .ok S) := by
  obtain ⟨raw, hraw⟩ := h.text
  obtain ⟨rfl, hspelled⟩ := Schema.text_writes hraw
  have hsettles : ∀ s ∈ T.json.strings, r.finalize.Settles s (id s) := fun s hs => Registry.settles_free _ (h.free s hs)
  obtain ⟨⟨out, seen⟩, hout⟩ := r.resolve_free hspelled h.free
  refine ⟨_, out, seen, hraw, hout, fun S' hS' => ?_, fun hdepth => ?_⟩
  · unfold Schema.decode at hS'
    cases hparse : Json.parse out with
    | error e =>
      rw [hparse] at hS'
      cases hS'
    | ok j =>
      rw [hparse, Registry.parse_resolved hspelled hsettles hout hparse] at hS'
      change (Schema.ofJson {} (T.json.mapStrings id) >>= _) = _ at hS'
      rw [h.read] at hS'
      change Except.ok (if S.isAbsent then Schema.empty else S) = _ at hS'
      rw [h.present] at hS'
      exact (Except.ok.inj hS').symm
  · have hparse : Json.parse out = .ok (T.json.mapStrings id) := by
      rw [← String.ofList_toList (s := out), Registry.resolve_written hspelled hout]
      exact Json.parse_accepts h.numbers hsettles (h.nesting.trans hdepth)
    unfold Schema.decode
    rw [hparse]
    change (Schema.ofJson {} (T.json.mapStrings id) >>= _) = _
    rw [h.read]
    change Except.ok (if S.isAbsent then Schema.empty else S) = _
    rw [h.present]
    rfl

end Schema

/-! ## Rendering -/

/-- a node that stands for a constant, with nothing set on it -/
structure Node.IsConstant (n : Node) (c : Value) : Prop where
  kind : n.kind = .const
  value : n.constValue = c
  bare : n.info = {}
  children : n.children = []
  deferred : n.deferred = none
  onLoad : n.onLoad = []

namespace Document

open Schema (ofKeywords Carried)

variable {g : Graph} {id : Nat} {n : Node} {c : Value}

theorem annotate_nothing (d : Dialect) (s : Schema) : annotate d {} s = s := by
  obtain rfl | ⟨b, rfl⟩ := Schema.eq_absent_or_ofBody s
  · rfl
  · rw [annotate, Schema.mapOwn_ofBody]
    cases d <;> simp [putAll]

theorem render_constant {cx : Context} (hn : cx.graph.get? id = some n) (hc : n.IsConstant c) (depth : Nat) {s : State}
    (hs : s.hoist = none) : render cx (depth + 1) id s = (.ok (constSchema cx.options.dialect c), s) := by
  have hlocal : cx.graph.localChain id = ([], some n) := by
    rw [Graph.localChain, Graph.localChainFrom, hn]
    simp [hc.kind, Kind.isWrapper]
  have hhoist : takeHoist n.id s = (.ok false, s) := by
    rw [takeHoist, hs]
    rfl
  rw [render, hlocal]
  simp only
  rw [Steps.bind_of_ok hhoist]
  simp only [Bool.false_eq_true, if_false, renderNode, hc.kind, hc.value, List.nil_append, List.any_nil, List.foldl_cons,
    List.foldl_nil, hc.bare, annotate_nothing]
  rfl

/-- the schema that a constant is rendered as -/
def constantRoot (o : Options) (c : Value) : Schema :=
  if o.schemaUri && o.dialect = .plain then (constSchema o.dialect c).mapOwn fun k => { k with schemaUri := draftUri }
  else constSchema o.dialect c

theorem ofNode_constant (hn : g.get? id = some n) (hc : n.IsConstant c) (o : Options) (r : Registry) :
    ofNode g id r o = (.ok { root := constantRoot o c, discriminator := false, definitions := [] }, r) := by
  have hroot : rootIdentity g id (g.size + 1) false [id] id = ([id], none) := by
    rw [rootIdentity, hn]
    simp [hc.kind]
  have hrender : render { graph := g, options := o, self := [id] } ((g.size + 1) * (g.size + 1) + 1) id { registry := r } =
      (.ok (constSchema o.dialect c), { registry := r }) := render_constant hn hc _ rfl
  have hrun : ofNode g id r o =
      ((render { graph := g, options := o, self := [id] } (maxDepth g) id { registry := r }).1.map
          (assemble o (render { graph := g, options := o, self := [id] } (maxDepth g) id { registry := r }).2),
        (render { graph := g, options := o, self := [id] } (maxDepth g) id { registry := r }).2.registry) := by
    unfold ofNode
    simp only [hroot]
    rfl
  rw [hrun, maxDepth, hrender]
  rfl

/-- the type that is written with a constant where there is no keyword for constants -/
def constantType (c : Value) : Option String :=
  if c.isNull then some "string"
  else
    match literalTypeOf c with
    | .type t => some t
    | _ => none

theorem constantRoot_plain {o : Options} (hd : o.dialect = .plain) (c : Value) :
    constantRoot o c = ofKeywords { schemaUri := if o.schemaUri then draftUri else "", const := some c } := by
  unfold constantRoot
  rw [hd]
  cases o.schemaUri <;> rfl

theorem constantRoot_openapi {o : Options} (hd : o.dialect = .openapi) (c : Value) : constantRoot o c =
    ofKeywords { type := (constantType c).map .string, enum := some [c], nullable := c.isNull } := by
  have hroot : constantRoot o c = constSchema .openapi c := by simp [constantRoot, hd]
  rw [hroot, constSchema, constantType]
  cases hnull : c.isNull with
  | true =>
    obtain rfl : c = .null := by cases c <;> first | rfl | cases hnull
    rfl
  | false =>
    simp only [Bool.false_eq_true, if_false, literalType]
    cases htype : literalTypeOf c with
    | passes => rfl
    | mixed => rfl
    | type t =>
      have ht : t ≠ "" := by rcases literalTypeOf_type htype with rfl | rfl | rfl | rfl <;> decide
      simp [withType, ht]

/-! ## Written and read -/

theorem ofMembers_const {own : Keywords} {j : Json} (hj : j ≠ .null) :
    Schema.ofMembers { own } [("const", j)] = .ok { own := { own with const := some j.toValue } } := by
  cases j <;> first | exact absurd rfl hj | rfl

theorem carried_const (hc : c.Decoded) (hfree : ∀ t ∈ c.texts, Placeholder.occursIn t = false) (vocabulary : Bool) :
    Carried (c.depth + 1) (ofKeywords { schemaUri := if vocabulary then draftUri else "", const := some c })
      (ofKeywords { schemaUri := if vocabulary then draftUri else "", const := if c.isNull then none else some c }) := by
  have hjson : (ofKeywords { schemaUri := if vocabulary then draftUri else "", const := some c }).json =
      .object ((if vocabulary then [("$schema", .string draftUri)] else []) ++ [("const", Json.ofData c)]) := by
    cases vocabulary <;> rfl
  constructor
  · refine Schema.hasText_ofKeywords ⟨nofun, nofun, nofun, nofun, nofun⟩ fun v hv => ?_
    obtain rfl : v = c := by simpa [Schema.Keywords.values] using hv
    exact Json.compact_decoded hc
  · rw [hjson]
    cases vocabulary <;> simpa [Json.numerals, Json.numeralsIn] using Json.isNumber_ofData hc
  · have hdraft : Placeholder.occursIn draftUri = false := by decide
    have hwords : Placeholder.occursIn "const" = false ∧ Placeholder.occursIn "$schema" = false := by decide
    rw [hjson]
    cases vocabulary <;> simpa [Json.strings, Json.stringsIn, hdraft, hwords, Value.texts] using hfree
  · rw [hjson]
    cases vocabulary <;> simp [Json.nesting, Json.nestingIn, Json.nesting_ofData]
  · cases hnull : c.isNull with
    | true =>
      obtain rfl : c = .null := by cases c <;> first | rfl | cases hnull
      cases vocabulary <;> rfl
    | false =>
      have hj : (Json.ofData c).mapStrings id ≠ .null := by
        cases c with
        | null => cases hnull
        | _ => simp [Json.ofData, Json.mapStrings]
      have hwritten : ((Json.ofData c).mapStrings id).toValue = c := Value.written_decoded hc
      have hread (own : Keywords) : Schema.ofMembers { own } [("const", (Json.ofData c).mapStrings id)] =
          .ok { own := { own with const := some c } } := by
        rw [ofMembers_const hj, hwritten]
      cases vocabulary with
      | false => exact congrArg (Except.map Schema.ofBody) (hread {})
      | true => exact congrArg (Except.map Schema.ofBody) (hread { schemaUri := draftUri })
  · rfl

theorem carried_enum (hc : c.Decoded) (hfree : ∀ t ∈ c.texts, Placeholder.occursIn t = false) {type : Option String}
    (htype : ∀ t ∈ type, Placeholder.occursIn t = false) (nullable : Bool) :
    Carried (c.depth + 2) (ofKeywords { type := type.map .string, enum := some [c], nullable })
      (ofKeywords { type := type.map .string, enum := some [c], nullable }) := by
  have hjson : (ofKeywords { type := type.map .string, enum := some [c], nullable }).json =
      .object ((type.map fun t => ("type", .string t)).toList ++ (if nullable then [("nullable", .bool true)] else []) ++
        [("enum", .array [Json.ofData c])]) := by
    cases type <;> cases nullable <;> rfl
  constructor
  · refine Schema.hasText_ofKeywords ⟨nofun, nofun, nofun, nofun, nofun⟩ fun v hv => ?_
    have hv : (∃ t, type = some t ∧ .string t = v) ∨ v = c := by simpa [Schema.Keywords.values] using hv
    rcases hv with ⟨t, -, rfl⟩ | rfl
    · exact ⟨_, rfl⟩
    · exact Json.compact_decoded hc
  · rw [hjson]
    cases type <;> cases nullable <;>
      simpa [Json.numerals, Json.numeralsIn, Json.numeralsOf] using Json.isNumber_ofData hc
  · have hwords : Placeholder.occursIn "type" = false ∧ Placeholder.occursIn "nullable" = false ∧
        Placeholder.occursIn "enum" = false := by decide
    rw [hjson]
    cases type with
    | none => cases nullable <;> simpa [Json.strings, Json.stringsIn, Json.stringsOf, hwords, Value.texts] using hfree
    | some t =>
      have ht := htype t rfl
      cases nullable <;> simpa [Json.strings, Json.stringsIn, Json.stringsOf, hwords, ht, Value.texts] using hfree
  · rw [hjson]
    cases type <;> cases nullable <;> simp [Json.nesting, Json.nestingIn, Json.nestingOf, Json.nesting_ofData]
  · conv_rhs => rw [← Value.written_decoded hc]
    cases type <;> cases nullable <;> rfl
  · rfl

theorem constantType_free {t : String} (h : t ∈ constantType c) : Placeholder.occursIn t = false := by
  unfold constantType at h
  split at h
  · obtain rfl := Option.some.inj h
    decide
  · split at h
    · rename_i htype
      obtain rfl := Option.some.inj h
      rcases literalTypeOf_type htype with rfl | rfl | rfl | rfl <;> decide
    · cases h

/-- the schema that is read for a constant: a keyword with the value `null` is left out -/
def constantRead (o : Options) (c : Value) : Schema :=
  match o.dialect with
  | .plain => ofKeywords {
      schemaUri := if o.schemaUri then draftUri else "", const := if c.isNull then none else some c }
  | .openapi => ofKeywords { type := (constantType c).map .string, enum := some [c], nullable := c.isNull }

/-- **Constants come back.** All but null in the plain dialect do. -/
theorem carried_constant (hc : c.Decoded) (hfree : ∀ t ∈ c.texts, Placeholder.occursIn t = false) (o : Options) :
    Carried (c.depth + 2) (constantRoot o c) (constantRead o c) := by
  unfold constantRead
  cases hd : o.dialect with
  | plain =>
    rw [constantRoot_plain hd]
    have hcarried := carried_const hc hfree o.schemaUri
    exact { hcarried with nesting := hcarried.nesting.trans (Nat.le_succ _) }
  | openapi =>
    rw [constantRoot_openapi hd]
    exact carried_enum hc hfree (fun t ht => constantType_free ht) c.isNull

/-! ## Lowered -/

/-- the shape of a level with plain keywords only -/
theorem lower_ofKeywords (L : Lowering.Context) {k : Keywords} (href : k.ref = "") (hrules : k.rules = []) :
    Lowering.lower L (ofKeywords k) =
      (Lowering.typedShapes ((Lowering.impliedTypes { own := k }).length > 1) (Lowering.typedShape L { own := k })
          (Lowering.impliedTypes { own := k })).map fun x =>
        (Lowering.allShape (Lowering.valueParts (Lowering.impliedTypes { own := k }) x.1 (Lowering.listed k))).mapBase fun base =>
          { nullable := base.nullable || x.2 || (L.options.dialect == .openapi && k.nullable), rules := base.rules } := by
  rw [ofKeywords, Lowering.lower_ofBody, if_neg (not_not.2 href), Lowering.bodyShape]
  cases Lowering.typedShapes ((Lowering.impliedTypes { own := k }).length > 1) (Lowering.typedShape L { own := k })
      (Lowering.impliedTypes { own := k }) with
  | error e => rfl
  | ok x =>
    have hparts : Lowering.partsOf { own := k } x.1 [] [] {} [] =
        Lowering.valueParts (Lowering.impliedTypes { own := k }) x.1 (Lowering.listed k) := by
      simp [Lowering.partsOf]
    change Lowering.finished L k x.2 (Lowering.allShape (Lowering.partsOf { own := k } x.1 [] [] {} [])) = _
    rw [hparts]
    simp only [Lowering.finished, hrules, List.append_nil]
    rfl

/-- what the program of a constant checks -/
def constantShape (d : Dialect) (c : Value) : Shape :=
  if c.isNull then
    match d with
    | .plain => .any {}
    | .openapi => .allOf { nullable := true } [.primitive {} { type := .string }, .enum {} [c]]
  else .enum {} [c]

/-- a constant is of the type that is written with it -/
theorem conforms_constant {t : String} (hc : c.Decoded) (hnull : c.isNull = false) (ht : t ∈ constantType c) :
    IsLiteralType t ∧ Lowering.conforms [t] [c] = true := by
  rw [constantType, hnull, if_neg (by simp)] at ht
  split at ht
  · rename_i u htype
    obtain rfl := Option.some.inj ht
    refine ⟨literalTypeOf_type htype, ?_⟩
    cases hc with
    | null => cases hnull
    | bool b =>
      obtain rfl := LiteralType.type.inj htype
      rfl
    | string s =>
      obtain rfl := LiteralType.type.inj htype
      rfl
    | @float x _ =>
      obtain rfl := LiteralType.type.inj htype
      by_cases hx : Number.isInt64 x = true <;> simp [Lowering.conforms, numberType, hx, Value.typeName, Value.numeric]
    | array _ => cases htype
    | object _ _ => cases htype
  · cases ht

theorem lower_constant {L : Lowering.Context} {o : Options} (hL : L.options.dialect = o.dialect) (hc : c.Decoded) :
    Lowering.lower L (constantRead o c) = .ok (constantShape o.dialect c) := by
  unfold constantRead constantShape
  cases hd : o.dialect with
  | plain =>
    have htypes : Lowering.impliedTypes { own := {
        schemaUri := if o.schemaUri then draftUri else "", const := if c.isNull then none else some c } } = [] := rfl
    simp only
    rw [lower_ofKeywords L rfl rfl, htypes]
    cases hnull : c.isNull <;>
      simp [Lowering.typedShapes, Lowering.valueParts, Lowering.listed, Lowering.conforms, Lowering.allShape, Shape.mapBase, Except.map]
  | openapi =>
    simp only
    rw [lower_ofKeywords L rfl rfl]
    cases hnull : c.isNull with
    | true =>
      obtain rfl : c = .null := by cases c <;> first | rfl | cases hnull
      have htypes : Lowering.impliedTypes { own := {
          type := (constantType .null).map .string, enum := some [.null], nullable := true } } = ["string"] := rfl
      have hstring : Lowering.typedShape L { own := {
          type := (constantType .null).map .string, enum := some [.null], nullable := true } } "string" =
          .ok (.primitive {} { type := .string }) := rfl
      rw [htypes]
      simp [Lowering.typedShapes, hstring, Lowering.valueParts, Lowering.listed, Lowering.conforms, Lowering.allShape,
        Lowering.anyShape, Shape.mapBase, Value.typeName, hL, hd, Except.map, pure, Except.pure, bind, Except.bind]
    | false =>
      cases htype : constantType c with
      | none =>
        have htypes : Lowering.impliedTypes { own := {
            type := Option.map Value.string none, enum := some [c], nullable := false } } = [] := rfl
        rw [htypes]
        simp [Lowering.typedShapes, Lowering.valueParts, Lowering.listed, Lowering.conforms, Lowering.allShape,
          Shape.mapBase, Except.map]
      | some t =>
        obtain ⟨ht, hconforms⟩ := conforms_constant hc hnull htype
        have htypes : Lowering.impliedTypes { own := {
            type := some (.string t), enum := some [c], nullable := false } } = [t] := rfl
        have hshape : Lowering.typedShape L { own := {
            type := some (.string t), enum := some [c], nullable := false } } t =
            .ok (.primitive {} { type := .ofName t }) := by
          rcases ht with rfl | rfl | rfl | rfl <;> rfl
        have hnotnull : t ≠ "null" := by rcases ht with rfl | rfl | rfl | rfl <;> decide
        rw [Option.map_some, htypes]
        simp [Lowering.typedShapes, hshape, hnotnull, Lowering.valueParts, Lowering.listed, hconforms, Lowering.allShape,
          Shape.mapBase, Except.map, pure, Except.pure, bind, Except.bind]

/-- the program of a constant -/
def constantProgram (d : Dialect) (c : Value) : Program := { root := constantShape d c }

theorem program_constant {o : Options} {options : CompileOptions} (hd : options.dialect = o.dialect) (hc : c.Decoded) :
    Program.lower (constantRead o c) options = .ok (constantProgram o.dialect c) := by
  have hbody : Schema.ofBody (constantRead o c).body = constantRead o c := by
    unfold constantRead
    cases o.dialect <;> rfl
  have hdefinitions : (constantRead o c).body.definitions = [] ∧ (constantRead o c).body.defs = [] := by
    unfold constantRead
    cases o.dialect <;> exact ⟨rfl, rfl⟩
  have htitle : Lowering.title (constantRead o c).body = .ok "" := by
    unfold constantRead
    cases o.dialect <;> rfl
  have horder : sortStrings ([] : List String) = [] := by simp [sortStrings]
  unfold Program.lower
  simp only [hdefinitions.1, hdefinitions.2, hbody, htitle, Lowering.indexOf, List.map_nil, horder, Lowering.lowerNamed]
  rw [lower_constant hd hc]
  rfl

theorem verify_constant (d : Dialect) (c : Value) : (constantProgram d c).verify = .ok () := by
  unfold constantProgram constantShape
  cases c.isNull <;> cases d <;> rfl

/-- the values that the program of a constant accepts -/
theorem verdict_constant (ck : Check.Context) (d : Dialect) (c v : Value) :
    Check.Verdict ck (constantShape d c) v (d = .plain && c.isNull || Value.equal v c) := by
  unfold constantShape
  cases hnull : c.isNull with
  | false =>
    have hlisted : Check.Verdict ck (.enum {} [c]) v ([c].any fun want => Value.equal v want) :=
      Check.verdict_enum _ (by simp) rfl
    simpa using hlisted
  | true =>
    obtain rfl : c = .null := by cases c <;> first | rfl | cases hnull
    cases d with
    | plain => simpa using Check.verdict_any (by simp) rfl
    | openapi =>
      rw [equal_null]
      cases hv : v.isNull with
      | true => simpa using Check.verdict_null rfl hv
      | false =>
        have hbare : (({} : Base).nullable && v.isNull) = false := rfl
        have hboth : Check.Verdict ck (.allOf { nullable := true } [.primitive {} { type := .string }, .enum {} [.null]]) v _ :=
          Check.verdict_allOf (.cons (Check.verdict_primitive { type := .string } hbare rfl)
            (.cons (Check.verdict_enum [.null] hbare rfl) .nil)) (by simp [hv]) rfl
        simpa [equal_null, hv] using hboth

end Document

/-! ## Compiled -/

variable {g : Graph} {id : Nat} {n : Node} {c : Value}

theorem Node.IsConstant.frozen (hc : n.IsConstant c) : { n with loaded := true }.IsConstant c :=
  ⟨hc.kind, hc.value, hc.bare, hc.children, hc.deferred, hc.onLoad⟩

/-- a constant is only frozen by a load -/
theorem load_constant (hnum : g.Numbered) (hn : g.get? id = some n) (hc : n.IsConstant c) :
    ∃ h, GraphM.load (some id) g = (.ok (), h) ∧ h.Numbered ∧ h.get? id = some { n with loaded := true } := by
  cases hloaded : n.loaded with
  | true =>
    have hsame : ({ n with loaded := true } : Node) = n := by rw [← hloaded]
    exact ⟨g, GraphM.load_of_loaded hnum (by simp [Graph.isLoaded, hn, hloaded]), hnum, by rw [hsame, hn]⟩
  | false =>
    have hid : n.id = id := hnum id n hn
    have hget : (g.modify id fun m => { m with loaded := true }).get? id = some { n with loaded := true } := by
      rw [Graph.get?_modify, if_pos rfl, hn]
      rfl
    have hone : GraphM.loadOne id g = (.ok (), g.modify id fun m => { m with loaded := true }) := by
      have hnode : GraphM.node id g = (.ok n, g) := by rw [GraphM.node, hn]
      have hresolve : GraphM.resolve n g = (.ok (), g) := by
        rw [GraphM.resolve, hc.deferred]
        rfl
      unfold GraphM.loadOne
      rw [Steps.bind_of_ok hnode, Steps.bind_of_ok hresolve, Steps.bind_of_ok hnode, hc.onLoad]
      rw [Steps.bind_of_ok (by rfl : GraphM.runHooks "onLoad" Event.load id [] g = (.ok (), g)), Steps.bind_of_ok hnode, hc.kind]
      rfl
    have hsize : g.size ≠ 0 := by
      intro h0
      have : g.nodes = #[] := Array.eq_empty_of_size_eq_zero h0
      simp [Graph.get?, this] at hn
    obtain ⟨k, hk⟩ := Nat.exists_eq_succ_of_ne_zero hsize
    have hdone : GraphM.loadFrom k [] (g.modify id fun m => { m with loaded := true }) =
        (.ok (), g.modify id fun m => { m with loaded := true }) := by
      cases k <;> rfl
    have hload : GraphM.load (some id) g = GraphM.loadFrom g.size [n.id] g := by
      simp only [GraphM.load, GraphM.graph, Steps.bind_apply, Option.bind_some, hn]
    have hopen : [id].dropWhile g.isLoaded = [id] := by simp [Graph.isLoaded, hn, hloaded]
    refine ⟨_, ?_, (Graph.later_modify (f := fun m => { m with loaded := true })
      (fun m => ⟨rfl, rfl, rfl, rfl, fun _ => rfl⟩) g id).numbered hnum, hget⟩
    rw [hload, hk, hid, GraphM.loadFrom, Steps.bind_of_ok (by rfl : GraphM.graph g = (.ok g, g))]
    simp only [hopen]
    rw [Steps.bind_of_ok hone, Steps.bind_of_ok (show GraphM.node id _ = _ by rw [GraphM.node, hget]),
      Steps.bind_of_ok (by rfl : GraphM.graph _ = _)]
    simpa [hc.children] using hdone

/-- loading first makes no difference -/
theorem compileNode_load {h : Graph} (hload : GraphM.load (some id) g = (.ok (), h))
    (hagain : GraphM.load (some id) h = (.ok (), h)) (compile : Compiler) (render : Document.Options) (o : CompileOptions) :
    compileNode id (some compile) render o g = compileNode id (some compile) render o h := by
  unfold compileNode
  simp only
  rw [Steps.bind_of_ok hload, Steps.bind_of_ok hagain]

/-- a frozen constant is rendered as its schema, and the text is read back unless it is too deep -/
theorem renderText_constant (hnum : g.Numbered) (hn : g.get? id = some n) (hloaded : n.loaded = true) (hc : n.IsConstant c)
    (hdecoded : c.Decoded) (hfree : ∀ t ∈ c.texts, Placeholder.occursIn t = false) (o : Document.Options) :
    ∃ text, Document.renderText (some id) o g =
        (.ok (text, { root := Document.constantRoot o c, discriminator := false, definitions := [] }), g) ∧
      (∀ S, Schema.decode text = .ok S → S = Document.constantRead o c) ∧
      (c.depth + 2 ≤ Json.maxDepth → Schema.decode text = .ok (Document.constantRead o c)) := by
  have hfrozen : g.isLoaded id = true := by simp [Graph.isLoaded, hn, hloaded]
  obtain ⟨raw, text, seen, hraw, hres, honly, hread⟩ :=
    (Document.carried_constant hdecoded hfree o).resolved { target := Document.target }
  refine ⟨text, ?_, honly, hread⟩
  have htemplate : Document.template { root := Document.constantRoot o c, discriminator := false, definitions := [] } =
      .ok raw := by
    rw [Document.template, hraw]
  unfold Document.renderText
  rw [Steps.bind_of_ok (GraphM.load_of_loaded hnum hfrozen), Steps.bind_of_ok (by rfl : GraphM.graph g = _)]
  simp only [Option.getD_some, Document.ofNode_constant hn hc]
  rw [Steps.bind_of_ok (by rfl), htemplate, Steps.bind_of_ok (by rfl), hres, Steps.bind_of_ok (by rfl)]
  rfl

/-- a constant that is not too deep has a predicate -/
theorem compileNode_lists (hnum : g.Numbered) (hn : g.get? id = some n) (hc : n.IsConstant c) (hdecoded : c.Decoded)
    (hfree : ∀ t ∈ c.texts, Placeholder.occursIn t = false) (hdepth : c.depth + 2 ≤ Json.maxDepth)
    (render : Document.Options) (o : CompileOptions) :
    ∃ h, compileNode id (some compileDocument) render o g =
      (.ok { program := Document.constantProgram render.dialect c, coerce := o.coerce }, h) := by
  obtain ⟨h, hload, hnumh, hnh⟩ := load_constant hnum hn hc
  have hfrozen : h.isLoaded id = true := by simp [Graph.isLoaded, hnh]
  obtain ⟨text, hrender, -, hread⟩ := renderText_constant hnumh hnh rfl hc.frozen hdecoded hfree render
  refine ⟨h, ?_⟩
  rw [compileNode_load hload (GraphM.load_of_loaded hnumh hfrozen)]
  exact compileNode_of_text hnumh hfrozen (validator_none hnh (by rw [hc.frozen.kind]; rfl) (by simp [hc.kind]))
    hrender (hread hdepth) (Document.program_constant rfl hdecoded) (Document.verify_constant _ _)

/-- what a predicate of a constant checks -/
theorem compileNode_program (hnum : g.Numbered) (hn : g.get? id = some n) (hc : n.IsConstant c) (hdecoded : c.Decoded)
    (hfree : ∀ t ∈ c.texts, Placeholder.occursIn t = false) {render : Document.Options} {o : CompileOptions} {p : Predicate}
    {g' : Graph} (h : compileNode id (some compileDocument) render o g = (.ok p, g')) :
    p.program = Document.constantProgram render.dialect c := by
  obtain ⟨h', hload, hnumh, hnh⟩ := load_constant hnum hn hc
  have hfrozen : h'.isLoaded id = true := by simp [Graph.isLoaded, hnh]
  rw [compileNode_load hload (GraphM.load_of_loaded hnumh hfrozen)] at h
  obtain ⟨text, hrender, honly, -⟩ := renderText_constant hnumh hnh rfl hc.frozen hdecoded hfree render
  obtain ⟨text', doc, S, options, hrender', hS, hdialect, -, -, hp, -⟩ := compileNode_steps hnumh hfrozen h
  rw [hrender] at hrender'
  obtain ⟨⟨⟩, -⟩ := Prod.mk.inj hrender'
  rw [honly S hS, Document.program_constant hdialect hdecoded] at hp
  exact (Except.ok.inj hp).symm

/-- **Constants accept themselves.** The predicate of a constant accepts what equals the constant, and no more unless the
constant is null and the dialect the plain one, where it accepts everything; it has a predicate unless it is too deep to be
read. -/
theorem compileNode_constant (hnum : g.Numbered) (hn : g.get? id = some n) (hc : n.IsConstant c) (hdecoded : c.Decoded)
    (hfree : ∀ t ∈ c.texts, Placeholder.occursIn t = false) (render : Document.Options) (o : CompileOptions) :
    (∀ p g', compileNode id (some compileDocument) render o g = (.ok p, g') → ∀ t v, ∃ is, p.issues t v = .ok is ∧
      (is = [] ↔ Value.equal v c = true ∨ render.dialect = .plain ∧ c = .null)) ∧
    (c.depth + 2 ≤ Json.maxDepth → ∃ p g', compileNode id (some compileDocument) render o g = (.ok p, g')) := by
  refine ⟨fun p g' h t v => ?_, fun hdepth => ?_⟩
  · have hprogram := compileNode_program hnum hn hc hdecoded hfree h
    have hverdict := Document.verdict_constant ⟨p.program, p.coerce, t⟩ render.dialect c v
    have hroot : p.program.root = Document.constantShape render.dialect c := by rw [hprogram]; rfl
    rw [← hroot] at hverdict
    obtain ⟨is, his, hempty⟩ := Program.validate_verdict hverdict
    refine ⟨is, his, ?_⟩
    have hnull : c.isNull = true ↔ c = .null := by cases c <;> simp [Value.isNull]
    rw [← List.isEmpty_iff, hempty, Bool.or_eq_true, Bool.and_eq_true, decide_eq_true_eq, hnull]
    exact or_comm
  · obtain ⟨h, hcompile⟩ := compileNode_lists hnum hn hc hdecoded hfree hdepth render o
    exact ⟨_, h, hcompile⟩

/-- a constant that is an object -/
def objectConstant : Value := .object [("a", .array [.null, .float 1])]

/-- the graph of one constant, as it is built -/
def constantGraph (c : Value) : Graph := { nodes := #[{ id := 1, kind := .const, options := .const c }] }

theorem constantGraph_numbered (c : Value) : (constantGraph c).Numbered := (Graph.numbered_iff _).2 fun
  | ⟨0, _⟩ => rfl

theorem constantGraph_isConstant (c : Value) :
    ∃ n, (constantGraph c).get? 1 = some n ∧ n.IsConstant c := ⟨_, rfl, rfl, rfl, rfl, rfl, rfl, rfl⟩

theorem objectConstant_decoded : objectConstant.Decoded := by
  have hone : Value.Decoded (.float 1) := .float (by decide)
  refine .object (List.pairwise_singleton _ _) ?_
  simp only [List.mem_cons, List.not_mem_nil, or_false, forall_eq]
  exact .array (by simp [Value.Decoded.null, hone])

theorem compileNode_constant_object : objectConstant.Decoded ∧ (∀ t ∈ objectConstant.texts, Placeholder.occursIn t = false) ∧
    ∀ d : Dialect, ∃ p h, compileNode 1 (some compileDocument) { dialect := d } {} (constantGraph objectConstant) = (.ok p, h) ∧
      ∀ t, p.issues t objectConstant = .ok [] ∧ p.issues t (.object [("a", .array [.null])]) ≠ .ok [] := by
  have hfree : ∀ t ∈ objectConstant.texts, Placeholder.occursIn t = false := by decide
  refine ⟨objectConstant_decoded, hfree, fun d => ?_⟩
  obtain ⟨n, hn, hc⟩ := constantGraph_isConstant objectConstant
  obtain ⟨haccepts, hcompiles⟩ := compileNode_constant (constantGraph_numbered _) hn hc objectConstant_decoded hfree
    { dialect := d } {}
  obtain ⟨p, h, hcompile⟩ := hcompiles (by decide)
  refine ⟨p, h, hcompile, fun t => ⟨?_, ?_⟩⟩
  · obtain ⟨is, his, hiff⟩ := haccepts p h hcompile t objectConstant
    rw [his, hiff.2 (.inl (by decide))]
  · obtain ⟨is, his, hiff⟩ := haccepts p h hcompile t (.object [("a", .array [.null])])
    rw [his]
    rintro ⟨⟩
    have hequal : Value.equal (.object [("a", .array [.null])]) objectConstant = false := by decide
    rcases hiff.1 rfl with heq | ⟨-, hnull⟩
    · rw [hequal] at heq
      cases heq
    · cases hnull

/-- **The constant null accepts everything.** In the plain dialect its keyword is read as one that is left out. -/
theorem compileNode_lost : ∃ p h, compileNode 1 (some compileDocument) {} {} (constantGraph .null) = (.ok p, h) ∧
    (∀ t, p.issues t (.bool true) = .ok []) ∧ Value.equal (.bool true) .null = false := by
  obtain ⟨n, hn, hc⟩ := constantGraph_isConstant .null
  obtain ⟨h, hcompile⟩ := compileNode_lists (constantGraph_numbered _) hn hc .null (by decide) (by decide) {} {}
  refine ⟨_, h, hcompile, fun t => ?_, rfl⟩
  obtain ⟨is, his, hempty⟩ := Program.validate_verdict
    (Document.verdict_constant ⟨Document.constantProgram .plain .null, false, t⟩ .plain .null (.bool true))
  change Program.validate _ _ _ _ = _
  exact his.trans (congrArg _ (List.isEmpty_iff.1 hempty))

end Schemata
