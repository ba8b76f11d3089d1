import Mathlib.Tactic
import Schemata.Document.Render
import Schemata.Proofs.Graph.Loading
import Schemata.Proofs.Registry.Names
import Schemata.Proofs.Schema.References

/-!
What rendering gives, and what it leaves behind.

`Renders` says what a node is rendered as, given the nodes that have definitions: `Forms` is one node from the
renderings of its children, `Wrapped` adds its local wrappers. `Run` is what a rendering does to the state: it takes
places for new definitions, renders the body of each of them once, and refers to every one of them. `render_run` is
the main result; it follows the renderer node by node, and the circle that a reference closes ends at a definition
whose place was taken before.
-/

namespace Schemata.Document

open Schema (Body ofBody)

/-! ## Renderings -/

/-- the reference to the definition of a node, before names are final -/
def pointer (id : Nat) : String := "#/definitions/" ++ Placeholder.text ⟨id, refAttr⟩

/-- the keys of an object whose nodes are not optional -/
def requiredKeys (g : Graph) (fields : List (String × Nat)) : List String :=
  (fields.filter fun f => !g.isOptional f.2).map (·.1)

def objectSchema (cx : Context) (n : Node) (fs : List (String × Schema)) : Schema :=
  ofBody {
    own := { typed "object" with
      required := sortStrings (requiredKeys cx.graph (n.objectOptions.keys.zip n.children)) }
    properties := some (Dict.ofList fs)
    additional := .flag !(cx.options.strict || n.objectOptions.unlisted = .reject) }

def arraySchema (n : Node) (item : Schema) : Schema :=
  ofBody {
    own := { typed "array" with
      minItems := n.arrayOptions.minItems, maxItems := n.arrayOptions.maxItems, uniqueItems := n.arrayOptions.unique }
    items := .single item }

/-- the schema of a tuple with its positions and, at the end, what follows them -/
def restSchema (cx : Context) (n : Node) (items : List Schema) : Schema :=
  if n.hasRest then
    tupleSchema cx.options.dialect (requiredItems cx.graph n.children.dropLast) items.dropLast items.getLast?
  else tupleSchema cx.options.dialect (requiredItems cx.graph n.children) items none

def recordSchema (d : Dialect) (n : Node) (value : Schema) : Schema :=
  ofBody {
    own := { typed "object" with
      extra := if n.keyPattern ≠ "" && d = .openapi then [("x-key-pattern", .string n.keyPattern)] else [] }
    additional := .sub value
    propertyNames := if n.keyPattern ≠ "" && d = .plain then .ofKeywords { pattern := n.keyPattern } else .absent }

def nullSchema : Dialect → Schema
  | .openapi => nullWorkaround
  | .plain => nullBranch

/-- what a node that is no local wrapper is rendered as: `R` gives the renderings of its children, `O` the nodes that
have definitions -/
inductive Forms (cx : Context) (O : List Nat) (R : Nat → Schema → Prop) (n : Node) : Schema → Prop
  | string (hk : n.kind = .string) : Forms cx O R n (textSchema n.textOptions)
  | number (hk : n.kind = .number) : Forms cx O R n (numberSchema cx.options.dialect "number" n.numberOptions)
  | integer (hk : n.kind = .integer) : Forms cx O R n (numberSchema cx.options.dialect "integer" n.numberOptions)
  | boolean (hk : n.kind = .boolean) : Forms cx O R n (.ofKeywords (typed "boolean"))
  | null (hk : n.kind = .null) : Forms cx O R n (nullSchema cx.options.dialect)
  | unknown (hk : n.kind = .unknown) : Forms cx O R n .empty
  | object {fs : List (String × Schema)} (hk : n.kind = .object)
      (hlen : n.children.length ≤ n.objectOptions.keys.length)
      (hfs : List.Forall₂ (fun f e => e.1 = f.1 ∧ R f.2 e.2) (n.objectOptions.keys.zip n.children) fs) :
      Forms cx O R n (objectSchema cx n fs)
  | array {c : Nat} {s : Schema} (hk : n.kind = .array) (hc : n.children = [c]) (hs : R c s) :
      Forms cx O R n (arraySchema n s)
  | tuple {ss : List Schema} (hk : n.kind = .tuple) (hss : List.Forall₂ R n.children ss)
      (hrest : n.hasRest = true → ss ≠ []) : Forms cx O R n (restSchema cx n ss)
  | record {c : Nat} {s : Schema} (hk : n.kind = .record) (hc : n.children = [c]) (hs : R c s) :
      Forms cx O R n (recordSchema cx.options.dialect n s)
  | union {ss : List Schema} (hk : n.kind = .union) (hd : n.discriminator = "") (hss : List.Forall₂ R n.children ss) :
      Forms cx O R n (ofBody { anyOf := some ss })
  | choice {ss : List Schema} {disc : Discriminator} (hk : n.kind = .union) (hd : n.discriminator ≠ "")
      (hss : List.Forall₂ R n.children ss)
      (hdisc : discriminatorOf cx n n.discriminator 0 [] (n.children.zip ss) = .ok disc) :
      Forms cx O R n (ofBody { own := { discriminator := some disc }, oneOf := some ss })
  | intersection {ss : List Schema} (hk : n.kind = .intersection) (hss : List.Forall₂ R n.children ss) :
      Forms cx O R n (ofBody { allOf := some ss })
  | enum {s : Schema} (hk : n.kind = .enum) (hs : enumSchema cx.options.dialect n = .ok s) : Forms cx O R n s
  | const (hk : n.kind = .const) : Forms cx O R n (constSchema cx.options.dialect n.constValue)
  | self {t : Nat} (hk : n.kind = .ref) (hc : n.children = [t]) (ht : t ∈ cx.self) : Forms cx O R n (.reference "#")
  | definition {t : Nat} (hk : n.kind = .ref) (hc : n.children = [t]) (ht : t ∉ cx.self) (ho : t ∈ O) :
      Forms cx O R n (.reference (pointer t))
  | validator {c : Nat} {s : Schema} (hk : n.kind = .validator) (hc : n.children = [c]) (hs : R c s) : Forms cx O R n s
  | custom {s : Schema} (hk : n.kind = .custom) (hs : customSchema cx.options.fetcher n = .ok s) : Forms cx O R n s

/-- a schema that accepts null too, when one of the wrappers says so -/
def widened (d : Dialect) (wrappers : List Node) (s : Schema) : Outcome Schema :=
  if wrappers.any (·.kind = .nullable) then nullable d s else .ok s

/-- a schema with the annotations of nodes -/
def annotated (d : Dialect) (ns : List Node) (s : Schema) : Schema := ns.foldl (fun s n => annotate d n.info s) s

/-- what a node with its local wrappers is rendered as, when `F` gives the rendering of the node below them -/
inductive Wrapped (cx : Context) (F : Node → Schema → Prop) (id : Nat) : Schema → Prop
  | intro {wrappers : List Node} {last : Node} {s s' : Schema}
      (chain : cx.graph.localChain id = (wrappers, some last)) (node : F last s)
      (wide : widened cx.options.dialect wrappers s = .ok s') :
      Wrapped cx F id (annotated cx.options.dialect (wrappers ++ [last]) s')

/-- what a node is rendered as, nesting at most `depth` deep -/
def Renders (cx : Context) (O : List Nat) : (depth : Nat) → Nat → Schema → Prop
  | 0, _, _ => False
  | depth + 1, id, s => Wrapped cx (Forms cx O (Renders cx O depth)) id s

theorem Forms.mono {cx : Context} {O O' : List Nat} {R R' : Nat → Schema → Prop} (hO : O ⊆ O')
    (hR : ∀ {id s}, R id s → R' id s) {n : Node} {s : Schema} (h : Forms cx O R n s) : Forms cx O' R' n s := by
  have hall {ids : List Nat} {ss : List Schema} (h : List.Forall₂ R ids ss) : List.Forall₂ R' ids ss :=
    h.imp fun _ _ => hR
  cases h with
  | string hk => exact .string hk
  | number hk => exact .number hk
  | integer hk => exact .integer hk
  | boolean hk => exact .boolean hk
  | null hk => exact .null hk
  | unknown hk => exact .unknown hk
  | object hk hlen hfs => exact .object hk hlen (hfs.imp fun _ _ h => ⟨h.1, hR h.2⟩)
  | array hk hc hs => exact .array hk hc (hR hs)
  | tuple hk hss hrest => exact .tuple hk (hall hss) hrest
  | record hk hc hs => exact .record hk hc (hR hs)
  | union hk hd hss => exact .union hk hd (hall hss)
  | choice hk hd hss hdisc => exact .choice hk hd (hall hss) hdisc
  | intersection hk hss => exact .intersection hk (hall hss)
  | enum hk hs => exact .enum hk hs
  | const hk => exact .const hk
  | self hk hc ht => exact .self hk hc ht
  | definition hk hc ht ho => exact .definition hk hc ht (hO ho)
  | validator hk hc hs => exact .validator hk hc (hR hs)
  | custom hk hs => exact .custom hk hs

theorem Wrapped.mono {cx : Context} {F F' : Node → Schema → Prop} (hF : ∀ {n s}, F n s → F' n s) {id : Nat} {s : Schema}
    (h : Wrapped cx F id s) : Wrapped cx F' id s := by
  obtain ⟨chain, node, wide⟩ := h
  exact ⟨chain, hF node, wide⟩

theorem Renders.mono {cx : Context} {O O' : List Nat} (hO : O ⊆ O') {d id : Nat} {s : Schema}
    (h : Renders cx O d id s) : Renders cx O' d id s := by
  induction d generalizing id s with
  | zero => exact h
  | succ d ih => exact Wrapped.mono (Forms.mono hO ih) h

/-! ## References of renderings -/

theorem references_annotate {d : Dialect} {m : Meta} {s : Schema} {r : String} :
    r ∈ (annotate d m s).references ↔ r ∈ s.references := by
  unfold annotate
  refine Schema.references_mapOwn fun k => ?_
  rfl

theorem references_annotated {d : Dialect} {ns : List Node} {s : Schema} {r : String} :
    r ∈ (annotated d ns s).references ↔ r ∈ s.references := by
  induction ns generalizing s with
  | nil => rfl
  | cons n ns ih =>
    rw [annotated, List.foldl_cons, ← annotated, ih]
    exact references_annotate

theorem references_nullBranch : nullBranch.references = [] := rfl

theorem mem_references_orNull {s : Schema} {r : String} : r ∈ (orNull s).references ↔ r ∈ s.references := by
  simp [orNull, Schema.mem_references_ofBody, Schema.mem_below, Schema.Extent.toList, Schema.Items.toList,
    Schema.Beyond.ofExtent, Schema.Beyond.toList, Schema.Elements.ofItems, Schema.Elements.toList, references_nullBranch]

theorem mem_withNull {ss ss' : List Schema} (h : withNull ss = .ok ss') {s : Schema} (hs : s.references ≠ []) :
    s ∈ ss' ↔ s ∈ ss := by
  have hnull : s ≠ nullBranch := by
    rintro rfl
    exact hs references_nullBranch
  obtain ⟨b, -, h⟩ := except_bind_ok h
  cases b <;> cases h <;> simp [hnull]

/-- what has no references does not count -/
theorem references_congr {b b' : Body} (hown : b'.own.ref = b.own.ref)
    (hbelow : ∀ s : Schema, s.references ≠ [] → (s ∈ b'.below ↔ s ∈ b.below)) {r : String} :
    r ∈ (ofBody b').references ↔ r ∈ (ofBody b).references := by
  rw [Schema.mem_references_ofBody, Schema.mem_references_ofBody, hown]
  refine or_congr_right (exists_congr fun s => and_congr_left fun hr => hbelow s ?_)
  exact List.ne_nil_of_mem hr

theorem references_plainNullable {s s' : Schema} (h : plainNullable s = .ok s') {r : String} :
    r ∈ s'.references ↔ r ∈ s.references := by
  obtain rfl | ⟨b, rfl⟩ := Schema.eq_absent_or_ofBody s
  · cases h
    rfl
  · unfold plainNullable at h
    change (if b.own.ref ≠ "" then .ok (orNull (ofBody b)) else _) = Except.ok s' at h
    by_cases href : b.own.ref ≠ ""
    · rw [if_pos href] at h
      cases h
      exact mem_references_orNull
    · rw [if_neg href] at h
      split at h
      · cases h
        rfl
      · cases h
        exact references_congr rfl fun _ _ => Iff.rfl
      · cases h
        exact references_congr rfl fun _ _ => Iff.rfl
      · split at h
        · cases h
          exact references_congr rfl fun _ _ => Iff.rfl
        · rename_i hany
          obtain ⟨ss, hss, h⟩ := except_bind_ok h
          cases h
          change r ∈ (ofBody { b with anyOf := some ss }).references ↔ _
          refine references_congr (by rfl) fun s hs => ?_
          have hany : b.anyOf = some _ := hany
          simp only [Schema.mem_below, hany, Option.getD_some, mem_withNull hss hs]
        · rename_i hone
          obtain ⟨ss, hss, h⟩ := except_bind_ok h
          cases h
          change r ∈ (ofBody { b with oneOf := some ss }).references ↔ _
          refine references_congr (by rfl) fun s hs => ?_
          have hone : b.oneOf = some _ := hone
          simp only [Schema.mem_below, hone, Option.getD_some, mem_withNull hss hs]
        · cases h
          exact mem_references_orNull
        · cases h
          rfl

theorem references_openapiNullable {s : Schema} {r : String} : r ∈ (openapiNullable s).references ↔ r ∈ s.references := by
  unfold openapiNullable
  split
  · simp [Schema.mem_references_ofBody, Schema.mem_below, Schema.Extent.toList, Schema.Items.toList,
      Schema.Beyond.ofExtent, Schema.Beyond.toList, Schema.Elements.ofItems, Schema.Elements.toList]
  · refine Schema.references_mapOwn fun k => ?_
    rfl

theorem references_nullable {d : Dialect} {s s' : Schema} (h : nullable d s = .ok s') {r : String} :
    r ∈ s'.references ↔ r ∈ s.references := by
  cases d with
  | plain => exact references_plainNullable h
  | openapi =>
    cases h
    exact references_openapiNullable

theorem references_widened {d : Dialect} {ws : List Node} {s s' : Schema} (h : widened d ws s = .ok s') {r : String} :
    r ∈ s'.references ↔ r ∈ s.references := by
  unfold widened at h
  split at h
  · exact references_nullable h
  · cases h
    rfl

section Forms

attribute [local simp] Schema.mem_references_ofBody Schema.mem_below Schema.Extent.toList Schema.Items.toList
  Schema.Beyond.ofExtent Schema.Beyond.toList Schema.Elements.ofItems Schema.Elements.toList
  Schema.mem_references_ofKeywords

variable {cx : Context} {n : Node} {s : Schema} {ss : List Schema} {r : String}

theorem mem_references_object {fs : List (String × Schema)} :
    r ∈ (objectSchema cx n fs).references ↔ ∃ s ∈ (Dict.ofList fs).map (·.2), r ∈ s.references := by
  simp [objectSchema, typed]

theorem mem_references_array : r ∈ (arraySchema n s).references ↔ r ∈ s.references := by
  simp [arraySchema, typed]

theorem mem_references_record {d : Dialect} : r ∈ (recordSchema d n s).references ↔ r ∈ s.references := by
  simp only [recordSchema, typed, Schema.mem_references_ofBody, Schema.mem_below]
  split <;> simp

theorem mem_references_tuple {d : Dialect} {k : Nat} {rest : Option Schema} :
    r ∈ (tupleSchema d k ss rest).references ↔ ∃ s ∈ ss ++ rest.toList, r ∈ s.references := by
  cases d <;> cases rest <;> simp [tupleSchema, typed]

theorem mem_references_rest (h : n.hasRest = true → ss ≠ []) :
    r ∈ (restSchema cx n ss).references ↔ ∃ s ∈ ss, r ∈ s.references := by
  unfold restSchema
  split
  · rename_i hrest
    rw [mem_references_tuple, List.getLast?_eq_getLast_of_ne_nil (h hrest), Option.toList_some, List.dropLast_append_getLast]
  · rw [mem_references_tuple]
    simp

theorem mem_references_anyOf : r ∈ (ofBody { anyOf := some ss }).references ↔ ∃ s ∈ ss, r ∈ s.references := by
  simp

theorem mem_references_oneOf {disc : Discriminator} :
    r ∈ (ofBody { own := { discriminator := some disc }, oneOf := some ss }).references ↔ ∃ s ∈ ss, r ∈ s.references := by
  simp

theorem mem_references_allOf : r ∈ (ofBody { allOf := some ss }).references ↔ ∃ s ∈ ss, r ∈ s.references := by
  simp

theorem references_text (o : TextOptions) : r ∉ (textSchema o).references := by
  simp [textSchema, typed]

theorem references_number (d : Dialect) (t : String) (o : NumberOptions) : r ∉ (numberSchema d t o).references := by
  cases d <;> simp [numberSchema, typed]

theorem references_null (d : Dialect) : r ∉ (nullSchema d).references := by
  cases d <;> simp [nullSchema, nullWorkaround, nullBranch]

theorem references_withType (k : Keywords) (t : String) : (withType k t).ref = k.ref := by
  unfold withType
  split <;> rfl

theorem references_enum {d : Dialect} (h : enumSchema d n = .ok s) : r ∉ s.references := by
  unfold enumSchema at h
  simp only at h
  split at h
  · cases h
  · split at h
    · cases h
      simp [nullWorkaround]
    · cases h
      split
      · cases d <;> simp [references_withType]
      · simp [references_withType]

theorem references_const (d : Dialect) (v : Value) : r ∉ (constSchema d v).references := by
  cases d with
  | plain => simp [constSchema]
  | openapi =>
    unfold constSchema
    simp only
    split <;> simp [nullWorkaround, references_withType]

end Forms

/-! ## Nodes on the way -/

/-- kinds whose children are rendered -/
def composite : Kind → Bool
  | .object | .array | .tuple | .record | .union | .intersection | .optional | .nullable | .ref | .validator => true
  | _ => false

/-- rendering goes from a node to a child of it -/
def Descends (g : Graph) (a b : Nat) : Prop := ∃ n, g.get? a = some n ∧ composite n.kind = true ∧ b ∈ n.children

/-- rendering a node reaches another -/
def Reaches (g : Graph) : Nat → Nat → Prop := Relation.ReflTransGen (Descends g)

/-- a node is a reference to another -/
def RefersTo (g : Graph) (r t : Nat) : Prop := ∃ n, g.get? r = some n ∧ n.kind = .ref ∧ n.children = [t]

/-- a reference to a node is reached from one of the others -/
def Sought (g : Graph) (ids : List Nat) (t : Nat) : Prop := ∃ id ∈ ids, ∃ r, Reaches g id r ∧ RefersTo g r t

theorem Sought.mono {g : Graph} {ids ids' : List Nat} (h : ids ⊆ ids') {t : Nat} (ht : Sought g ids t) : Sought g ids' t := by
  obtain ⟨id, hid, ht⟩ := ht
  exact ⟨id, h hid, ht⟩

/-- what is sought from the children of a node is sought from the node -/
theorem Sought.above {g : Graph} {id : Nat} {n : Node} (hn : g.get? id = some n) (hk : composite n.kind = true) {t : Nat}
    (ht : Sought g n.children t) : Sought g [id] t := by
  obtain ⟨c, hc, r, hr, ht⟩ := ht
  exact ⟨id, by simp, r, .head ⟨n, hn, hk, hc⟩ hr, ht⟩

/-! ## Runs -/

/-- what rendering the nodes `ids` to `ss` does to the state: the nodes `new` get the definitions `bs` -/
structure Run (cx : Context) (s s' : State) (ids : List Nat) (ss : List Schema) (new : List Nat)
    (bs : List (Nat × Schema)) : Prop where
  order : s'.order = s.order ++ new
  bodies : s'.bodies = s.bodies ++ bs
  hoist : s'.hoist = s.hoist
  nodup : s.order.Nodup → s'.order.Nodup
  /-- every new definition has one body -/
  keys : (bs.map (·.1)).Perm new
  rendered : ∀ e ∈ bs, ∃ d, Renders cx s'.order d e.1 e.2
  /-- every new definition is referred to -/
  referenced : ∀ t ∈ new, ∃ S ∈ ss ++ bs.map (·.2), pointer t ∈ S.references
  sought : ∀ t ∈ new, Sought cx.graph ids t
  registry : s.registry.Inline cx.options.path s.order → s'.registry.Inline cx.options.path s'.order

/-- the state changes as in a run -/
def Ran (cx : Context) (s s' : State) (ids : List Nat) (ss : List Schema) : Prop := ∃ new bs, Run cx s s' ids ss new bs

variable {cx : Context} {s s' s'' : State} {ids ids' : List Nat} {ss ss' : List Schema}

theorem Ran.refl (cx : Context) (s : State) : Ran cx s s [] [] :=
  ⟨[], [], by simp, by simp, rfl, id, .nil, by simp, by simp, by simp, id⟩

theorem Ran.order (h : Ran cx s s' ids ss) : s.order ⊆ s'.order := by
  obtain ⟨new, bs, h⟩ := h
  rw [h.order]
  exact List.subset_append_left _ _

theorem Ran.hoist (h : Ran cx s s' ids ss) : s'.hoist = s.hoist := by
  obtain ⟨new, bs, h⟩ := h
  exact h.hoist

theorem Ran.trans (h : Ran cx s s' ids ss) (h' : Ran cx s' s'' ids' ss') : Ran cx s s'' (ids ++ ids') (ss ++ ss') := by
  have hsub := h'.order
  obtain ⟨new, bs, h⟩ := h
  obtain ⟨new', bs', h'⟩ := h'
  refine ⟨new ++ new', bs ++ bs', ?_, ?_, h'.hoist.trans h.hoist, fun hn => h'.nodup (h.nodup hn), ?_, ?_, ?_, ?_,
    fun hr => h'.registry (h.registry hr)⟩
  · rw [h'.order, h.order, List.append_assoc]
  · rw [h'.bodies, h.bodies, List.append_assoc]
  · rw [List.map_append]
    exact h.keys.append h'.keys
  · intro e he
    rcases List.mem_append.1 he with he | he
    · obtain ⟨d, hd⟩ := h.rendered e he
      exact ⟨d, hd.mono hsub⟩
    · exact h'.rendered e he
  · intro t ht
    rcases List.mem_append.1 ht with ht | ht
    · obtain ⟨S, hS, hr⟩ := h.referenced t ht
      refine ⟨S, ?_, hr⟩
      simp only [List.mem_append, List.map_append] at hS ⊢
      tauto
    · obtain ⟨S, hS, hr⟩ := h'.referenced t ht
      refine ⟨S, ?_, hr⟩
      simp only [List.mem_append, List.map_append] at hS ⊢
      tauto
  · intro t ht
    rcases List.mem_append.1 ht with ht | ht
    · exact (h.sought t ht).mono (List.subset_append_left _ _)
    · exact (h'.sought t ht).mono (List.subset_append_right _ _)

/-- the run of the children of a node is a run of the node, if its rendering keeps their references -/
theorem Ran.above (h : Ran cx s s' ids ss) {S : Schema} (hs : ∀ s ∈ ss, s.references ⊆ S.references)
    (hids : ∀ t, Sought cx.graph ids t → Sought cx.graph ids' t) : Ran cx s s' ids' [S] := by
  obtain ⟨new, bs, h⟩ := h
  refine ⟨new, bs, { h with referenced := fun t ht => ?_, sought := fun t ht => hids t (h.sought t ht) }⟩
  obtain ⟨T, hT, hr⟩ := h.referenced t ht
  rcases List.mem_append.1 hT with hT | hT
  · exact ⟨S, by simp, hs T hT hr⟩
  · exact ⟨T, List.mem_append_right _ hT, hr⟩

/-! ## The renderer, part by part -/

/-- rendering a node gives what `R` says, and is a run -/
def Good (cx : Context) (R : List Nat → Nat → Schema → Prop) (descend : Descend) : Prop :=
  ∀ id s S s', s.hoist = none → descend id s = (.ok S, s') → R s'.order id S ∧ Ran cx s s' [id] [S]

/-- what nodes are rendered as stays right when there are more definitions -/
def Monotone (R : List Nat → Nat → Schema → Prop) : Prop := ∀ O O' id S, O ⊆ O' → R O id S → R O' id S

variable {R : List Nat → Nat → Schema → Prop} {descend : Descend}

theorem renderAll_run (hR : Monotone R) (hgood : Good cx R descend) {n : Node} {cs : List Nat} {out : List Schema}
    (hs : s.hoist = none) (h : renderAll cx descend n cs s = (.ok out, s')) :
    List.Forall₂ (R s'.order) cs out ∧ Ran cx s s' cs out := by
  induction cs generalizing s out with
  | nil =>
    cases h
    exact ⟨.nil, .refl cx _⟩
  | cons c cs ih =>
    rw [renderAll] at h
    cases hc : cx.graph.get? c with
    | none =>
      rw [hc] at h
      cases h
    | some m =>
      rw [hc] at h
      obtain ⟨S, u, hS, h⟩ := Steps.bind_ok h
      obtain ⟨rest, v, hrest, h⟩ := Steps.bind_ok h
      cases h
      obtain ⟨hc, hrun⟩ := hgood _ _ _ _ hs hS
      obtain ⟨hcs, hruns⟩ := ih (hrun.hoist.trans hs) hrest
      exact ⟨.cons (hR _ _ _ _ hruns.order hc) hcs, hrun.trans hruns⟩

theorem sole_eq (hg : cx.graph.Numbered) {n m : Node} (h : cx.graph.sole n = .ok m) : n.children = [m.id] := by
  unfold Graph.sole at h
  split at h
  · rename_i c hc
    split at h
    · rename_i k hk
      cases h
      rw [hc, hg c _ hk]
    · cases h
  · cases h

theorem lift_ok {α : Type} {o : Outcome α} {a : α} (h : lift o s = (.ok a, s')) : o = .ok a ∧ s = s' :=
  Prod.mk.inj h

theorem renderSole_run (hg : cx.graph.Numbered) (hgood : Good cx R descend) {n : Node} {S : Schema}
    (hs : s.hoist = none) (h : renderSole cx descend n s = (.ok S, s')) :
    ∃ c, n.children = [c] ∧ R s'.order c S ∧ Ran cx s s' n.children [S] := by
  obtain ⟨m, u, hm, h⟩ := Steps.bind_ok h
  obtain ⟨hsole, rfl⟩ := lift_ok hm
  have hc := sole_eq hg hsole
  obtain ⟨hR, hrun⟩ := hgood _ _ _ _ hs h
  exact ⟨m.id, hc, hR, hc ▸ hrun⟩

theorem renderFields_run (hR : Monotone R) (hgood : Good cx R descend) {n : Node} {keys : List String} {cs : List Nat}
    {fs : List (String × Schema)} {required : List String} (hs : s.hoist = none)
    (h : renderFields cx descend n keys cs s = (.ok (fs, required), s')) :
    cs.length ≤ keys.length ∧ List.Forall₂ (fun f e => e.1 = f.1 ∧ R s'.order f.2 e.2) (keys.zip cs) fs ∧
      required = requiredKeys cx.graph (keys.zip cs) ∧ Ran cx s s' cs (fs.map (·.2)) := by
  induction cs generalizing s keys fs required with
  | nil =>
    cases keys <;> cases h <;> exact ⟨by simp, by simp, by simp [requiredKeys], .refl cx _⟩
  | cons c cs ih =>
    cases keys with
    | nil => cases h
    | cons key keys =>
      rw [renderFields] at h
      cases hc : cx.graph.get? c with
      | none =>
        rw [hc] at h
        cases h
      | some m =>
        rw [hc] at h
        obtain ⟨S, u, hS, h⟩ := Steps.bind_ok h
        obtain ⟨⟨rest, req⟩, v, hrest, h⟩ := Steps.bind_ok h
        cases h
        obtain ⟨hc, hrun⟩ := hgood _ _ _ _ hs hS
        obtain ⟨hlen, hcs, hreq, hruns⟩ := ih (hrun.hoist.trans hs) hrest
        refine ⟨by simpa using hlen, .cons ⟨rfl, hR _ _ _ _ hruns.order hc⟩ hcs, ?_, hrun.trans hruns⟩
        rw [hreq, List.zip_cons_cons, requiredKeys, requiredKeys]
        cases hopt : cx.graph.isOptional c <;> simp [hopt]

theorem reserve_taken {id : Nat} (h : reserve cx id s = (.ok false, s')) : s' = s ∧ id ∈ s.order := by
  unfold reserve at h
  split at h
  · rename_i hc
    cases h
    exact ⟨rfl, by simpa using hc⟩
  · simp only at h
    split at h <;> cases h

theorem reserve_new {id : Nat} (h : reserve cx id s = (.ok true, s')) :
    id ∉ s.order ∧ s'.order = s.order ++ [id] ∧ s'.bodies = s.bodies ∧ s'.hoist = s.hoist ∧
      (s.registry.Inline cx.options.path s.order → s'.registry.Inline cx.options.path s'.order) := by
  unfold reserve at h
  split at h
  · cases h
  · rename_i hc
    have hid : id ∉ s.order := by simpa using hc
    simp only at h
    split at h
    · rename_i r changed hd
      cases h
      exact ⟨hid, rfl, rfl, rfl, fun hr => hr.declare hd⟩
    · cases h

/-- **Definitions.** The place is taken, the body is rendered if it was free before, and the result is a reference to
it. -/
theorem define_run (hgood : Good cx R descend) (hR : ∀ O id S, R O id S → ∃ d, Renders cx O d id S) {t r : Nat}
    {S : Schema} (hs : s.hoist = none) (href : RefersTo cx.graph r t)
    (h : define cx descend t s = (.ok S, s')) :
    S = .reference (pointer t) ∧ t ∈ s'.order ∧ Ran cx s s' [r] [S] := by
  obtain ⟨fresh, u, hu, hrest⟩ := Steps.bind_ok h
  cases fresh with
  | false =>
    obtain ⟨rfl, ht⟩ := reserve_taken hu
    cases hrest
    exact ⟨rfl, ht, (Ran.refl cx _).above (by simp) (by simp [Sought])⟩
  | true =>
    obtain ⟨ht, horder, hbodies, hhoist, hregistry⟩ := reserve_new hu
    obtain ⟨body, v, hv, hrest⟩ := Steps.bind_ok hrest
    cases hrest
    obtain ⟨hbody, new, bs, hrun⟩ := hgood _ _ _ _ (hhoist.trans hs) hv
    have hself : t ∈ v.order := by simp [hrun.order, horder]
    refine ⟨rfl, hself, t :: new, bs ++ [(t, body)], ?_, ?_, hrun.hoist.trans hhoist, ?_, ?_, ?_, ?_, ?_,
      fun hi => hrun.registry (hregistry hi)⟩
    · change v.order = _
      simp [hrun.order, horder]
    · change v.bodies ++ [(t, body)] = _
      simp [hrun.bodies, hbodies]
    · intro hn
      refine hrun.nodup ?_
      rw [horder]
      exact List.nodup_append.2 ⟨hn, by simp, by simpa using fun a ha => by rintro rfl; exact ht ha⟩
    · rw [List.map_append]
      exact (hrun.keys.append_right [t]).trans (List.perm_append_singleton t new)
    · intro e he
      rcases List.mem_append.1 he with he | he
      · exact hrun.rendered e he
      · obtain rfl := List.mem_singleton.1 he
        exact hR _ _ _ hbody
    · intro k hk
      rcases List.mem_cons.1 hk with rfl | hk
      · exact ⟨_, List.mem_append_left _ (List.mem_singleton.2 rfl), Schema.mem_references_reference.2 ⟨by simp [pointer], rfl⟩⟩
      · obtain ⟨T, hT, hk⟩ := hrun.referenced k hk
        refine ⟨T, List.mem_append_right _ ?_, hk⟩
        simp only [List.mem_append, List.mem_singleton, List.map_append, List.map_cons, List.map_nil] at hT ⊢
        tauto
    · intro k hk
      obtain ⟨n, hn, hkind, hc⟩ := href
      rcases List.mem_cons.1 hk with rfl | hk
      · exact ⟨r, by simp, r, .refl, n, hn, hkind, hc⟩
      · have := hrun.sought k hk
        rw [← hc] at this
        exact this.above hn (by rw [hkind]; rfl)

/-- a node that renders nothing else leaves the state alone -/
theorem ran_leaf (cx : Context) (s : State) (id : Nat) (S : Schema) : Ran cx s s [id] [S] :=
  (Ran.refl cx s).above (by simp) (by simp [Sought])

theorem keys_zip_sublist (keys : List String) (cs : List Nat) : ((keys.zip cs).map (·.1)).Sublist keys := by
  induction keys generalizing cs with
  | nil => simp
  | cons k keys ih =>
    cases cs with
    | nil => simp
    | cons c cs => exact (ih cs).cons_cons k

/-- the renderings of an object have the names of its fields -/
theorem names_fields {P : Nat → Schema → Prop} {fields : List (String × Nat)} {fs : List (String × Schema)}
    (h : List.Forall₂ (fun f e => e.1 = f.1 ∧ P f.2 e.2) fields fs) : fs.map (·.1) = fields.map (·.1) := by
  induction h with
  | nil => rfl
  | cons he _ ih => rw [List.map_cons, List.map_cons, he.1, ih]

/-- of fields with different keys none is lost -/
theorem mem_ofList_fields {keys : List String} (hk : keys.Nodup) {cs : List Nat} {fs : List (String × Schema)}
    {P : Nat → Schema → Prop} (h : List.Forall₂ (fun f e => e.1 = f.1 ∧ P f.2 e.2) (keys.zip cs) fs) {e : String × Schema}
    (he : e ∈ fs) : e ∈ Dict.ofList fs := by
  have hnodup : (fs.map (·.1)).Nodup := by
    rw [names_fields h]
    exact hk.sublist (keys_zip_sublist keys cs)
  refine (Dict.get?_eq_some (Dict.sorted_ofList _).nodup).1 ?_
  rw [Dict.get?_ofList, Dict.get?_reverse hnodup]
  exact (Dict.get?_eq_some hnodup).2 he

/-- no object names a key twice -/
def DistinctKeys (g : Graph) : Prop := ∀ id n, g.get? id = some n → n.kind = .object → n.objectOptions.keys.Nodup

/-- **One node.** A node is rendered from its children, and the run is theirs. -/
theorem renderNode_run (hg : cx.graph.Numbered) (hkeys : DistinctKeys cx.graph) (hR : Monotone R)
    (hgood : Good cx R descend) (hbody : ∀ O id S, R O id S → ∃ d, Renders cx O d id S) {n : Node}
    (hn : cx.graph.get? n.id = some n) {S : Schema} (hs : s.hoist = none)
    (h : renderNode cx descend n s = (.ok S, s')) : Forms cx s'.order (R s'.order) n S ∧ Ran cx s s' [n.id] [S] := by
  have habove {ss : List Schema} (hk : composite n.kind = true) (hrun : Ran cx s s' n.children ss)
      (href : ∀ s ∈ ss, s.references ⊆ S.references) : Ran cx s s' [n.id] [S] :=
    hrun.above href fun t ht => ht.above hn hk
  unfold renderNode at h
  cases hk : n.kind <;> simp only [hk] at h
  case string =>
    cases h
    exact ⟨.string hk, ran_leaf cx _ _ _⟩
  case number =>
    cases h
    exact ⟨.number hk, ran_leaf cx _ _ _⟩
  case integer =>
    cases h
    exact ⟨.integer hk, ran_leaf cx _ _ _⟩
  case boolean =>
    cases h
    exact ⟨.boolean hk, ran_leaf cx _ _ _⟩
  case null =>
    cases h
    exact ⟨.null hk, ran_leaf cx _ _ _⟩
  case unknown =>
    cases h
    exact ⟨.unknown hk, ran_leaf cx _ _ _⟩
  case object =>
    obtain ⟨⟨fs, required⟩, u, hfs, hret⟩ := Steps.bind_ok h
    obtain ⟨hlen, hfields, rfl, hrun⟩ := renderFields_run hR hgood hs hfs
    cases hret
    refine ⟨.object hk hlen hfields, habove (by rw [hk]; rfl) hrun ?_⟩
    rintro T hT r hr
    obtain ⟨e, he, rfl⟩ := List.mem_map.1 hT
    have hin := mem_ofList_fields (hkeys _ _ hn hk) hfields he
    exact mem_references_object.2 ⟨e.2, List.mem_map_of_mem hin, hr⟩
  case array =>
    obtain ⟨item, u, hitem, hret⟩ := Steps.bind_ok h
    obtain ⟨c, hc, hitem, hrun⟩ := renderSole_run hg hgood hs hitem
    cases hret
    refine ⟨.array hk hc hitem, habove (by rw [hk]; rfl) hrun ?_⟩
    rintro T hT r hr
    obtain rfl := List.mem_singleton.1 hT
    exact mem_references_array.2 hr
  case tuple =>
    obtain ⟨items, u, hitems, hret⟩ := Steps.bind_ok h
    obtain ⟨hss, hrun⟩ := renderAll_run hR hgood hs hitems
    obtain ⟨rfl, rfl, hrest⟩ : S = restSchema cx n items ∧ u = s' ∧ (n.hasRest = true → items ≠ []) := by
      unfold restSchema
      split at hret
      · rename_i hr
        rw [if_pos hr]
        cases hlast : items.getLast? with
        | none => rw [hlast] at hret; cases hret
        | some rest =>
          rw [hlast] at hret
          cases hret
          exact ⟨rfl, rfl, fun _ hnil => by simp [hnil] at hlast⟩
      · rename_i hr
        rw [if_neg hr]
        cases hret
        exact ⟨rfl, rfl, fun h => absurd h hr⟩
    exact ⟨.tuple hk hss hrest, habove (by rw [hk]; rfl) hrun fun T hT r hr =>
      (mem_references_rest hrest).2 ⟨T, hT, hr⟩⟩
  case record =>
    obtain ⟨item, u, hitem, hret⟩ := Steps.bind_ok h
    obtain ⟨c, hc, hitem, hrun⟩ := renderSole_run hg hgood hs hitem
    cases hret
    refine ⟨.record hk hc hitem, habove (by rw [hk]; rfl) hrun ?_⟩
    rintro T hT r hr
    obtain rfl := List.mem_singleton.1 hT
    exact mem_references_record.2 hr
  case union =>
    obtain ⟨items, u, hitems, hret⟩ := Steps.bind_ok h
    obtain ⟨hss, hrun⟩ := renderAll_run hR hgood hs hitems
    split at hret
    · rename_i hd
      cases hret
      exact ⟨.union hk hd hss, habove (by rw [hk]; rfl) hrun fun T hT r hr => mem_references_anyOf.2 ⟨T, hT, hr⟩⟩
    · rename_i hd
      obtain ⟨⟨⟩, v, hv, hret⟩ := Steps.bind_ok hret
      obtain ⟨disc, w, hw, hret⟩ := Steps.bind_ok hret
      obtain ⟨hdisc, rfl⟩ := lift_ok hw
      cases hret
      cases hv
      have hrun' : Ran cx s { u with discriminator := true } n.children items := by
        obtain ⟨new, bs, h⟩ := hrun
        exact ⟨new, bs, { h with }⟩
      exact ⟨.choice hk hd hss hdisc, habove (by rw [hk]; rfl) hrun' fun T hT r hr => mem_references_oneOf.2 ⟨T, hT, hr⟩⟩
  case intersection =>
    obtain ⟨items, u, hitems, hret⟩ := Steps.bind_ok h
    obtain ⟨hss, hrun⟩ := renderAll_run hR hgood hs hitems
    cases hret
    exact ⟨.intersection hk hss, habove (by rw [hk]; rfl) hrun fun T hT r hr => mem_references_allOf.2 ⟨T, hT, hr⟩⟩
  case enum =>
    obtain ⟨hS, rfl⟩ := lift_ok h
    exact ⟨.enum hk hS, ran_leaf cx _ _ _⟩
  case const =>
    cases h
    exact ⟨.const hk, ran_leaf cx _ _ _⟩
  case ref =>
    obtain ⟨t, u, ht, hret⟩ := Steps.bind_ok h
    obtain ⟨hsole, rfl⟩ := lift_ok ht
    have hc := sole_eq hg hsole
    split at hret
    · rename_i hself
      cases hret
      exact ⟨.self hk hc (by simpa using hself), ran_leaf cx _ _ _⟩
    · rename_i hself
      obtain ⟨rfl, ho, hrun⟩ := define_run hgood hbody hs ⟨n, hn, hk, hc⟩ hret
      exact ⟨.definition hk hc (by simpa using hself) ho, hrun⟩
  case validator =>
    obtain ⟨c, hc, hS, hrun⟩ := renderSole_run hg hgood hs h
    exact ⟨.validator hk hc hS, habove (by rw [hk]; rfl) hrun fun T hT => by
      obtain rfl := List.mem_singleton.1 hT
      exact List.Subset.refl _⟩
  case custom =>
    obtain ⟨hS, rfl⟩ := lift_ok h
    exact ⟨.custom hk hS, ran_leaf cx _ _ _⟩
  all_goals cases h

theorem localChainFrom_mem {g : Graph} (hg : g.Numbered) {acc ws : List Node} {fuel id : Nat} {last : Node}
    (h : g.localChainFrom acc fuel id = (ws, some last)) : g.get? last.id = some last := by
  induction fuel generalizing acc id with
  | zero => cases h
  | succ fuel ih =>
    rw [Graph.localChainFrom] at h
    cases hn : g.get? id with
    | none => rw [hn] at h; cases h
    | some n =>
      rw [hn] at h
      simp only at h
      split at h
      · cases h
        rw [hg id _ hn]
        exact hn
      · split at h
        · exact ih h
        · cases h

/-- the node below the local wrappers is reached from the outermost -/
theorem localChainFrom_reaches {g : Graph} (hg : g.Numbered) {acc ws : List Node} {fuel id : Nat} {last : Node}
    (h : g.localChainFrom acc fuel id = (ws, some last)) : Reaches g id last.id := by
  induction fuel generalizing acc id with
  | zero => cases h
  | succ fuel ih =>
    rw [Graph.localChainFrom] at h
    cases hn : g.get? id with
    | none => rw [hn] at h; cases h
    | some n =>
      rw [hn] at h
      simp only at h
      split at h
      · cases h
        rw [hg id _ hn]
        exact .refl
      · rename_i hk
        split at h
        · rename_i c hc
          refine .head ⟨n, hn, ?_, by simp [hc]⟩ (ih h)
          cases hkind : n.kind <;> simp_all [Kind.isWrapper, composite]
        · cases h

/-- the node below the local wrappers: a definition if it waits to be hoisted, its own rendering otherwise -/
def renderBelow (cx : Context) (descend : Descend) (last : Node) : RenderM Schema := fun s =>
  if s.hoist = some last.id then define cx descend last.id { s with hoist := none } else renderNode cx descend last s

/-- a rendering is one of the node below the local wrappers, widened and annotated -/
theorem render_ok {d id : Nat} {S : Schema} (h : render cx (d + 1) id s = (.ok S, s')) :
    ∃ wrappers last T W, cx.graph.localChain id = (wrappers, some last) ∧
      renderBelow cx (render cx d) last s = (.ok T, s') ∧ widened cx.options.dialect wrappers T = .ok W ∧
      S = annotated cx.options.dialect (wrappers ++ [last]) W := by
  rw [render] at h
  rcases hchain : cx.graph.localChain id with ⟨wrappers, below⟩
  rw [hchain] at h
  cases below with
  | none => cases h
  | some last =>
    have hrest {x : RenderM Schema} {t : State} (hx : (do
        let s ← x
        if wrappers.any (·.kind = .nullable) then do
          let s ← lift (nullable cx.options.dialect s)
          pure ((wrappers ++ [last]).foldl (fun s n => annotate cx.options.dialect n.info s) s)
        else do
          let s ← pure s
          pure ((wrappers ++ [last]).foldl (fun s n => annotate cx.options.dialect n.info s) s) : RenderM Schema) t =
          (.ok S, s')) :
        ∃ T W, x t = (.ok T, s') ∧ widened cx.options.dialect wrappers T = .ok W ∧
          S = annotated cx.options.dialect (wrappers ++ [last]) W := by
      obtain ⟨T, v, hT, hx⟩ := Steps.bind_ok hx
      unfold widened
      split at hx
      · rename_i hnull
        obtain ⟨W, w, hW, hx⟩ := Steps.bind_ok hx
        obtain ⟨hwide, rfl⟩ := lift_ok hW
        cases hx
        exact ⟨T, W, hT, by rw [if_pos hnull, hwide], rfl⟩
      · rename_i hnull
        cases hx
        exact ⟨T, T, hT, by rw [if_neg hnull], rfl⟩
    obtain ⟨taken, u, hu, h⟩ := Steps.bind_ok h
    refine ⟨wrappers, last, ?_⟩
    unfold takeHoist at hu
    unfold renderBelow
    split at hu
    · rename_i hhoist
      cases hu
      obtain ⟨T, W, hT, hW, hS⟩ := hrest h
      exact ⟨T, W, rfl, by rw [if_pos hhoist, hT], hW, hS⟩
    · rename_i hhoist
      cases hu
      obtain ⟨T, W, hT, hW, hS⟩ := hrest h
      exact ⟨T, W, rfl, by rw [if_neg hhoist, hT], hW, hS⟩

/-- **Rendering.** What a node is rendered as, and what its rendering does to the state. -/
theorem render_run (hg : cx.graph.Numbered) (hkeys : DistinctKeys cx.graph) (d : Nat) :
    Good cx (fun O => Renders cx O d) (render cx d) := by
  induction d with
  | zero =>
    intro id s S s' hs h
    cases h
  | succ d ih =>
    intro id s S s' hs h
    obtain ⟨wrappers, last, T, W, hchain, hT, hwide, rfl⟩ := render_ok h
    rw [renderBelow, hs, if_neg (by simp)] at hT
    obtain ⟨hforms, hrun⟩ := renderNode_run hg hkeys (fun _ _ _ _ hO h => h.mono hO) ih (fun _ _ _ h => ⟨d, h⟩)
      (localChainFrom_mem hg hchain) hs hT
    refine ⟨⟨hchain, hforms, hwide⟩, hrun.above ?_ ?_⟩
    · intro T' hT' r hr
      obtain rfl := List.mem_singleton.1 hT'
      exact references_annotated.2 ((references_widened hwide).2 hr)
    · rintro t ⟨i, hi, r, hr, ht⟩
      obtain rfl := List.mem_singleton.1 hi
      exact ⟨id, by simp, r, (localChainFrom_reaches hg hchain).trans hr, ht⟩

end Schemata.Document
