import Mathlib.Tactic
import Schemata.Program.Lower
import Schemata.Proofs.Schema.References
import Schemata.Proofs.Registry.Names

/-!
Lowering, level by level.

`lower_ofBody` gives the shape of a level from the shapes below it, those of the schemas that it meets (`met`). A level
only stops where it must: `Spares bad` says that an outcome is no stop of some kind, and passes from what a level meets
to the level (`spares_level`). `Linked` says so of failures to find a reference; a document lowers to such an outcome
when all its references lead to definitions that it has (`linked_program`).
-/

namespace Schemata.Lowering

open Schema (Body ofBody)

/-- a shape with the null flag and the rules of its schema -/
def finished (cx : Context) (k : Keywords) (nullable : Bool) (s : Shape) : Outcome Shape := do
  checkedRules k.rules
  return s.mapBase fun base => {
    nullable := base.nullable || nullable || (cx.options.dialect == .openapi && k.nullable)
    rules := base.rules ++ k.rules }

def objectShape (cx : Context) (b : Body) : Outcome Shape := do
  let fields ← lowerOptional cx b.properties
  let (unknown, extra) ← lowerExtent cx b.additional
  if keyPatternOf b ≠ "" then checkedPattern "key pattern" (keyPatternOf b)
  return .object {} fields extra {
    required := sortedSet b.own.required
    unknown := match unknown with
      | none => .allow
      | some true => .checked
      | some false => .strict
    keyPattern := keyPatternOf b }

def arrayShape (cx : Context) (b : Body) : Outcome Shape := do
  match ← lowerItems cx b.items with
  | (none, single) =>
    return .array {} single { minItems := b.own.minItems, maxItems := b.own.maxItems, unique := b.own.uniqueItems }
  | (some shapes, _) =>
    let (open_, rest) ← lowerExtent cx b.additionalItems
    let closed := open_ == some false
    let maxItems := if closed then b.own.maxItems.filter fun (n : Int) => n < shapes.length else b.own.maxItems
    return .tuple {} shapes rest {
      minItems := b.own.minItems.getD 0, maxItems, closed, unique := b.own.uniqueItems }

def typedShape (cx : Context) (b : Body) (t : String) : Outcome Shape :=
  match t with
  | "string" => stringShape cx b.own
  | "number" => numberShape .number b.own
  | "integer" => numberShape .integer b.own
  | "boolean" => .ok (.primitive {} { type := .boolean })
  | "null" => .ok (.primitive {} { type := .null })
  | "object" => objectShape cx b
  | "array" => arrayShape cx b
  | t => failWith (.unsupported ("type " ++ t))

/-- the values that a schema lists -/
def listed (k : Keywords) : List Value :=
  match k.const with
  | some c => [c]
  | none => k.enum.getD []

/-- the dispatch of a schema with the shapes of its alternatives -/
def dispatched (cx : Context) (b : Body) (ones : List Shape) : Outcome Dispatch :=
  if ones.isEmpty then .ok {} else dispatch cx b.own (b.oneOf.getD [])

/-- all that a schema asks for, part by part -/
def partsOf (b : Body) (shapes anys ones : List Shape) (d : Dispatch) (alls : List Shape) : List Shape :=
  valueParts (impliedTypes b) shapes (listed b.own) ++ (if anys.isEmpty then [] else [.anyOf {} anys])
    ++ (if ones.isEmpty then [] else [.oneOf {} ones d]) ++ alls

/-- the shape of a schema that is no reference -/
def bodyShape (cx : Context) (b : Body) : Outcome Shape := do
  let (shapes, nullable) ← typedShapes ((impliedTypes b).length > 1) (typedShape cx b) (impliedTypes b)
  let anys ← lowerGiven cx b.anyOf
  let ones ← lowerGiven cx b.oneOf
  let dispatch ← dispatched cx b ones
  let alls ← lowerGiven cx b.allOf
  finished cx b.own nullable (allShape (partsOf b shapes anys ones dispatch alls))

theorem lower_ofBody (cx : Context) (b : Body) : lower cx (ofBody b) =
    if b.own.ref ≠ "" then reference cx b.own.ref >>= finished cx b.own false else bodyShape cx b := by
  rw [ofBody, lower]
  split
  · rfl
  · refine bind_congr fun x => bind_congr fun anys => bind_congr fun ones => ?_
    cases ones <;> rfl

/-- the tag in a mapping of a variant that is a reference -/
def mapped (d : Discriminator) (ref : String) : Option String :=
  if ref = "" then none else (d.mapping.find? fun e => canonicalRef e.2 == canonicalRef ref).map (·.1)

/-- the constant by which the schema of a variant is told from others -/
def picked (d : Discriminator) : Option Schema → Outcome (Option String)
  | none => .ok none
  | some .absent => abort
  | some v =>
    match Dict.get? (v.body.properties.getD []) d.propertyName with
    | none => .ok none
    | some .absent => abort
    | some p =>
      match p.own.const with
      | some c => .ok (some c.display)
      | none =>
        match p.own.enum with
        | some [c] => .ok (some c.display)
        | _ => .ok none

theorem follow_ofBody (cx : Context) (n : Nat) (b : Body) : follow cx (n + 1) (ofBody b) =
    if b.own.ref = "" then .ok (some (ofBody b)) else (resolve cx b.own.ref).elim (.ok none) (follow cx n) := by
  rw [follow]
  · rw [show (ofBody b).own.ref = b.own.ref from rfl]
    cases resolve cx b.own.ref <;> rfl
  · exact nofun

theorem tag_ofBody (cx : Context) (d : Discriminator) (b : Body) : tag cx d (ofBody b) =
    match mapped d b.own.ref with
    | some t => .ok (some t)
    | none => follow cx 8 (ofBody b) >>= picked d := by
  have hrest : (do
      match ← follow cx 8 (ofBody b) with
      | none => return none
      | some .absent => abort
      | some v =>
        match Dict.get? (v.body.properties.getD []) d.propertyName with
        | none => return none
        | some .absent => abort
        | some p =>
          match p.own.const with
          | some c => return some c.display
          | none =>
            match p.own.enum with
            | some [c] => return some c.display
            | _ => return none : Outcome (Option String)) = follow cx 8 (ofBody b) >>= picked d := by
    refine bind_congr fun o => ?_
    unfold picked
    rfl
  have href : (ofBody b).own.ref = b.own.ref := rfl
  unfold tag mapped
  split
  · rename_i heq
    cases heq
  · simp only [href]
    by_cases hempty : b.own.ref = ""
    · rw [if_neg (by simpa using hempty), if_pos hempty]
      exact hrest
    · rw [if_pos hempty, if_neg hempty]
      cases d.mapping.find? fun e => canonicalRef e.2 == canonicalRef b.own.ref with
      | none => exact hrest
      | some e => rfl

/-! ## What is lowered with a level -/

/-- the schemas of the members of an object -/
def memberSchemas (b : Body) : List Schema := (b.properties.getD []).map (·.2) ++ Schema.Extent.toList b.additional

/-- the schemas of the items of a list -/
def itemSchemas (b : Body) : List Schema :=
  match b.items with
  | .unset => []
  | .single s => if s.isAbsent then [] else [s]
  | .tuple ss => ss ++ Schema.Extent.toList b.additionalItems

/-- the schemas right below a level that the checks of its types need -/
def typedSchemas (b : Body) : List Schema :=
  (if "object" ∈ impliedTypes b then memberSchemas b else []) ++ if "array" ∈ impliedTypes b then itemSchemas b else []

/-- the schemas that a level is composed of -/
def composedSchemas (b : Body) : List Schema := b.anyOf.getD [] ++ b.oneOf.getD [] ++ b.allOf.getD []

/-- the schemas right below a level that are lowered with it; beside a reference there are none -/
def met (b : Body) : List Schema := if b.own.ref ≠ "" then [] else typedSchemas b ++ composedSchemas b

theorem met_reference {b : Body} (h : b.own.ref ≠ "") : met b = [] := if_pos h

theorem met_plain {b : Body} (h : b.own.ref = "") : met b = typedSchemas b ++ composedSchemas b := if_neg (not_not.2 h)

theorem typedSchemas_below {b : Body} {s : Schema} (h : s ∈ typedSchemas b) : s ∈ b.below := by
  rw [Schema.mem_below]
  rcases List.mem_append.1 h with h | h
  · split at h
    · rcases List.mem_append.1 h with h | h <;> simp [h]
    · cases h
  · split at h
    · unfold itemSchemas at h
      split at h
      · cases h
      · rename_i t heq
        split at h
        · cases h
        · obtain rfl : s = t := by simpa using h
          simp [heq, Schema.Items.toList, Schema.Elements.ofItems, Schema.Elements.toList]
      · rename_i ss heq
        rcases List.mem_append.1 h with h | h
        · simp [heq, Schema.Items.toList, Schema.Elements.ofItems, Schema.Elements.toList, h]
        · simp [h]
    · cases h

theorem met_below {b : Body} {s : Schema} (h : s ∈ met b) : s ∈ b.below := by
  unfold met at h
  split at h
  · cases h
  · rcases List.mem_append.1 h with h | h
    · exact typedSchemas_below h
    · rw [Schema.mem_below]
      rcases List.mem_append.1 h with h | h
      · rcases List.mem_append.1 h with h | h <;> simp [h]
      · simp [h]

/-! ## How lowering stops -/

/-- an outcome that is no stop of some kind -/
def Spares {α : Type} (bad : Stop → Prop) (o : Outcome α) : Prop := ∀ e, o = .error e → ¬ bad e

section

variable {α β : Type} {bad : Stop → Prop}

theorem spares_ok (a : α) : Spares bad (.ok a : Outcome α) := nofun

theorem spares_bind {x : Outcome α} {f : α → Outcome β} (hx : Spares bad x) (hf : ∀ a, x = .ok a → Spares bad (f a)) :
    Spares bad (x >>= f) := by
  intro e he
  cases x with
  | error s => exact hx e (by cases he; rfl)
  | ok a => exact hf a rfl e he

theorem spares_map {x : Outcome α} (hx : Spares bad x) (f : α → β) : Spares bad (x.map f) := by
  intro e he
  cases x with
  | error s => exact hx e (by cases he; rfl)
  | ok a => cases he

-- constructs that are not supported are not among the stops in question
variable (hu : ∀ detail, ¬ bad (.failed (.unsupported detail)))

include hu

theorem spares_unsupported (detail : String) : Spares bad (failWith (.unsupported detail) : Outcome α) := by
  intro e he
  cases he
  exact hu detail

theorem spares_rules (rs : List Rule) : Spares bad (checkedRules rs) := by
  induction rs with
  | nil => exact spares_ok _
  | cons r rs ih =>
    rw [checkedRules]
    split
    · exact ih
    · exact spares_unsupported hu _

theorem spares_finished (cx : Context) (k : Keywords) (nullable : Bool) (s : Shape) :
    Spares bad (finished cx k nullable s) :=
  spares_bind (spares_rules hu _) fun _ _ => spares_ok _

theorem spares_pattern (what pattern : String) : Spares bad (checkedPattern what pattern) := by
  unfold checkedPattern
  split
  · exact spares_ok _
  · exact spares_unsupported hu _

theorem spares_string (cx : Context) (k : Keywords) : Spares bad (stringShape cx k) := by
  unfold stringShape
  by_cases hp : k.pattern ≠ ""
  · rw [if_pos hp]
    exact spares_bind (spares_pattern hu _ _) fun _ _ => spares_ok _
  · rw [if_neg hp]
    exact spares_ok _

theorem spares_number (t : Scalar) (k : Keywords) : Spares bad (numberShape t k) := by
  unfold numberShape
  simp only
  split
  · exact spares_bind (spares_unsupported hu _) fun _ _ => spares_ok _
  · exact spares_ok _

omit hu in
theorem spares_typedShapes {several : Bool} {typed : String → Outcome Shape} {ts : List String}
    (h : ∀ t ∈ ts, Spares bad (typed t)) : Spares bad (typedShapes several typed ts) := by
  induction ts with
  | nil => exact spares_ok _
  | cons t ts ih =>
    have ih := ih fun u hu => h u (List.mem_cons_of_mem t hu)
    rw [typedShapes]
    split
    · exact spares_map ih _
    · exact spares_bind (h t List.mem_cons_self) fun _ _ => spares_bind ih fun _ _ => spares_ok _

variable {cx : Context}

omit hu in
theorem spares_list {ss : List Schema} (h : ∀ s ∈ ss, Spares bad (lower cx s)) : Spares bad (lowerList cx ss) := by
  induction ss with
  | nil => exact spares_ok _
  | cons s ss ih =>
    rw [lowerList]
    exact spares_bind (h s (by simp)) fun _ _ =>
      spares_bind (ih fun t ht => h t (List.mem_cons_of_mem s ht)) fun _ _ => spares_ok _

omit hu in
theorem spares_given {o : Option (List Schema)} (h : ∀ s ∈ o.getD [], Spares bad (lower cx s)) :
    Spares bad (lowerGiven cx o) := by
  cases o with
  | none => exact spares_ok _
  | some ss => exact spares_list h

omit hu in
theorem spares_optional {o : Option (List (String × Schema))} (h : ∀ s ∈ (o.getD []).map (·.2), Spares bad (lower cx s)) :
    Spares bad (lowerOptional cx o) := by
  cases o with
  | none => exact spares_ok _
  | some fs =>
    rw [lowerOptional]
    replace h : ∀ s ∈ fs.map (·.2), Spares bad (lower cx s) := h
    induction fs with
    | nil => exact spares_ok _
    | cons e fs ih =>
      rw [lowerFields]
      exact spares_bind (h e.2 (by simp)) fun _ _ =>
        spares_bind (ih fun s hs => h s (List.mem_cons_of_mem _ hs)) fun _ _ => spares_ok _

omit hu in
theorem spares_extent {x : Extent} (h : ∀ s ∈ Schema.Extent.toList x, Spares bad (lower cx s)) :
    Spares bad (lowerExtent cx x) := by
  cases x with
  | unset => exact spares_ok _
  | flag b => exact spares_ok _
  | sub s => exact spares_map (h s (by simp [Schema.Extent.toList, Schema.Beyond.ofExtent, Schema.Beyond.toList])) _

theorem spares_object {b : Body} (h : ∀ s ∈ memberSchemas b, Spares bad (lower cx s)) : Spares bad (objectShape cx b) := by
  refine spares_bind (spares_optional fun s hs => h s (List.mem_append_left _ hs)) fun fields _ =>
    spares_bind (spares_extent fun s hs => h s (List.mem_append_right _ hs)) fun x _ => ?_
  simp only
  split
  · exact spares_bind (spares_pattern hu _ _) fun _ _ => spares_ok _
  · exact spares_ok _

omit hu in
theorem spares_array {b : Body} (h : ∀ s ∈ itemSchemas b, Spares bad (lower cx s)) : Spares bad (arrayShape cx b) := by
  unfold itemSchemas at h
  unfold arrayShape
  cases hb : b.items with
  | unset => exact spares_bind (spares_ok _) fun _ hx => by cases hx; exact spares_ok _
  | single s =>
    rw [hb] at h
    simp only at h
    rw [lowerItems]
    split
    · exact spares_bind (spares_ok _) fun _ hx => by cases hx; exact spares_ok _
    · rename_i habs
      rw [if_neg habs] at h
      refine spares_bind (spares_map (h s List.mem_cons_self) _) fun x hx => ?_
      obtain ⟨y, -, rfl⟩ := except_map_ok hx
      exact spares_ok _
  | tuple ss =>
    rw [hb] at h
    simp only at h
    rw [lowerItems]
    refine spares_bind (spares_map (spares_list fun s hs => h s (List.mem_append_left _ hs)) _) fun x hx => ?_
    obtain ⟨y, -, rfl⟩ := except_map_ok hx
    exact spares_bind (spares_extent fun s hs => h s (List.mem_append_right _ hs)) fun _ _ => spares_ok _

theorem spares_typed {b : Body} (h : ∀ s ∈ typedSchemas b, Spares bad (lower cx s)) {t : String} (ht : t ∈ impliedTypes b) :
    Spares bad (typedShape cx b t) := by
  unfold typedShape
  split
  · exact spares_string hu _ _
  · exact spares_number hu _ _
  · exact spares_number hu _ _
  · exact spares_ok _
  · exact spares_ok _
  · exact spares_object hu fun s hs => h s (List.mem_append_left _ (by rwa [if_pos ht]))
  · exact spares_array fun s hs => h s (List.mem_append_right _ (by rwa [if_pos ht]))
  · exact spares_unsupported hu _

/-- one level, given what is lowered with it -/
theorem spares_level {b : Body} (href : b.own.ref ≠ "" → Spares bad (reference cx b.own.ref))
    (hmet : ∀ s ∈ met b, Spares bad (lower cx s))
    (hdispatch : b.own.ref = "" → Spares bad (dispatch cx b.own (b.oneOf.getD []))) : Spares bad (lower cx (ofBody b)) := by
  rw [lower_ofBody]
  split
  · rename_i hne
    exact spares_bind (href hne) fun s _ => spares_finished hu _ _ _ s
  · rename_i hempty
    rw [not_not] at hempty
    rw [met_plain hempty] at hmet
    have hcomposed : ∀ s ∈ composedSchemas b, Spares bad (lower cx s) := fun s hs => hmet s (List.mem_append_right _ hs)
    refine spares_bind (spares_typedShapes fun t ht => spares_typed hu (fun s hs => hmet s (List.mem_append_left _ hs)) ht)
      fun x _ => ?_
    refine spares_bind (spares_given fun s hs => hcomposed s (by simp [composedSchemas, hs])) fun anys _ => ?_
    refine spares_bind (spares_given fun s hs => hcomposed s (by simp [composedSchemas, hs])) fun ones _ => ?_
    refine spares_bind ?_ fun d _ =>
      spares_bind (spares_given fun s hs => hcomposed s (by simp [composedSchemas, hs])) fun alls _ =>
        spares_finished hu _ _ _ _
    unfold dispatched
    split
    · exact spares_ok _
    · exact hdispatch hempty

end

/-! ## References -/

/-- a stop for lack of what a reference leads to -/
def unlinked : Stop → Prop
  | .failed f => f.isKind .referenceNotFound = true
  | .aborted _ => False

theorem unlinked_unsupported (detail : String) : ¬ unlinked (.failed (.unsupported detail)) := nofun

/-- an outcome that is no failure to find a reference -/
def Linked {α : Type} (o : Outcome α) : Prop := ∀ f, o = .error (.failed f) → f.isKind .referenceNotFound = false

theorem linked_iff {α : Type} {o : Outcome α} : Linked o ↔ Spares unlinked o := by
  constructor
  · intro h e he
    cases e with
    | failed f => simp [unlinked, h f he]
    | aborted r => exact nofun
  · intro h f hf
    simpa [unlinked] using h (.failed f) hf

section

variable {α : Type}

theorem spares_abort : Spares unlinked (abort : Outcome α) := by
  intro e he
  cases he
  exact nofun

theorem spares_follow (cx : Context) (n : Nat) (s : Schema) : Spares unlinked (follow cx n s) := by
  induction n generalizing s with
  | zero => exact spares_ok _
  | succ n ih =>
    obtain rfl | ⟨b, rfl⟩ := Schema.eq_absent_or_ofBody s
    · exact spares_abort
    · rw [follow_ofBody]
      split
      · exact spares_ok _
      · cases resolve cx b.own.ref with
        | none => exact spares_ok _
        | some t => exact ih t

theorem spares_picked (d : Discriminator) (o : Option Schema) : Spares unlinked (picked d o) := by
  unfold picked
  split
  · exact spares_ok _
  · exact spares_abort
  · split
    · exact spares_ok _
    · exact spares_abort
    · split
      · exact spares_ok _
      · split <;> exact spares_ok _

theorem spares_tag (cx : Context) (d : Discriminator) (s : Schema) : Spares unlinked (tag cx d s) := by
  obtain rfl | ⟨b, rfl⟩ := Schema.eq_absent_or_ofBody s
  · exact spares_abort
  · rw [tag_ofBody]
    split
    · exact spares_ok _
    · exact spares_bind (spares_follow cx 8 _) fun o _ => spares_picked d o

theorem spares_tags (cx : Context) (d : Discriminator) (i : Nat) (acc : Dict Int) (vs : List Schema) :
    Spares unlinked (tags cx d i acc vs) := by
  induction vs generalizing i acc with
  | nil => exact spares_ok _
  | cons v vs ih =>
    rw [tags]
    refine spares_bind (spares_tag cx d v) fun t _ => ?_
    split
    · exact spares_ok _
    · exact ih _ _

theorem spares_dispatch (cx : Context) (k : Keywords) (vs : List Schema) : Spares unlinked (dispatch cx k vs) := by
  unfold dispatch
  split
  · exact spares_ok _
  · split
    · exact spares_ok _
    · exact spares_map (spares_tags _ _ _ _ _) _

/-- **Lowering finds what can be found.** -/
theorem linked_lower {cx : Context} {s : Schema} (h : ∀ q ∈ s.references, Linked (reference cx q)) : Linked (lower cx s) := by
  rw [linked_iff]
  induction s using Schema.treeInduction with
  | absent => exact spares_ok _
  | node b ih =>
    refine spares_level unlinked_unsupported (fun href => ?_) (fun s hs => ?_) fun _ => spares_dispatch _ _ _
    · exact linked_iff.1 (h _ (Schema.mem_references_ofBody.2 (.inl ⟨href, rfl⟩)))
    · exact Schema.Body.forall_below.2 ih s (met_below hs) fun q hq => h q (Schema.references_subset_ofBody (met_below hs) hq)

theorem linked_ok (a : α) : Linked (.ok a : Outcome α) := nofun

end

/-! ## Names -/

theorem dropPrefix?_append (p cs : List Char) : Text.dropPrefix? p (p ++ cs) = some cs := by
  induction p with
  | nil => cases cs <;> rfl
  | cons c p ih => simp [Text.dropPrefix?, ih]

/-- the name behind a pointer to a definition is all that follows -/
theorem localName?_pointer (n : String) : localName? ("#/definitions/" ++ n) = some n := by
  have hstart : Text.startsWith ("#/definitions/" ++ n) definitionsPrefix = true := by
    rw [Text.startsWith, String.toList_append, definitionsPrefix, List.isPrefixOf_iff_prefix]
    exact List.prefix_append _ _
  rw [localName?, if_pos hstart, Text.trimPrefix, String.toList_append, definitionsPrefix, dropPrefix?_append]
  simp

theorem replaceGo_free {c : Char} {pat rep cs : List Char} (h : c ∉ cs) : Text.replaceGo (c :: pat) rep 0 cs = cs := by
  induction cs with
  | nil => rfl
  | cons d cs ih =>
    have hd : c ≠ d := fun heq => h (by simp [heq])
    rw [Text.replaceGo, if_neg (by simp [List.isPrefixOf, hd]), ih fun hmem => h (List.mem_cons_of_mem d hmem)]

/-- a token without escapes stays as it is -/
theorem unescapeToken_free {s : String} (h : '~' ∉ s.toList) : unescapeToken s = s := by
  have hone (rep : String) : Text.replaceAll s "~1" rep = s := by
    rw [Text.replaceAll, show "~1".toList = '~' :: ['1'] from rfl, replaceGo_free h, String.ofList_toList]
  have hzero (rep : String) : Text.replaceAll s "~0" rep = s := by
    rw [Text.replaceAll, show "~0".toList = '~' :: ['0'] from rfl, replaceGo_free h, String.ofList_toList]
  rw [unescapeToken, hone, hzero]

theorem canonical_free {s : String} (h : '{' ∉ s.toList) : canonical s = s := by
  have hscan : Placeholder.scan? s.toList = none := by
    cases hs : s.toList with
    | nil => rfl
    | cons c cs => exact Placeholder.scan?_of_ne (fun heq => h (by simp [hs, heq])) cs
  simp [canonical, Placeholder.parse?, hscan]

/-- a text cut at the last of its separators -/
theorem cutLast_append {c : Char} {s : String} {a b : List Char} (hs : s.toList = a ++ c :: b) (h : c ∉ b) :
    Uri.cutLast c s = some (String.ofList a, String.ofList (c :: b)) := by
  have hback : s.toList.reverse = b.reverse ++ c :: a.reverse := by simp [hs]
  have hne : ∀ d ∈ b.reverse, (d != c) = true := by
    intro d hd
    have : d ≠ c := by
      rintro rfl
      exact h (List.mem_reverse.1 hd)
    simpa using this
  have htake := (Text.takeWhile_stop (c := c) hne (by simp) a.reverse).1
  have hdrop : (b.reverse ++ c :: a.reverse).drop (b.reverse.length + 1) = a.reverse := by
    rw [← List.drop_drop, List.drop_left]
    rfl
  rw [Uri.cutLast]
  simp only [hback, htake, hdrop]
  rw [if_neg (by simp)]
  simp

/-- the canonical form of a pointer to a definition -/
theorem canonicalRef_pointer {n : String} (hslash : '/' ∉ n.toList) (htilde : '~' ∉ n.toList) :
    canonicalRef ("#/definitions/" ++ n) = "#/definitions/" ++ canonical n := by
  have hlist : ("#/definitions/" ++ n).toList = "#/definitions".toList ++ '/' :: n.toList := by
    rw [String.toList_append]
    rfl
  rw [canonicalRef, cutLast_append hlist hslash]
  simp only
  have htrim : Text.trimPrefix (String.ofList ('/' :: n.toList)) "/" = n := by
    rw [Text.trimPrefix, String.toList_ofList]
    simp [Text.dropPrefix?]
  rw [htrim, unescapeToken_free htilde, String.ofList_toList]
  rfl

theorem lastElement_pointer {n : String} (hslash : '/' ∉ n.toList) : Text.lastElement ("#/definitions/" ++ n) "/" = n :=
  Text.lastElement_append (c := '/') (a := "#/definitions") hslash

theorem mem_indexOf {acc : List (String × String)} {ds : List (String × Schema)} {key : String} :
    key ∈ (indexOf acc ds).map (·.1) ↔ key ∈ acc.map (·.1) ∨ ∃ d ∈ ds, canonical d.1 = key := by
  induction ds generalizing acc with
  | nil => simp [indexOf]
  | cons d ds ih =>
    rw [indexOf]
    split
    · rename_i hany
      obtain ⟨e, he, hkey⟩ := List.any_eq_true.1 hany
      have : canonical d.1 ∈ acc.map (·.1) := List.mem_map.2 ⟨e, he, by simpa using hkey⟩
      rw [ih, List.exists_mem_cons_iff]
      constructor
      · tauto
      · rintro (h | rfl | h)
        · exact .inl h
        · exact .inl this
        · exact .inr h
    · rw [ih]
      simp only [List.map_append, List.map_cons, List.map_nil, List.mem_append, List.mem_singleton,
        List.exists_mem_cons_iff, eq_comm (a := key)]
      tauto

theorem indexOf_append {acc : List (String × String)} {ds : List (String × Schema)}
    (h : (acc.map (·.1) ++ ds.map fun d => canonical d.1).Nodup) :
    indexOf acc ds = acc ++ ds.map fun d => (canonical d.1, d.1) := by
  induction ds generalizing acc with
  | nil => simp [indexOf]
  | cons d ds ih =>
    have hnew : canonical d.1 ∉ acc.map (·.1) := fun hmem =>
      (List.nodup_append.1 h).2.2 _ hmem _ (by simp) rfl
    have hany : ¬ acc.any (·.1 == canonical d.1) = true := by
      rw [List.any_eq_true]
      rintro ⟨e, he, hkey⟩
      exact hnew (List.mem_map.2 ⟨e, he, by simpa using hkey⟩)
    rw [indexOf, if_neg hany, ih (by simpa using h)]
    simp

/-- definitions that are told apart are listed one by one -/
theorem indexOf_distinct {ds : List (String × Schema)} (h : (ds.map fun d => canonical d.1).Nodup) :
    indexOf [] ds = ds.map fun d => (canonical d.1, d.1) :=
  @indexOf_append [] ds h

/-- a name that is listed is found -/
theorem linked_pointer {cx : Context} {n : String} (hn : IsName n) (h : n ∈ cx.index.map (·.1)) :
    Linked (reference cx ("#/definitions/" ++ n)) := by
  have hsafe {c : Char} (hc : safeChar c = false) : c ∉ n.toList := fun hmem => by
    rw [hn.safe c hmem] at hc
    cases hc
  have hfind : ∃ m, cx.find? n = some m := by
    rw [Context.find?, unescapeToken_free (hsafe (by decide)), canonical_free (hsafe (by decide))]
    obtain ⟨e, he, rfl⟩ := List.mem_map.1 h
    cases hf : cx.index.find? (·.1 == e.1) with
    | none => exact absurd (List.find?_eq_none.1 hf e he) (by simp)
    | some d => exact ⟨d.2, rfl⟩
  obtain ⟨m, hm⟩ := hfind
  unfold reference
  split
  · exact linked_ok _
  · rw [localName?_pointer]
    simp only [hm]
    exact linked_ok _

theorem linked_root (cx : Context) : Linked (reference cx "#") := linked_ok _

theorem spares_named {bad : Stop → Prop} {cx : Context} {names : List String}
    (h : ∀ n ∈ names, Spares bad (lower cx ((cx.document.definition? n).getD .absent))) : Spares bad (lowerNamed cx names) := by
  induction names with
  | nil => exact spares_ok _
  | cons n names ih =>
    rw [lowerNamed]
    exact spares_bind (h n (by simp)) fun _ _ =>
      spares_bind (ih fun m hm => h m (List.mem_cons_of_mem n hm)) fun _ _ => spares_ok _

theorem spares_title (b : Body) : Spares unlinked (title b) := by
  unfold title
  split
  · exact spares_ok _
  · simp only
    split
    · split
      · exact spares_bind spares_abort fun _ _ => spares_ok _
      · exact spares_ok _
    · exact spares_ok _

/-- definitions that are looked up are those of the document -/
theorem definition?_below {b : Body} {n : String} {s : Schema} (h : b.definition? n = some s) : s ∈ b.below := by
  have hmem {fs : List (String × Schema)} (h : Dict.get? fs n = some s) : s ∈ fs.map (·.2) := by
    obtain ⟨e, he, rfl⟩ := Option.map_eq_some_iff.1 h
    exact List.mem_map_of_mem (List.mem_of_find?_eq_some he)
  rw [Schema.mem_below]
  unfold Schema.Body.definition? at h
  cases hd : Dict.get? b.definitions n with
  | none =>
    rw [hd] at h
    simp [hmem h]
  | some t =>
    rw [hd] at h
    cases h
    simp [hmem hd]

/-- **Documents that link up.** A document all of whose references are the root or names it defines never fails to find
one. -/
theorem linked_program {S : Schema} (hS : S.isAbsent = false) {options : CompileOptions}
    (h : ∀ q ∈ S.references, q = "#" ∨ ∃ n, IsName n ∧ n ∈ S.body.definitions.map (·.1) ∧ q = "#/definitions/" ++ n) :
    Linked (Program.lower S options) := by
  obtain rfl | ⟨b, rfl⟩ := Schema.eq_absent_or_ofBody S
  · cases hS
  · have hfound (cx : Context) (hcx : cx.index = indexOf (indexOf [] b.definitions) b.defs) :
        ∀ q ∈ (ofBody b).references, Linked (reference cx q) := by
      intro q hq
      rcases h q hq with rfl | ⟨n, hn, hmem, rfl⟩
      · exact linked_root cx
      · refine linked_pointer hn ?_
        obtain ⟨e, he, rfl⟩ := List.mem_map.1 hmem
        rw [hcx, mem_indexOf, mem_indexOf]
        refine .inl (.inr ⟨e, he, canonical_free fun hc => ?_⟩)
        have := hn.safe '{' hc
        cases this
    refine linked_iff.2 (spares_bind (spares_named fun n hn => linked_iff.1 ?_) fun defs _ =>
      spares_bind (linked_iff.1 (linked_lower (hfound _ rfl))) fun root _ =>
        spares_bind (spares_title _) fun title _ => spares_ok _)
    cases hd : b.definition? n with
    | none =>
      rw [show ((ofBody b).body.definition? n).getD .absent = .absent by rw [Schema.ofBody_body, hd]; rfl]
      exact linked_ok _
    | some s =>
      rw [show ((ofBody b).body.definition? n).getD .absent = s by rw [Schema.ofBody_body, hd]; rfl]
      exact linked_lower fun q hq => hfound _ rfl q (Schema.references_subset_ofBody (definition?_below hd) hq)

end Schemata.Lowering
