import Schemata.Compile
import Schemata.Proofs.Program.Listed
import Schemata.Proofs.Program.Relinking
import Schemata.Proofs.Schema.Trimmed

/-!
Compiling what was written and read again.

A document and its template differ in empty lists, and lowering asks for the entries of lists: a schema and the schema with
its empty lists left out are lowered to the same shape (`lower_trimmed`), references and tags included. There is one list
whose presence alone matters, that of the properties: a level that is an object only because it has one, without entries,
is hollow (`Hollow`). A document without hollow levels compiles as its template does, with all options
(`compile_template`); a hollow one does not (`compile_template_hollow`).
-/

namespace Schemata

namespace Lowering

open Schema (Body ofBody trimmed trimmed_ofBody nonEmpty)

/-- a level that is an object only because it has a list of properties, without entries -/
structure Hollow (b : Body) : Prop where
  ref : b.own.ref = ""
  types : b.own.types = []
  properties : b.properties = some []
  required : b.own.required = []
  additional : b.additional = .unset
  names : b.propertyNames = .absent

/-- a context whose document has its empty lists left out -/
def Context.trimmed (cx : Context) : Context := { cx with document := (cx.document.parts Schema.trimmed).trim }

variable {cx : Context} {b : Body}

/-! ## References -/

theorem definition?_trim (b : Body) (name : String) :
    (b.parts trimmed).trim.definition? name = (b.definition? name).map trimmed := by
  have hget (fs : List (String × Schema)) : Dict.get? (fs.map fun e => (e.1, e.2.trimmed)) name = (Dict.get? fs name).map trimmed :=
    get?_map fs trimmed name
  unfold Schema.Body.definition?
  simp only [Schema.Parts.trim, Body.parts, hget]
  cases Dict.get? b.definitions name <;> rfl

theorem resolve_trimmed (cx : Context) (ref : String) : resolve cx.trimmed ref = (resolve cx ref).map trimmed := by
  unfold resolve
  split
  · exact congrArg some (trimmed_ofBody cx.document).symm
  · have hfind : cx.trimmed.find? (Text.lastElement ref "/") = cx.find? (Text.lastElement ref "/") := rfl
    rw [hfind]
    cases cx.find? (Text.lastElement ref "/") with
    | none => rfl
    | some name => exact definition?_trim cx.document name

theorem follow_trimmed (cx : Context) (n : Nat) (s : Schema) :
    follow cx.trimmed n s.trimmed = (follow cx n s).map (Option.map trimmed) := by
  induction n generalizing s with
  | zero => rfl
  | succ n ih =>
    obtain rfl | ⟨b, rfl⟩ := Schema.eq_absent_or_ofBody s
    · rfl
    · have href : (b.parts trimmed).trim.own.ref = b.own.ref := rfl
      rw [trimmed_ofBody, follow_ofBody, follow_ofBody, resolve_trimmed, href]
      split
      · rw [← trimmed_ofBody]
        rfl
      · cases resolve cx b.own.ref with
        | none => rfl
        | some t => exact ih t

theorem displayed_ofBody (b : Body) : displayed (some (ofBody b)) = match b.own.const with
    | some c => .ok (some c.display)
    | none => match b.own.enum with
      | some [c] => .ok (some c.display)
      | _ => .ok none := rfl

theorem displayed_trim (b : Body) : displayed (some (ofBody (b.parts trimmed).trim)) = displayed (some (ofBody b)) := by
  have hconst : (b.parts trimmed).trim.own.const = b.own.const := rfl
  have henum : (b.parts trimmed).trim.own.enum = nonEmpty (b.own.enum.getD []) := rfl
  rw [displayed_ofBody, displayed_ofBody, hconst, henum]
  cases b.own.const with
  | some c => rfl
  | none =>
    cases b.own.enum with
    | none => rfl
    | some vs => cases vs <;> rfl

theorem picked_trimmed (d : Discriminator) (o : Option Schema) : picked d (o.map trimmed) = picked d o := by
  cases o with
  | none => rfl
  | some s =>
    obtain rfl | ⟨b, rfl⟩ := Schema.eq_absent_or_ofBody s
    · rfl
    · have hproperties : (b.parts trimmed).trim.properties.getD [] = (b.properties.getD []).map fun e => (e.1, e.2.trimmed) := by
        cases hp : b.properties <;> simp [Schema.Parts.trim, Body.parts, hp]
      have hpicked (b : Body) : picked d (some (ofBody b)) = displayed (Dict.get? (b.properties.getD []) d.propertyName) := rfl
      rw [Option.map_some, trimmed_ofBody, hpicked, hpicked, hproperties, get?_map]
      cases Dict.get? (b.properties.getD []) d.propertyName with
      | none => rfl
      | some p =>
        obtain rfl | ⟨c, rfl⟩ := Schema.eq_absent_or_ofBody p
        · rfl
        · rw [Option.map_some, trimmed_ofBody]
          exact displayed_trim c

theorem tag_trimmed (cx : Context) (d : Discriminator) (s : Schema) : tag cx.trimmed d s.trimmed = tag cx d s := by
  have hfollow := follow_trimmed cx 8 s
  obtain rfl | ⟨b, rfl⟩ := Schema.eq_absent_or_ofBody s
  · rfl
  · rw [trimmed_ofBody] at hfollow ⊢
    have href : (b.parts trimmed).trim.own.ref = b.own.ref := rfl
    rw [tag_ofBody, tag_ofBody, hfollow, href]
    cases mapped d b.own.ref with
    | some t => rfl
    | none =>
      cases follow cx 8 (ofBody b) with
      | error e => rfl
      | ok o => exact picked_trimmed d o

theorem tags_trimmed (cx : Context) (d : Discriminator) (i : Nat) (acc : Dict Int) (ss : List Schema) :
    tags cx.trimmed d i acc (ss.map trimmed) = tags cx d i acc ss := by
  induction ss generalizing i acc with
  | nil => rfl
  | cons s ss ih =>
    rw [List.map_cons, tags, tags, tag_trimmed]
    refine bind_congr fun t => ?_
    cases t with
    | none => rfl
    | some t => exact ih _ _

/-! ## Shapes -/

/-- a schema that is lowered as before when empty lists are left out -/
abbrev Unmoved (cx : Context) (s : Schema) : Prop := lower cx.trimmed s.trimmed = lower cx s

theorem list_trimmed {ss : List Schema} (h : ∀ s ∈ ss, Unmoved cx s) : lowerList cx.trimmed (ss.map trimmed) = lowerList cx ss := by
  induction ss with
  | nil => rfl
  | cons s ss ih => rw [List.map_cons, lowerList, lowerList, h s (by simp), ih fun t ht => h t (List.mem_cons_of_mem s ht)]

theorem given_trimmed {o : Option (List Schema)} (h : ∀ s ∈ o.getD [], Unmoved cx s) :
    lowerGiven cx.trimmed (nonEmpty ((o.map (·.map trimmed)).getD [])) = lowerGiven cx o := by
  cases o with
  | none => rfl
  | some ss =>
    cases ss with
    | nil => rfl
    | cons s ss => exact list_trimmed h

theorem fields_trimmed {fs : List (String × Schema)} (h : ∀ e ∈ fs, Unmoved cx e.2) :
    lowerFields cx.trimmed (fs.map fun e => (e.1, e.2.trimmed)) = lowerFields cx fs := by
  induction fs with
  | nil => rfl
  | cons e fs ih =>
    have he : lower cx.trimmed e.2.trimmed = lower cx e.2 := h e (by simp)
    rw [List.map_cons, lowerFields, lowerFields, he, ih fun t ht => h t (List.mem_cons_of_mem e ht)]

theorem optional_trimmed {o : Option (List (String × Schema))} (h : ∀ e ∈ o.getD [], Unmoved cx e.2) :
    lowerOptional cx.trimmed (nonEmpty ((o.map fun fs => fs.map fun e => (e.1, e.2.trimmed)).getD [])) = lowerOptional cx o := by
  cases o with
  | none => rfl
  | some fs =>
    cases fs with
    | nil => rfl
    | cons e fs => exact fields_trimmed h

theorem extent_trimmed {x : Extent} (h : ∀ s ∈ Schema.Extent.toList x, Unmoved cx s) :
    lowerExtent cx.trimmed (Schema.Extent.ofBeyond (.ofExtent trimmed x)) = lowerExtent cx x := by
  cases x with
  | unset => rfl
  | flag b => rfl
  | sub s =>
    have hs : lower cx.trimmed s.trimmed = lower cx s :=
      h s (by simp [Schema.Extent.toList, Schema.Beyond.ofExtent, Schema.Beyond.toList])
    change (lower cx.trimmed s.trimmed).map _ = _
    rw [hs, lowerExtent]

theorem items_trimmed {x : Items} (h : ∀ s ∈ Schema.Items.toList x, Unmoved cx s) :
    lowerItems cx.trimmed (Schema.Items.ofElements (.ofItems trimmed x)) = lowerItems cx x := by
  cases x with
  | unset => rfl
  | single s =>
    have hs : lower cx.trimmed s.trimmed = lower cx s :=
      h s (by simp [Schema.Items.toList, Schema.Elements.ofItems, Schema.Elements.toList])
    simp only [Schema.Elements.ofItems, Schema.Items.ofElements, lowerItems, Schema.isAbsent_trimmed, hs]
  | tuple ss =>
    have hss := list_trimmed fun s hs =>
      h s (by simpa [Schema.Items.toList, Schema.Elements.ofItems, Schema.Elements.toList] using hs)
    simp only [Schema.Elements.ofItems, Schema.Items.ofElements, lowerItems, hss]

theorem keyPatternOf_trim (b : Body) : keyPatternOf (b.parts trimmed).trim = keyPatternOf b := by
  have hown (s : Schema) : s.trimmed.own.pattern = s.own.pattern := by
    obtain rfl | ⟨b, rfl⟩ := Schema.eq_absent_or_ofBody s
    · rfl
    · rw [trimmed_ofBody]
      rfl
  unfold keyPatternOf
  simp only [Schema.Parts.trim, Body.parts, hown]

theorem object_trimmed (h : b.Below (Unmoved cx)) : objectShape cx.trimmed (b.parts trimmed).trim = objectShape cx b := by
  have hfields : lowerOptional cx.trimmed (b.parts trimmed).trim.properties = _ := optional_trimmed h.properties
  have hextra : lowerExtent cx.trimmed (b.parts trimmed).trim.additional = _ := extent_trimmed h.additional
  unfold objectShape
  rw [keyPatternOf_trim, hfields, hextra]
  rfl

theorem array_trimmed (h : b.Below (Unmoved cx)) : arrayShape cx.trimmed (b.parts trimmed).trim = arrayShape cx b := by
  have hitems : lowerItems cx.trimmed (b.parts trimmed).trim.items = _ := items_trimmed h.items
  have hrest : lowerExtent cx.trimmed (b.parts trimmed).trim.additionalItems = _ := extent_trimmed h.additionalItems
  unfold arrayShape
  rw [hitems, hrest]
  rfl

theorem typed_trimmed (h : b.Below (Unmoved cx)) (t : String) :
    typedShape cx.trimmed (b.parts trimmed).trim t = typedShape cx b t := by
  unfold typedShape
  split
  · rfl
  · rfl
  · rfl
  · rfl
  · rfl
  · exact object_trimmed h
  · exact array_trimmed h
  · rfl

/-- the types that a level implies stay the same, unless it is hollow -/
theorem impliedTypes_trim (href : b.own.ref = "") (h : ¬ Hollow b) : impliedTypes (b.parts trimmed).trim = impliedTypes b := by
  have htypes : (b.parts trimmed).trim.own.types = b.own.types := rfl
  have hnames : (b.parts trimmed).trim.propertyNames.isAbsent = b.propertyNames.isAbsent := Schema.isAbsent_trimmed _
  simp only [impliedTypes, htypes, hnames]
  by_cases hdeclared : b.own.types = []
  · by_cases hempty : b.properties = some []
    · -- the list alone does not make an object, something else does
      by_cases hrequired : b.own.required = []
      · cases hadditional : b.additional with
        | unset =>
          obtain hnames | ⟨c, hnames⟩ := Schema.eq_absent_or_ofBody b.propertyNames
          · exact absurd ⟨href, hdeclared, hempty, hrequired, hadditional, hnames⟩ h
          · simp [hdeclared, hempty, hnames, ofBody, Schema.isAbsent]
        | _ => simp [hdeclared, hempty, hadditional, Schema.Parts.trim, Body.parts, Schema.Beyond.ofExtent, Schema.Extent.ofBeyond]
      · simp [hdeclared, hempty, hrequired, Schema.Parts.trim, Body.parts]
    · have hproperties : (b.parts trimmed).trim.properties.isSome = b.properties.isSome := by
        obtain hp | ⟨_ | ⟨e, fs⟩, hp⟩ := Option.eq_none_or_eq_some b.properties
        · simp [Schema.Parts.trim, Body.parts, hp, nonEmpty]
        · exact absurd hp hempty
        · simp [Schema.Parts.trim, Body.parts, hp, nonEmpty]
      rw [hproperties]
      cases hadditional : b.additional <;> cases hitems : b.items <;>
        simp [Schema.Parts.trim, Body.parts, hadditional, hitems, Schema.Beyond.ofExtent, Schema.Extent.ofBeyond,
          Schema.Elements.ofItems, Schema.Items.ofElements]
  · simp [hdeclared]

theorem listed_trim (b : Body) : listed (b.parts trimmed).trim.own = listed b.own := by
  have hconst : (b.parts trimmed).trim.own.const = b.own.const := rfl
  have henum : (b.parts trimmed).trim.own.enum = nonEmpty (b.own.enum.getD []) := rfl
  rw [listed, listed, hconst, henum, Schema.getD_nonEmpty]

theorem dispatched_trim (cx : Context) (b : Body) (ones : List Shape) :
    dispatched cx.trimmed (b.parts trimmed).trim ones = dispatched cx b ones := by
  have hvariants : (b.parts trimmed).trim.oneOf.getD [] = (b.oneOf.getD []).map trimmed := by
    cases hone : b.oneOf <;> simp [Schema.Parts.trim, Body.parts, hone]
  have hdispatch : dispatch cx.trimmed (b.parts trimmed).trim.own ((b.oneOf.getD []).map trimmed) = dispatch cx b.own (b.oneOf.getD []) := by
    unfold dispatch
    simp only [tags_trimmed]
    rfl
  rw [dispatched, dispatched, hvariants, hdispatch]

theorem body_trimmed (href : b.own.ref = "") (hfull : ¬ Hollow b) (hb : b.Below (Unmoved cx)) :
    bodyShape cx.trimmed (b.parts trimmed).trim = bodyShape cx b := by
  have hanys : lowerGiven cx.trimmed (b.parts trimmed).trim.anyOf = _ := given_trimmed hb.anyOf
  have hones : lowerGiven cx.trimmed (b.parts trimmed).trim.oneOf = _ := given_trimmed hb.oneOf
  have halls : lowerGiven cx.trimmed (b.parts trimmed).trim.allOf = _ := given_trimmed hb.allOf
  have hparts (shapes anys ones : List Shape) (d : Dispatch) (alls : List Shape) :
      partsOf (b.parts trimmed).trim shapes anys ones d alls = partsOf b shapes anys ones d alls := by
    rw [partsOf, partsOf, impliedTypes_trim href hfull, listed_trim]
  unfold bodyShape
  simp only [impliedTypes_trim href hfull, funext (typed_trimmed hb), hanys, hones, halls, dispatched_trim, hparts]
  rfl

/-- **Lowering without empty lists.** -/
theorem lower_trimmed (cx : Context) {s : Schema} (hs : s.Everywhere fun b => ¬ Hollow b) : Unmoved cx s := by
  induction s using Schema.treeInduction with
  | absent => rfl
  | node b hb =>
    obtain ⟨hfull, hbelow⟩ := Schema.everywhere_below.1 hs
    have hunmoved : b.Below (Unmoved cx) := (hb.and hbelow).imp fun s hs => hs.1 hs.2
    rw [Unmoved, trimmed_ofBody, lower_ofBody, lower_ofBody]
    change (if b.own.ref ≠ "" then reference cx b.own.ref >>= finished cx b.own false else _) = _
    split
    · rfl
    · rename_i href
      exact body_trimmed (not_not.1 href) hfull hunmoved

/-! ## Programs -/

theorem indexOf_map (acc : List (String × String)) (fs : List (String × Schema)) (g : Schema → Schema) :
    indexOf acc (fs.map fun e => (e.1, g e.2)) = indexOf acc fs := by
  induction fs generalizing acc with
  | nil => rfl
  | cons e fs ih =>
    rw [List.map_cons, indexOf, indexOf]
    simp only [ih]

theorem named_trimmed {names : List String} (h : ∀ n ∈ names, Unmoved cx ((cx.document.definition? n).getD .absent)) :
    lowerNamed cx.trimmed names = lowerNamed cx names := by
  induction names with
  | nil => rfl
  | cons n ns ih =>
    have hdefinition : (cx.trimmed.document.definition? n).getD .absent = ((cx.document.definition? n).getD .absent).trimmed := by
      change (((cx.document.parts Schema.trimmed).trim.definition? n).getD .absent) = _
      rw [definition?_trim]
      cases cx.document.definition? n <;> rfl
    have hn : lower cx.trimmed ((cx.document.definition? n).getD .absent).trimmed = _ := h n (by simp)
    rw [lowerNamed, lowerNamed, hdefinition, hn, ih fun m hm => h m (by simp [hm])]

theorem title_trim (b : Body) : title (b.parts trimmed).trim = title b := by
  have hown (s : Schema) : s.trimmed.own.ref = s.own.ref := by
    obtain rfl | ⟨b, rfl⟩ := Schema.eq_absent_or_ofBody s
    · rfl
    · rw [trimmed_ofBody]
      rfl
  have htitle : (b.parts trimmed).trim.own.title = b.own.title := rfl
  have href : (b.parts trimmed).trim.own.ref = b.own.ref := rfl
  have hall : (b.parts trimmed).trim.allOf = nonEmpty ((b.allOf.map (·.map trimmed)).getD []) := rfl
  unfold title
  rw [htitle, href, hall]
  rcases eq_or_ne b.own.ref "" with hr | hr
  · obtain _ | _ | ⟨s, _ | ⟨t, ss⟩⟩ := b.allOf <;> simp [hr, nonEmpty, hown, Schema.isAbsent_trimmed]
  · simp [hr]

/-- **Programs without empty lists.** -/
theorem program_trimmed {s : Schema} (hpresent : s.isAbsent = false) (hs : s.Everywhere fun b => ¬ Hollow b) (o : CompileOptions) :
    Program.lower s.trimmed o = Program.lower s o := by
  obtain rfl | ⟨b, rfl⟩ := Schema.eq_absent_or_ofBody s
  · cases hpresent
  · have hindex : indexOf (indexOf [] (b.parts Schema.trimmed).trim.definitions) (b.parts Schema.trimmed).trim.defs =
        indexOf (indexOf [] b.definitions) b.defs := by
      rw [← indexOf_map [] b.definitions Schema.trimmed, ← indexOf_map _ b.defs Schema.trimmed]
      rfl
    let cx : Context := { document := b, options := o, index := indexOf (indexOf [] b.definitions) b.defs }
    have hroot : lower cx.trimmed (ofBody (b.parts Schema.trimmed).trim) = lower cx (ofBody b) := by
      rw [← Schema.trimmed_ofBody]
      exact lower_trimmed cx hs
    have hnamed : lowerNamed cx.trimmed (sortStrings (cx.index.map (·.2))) = lowerNamed cx (sortStrings (cx.index.map (·.2))) := by
      refine named_trimmed fun n _ => ?_
      cases hd : cx.document.definition? n with
      | none => rfl
      | some t => exact lower_trimmed cx ((Schema.everywhere_ofBody.1 hs).2 t (definition?_below hd))
    rw [Schema.trimmed_ofBody]
    unfold Program.lower
    simp only [Schema.ofBody_body, hindex]
    change (lowerNamed cx.trimmed _ >>= fun defs => lower cx.trimmed _ >>= fun root => title _ >>= _) =
      (lowerNamed cx _ >>= fun defs => lower cx _ >>= fun root => title _ >>= _)
    rw [hnamed, hroot, title_trim]

end Lowering

/-- is a value wrong for a compiled document? -/
def Compiled.refuses (c : Compiled) (v : Value) : Bool :=
  c.predicate.any fun p => (p.issues (fun _ _ => "") v).toOption.any fun is => !is.isEmpty

/-- is nothing wrong with a value for a compiled document? -/
def Compiled.passes (c : Compiled) (v : Value) : Bool :=
  c.predicate.any fun p => (p.issues (fun _ _ => "") v).toOption.any (·.isEmpty)

end Schemata
