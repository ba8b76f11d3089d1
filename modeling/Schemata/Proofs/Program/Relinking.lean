import Mathlib.Tactic
import Schemata.Proofs.Program.Lowering
import Schemata.Proofs.Program.Renamed
import Schemata.Proofs.Schema.Links

/-!
Lowering schemas with other links.

When the links of two documents correspond, and so do the schemas they lead to (`Corresponds`), a schema and the
relinked schema are lowered to the same shape but for the names in references, or fail alike (`lower_relink`).
-/

namespace Schemata

namespace Schema

variable {g : String → String}

@[simp] theorem bare_relink (s : Schema) : (s.relink g).bare = s.relink g := by
  obtain rfl | ⟨b, rfl⟩ := eq_absent_or_ofBody s
  · rfl
  · rw [relink_ofBody]
    rfl

theorem own_relink (b : Body) : ((ofBody b).relink g).own = Keywords.relink g b.own := by
  rw [relink_ofBody]
  rfl

theorem properties_relink (s : Schema) :
    (s.relink g).body.properties = s.body.properties.map fun fs => fs.map fun e => (e.1, e.2.relink g) := by
  obtain rfl | ⟨b, rfl⟩ := eq_absent_or_ofBody s
  · rfl
  · rw [relink_ofBody]
    rfl

/-- all links of a level meet a condition -/
def Linking (L : String → Prop) (b : Body) : Prop := ∀ l ∈ links b.own, L l

variable {L : String → Prop}

/-- reading back brings no links of its own -/
theorem mem_links_reread {k : Keywords} {t : String} (h : t ∈ links (Keywords.reread id k)) : t ∈ links k := by
  rcases List.mem_cons.1 h with rfl | h
  · exact List.mem_cons_self
  · obtain ⟨d', hd', ht⟩ := List.mem_flatMap.1 h
    have hd' : d' ∈ k.discriminator.map (Discriminator.reread id) := Option.mem_toList.1 hd'
    obtain ⟨d, hd, rfl⟩ := Option.map_eq_some_iff.1 hd'
    have hmap := mem_rereadMap ht
    rw [List.map_map] at hmap
    exact List.mem_cons_of_mem _ (List.mem_flatMap.2 ⟨d, Option.mem_toList.2 hd, hmap⟩)

theorem linking_reread (hempty : L "") {s : Schema} (hs : s.Everywhere (Linking L)) :
    (s.reread id).Everywhere (Linking L) := by
  induction s using treeInduction with
  | absent => exact hs
  | node b ih =>
    obtain ⟨level, below⟩ := everywhere_ofBody.1 hs
    rw [reread_ofBody, everywhere_ofBody]
    refine ⟨fun l hl => level l (mem_links_reread hl), fun s hs => ?_⟩
    rcases mem_below_reread hs with rfl | ⟨t, ht, rfl⟩
    · exact everywhere_ofKeywords.2 (by simpa [Linking, links] using hempty)
    · exact Body.forall_below.2 ih t ht (below t ht)

end Schema

namespace Lowering

open Schema (Body ofBody bare relink links Linking Everywhere everywhere_ofBody)

/-- contexts in which links, and what they lead to, correspond -/
structure Corresponds (L : String → Prop) (g f : String → String) (cx cx' : Context) : Prop where
  options : cx'.options = cx.options
  empty : ∀ l, L l → (g l = "" ↔ l = "")
  shape : ∀ l, L l → l ≠ "" → reference cx' (g l) = (reference cx l).map (Shape.redirect f)
  target : ∀ l, L l → l ≠ "" → (resolve cx' (g l)).map bare = (resolve cx l).map (relink g)
  linking : ∀ l s, L l → l ≠ "" → resolve cx l = some s → s.Everywhere (Linking L)
  apart : ∀ l m, L l → L m → (canonicalRef (g l) = canonicalRef (g m) ↔ canonicalRef l = canonicalRef m)

variable {L : String → Prop} {g f : String → String} {cx cx' : Context}

/-! ## Tags -/

theorem follow_relink (h : Corresponds L g f cx cx') (n : Nat) {s s' : Schema} (hs : s.Everywhere (Linking L))
    (hsame : s'.bare = s.relink g) :
    (follow cx' n s').map (Option.map bare) = (follow cx n s).map (Option.map (relink g)) := by
  induction n generalizing s s' with
  | zero => exact congrArg (fun s => (.ok (some s) : Outcome (Option Schema))) hsame
  | succ n ih =>
    obtain rfl | ⟨b', rfl⟩ := Schema.eq_absent_or_ofBody s' <;> obtain rfl | ⟨b, rfl⟩ := Schema.eq_absent_or_ofBody s
    · rfl
    · rw [Schema.relink_ofBody] at hsame
      cases hsame
    · cases hsame
    · have hlink : L b.own.ref := (everywhere_ofBody.1 hs).1 _ List.mem_cons_self
      have hown : b'.own.ref = g b.own.ref := by
        have := congrArg (fun s : Schema => s.own.ref) hsame
        rwa [Schema.own_relink] at this
      rw [follow_ofBody, follow_ofBody, hown]
      by_cases hempty : b.own.ref = ""
      · rw [if_pos ((h.empty _ hlink).2 hempty), if_pos hempty]
        exact congrArg (fun s => (.ok (some s) : Outcome (Option Schema))) hsame
      · rw [if_neg (mt (h.empty _ hlink).1 hempty), if_neg hempty]
        have hresolve := h.target _ hlink hempty
        cases hr : resolve cx b.own.ref with
        | none =>
          rw [hr, Option.map_none, Option.map_eq_none_iff] at hresolve
          rw [hresolve]
          rfl
        | some t =>
          rw [hr, Option.map_some, Option.map_eq_some_iff] at hresolve
          obtain ⟨t', ht', hbare⟩ := hresolve
          rw [ht']
          exact ih (h.linking _ t hlink hempty hr) hbare

theorem properties_bare (s : Schema) : s.bare.body.properties = s.body.properties := by
  obtain rfl | ⟨b, rfl⟩ := Schema.eq_absent_or_ofBody s <;> rfl

theorem get?_map {α β : Type} (fs : Dict α) (r : α → β) (k : String) :
    Dict.get? (fs.map fun e => (e.1, r e.2)) k = (Dict.get? fs k).map r := by
  simp only [Dict.get?, List.find?_map, Option.map_map]
  rfl

/-- the value that a tag's property shows -/
def displayed : Option Schema → Outcome (Option String)
  | none => .ok none
  | some .absent => abort
  | some p =>
    match p.own.const with
    | some c => .ok (some c.display)
    | none =>
      match p.own.enum with
      | some [c] => .ok (some c.display)
      | _ => .ok none

theorem picked_relink (d : Discriminator) {o o' : Option Schema} (h : o'.map bare = o.map (relink g)) :
    picked (Schema.Discriminator.relink g d) o' = picked d o := by
  cases o with
  | none =>
    rw [Option.map_none, Option.map_eq_none_iff] at h
    rw [h]
    rfl
  | some s =>
    rw [Option.map_some, Option.map_eq_some_iff] at h
    obtain ⟨s', rfl, hbare⟩ := h
    obtain rfl | ⟨b', rfl⟩ := Schema.eq_absent_or_ofBody s' <;> obtain rfl | ⟨b, rfl⟩ := Schema.eq_absent_or_ofBody s
    · rfl
    · rw [Schema.relink_ofBody] at hbare
      cases hbare
    · cases hbare
    · have hproperties : (ofBody b').body.properties.getD [] =
          ((ofBody b).body.properties.getD []).map fun e => (e.1, e.2.relink g) := by
        rw [← properties_bare, hbare, Schema.properties_relink]
        cases (ofBody b).body.properties <;> rfl
      have hget := get?_map ((ofBody b).body.properties.getD []) (relink g) d.propertyName
      rw [← hproperties] at hget
      have hpicked (d : Discriminator) (b : Body) : picked d (some (ofBody b)) =
          displayed (Dict.get? ((ofBody b).body.properties.getD []) d.propertyName) := rfl
      rw [hpicked, hpicked, show (Schema.Discriminator.relink g d).propertyName = d.propertyName from rfl, hget]
      cases Dict.get? ((ofBody b).body.properties.getD []) d.propertyName with
      | none => rfl
      | some p =>
        obtain rfl | ⟨c, rfl⟩ := Schema.eq_absent_or_ofBody p
        · rfl
        · rw [Option.map_some, Schema.relink_ofBody]
          rfl

/-- steps that go on alike from outcomes that are alike -/
theorem bind_of_map {α α' β γ : Type} {x : Outcome α} {x' : Outcome α'} {p : α → γ} {p' : α' → γ} (h : x'.map p' = x.map p)
    {k : α → Outcome β} {k' : α' → Outcome β} (hk : ∀ a a', p' a' = p a → k' a' = k a) : x' >>= k' = x >>= k := by
  cases x with
  | error e =>
    cases x' <;> cases h
    rfl
  | ok a =>
    cases x' with
    | error e => cases h
    | ok a' => exact hk a a' (Except.ok.inj h)

theorem mapped_relink (h : Corresponds L g f cx cx') {d : Discriminator} (hd : ∀ e ∈ d.mapping, L e.2) {ref : String}
    (href : L ref) : mapped (Schema.Discriminator.relink g d) (g ref) = mapped d ref := by
  unfold mapped
  by_cases hempty : ref = ""
  · rw [if_pos ((h.empty _ href).2 hempty), if_pos hempty]
  · rw [if_neg (mt (h.empty _ href).1 hempty), if_neg hempty]
    have hfind (es : List (String × String)) (hes : ∀ e ∈ es, L e.2) :
        ((es.map fun e => (e.1, g e.2)).find? fun e => canonicalRef e.2 == canonicalRef (g ref)).map (·.1) =
          (es.find? fun e => canonicalRef e.2 == canonicalRef ref).map (·.1) := by
      induction es with
      | nil => rfl
      | cons e es ih =>
        have heq : (canonicalRef (g e.2) == canonicalRef (g ref)) = (canonicalRef e.2 == canonicalRef ref) := by
          rw [Bool.eq_iff_iff, beq_iff_eq, beq_iff_eq]
          exact h.apart _ _ (hes e (by simp)) href
        rw [List.map_cons, List.find?_cons, List.find?_cons, heq]
        split
        · rfl
        · exact ih fun e he => hes e (List.mem_cons_of_mem _ he)
    exact hfind d.mapping hd

theorem tag_relink (h : Corresponds L g f cx cx') {d : Discriminator} (hd : ∀ e ∈ d.mapping, L e.2) {s : Schema}
    (hs : s.Everywhere (Linking L)) : tag cx' (Schema.Discriminator.relink g d) (s.relink g) = tag cx d s := by
  have hfollow := follow_relink h 8 hs (Schema.bare_relink s)
  obtain rfl | ⟨b, rfl⟩ := Schema.eq_absent_or_ofBody s
  · rfl
  · rw [Schema.relink_ofBody] at hfollow ⊢
    rw [tag_ofBody, tag_ofBody]
    have hmapped := mapped_relink h hd ((everywhere_ofBody.1 hs).1 _ List.mem_cons_self)
    rw [show ((b.parts (relink g)).relink g).own.ref = g b.own.ref from rfl, hmapped]
    split
    · rfl
    · exact bind_of_map hfollow fun o o' ho => picked_relink d ho

theorem tags_relink (h : Corresponds L g f cx cx') {d : Discriminator} (hd : ∀ e ∈ d.mapping, L e.2) (i : Nat)
    (acc : Dict Int) {ss : List Schema} (hs : ∀ s ∈ ss, s.Everywhere (Linking L)) :
    tags cx' (Schema.Discriminator.relink g d) i acc (ss.map (relink g)) = tags cx d i acc ss := by
  induction ss generalizing i acc with
  | nil => rfl
  | cons s ss ih =>
    rw [List.map_cons, tags, tags, tag_relink h hd (hs s (by simp))]
    refine bind_congr fun t => ?_
    cases t with
    | none => rfl
    | some t => exact ih _ _ fun s hs' => hs s (List.mem_cons_of_mem _ hs')

theorem dispatch_relink (h : Corresponds L g f cx cx') {b : Body} (hb : Linking L b) {ss : List Schema}
    (hs : ∀ s ∈ ss, s.Everywhere (Linking L)) :
    dispatch cx' (Schema.Keywords.relink g b.own) (ss.map (relink g)) = dispatch cx b.own ss := by
  have hlinks : ∀ d, b.own.discriminator = some d → ∀ e ∈ d.mapping, L e.2 := by
    intro d hd e he
    exact hb e.2 (List.mem_cons_of_mem _ (List.mem_flatMap.2 ⟨d, by simp [hd], List.mem_map_of_mem he⟩))
  unfold dispatch
  rw [h.options]
  simp only [Schema.Keywords.relink]
  cases hd : b.own.discriminator with
  | none => rfl
  | some d =>
    simp only [Option.map_some]
    rw [tags_relink h (hlinks d hd) 0 [] hs]
    rfl

/-! ## Shapes -/

/-- a schema whose relinked form is lowered to the redirected shape -/
abbrev Redirects (g f : String → String) (cx cx' : Context) (s : Schema) : Prop :=
  lower cx' (s.relink g) = (lower cx s).map (Shape.redirect f)

theorem list_relink {ss : List Schema} (h : ∀ s ∈ ss, Redirects g f cx cx' s) :
    lowerList cx' (ss.map (relink g)) = (lowerList cx ss).map (List.map (Shape.redirect f)) := by
  induction ss with
  | nil => rfl
  | cons s ss ih =>
    rw [List.map_cons, lowerList, lowerList, h s (by simp), ih fun t ht => h t (List.mem_cons_of_mem s ht)]
    cases lower cx s with
    | error e => rfl
    | ok x => cases lowerList cx ss <;> rfl

theorem given_relink {o : Option (List Schema)} (h : ∀ s ∈ o.getD [], Redirects g f cx cx' s) :
    lowerGiven cx' (o.map (·.map (relink g))) = (lowerGiven cx o).map (List.map (Shape.redirect f)) := by
  cases o with
  | none => rfl
  | some ss => exact list_relink h

theorem optional_relink {o : Option (List (String × Schema))} (h : ∀ e ∈ o.getD [], Redirects g f cx cx' e.2) :
    lowerOptional cx' (o.map fun fs => fs.map fun e => (e.1, e.2.relink g)) =
      (lowerOptional cx o).map fun fs => fs.map fun e => (e.1, e.2.redirect f) := by
  cases o with
  | none => rfl
  | some fs =>
    rw [Option.map_some, lowerOptional, lowerOptional]
    replace h : ∀ e ∈ fs, Redirects g f cx cx' e.2 := h
    induction fs with
    | nil => rfl
    | cons e fs ih =>
      have he : lower cx' (e.2.relink g) = (lower cx e.2).map (Shape.redirect f) := h e (by simp)
      rw [List.map_cons, lowerFields, lowerFields, he, ih fun t ht => h t (List.mem_cons_of_mem e ht)]
      cases lower cx e.2 with
      | error e => rfl
      | ok x => cases lowerFields cx fs <;> rfl

theorem extent_relink {x : Extent} (h : ∀ s ∈ Schema.Extent.toList x, Redirects g f cx cx' s) :
    lowerExtent cx' (Schema.Extent.ofBeyond (.ofExtent (relink g) x)) =
      (lowerExtent cx x).map fun e => (e.1, e.2.redirect f) := by
  cases x with
  | unset => rfl
  | flag b => cases b <;> rfl
  | sub s =>
    have hs : lower cx' (s.relink g) = (lower cx s).map (Shape.redirect f) :=
      h s (by simp [Schema.Extent.toList, Schema.Beyond.ofExtent, Schema.Beyond.toList])
    change (lower cx' (s.relink g)).map _ = _
    rw [hs, lowerExtent]
    cases lower cx s <;> rfl

theorem items_relink {x : Items} (h : ∀ s ∈ Schema.Items.toList x, Redirects g f cx cx' s) :
    lowerItems cx' (Schema.Items.ofElements (.ofItems (relink g) x)) =
      (lowerItems cx x).map fun e => (e.1.map (List.map (Shape.redirect f)), e.2.redirect f) := by
  cases x with
  | unset => rfl
  | single s =>
    have hs : lower cx' (s.relink g) = (lower cx s).map (Shape.redirect f) :=
      h s (by simp [Schema.Items.toList, Schema.Elements.ofItems, Schema.Elements.toList])
    simp only [Schema.Elements.ofItems, Schema.Items.ofElements, lowerItems, Schema.isAbsent_relink, hs]
    split
    · rfl
    · cases lower cx s <;> rfl
  | tuple ss =>
    have hss := list_relink fun s hs =>
      h s (by simpa [Schema.Items.toList, Schema.Elements.ofItems, Schema.Elements.toList] using hs)
    simp only [Schema.Elements.ofItems, Schema.Items.ofElements, lowerItems, hss]
    cases lowerList cx ss <;> rfl

section

variable {b : Body}

theorem keyPatternOf_relink : keyPatternOf ((b.parts (relink g)).relink g) = keyPatternOf b := by
  have hown : ∀ s : Schema, (s.relink g).own.pattern = s.own.pattern := by
    intro s
    obtain rfl | ⟨b, rfl⟩ := Schema.eq_absent_or_ofBody s
    · rfl
    · rw [Schema.own_relink]
      rfl
  unfold keyPatternOf
  simp only [Schema.Parts.relink, Body.parts, hown]
  rfl

theorem object_relink (h : b.Below (Redirects g f cx cx')) :
    objectShape cx' ((b.parts (relink g)).relink g) = (objectShape cx b).map (Shape.redirect f) := by
  unfold objectShape
  rw [keyPatternOf_relink]
  have hfields : lowerOptional cx' ((b.parts (relink g)).relink g).properties = _ := optional_relink h.properties
  have hextra : lowerExtent cx' ((b.parts (relink g)).relink g).additional = _ := extent_relink h.additional
  rw [hfields, hextra]
  cases lowerOptional cx b.properties with
  | error e => rfl
  | ok fields =>
    cases lowerExtent cx b.additional with
    | error e => rfl
    | ok x =>
      simp only [Except.map, bind, Except.bind]
      split
      · cases checkedPattern "key pattern" (keyPatternOf b) with
        | error e => rfl
        | ok u =>
          simp only [pure, Except.pure, Shape.redirect, Shape.redirectFields_eq]
          rfl
      · simp only [pure, Except.pure, Shape.redirect, Shape.redirectFields_eq]
        rfl

theorem array_relink (h : b.Below (Redirects g f cx cx')) :
    arrayShape cx' ((b.parts (relink g)).relink g) = (arrayShape cx b).map (Shape.redirect f) := by
  unfold arrayShape
  have hitems : lowerItems cx' ((b.parts (relink g)).relink g).items = _ := items_relink h.items
  have hrest : lowerExtent cx' ((b.parts (relink g)).relink g).additionalItems = _ := extent_relink h.additionalItems
  rw [hitems, hrest]
  cases lowerItems cx b.items with
  | error e => rfl
  | ok x =>
    obtain ⟨_ | shapes, single⟩ := x
    · rfl
    · cases lowerExtent cx b.additionalItems with
      | error e => rfl
      | ok x =>
        simp only [Except.map, bind, Except.bind, Option.map_some, pure, Except.pure, Shape.redirect, Shape.redirectAll_eq,
          List.length_map]
        rfl

theorem typed_relink (h : Corresponds L g f cx cx') (hb : b.Below (Redirects g f cx cx')) (t : String) :
    typedShape cx' ((b.parts (relink g)).relink g) t = (typedShape cx b t).map (Shape.redirect f) := by
  have hstring : stringShape cx' b.own = (stringShape cx b.own).map (Shape.redirect f) := by
    unfold stringShape
    rw [h.options]
    by_cases hp : b.own.pattern ≠ ""
    · rw [if_pos hp]
      cases checkedPattern "pattern" b.own.pattern <;> rfl
    · rw [if_neg hp]
      rfl
  have hnumber (t : Scalar) : numberShape t b.own = (numberShape t b.own).map (Shape.redirect f) := by
    unfold numberShape
    simp only
    split <;> rfl
  unfold typedShape
  split
  · exact hstring
  · exact hnumber _
  · exact hnumber _
  · rfl
  · rfl
  · exact object_relink hb
  · exact array_relink hb
  · rfl

theorem typedShapes_relink {several : Bool} {typed typed' : String → Outcome Shape}
    (h : ∀ t, typed' t = (typed t).map (Shape.redirect f)) (ts : List String) :
    typedShapes several typed' ts = (typedShapes several typed ts).map fun e => (e.1.map (Shape.redirect f), e.2) := by
  induction ts with
  | nil => rfl
  | cons t ts ih =>
    rw [typedShapes, typedShapes, ih, h]
    split
    · cases typedShapes several typed ts <;> rfl
    · cases typed t with
      | error e => rfl
      | ok s => cases typedShapes several typed ts <;> rfl

theorem anyShape_redirect (ss : List Shape) : anyShape (ss.map (Shape.redirect f)) = (anyShape ss).redirect f := by
  match ss with
  | [] => simp [anyShape, Shape.redirect]
  | [s] => rfl
  | s :: t :: ss => simp [anyShape, Shape.redirect]

theorem allShape_redirect (ss : List Shape) : allShape (ss.map (Shape.redirect f)) = (allShape ss).redirect f := by
  match ss with
  | [] => rfl
  | [s] => rfl
  | s :: t :: ss => simp [allShape, Shape.redirect]

theorem valueParts_redirect (types : List String) (ss : List Shape) (vs : List Value) :
    valueParts types (ss.map (Shape.redirect f)) vs = (valueParts types ss vs).map (Shape.redirect f) := by
  unfold valueParts
  rw [List.isEmpty_map, anyShape_redirect]
  split
  · split <;> rfl
  · split <;> rfl

theorem finished_relink (h : Corresponds L g f cx cx') (k : Keywords) (nullable : Bool) (s : Shape) :
    finished cx' (Schema.Keywords.relink g k) nullable (s.redirect f) = (finished cx k nullable s).map (Shape.redirect f) := by
  unfold finished
  rw [h.options]
  change (checkedRules k.rules >>= _) = (checkedRules k.rules >>= _).map _
  cases checkedRules k.rules with
  | error e => rfl
  | ok u =>
    simp only [bind, Except.bind, pure, Except.pure, Except.map, Shape.mapBase_redirect]
    rfl

theorem impliedTypes_relink : impliedTypes ((b.parts (relink g)).relink g) = impliedTypes b := by
  have hnames : ((b.parts (relink g)).relink g).propertyNames.isAbsent = b.propertyNames.isAbsent :=
    Schema.isAbsent_relink _
  obtain ⟨own, properties, additional, names, items, additionalItems, anyOf, oneOf, allOf, definitions, defs⟩ := b
  unfold impliedTypes
  rw [hnames]
  cases properties <;> cases additional <;> cases items <;> rfl

theorem dispatched_relink (h : Corresponds L g f cx cx') (hlinks : Linking L b)
    (hall : ∀ s ∈ b.oneOf.getD [], s.Everywhere (Linking L)) (ones : List Shape) :
    dispatched cx' ((b.parts (relink g)).relink g) (ones.map (Shape.redirect f)) = dispatched cx b ones := by
  have hvariants : (((b.parts (relink g)).relink g).oneOf).getD [] = (b.oneOf.getD []).map (relink g) := by
    cases hone : b.oneOf <;> simp [Schema.Parts.relink, Body.parts, hone]
  have hdispatch : dispatch cx' ((b.parts (relink g)).relink g).own _ = _ := dispatch_relink h hlinks hall
  rw [dispatched, dispatched, List.isEmpty_map, hvariants, hdispatch]

theorem parts_relink (shapes anys ones : List Shape) (d : Dispatch) (alls : List Shape) :
    partsOf ((b.parts (relink g)).relink g) (shapes.map (Shape.redirect f)) (anys.map (Shape.redirect f))
      (ones.map (Shape.redirect f)) d (alls.map (Shape.redirect f)) =
        (partsOf b shapes anys ones d alls).map (Shape.redirect f) := by
  unfold partsOf
  rw [impliedTypes_relink, valueParts_redirect, List.isEmpty_map, List.isEmpty_map, List.map_append, List.map_append,
    List.map_append]
  congr 3
  · split <;> simp [Shape.redirect]
  · split <;> simp [Shape.redirect]

theorem body_relink (h : Corresponds L g f cx cx') (hlinks : Linking L b) (hb : b.Below (Redirects g f cx cx'))
    (hall : ∀ s ∈ b.oneOf.getD [], s.Everywhere (Linking L)) :
    bodyShape cx' ((b.parts (relink g)).relink g) = (bodyShape cx b).map (Shape.redirect f) := by
  unfold bodyShape
  rw [impliedTypes_relink, typedShapes_relink (typed_relink h hb)]
  have hanys : lowerGiven cx' ((b.parts (relink g)).relink g).anyOf = _ := given_relink hb.anyOf
  have hones : lowerGiven cx' ((b.parts (relink g)).relink g).oneOf = _ := given_relink hb.oneOf
  have halls : lowerGiven cx' ((b.parts (relink g)).relink g).allOf = _ := given_relink hb.allOf
  rw [hanys, hones, halls]
  cases typedShapes ((impliedTypes b).length > 1) (typedShape cx b) (impliedTypes b) with
  | error e => rfl
  | ok x =>
    cases lowerGiven cx b.anyOf with
    | error e => rfl
    | ok anys =>
      cases lowerGiven cx b.oneOf with
      | error e => rfl
      | ok ones =>
        simp only [bind, Except.bind, Except.map]
        rw [dispatched_relink h hlinks hall]
        cases dispatched cx b ones with
        | error e => rfl
        | ok d =>
          cases lowerGiven cx b.allOf with
          | error e => rfl
          | ok alls =>
            exact (congrArg _ (congrArg _ (parts_relink x.1 anys ones d alls))).trans
              ((congrArg _ (allShape_redirect _)).trans (finished_relink h b.own x.2 _))

end

/-- **Lowering with other links.** -/
theorem lower_relink (h : Corresponds L g f cx cx') {s : Schema} (hs : s.Everywhere (Linking L)) :
    Redirects g f cx cx' s := by
  induction s using Schema.treeInduction with
  | absent => rfl
  | node b ih =>
    obtain ⟨level, below⟩ := everywhere_ofBody.1 hs
    have hbelow : b.Below (Redirects g f cx cx') :=
      Body.forall_below.1 fun s hs => Body.forall_below.2 ih s hs (below s hs)
    have hlink : L b.own.ref := level _ List.mem_cons_self
    rw [Redirects, Schema.relink_ofBody, lower_ofBody, lower_ofBody]
    change (if g b.own.ref ≠ "" then reference cx' (g b.own.ref) >>= finished cx' (Schema.Keywords.relink g b.own) false
      else _) = _
    by_cases hempty : b.own.ref = ""
    · rw [if_neg (not_not.2 ((h.empty _ hlink).2 hempty)), if_neg (not_not.2 hempty)]
      exact body_relink h level hbelow fun s hs => below s (Schema.mem_below.2 (by simp only [hs, true_or, or_true]))
    · rw [if_pos (mt (h.empty _ hlink).1 hempty), if_pos hempty, h.shape _ hlink hempty]
      cases reference cx b.own.ref with
      | error e => rfl
      | ok x => exact finished_relink h b.own false x

/-! ## Programs -/

/-- definitions at the top do not matter to its shape -/
theorem lower_bare (cx : Context) (s : Schema) : lower cx s.bare = lower cx s := by
  obtain rfl | ⟨b, rfl⟩ := Schema.eq_absent_or_ofBody s
  · rfl
  · rw [Schema.bare_ofBody, lower_ofBody, lower_ofBody]
    rfl

/-- the schema of a definition -/
def Context.definition (cx : Context) (name : String) : Schema := (cx.document.definition? name).getD .absent

/-- the shape of a definition that can be lowered -/
def Context.shape (cx : Context) (name : String) : Shape := (lower cx (cx.definition name)).toOption.getD .absent

theorem lowerNamed_ok {cx : Context} {names : List String} {defs : List (String × Shape)} (h : lowerNamed cx names = .ok defs) :
    defs = names.map fun n => (n, cx.shape n) := by
  induction names generalizing defs with
  | nil =>
    cases h
    rfl
  | cons n names ih =>
    obtain ⟨s, hs, h⟩ := except_bind_ok h
    obtain ⟨ss, hss, h⟩ := except_bind_ok h
    have hshape : cx.shape n = s := by
      rw [Context.shape, Context.definition, hs]
      rfl
    rw [← Except.ok.inj h, List.map_cons, ← ih hss, hshape]

theorem lowerNamed_isOk {cx : Context} {names : List String} :
    (∃ defs, lowerNamed cx names = .ok defs) ↔ ∀ n ∈ names, ∃ s, lower cx (cx.definition n) = .ok s := by
  induction names with
  | nil => simp [lowerNamed]
  | cons n names ih =>
    rw [List.forall_mem_cons, ← ih, lowerNamed]
    change (∃ defs, (lower cx (cx.definition n) >>= fun s => lowerNamed cx names >>= fun ss => .ok ((n, s) :: ss)) = .ok defs) ↔ _
    cases lower cx (cx.definition n) with
    | error e => simp [bind, Except.bind]
    | ok s => cases lowerNamed cx names <;> simp [bind, Except.bind]

/-- a document being lowered -/
def contextOf (S : Schema) (options : CompileOptions) : Context where
  document := S.body
  options := options
  index := indexOf (indexOf [] S.body.definitions) S.body.defs

theorem program_lower (S : Schema) (options : CompileOptions) : Program.lower S options = (do
    let defs ← lowerNamed (contextOf S options) (sortStrings ((contextOf S options).index.map (·.2)))
    let root ← lower (contextOf S options) (ofBody S.body)
    let title ← title S.body
    return { root, defs, order := sortStrings ((contextOf S options).index.map (·.2)), title }) := rfl

theorem lower_program {S : Schema} {options : CompileOptions} {p : Program} (h : Program.lower S options = .ok p) :
    lower (contextOf S options) (Schema.ofBody S.body) = .ok p.root ∧
      lowerNamed (contextOf S options) p.order = .ok p.defs ∧
      p.order = sortStrings ((contextOf S options).index.map (·.2)) := by
  rw [program_lower] at h
  obtain ⟨defs, hdefs, h⟩ := except_bind_ok h
  obtain ⟨root, hroot, h⟩ := except_bind_ok h
  obtain ⟨title, -, h⟩ := except_bind_ok h
  rw [← Except.ok.inj h]
  exact ⟨hroot, hdefs, rfl⟩

/-- outcomes that are both failures, or both values that are related -/
def Together {α β : Type} (R : α → β → Prop) (x : Outcome α) (y : Outcome β) : Prop :=
  ((∃ e, x = .error e) ∧ ∃ e, y = .error e) ∨ ∃ a b, x = .ok a ∧ y = .ok b ∧ R a b

theorem Together.imp {α β : Type} {R R' : α → β → Prop} {x : Outcome α} {y : Outcome β} (h : Together R x y)
    (hR : ∀ a b, R a b → R' a b) : Together R' x y :=
  h.imp_right fun ⟨a, b, hx, hy, hab⟩ => ⟨a, b, hx, hy, hR a b hab⟩

theorem Together.bind {α β γ δ : Type} {R : α → β → Prop} {R' : γ → δ → Prop} {x : Outcome α} {y : Outcome β}
    (h : Together R x y) {k : α → Outcome γ} {l : β → Outcome δ}
    (hk : ∀ a b, x = .ok a → y = .ok b → R a b → Together R' (k a) (l b)) : Together R' (x >>= k) (y >>= l) := by
  obtain ⟨⟨e, rfl⟩, e', rfl⟩ | ⟨a, b, rfl, rfl, hab⟩ := h
  · exact .inl ⟨⟨e, rfl⟩, e', rfl⟩
  · exact hk a b rfl rfl hab

theorem together_map {α β : Type} {x : Outcome α} {y : Outcome β} {r : α → β} (h : y = x.map r) :
    Together (fun a b => b = r a) x y := by
  cases x with
  | error e => exact .inl ⟨⟨e, rfl⟩, e, h⟩
  | ok a => exact .inr ⟨a, _, rfl, h, rfl⟩

section

variable {S S' : Schema} {options : CompileOptions} {r : String → String}

/-- definitions that correspond are lowered together -/
theorem named_relink {names names' : List String} (hnames : names'.Perm (names.map f))
    (hdefs : ∀ n ∈ names, lower cx' (cx'.definition (f n)) = (lower cx (cx.definition n)).map (Shape.redirect f)) :
    Together (fun defs defs' => defs'.Perm (defs.map fun e => (f e.1, e.2.redirect f)))
      (lowerNamed cx names) (lowerNamed cx' names') := by
  have hall : (∀ n ∈ names', ∃ s, lower cx' (cx'.definition n) = .ok s) ↔ ∀ n ∈ names, ∃ s, lower cx (cx.definition n) = .ok s := by
    have hone : ∀ n ∈ names, (∃ s, lower cx' (cx'.definition (f n)) = .ok s) ↔ ∃ s, lower cx (cx.definition n) = .ok s := by
      intro n hn
      rw [hdefs n hn]
      cases lower cx (cx.definition n) <;> simp [Except.map]
    simp only [hnames.mem_iff, List.forall_mem_map]
    exact forall₂_congr hone
  rcases hx : lowerNamed cx names with e | defs
  · refine .inl ⟨⟨e, rfl⟩, ?_⟩
    rcases hy : lowerNamed cx' names' with e' | defs'
    · exact ⟨e', rfl⟩
    · obtain ⟨defs, hdefs⟩ := lowerNamed_isOk.2 (hall.1 (lowerNamed_isOk.1 ⟨defs', hy⟩))
      rw [hx] at hdefs
      cases hdefs
  · obtain ⟨defs', hy⟩ := lowerNamed_isOk.2 (hall.2 (lowerNamed_isOk.1 ⟨defs, hx⟩))
    refine .inr ⟨defs, defs', rfl, hy, ?_⟩
    have hshape : ∀ n ∈ names, cx'.shape (f n) = (cx.shape n).redirect f := by
      intro n hn
      obtain ⟨s, hs⟩ := lowerNamed_isOk.1 ⟨defs, hx⟩ n hn
      rw [Context.shape, Context.shape, hdefs n hn, hs]
      rfl
    rw [lowerNamed_ok hx, lowerNamed_ok hy]
    refine (hnames.map _).trans (.of_eq ?_)
    rw [List.map_map, List.map_map]
    exact List.map_congr_left fun n hn => by simp only [Function.comp, hshape n hn]

/-- **Documents with other links.** A document and one whose links and names of definitions are changed are lowered
together, to programs that are the same but for the names. -/
theorem program_relink (h : Corresponds L g f (contextOf S options) (contextOf S' options))
    (hS : (ofBody S.body).Everywhere (Linking L)) (hroot : (ofBody S'.body).bare = (ofBody S.body).relink g)
    (hnames : ((contextOf S' options).index.map (·.2)).Perm (((contextOf S options).index.map (·.2)).map f))
    (hdefs : ∀ n ∈ (contextOf S options).index.map (·.2),
      ((contextOf S options).definition n).Everywhere (Linking L) ∧
        ((contextOf S' options).definition (f n)).bare = ((contextOf S options).definition n).relink g)
    (htitle : title S'.body = (title S.body).map r) :
    Together (fun p p' => p.Renamed f p' ∧ p'.title = r p.title ∧
        p.defs.map (·.1) = sortStrings ((contextOf S options).index.map (·.2)))
      (Program.lower S options) (Program.lower S' options) := by
  have hsort (xs : List String) : (sortStrings xs).Perm xs := List.mergeSort_perm _ _
  have horder : (sortStrings ((contextOf S' options).index.map (·.2))).Perm
      ((sortStrings ((contextOf S options).index.map (·.2))).map f) :=
    (hsort _).trans (hnames.trans ((hsort _).map f).symm)
  have hlower : ∀ n ∈ sortStrings ((contextOf S options).index.map (·.2)),
      lower (contextOf S' options) ((contextOf S' options).definition (f n)) =
        (lower (contextOf S options) ((contextOf S options).definition n)).map (Shape.redirect f) := by
    intro n hn
    obtain ⟨hlinks, hbare⟩ := hdefs n ((hsort _).mem_iff.1 hn)
    rw [← lower_bare, hbare]
    exact lower_relink h hlinks
  rw [program_lower, program_lower]
  refine (named_relink horder hlower).bind fun defs defs' hd _ hperm => ?_
  refine (together_map (r := Shape.redirect f) ?_).bind fun root root' _ _ hr => ?_
  · rw [← lower_bare, hroot]
    exact lower_relink h hS
  refine (together_map htitle).bind fun t t' _ _ ht => .inr ⟨_, _, rfl, rfl, ⟨hr, hperm, horder⟩, ht, ?_⟩
  rw [lowerNamed_ok hd, List.map_map]
  simp [Function.comp_def]

end

end Lowering

end Schemata
