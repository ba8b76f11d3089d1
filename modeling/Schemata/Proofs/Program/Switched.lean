import Mathlib.Tactic
import Schemata.Proofs.Program.Relinking
import Schemata.Proofs.Program.Shapes
import Schemata.Proofs.Program.Tagged

/-!
Lowering with and without dispatch.

Where no dispatch breaks off, a document is lowered to two programs that differ in dispatch alone (`program_switch`),
whether or not dispatch is asked for; what is known of the variants of a level and its dispatch (`Dispatching`) carries
over to the unions of the programs.
-/

namespace Schemata

namespace Lowering

open Schema (Body ofBody Everywhere everywhere_ofBody)
open Shape (Dispatches)

section

variable {α β γ δ : Type} {R : α → β → Prop}

theorem Together.map {R' : γ → δ → Prop} {x : Outcome α} {y : Outcome β} (h : Together R x y) {f : α → γ} {g : β → δ}
    (hR : ∀ a b, R a b → R' (f a) (g b)) : Together R' (x.map f) (y.map g) := by
  obtain ⟨⟨e, rfl⟩, e', rfl⟩ | ⟨a, b, rfl, rfl, hab⟩ := h
  · exact .inl ⟨⟨e, rfl⟩, e', rfl⟩
  · exact .inr ⟨_, _, rfl, rfl, hR a b hab⟩

/-- one outcome beside itself -/
theorem together_self {R : α → α → Prop} {x : Outcome α} (h : ∀ a, x = .ok a → R a a) : Together R x x := by
  cases x with
  | error e => exact .inl ⟨⟨e, rfl⟩, e, rfl⟩
  | ok a => exact .inr ⟨a, a, rfl, rfl, h a rfl⟩

end

/-- the same document with dispatch asked for or not -/
def Context.switch (L : Context) (on : Bool) : Context := { L with options := { L.options with discriminator := on } }

variable {T : List Shape → Dispatch → Prop} {L : Context} {b : Body}

/-- with dispatch asked for, the level has one, and `T` holds of it and the shapes of its variants -/
def Dispatching (T : List Shape → Dispatch → Prop) (L : Context) (b : Body) : Prop :=
  ∀ ones, lowerGiven (L.switch false) b.oneOf = .ok ones →
    ∃ d, dispatch (L.switch true) b.own (b.oneOf.getD []) = .ok d ∧ (d.property ≠ "" → T ones d)

/-- a schema whose shapes with and without dispatch differ in dispatch alone -/
abbrev Pairs (T : List Shape → Dispatch → Prop) (L : Context) (s : Schema) : Prop :=
  Together (Dispatches T) (lower (L.switch false) s) (lower (L.switch true) s)

/-! ## Shapes below -/

theorem list_pairs {ss : List Schema} (h : ∀ s ∈ ss, Pairs T L s) :
    Together (List.Forall₂ (Dispatches T)) (lowerList (L.switch false) ss) (lowerList (L.switch true) ss) := by
  induction ss with
  | nil => exact .inr ⟨[], [], rfl, rfl, .nil⟩
  | cons s ss ih =>
    rw [lowerList, lowerList]
    exact (h s List.mem_cons_self).bind fun x y _ _ hxy =>
      (ih fun t ht => h t (List.mem_cons_of_mem s ht)).bind fun xs ys _ _ hs => .inr ⟨_, _, rfl, rfl, .cons hxy hs⟩

theorem given_pairs {o : Option (List Schema)} (h : ∀ s ∈ o.getD [], Pairs T L s) :
    Together (List.Forall₂ (Dispatches T)) (lowerGiven (L.switch false) o) (lowerGiven (L.switch true) o) := by
  cases o with
  | none => exact .inr ⟨[], [], rfl, rfl, .nil⟩
  | some ss => exact list_pairs h

/-- members under the same keys, in shapes that differ in dispatch alone -/
abbrev Members (T : List Shape → Dispatch → Prop) (fs gs : List (String × Shape)) : Prop :=
  gs.map (·.1) = fs.map (·.1) ∧ List.Forall₂ (Dispatches T) (fs.map (·.2)) (gs.map (·.2))

theorem fields_pairs {fs : List (String × Schema)} (h : ∀ e ∈ fs, Pairs T L e.2) :
    Together (Members T) (lowerFields (L.switch false) fs) (lowerFields (L.switch true) fs) := by
  induction fs with
  | nil => exact .inr ⟨[], [], rfl, rfl, rfl, .nil⟩
  | cons e fs ih =>
    rw [lowerFields, lowerFields]
    exact (h e List.mem_cons_self).bind fun x y _ _ hxy =>
      (ih fun t ht => h t (List.mem_cons_of_mem e ht)).bind fun xs ys _ _ hs =>
        .inr ⟨_, _, rfl, rfl, by simp [hs.1], .cons hxy hs.2⟩

theorem optional_pairs {o : Option (List (String × Schema))} (h : ∀ e ∈ o.getD [], Pairs T L e.2) :
    Together (Members T) (lowerOptional (L.switch false) o) (lowerOptional (L.switch true) o) := by
  cases o with
  | none => exact .inr ⟨[], [], rfl, rfl, rfl, .nil⟩
  | some fs => exact fields_pairs h

theorem extent_pairs {x : Extent} (h : ∀ s ∈ Schema.Extent.toList x, Pairs T L s) :
    Together (fun e f => f.1 = e.1 ∧ Dispatches T e.2 f.2) (lowerExtent (L.switch false) x) (lowerExtent (L.switch true) x) := by
  cases x with
  | unset => exact .inr ⟨_, _, rfl, rfl, rfl, .absent⟩
  | flag c => exact .inr ⟨_, _, rfl, rfl, rfl, .absent⟩
  | sub s =>
    have hs : Pairs T L s := h s (by simp [Schema.Extent.toList, Schema.Beyond.ofExtent, Schema.Beyond.toList])
    exact hs.map fun x y hxy => ⟨rfl, hxy⟩

theorem items_pairs {x : Items} (h : ∀ s ∈ Schema.Items.toList x, Pairs T L s) :
    Together (fun e f => Option.Rel (List.Forall₂ (Dispatches T)) e.1 f.1 ∧ Dispatches T e.2 f.2)
      (lowerItems (L.switch false) x) (lowerItems (L.switch true) x) := by
  cases x with
  | unset => exact .inr ⟨_, _, rfl, rfl, .none, .absent⟩
  | single s =>
    have hs : Pairs T L s := h s (by simp [Schema.Items.toList, Schema.Elements.ofItems, Schema.Elements.toList])
    rw [lowerItems, lowerItems]
    split
    · exact .inr ⟨_, _, rfl, rfl, .none, .absent⟩
    · exact hs.map fun x y hxy => ⟨.none, hxy⟩
  | tuple ss =>
    have hss := list_pairs fun s hs =>
      h s (by simpa [Schema.Items.toList, Schema.Elements.ofItems, Schema.Elements.toList] using hs)
    exact hss.map fun xs ys hxys => ⟨.some hxys, .absent⟩

/-! ## One level -/

theorem object_pairs (h : b.Below (Pairs T L)) :
    Together (Dispatches T) (objectShape (L.switch false) b) (objectShape (L.switch true) b) := by
  unfold objectShape
  refine (optional_pairs h.properties).bind fun fs gs _ _ hfs => (extent_pairs h.additional).bind fun x y _ _ hxy => ?_
  obtain ⟨unknown, extra⟩ := x
  obtain ⟨unknown', extra'⟩ := y
  obtain ⟨rfl, hextra⟩ := hxy
  have hshape (q : ObjectPolicy) : Dispatches T (.object {} fs extra q) (.object {} gs extra' q) :=
    .object hfs.1 hfs.2 hextra
  simp only
  split
  · exact (together_self (R := Eq) fun _ _ => rfl).bind fun _ _ _ _ _ => .inr ⟨_, _, rfl, rfl, hshape _⟩
  · exact .inr ⟨_, _, rfl, rfl, hshape _⟩

theorem array_pairs (h : b.Below (Pairs T L)) :
    Together (Dispatches T) (arrayShape (L.switch false) b) (arrayShape (L.switch true) b) := by
  unfold arrayShape
  refine (items_pairs h.items).bind fun x y _ _ hxy => ?_
  obtain ⟨shapes, single⟩ := x
  obtain ⟨shapes', single'⟩ := y
  obtain ⟨hshapes, hsingle⟩ := hxy
  cases hshapes with
  | none => exact .inr ⟨_, _, rfl, rfl, .array hsingle⟩
  | some hshapes =>
    refine (extent_pairs h.additionalItems).bind fun e f _ _ hef => ?_
    obtain ⟨beyond, rest⟩ := e
    obtain ⟨beyond', rest'⟩ := f
    obtain ⟨rfl, hrest⟩ := hef
    simp only [← hshapes.length_eq]
    exact .inr ⟨_, _, rfl, rfl, .tuple hshapes hrest⟩

theorem typed_pairs (h : b.Below (Pairs T L)) (t : String) :
    Together (Dispatches T) (typedShape (L.switch false) b t) (typedShape (L.switch true) b t) := by
  unfold typedShape
  split
  · refine together_self (x := stringShape L b.own) fun x hx => ?_
    rw [stringShape_ok hx]
    exact .primitive _ _
  · refine together_self fun x hx => ?_
    rw [numberShape_ok hx]
    exact .primitive _ _
  · refine together_self fun x hx => ?_
    rw [numberShape_ok hx]
    exact .primitive _ _
  · exact .inr ⟨_, _, rfl, rfl, .primitive _ _⟩
  · exact .inr ⟨_, _, rfl, rfl, .primitive _ _⟩
  · exact object_pairs h
  · exact array_pairs h
  · exact .inl ⟨⟨_, rfl⟩, _, rfl⟩

theorem typedShapes_pairs {several : Bool} {typed typed' : String → Outcome Shape}
    (h : ∀ t, Together (Dispatches T) (typed t) (typed' t)) (ts : List String) :
    Together (fun e f => List.Forall₂ (Dispatches T) e.1 f.1 ∧ f.2 = e.2) (typedShapes several typed ts)
      (typedShapes several typed' ts) := by
  induction ts with
  | nil => exact .inr ⟨_, _, rfl, rfl, .nil, rfl⟩
  | cons t ts ih =>
    rw [typedShapes, typedShapes]
    split
    · exact ih.map fun e f hef => ⟨hef.1, rfl⟩
    · exact (h t).bind fun x y _ _ hxy => ih.bind fun e f _ _ hef => .inr ⟨_, _, rfl, rfl, .cons hxy hef.1, hef.2⟩

theorem anyShape_pairs {ss ts : List Shape} (h : List.Forall₂ (Dispatches T) ss ts) :
    Dispatches T (anyShape ss) (anyShape ts) := by
  match ss, ts, h with
  | [], [], h => exact .anyOf h
  | [s], [t], .cons hst .nil => exact hst
  | s :: s' :: ss, t :: t' :: ts, h => exact .anyOf h

theorem allShape_pairs {ss ts : List Shape} (h : List.Forall₂ (Dispatches T) ss ts) :
    Dispatches T (allShape ss) (allShape ts) := by
  match ss, ts, h with
  | [], [], h => exact .any {}
  | [s], [t], .cons hst .nil => exact hst
  | s :: s' :: ss, t :: t' :: ts, h => exact .allOf h

theorem isEmpty_pairs {ss ts : List Shape} (h : List.Forall₂ (Dispatches T) ss ts) : ts.isEmpty = ss.isEmpty := by
  cases h <;> rfl

theorem valueParts_pairs {ss ts : List Shape} (h : List.Forall₂ (Dispatches T) ss ts) (types : List String) (vs : List Value) :
    List.Forall₂ (Dispatches T) (valueParts types ss vs) (valueParts types ts vs) := by
  unfold valueParts
  rw [isEmpty_pairs h]
  split_ifs
  · exact .nil
  · exact .cons (anyShape_pairs h) .nil
  · exact .cons (.enum {} vs) .nil
  · exact .cons (anyShape_pairs h) (.cons (.enum {} vs) .nil)

theorem partsOf_pairs {ss ts anys anys' ones ones' alls alls' : List Shape} {d : Dispatch}
    (hss : List.Forall₂ (Dispatches T) ss ts) (hanys : List.Forall₂ (Dispatches T) anys anys')
    (hones : List.Forall₂ (Dispatches T) ones ones') (hd : d.property ≠ "" → T ones d)
    (halls : List.Forall₂ (Dispatches T) alls alls') :
    List.Forall₂ (Dispatches T) (partsOf b ss anys ones {} alls) (partsOf b ts anys' ones' d alls') := by
  unfold partsOf
  rw [isEmpty_pairs hanys, isEmpty_pairs hones]
  refine List.rel_append (List.rel_append (List.rel_append (valueParts_pairs hss _ _) ?_) ?_) halls
  · split
    · exact .nil
    · exact .cons (.anyOf hanys) .nil
  · split
    · exact .nil
    · exact .cons (.oneOf hones hd) .nil

theorem finished_pairs {k : Keywords} {nullable : Bool} {s t : Shape} (h : Dispatches T s t) :
    Together (Dispatches T) (finished (L.switch false) k nullable s) (finished (L.switch true) k nullable t) :=
  (together_self (x := checkedRules k.rules) (R := Eq) fun _ _ => rfl).bind fun _ _ _ _ _ =>
    .inr ⟨_, _, rfl, rfl, h.mapBase _⟩

/-- where dispatch is not asked for, there is none -/
theorem dispatched_off (ones : List Shape) : dispatched (L.switch false) b ones = .ok {} := by
  unfold dispatched dispatch
  split
  · rfl
  · split
    · rfl
    · rw [if_pos (by simp [Context.switch])]

theorem level_pairs (hb : Dispatching T L b) (h : b.Below (Pairs T L)) : Pairs T L (ofBody b) := by
  unfold Pairs
  rw [lower_ofBody, lower_ofBody]
  split
  · refine (together_self (x := reference L b.own.ref) (R := Dispatches T) fun x hx => ?_).bind fun x y _ _ hxy =>
      finished_pairs hxy
    obtain ⟨name, rfl⟩ := reference_ok hx
    exact .ref _ _
  · unfold bodyShape
    refine (typedShapes_pairs (typed_pairs h) _).bind fun x y _ _ hxy => ?_
    obtain ⟨shapes, nullable⟩ := x
    obtain ⟨shapes', nullable'⟩ := y
    obtain ⟨hshapes, rfl⟩ := hxy
    refine (given_pairs h.anyOf).bind fun anys anys' _ _ hanys => ?_
    refine (given_pairs h.oneOf).bind fun ones ones' hlowered _ hones => ?_
    obtain ⟨d, hd, hT⟩ := hb ones hlowered
    have hdispatched : ∃ d', dispatched (L.switch true) b ones' = .ok d' ∧ (d'.property ≠ "" → T ones d') := by
      unfold dispatched
      split
      · exact ⟨{}, rfl, fun hne => absurd rfl hne⟩
      · exact ⟨d, hd, hT⟩
    obtain ⟨d', hd', hT'⟩ := hdispatched
    rw [dispatched_off, hd']
    exact (given_pairs h.allOf).bind fun alls alls' _ _ halls =>
      finished_pairs (allShape_pairs (partsOf_pairs hshapes hanys hones hT' halls))

/-- **Shapes with and without dispatch.** -/
theorem lower_switch {s : Schema} (hs : s.Everywhere (Dispatching T L)) : Pairs T L s := by
  induction s using Schema.treeInduction with
  | absent => exact .inr ⟨_, _, rfl, rfl, .any {}⟩
  | node b ih =>
    obtain ⟨level, below⟩ := everywhere_ofBody.1 hs
    exact level_pairs level (Body.forall_below.1 fun s hs => Body.forall_below.2 ih s hs (below s hs))

/-! ## Programs -/

/-- programs that differ in dispatch alone -/
structure Switches (T : List Shape → Dispatch → Prop) (p q : Program) : Prop where
  root : Dispatches T p.root q.root
  order : q.order = p.order
  defs : Members T p.defs q.defs

theorem Switches.target {p q : Program} (h : Switches T p q) (n : String) :
    Option.Rel (Dispatches T) (p.target? n) (q.target? n) := by
  have hget {fs gs : List (String × Shape)} (hfs : Members T fs gs) :
      Option.Rel (Dispatches T) (Dict.get? fs n) (Dict.get? gs n) := by
    have h := Check.forall₂_entries hfs.1 hfs.2
    clear hfs
    induction h with
    | nil => exact .none
    | @cons e f fs gs hef _ ih =>
      rw [Dict.get?, Dict.get?, List.find?_cons, List.find?_cons, hef.1]
      split
      · exact .some hef.2
      · exact ih
  unfold Program.target?
  rw [h.order]
  split_ifs
  · exact .some h.root
  · have hdefault {o o' : Option Shape} (ho : Option.Rel (Dispatches T) o o') :
        Dispatches T (o.getD .absent) (o'.getD .absent) := by
      cases ho with
      | none => exact .absent
      | some hst => exact hst
    exact .some (hdefault (hget h.defs))
  · exact .none

theorem named_pairs {names : List String} (h : ∀ n ∈ names, Pairs T L (L.definition n)) :
    Together (Members T) (lowerNamed (L.switch false) names) (lowerNamed (L.switch true) names) := by
  induction names with
  | nil => exact .inr ⟨[], [], rfl, rfl, rfl, .nil⟩
  | cons n names ih =>
    rw [lowerNamed, lowerNamed]
    exact (h n List.mem_cons_self).bind fun x y _ _ hxy =>
      (ih fun m hm => h m (List.mem_cons_of_mem n hm)).bind fun xs ys _ _ hs =>
        .inr ⟨_, _, rfl, rfl, by simp [hs.1], .cons hxy hs.2⟩

/-- **Programs with and without dispatch.** -/
theorem program_switch {S : Schema} {o : CompileOptions} (hS : (ofBody S.body).Everywhere (Dispatching T (contextOf S o))) :
    Together (Switches T) (Program.lower S { o with discriminator := false })
      (Program.lower S { o with discriminator := true }) := by
  rw [program_lower, program_lower]
  refine (named_pairs (L := contextOf S o) fun n _ => lower_switch ?_).bind fun defs defs' _ _ hdefs =>
    (lower_switch hS).bind fun root root' _ _ hroot =>
      (together_self (x := title S.body) (R := Eq) fun _ _ => rfl).bind fun t t' _ _ _ =>
        .inr ⟨_, _, rfl, rfl, hroot, rfl, hdefs⟩
  unfold Context.definition
  cases hd : (contextOf S o).document.definition? n with
  | none => exact .absent
  | some s => exact (everywhere_ofBody.1 hS).2 s (definition?_below hd)

end Lowering

end Schemata
