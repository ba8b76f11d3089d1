import Mathlib.Tactic
import Schemata.Proofs.Program.Selected
import Schemata.Proofs.Program.Switched
import Schemata.Proofs.Program.Targets

/-!
Dispatch on a discriminator.

The variants of a union are `Separated` when each is, or leads by references to, a schema of objects that requires the
discriminator and pins it to a text of its own. Then a variant that accepts a value is the one that its tag selects
(`separated_sure`), and dispatch changes no answer.

Main result: `dispatch_refines`. A document all of whose discriminators are of this kind has programs with and without
dispatch, and where a check without dispatch ends, the check with dispatch ends alike. The names that references lead to must
hold no slash: behind one, dispatch looks for another definition than the reference itself, as in `dispatch_astray`.
-/

namespace Schemata

namespace Check

variable {cx : Context} {s : Shape} {v : Value} {a : Pointer}

/-- a check that finds nothing wrong, of a shape that does not let null pass -/
theorem own_of_clean (hn : s.base.nullable = false) {fuel : Nat} (h : issues cx fuel s v a = some []) :
    ∃ n, own cx (issues cx n) s v a = some [] := by
  cases fuel with
  | zero => cases h
  | succ n =>
    rw [issues_succ, hn, if_neg (by simp)] at h
    obtain ⟨is, his, hrules⟩ := Option.map_eq_some_iff.1 h
    refine ⟨n, ?_⟩
    cases is with
    | nil => exact his
    | cons i is => cases hrules

theorem concat_clean {os : List (Option (List Issue))} (h : concat os = some []) : ∀ o ∈ os, o = some [] := by
  induction os with
  | nil => simp
  | cons o os ih =>
    rw [concat_cons] at h
    obtain ⟨is, rfl, h⟩ := Option.bind_eq_some_iff.1 h
    obtain ⟨js, hjs, happend⟩ := Option.map_eq_some_iff.1 h
    obtain ⟨rfl, rfl⟩ := List.append_eq_nil_iff.1 happend
    exact List.forall_mem_cons.2 ⟨rfl, ih hjs⟩

theorem own_mapBase (f : Base → Base) (check : Shape → Value → Pointer → Option (List Issue)) :
    own cx check (s.mapBase f) v a = own cx check s v a := by
  cases s <;> rfl

open Lowering (allShape)

/-- a part of a level finds nothing wrong where the level finds nothing wrong -/
theorem part_of_clean {ps : List Shape} (hs : s ∈ ps) (hn : s.base.nullable = false) (hpresent : s.isAbsent = false)
    {f : Base → Base} (hf : ∀ b, (f b).nullable = b.nullable) {fuel : Nat}
    (h : issues cx fuel ((allShape ps).mapBase f) v a = some []) : ∃ n, own cx (issues cx n) s v a = some [] := by
  match ps, hs with
  | [t], hs =>
    obtain rfl := List.mem_singleton.1 hs
    obtain ⟨n, hown⟩ := own_of_clean (by rw [allShape, Shape.base_mapBase hpresent, hf, hn]) h
    rw [allShape, own_mapBase] at hown
    exact ⟨n, hown⟩
  | t :: u :: ps, hs =>
    have hall : allShape (t :: u :: ps) = .allOf {} (t :: u :: ps) := rfl
    obtain ⟨n, hown⟩ := own_of_clean (by
      rw [hall]
      exact hf {}) h
    rw [hall, own_mapBase] at hown
    exact own_of_clean hn (concat_clean hown _ (List.mem_map_of_mem hs))

/-- what an object shape without anything wrong tells of the value -/
theorem object_of_clean {b : Base} {fields : List (String × Shape)} {extra : Shape} {q : ObjectPolicy} {n : Nat}
    (h : own cx (issues cx n) (.object b fields extra q) v a = some []) :
    ∃ fs, v = .object fs ∧ (∀ k ∈ q.required, Dict.has fs k = true) ∧
      ∀ e ∈ fields, ∀ x, Dict.get? fs e.1 = some x → issues cx n e.2 x (a.field e.1) = some [] := by
  cases v with
  | object fs =>
    have hclean := concat_clean h
    refine ⟨fs, rfl, fun k hk => ?_, fun e he x hx => ?_⟩
    · have hmissing : (missing cx fs a (q.requiredKeys fields)).isEmpty = true := by
        rw [Option.some.inj (hclean _ List.mem_cons_self)]
        rfl
      rw [isEmpty_missing, all_requiredKeys] at hmissing
      exact List.all_eq_true.1 hmissing k hk
    · have hfield := hclean _ (List.mem_append_left _ (List.mem_cons_of_mem _ (List.mem_append_left _ (List.mem_map_of_mem he))))
      simpa [hx] using hfield
  | _ => cases h

end Check

namespace Lowering

open Schema (Body ofBody Everywhere everywhere_ofBody)

/-! ## Variants that are told apart -/

/-- null is accepted in place of the level -/
def Nulls (dialect : Dialect) (k : Keywords) : Prop := dialect = .openapi ∧ k.nullable = true

/-- at most `n` references, to definitions with names without slashes, lead from the level to one that is no reference -/
inductive Leads (D : Body) (dialect : Dialect) : Nat → Body → Body → Prop
  | here {n : Nat} {b : Body} (href : b.own.ref = "") : Leads D dialect n b b
  | step {n : Nat} {b c e : Body} {k : Table} {token name : String} (href : b.own.ref = k.pointer ++ token)
      (hslash : '/' ∉ token.toList) (hlinked : linked D token = some name) (hname : name ≠ "")
      (hdefined : D.definition? name = some (ofBody c)) (hnull : ¬ Nulls dialect b.own) (next : Leads D dialect n c e) :
      Leads D dialect (n + 1) b e

/-- a level of objects that requires the key and pins its value to the text -/
structure Pinned (dialect : Dialect) (key tag : String) (c : Body) : Prop where
  object : impliedTypes c = ["object"]
  unlisted : listed c.own = []
  strict : ¬ Nulls dialect c.own
  required : key ∈ c.own.required
  constant : ∃ k : Body, Dict.get? (c.properties.getD []) key = some (ofBody k) ∧ k.own.ref = "" ∧
    listed k.own = [.string tag] ∧ "null" ∉ impliedTypes k ∧ ¬ Nulls dialect k.own

/-- the variants lead to levels that pin the property of the discriminator to different texts -/
structure Separated (D : Body) (dialect : Dialect) (d : Discriminator) (vs : List Schema) : Prop where
  unmapped : d.mapping = []
  pinned : ∃ ts : List String, ts.Nodup ∧ List.Forall₂ (fun v t => ∃ b c, v = ofBody b ∧ Leads D dialect 8 b c ∧
    Pinned dialect d.propertyName t c) vs ts

/-- a level whose discriminator, if it has one, tells its variants apart -/
def Apart (S : Schema) (o : CompileOptions) (b : Body) : Prop :=
  ∀ d, b.own.discriminator = some d → d.propertyName ≠ "" → Separated S.body o.dialect d (b.oneOf.getD [])

variable {S : Schema} {o : CompileOptions} {p : Program} {n : Nat} {b c : Body} {d : Discriminator} {key t : String}

/-! ## Tags -/

theorem table_ne_root (k : Table) (token : String) : k.pointer ++ token ≠ "#" := by
  intro heq
  have hlocal := localName?_table k token
  rw [heq] at hlocal
  cases hlocal

theorem table_ne_empty (k : Table) (token : String) : k.pointer ++ token ≠ "" := by
  intro heq
  have hlocal := localName?_table k token
  rw [heq] at hlocal
  cases hlocal

theorem lastElement_table (k : Table) {token : String} (h : '/' ∉ token.toList) :
    Text.lastElement (k.pointer ++ token) "/" = token := by
  cases k with
  | definitions => exact Text.lastElement_append (c := '/') (a := "#/definitions") h
  | defs => exact Text.lastElement_append (c := '/') (a := "#/$defs") h

/-- behind a pointer without further slashes, dispatch looks at the definition of the reference -/
theorem resolve_table {k : Table} {token name : String} (hslash : '/' ∉ token.toList) (h : linked S.body token = some name) :
    resolve (contextOf S o) (k.pointer ++ token) = S.body.definition? name := by
  rw [resolve, if_neg (table_ne_root k token), lastElement_table k hslash, find?_contextOf, h]
  rfl

theorem reference_table {k : Table} {token name : String} (h : linked S.body token = some name) :
    reference (contextOf S o) (k.pointer ++ token) = .ok (.ref {} name) := by
  rw [reference, if_neg (table_ne_root k token), localName?_table]
  simp only [find?_contextOf, h]

theorem Leads.follow (h : Leads S.body o.dialect n b c) : follow (contextOf S o) n (ofBody b) = .ok (some (ofBody c)) := by
  induction h with
  | @here n b href =>
    cases n with
    | zero => rfl
    | succ n => rw [follow_ofBody, if_pos href]
  | @step n b c e k token name href hslash hlinked hname hdefined hnull next ih =>
    rw [follow_ofBody, href, if_neg (table_ne_empty k token), resolve_table hslash hlinked, hdefined]
    exact ih

/-- a property that lists one text shows it -/
theorem displayed_constant {k : Body} (h : listed k.own = [.string t]) : displayed (some (ofBody k)) = .ok (some t) := by
  unfold displayed
  split
  · rename_i hk
    cases hk
  · rename_i hk
    cases hk
  · rename_i p _ hk
    obtain rfl := Option.some.inj hk
    split
    · rename_i w hconst
      change k.own.const = some w at hconst
      rw [listed, hconst] at h
      cases h
      rfl
    · rename_i hconst
      change k.own.const = none at hconst
      rw [listed, hconst] at h
      change k.own.enum.getD [] = [.string t] at h
      split
      · rename_i w henum
        change k.own.enum = some [w] at henum
        rw [henum] at h
        cases h
        rfl
      · rename_i hother
        -- one text that is listed is an enum of its own
        refine absurd ?_ (hother (.string t))
        change k.own.enum = some [.string t]
        cases henum : k.own.enum with
        | none =>
          rw [henum] at h
          cases h
        | some ws => exact congrArg some (by rwa [henum] at h)

/-- the tag of a variant is the text that it pins -/
theorem tag_pinned (hb : Leads S.body o.dialect 8 b c) (hc : Pinned o.dialect d.propertyName t c) (hd : d.mapping = []) :
    tag (contextOf S o) d (ofBody b) = .ok (some t) := by
  have hmapped : mapped d b.own.ref = none := by
    unfold mapped
    split
    · rfl
    · rw [hd]
      rfl
  obtain ⟨k, hget, -, hlisted, -⟩ := hc.constant
  rw [tag_ofBody, hmapped, hb.follow]
  change displayed (Dict.get? (c.properties.getD []) d.propertyName) = _
  rw [hget, displayed_constant hlisted]

/-- with dispatch asked for, separated variants have it -/
theorem dispatch_separated {vs : List Schema} {k : Keywords} (hk : k.discriminator = some d) (hproperty : d.propertyName ≠ "")
    (h : Separated S.body o.dialect d vs) : ∃ (m : Dict Int) (ts : List String),
      dispatch ((contextOf S o).switch true) k vs = .ok { property := d.propertyName, mapping := some m } ∧
      (∀ (j : Nat) t, ts[j]? = some t → Dict.get? m t = some (j : Int)) ∧
      List.Forall₂ (fun v t => ∃ b c, v = ofBody b ∧ Leads S.body o.dialect 8 b c ∧ Pinned o.dialect d.propertyName t c) vs ts := by
  obtain ⟨ts, hnodup, hpinned⟩ := h.pinned
  have htags : List.Forall₂ (fun v t => tag (contextOf S { o with discriminator := true }) d v = .ok (some t)) vs ts := by
    refine hpinned.imp fun v t hv => ?_
    obtain ⟨b, c, rfl, hlead, hpin⟩ := hv
    exact tag_pinned (o := { o with discriminator := true }) hlead hpin h.unmapped
  refine ⟨places 0 [] ts, ts, ?_, fun j t hj => get?_places.2 ⟨j, rfl, isLast_of_nodup hnodup hj⟩, hpinned⟩
  have hon : ¬ (decide (d.propertyName = "") || !((contextOf S o).switch true).options.discriminator) = true := by
    simp [hproperty, Context.switch]
  unfold dispatch
  simp only [hk]
  rw [if_neg hon]
  change (tags (contextOf S { o with discriminator := true }) d 0 [] vs).map _ = _
  rw [tags_eq htags]
  rfl

/-! ## Values -/

variable {cx : Check.Context} {v : Value} {a : Pointer} {x : Shape} {fuel : Nat}

theorem Leads.ends {D : Body} {dialect : Dialect} (h : Leads D dialect n b c) : c.own.ref = "" := by
  induction h with
  | here href => exact href
  | step _ _ _ _ _ _ _ ih => exact ih

/-- a value that a chain of references lets pass is let pass at its end -/
theorem Leads.clean (h : Leads S.body o.dialect n b c) (hp : Program.lower S o = .ok p) (hcx : cx.program = p)
    (hx : lower (contextOf S o) (ofBody b) = .ok x) (hclean : Check.issues cx fuel x v a = some []) :
    ∃ y m, lower (contextOf S o) (ofBody c) = .ok y ∧ Check.issues cx m y v a = some [] := by
  induction h generalizing x fuel with
  | here href => exact ⟨x, fuel, hx, hclean⟩
  | @step n b c e k token name href hslash hlinked hname hdefined hnull next ih =>
    obtain ⟨name', hreference, rfl⟩ := lower_reference (by rw [href]; exact table_ne_empty k token) hx
    rw [href, reference_table hlinked] at hreference
    cases hreference
    obtain ⟨y, hy, hmeant⟩ := target_lowered hp (.inr (find?_mem (find?_contextOf (o := o) token ▸ hlinked)))
    have hdefinition : (contextOf S o).meant name = ofBody c := by
      rw [Context.meant, if_neg hname]
      change (S.body.definition? name).getD .absent = _
      rw [hdefined]
      rfl
    rw [hdefinition] at hmeant
    obtain ⟨m, hown⟩ := Check.own_of_clean (by simpa [Shape.base, Nulls, contextOf] using hnull) hclean
    subst hcx
    simp only [Check.own, hy] at hown
    exact ih hmeant hown

theorem enum_mem_valueParts {types : List String} {shapes : List Shape} {vs : List Value} (h : vs ≠ []) :
    Shape.enum {} vs ∈ valueParts types shapes vs := by
  unfold valueParts
  rw [if_neg (by simpa using h)]
  split <;> simp

/-- a part of a level that does not let null pass finds nothing wrong where the level finds nothing wrong -/
theorem level_clean (href : b.own.ref = "") (hnull : "null" ∉ impliedTypes b) (hstrict : ¬ Nulls o.dialect b.own)
    (hx : lower (contextOf S o) (ofBody b) = .ok x) (hclean : Check.issues cx fuel x v a = some []) {s : Shape}
    (hs : s.base.nullable = false) (hpresent : s.isAbsent = false)
    (hpart : ∀ shapes nullable, typedShapes ((impliedTypes b).length > 1) (typedShape (contextOf S o) b) (impliedTypes b) =
      .ok (shapes, nullable) → s ∈ valueParts (impliedTypes b) shapes (listed b.own)) :
    ∃ n, Check.own cx (Check.issues cx n) s v a = some [] := by
  obtain ⟨shapes, nullable, anys, ones, d, alls, hshapes, -, -, -, -, -, rfl⟩ := lower_parts href hx
  have hflag : nullable = false := by
    rw [← Bool.not_eq_true, (typedShapes_ok hshapes).1]
    exact fun h => hnull h.2
  have hdialect : ((contextOf S o).options.dialect == .openapi && b.own.nullable) = false := by
    simpa [Nulls, contextOf] using hstrict
  refine Check.part_of_clean ?_ hs hpresent (fun base => ?_) hclean
  · simp [partsOf, hpart shapes nullable hshapes]
  · simp only [hflag, hdialect, Bool.or_false]

/-- a value that the pinned property lets pass is its text -/
theorem constant_clean (href : b.own.ref = "") (hlisted : listed b.own = [.string t]) (hnull : "null" ∉ impliedTypes b)
    (hstrict : ¬ Nulls o.dialect b.own) (hx : lower (contextOf S o) (ofBody b) = .ok x)
    (hclean : Check.issues cx fuel x v a = some []) : v = .string t := by
  obtain ⟨m, hown⟩ := level_clean href hnull hstrict hx hclean (s := .enum {} [.string t]) rfl rfl fun shapes _ _ => by
    rw [hlisted]
    exact enum_mem_valueParts (by simp)
  have hempty : (Check.enum cx [.string t] v a).isEmpty = true := by
    rw [Option.some.inj hown]
    rfl
  have hequal : Value.equal v (.string t) = true := by simpa [Check.enum] using hempty
  exact Value.equal_string hequal

/-- **Pinned levels.** A value that the level lets pass is an object with the text behind the key. -/
theorem Pinned.clean (h : Pinned o.dialect key t c) (href : c.own.ref = "") (hx : lower (contextOf S o) (ofBody c) = .ok x)
    (hclean : Check.issues cx fuel x v a = some []) : ∃ fs, v = .object fs ∧ Dict.get? fs key = some (.string t) := by
  obtain ⟨k, hget, hkref, hlisted, hnull, hstrict⟩ := h.constant
  have hobject : ∃ obj, objectShape (contextOf S o) c = .ok obj := by
    obtain ⟨shapes, nullable, anys, ones, d, alls, hshapes, -⟩ := lower_parts href hx
    obtain ⟨obj, -, hobj⟩ := typedShapes_mem hshapes (t := "object") (by simp [h.object]) (by decide)
    exact ⟨obj, hobj⟩
  obtain ⟨obj, hobj⟩ := hobject
  obtain ⟨fields, unknown, extra, hfields, -, heq⟩ := objectShape_ok hobj
  obtain ⟨m, hown⟩ := level_clean href (by simp [h.object]) h.strict hx hclean (s := obj) (by rw [heq]; rfl) (by rw [heq]; rfl)
    fun shapes nullable hshapes => by
      rw [h.object] at hshapes ⊢
      obtain ⟨-, hforall⟩ := typedShapes_ok hshapes
      obtain _ | ⟨hs, hnil⟩ := hforall
      cases hnil
      rw [h.unlisted, Except.ok.inj (hobj.symm.trans hs)]
      exact List.mem_singleton_self _
  rw [heq] at hown
  obtain ⟨fs, rfl, hrequired, hmembers⟩ := Check.object_of_clean hown
  have hkeys : key ∈ fs.map (·.1) := by
    simpa [Dict.has] using hrequired key (mem_sortedSet.2 h.required)
  obtain ⟨w, hw⟩ := Option.isSome_iff_exists.1 (Dict.get?_isSome_iff.2 hkeys)
  obtain ⟨e, he, hconstant⟩ := Option.map_eq_some_iff.1 hget
  have hkey : e.1 = key := by simpa using List.find?_some he
  obtain ⟨f, hf, hfkey, hlower⟩ := forall₂_mem (lowerOptional_ok hfields) (List.mem_of_find?_eq_some he)
  rw [hconstant] at hlower
  have hmember := hmembers f hf w (by rw [hfkey, hkey, hw])
  rw [constant_clean hkref hlisted hnull hstrict hlower hmember] at hw
  exact ⟨fs, rfl, hw⟩

/-- **A sure dispatch.** A variant that accepts a value is the one that its tag selects. -/
theorem separated_sure (hp : Program.lower S o = .ok p) (hcx : cx.program = p) {vs : List Schema} {ones : List Shape}
    {ts : List String} {m : Dict Int} (hones : List.Forall₂ (fun s y => lower (contextOf S o) s = .ok y) vs ones)
    (hvs : List.Forall₂ (fun v t => ∃ b c, v = ofBody b ∧ Leads S.body o.dialect 8 b c ∧ Pinned o.dialect key t c) vs ts)
    (hm : ∀ (j : Nat) t, ts[j]? = some t → Dict.get? m t = some (j : Int)) :
    Check.Sure cx ones { property := key, mapping := some m } := by
  intro i x hx fuel v a hclean
  obtain ⟨s, hs, hlower⟩ := Check.forall₂_index hones.flip hx
  obtain ⟨t, ht, b, c, rfl, hlead, hpin⟩ := Check.forall₂_index hvs hs
  obtain ⟨y, n, hy, hclean⟩ := hlead.clean hp hcx hlower hclean
  obtain ⟨fs, rfl, hget⟩ := hpin.clean hlead.ends hy hclean
  exact ⟨fs, .string t, rfl, hget, hm i t ht⟩

/-! ## Documents -/

/-- a level whose discriminator tells its variants apart has a dispatch -/
theorem dispatching_apart {T : List Shape → Dispatch → Prop} (hb : Apart S o b)
    (hT : ∀ d, Separated S.body o.dialect d (b.oneOf.getD []) → ∀ ones m ts,
      List.Forall₂ (fun s y => lower ((contextOf S o).switch false) s = .ok y) (b.oneOf.getD []) ones →
      List.Forall₂ (fun v t => ∃ b c, v = ofBody b ∧ Leads S.body o.dialect 8 b c ∧ Pinned o.dialect d.propertyName t c)
        (b.oneOf.getD []) ts →
      (∀ (j : Nat) t, ts[j]? = some t → Dict.get? m t = some (j : Int)) →
      T ones { property := d.propertyName, mapping := some m }) : Dispatching T (contextOf S o) b := by
  intro ones hones
  cases hd : b.own.discriminator with
  | none => exact ⟨{}, by rw [dispatch, hd], fun hne => absurd rfl hne⟩
  | some d =>
    by_cases hproperty : d.propertyName = ""
    · refine ⟨{}, ?_, fun hne => absurd rfl hne⟩
      rw [dispatch, hd]
      simp [hproperty]
    · have hseparated := hb d hd hproperty
      obtain ⟨m, ts, hdispatch, hplaces, hpinned⟩ := dispatch_separated hd hproperty hseparated
      exact ⟨_, hdispatch, fun _ => hT d hseparated ones m ts (lowerGiven_ok hones) hpinned hplaces⟩

/-- **Dispatch changes no answer.** A document whose discriminators tell their variants apart has programs both with and
without dispatch, or neither; and where a check without dispatch ends, the check with dispatch ends as well, and both find
something wrong or neither does. -/
theorem dispatch_refines (hS : S.Everywhere (Apart S o)) :
    Together (fun p q => ∀ coerce words v is, p.validate coerce words v = .ok is →
        ∃ js, q.validate coerce words v = .ok js ∧ (js = [] ↔ is = []))
      (Program.lower S { o with discriminator := false }) (Program.lower S { o with discriminator := true }) := by
  have hlevels : (ofBody S.body).Everywhere (Apart S o) := by
    obtain rfl | ⟨b, rfl⟩ := Schema.eq_absent_or_ofBody S
    · exact Schema.everywhere_ofKeywords.2 nofun
    · exact hS
  have hprograms : Together (Switches fun _ _ => True) (Program.lower S { o with discriminator := false })
      (Program.lower S { o with discriminator := true }) :=
    program_switch (hlevels.imp fun b hb => dispatching_apart hb fun _ _ _ _ _ _ _ _ => trivial)
  obtain hfail | ⟨p, q, hp, hq, -⟩ := hprograms
  · exact .inl hfail
  · refine .inr ⟨p, q, hp, hq, fun coerce words v is his => ?_⟩
    -- the relation of the programs once more, now that the variants are known
    have hswitch : Together (Switches (Check.Sure ⟨p, coerce, words⟩)) (Program.lower S { o with discriminator := false })
        (Program.lower S { o with discriminator := true }) :=
      program_switch (hlevels.imp fun b hb => dispatching_apart hb fun d _ ones m ts hones hpinned hplaces =>
        separated_sure hp rfl hones hpinned hplaces)
    obtain ⟨⟨e, he⟩, -⟩ | ⟨p', q', hp', hq', h⟩ := hswitch
    · rw [hp] at he
      cases he
    · rw [hp] at hp'
      rw [hq] at hq'
      cases hp'
      cases hq'
      obtain ⟨fuel, hfuel⟩ := Check.validate_eq_ok.1 his
      obtain ⟨js, hjs, hempty⟩ := Check.issues_agree h.target fuel h.root v Pointer.root is hfuel
      refine ⟨js, Check.validate_eq_ok.2 ⟨fuel, hjs⟩, ?_⟩
      rw [← List.isEmpty_iff, ← List.isEmpty_iff, hempty]

/-- objects of one kind -/
def kindSchema (kind : String) : Schema := ofBody {
  own := { type := some (.string "object"), required := ["kind"] }
  properties := some [("kind", .ofKeywords { const := some (.string kind) })] }

/-- two kinds of objects, one of them by a reference -/
def kindsDocument : Schema := ofBody {
  own := { discriminator := some { propertyName := "kind" } }
  oneOf := some [.reference "#/definitions/x", kindSchema "y"]
  definitions := [("x", kindSchema "x")] }

/-- without discriminators there is nothing to tell apart -/
theorem apart_of_keywords {s : Schema} (h : ∀ k ∈ s.keywords, k.discriminator = none) : s.Everywhere (Apart S o) := by
  induction s using Schema.treeInduction with
  | absent => exact .absent
  | node b ih =>
    obtain ⟨level, below⟩ := Schema.forall_keywords.1 h
    refine everywhere_ofBody.2 ⟨fun d hd => ?_, fun s hs => ?_⟩
    · rw [level] at hd
      cases hd
    · exact Body.forall_below.2 ih s hs (Body.forall_below.2 below s hs)

theorem dispatch_refines_kinds :
    ∃ p q is js, Program.lower kindsDocument { discriminator := false } = .ok p ∧
      Program.lower kindsDocument { discriminator := true } = .ok q ∧
      p.validate false (fun _ _ => "") (.object [("kind", .string "y")]) = .ok is ∧
      q.validate false (fun _ _ => "") (.object [("kind", .string "y")]) = .ok js ∧ (js = [] ↔ is = []) := by
  have hapart : kindsDocument.Everywhere (Apart kindsDocument {}) := by
    refine everywhere_ofBody.2 ⟨fun d hd _ => ?_, fun s hs => apart_of_keywords fun k hk => ?_⟩
    · obtain rfl : d = { propertyName := "kind" } := (Option.some.inj hd).symm
      have hpinned (kind : String) : Pinned .plain "kind" kind (kindSchema kind).body :=
        ⟨rfl, rfl, nofun, List.mem_singleton_self _, _, rfl, rfl, rfl, List.not_mem_nil, nofun⟩
      refine ⟨rfl, ["x", "y"], by decide, .cons ⟨_, _, rfl, ?_, hpinned "x"⟩ (.cons ⟨_, _, rfl, .here rfl, hpinned "y"⟩ .nil)⟩
      have hlinked : linked kindsDocument.body "x" = some "x" := by decide +kernel
      exact .step (k := .definitions) rfl (by decide) hlinked (by decide) rfl nofun (.here rfl)
    · have hall : (kindsDocument.body.below.flatMap Schema.keywords).all (·.discriminator.isNone) = true := by decide +kernel
      exact Option.isNone_iff_eq_none.1 (List.all_eq_true.1 hall k (List.mem_flatMap.2 ⟨s, hs, hk⟩))
  have heval : (Program.lower kindsDocument { discriminator := false }).toOption.any (fun p =>
      (p.validate false (fun _ _ => "") (.object [("kind", .string "y")])).toOption.isSome) = true := by decide +kernel
  obtain ⟨p, hp, hvalid⟩ := ok_of_any heval
  obtain ⟨⟨e, he⟩, -⟩ | ⟨p', q, hp', hq, h⟩ := dispatch_refines hapart
  · cases hp.symm.trans he
  · cases hp.symm.trans hp'
    cases his : p.validate false (fun _ _ => "") (.object [("kind", .string "y")]) with
    | error e =>
      rw [his] at hvalid
      cases hvalid
    | ok is =>
      obtain ⟨js, hjs, hempty⟩ := h _ _ _ _ his
      exact ⟨p, q, is, js, hp, hq, his, hjs, hempty⟩

/-- a variant behind a name with a slash, beside a definition with the rest of that name -/
def slashedText : String :=
  "\x7b\"definitions\":\x7b" ++
    "\"a/b\":\x7b\"type\":\"object\",\"required\":[\"kind\"],\"properties\":\x7b\"kind\":\x7b\"const\":\"x\"\x7d\x7d\x7d," ++
    "\"b\":\x7b\"type\":\"object\",\"required\":[\"kind\"],\"properties\":\x7b\"kind\":\x7b\"const\":\"y\"\x7d\x7d\x7d\x7d," ++
    "\"oneOf\":[\x7b\"$ref\":\"#/definitions/a/b\"\x7d],\"discriminator\":\x7b\"propertyName\":\"kind\"\x7d\x7d"

/-- **Dispatch that goes astray.** The one variant pins the discriminator; without dispatch it accepts a value that is
rejected with dispatch, where the tag is looked up at another definition. -/
theorem dispatch_astray : ∃ S, Schema.decode slashedText = .ok S ∧
    accepts { discriminator := false } (.object [("kind", .string "x")]) S = true ∧
    rejects { discriminator := true } (.object [("kind", .string "x")]) S = true := by
  obtain ⟨S, hS, hboth⟩ : ∃ S, Schema.decode slashedText = .ok S ∧
      (lowersTo { discriminator := false } (passes { discriminator := false } (.object [("kind", .string "x")])) S &&
        lowersTo { discriminator := true } (refuses { discriminator := true } (.object [("kind", .string "x")])) S) = true := by
    apply Schema.decode_ofList
    · unfold slashedText
      repeat' first | apply Schema.ofList_append | with_reducible exact rfl
    · decide +kernel
  obtain ⟨haccepts, hrejects⟩ := Bool.and_eq_true_iff.1 hboth
  exact ⟨S, hS, any_of_lowersTo haccepts, any_of_lowersTo hrejects⟩

end Lowering

end Schemata
