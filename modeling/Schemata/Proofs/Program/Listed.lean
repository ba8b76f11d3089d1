import Mathlib.Tactic
import Schemata.Proofs.Program.Meets
import Schemata.Proofs.Schema.Decoded

/-!
Listed values.

A level of types, listed values and the keywords of types (`Keyed`) accepts the values that it lists, of one of its types
and within the keywords of that type (`Exact`). But listed values that conform to the types are checked alone, null beside
other types is accepted before anything else, and an empty list is no list.

Main result: `listed_accepts`. The program of such a document accepts the exact values, and those that come in by one of
these three ways; `listed_inexact` has a value for each way.
-/

namespace Schemata

namespace Check

variable {cx : Context} {v : Value}

/-- a base counts for null and for rules alone -/
theorem verdict_mapBase {f : Base → Base} {s : Shape} {b : Bool}
    (hn : ((f s.base).nullable && v.isNull) = (s.base.nullable && v.isNull)) (hr : (f s.base).rules = s.base.rules)
    (h : Verdict cx s v b) : Verdict cx (s.mapBase f) v b := by
  cases hs : s.isAbsent with
  | true =>
    cases s with
    | absent => exact h
    | _ => cases hs
  | false =>
    have hissues (fuel : Nat) (p : Pointer) : issues cx fuel (s.mapBase f) v p = issues cx fuel s v p := by
      cases fuel with
      | zero => rfl
      | succ fuel =>
        have hown : own cx (issues cx fuel) (s.mapBase f) v p = own cx (issues cx fuel) s v p := by cases s <;> rfl
        have hrules : rules cx (f s.base) v p = rules cx s.base v p := by
          funext is
          rw [rules, rules, hr]
        rw [issues_succ, issues_succ, hown, Shape.base_mapBase hs, hn, hrules]
    obtain ⟨fuel, h⟩ := h
    exact ⟨fuel, fun p => by rw [hissues, h p]⟩

end Check

namespace Lowering

open Schema (Body ofBody FiniteBounds Linking Everywhere everywhere_ofBody)
open Check (Verdict Tells)

/-- a level of types, listed values and the keywords of types: no reference, no rules, no compositions, no definitions -/
structure Keyed (b : Body) : Prop where
  ref : b.own.ref = ""
  rules : b.own.rules = []
  discriminator : b.own.discriminator = none
  anyOf : b.anyOf.isNone
  oneOf : b.oneOf.isNone
  allOf : b.allOf.isNone
  definitions : b.definitions.isEmpty
  defs : b.defs.isEmpty

instance (b : Body) : Decidable (Keyed b) :=
  decidable_of_iff (b.own.ref = "" ∧ b.own.rules = [] ∧ b.own.discriminator = none ∧ b.anyOf.isNone ∧ b.oneOf.isNone ∧
      b.allOf.isNone ∧ b.definitions.isEmpty ∧ b.defs.isEmpty)
    ⟨fun ⟨h1, h2, h3, h4, h5, h6, h7, h8⟩ => ⟨h1, h2, h3, h4, h5, h6, h7, h8⟩,
      fun h => ⟨h.ref, h.rules, h.discriminator, h.anyOf, h.oneOf, h.allOf, h.definitions, h.defs⟩⟩

/-- a value equals one that the keywords list -/
def Enumerates (k : Keywords) (v : Value) : Prop := ∃ w ∈ listed k, Value.equal v w = true

/-- the types of a level but null beside others -/
def shown (b : Body) : List String := (impliedTypes b).filter fun t => !(t = "null" && (impliedTypes b).length > 1)

/-- what a level of keywords accepts, given a judgement about the schemas below -/
def Holds (J : Schema → Value → Prop) (o : CompileOptions) (b : Body) (v : Value) : Prop :=
  ((impliedTypes b).length > 1 ∧ "null" ∈ impliedTypes b ∧ v = .null) ∨
    ((listed b.own = [] ∨ Enumerates b.own v) ∧
      (shortcut b = true ∨ (listed b.own = [] ∧ shown b = []) ∨ ∃ t ∈ shown b, Meets J o b v t))

/-! ## One level -/

variable {L : Context} {b : Body} {x : Shape} {J : Schema → Value → Prop}

/-- the shape of a level of keywords -/
theorem lower_keyed (hL : L.options.dialect = .plain) (hb : Keyed b) (h : lower L (ofBody b) = .ok x) :
    ∃ shapes nullable,
      typedShapes ((impliedTypes b).length > 1) (typedShape L b) (impliedTypes b) = .ok (shapes, nullable) ∧
      x = (allShape (valueParts (impliedTypes b) shapes (listed b.own))).mapBase fun base =>
        { base with nullable := base.nullable || nullable } := by
  have hplain : PlainLevel L b := ⟨hL, hb.ref, hb.rules, Option.isNone_iff_eq_none.1 hb.oneOf⟩
  rw [hplain.lower, Option.isNone_iff_eq_none.1 hb.anyOf, Option.isNone_iff_eq_none.1 hb.allOf] at h
  obtain ⟨⟨shapes, nullable⟩, hshapes, h⟩ := except_bind_ok h
  refine ⟨shapes, nullable, hshapes, ?_⟩
  rw [← Except.ok.inj h]
  simp

/-- the parts that check the types and the listed values -/
theorem values_tell {cx : Check.Context} {v : Value} {shapes : List Shape} {P : String → Prop}
    (h : List.Forall₂ (fun t y => Tells cx y v (P t)) (shown b) shapes) :
    Tells cx (allShape (valueParts (impliedTypes b) shapes (listed b.own))) v ((listed b.own = [] ∨ Enumerates b.own v) ∧
      (shortcut b = true ∨ (listed b.own = [] ∧ shown b = []) ∨ ∃ t ∈ shown b, P t)) := by
  obtain ⟨bs, hbs, -, hany⟩ := Check.tells_all (s := id) (v := fun _ => v) h
  have htypes : Verdict cx (anyShape shapes) v (bs.any id) := Check.verdict_anyShape hbs
  have henum : Verdict cx (.enum {} (listed b.own)) v ((listed b.own).any fun w => Value.equal v w) :=
    Check.verdict_enum _ (by simp) rfl
  have hlists : ((listed b.own).any fun w => Value.equal v w) = true ↔ Enumerates b.own v := List.any_eq_true
  have hempty : shapes = [] ↔ shown b = [] := by
    rw [← List.length_eq_zero_iff, ← h.length_eq, List.length_eq_zero_iff]
  unfold valueParts shortcut
  cases hlisted : listed b.own with
  | nil =>
    cases shapes with
    | nil => exact (Check.verdict_allShape .nil).tells (by simp [hempty.1 rfl])
    | cons y ys =>
      have hne : shown b ≠ [] := fun hnil => by simpa using hempty.2 hnil
      exact (Check.verdict_allShape (.cons htypes .nil)).tells (by simpa [hne] using hany)
  | cons w ws =>
    rw [← hlisted]
    have hne : (listed b.own).isEmpty = false := by simp [hlisted]
    have hne' : listed b.own ≠ [] := by simp [hlisted]
    cases hconforms : conforms (impliedTypes b) (listed b.own) with
    | true =>
      rw [hne, if_neg (by simp), if_pos rfl]
      exact (Check.verdict_allShape (.cons henum .nil)).tells (by simpa [hne'] using hlists)
    | false =>
      rw [hne, if_neg (by simp), if_neg (by simp)]
      exact (Check.verdict_allShape (.cons htypes (.cons henum .nil))).tells (by
        simp only [List.all_cons, List.all_nil, Bool.and_true, Bool.and_eq_true, id, hany, hlists]
        simp [hne', and_comm])

theorem types_tell {cx : Check.Context} (hk : FiniteBounds b.own) (hcoerce : cx.coerce = L.options.coerce)
    (hJ : ∀ s ∈ typedSchemas b, ∀ y, lower L s = .ok y → ∀ v, Tells cx y v (J s v)) (habsent : ∀ v, J .absent v)
    {ts : List String} (hts : ∀ t ∈ ts, t ∈ impliedTypes b) {shapes : List Shape}
    (h : List.Forall₂ (fun t y => typedShape L b t = .ok y) ts shapes) (v : Value) :
    List.Forall₂ (fun t y => Tells cx y v (Meets J L.options b v t)) ts shapes := by
  induction h with
  | nil => exact .nil
  | cons hy _ ih =>
    exact .cons (typed_tells hk hcoerce (hts _ List.mem_cons_self) hy hJ habsent v)
      (ih fun t ht => hts t (List.mem_cons_of_mem _ ht))

/-- **One level of keywords.** -/
theorem level_tells {cx : Check.Context} (hL : L.options.dialect = .plain) (hcoerce : cx.coerce = L.options.coerce)
    (hb : Keyed b) (hk : FiniteBounds b.own) (h : lower L (ofBody b) = .ok x)
    (hJ : ∀ s ∈ typedSchemas b, ∀ y, lower L s = .ok y → ∀ v, Tells cx y v (J s v)) (habsent : ∀ v, J .absent v) (v : Value) :
    Tells cx x v (Holds J L.options b v) := by
  obtain ⟨shapes, nullable, hshapes, rfl⟩ := lower_keyed hL hb h
  obtain ⟨hnullable, htyped⟩ := typedShapes_ok hshapes
  obtain ⟨c, hc, hP⟩ := values_tell (v := v) (types_tell hk hcoerce hJ habsent (fun t ht => (List.mem_filter.1 ht).1) htyped v)
  have hpresent : (allShape (valueParts (impliedTypes b) shapes (listed b.own))).isAbsent = false :=
    present_allShape (present_valueParts (present_typedShapes hshapes) _)
  by_cases hflag : nullable = true ∧ v.isNull = true
  · have hv : v = .null := by
      cases v with
      | null => rfl
      | _ => exact absurd hflag.2 (by simp [Value.isNull])
    refine (Check.verdict_null ?_ hflag.2).tells ?_
    · rw [Shape.base_mapBase hpresent]
      simp [hflag.1]
    · have hboth := hnullable.1 hflag.1
      simp only [decide_eq_true_eq] at hboth
      exact iff_of_true rfl (.inl ⟨hboth.1, hboth.2, hv⟩)
  · refine (Check.verdict_mapBase ?_ rfl hc).tells ?_
    · cases hn : nullable with
      | false => simp
      | true =>
        have hv : v.isNull = false := by simpa [hn] using hflag
        simp [hv]
    · refine hP.trans (or_iff_right ?_).symm
      rintro ⟨hseveral, hnull, rfl⟩
      exact hflag ⟨hnullable.2 ⟨by simpa using hseveral, hnull⟩, rfl⟩

/-! ## Documents -/

/-- the document has a program, which finds nothing wrong with the value -/
def Accepts (o : CompileOptions) (S : Schema) (v : Value) : Prop :=
  ∃ p, Program.lower S o = .ok p ∧ ∀ t, p.validate o.coerce t v = .ok []

/-- keywords are lowered in the same way in every document -/
theorem lower_alone {L' : Context} (h : L'.options = L.options) {s : Schema} (hs : s.Everywhere Keyed) :
    lower L' s = lower L s := by
  have hlinks : s.Everywhere (Linking (· = "")) := hs.imp fun b hb l hl => by
    simpa [Schema.links, hb.ref, hb.discriminator] using hl
  have hcorresponds (M : Context) (hM : L'.options = M.options) : Corresponds (· = "") id id M L' :=
    { options := hM
      empty := by simp
      shape := fun l hl hne => absurd hl hne
      target := fun l hl hne => absurd hl hne
      linking := fun l s hl hne => absurd hl hne
      apart := by
        rintro l m rfl rfl
        exact iff_of_true rfl rfl }
  have hid (x : Outcome Shape) : x.map (Shape.redirect id) = x := by
    cases x with
    | error e => rfl
    | ok x => exact congrArg Except.ok x.redirect_id
  calc lower L' s = (lower L' s).map (Shape.redirect id) := (hid _).symm
    _ = lower L' (s.relink id) := (lower_relink (hcorresponds L' rfl) hlinks).symm
    _ = (lower L s).map (Shape.redirect id) := lower_relink (hcorresponds L h) hlinks
    _ = lower L s := hid _

variable {o : CompileOptions}

/-- a document of keywords has a program when its root has a shape -/
theorem program_keyed (hb : Keyed b) (h : lower (contextOf (ofBody b) o) (ofBody b) = .ok x) :
    ∃ p, Program.lower (ofBody b) o = .ok p ∧ p.root = x := by
  have hindex : (contextOf (ofBody b) o).index = [] := by
    change indexOf (indexOf [] b.definitions) b.defs = []
    rw [List.isEmpty_iff.1 hb.definitions, List.isEmpty_iff.1 hb.defs]
    rfl
  obtain ⟨t, ht⟩ : ∃ t, title b = .ok t := by
    cases ht : title b with
    | ok t => exact ⟨t, rfl⟩
    | error e =>
      unfold title at ht
      rw [hb.ref, Option.isNone_iff_eq_none.1 hb.allOf] at ht
      split at ht <;> cases ht
  have hbody : (ofBody b).body = b := Schema.ofBody_body b
  have hsort : sortStrings [] = [] := by simp [sortStrings]
  refine ⟨{ root := x, defs := [], order := [], title := t }, ?_, rfl⟩
  rw [program_lower, hindex, hbody, h, ht, List.map_nil, hsort]
  rfl

/-- a document of keywords has the judgement of its root -/
theorem accepts_iff {P : Prop} (hb : Keyed b) (h : lower (contextOf (ofBody b) o) (ofBody b) = .ok x) {v : Value}
    (hx : ∀ p t, Tells ⟨p, o.coerce, t⟩ x v P) : Accepts o (ofBody b) v ↔ P := by
  constructor
  · rintro ⟨p, hp, hvalid⟩
    have hroot : p.root = x := by
      have := (lower_program hp).1
      rw [Schema.ofBody_body, h] at this
      exact (Except.ok.inj this).symm
    obtain ⟨c, hc, hP⟩ := hx p fun _ _ => ""
    obtain ⟨is, his, hempty⟩ := Program.validate_verdict (hroot ▸ hc)
    rw [hvalid] at his
    cases his
    exact hP.1 hempty.symm
  · intro hP
    obtain ⟨p, hp, hroot⟩ := program_keyed hb h
    refine ⟨p, hp, fun t => ?_⟩
    obtain ⟨c, hc, hcP⟩ := hx p t
    obtain ⟨is, his, hempty⟩ := Program.validate_verdict (hroot ▸ hc)
    rw [hcP.2 hP] at hempty
    rw [his, List.isEmpty_iff.1 hempty]

/-- a schema that is missing accepts everything -/
theorem accepts_absent (ho : o.dialect = .plain) (v : Value) : Accepts o .absent v := by
  have hlower (L : Context) (hL : L.options.dialect = .plain) : lower L (ofBody {}) = .ok (.any {}) :=
    lower_composed ⟨hL, rfl, rfl, rfl⟩ (by rfl) rfl
  have haccepts : Accepts o (ofBody {}) v := (accepts_iff (by decide) (hlower _ ho) fun p t =>
    (Check.verdict_any (by simp) rfl).tells (iff_of_true rfl trivial)).2 trivial
  exact haccepts

/-- **Documents of keywords.** Wherever such a document stands, its shape tells what it accepts on its own. -/
theorem tells_accepts (ho : o.dialect = .plain) {S : Schema} (hS : S.Everywhere Keyed)
    (hfinite : S.Everywhere fun b => FiniteBounds b.own) {L : Context} (hL : L.options = o) {x : Shape}
    (h : lower L S = .ok x) {cx : Check.Context} (hcx : cx.coerce = o.coerce) (v : Value) : Tells cx x v (Accepts o S v) := by
  induction S using Schema.treeInduction generalizing L x cx v with
  | absent =>
    cases h
    exact (Check.verdict_any (by simp) rfl).tells (iff_of_true rfl (accepts_absent ho v))
  | node b ih =>
    obtain ⟨level, below⟩ := everywhere_ofBody.1 hS
    obtain ⟨hk, hbounds⟩ := everywhere_ofBody.1 hfinite
    have hlevel {L : Context} (hL : L.options = o) {x : Shape} (h : lower L (ofBody b) = .ok x) {cx : Check.Context}
        (hcx : cx.coerce = o.coerce) : Tells cx x v (Holds (Accepts o) o b v) := by
      subst hL
      exact level_tells ho hcx level hk h (fun s hs y hy w => Schema.Body.forall_below.2 ih s (typedSchemas_below hs)
        (below s (typedSchemas_below hs)) (hbounds s (typedSchemas_below hs)) rfl hy hcx w) (accepts_absent ho) v
    have halone : lower (contextOf (ofBody b) o) (ofBody b) = .ok x := by
      rw [← h]
      exact lower_alone (by rw [hL]; rfl) hS
    exact (hlevel hL h hcx).congr (accepts_iff level halone fun p t => hlevel rfl halone rfl).symm

/-! ## Declared types -/

theorem impliedTypes_declared (h : b.own.types ≠ []) : impliedTypes b = b.own.types := by
  simp [impliedTypes, h]

/-- a value of one of the declared types, within the keywords of that type, that is listed -/
def Exact (o : CompileOptions) (S : Schema) (v : Value) : Prop :=
  Enumerates S.own v ∧ ∃ t ∈ S.own.types, Meets (Accepts o) o S.body v t

/-- among types that are told apart, one is not null beside others -/
theorem shown_ne_nil (htypes : b.own.types ≠ []) (hdistinct : b.own.types.Nodup) : shown b ≠ [] := by
  unfold shown
  rw [impliedTypes_declared htypes]
  intro hnil
  rw [List.filter_eq_nil_iff] at hnil
  have hnull : ∀ t ∈ b.own.types, t = "null" ∧ 1 < b.own.types.length := by simpa using hnil
  match hts : b.own.types, htypes with
  | [t], _ => exact absurd (hnull t (by simp [hts])).2 (by simp [hts])
  | t :: u :: ts, _ =>
    have hne : t ≠ u := by
      rw [hts] at hdistinct
      exact fun heq => by simp [heq] at hdistinct
    exact hne ((hnull t (by simp [hts])).1.trans (hnull u (by simp [hts])).1.symm)

/-- a declared type is looked at, or it is null and accepted at once -/
theorem mem_shown (htypes : b.own.types ≠ []) {v : Value} {t : String} (ht : t ∈ b.own.types) (h : Meets J o b v t) :
    t ∈ shown b ∨ (v = .null ∧ "null" ∈ b.own.types ∧ 1 < b.own.types.length) := by
  by_cases hnull : t = "null" ∧ 1 < b.own.types.length
  · obtain ⟨rfl, hseveral⟩ := hnull
    exact .inr ⟨h, ht, hseveral⟩
  · refine .inl (List.mem_filter.2 ⟨by rwa [impliedTypes_declared htypes], ?_⟩)
    rw [impliedTypes_declared htypes]
    simpa [imp_iff_not_or] using hnull

theorem holds_declared (htypes : b.own.types ≠ []) (hdistinct : b.own.types.Nodup) {v : Value} : Holds (Accepts o) o b v ↔
    Exact o (ofBody b) v ∨ (v = .null ∧ "null" ∈ b.own.types ∧ 1 < b.own.types.length) ∨
      (conforms b.own.types (listed b.own) = true ∧ Enumerates b.own v) ∨
      (listed b.own = [] ∧ ∃ t ∈ b.own.types, Meets (Accepts o) o b v t) := by
  have hshown := shown_ne_nil htypes hdistinct
  have himplied := impliedTypes_declared htypes
  have hdeclared : ∀ t ∈ shown b, t ∈ b.own.types := fun t ht => himplied ▸ (List.mem_filter.1 ht).1
  have hne (h : Enumerates b.own v) : listed b.own ≠ [] := by
    obtain ⟨w, hw, -⟩ := h
    exact List.ne_nil_of_mem hw
  unfold Holds
  constructor
  · rintro (⟨hseveral, hnull, hv⟩ | ⟨hlists, hchecked⟩)
    · rw [himplied] at hseveral hnull
      exact .inr (.inl ⟨hv, hnull, hseveral⟩)
    · rcases hchecked with hshort | ⟨-, hnil⟩ | ⟨t, ht, hmeets⟩
      · have hboth : listed b.own ≠ [] ∧ conforms b.own.types (listed b.own) = true := by
          simpa [shortcut, himplied] using hshort
        exact .inr (.inr (.inl ⟨hboth.2, hlists.resolve_left hboth.1⟩))
      · exact absurd hnil hshown
      · rcases hlists with hnil | hlists
        · exact .inr (.inr (.inr ⟨hnil, t, hdeclared t ht, hmeets⟩))
        · exact .inl ⟨hlists, t, hdeclared t ht, hmeets⟩
  · rw [himplied]
    rintro (⟨hlists, t, ht, hmeets⟩ | ⟨hv, hnull, hseveral⟩ | ⟨hconforms, hlists⟩ | ⟨hnil, t, ht, hmeets⟩)
    · rcases mem_shown htypes ht hmeets with ht | ⟨hv, hnull, hseveral⟩
      · exact .inr ⟨.inr hlists, .inr (.inr ⟨t, ht, hmeets⟩)⟩
      · exact .inl ⟨hseveral, hnull, hv⟩
    · exact .inl ⟨hseveral, hnull, hv⟩
    · refine .inr ⟨.inr hlists, .inl ?_⟩
      simp [shortcut, himplied, hne hlists, hconforms]
    · rcases mem_shown htypes ht hmeets with ht | ⟨hv, hnull, hseveral⟩
      · exact .inr ⟨.inl hnil, .inr (.inr ⟨t, ht, hmeets⟩)⟩
      · exact .inl ⟨hseveral, hnull, hv⟩

/-- **Listed values.** The program of a document of declared types accepts the values that are exact, null beside other
types, listed values where all of them conform to the types, and values within the keywords where none is listed. -/
theorem listed_accepts {text : String} {S : Schema} (hdecode : Schema.decode text = .ok S) (hS : S.Everywhere Keyed)
    (ho : o.dialect = .plain) (htypes : S.own.types ≠ []) (hdistinct : S.own.types.Nodup) {p : Program}
    (h : Program.lower S o = .ok p) (t : Wording) (v : Value) :
    ∃ is, p.validate o.coerce t v = .ok is ∧ (is = [] ↔
      Exact o S v ∨ (v = .null ∧ "null" ∈ S.own.types ∧ 1 < S.own.types.length) ∨
        (conforms S.own.types (listed S.own) = true ∧ Enumerates S.own v) ∨
        (listed S.own = [] ∧ ∃ u ∈ S.own.types, Meets (Accepts o) o S.body v u)) := by
  have hfinite := Schema.decode_finite hdecode
  obtain rfl | ⟨b, rfl⟩ := Schema.eq_absent_or_ofBody S
  · exact absurd rfl htypes
  · obtain ⟨level, below⟩ := everywhere_ofBody.1 hS
    obtain ⟨hk, hbounds⟩ := everywhere_ofBody.1 hfinite
    have hroot := (lower_program h).1
    rw [Schema.ofBody_body] at hroot
    have htells : Tells ⟨p, o.coerce, t⟩ p.root v (Holds (Accepts o) o b v) :=
      level_tells (L := contextOf (ofBody b) o) ho rfl level hk hroot (fun s hs y hy w =>
        tells_accepts ho (below s (typedSchemas_below hs)) (hbounds s (typedSchemas_below hs)) rfl hy rfl w)
        (accepts_absent ho) v
    obtain ⟨c, hc, hP⟩ := htells
    obtain ⟨is, his, hempty⟩ := Program.validate_verdict hc
    refine ⟨is, his, ?_⟩
    rw [← List.isEmpty_iff, hempty, hP]
    exact holds_declared htypes hdistinct

/-- a level on which nothing stands below -/
theorem everywhere_leaf {Q : Body → Prop} (level : Q b) (below : b.below.all (·.isAbsent) = true) : (ofBody b).Everywhere Q := by
  refine everywhere_ofBody.2 ⟨level, fun s hs => ?_⟩
  obtain rfl | ⟨c, rfl⟩ := Schema.eq_absent_or_ofBody s
  · exact .absent
  · exact absurd (List.all_eq_true.1 below _ hs) (by simp [Schema.isAbsent, ofBody])

/-- a text that is long enough, listed beside a value that is no text -/
theorem listed_accepts_text : ∃ S,
    Schema.decode "\x7b\"type\":\"string\",\"minLength\":2,\"enum\":[\"ab\",\"c\",true]\x7d" = .ok S ∧
      Exact {} S (.string "ab") ∧ ∃ p, Program.lower S {} = .ok p ∧
        p.validate false (fun _ _ => "") (.string "ab") = .ok [] := by
  obtain ⟨S, hS, hall⟩ := ok_of_any
    (o := Schema.decode "\x7b\"type\":\"string\",\"minLength\":2,\"enum\":[\"ab\",\"c\",true]\x7d")
    (P := fun S => decide (S.own.types = ["string"] ∧ S.own.minLength = some 2 ∧ S.own.maxLength = none ∧ S.own.pattern = "" ∧
      S.own.format = "" ∧ (listed S.own).any (fun w => Value.equal (.string "ab") w) = true ∧ Keyed S.body ∧
      S.body.below.all (·.isAbsent) = true ∧ (Program.lower S {}).toOption.any (fun _ => true) = true)) (by decide +kernel)
  obtain ⟨htypes, hmin, hmax, hpattern, hformat, hlisted, hkeyed, hbelow, hlower⟩ := of_decide_eq_true hall
  obtain rfl | ⟨b, rfl⟩ := Schema.eq_absent_or_ofBody S
  · cases htypes
  have htext : MeetsText {} (ofBody b).own "ab" := by
    constructor
    · intro n hn
      cases hmin.symm.trans hn
      decide
    · intro n hn
      cases hmax.symm.trans hn
    · exact fun h => absurd hpattern h
    · intro _ f hf
      rw [hformat] at hf
      cases hf
  have hexact : Exact {} (ofBody b) (.string "ab") :=
    ⟨List.any_eq_true.1 hlisted, "string", by simp [htypes], "ab", rfl, htext⟩
  obtain ⟨p, hp, -⟩ := ok_of_any hlower
  obtain ⟨is, his, hempty⟩ := listed_accepts hS (everywhere_leaf hkeyed hbelow) rfl (by simp [htypes]) (by simp [htypes]) hp
    (fun _ _ => "") (.string "ab")
  rw [hempty.2 (.inl hexact)] at his
  exact ⟨_, hS, hexact, p, hp, his⟩

/-- **Values that only come in.** A listed text that is too short, null that is not listed, and a text where nothing is
listed are accepted, and none of them is exact. -/
theorem listed_inexact :
    (∃ S, Schema.decode "\x7b\"type\":\"string\",\"minLength\":3,\"enum\":[\"ab\"]\x7d" = .ok S ∧
      accepts {} (.string "ab") S = true ∧ ¬ Exact {} S (.string "ab")) ∧
    (∃ S, Schema.decode "\x7b\"type\":[\"string\",\"null\"],\"enum\":[\"a\"]\x7d" = .ok S ∧
      accepts {} .null S = true ∧ ¬ Exact {} S .null) ∧
    ∃ S, Schema.decode "\x7b\"type\":\"string\",\"enum\":[]\x7d" = .ok S ∧
      accepts {} (.string "x") S = true ∧ ¬ Exact {} S (.string "x") := by
  have hunlisted {text : String} {v : Value} (h : (Schema.decode text).toOption.any (fun S =>
      accepts {} v S && !(listed S.own).any fun w => Value.equal v w) = true) :
      ∃ S, Schema.decode text = .ok S ∧ accepts {} v S = true ∧ ¬ Exact {} S v := by
    obtain ⟨S, hS, hboth⟩ := ok_of_any h
    obtain ⟨haccepts, hno⟩ := Bool.and_eq_true_iff.1 hboth
    rw [Bool.not_eq_true', ← Bool.not_eq_true] at hno
    exact ⟨S, hS, haccepts, fun hexact => hno (List.any_eq_true.2 hexact.1)⟩
  refine ⟨?_, hunlisted (by decide +kernel), hunlisted (by decide +kernel)⟩
  obtain ⟨S, hS, hall⟩ := ok_of_any (o := Schema.decode "\x7b\"type\":\"string\",\"minLength\":3,\"enum\":[\"ab\"]\x7d")
    (P := fun S => accepts {} (.string "ab") S && (S.own.types == ["string"] && S.own.minLength == some 3)) (by decide +kernel)
  simp only [Bool.and_eq_true, beq_iff_eq] at hall
  obtain ⟨haccepts, htypes, hlength⟩ := hall
  refine ⟨S, hS, haccepts, ?_⟩
  rintro ⟨-, t, ht, hmeets⟩
  rw [htypes] at ht
  obtain rfl := List.mem_singleton.1 ht
  obtain ⟨s, hs, htext⟩ := hmeets
  cases hs
  exact absurd (htext.minLength 3 hlength) (by decide)

end Lowering

end Schemata
