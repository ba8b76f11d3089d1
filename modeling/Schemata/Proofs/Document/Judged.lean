import Mathlib.Tactic
import Schemata.Proofs.Document.Meaning
import Schemata.Proofs.Document.Templates

/-!
Documents accept what their graphs accept.

Wrappers make no difference to what a rendering is lowered to, and a reference costs one step of the judgement. So the
verdict of a rendering is the judgement of its node, by induction on the steps (`verdict_judge`). A document that was
rendered, read back with its names filled in and lowered is a `Setting` for this (`Outline.setting`): its references
lead to the root and to the definitions.
-/

namespace Schemata

/-! ## Programs -/

namespace Lowering

variable {S : Schema} {options : CompileOptions} {p : Program}

/-- the name of a definition leads to the shape that its schema is lowered to -/
theorem Lists.target {O : List Nat} {label : Nat → String} {body : Nat → Schema} (hl : Lists O label body S)
    (h : Program.lower S options = .ok p) {t : Nat} (ht : t ∈ O) (hname : label t ≠ "") :
    ∃ s, lower (contextOf S options) (body t) = .ok s ∧ p.target? (label t) = some s := by
  obtain ⟨-, hdefs, horder⟩ := lower_program h
  have hperm : p.order.Perm (O.map label) := by
    rw [horder]
    exact (List.mergeSort_perm _ _).trans (hl.names options)
  have hmem : label t ∈ p.order := hperm.mem_iff.2 (List.mem_map_of_mem ht)
  have hdefinition : (contextOf S options).definition (label t) = body t := by
    rw [Context.definition, contextOf, hl.definition? ht, Option.getD_some]
  obtain ⟨s, hs⟩ := lowerNamed_isOk.1 ⟨p.defs, hdefs⟩ _ hmem
  have hshape : (contextOf S options).shape (label t) = s := by
    rw [Context.shape, hs]
    rfl
  rw [hdefinition] at hs
  refine ⟨s, hs, ?_⟩
  have hkeys : (p.defs.map (·.1)).Nodup := by
    rw [lowerNamed_ok hdefs, List.map_map]
    simpa [Function.comp_def] using hperm.nodup_iff.2 hl.nodup
  have hget : Dict.get? p.defs (label t) = some s := by
    refine (Dict.get?_eq_some hkeys).2 ?_
    rw [lowerNamed_ok hdefs]
    exact List.mem_map.2 ⟨label t, hmem, by rw [hshape]⟩
  rw [Program.target?, if_neg hname, if_pos (List.contains_iff_mem.2 hmem), Program.definition, hget, Option.getD_some]

end Lowering

namespace Document

open Schema (Body ofBody FiniteBounds)
open Lowering (lower)
open Check (Verdict)

/-! ## Renderings -/

section

variable {ck : Check.Context} {L : Lowering.Context} {cx : Context} {O : List Nat} {f : String → String}

/-- schemas that are lowered alike, and whose bounds are finite alike -/
structure Alike (L : Lowering.Context) (f : String → String) (T S : Schema) : Prop where
  lower : lower L (T.reread f) = lower L (S.reread f)
  finite : T.Everywhere (fun b => FiniteBounds b.own) ↔ S.Everywhere fun b => FiniteBounds b.own

theorem alike_annotated {d : Dialect} (hd : d = .plain) {ns : List Node}
    (hns : ∀ n ∈ ns, n.info.rules = [] ∧ n.info.extensions = []) (S : Schema) : Alike L f (annotated d ns S) S := by
  subst hd
  exact ⟨lower_annotated hns S, finite_annotated⟩

theorem Plain.plainNodes (h : Plain cx) {id : Nat} {ws : List Node} {last : Node}
    (hchain : cx.graph.localChain id = (ws, some last)) :
    ∀ n ∈ ws ++ [last], n.info.rules = [] ∧ n.info.extensions = [] := by
  intro n hn
  obtain ⟨i, hi⟩ := localChain_nodes hchain n hn
  have he := h.nodes i n hi
  exact ⟨he.rules, (List.append_eq_nil_iff.1 he.extensions).1⟩

theorem Plain.widened_eq (h : Plain cx) {id : Nat} {ws : List Node} {last : Node}
    (hchain : cx.graph.localChain id = (ws, some last)) (S : Schema) : widened cx.options.dialect ws S = .ok S := by
  refine if_neg ?_
  rw [List.any_eq_true]
  rintro ⟨n, hn, hk⟩
  obtain ⟨i, hi⟩ := localChain_nodes hchain n (List.mem_append_left _ hn)
  exact (h.nodes i n hi).nullable (by simpa using hk)

/-- a rendering is that of the node alone, or that of the child of an optional node -/
theorem Plain.renders_cases (h : Plain cx) {id : Nat} {T : Schema} (hT : Rendered cx O id T) :
    ∃ n S, cx.graph.get? id = some n ∧ Alike L f T S ∧
      (Forms cx O (Rendered cx O) n S ∨ n.kind = .optional ∧ ∃ c, n.children = [c] ∧ Rendered cx O c S) := by
  obtain ⟨_ | d, hT⟩ := hT
  · exact hT.elim
  obtain @⟨ws, last, S, W, hchain, hnode, hwide⟩ := hT
  obtain rfl := Except.ok.inj ((h.widened_eq hchain S).symm.trans hwide)
  have hplain := h.plainNodes hchain
  have hforms : Forms cx O (Rendered cx O) last S := hnode.mono (List.Subset.refl _) fun hR => ⟨d, hR⟩
  obtain ⟨n, hn, ⟨-, rfl, rfl⟩ | ⟨c, ws', hwrap, href, hc, rfl, htail⟩⟩ := localChain_cases hchain
  · exact ⟨last, S, hn, alike_annotated h.dialect hplain S, .inl hforms⟩
  · have hoptional : n.kind = .optional := by
      have hnull := (h.nodes id n hn).nullable
      cases hk : n.kind <;> simp_all [Kind.isWrapper]
    have hwhole := alike_annotated (L := L) (f := f) h.dialect hplain S
    have hbelow := alike_annotated (L := L) (f := f) h.dialect (h.plainNodes htail) S
    exact ⟨n, _, hn, ⟨hwhole.lower.trans hbelow.lower.symm, hwhole.finite.trans hbelow.finite.symm⟩,
      .inr ⟨hoptional, c, hc, d + 1, ⟨htail, hnode, h.widened_eq htail S⟩⟩⟩

/-- **Renderings.** Whatever a node is rendered as has the judgement of the node for its verdict. -/
theorem verdict_judge (h : Setting ck L cx O f) {steps id : Nat} {v : Value} {b : Bool}
    (hj : cx.graph.judge (judgingOf ck L cx) steps id v = some b) : Fits ck L f (Rendered cx O) id v b := by
  induction steps generalizing id v b with
  | zero => cases hj
  | succ steps ih =>
    intro T s hT hfinite hs
    obtain ⟨n, S, hn, halike, hS⟩ := h.renders_cases hT
    rw [halike.lower] at hs
    rw [halike.finite] at hfinite
    rw [Graph.judge, hn] at hj
    obtain ⟨bs, hbs, rfl⟩ := Option.map_eq_some_iff.1 hj
    have hall := mapM_eq_some.1 hbs
    -- each answer is that of the node it asks
    set answer : Nat → Value → Bool := fun c x => (cx.graph.judge (judgingOf ck L cx) steps c x).getD false
    have hanswers : bs = (n.calls v).map fun e => answer e.1 e.2 := by
      refine (List.forall₂_eq_eq_eq ▸ List.forall₂_map_left_iff.2 (hall.imp fun e b he => ?_) : _ = bs).symm
      simp only [answer, he, Option.getD_some]
    have hfits : ∀ e ∈ n.calls v, Fits ck L f (Rendered cx O) e.1 e.2 (answer e.1 e.2) := by
      intro e he
      obtain ⟨b, -, hb⟩ := exists_of_forall₂ hall.flip he
      simp only [answer, hb, Option.getD_some]
      exact ih hb
    rw [hanswers]
    rcases hS with hforms | ⟨hk, c, hc, hrendered⟩
    · exact verdict_forms h (h.nodes id n hn) hforms hfinite hfits hs
    · obtain ⟨hcalls, heq⟩ := concluded_sole (.inl hk) hc
      exact Verdict.of_eq (hfits (c, v) (by simp [hcalls]) S s hrendered hfinite hs) heq

/-! ## The path from the root -/

/-- the rendering of a node on the path is that of what comes after it -/
theorem Plain.renders_passes (h : Plain cx) {a c : Nat} (hpass : Passes cx.graph a c) {T : Schema}
    (hT : Rendered cx O a T) : ∃ S, Rendered cx O c S ∧ Alike L f T S := by
  obtain ⟨m, hm, hk, hc⟩ := hpass
  obtain ⟨n, S, hn, halike, hS⟩ := h.renders_cases (L := L) (f := f) hT
  rw [hm] at hn
  obtain rfl := Option.some.inj hn
  rcases hS with hforms | ⟨-, d, hd, hrendered⟩
  · have hval : m.kind = .validator := by
      have hnull := (h.nodes a m hm).nullable
      cases hkind : m.kind <;> simp_all [passes]
      cases hforms <;> simp_all
    cases hforms with
    | validator _ hd hs =>
      obtain rfl : c = _ := by simpa [hc] using hd
      exact ⟨S, hs, halike⟩
    | _ => simp_all
  · obtain rfl : c = d := by simpa [hc] using hd
    exact ⟨S, hrendered, halike⟩

theorem Plain.renders_path (h : Plain cx) {a c : Nat} (hpath : Relation.ReflTransGen (Passes cx.graph) a c) {T : Schema}
    (hT : Rendered cx O a T) : ∃ S, Rendered cx O c S ∧ Alike L f T S := by
  induction hpath with
  | refl => exact ⟨T, hT, rfl, Iff.rfl⟩
  | tail _ hstep ih =>
    obtain ⟨S, hS, halike⟩ := ih
    obtain ⟨U, hU, hnext⟩ := h.renders_passes (L := L) (f := f) hstep hS
    exact ⟨U, hU, halike.lower.trans hnext.lower, halike.finite.trans hnext.finite⟩

/-- without nullable nodes no body becomes a definition -/
theorem hoistOf_none {g : Graph} (h : ∀ id n, g.get? id = some n → n.kind ≠ .nullable) (root : Nat) : hoistOf g root = none := by
  have key (fuel : Nat) (self : List Nat) (id : Nat) : (rootIdentity g root fuel false self id).2 = none := by
    induction fuel generalizing self id with
    | zero => rfl
    | succ fuel ih =>
      rw [rootIdentity]
      cases hn : g.get? id with
      | none => rfl
      | some n =>
        have hnull := h id n hn
        simp only [hnull, decide_false, Bool.or_false, Bool.false_and, Bool.false_eq_true, if_false]
        split
        · split
          · split
            · rfl
            · exact ih _ _
          · rfl
        · rfl
  exact key _ _ _

end

/-! ## Documents read back -/

section

variable {cx : Context} {hoist : Option Nat} {root : Nat} {head : Schema} {st : State} {L : Lowering.Context}
  {f : String → String}

/-- definitions of a schema that is read back make no difference to its shape -/
theorem lower_definitions (b : Body) (D : List (String × Schema)) :
    lower L ((ofBody { b with definitions := D }).reread f) = lower L ((ofBody b).reread f) := by
  rw [← Lowering.lower_bare L ((ofBody { b with definitions := D }).reread f), ← Lowering.lower_bare L ((ofBody b).reread f),
    Schema.reread_ofBody, Schema.reread_ofBody]
  rfl

/-- nor does the name of the vocabulary -/
theorem lower_schemaUri (S : Schema) (uri : String) :
    lower L ((S.mapOwn fun k => { k with schemaUri := uri }).reread f) = lower L (S.reread f) := by
  obtain rfl | ⟨b, rfl⟩ := Schema.eq_absent_or_ofBody S
  · rfl
  · rw [Schema.mapOwn_ofBody, Schema.reread_ofBody, Schema.reread_ofBody, Lowering.lower_ofBody, Lowering.lower_ofBody]
    rfl

/-- the shape of a document is that of its head -/
theorem lower_assemble (hL : L.options.dialect = .plain) (hf : KeepsPlain f) {b : Body} {o : Options} {x : Shape}
    (h : lower L ((assemble o st (ofBody b)).root.reread f) = .ok x) : lower L ((ofBody b).reread f) = .ok x := by
  have hroot : lower L (((assemble { o with schemaUri := false } st (ofBody b)).root).reread f) = .ok x := by
    unfold assemble at h ⊢
    simp only at h ⊢
    split at h
    · rwa [lower_schemaUri] at h
    · exact h
  unfold assemble at hroot
  simp only [Bool.false_and, Bool.false_eq_true, if_false] at hroot
  split at hroot
  · exact hroot
  · rw [lower_definitions] at hroot
    by_cases href : (ofBody b).own.ref ≠ ""
    · -- a reference is wrapped first
      rw [if_pos href, Schema.ofBody_body] at hroot
      obtain ⟨xs, hxs, rfl⟩ := shape_intersection hL hf hroot
      obtain ⟨y, ys, hy, hys, rfl⟩ := List.forall₂_cons_left_iff.1 hxs
      obtain rfl := List.forall₂_nil_left_iff.1 hys
      exact hy
    · rw [if_neg href, Schema.ofBody_body] at hroot
      exact hroot

theorem finite_schemaUri {S : Schema} {uri : String}
    (h : (S.mapOwn fun k => { k with schemaUri := uri }).Everywhere fun b => FiniteBounds b.own) :
    S.Everywhere fun b => FiniteBounds b.own := by
  obtain rfl | ⟨b, rfl⟩ := Schema.eq_absent_or_ofBody S
  · exact h
  · rw [Schema.mapOwn_ofBody, Schema.everywhere_ofBody] at h
    obtain ⟨⟨h1, h2, h3, h4, h5⟩, hbelow⟩ := h
    exact Schema.everywhere_ofBody.2 ⟨⟨h1, h2, h3, h4, h5⟩, hbelow⟩

/-- the head of a document has finite bounds, like the document -/
theorem finite_assemble {b : Body} (hdefs : b.definitions = []) {o : Options}
    (h : (assemble o st (ofBody b)).root.Everywhere fun b => FiniteBounds b.own) :
    (ofBody b).Everywhere fun b => FiniteBounds b.own := by
  have hroot : (assemble { o with schemaUri := false } st (ofBody b)).root.Everywhere fun b => FiniteBounds b.own := by
    unfold assemble at h ⊢
    simp only at h ⊢
    split at h
    · exact finite_schemaUri h
    · exact h
  unfold assemble at hroot
  simp only [Bool.false_and, Bool.false_eq_true, if_false] at hroot
  split at hroot
  · exact hroot
  · obtain ⟨hlevel, hbelow⟩ := Schema.everywhere_ofBody.1 hroot
    by_cases href : (ofBody b).own.ref ≠ ""
    · refine hbelow _ (Schema.mem_below.2 ?_)
      rw [if_pos href]
      simp [Schema.ofBody_body]
    · rw [if_neg href, Schema.ofBody_body] at hlevel hbelow
      refine Schema.everywhere_ofBody.2 ⟨hlevel, fun s hs => hbelow s ?_⟩
      simp only [Schema.mem_below, hdefs, List.map_nil, List.not_mem_nil] at hs ⊢
      tauto

/-- **Settings.** A document that was rendered, read back and lowered to a program is a setting for its verdicts. -/
theorem Outline.setting {g : Graph} {o : Options} (hplain : Plain (contextOf g root o))
    (h : Outline (contextOf g root o) none root head st) {raw : String}
    (hraw : (assemble o st head).root.text = .ok raw) {r : Registry} {name : Nat → String} (hr : Named r st.order name)
    {options : CompileOptions} (hoptions : options.dialect = .plain) {p : Program}
    (hp : Program.lower ((assemble o st head).root.reread (renamed name)) options = .ok p) (coerce : Bool) (t : Wording) :
    Setting ⟨p, coerce, t⟩ (Lowering.contextOf ((assemble o st head).root.reread (renamed name)) options)
        (contextOf g root o) st.order (renamed name) ∧
      Rendered (contextOf g root o) st.order root head ∧ head.Everywhere (fun b => FiniteBounds b.own) ∧
      lower (Lowering.contextOf ((assemble o st head).root.reread (renamed name)) options) (head.reread (renamed name)) =
        .ok p.root := by
  have hnum := hplain.numbered
  have hcustom := hplain.noCustom
  set S := (assemble o st head).root.reread (renamed name) with hS
  set L := Lowering.contextOf S options
  have hf : KeepsPlain (renamed name) := fun _ => renamed_free
  obtain ⟨hroot, -⟩ := Lowering.lower_program hp
  have hlists := h.resolved_lists hnum hcustom hr o
  have hfinite := Schema.finiteBounds_of_text ⟨raw, hraw⟩
  have hhead : Rendered (contextOf g root o) st.order root head := by
    cases h.heads with | @whole d _ _ hR => exact ⟨d, hR⟩
  -- the head is present and has no definitions of its own
  have hpresent := h.heads.isAbsent hnum hcustom
  have htidy := h.heads.tidy hnum hcustom (speaks_any _) (fun _ _ => trivial)
  obtain rfl | ⟨b, rfl⟩ := Schema.eq_absent_or_ofBody head
  · cases hpresent
  have hfinitehead := finite_assemble (Schema.everywhere_ofBody.1 htidy).1.definitions hfinite
  have hbody : ofBody S.body = S := by
    obtain ⟨B, hB, -⟩ := h.root_body hnum hcustom o
    rw [hS, hB, Schema.reread_ofBody, Schema.ofBody_body]
  have hheadshape : lower L ((ofBody b).reread (renamed name)) = .ok p.root := lower_assemble hoptions hf (hbody ▸ hroot)
  refine ⟨⟨hplain, hoptions, hf, fun t ht => ?_, fun t ht => ?_⟩, hhead, hfinitehead, hheadshape⟩
  · obtain ⟨T, ⟨d, hT⟩, halike⟩ := hplain.renders_path (L := L) (f := renamed name) (self_passes ht) hhead
    exact ⟨by decide, d, T, p.root, "", hT, halike.finite.1 hfinitehead, halike.lower.symm.trans hheadshape, if_pos rfl,
      if_pos rfl⟩
  · obtain ⟨hbody, d, hT⟩ := h.body_rendered ht
    obtain ⟨s, hs, htarget⟩ := hlists.target hp ht (hr.names t ht).nonempty
    have hpointer : Lowering.reference L ("#/definitions/" ++ name t) = .ok (.ref {} (name t)) :=
      (hlists.pointer ht (fun hc => (hr.chars ht hc).2.1 rfl) (fun hc => (hr.chars ht hc).2.2 rfl) rfl).1
    rw [renamed_pointer (hr.range t ht)]
    refine ⟨by simp, d, _, s, name t, hT, ?_, hs, hpointer, htarget⟩
    obtain ⟨B, hB, hdefs, -⟩ := h.root_body hnum hcustom o
    rw [hB] at hfinite
    refine (Schema.everywhere_ofBody.1 hfinite).2 _ (Schema.mem_below.2 ?_)
    rw [hdefs]
    have hentry := List.mem_map_of_mem (f := Prod.snd) (h.body_mem hbody)
    tauto

end

end Document

end Schemata
