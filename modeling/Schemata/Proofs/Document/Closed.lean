import Mathlib.Tactic
import Schemata.Proofs.Document.Resolved

/-!
Documents refer to nothing outside them.

The references of a resolved document are `#` and pointers to its definitions. The definitions are the nodes that
references lead to, each of them once and under a name of its own, and each of them is referred to; so compiling the
document never fails to find a reference (`renderText_closed`).
-/

namespace Schemata.Document

open Schema (Body ofBody)

variable {cx : Context} {hoist : Option Nat} {root : Nat} {head : Schema} {st : State}

/-- the references of a document are those of its root and its definitions -/
theorem Outline.mem_references (hnum : cx.graph.Numbered) (hc : NoCustom cx.graph) (h : Outline cx hoist root head st)
    (o : Options) {q : String} : q ∈ (assemble o st head).root.references ↔
      q ∈ head.references ∨ ∃ e ∈ entries st, q ∈ e.2.references := by
  have hhead := h.heads.tidy hnum hc (speaks_any _) (fun _ _ => trivial)
  have hpresent := h.heads.isAbsent hnum hc
  -- the definitions are put into a level that has none
  have hjoin {b : Body} (hb : b.definitions = []) : q ∈ (ofBody { b with definitions := entries st }).references ↔
      q ∈ (ofBody b).references ∨ ∃ e ∈ entries st, q ∈ e.2.references := by
    rw [Schema.mem_references_ofBody, Schema.mem_references_ofBody]
    have hbelow (s : Schema) : s ∈ Body.below { b with definitions := entries st } ↔
        s ∈ b.below ∨ s ∈ (entries st).map (·.2) := by
      simp only [Schema.mem_below, hb, List.map_nil, List.not_mem_nil]
      grind
    simp only [hbelow, or_and_right, exists_or, List.mem_map, exists_exists_and_eq_and, or_assoc]
  obtain rfl | ⟨b, rfl⟩ := Schema.eq_absent_or_ofBody head
  · cases hpresent
  · have hdefs : b.definitions = [] := (Schema.everywhere_ofBody.1 hhead).1.definitions
    have hroot : q ∈ (if st.order.isEmpty then ofBody b else ofBody { (if (ofBody b).own.ref ≠ "" then
        ofBody { allOf := some [ofBody b] } else ofBody b).body with definitions := entries st }).references ↔
        q ∈ (ofBody b).references ∨ ∃ e ∈ entries st, q ∈ e.2.references := by
      split
      · rename_i hempty
        have hentries : entries st = [] := by
          rw [entries, List.isEmpty_iff.1 hempty]
          rfl
        simp [hentries]
      · split
        · rw [Schema.ofBody_body, hjoin rfl]
          have hwrapped := @mem_references_allOf [ofBody b] q
          exact or_congr_left (by simpa using hwrapped)
        · exact hjoin hdefs
    unfold assemble
    simp only
    split
    · refine (Schema.references_mapOwn ?_).trans hroot
      intro k
      rfl
    · exact hroot

/-- the references of a document before names are filled in -/
theorem Outline.references_root (hnum : cx.graph.Numbered) (hc : NoCustom cx.graph) (h : Outline cx hoist root head st)
    (o : Options) {q : String} (hq : q ∈ (assemble o st head).root.references) :
    q = "#" ∨ ∃ t ∈ st.order, q = pointer t := by
  rcases (h.mem_references hnum hc o).1 hq with hq | ⟨e, he, hq⟩
  · rcases h.heads.references hnum hc hq with hq | ⟨t, ht, -, hq⟩
    · exact .inl hq
    · exact .inr ⟨t, ht, hq⟩
  · obtain ⟨t, -, d, -, hd⟩ := h.mem_entries he
    rcases hd.references hnum hc hq with hq | ⟨t, ht, -, hq⟩
    · exact .inl hq
    · exact .inr ⟨t, ht, hq⟩

/-- every body is a definition -/
theorem Outline.body_mem (h : Outline cx hoist root head st) {e : Nat × Schema} (he : e ∈ st.bodies) :
    (Placeholder.text ⟨e.1, symbolAttr⟩, e.2) ∈ entries st := by
  have horder : e.1 ∈ st.order := h.keys.mem_iff.1 (List.mem_map_of_mem he)
  have hsame : (e.1, bodyOf st e.1) = e :=
    List.inj_on_of_nodup_map (h.keys.nodup_iff.2 h.nodup) (h.body_rendered horder).1 he rfl
  rw [(entries_perm h.nodup).mem_iff]
  exact List.mem_map.2 ⟨e.1, horder, by rw [(Prod.mk.inj hsame).2]⟩

/-- every definition is referred to -/
theorem Outline.pointer_mem (hnum : cx.graph.Numbered) (hc : NoCustom cx.graph) (h : Outline cx hoist root head st)
    (o : Options) {t : Nat} (ht : t ∈ st.order) : pointer t ∈ (assemble o st head).root.references := by
  rw [h.mem_references hnum hc o]
  obtain ⟨S, hS, hp⟩ := h.referenced t ht
  rcases List.mem_cons.1 hS with rfl | hS
  · exact .inl hp
  · obtain ⟨e, he, rfl⟩ := List.mem_map.1 hS
    exact .inr ⟨_, h.body_mem he, hp⟩

/-- the nodes that are the document itself lie on the path from the root -/
theorem self_passes {g : Graph} {root t : Nat} {o : Options} (h : t ∈ (contextOf g root o).self) :
    Relation.ReflTransGen (Passes g) root t := by
  rcases mem_rootIdentity h with h | h
  · obtain rfl := List.mem_singleton.1 h
    exact .refl
  · exact h

/-! ## Resolved documents -/

/-- the definitions of a schema that is read back -/
theorem definitions_reread (f : String → String) (b : Body) :
    ((ofBody b).reread f).body.definitions = Schema.rereadMap f (b.definitions.map fun e => (e.1, e.2.reread f)) := by
  rw [Schema.reread_ofBody]
  rfl

/-- the definitions of a document that is read back: the bodies under the names of their nodes -/
theorem Outline.definitions_perm {f : String → String} {name : Nat → String} (hnum : cx.graph.Numbered)
    (hc : NoCustom cx.graph) (h : Outline cx hoist root head st)
    (hf : ∀ t ∈ st.order, f (Placeholder.text ⟨t, symbolAttr⟩) = name t)
    (hname : ∀ a ∈ st.order, ∀ b ∈ st.order, name a = name b → a = b) (o : Options) :
    (((assemble o st head).root.reread f).body.definitions).Perm
      (st.order.map fun t => (name t, (bodyOf st t).reread f)) := by
  obtain ⟨B, hB, hdefs, -⟩ := h.root_body hnum hc o
  rw [hB, definitions_reread, hdefs]
  have hlist : ((entries st).map fun e => (f e.1, e.2.reread f)).Perm
      (st.order.map fun t => (name t, (bodyOf st t).reread f)) := by
    refine ((entries_perm h.nodup).map _).trans ?_
    rw [List.map_map]
    exact .of_eq (List.map_congr_left fun t ht => by simp only [Function.comp, hf t ht])
  rw [Schema.rereadMap, List.map_map]
  refine (perm_ofList ?_).trans hlist
  refine (hlist.map (·.1)).nodup_iff.2 ?_
  rw [List.map_map]
  exact List.Nodup.map_on hname h.nodup

/-- **Rendered documents are closed.** -/
theorem renderText_closed {g g' : Graph} (hnum : g.Numbered) (hkeys : DistinctKeys g) (hcustom : NoCustom g)
    (htok : Tokenless g) (hext : PlainExtensions g) {root : Nat} (hloaded : g.isLoaded root = true) {o : Options}
    {text : String} {doc : Document} (h : renderText (some root) o g = (.ok (text, doc), g')) {S : Schema}
    (hS : Schema.decode text = .ok S) :
    ∃ name : Nat → String,
      (∀ q ∈ S.references, q = "#" ∨ ∃ t ∈ doc.definitions, q = "#/definitions/" ++ name t) ∧
      (∀ t, t ∈ doc.definitions ↔ hoistOf g root = some t ∨ Sought g [root] t ∧ t ∉ (contextOf g root o).self) ∧
      (S.body.definitions.map (·.1)).Perm (doc.definitions.map name) ∧ (doc.definitions.map name).Nodup ∧
      (∀ t ∈ doc.definitions, ∃ d T, Renders (contextOf g root o) doc.definitions d t T ∧
        Dict.get? S.body.definitions (name t) = some (T.reread (renamed name))) ∧
      (∀ t ∈ doc.definitions, "#/definitions/" ++ name t ∈ S.references) ∧
      ∀ options f, Program.lower S options = .error (.failed f) → f.isKind .referenceNotFound = false := by
  obtain ⟨head, st, name, r, houtline, rfl, hnamed, rfl, raw, seen, hraw, hres⟩ :=
    renderText_ok hnum hkeys hcustom hloaded h
  set cx := contextOf g' root o with hcx
  have hgraph : cx.graph = g' := rfl
  have hpresent : (assemble o st head).root.isAbsent = false := by
    obtain ⟨B, hB, -⟩ := houtline.root_body hnum hcustom o
    rw [hB]
    rfl
  obtain rfl := decode_resolved hnamed hpresent (houtline.texts_own hnum hcustom htok hext o)
    (houtline.extra_plain hnum hcustom htok hext o) hraw hres hS
  have hkeyed := houtline.keyed hnum hcustom htok hext hnamed o
  have hreread {q : String} := Schema.mem_references_reread (f := renamed name) (renamed_free (by decide)) hkeyed (r := q)
  have hperm := houtline.definitions_perm hnum hcustom (fun t ht => renamed_symbol (hnamed.range t ht)) hnamed.apart o
  have hnodup : (st.order.map name).Nodup :=
    List.Nodup.map_on hnamed.apart houtline.nodup
  have hkeysperm : (((assemble o st head).root.reread (renamed name)).body.definitions.map (·.1)).Perm
      (st.order.map name) := by
    simpa [Function.comp_def] using hperm.map (·.1)
  have hrefs : ∀ q ∈ ((assemble o st head).root.reread (renamed name)).references,
      q = "#" ∨ ∃ t ∈ st.order, q = "#/definitions/" ++ name t := by
    intro q hq
    obtain ⟨-, p, hp, rfl⟩ := hreread.1 hq
    rcases houtline.references_root hnum hcustom o hp with rfl | ⟨t, ht, rfl⟩
    · exact .inl (renamed_free (by decide))
    · exact .inr ⟨t, ht, renamed_pointer (hnamed.range t ht)⟩
  refine ⟨name, hrefs, fun t => ?_, hkeysperm, hnodup, fun t ht => ?_, fun t ht => ?_, fun options f hf => ?_⟩
  · exact houtline.mem_definitions hnum hcustom (fun t ht => self_passes ht) fun b hb =>
      ⟨(hoistOf_some hnum hb).1, (hoistOf_some hnum hb).2.1⟩
  · obtain ⟨-, d, hT⟩ := houtline.body_rendered ht
    refine ⟨d, bodyOf st t, hT, (Dict.get?_eq_some (hkeysperm.nodup_iff.2 hnodup)).2 ?_⟩
    exact hperm.mem_iff.2 (List.mem_map_of_mem ht)
  · refine hreread.2 ⟨by simp, pointer t, houtline.pointer_mem hnum hcustom o ht, renamed_pointer (hnamed.range t ht)⟩
  · refine Lowering.linked_program (by rw [Schema.isAbsent_reread, hpresent]) (fun q hq => ?_) f hf
    rcases hrefs q hq with rfl | ⟨t, ht, rfl⟩
    · exact .inl rfl
    · exact .inr ⟨name t, hnamed.names t ht, hkeysperm.mem_iff.2 (List.mem_map_of_mem ht), rfl⟩

/-- texts and lists of such, and a list of both -/
def nestedGraph : Graph := { nodes := #[
  { id := 1, kind := .union, options := .union "", children := [2, 3], loaded := true },
  { id := 2, kind := .string, options := .text {}, loaded := true },
  { id := 3, kind := .array, options := .array {}, children := [4], loaded := true },
  { id := 4, kind := .ref, children := [1], loaded := true },
  { id := 5, kind := .array, options := .array {}, children := [4], loaded := true }] }

theorem renderText_closed_nested : ∃ text doc S, nestedGraph.Numbered ∧ DistinctKeys nestedGraph ∧ NoCustom nestedGraph ∧
    Tokenless nestedGraph ∧ PlainExtensions nestedGraph ∧ nestedGraph.isLoaded 5 = true ∧
    renderText (some 5) {} nestedGraph = (.ok (text, doc), nestedGraph) ∧ Schema.decode text = .ok S ∧
    S.body.definitions.length = 1 ∧
    ∃ name : Nat → String,
      (∀ q ∈ S.references, q = "#" ∨ ∃ t ∈ doc.definitions, q = "#/definitions/" ++ name t) ∧
      (S.body.definitions.map (·.1)).Perm (doc.definitions.map name) ∧
      (∀ t ∈ doc.definitions, "#/definitions/" ++ name t ∈ S.references) ∧
      ∀ options f, Program.lower S options = .error (.failed f) → f.isKind .referenceNotFound = false := by
  have hnum : nestedGraph.Numbered := by decide +kernel
  have hkeys : DistinctKeys nestedGraph := fun id n =>
    Graph.forall_nodes (P := fun n => n.kind = .object → n.objectOptions.keys.Nodup) (by decide +kernel)
  have hcustom : NoCustom nestedGraph := fun id n => Graph.forall_nodes (P := fun n => n.kind ≠ .custom) (by decide +kernel)
  have htok : Tokenless nestedGraph := fun id n =>
    Graph.forall_nodes (P := fun n => ∀ t ∈ n.texts, Placeholder.occursIn t = false) (by decide +kernel)
  have hext : PlainExtensions nestedGraph := fun id n =>
    Graph.forall_nodes (P := fun n => ∀ e ∈ n.info.extensions ++ n.info.openapi, Schema.isKnown e.1 = false) (by decide +kernel)
  have hloaded : nestedGraph.isLoaded 5 = true := by decide +kernel
  obtain ⟨text, doc, S, hdoc, hS, hone⟩ := renderText_read (o := {}) hnum hloaded (by decide +kernel)
    (P := fun S => S.body.definitions.length == 1) (by decide +kernel)
  obtain ⟨name, hrefs, -, hdefs, -, -, hused, hlower⟩ :=
    renderText_closed hnum hkeys hcustom htok hext hloaded hdoc hS
  exact ⟨text, doc, S, hnum, hkeys, hcustom, htok, hext, hloaded, hdoc, hS, by simpa using hone, name, hrefs, hdefs, hused, hlower⟩

/-- a text with an extension that is named as references are -/
def linkGraph : Graph := { nodes := #[
  { id := 1, kind := .string, options := .text {}, info := { extensions := [("$ref", .string "#/definitions/Nope")] },
    loaded := true }] }

/-- a list of numbers whose title takes in the path of the document -/
def titledGraph : Graph := { nodes := #[
  { id := 1, kind := .integer, options := .number {}, loaded := true },
  { id := 2, kind := .ref, children := [1], loaded := true },
  { id := 3, kind := .array, options := .array {}, children := [2],
    info := { title := "\x7b\x7b1:file\x7d\x7d" }, loaded := true }] }

/-- does the schema refer to a definition that it has not, so that it cannot be compiled? -/
def dangles (S : Schema) : Bool :=
  S.references.contains "#/definitions/Nope" && !(S.body.definitions.map (·.1)).contains "Nope" &&
    (match Program.lower S {} with | .error (.failed f) => f.isKind .referenceNotFound | _ => false)

/-- **Documents that are not closed.** A keyword may come from an extension, and from a path that a token takes into a
text. -/
theorem renderText_open :
    (linkGraph.Numbered ∧ DistinctKeys linkGraph ∧ NoCustom linkGraph ∧ linkGraph.isLoaded 1 = true ∧
      Tokenless linkGraph ∧
      ∃ text doc S, renderText (some 1) {} linkGraph = (.ok (text, doc), linkGraph) ∧ Schema.decode text = .ok S ∧
        dangles S = true) ∧
    (titledGraph.Numbered ∧ DistinctKeys titledGraph ∧ NoCustom titledGraph ∧ titledGraph.isLoaded 3 = true ∧
      PlainExtensions titledGraph ∧
      ∃ text doc S, renderText (some 3) { path := "\",\"$ref\":\"#/definitions/Nope" } titledGraph =
          (.ok (text, doc), titledGraph) ∧ Schema.decode text = .ok S ∧ dangles S = true) := by
  have hkeys {g : Graph} (h : ∀ n ∈ g.nodes, n.kind = .object → n.objectOptions.keys.Nodup) : DistinctKeys g :=
    fun id n => Graph.forall_nodes h
  have hcustom {g : Graph} (h : ∀ n ∈ g.nodes, n.kind ≠ .custom) : NoCustom g := fun id n => Graph.forall_nodes h
  refine ⟨⟨by decide +kernel, hkeys (by decide +kernel), hcustom (by decide +kernel), by decide +kernel,
    fun id n => Graph.forall_nodes (P := fun n => ∀ t ∈ n.texts, Placeholder.occursIn t = false) (by decide +kernel),
    renderText_read (by decide +kernel) (by decide +kernel) (by decide +kernel) (by decide +kernel)⟩,
    ⟨by decide +kernel, hkeys (by decide +kernel), hcustom (by decide +kernel), by decide +kernel,
    fun id n => Graph.forall_nodes (P := fun n => ∀ e ∈ n.info.extensions ++ n.info.openapi, Schema.isKnown e.1 = false)
      (by decide +kernel), ?_⟩⟩
  exact renderText_read (by decide +kernel) (by decide +kernel) (by decide +kernel) (by decide +kernel)

end Schemata.Document
