import Mathlib.Tactic
import Schemata.Proofs.Compile
import Schemata.Proofs.Program.Selected

/-!
Compiled choices.

A union with a discriminator is rendered as a level that is a choice and nothing else, and is read back as one
(`chooses_root`, `Chooses.reread`). So what is known of choices in documents holds of the predicate of the node:
`compileNode_selects` says exactly when it accepts a value that one variant alone accepts.
-/

namespace Schemata

namespace Document

open Schema (Body ofBody)
open Lowering (Choice impliedTypes)

variable {g : Graph} {id : Nat} {n : Node} {o : Options} {st : State} {head : Schema} {f : String → String}

/-! ## Documents of choices -/

/-- a level of a rendering that holds a choice beside annotations and definitions -/
structure Chooses (b : Body) (disc : Discriminator) (ss : List Schema) : Prop where
  own : b.own = {
    discriminator := some disc, schemaUri := b.own.schemaUri, title := b.own.title, description := b.own.description
    default := b.own.default, readOnly := b.own.readOnly, deprecated := b.own.deprecated, examples := b.own.examples
    extra := b.own.extra }
  rest : b = { own := b.own, oneOf := some ss, definitions := b.definitions }

/-- a node that no wrapper comes before ends the path from the root -/
theorem hoistOf_end (hn : g.get? id = some n) (hk : passes n.kind = false) : hoistOf g id = none := by
  rw [hoistOf, rootIdentity, hn]
  cases hkind : n.kind <;> simp_all [passes]

theorem localChain_end (hn : g.get? id = some n) (hk : n.kind.isWrapper = false) : g.localChain id = ([], some n) := by
  rw [Graph.localChain, Graph.localChainFrom, hn]
  simp [hk]

/-- a union with a discriminator is rendered as a choice between its variants -/
theorem heads_choice {cx : Context} {O : List Nat} (hn : cx.graph.get? id = some n) (hk : n.kind = .union)
    (hd : n.discriminator ≠ "") (h : Heads cx O none id head) :
    ∃ disc ss, disc.propertyName = n.discriminator ∧ ss.length = n.children.length ∧
      head = annotate cx.options.dialect n.info (ofBody { own := { discriminator := some disc }, oneOf := some ss }) := by
  obtain @⟨d, _, _, hrenders⟩ := h
  cases d with
  | zero => exact hrenders.elim
  | succ d =>
    obtain ⟨hchain, hforms, hwide⟩ := hrenders
    rw [localChain_end hn (by rw [hk]; rfl)] at hchain
    cases hchain
    cases hforms with
    | choice _ _ hss hdisc =>
      cases hwide
      exact ⟨_, _, (discriminatorOf_mem hdisc).1, hss.length_eq.symm, rfl⟩
    | union _ hd' => exact absurd hd' hd
    | _ => simp_all

/-- neither annotations nor definitions nor the name of the vocabulary make another level of a choice -/
theorem chooses_root {disc : Discriminator} {ss : List Schema} {m : Meta} (hrules : m.rules = []) (o : Options) (st : State) :
    ∃ b, (assemble o st (annotate o.dialect m (ofBody { own := { discriminator := some disc }, oneOf := some ss }))).root =
      ofBody b ∧ Chooses b disc ss := by
  rw [annotate, Schema.mapOwn_ofBody]
  unfold assemble
  simp only [hrules, List.append_nil]
  split
  · split <;> refine ⟨_, Schema.mapOwn_ofBody _ _, ?_⟩ <;> exact ⟨rfl, rfl⟩
  · split <;> refine ⟨_, rfl, ?_⟩ <;> exact ⟨rfl, rfl⟩

theorem Chooses.reread {b : Body} {disc : Discriminator} {ss : List Schema} (h : Chooses b disc ss) (hf : f "" = "") :
    Choice ((b.parts (Schema.reread f)).reread f) (Schema.Discriminator.reread f disc) (ss.map (Schema.reread f)) := by
  obtain ⟨hown, hrest⟩ := h
  rw [hrest, hown]
  refine ⟨hf, ?_, rfl, rfl, rfl, rfl, ?_, rfl, rfl⟩
  · simp [impliedTypes, Schema.Parts.reread, Body.parts, Schema.Keywords.reread, hf, Keywords.types, Schema.rereadValue,
      Schema.rereadInt, Schema.rereadFloat, nonEmpty_nil, Schema.Beyond.ofExtent, Schema.Beyond.reread,
      Schema.Elements.ofItems, Schema.Elements.reread]
    rfl
  · cases ss <;> rfl

/-- a union with a discriminator asks for dispatch -/
theorem renderNode_choice {cx : Context} {descend : Descend} {s s' : State} {T : Schema} (hk : n.kind = .union)
    (hd : n.discriminator ≠ "") (h : renderNode cx descend n s = (.ok T, s')) : s'.discriminator = true := by
  rw [renderNode, hk] at h
  obtain ⟨ss, u, -, h⟩ := Steps.bind_ok h
  simp only [if_neg hd] at h
  obtain ⟨⟨⟩, w, hw, h⟩ := Steps.bind_ok h
  cases hw
  obtain ⟨disc, x, hdisc, h⟩ := Steps.bind_ok h
  obtain ⟨-, rfl⟩ := lift_ok hdisc
  cases h
  rfl

theorem ofNode_choice (hn : g.get? id = some n) (hk : n.kind = .union) (hd : n.discriminator ≠ "") {r r' : Registry}
    {doc : Document} (h : ofNode g id r o = (.ok doc, r')) : doc.discriminator = true := by
  obtain ⟨head, s, hrun, rfl, -⟩ := ofNode_ok h
  obtain ⟨wrappers, last, T, W, hchain, hT, -⟩ := render_ok hrun
  have hend : (contextOf g id o).graph.localChain id = ([], some n) := localChain_end hn (by rw [hk]; rfl)
  rw [hend] at hchain
  cases hchain
  rw [renderBelow, if_neg (by simp [hoistOf_end hn, hk, passes])] at hT
  exact renderNode_choice hk hd hT

/-- **Choices are read back as choices.** What the text of a union with a discriminator is read as. -/
theorem decode_choice (hnum : g.Numbered) (hkeys : DistinctKeys g) (hcustom : NoCustom g) (htok : Tokenless g)
    (hext : PlainExtensions g) (hn : g.get? id = some n) (hk : n.kind = .union) (hd : n.discriminator ≠ "")
    (hrules : n.info.rules = []) (hloaded : g.isLoaded id = true) {g' : Graph} {text : String} {doc : Document}
    (h : renderText (some id) o g = (.ok (text, doc), g')) {S : Schema} (hS : Schema.decode text = .ok S) :
    ∃ d vs, Choice S.body d vs ∧ d.propertyName = n.discriminator ∧ vs.length = n.children.length := by
  obtain ⟨head, st, name, r, houtline, rfl, hnamed, rfl, raw, seen, hraw, hres⟩ :=
    renderText_ok hnum hkeys hcustom hloaded h
  rw [hoistOf_end hn (by rw [hk]; rfl)] at houtline
  have hpresent : (assemble o st head).root.isAbsent = false := by
    obtain ⟨B, hB, -⟩ := houtline.root_body hnum hcustom o
    rw [hB]
    rfl
  obtain rfl := decode_resolved hnamed hpresent (houtline.texts_own hnum hcustom htok hext o)
    (houtline.extra_plain hnum hcustom htok hext o) hraw hres hS
  obtain ⟨disc, ss, hproperty, hlength, rfl⟩ := heads_choice hn hk hd houtline.heads
  obtain ⟨b, hb, hchooses⟩ := chooses_root hrules o st
  have hplain : Placeholder.occursIn n.discriminator = false := htok id n hn _ (by simp [Node.texts])
  refine ⟨Schema.Discriminator.reread (renamed name) disc, ss.map (Schema.reread (renamed name)), ?_, ?_, by simpa using hlength⟩
  · change Choice (((assemble o st (annotate o.dialect n.info _)).root.reread (renamed name)).body) _ _
    rw [hb, Schema.reread_ofBody]
    exact hchooses.reread (renamed_free (by decide))
  · exact (congrArg (renamed name) hproperty).trans (renamed_free hplain)

end Document

/-! ## Compiled -/

open Lowering (Choice Selects lowerList tag)

variable {g g' : Graph} {id : Nat} {n : Node}

/-- the options that a union with a discriminator is compiled with -/
def dispatching (d : Dialect) (o : CompileOptions) : CompileOptions :=
  { o with dialect := d, mode := .predicate, discriminator := true }

/-- **A union accepts what one variant alone accepts** just when a variant has no tag, so that every variant is tried, or the
value has the tag of this variant and no later variant has it. -/
theorem compileNode_selects (hnum : g.Numbered) (hkeys : Document.DistinctKeys g) (hcustom : Document.NoCustom g)
    (htok : Document.Tokenless g) (hext : Document.PlainExtensions g) (hn : g.get? id = some n) (hk : n.kind = .union)
    (hd : n.discriminator ≠ "") (hrules : n.info.rules = []) (hloaded : g.isLoaded id = true) {render : Document.Options}
    {o : CompileOptions} {p : Predicate} (h : compileNode id (some compileDocument) render o g = (.ok p, g')) :
    ∃ text doc S d vs variants, Document.renderText (some id) render g = (.ok (text, doc), g') ∧
      Schema.decode text = .ok S ∧ Program.lower S (dispatching render.dialect o) = .ok p.program ∧
      Choice S.body d vs ∧ d.propertyName = n.discriminator ∧ vs.length = n.children.length ∧
      lowerList (Lowering.contextOf S (dispatching render.dialect o)) vs = .ok variants ∧
      ∀ t v i, i < n.children.length → Check.Alone ⟨p.program, p.coerce, t⟩ variants v i →
        ∃ is, p.issues t v = .ok is ∧ (is = [] ↔
          ((∀ s ∈ vs, ∃ u, tag (Lowering.contextOf S (dispatching render.dialect o)) d s = .ok (some u)) →
            Selects (Lowering.contextOf S (dispatching render.dialect o)) d vs v i)) := by
  obtain ⟨text, doc, S, options, hrender, hS, -, -, -, hp, hoptions⟩ := compileNode_steps hnum hloaded h
  obtain ⟨-, r, raw, seen, hof, -⟩ := Document.renderText_steps hnum hloaded hrender
  have hasked : options = dispatching render.dialect o := by
    rw [hoptions (validator_none hn (by rw [hk]; rfl) (by simp [hk])), Document.ofNode_choice hn hk hd hof, Bool.or_true]
    rfl
  subst hasked
  obtain ⟨d, vs, hchoice, hproperty, hlength⟩ :=
    Document.decode_choice hnum hkeys hcustom htok hext hn hk hd hrules hloaded hrender hS
  obtain ⟨hroot, -⟩ := Lowering.lower_program hp
  obtain ⟨variants, hvariants, htells⟩ := hchoice.tells hroot
  refine ⟨text, doc, S, d, vs, variants, hrender, hS, hp, hchoice, hproperty, hlength, hvariants, fun t v i hi halone => ?_⟩
  obtain ⟨b, hverdict, hb⟩ := htells ⟨p.program, p.coerce, t⟩ v i (hlength ▸ hi) halone
  obtain ⟨is, his, hempty⟩ := Program.validate_verdict hverdict
  refine ⟨is, his, ?_⟩
  rw [← List.isEmpty_iff, hempty, hb]
  exact imp_congr_left ⟨fun hall => hall.tagged, fun htagged => ⟨hproperty ▸ hd, rfl, htagged⟩⟩

/-- objects of two kinds, one of them behind a reference, and the choice between them -/
def kindsGraph (a b : Value) : Graph := { nodes := #[
  { id := 1, kind := .const, options := .const a, loaded := true },
  { id := 2, kind := .object, options := .object { keys := ["kind"] }, children := [1], loaded := true },
  { id := 3, kind := .const, options := .const b, loaded := true },
  { id := 4, kind := .object, options := .object { keys := ["kind"] }, children := [3], loaded := true },
  { id := 5, kind := .ref, children := [4], loaded := true },
  { id := 6, kind := .union, options := .union "kind", children := [2, 5], loaded := true }] }

/-- has the document a program that can be run, and that accepts the value or not? -/
def concludes (o : CompileOptions) (v : Value) (accepted : Bool) (S : Schema) : Bool :=
  (Program.lower S o).toOption.any fun p => p.verify.toOption.isSome &&
    (p.validate o.coerce (fun _ _ => "") v).toOption.any fun is => is.isEmpty == accepted

/-- a node has a predicate, which accepts the value or not -/
def Concludes (g : Graph) (id : Nat) (v : Value) (accepted : Bool) : Prop :=
  ∃ p is, compileNode id (some compileDocument) {} {} g = (.ok p, g) ∧ p.issues (fun _ _ => "") v = .ok is ∧
    is.isEmpty = accepted

/-- loaded nodes can be judged by what their documents are read as and compiled to -/
theorem concludes_of_read (asked : List Bool) (v : Value) (accepted : Bool) (hnum : g.Numbered)
    (hloaded : g.isLoaded id = true) (hvalidator : g.validator? id = none)
    (hr : (Document.ofNode g id { target := Document.target } {}).2.IsOrdered)
    (hasked : ∀ doc r, Document.ofNode g id { target := Document.target } {} = (.ok doc, r) → doc.discriminator ∈ asked)
    {P : Schema → Bool} (h : (Document.readSettled { target := Document.target } g id {}).any fun S => P S &&
      asked.all fun dispatch => concludes { mode := .predicate, discriminator := dispatch } v accepted S) :
    Concludes g id v accepted ∧
      ∃ text doc S, Document.renderText (some id) {} g = (.ok (text, doc), g) ∧ Schema.decode text = .ok S ∧ P S = true := by
  obtain ⟨text, doc, S, hrender, hS, hboth⟩ := Document.renderText_read hnum hloaded hr h
  obtain ⟨hP, hall⟩ := Bool.and_eq_true_iff.1 hboth
  refine ⟨?_, text, doc, S, hrender, hS, hP⟩
  obtain ⟨-, r, raw, seen, hof, -⟩ := Document.renderText_steps hnum hloaded hrender
  obtain ⟨p, hp, hone⟩ := ok_of_any (List.all_eq_true.1 hall _ (hasked doc r hof))
  obtain ⟨hverify, hone⟩ := Bool.and_eq_true_iff.1 hone
  obtain ⟨is, his, hempty⟩ := ok_of_any hone
  have hrun : p.verify = .ok () := by
    cases hv : p.verify with
    | error e =>
      rw [hv] at hverify
      cases hverify
    | ok u => rfl
  exact ⟨_, is, compileNode_of_text (o := {}) hnum hloaded hvalidator hrender hS hp hrun, his, by simpa using hempty⟩

/-- is the value accepted by the variant at the place of the document alone, and has every variant a tag? -/
def singledOut (o : CompileOptions) (v : Value) (i : Nat) (S : Schema) : Bool :=
  (Program.lower S o).toOption.any fun p =>
    (lowerList (Lowering.contextOf S o) (S.body.oneOf.getD [])).toOption.any (fun variants => variants.zipIdx.all fun e =>
      (Check.issues ⟨p, o.coerce, fun _ _ => ""⟩ 9 e.1 v Pointer.root).any fun is => is.isEmpty == decide (e.2 = i)) &&
    S.body.own.discriminator.any fun d => (S.body.oneOf.getD []).all fun s =>
      (tag (Lowering.contextOf S o) d s).toOption.any Option.isSome

theorem alone_of_singledOut {o : CompileOptions} {v : Value} {i : Nat} {S : Schema} {d : Discriminator} {vs : List Schema}
    (hchoice : Choice S.body d vs) {p : Program} (hp : Program.lower S o = .ok p) {variants : List Shape}
    (hvariants : lowerList (Lowering.contextOf S o) vs = .ok variants) (h : singledOut o v i S = true) :
    Check.Alone ⟨p, o.coerce, fun _ _ => ""⟩ variants v i ∧
      ∀ s ∈ vs, ∃ u, tag (Lowering.contextOf S o) d s = .ok (some u) := by
  rw [singledOut, hp, hchoice.oneOf, hvariants, hchoice.discriminator] at h
  obtain ⟨hall, htags⟩ := Bool.and_eq_true_iff.1 h
  refine ⟨fun j s hs => ?_, fun s hs => ?_⟩
  · have hmem : (s, j) ∈ variants.zipIdx := List.mem_zipIdx_iff_getElem?.2 hs
    obtain ⟨is, his, hempty⟩ := (Option.any_eq_true _ _).1 (List.all_eq_true.1 hall _ hmem)
    exact ⟨9, is, his, by rw [← List.isEmpty_iff, beq_iff_eq.1 hempty, decide_eq_true_eq]⟩
  · obtain ⟨o, ho, hsome⟩ := ok_of_any (List.all_eq_true.1 htags s hs)
    obtain ⟨u, rfl⟩ := Option.isSome_iff_exists.1 hsome
    exact ⟨u, ho⟩

theorem compileNode_selects_kinds : ∃ p S d vs,
    compileNode 6 (some compileDocument) {} {} (kindsGraph (.string "a") (.string "b")) =
      (.ok p, kindsGraph (.string "a") (.string "b")) ∧
    Choice S.body d vs ∧ d.propertyName = "kind" ∧ vs.length = 2 ∧
    p.issues (fun _ _ => "") (.object [("kind", .string "b")]) = .ok [] ∧
    Selects (Lowering.contextOf S (dispatching .plain {})) d vs (.object [("kind", .string "b")]) 1 := by
  have hnum : (kindsGraph (.string "a") (.string "b")).Numbered := by decide +kernel
  have hkeys : Document.DistinctKeys (kindsGraph (.string "a") (.string "b")) := fun id n =>
    Graph.forall_nodes (P := fun n => n.kind = .object → n.objectOptions.keys.Nodup) (by decide +kernel)
  have hcustom : Document.NoCustom (kindsGraph (.string "a") (.string "b")) := fun id n =>
    Graph.forall_nodes (P := fun n => n.kind ≠ .custom) (by decide +kernel)
  have htok : Document.Tokenless (kindsGraph (.string "a") (.string "b")) := fun id n =>
    Graph.forall_nodes (P := fun n => ∀ t ∈ n.texts, Placeholder.occursIn t = false) (by decide +kernel)
  have hext : Document.PlainExtensions (kindsGraph (.string "a") (.string "b")) := fun id n =>
    Graph.forall_nodes (P := fun n => ∀ e ∈ n.info.extensions ++ n.info.openapi, Schema.isKnown e.1 = false) (by decide +kernel)
  have hloaded : (kindsGraph (.string "a") (.string "b")).isLoaded 6 = true := by decide +kernel
  obtain ⟨⟨p, is, hcompile, his, hempty⟩, text', doc', S', hrender', hS', hsingled⟩ :=
    concludes_of_read [true] (.object [("kind", .string "b")]) true hnum hloaded (by decide +kernel) (by decide +kernel)
      (fun doc r hof => by rw [Document.ofNode_choice rfl rfl (by decide) hof]; exact List.mem_singleton_self _)
      (P := singledOut (dispatching .plain {}) (.object [("kind", .string "b")]) 1) (by decide +kernel)
  have hn : (kindsGraph (.string "a") (.string "b")).get? 6 = some
      { id := 6, kind := .union, options := .union "kind", children := [2, 5], loaded := true } := rfl
  obtain ⟨text, doc, S, d, vs, variants, hrender, hS, hp, hchoice, hproperty, hlength, hvariants, hexact⟩ :=
    compileNode_selects hnum hkeys hcustom htok hext hn rfl (by decide) rfl hloaded hcompile
  -- the document that was evaluated is the one of the theorem
  rw [hrender] at hrender'
  cases hrender'
  obtain rfl := Except.ok.inj (hS.symm.trans hS')
  obtain ⟨halone, htagged⟩ := alone_of_singledOut hchoice hp hvariants hsingled
  have hcoerce : p.coerce = false := by
    obtain ⟨-, -, -, -, -, -, -, -, hcoerce, -⟩ := compileNode_steps hnum hloaded hcompile
    exact hcoerce
  obtain ⟨js, hjs, hiff⟩ := hexact (fun _ _ => "") _ 1 (by decide) (by rw [hcoerce]; exact halone)
  rw [his] at hjs
  cases hjs
  obtain rfl := List.isEmpty_iff.1 hempty
  exact ⟨p, S, d, vs, hcompile, hchoice, hproperty, hlength, his, hiff.1 rfl htagged⟩

/-- **A variant that is never reached.** A number and the text that it is displayed as are one tag, which the later variant
takes: what the variant of the number alone accepts, the union refuses. -/
theorem compileNode_overwritten :
    Concludes (kindsGraph (.float 1) (.string "1")) 2 (.object [("kind", .float 1)]) true ∧
    Concludes (kindsGraph (.float 1) (.string "1")) 5 (.object [("kind", .float 1)]) false ∧
    Concludes (kindsGraph (.float 1) (.string "1")) 6 (.object [("kind", .float 1)]) false := by
  have hnum : (kindsGraph (.float 1) (.string "1")).Numbered := by decide +kernel
  have hboth (b : Bool) : b ∈ [true, false] := by cases b <;> simp
  refine ⟨And.left (concludes_of_read [true, false] _ _ hnum (by decide +kernel) (by decide +kernel) (by decide +kernel)
      (fun doc _ _ => hboth _) (P := fun _ => true) (by decide +kernel)),
    And.left (concludes_of_read [true, false] _ _ hnum (by decide +kernel) (by decide +kernel) (by decide +kernel)
      (fun doc _ _ => hboth _) (P := fun _ => true) (by decide +kernel)),
    And.left (concludes_of_read [true] _ _ hnum (by decide +kernel) (by decide +kernel) (by decide +kernel)
      (fun doc r hof => ?_) (P := fun _ => true) (by decide +kernel))⟩
  rw [Document.ofNode_choice rfl rfl (by decide) hof]
  exact List.mem_singleton_self _

end Schemata
