import Mathlib.Tactic
import Schemata.Compile
import Schemata.Proofs.Document.Judged

/-!
Compiled nodes accept what their graph accepts.

Compiling a node renders it, fills in the names of its definitions, reads the text, and lowers it to a program. In the
plain dialect nothing is lost on the way: the predicate finds nothing wrong with a value exactly when the graph itself
accepts it (`compileNode_accepts`).
-/

namespace Schemata

/-- how the validator of a node judges; a validator node around it decides on coercion and formats -/
def judging (g : Graph) (id : Nat) (render : Document.Options) (o : CompileOptions) : Judging where
  coerce := (g.validator? id).elim o.coerce (·.validatorOptions.coerce)
  formats := (g.validator? id).elim o.formats (·.validatorOptions.formats)
  strict := render.strict

/-- what a document is compiled to -/
theorem compileDocument_ok {text : String} {o : CompileOptions} (hmode : o.mode = .predicate) {c : Compiled}
    (h : compileDocument text o = .ok c) : ∃ S p, Schema.decode text = .ok S ∧ Program.lower S o = .ok p ∧
      c.predicate = some { program := p, coerce := o.coerce } := by
  unfold compileDocument at h
  cases hS : Schema.decode text with
  | error e =>
    rw [hS] at h
    cases h
  | ok S =>
    rw [hS] at h
    obtain ⟨_, ⟨⟩, h⟩ := except_bind_ok h
    obtain ⟨p, hp, h⟩ := except_bind_ok h
    rw [hmode] at h
    obtain ⟨-, -, h⟩ := except_bind_ok h
    exact ⟨S, p, rfl, hp, by rw [← Except.ok.inj h]⟩

/-- what a loaded node is compiled to -/
theorem compileNode_steps {g g' : Graph} (hnum : g.Numbered) {root : Nat} (hloaded : g.isLoaded root = true)
    {render : Document.Options} {o : CompileOptions} {p : Predicate}
    (h : compileNode root (some compileDocument) render o g = (.ok p, g')) :
    ∃ text doc S options, Document.renderText (some root) render g = (.ok (text, doc), g') ∧ Schema.decode text = .ok S ∧
      options.dialect = render.dialect ∧ options.formats = (judging g root render o).formats ∧
      p.coerce = (judging g root render o).coerce ∧ Program.lower S options = .ok p.program ∧
      (g.validator? root = none → options = { o with
        dialect := render.dialect, mode := .predicate, discriminator := o.discriminator || doc.discriminator }) := by
  obtain ⟨⟨⟩, u, hload, h⟩ := Steps.bind_ok h
  rw [GraphM.load_of_loaded hnum hloaded] at hload
  cases hload
  obtain ⟨_, u, hgraph, h⟩ := Steps.bind_ok h
  cases hgraph
  obtain ⟨⟨text, doc⟩, w, hrender, h⟩ := Steps.bind_ok h
  obtain ⟨c, u, hc, h⟩ := Steps.bind_ok h
  obtain ⟨hcompile, rfl⟩ := Prod.mk.inj hc
  obtain ⟨S, q, hS, hq, hpredicate⟩ := compileDocument_ok rfl hcompile
  rw [hpredicate] at h
  cases h
  refine ⟨text, doc, S, _, hrender, hS, ?_, ?_, ?_, hq, fun hnone => ?_⟩
  · rfl
  · unfold judging
    cases g.validator? root <;> rfl
  · unfold judging
    cases g.validator? root <;> rfl
  · rw [hnone]

/-- a node that no wrapper comes before has no validator node around it -/
theorem validator_none {g : Graph} {id : Nat} {n : Node} (hn : g.get? id = some n) (hw : n.kind.isWrapper = false)
    (hk : n.kind ≠ .validator) : g.validator? id = none := by
  have hchain : g.chain id = ([], some n) := by
    rw [Graph.chain, Graph.chainFrom, Option.bind_some, hn]
    simp [hw]
  rw [Graph.validator?, Graph.unwrap, hchain]
  simp [hk]

namespace Document

theorem speaks_expressible {g : Graph} (h : ∀ id n, g.get? id = some n → Expressible n) (O : List Nat) :
    Speaks g (diction O) where
  words := ⟨vocabulary_free, .inl rfl⟩
  root := .inr (.inl rfl)
  texts id n hn := (h id n hn).texts
  tags := fun ⟨id, n, hn, hk, hd⟩ => absurd ((h id n hn).union hk).2 hd
  own := ⟨⟨rfl, by decide⟩, ⟨rfl, by decide⟩⟩
  extensions id n hn e he := by
    rw [(h id n hn).extensions] at he
    cases he

end Document

namespace Graph

variable {g : Graph} {σ : Judging}

/-- the node accepts the value, in whatever number of steps -/
def Accepts (g : Graph) (σ : Judging) (id : Nat) (v : Value) : Prop := ∃ steps, g.judge σ steps id v = some true

open Document (exists_of_forall₂) in
/-- a node that is no union accepts what its own conditions admit and all nodes accept that it calls -/
theorem judge_eq_true {a : Nat} {n : Node} (hn : g.get? a = some n) (hk : n.kind ≠ .union) {steps : Nat} {v : Value} {b : Bool}
    (h : g.judge σ steps a v = some b) :
    b = true ↔ n.admits g σ v = true ∧ ∀ e ∈ n.calls v, g.Accepts σ e.1 e.2 := by
  cases steps with
  | zero => cases h
  | succ steps =>
    rw [judge, hn] at h
    obtain ⟨bs, hbs, rfl⟩ := Option.map_eq_some_iff.1 h
    have hall := mapM_eq_some.1 hbs
    rw [concludes, if_neg hk, Bool.and_eq_true, List.all_eq_true]
    refine and_congr_right fun _ => ⟨fun htrue e he => ?_, fun haccepts b hb => ?_⟩
    · obtain ⟨b, hb, hj⟩ := exists_of_forall₂ hall.flip he
      rw [show b = true from htrue b hb] at hj
      exact ⟨steps, hj⟩
    · obtain ⟨e, he, hj⟩ := exists_of_forall₂ hall hb
      obtain ⟨more, hmore⟩ := haccepts e he
      have hsame := (judge_le (Nat.le_max_left steps more) hj).symm.trans (judge_le (Nat.le_max_right steps more) hmore)
      exact Option.some.inj hsame

end Graph

open Document (Expressible Outline) in
/-- the program of a compiled node has the judgement of the node for its verdict, however many steps that takes -/
theorem compileNode_verdict {g g' : Graph} (hnum : g.Numbered) (hnodes : ∀ id n, g.get? id = some n → Expressible n)
    {root : Nat} (hloaded : g.isLoaded root = true) {render : Document.Options} (hdialect : render.dialect = .plain)
    {o : CompileOptions} {p : Predicate} (h : compileNode root (some compileDocument) render o g = (.ok p, g')) (t : Wording)
    {steps : Nat} {v : Value} {b : Bool} (hb : g.judge (judging g root render o) steps root v = some b) :
    Check.Verdict ⟨p.program, p.coerce, t⟩ p.program.root v b := by
  obtain ⟨text, doc, S, options, hrender, hS, hoptions, hformats, hcoerce, hp, -⟩ := compileNode_steps hnum hloaded h
  have hkeys : Document.DistinctKeys g := fun id n hn => (hnodes id n hn).keys
  have hcustom : Document.NoCustom g := fun id n hn => (hnodes id n hn).custom
  obtain ⟨head, st, name, r, houtline, rfl, hnamed, rfl, raw, seen, hraw, hres⟩ :=
    Document.renderText_ok hnum hkeys hcustom hloaded hrender
  rw [Document.hoistOf_none fun id n hn => (hnodes id n hn).nullable] at houtline
  have hplain : Document.Plain (Document.contextOf g' root render) := ⟨hnum, hnodes, hdialect⟩
  have hspeaks := Document.speaks_expressible hnodes st.order
  have hpresent : (Document.assemble render st head).root.isAbsent = false := by
    obtain ⟨B, hB, -⟩ := houtline.root_body hnum hcustom render
    rw [hB]
    rfl
  obtain rfl := Document.decode_resolved hnamed hpresent (houtline.texts_spoken hnum hcustom hspeaks render)
    (houtline.extra_spoken hnum hcustom hspeaks render) hraw hres hS
  obtain ⟨hset, hhead, hfinite, hshape⟩ :=
    Outline.setting hplain houtline hraw hnamed (hoptions.trans hdialect) hp p.coerce t
  have hsame (S : Schema) : Document.judgingOf ⟨p.program, p.coerce, t⟩ (Lowering.contextOf S options)
      (Document.contextOf g' root render) = judging g' root render o := by
    change Judging.mk p.coerce options.formats render.strict = _
    rw [hcoerce, hformats]
    rfl
  exact Document.verdict_judge hset ((hsame _).symm ▸ hb) _ _ hhead hfinite hshape

open Document (Expressible) in
/-- **Compilation preserves meaning.** -/
theorem compileNode_accepts {g g' : Graph} (hnum : g.Numbered) (hguarded : g.Guarded)
    (hnodes : ∀ id n, g.get? id = some n → Expressible n) {root : Nat} (hloaded : g.isLoaded root = true)
    {render : Document.Options} (hdialect : render.dialect = .plain) {o : CompileOptions} {p : Predicate}
    (h : compileNode root (some compileDocument) render o g = (.ok p, g')) (t : Wording) (v : Value) :
    ∃ is, p.issues t v = .ok is ∧ g.judge (judging g root render o) (g.budget v) root v = some is.isEmpty := by
  -- the judgement has an answer, and it is the verdict of the head
  obtain ⟨b, hb⟩ := Option.isSome_iff_exists.1 (Graph.judge_isSome (σ := judging g root render o) hguarded root v)
  obtain ⟨is, his, rfl⟩ := Program.validate_verdict (compileNode_verdict hnum hnodes hloaded hdialect h t hb)
  exact ⟨is, his, hb⟩

/-- a loaded node is compiled, if its document is -/
theorem compileNode_of_text {g : Graph} (hnum : g.Numbered) {root : Nat} (hloaded : g.isLoaded root = true)
    (hvalidator : g.validator? root = none) {render : Document.Options} {o : CompileOptions} {text : String} {doc : Document}
    (hrender : Document.renderText (some root) render g = (.ok (text, doc), g)) {S : Schema}
    (hS : Schema.decode text = .ok S) {p : Program}
    (hp : Program.lower S { o with
      dialect := render.dialect, mode := .predicate, discriminator := o.discriminator || doc.discriminator } = .ok p)
    (hverify : p.verify = .ok ()) :
    compileNode root (some compileDocument) render o g = (.ok { program := p, coerce := o.coerce }, g) := by
  have hcompile : compileDocument text { o with
      dialect := render.dialect, mode := .predicate, discriminator := o.discriminator || doc.discriminator } =
      .ok { predicate := some { program := p, coerce := o.coerce }, usedFormats := p.usedFormats } := by
    unfold compileDocument
    rw [hS]
    change (Program.lower S _ >>= _) = _
    rw [hp]
    change (p.verify >>= _) = _
    rw [hverify]
    rfl
  unfold compileNode
  simp only
  rw [Steps.bind_of_ok (GraphM.load_of_loaded hnum hloaded), Steps.bind_of_ok (by rfl : GraphM.graph g = _), hvalidator]
  simp only
  rw [Steps.bind_of_ok hrender]
  simp only
  rw [hcompile]
  rfl

/-- can the document be compiled, with or without dispatch? -/
def compiles (S : Schema) : Bool :=
  [true, false].all fun dispatch => match Program.lower S { mode := .predicate, discriminator := dispatch } with
    | .ok p => p.verify.toOption.isSome
    | .error _ => false

theorem exists_of_compiles {S : Schema} (h : compiles S = true) (dispatch : Bool) :
    ∃ p, Program.lower S { mode := .predicate, discriminator := dispatch } = .ok p ∧ p.verify = .ok () := by
  have hone := List.all_eq_true.1 h dispatch (by cases dispatch <;> simp)
  split at hone
  · rename_i p hp
    refine ⟨p, hp, ?_⟩
    cases hv : p.verify with
    | error e =>
      rw [hv] at hone
      cases hone
    | ok u => rfl
  · cases hone

/-- a loaded node is compiled, if the document that it is read as can be -/
theorem compileNode_of_read {g : Graph} (hnum : g.Numbered) {root : Nat} (hloaded : g.isLoaded root = true)
    (hvalidator : g.validator? root = none)
    (hr : (Document.ofNode g root { target := Document.target } {}).2.IsOrdered)
    (h : (Document.readSettled { target := Document.target } g root {}).any compiles = true) :
    ∃ q, compileNode root (some compileDocument) {} {} g = (.ok q, g) := by
  obtain ⟨text, doc, S, hrender, hS, hcompiles⟩ := Document.renderText_read hnum hloaded hr h
  obtain ⟨p, hp, hverify⟩ := exists_of_compiles hcompiles (false || doc.discriminator)
  exact ⟨_, compileNode_of_text (o := {}) hnum hloaded hvalidator hrender hS hp hverify⟩

/-- objects of a named or open kind that are chained -/
def chainGraph : Graph := { nodes := #[
  { id := 1, kind := .object, options := .object { keys := ["next", "kind"], unlisted := .reject }, children := [2, 4],
    loaded := true },
  { id := 2, kind := .optional, children := [3], loaded := true },
  { id := 3, kind := .ref, children := [1], loaded := true },
  { id := 4, kind := .ref, children := [5], loaded := true },
  { id := 5, kind := .enum, options := .enum [.string "leaf", .null], loaded := true }] }

theorem compileNode_accepts_chain : chainGraph.Numbered ∧ chainGraph.Guarded ∧
    (∀ id n, chainGraph.get? id = some n → Document.Expressible n) ∧ chainGraph.isLoaded 1 = true ∧
    ∃ p, compileNode 1 (some compileDocument) {} {} chainGraph = (.ok p, chainGraph) ∧
      (∀ t v, ∃ is, p.issues t v = .ok is ∧
        chainGraph.judge (judging chainGraph 1 {} {}) (chainGraph.budget v) 1 v = some is.isEmpty) ∧
      (∀ t, p.issues t (.object [("kind", .null), ("next", .object [("kind", .string "leaf")])]) = .ok []) ∧
      ∀ t, p.issues t (.object [("kind", .null), ("next", .object [("kind", .string "stem")])]) ≠ .ok [] := by
  have hnum : chainGraph.Numbered := by decide +kernel
  have hloaded : chainGraph.isLoaded 1 = true := by decide +kernel
  have hnodes : ∀ id n, chainGraph.get? id = some n → Document.Expressible n := fun id n =>
    Graph.forall_nodes (P := Document.Expressible) (by decide +kernel)
  have hguarded : chainGraph.Guarded := by
    have hfalls : ∀ n ∈ chainGraph.nodes, Graph.handsOn n.kind = true → ∀ c ∈ n.children,
        [0, 0, 2, 1, 1, 0].getD c 0 < [0, 0, 2, 1, 1, 0].getD n.id 0 := by
      decide +kernel
    refine Graph.guarded_of_rank (fun a => [0, 0, 2, 1, 1, 0].getD a 0) fun a c ⟨n, hn, hk, hc⟩ => ?_
    obtain rfl := hnum a n hn
    exact Graph.forall_nodes hfalls hn hk c hc
  obtain ⟨q, hcompile⟩ := compileNode_of_read hnum hloaded (by decide +kernel) (by decide +kernel) (by decide +kernel)
  have haccepts (t : Wording) (v : Value) := compileNode_accepts hnum hguarded hnodes hloaded rfl hcompile t v
  refine ⟨hnum, hguarded, hnodes, hloaded, _, hcompile, haccepts, fun t => ?_, fun t => ?_⟩
  · obtain ⟨is, his, hj⟩ := haccepts t (.object [("kind", .null), ("next", .object [("kind", .string "leaf")])])
    have hyes : chainGraph.judge (judging chainGraph 1 {} {})
        (chainGraph.budget (.object [("kind", .null), ("next", .object [("kind", .string "leaf")])])) 1
        (.object [("kind", .null), ("next", .object [("kind", .string "leaf")])]) = some true := by
      decide +kernel
    rw [hyes] at hj
    rw [his, List.isEmpty_iff.1 (Option.some.inj hj).symm]
  · obtain ⟨is, his, hj⟩ := haccepts t (.object [("kind", .null), ("next", .object [("kind", .string "stem")])])
    have hno : chainGraph.judge (judging chainGraph 1 {} {})
        (chainGraph.budget (.object [("kind", .null), ("next", .object [("kind", .string "stem")])])) 1
        (.object [("kind", .null), ("next", .object [("kind", .string "stem")])]) = some false := by
      decide +kernel
    rw [hno] at hj
    rw [his]
    rintro ⟨⟩
    cases hj

end Schemata
