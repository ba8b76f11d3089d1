import Mathlib.Tactic
import Schemata.Proofs.Document.Constants
import Schemata.Proofs.Document.Identity

/-!
The order of wrappers.

Optional and nullable nodes wrap a node in any order and as often as one likes. What is rendered depends only on whether a
nullable node is among them (`render_wraps`), as part of a document and as its root. Whether a property is required
depends only on whether an optional node is among the wrappers of its whole chain, references included
(`required_render`). `render_wrappers` is both.
-/

namespace Schemata.Document

open Schemata.Graph (Trail OnChain isLocal localChain_iff)

variable {g : Graph} {x a b c t : Nat} {n last : Node} {ws ws' ns : List Node}

/-! ## Wrapping a node -/

/-- a node wraps another, in optional and nullable nodes without annotations that no reference leads to -/
inductive Wraps (g : Graph) (x : Nat) : Nat → List Node → Prop
  | here : Wraps g x x []
  | wrap {a c : Nat} {n : Node} {ws : List Node} (hn : g.get? a = some n) (hk : n.kind = .optional ∨ n.kind = .nullable)
      (hc : n.children = [c]) (hbare : n.info = {}) (href : ∀ r, ¬ RefersTo g r a) (h : Wraps g x c ws) :
      Wraps g x a (n :: ws)

/-- does a nullable node wrap? -/
def Widens (ws : List Node) : Prop := ∃ n ∈ ws, n.kind = .nullable

theorem widens_cons : Widens (n :: ws) ↔ n.kind = .nullable ∨ Widens ws := by simp [Widens]

theorem any_nullable_congr (hwide : Widens ws ↔ Widens ws') :
    (ws ++ ns).any (·.kind = .nullable) = (ws' ++ ns).any (·.kind = .nullable) := by
  have h (ws : List Node) : ws.any (·.kind = .nullable) = true ↔ Widens ws := by simp [Widens]
  rw [List.any_append, List.any_append, Bool.eq_iff_iff.2 ((h ws).trans (hwide.trans (h ws').symm))]

theorem Wraps.bare (h : Wraps g x a ws) : ∀ n ∈ ws, n.info = {} := by
  induction h with
  | here => simp
  | wrap _ _ _ hbare _ _ ih => exact List.forall_mem_cons.2 ⟨hbare, ih⟩

/-- a trail that passes wrappers starts with those of a node, and goes on from what they wrap -/
theorem Wraps.trail_iff {through : Kind → Bool} (hopt : through .optional = true) (hnull : through .nullable = true)
    (h : Wraps g x a ws) : Trail g through a ns last ↔ ∃ ns', ns = ws ++ ns' ∧ Trail g through x ns' last := by
  induction h generalizing ns with
  | here => simp
  | @wrap a c n ws hn hk hc _ _ _ ih =>
    have hpass : through n.kind = true := by rcases hk with hk | hk <;> rw [hk] <;> assumption
    constructor
    · intro htrail
      cases htrail with
      | here hn' hk' =>
        cases hn.symm.trans hn'
        rw [hpass] at hk'
        cases hk'
      | step hn' _ hc' htrail =>
        cases hn.symm.trans hn'
        obtain rfl : _ = _ := List.singleton_injective (hc.symm.trans hc')
        obtain ⟨ns', rfl, hx⟩ := ih.1 htrail
        exact ⟨ns', rfl, hx⟩
    · rintro ⟨ns', rfl, hx⟩
      exact .step hn hpass hc (ih.2 ⟨ns', rfl, hx⟩)

/-- the references that a wrapped node reaches are those that the node itself reaches -/
theorem Wraps.reaches_iff (h : Wraps g x a ws) :
    (∃ r, Relation.ReflTransGen (Edge g) a r ∧ RefersTo g r t) ↔ ∃ r, Relation.ReflTransGen (Edge g) x r ∧ RefersTo g r t := by
  induction h with
  | here => rfl
  | @wrap a c n ws hn hk hc _ _ _ ih =>
    rw [← ih]
    constructor
    · rintro ⟨r, hpath, hr⟩
      rcases Relation.ReflTransGen.cases_head hpath with rfl | ⟨d, ⟨m, hm, hd, -⟩, hpath⟩
      · obtain ⟨m, hm, hkind, -⟩ := hr
        cases hn.symm.trans hm
        rcases hk with hk | hk <;> rw [hk] at hkind <;> cases hkind
      · cases hn.symm.trans hm
        obtain rfl : d = c := by simpa [hc] using hd
        exact ⟨r, hpath, hr⟩
    · rintro ⟨r, hpath, hr⟩
      refine ⟨r, .head ⟨n, hn, by simp [hc], ?_⟩ hpath, hr⟩
      rcases Relation.ReflTransGen.cases_head hpath with rfl | ⟨d, ⟨m, hm, -⟩, -⟩
      · obtain ⟨m, hm, -⟩ := hr
        rw [hm]
        rfl
      · rw [hm]
        rfl

theorem Wraps.isReferenced_iff (h : Wraps g x a ws) (ha : (g.get? a).isSome = true) (hx : (g.get? x).isSome = true) :
    isReferenced g a t = isReferenced g x t := by
  rw [Bool.eq_iff_iff, Document.isReferenced_iff ha, Document.isReferenced_iff hx]
  exact h.reaches_iff

/-- the targets of references among the nodes that a document is: the wrappers are none -/
theorem Wraps.mem_upToNull (h : Wraps g x a ws) {r : Nat} (ht : RefersTo g r t) :
    t ∈ a :: upToNull (ws ++ ns) ↔ ¬ Widens ws ∧ (t = x ∨ t ∈ upToNull ns) := by
  induction h with
  | here => simp [Widens]
  | @wrap a c n ws hn hk hc _ href _ ih =>
    have hne : t ≠ a := by
      rintro rfl
      exact href r ht
    rcases hk with hk | hk
    · have hcons : upToNull (n :: ws ++ ns) = c :: upToNull (ws ++ ns) := by simp [upToNull, hk, hc]
      rw [hcons, List.mem_cons, ih, widens_cons]
      simp [hne, hk]
    · have hcons : upToNull (n :: ws ++ ns) = [] := by simp [upToNull, hk]
      rw [hcons, widens_cons]
      simp [hne, hk]

/-! ## Renderings of a wrapped node -/

theorem annotated_bare (d : Dialect) (h : ∀ n ∈ ws, n.info = {}) (s : Schema) :
    annotated d (ws ++ ns) s = annotated d ns s := by
  induction ws generalizing s with
  | nil => rfl
  | cons n ws ih =>
    have hn : n.info = {} := h n (by simp)
    rw [List.cons_append, annotated, List.foldl_cons, hn, annotate_nothing]
    exact ih (fun m hm => h m (List.mem_cons_of_mem n hm)) s

/-- **As a part of a document.** Two wrappings of a node are rendered alike, wherever its local chain ends. -/
theorem render_wraps {cx : Context} (hg : cx.graph.Numbered) (ha : Wraps cx.graph x a ws) (hb : Wraps cx.graph x b ws')
    (hwide : Widens ws ↔ Widens ws') (hx : Trail cx.graph isLocal x ns last) (depth : Nat) :
    render cx depth a = render cx depth b := by
  have hchain {a : Nat} {ws : List Node} (ha : Wraps cx.graph x a ws) :
      cx.graph.localChain a = (ws ++ ns, some last) :=
    (localChain_iff hg).2 ((ha.trail_iff rfl rfl).2 ⟨ns, rfl, hx⟩)
  have hnotes (s : Schema) : annotated cx.options.dialect (ws ++ ns ++ [last]) s =
      annotated cx.options.dialect (ws' ++ ns ++ [last]) s := by
    rw [List.append_assoc, List.append_assoc, annotated_bare _ ha.bare, annotated_bare _ hb.bare]
  cases depth with
  | zero => rfl
  | succ depth =>
    unfold annotated at hnotes
    simp only [render, hchain ha, hchain hb, any_nullable_congr hwide, hnotes]

/-! ## Roots -/

section Self

variable {cx : Context} {self : List Nat} (descend : Descend) (n : Node)

theorem renderAll_self (ids : List Nat) : renderAll { cx with self } descend n ids = renderAll cx descend n ids := by
  induction ids with
  | nil => rfl
  | cons id ids ih => simp only [renderAll, ih]

theorem renderFields_self (keys : List String) (ids : List Nat) :
    renderFields { cx with self } descend n keys ids = renderFields cx descend n keys ids := by
  induction ids generalizing keys with
  | nil => cases keys <;> rfl
  | cons id ids ih =>
    cases keys with
    | nil => rfl
    | cons key keys => simp only [renderFields, ih]

theorem discriminatorOf_self (prop : String) (i : Nat) (mapping : Dict String) (variants : List (Nat × Schema)) :
    discriminatorOf { cx with self } n prop i mapping variants = discriminatorOf cx n prop i mapping variants := by
  induction variants generalizing i mapping with
  | nil => rfl
  | cons v vs ih => simp only [discriminatorOf, ih]

/-- a node asks which nodes the document is when it is a reference, and only about its target -/
theorem renderNode_self (hg : cx.graph.Numbered) (hself : ∀ r t, RefersTo cx.graph r t → (t ∈ self ↔ t ∈ cx.self))
    (hn : cx.graph.get? n.id = some n) : renderNode { cx with self } descend n = renderNode cx descend n := by
  by_cases hk : n.kind = .ref
  · have htarget {m : Node} (hm : cx.graph.sole n = .ok m) : self.contains m.id = cx.self.contains m.id := by
      rw [Bool.eq_iff_iff, List.contains_iff_mem, List.contains_iff_mem]
      exact hself n.id m.id ⟨n, hn, hk, sole_eq hg hm⟩
    unfold renderNode
    simp only [hk]
    funext s
    cases hm : cx.graph.sole n with
    | error e => rfl
    | ok m =>
      rw [Steps.bind_of_ok (show lift (.ok m) s = (.ok m, s) from rfl),
        Steps.bind_of_ok (show lift (.ok m) s = (.ok m, s) from rfl)]
      simp only [htarget hm]
      rfl
  · unfold renderNode
    simp only [renderAll_self, renderFields_self, discriminatorOf_self]
    cases hkind : n.kind <;> first | rfl | exact absurd hkind hk

end Self

/-- which nodes the document is matters for the targets of references only -/
theorem render_self {cx : Context} (hg : cx.graph.Numbered) {self : List Nat}
    (hself : ∀ r t, RefersTo cx.graph r t → (t ∈ self ↔ t ∈ cx.self)) (depth : Nat) :
    render { cx with self } depth = render cx depth := by
  induction depth with
  | zero => rfl
  | succ depth ih =>
    funext id
    simp only [render, ih]
    rcases hchain : cx.graph.localChain id with ⟨wrappers, _ | last⟩
    · rfl
    · simp only [renderNode_self _ _ hg hself (localChainFrom_mem hg hchain)]
      rfl

/-- **As roots.** Two wrappings of a node give the same document, when the path from the node ends. -/
theorem ofNode_wraps (hg : g.Numbered) (ha : Wraps g x a ws) (hb : Wraps g x b ws') (hwide : Widens ws ↔ Widens ws')
    (hx : Trail g passes x ns last) (r : Registry) (o : Options) : ofNode g a r o = ofNode g b r o := by
  have htrail {a : Nat} {ws : List Node} (ha : Wraps g x a ws) : Trail g passes a (ws ++ ns) last :=
    (ha.trail_iff rfl rfl).2 ⟨ns, rfl, hx⟩
  have hself : ∀ r t, RefersTo g r t → (t ∈ (contextOf g b o).self ↔ t ∈ (contextOf g a o).self) := by
    intro r t ht
    rw [contextOf_trail hg (htrail ha), contextOf_trail hg (htrail hb), ha.mem_upToNull ht, hb.mem_upToNull ht, hwide]
  have hhoist : hoistOf g a = hoistOf g b := by
    have href : isReferenced g a last.id = isReferenced g b last.id := by
      rw [ha.isReferenced_iff (htrail ha).isSome hx.isSome, hb.isReferenced_iff (htrail hb).isSome hx.isSome]
    rw [hoistOf_trail hg (htrail ha), hoistOf_trail hg (htrail hb), hoisted, hoisted, any_nullable_congr hwide, href]
  obtain ⟨ms, m, hlocal⟩ := hx.shorten passes_of_local
  have hrender : render (contextOf g a o) (maxDepth g) a = render (contextOf g b o) (maxDepth g) b :=
    calc render (contextOf g a o) (maxDepth g) a
        = render (contextOf g a o) (maxDepth g) b :=
          render_wraps (show (contextOf g a o).graph.Numbered from hg) ha hb hwide hlocal (maxDepth g)
      _ = render (contextOf g b o) (maxDepth g) b :=
          (congrFun (render_self (show (contextOf g a o).graph.Numbered from hg) hself (maxDepth g)) b).symm
  rw [ofNode_eq, ofNode_eq, hrender, hhoist]

/-! ## Required properties -/

variable {cx : Context} {descend : Descend} {s s' : State}

theorem renderFields_required {keys : List String} {cs : List Nat} {fs : List (String × Schema)} {required : List String}
    (h : renderFields cx descend n keys cs s = (.ok (fs, required), s')) :
    required = requiredKeys cx.graph (keys.zip cs) := by
  induction cs generalizing keys fs required s with
  | nil =>
    have hnil : renderFields cx descend n keys [] = pure ([], []) := by cases keys <;> rfl
    rw [hnil] at h
    cases h
    simp [requiredKeys]
  | cons c cs ih =>
    cases keys with
    | nil => cases h
    | cons key keys =>
      rw [renderFields] at h
      cases hc : cx.graph.get? c with
      | none => rw [hc] at h; cases h
      | some m =>
        rw [hc] at h
        obtain ⟨S, u, -, h⟩ := Steps.bind_ok h
        obtain ⟨⟨gs, rest⟩, v, hrest, h⟩ := Steps.bind_ok h
        cases h
        rw [ih hrest, List.zip_cons_cons]
        cases hopt : cx.graph.isOptional c <;> simp [requiredKeys, hopt]

/-- annotations leave alone which properties are required -/
theorem required_annotated (d : Dialect) (ns : List Node) (S : Schema) :
    (annotated d ns S).own.required = S.own.required := by
  induction ns generalizing S with
  | nil => rfl
  | cons n ns ih =>
    rw [annotated, List.foldl_cons, ← annotated, ih]
    obtain rfl | ⟨b, rfl⟩ := Schema.eq_absent_or_ofBody S
    · rfl
    · rfl

/-- widening the schema of a type leaves alone which properties are required -/
theorem required_widened {d : Dialect} {body : Schema.Body} {T : Schema} {type : String}
    (ht : body.own.type = some (.string type)) (href : body.own.ref = "") (hconst : body.own.const = none)
    (henum : body.own.enum = none) (h : widened d ws (Schema.ofBody body) = .ok T) :
    T.own.required = body.own.required := by
  unfold widened at h
  split at h
  · cases d with
    | openapi =>
      change Except.ok (openapiNullable (Schema.ofBody body)) = _ at h
      rw [openapiNullable, if_neg (show ¬ (Schema.ofBody body).own.ref ≠ "" from not_not.2 href)] at h
      cases h
      rfl
    | plain =>
      change plainNullable (Schema.ofBody body) = _ at h
      have hbody : (Schema.ofBody body).body = body := rfl
      simp only [plainNullable, hbody, href, ne_eq, not_true, if_false, hconst, henum, ht] at h
      cases h
      rfl
  · cases h
    rfl

/-- an object is rendered with the keys of its fields that are not optional -/
theorem render_object {depth id : Nat} {S : Schema} (h : render cx depth id s = (.ok S, s'))
    (hchain : cx.graph.localChain id = (ws, some n)) (hk : n.kind = .object) (hhoist : s.hoist ≠ some n.id) :
    S.own.required = sortStrings (requiredKeys cx.graph n.fields) := by
  cases depth with
  | zero => cases h
  | succ depth =>
    obtain ⟨ws', last, T, W, hchain', hT, hwide, rfl⟩ := render_ok h
    obtain ⟨rfl, hlast⟩ := Prod.mk.inj (hchain.symm.trans hchain')
    obtain rfl := Option.some.inj hlast
    rw [renderBelow, if_neg hhoist, renderNode, hk] at hT
    obtain ⟨⟨fs, required⟩, u, hfs, hT⟩ := Steps.bind_ok hT
    obtain rfl := renderFields_required hfs
    cases hT
    rw [required_annotated, required_widened rfl rfl rfl rfl hwide]
    rfl

theorem mem_requiredKeys {fields : List (String × Nat)} {key : String} :
    key ∈ requiredKeys g fields ↔ ∃ c, (key, c) ∈ fields ∧ g.isOptional c = false := by
  simp only [requiredKeys, List.mem_map, List.mem_filter, Bool.not_eq_true', Prod.exists, exists_and_right, exists_eq_right]

theorem sorted_sortStrings (xs : List String) : (sortStrings xs).Pairwise (· ≤ ·) := by
  have h : (xs.mergeSort Text.le).Pairwise fun a b => Text.le a b = true :=
    List.pairwise_mergeSort (fun a b c => by simpa [Text.le] using le_trans)
      (fun a b => by simpa [Text.le] using le_total a b) xs
  simpa [sortStrings, Text.le] using h

/-- keys in order, and once each when the object names each once -/
theorem sorted_required {fields : List (String × Nat)} (hkeys : (fields.map (·.1)).Nodup) :
    (sortStrings (requiredKeys g fields)).Pairwise (· < ·) := by
  have hnodup : (sortStrings (requiredKeys g fields)).Nodup :=
    (List.mergeSort_perm _ _).nodup_iff.2 (hkeys.sublist (List.filter_sublist.map _))
  exact ((sorted_sortStrings _).and hnodup).imp fun h => lt_of_le_of_ne h.1 h.2

/-- **Required properties.** A property is required unless an optional node is on its whole chain. -/
theorem required_render (hg : cx.graph.Numbered) {depth id : Nat} {S : Schema} (h : render cx depth id s = (.ok S, s'))
    (hchain : cx.graph.localChain id = (ws, some n)) (hk : n.kind = .object) (hhoist : s.hoist ≠ some n.id)
    (hkeys : n.objectOptions.keys.Nodup) :
    S.own.required.Pairwise (· < ·) ∧
      ∀ key c, (key, c) ∈ n.fields → (key ∉ S.own.required ↔ ∃ m, OnChain cx.graph m c ∧ m.kind = .optional) := by
  have hfields : (n.fields.map (·.1)).Nodup := hkeys.sublist (keys_zip_sublist _ _)
  rw [render_object h hchain hk hhoist]
  refine ⟨sorted_required hfields, fun key c hc => ?_⟩
  rw [← Graph.isOptional_iff hg, sortStrings, List.mem_mergeSort, mem_requiredKeys]
  constructor
  · intro hmissing
    by_contra hopt
    exact hmissing ⟨c, hc, by simpa using hopt⟩
  · rintro hopt ⟨d, hd, hno⟩
    obtain rfl : d = c := Option.some.inj (((Dict.get?_eq_some hfields).2 hd).symm.trans ((Dict.get?_eq_some hfields).2 hc))
    rw [hopt] at hno
    cases hno

/-! ## Main result -/

/-- **The order of wrappers.** For every numbered graph: two wrappings of a node in optional and nullable nodes that agree on
whether one is nullable have the same rendering at every place of every document, and the same documents as roots, in
either dialect. And a key of an object is missing from the required ones if and only if an optional node is on the whole
chain of its property, references included; the required keys are in order and different. -/
theorem render_wrappers (hg : g.Numbered) :
    (∀ x a b ws ws', Wraps g x a ws → Wraps g x b ws' → (Widens ws ↔ Widens ws') →
      (∀ cx : Context, cx.graph = g → ∀ depth s s' S,
        render cx depth a s = (.ok S, s') ↔ render cx depth b s = (.ok S, s')) ∧
      ∀ r r' o doc, ofNode g a r o = (.ok doc, r') ↔ ofNode g b r o = (.ok doc, r')) ∧
    ∀ cx : Context, cx.graph = g → ∀ depth id s s' S ws n, render cx depth id s = (.ok S, s') →
      g.localChain id = (ws, some n) → n.kind = .object → s.hoist ≠ some n.id → n.objectOptions.keys.Nodup →
      S.own.required.Pairwise (· < ·) ∧
        ∀ key c, (key, c) ∈ n.fields → (key ∉ S.own.required ↔ ∃ m, OnChain g m c ∧ m.kind = .optional) := by
  constructor
  · intro x a b ws ws' ha hb hwide
    constructor
    · rintro cx rfl depth s s' S
      have hsame {a b : Nat} {ws ws' : List Node} (ha : Wraps cx.graph x a ws) (hb : Wraps cx.graph x b ws')
          (hwide : Widens ws ↔ Widens ws') (h : render cx depth a s = (.ok S, s')) : render cx depth b s = (.ok S, s') := by
        cases depth with
        | zero => cases h
        | succ depth =>
          obtain ⟨ms, last, -, -, hchain, -⟩ := render_ok h
          obtain ⟨ns, -, hx⟩ := (ha.trail_iff rfl rfl).1 ((localChain_iff hg).1 hchain)
          rwa [← render_wraps hg ha hb hwide hx]
      exact ⟨hsame ha hb hwide, hsame hb ha hwide.symm⟩
    · intro r r' o doc
      have hsame {a b : Nat} {ws ws' : List Node} (ha : Wraps g x a ws) (hb : Wraps g x b ws')
          (hwide : Widens ws ↔ Widens ws') (h : ofNode g a r o = (.ok doc, r')) : ofNode g b r o = (.ok doc, r') := by
        obtain ⟨ms, last, htrail⟩ := trail_of_ofNode hg h
        obtain ⟨ns, -, hx⟩ := (ha.trail_iff rfl rfl).1 htrail
        rwa [← ofNode_wraps hg ha hb hwide hx]
      exact ⟨hsame ha hb hwide, hsame hb ha hwide.symm⟩
  · rintro cx rfl depth id s s' S ws n h hchain hk hhoist hkeys
    exact required_render hg h hchain hk hhoist hkeys

/-- a string that is optional and nullable in both orders, and an object with a property that is optional behind a reference -/
def wrapperGraph : Graph :=
  { nodes := #[
      { id := 1, kind := .string },
      { id := 2, kind := .nullable, children := [1] },
      { id := 3, kind := .optional, children := [2] },
      { id := 4, kind := .optional, children := [1] },
      { id := 5, kind := .nullable, children := [4] },
      { id := 6, kind := .optional, children := [1] },
      { id := 7, kind := .ref, children := [6] },
      { id := 8, kind := .nullable, children := [7] },
      { id := 9, kind := .object, options := .object { keys := ["p", "q"] }, children := [8, 1] }] }

theorem render_wrappers_string : wrapperGraph.Numbered ∧
    (∃ doc r', ofNode wrapperGraph 3 { target := target } {} = (.ok doc, r') ∧
      ofNode wrapperGraph 5 { target := target } {} = (.ok doc, r')) ∧
    ∃ S s', render { graph := wrapperGraph, options := {}, self := [9] } 9 9 { registry := { target := target } } = (.ok S, s') ∧
      "p" ∉ S.own.required := by
  have hnum : wrapperGraph.Numbered := (Graph.numbered_iff _).2 (by decide)
  obtain ⟨hsame, hrequired⟩ := render_wrappers hnum
  have hrefs : ∀ r ∈ List.range' 1 9, ∀ n ∈ wrapperGraph.get? r, n.kind = .ref → n.children = [6] := by decide
  have href {a : Nat} (ha : a ≠ 6) : ∀ r, ¬ RefersTo wrapperGraph r a := by
    rintro r ⟨n, hn, hk, hc⟩
    have h6 := hrefs r (Graph.get?_bounds hn) n hn hk
    exact ha (by simpa [hc] using h6)
  have ha : Wraps wrapperGraph 1 3 [_, _] :=
    .wrap rfl (.inl rfl) rfl rfl (href (by decide)) (.wrap rfl (.inr rfl) rfl rfl (href (by decide)) .here)
  have hb : Wraps wrapperGraph 1 5 [_, _] :=
    .wrap rfl (.inr rfl) rfl rfl (href (by decide)) (.wrap rfl (.inl rfl) rfl rfl (href (by decide)) .here)
  have hwide := (hsame 1 3 5 _ _ ha hb (by simp [Widens, wrapperGraph])).2 { target := target }
  obtain ⟨S, s', hS⟩ : ∃ S s', render { graph := wrapperGraph, options := {}, self := [9] } 9 9
      { registry := { target := target } } = (.ok S, s') := ⟨_, _, rfl⟩
  have hobject := (hrequired _ rfl _ _ _ _ _ _ _ hS rfl rfl (by simp) (by decide)).2 "p" 8 (by decide)
  exact ⟨hnum, ⟨_, _, rfl, (hwide _ _ _).1 rfl⟩, S, s', hS,
    hobject.2 ⟨_, .step rfl rfl rfl (.step rfl rfl rfl (.here rfl rfl rfl)), rfl⟩⟩

end Schemata.Document
