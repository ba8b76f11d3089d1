import Schemata.Proofs.Graph.Trails
import Schemata.Proofs.Sample.Ending

/-!
Samples of optional wrappers.

Sampling passes from an optional wrapper to the node in it without what surrounds a node everywhere else: no default or
example of that node is asked for, and its own hooks do not run (`bareValue_optional`). Where the node has nothing of the kind, the
wrapper cannot be told from it. That costs one level of nesting, so the two are compared by what they come to at a depth
that is enough (`Yields`); a run that does not break off is the same at every greater depth (`bareValue_extends`).

Main result: `value_optional`. `value_passes_over` is a default and a hook that a wrapper hides.
-/

namespace Schemata.Sample

open Steps (Moves)
open Document (CutByReferences)

variable {α β : Type} {o : Options} {g : Graph} {descend descend' : Descend} {id : Nat} {n : Node} {s : State}

/-! ## Depth -/

/-- on graphs that differ from this one in names and descriptions only: so does the graph behind the first sampler, and the second
goes on only where the first breaks off without a reason -/
def Extends (g : Graph) (x y : SampleM α) : Prop :=
  ∀ s : State, g.Retitled s.graph → g.Retitled (x s).2.graph ∧ ((x s).1 ≠ abort → y s = x s)

theorem extends_bind {x y : SampleM α} {f f' : α → SampleM β} (hx : Extends g x y) (hf : ∀ a, Extends g (f a) (f' a)) :
    Extends g (x >>= f) (y >>= f') := by
  intro s h
  obtain ⟨hgraph, heq⟩ := hx s h
  rw [Steps.bind_apply, Steps.bind_apply]
  rcases hr : x s with ⟨e | a, t⟩ <;> rw [hr] at hgraph heq
  · refine ⟨hgraph, fun hne => ?_⟩
    have hy : y s = (.error e, t) := heq fun he => hne (congrArg Except.error (Except.error.inj he))
    rw [hy]
  · have hy : y s = (.ok a, t) := heq fun he => by cases he
    rw [hy]
    exact hf a t hgraph

theorem extends_congruence (g : Graph) : Congruence g.Retitled fun {α} (x y : SampleM α) => Extends g x y where
  pure _ := fun _ h => ⟨h, fun _ => rfl⟩
  fail _ := fun _ h => ⟨h, fun _ => rfl⟩
  bind := extends_bind
  graph hf := fun s h => hf s.graph h s h
  attempt {x y} hx := fun s h => by
    obtain ⟨hgraph, heq⟩ := hx s h
    rw [attempt_state]
    refine ⟨hgraph, fun hne => ?_⟩
    have hy : y s = x s := heq fun he => hne (by
      unfold attempt
      rcases hr : x s with ⟨e, t⟩
      rw [hr] at he
      cases he
      rfl)
    unfold attempt
    rw [hy]

theorem onGraph_extends {x : GraphM α} (hx : Moves Graph.Retitled x) : Extends g (onGraph x) (onGraph x) :=
  fun s h => ⟨h.trans (hx s.graph), fun _ => rfl⟩

theorem enter_extends {t : Nat} (h : Extends g (descend t) (descend' t)) : Extends g (enter o descend t) (enter o descend' t) := by
  intro s hs
  unfold enter
  split
  · exact ⟨hs, fun _ => rfl⟩
  · obtain ⟨hgraph, heq⟩ := h (s.setCount t (s.count t + 1)) hs
    simp only [entered_apply]
    exact ⟨hgraph, fun hne => by rw [heq hne]⟩

theorem withHooks_extends {x y : SampleM Value} (h : Extends g x y) : Extends g (withHooks o id x) (withHooks o id y) :=
  withHooks_congr (extends_congruence g) (onGraph_extends (GraphM.node_retitles id))
    (onGraph_extends (GraphM.generated_retitles id)) h

/-- a node below a parent or at a place of its own, with all that surrounds it -/
def sampled (o : Options) (depth : Nat) : Descend := fun c => withHooks o c (bareValue o depth c)

/-- what a node is made of, its own hooks left out -/
def made (o : Options) (depth : Nat) (n : Node) : SampleM Value := nodeValue o (sampled o depth) (bareValue o depth) n

theorem bareValue_succ (o : Options) (depth id : Nat) :
    bareValue o (depth + 1) id = (onGraph (GraphM.node id) >>= made o depth) := rfl

/-- **More depth.** A run that does not break off is the same at every greater depth. -/
theorem bareValue_extends {d e : Nat} (h : d ≤ e) (id : Nat) : Extends g (bareValue o d id) (bareValue o e id) := by
  induction d generalizing e id with
  | zero => exact fun s hs => ⟨hs, fun hne => absurd rfl hne⟩
  | succ d ih =>
    obtain ⟨e, rfl⟩ : ∃ k, e = k + 1 := ⟨e - 1, by omega⟩
    have hbare (c : Nat) : Extends g (bareValue o d c) (bareValue o e c) := ih (by omega) c
    rw [bareValue_succ, bareValue_succ]
    refine extends_bind (onGraph_extends (GraphM.node_retitles id)) fun n => ?_
    exact nodeValue_congr (extends_congruence g) o (fun _ _ s hs => ⟨hs, fun _ => rfl⟩)
      (fun _ c _ => ⟨withHooks_extends (hbare c), hbare c⟩) fun _ _ _ t _ => enter_extends (withHooks_extends (hbare t.id))

theorem sampled_extends {d e : Nat} (h : d ≤ e) (id : Nat) : Extends g (sampled o d id) (sampled o e id) :=
  withHooks_extends (bareValue_extends h id)

/-- the samplers, nested as deep as is needed, come to this outcome and state -/
def Yields (x : Nat → SampleM Value) (s : State) (r : Outcome Value × State) : Prop := r.1 ≠ abort ∧ ∃ depth, x depth s = r

theorem Yields.of_extends {x y : Nat → SampleM Value} (hxy : ∀ depth, ∃ more, Extends g (x depth) (y more))
    {r : Outcome Value × State} (hs : g.Retitled s.graph) (h : Yields x s r) : Yields y s r := by
  obtain ⟨hne, depth, rfl⟩ := h
  obtain ⟨more, hextends⟩ := hxy depth
  exact ⟨hne, more, (hextends s hs).2 hne⟩

/-! ## Nodes with nothing around them -/

/-- nothing shows of the node itself where it is sampled: no hooks on sampling and, where they are asked for, no default and no
example -/
def Silent (o : Options) (n : Node) : Prop := n.onGenerate = [] ∧ (o.useDefaults = true → preferred? n.info = none)

theorem Silent.retitled {m : Node} (h : Silent o n) (hnm : n.Retitled m) : Silent o m := by
  obtain ⟨_, _, rfl⟩ := hnm
  exact h

theorem generated_silent (hn : s.graph.get? id = some n) (h : n.onGenerate = []) :
    onGraph (GraphM.generated id) s = (.ok (), s) := by
  unfold onGraph
  rw [GraphM.generated, Steps.bind_of_ok (GraphM.node_of_get? hn), h]
  rfl

/-- nothing surrounds such a node -/
theorem withHooks_silent (hn : g.get? id = some n) (h : Silent o n) {x y : SampleM Value} (hx : Extends g x y)
    (hs : g.Retitled s.graph) : withHooks o id x s = x s := by
  obtain ⟨m, hm, hnm⟩ := hs.some hn
  have hnone : (if o.useDefaults then preferred? m.info else none) = none := by
    split
    · exact (h.retitled hnm).2 ‹_›
    · rfl
  rw [withHooks, Steps.bind_of_ok (onGraph_node hm)]
  simp only [hnone]
  rw [Steps.bind_apply]
  have hgraph := (hx s hs).1
  rcases hr : x s with ⟨e | v, t⟩
  · rfl
  · rw [hr] at hgraph
    obtain ⟨m', hm', hnm'⟩ := hgraph.some hn
    simp only
    rw [Steps.bind_of_ok (generated_silent hm' (h.retitled hnm').1)]
    rfl

/-! ## Wrappers -/

theorem sole_of_ok {m : Node} (h : s.graph.sole n = .ok m) : sole descend n s = descend m.id s := by
  have hlift : lift (s.graph.sole n) s = (.ok m, s) := by rw [lift, h]
  have hgraph : onGraph GraphM.graph s = (.ok s.graph, s) := rfl
  rw [sole, Steps.bind_of_ok hgraph, Steps.bind_of_ok hlift]

/-- an optional wrapper and the node in it -/
structure Wraps (g : Graph) (w c : Nat) (wrapper n : Node) : Prop where
  outer : g.get? w = some wrapper
  kind : wrapper.kind = .optional
  child : wrapper.children = [c]
  inner : g.get? c = some n

section Wrapper

variable {w c : Nat} {wrapper : Node}

theorem Wraps.isOptional (h : Wraps g w c wrapper n) (hg : g.Numbered) : g.isOptional w = true :=
  (Graph.isOptional_iff hg).2 ⟨wrapper, .here h.outer (by rw [h.kind]; rfl) h.child, h.kind⟩

/-- under other names and with other descriptions the two are still there -/
theorem Wraps.retitled {k : Graph} (h : Wraps g w c wrapper n) (hk : g.Retitled k) :
    ∃ wrapper' n', Wraps k w c wrapper' n' := by
  obtain ⟨m, hm, hwm⟩ := hk.some h.outer
  obtain ⟨n', hn', -⟩ := hk.some h.inner
  exact ⟨m, n', hm, hwm.kind.trans h.kind, hwm.children.trans h.child, hn'⟩

/-- **What a wrapper makes** is what the node in it is made of, with nothing around it. -/
theorem bareValue_optional (hg : g.Numbered) (h : Wraps g w c wrapper n) (depth : Nat) (hs : g.Retitled s.graph) :
    bareValue o (depth + 1) w s = bareValue o depth c s := by
  obtain ⟨m, k, hm⟩ := h.retitled hs
  have hsole : s.graph.sole m = .ok k := by simp only [Graph.sole, hm.child, hm.inner]
  rw [bareValue_succ, Steps.bind_of_ok (onGraph_node hm.outer)]
  simp only [made, nodeValue, hm.kind]
  rw [sole_of_ok hsole, hs.numbered hg c k hm.inner]

/-- a wrapper with nothing of its own to show is sampled like that at every place -/
theorem sampled_optional (hg : g.Numbered) (h : Wraps g w c wrapper n) (hplain : Silent o wrapper) (depth : Nat)
    (hs : g.Retitled s.graph) : sampled o (depth + 1) w s = bareValue o depth c s :=
  (withHooks_silent h.outer hplain (bareValue_extends le_rfl w) hs).trans (bareValue_optional hg h depth hs)

/-- the wrapper comes to what the node comes to, if the node has nothing of its own to show either -/
theorem sampled_wrapped (hg : g.Numbered) (h : Wraps g w c wrapper n) (hplain : Silent o wrapper) (hsilent : Silent o n)
    (depth : Nat) (hs : g.Retitled s.graph) : sampled o (depth + 1) w s = sampled o depth c s :=
  (sampled_optional hg h hplain depth hs).trans (withHooks_silent h.inner hsilent (bareValue_extends le_rfl c) hs).symm

end Wrapper

/-! ## Places below a parent -/

/-- one more than the last place at which the test fails -/
def lastPast (p : Nat → Bool) (ids : List Nat) : Nat := ids.zipIdx.foldl (fun acc (id, i) => if p id then acc else i + 1) 0

theorem lastPast_concat (p : Nat → Bool) (ids : List Nat) (id : Nat) :
    lastPast p (ids ++ [id]) = if p id then lastPast p ids else ids.length + 1 := by
  simp [lastPast, List.zipIdx_append, List.foldl_append]

theorem lastPast_le (p : Nat → Bool) (ids : List Nat) : lastPast p ids ≤ ids.length := by
  induction ids using List.reverseRecOn with
  | nil => exact le_rfl
  | append_singleton ids id ih =>
    rw [lastPast_concat, List.length_append, List.length_singleton]
    split <;> omega

/-- what passes the test does not matter before the end -/
theorem lastPast_set {p : Nat → Bool} {ids : List Nat} {i w : Nat} (hi : ids[i]? = some w) (hw : p w = true)
    (hlast : i < lastPast p ids) (c : Nat) : lastPast p (ids.set i c) = lastPast p ids := by
  induction ids using List.reverseRecOn with
  | nil => cases hi
  | append_singleton ids id ih =>
    rw [lastPast_concat] at hlast ⊢
    have hlength : i < ids.length := by
      obtain hlt | rfl | hgt := lt_trichotomy i ids.length
      · exact hlt
      · rw [List.getElem?_concat_length, Option.some_inj] at hi
        rw [hi, if_pos hw] at hlast
        exact absurd hlast (not_lt.2 (lastPast_le p ids))
      · rw [List.getElem?_eq_none (by rw [List.length_append, List.length_singleton]; omega)] at hi
        cases hi
    rw [List.getElem?_append_left hlength] at hi
    rw [List.set_append_left _ _ hlength, lastPast_concat, List.length_set]
    split
    · rename_i hid
      rw [if_pos hid] at hlast
      exact ih hi hlast
    · rfl

/-- how many positions of a tuple are sampled -/
def positions (g : Graph) (n : Node) : Nat := lastPast g.isOptional (if n.hasRest then n.children.dropLast else n.children)

theorem tupleValue_apply (descend : Descend) (n : Node) (s : State) :
    tupleValue descend n s =
      (items descend n (List.range (positions s.graph n)) >>= fun vs => pure (.array vs) : SampleM Value) s := by
  have hgraph : onGraph GraphM.graph s = (.ok s.graph, s) := rfl
  have htuple : tupleValue descend n = (onGraph GraphM.graph >>= fun g =>
      items descend n (List.range (positions g n)) >>= fun vs => pure (.array vs)) := rfl
  rw [htuple]
  exact Steps.bind_of_ok hgraph _

/-- the same node with another child at a place -/
def setChild (n : Node) (i c : Nat) : Node := { n with children := n.children.set i c }

theorem setChild_setChild {i w c : Nat} (h : n.children[i]? = some w) : setChild (setChild n i c) i w = n := by
  obtain ⟨hi, rfl⟩ := List.getElem?_eq_some_iff.1 h
  simp [setChild]

/-- a place below a parent at which a child is sampled by itself: that of the items of a list, of a variant, or a position of a tuple
that is not left out at the end -/
def Place (g : Graph) (parent : Node) (i : Nat) : Prop :=
  parent.kind = .array ∨ parent.kind = .union ∨ parent.kind = .tuple ∧ i < positions g parent

theorem positions_setChild {i w : Nat} (hi : n.children[i]? = some w) (hw : g.isOptional w = true) (hlast : i < positions g n)
    (c : Nat) : positions g (setChild n i c) = positions g n := by
  have hrest : (setChild n i c).hasRest = n.hasRest := rfl
  unfold positions at hlast ⊢
  rw [hrest]
  split
  · rename_i h
    rw [if_pos h] at hlast
    have hlt : i < n.children.dropLast.length := hlast.trans_le (lastPast_le _ _)
    have hi' : n.children.dropLast[i]? = some w := by
      rw [List.getElem?_eq_getElem hlt, List.getElem_dropLast, ← hi, List.getElem?_eq_getElem]
    have hset : (setChild n i c).children.dropLast = n.children.dropLast.set i c := by
      simp only [setChild, List.dropLast_eq_take, List.length_set, List.take_set]
    rw [hset]
    exact lastPast_set hi' hw hlast c
  · rename_i h
    rw [if_neg h] at hlast
    exact lastPast_set hi hw hlast c

theorem child_of_get? {i a : Nat} {m : Node} (hg : s.graph.Numbered) (hi : n.children[i]? = some a) (hm : s.graph.get? a = some m) :
    child descend n i s = descend a s := by
  have hgraph : onGraph GraphM.graph s = (.ok s.graph, s) := rfl
  rw [child, Steps.bind_of_ok hgraph]
  simp only [Graph.child?, hi, Option.bind_some, hm, hg a m hm]

theorem child_eq {n n' : Node} (hsite : n.site = n'.site) {j : Nat} (hj : n.children[j]? = n'.children[j]?) :
    child descend n j = child descend n' j := by
  simp only [child, Graph.child?, hj, failAt, hsite]

/-- sampling every other place goes on, and so does that of the one child in that of the other -/
theorem child_setChild {i w c : Nat} (hg : g.Numbered) (hi : n.children[i]? = some w) (hw : (g.get? w).isSome = true)
    (hc : (g.get? c).isSome = true) (hd : ∀ a, Extends g (descend a) (descend' a))
    (hwc : Extends g (descend w) (descend' c)) (j : Nat) :
    Extends g (child descend n j) (child descend' (setChild n i c) j) := by
  obtain ⟨m, hm⟩ := Option.isSome_iff_exists.1 hw
  obtain ⟨k, hk⟩ := Option.isSome_iff_exists.1 hc
  by_cases hj : i = j
  · subst hj
    intro s hs
    obtain ⟨m', hm', -⟩ := hs.some hm
    obtain ⟨k', hk', -⟩ := hs.some hk
    have hi' : (setChild n i c).children[i]? = some c := List.getElem?_set_self (List.getElem?_eq_some_iff.1 hi).1
    rw [child_of_get? (hs.numbered hg) hi hm', child_of_get? (hs.numbered hg) hi' hk']
    exact hwc s hs
  · have hother : child descend n j = child descend (setChild n i c) j :=
      have hsite : n.site = (setChild n i c).site := rfl
      child_eq hsite (List.getElem?_set_ne hj).symm
    rw [hother]
    exact child_congr (extends_congruence g) (fun a _ => hd a) j

theorem arrayValue_setChild {i c : Nat} (hchild : ∀ j, Extends g (child descend n j) (child descend' (setChild n i c) j)) :
    Extends g (arrayValue descend n) (arrayValue descend' (setChild n i c)) := by
  have hoptions : (setChild n i c).arrayOptions = n.arrayOptions := rfl
  unfold arrayValue
  rw [hoptions]
  dsimp only
  split
  · exact fun s hs => ⟨hs, fun _ => rfl⟩
  · refine extends_bind (items_congr (extends_congruence g) hchild _) fun vs => ?_
    split
    · exact (extends_congruence g).fail _
    · exact (extends_congruence g).pure _

theorem unionValue_setChild {i c : Nat} (hchild : ∀ j, Extends g (child descend n j) (child descend' (setChild n i c) j)) :
    Extends g (unionValue descend n [] (List.range n.children.length))
      (unionValue descend' (setChild n i c) [] (List.range (setChild n i c).children.length)) := by
  have hsite : n.site = (setChild n i c).site := rfl
  have hlength : (setChild n i c).children.length = n.children.length := List.length_set
  rw [hlength]
  exact unionValue_congr (extends_congruence g) hsite hchild _ _

/-- a tuple of which the same positions are sampled -/
theorem tupleValue_setChild {i c : Nat} (hchild : ∀ j, Extends g (child descend n j) (child descend' (setChild n i c) j))
    (hs : g.Retitled s.graph) (hpositions : positions s.graph (setChild n i c) = positions s.graph n)
    (hne : (tupleValue descend n s).1 ≠ abort) : tupleValue descend' (setChild n i c) s = tupleValue descend n s := by
  have hitems : Extends g (items descend n (List.range (positions s.graph n)) >>= fun vs => pure (.array vs))
      (items descend' (setChild n i c) (List.range (positions s.graph n)) >>= fun vs => pure (.array vs) : SampleM Value) :=
    extends_bind (items_congr (extends_congruence g) hchild _) fun vs => (extends_congruence g).pure _
  rw [tupleValue_apply] at hne
  rw [tupleValue_apply, tupleValue_apply, hpositions]
  exact (hitems s hs).2 hne

/-- what a parent is made of goes on when its places do -/
theorem made_setChild {d e i c : Nat}
    (hchild : ∀ j, Extends g (child (sampled o d) n j) (child (sampled o e) (setChild n i c) j)) (hs : g.Retitled s.graph)
    (hplace : n.kind = .array ∨ n.kind = .union ∨ n.kind = .tuple ∧ positions s.graph (setChild n i c) = positions s.graph n)
    (hne : (made o d n s).1 ≠ abort) : made o e (setChild n i c) s = made o d n s := by
  have hkind : (setChild n i c).kind = n.kind := rfl
  obtain hk | hk | ⟨hk, hpositions⟩ := hplace
  · have hmade {k : Nat} {m : Node} (hm : m.kind = .array) : made o k m = arrayValue (sampled o k) m := by
      simp only [made, nodeValue, hm]
    rw [hmade hk] at hne ⊢
    rw [hmade (hkind.trans hk)]
    exact (arrayValue_setChild hchild s hs).2 hne
  · have hmade {k : Nat} {m : Node} (hm : m.kind = .union) :
        made o k m = unionValue (sampled o k) m [] (List.range m.children.length) := by
      simp only [made, nodeValue, hm]
    rw [hmade hk] at hne ⊢
    rw [hmade (hkind.trans hk)]
    exact (unionValue_setChild hchild s hs).2 hne
  · have hmade {k : Nat} {m : Node} (hm : m.kind = .tuple) : made o k m = tupleValue (sampled o k) m := by
      simp only [made, nodeValue, hm]
    rw [hmade hk] at hne ⊢
    rw [hmade (hkind.trans hk)]
    exact tupleValue_setChild hchild hs hpositions hne

/-! ## Main result -/

/-- **Optional wrappers.** In every graph, at every depth and in every state that sampling comes to, an optional wrapper with nothing
of its own to show is sampled as what the node in it is made of: without that node's hooks, and made up even where it has a
default. If the node has nothing of its own to show either, the wrapper comes to the same outcome and the same state,
events included, as the node: by itself, and below every list, union or tuple that samples the place. Where every circle passes
through a reference, that is what the two give as roots, but for the node that a failure to end is reported for. -/
theorem value_optional (hg : g.Numbered) {w c : Nat} {wrapper n : Node} (h : Wraps g w c wrapper n) (hplain : Silent o wrapper) :
    (∀ depth s, g.Retitled s.graph → sampled o (depth + 1) w s = bareValue o depth c s) ∧
      (Silent o n →
        (∀ s r, g.Retitled s.graph → (Yields (sampled o · w) s r ↔ Yields (sampled o · c) s r)) ∧
        (∀ parent i s r, parent.children[i]? = some w → g.Retitled s.graph → Place s.graph parent i →
          (Yields (made o · parent) s r ↔ Yields (made o · (setChild parent i c)) s r)) ∧
        (wrapper.loaded = true → n.loaded = true → CutByReferences g →
          ∃ r k, value o w g = (concluded wrapper r, k) ∧ value o c g = (concluded n r, k))) := by
  refine ⟨fun depth s hs => sampled_optional hg h hplain depth hs, fun hsilent => ?_⟩
  have hwrapped (depth : Nat) {s : State} (hs : g.Retitled s.graph) : sampled o (depth + 1) w s = sampled o depth c s :=
    sampled_wrapped hg h hplain hsilent depth hs
  have hdown (depth : Nat) : Extends g (sampled o depth w) (sampled o depth c) := fun s hs => by
    rw [← hwrapped depth hs]
    exact sampled_extends (Nat.le_succ depth) w s hs
  have hup (depth : Nat) : Extends g (sampled o depth c) (sampled o (depth + 1) w) := fun s hs => by
    rw [hwrapped depth hs]
    exact sampled_extends le_rfl c s hs
  have hw : (g.get? w).isSome = true := by rw [h.outer]; rfl
  have hn : (g.get? c).isSome = true := by rw [h.inner]; rfl
  refine ⟨fun s r hs => ⟨.of_extends (fun depth => ⟨depth, hdown depth⟩) hs, .of_extends (fun depth => ⟨_, hup depth⟩) hs⟩,
    fun parent i s r hi hs hplace => ?_, fun hwl hnl hcut => ?_⟩
  · obtain ⟨m, k, hm⟩ := h.retitled hs
    have hoptional := hm.isOptional (hs.numbered hg)
    have hplace' : parent.kind = .array ∨ parent.kind = .union ∨
        parent.kind = .tuple ∧ positions s.graph (setChild parent i c) = positions s.graph parent :=
      hplace.imp_right (Or.imp_right fun h => ⟨h.1, positions_setChild hi hoptional h.2 c⟩)
    have hback := setChild_setChild (c := c) hi
    constructor
    · rintro ⟨hne, depth, rfl⟩
      have hchild := child_setChild hg hi hw hn (fun a => sampled_extends le_rfl a) (hdown depth)
      exact ⟨hne, depth, made_setChild hchild hs hplace' hne⟩
    · rintro ⟨hne, depth, rfl⟩
      have hi' : (setChild parent i c).children[i]? = some c := List.getElem?_set_self (List.getElem?_eq_some_iff.1 hi).1
      have hchild := child_setChild hg hi' hn hw (fun a => sampled_extends (Nat.le_succ depth) a) (hup depth)
      have hgo : made o (depth + 1) (setChild (setChild parent i c) i w) s = made o depth (setChild parent i c) s :=
        made_setChild hchild hs (by rw [hback]; exact hplace'.imp_right (Or.imp_right fun h => ⟨h.1, h.2.symm⟩)) hne
      rw [hback] at hgo
      exact ⟨hne, depth + 1, hgo⟩
  · obtain ⟨depth, hdepth⟩ : ∃ k, maxNesting o g = k + 1 := ⟨_, rfl⟩
    have hload {id : Nat} {m : Node} (hm : g.get? id = some m) (hl : m.loaded = true) :
        GraphM.load (some id) g = (.ok (), g) := GraphM.load_of_loaded hg (Graph.isLoaded_iff.2 ⟨m, hm, hl⟩)
    have hsame : sampled o (depth + 1) w { graph := g } = sampled o (depth + 1) c { graph := g } := by
      rw [hwrapped depth (.refl g), sampled, sampled, bareValue_eq, bareValue_eq, bareUpTo_add]
      exact withHooks_same hg hcut hdepth.le c
    refine ⟨_, _, value_eq (hload h.outer hwl) h.outer o, ?_⟩
    rw [value_eq (hload h.inner hnl) h.inner o, hdepth]
    exact (congrArg (fun r : Outcome Value × State => (concluded n r.1, r.2.graph)) hsame).symm

/-- a flag that may be left out, before one that may not -/
def flagGraph : Graph :=
  { nodes := #[
      { id := 1, kind := .boolean, loaded := true },
      { id := 2, kind := .optional, children := [1], loaded := true },
      { id := 3, kind := .tuple, options := .tuple false, children := [2, 1], loaded := true }] }

theorem value_optional_flag : flagGraph.Numbered ∧ CutByReferences flagGraph ∧
    (∀ depth, sampled {} (depth + 1) 2 { graph := flagGraph } = bareValue {} depth 1 { graph := flagGraph }) ∧
    (∀ r, Yields (sampled {} · 2) { graph := flagGraph } r ↔ Yields (sampled {} · 1) { graph := flagGraph } r) ∧
    (∀ parent ∈ flagGraph.get? 3, ∀ r,
      Yields (made {} · parent) { graph := flagGraph } r ↔ Yields (made {} · (setChild parent 0 1)) { graph := flagGraph } r) ∧
    ∃ h, value {} 2 flagGraph = (.ok (.bool false), h) ∧ value {} 1 flagGraph = (.ok (.bool false), h) := by
  have hnum : flagGraph.Numbered := by decide +kernel
  have hdown : ∀ a ∈ List.range' 1 3, ∀ n ∈ flagGraph.get? a, n.kind ≠ .ref → ∀ c ∈ n.children, c < a := by decide +kernel
  have hcut : CutByReferences flagGraph := by
    apply Document.cutByReferences_of_rank id
    rintro a c ⟨n, hn, hk, hc⟩
    exact hdown a (Graph.get?_bounds hn) n hn hk c hc
  have hsilent {n : Node} (h : n.onGenerate = []) : Silent {} n := ⟨h, fun hd => by cases hd⟩
  obtain ⟨hbare, hall⟩ := value_optional (o := {}) hnum (w := 2) (c := 1) ⟨rfl, rfl, rfl, rfl⟩ (hsilent rfl)
  obtain ⟨hroot, hplace, hvalue⟩ := hall (hsilent rfl)
  obtain ⟨r, h, hw, hn⟩ := hvalue rfl rfl hcut
  refine ⟨hnum, hcut, fun depth => hbare depth _ (.refl _), fun r => hroot _ r (.refl _), ?_, h, ?_, ?_⟩
  · rintro parent ⟨⟩ r
    exact hplace _ 0 _ r rfl (.refl _) (.inr (.inr ⟨rfl, by decide +kernel⟩))
  · have hfirst : (value {} 2 flagGraph).1 = .ok (.bool false) := rfl
    rw [hw] at hfirst ⊢
    exact Prod.ext hfirst rfl
  · have hfirst : (value {} 1 flagGraph).1 = .ok (.bool false) := rfl
    rw [hn] at hfirst ⊢
    exact Prod.ext hfirst rfl

/-- a text with a default and a hook, and a wrapper around it -/
def textGraph : Graph :=
  { nodes := #[
      { id := 1, kind := .string, info := { default := some (.string "x") },
        onGenerate := [{ reaction := .watch, argument := "h" }], loaded := true },
      { id := 2, kind := .optional, children := [1], loaded := true }] }

/-- **Not transparent.** The wrapper has nothing of its own to show, and hides the default and the hook of the node in it. -/
theorem value_passes_over : GraphM.load (some 2) textGraph = (.ok (), textGraph) ∧
    (value { useDefaults := true } 1 textGraph).1 = .ok (.string "x") ∧
    (value { useDefaults := true } 2 textGraph).1 = .ok (.string "") ∧
    (value { useDefaults := true } 1 textGraph).2.events = [.generate "string#1" "h"] ∧
    (value { useDefaults := true } 2 textGraph).2.events = [] := by
  have hnum : textGraph.Numbered := by decide +kernel
  exact ⟨GraphM.load_of_loaded hnum (by decide +kernel), rfl, rfl, by decide +kernel, by decide +kernel⟩

end Schemata.Sample
