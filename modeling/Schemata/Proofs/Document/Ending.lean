import Mathlib.Tactic
import Schemata.Proofs.Document.Identity

/-!
Renderings that end.

A rendering goes down along edges, and behind a reference only when its target has not yet taken a place. Where every circle
of the graph passes through a reference, the nodes between two places are all different, and there are at most as many
places as nodes. So rendering nests no deeper than its bound, whatever the renderer would do there (`renderUpTo_same`),
and every target is rendered at most once (`Taken`).

It gives a schema or fails (`renderUpTo_finishes`), with one exception: what stands for a custom node may lack branches, and
widening it to null breaks off on one of those (`ofNode_breaks_off`). Main result: `ofNode_ends`.
-/

namespace Schemata.Document

open Schemata.Graph (Trail isLocal localChain_iff acyclic_induction)
open Steps (Same)

/-! ## Circles -/

/-- an edge that needs no reference -/
def Inlines (g : Graph) (a c : Nat) : Prop := ∃ n, g.get? a = some n ∧ n.kind ≠ .ref ∧ c ∈ n.children

/-- every circle of the graph passes through a reference -/
def CutByReferences (g : Graph) : Prop := ∀ a, ¬ Relation.TransGen (Inlines g) a a

variable {g : Graph}

theorem Passes.inlines {a c : Nat} (h : Passes g a c) : Inlines g a c := by
  obtain ⟨n, hn, hk, hc⟩ := h
  refine ⟨n, hn, ?_, by simp [hc]⟩
  intro href
  rw [href] at hk
  cases hk

theorem Inlines.isSome {a c : Nat} (h : Inlines g a c) : (g.get? a).isSome = true := by
  obtain ⟨n, hn, -⟩ := h
  rw [hn]
  rfl

/-- a rank that falls along every edge but those of references leaves no other circles -/
theorem cutByReferences_of_rank (rank : Nat → Nat) (hrank : ∀ a c, Inlines g a c → rank c < rank a) : CutByReferences g := by
  intro a ha
  have hfall : ∀ c, Relation.TransGen (Inlines g) a c → rank c < rank a := by
    intro c hc
    induction hc with
    | single h => exact hrank _ _ h
    | tail _ h ih => exact (hrank _ _ h).trans ih
  exact lt_irrefl _ (hfall a ha)

theorem Trail.inlines {a : Nat} {ns : List Node} {last : Node} (hg : g.Numbered) (h : Trail g isLocal a ns last) {c : Nat}
    (hc : Inlines g last.id c) : Relation.TransGen (Inlines g) a c := by
  induction h with
  | here hn =>
    rw [hg _ _ hn] at hc
    exact .single hc
  | @step a d n last ns hn hk hd _ ih =>
    have hstep : Passes g a d := ⟨n, hn, passes_of_local _ hk, hd⟩
    exact .head hstep.inlines (ih hc)

/-! ## One level at a time -/

/-- one level of rendering, when `descend` renders what is below it -/
def renderWith (cx : Context) (descend : Descend) (id : Nat) : RenderM Schema :=
  match cx.graph.localChain id with
  | (_, none) =>
    fail (.fault .unsupportedConstruct (((cx.graph.get? id).map fun n => n.site "wrapper without child").getD {}))
  | (wrappers, some last) => do
    let s ← renderBelow cx descend last
    let s ← lift (widened cx.options.dialect wrappers s)
    return annotated cx.options.dialect (wrappers ++ [last]) s

/-- the renderer with any other renderer in the place of its bound -/
def renderUpTo (cx : Context) (out : Descend) : (depth : Nat) → Descend
  | 0 => out
  | depth + 1 => renderWith cx (renderUpTo cx out depth)

theorem renderUpTo_add (cx : Context) (out : Descend) (depth more : Nat) :
    renderUpTo cx out (depth + more) = renderUpTo cx (renderUpTo cx out more) depth := by
  induction depth with
  | zero => rw [Nat.zero_add]; rfl
  | succ depth ih => rw [Nat.succ_add, renderUpTo, ih, renderUpTo]

theorem render_succ (cx : Context) (depth id : Nat) : render cx (depth + 1) id = renderWith cx (render cx depth) id := by
  unfold renderWith
  rw [render]
  rcases cx.graph.localChain id with ⟨wrappers, _ | last⟩
  · rfl
  · funext s
    have hwiden (x : RenderM Schema) (t : State) : (do
        let s ← x
        let s ← if wrappers.any (·.kind = .nullable) then lift (nullable cx.options.dialect s) else pure s
        return (wrappers ++ [last]).foldl (fun s n => annotate cx.options.dialect n.info s) s : RenderM Schema) t =
        (do
          let s ← x
          let s ← lift (widened cx.options.dialect wrappers s)
          return annotated cx.options.dialect (wrappers ++ [last]) s : RenderM Schema) t := by
      unfold widened
      split <;> rfl
    by_cases hhoist : s.hoist = some last.id
    · have htake : takeHoist last.id s = (.ok true, { s with hoist := none }) := by rw [takeHoist, if_pos hhoist]
      have hbelow : renderBelow cx (render cx depth) last s = define cx (render cx depth) last.id { s with hoist := none } := by
        rw [renderBelow, if_pos hhoist]
      simp only
      rw [Steps.bind_of_ok htake, if_pos rfl, hwiden, Steps.bind_apply, Steps.bind_apply, hbelow]
    · have htake : takeHoist last.id s = (.ok false, s) := by rw [takeHoist, if_neg hhoist]
      have hbelow : renderBelow cx (render cx depth) last s = renderNode cx (render cx depth) last s := by
        rw [renderBelow, if_neg hhoist]
      simp only
      rw [Steps.bind_of_ok htake, if_neg (by simp), hwiden, Steps.bind_apply, Steps.bind_apply, hbelow]

/-- the renderer is the one that stops at its bound -/
theorem render_eq (cx : Context) (depth : Nat) : render cx depth = renderUpTo cx (fun _ => lift abort) depth := by
  induction depth with
  | zero => rfl
  | succ depth ih =>
    funext id
    rw [render_succ, ih, renderUpTo]

/-! ## Places -/

/-- at least `k` nodes have taken a place, each its own; of those that wait in `pending` and those that have a body, none was
rendered twice -/
structure Taken (g : Graph) (k : Nat) (pending : List Nat) (s : State) : Prop where
  nodup : s.order.Nodup
  valid : ∀ t ∈ s.order, (g.get? t).isSome = true
  length : k ≤ s.order.length
  bodies : (s.bodies.map (·.1) ++ pending).Subperm s.order

variable {cx : Context} {descend descend' : Descend} {k : Nat} {pending : List Nat} {s : State}

theorem Taken.length_le (h : Taken g k pending s) : k ≤ g.size :=
  h.length.trans (Graph.length_le_size h.nodup h.valid)

/-- a node takes a place, and waits for its body -/
theorem Taken.reserve (h : Taken g k pending s) {t : Nat} (hvalid : (g.get? t).isSome = true) (ht : t ∉ s.order) {u : State}
    (horder : u.order = s.order ++ [t]) (hbodies : u.bodies = s.bodies) : Taken g (k + 1) (t :: pending) u := by
  constructor
  · rw [horder]
    exact List.nodup_append.2 ⟨h.nodup, by simp, by simpa using fun a ha => by rintro rfl; exact ht ha⟩
  · rw [horder]
    intro a ha
    rcases List.mem_append.1 ha with ha | ha
    · exact h.valid a ha
    · obtain rfl := List.mem_singleton.1 ha
      exact hvalid
  · rw [horder, List.length_append, List.length_singleton]
    exact Nat.succ_le_succ h.length
  · rw [horder, hbodies]
    have hperm : (s.bodies.map (·.1) ++ t :: pending).Perm ((s.bodies.map (·.1) ++ pending) ++ [t]) := by
      rw [List.append_assoc]
      exact (List.perm_append_singleton t pending).symm.append_left _
    exact hperm.subperm.trans ((List.subperm_append_right [t]).2 h.bodies)

/-- a place that was taken is given up for nothing -/
theorem Taken.fail {t : Nat} (h : Taken g (k + 1) (t :: pending) s) : Taken g k pending s :=
  ⟨h.nodup, h.valid, (Nat.le_succ k).trans h.length,
    ((List.sublist_cons_self t pending).append_left _).subperm.trans h.bodies⟩

/-- the body that waited is there -/
theorem Taken.body {t : Nat} (h : Taken g (k + 1) (t :: pending) s) (b : Schema) :
    Taken g k pending { s with bodies := s.bodies ++ [(t, b)] } := by
  refine ⟨h.nodup, h.valid, (Nat.le_succ k).trans h.length, ?_⟩
  simpa using h.bodies

theorem define_apply (cx : Context) (descend : Descend) (t : Nat) (s : State) :
    define cx descend t s =
      match reserve cx t s with
      | (.ok true, u) =>
        match descend t u with
        | (.ok b, v) =>
          (.ok (definitionPointer { v with bodies := v.bodies ++ [(t, b)] } t), { v with bodies := v.bodies ++ [(t, b)] })
        | (.error e, v) => (.error e, v)
      | (.ok false, u) => (.ok (definitionPointer u t), u)
      | (.error e, u) => (.error e, u) := by
  unfold define
  rw [Steps.bind_apply]
  rcases reserve cx t s with ⟨_ | _ | _, u⟩
  · rfl
  · rfl
  · simp only [if_true]
    rw [Steps.bind_apply]
    rcases descend t u with ⟨_ | b, v⟩ <;> rfl

/-- what taking a place does -/
theorem reserve_cases (cx : Context) (t : Nat) (s : State) :
    (t ∈ s.order ∧ reserve cx t s = (.ok false, s)) ∨
      t ∉ s.order ∧ ∃ res u, reserve cx t s = (res, u) ∧ res ≠ .ok false ∧ u.order = s.order ++ [t] ∧ u.bodies = s.bodies := by
  unfold reserve
  by_cases ht : t ∈ s.order
  · exact .inl ⟨ht, by simp [ht]⟩
  · refine .inr ⟨ht, ?_⟩
    simp only [List.contains_iff_mem, ht, if_false]
    split
    · exact ⟨_, _, rfl, by simp, rfl, rfl⟩
    · exact ⟨_, _, rfl, by simp, rfl, rfl⟩

/-- **Definitions.** They are rendered alike when their bodies are, with one place more taken. -/
theorem define_same {t : Nat} (ht : (cx.graph.get? t).isSome = true)
    (hplace : ∀ pending, Same (Taken cx.graph (k + 1) pending) (descend t) (descend' t)) :
    Same (Taken cx.graph k pending) (define cx descend t) (define cx descend' t) := by
  intro s h
  rw [define_apply, define_apply]
  rcases reserve_cases cx t s with ⟨-, hr⟩ | ⟨hnew, res, u, hr, hfree, horder, hbodies⟩
  · rw [hr]
    exact ⟨rfl, h⟩
  · have hu := h.reserve ht hnew horder hbodies
    rw [hr]
    rcases res with e | _ | _
    · exact ⟨rfl, hu.fail⟩
    · exact absurd rfl hfree
    · obtain ⟨heq, hv⟩ := hplace _ u hu
      dsimp only
      rw [← heq]
      rcases hd : descend t u with ⟨e | b, v⟩ <;> rw [hd] at hv
      · exact ⟨rfl, hv.fail⟩
      · exact ⟨rfl, hv.body b⟩

/-! ## One node -/

theorem lift_same {α : Type} (P : State → Prop) (o : Outcome α) : Same P (lift o) (lift o) := fun _ h => ⟨rfl, h⟩

theorem renderAll_same {P : State → Prop} (n : Node) {ids : List Nat} (h : ∀ c ∈ ids, Same P (descend c) (descend' c)) :
    Same P (renderAll cx descend n ids) (renderAll cx descend' n ids) := by
  induction ids with
  | nil => exact .pure _
  | cons c ids ih =>
    rw [renderAll, renderAll]
    cases cx.graph.get? c with
    | none => exact lift_same _ _
    | some m =>
      exact (h c (by simp)).bind fun s => (ih fun c hc => h c (List.mem_cons_of_mem _ hc)).bind fun ss => .pure _

theorem renderFields_same {P : State → Prop} (n : Node) {keys : List String} {ids : List Nat}
    (h : ∀ c ∈ ids, Same P (descend c) (descend' c)) :
    Same P (renderFields cx descend n keys ids) (renderFields cx descend' n keys ids) := by
  induction ids generalizing keys with
  | nil => cases keys <;> exact .pure _
  | cons c ids ih =>
    cases keys with
    | nil => exact lift_same _ _
    | cons key keys =>
      rw [renderFields, renderFields]
      cases cx.graph.get? c with
      | none => exact lift_same _ _
      | some m =>
        exact (h c (by simp)).bind fun s => (ih fun c hc => h c (List.mem_cons_of_mem _ hc)).bind fun r => .pure _

theorem renderSole_same (hg : cx.graph.Numbered) {P : State → Prop} {n : Node}
    (h : ∀ c ∈ n.children, Same P (descend c) (descend' c)) :
    Same P (renderSole cx descend n) (renderSole cx descend' n) := by
  intro s hs
  unfold renderSole
  rw [Steps.bind_apply, Steps.bind_apply]
  cases hm : cx.graph.sole n with
  | error e => exact ⟨rfl, hs⟩
  | ok m => exact h m.id (by simp [sole_eq hg hm]) s hs

theorem sole_get? (hg : g.Numbered) {n m : Node} (h : g.sole n = .ok m) : g.get? m.id = some m := by
  unfold Graph.sole at h
  split at h
  · split at h
    · rename_i hm
      cases h
      rw [hg _ _ hm, hm]
    · cases h
  · cases h

/-- **One node.** It is rendered alike when its children are, or for a reference the body of its target. -/
theorem renderNode_same (hg : cx.graph.Numbered) {n : Node}
    (hchildren : n.kind ≠ .ref → ∀ c ∈ n.children, Same (Taken cx.graph k pending) (descend c) (descend' c))
    (hplace : ∀ t, (cx.graph.get? t).isSome = true → ∀ pending,
      Same (Taken cx.graph (k + 1) pending) (descend t) (descend' t)) :
    Same (Taken cx.graph k pending) (renderNode cx descend n) (renderNode cx descend' n) := by
  unfold renderNode
  cases hk : n.kind <;> simp only
  case object => exact (renderFields_same n (hchildren (by simp [hk]))).bind fun r => .pure _
  case array => exact (renderSole_same hg (hchildren (by simp [hk]))).bind fun r => .pure _
  case tuple =>
    refine (renderAll_same n (hchildren (by simp [hk]))).bind fun items => ?_
    split
    · split
      · exact lift_same _ _
      · exact .pure _
    · exact .pure _
  case record => exact (renderSole_same hg (hchildren (by simp [hk]))).bind fun r => .pure _
  case union =>
    refine (renderAll_same n (hchildren (by simp [hk]))).bind fun items => ?_
    split
    · exact .pure _
    · have hflag : Same (Taken cx.graph k pending) (fun s => (.ok (), { s with discriminator := true }) : RenderM Unit)
          (fun s => (.ok (), { s with discriminator := true })) :=
        fun s h => ⟨rfl, h.nodup, h.valid, h.length, h.bodies⟩
      exact hflag.bind fun _ => (lift_same _ _).bind fun disc => .pure _
  case intersection => exact (renderAll_same n (hchildren (by simp [hk]))).bind fun items => .pure _
  case ref =>
    intro s hs
    rw [Steps.bind_apply, Steps.bind_apply]
    cases hm : cx.graph.sole n with
    | error e => exact ⟨rfl, hs⟩
    | ok m =>
      have hvalid : (cx.graph.get? m.id).isSome = true := by rw [sole_get? hg hm]; rfl
      have hrest : Same (Taken cx.graph k pending)
          (if cx.self.contains m.id then pure (.reference "#") else define cx descend m.id)
          (if cx.self.contains m.id then pure (.reference "#") else define cx descend' m.id) := by
        split
        · exact .pure _
        · exact define_same hvalid (hplace m.id hvalid)
      exact hrest s hs
  case validator => exact renderSole_same hg (hchildren (by simp [hk]))
  all_goals first | exact .pure _ | exact lift_same _ _

/-- **One level.** -/
theorem renderWith_same (hg : cx.graph.Numbered) {id : Nat}
    (hbelow : ∀ c, Relation.TransGen (Inlines cx.graph) id c → Same (Taken cx.graph k pending) (descend c) (descend' c))
    (hplace : ∀ t, (cx.graph.get? t).isSome = true → ∀ pending,
      Same (Taken cx.graph (k + 1) pending) (descend t) (descend' t)) :
    Same (Taken cx.graph k pending) (renderWith cx descend id) (renderWith cx descend' id) := by
  unfold renderWith
  rcases hchain : cx.graph.localChain id with ⟨wrappers, _ | last⟩
  · exact lift_same _ _
  · have htrail := (localChain_iff hg).1 hchain
    have hlast := localChainFrom_mem hg hchain
    have hnode : Same (Taken cx.graph k pending) (renderBelow cx descend last) (renderBelow cx descend' last) := by
      intro s hs
      unfold renderBelow
      split
      · have hvalid : (cx.graph.get? last.id).isSome = true := by rw [hlast]; rfl
        exact define_same hvalid (hplace last.id hvalid) _ ⟨hs.nodup, hs.valid, hs.length, hs.bodies⟩
      · exact renderNode_same hg (fun hk c hc => hbelow c (Trail.inlines hg htrail ⟨last, hlast, hk, hc⟩)) hplace s hs
    exact hnode.bind fun s => (lift_same _ _).bind fun s => .pure _

/-! ## The bound -/

/-- between two places the nodes are all different, so there is one step more than there are nodes -/
theorem renderUpTo_place (hg : cx.graph.Numbered) (hcut : CutByReferences cx.graph) {out out' : Descend} {room : Nat}
    (hplace : ∀ depth, room ≤ depth → ∀ t pending,
      Same (Taken cx.graph (k + 1) pending) (renderUpTo cx out depth t) (renderUpTo cx out' depth t))
    {depth : Nat} (hdepth : room + (cx.graph.size + 1) ≤ depth) (id : Nat) :
    Same (Taken cx.graph k pending) (renderUpTo cx out depth id) (renderUpTo cx out' depth id) := by
  have hcircle : ∀ a, ¬ Relation.TransGen (Relation.TransGen (Inlines cx.graph)) a a := by
    rw [Relation.transGen_eq_self]
    exact hcut
  have hnode : ∀ a c, Relation.TransGen (Inlines cx.graph) a c → (cx.graph.get? a).isSome = true := by
    intro a c h
    obtain ⟨b, hb, -⟩ := Relation.TransGen.head'_iff.1 h
    exact hb.isSome
  refine acyclic_induction hcircle hnode (motive := fun steps id => ∀ depth, room + steps ≤ depth → ∀ pending,
    Same (Taken cx.graph k pending) (renderUpTo cx out depth id) (renderUpTo cx out' depth id)) ?_ id depth hdepth pending
  intro steps id ih depth hdepth pending
  obtain ⟨depth, rfl⟩ : ∃ d, depth = d + 1 := ⟨depth - 1, by omega⟩
  apply renderWith_same hg
  · intro c hc
    exact ih c hc depth (by omega) pending
  · intro t _ pending
    exact hplace depth (by omega) t pending

/-- **The bound is not met.** With `k` places taken, each place that is left, and the path to the first of them, need one step
more than there are nodes. -/
theorem renderUpTo_same (hg : cx.graph.Numbered) (hcut : CutByReferences cx.graph) {out out' : Descend} {left depth : Nat}
    (hleft : k + left = cx.graph.size) (hdepth : left * (cx.graph.size + 1) + (cx.graph.size + 1) ≤ depth) (id : Nat) :
    Same (Taken cx.graph k pending) (renderUpTo cx out depth id) (renderUpTo cx out' depth id) := by
  induction left generalizing k depth id pending with
  | zero =>
    refine renderUpTo_place hg hcut (fun _ _ t pending s hs => ?_) hdepth id
    -- all nodes have taken their places
    have := hs.length_le
    omega
  | succ left ih =>
    refine renderUpTo_place hg hcut (fun depth hle t pending => ?_) hdepth id
    rw [Nat.succ_mul] at hle
    exact ih (by omega) hle t

/-! ## Walks along wrappers -/

/-- the walks that rendering takes besides: none of them meets its bound -/
structure WalksEnd (g : Graph) : Prop where
  /-- paths through optional, nullable and validator nodes end, so local chains and the paths from roots do -/
  passes : WellFounded fun c a => Passes g a c
  localChain : ∀ id fuel, g.size + 1 ≤ fuel → g.localChainFrom [] fuel id = g.localChain id
  rootIdentity : ∀ root fuel, g.size + 1 ≤ fuel →
    rootIdentity g root fuel false [root] root = rootIdentity g root (g.size + 1) false [root] root
  /-- chains have a guard against circles -/
  chain : ∀ id fuel, g.size + 2 ≤ fuel → g.chainFrom [] fuel (some id) = g.chain id
  /-- the walk over the graph expands every node once -/
  reach : ∀ root steps, (g.get? root).isSome = true → g.size ≤ steps → reach g steps [] [root] = reach g g.size [] [root]

theorem localChainFrom_enough (hpass : ∀ a, ¬ Relation.TransGen (Passes g) a a) {acc : List Node} {id more : Nat} :
    g.localChainFrom acc (g.size + 1 + more) id = g.localChainFrom acc (g.size + 1) id := by
  refine acyclic_induction hpass (fun a c h => h.inlines.isSome) (motive := fun steps id => ∀ acc,
    g.localChainFrom acc (steps + more) id = g.localChainFrom acc steps id) ?_ id acc
  intro steps a ih acc
  rw [Nat.succ_add, Graph.localChainFrom, Graph.localChainFrom]
  cases hn : g.get? a with
  | none => rfl
  | some n =>
    simp only [Graph.ends_eq]
    cases hk : isLocal n.kind with
    | false => rfl
    | true =>
      simp only [Bool.not_true, Bool.false_eq_true, if_false]
      split
      · rename_i c hc
        exact ih c ⟨n, hn, passes_of_local _ hk, hc⟩ _
      · rfl

theorem rootIdentity_enough (hpass : ∀ a, ¬ Relation.TransGen (Passes g) a a) {root id more : Nat} {wide : Bool}
    {self : List Nat} :
    rootIdentity g root (g.size + 1 + more) wide self id = rootIdentity g root (g.size + 1) wide self id := by
  refine acyclic_induction hpass (fun a c h => h.inlines.isSome) (motive := fun steps id => ∀ wide self,
    rootIdentity g root (steps + more) wide self id = rootIdentity g root steps wide self id) ?_ id wide self
  intro steps a ih wide self
  rw [Nat.succ_add, rootIdentity, rootIdentity]
  cases hn : g.get? a with
  | none => rfl
  | some n =>
    simp only [passes_eq]
    cases hk : passes n.kind with
    | false => rfl
    | true =>
      simp only [if_true]
      split
      · rename_i c hc
        split
        · rfl
        · exact ih c ⟨n, hn, hk, hc⟩ _ _
      · rfl

theorem walksEnd (hg : g.Numbered) (hcut : CutByReferences g) : WalksEnd g := by
  have hpass : ∀ a, ¬ Relation.TransGen (Passes g) a a := fun a ha =>
    hcut a (ha.lift id fun _ _ h => h.inlines)
  constructor
  · refine ⟨fun a => ?_⟩
    exact acyclic_induction hpass (fun a c h => h.inlines.isSome) (motive := fun _ a => Acc (fun c a => Passes g a c) a)
      (fun _ a ih => Acc.intro a ih) a
  · intro id fuel hfuel
    obtain ⟨more, rfl⟩ := Nat.exists_eq_add_of_le hfuel
    exact localChainFrom_enough hpass
  · intro root fuel hfuel
    obtain ⟨more, rfl⟩ := Nat.exists_eq_add_of_le hfuel
    exact rootIdentity_enough hpass
  · intro id fuel hfuel
    exact Graph.chainFrom_more hg (Graph.passed_nil g id) (by simp) hfuel
  · intro root steps hroot hsteps
    exact (reach_saturated (walk_root hroot) (by simp)).2 steps hsteps

/-! ## Main result -/

/-! ## Schemas without gaps -/

open Schema (Body ofBody)
open Steps (Concludes Finishes)

/-- a schema that is there, and so is each of its branches -/
def Whole (S : Schema) : Prop := ∃ b, S = ofBody b ∧ ∀ t ∈ b.anyOf.getD [] ++ b.oneOf.getD [], t.isAbsent = false

theorem Whole.present {S : Schema} (h : Whole S) : S.isAbsent = false := by
  obtain ⟨b, rfl, -⟩ := h
  rfl

theorem Whole.mapOwn {S : Schema} (h : Whole S) (f : Keywords → Keywords) : Whole (S.mapOwn f) := by
  obtain ⟨b, rfl, hb⟩ := h
  exact ⟨{ b with own := f b.own }, rfl, hb⟩

theorem whole_ofKeywords (k : Keywords) : Whole (.ofKeywords k) := ⟨{ own := k }, rfl, by simp⟩

theorem whole_orNull {S : Schema} (h : Whole S) : Whole (orNull S) := by
  refine ⟨{ anyOf := some [S, nullBranch] }, rfl, ?_⟩
  simpa using ⟨h.present, rfl⟩

theorem Whole.annotated {S : Schema} (d : Dialect) (ns : List Node) (h : Whole S) : Whole (annotated d ns S) := by
  induction ns generalizing S with
  | nil => exact h
  | cons n ns ih => exact ih (h.mapOwn _)

/-- branches that are there get a null among them -/
theorem withNull_ok {ss : List Schema} (h : ∀ t ∈ ss, t.isAbsent = false) :
    ∃ ts, withNull ss = .ok ts ∧ ∀ t ∈ ts, t.isAbsent = false := by
  have hfind : ∃ found, hasNullBranch ss = .ok found := by
    induction ss with
    | nil => exact ⟨_, rfl⟩
    | cons s ss ih =>
      obtain rfl | ⟨b, rfl⟩ := Schema.eq_absent_or_ofBody s
      · exact absurd (h _ List.mem_cons_self) (by simp [Schema.isAbsent])
      · obtain ⟨found, hfound⟩ := ih fun t ht => h t (List.mem_cons_of_mem _ ht)
        have hcons : hasNullBranch (ofBody b :: ss) =
            if b.own.types = ["null"] && b.own.ref = "" then .ok true else hasNullBranch ss := rfl
        rw [hcons, hfound, ← apply_ite]
        exact ⟨_, rfl⟩
  obtain ⟨found, hfound⟩ := hfind
  refine ⟨if found then ss else ss ++ [nullBranch], by rw [withNull, hfound]; rfl, fun t ht => ?_⟩
  cases found with
  | true => exact h t ht
  | false =>
    rcases List.mem_append.1 ht with ht | ht
    · exact h t ht
    · rw [List.mem_singleton.1 ht]
      rfl

theorem plainNullable_concludes {S : Schema} (h : Whole S) : Concludes Whole (plainNullable S) := by
  have horNull := whole_orNull h
  obtain ⟨b, rfl, hb⟩ := id h
  have hsame (k : Keywords) : Whole (ofBody { b with own := k }) := ⟨{ b with own := k }, rfl, hb⟩
  unfold plainNullable
  dsimp only
  split
  · exact horNull
  · split
    · exact h
    · exact hsame _
    · exact hsame _
    · split
      · exact hsame _
      · rename_i ss _ hany
        change b.anyOf = some ss at hany
        obtain ⟨ts, hts, hpresent⟩ := @withNull_ok ss fun t ht => hb t (List.mem_append_left _ (by rw [hany]; exact ht))
        rw [hts]
        refine ⟨{ b with anyOf := some ts }, rfl, fun t ht => ?_⟩
        rcases List.mem_append.1 ht with ht | ht
        · exact hpresent t ht
        · exact hb t (List.mem_append_right _ ht)
      · rename_i ss _ _ hone
        change b.oneOf = some ss at hone
        obtain ⟨ts, hts, hpresent⟩ := @withNull_ok ss fun t ht => hb t (List.mem_append_right _ (by rw [hone]; exact ht))
        rw [hts]
        refine ⟨{ b with oneOf := some ts }, rfl, fun t ht => ?_⟩
        rcases List.mem_append.1 ht with ht | ht
        · exact hb t (List.mem_append_left _ ht)
        · exact hpresent t ht
      · exact horNull
      · exact h

/-! ## Renderings that do not break off -/

/-- what a rendering has to be for a wrapper around it: in the plain dialect null is added to it branch by branch -/
def Widenable (d : Dialect) (S : Schema) : Prop := d = .plain → Whole S

/-- what stands for the custom nodes of a graph is found, or its lack is a failure, and null can be added to it -/
def WholeCustom (g : Graph) (o : Options) : Prop :=
  ∀ id n, g.get? id = some n → n.kind = .custom → Concludes (Widenable o.dialect) (customSchema o.fetcher n)

/-- the registry still takes declarations -/
def Declares (s : State) : Prop := s.registry.names = none

theorem widened_concludes {d : Dialect} (ws : List Node) {S : Schema} (h : Widenable d S) :
    Concludes (Widenable d) (widened d ws S) := by
  unfold widened
  split
  · cases d with
    | openapi => exact fun hd => absurd hd (by simp)
    | plain => exact (plainNullable_concludes (h rfl)).imp fun T hT _ => hT
  · exact h

theorem lift_finishes {α : Type} {P : State → Prop} {Q : α → Prop} {o : Outcome α} (h : Concludes Q o) : Finishes P Q (lift o) :=
  fun _ hs => ⟨hs, h⟩

theorem fail_finishes {α : Type} {P : State → Prop} {Q : α → Prop} (f : Failure) : Finishes P Q (fail f : RenderM α) :=
  lift_finishes trivial

theorem declare_open {r : Registry} (hr : r.names = none) (g : Graph) (id : Nat) (file hint : String) (explicit : Bool) :
    ∃ r' changed, r.declare g id file hint explicit = .ok (r', changed) ∧ r'.names = none := by
  unfold Registry.declare
  rw [hr, if_neg (by simp)]
  split
  · split
    · exact ⟨_, _, rfl, hr⟩
    · exact ⟨_, _, rfl, hr⟩
  · exact ⟨_, _, rfl, hr⟩

theorem reserve_finishes (cx : Context) (t : Nat) : Finishes Declares (fun _ => True) (reserve cx t) := by
  intro s hs
  unfold reserve
  split
  · exact ⟨hs, trivial⟩
  · obtain ⟨r, changed, hr, hopen⟩ := declare_open hs cx.graph t cx.options.path "" false
    simp only [hr]
    exact ⟨hopen, trivial⟩

section Finishing

variable {Q : Schema → Prop}

theorem define_finishes (hQ : ∀ ref, Q (.reference ref)) {t : Nat} (h : Finishes Declares Q (descend t)) :
    Finishes Declares Q (define cx descend t) := by
  intro s hs
  obtain ⟨hu, hreserve⟩ := reserve_finishes cx t s hs
  rw [define_apply]
  rcases hr : reserve cx t s with ⟨e | _ | _, u⟩ <;> rw [hr] at hu hreserve
  · cases e with
    | failed f => exact ⟨hu, trivial⟩
    | aborted reason => exact hreserve.elim
  · exact ⟨hu, hQ _⟩
  · obtain ⟨hv, hbody⟩ := h u hu
    dsimp only
    rcases hd : descend t u with ⟨e | b, v⟩ <;> rw [hd] at hv hbody
    · cases e with
      | failed f => exact ⟨hv, trivial⟩
      | aborted reason => exact hbody.elim
    · exact ⟨hv, hQ _⟩

theorem renderAll_finishes (h : ∀ id, Finishes Declares Q (descend id)) (n : Node) (ids : List Nat) :
    Finishes Declares (fun ss => ∀ s ∈ ss, Q s) (renderAll cx descend n ids) := by
  induction ids with
  | nil => exact .pure (by simp)
  | cons c ids ih =>
    rw [renderAll]
    cases cx.graph.get? c with
    | none => exact fail_finishes _
    | some m =>
      refine (h c).bind fun s hs => ih.bind fun ss hss => .pure ?_
      simpa using ⟨hs, hss⟩

theorem renderFields_finishes (h : ∀ id, Finishes Declares Q (descend id)) (n : Node) (keys : List String) (ids : List Nat) :
    Finishes Declares (fun _ => True) (renderFields cx descend n keys ids) := by
  induction ids generalizing keys with
  | nil => cases keys <;> exact .pure trivial
  | cons c ids ih =>
    cases keys with
    | nil => exact fail_finishes _
    | cons key keys =>
      rw [renderFields]
      cases cx.graph.get? c with
      | none => exact fail_finishes _
      | some m => exact (h c).bind fun s _ => (ih keys).bind fun r _ => .pure trivial

theorem sole_concludes (g : Graph) (n : Node) : Concludes (fun _ => True) (g.sole n) := by
  unfold Graph.sole
  split
  · split <;> trivial
  · trivial

theorem renderSole_finishes (h : ∀ id, Finishes Declares Q (descend id)) (n : Node) :
    Finishes Declares Q (renderSole cx descend n) :=
  (lift_finishes (sole_concludes _ n)).bind fun m _ => h m.id

end Finishing

theorem discriminatorOf_concludes (cx : Context) (n : Node) (prop : String) (i : Nat) (mapping : Dict String)
    (vs : List (Nat × Schema)) : Concludes (fun _ => True) (discriminatorOf cx n prop i mapping vs) := by
  induction vs generalizing i mapping with
  | nil => trivial
  | cons v vs ih =>
    rw [discriminatorOf]
    split
    · trivial
    · exact ih _ _

/-- **One node** does not break off when what is below it does not. -/
theorem renderNode_finishes {n : Node} (hcustom : n.kind = .custom →
      Concludes (Widenable cx.options.dialect) (customSchema cx.options.fetcher n))
    (h : ∀ id, Finishes Declares (Widenable cx.options.dialect) (descend id)) :
    Finishes Declares (Widenable cx.options.dialect) (renderNode cx descend n) := by
  have hflat {b : Body} (hany : b.anyOf = none) (hone : b.oneOf = none) : Widenable cx.options.dialect (ofBody b) :=
    fun _ => ⟨b, rfl, by simp [hany, hone]⟩
  have hkeywords (k : Keywords) : Widenable cx.options.dialect (.ofKeywords k) := fun _ => whole_ofKeywords k
  unfold renderNode
  cases hk : n.kind <;> simp only
  case object => exact (renderFields_finishes h n _ _).bind fun r _ => .pure (hflat rfl rfl)
  case array => exact (renderSole_finishes h n).bind fun s _ => .pure (hflat rfl rfl)
  case record => exact (renderSole_finishes h n).bind fun s _ => .pure (hflat rfl rfl)
  case intersection => exact (renderAll_finishes h n _).bind fun ss _ => .pure (hflat rfl rfl)
  case tuple =>
    have htuple (k : Nat) (ss : List Schema) (rest : Option Schema) :
        Widenable cx.options.dialect (tupleSchema cx.options.dialect k ss rest) := by
      unfold tupleSchema
      dsimp only
      split <;> exact hflat rfl rfl
    refine (renderAll_finishes h n _).bind fun ss _ => ?_
    split
    · split
      · exact fail_finishes _
      · exact .pure (htuple _ _ _)
    · exact .pure (htuple _ _ _)
  case union =>
    refine (renderAll_finishes h n _).bind fun ss hss => ?_
    split
    · refine .pure fun hd => ⟨_, rfl, fun t ht => ?_⟩
      exact (hss t (by simpa using ht) hd).present
    · have hflag : Finishes Declares (fun _ => True)
          (fun s => (.ok (), { s with discriminator := true }) : RenderM Unit) := fun s hs => ⟨hs, trivial⟩
      refine hflag.bind fun _ _ => (lift_finishes (discriminatorOf_concludes cx n _ _ _ _)).bind fun disc _ => ?_
      refine .pure fun hd => ⟨_, rfl, fun t ht => ?_⟩
      exact (hss t (by simpa using ht) hd).present
  case ref =>
    refine (lift_finishes (sole_concludes _ n)).bind fun m _ => ?_
    split
    · exact .pure (hkeywords _)
    · exact define_finishes (fun _ => hkeywords _) (h m.id)
  case validator => exact renderSole_finishes h n
  case custom => exact lift_finishes (hcustom hk)
  case null =>
    refine .pure ?_
    split <;> exact hkeywords _
  case enum =>
    refine lift_finishes ?_
    unfold enumSchema
    simp only
    split
    · trivial
    · split <;> exact hkeywords _
  case const =>
    refine .pure ?_
    unfold constSchema
    split
    · exact hkeywords _
    · split <;> exact hkeywords _
  all_goals first | exact .pure (hkeywords _) | exact fail_finishes _

/-- **Rendering does not break off** before its bound, when the renderer in the place of the bound does not. -/
theorem renderUpTo_finishes (hg : cx.graph.Numbered) (hcustom : WholeCustom cx.graph cx.options) {out : Descend}
    (hout : ∀ id, Finishes Declares (Widenable cx.options.dialect) (out id)) (depth : Nat) (id : Nat) :
    Finishes Declares (Widenable cx.options.dialect) (renderUpTo cx out depth id) := by
  induction depth generalizing id with
  | zero => exact hout id
  | succ depth ih =>
    rw [renderUpTo]
    unfold renderWith
    rcases hchain : cx.graph.localChain id with ⟨wrappers, _ | last⟩
    · exact fail_finishes _
    · have hlast := localChainFrom_mem hg hchain
      have hbelow : Finishes Declares (Widenable cx.options.dialect) (renderBelow cx (renderUpTo cx out depth) last) := by
        intro s hs
        unfold renderBelow
        split
        · exact define_finishes (fun _ _ => whole_ofKeywords _) (ih last.id) { s with hoist := none } hs
        · exact renderNode_finishes (hcustom last.id last hlast) ih s hs
      refine hbelow.bind fun S hS => (lift_finishes (widened_concludes wrappers hS)).bind fun T hT => .pure fun hd => ?_
      exact (hT hd).annotated _ _

/-- **Rendering ends.** In a graph in which every circle passes through a reference, for every root: whatever is rendered in the
place of the bound on nesting, and wherever beyond the bound of the model, the run is the same, so it does not come
there; the walks on the way do not meet their bounds either. In the state where the run ends, failed or not, every
target has taken one place and been rendered once at most. There is a document or a failure, when the registry still takes
declarations and what stands for custom nodes is whole. -/
theorem ofNode_ends (hg : g.Numbered) (hcut : CutByReferences g) (root : Nat) (r : Registry) (o : Options) :
    ∃ res s, ofNode g root r o = (res.map (assemble o s), s.registry) ∧
      (∀ out depth, maxDepth g ≤ depth →
        renderUpTo (contextOf g root o) out depth root { registry := r, hoist := hoistOf g root } = (res, s)) ∧
      s.order.Nodup ∧ (s.bodies.map (·.1)).Nodup ∧ s.bodies.map (·.1) ⊆ s.order ∧ WalksEnd g ∧
      (r.names = none → WholeCustom g o → (∃ S, res = .ok S) ∨ ∃ f, res = failWith f) := by
  obtain ⟨s₀, hs₀⟩ : ∃ s₀ : State, s₀ = { registry := r, hoist := hoistOf g root } := ⟨_, rfl⟩
  have hstart : Taken g 0 [] s₀ := by
    subst hs₀
    exact ⟨List.nodup_nil, by simp, Nat.zero_le _, by simp⟩
  have hsame (out : Descend) :=
    @renderUpTo_same (contextOf g root o) 0 [] hg hcut out (fun _ => lift abort) g.size (maxDepth g) (Nat.zero_add _)
      (by change _ ≤ (g.size + 1) * (g.size + 1) + 1; rw [Nat.succ_mul]; exact Nat.le_succ _) root s₀ hstart
  rcases hrun : render (contextOf g root o) (maxDepth g) root s₀ with ⟨res, s⟩
  have hend : Taken g 0 [] s := by
    have := (hsame fun _ => lift abort).2
    rwa [← render_eq, hrun] at this
  have hbodies : (s.bodies.map (·.1)).Subperm s.order := by simpa using hend.bodies
  have hall : s.bodies.map (·.1) ⊆ s.order := hbodies.subset
  obtain ⟨bodies, hperm, hsub⟩ := hbodies
  refine ⟨res, s, ?_, fun out depth hdepth => ?_, hend.nodup, ?_, hall, walksEnd hg hcut, fun hopen hcustom => ?_⟩
  · rw [ofNode_eq, ← hs₀, hrun]
  · obtain ⟨more, rfl⟩ := Nat.exists_eq_add_of_le hdepth
    rw [renderUpTo_add, ← hs₀, (hsame _).1, ← render_eq, hrun]
  · exact hperm.nodup_iff.1 (hend.nodup.sublist hsub)
  · -- the bound is not met, so anything that does not break off may stand there
    have hfinish := (@renderUpTo_finishes (contextOf g root o) hg hcustom (fun _ => pure .empty)
      (fun _ => .pure fun _ => whole_ofKeywords _) (maxDepth g) root s₀ (by rw [hs₀]; exact hopen)).2
    rw [(hsame _).1, ← render_eq, hrun] at hfinish
    match res, hfinish with
    | .ok S, _ => exact .inl ⟨S, rfl⟩
    | .error (.failed f), _ => exact .inr ⟨f, rfl⟩

/-- a nullable tree with a label of an own kind, a list of subtrees, and a reference to the reference back to it -/
def treeGraph : Graph :=
  { nodes := #[
      { id := 1, kind := .nullable, children := [2] },
      { id := 2, kind := .object, options := .object { keys := ["label", "below", "first"] }, children := [3, 4, 6] },
      { id := 3, kind := .custom, options := .custom { fragment := some [("anyOf", .array [.object []])] } },
      { id := 4, kind := .array, children := [5] },
      { id := 5, kind := .ref, children := [1] },
      { id := 6, kind := .ref, children := [5] }] }

/-- is there a schema with all its branches? -/
def isWhole : Outcome Schema → Bool
  | .ok S => !S.isAbsent && (S.body.anyOf.getD [] ++ S.body.oneOf.getD []).all fun t => !t.isAbsent
  | .error _ => false

theorem concludes_of_isWhole {d : Dialect} {o : Outcome Schema} (h : isWhole o = true) : Concludes (Widenable d) o := by
  cases o with
  | error e => cases h
  | ok S =>
    obtain rfl | ⟨b, rfl⟩ := Schema.eq_absent_or_ofBody S
    · cases h
    · have hall : ((b.anyOf.getD [] ++ b.oneOf.getD []).all fun t => !t.isAbsent) = true := h
      refine fun _ => ⟨b, rfl, fun t ht => ?_⟩
      simpa only [Bool.not_eq_true'] using List.all_eq_true.1 hall t ht

theorem ofNode_ends_tree : treeGraph.Numbered ∧ CutByReferences treeGraph ∧ WholeCustom treeGraph {} ∧
    ∃ S s, ofNode treeGraph 1 { target := target } {} = (.ok (assemble {} s S), s.registry) ∧ s.order.Nodup ∧
      ∀ out depth, maxDepth treeGraph ≤ depth →
        renderUpTo (contextOf treeGraph 1 {}) out depth 1 { registry := { target := target }, hoist := hoistOf treeGraph 1 } =
          (.ok S, s) := by
  have hnum : treeGraph.Numbered := (Graph.numbered_iff _).2 (by decide)
  have hdown : ∀ a ∈ List.range' 1 6, ∀ n ∈ treeGraph.get? a, n.kind ≠ .ref → ∀ c ∈ n.children, 6 - c < 6 - a := by decide
  have hcut : CutByReferences treeGraph := by
    apply cutByReferences_of_rank (6 - ·)
    rintro a c ⟨n, hn, hk, hc⟩
    exact hdown a (Graph.get?_bounds hn) n hn hk c hc
  have hcustom : WholeCustom treeGraph {} := fun id n hn hk => concludes_of_isWhole
    (Graph.forall_nodes (P := fun n => n.kind = .custom → isWhole (customSchema none n) = true) (by decide +kernel) hn hk)
  have hdoc : (ofNode treeGraph 1 { target := target } {}).1.toOption.isSome = true := by decide +kernel
  obtain ⟨res, s, hrun, hsame, hnodup, -, -, -, hresult⟩ := ofNode_ends hnum hcut 1 { target := target } {}
  obtain ⟨S, rfl⟩ | ⟨f, rfl⟩ := hresult rfl hcustom
  · exact ⟨hnum, hcut, hcustom, S, s, hrun, hnodup, hsame⟩
  · rw [hrun] at hdoc
    cases hdoc

/-- does an operation break off? -/
def breaksOff {α : Type} : Outcome α → Bool
  | .error (.aborted _) => true
  | _ => false

theorem breaksOff_iff {α : Type} {o : Outcome α} : breaksOff o = true ↔ ∃ reason, o = .error (.aborted reason) := by
  rcases o with (f | reason) | a <;> simp [breaksOff]

/-- a choice that also accepts null, and whose only branch is missing -/
def gapGraph : Graph :=
  { nodes := #[
      { id := 1, kind := .custom, options := .custom { fragment := some [("anyOf", .array [.null])] }, loaded := true },
      { id := 2, kind := .nullable, children := [1], loaded := true }] }

/-- **A rendering that breaks off**: null is looked for among branches one of which is missing. -/
theorem ofNode_breaks_off : gapGraph.Numbered ∧ CutByReferences gapGraph ∧ gapGraph.isLoaded 2 = true ∧
    ∃ reason, (ofNode gapGraph 2 { target := target } {}).1 = .error (.aborted reason) := by
  have hnum : gapGraph.Numbered := (Graph.numbered_iff _).2 (by decide)
  have hdown : ∀ a ∈ List.range' 1 2, ∀ n ∈ gapGraph.get? a, n.kind ≠ .ref → ∀ c ∈ n.children, c < a := by decide
  have hcut : CutByReferences gapGraph := by
    apply cutByReferences_of_rank id
    rintro a c ⟨n, hn, hk, hc⟩
    exact hdown a (Graph.get?_bounds hn) n hn hk c hc
  exact ⟨hnum, hcut, by decide, breaksOff_iff.1 (by decide +kernel)⟩

end Schemata.Document
