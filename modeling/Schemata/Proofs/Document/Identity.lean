import Mathlib.Data.List.TakeWhile
import Mathlib.Tactic
import Schemata.Proofs.Document.Roots
import Schemata.Proofs.Graph.Trails

/-!
The nodes that a document is.

The path from a root passes optional, nullable and validator nodes. Down to the first nullable node, its nodes are the
document itself; below one, the end of the path becomes a definition if a reference that the root reaches leads to it.
`rootIdentity_trail` says both in one equation about the trail from the root, and `isReferenced_iff` what the walk over the
graph finds.
-/

namespace Schemata.Document

open Schemata.Graph (Trail isLocal localChain_iff)

variable {g : Graph}

/-! ## Nodes that a root reaches -/

/-- an edge of the graph to a node that there is -/
def Edge (g : Graph) (a c : Nat) : Prop := ∃ n, g.get? a = some n ∧ c ∈ n.children ∧ (g.get? c).isSome = true

/-- the walk over the graph: the nodes that it has seen are different, and their children seen or waiting -/
structure Walk (g : Graph) (seen stack : List Nat) : Prop where
  nodup : seen.Nodup
  valid : ∀ i ∈ seen ++ stack, (g.get? i).isSome = true
  edges : ∀ a ∈ seen, ∀ c, Edge g a c → c ∈ seen ++ stack

def below (g : Graph) (id : Nat) : List Nat := (((g.get? id).map Node.children).getD []).filter fun c => (g.get? c).isSome

theorem mem_below {a c : Nat} : c ∈ below g a ↔ Edge g a c := by
  unfold below Edge
  cases g.get? a with
  | none => simp
  | some n => simp

/-- one step of the walk: what was seen is dropped from the stack, and the first node that was not is seen now -/
theorem Walk.step {seen stack rest : List Nat} {id : Nat} (h : Walk g seen stack)
    (hstack : stack.dropWhile seen.contains = id :: rest) :
    Walk g (id :: seen) (below g id ++ rest) ∧ seen ++ stack ⊆ (id :: seen) ++ (below g id ++ rest) := by
  have hnew : id ∉ seen := by
    have := List.head?_dropWhile_not seen.contains stack
    simpa [hstack] using this
  have hsub : seen ++ stack ⊆ id :: seen ++ (below g id ++ rest) := by
    intro i hi
    rcases List.mem_append.1 hi with hi | hi
    · simp [hi]
    · rw [← List.takeWhile_append_dropWhile (p := seen.contains) (l := stack), hstack] at hi
      rcases List.mem_append.1 hi with hi | hi
      · have : i ∈ seen := by simpa using List.mem_takeWhile_imp hi
        simp [this]
      · rcases List.mem_cons.1 hi with rfl | hi <;> simp_all
  have hrest : ∀ i ∈ id :: rest, (g.get? i).isSome = true := by
    intro i hi
    refine h.valid i (List.mem_append_right _ ?_)
    rw [← hstack] at hi
    exact (List.dropWhile_suffix _).subset hi
  refine ⟨⟨List.nodup_cons.2 ⟨hnew, h.nodup⟩, ?_, ?_⟩, hsub⟩
  · intro i hi
    simp only [List.mem_append, List.mem_cons] at hi
    rcases hi with (rfl | hi) | hi | hi
    · exact hrest i (by simp)
    · exact h.valid i (by simp [hi])
    · exact (mem_below.1 hi).choose_spec.2.2
    · exact hrest i (by simp [hi])
  · rintro a (_ | ⟨_, ha⟩) c hc
    · simp [mem_below.2 hc]
    · exact hsub (h.edges a ha c hc)

/-- while the walk goes on, it has seen fewer nodes than there are -/
theorem Walk.length_lt {seen stack rest : List Nat} {id : Nat} (h : Walk g seen stack)
    (hstack : stack.dropWhile seen.contains = id :: rest) : seen.length < g.size := by
  obtain ⟨hnext, -⟩ := h.step hstack
  exact Graph.length_le_size hnext.nodup fun i hi => hnext.valid i (List.mem_append_left _ hi)

theorem reach_step {steps : Nat} {seen stack rest : List Nat} {id : Nat}
    (hstack : stack.dropWhile seen.contains = id :: rest) :
    reach g (steps + 1) seen stack = reach g steps (id :: seen) (below g id ++ rest) := by
  conv_lhs => unfold reach
  rw [hstack]
  rfl

theorem reach_done {steps : Nat} {seen stack : List Nat} (hstack : stack.dropWhile seen.contains = []) :
    reach g steps seen stack = seen := by
  unfold reach
  rw [hstack]

/-- a list holds what was seen and what waits, and the children of its nodes -/
structure Saturated (g : Graph) (seen stack found : List Nat) : Prop where
  all : seen ++ stack ⊆ found
  closed : ∀ a ∈ found, ∀ c, Edge g a c → c ∈ found

theorem Walk.saturated {seen stack : List Nat} (h : Walk g seen stack) (hstack : stack.dropWhile seen.contains = []) :
    Saturated g seen stack seen := by
  have hsub : seen ++ stack ⊆ seen := by
    intro i hi
    rcases List.mem_append.1 hi with hi | hi
    · exact hi
    · simpa using List.dropWhile_eq_nil_iff.1 hstack i hi
  exact ⟨hsub, fun a ha c hc => hsub (h.edges a ha c hc)⟩

/-- the walk ends when everything that it reaches is seen, and its bound is not met before -/
theorem reach_saturated {steps : Nat} {seen stack : List Nat} (h : Walk g seen stack) (hsteps : g.size ≤ seen.length + steps) :
    Saturated g seen stack (reach g steps seen stack) ∧
      ∀ more, steps ≤ more → reach g more seen stack = reach g steps seen stack := by
  induction steps generalizing seen stack with
  | zero =>
    cases hstack : stack.dropWhile seen.contains with
    | nil =>
      simp only [reach_done hstack]
      exact ⟨h.saturated hstack, fun _ _ => trivial⟩
    | cons id rest =>
      have := h.length_lt hstack
      omega
  | succ steps ih =>
    cases hstack : stack.dropWhile seen.contains with
    | nil =>
      simp only [reach_done hstack]
      exact ⟨h.saturated hstack, fun _ _ => trivial⟩
    | cons id rest =>
      obtain ⟨hnext, hsub⟩ := h.step hstack
      obtain ⟨hall, hmore⟩ := ih hnext (by rw [List.length_cons]; omega)
      rw [reach_step hstack]
      refine ⟨⟨List.Subset.trans hsub hall.all, hall.closed⟩, fun more hle => ?_⟩
      obtain ⟨more, rfl⟩ : ∃ k, more = k + 1 := ⟨more - 1, by omega⟩
      rw [reach_step hstack]
      exact hmore more (by omega)

/-- what is found was waiting, or is reached from there -/
theorem reach_sound {steps : Nat} {seen stack : List Nat} {i : Nat} (h : i ∈ reach g steps seen stack) :
    i ∈ seen ∨ ∃ b ∈ stack, Relation.ReflTransGen (Edge g) b i := by
  induction steps generalizing seen stack with
  | zero =>
    unfold reach at h
    cases hstack : stack.dropWhile seen.contains <;> rw [hstack] at h <;> exact .inl h
  | succ steps ih =>
    cases hstack : stack.dropWhile seen.contains with
    | nil =>
      rw [reach_done hstack] at h
      exact .inl h
    | cons id rest =>
      rw [reach_step hstack] at h
      have hsub : ∀ b ∈ id :: rest, b ∈ stack := by
        intro b hb
        rw [← hstack] at hb
        exact (List.dropWhile_suffix _).subset hb
      rcases ih h with hi | ⟨b, hb, hpath⟩
      · rcases List.mem_cons.1 hi with rfl | hi
        · exact .inr ⟨i, hsub i (by simp), .refl⟩
        · exact .inl hi
      · rcases List.mem_append.1 hb with hb | hb
        · exact .inr ⟨id, hsub id (by simp), .head (mem_below.1 hb) hpath⟩
        · exact .inr ⟨b, hsub b (by simp [hb]), hpath⟩

variable {root : Nat}

theorem walk_root (hroot : (g.get? root).isSome = true) : Walk g [] [root] :=
  ⟨List.nodup_nil, by simpa using hroot, by simp⟩

/-- **What a root reaches.** -/
theorem mem_reach (hroot : (g.get? root).isSome = true) {i : Nat} :
    i ∈ reach g g.size [] [root] ↔ Relation.ReflTransGen (Edge g) root i := by
  obtain ⟨hall, -⟩ := reach_saturated (walk_root hroot) (by simp : g.size ≤ ([] : List Nat).length + g.size)
  constructor
  · intro h
    simpa using reach_sound h
  · intro h
    induction h with
    | refl => exact hall.all (by simp)
    | tail _ hstep ih => exact hall.closed _ ih _ hstep

theorem isReferenced_iff (hroot : (g.get? root).isSome = true) {t : Nat} :
    isReferenced g root t = true ↔ ∃ r, Relation.ReflTransGen (Edge g) root r ∧ RefersTo g r t := by
  rw [isReferenced, List.any_eq_true]
  refine exists_congr fun i => and_congr (mem_reach hroot) ?_
  simp only [Option.any_eq_true, RefersTo, Bool.and_eq_true, decide_eq_true_eq, beq_iff_eq]

/-! ## The path from the root -/

theorem passes_eq (k : Kind) : (decide (k = .optional) || decide (k = .validator) || decide (k = .nullable)) = passes k := by
  cases k <;> rfl

/-- the children of the nodes above the first nullable one -/
def upToNull (ns : List Node) : List Nat := (ns.takeWhile fun n => n.kind != .nullable).flatMap Node.children

/-- the end of a path becomes a definition when there is a nullable node above it and a reference leads to it -/
def hoisted (g : Graph) (root : Nat) (wide : Bool) (last : Node) : Option Nat :=
  if wide && last.kind != .ref && isReferenced g root last.id then some last.id else none

variable {id : Nat} {ns : List Node} {last : Node}

/-- **The path from the root.** Its nodes down to the first nullable one are the document, and the end of it waits to be
hoisted below one. -/
theorem rootIdentity_trail (h : Trail g passes id ns last) {fuel : Nat} (hfuel : ns.length < fuel) (wide : Bool)
    (self : List Nat) :
    rootIdentity g root fuel wide self id =
      (self ++ (if wide then [] else upToNull ns), hoisted g root (wide || ns.any (·.kind = .nullable)) last) := by
  induction h generalizing fuel wide self with
  | here hn hk =>
    obtain ⟨fuel, rfl⟩ : ∃ k, fuel = k + 1 := ⟨fuel - 1, by omega⟩
    rw [rootIdentity, hn]
    simp only [passes_eq, hk, Bool.false_eq_true, if_false, upToNull, List.takeWhile_nil, List.flatMap_nil, ite_self,
      List.append_nil, List.any_nil, Bool.or_false, hoisted]
    simp only [Bool.and_eq_true, decide_eq_true_eq, bne_iff_ne]
    split <;> simp_all
  | @step a c n last ns hn hk hc h ih =>
    obtain ⟨fuel, rfl⟩ : ∃ k, fuel = k + 1 := ⟨fuel - 1, by omega⟩
    rw [rootIdentity, hn]
    simp only [passes_eq, hk, hc, if_true]
    obtain ⟨m, hm⟩ := Option.isSome_iff_exists.1 h.isSome
    rw [hm, if_neg (by simp), ih (by simpa using hfuel), List.any_cons, Bool.or_assoc]
    by_cases hnull : n.kind = .nullable
    · simp [hnull, upToNull]
    · cases wide <;> simp [hnull, upToNull, hc]

theorem ofNode_eq (g : Graph) (root : Nat) (r : Registry) (o : Options) :
    ofNode g root r o =
      ((render (contextOf g root o) (maxDepth g) root { registry := r, hoist := hoistOf g root }).1.map
        (assemble o (render (contextOf g root o) (maxDepth g) root { registry := r, hoist := hoistOf g root }).2),
        (render (contextOf g root o) (maxDepth g) root { registry := r, hoist := hoistOf g root }).2.registry) := rfl

theorem contextOf_trail (hg : g.Numbered) (h : Trail g passes root ns last) (o : Options) :
    (contextOf g root o).self = root :: upToNull ns := by
  have hlength := h.length_lt hg
  rw [contextOf, rootIdentity_trail h (by omega)]
  simp

theorem hoistOf_trail (hg : g.Numbered) (h : Trail g passes root ns last) :
    hoistOf g root = hoisted g root (ns.any (·.kind = .nullable)) last := by
  have hlength := h.length_lt hg
  rw [hoistOf, rootIdentity_trail h (by omega)]
  simp

/-! ## Where the path ends -/

theorem passes_of_local (k : Kind) (h : isLocal k = true) : passes k = true := by
  cases k <;> simp_all [isLocal, Kind.isWrapper, passes]

/-- what has a rendering has a path that ends, through local chains and validator nodes -/
theorem trail_of_render {cx : Context} (hg : cx.graph.Numbered) {depth : Nat} {s s' : State} {S : Schema}
    (hs : s.hoist = none) (h : render cx depth id s = (.ok S, s')) : ∃ ns last, Trail cx.graph passes id ns last := by
  induction depth generalizing id S with
  | zero => cases h
  | succ depth ih =>
    obtain ⟨ws, last, T, W, hchain, hT, -, -⟩ := render_ok h
    have hlocal := (localChain_iff hg).1 hchain
    have hlast := localChainFrom_mem hg hchain
    cases hpass : passes last.kind with
    | false => exact ⟨_, _, hlocal.trans hg passes_of_local (.here hlast hpass)⟩
    | true =>
      have hstops := hlocal.stops
      have hval : last.kind = .validator := by
        cases hk : last.kind <;> simp_all [isLocal, Kind.isWrapper, passes]
      rw [renderBelow, hs, if_neg (by simp), renderNode, hval] at hT
      obtain ⟨m, u, hm, hT⟩ := Steps.bind_ok hT
      obtain ⟨hsole, rfl⟩ := lift_ok hm
      obtain ⟨ns, last', htrail⟩ := ih hT
      exact ⟨_, _, hlocal.trans hg passes_of_local (.step hlast hpass (sole_eq hg hsole) htrail)⟩

theorem Leads.trail {b : Nat} (h : Leads g b id) : ∃ ns last, Trail g passes id ns last := by
  induction h with
  | here hn hk => exact ⟨[], _, .here hn hk⟩
  | step hstep _ ih =>
    obtain ⟨n, hn, hk, hc⟩ := hstep
    obtain ⟨ns, last, h⟩ := ih
    exact ⟨n :: ns, last, .step hn hk hc h⟩

/-- the path from the root of a rendered document ends -/
theorem trail_of_ofNode (hg : g.Numbered) {r r' : Registry} {o : Options} {doc : Document}
    (h : ofNode g root r o = (.ok doc, r')) : ∃ ns last, Trail g passes root ns last := by
  obtain ⟨head, s, hrun, -, -⟩ := ofNode_ok h
  cases hhoist : hoistOf g root with
  | none => exact trail_of_render (show (contextOf g root o).graph.Numbered from hg) hhoist hrun
  | some b => exact (hoistOf_some hg hhoist).1.trail

end Schemata.Document
