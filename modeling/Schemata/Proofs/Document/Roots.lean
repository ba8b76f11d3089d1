import Mathlib.Tactic
import Schemata.Proofs.Document.Rendering

/-!
Whole documents: the rendering of a root and of its definitions.

Most roots are rendered as every node is. A root that accepts null around a body which is referenced from inside has
that body hoisted: the document is a reference to it under the wrappers of the root (`Heads`). `Outline` says what a
document consists of, `ofNode_outline` that every rendered document has one, and `Outline.mem_definitions` which nodes
have definitions: those that a reference on the way leads to, and no others.
-/

namespace Schemata.Document

open Schema (Body ofBody)

/-! ## The path from the root -/

/-- kinds that the path from a root passes through -/
def passes : Kind → Bool
  | .optional | .nullable | .validator => true
  | _ => false

theorem passes_of_wrapper {k : Kind} (hk : k.isWrapper = true) (href : k ≠ .ref) : passes k = true := by
  cases k <;> simp_all [Kind.isWrapper, passes]

/-- a node has a single child and is one of the kinds that a path passes through -/
def Passes (g : Graph) (a c : Nat) : Prop := ∃ n, g.get? a = some n ∧ passes n.kind = true ∧ n.children = [c]

/-- the path from a node ends at another, which it does not pass through -/
inductive Leads (g : Graph) (b : Nat) : Nat → Prop
  | here {n : Node} (hn : g.get? b = some n) (hk : passes n.kind = false) : Leads g b b
  | step {a c : Nat} (h : Passes g a c) (hc : Leads g b c) : Leads g b a

theorem Passes.descends {g : Graph} {a c : Nat} (h : Passes g a c) : Descends g a c := by
  obtain ⟨n, hn, hk, hc⟩ := h
  refine ⟨n, hn, ?_, by simp [hc]⟩
  cases hkind : n.kind <;> simp_all [passes, composite]

theorem Leads.reaches {g : Graph} {a b : Nat} (h : Leads g b a) : Reaches g a b := by
  induction h with
  | here => exact .refl
  | step h _ ih => exact .head h.descends ih

theorem Leads.last {g : Graph} {a b : Nat} (h : Leads g b a) : ∃ n, g.get? b = some n ∧ passes n.kind = false := by
  induction h with
  | here hn hk => exact ⟨_, hn, hk⟩
  | step _ _ ih => exact ih

/-- a body that waits to be hoisted ends the path from the root, and a reference leads to it -/
theorem rootIdentity_hoist {g : Graph} (hg : g.Numbered) {root b fuel id : Nat} {wide : Bool} {self self' : List Nat}
    (h : rootIdentity g root fuel wide self id = (self', some b)) :
    Leads g b id ∧ (∃ n, g.get? b = some n ∧ n.kind ≠ .ref) ∧ isReferenced g root b = true := by
  induction fuel generalizing wide self id with
  | zero => cases h
  | succ fuel ih =>
    rw [rootIdentity] at h
    cases hn : g.get? id with
    | none => rw [hn] at h; cases h
    | some n =>
      rw [hn] at h
      simp only at h
      have hpass : (decide (n.kind = .optional) || decide (n.kind = .validator) || decide (n.kind = .nullable)) =
          passes n.kind := by
        cases n.kind <;> rfl
      rw [hpass] at h
      split at h
      · rename_i hk
        cases hc : n.children with
        | nil => rw [hc] at h; cases h
        | cons c cs =>
          cases cs with
          | cons c' cs => rw [hc] at h; cases h
          | nil =>
            rw [hc] at h
            simp only at h
            split at h
            · cases h
            · obtain ⟨hl, hb⟩ := ih h
              exact ⟨.step ⟨n, hn, hk, hc⟩ hl, hb⟩
      · rename_i hk
        split at h
        · rename_i href
          simp only [Bool.and_eq_true, decide_eq_true_eq] at href
          obtain rfl : n.id = b := Option.some.inj (Prod.mk.inj h).2
          have hid := hg id n hn
          rw [hid] at href ⊢
          exact ⟨.here hn (by simpa using hk), ⟨n, hn, href.1.2⟩, href.2⟩
        · cases h

/-- the nodes that are the document itself lie on the path from the root -/
theorem mem_rootIdentity {g : Graph} {root fuel id : Nat} {wide : Bool} {self : List Nat} {t : Nat}
    (h : t ∈ (rootIdentity g root fuel wide self id).1) : t ∈ self ∨ Relation.ReflTransGen (Passes g) id t := by
  induction fuel generalizing wide self id with
  | zero => exact .inl h
  | succ fuel ih =>
    rw [rootIdentity] at h
    cases hn : g.get? id with
    | none => rw [hn] at h; exact .inl h
    | some n =>
      rw [hn] at h
      simp only at h
      have hpass : (decide (n.kind = .optional) || decide (n.kind = .validator) || decide (n.kind = .nullable)) =
          passes n.kind := by
        cases n.kind <;> rfl
      rw [hpass] at h
      split at h
      · rename_i hk
        cases hc : n.children with
        | nil => rw [hc] at h; exact .inl h
        | cons c cs =>
          cases cs with
          | cons c' cs => rw [hc] at h; exact .inl h
          | nil =>
            rw [hc] at h
            simp only at h
            have hstep : Passes g id c := ⟨n, hn, hk, hc⟩
            split at h
            · exact .inl h
            · rcases ih h with h | h
              · split at h
                · exact .inl h
                · rcases List.mem_append.1 h with h | h
                  · exact .inl h
                  · obtain rfl := List.mem_singleton.1 h
                    exact .inr (.single hstep)
              · exact .inr (.head hstep h)
      · split at h <;> exact .inl h

/-! ## Local chains -/

theorem localChainFrom_acc {g : Graph} {acc : List Node} {fuel id : Nat} :
    g.localChainFrom acc fuel id = (acc.reverse ++ (g.localChainFrom [] fuel id).1, (g.localChainFrom [] fuel id).2) := by
  induction fuel generalizing acc id with
  | zero => simp [Graph.localChainFrom]
  | succ fuel ih =>
    rw [Graph.localChainFrom, Graph.localChainFrom]
    cases g.get? id with
    | none => simp
    | some n =>
      simp only
      split
      · simp
      · split
        · rename_i c hc
          rw [@ih (n :: acc) c, @ih [n] c]
          simp
        · simp

theorem localChainFrom_more {g : Graph} {fuel id : Nat} {ws : List Node} {last : Node}
    (h : g.localChainFrom [] fuel id = (ws, some last)) : g.localChainFrom [] (fuel + 1) id = (ws, some last) := by
  induction fuel generalizing id ws with
  | zero => cases h
  | succ fuel ih =>
    rw [Graph.localChainFrom] at h ⊢
    cases hn : g.get? id with
    | none => rw [hn] at h; cases h
    | some n =>
      rw [hn] at h
      simp only at h ⊢
      split at h
      · rename_i hk
        rw [if_pos hk, h]
      · rename_i hk
        rw [if_neg hk]
        split at h
        · rename_i c hc
          rw [localChainFrom_acc] at h ⊢
          obtain ⟨hws, hlast⟩ := Prod.mk.inj h
          have := @ih c (g.localChainFrom [] fuel c).1 (by rw [← hlast])
          rw [this, hws]
        · cases h

/-- a local chain ends at its first node, or goes on from the child of a local wrapper -/
theorem localChain_cases {g : Graph} {id : Nat} {ws : List Node} {last : Node} (h : g.localChain id = (ws, some last)) :
    ∃ n, g.get? id = some n ∧
      (((n.kind.isWrapper = false ∨ n.kind = .ref) ∧ ws = [] ∧ last = n) ∨
        ∃ c ws', n.kind.isWrapper = true ∧ n.kind ≠ .ref ∧ n.children = [c] ∧ ws = n :: ws' ∧
          g.localChain c = (ws', some last)) := by
  rw [Graph.localChain, Graph.localChainFrom] at h
  cases hn : g.get? id with
  | none => rw [hn] at h; cases h
  | some n =>
    rw [hn] at h
    simp only at h
    refine ⟨n, rfl, ?_⟩
    split at h
    · rename_i hk
      cases h
      exact .inl ⟨by simpa using hk, rfl, rfl⟩
    · rename_i hk
      simp only [Bool.not_eq_true, Bool.or_eq_false_iff, Bool.not_eq_false', decide_eq_false_iff_not] at hk
      split at h
      · rename_i c hc
        rw [localChainFrom_acc] at h
        obtain ⟨rfl, hlast⟩ := Prod.mk.inj h
        have hchain : g.localChainFrom [] g.size c = ((g.localChainFrom [] g.size c).1, some last) := by rw [← hlast]
        exact .inr ⟨c, _, hk.1, hk.2, hc, rfl, localChainFrom_more hchain⟩
      · cases h

/-- on the path from the root, a local chain ends at its end or at a validator node above it -/
theorem leads_chain {g : Graph} {b id : Nat} {last : Node} {ws : List Node} (hb : Leads g b id)
    (h : g.localChain id = (ws, some last)) (hg : g.Numbered) :
    (last.id = b ∧ passes last.kind = false) ∨ (last.kind = .validator ∧ ∃ c, last.children = [c] ∧ Leads g b c) := by
  induction hb generalizing ws with
  | here hn hk =>
    obtain ⟨m, hm, ⟨-, -, rfl⟩ | ⟨c, ws', hwrap, href, -⟩⟩ := localChain_cases h <;> rw [hn] at hm <;> cases hm
    · exact .inl ⟨hg b _ hn, hk⟩
    · rw [passes_of_wrapper hwrap href] at hk
      cases hk
  | @step a c hstep hc ih =>
    obtain ⟨n, hn, hk, hchildren⟩ := hstep
    obtain ⟨m, hm, ⟨hend, -, rfl⟩ | ⟨d, ws', -, -, hd, -, hchain⟩⟩ := localChain_cases h <;> rw [hn] at hm <;> cases hm
    · have hval : last.kind = .validator := by
        cases hkind : last.kind <;> simp_all [passes, Kind.isWrapper]
      exact .inr ⟨hval, c, hchildren, hc⟩
    · obtain rfl : d = c := by simpa [hchildren] using hd.symm
      exact ih hchain

/-! ## Heads -/

/-- what the root of a document is rendered as; with a hoisted body, a reference to it under the wrappers of the root -/
inductive Heads (cx : Context) (O : List Nat) : Option Nat → Nat → Schema → Prop
  | whole {d id : Nat} {s : Schema} (h : Renders cx O d id s) : Heads cx O none id s
  | hoisted {b id : Nat} {wrappers : List Node} {last : Node} {s : Schema} (hb : b ∈ O)
      (chain : cx.graph.localChain id = (wrappers, some last)) (hlast : last.id = b)
      (wide : widened cx.options.dialect wrappers (.reference (pointer b)) = .ok s) :
      Heads cx O (some b) id (annotated cx.options.dialect (wrappers ++ [last]) s)
  | under {b id c : Nat} {wrappers : List Node} {last : Node} {s s' : Schema}
      (chain : cx.graph.localChain id = (wrappers, some last)) (hk : last.kind = .validator) (hc : last.children = [c])
      (h : Heads cx O (some b) c s) (wide : widened cx.options.dialect wrappers s = .ok s') :
      Heads cx O (some b) id (annotated cx.options.dialect (wrappers ++ [last]) s')

variable {cx : Context} {s s' : State}

/-- **Hoisting.** Rendering the root takes the body that waits to be hoisted for a definition. -/
theorem render_head (hg : cx.graph.Numbered) (hkeys : DistinctKeys cx.graph) {b r : Nat}
    (href : RefersTo cx.graph r b) {d id : Nat} {S : Schema} (hb : Leads cx.graph b id) (hs : s.hoist = some b)
    (h : render cx d id s = (.ok S, s')) :
    Heads cx s'.order (some b) id S ∧ Ran cx { s with hoist := none } s' [r] [S] := by
  induction d generalizing id s S with
  | zero => cases h
  | succ d ih =>
    obtain ⟨wrappers, last, T, W, hchain, hT, hwide, rfl⟩ := render_ok h
    have hkeep {U : Schema} (hU : widened cx.options.dialect wrappers U = .ok W) {i : Nat}
        (hrun : Ran cx { s with hoist := none } s' [i] [U]) :
        Ran cx { s with hoist := none } s' [i] [annotated cx.options.dialect (wrappers ++ [last]) W] := by
      refine hrun.above ?_ fun t ht => ht
      intro T' hT' q hq
      obtain rfl := List.mem_singleton.1 hT'
      exact references_annotated.2 ((references_widened hU).2 hq)
    have hmem := localChainFrom_mem hg hchain
    rcases leads_chain hb hchain hg with ⟨rfl, hpass⟩ | ⟨hval, c, hc, hlead⟩
    · rw [renderBelow, if_pos hs] at hT
      obtain ⟨rfl, ho, hrun⟩ := define_run (render_run hg hkeys d) (fun _ _ _ h => ⟨d, h⟩) rfl href hT
      exact ⟨.hoisted ho hchain rfl hwide, hkeep hwide hrun⟩
    · have hne : s.hoist ≠ some last.id := by
        rw [hs]
        intro heq
        obtain rfl := Option.some.inj heq
        obtain ⟨n, hn, hk⟩ := hlead.last
        rw [hmem] at hn
        cases hn
        rw [hval] at hk
        cases hk
      rw [renderBelow, if_neg hne, renderNode, hval] at hT
      obtain ⟨m, u, hm, hT⟩ := Steps.bind_ok hT
      obtain ⟨hsole, rfl⟩ := lift_ok hm
      have hm := sole_eq hg hsole
      obtain rfl : m.id = c := by simpa [hm] using hc
      obtain ⟨hhead, hrun⟩ := ih hlead hs hT
      exact ⟨.under hchain hval hc hhead hwide, hkeep hwide hrun⟩

/-! ## References -/

/-- the token of an attribute tells its node -/
theorem token_injective {attr : String} {a b : Nat} (h : Placeholder.text ⟨a, attr⟩ = Placeholder.text ⟨b, attr⟩) : a = b := by
  have hchars := congrArg String.toList h
  simp only [Placeholder.text, String.toList_append, List.append_assoc, List.append_cancel_left_eq] at hchars
  have hdigits (n : Nat) : ∀ c ∈ (toString n).toList, c ≠ ':' := by
    intro c hc heq
    subst heq
    rw [Text.toList_toString_nat] at hc
    exact absurd (Nat.isDigit_of_mem_toDigits (by decide) (by decide) hc) (by decide)
  have htake (n : Nat) (rest : List Char) :
      ((toString n).toList ++ (":".toList ++ rest)).takeWhile (· ≠ ':') = (toString n).toList := by
    rw [List.takeWhile_append_of_pos (by simpa using hdigits n)]
    simp
  have := congrArg (List.takeWhile (· ≠ ':')) hchars
  rw [htake, htake] at this
  exact Text.toString_nat_injective (String.toList_injective this)

theorem pointer_injective {a b : Nat} (h : pointer a = pointer b) : a = b := by
  have hchars := congrArg String.toList h
  simp only [pointer, String.toList_append, List.append_cancel_left_eq] at hchars
  exact token_injective (String.toList_injective hchars)

theorem exists_of_forall₂ {α β : Type} {R : α → β → Prop} {xs : List α} {ys : List β} (h : List.Forall₂ R xs ys) {y : β}
    (hy : y ∈ ys) : ∃ x ∈ xs, R x y := by
  induction h with
  | nil => cases hy
  | cons h _ ih =>
    rcases List.mem_cons.1 hy with rfl | hy
    · exact ⟨_, by simp, h⟩
    · obtain ⟨x, hx, h⟩ := ih hy
      exact ⟨x, List.mem_cons_of_mem _ hx, h⟩

/-- the references of a rendering are the root and definitions, or those of a child -/
theorem Forms.references {O : List Nat} {R : Nat → Schema → Prop} {n : Node} {S : Schema} (h : Forms cx O R n S)
    (hk : n.kind ≠ .custom) {q : String} (hq : q ∈ S.references) :
    (composite n.kind = true ∧ ∃ c ∈ n.children, ∃ T, R c T ∧ q ∈ T.references) ∨
      ∃ t, n.kind = .ref ∧ n.children = [t] ∧ ((t ∈ cx.self ∧ q = "#") ∨ (t ∉ cx.self ∧ t ∈ O ∧ q = pointer t)) := by
  have hlist {ss : List Schema} (hcomp : composite n.kind = true) (hss : List.Forall₂ R n.children ss)
      (hq : ∃ T ∈ ss, q ∈ T.references) :
      composite n.kind = true ∧ ∃ c ∈ n.children, ∃ T, R c T ∧ q ∈ T.references := by
    obtain ⟨T, hT, hq⟩ := hq
    obtain ⟨c, hc, h⟩ := exists_of_forall₂ hss hT
    exact ⟨hcomp, c, hc, T, h, hq⟩
  cases h with
  | string hk => exact absurd hq (references_text _)
  | number hk => exact absurd hq (references_number _ _ _)
  | integer hk => exact absurd hq (references_number _ _ _)
  | boolean hk => simp [Schema.mem_references_ofKeywords, typed] at hq
  | null hk => exact absurd hq (references_null _)
  | unknown hk => simp [Schema.empty, Schema.mem_references_ofBody, Schema.below_ofKeywords] at hq
  | @object fs hk hlen hfs =>
    obtain ⟨T, hT, hq⟩ := mem_references_object.1 hq
    obtain ⟨e, he, rfl⟩ := List.mem_map.1 hT
    have he := Dict.mem_ofList he
    obtain ⟨f, hf, -, hR⟩ := exists_of_forall₂ hfs he
    exact .inl ⟨by rw [hk]; rfl, f.2, (List.of_mem_zip hf).2, e.2, hR, hq⟩
  | array hk hc hs => exact .inl ⟨by rw [hk]; rfl, _, by simp [hc], _, hs, mem_references_array.1 hq⟩
  | tuple hk hss hrest => exact .inl (hlist (by rw [hk]; rfl) hss ((mem_references_rest hrest).1 hq))
  | record hk hc hs => exact .inl ⟨by rw [hk]; rfl, _, by simp [hc], _, hs, mem_references_record.1 hq⟩
  | union hk hd hss => exact .inl (hlist (by rw [hk]; rfl) hss (mem_references_anyOf.1 hq))
  | choice hk hd hss hdisc => exact .inl (hlist (by rw [hk]; rfl) hss (mem_references_oneOf.1 hq))
  | intersection hk hss => exact .inl (hlist (by rw [hk]; rfl) hss (mem_references_allOf.1 hq))
  | enum hk hs => exact absurd hq (references_enum hs)
  | const hk => exact absurd hq (references_const _ _)
  | self hk hc ht => exact .inr ⟨_, hk, hc, .inl ⟨ht, (Schema.mem_references_reference.1 hq).2.symm⟩⟩
  | definition hk hc ht ho => exact .inr ⟨_, hk, hc, .inr ⟨ht, ho, (Schema.mem_references_reference.1 hq).2.symm⟩⟩
  | validator hk hc hs => exact .inl ⟨by rw [hk]; rfl, _, by simp [hc], _, hs, hq⟩
  | custom hk' hs => exact absurd hk' hk

/-- no node of the graph is custom -/
def NoCustom (g : Graph) : Prop := ∀ id n, g.get? id = some n → n.kind ≠ .custom

/-- the references of a rendering are the root and definitions -/
theorem Renders.references (hg : cx.graph.Numbered) (hc : NoCustom cx.graph) {O : List Nat} {d id : Nat} {S : Schema}
    (h : Renders cx O d id S) {q : String} (hq : q ∈ S.references) :
    q = "#" ∨ ∃ t ∈ O, t ∉ cx.self ∧ q = pointer t := by
  induction d generalizing id S with
  | zero => exact h.elim
  | succ d ih =>
    obtain ⟨hchain, hnode, hwide⟩ := h
    have hmem := localChainFrom_mem hg hchain
    rcases hnode.references (hc _ _ hmem) ((references_widened hwide).1 (references_annotated.1 hq)) with
      ⟨-, c, -, T, hT, hq⟩ | ⟨t, -, -, ⟨-, hq⟩ | ⟨ht, ho, hq⟩⟩
    · exact ih hT hq
    · exact .inl hq
    · exact .inr ⟨t, ho, ht, hq⟩

theorem Heads.references (hg : cx.graph.Numbered) (hc : NoCustom cx.graph) {O : List Nat} {hoist : Option Nat} {id : Nat}
    {S : Schema} (h : Heads cx O hoist id S) {q : String} (hq : q ∈ S.references) :
    q = "#" ∨ ∃ t ∈ O, (t ∉ cx.self ∨ hoist = some t) ∧ q = pointer t := by
  induction h with
  | whole h =>
    rcases h.references hg hc hq with hq | ⟨t, ho, ht, hq⟩
    · exact .inl hq
    · exact .inr ⟨t, ho, .inl ht, hq⟩
  | @hoisted b _ _ _ _ hb chain hlast wide =>
    have hq := (references_widened wide).1 (references_annotated.1 hq)
    exact .inr ⟨b, hb, .inr rfl, (Schema.mem_references_reference.1 hq).2.symm⟩
  | under chain hk hc h wide ih => exact ih ((references_widened wide).1 (references_annotated.1 hq))

/-! ## Outlines -/

/-- what stays the same while a root is rendered -/
def contextOf (g : Graph) (root : Nat) (o : Options) : Context :=
  { graph := g, options := o, self := (rootIdentity g root (g.size + 1) false [root] root).1 }

/-- the body of a root that becomes a definition -/
def hoistOf (g : Graph) (root : Nat) : Option Nat := (rootIdentity g root (g.size + 1) false [root] root).2

/-- what a document consists of: the rendering of its root, and one body for each definition -/
structure Outline (cx : Context) (hoist : Option Nat) (root : Nat) (head : Schema) (s : State) : Prop where
  heads : Heads cx s.order hoist root head
  nodup : s.order.Nodup
  keys : (s.bodies.map (·.1)).Perm s.order
  rendered : ∀ e ∈ s.bodies, ∃ d, Renders cx s.order d e.1 e.2
  referenced : ∀ t ∈ s.order, ∃ S ∈ head :: s.bodies.map (·.2), pointer t ∈ S.references
  sought : ∀ t ∈ s.order, Sought cx.graph [root] t ∨ hoist = some t

theorem isReferenced_refers {g : Graph} {root b : Nat} (h : isReferenced g root b = true) : ∃ r, RefersTo g r b := by
  obtain ⟨i, -, hi⟩ := List.any_eq_true.1 h
  obtain ⟨n, hn, hr⟩ := (Option.any_eq_true _ _).1 hi
  simp only [Bool.and_eq_true, decide_eq_true_eq, beq_iff_eq] at hr
  exact ⟨i, n, hn, hr.1, hr.2⟩

/-- what is sought from a reference is its target, or sought from there -/
theorem Sought.refers {g : Graph} {r b t : Nat} (hr : RefersTo g r b) (h : Sought g [r] t) : t = b ∨ Sought g [b] t := by
  obtain ⟨n, hn, hk, hc⟩ := hr
  obtain ⟨i, hi, q, hq, ht⟩ := h
  obtain rfl := List.mem_singleton.1 hi
  rcases Relation.ReflTransGen.cases_head hq with rfl | ⟨c, ⟨m, hm, -, hcm⟩, hcq⟩
  · obtain ⟨m, hm, -, hcm⟩ := ht
    rw [hn] at hm
    cases hm
    rw [hc] at hcm
    exact .inl (List.cons.inj hcm).1.symm
  · rw [hn] at hm
    cases hm
    rw [hc] at hcm
    obtain rfl := List.mem_singleton.1 hcm
    exact .inr ⟨c, by simp, q, hcq, ht⟩

theorem hoistOf_some {g : Graph} (hg : g.Numbered) {root b : Nat} (h : hoistOf g root = some b) :
    Leads g b root ∧ (∃ n, g.get? b = some n ∧ n.kind ≠ .ref) ∧ ∃ r, RefersTo g r b := by
  have hid : rootIdentity g root (g.size + 1) false [root] root =
      ((rootIdentity g root (g.size + 1) false [root] root).1, some b) := by
    rw [← h]
    rfl
  obtain ⟨hleads, hkind, href⟩ := rootIdentity_hoist hg hid
  exact ⟨hleads, hkind, isReferenced_refers href⟩

/-- a document is assembled from a run of the rendering -/
theorem ofNode_ok {g : Graph} {root : Nat} {r r' : Registry} {o : Options} {doc : Document}
    (h : ofNode g root r o = (.ok doc, r')) :
    ∃ head s, render (contextOf g root o) (maxDepth g) root { registry := r, hoist := hoistOf g root } = (.ok head, s) ∧
      doc = assemble o s head ∧ r' = s.registry := by
  rcases hrun : render (contextOf g root o) (maxDepth g) root { registry := r, hoist := hoistOf g root } with ⟨res, s⟩
  have hof : ofNode g root r o = (res.map (assemble o s), s.registry) := by
    have hdef : ofNode g root r o =
        ((render (contextOf g root o) (maxDepth g) root { registry := r, hoist := hoistOf g root }).1.map
          (assemble o (render (contextOf g root o) (maxDepth g) root { registry := r, hoist := hoistOf g root }).2),
          (render (contextOf g root o) (maxDepth g) root { registry := r, hoist := hoistOf g root }).2.registry) := rfl
    rw [hdef, hrun]
  rw [hof] at h
  obtain ⟨hres, rfl⟩ := Prod.mk.inj h
  cases res with
  | error e => cases hres
  | ok head =>
    cases hres
    exact ⟨head, s, rfl, rfl, rfl⟩

/-- **Documents.** Every rendered document has an outline, and its definitions are declared in their order. -/
theorem ofNode_outline {g : Graph} (hg : g.Numbered) (hkeys : DistinctKeys g) {root : Nat} {r r' : Registry} {o : Options}
    {doc : Document} (h : ofNode g root r o = (.ok doc, r')) :
    ∃ head s, Outline (contextOf g root o) (hoistOf g root) root head s ∧ doc = assemble o s head ∧ r' = s.registry ∧
      (r.Inline o.path [] → r'.Inline o.path s.order) := by
  obtain ⟨head, s, hrun, rfl, rfl⟩ := ofNode_ok h
  -- a hoisted body is rendered on behalf of a reference to it, anything else on behalf of the root
  obtain ⟨hhead, ids, ⟨new, bs, hran⟩, hsought⟩ : Heads (contextOf g root o) s.order (hoistOf g root) root head ∧
      ∃ ids, Ran (contextOf g root o) { registry := r } s ids [head] ∧
        ∀ t, Sought g ids t → Sought g [root] t ∨ hoistOf g root = some t := by
    cases hh : hoistOf g root with
    | none =>
      rw [hh] at hrun
      obtain ⟨hR, hran⟩ := @render_run (contextOf g root o) hg hkeys _ _ _ _ _ rfl hrun
      exact ⟨.whole hR, [root], hran, fun t ht => .inl ht⟩
    | some b =>
      rw [hh] at hrun
      obtain ⟨hleads, -, q, hq⟩ := hoistOf_some hg hh
      obtain ⟨hhead, hran⟩ := @render_head (contextOf g root o) _ _ hg hkeys _ _ hq _ _ _ hleads rfl hrun
      refine ⟨hhead, [q], hran, fun t ht => ?_⟩
      rcases ht.refers hq with rfl | ⟨i, hi, p, hp, ht⟩
      · exact .inr rfl
      · obtain rfl := List.mem_singleton.1 hi
        exact .inl ⟨root, by simp, p, hleads.reaches.trans hp, ht⟩
  have horder : s.order = new := hran.order
  have hbodies : s.bodies = bs := hran.bodies
  subst horder hbodies
  exact ⟨head, s, ⟨hhead, hran.nodup List.nodup_nil, hran.keys, hran.rendered,
    fun t ht => by simpa using hran.referenced t ht, fun t ht => hsought t (hran.sought t ht)⟩, rfl, rfl, hran.registry⟩

/-! ## Which nodes have definitions -/

theorem Heads.hoist_mem {O : List Nat} {hoist : Option Nat} {b id : Nat} {S : Schema} (h : Heads cx O hoist id S)
    (hb : hoist = some b) : b ∈ O := by
  induction h with
  | whole => cases hb
  | hoisted hmem =>
    cases hb
    exact hmem
  | under _ _ _ _ _ ih => exact ih hb

/-- the rendering of a node below its local wrappers is part of the document -/
def Covered (cx : Context) (O : List Nat) (hoist : Option Nat) (id : Nat) : Prop :=
  (∃ ws last d S, cx.graph.localChain id = (ws, some last) ∧ Forms cx O (Renders cx O d) last S) ∨
    ∃ b, hoist = some b ∧ Leads cx.graph b id

section

variable {head : Schema} {hoist : Option Nat} {root : Nat}

theorem Renders.node {O : List Nat} {d id : Nat} {S : Schema} (h : Renders cx O d id S) :
    ∃ ws last d T, cx.graph.localChain id = (ws, some last) ∧ Forms cx O (Renders cx O d) last T := by
  cases d with
  | zero => exact h.elim
  | succ d =>
    obtain ⟨hchain, hnode, -⟩ := h
    exact ⟨_, _, d, _, hchain, hnode⟩

theorem Outline.rendered_definition (h : Outline cx hoist root head s) {t : Nat} (ht : t ∈ s.order) :
    ∃ d S, Renders cx s.order d t S := by
  obtain ⟨e, he, rfl⟩ := List.mem_map.1 (h.keys.mem_iff.2 ht)
  obtain ⟨d, hd⟩ := h.rendered e he
  exact ⟨d, e.2, hd⟩

theorem Outline.covered_root (hhoist : ∀ b, hoist = some b → Leads cx.graph b root)
    (h : Outline cx hoist root head s) : Covered cx s.order hoist root := by
  cases hh : hoist with
  | some b => exact .inr ⟨b, rfl, hhoist b hh⟩
  | none =>
    have := h.heads
    rw [hh] at this
    cases this with
    | whole h => exact .inl h.node

/-- the children of a rendered node are rendered; for a reference, that is one to the root or to a definition -/
theorem Forms.children {O : List Nat} {R : Nat → Schema → Prop} {n : Node} {S : Schema} (h : Forms cx O R n S)
    (hk : composite n.kind = true) {c : Nat} (hc : c ∈ n.children) :
    (∃ T, R c T) ∨ n.kind = .ref ∧ n.children = [c] ∧ (c ∈ cx.self ∨ c ∈ O) := by
  have hall {ss : List Schema} (hss : List.Forall₂ R n.children ss) : ∃ T, R c T := by
    obtain ⟨T, -, hT⟩ := exists_of_forall₂ hss.flip hc
    exact ⟨T, hT⟩
  have hsole {d : Nat} {T : Schema} (hd : n.children = [d]) (hT : R d T) : ∃ T, R c T := by
    rw [hd] at hc
    obtain rfl := List.mem_singleton.1 hc
    exact ⟨T, hT⟩
  cases h with
  | object hk hlen hfs =>
    have hmem : c ∈ (n.objectOptions.keys.zip n.children).map (·.2) := by
      rw [List.map_snd_zip hlen]
      exact hc
    obtain ⟨f, hf, rfl⟩ := List.mem_map.1 hmem
    obtain ⟨e, -, -, he⟩ := exists_of_forall₂ hfs.flip hf
    exact .inl ⟨_, he⟩
  | array hk hd hs => exact .inl (hsole hd hs)
  | tuple hk hss hrest => exact .inl (hall hss)
  | record hk hd hs => exact .inl (hsole hd hs)
  | union hk hd hss => exact .inl (hall hss)
  | choice hk hd hss hdisc => exact .inl (hall hss)
  | intersection hk hss => exact .inl (hall hss)
  | self hk hd ht =>
    rw [hd] at hc
    obtain rfl := List.mem_singleton.1 hc
    exact .inr ⟨hk, hd, .inl ht⟩
  | definition hk hd ht ho =>
    rw [hd] at hc
    obtain rfl := List.mem_singleton.1 hc
    exact .inr ⟨hk, hd, .inr ho⟩
  | validator hk hd hs => exact .inl (hsole hd hs)
  | string hk' | number hk' | integer hk' | boolean hk' | null hk' | unknown hk' | enum hk' _ | const hk' | custom hk' _ =>
    rw [hk'] at hk
    cases hk

/-- the children of a covered node are covered, unless it is a reference to the document itself -/
theorem Outline.covered_child (h : Outline cx hoist root head s) {a c : Nat} {n : Node} (ha : Covered cx s.order hoist a)
    (hn : cx.graph.get? a = some n) (hk : composite n.kind = true) (hc : c ∈ n.children) :
    Covered cx s.order hoist c ∨ n.kind = .ref ∧ c ∈ cx.self := by
  have hrendered {ws : List Node} {last : Node} {d : Nat} {S : Schema} (hchain : cx.graph.localChain a = (ws, some last))
      (hforms : Forms cx s.order (Renders cx s.order d) last S) :
      Covered cx s.order hoist c ∨ n.kind = .ref ∧ c ∈ cx.self := by
    obtain ⟨m, hm, ⟨-, -, rfl⟩ | ⟨x, ws', -, -, hx, -, hchain⟩⟩ := localChain_cases hchain <;> rw [hn] at hm <;> cases hm
    · rcases hforms.children hk hc with ⟨T, hT⟩ | ⟨href, -, hc | hc⟩
      · exact .inl (.inl hT.node)
      · exact .inr ⟨href, hc⟩
      · obtain ⟨d, S, hd⟩ := h.rendered_definition hc
        exact .inl (.inl hd.node)
    · rw [hx] at hc
      obtain rfl := List.mem_singleton.1 hc
      exact .inl (.inl ⟨ws', last, d, S, hchain, hforms⟩)
  rcases ha with ⟨ws, last, d, S, hchain, hforms⟩ | ⟨b, hb, hleads⟩
  · exact hrendered hchain hforms
  · cases hleads with
    | here =>
      -- the body of a hoisted root is rendered as a definition
      obtain ⟨d, S, hd⟩ := h.rendered_definition (h.heads.hoist_mem hb)
      obtain ⟨ws, last, d, T, hchain, hforms⟩ := hd.node
      exact hrendered hchain hforms
    | step hstep hlead =>
      obtain ⟨m, hm, -, hx⟩ := hstep
      rw [hn] at hm
      cases hm
      rw [hx] at hc
      obtain rfl := List.mem_singleton.1 hc
      exact .inl (.inr ⟨b, hb, hlead⟩)

/-- the path from the root is covered -/
theorem Outline.covered_passes (h : Outline cx hoist root head s) {a t : Nat} (ha : Covered cx s.order hoist a)
    (hpath : Relation.ReflTransGen (Passes cx.graph) a t) : Covered cx s.order hoist t := by
  induction hpath with
  | refl => exact ha
  | tail _ hstep ih =>
    obtain ⟨n, hn, hk, hc⟩ := hstep
    have hcomp : composite n.kind = true := by cases hkind : n.kind <;> simp_all [passes, composite]
    rcases h.covered_child ih hn hcomp (hc ▸ List.mem_singleton_self _) with hcov | ⟨href, -⟩
    · exact hcov
    · rw [href] at hk
      cases hk

/-- whatever the root reaches is covered -/
theorem Outline.covered_reaches (h : Outline cx hoist root head s)
    (hself : ∀ t ∈ cx.self, Relation.ReflTransGen (Passes cx.graph) root t) (hroot : Covered cx s.order hoist root) {a : Nat}
    (ha : Reaches cx.graph root a) : Covered cx s.order hoist a := by
  induction ha with
  | refl => exact hroot
  | tail _ hstep ih =>
    obtain ⟨n, hn, hk, hc⟩ := hstep
    rcases h.covered_child ih hn hk hc with hcov | ⟨-, hc⟩
    · exact hcov
    · exact h.covered_passes hroot (hself _ hc)

theorem Forms.target {O : List Nat} {R : Nat → Schema → Prop} {n : Node} {S : Schema} {t : Nat} (h : Forms cx O R n S)
    (hk : n.kind = .ref) (hc : n.children = [t]) :
    t ∈ cx.self ∧ S = .reference "#" ∨ t ∈ O ∧ t ∉ cx.self ∧ S = .reference (pointer t) := by
  cases h with
  | self _ hd ht =>
    obtain rfl : t = _ := by simpa [hc] using hd
    exact .inl ⟨ht, rfl⟩
  | definition _ hd ht ho =>
    obtain rfl : t = _ := by simpa [hc] using hd
    exact .inr ⟨ho, ht, rfl⟩
  | _ => simp_all

/-- a covered reference leads to the document itself or to a definition -/
theorem Covered.target {O : List Nat} (hhoist : ∀ b, hoist = some b → ∃ n, cx.graph.get? b = some n ∧ n.kind ≠ .ref) {r t : Nat}
    (h : Covered cx O hoist r) (hr : RefersTo cx.graph r t) : t ∈ cx.self ∨ t ∈ O := by
  obtain ⟨n, hn, hk, hc⟩ := hr
  rcases h with ⟨ws, last, d, S, hchain, hforms⟩ | ⟨b, hb, hleads⟩
  · obtain ⟨m, hm, ⟨-, -, rfl⟩ | ⟨x, ws', -, href, -⟩⟩ := localChain_cases hchain <;> rw [hn] at hm <;> cases hm
    · exact (hforms.target hk hc).imp (fun h => h.1) fun h => h.1
    · exact absurd hk href
  · cases hleads with
    | here =>
      obtain ⟨m, hm, href⟩ := hhoist r hb
      rw [hn] at hm
      cases hm
      exact absurd hk href
    | step hstep =>
      obtain ⟨m, hm, hpass, -⟩ := hstep
      rw [hn] at hm
      cases hm
      rw [hk] at hpass
      cases hpass

/-- **Which nodes have definitions.** Those that a reference on the way leads to, unless they are the document itself,
and the hoisted body of the root. -/
theorem Outline.mem_definitions (hg : cx.graph.Numbered) (hc : NoCustom cx.graph)
    (hself : ∀ t ∈ cx.self, Relation.ReflTransGen (Passes cx.graph) root t)
    (hhoist : ∀ b, hoist = some b → Leads cx.graph b root ∧ ∃ n, cx.graph.get? b = some n ∧ n.kind ≠ .ref)
    (h : Outline cx hoist root head s) {t : Nat} :
    t ∈ s.order ↔ hoist = some t ∨ Sought cx.graph [root] t ∧ t ∉ cx.self := by
  constructor
  · intro ht
    obtain ⟨S, hS, hp⟩ := h.referenced t ht
    have hptr {q : Nat} (hq : pointer t = pointer q) : t = q := pointer_injective hq
    have hne : pointer t ≠ "#" := by
      intro heq
      have := congrArg String.toList heq
      simp [pointer] at this
    have hfrom : t ∉ cx.self ∨ hoist = some t := by
      rcases List.mem_cons.1 hS with rfl | hS
      · obtain heq | ⟨q, -, hq, heq⟩ := h.heads.references hg hc hp
        · exact absurd heq hne
        · obtain rfl := hptr heq
          exact hq
      · obtain ⟨e, he, rfl⟩ := List.mem_map.1 hS
        obtain ⟨d, hd⟩ := h.rendered e he
        obtain heq | ⟨q, -, hq, heq⟩ := hd.references hg hc hp
        · exact absurd heq hne
        · obtain rfl := hptr heq
          exact .inl hq
    rcases hfrom with hnot | hh
    · rcases h.sought t ht with hs | hh
      · exact .inr ⟨hs, hnot⟩
      · exact .inl hh
    · exact .inl hh
  · rintro (hh | ⟨⟨i, hi, r, hr, href⟩, hnot⟩)
    · exact h.heads.hoist_mem hh
    · obtain rfl := List.mem_singleton.1 hi
      have hroot := h.covered_root fun b hb => (hhoist b hb).1
      have hcov := h.covered_reaches hself hroot hr
      exact (hcov.target (fun b hb => (hhoist b hb).2) href).resolve_left hnot

end

end Schemata.Document
