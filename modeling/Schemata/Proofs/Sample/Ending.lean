import Mathlib.Algebra.Order.BigOperators.Group.Finset
import Schemata.Sample
import Schemata.Proofs.Graph.Closure
import Schemata.Proofs.Document.Ending

/-!
Samples that end.

Sampling goes down along children, and through a reference only while its target has been entered less often than the limit.
Where every circle of the graph passes through a reference, the nodes between two entries are all different, and
the entries that are still to be had grow fewer with each one. So sampling nests no deeper than its bound, whatever
would be sampled there (`bareUpTo_same`), and it counts down what it counted up, however it ends (`sampled_unwinds`).

Three relations between samplers pass from parts to the whole, and each is taken through the kinds of nodes by the same
lemma (`Congruence`, `nodeValue_congr`). Main result: `value_ends`; the one way to break off that is left is a hook that
tries to change its frozen node.
-/

namespace Schemata

open Steps (Moves)

/-! ## What the hooks on sampling do to a graph -/

/-- the same node under another name, with another description -/
def Node.Retitled (n m : Node) : Prop := ∃ name description, m = { n with name, info := { n.info with description } }

theorem Node.Retitled.refl (n : Node) : n.Retitled n := ⟨n.name, n.info.description, rfl⟩

theorem Node.Retitled.trans {n m k : Node} (h : n.Retitled m) (h' : m.Retitled k) : n.Retitled k := by
  obtain ⟨_, _, rfl⟩ := h
  obtain ⟨name, description, rfl⟩ := h'
  exact ⟨name, description, rfl⟩

theorem Node.Retitled.kind {n m : Node} (h : n.Retitled m) : m.kind = n.kind := by
  obtain ⟨_, _, rfl⟩ := h
  rfl

theorem Node.Retitled.children {n m : Node} (h : n.Retitled m) : m.children = n.children := by
  obtain ⟨_, _, rfl⟩ := h
  rfl

namespace Graph

/-- the same graph but for names and descriptions -/
structure Retitled (g h : Graph) : Prop where
  some : ∀ {id n}, g.get? id = some n → ∃ m, h.get? id = some m ∧ n.Retitled m
  none : ∀ {id}, g.get? id = none → h.get? id = none

variable {g h k : Graph}

theorem Retitled.refl (g : Graph) : Retitled g g := ⟨fun {_ n} h => ⟨n, h, .refl n⟩, id⟩

theorem Retitled.trans (h₁ : Retitled g h) (h₂ : Retitled h k) : Retitled g k := by
  refine ⟨fun hn => ?_, fun hn => h₂.none (h₁.none hn)⟩
  obtain ⟨m, hm, hnm⟩ := h₁.some hn
  obtain ⟨k, hk, hmk⟩ := h₂.some hm
  exact ⟨k, hk, hnm.trans hmk⟩

/-- what is a node later was one before -/
theorem Retitled.before (hr : Retitled g h) {id : Nat} {m : Node} (hm : h.get? id = .some m) :
    ∃ n, g.get? id = .some n ∧ n.Retitled m := by
  cases hn : g.get? id with
  | none => rw [hr.none hn] at hm; cases hm
  | some n =>
    obtain ⟨m', hm', hnm⟩ := hr.some hn
    obtain rfl : m = m' := Option.some.inj (hm.symm.trans hm')
    exact ⟨n, rfl, hnm⟩

theorem Retitled.numbered (hr : Retitled g h) (hg : g.Numbered) : h.Numbered := by
  intro id m hm
  obtain ⟨n, hn, _, _, rfl⟩ := hr.before hm
  exact hg id n hn

theorem retitled_modify {f : Node → Node} (hf : ∀ n : Node, n.Retitled (f n)) (g : Graph) (id : Nat) :
    Retitled g (g.modify id f) := by
  constructor
  · intro i n hn
    rw [get?_modify, hn]
    split
    · exact ⟨f n, rfl, hf n⟩
    · exact ⟨n, rfl, .refl n⟩
  · intro i hn
    rw [get?_modify, hn]
    split <;> rfl

end Graph

namespace GraphM

open Graph

variable {α : Type}

theorem node_retitles (id : Nat) : Moves Retitled (node id) := by
  intro g
  unfold node
  split <;> exact .refl g

theorem react_retitles (id : Nat) (h : Hook) : Moves Retitled (react id h) := by
  have hchange {f : Node → Node} (hf : ∀ n : Node, n.Retitled (f n)) : Moves Retitled (change id f) := by
    refine Moves.bind (R := Retitled) (fun _ _ _ => Retitled.trans) (node_retitles id) fun n => ?_
    split
    · exact Retitled.refl
    · exact fun g => retitled_modify hf g id
  unfold react
  split
  · exact Retitled.refl
  · exact hchange (by exact fun n => ⟨_, n.info.description, rfl⟩)
  · exact hchange (by exact fun n => ⟨n.name, _, rfl⟩)
  · exact Retitled.refl

theorem runHooks_retitles (phase : String) (event : String → String → Event) (id : Nat) (hs : List Hook) :
    Moves Retitled (runHooks phase event id hs) := by
  have htrans (s t u : Graph) : Retitled s t → Retitled t u → Retitled s u := Retitled.trans
  induction hs with
  | nil => exact Retitled.refl
  | cons h hs ih =>
    refine Moves.bind htrans (node_retitles id) fun _ => Moves.bind htrans (fun g => react_retitles id h g) fun _ =>
      Moves.bind htrans (node_retitles id) fun _ => Moves.bind htrans ?_ fun _ => ih
    exact fun g => ⟨fun {_ n} h => ⟨n, h, .refl n⟩, fun h => h⟩

theorem generated_retitles (id : Nat) : Moves Retitled (generated id) :=
  Moves.bind (R := Retitled) (fun _ _ _ => Retitled.trans) (node_retitles id) fun _ => runHooks_retitles _ _ id _

/-- hooks break off at a frozen node that one of them tries to change, and nowhere else -/
theorem runHooks_aborted {phase : String} {event : String → String → Event} {id : Nat} {hs : List Hook} {g : Graph} {n : Node}
    (hn : g.get? id = some n) {reason : Option String} (h : (runHooks phase event id hs g).1 = .error (.aborted reason)) :
    n.loaded = true ∧ (∃ hook ∈ hs, hook.reaction = .rename ∨ hook.reaction = .describe) ∧
      reason = some ("schema: node " ++ toString id ++ " is frozen") := by
  induction hs generalizing g n with
  | nil => cases h
  | cons hook hs ih =>
    rw [runHooks, Steps.bind_of_ok (node_of_get? hn), Steps.bind_apply] at h
    have hchange {f : Node → Node} (hf : (change id f g).1 = .error (.aborted reason)) :
        n.loaded = true ∧ reason = some ("schema: node " ++ toString id ++ " is frozen") := by
      rw [change, Steps.bind_of_ok (node_of_get? hn)] at hf
      cases hl : n.loaded with
      | false => rw [hl] at hf; cases hf
      | true => rw [hl] at hf; cases hf; exact ⟨rfl, rfl⟩
    have hreact (hr : (react id hook g).1 = .error (.aborted reason)) :
        n.loaded = true ∧ (hook.reaction = .rename ∨ hook.reaction = .describe) ∧
          reason = some ("schema: node " ++ toString id ++ " is frozen") := by
      rw [react] at hr
      cases hk : hook.reaction <;> rw [hk] at hr
      case fail => cases hr
      case rename => exact ⟨(hchange hr).1, .inl rfl, (hchange hr).2⟩
      case describe => exact ⟨(hchange hr).1, .inr rfl, (hchange hr).2⟩
      case watch => cases hr
    have hlater := react_retitles id hook g
    rcases hrun : react id hook g with ⟨(f | r) | ⟨⟩, g'⟩ <;> rw [hrun] at hreact hlater <;>
      simp only [mapFailure, hrun, Outcome.mapFailure] at h
    · cases h
    · obtain rfl : r = reason := by simpa using h
      obtain ⟨hl, hk, hr⟩ := hreact rfl
      exact ⟨hl, ⟨hook, List.mem_cons_self .., hk⟩, hr⟩
    · obtain ⟨m, hm, _, _, rfl⟩ := hlater.some hn
      have hreport (e : Event) : report e g' = (.ok (), { g' with events := g'.events ++ [e] }) := rfl
      rw [Steps.bind_of_ok (node_of_get? hm), Steps.bind_of_ok (hreport _)] at h
      obtain ⟨hl, ⟨hook', hmem, hk⟩, hr⟩ := ih (by exact hm) h
      exact ⟨hl, ⟨hook', List.mem_cons_of_mem _ hmem, hk⟩, hr⟩

end GraphM

namespace Sample

open Steps (Same)
open Document (Inlines CutByReferences)

/-! ## One node, in parts -/

/-- the sampler with any other sampler in the place of its bound -/
def bareUpTo (o : Options) (out : Descend) : (depth : Nat) → Descend
  | 0 => out
  | depth + 1 => fun id => do
    let n ← onGraph (GraphM.node id)
    nodeValue o (fun c => withHooks o c (bareUpTo o out depth c)) (bareUpTo o out depth) n

theorem bareUpTo_succ (o : Options) (out : Descend) (depth id : Nat) :
    bareUpTo o out (depth + 1) id = (onGraph (GraphM.node id) >>=
      nodeValue o (fun c => withHooks o c (bareUpTo o out depth c)) (bareUpTo o out depth)) := rfl

theorem onGraph_node {s : State} {id : Nat} {n : Node} (hn : s.graph.get? id = some n) :
    onGraph (GraphM.node id) s = (.ok n, s) := by
  simp only [onGraph, GraphM.node, hn]

/-- the sampler is the one that stops at its bound -/
theorem bareValue_eq (o : Options) (depth : Nat) : bareValue o depth = bareUpTo o (fun _ => lift abort) depth := by
  induction depth with
  | zero => rfl
  | succ depth ih =>
    funext id
    rw [bareValue, ih, bareUpTo]

theorem bareUpTo_add (o : Options) (out : Descend) (depth more : Nat) :
    bareUpTo o out (depth + more) = bareUpTo o (bareUpTo o out more) depth := by
  induction depth with
  | zero => rw [Nat.zero_add]; rfl
  | succ depth ih => rw [Nat.succ_add, bareUpTo, ih, bareUpTo]

/-- a reference target sampled below its reference, unless it has been entered too often -/
def enter (o : Options) (descend : Descend) (t : Nat) : SampleM Value := fun s =>
  if s.count t ≥ o.limit then fail (.leaf .tooDeep) s else entered t (descend t) s

theorem nodeValue_ref (o : Options) (descend bare : Descend) {n : Node} (hk : n.kind = .ref) :
    nodeValue o descend bare n = (onGraph GraphM.graph >>= fun g => lift (g.sole n) >>= fun t => enter o descend t.id) := by
  have hbody (t : Node) : (do
      let s ← (fun s => (.ok s, s) : SampleM State)
      if s.count t.id ≥ o.limit then fail (.leaf .tooDeep) else entered t.id (descend t.id)) = enter o descend t.id := by
    funext s
    rw [Steps.bind_apply, enter]
    dsimp only
    split <;> rfl
  simp only [nodeValue, hk, hbody]

/-! ## Relations that pass from parts to the whole -/

/-- a relation between samplers that holds of equal parts and is kept where they are put together; graphs that are
looked at satisfy `G` -/
structure Congruence (G : Graph → Prop) (Q : ∀ {α : Type}, SampleM α → SampleM α → Prop) : Prop where
  pure : ∀ {α : Type} (a : α), Q (pure a : SampleM α) (pure a)
  fail : ∀ {α : Type} (f : Failure), Q (fail f : SampleM α) (fail f)
  bind : ∀ {α β : Type} {x y : SampleM α} {f f' : α → SampleM β}, Q x y → (∀ a, Q (f a) (f' a)) → Q (x >>= f) (y >>= f')
  graph : ∀ {α : Type} {f f' : Graph → SampleM α}, (∀ g, G g → Q (f g) (f' g)) →
    Q (onGraph GraphM.graph >>= f) (onGraph GraphM.graph >>= f')
  attempt : ∀ {x y : SampleM Value}, Q x y → Q (attempt x) (attempt y)

/-- a number that sampling a node goes down to: of a child, or the number that the child bears -/
def Below (G : Graph → Prop) (n : Node) (c : Nat) : Prop :=
  ∃ g, G g ∧ ∃ i ∈ n.children, ∃ m, g.get? i = some m ∧ (c = i ∨ c = m.id)

section Parts

variable {G : Graph → Prop} {Q : ∀ {α : Type}, SampleM α → SampleM α → Prop} (hQ : Congruence G Q)
  {descend descend' : Descend} {n : Node}

include hQ

theorem textValue_congr : Q (textValue n) (textValue n) := by
  unfold textValue
  dsimp only
  split
  · exact hQ.pure _
  · split
    · exact hQ.fail _
    · split
      · exact hQ.pure _
      · exact hQ.fail _

theorem numberValue_congr : Q (numberValue n) (numberValue n) := by
  unfold numberValue
  dsimp only
  split
  · split
    · exact hQ.fail _
    · exact hQ.pure _
  · exact hQ.pure _

theorem sole_congr (h : ∀ c, Below G n c → Q (descend c) (descend' c)) : Q (sole descend n) (sole descend' n) := by
  refine hQ.graph fun g hg => ?_
  unfold Graph.sole
  split
  · rename_i c hc
    split
    · rename_i m hm
      exact h _ ⟨g, hg, c, by simp [hc], m, hm, .inr rfl⟩
    · exact hQ.fail _
  · exact hQ.fail _

theorem child_congr (h : ∀ c, Below G n c → Q (descend c) (descend' c)) (i : Nat) :
    Q (child descend n i) (child descend' n i) := by
  refine hQ.graph fun g hg => ?_
  unfold Graph.child?
  cases hc : n.children[i]? with
  | none => exact hQ.fail _
  | some c =>
    cases hm : g.get? c with
    | none =>
      simp only [Option.bind_some, hm]
      exact hQ.fail _
    | some m =>
      simp only [Option.bind_some, hm]
      exact h m.id ⟨g, hg, c, List.mem_of_getElem? hc, m, hm, .inr rfl⟩

theorem fieldsValue_congr (h : ∀ c, Below G n c → Q (descend c) (descend' c)) {fields : List (String × Nat)}
    (hfields : ∀ f ∈ fields, f.2 ∈ n.children) (acc : Dict Value) :
    Q (fieldsValue descend acc fields) (fieldsValue descend' acc fields) := by
  induction fields generalizing acc with
  | nil => exact hQ.pure _
  | cons f fields ih =>
    have hrest := ih fun f hf => hfields f (List.mem_cons_of_mem _ hf)
    refine hQ.graph fun g hg => ?_
    split
    · exact hrest acc
    · rename_i hpresent
      obtain ⟨m, hm⟩ : ∃ m, g.get? f.2 = some m := by
        cases hm : g.get? f.2 with
        | none => simp [hm] at hpresent
        | some m => exact ⟨m, rfl⟩
      exact hQ.bind (h f.2 ⟨g, hg, f.2, hfields f (List.mem_cons_self ..), m, hm, .inl rfl⟩) fun v => hrest _

/-- lists agree when the positions do, also of two nodes -/
theorem items_congr {n' : Node} (h : ∀ i, Q (child descend n i) (child descend' n' i)) (is : List Nat) :
    Q (items descend n is) (items descend' n' is) := by
  induction is with
  | nil => exact hQ.pure _
  | cons i is ih => exact hQ.bind (h i) fun v => hQ.bind ih fun vs => hQ.pure _

theorem unionValue_congr {n' : Node} (hsite : n.site = n'.site) (h : ∀ i, Q (child descend n i) (child descend' n' i))
    (errs : List Failure) (is : List Nat) : Q (unionValue descend n errs is) (unionValue descend' n' errs is) := by
  induction is generalizing errs with
  | nil =>
    simp only [unionValue, failAt, hsite]
    split
    · exact hQ.fail _
    · exact hQ.fail _
  | cons i is ih =>
    refine hQ.bind (hQ.attempt (h i)) fun r => ?_
    cases r with
    | ok v => exact hQ.pure _
    | error f => exact ih _

theorem intersectionValue_congr (h : ∀ c, Below G n c → Q (descend c) (descend' c)) (first : Value)
    (merged : Option (Dict Value)) (is : List Nat) :
    Q (intersectionValue descend n first merged is) (intersectionValue descend' n first merged is) := by
  induction is generalizing first merged with
  | nil => exact hQ.pure _
  | cons i is ih =>
    refine hQ.bind (child_congr hQ h i) fun v => ?_
    cases v with
    | object fs => exact ih _ _
    | _ => exact hQ.pure _

/-- **One node.** Samplers are related when those of the children are, or for a reference those that enter its target; a
list of less than no items breaks off. -/
theorem nodeValue_congr {bare bare' : Descend} (o : Options)
    (habort : n.kind = .array → n.arrayOptions.minItems.getD 0 < 0 → Q (lift abort : SampleM Value) (lift abort))
    (hbelow : n.kind ≠ .ref → ∀ c, Below G n c → Q (descend c) (descend' c) ∧ Q (bare c) (bare' c))
    (henter : n.kind = .ref → ∀ g, G g → ∀ t, g.sole n = .ok t → Q (enter o descend t.id) (enter o descend' t.id)) :
    Q (nodeValue o descend bare n) (nodeValue o descend' bare' n) := by
  by_cases href : n.kind = .ref
  · rw [nodeValue_ref o _ _ href, nodeValue_ref o _ _ href]
    refine hQ.graph fun g hg => ?_
    cases hs : g.sole n with
    | ok t => exact henter href g hg t hs
    | error e =>
      obtain ⟨f, rfl⟩ : ∃ f, e = .failed f := by
        unfold Graph.sole at hs
        split at hs
        · split at hs <;> cases hs
          exact ⟨_, rfl⟩
        · cases hs
          exact ⟨_, rfl⟩
      exact hQ.fail f
  · have hdescend := fun c hc => (hbelow href c hc).1
    have hbare := fun c hc => (hbelow href c hc).2
    have hchild := child_congr hQ hdescend
    have hfail {α : Type} (f : Failure) : Q (fail f : SampleM α) (fail f) := hQ.fail f
    unfold nodeValue
    cases hk : n.kind <;> simp only
    case ref => exact absurd hk href
    case string => exact textValue_congr hQ
    case number => exact numberValue_congr hQ
    case integer => exact numberValue_congr hQ
    case object => exact fieldsValue_congr hQ hdescend (fun f hf => (List.of_mem_zip hf).2) _
    case array =>
      unfold arrayValue
      dsimp only
      split
      · exact habort hk ‹_›
      · refine hQ.bind (items_congr hQ hchild _) fun vs => ?_
        split
        · exact hfail _
        · exact hQ.pure _
    case tuple => exact hQ.graph fun g _ => hQ.bind (items_congr hQ hchild _) fun vs => hQ.pure _
    case union => exact unionValue_congr hQ rfl hchild _ _
    case intersection => exact intersectionValue_congr hQ hdescend _ _ _
    case enum =>
      split
      · exact hQ.pure _
      · exact hfail _
    case optional => exact sole_congr hQ hbare
    case nullable =>
      refine hQ.bind (hQ.attempt (sole_congr hQ hdescend)) fun r => ?_
      cases r with
      | ok v => exact hQ.pure _
      | error f =>
        dsimp only
        split
        · exact hQ.pure _
        · exact hfail _
    case validator => exact sole_congr hQ hdescend
    case invalid => exact hfail _
    all_goals exact hQ.pure _

/-- **Hooks and all.** -/
theorem withHooks_congr {o : Options} {id : Nat} {make make' : SampleM Value}
    (hnode : Q (onGraph (GraphM.node id)) (onGraph (GraphM.node id)))
    (hhooks : Q (onGraph (GraphM.generated id)) (onGraph (GraphM.generated id))) (hmake : Q make make') :
    Q (withHooks o id make) (withHooks o id make') := by
  refine hQ.bind hnode fun n => ?_
  dsimp only
  split
  · exact hQ.bind (hQ.pure _) fun v => hQ.bind hhooks fun _ => hQ.pure _
  · exact hQ.bind hmake fun v => hQ.bind hhooks fun _ => hQ.pure _

end Parts

/-! ## Counters -/

variable {α β : Type} {o : Options}

theorem count_setCount (s : State) (id k i : Nat) : (s.setCount id k).count i = if i = id then k else s.count i := by
  unfold State.count State.setCount
  by_cases hi : i = id
  · subst i
    simp
  · have hfind : (s.active.filter (·.1 != id)).find? (·.1 == i) = s.active.find? (·.1 == i) := by
      rw [List.find?_filter]
      congr 1
      funext p
      by_cases hp : p.1 = i
      · subst hp
        simp [hi]
      · simp [hp]
    rw [if_neg hi, List.find?_cons_of_neg (by simpa using Ne.symm hi), hfind]

/-- the counters stand where they stood before -/
abbrev Unwinds (x : SampleM α) : Prop := Moves (fun s t : State => ∀ id, t.count id = s.count id) x

theorem entered_apply (t : Nat) (body : SampleM Value) (s : State) :
    entered t body s = ((body (s.setCount t (s.count t + 1))).1,
      (body (s.setCount t (s.count t + 1))).2.setCount t ((body (s.setCount t (s.count t + 1))).2.count t - 1)) := rfl

theorem entered_unwinds {t : Nat} {body : SampleM Value} (h : Unwinds body) : Unwinds (entered t body) := by
  intro s id
  have hbody := h (s.setCount t (s.count t + 1))
  simp only [count_setCount] at hbody
  simp only [entered_apply, count_setCount, hbody]
  split
  · rename_i hid
    subst hid
    simp
  · rfl

theorem enter_unwinds {descend : Descend} {t : Nat} (h : Unwinds (descend t)) : Unwinds (enter o descend t) := by
  intro s
  unfold enter
  split
  · exact fun _ => rfl
  · exact entered_unwinds h s

theorem onGraph_unwinds (x : GraphM α) : Unwinds (onGraph x) := fun _ _ => rfl

theorem attempt_state (x : SampleM Value) (s : State) : (attempt x s).2 = (x s).2 := by
  unfold attempt
  rcases x s with ⟨(f | r) | v, t⟩ <;> rfl

theorem unwinds_congruence : Congruence (fun _ => True) fun {α} (x _ : SampleM α) => Unwinds x where
  pure a := Moves.pure (fun _ _ => rfl) a
  fail _ := fun _ _ => rfl
  bind hx hf := Moves.bind (fun _ _ _ h h' id => (h' id).trans (h id)) hx hf
  graph hf := Moves.bind (fun _ _ _ h h' id => (h' id).trans (h id)) (onGraph_unwinds _) fun g => hf g trivial
  attempt hx := fun s => by rw [attempt_state]; exact hx s

theorem withHooks_unwinds {id : Nat} {make : SampleM Value} (h : Unwinds make) : Unwinds (withHooks o id make) :=
  @withHooks_congr _ _ unwinds_congruence o id make make (onGraph_unwinds _) (onGraph_unwinds _) h

theorem bareUpTo_unwinds {out : Descend} (hout : ∀ id, Unwinds (out id)) (depth id : Nat) :
    Unwinds (bareUpTo o out depth id) := by
  induction depth generalizing id with
  | zero => exact hout id
  | succ depth ih =>
    have hhooks (c : Nat) : Unwinds (withHooks o c (bareUpTo o out depth c)) := withHooks_unwinds (ih c)
    refine Moves.bind (fun _ _ _ h h' id => (h' id).trans (h id)) (onGraph_unwinds _) fun n => ?_
    exact @nodeValue_congr _ _ unwinds_congruence _ (bareUpTo o out depth) n _ (bareUpTo o out depth) o
      (fun _ _ _ _ => rfl) (fun _ c _ => ⟨hhooks c, ih c⟩) fun _ _ _ t _ => enter_unwinds (hhooks t.id)

/-- **Every sample unwinds its counters**, however it ends, whatever state and depth it starts at. -/
theorem sampled_unwinds (o : Options) (depth id : Nat) : Unwinds (withHooks o id (bareValue o depth id)) := by
  rw [bareValue_eq]
  exact withHooks_unwinds (bareUpTo_unwinds (fun _ _ _ => rfl) depth id)

/-! ## Entries -/

/-- the graph is the one that was loaded but for names and descriptions, no target is entered too often, and at least `k` entries
have been made -/
structure Entered (o : Options) (g : Graph) (k : Nat) (s : State) : Prop where
  graph : g.Retitled s.graph
  limit : ∀ t, s.count t ≤ o.limit
  entries : k ≤ ∑ t ∈ Finset.Icc 1 g.size, s.count t

variable {g : Graph} {k : Nat} {descend descend' : Descend} {s : State}

theorem Entered.le (h : Entered o g k s) : k ≤ o.limit * g.size := by
  have hsum := Finset.sum_le_card_nsmul (Finset.Icc 1 g.size) s.count o.limit fun t _ => h.limit t
  rw [Nat.card_Icc, Nat.add_sub_cancel, smul_eq_mul, Nat.mul_comm] at hsum
  exact h.entries.trans hsum

theorem mem_icc {t : Nat} {n : Node} (ht : g.get? t = some n) : t ∈ Finset.Icc 1 g.size := by
  have := Graph.get?_bounds ht
  rw [List.mem_range'_1] at this
  rw [Finset.mem_Icc]
  omega

theorem Entered.enter (h : Entered o g k s) {t : Nat} {n : Node} (ht : g.get? t = some n) (hfree : s.count t < o.limit) :
    Entered o g (k + 1) (s.setCount t (s.count t + 1)) := by
  refine ⟨h.graph, fun i => ?_, h.entries.trans_lt (Finset.sum_lt_sum (fun i _ => ?_) ⟨t, mem_icc ht, ?_⟩)⟩
  · rw [count_setCount]
    split
    · exact hfree
    · exact h.limit i
  · rw [count_setCount]
    split
    · rename_i hi
      rw [hi]
      exact Nat.le_succ _
    · exact le_rfl
  · rw [count_setCount, if_pos rfl]
    exact Nat.lt_succ_self _

theorem Entered.leave (h : Entered o g (k + 1) s) (t : Nat) : Entered o g k (s.setCount t (s.count t - 1)) := by
  refine ⟨h.graph, fun i => ?_, ?_⟩
  · rw [count_setCount]
    split
    · exact (Nat.sub_le _ _).trans (h.limit t)
    · exact h.limit i
  · have hone (i : Nat) : s.count i ≤ (s.setCount t (s.count t - 1)).count i + if i = t then 1 else 0 := by
      rw [count_setCount]
      split
      · rename_i hi
        rw [hi]
        omega
      · omega
    have hsum := Finset.sum_le_sum fun i (_ : i ∈ Finset.Icc 1 g.size) => hone i
    rw [Finset.sum_add_distrib, Finset.sum_ite_eq'] at hsum
    have hentries := h.entries
    split at hsum <;> omega

theorem Entered.mono {j : Nat} (h : Entered o g k s) (hj : j ≤ k) : Entered o g j s :=
  ⟨h.graph, h.limit, hj.trans h.entries⟩

/-- **Entering a target** is the same when sampling it is, with one entry more made. -/
theorem enter_same {t : Nat} {n : Node} (ht : g.get? t = some n)
    (hplace : Same (Entered o g (k + 1)) (descend t) (descend' t)) :
    Same (Entered o g k) (enter o descend t) (enter o descend' t) := by
  intro s h
  unfold enter
  split
  · exact ⟨rfl, h⟩
  · obtain ⟨heq, hkeep⟩ := hplace _ (h.enter ht (by omega))
    simp only [entered_apply, ← heq]
    exact ⟨trivial, hkeep.leave t⟩

theorem onGraph_same {x : GraphM α} (hx : Moves Graph.Retitled x) : Same (Entered o g k) (onGraph x) (onGraph x) :=
  fun s h => ⟨rfl, h.graph.trans (hx s.graph), h.limit, h.entries⟩

theorem same_congruence : Congruence g.Retitled fun {α} (x y : SampleM α) => Same (Entered o g k) x y where
  pure := .pure
  fail _ := fun _ h => ⟨rfl, h⟩
  bind := .bind
  graph hf := fun s h => hf s.graph h.graph s h
  attempt hx := fun s h => by
    obtain ⟨heq, hkeep⟩ := hx s h
    rw [attempt_state]
    exact ⟨by simp only [attempt, heq], hkeep⟩

theorem below_inlines {n : Node} (hg : g.Numbered) {id c : Nat} (hn : g.get? id = some n) (hk : n.kind ≠ .ref)
    (hc : Below g.Retitled n c) : Inlines g id c := by
  obtain ⟨h, hr, i, hi, m, hm, rfl | rfl⟩ := hc
  · exact ⟨n, hn, hk, hi⟩
  · rw [hr.numbered hg i m hm]
    exact ⟨n, hn, hk, hi⟩

theorem sole_some {n m : Node} {h : Graph} (hg : g.Numbered) (hr : g.Retitled h) (hm : h.sole n = .ok m) :
    ∃ m', g.get? m.id = some m' := by
  obtain ⟨m', hm', -⟩ := hr.before (Document.sole_get? (hr.numbered hg) hm)
  exact ⟨m', hm'⟩

/-- between two entries the nodes are all different, so there is one step more than there are nodes -/
theorem bareUpTo_place (hg : g.Numbered) (hcut : CutByReferences g) {out out' : Descend} {room : Nat}
    (hplace : ∀ depth, room ≤ depth → ∀ t, Same (Entered o g (k + 1)) (bareUpTo o out depth t) (bareUpTo o out' depth t))
    {depth : Nat} (hdepth : room + (g.size + 1) ≤ depth) (id : Nat) :
    Same (Entered o g k) (bareUpTo o out depth id) (bareUpTo o out' depth id) := by
  have hhooks (k : Nat) {depth c : Nat} (h : Same (Entered o g k) (bareUpTo o out depth c) (bareUpTo o out' depth c)) :
      Same (Entered o g k) (withHooks o c (bareUpTo o out depth c)) (withHooks o c (bareUpTo o out' depth c)) :=
    withHooks_congr same_congruence (onGraph_same (GraphM.node_retitles c)) (onGraph_same (GraphM.generated_retitles c)) h
  refine Graph.acyclic_induction hcut (fun a c h => h.isSome) (motive := fun steps id => ∀ depth, room + steps ≤ depth →
    Same (Entered o g k) (bareUpTo o out depth id) (bareUpTo o out' depth id)) ?_ id depth hdepth
  intro steps id ih depth hdepth s h
  obtain ⟨depth, rfl⟩ : ∃ d, depth = d + 1 := ⟨depth - 1, by omega⟩
  rw [bareUpTo_succ, bareUpTo_succ]
  cases hn : s.graph.get? id with
  | none =>
    have hnode : onGraph (GraphM.node id) s = (abort, s) := by simp only [onGraph, GraphM.node, hn]
    rw [Steps.bind_apply, Steps.bind_apply, hnode]
    exact ⟨rfl, h⟩
  | some m =>
    rw [Steps.bind_of_ok (onGraph_node hn), Steps.bind_of_ok (onGraph_node hn)]
    obtain ⟨n, hn', _, _, rfl⟩ := h.graph.before hn
    refine nodeValue_congr same_congruence o (fun _ _ _ h => ⟨rfl, h⟩) (fun hk c hc => ?_) (fun _ h hr t ht => ?_) s h
    · have hc := ih c (below_inlines hg hn' hk hc) depth (by omega)
      exact ⟨hhooks k hc, hc⟩
    · obtain ⟨m', hm'⟩ := sole_some hg hr ht
      exact enter_same hm' (hhooks (k + 1) (hplace depth (by omega) t.id))

/-- **The bound is not met.** With `k` entries made, each one that is left, and the path to the first of them, need one step
more than there are nodes. -/
theorem bareUpTo_same (hg : g.Numbered) (hcut : CutByReferences g) {out out' : Descend} {left depth : Nat}
    (hleft : k + left = o.limit * g.size) (hdepth : left * (g.size + 1) + (g.size + 1) ≤ depth) (id : Nat) :
    Same (Entered o g k) (bareUpTo o out depth id) (bareUpTo o out' depth id) := by
  induction left generalizing k depth id with
  | zero =>
    refine bareUpTo_place hg hcut (fun _ _ t s hs => ?_) hdepth id
    -- every target has been entered as often as it may be
    have := hs.le
    omega
  | succ left ih =>
    refine bareUpTo_place hg hcut (fun depth hle t => ?_) hdepth id
    rw [Nat.succ_mul] at hle
    exact ih (by omega) hle t

/-- at the start no entry has been made -/
theorem withHooks_same (hg : g.Numbered) (hcut : CutByReferences g) {out out' : Descend} {depth : Nat}
    (hdepth : maxNesting o g ≤ depth + 1) (id : Nat) :
    withHooks o id (bareUpTo o out depth id) { graph := g } = withHooks o id (bareUpTo o out' depth id) { graph := g } := by
  have hstart : Entered o g 0 { graph := g } := ⟨.refl g, fun _ => Nat.zero_le _, Nat.zero_le _⟩
  have hbound : o.limit * g.size * (g.size + 1) + (g.size + 1) ≤ depth := by
    rw [maxNesting, Nat.succ_mul] at hdepth
    omega
  exact (withHooks_congr same_congruence (onGraph_same (GraphM.node_retitles id))
    (onGraph_same (GraphM.generated_retitles id)) (bareUpTo_same hg hcut (Nat.zero_add _) hbound id) _ hstart).1

/-! ## Outcomes -/

/-- breaking off at a frozen node that a hook on sampling tries to change -/
def Frozen (g : Graph) (reason : Option String) : Prop :=
  ∃ id n, g.get? id = some n ∧ n.loaded = true ∧ (∃ h ∈ n.onGenerate, h.reaction = .rename ∨ h.reaction = .describe) ∧
    reason = some ("schema: node " ++ toString id ++ " is frozen")

/-- on such graphs the sampler gives a value or fails, or breaks off at a frozen node -/
def Settles (g : Graph) (x : SampleM α) : Prop :=
  ∀ s : State, g.Retitled s.graph → g.Retitled (x s).2.graph ∧ ∀ reason, (x s).1 = .error (.aborted reason) → Frozen g reason

theorem settles_bind {x : SampleM α} {f : α → SampleM β} (hx : Settles g x) (hf : ∀ a, Settles g (f a)) :
    Settles g (x >>= f) := by
  intro s h
  have hs := hx s h
  rw [Steps.bind_apply]
  rcases hr : x s with ⟨e | a, t⟩ <;> rw [hr] at hs
  · exact ⟨hs.1, fun reason he => hs.2 reason (congrArg Except.error (Except.error.inj he))⟩
  · exact hf a t hs.1

theorem settles_congruence : Congruence g.Retitled fun {α} (x _ : SampleM α) => Settles g x where
  pure _ := fun _ h => ⟨h, fun _ he => by cases he⟩
  fail _ := fun _ h => ⟨h, fun _ he => by cases he⟩
  bind := settles_bind
  graph hf := fun s h => hf s.graph h s h
  attempt {x _} hx := fun s h => by
    obtain ⟨hgraph, hreason⟩ := hx s h
    rw [attempt_state]
    refine ⟨hgraph, fun reason he => hreason reason ?_⟩
    unfold attempt at he
    split at he
    · cases he
    · cases he
    · rename_i hx
      rw [hx]
      exact congrArg Except.error (Except.error.inj he)

theorem node_settles {id : Nat} {n : Node} (hn : g.get? id = some n) : Settles g (onGraph (GraphM.node id)) := by
  intro s h
  obtain ⟨m, hm, -⟩ := h.some hn
  rw [onGraph_node hm]
  exact ⟨h, fun _ he => by cases he⟩

theorem generated_settles {id : Nat} {n : Node} (hn : g.get? id = some n) : Settles g (onGraph (GraphM.generated id)) := by
  intro s h
  refine ⟨h.trans (GraphM.generated_retitles id s.graph), fun reason he => ?_⟩
  obtain ⟨m, hm, _, _, rfl⟩ := h.some hn
  have hrun : (GraphM.generated id s.graph).1 = .error (.aborted reason) := he
  rw [GraphM.generated, Steps.bind_of_ok (GraphM.node_of_get? hm)] at hrun
  obtain ⟨hl, hhook, hreason⟩ := GraphM.runHooks_aborted hm hrun
  exact ⟨id, n, hn, hl, hhook, hreason⟩

theorem enter_settles {t : Nat} (h : Settles g (descend t)) : Settles g (enter o descend t) := by
  intro s hs
  unfold enter
  split
  · exact ⟨hs, fun _ he => by cases he⟩
  · rw [entered_apply]
    exact h (s.setCount t (s.count t + 1)) hs

theorem withHooks_settles {id : Nat} {n : Node} (hn : g.get? id = some n) {make : SampleM Value} (h : Settles g make) :
    Settles g (withHooks o id make) :=
  @withHooks_congr _ _ settles_congruence o id make make (node_settles hn) (generated_settles hn) h

/-- where a failure stands in the place of the bound -/
theorem bareUpTo_settles (hg : g.Numbered) (hmin : ∀ n ∈ g.nodes, 0 ≤ n.arrayOptions.minItems.getD 0) {out : Descend}
    (hout : ∀ id, Settles g (out id)) (depth : Nat) {id : Nat} {n : Node} (hn : g.get? id = some n) :
    Settles g (bareUpTo o out depth id) := by
  induction depth generalizing id n with
  | zero => exact hout id
  | succ depth ih =>
    intro s h
    obtain ⟨m, hm, _, _, rfl⟩ := h.some hn
    rw [bareUpTo_succ, Steps.bind_of_ok (onGraph_node hm)]
    refine @nodeValue_congr _ _ settles_congruence _ (bareUpTo o out depth) _ _ (bareUpTo o out depth) o
      (fun _ hneg => ?_) (fun hk c hc => ?_) (fun _ h hr t ht => ?_) s h
    · exact absurd (Graph.forall_nodes hmin hn) (not_le.2 hneg)
    · obtain ⟨u, hu, i, hi, m, hm, hci⟩ := hc
      obtain ⟨m', hm', -⟩ := hu.before hm
      obtain rfl : c = i := hci.elim (fun hc => hc) fun hc => hc.trans (hu.numbered hg i m hm)
      exact ⟨withHooks_settles hm' (ih hm'), ih hm'⟩
    · obtain ⟨m', hm'⟩ := sole_some hg hr ht
      exact enter_settles (withHooks_settles hm' (ih hm'))

/-! ## Main result -/

/-- what a run comes to: a nesting without end is a fault of the node -/
def concluded (n : Node) (r : Outcome Value) : Outcome Value :=
  match r with
  | .error (.failed f) =>
    if f.isTooDeep then failWith (.fault .unsupportedConstruct (n.site "recursive schema has no finite value"))
    else .error (.failed f)
  | r => r

theorem concluded_aborted {n : Node} {r : Outcome Value} {reason : Option String}
    (h : concluded n r = .error (.aborted reason)) : r = .error (.aborted reason) := by
  unfold concluded at h
  split at h
  · split at h <;> cases h
  · exact h

theorem value_eq {g₁ : Graph} {root : Nat} {n : Node} (hload : GraphM.load (some root) g = (.ok (), g₁))
    (hn : g₁.get? root = some n) (o : Options) : value o root g =
      (concluded n (withHooks o root (bareValue o (maxNesting o g₁) root) { graph := g₁ }).1,
        (withHooks o root (bareValue o (maxNesting o g₁) root) { graph := g₁ }).2.graph) := by
  unfold value
  rw [Steps.bind_of_ok hload, Steps.bind_of_ok (GraphM.node_of_get? hn)]
  rfl

/-- **Sampling ends.** In a loaded graph in which every circle passes through a reference and no list asks for less than
no items, for every node and every limit: whatever is sampled in the place of the bound on nesting, and wherever beyond the bound of
the model, the run is the same, so it does not come there; it gives a value or a failure, or it breaks off at
a frozen node that a hook on sampling tries to rename or to describe; and all counters stand at zero where it ends.
Every sample on the way leaves all counters as it found them, however it ends. -/
theorem value_ends {g₁ : Graph} (hg : g.Numbered) {root : Nat} (hload : GraphM.load (some root) g = (.ok (), g₁))
    (hcut : CutByReferences g₁) (hmin : ∀ n ∈ g₁.nodes, 0 ≤ n.arrayOptions.minItems.getD 0) (o : Options) :
    ∃ n r s, g₁.get? root = some n ∧ value o root g = (concluded n r, s.graph) ∧
      (∀ out depth, maxNesting o g₁ ≤ depth → withHooks o root (bareUpTo o out depth root) { graph := g₁ } = (r, s)) ∧
      (∀ reason, (value o root g).1 = .error (.aborted reason) → Frozen g₁ reason) ∧
      (∀ id, s.count id = 0) ∧ ∀ depth id, Unwinds (withHooks o id (bareValue o depth id)) := by
  obtain ⟨-, hroot⟩ := GraphM.load_walked hg hload
  obtain ⟨n, hn, -⟩ := Graph.isLoaded_iff.1 hroot
  have hnum : g₁.Numbered := by
    have := (GraphM.load_proceeds (some root) g).numbered hg
    rwa [hload] at this
  have hsame (out out' : Descend) (depth : Nat) (hdepth : maxNesting o g₁ ≤ depth) :
      withHooks o root (bareUpTo o out depth root) { graph := g₁ } =
        withHooks o root (bareUpTo o out' depth root) { graph := g₁ } :=
    withHooks_same hnum hcut (hdepth.trans (Nat.le_succ depth)) root
  rcases hrun : withHooks o root (bareValue o (maxNesting o g₁) root) { graph := g₁ } with ⟨r, s⟩
  have hany (out : Descend) (depth : Nat) (hdepth : maxNesting o g₁ ≤ depth) :
      withHooks o root (bareUpTo o out depth root) { graph := g₁ } = (r, s) := by
    obtain ⟨more, rfl⟩ := Nat.exists_eq_add_of_le hdepth
    rw [bareUpTo_add, hsame _ (fun _ => lift abort) _ le_rfl, ← bareValue_eq, hrun]
  have hvalue := value_eq hload hn o
  rw [hrun] at hvalue
  refine ⟨n, r, s, hn, hvalue, hany, fun reason hreason => ?_, fun id => ?_, sampled_unwinds o⟩
  · rw [hvalue] at hreason
    -- with a failure in the place of the bound nothing but the hooks breaks off
    have hsettles := withHooks_settles (o := o) hn (bareUpTo_settles (o := o) hnum hmin
      (fun _ => settles_congruence.fail (.leaf .tooDeep)) (maxNesting o g₁) hn) { graph := g₁ } (.refl g₁)
    rw [hany _ _ le_rfl] at hsettles
    exact hsettles.2 reason (concluded_aborted hreason)
  · have := sampled_unwinds o (maxNesting o g₁) root { graph := g₁ } id
    rwa [hrun] at this

/-- a list that may go on, with a tag and an entry that may be there -/
def listGraph : Graph :=
  { nodes := #[
      { id := 1, kind := .object, options := .object { keys := ["tags", "next"] }, children := [2, 4], loaded := true },
      { id := 2, kind := .array, options := .array { minItems := some 1 }, children := [3], loaded := true },
      { id := 3, kind := .boolean, loaded := true },
      { id := 4, kind := .nullable, children := [5], loaded := true },
      { id := 5, kind := .ref, children := [1], loaded := true }] }

theorem value_ends_list : listGraph.Numbered ∧ GraphM.load (some 1) listGraph = (.ok (), listGraph) ∧
    CutByReferences listGraph ∧ (∀ n ∈ listGraph.nodes, 0 ≤ n.arrayOptions.minItems.getD 0) ∧
    ∃ v s, (∀ id, s.count id = 0) ∧ ∀ out depth, maxNesting {} listGraph ≤ depth →
      withHooks {} 1 (bareUpTo {} out depth 1) { graph := listGraph } = (.ok v, s) := by
  have hnum : listGraph.Numbered := by decide +kernel
  have hload : GraphM.load (some 1) listGraph = (.ok (), listGraph) := GraphM.load_of_loaded hnum (by decide +kernel)
  have hmin : ∀ n ∈ listGraph.nodes, 0 ≤ n.arrayOptions.minItems.getD 0 := by decide +kernel
  have hdown : ∀ a ∈ List.range' 1 5, ∀ n ∈ listGraph.get? a, n.kind ≠ .ref → ∀ c ∈ n.children, 6 - c < 6 - a := by decide +kernel
  have hcut : CutByReferences listGraph := by
    apply Document.cutByReferences_of_rank (6 - ·)
    rintro a c ⟨n, hn, hk, hc⟩
    exact hdown a (Graph.get?_bounds hn) n hn hk c hc
  obtain ⟨n, r, s, hn, hvalue, hany, -, hzero, -⟩ := value_ends hnum hload hcut hmin {}
  have hok : (withHooks {} 1 (bareValue {} (maxNesting {} listGraph) 1) { graph := listGraph }).1.isOk = true := by
    decide +kernel
  rw [bareValue_eq, hany _ _ le_rfl] at hok
  cases r with
  | error e => cases hok
  | ok v => exact ⟨hnum, hload, hcut, hmin, v, s, hzero, hany⟩

/-- a text that a hook on sampling renames -/
def renamingGraph : Graph :=
  { nodes := #[{ id := 1, kind := .string, onGenerate := [{ reaction := .rename, argument := "x" }], loaded := true }] }

/-- **No value and no failure.** The node is loaded, so the hook that renames it breaks the run off. -/
theorem value_breaks_off : GraphM.load (some 1) renamingGraph = (.ok (), renamingGraph) ∧ CutByReferences renamingGraph ∧
    (∀ n ∈ renamingGraph.nodes, 0 ≤ n.arrayOptions.minItems.getD 0) ∧
    (value {} 1 renamingGraph).1 = abortWith "schema: node 1 is frozen" := by
  have hnum : renamingGraph.Numbered := by decide +kernel
  refine ⟨GraphM.load_of_loaded hnum (by decide +kernel), ?_, by decide +kernel, rfl⟩
  apply Document.cutByReferences_of_rank id
  rintro a c ⟨n, hn, -, hc⟩
  have hleaf : ∀ n ∈ renamingGraph.nodes, n.children = [] := by decide +kernel
  rw [Graph.forall_nodes hleaf hn] at hc
  cases hc

end Sample

end Schemata
