import Schemata.Document.Render
import Schemata.Proofs.Steps

/-!
What hooks report is read by nothing.

A graph keeps the reports of its hooks beside its nodes. Loading, rendering and exporting a graph give the same with
other reports in it, so a step whose only trace is a report has no trace in what is made of the graph later.
-/

namespace Schemata

namespace Graph

/-- the graph with other reports -/
def reporting (g : Graph) (es : List Event) : Graph := { g with events := es }

/-- the graphs differ in their reports at most -/
def Alike (g h : Graph) : Prop := ∃ es, h = g.reporting es

theorem Alike.refl (g : Graph) : Alike g g := ⟨g.events, rfl⟩

theorem Alike.trans {g h k : Graph} : Alike g h → Alike h k → Alike g k := by
  rintro ⟨_, rfl⟩ ⟨es, rfl⟩
  exact ⟨es, rfl⟩

section Reporting

variable (g : Graph) (es : List Event)

@[simp] theorem get?_reporting : (g.reporting es).get? = g.get? := rfl
@[simp] theorem size_reporting : (g.reporting es).size = g.size := rfl
@[simp] theorem sole_reporting : (g.reporting es).sole = g.sole := rfl
@[simp] theorem target?_reporting : (g.reporting es).target? = g.target? := rfl
@[simp] theorem isLoaded_reporting : (g.reporting es).isLoaded = g.isLoaded := rfl

@[simp] theorem chainFrom_reporting (acc : List Node) (fuel : Nat) (id : Option Nat) :
    (g.reporting es).chainFrom acc fuel id = g.chainFrom acc fuel id := by
  induction fuel generalizing acc id with
  | zero => rfl
  | succ fuel ih => simp only [chainFrom, get?_reporting, ih]

@[simp] theorem chain_reporting : (g.reporting es).chain = g.chain := by
  funext id
  simp [chain]

@[simp] theorem localChainFrom_reporting (acc : List Node) (fuel id : Nat) :
    (g.reporting es).localChainFrom acc fuel id = g.localChainFrom acc fuel id := by
  induction fuel generalizing acc id with
  | zero => rfl
  | succ fuel ih => simp only [localChainFrom, get?_reporting, ih]

@[simp] theorem localChain_reporting : (g.reporting es).localChain = g.localChain := by
  funext id
  simp [localChain]

@[simp] theorem unwrap_reporting : (g.reporting es).unwrap = g.unwrap := by
  funext id
  simp [unwrap]

@[simp] theorem isOptional_reporting : (g.reporting es).isOptional = g.isOptional := by
  funext id
  simp [isOptional, chainHas]

@[simp] theorem validator?_reporting : (g.reporting es).validator? = g.validator? := by
  funext id
  simp [validator?]

theorem modify_reporting (id : Nat) (f : Node → Node) : (g.reporting es).modify id f = (g.modify id f).reporting es := by
  unfold modify
  split <;> rfl

theorem giveHint_reporting (key : String) (seen : List Nat) (fuel id : Nat) :
    giveHint key seen fuel id (g.reporting es) = (giveHint key seen fuel id g).reporting es := by
  induction fuel generalizing g seen id with
  | zero => rfl
  | succ fuel ih =>
    simp only [giveHint, get?_reporting, modify_reporting]
    split
    · rfl
    · split
      · rfl
      · split
        · exact ih _ _ _
        · rfl

theorem giveHints_reporting (fields : List (String × Nat)) :
    (g.reporting es).giveHints fields = (g.giveHints fields).reporting es := by
  induction fields generalizing g with
  | nil => rfl
  | cons f rest ih => simp only [giveHints, size_reporting, giveHint_reporting, ih]

end Reporting

end Graph

/-! ## Rendering -/

namespace Document

open Graph

/-- the context with other reports in its graph -/
def Context.reporting (cx : Context) (es : List Event) : Context := { cx with graph := cx.graph.reporting es }

section Reporting

variable (cx : Context) (es : List Event)

@[simp] theorem Context.graph_reporting : (cx.reporting es).graph = cx.graph.reporting es := rfl
@[simp] theorem Context.options_reporting : (cx.reporting es).options = cx.options := rfl
@[simp] theorem Context.self_reporting : (cx.reporting es).self = cx.self := rfl

theorem constantIn_reporting (g : Graph) (prop : String) (fields : List (String × Nat)) :
    constantIn (g.reporting es) prop fields = constantIn g prop fields := by
  induction fields with
  | nil => rfl
  | cons f rest ih => simp only [constantIn, unwrap_reporting, ih]

theorem discriminatorValue_reporting (g : Graph) (variant : Nat) (prop : String) :
    discriminatorValue (g.reporting es) variant prop = discriminatorValue g variant prop := by
  simp only [discriminatorValue, unwrap_reporting, constantIn_reporting]

theorem discriminatorOf_reporting (n : Node) (prop : String) (i : Nat) (m : Dict String) (vs : List (Nat × Schema)) :
    discriminatorOf (cx.reporting es) n prop i m vs = discriminatorOf cx n prop i m vs := by
  induction vs generalizing i m with
  | nil => rfl
  | cons v rest ih =>
    simp only [discriminatorOf, ih, Context.graph_reporting, discriminatorValue_reporting]
    rfl

theorem requiredItems_reporting (g : Graph) : requiredItems (g.reporting es) = requiredItems g := by
  funext ids
  simp [requiredItems]

theorem renderAll_reporting (descend : Descend) (n : Node) (ids : List Nat) :
    renderAll (cx.reporting es) descend n ids = renderAll cx descend n ids := by
  induction ids with
  | nil => rfl
  | cons id ids ih => simp only [renderAll, ih, Context.graph_reporting, get?_reporting]

theorem renderFields_reporting (descend : Descend) (n : Node) (keys : List String) (ids : List Nat) :
    renderFields (cx.reporting es) descend n keys ids = renderFields cx descend n keys ids := by
  induction ids generalizing keys with
  | nil => cases keys <;> rfl
  | cons id ids ih =>
    cases keys with
    | nil => rfl
    | cons key keys =>
      simp only [renderFields, ih, Context.graph_reporting, get?_reporting, isOptional_reporting]

theorem define_reporting (descend : Descend) (id : Nat) : define (cx.reporting es) descend id = define cx descend id :=
  rfl

theorem renderNode_reporting (descend : Descend) (n : Node) :
    renderNode (cx.reporting es) descend n = renderNode cx descend n := by
  simp only [renderNode, renderFields_reporting, renderAll_reporting, renderSole, discriminatorOf_reporting,
    define_reporting, Context.graph_reporting, sole_reporting, requiredItems_reporting]
  rfl

theorem render_reporting (depth id : Nat) : render (cx.reporting es) depth id = render cx depth id := by
  induction depth generalizing id with
  | zero => rfl
  | succ depth ih =>
    have hd : render (cx.reporting es) depth = render cx depth := funext ih
    simp only [render, hd, Context.graph_reporting, Context.options_reporting, localChain_reporting, get?_reporting,
      renderNode_reporting, define_reporting]

theorem reach_reporting (g : Graph) (steps : Nat) (seen stack : List Nat) :
    reach (g.reporting es) steps seen stack = reach g steps seen stack := by
  induction steps generalizing seen stack with
  | zero => unfold reach; cases stack.dropWhile seen.contains <;> rfl
  | succ steps ih =>
    unfold reach
    cases stack.dropWhile seen.contains with
    | nil => rfl
    | cons id rest => exact ih _ _

theorem isReferenced_reporting (g : Graph) (root id : Nat) :
    isReferenced (g.reporting es) root id = isReferenced g root id := by
  simp only [isReferenced, size_reporting, reach_reporting, get?_reporting]

theorem rootIdentity_reporting (g : Graph) (root fuel : Nat) (widened : Bool) (self : List Nat) (id : Nat) :
    rootIdentity (g.reporting es) root fuel widened self id = rootIdentity g root fuel widened self id := by
  induction fuel generalizing widened self id with
  | zero => rfl
  | succ fuel ih =>
    simp only [rootIdentity, get?_reporting, ih, isReferenced_reporting]

theorem ofNode_reporting (g : Graph) (root : Nat) (r : Registry) (o : Options) :
    ofNode (g.reporting es) root r o = ofNode g root r o := by
  simp only [ofNode, size_reporting, rootIdentity_reporting, maxDepth]
  have h := fun (self : List Nat) (depth : Nat) =>
    render_reporting { graph := g, options := o, self } es depth root
  simp only [Context.reporting] at h
  simp only [h]

end Reporting

end Document

/-! ## Steps on graphs -/

namespace GraphM

open Graph Steps

variable {α β : Type}

/-- the step does not look at reports -/
abbrev Quiet (x : GraphM α) : Prop := Blind Alike x

theorem lift_quiet (o : Outcome α) : Quiet (lift o) := fun _ _ h => ⟨rfl, h⟩

theorem fail_quiet (f : Failure) : Quiet (fail f : GraphM α) := lift_quiet _

/-- a step that reads the graph, but no reports -/
theorem graph_quiet {k : Graph → GraphM β} (hk : ∀ g es, k (g.reporting es) = k g) (hq : ∀ g, Quiet (k g)) :
    Quiet (graph >>= k) := by
  rintro g _ ⟨es, rfl⟩
  change (k g g).1 = (k (g.reporting es) (g.reporting es)).1 ∧ Alike (k g g).2 (k (g.reporting es) (g.reporting es)).2
  rw [hk]
  exact hq g g _ ⟨es, rfl⟩

theorem node_quiet (id : Nat) : Quiet (node id) := by
  rintro g _ ⟨es, rfl⟩
  simp only [node, get?_reporting]
  split <;> exact ⟨rfl, es, rfl⟩

theorem update_quiet {f : Graph → Graph} (hf : ∀ g es, f (g.reporting es) = (f g).reporting es) : Quiet (update f) := by
  rintro g _ ⟨es, rfl⟩
  exact ⟨rfl, es, hf g es⟩

theorem modify_quiet (id : Nat) (f : Node → Node) : Quiet (update (·.modify id f)) :=
  update_quiet fun g es => modify_reporting g es id f

theorem report_quiet (e : Event) : Quiet (report e) := by
  rintro g _ ⟨es, rfl⟩
  exact ⟨rfl, es ++ [e], rfl⟩

theorem change_quiet (id : Nat) (f : Node → Node) : Quiet (change id f) := by
  refine Blind.bind (node_quiet id) fun n => ?_
  split
  · exact lift_quiet _
  · exact modify_quiet id f

theorem mapFailure_quiet {x : GraphM α} (h : Quiet x) (f : Failure → Failure) : Quiet (mapFailure x f) := by
  intro s t hst
  have := h s t hst
  exact ⟨congrArg (Outcome.mapFailure · f) this.1, this.2⟩

theorem react_quiet (id : Nat) (h : Hook) : Quiet (react id h) := by
  unfold react
  split
  · exact fail_quiet _
  · exact change_quiet _ _
  · exact change_quiet _ _
  · exact Blind.pure _

theorem runHooks_quiet (phase : String) (event : String → String → Event) (id : Nat) (hs : List Hook) :
    Quiet (runHooks phase event id hs) := by
  induction hs with
  | nil => exact Blind.pure _
  | cons h hs ih =>
    exact (node_quiet id).bind fun _ => (mapFailure_quiet (react_quiet id h) _).bind fun _ =>
      (node_quiet id).bind fun _ => (report_quiet _).bind fun _ => ih

theorem resolve_quiet (n : Node) : Quiet (resolve n) := by
  unfold resolve
  split
  · split
    · refine graph_quiet (fun g es => by simp only [target?_reporting]) fun g => ?_
      split
      · exact modify_quiet _ _
      · exact fail_quiet _
    · exact Blind.pure _
  · exact Blind.pure _

theorem loadOne_quiet (id : Nat) : Quiet (loadOne id) := by
  refine (node_quiet id).bind fun n => (resolve_quiet n).bind fun _ => (node_quiet id).bind fun n =>
    (runHooks_quiet _ _ _ _).bind fun _ => (node_quiet id).bind fun n => ?_
  dsimp only
  split
  · exact (update_quiet fun g es => giveHints_reporting g es _).bind fun _ => modify_quiet _ _
  · exact modify_quiet _ _

theorem loadFrom_quiet (steps : Nat) (stack : List Nat) : Quiet (loadFrom steps stack) := by
  induction steps generalizing stack with
  | zero => exact Blind.pure _
  | succ steps ih =>
    unfold loadFrom
    refine graph_quiet (fun g es => by simp only [isLoaded_reporting]) fun g => ?_
    split
    · exact Blind.pure _
    · refine (loadOne_quiet _).bind fun _ => (node_quiet _).bind fun n => ?_
      exact graph_quiet (fun g es => by simp only [get?_reporting, isLoaded_reporting]) fun g => ih _

theorem load_quiet (root : Option Nat) : Quiet (load root) := by
  refine graph_quiet (fun g es => by simp only [get?_reporting, size_reporting]) fun g => ?_
  split
  · exact fail_quiet _
  · exact loadFrom_quiet _ _

theorem runExportHooks_quiet (label : String) (x : Export) (hs : List ExportHook) :
    Quiet (runExportHooks label x hs) := by
  induction hs generalizing x with
  | nil => exact Blind.pure _
  | cons h hs ih =>
    unfold runExportHooks
    dsimp only
    split
    · exact (fail_quiet _).bind fun x => (report_quiet _).bind fun _ => ih x
    · exact (report_quiet _).bind fun _ => ih _
    · exact (report_quiet _).bind fun _ => ih _

theorem exported_quiet (id : Nat) (x : Export) : Quiet (exported id x) :=
  (node_quiet id).bind fun _ => runExportHooks_quiet _ _ _

end GraphM

end Schemata
