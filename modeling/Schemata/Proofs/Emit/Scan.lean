import Schemata.Emit.SchemaBackend
import Schemata.Proofs.Graph.Loading
import Schemata.Proofs.Graph.Reports

/-!
What the scan of schema documents does to a run.

An export fills the scope of its own document and lets its hooks report; nothing else of the run changes. `Spares`
says so for a whole input: the graph differs in reports at most, the shared registry stays, scopes are opened for
documents of the input only, and scopes that belong to other documents are not touched. In the other direction a
scan does not look at reports, so reports left behind have no effect on it.
-/

namespace Schemata

open Steps

/-! ## Exports -/

/-- the export once all hooks have run -/
def Export.after (x : Export) (hs : List ExportHook) : Export :=
  hs.foldl (fun x h => match h.reaction with
    | .set v => { x with attrs := x.attrs.insert h.argument v }
    | _ => x) x

/-- export hooks only report, and what they set is set by all of them in order -/
theorem GraphM.runExportHooks_spec (label : String) (x : Export) (hs : List ExportHook) (g : Graph) :
    g.Alike (runExportHooks label x hs g).2 ∧ ∀ y, (runExportHooks label x hs g).1 = .ok y → y = x.after hs := by
  induction hs generalizing x g with
  | nil => exact ⟨.refl g, fun y h => (Except.ok.inj h).symm⟩
  | cons h hs ih =>
    unfold runExportHooks
    cases hr : h.reaction with
    | fail => exact ⟨.refl g, fun y h => by cases h⟩
    | set v =>
      obtain ⟨hg, hy⟩ := ih { x with attrs := x.attrs.insert h.argument v } { g with events := g.events ++ [_] }
      exact ⟨Graph.Alike.trans ⟨_, rfl⟩ hg, fun y h => by simpa [Export.after, hr] using hy y h⟩
    | watch =>
      obtain ⟨hg, hy⟩ := ih x { g with events := g.events ++ [_] }
      exact ⟨Graph.Alike.trans ⟨_, rfl⟩ hg, fun y h => by simpa [Export.after, hr] using hy y h⟩

theorem GraphM.exported_spec (id : Nat) (x : Export) (g : Graph) :
    g.Alike (exported id x g).2 ∧ ∀ y, (exported id x g).1 = .ok y → ∃ n, g.get? id = some n ∧ y = x.after n.onExport := by
  unfold exported
  rw [bind_apply]
  cases h : g.get? id with
  | none =>
    simp only [node, h]
    exact ⟨.refl g, fun y h => by cases h⟩
  | some n =>
    simp only [node, h]
    obtain ⟨hg, hy⟩ := runExportHooks_spec n.label x n.onExport g
    exact ⟨hg, fun y h => ⟨n, rfl, hy y h⟩⟩

theorem Path.join_ne_empty {parts : List String} {p : String} (hp : p ∈ parts) (h : p ≠ "") : Path.join parts ≠ "" := by
  unfold Path.join
  have hne : (parts.filter (· ≠ "")).isEmpty = false := by
    rw [List.isEmpty_eq_false_iff_exists_mem]
    exact ⟨p, by simp [hp, h]⟩
  simp only [hne, Bool.false_eq_true, if_false, Path.clean]
  split
  · simp
  · split
    · simp
    · assumption

namespace SchemaBackend

/-- the export of a document, before its hooks -/
def proposal (b : SchemaBackend) (input name : String) : Export :=
  { target := Document.target, name, attrs := [(pathAttr, b.documentPath input name)] }

/-- the path that an export asks for -/
def pathOf (b : SchemaBackend) (input name : String) (x : Export) : String :=
  match x.attrs.get? pathAttr with
  | some p => if p = "" then b.documentPath input name else p
  | none => b.documentPath input name

/-- the path of the document of an export whose node has the given hooks -/
def pathAfter (b : SchemaBackend) (input name : String) (hs : List ExportHook) : String :=
  b.pathOf input name ((b.proposal input name).after hs)

/-- the paths of the documents of an input -/
def documentPaths (b : SchemaBackend) (g : Graph) (input : Input) : List String :=
  input.exports.filterMap fun e => (g.get? (e.node.getD 0)).map fun n => b.pathAfter input.path e.name n.onExport

theorem pathAfter_ne_empty (b : SchemaBackend) (input name : String) (hs : List ExportHook) :
    b.pathAfter input name hs ≠ "" := by
  have hproposed : b.documentPath input name ≠ "" :=
    Path.join_ne_empty (List.mem_cons_of_mem _ (List.mem_singleton.2 rfl)) (by simp)
  unfold pathAfter pathOf
  split
  · split
    · exact hproposed
    · assumption
  · exact hproposed

theorem documentPaths_later (b : SchemaBackend) {g h : Graph} (hl : g.Later h) (input : Input) :
    b.documentPaths h input = b.documentPaths g input := by
  unfold documentPaths
  congr 1
  funext e
  cases hn : g.get? (e.node.getD 0) with
  | none => rw [hl.none hn]
  | some n =>
    obtain ⟨m, hm, hnm⟩ := hl.some hn
    rw [hm, Option.map_some, Option.map_some, hnm.onExport]

end SchemaBackend

/-! ## Scopes -/

namespace Run

/-- the names of the open scopes -/
def scopeNames (r : Run) : List String := r.scopes.map (·.1)

/-- the runs differ in the reports of their graphs at most -/
def Alike (r s : Run) : Prop := ∃ g, r.graph.Alike g ∧ s = { r with graph := g }

theorem Alike.refl (r : Run) : Alike r r := ⟨r.graph, .refl _, rfl⟩

/-- a scope opened and given a registry -/
def put (r : Run) (scope : String) (reg : Registry) : Run := (r.openScope scope).setRegistry scope reg

/-- the registry that a step on the scope gets -/
def registryOf (r : Run) (scope : String) : Registry := ((r.openScope scope).registryFor scope).getD (r.openScope scope).shared

theorem registryFor_isSome (r : Run) {scope : String} (h : scope ≠ "") :
    (r.registryFor scope).isSome = true ↔ scope ∈ r.scopeNames := by
  simp [registryFor, if_neg h, scopeNames]

/-- the registry replaced, or a new scope behind the others -/
theorem put_eq (r : Run) {scope : String} (h : scope ≠ "") (reg : Registry) :
    r.put scope reg = { r with
      scopes := (if scope ∈ r.scopeNames then r.scopes else r.scopes ++ [(scope, reg)]).map fun e =>
        (e.1, if e.1 = scope then reg else e.2) } := by
  unfold put openScope
  by_cases hs : scope ∈ r.scopeNames
  · rw [if_pos ((registryFor_isSome r h).2 hs), if_pos hs, setRegistry, if_neg h]
  · rw [if_neg (mt (registryFor_isSome r h).1 hs), if_neg hs, setRegistry, if_neg h]
    simp

theorem put_scopeNames (r : Run) {scope : String} (h : scope ≠ "") (reg : Registry) :
    (r.put scope reg).scopeNames = if scope ∈ r.scopeNames then r.scopeNames else r.scopeNames ++ [scope] := by
  rw [put_eq r h]
  by_cases hs : scope ∈ r.scopeNames
  · simp only [if_pos hs]
    simp [scopeNames, Function.comp_def]
  · simp only [if_neg hs]
    simp [scopeNames, Function.comp_def]

/-- opening a scope again, or giving it another registry, changes nothing else -/
theorem put_put (r : Run) {scope : String} (h : scope ≠ "") (a b : Registry) :
    (r.put scope a).put scope b = r.put scope b := by
  have hin : scope ∈ (r.put scope a).scopeNames := by
    rw [put_scopeNames r h]
    split <;> simp_all
  rw [put_eq _ h, if_pos hin, put_eq r h, put_eq r h]
  have hlast (e : String × Registry) : (e.1, if e.1 = scope then b else if e.1 = scope then a else e.2) =
      (e.1, if e.1 = scope then b else e.2) := by
    split <;> rfl
  by_cases hs : scope ∈ r.scopeNames
  · simp only [if_pos hs, List.map_map, Function.comp_def, hlast]
  · simp only [if_neg hs, List.map_map, List.map_append, List.map_cons, List.map_nil, Function.comp_def, hlast, if_true]

/-- scopes that were open before stay as they are -/
theorem put_scopes (r : Run) {scope : String} (h : scope ≠ "") (reg : Registry) {old more : List (String × Registry)}
    (hr : r.scopes = old ++ more) (hold : scope ∉ old.map (·.1)) :
    ∃ more', (r.put scope reg).scopes = old ++ more' := by
  have hkeep : old.map (fun e => (e.1, if e.1 = scope then reg else e.2)) = old := by
    conv_rhs => rw [← List.map_id old]
    refine List.map_congr_left fun e he => ?_
    have hne : e.1 ≠ scope := fun h => hold (h ▸ List.mem_map_of_mem he)
    simp [hne]
  rw [put_eq r h]
  by_cases hs : scope ∈ r.scopeNames
  · exact ⟨_, by rw [if_pos hs, hr, List.map_append, hkeep]⟩
  · exact ⟨_, by rw [if_neg hs, hr, List.append_assoc, List.map_append, hkeep]⟩

end Run

namespace RunM

theorem onRegistry_apply {α : Type} (scope : String) (f : Registry → Outcome α × Registry) (r : Run) :
    onRegistry scope f r = ((f (r.registryOf scope)).1, r.put scope (f (r.registryOf scope)).2) := by
  unfold onRegistry registry Run.registryOf
  cases h : (r.openScope scope).registryFor scope <;>
    simp only [bind_apply, modify_apply, get_apply, h] <;> rfl

/-- steps that do nothing but fill one scope -/
def Fills (scope : String) (r s : Run) : Prop := s = r ∨ ∃ reg, s = r.put scope reg

theorem Fills.refl (scope : String) (r : Run) : Fills scope r r := .inl rfl

theorem Fills.trans {scope : String} (h : scope ≠ "") {r s t : Run} : Fills scope r s → Fills scope s t → Fills scope r t := by
  rintro (rfl | ⟨a, rfl⟩) (rfl | ⟨b, rfl⟩)
  · exact .refl _ _
  · exact .inr ⟨b, rfl⟩
  · exact .inr ⟨a, rfl⟩
  · exact .inr ⟨b, r.put_put h a b⟩

theorem onRegistry_fills {α : Type} (scope : String) (f : Registry → Outcome α × Registry) :
    Moves (Fills scope) (onRegistry scope f) := by
  intro r
  rw [onRegistry_apply]
  exact .inr ⟨_, rfl⟩

theorem declare_fills (scope : String) (id : Nat) (file hint : String) (explicit : Bool) :
    Moves (Fills scope) (declare scope id file hint explicit) := by
  intro r
  rw [declare, bind_apply, get_apply]
  exact onRegistry_fills scope _ r

end RunM

namespace SchemaBackend

/-- the files of an export whose document goes to a known path -/
def documentAt (b : SchemaBackend) (input : Input) (name : String) (id : Nat) (p : String) : RunM OutputFile := do
  RunM.declare p id p name true
  let g := (← get).graph
  let doc ← RunM.onRegistry p fun reg => Document.ofNode g id reg
    { dialect := b.dialect, schemaUri := b.schemaUri, strict := b.strict, fetcher := b.fetcher, path := p }
  let template ← RunM.lift doc.template
  let file : OutputFile := { path := p, scope := p, template, pretty := b.pretty }
  match g.validator? id with
  | none => return file
  | some n =>
    let v := n.validatorOptions
    if !b.validators || v.mode ≠ .source then return file
    match b.compiler with
    | none => RunM.fail (.fault .missingDependency (n.site "no validator compiler"))
    | some compile =>
      let vf ← RunM.lift (b.validatorFile compile input name p template doc.discriminator v)
      return { file with artifacts := [vf] }

theorem exportFile_eq (b : SchemaBackend) (input : Input) (name : String) (id : Nat) :
    b.exportFile input name id = RunM.onGraph (GraphM.exported id (b.proposal input.path name)) >>= fun x =>
      b.documentAt input name id (b.pathOf input.path name x) := rfl

theorem documentAt_fills (b : SchemaBackend) (input : Input) (name : String) (id : Nat) {p : String} (hp : p ≠ "") :
    Moves (RunM.Fills p) (b.documentAt input name id p) := by
  have hbind {α β : Type} {x : RunM α} {f : α → RunM β} :=
    Moves.bind (R := RunM.Fills p) (fun _ _ _ => RunM.Fills.trans hp) (x := x) (f := f)
  have hlift {α : Type} (o : Outcome α) : Moves (RunM.Fills p) (RunM.lift o) := RunM.Fills.refl p
  unfold documentAt
  refine hbind (RunM.declare_fills p id p name true) fun _ => hbind (RunM.Fills.refl p) fun s =>
    hbind (RunM.onRegistry_fills p _) fun doc => hbind (hlift _) fun t => ?_
  dsimp only
  split
  · exact RunM.Fills.refl p
  · split
    · exact RunM.Fills.refl p
    · split
      · exact RunM.Fills.refl p
      · exact hbind (hlift _) fun _ => RunM.Fills.refl p

/-- what the scan of one export does to a run: beyond reports it fills the scope of its document -/
theorem exportFile_effect (b : SchemaBackend) (input : Input) (name : String) (id : Nat) (r : Run) :
    ∃ g, r.graph.Alike g ∧
      ((b.exportFile input name id r).2 = { r with graph := g } ∨
        ∃ n, r.graph.get? id = some n ∧
          RunM.Fills (b.pathAfter input.path name n.onExport) { r with graph := g } (b.exportFile input name id r).2) := by
  have hx := GraphM.exported_spec id (b.proposal input.path name) r.graph
  revert hx
  rw [exportFile_eq, bind_apply]
  simp only [RunM.onGraph]
  rcases GraphM.exported id _ r.graph with ⟨_ | x, g⟩
  · exact fun hx => ⟨g, hx.1, .inl rfl⟩
  · intro hx
    obtain ⟨n, hn, rfl⟩ := hx.2 x rfl
    exact ⟨g, hx.1, .inr ⟨n, hn, b.documentAt_fills input name id (b.pathAfter_ne_empty _ _ _) _⟩⟩

/-! ## What a scan spares -/

/-- a step that fills scopes of the given names only, and leaves the first scopes alone -/
structure Spares (old : List (String × Registry)) (names : List String) (r s : Run) : Prop where
  graph : r.graph.Alike s.graph
  target : s.target = r.target
  naming : s.naming = r.naming
  shared : s.shared = r.shared
  scopes : ∀ more, r.scopes = old ++ more → ∃ more', s.scopes = old ++ more'
  names : ∀ p ∈ s.scopeNames, p ∈ r.scopeNames ∨ p ∈ names

variable {old : List (String × Registry)} {names : List String}

theorem Spares.refl (r : Run) : Spares old names r r := ⟨.refl _, rfl, rfl, rfl, fun more h => ⟨more, h⟩, fun _ => .inl⟩

theorem Spares.trans {r s t : Run} (h : Spares old names r s) (h' : Spares old names s t) : Spares old names r t where
  graph := h.graph.trans h'.graph
  target := h'.target.trans h.target
  naming := h'.naming.trans h.naming
  shared := h'.shared.trans h.shared
  scopes more hr := (h.scopes more hr).elim h'.scopes
  names p hp := (h'.names p hp).elim (h.names p) .inr

theorem spares_put {p : String} (hp : p ≠ "") (hn : p ∈ names) (hold : p ∉ old.map (·.1)) (r : Run) (reg : Registry) :
    Spares old names r (r.put p reg) where
  graph := by rw [r.put_eq hp]; exact .refl _
  target := by rw [r.put_eq hp]
  naming := by rw [r.put_eq hp]
  shared := by rw [r.put_eq hp]
  scopes _ hr := r.put_scopes hp reg hr hold
  names q hq := by
    rw [r.put_scopeNames hp] at hq
    split at hq
    · exact .inl hq
    · rcases List.mem_append.1 hq with h | h
      · exact .inl h
      · exact .inr (List.mem_singleton.1 h ▸ hn)

theorem exportFile_spares (b : SchemaBackend) (input : Input) (name : String) (id : Nat) (r : Run)
    (hn : ∀ n, r.graph.get? id = some n → b.pathAfter input.path name n.onExport ∈ names)
    (hold : ∀ p ∈ names, p ∉ old.map (·.1)) : Spares old names r (b.exportFile input name id r).2 := by
  obtain ⟨g, hg, h⟩ := b.exportFile_effect input name id r
  have hgraph : Spares old names r { r with graph := g } :=
    ⟨hg, rfl, rfl, rfl, fun more h => ⟨more, h⟩, fun _ => .inl⟩
  rcases h with h | ⟨n, hget, h | ⟨reg, h⟩⟩
  · rw [h]
    exact hgraph
  · rw [h]
    exact hgraph
  · rw [h]
    exact hgraph.trans (spares_put (b.pathAfter_ne_empty _ _ _) (hn n hget) (hold _ (hn n hget)) _ reg)

theorem scanExports_spares (b : SchemaBackend) (input : Input) (es : List NamedNode) (r : Run)
    (hn : ∀ e ∈ es, ∀ n, r.graph.get? (e.node.getD 0) = some n → b.pathAfter input.path e.name n.onExport ∈ names)
    (hold : ∀ p ∈ names, p ∉ old.map (·.1)) : Spares old names r (b.scanExports input es r).2 := by
  induction es generalizing r with
  | nil => exact .refl r
  | cons e es ih =>
    have hfirst := b.exportFile_spares input e.name (e.node.getD 0) r (hn e (List.mem_cons_self ..)) hold
    rw [scanExports, bind_apply]
    rcases hx : b.exportFile input e.name (e.node.getD 0) r with ⟨_ | f, s⟩
    · rw [hx] at hfirst
      exact hfirst
    · rw [hx] at hfirst
      obtain ⟨es', hes⟩ := hfirst.graph
      have hrest := ih s fun e he n hget => hn e (List.mem_cons_of_mem _ he) n (by rwa [hes] at hget)
      refine hfirst.trans ?_
      simp only [bind_apply]
      rcases hy : b.scanExports input es s with ⟨_ | fs, t⟩ <;> rw [hy] at hrest <;> exact hrest

/-- the scan of an input fills the scopes of its documents -/
theorem scan_spares (b : SchemaBackend) (input : Input) (r : Run)
    (hold : ∀ p ∈ b.documentPaths r.graph input, p ∉ old.map (·.1)) :
    Spares old (b.documentPaths r.graph input) r (b.toBackend.scan input r).2 := by
  refine b.scanExports_spares input input.exports r (fun e he n hn => ?_) hold
  exact List.mem_filterMap.2 ⟨e, he, by rw [hn, Option.map_some]⟩

end SchemaBackend

/-! ## Scans do not look at reports -/

namespace Run

theorem openScope_graph (r : Run) (scope : String) (g : Graph) :
    ({ r with graph := g } : Run).openScope scope = { r.openScope scope with graph := g } := by
  unfold openScope
  change (if (r.registryFor scope).isSome then _ else _) = _
  split <;> rfl

@[simp] theorem graph_put (r : Run) (scope : String) (reg : Registry) : (r.put scope reg).graph = r.graph := by
  unfold put openScope setRegistry
  split <;> split <;> rfl

theorem put_graph (r : Run) (scope : String) (reg : Registry) (g : Graph) :
    ({ r with graph := g } : Run).put scope reg = { r.put scope reg with graph := g } := by
  unfold put
  rw [openScope_graph]
  unfold setRegistry
  split <;> rfl

end Run

namespace RunM

variable {α β : Type}

/-- the step does not look at reports -/
abbrev Quiet (x : RunM α) : Prop := Blind Run.Alike x

theorem lift_quiet (o : Outcome α) : Quiet (lift o) := fun _ _ h => ⟨rfl, h⟩

theorem onGraph_quiet {x : GraphM α} (hx : GraphM.Quiet x) : Quiet (onGraph x) := by
  rintro r _ ⟨g, hg, rfl⟩
  have h := hx r.graph g hg
  exact ⟨h.1, _, h.2, rfl⟩

/-- a step that reads the run, but no reports -/
theorem get_quiet {k : Run → RunM β} (hk : ∀ r s, Run.Alike r s → k r = k s) (hq : ∀ r, Quiet (k r)) :
    Quiet (get >>= k) := by
  intro r s h
  rw [bind_apply, bind_apply]
  simp only [get_apply]
  rw [hk r s h]
  exact hq s r s h

theorem onRegistry_quiet (scope : String) (f : Registry → Outcome α × Registry) : Quiet (onRegistry scope f) := by
  rintro r _ ⟨g, hg, rfl⟩
  have hreg : ({ r with graph := g } : Run).registryOf scope = r.registryOf scope := by
    unfold Run.registryOf
    rw [Run.openScope_graph]
    rfl
  rw [onRegistry_apply, onRegistry_apply, hreg]
  exact ⟨rfl, g, by rwa [Run.graph_put], r.put_graph scope _ g⟩

theorem declare_quiet (scope : String) (id : Nat) (file hint : String) (explicit : Bool) :
    Quiet (declare scope id file hint explicit) := by
  refine get_quiet ?_ fun r => onRegistry_quiet _ _
  rintro r _ ⟨_, ⟨es, rfl⟩, rfl⟩
  rfl

/-- a step whose failure becomes its result -/
def attempt (x : RunM α) : RunM (Except Failure α) := fun r =>
  match x.run r with
  | (.ok a, r) => (.ok (.ok a), r)
  | (.error (.failed f), r) => (.ok (.error f), r)
  | (.error stop, r) => (.error stop, r)

theorem attempt_quiet {x : RunM α} (hx : Quiet x) : Quiet (attempt x) := by
  intro r s h
  obtain ⟨h₁, h₂⟩ := hx r s h
  unfold attempt ExceptT.run
  revert h₁ h₂
  rcases x r with ⟨o, r'⟩
  rcases x s with ⟨o', s'⟩
  rintro rfl h₂
  rcases o with (_ | _) | _ <;> exact ⟨rfl, h₂⟩

end RunM

namespace SchemaBackend

open RunM

theorem documentAt_quiet (b : SchemaBackend) (input : Input) (name : String) (id : Nat) (p : String) :
    RunM.Quiet (b.documentAt input name id p) := by
  refine (declare_quiet _ _ _ _ _).bind fun _ => get_quiet ?_ fun r => ?_
  · rintro r _ ⟨_, ⟨es, rfl⟩, rfl⟩
    simp only [Document.ofNode_reporting, Graph.validator?_reporting]
  · refine (onRegistry_quiet p _).bind fun doc => (lift_quiet _).bind fun t => ?_
    dsimp only
    split
    · exact Blind.pure _
    · split
      · exact Blind.pure _
      · split
        · exact lift_quiet _
        · exact (lift_quiet _).bind fun _ => Blind.pure _

theorem scan_quiet (b : SchemaBackend) (input : Input) : RunM.Quiet (b.toBackend.scan input) := by
  change RunM.Quiet (b.scanExports input input.exports)
  induction input.exports with
  | nil => exact Blind.pure _
  | cons e es ih =>
    have hfile : RunM.Quiet (b.exportFile input e.name (e.node.getD 0)) :=
      (onGraph_quiet (GraphM.exported_quiet _ _)).bind fun x => b.documentAt_quiet input e.name _ _
    exact hfile.bind fun f => ih.bind fun fs => Blind.pure _

end SchemaBackend

end Schemata
