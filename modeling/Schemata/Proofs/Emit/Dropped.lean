import Schemata.Emit.Pipeline
import Schemata.Proofs.Emit.Scan
import Schemata.Proofs.Registry.Names

/-!
What a failed input leaves behind.

An input is loaded before it is scanned. A failed scan is rolled back: the scopes it opened are dropped, and all it
leaves in the graph are reports of its hooks, which nothing reads. So the files of the other inputs are those of the
run that only loads the failed input (`emit_dropped`), and where its exports are frozen from the start, those of the
run without it. Loading itself is not undone: it may give a node the hint by which a later document names it
(`emit_keeps_hint`).

The rollback drops scopes but does not reach into those that were open before, so the result is about inputs with
documents of their own.
-/

namespace Schemata

open Steps

namespace Pipeline

open RunM

theorem loadExports_quiet (es : List NamedNode) : RunM.Quiet (loadExports es) := by
  induction es with
  | nil => exact Blind.pure _
  | cons e es ih =>
    unfold loadExports
    dsimp only
    split
    · exact (lift_quiet _).bind fun _ => ih
    · exact (onGraph_quiet (GraphM.load_quiet _)).bind fun _ => ih

theorem scan_quiet {b : Backend} (hb : ∀ i, RunM.Quiet (b.scan i)) (i : Input) : RunM.Quiet (scan b i) := by
  refine (loadExports_quiet _).bind fun _ => get_quiet ?_ fun r => ?_
  · rintro r _ ⟨g, hg, rfl⟩
    rfl
  · intro s t h
    have hst := hb i s t h
    dsimp only [ExceptT.run]
    generalize b.scan i s = x at hst ⊢
    generalize b.scan i t = y at hst ⊢
    obtain ⟨o, s'⟩ := x
    obtain ⟨o', t'⟩ := y
    obtain ⟨rfl, g, hg, rfl⟩ := hst
    rcases o with (_ | _) | _ <;> exact ⟨rfl, g, hg, rfl⟩

theorem scanAll_cons (b : Backend) (res : Result) (i : Input) (rest : List Input) :
    scanAll b res (i :: rest) = attempt (scan b i) >>= fun o =>
      match o with
      | .ok files => scanAll b res rest >>= fun q => pure ((i.path, files) :: q.1, q.2)
      | .error f => scanAll b (res.drop i.path f) rest := by
  rw [scanAll]
  refine congrArg₂ (· >>= ·) (funext fun r => ?_) (funext fun o => ?_)
  · unfold attempt
    rcases (scan b i).run r with ⟨(_ | _) | _, _⟩ <;> rfl
  · cases o <;> rfl

theorem scanAll_quiet {b : Backend} (hb : ∀ i, RunM.Quiet (b.scan i)) (res : Result) (inputs : List Input) :
    RunM.Quiet (scanAll b res inputs) := by
  induction inputs generalizing res with
  | nil => exact Blind.pure _
  | cons i rest ih =>
    rw [scanAll_cons]
    refine (attempt_quiet (scan_quiet hb i)).bind fun o => ?_
    cases o with
    | ok files => exact (ih res).bind fun q => Blind.pure _
    | error f => exact ih _

/-! ## Results of scans -/

/-- what two scans after each other give -/
def Result.append (a b : Result) : Result :=
  { files := a.files ++ b.files, dropped := a.dropped ++ b.dropped, failures := a.failures ++ b.failures }

/-- a scan adds to the result it starts from -/
theorem scanAll_from (b : Backend) (res : Result) (inputs : List Input) :
    scanAll b res inputs = (fun q => (q.1, res.append q.2)) <$> scanAll b {} inputs := by
  induction inputs generalizing res with
  | nil => simp [scanAll, Result.append]
  | cons i rest ih =>
    rw [scanAll_cons, scanAll_cons, map_bind]
    refine congrArg (attempt (scan b i) >>= ·) (funext fun o => ?_)
    cases o with
    | ok files => simp [ih res]
    | error f =>
      dsimp only
      rw [ih (res.drop i.path f), ih (Result.drop {} i.path f)]
      simp [Result.append, Result.drop]

theorem scanAll_append (b : Backend) (res : Result) (xs ys : List Input) :
    scanAll b res (xs ++ ys) = scanAll b res xs >>= fun p => scanAll b p.2 ys >>= fun q => pure (p.1 ++ q.1, q.2) := by
  induction xs generalizing res with
  | nil => simp [scanAll]
  | cons i rest ih =>
    rw [List.cons_append, scanAll_cons, scanAll_cons, bind_assoc]
    refine congrArg (attempt (scan b i) >>= ·) (funext fun o => ?_)
    cases o with
    | ok files => simp [ih]
    | error f => exact ih _

/-! ## Filling in -/

/-- files are filled in from the registries of a run, whatever else is in it -/
theorem resolveFiles_congr {run run' : Run} (h : run.registryFor = run'.registryFor) (format : Option Formatter)
    (fs : List OutputFile) : resolveFiles run format fs = resolveFiles run' format fs := by
  induction fs with
  | nil => rfl
  | cons f fs ih => simp only [resolveFiles, resolveFile, h, ih]

/-- the files come from the files before and the batches; failures do not matter -/
theorem resolveAll_files {run run' : Run} (h : run.registryFor = run'.registryFor) (format : Option Formatter)
    {res res' : Result} (hres : res.files = res'.files) (batches : List (String × List OutputFile)) :
    (resolveAll run format res batches).map Result.files = (resolveAll run' format res' batches).map Result.files := by
  induction batches generalizing res res' with
  | nil => simp [resolveAll, Except.map, hres]
  | cons batch rest ih =>
    simp only [resolveAll, resolveFiles_congr h]
    split
    · exact ih (by rw [hres])
    · exact ih hres
    · rfl

theorem finalize_registryFor {r s : Run} (h : r.Alike s) : r.finalize.registryFor = s.finalize.registryFor := by
  obtain ⟨g, -, rfl⟩ := h
  rfl

/-! ## Writing -/

section Writing

variable {σ : Type} (w : Writer σ)

/-- the outcomes agree in their files -/
def FilesAgree (x y : Outcome Result × σ) : Prop := x.1.map Result.files = y.1.map Result.files ∧ x.2 = y.2

theorem cleanAll_agree {a b : Result} (h : a.files = b.files) (done : List String) (fs : List OutputFile) (s : σ) :
    FilesAgree (cleanAll w a done fs s) (cleanAll w b done fs s) := by
  induction fs generalizing a b done s with
  | nil => exact ⟨congrArg Except.ok h, rfl⟩
  | cons f fs ih =>
    simp only [cleanAll]
    split
    · exact ih h _ _
    · rcases w.clean f.clean s with ⟨(_ | _) | _, t⟩
      · dsimp only
        exact ih (by exact h) _ _
      · exact ⟨rfl, rfl⟩
      · exact ih h _ _

theorem writeAll_agree {a b : Result} (h : a.files = b.files) (fs : List OutputFile) (s : σ) :
    FilesAgree (writeAll w a fs s) (writeAll w b fs s) := by
  induction fs generalizing a b s with
  | nil => exact ⟨congrArg Except.ok h, rfl⟩
  | cons f fs ih =>
    simp only [writeAll]
    rcases w.write f.path f.text s with ⟨(_ | _) | _, t⟩
    · dsimp only
      exact ih (by exact h) _
    · exact ⟨rfl, rfl⟩
    · exact ih (by simp [h]) _

/-- what is written depends on the files alone -/
theorem persist_agree {a b : Result} (h : a.files = b.files) (s : σ) : FilesAgree (persist w a s) (persist w b s) := by
  obtain ⟨hout, hstate⟩ := cleanAll_agree w (a := { a with files := [] }) (b := { b with files := [] }) rfl [] a.files s
  unfold persist
  rw [← h]
  revert hout hstate
  rcases cleanAll w { a with files := [] } [] a.files s with ⟨_ | r, t⟩ <;>
    rcases cleanAll w { b with files := [] } [] a.files s with ⟨_ | r', t'⟩ <;> rintro hout rfl
  · exact ⟨hout, rfl⟩
  · cases hout
  · cases hout
  · exact writeAll_agree w (Except.ok.inj hout) a.files t

end Writing

/-! ## Failed inputs -/

/-- the end of an emission, from how its scans ended -/
def finish (format : Option Formatter) :
    Outcome (List (String × List OutputFile) × Result) × Run → Outcome Result × Graph
  | (.ok (batches, res), run) => (resolveAll run.finalize format res batches, run.graph)
  | (.error stop, run) => (.error stop, run.graph)

/-- the scans of further inputs, behind files that are there already -/
def scanMore (b : Backend) (xs : List (String × List OutputFile)) (res : Result) (inputs : List Input) :
    RunM (List (String × List OutputFile) × Result) :=
  scanAll b res inputs >>= fun q => pure (xs ++ q.1, q.2)

theorem emit_eq (b : Backend) (naming : Naming) (format : Option Formatter) (inputs : List Input) (g : Graph) :
    emit b naming format inputs g = finish format (scanAll b {} inputs (Run.start g b.target naming)) := by
  unfold emit ExceptT.run
  rcases scanAll b {} inputs (Run.start g b.target naming) with ⟨_ | _, _⟩ <;> rfl

/-- emits the inputs around one that is only loaded, as far as it can be -/
def emitAround (b : Backend) (naming : Naming) (format : Option Formatter) (before : List Input) (i : Input)
    (after : List Input) : GraphM Result := fun g =>
  finish format <| (do
    let (xs, res) ← scanAll b {} before
    let _ ← attempt (loadExports i.exports)
    scanMore b xs res after : RunM _) (Run.start g b.target naming)

/-- the input fails when its turn comes -/
def FailsAfter (b : Backend) (naming : Naming) (g : Graph) (before : List Input) (i : Input) : Prop :=
  ∃ out r f r', scanAll b {} before (Run.start g b.target naming) = (.ok out, r) ∧ scan b i r = (.error (.failed f), r')

/-- does the input fail when its turn comes? -/
def failsAfter (b : Backend) (naming : Naming) (g : Graph) (before : List Input) (i : Input) : Bool :=
  match scanAll b {} before (Run.start g b.target naming) with
  | (.ok _, r) =>
    match scan b i r with
    | (.error (.failed _), _) => true
    | _ => false
  | _ => false

theorem failsAfter_iff (b : Backend) (naming : Naming) (g : Graph) (before : List Input) (i : Input) :
    failsAfter b naming g before i = true ↔ FailsAfter b naming g before i := by
  unfold failsAfter
  constructor
  · intro h
    split at h
    · rename_i out r hout
      split at h
      · rename_i f r' hscan
        exact ⟨out, r, f, r', hout, hscan⟩
      · cases h
    · cases h
  · rintro ⟨out, r, f, r', hout, hscan⟩
    rw [hout]
    dsimp only
    rw [hscan]

instance (b : Backend) (naming : Naming) (g : Graph) (before : List Input) (i : Input) :
    Decidable (FailsAfter b naming g before i) := decidable_of_iff _ (failsAfter_iff b naming g before i)

/-- the files that come out of an emission -/
def filesOf (x : Outcome Result × Graph) : Outcome (List OutputFile) := x.1.map Result.files

/-- the files that are left once an emission is written, and what was written -/
def written {σ : Type} (w : Writer σ) (x : Outcome Result × Graph) (s : σ) : Outcome (List OutputFile) × σ :=
  match x.1 with
  | .ok res => ((persist w res s).1.map Result.files, (persist w res s).2)
  | .error stop => (.error stop, s)

/-- two emissions give the same files, and every writer writes the same -/
def SameFiles (x y : Outcome Result × Graph) : Prop :=
  filesOf x = filesOf y ∧ ∀ (σ : Type) (w : Writer σ) (s : σ), written w x s = written w y s

theorem sameFiles_of_files {x y : Outcome Result × Graph} (h : filesOf x = filesOf y) : SameFiles x y := by
  refine ⟨h, fun σ w s => ?_⟩
  unfold written
  revert h
  rcases x with ⟨_ | a, g⟩ <;> rcases y with ⟨_ | b, g'⟩ <;> intro h
  · exact congrArg (fun o => (o, s)) h
  · cases h
  · cases h
  · have hagree := persist_agree w (Except.ok.inj h) s
    exact Prod.ext hagree.1 hagree.2

/-- Going back to the state in which a scan began: the scopes it opened are gone, the others were not touched. -/
theorem rollback_alike {names : List String} {r s : Run} (h : SchemaBackend.Spares r.scopes names r s) :
    r.Alike (s.rollback r.checkpoint) := by
  obtain ⟨more, hmore⟩ := h.scopes [] (List.append_nil _).symm
  refine ⟨s.graph, h.graph, ?_⟩
  have hshared : r.shared.discard r.shared.mark = r.shared := by
    simp [Registry.discard, Registry.mark]
  obtain ⟨g, target, naming, shared, scopes⟩ := s
  obtain rfl := h.target
  obtain rfl := h.naming
  obtain rfl := h.shared
  obtain rfl := hmore
  simp [Run.rollback, Run.checkpoint, hshared]

/-- loading takes the graph to a later state and changes nothing else -/
def Loads (r s : Run) : Prop := ∃ g, r.graph.Later g ∧ s = { r with graph := g }

theorem Loads.trans {r s t : Run} : Loads r s → Loads s t → Loads r t := by
  rintro ⟨g, hg, rfl⟩ ⟨g', hg', rfl⟩
  exact ⟨g', hg.trans hg', rfl⟩

theorem loadExports_loads (es : List NamedNode) : Moves Loads (loadExports es) := by
  induction es with
  | nil => exact fun r => ⟨r.graph, .refl _, rfl⟩
  | cons e es ih =>
    unfold loadExports
    dsimp only
    split
    · exact fun r => ⟨r.graph, .refl _, rfl⟩
    · rename_i id _
      exact Moves.bind (R := Loads) (fun _ _ _ => Loads.trans)
        (fun r => ⟨_, GraphM.load_proceeds (some id) r.graph, rfl⟩) fun _ => ih

/-- exports that are frozen are passed over -/
theorem loadExports_of_loaded {r : Run} (hg : r.graph.Numbered) {es : List NamedNode}
    (h : ∀ e ∈ es, ∃ id, e.node = some id ∧ r.graph.isLoaded id = true) : loadExports es r = (.ok (), r) := by
  induction es with
  | nil => rfl
  | cons e es ih =>
    obtain ⟨id, he, hload⟩ := h e (List.mem_cons_self ..)
    have hfirst : RunM.onGraph (GraphM.load (some id)) r = (.ok (), r) := by
      simp only [RunM.onGraph, GraphM.load_of_loaded hg hload]
    simp only [loadExports, he]
    rw [bind_of_ok hfirst]
    exact ih fun e he => h e (List.mem_cons_of_mem _ he)

/-- how a scan ends: in its load, like the backend's scan after the load, or rolled back -/
theorem scan_cases (b : Backend) (i : Input) (r : Run) :
    (∃ e s, loadExports i.exports r = (.error e, s) ∧ scan b i r = (.error e, s)) ∨
      ∃ s, loadExports i.exports r = (.ok (), s) ∧
        ((scan b i r = b.scan i s ∧ ∀ f, (b.scan i s).1 ≠ .error (.failed f)) ∨
          ∃ f t, b.scan i s = (.error (.failed f), t) ∧ scan b i r = (.error (.failed f), t.rollback s.checkpoint)) := by
  unfold scan
  rw [bind_apply]
  rcases loadExports i.exports r with ⟨e | _, s⟩
  · exact .inl ⟨e, s, rfl, rfl⟩
  · refine .inr ⟨s, rfl, ?_⟩
    simp only [bind_apply, get_apply, ExceptT.run]
    rcases b.scan i s with ⟨(f | _) | _, t⟩
    · exact .inr ⟨f, t, rfl, rfl⟩
    · exact .inl ⟨rfl, nofun⟩
    · exact .inl ⟨rfl, nofun⟩

/-- **A failed scan.** When no document of the input shares a scope with what was there, the run after the failure
is the run in which the exports of the input were loaded, but for reports. -/
theorem scan_failed (b : SchemaBackend) {i : Input} {r r' : Run} {f : Failure}
    (h : scan b.toBackend i r = (.error (.failed f), r'))
    (hpaths : ∀ p ∈ b.documentPaths r.graph i, p ∉ r.scopeNames) :
    ∃ o s, attempt (loadExports i.exports) r = (.ok o, s) ∧ s.Alike r' := by
  have hloads := loadExports_loads i.exports r
  unfold attempt ExceptT.run
  obtain ⟨e, s, hl, hs⟩ | ⟨s, hl, ⟨hs, hne⟩ | ⟨f', t, hx, hs⟩⟩ := scan_cases b.toBackend i r
  · rw [h] at hs
    cases hs
    rw [hl]
    exact ⟨_, _, rfl, .refl _⟩
  · exact absurd (congrArg Prod.fst (hs.symm.trans h)) (hne f)
  · rw [h] at hs
    cases hs
    rw [hl] at hloads ⊢
    obtain ⟨g, hg, rfl⟩ := hloads
    refine ⟨_, _, rfl, ?_⟩
    have hspares : SchemaBackend.Spares r.scopes _ _ _ :=
      b.scan_spares i { r with graph := g } (by rwa [b.documentPaths_later hg])
    rw [hx] at hspares
    exact rollback_alike hspares

/-! ## Scopes and documents -/

/-- the graph has become a later one, and scopes were opened for documents only -/
def Opens (b : SchemaBackend) (g : Graph) (inputs : List Input) (r s : Run) : Prop :=
  g.Later r.graph → g.Later s.graph ∧ ∀ p ∈ s.scopeNames, p ∈ r.scopeNames ∨ ∃ j ∈ inputs, p ∈ b.documentPaths g j

theorem Opens.trans {b : SchemaBackend} {g : Graph} {inputs : List Input} {r s t : Run} (h : Opens b g inputs r s)
    (h' : Opens b g inputs s t) : Opens b g inputs r t := by
  intro hr
  obtain ⟨hs, hp⟩ := h hr
  obtain ⟨ht, hq⟩ := h' hs
  exact ⟨ht, fun p hpt => (hq p hpt).elim (hp p) .inr⟩

theorem scan_opens (b : SchemaBackend) (g : Graph) {inputs : List Input} {i : Input} (hi : i ∈ inputs) :
    Moves (Opens b g inputs) (scan b.toBackend i) := by
  intro r hr
  have hloads := loadExports_loads i.exports r
  have hscan {s t : Run} (hl : Loads r s) (ht : (b.toBackend.scan i s).2 = t) :
      g.Later t.graph ∧ ∀ p ∈ t.scopeNames, p ∈ r.scopeNames ∨ ∃ j ∈ inputs, p ∈ b.documentPaths g j := by
    obtain ⟨g', hg', rfl⟩ := hl
    have hspares : SchemaBackend.Spares [] _ _ _ := b.scan_spares i { r with graph := g' } fun _ _ => List.not_mem_nil
    rw [ht] at hspares
    obtain ⟨es, hes⟩ := hspares.graph
    refine ⟨(hr.trans hg').trans ?_, fun p hp => (hspares.names p hp).imp_right fun h => ⟨i, hi, ?_⟩⟩
    · rw [hes]
      exact ⟨fun {_ n} h => ⟨n, h, .refl n⟩, fun h => h⟩
    · rwa [b.documentPaths_later (hr.trans hg')] at h
  obtain ⟨e, s, hl, hs⟩ | ⟨s, hl, ⟨hs, -⟩ | ⟨f, t, hx, hs⟩⟩ := scan_cases b.toBackend i r
  · rw [hs]
    rw [hl] at hloads
    obtain ⟨g', hg', rfl⟩ := hloads
    exact ⟨hr.trans hg', fun p => .inl⟩
  · rw [hs]
    rw [hl] at hloads
    exact hscan hloads rfl
  · rw [hs]
    rw [hl] at hloads
    obtain ⟨hg, hp⟩ := hscan hloads (congrArg Prod.snd hx)
    exact ⟨hg, fun p h => hp p (List.map_subset _ (List.take_subset _ _) h)⟩

/-- the scopes that are open after a scan of all inputs are those of documents -/
theorem scanAll_opens (b : SchemaBackend) (g : Graph) (res : Result) {inputs all : List Input} (hall : inputs ⊆ all) :
    Moves (Opens b g all) (scanAll b.toBackend res inputs) := by
  have hbind {α β : Type} {x : RunM α} {f : α → RunM β} :=
    Moves.bind (R := Opens b g all) (fun _ _ _ => Opens.trans) (x := x) (f := f)
  have hpure {α : Type} (a : α) : Moves (Opens b g all) (pure a : RunM α) := fun r hr => ⟨hr, fun _ => .inl⟩
  induction inputs generalizing res with
  | nil => exact hpure _
  | cons i rest ih =>
    have hrest := fun res => ih res fun j hj => hall (List.mem_cons_of_mem _ hj)
    rw [scanAll_cons]
    refine hbind (fun r => ?_) fun o => ?_
    · have h := scan_opens b g (hall (List.mem_cons_self ..)) r
      unfold attempt ExceptT.run
      rcases hx : scan b.toBackend i r with ⟨(_ | _) | _, s⟩ <;> rw [hx] at h <;> exact h
    · cases o with
      | ok files => exact hbind (hrest res) fun _ => hpure _
      | error f => exact hrest _

/-! ## Emission without the failed input -/

/-- reports and failures so far have no part in the files -/
theorem filesOf_scanMore (b : SchemaBackend) (format : Option Formatter) (xs : List (String × List OutputFile))
    {res res' : Result} (hres : res.files = res'.files) {r s : Run} (h : r.Alike s) (inputs : List Input) :
    filesOf (finish format (scanMore b.toBackend xs res inputs r)) =
      filesOf (finish format (scanMore b.toBackend xs res' inputs s)) := by
  obtain ⟨hout, hrun⟩ := scanAll_quiet b.scan_quiet {} inputs r s h
  revert hout hrun
  unfold scanMore
  rw [scanAll_from b.toBackend res, scanAll_from b.toBackend res']
  simp only [map_eq_pure_bind, bind_assoc, pure_bind]
  rw [bind_apply, bind_apply]
  rcases scanAll b.toBackend {} inputs r with ⟨o, r'⟩
  rcases scanAll b.toBackend {} inputs s with ⟨o', s'⟩
  rintro rfl hrun
  cases o with
  | error stop => rfl
  | ok q => exact resolveAll_files (finalize_registryFor hrun) format (by simp [Result.append, hres]) (xs ++ q.1)

/-- **A failed input leaves nothing but its load.** When an input fails at its turn and shares no document path with
the inputs before it, the files of the others are those of the run that only loads it; where its exports were frozen
from the start, they are those of the run without it. -/
theorem emit_dropped (b : SchemaBackend) (naming : Naming) (format : Option Formatter) (g : Graph)
    (before after : List Input) (i : Input) (hfail : FailsAfter b.toBackend naming g before i)
    (hpaths : ∀ j ∈ before, ∀ p ∈ b.documentPaths g j, p ∉ b.documentPaths g i) :
    SameFiles (emit b.toBackend naming format (before ++ i :: after) g)
        (emitAround b.toBackend naming format before i after g) ∧
      (g.Numbered → (∀ e ∈ i.exports, ∃ id, e.node = some id ∧ g.isLoaded id = true) →
        SameFiles (emit b.toBackend naming format (before ++ i :: after) g)
          (emit b.toBackend naming format (before ++ after) g)) := by
  obtain ⟨⟨xs, res⟩, r, f, r', hbefore, hscan⟩ := hfail
  -- the run at the turn of the input: a later graph, and scopes for documents of the inputs before
  have hopens := scanAll_opens b g {} (List.Subset.refl before) (Run.start g b.toBackend.target naming) (.refl g)
  rw [hbefore] at hopens
  obtain ⟨hlater, hnames⟩ := hopens
  have hfresh : ∀ p ∈ b.documentPaths r.graph i, p ∉ r.scopeNames := by
    intro p hp hin
    rw [b.documentPaths_later hlater] at hp
    obtain h | ⟨j, hj, hpj⟩ := hnames p hin
    · exact absurd h List.not_mem_nil
    · exact hpaths j hj p hpj hp
  obtain ⟨o, s, hload, halike⟩ := scan_failed b hscan hfresh
  -- the three runs, from the turn of the input on
  have hattempt : attempt (scan b.toBackend i) r = (.ok (.error f), r') := by
    unfold attempt ExceptT.run
    rw [hscan]
  have hemit : emit b.toBackend naming format (before ++ i :: after) g =
      finish format (scanMore b.toBackend xs (res.drop i.path f) after r') := by
    rw [emit_eq, scanAll_append, bind_of_ok hbefore, scanAll_cons, bind_assoc, bind_of_ok hattempt]
    rfl
  have haround : emitAround b.toBackend naming format before i after g =
      finish format (scanMore b.toBackend xs res after s) := by
    unfold emitAround
    rw [bind_of_ok hbefore]
    dsimp only
    rw [bind_of_ok hload]
  have hwithout : emit b.toBackend naming format (before ++ after) g =
      finish format (scanMore b.toBackend xs res after r) := by
    rw [emit_eq, scanAll_append, bind_of_ok hbefore]
    rfl
  have hdrop : res.files = (res.drop i.path f).files := rfl
  have hsame := filesOf_scanMore b format xs hdrop halike after
  refine ⟨sameFiles_of_files (by rw [hemit, haround, hsame]), fun hg hloaded => sameFiles_of_files ?_⟩
  have hskip := loadExports_of_loaded (hlater.numbered hg) fun e he =>
    (hloaded e he).imp fun id h => ⟨h.1, hlater.isLoaded h.2⟩
  obtain rfl : s = r := by
    unfold attempt ExceptT.run at hload
    rw [hskip] at hload
    exact (congrArg Prod.snd hload).symm
  rw [hemit, hwithout, hsame]

/-! ## Hints stay -/

section Ordered

open Registry (listedNames IsOrdered finalize_of_ordered)

/-- the run with final names -/
def listed (r : Run) : Run :=
  { r with
    shared := { r.shared with names := some (listedNames r.shared) }
    scopes := r.scopes.map fun (s, reg) => (s, { reg with names := some (listedNames reg) }) }

theorem run_finalize_of_ordered {r : Run} (h : IsOrdered r.shared ∧ ∀ e ∈ r.scopes, IsOrdered e.2) :
    r.finalize = listed r := by
  unfold Run.finalize listed
  rw [finalize_of_ordered h.1]
  congr 1
  refine List.map_congr_left fun e he => ?_
  exact congrArg (Prod.mk e.1) (finalize_of_ordered (h.2 e he))

/-- the names that files own -/
def symbolsOf (x : Outcome (List OutputFile)) : Option (List (List String)) := x.toOption.map (List.map OutputFile.symbols)

theorem symbolsOf_emit {b : Backend} {naming : Naming} {format : Option Formatter} {inputs : List Input} {g : Graph}
    (h : let r := (scanAll b {} inputs (Run.start g b.target naming)).2
      IsOrdered r.shared ∧ ∀ e ∈ r.scopes, IsOrdered e.2) :
    symbolsOf (filesOf (emit b naming format inputs g)) =
      match scanAll b {} inputs (Run.start g b.target naming) with
      | (.ok (batches, res), run) => symbolsOf ((resolveAll (listed run) format res batches).map Result.files)
      | (.error _, _) => none := by
  rw [emit_eq]
  revert h
  rcases scanAll b {} inputs (Run.start g b.target naming) with ⟨_ | ⟨batches, res⟩, run⟩ <;> intro h
  · rfl
  · simp only [finish, filesOf]
    rw [run_finalize_of_ordered h]

end Ordered

/-- a text that an object calls `name` beside a union without a discriminator value, and a list of that text -/
def hintGraph : Graph := { nodes := #[
  { id := 1, kind := .string, options := .text {} },
  { id := 2, kind := .union, options := .union "kind", children := [1] },
  { id := 3, kind := .object, options := .object { keys := ["name", "choice"] }, children := [1, 2] },
  { id := 4, kind := .ref, children := [1] },
  { id := 5, kind := .array, options := .array {}, children := [4] }] }

/-- fails on the union -/
def choiceInput : Input := ⟨"bad", [⟨"Bad", some 3⟩]⟩

def listInput : Input := ⟨"good", [⟨"Good", some 5⟩]⟩

def textInput : Input := ⟨"text", [⟨"Text", some 1⟩]⟩

/-- the graph with all nodes frozen -/
def frozenGraph : Graph := { hintGraph with nodes := hintGraph.nodes.map fun n => { n with loaded := true } }

theorem emit_dropped_choice :
    FailsAfter (SchemaBackend.toBackend {}) Naming.standard frozenGraph [textInput] choiceInput ∧ frozenGraph.Numbered ∧
      SameFiles
        (emit (SchemaBackend.toBackend {}) Naming.standard none ([textInput] ++ choiceInput :: [listInput]) frozenGraph)
        (emitAround (SchemaBackend.toBackend {}) Naming.standard none [textInput] choiceInput [listInput] frozenGraph) ∧
      SameFiles
        (emit (SchemaBackend.toBackend {}) Naming.standard none ([textInput] ++ choiceInput :: [listInput]) frozenGraph)
        (emit (SchemaBackend.toBackend {}) Naming.standard none ([textInput] ++ [listInput]) frozenGraph) := by
  have hfail : FailsAfter (SchemaBackend.toBackend {}) Naming.standard frozenGraph [textInput] choiceInput := by
    decide +kernel
  have hnumbered : frozenGraph.Numbered := by decide +kernel
  have hloaded : ∀ e ∈ choiceInput.exports, ∃ id, e.node = some id ∧ frozenGraph.isLoaded id = true := by
    intro e he
    obtain rfl := List.mem_singleton.1 he
    exact ⟨3, rfl, by decide +kernel⟩
  have h := emit_dropped {} Naming.standard none frozenGraph [textInput] [listInput] choiceInput hfail (by decide +kernel)
  exact ⟨hfail, hnumbered, h.1, h.2 hnumbered hloaded⟩

/-- **Loading is not undone.** The object of the failed input gives the text its name, by which the document of the
list then calls it; without that input the text has no name. -/
theorem emit_keeps_hint :
    FailsAfter (SchemaBackend.toBackend {}) Naming.standard hintGraph [] choiceInput ∧
      filesOf (emit (SchemaBackend.toBackend {}) Naming.standard none ([] ++ choiceInput :: [listInput]) hintGraph) ≠
        filesOf (emit (SchemaBackend.toBackend {}) Naming.standard none ([] ++ [listInput]) hintGraph) := by
  refine ⟨by decide +kernel, fun h => ?_⟩
  have hnamed : symbolsOf (filesOf (emit (SchemaBackend.toBackend {}) Naming.standard none
      ([] ++ choiceInput :: [listInput]) hintGraph)) = some [["Good", "name"]] := by
    rw [symbolsOf_emit (by decide +kernel)]
    decide +kernel
  have hunnamed : symbolsOf (filesOf (emit (SchemaBackend.toBackend {}) Naming.standard none
      ([] ++ [listInput]) hintGraph)) = some [["Good", "Schema2"]] := by
    rw [symbolsOf_emit (by decide +kernel)]
    decide +kernel
  rw [h, hunnamed] at hnamed
  exact absurd hnamed (by decide)

end Pipeline

end Schemata
