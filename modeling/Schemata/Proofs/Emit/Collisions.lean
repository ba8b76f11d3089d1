import Schemata.Emit.Pipeline
import Schemata.Proofs.Emit.Dropped
import Schemata.Proofs.Emit.Outputs

/-!
When two outputs go to one path.

The path of a document is made of the directory of its input and the stem of the export's name, and both lose
information: inputs of one directory share it, and names that differ in case or punctuation share a stem. Nothing
else can make paths clash: `emit_paths` says that the emitted files have paths of their own exactly when the surviving
exports have stems of their own within each directory.
-/

namespace Schemata

open Steps

namespace SchemaBackend

/-- what the paths of an export are made of: the directory of its input and the stem of its name -/
def slot (b : SchemaBackend) (input : Input) (e : NamedNode) : String × String := (b.baseDir input.path, fileStem e.name)

/-! ## Paths from slots -/

theorem baseDir_spell (b : SchemaBackend) (input : String) :
    ∃ rooted es, Path.Tidy rooted es.reverse ∧ b.baseDir input = Path.spell rooted es := by
  have hclean (p : String) : ∃ rooted es, Path.Tidy rooted es.reverse ∧ Path.clean p = Path.spell rooted es :=
    ⟨Path.isAbsolute p, Path.parts p, Path.parts_tidy p, Path.clean_eq p⟩
  unfold baseDir
  by_cases hb : b.dir = ""
  · rw [hb, Path.join_empty (Path.dir_ne input)]
    exact hclean _
  · rw [Path.join_pair hb (Path.dir_ne input)]
    exact hclean _

/-- the ends of file names tell documents from validators -/
theorem documentStem_ne (name : String) : fileStem name ++ ".schema.json" ≠ "validator.go" := by
  intro h
  have := congrArg (fun s : String => s.toList.getLast?) h
  rw [String.toList_append, List.getLast?_append, show ".schema.json".toList.getLast? = some 'n' by decide] at this
  exact absurd this (by simp)

theorem document_tidy {rooted : Bool} {es : List String} (h : Path.Tidy rooted es.reverse) (name : String) :
    Path.Tidy rooted (es ++ [fileStem name ++ ".schema.json"]).reverse := by
  rw [List.reverse_append]
  exact Path.tidy_append (by simpa using isName_documentStem name) h

theorem validator_tidy {rooted : Bool} {es : List String} (h : Path.Tidy rooted es.reverse) (name : String) :
    Path.Tidy rooted (es ++ [fileStem name ++ "_validator", "validator.go"]).reverse := by
  rw [List.reverse_append]
  refine Path.tidy_append ?_ h
  simp only [List.mem_reverse, List.mem_cons, List.not_mem_nil, or_false, forall_eq_or_imp, forall_eq]
  exact ⟨isName_validatorStem name, isName_validatorFile⟩

/-- **Documents.** They share a path when they share a slot. -/
theorem documentPath_inj (b : SchemaBackend) {i j : Input} {d e : NamedNode} :
    b.documentPath i.path d.name = b.documentPath j.path e.name ↔ b.slot i d = b.slot j e := by
  constructor
  · intro h
    obtain ⟨r₁, es₁, ht₁, hb₁⟩ := b.baseDir_spell i.path
    obtain ⟨r₂, es₂, ht₂, hb₂⟩ := b.baseDir_spell j.path
    rw [(b.paths_spell d.name ht₁ hb₁).document, (b.paths_spell e.name ht₂ hb₂).document] at h
    obtain ⟨rfl, hes⟩ := Path.spell_inj (document_tidy ht₁ d.name) (document_tidy ht₂ e.name) h
    obtain ⟨rfl, hlast⟩ := List.append_inj' hes (by simp only [List.length_cons, List.length_nil])
    have hstem := (String.append_left_inj _).1 (List.cons.inj hlast).1
    rw [slot, slot, hb₁, hb₂, hstem]
  · intro h
    obtain ⟨hdir, hstem⟩ := Prod.mk.inj h
    rw [documentPath, documentPath, hdir, hstem]

/-- **Validators.** They share a path when they share a slot. -/
theorem validatorPath_inj (b : SchemaBackend) {i j : Input} {d e : NamedNode}
    (h : b.validatorPath i.path d.name = b.validatorPath j.path e.name) : b.slot i d = b.slot j e := by
  obtain ⟨r₁, es₁, ht₁, hb₁⟩ := b.baseDir_spell i.path
  obtain ⟨r₂, es₂, ht₂, hb₂⟩ := b.baseDir_spell j.path
  rw [(b.paths_spell d.name ht₁ hb₁).validator, (b.paths_spell e.name ht₂ hb₂).validator] at h
  obtain ⟨rfl, hes⟩ := Path.spell_inj (validator_tidy ht₁ d.name) (validator_tidy ht₂ e.name) h
  obtain ⟨rfl, hlast⟩ := List.append_inj' hes (by simp only [List.length_cons, List.length_nil])
  have hstem := (String.append_left_inj _).1 (List.cons.inj hlast).1
  rw [slot, slot, hb₁, hb₂, hstem]

/-- a document and a validator never share a path -/
theorem documentPath_ne_validatorPath (b : SchemaBackend) (i j : Input) (d e : NamedNode) :
    b.documentPath i.path d.name ≠ b.validatorPath j.path e.name := by
  intro h
  obtain ⟨r₁, es₁, ht₁, hb₁⟩ := b.baseDir_spell i.path
  obtain ⟨r₂, es₂, ht₂, hb₂⟩ := b.baseDir_spell j.path
  rw [(b.paths_spell d.name ht₁ hb₁).document, (b.paths_spell e.name ht₂ hb₂).validator] at h
  obtain ⟨-, hes⟩ := Path.spell_inj (document_tidy ht₁ d.name) (validator_tidy ht₂ e.name) h
  have := congrArg List.getLast? hes
  rw [List.getLast?_append, List.getLast?_append] at this
  exact documentStem_ne d.name (Option.some.inj this)

/-! ## Paths of many exports -/

/-- the paths are those of the exports, in order, of each with or without a compiled validator -/
def Gives (b : SchemaBackend) : List (Input × NamedNode) → List String → Prop
  | [], ps => ps = []
  | (i, e) :: xs, ps => ∃ compiled rest, ps = (b.outlines i.path e.name compiled).map (·.1) ++ rest ∧ Gives b xs rest

theorem Gives.append {b : SchemaBackend} {xs ys : List (Input × NamedNode)} {ps qs : List String} (hx : b.Gives xs ps)
    (hy : b.Gives ys qs) : b.Gives (xs ++ ys) (ps ++ qs) := by
  induction xs generalizing ps with
  | nil =>
    obtain rfl : ps = [] := hx
    exact hy
  | cons x xs ih =>
    obtain ⟨compiled, rest, rfl, hrest⟩ := hx
    exact ⟨compiled, rest ++ qs, List.append_assoc .., ih hrest⟩

theorem Gives.document_mem {b : SchemaBackend} {xs : List (Input × NamedNode)} {ps : List String} (h : b.Gives xs ps)
    {x : Input × NamedNode} (hx : x ∈ xs) : b.documentPath x.1.path x.2.name ∈ ps := by
  induction xs generalizing ps with
  | nil => cases hx
  | cons y xs ih =>
    obtain ⟨compiled, rest, rfl, hrest⟩ := h
    rcases List.mem_cons.1 hx with rfl | hx
    · exact List.mem_append_left _ (List.mem_cons_self ..)
    · exact List.mem_append_right _ (ih hrest hx)

theorem Gives.of_mem {b : SchemaBackend} {xs : List (Input × NamedNode)} {ps : List String} (h : b.Gives xs ps) {p : String}
    (hp : p ∈ ps) : ∃ x ∈ xs, p = b.documentPath x.1.path x.2.name ∨ p = b.validatorPath x.1.path x.2.name := by
  induction xs generalizing ps with
  | nil =>
    obtain rfl : ps = [] := h
    cases hp
  | cons y xs ih =>
    obtain ⟨compiled, rest, rfl, hrest⟩ := h
    rcases List.mem_append.1 hp with hp | hp
    · obtain ⟨o, ho, rfl⟩ := List.mem_map.1 hp
      exact ⟨y, List.mem_cons_self .., (of_mem_outlines ho).imp (congrArg Prod.fst) (congrArg Prod.fst)⟩
    · obtain ⟨x, hx, hpx⟩ := ih hrest hp
      exact ⟨x, List.mem_cons_of_mem _ hx, hpx⟩

/-- **Paths of their own.** The paths of exports are distinct exactly when their slots are. -/
theorem Gives.nodup {b : SchemaBackend} {xs : List (Input × NamedNode)} {ps : List String} (h : b.Gives xs ps) :
    ps.Nodup ↔ (xs.map fun x => b.slot x.1 x.2).Nodup := by
  induction xs generalizing ps with
  | nil =>
    obtain rfl : ps = [] := h
    simp
  | cons x xs ih =>
    obtain ⟨compiled, rest, rfl, hrest⟩ := h
    have hblock : ((b.outlines x.1.path x.2.name compiled).map (·.1)).Nodup := by
      cases compiled with
      | false => exact List.nodup_singleton _
      | true => exact List.nodup_cons.2 ⟨by simpa using b.documentPath_ne_validatorPath x.1 x.1 x.2 x.2, List.nodup_singleton _⟩
    rw [List.nodup_append', List.map_cons, List.nodup_cons, ← ih hrest, and_iff_right hblock, and_comm]
    refine and_congr_left fun _ => ⟨fun hdisjoint hslot => ?_, fun hslot p hp hq => hslot ?_⟩
    · obtain ⟨y, hy, hxy⟩ := List.mem_map.1 hslot
      refine hdisjoint (List.mem_cons_self ..) ?_
      have := hrest.document_mem hy
      rwa [b.documentPath_inj.2 hxy] at this
    · obtain ⟨o, ho, rfl⟩ := List.mem_map.1 hp
      obtain ⟨y, hy, hpy⟩ := hrest.of_mem hq
      refine List.mem_map.2 ⟨y, hy, ?_⟩
      rcases of_mem_outlines ho with rfl | rfl <;> rcases hpy with hpy | hpy
      · exact (b.documentPath_inj.1 hpy).symm
      · exact absurd hpy (b.documentPath_ne_validatorPath _ _ _ _)
      · exact absurd hpy.symm (b.documentPath_ne_validatorPath _ _ _ _)
      · exact (b.validatorPath_inj hpy).symm

/-! ## Scans -/

theorem scanExports_gives {b : SchemaBackend} {input : Input} {es : List NamedNode} {r s : Run} {fs : List OutputFile}
    (hg : r.graph.Hookless) (h : b.scanExports input es r = (.ok fs, s)) :
    b.Gives (es.map fun e => (input, e)) ((OutputFile.flattenAll fs).map (·.path)) := by
  induction es generalizing r fs with
  | nil =>
    cases h
    rfl
  | cons e es ih =>
    rw [scanExports] at h
    obtain ⟨f, r₁, hf, h⟩ := bind_ok h
    obtain ⟨fs', r₂, hfs, h⟩ := bind_ok h
    cases h
    obtain ⟨compiled, houtlines⟩ := exportFile_outlines (fun n hn => hg _ n hn) hf
    have hgraph : r₁.graph.Hookless := by
      have := (b.exportFile_alike input e.name (e.node.getD 0) r).hookless hg
      rwa [hf] at this
    refine ⟨compiled, _, ?_, ih hgraph hfs⟩
    rw [OutputFile.flattenAll, List.map_append, ← houtlines, List.map_map]
    rfl

/-- the scan of an input leaves no hooks where there were none, however it ends -/
theorem scan_hookless (b : SchemaBackend) (i : Input) {r : Run} (hg : r.graph.Hookless) :
    (Pipeline.scan b.toBackend i r).2.graph.Hookless := by
  have hload := Pipeline.loadExports_loads i.exports r
  rcases Pipeline.scan_cases b.toBackend i r with ⟨e, s, hl, hs⟩ | ⟨s, hl, hs⟩ <;> rw [hl] at hload <;>
    obtain ⟨g, hlater, rfl⟩ := hload
  · rw [hs]
    exact hlater.hookless hg
  · have hscan := (b.scan_spares i { r with graph := g }
      (show ∀ p ∈ b.documentPaths g i, p ∉ ([] : List (String × Registry)).map (·.1) by simp)).graph.hookless (hlater.hookless hg)
    rcases hs with ⟨hs, -⟩ | ⟨f, t, ht, hs⟩
    · rw [hs]
      exact hscan
    · rw [ht] at hscan
      rw [hs]
      exact hscan

theorem scan_gives {b : SchemaBackend} {i : Input} {r s : Run} {fs : List OutputFile} (hg : r.graph.Hookless)
    (h : Pipeline.scan b.toBackend i r = (.ok fs, s)) :
    b.Gives (i.exports.map fun e => (i, e)) ((OutputFile.flattenAll fs).map (·.path)) := by
  have hload := Pipeline.loadExports_loads i.exports r
  rcases Pipeline.scan_cases b.toBackend i r with ⟨e, u, hl, hs⟩ | ⟨u, hl, ⟨hs, -⟩ | ⟨f, t, -, hs⟩⟩ <;> rw [h] at hs
  · cases hs
  · rw [hl] at hload
    obtain ⟨g, hlater, rfl⟩ := hload
    exact scanExports_gives (hlater.hookless hg) hs.symm
  · cases hs

end SchemaBackend

namespace Pipeline

open RunM SchemaBackend

/-- inputs are parted into those whose output is kept and those whose paths are among the dropped -/
structure Parted (inputs kept : List Input) (before after : List String) : Prop where
  sublist : kept.Sublist inputs
  dropped : ∃ lost, after = before ++ lost ∧ (kept.map (·.path) ++ lost).Perm (inputs.map (·.path))

theorem Parted.keep {i : Input} {inputs kept : List Input} {before after : List String} (h : Parted inputs kept before after) :
    Parted (i :: inputs) (i :: kept) before after := by
  obtain ⟨lost, hlost, hperm⟩ := h.dropped
  exact ⟨h.sublist.cons_cons i, lost, hlost, hperm.cons _⟩

theorem Parted.drop {i : Input} {inputs kept : List Input} {before after : List String}
    (h : Parted inputs kept (before ++ [i.path]) after) : Parted (i :: inputs) kept before after := by
  obtain ⟨lost, hlost, hperm⟩ := h.dropped
  exact ⟨h.sublist.cons i, i.path :: lost, by simp [hlost], List.perm_middle.trans (hperm.cons _)⟩

theorem Parted.trans {inputs some few : List Input} {before between after : List String} (h : Parted inputs some before between)
    (h' : Parted some few between after) : Parted inputs few before after := by
  obtain ⟨lost, hlost, hperm⟩ := h.dropped
  obtain ⟨lost', hlost', hperm'⟩ := h'.dropped
  refine ⟨h'.sublist.trans h.sublist, lost ++ lost', by rw [hlost', hlost, List.append_assoc], ?_⟩
  rw [← List.append_assoc]
  have hswap : (few.map (·.path) ++ lost ++ lost').Perm (few.map (·.path) ++ lost' ++ lost) := by
    simpa [List.append_assoc] using (show (lost ++ lost').Perm (lost' ++ lost) from List.perm_append_comm).append_left _
  exact hswap.trans ((hperm'.append_right lost).trans hperm)

/-- the files of a batch are those of the input -/
def Batch (b : SchemaBackend) (i : Input) (batch : String × List OutputFile) : Prop :=
  batch.1 = i.path ∧ b.Gives (i.exports.map fun e => (i, e)) ((OutputFile.flattenAll batch.2).map (·.path))

theorem scanAll_gives {b : SchemaBackend} {inputs : List Input} {r s : Run} {res out : Result}
    {batches : List (String × List OutputFile)} (hg : r.graph.Hookless)
    (h : scanAll b.toBackend res inputs r = (.ok (batches, out), s)) :
    ∃ kept, Parted inputs kept res.dropped out.dropped ∧ out.files = res.files ∧ List.Forall₂ (Batch b) kept batches := by
  induction inputs generalizing r res batches with
  | nil =>
    cases h
    exact ⟨[], ⟨.slnil, [], by simp, .refl _⟩, rfl, .nil⟩
  | cons i rest ih =>
    have hnext := scan_hookless b i hg
    rw [scanAll_cons] at h
    obtain ⟨o, r₁, hone, h⟩ := bind_ok h
    unfold attempt ExceptT.run at hone
    rcases hscan : scan b.toBackend i r with ⟨(f | _) | files, r₂⟩ <;> rw [hscan] at hone hnext <;> cases hone
    · obtain ⟨kept, hparted, hfiles, hbatches⟩ := ih hnext h
      exact ⟨kept, hparted.drop, hfiles, hbatches⟩
    · obtain ⟨⟨batches', out'⟩, r₃, hrest, h⟩ := bind_ok h
      cases h
      obtain ⟨kept, hparted, hfiles, hbatches⟩ := ih hnext hrest
      exact ⟨i :: kept, hparted.keep, hfiles, .cons ⟨rfl, scan_gives hg hscan⟩ hbatches⟩

theorem resolveFiles_paths {run : Run} {format : Option Formatter} {fs out : List OutputFile}
    (h : resolveFiles run format fs = .ok out) : out.map (·.path) = fs.map (·.path) := by
  induction fs generalizing out with
  | nil =>
    cases h
    rfl
  | cons f fs ih =>
    rw [resolveFiles] at h
    obtain ⟨f', hf, h⟩ := outcome_bind_ok h
    obtain ⟨fs', hfs, h⟩ := outcome_bind_ok h
    cases h
    have hpath : f'.path = f.path := by
      unfold resolveFile at hf
      split at hf
      · cases hf
      · obtain ⟨⟨text, resolved⟩, -, hf⟩ := outcome_bind_ok hf
        dsimp only at hf
        split at hf
        · split at hf
          all_goals
            obtain ⟨text', -, hf⟩ := outcome_bind_ok hf
            cases hf
            rfl
        · cases hf
          rfl
    rw [List.map_cons, List.map_cons, hpath, ih hfs]

theorem resolveAll_gives {b : SchemaBackend} {run : Run} {format : Option Formatter} {kept : List Input}
    {batches : List (String × List OutputFile)} (hbatches : List.Forall₂ (Batch b) kept batches) {res out : Result}
    (h : resolveAll run format res batches = .ok out) :
    ∃ left ps, Parted kept left res.dropped out.dropped ∧ out.files.map (·.path) = res.files.map (·.path) ++ ps ∧
      b.Gives (left.flatMap fun i => i.exports.map fun e => (i, e)) ps := by
  induction hbatches generalizing res with
  | nil =>
    cases h
    exact ⟨[], [], ⟨.slnil, [], by simp, .refl _⟩, by simp, rfl⟩
  | @cons i batch kept batches hbatch _ ih =>
    obtain ⟨path, files⟩ := batch
    obtain ⟨rfl, hgives⟩ := hbatch
    rw [resolveAll] at h
    split at h
    · rename_i fs hfs
      obtain ⟨left, ps, hparted, hfiles, hps⟩ := ih h
      have hpaths := resolveFiles_paths hfs
      refine ⟨i :: left, (OutputFile.flattenAll files).map (·.path) ++ ps, hparted.keep, ?_, ?_⟩
      · rw [hfiles, List.map_append, hpaths, List.append_assoc]
      · rw [List.flatMap_cons]
        exact hgives.append hps
    · obtain ⟨left, ps, hparted, hfiles, hps⟩ := ih h
      exact ⟨left, ps, hparted.drop, hfiles, hps⟩
    · cases h

/-- what is written comes from the files, in their order -/
theorem persist_files {σ : Type} (w : Writer σ) {res out : Result} {s t : σ} (h : persist w res s = (.ok out, t)) :
    out.files.Sublist res.files := by
  have hclean (fs : List OutputFile) : ∀ {r out : Result} {done : List String} {s t : σ},
      cleanAll w r done fs s = (.ok out, t) → out.files = r.files := by
    induction fs with
    | nil =>
      intro r out done s t h
      cases h
      rfl
    | cons f fs ih =>
      intro r out done s t h
      rw [cleanAll] at h
      split at h
      · exact ih h
      · split at h
        · exact ih h
        · have := ih h
          exact this
        · cases h
  have hwrite (fs : List OutputFile) : ∀ {r out : Result} {s t : σ}, writeAll w r fs s = (.ok out, t) →
      ∃ more, out.files = r.files ++ more ∧ more.Sublist fs := by
    induction fs with
    | nil =>
      intro r out s t h
      cases h
      exact ⟨[], by simp, .slnil⟩
    | cons f fs ih =>
      intro r out s t h
      rw [writeAll] at h
      split at h
      · obtain ⟨more, hmore, hsub⟩ := ih h
        exact ⟨f :: more, by simp [hmore], hsub.cons_cons f⟩
      · obtain ⟨more, hmore, hsub⟩ := ih h
        exact ⟨more, hmore, hsub.cons f⟩
      · cases h
  unfold persist at h
  split at h
  · rename_i r s' hr
    obtain ⟨more, hmore, hsub⟩ := hwrite _ h
    rw [hclean _ hr] at hmore
    rw [hmore]
    simpa using hsub
  · rename_i hr
    exact absurd h (hr _ _)

/-- **When no output overwrites another.** Let an emission over a graph without export hooks give a result. Its files are
those of the inputs that are kept, the others are reported as dropped; the files have paths of their own if and
only if no two exports of kept inputs share the directory of their input and the stem of their name. In that case what
a writer makes of the files has paths of its own as well. -/
theorem emit_paths (b : SchemaBackend) (naming : Naming) (format : Option Formatter) {g : Graph} (hg : g.Hookless)
    (inputs : List Input) {res : Result} {g' : Graph} (h : emit b.toBackend naming format inputs g = (.ok res, g')) :
    ∃ kept, Parted inputs kept [] res.dropped ∧
      ((res.files.map (·.path)).Nodup ↔ (kept.flatMap fun i => i.exports.map (b.slot i)).Nodup) ∧
      ((kept.flatMap fun i => i.exports.map (b.slot i)).Nodup →
        ∀ (σ : Type) (w : Writer σ) (s t : σ) (out : Result), persist w res s = (.ok out, t) → (out.files.map (·.path)).Nodup) := by
  rw [emit_eq] at h
  rcases hscan : scanAll b.toBackend {} inputs (Run.start g b.toBackend.target naming) with ⟨e | ⟨batches, mid⟩, run⟩ <;>
    rw [hscan] at h
  · cases h
  · have hresolve : resolveAll run.finalize format mid batches = .ok res := congrArg Prod.fst h
    obtain ⟨kept, hparted, hfiles, hbatches⟩ := scanAll_gives hg hscan
    obtain ⟨left, ps, hparted', hpaths, hgives⟩ := resolveAll_gives hbatches hresolve
    rw [hfiles] at hpaths
    have hiff : (res.files.map (·.path)).Nodup ↔ (left.flatMap fun i => i.exports.map (b.slot i)).Nodup := by
      have hps : res.files.map (·.path) = ps := hpaths
      rw [hps, hgives.nodup, List.map_flatMap]
      simp only [List.map_map, Function.comp_def]
    exact ⟨left, hparted.trans hparted', hiff, fun hslots σ w s t out hout =>
      (hiff.2 hslots).sublist ((persist_files w hout).map _)⟩

/-- the paths of what was emitted -/
def emittedPaths (x : Outcome Result × Graph) : Option (List String) := x.1.toOption.map fun r => r.files.map (·.path)

theorem exists_of_emittedPaths {x : Outcome Result × Graph} {ps : List String} (h : emittedPaths x = some ps) :
    ∃ res g, x = (.ok res, g) ∧ res.files.map (·.path) = ps := by
  obtain ⟨e | res, g⟩ := x
  · cases h
  · exact ⟨res, g, rfl, Option.some.inj h⟩

/-- a single text -/
def textGraph : Graph := { nodes := #[{ id := 1, kind := .string, options := .text {} }] }

theorem emit_paths_apart : ∃ res g' kept, textGraph.Hookless ∧
    emit (SchemaBackend.toBackend {}) Naming.standard none
      [⟨"a.ts", [⟨"Foo", some 1⟩, ⟨"Bar", some 1⟩]⟩, ⟨"lib/a.ts", [⟨"foo", some 1⟩]⟩] textGraph = (.ok res, g') ∧
    Parted [⟨"a.ts", [⟨"Foo", some 1⟩, ⟨"Bar", some 1⟩]⟩, ⟨"lib/a.ts", [⟨"foo", some 1⟩]⟩] kept [] res.dropped ∧
    (res.files.map (·.path)).Nodup := by
  have hooks : textGraph.Hookless := fun id n => Graph.forall_nodes (P := fun n => n.onExport = []) (by decide +kernel)
  obtain ⟨res, g', hemit, -⟩ := exists_of_emittedPaths (show emittedPaths (emit (SchemaBackend.toBackend {}) Naming.standard none
    [⟨"a.ts", [⟨"Foo", some 1⟩, ⟨"Bar", some 1⟩]⟩, ⟨"lib/a.ts", [⟨"foo", some 1⟩]⟩] textGraph) =
      some ["foo.schema.json", "bar.schema.json", "lib/foo.schema.json"] by decide +kernel)
  obtain ⟨kept, hparted, hiff, -⟩ := emit_paths {} Naming.standard none hooks _ hemit
  refine ⟨res, g', kept, hooks, hemit, hparted, hiff.2 ?_⟩
  exact List.Nodup.sublist (hparted.sublist.flatMap _) (by decide +kernel)

/-- **Names that differ in case share a document.** Two exports of one input, with names of their own, are both emitted to
one path. -/
theorem emit_shares_path : [("a.ts", "Foo"), ("a.ts", "foo")].Nodup ∧ textGraph.Hookless ∧ ∃ res g',
    emit (SchemaBackend.toBackend {}) Naming.standard none [⟨"a.ts", [⟨"Foo", some 1⟩, ⟨"foo", some 1⟩]⟩] textGraph =
      (.ok res, g') ∧ res.dropped = [] ∧ ¬ (res.files.map (·.path)).Nodup := by
  have hooks : textGraph.Hookless := fun id n => Graph.forall_nodes (P := fun n => n.onExport = []) (by decide +kernel)
  obtain ⟨res, g', hemit, hpaths⟩ := exists_of_emittedPaths (show emittedPaths (emit (SchemaBackend.toBackend {}) Naming.standard none
    [⟨"a.ts", [⟨"Foo", some 1⟩, ⟨"foo", some 1⟩]⟩] textGraph) = some ["foo.schema.json", "foo.schema.json"] by decide +kernel)
  have hdropped : (emit (SchemaBackend.toBackend {}) Naming.standard none [⟨"a.ts", [⟨"Foo", some 1⟩, ⟨"foo", some 1⟩]⟩]
      textGraph).1.toOption.map (·.dropped) = some [] := by decide +kernel
  rw [hemit] at hdropped
  exact ⟨by decide, hooks, res, g', hemit, Option.some.inj hdropped, by rw [hpaths]; decide⟩

end Pipeline

end Schemata
