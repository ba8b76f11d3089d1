import Schemata.Proofs.Emit.Scan
import Schemata.Proofs.Path

/-!
Which files an export gives.

Where no export hook asks for another path, an export gives its document, and beside it the validator if one is
compiled. Paths, kinds and directories to be cleaned are then known from the input's path and the name alone: file names
are stems of letters, digits and underscores with an end of their own, joined to the directory of the input.
-/

namespace Schemata

open Steps

namespace Text.CaseMap

theorem eq_of_toNat_ofNat {n : Nat} {c : Char} (hc : c.toNat ≠ 0) (h : Char.ofNat n = c) : n = c.toNat := by
  subst h
  unfold Char.ofNat at hc ⊢
  by_cases hn : n.isValidChar
  · rw [dif_pos hn]
    rfl
  · rw [dif_neg hn] at hc
    exact absurd rfl hc

theorem shift_ne_slash {spans : List Span} (h : ∀ s ∈ spans, 47 < (s.start : Int) + s.shift) {c : Char} (hc : c ≠ '/') :
    shift spans c ≠ '/' := by
  unfold shift
  split
  · rename_i s hs
    have hmem := List.mem_of_find?_eq_some hs
    have hholds := List.find?_some hs
    simp only [Span.holds, Bool.and_eq_true, decide_eq_true_eq] at hholds
    intro heq
    have hcode : ((c.toNat : Int) + s.shift).toNat = 47 := eq_of_toNat_ofNat (by decide) heq
    have := h s hmem
    omega
  · exact hc

theorem toLower_ne_slash {c : Char} (hc : c ≠ '/') : toLower c ≠ '/' := by
  unfold toLower
  split
  · rename_i hlt
    have hall : ∀ n < 128, Char.ofNat n ≠ '/' → (Char.ofNat n).toLower ≠ '/' := by decide +kernel
    have := hall c.toNat hlt
    rw [Char.ofNat_toNat] at this
    exact this hc
  · exact shift_ne_slash (by decide +kernel) hc

end Text.CaseMap

/-! ## File names -/

theorem slash_not_mem_trimBoth {p : Char → Bool} {cs : List Char} (h : '/' ∉ cs) : '/' ∉ Text.trimBoth p cs := by
  intro hmem
  rw [Text.trimBoth, List.mem_reverse] at hmem
  have := List.dropWhile_subset _ hmem
  rw [List.mem_reverse] at this
  exact h (List.dropWhile_subset _ this)

theorem slash_not_mem_fileStem (name : String) : '/' ∉ (fileStem name).toList := by
  unfold fileStem
  extract_lets step s
  have hstem : '/' ∉ s.toList := by
    have hfold : '/' ∉ (name.toList.foldl step ([], false)).1 := by
      refine List.foldlRecOn (motive := fun acc : List Char × Bool => '/' ∉ acc.1) _ _ (by simp) fun acc hacc c _ => ?_
      obtain ⟨out, afterLower⟩ := acc
      by_cases hupper : Text.Category.isUpper c = true
      · have hne : c ≠ '/' := by
          rintro rfl
          exact absurd hupper (by decide)
        have := Text.CaseMap.toLower_ne_slash hne
        simp only [step, if_pos hupper]
        cases afterLower <;> simpa using ⟨this.symm, hacc⟩
      · by_cases hletter : (Text.Category.isLetter c || Text.Category.isDecimalDigit c) = true
        · have hne : c ≠ '/' := by
            rintro rfl
            exact absurd hletter (by decide)
          simp only [step, if_neg hupper, if_pos hletter]
          simpa using ⟨hne.symm, hacc⟩
        · simp only [step, if_neg hupper, if_neg hletter]
          split
          · exact hacc
          · simpa using hacc
    simpa [s, Text.trimChars] using slash_not_mem_trimBoth (by simpa using hfold)
  split
  · decide
  · exact hstem

theorem isName_fileStem (name : String) {suffix : String} (hlong : 2 < suffix.length) (hs : '/' ∉ suffix.toList) :
    Path.IsName (fileStem name ++ suffix) := by
  have hlen : 2 < (fileStem name ++ suffix).length := by
    rw [String.length_append]
    omega
  refine Path.isName_iff.2 ⟨?_, ?_, ?_, ?_⟩
  · intro h
    rw [h] at hlen
    exact absurd hlen (by decide)
  · intro h
    rw [h] at hlen
    exact absurd hlen (by decide)
  · intro h
    rw [h] at hlen
    exact absurd hlen (by decide)
  · rw [String.toList_append, List.mem_append, not_or]
    exact ⟨slash_not_mem_fileStem name, hs⟩

/-! ## Exports without hooks -/

/-- no node has export hooks -/
def Graph.Hookless (g : Graph) : Prop := ∀ id n, g.get? id = some n → n.onExport = []

theorem Graph.Later.hookless {g h : Graph} (hl : g.Later h) (hg : g.Hookless) : h.Hookless := by
  intro id n hn
  cases hold : g.get? id with
  | none => rw [hl.none hold] at hn; cases hn
  | some m =>
    obtain ⟨n', hn', hb⟩ := hl.some hold
    rw [Option.some.inj (hn.symm.trans hn'), hb.onExport]
    exact hg id m hold

theorem Graph.Alike.hookless {g h : Graph} (ha : g.Alike h) (hg : g.Hookless) : h.Hookless := by
  obtain ⟨es, rfl⟩ := ha
  exact hg

namespace SchemaBackend

/-- the path of the compiled validator of an export -/
def validatorPath (b : SchemaBackend) (input name : String) : String :=
  Path.join [b.validatorDir input name, "validator.go"]

theorem isName_documentStem (name : String) : Path.IsName (fileStem name ++ ".schema.json") :=
  isName_fileStem name (by decide) (by decide)

theorem isName_validatorStem (name : String) : Path.IsName (fileStem name ++ "_validator") :=
  isName_fileStem name (by decide) (by decide)

theorem isName_validatorFile : Path.IsName "validator.go" := Path.isName_iff.2 (by decide)

/-- the paths of an export, as they are spelled below the directory of its input -/
structure Spelled (b : SchemaBackend) (input name : String) (rooted : Bool) (es : List String) : Prop where
  document : b.documentPath input name = Path.spell rooted (es ++ [fileStem name ++ ".schema.json"])
  validatorDir : b.validatorDir input name = Path.spell rooted (es ++ [fileStem name ++ "_validator"])
  validator : b.validatorPath input name = Path.spell rooted (es ++ [fileStem name ++ "_validator", "validator.go"])

theorem paths_spell (b : SchemaBackend) {input : String} (name : String) {rooted : Bool} {es : List String}
    (h : Path.Tidy rooted es.reverse) (hbase : b.baseDir input = Path.spell rooted es) : Spelled b input name rooted es := by
  have hjoin {fs : List String} {e : String} (hfs : Path.Tidy rooted fs.reverse) (he : Path.IsName e) :
      Path.join [Path.spell rooted fs, e] = Path.spell rooted (fs ++ [e]) := by
    have := Path.join_names hfs (show ∀ x ∈ [e], Path.IsName x by simpa using he)
    rwa [Path.spell_false (by simp) (by simpa using he.1), String.intercalate_singleton] at this
  have hdir : b.validatorDir input name = Path.spell rooted (es ++ [fileStem name ++ "_validator"]) := by
    rw [SchemaBackend.validatorDir, hbase, hjoin h (isName_validatorStem name)]
  refine ⟨?_, hdir, ?_⟩
  · rw [documentPath, hbase, hjoin h (isName_documentStem name)]
  · have htidy : Path.Tidy rooted (es ++ [fileStem name ++ "_validator"]).reverse := by
      rw [List.reverse_append]
      exact Path.tidy_append (by simpa using isName_validatorStem name) h
    rw [validatorPath, hdir, hjoin htidy isName_validatorFile, List.append_assoc]
    rfl

/-- where a file goes, what it is and what is cleaned for it -/
def outline (f : OutputFile) : String × FileKind × String := (f.path, f.kind, f.clean)

/-- the outlines of the files of an export, with or without a compiled validator -/
def outlines (b : SchemaBackend) (input name : String) (compiled : Bool) : List (String × FileKind × String) :=
  (b.documentPath input name, .schema, "") ::
    (if compiled then [(b.validatorPath input name, .validator, b.validatorDir input name)] else [])

theorem outline_eq_iff {f : OutputFile} {path clean : String} {kind : FileKind} :
    outline f = (path, kind, clean) ↔ f.path = path ∧ f.kind = kind ∧ f.clean = clean := by
  simp [outline]

theorem of_mem_outlines {b : SchemaBackend} {input name : String} {compiled : Bool} {x : String × FileKind × String}
    (h : x ∈ b.outlines input name compiled) :
    x = (b.documentPath input name, .schema, "") ∨
      x = (b.validatorPath input name, .validator, b.validatorDir input name) := by
  unfold outlines at h
  cases compiled with
  | false => exact .inl (List.mem_singleton.1 h)
  | true => exact (List.mem_cons.1 h).imp_right List.mem_singleton.1

theorem flatten_single (f : OutputFile) (h : f.artifacts = []) : f.flatten = [f] := by
  obtain ⟨path, kind, scope, template, pretty, text, resolved, symbols, deps, clean, artifacts⟩ := f
  obtain rfl : artifacts = [] := h
  simp [OutputFile.flatten, OutputFile.flattenAll]

theorem validatorFile_outline {b : SchemaBackend} {compile : Compiler} {input : Input} {name docPath template : String}
    {discriminator : Bool} {v : ValidatorOptions} {f : OutputFile}
    (h : b.validatorFile compile input name docPath template discriminator v = .ok f) :
    outline f = (b.validatorPath input.path name, .validator, b.validatorDir input.path name) ∧ f.artifacts = [] := by
  have hfold (loads : List String) (f : OutputFile) :
      outline (loads.foldl (fun f d => f.addDep d .value) f) = outline f ∧
        (loads.foldl (fun f d => f.addDep d .value) f).artifacts = f.artifacts := by
    induction loads generalizing f with
    | nil => exact ⟨rfl, rfl⟩
    | cons d loads ih => exact ih (f.addDep d .value)
  unfold validatorFile at h
  obtain ⟨compiled, -, h⟩ := outcome_bind_ok h
  obtain ⟨⟨source, loads⟩, -, h⟩ := outcome_bind_ok h
  cases h
  obtain ⟨h₁, h₂⟩ := hfold loads _
  exact ⟨h₁, h₂⟩

/-- the files of an export whose document goes to a known path -/
theorem documentAt_outlines {b : SchemaBackend} {input : Input} {name : String} {id : Nat} {r s : Run} {f : OutputFile}
    (h : b.documentAt input name id (b.documentPath input.path name) r = (.ok f, s)) :
    ∃ compiled, f.flatten.map outline = b.outlines input.path name compiled := by
  unfold documentAt at h
  obtain ⟨⟨⟩, r₁, -, h⟩ := bind_ok h
  obtain ⟨r', r₂, hget, h⟩ := bind_ok h
  obtain ⟨doc, r₃, -, h⟩ := bind_ok h
  obtain ⟨template, r₄, -, h⟩ := bind_ok h
  simp only [bind_pure_comp] at h
  cases hv : r'.graph.validator? id with
  | none =>
    rw [hv] at h
    cases h
    exact ⟨false, by rw [flatten_single _ rfl]; rfl⟩
  | some n =>
    rw [hv] at h
    dsimp only at h
    split at h
    · cases h
      exact ⟨false, by rw [flatten_single _ rfl]; rfl⟩
    · cases hc : b.compiler with
      | none =>
        rw [hc] at h
        cases h
      | some compile =>
        rw [hc] at h
        obtain ⟨vf, r₅, hvf, h⟩ := bind_ok h
        cases h
        obtain ⟨houtline, hartifacts⟩ := validatorFile_outline (congrArg Prod.fst hvf)
        refine ⟨true, ?_⟩
        simp only [OutputFile.flatten, OutputFile.flattenAll, List.append_nil, flatten_single _ hartifacts, List.map_cons,
          List.map_nil, houtline]
        rfl

/-- **The files of an export without hooks.** -/
theorem exportFile_outlines {b : SchemaBackend} {input : Input} {name : String} {id : Nat} {r s : Run} {f : OutputFile}
    (hooks : ∀ n, r.graph.get? id = some n → n.onExport = []) (h : b.exportFile input name id r = (.ok f, s)) :
    ∃ compiled, f.flatten.map outline = b.outlines input.path name compiled := by
  rw [exportFile_eq] at h
  obtain ⟨x, r₁, hx, h⟩ := bind_ok h
  obtain ⟨n, hn, rfl⟩ := (GraphM.exported_spec id (b.proposal input.path name) r.graph).2 x (congrArg Prod.fst hx)
  have hpath : b.pathOf input.path name ((b.proposal input.path name).after n.onExport) = b.documentPath input.path name := by
    have hget : (b.proposal input.path name).attrs.get? pathAttr = some (b.documentPath input.path name) := by
      simp [proposal, Dict.get?]
    rw [hooks n hn]
    simp only [Export.after, List.foldl_nil, pathOf, hget]
    split <;> rfl
  rw [hpath] at h
  exact documentAt_outlines h

/-- an export changes the graph by reports of hooks at most -/
theorem exportFile_alike (b : SchemaBackend) (input : Input) (name : String) (id : Nat) (r : Run) :
    r.graph.Alike (b.exportFile input name id r).2.graph := by
  obtain ⟨g, hg, h | ⟨n, -, h | ⟨reg, h⟩⟩⟩ := b.exportFile_effect input name id r
  · rw [h]
    exact hg
  · rw [h]
    exact hg
  · rw [h, Run.graph_put]
    exact hg

end SchemaBackend

end Schemata
