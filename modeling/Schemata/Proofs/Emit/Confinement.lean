import Schemata.Emit.Writers
import Schemata.Proofs.Dict
import Schemata.Proofs.Emit.Outputs

/-!
Output stays below the output directory.

An input from outside the working tree is confined to its last name, so the directory of its output leads down by
names, and so do the paths of its documents and validators: their file names are stems with an end that no step up has.
`export_confined` puts this together with the output root, which accepts each of these paths below itself and is
not removed with a directory that is cleaned.
-/

namespace Schemata

namespace Path

/-- elements that do not begin with a step up are names -/
theorem Tidy.names_of_head {rooted : Bool} {es : List String} (h : Tidy rooted es.reverse) (hhead : es.head? ≠ some "..") :
    ∀ e ∈ es, IsName e := by
  cases es with
  | nil => simp
  | cons f es =>
    rw [List.reverse_cons] at h
    have hf : f ≠ ".." := by simpa using hhead
    intro e he
    refine ⟨h.isElement (by simpa using Or.comm.1 (List.mem_cons.1 he)), ?_⟩
    rcases List.mem_cons.1 he with rfl | he
    · exact hf
    · exact h.names hf e (List.mem_reverse.2 he)

/-- the directory of a confined path leads down -/
theorem dir_confine {q : String} (hq : clean q ≠ "/") :
    ∃ names, (∀ e ∈ names, IsName e) ∧ dir (confine q) = spell false names := by
  have htidy := parts_tidy q
  have hel : ∀ e ∈ parts q, IsElement e := fun _ => isElement_of_parts
  unfold confine
  rw [clean_eq] at hq ⊢
  generalize isAbsolute q = rooted at hq htidy ⊢
  dsimp only
  rw [isAbsolute_spell hel]
  rcases List.eq_nil_or_concat (parts q) with hnil | ⟨es, e, hes⟩
  · rw [hnil] at hq ⊢
    cases rooted with
    | true => exact absurd rfl hq
    | false => exact ⟨[], by simp, by decide⟩
  · rw [List.concat_eq_append] at hes
    rw [hes] at hel htidy ⊢
    split
    · -- an outside path keeps its last element
      rw [base_spell hel]
      exact ⟨[], by simp, dir_free (hel e (by simp)).2.2⟩
    · rename_i hin
      rw [Bool.or_eq_true, not_or] at hin
      obtain rfl : rooted = false := by simpa using hin.1
      rw [leaves_spell hel] at hin
      have hnames := htidy.names_of_head hin.2
      exact ⟨es, fun x hx => hnames x (List.mem_append_left _ hx), dir_spell hnames⟩

/-! ## Ways down from a root -/

theorem relative_spell {root : String} {names : List String} (hn : ∀ e ∈ names, IsName e) :
    leaves (relative root (spell (isAbsolute root) (parts root ++ names))) = false := by
  have htidy : Tidy (isAbsolute root) (parts root ++ names).reverse := by
    rw [List.reverse_append]
    exact tidy_append (by simpa using hn) (parts_tidy root)
  unfold relative
  rw [elements_clean, elements_clean, parts_spell htidy, dropCommon_append]
  dsimp only
  rw [List.map_nil, List.nil_append]
  cases names with
  | nil => decide
  | cons e names =>
    rw [if_neg (by simp), Bool.eq_false_iff, Ne, leaves_intercalate fun x hx => (hn x hx).1.2.2]
    exact (hn e (by simp)).2

end Path

/-! ## Removing a directory -/

namespace FileTree

theorem follow_ok {t : FileTree} {rooted : Bool} {acc es : List String} (h : Path.Tidy rooted acc) (hes : ∀ e ∈ es, '/' ∉ e.toList)
    {place : String} (hp : t.follow (Path.spell rooted acc.reverse) es = .ok place) :
    place = Path.spell rooted (es.foldl (Path.cleanStep rooted) acc).reverse := by
  induction es generalizing acc with
  | nil => exact (Except.ok.inj hp).symm
  | cons e es ih =>
    have he := hes e (by simp)
    rw [follow] at hp
    split at hp
    · cases hp
    · cases hp
    · split at hp
      · cases hp
      · rw [Path.join_spell h, Text.splitOn_free he] at hp
        exact ih (Path.cleanStep_tidy h he) (fun x hx => hes x (List.mem_cons_of_mem e hx)) hp

/-- a path that is found leads to its clean form -/
theorem locate_ok {t : FileTree} {path place : String} (h : t.locate path = .ok place) : place = Path.clean path := by
  unfold locate at h
  split at h
  · cases h
  split at h
  · cases h
  split at h
  · cases h
  have hstart : (if Path.isAbsolute path = true then "/" else ".") = Path.spell (Path.isAbsolute path) ([] : List String).reverse := by
    cases Path.isAbsolute path <;> decide
  rw [hstart] at h
  exact follow_ok (show Path.Tidy _ [] from trivial) (fun e he => Text.free_of_mem_splitOn he) h

theorem at?_without {t : FileTree} {place q : String} (hne : q ≠ place) (hin : Text.startsWith q (place ++ "/") = false) :
    (t.without place).at? q = t.at? q := by
  unfold at? without
  congr 1
  have := Dict.get?_filter t.entries (fun p => decide (p ≠ place) && !Text.startsWith p (place ++ "/")) q
  rw [this, if_pos (by simp [hne, hin])]

/-- removing what a clean path leads to leaves everything above it -/
theorem removeAll_above {t t' : FileTree} {full : String} (h : t.removeAll full = .ok t') {q : String} (hq : Path.Below q full) :
    t'.at? q = t.at? q := by
  unfold removeAll at h
  split at h
  · cases h
  split at h
  · rename_i place hplace
    cases h
    rw [locate_ok hplace, hq.1]
    exact at?_without hq.ne.symm hq.not_inside
  · cases h
    rfl
  · split at h <;> cases h
  · cases h

end FileTree

/-! ## The output root -/

namespace OutputRoot

theorem target_names (r : OutputRoot) (hr : r.path ≠ "") {names : List String} (hne : names ≠ []) (hn : ∀ e ∈ names, Path.IsName e) :
    ∃ full, r.target (Path.spell false names) = .ok full ∧ Path.Below (Path.clean r.path) full := by
  have hjoin : Path.join [r.path, Path.spell false names] = Path.spell (Path.isAbsolute r.path) (Path.parts r.path ++ names) := by
    rw [Path.clean_join hr, Path.clean_eq, Path.join_names (Path.parts_tidy r.path) hn]
  refine ⟨_, ?_, Path.below_spell hne hn⟩
  unfold target
  rw [Path.isAbsolute_spell fun e he => (hn e he).1, hjoin]
  simp [hr, Path.relative_spell hn]

/-- **A relative path is refused, or it leads to the root or below.** -/
theorem target_confined (r : OutputRoot) (hr : r.path ≠ "") {p : String} (hp : Path.isAbsolute p = false) {full : String}
    (h : r.target p = .ok full) : full = Path.clean r.path ∨ Path.Below (Path.clean r.path) full := by
  unfold target at h
  rw [hp] at h
  simp only [Bool.false_or, decide_eq_true_eq, if_neg hr] at h
  split at h
  · cases h
  · rename_i hleaves
    cases h
    rw [Bool.not_eq_true] at hleaves
    obtain ⟨down, hdown, hup⟩ := Path.relative_leaves hleaves
    have hjoin := Path.join_spell (Path.parts_tidy r.path) p
    rw [List.reverse_reverse, ← Path.clean_eq, ← Path.clean_join hr] at hjoin
    have htidy := Path.foldl_cleanStep_tidy (Path.parts_tidy r.path)
      (show ∀ e ∈ Text.splitOn p "/", '/' ∉ e.toList from fun e he => Text.free_of_mem_splitOn he)
    have hfull : Path.join [r.path, p] = Path.spell (Path.isAbsolute r.path) (Path.parts r.path ++ down) := by
      rw [← hdown, hjoin, Path.parts_spell (by rwa [List.reverse_reverse])]
    have hnames : ∀ e ∈ down, Path.IsName e := fun e he =>
      ⟨Path.isElement_of_parts (hdown ▸ List.mem_append_right _ he), hup e he⟩
    rw [hfull]
    by_cases hne : down = []
    · subst down
      rw [List.append_nil]
      exact .inl rfl
    · exact .inr (Path.below_spell hne hnames)

/-- cleaning a directory below the root removes nothing above it -/
theorem clean_below (r : OutputRoot) {dir full : String} (hfull : r.target dir = .ok full) (hbelow : Path.Below (Path.clean r.path) full)
    (t : FileTree) : r.clean dir t = done "" t (t.removeAll full) ∧ ∀ q, Path.Below q full → (r.clean dir t).2.at? q = t.at? q := by
  have hclean : r.clean dir t = done "" t (t.removeAll full) := by
    unfold OutputRoot.clean
    rw [hfull]
    simp only
    rw [if_neg hbelow.ne]
  refine ⟨hclean, fun q hq => ?_⟩
  rw [hclean]
  cases hrem : t.removeAll full with
  | error e => rfl
  | ok t' => exact FileTree.removeAll_above hrem hq

end OutputRoot

/-! ## Exports -/

namespace SchemaBackend

/-- **Output stays below the output directory.** Let a backend without a directory of its own export something, under any
name, from an input that is given by any path but the top of the file tree, and let the output go to a root. Then the
paths of the document and of the validator, and the directory that is cleaned for it, are relative; the root takes each
of them to a place below itself, and cleaning that directory is not refused and removes nothing above it, the root
least of all. These are the only paths of the files of the export. And no relative path whatever leads out of the root. -/
theorem export_confined {b : SchemaBackend} (hdir : b.dir = "") {q : String} (hq : Path.clean q ≠ "/") (name : String)
    {r : OutputRoot} (hr : r.path ≠ "") :
    (∀ p ∈ [b.documentPath (Path.confine q) name, b.validatorPath (Path.confine q) name, b.validatorDir (Path.confine q) name],
      Path.isAbsolute p = false ∧ ∃ full, r.target p = .ok full ∧ Path.Below (Path.clean r.path) full) ∧
    (∀ t : FileTree, ∃ full, r.target (b.validatorDir (Path.confine q) name) = .ok full ∧ Path.Below (Path.clean r.path) full ∧
      r.clean (b.validatorDir (Path.confine q) name) t = OutputRoot.done "" t (t.removeAll full) ∧
      ∀ place, Path.Below place full → (r.clean (b.validatorDir (Path.confine q) name) t).2.at? place = t.at? place) ∧
    (∀ (exports : List NamedNode) (id : Nat) (run run' : Run) (f : OutputFile),
      (∀ n, run.graph.get? id = some n → n.onExport = []) →
      b.exportFile ⟨Path.confine q, exports⟩ name id run = (.ok f, run') →
      ∀ o ∈ f.flatten, o.path ∈ [b.documentPath (Path.confine q) name, b.validatorPath (Path.confine q) name] ∧
        o.clean ∈ ["", b.validatorDir (Path.confine q) name]) ∧
    (∀ p, Path.isAbsolute p = false →
      (∃ e, r.target p = .error e) ∨
        ∃ full, r.target p = .ok full ∧ (full = Path.clean r.path ∨ Path.Below (Path.clean r.path) full)) := by
  obtain ⟨names, hnames, hbase⟩ := Path.dir_confine hq
  have hbase : b.baseDir (Path.confine q) = Path.spell false names := by
    rw [baseDir, hdir, hbase, Path.join_empty (Path.spell_ne _ _), Path.clean_spell (Path.tidy_of_names hnames)]
  have hdown {more : List String} (hne : more ≠ []) (hmore : ∀ e ∈ more, Path.IsName e) :
      Path.isAbsolute (Path.spell false (names ++ more)) = false ∧
        ∃ full, r.target (Path.spell false (names ++ more)) = .ok full ∧ Path.Below (Path.clean r.path) full := by
    have hall : ∀ e ∈ names ++ more, Path.IsName e := by
      intro e he
      exact (List.mem_append.1 he).elim (hnames e) (hmore e)
    exact ⟨Path.isAbsolute_spell fun e he => (hall e he).1, r.target_names hr (by simp [hne]) hall⟩
  have hpaths := b.paths_spell name (Path.tidy_of_names hnames) hbase
  have hvalidator : Path.isAbsolute (b.validatorDir (Path.confine q) name) = false ∧
      ∃ full, r.target (b.validatorDir (Path.confine q) name) = .ok full ∧ Path.Below (Path.clean r.path) full := by
    rw [hpaths.validatorDir]
    exact hdown (by simp) (by simpa using isName_validatorStem name)
  refine ⟨?_, fun t => ?_, ?_, fun p hp => ?_⟩
  · intro p hp
    simp only [List.mem_cons, List.not_mem_nil, or_false] at hp
    rcases hp with rfl | rfl | rfl
    · rw [hpaths.document]
      exact hdown (by simp) (by simpa using isName_documentStem name)
    · rw [hpaths.validator]
      refine hdown (by simp) ?_
      simp only [List.mem_cons, List.not_mem_nil, or_false, forall_eq_or_imp, forall_eq]
      exact ⟨isName_validatorStem name, isName_validatorFile⟩
    · exact hvalidator
  · obtain ⟨-, full, hfull, hbelow⟩ := hvalidator
    obtain ⟨hclean, hkeeps⟩ := r.clean_below hfull hbelow t
    exact ⟨full, hfull, hbelow, hclean, hkeeps⟩
  · intro exports id run run' f hooks hf o ho
    obtain ⟨compiled, houtlines⟩ := exportFile_outlines hooks hf
    have hmem : outline o ∈ b.outlines (Path.confine q) name compiled := houtlines ▸ List.mem_map_of_mem ho
    rcases of_mem_outlines hmem with ho | ho <;> obtain ⟨hpath, -, hclean⟩ := outline_eq_iff.1 ho
    · exact ⟨hpath ▸ List.mem_cons_self .., hclean ▸ List.mem_cons_self ..⟩
    · exact ⟨hpath ▸ List.mem_cons_of_mem _ (List.mem_singleton_self _), hclean ▸ List.mem_cons_of_mem _ (List.mem_singleton_self _)⟩
  · cases htarget : r.target p with
    | error e => exact .inl ⟨e, rfl⟩
    | ok full => exact .inr ⟨full, rfl, r.target_confined hr hp htarget⟩

theorem export_confined_outside :
    ∃ full, (OutputRoot.mk "build/../..").target (SchemaBackend.validatorDir {} (Path.confine "../lib/..") "a/../b") = .ok full ∧
      Path.Below ".." full := by
  obtain ⟨hpaths, -⟩ := export_confined (b := {}) rfl (q := "../lib/..") (by decide) "a/../b" (r := ⟨"build/../.."⟩) (by decide)
  obtain ⟨-, full, hfull, hbelow⟩ := hpaths (SchemaBackend.validatorDir {} (Path.confine "../lib/..") "a/../b")
    (List.mem_cons_of_mem _ (List.mem_cons_of_mem _ (List.mem_singleton_self _)))
  exact ⟨full, hfull, hbelow⟩

end SchemaBackend

end Schemata
