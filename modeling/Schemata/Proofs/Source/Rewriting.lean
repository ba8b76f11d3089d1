import Mathlib.Tactic
import Schemata.Proofs.Dict
import Schemata.Proofs.Source.Segments

/-!
Binding the loads of generated files.

`bindLoads` replaces every load that it finds in a text. Main result: `bindLoads_generated`. In a generated file it finds
just the loads of the generator if and only if the texts chosen by the schema's author do not straddle
(`File.straddles`); then the output is the file with these loads bound to aliases, and an import block.
`bindLoads_straddling` is an enumeration whose two members are taken for a load.
-/

namespace Schemata.Source

/-! ## What the generator loads -/

/-- a segment when its loads go by aliases -/
def Segment.bound (as : List (String × String)) : Segment → String
  | code t => t
  | load p name => aliasOf as p.path ++ "." ++ name
  | bare t => t

/-- the pieces of a file of which only the generator's loads are loads -/
def File.pieces (f : File) : List Piece := Segment.pieces [] f.segments

/-- the text of a file when the generator's loads, and nothing else, go by aliases -/
def File.bound (f : File) (as : List (String × String)) : String := String.join (f.segments.map (Segment.bound as))

/-- do texts that the author of the schema chose make up a load? -/
def File.straddles (f : File) : Bool := Token.straddle (f.segments.flatMap Segment.tokens)

theorem Segment.pieces_bound (as : List (String × String)) (acc : List Char) (ss : List Segment) :
    String.join ((Segment.pieces acc ss).map (Piece.text as)) =
      String.ofList acc.reverse ++ String.join (ss.map (Segment.bound as)) := by
  have hwords (acc : List Char) : String.join ((if acc.isEmpty then [] else [Piece.words (String.ofList acc.reverse)]).map
      (Piece.text as)) = String.ofList acc.reverse := by
    cases acc <;> simp [Piece.text]
  induction ss generalizing acc with
  | nil => simpa [Segment.pieces] using hwords acc
  | cons s ss ih =>
    cases s with
    | load p name =>
      simp only [Segment.pieces, List.map_append, String.join_append, hwords, List.map_cons, String.join_cons, ih]
      simp [Piece.text, Segment.bound]
    | code t => simp [Segment.pieces, ih, Segment.bound, String.append_assoc]
    | bare t => simp [Segment.pieces, ih, Segment.bound, String.append_assoc]

/-- the paths of the loads among pieces -/
theorem mem_loadedPaths {ps : List Piece} {path : String} : path ∈ loadedPaths ps ↔ ∃ name, .load path name ∈ ps := by
  rw [loadedPaths, mem_sortedSet, List.mem_filterMap]
  constructor
  · rintro ⟨q, hq, h⟩
    cases q with
    | words s => simp at h
    | load q name =>
      obtain rfl : q = path := by simpa using h
      exact ⟨name, hq⟩
  · rintro ⟨name, h⟩
    exact ⟨_, h, rfl⟩

theorem Segment.load_mem_pieces {acc : List Char} {ss : List Segment} {path name : String} :
    .load path name ∈ Segment.pieces acc ss ↔ ∃ q : Package, q.path = path ∧ .load q name ∈ ss := by
  induction ss generalizing acc with
  | nil => cases acc <;> simp [Segment.pieces]
  | cons s ss ih =>
    cases s with
    | code t => simp [Segment.pieces, ih]
    | bare t => simp [Segment.pieces, ih]
    | load q n =>
      have : Piece.load path name ∉ (if acc.isEmpty then [] else [Piece.words (String.ofList acc.reverse)]) := by
        split <;> simp
      simp only [Segment.pieces, List.mem_append, this, false_or, List.mem_cons, ih, Piece.load.injEq,
        Segment.load.injEq]
      constructor
      · rintro (⟨rfl, rfl⟩ | ⟨q', hq, hmem⟩)
        · exact ⟨q, rfl, .inl ⟨rfl, rfl⟩⟩
        · exact ⟨q', hq, .inr hmem⟩
      · rintro ⟨q', rfl, ⟨rfl, rfl⟩ | hmem⟩
        · exact .inl ⟨rfl, rfl⟩
        · exact .inr ⟨q', rfl, hmem⟩

/-! ## The import block -/

/-- the block stands behind a line of the text, and nothing else changes -/
theorem insertAfterPackage_some {block : String} {lines out : List String} (h : insertAfterPackage block lines = some out) :
    ∃ before behind, "\n".intercalate lines = before ++ behind ∧ "\n".intercalate out = before ++ block ++ behind ∧
      (behind = "" ∨ ∃ t, before = t ++ "\n") ∧ out ≠ [] := by
  induction lines generalizing out with
  | nil => simp [insertAfterPackage] at h
  | cons line rest ih =>
    cases rest with
    | nil =>
      simp only [insertAfterPackage] at h
      split at h
      · obtain rfl : [line ++ block] = out := by simpa using h
        exact ⟨line, "", by simp, by simp, .inl rfl, by simp⟩
      · cases h
    | cons next rest =>
      simp only [insertAfterPackage] at h
      split at h
      · obtain rfl : ((line ++ "\n" ++ block ++ next) :: rest) = out := by simpa using h
        refine ⟨line ++ "\n", "\n".intercalate (next :: rest), ?_, ?_, .inr ⟨line, rfl⟩, by simp⟩
        · rw [String.intercalate_cons_cons]
        · rw [← String.intercalate_cons_append]
      · obtain ⟨o, ho, rfl⟩ := Option.map_eq_some_iff.1 h
        obtain ⟨before, behind, h1, h2, h3, hne⟩ := ih ho
        refine ⟨line ++ "\n" ++ before, behind, ?_, ?_, ?_, by simp⟩
        · rw [String.intercalate_cons_cons, h1]
          simp only [String.append_assoc]
        · rw [String.intercalate_cons_of_ne_nil hne, h2]
          simp only [String.append_assoc]
        · rcases h3 with h3 | ⟨t, rfl⟩
          · exact .inl h3
          · exact .inr ⟨line ++ "\n" ++ t, by simp only [String.append_assoc]⟩

theorem insertAfterPackage_isSome {block : String} {lines : List String} :
    (insertAfterPackage block lines).isSome = lines.any isPackageClause := by
  induction lines with
  | nil => rfl
  | cons line rest ih =>
    cases rest with
    | nil => by_cases h : isPackageClause line <;> simp [insertAfterPackage, h]
    | cons next rest =>
      by_cases h : isPackageClause line
      · simp [insertAfterPackage, h]
      · simp only [insertAfterPackage, h, List.any_cons, Bool.false_or] at ih ⊢
        simpa using ih

/-! ## The package clause -/

theorem dropWhile_reverse_append {p : Char → Bool} {c : Char} (hc : p c = false) (xs ys : List Char) :
    ∃ zs, ((xs ++ c :: ys).reverse.dropWhile p).reverse = xs ++ c :: zs := by
  rw [List.reverse_append, List.reverse_cons, List.append_assoc, List.dropWhile_append]
  split
  · exact ⟨[], by simp [hc]⟩
  · exact ⟨(ys.reverse.dropWhile p).reverse, by simp⟩

/-- a line that begins as a package clause does, and goes on with a name -/
theorem isPackageClause_cons {c : Char} (hc : Text.isBlank c = false) (cs : List Char) :
    isPackageClause (String.ofList ("package ".toList ++ c :: cs)) = true := by
  obtain ⟨zs, hz⟩ := dropWhile_reverse_append hc "package ".toList cs
  have hfront : ("package ".toList ++ c :: cs).dropWhile Text.isBlank = "package ".toList ++ c :: cs := rfl
  simp only [isPackageClause, Text.startsWith, Text.trimSpace, Text.trimBoth, String.toList_ofList, hfront, hz]
  exact List.isPrefixOf_iff_prefix.2 (List.prefix_append _ _)

theorem splitGo_newline {xs : List Char} (hxs : '\n' ∉ xs) (acc ys : List Char) :
    Text.splitGo ['\n'] 0 acc (xs ++ '\n' :: ys) = (acc.reverse ++ xs) :: Text.splitGo ['\n'] 0 [] ys := by
  induction xs generalizing acc with
  | nil => simp [Text.splitGo]
  | cons c xs ih =>
    have hc : c ≠ '\n' := fun h => hxs (by simp [h])
    have hxs' : '\n' ∉ xs := fun h => hxs (List.mem_cons_of_mem c h)
    simp [Text.splitGo, Ne.symm hc, ih hxs']

/-- the first line of a text -/
theorem splitGo_head (acc cs : List Char) : ∃ ls, Text.splitGo ['\n'] 0 acc cs =
    (acc.reverse ++ cs.takeWhile (· != '\n')) :: ls := by
  induction cs generalizing acc with
  | nil => exact ⟨[], by simp [Text.splitGo]⟩
  | cons c cs ih =>
    by_cases hc : c = '\n'
    · exact ⟨Text.splitGo ['\n'] 0 [] cs, by simp [Text.splitGo, hc]⟩
    · obtain ⟨ls, hls⟩ := ih (c :: acc)
      exact ⟨ls, by simp [Text.splitGo, hc, Ne.symm hc, hls]⟩

/-- the third line of a file is its package clause -/
theorem File.has_packageClause {f : File} {c : Char} (hc : f.package.toList.head? = some c)
    (hblank : Text.isBlank c = false) (as : List (String × String)) :
    (Text.splitOn (f.bound as) "\n").any isPackageClause = true := by
  obtain ⟨r, hr⟩ : ∃ r, f.package.toList = c :: r := by
    cases hp : f.package.toList with
    | nil => simp [hp] at hc
    | cons d r => exact ⟨r, by simpa [hp] using hc⟩
  have hnl : c ≠ '\n' := by
    rintro rfl
    revert hblank
    decide
  obtain ⟨t, ht⟩ : ∃ t, f.bound as =
      "// Code generated by skemac. DO NOT EDIT.\n\n" ++ ("package " ++ (f.package ++ t)) := by
    simp only [File.bound, File.segments, File.header, List.cons_append, List.map_cons, String.join_cons, Segment.bound]
    exact ⟨_, rfl⟩
  have hfirst : "// Code generated by skemac. DO NOT EDIT.\n\n".toList =
      "// Code generated by skemac. DO NOT EDIT.".toList ++ ['\n', '\n'] := by decide
  obtain ⟨rest, hrest⟩ : ∃ rest, (f.bound as).toList =
      "// Code generated by skemac. DO NOT EDIT.".toList ++ '\n' :: ([] ++ '\n' :: ("package ".toList ++ c :: rest)) := by
    refine ⟨r ++ t.toList, ?_⟩
    rw [ht, String.toList_append, hfirst, String.toList_append, String.toList_append, hr]
    simp only [List.append_assoc, List.cons_append, List.nil_append]
  have hline : ("package ".toList ++ c :: rest).takeWhile (· != '\n') =
      "package ".toList ++ c :: rest.takeWhile (· != '\n') := by
    rw [List.takeWhile_append_of_pos (by simp), List.takeWhile_cons_of_pos (by simpa using hnl)]
  obtain ⟨ls, hls⟩ := splitGo_head [] ("package ".toList ++ c :: rest)
  have hsep : "\n".toList = ['\n'] := rfl
  rw [Text.splitOn, hsep, hrest, splitGo_newline (by decide), splitGo_newline (by simp), hls, hline]
  simp only [List.map_cons, List.any_cons, List.reverse_nil, List.nil_append, isPackageClause_cons hblank, Bool.true_or,
    Bool.or_true]

/-! ## Main result -/

/-- a text with loads: they are bound to aliases, and an import block is put in -/
theorem bindLoads_of_loads {src : String} {ps : List Piece} (hps : pieces [] 0 src.toList = ps) (hne : loadedPaths ps ≠ []) :
    bindLoads src =
      match insertAfterPackage ("\n" ++ importBlock (aliases [] (loadedPaths ps)))
        (Text.splitOn (String.join (ps.map (Piece.text (aliases [] (loadedPaths ps))))) "\n") with
      | none => failWith (.unsupported "generated source has no package clause")
      | some lines => .ok ("\n".intercalate lines, loadedPaths ps) := by
  subst hps
  unfold bindLoads
  dsimp only
  refine (if_neg (by rwa [List.isEmpty_iff])).trans ?_
  -- by cases, so that no one has to see where the clause is
  cases insertAfterPackage _ _ <;> rfl

theorem bindLoads_undisturbed {f : File} (hp : pieces [] 0 f.text.toList = f.pieces) :
    bindLoads f.text =
      match insertAfterPackage ("\n" ++ importBlock (aliases [] (loadedPaths f.pieces)))
        (Text.splitOn (f.bound (aliases [] (loadedPaths f.pieces))) "\n") with
      | none => failWith (.unsupported "generated source has no package clause")
      | some lines => .ok ("\n".intercalate lines, loadedPaths f.pieces) := by
  have hmem : Package.core.path ∈ loadedPaths f.pieces :=
    mem_loadedPaths.2 ⟨"Issues", Segment.load_mem_pieces.2 ⟨.core, rfl, by simp [File.segments, File.header]⟩⟩
  have hbound : String.join (f.pieces.map (Piece.text (aliases [] (loadedPaths f.pieces)))) =
      f.bound (aliases [] (loadedPaths f.pieces)) := by
    rw [File.pieces, Segment.pieces_bound]
    simp [File.bound]
  rw [bindLoads_of_loads hp (List.ne_nil_of_mem hmem), hbound]

/-- the loads that are found in a generated file -/
theorem generate_pieces_iff {p : Program} {o : Options} {f : File} (h : generate p o = .ok f) :
    pieces [] 0 f.text.toList = f.pieces ↔ f.straddles = false := by
  have hready : Ready f.segments := File.segments_ready (generate_made h).written
  rw [← f.segments_text, ← chars_eq, File.pieces, pieces_chars_iff hready, undisturbed_iff hready]
  rfl

/-- **Rewriting loads.** For every generated file, the search for loads finds exactly the loads that the generator wrote if
and only if no texts of the schema's author straddle. Then the dependencies are packages of the generator, and the
output is the text of the file with those loads bound to aliases, all code and every quoted string in it as it was, and
the import block behind one of its lines. There is an output whenever the package has a name. -/
theorem bindLoads_generated {p : Program} {o : Options} {f : File} (h : generate p o = .ok f) :
    (pieces [] 0 f.text.toList = f.pieces ↔ f.straddles = false) ∧
    (f.straddles = false →
      (∀ out deps, bindLoads f.text = .ok (out, deps) →
        (∀ path ∈ deps, ∃ q : Package, path = q.path) ∧
        ∃ before behind, before ++ behind = f.bound (aliases [] deps) ∧
          out = before ++ ("\n" ++ importBlock (aliases [] deps)) ++ behind ∧ (behind = "" ∨ ∃ t, before = t ++ "\n")) ∧
      (∀ c, f.package.toList.head? = some c → Text.isBlank c = false → ∃ r, bindLoads f.text = .ok r)) := by
  refine ⟨generate_pieces_iff h, fun hs => ?_⟩
  have hbind := bindLoads_undisturbed ((generate_pieces_iff h).2 hs)
  have hjoin (t : String) : "\n".intercalate (Text.splitOn t "\n") = t := Text.intercalate_splitOn (by decide) t
  constructor
  · intro out deps hout
    rw [hbind] at hout
    split at hout
    · cases hout
    · rename_i lines hlines
      obtain ⟨rfl, rfl⟩ : "\n".intercalate lines = out ∧ loadedPaths f.pieces = deps := by
        simpa using hout
      obtain ⟨before, behind, h1, h2, h3, -⟩ := insertAfterPackage_some hlines
      refine ⟨fun path hpath => ?_, before, behind, by rw [← h1, hjoin], h2, h3⟩
      obtain ⟨name, hload⟩ := mem_loadedPaths.1 hpath
      obtain ⟨q, hq, -⟩ := Segment.load_mem_pieces.1 hload
      exact ⟨q, hq.symm⟩
  · intro c hc hblank
    have hsome := f.has_packageClause hc hblank (aliases [] (loadedPaths f.pieces))
    rw [← @insertAfterPackage_isSome ("\n" ++ importBlock (aliases [] (loadedPaths f.pieces)))] at hsome
    obtain ⟨lines, hlines⟩ := Option.isSome_iff_exists.1 hsome
    rw [hbind, hlines]
    exact ⟨_, rfl⟩


theorem bindLoads_generated_names :
    ∃ f, generate { root := .enum {} [.string "a\"b", .string "require("] } {} = .ok f ∧ f.straddles = false ∧
      (pieces [] 0 f.text.toList = f.pieces) ∧ ∃ r, bindLoads f.text = .ok r := by
  have key := @bindLoads_generated { root := .enum {} [.string "a\"b", .string "require("] } {} _ rfl
  refine ⟨_, rfl, ?_, key.1.2 ?_, (key.2 ?_).2 'v' ?_ ?_⟩ <;> decide +kernel

/-- two members of an enumeration that together look like a load: more is found than the generator wrote -/
theorem bindLoads_straddling :
    ∃ f, generate { root := .enum {} [.string "require(", .string ").Foo"] } {} = .ok f ∧
      pieces [] 0 f.text.toList ≠ f.pieces := by
  refine ⟨_, rfl, fun hp => ?_⟩
  have hs := (@generate_pieces_iff { root := .enum {} [.string "require(", .string ").Foo"] } {} _ rfl).1 hp
  revert hs
  decide +kernel

end Schemata.Source
