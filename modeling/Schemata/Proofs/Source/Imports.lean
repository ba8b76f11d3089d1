import Mathlib.Data.List.TakeWhile
import Mathlib.Tactic
import Schemata.Proofs.Path
import Schemata.Proofs.Source.Division
import Schemata.Proofs.Source.Rewriting

/-!
What `bindLoads` does to any text.

The text need not be one that the generator wrote. Its loads are those of its one division; every path gets an alias of its
own, an identifier, even where the names of several paths collide or are empty; the loads are replaced and nothing else is;
and the import block stands behind the first line of the *rewritten* text that is a package clause. Main result:
`bindLoads_spec`. It rests on `freeName_spec` (of as many candidates as there are names in use, and one more, one is
free) and on `pieces_eq_iff`.
-/

namespace Schemata.Source

/-! ## Names for paths -/

/-- the names that are tried for a package, counted from one -/
def candidate (base : String) (i : Nat) : String := if i = 1 then base else base ++ toString i

theorem candidate_injective {base : String} {i j : Nat} (h : candidate base i = candidate base j) : i = j := by
  have hlonger (n : Nat) : base ≠ base ++ toString n := fun h => by
    simpa using congrArg String.length h
  unfold candidate at h
  split at h <;> split at h
  · omega
  · exact absurd h (hlonger j)
  · exact absurd h.symm (hlonger i)
  · exact Text.number_injective h

/-- the search for a name takes a candidate that is free, unless all that it may try are in use -/
theorem freeName_cases (used : List String) (base : String) (fuel i : Nat) :
    (∃ j, freeName used base fuel i = candidate base j ∧ candidate base j ∉ used) ∨
      ∀ k, i ≤ k → k < i + fuel → candidate base k ∈ used := by
  induction fuel generalizing i with
  | zero => exact .inr fun k _ _ => by omega
  | succ fuel ih =>
    have hstep : freeName used base (fuel + 1) i =
        if candidate base i ∈ used then freeName used base fuel (i + 1) else candidate base i := by
      simp [freeName, candidate]
    by_cases hi : candidate base i ∈ used
    · rw [hstep, if_pos hi]
      refine (ih (i + 1)).imp id fun hall k hk hlt => ?_
      rcases Nat.eq_or_lt_of_le hk with rfl | hk
      · exact hi
      · exact hall k hk (by omega)
    · exact .inl ⟨i, by rw [hstep, if_neg hi], hi⟩

/-- the name that is found is a candidate, and free: there are more candidates than names in use -/
theorem freeName_spec (used : List String) (base : String) :
    ∃ j, freeName used base (used.length + 1) 1 = candidate base j ∧ candidate base j ∉ used := by
  refine (freeName_cases used base (used.length + 1) 1).resolve_right fun hall => ?_
  have hnodup : ((List.range' 1 (used.length + 1)).map (candidate base)).Nodup :=
    List.Nodup.map (fun i j h => candidate_injective h) List.nodup_range'
  have hsub : (List.range' 1 (used.length + 1)).map (candidate base) ⊆ used := fun x hx => by
    obtain ⟨k, hk, rfl⟩ := List.mem_map.1 hx
    rw [List.mem_range'_1] at hk
    exact hall k hk.1 hk.2
  have := (List.subperm_of_subset hnodup hsub).length_le
  simp at this

theorem isName_candidate {base : String} (h : isName base = true) (i : Nat) : isName (candidate base i) = true := by
  unfold candidate
  split
  · exact h
  · refine isName_append h fun c hc => ?_
    rw [Text.toList_toString_nat] at hc
    have := Nat.isDigit_of_mem_toDigits (by decide) (by decide) hc
    simp [isIdentChar, Char.isAlphanum, this]

/-- the name of a path is an identifier: `dep` where the path has no letter for one -/
theorem isName_importName (path : String) : isName (importName path) = true := by
  let step (acc : List Char) (c : Char) : List Char :=
    if c == '_' || c.isAlpha || (c.isDigit && !acc.isEmpty) then c :: acc else acc
  have run (cs acc : List Char) (hacc : acc = [] ∨ isName (String.ofList acc.reverse) = true) :
      cs.foldl step acc = [] ∨ isName (String.ofList (cs.foldl step acc).reverse) = true := by
    induction cs generalizing acc with
    | nil => exact hacc
    | cons c cs ih =>
      refine ih _ ?_
      by_cases hc : (c == '_' || c.isAlpha || (c.isDigit && !acc.isEmpty)) = true
      · refine .inr ?_
        simp only [step, hc, if_true]
        rcases hacc with rfl | hacc
        · refine isName_iff.2 ⟨c, [], by simp, ?_, by simp⟩
          simpa [isIdentStart, or_comm] using hc
        · rw [List.reverse_cons, String.ofList_append]
          refine isName_append hacc fun d hd => ?_
          obtain rfl : d = c := by simpa using hd
          simp only [Bool.or_eq_true, Bool.and_eq_true] at hc
          simp only [isIdentChar, Char.isAlphanum, Bool.or_eq_true]
          tauto
      · simpa only [step, if_neg hc] using hacc
  have hname := run (Text.lastElement path "/").toList [] (.inl rfl)
  show isName (if ((Text.lastElement path "/").toList.foldl step []).reverse.isEmpty then "dep"
    else String.ofList ((Text.lastElement path "/").toList.foldl step []).reverse) = true
  split
  · decide
  · rename_i hne
    exact hname.resolve_left (by simpa using hne)

/-! ## Aliases -/

theorem aliases_paths (used paths : List String) : (aliases used paths).map (·.1) = paths := by
  induction paths generalizing used with
  | nil => rfl
  | cons p ps ih => simp [aliases, ih]

theorem aliases_named {used paths : List String} {e : String × String} (he : e ∈ aliases used paths) :
    isName e.2 = true := by
  induction paths generalizing used with
  | nil => simp [aliases] at he
  | cons p ps ih =>
    rcases List.mem_cons.1 he with rfl | he
    · obtain ⟨j, hj, -⟩ := freeName_spec used (importName p)
      rw [hj]
      exact isName_candidate (isName_importName p) j
    · exact ih he

theorem aliases_fresh (used paths : List String) :
    (∀ e ∈ aliases used paths, e.2 ∉ used) ∧ ((aliases used paths).map (·.2)).Nodup := by
  induction paths generalizing used with
  | nil => simp [aliases]
  | cons p ps ih =>
    obtain ⟨j, hj, hfree⟩ := freeName_spec used (importName p)
    obtain ⟨hlater, hnodup⟩ := ih (candidate (importName p) j :: used)
    simp only [aliases, hj]
    constructor
    · intro e he
      rcases List.mem_cons.1 he with rfl | he
      · exact hfree
      · exact fun hu => hlater e he (List.mem_cons_of_mem _ hu)
    · refine List.nodup_cons.2 ⟨fun hm => ?_, hnodup⟩
      obtain ⟨e, he, heq⟩ := List.mem_map.1 hm
      exact hlater e he (by simp [heq])

/-- aliases that tell packages apart: identifiers of the letters, digits and underscores of ASCII -/
structure Apart (deps : List String) (given : String → String) : Prop where
  injective : ∀ p ∈ deps, ∀ q ∈ deps, given p = given q → p = q
  named : ∀ p ∈ deps, isName (given p) = true

theorem aliasOf_eq {deps : List String} (h : deps.Nodup) {e : String × String} (he : e ∈ aliases [] deps) :
    aliasOf (aliases [] deps) e.1 = e.2 := by
  have hkeys : ((aliases [] deps).map (·.1)).Nodup := by rwa [aliases_paths]
  rw [aliasOf, (Dict.get?_eq_some hkeys).2 he]
  rfl

/-- every path is listed once, with its alias -/
theorem aliases_eq_map {deps : List String} (h : deps.Nodup) :
    aliases [] deps = deps.map fun p => (p, aliasOf (aliases [] deps) p) := by
  conv_rhs => rw [← aliases_paths [] deps, List.map_map]
  refine ((List.map_congr_left fun e he => ?_).trans (List.map_id _)).symm
  simp only [Function.comp_apply, aliases_paths, aliasOf_eq h he, id]

theorem aliases_apart {deps : List String} (h : deps.Nodup) : Apart deps (aliasOf (aliases [] deps)) := by
  have hmem {p : String} (hp : p ∈ deps) : (p, aliasOf (aliases [] deps) p) ∈ aliases [] deps := by
    rw [← aliases_paths [] deps] at hp
    obtain ⟨e, he, rfl⟩ := List.mem_map.1 hp
    rwa [aliasOf_eq h he]
  constructor
  · intro p hp q hq heq
    exact congrArg Prod.fst (List.inj_on_of_nodup_map (aliases_fresh [] deps).2 (hmem hp) (hmem hq) heq)
  · intro p hp
    exact aliases_named (hmem hp)

/-- two paths of one name, and a path without a name -/
example : aliases [] ["a/v2", "b/v2", "c/2"] = [("a/v2", "v2"), ("b/v2", "v22"), ("c/2", "dep")] := by decide +kernel

/-! ## The package clause -/

/-- lines, each with its line break -/
def broken (ls : List String) : String := String.join (ls.map (· ++ "\n"))

/-- a text up to the end of its first line that is a package clause, line break included, and the text behind it -/
structure AtClause (text before behind : String) : Prop where
  whole : text = before ++ behind
  ends : ∃ ls line, (∀ l ∈ ls, '\n' ∉ l.toList ∧ isPackageClause l = false) ∧ '\n' ∉ line.toList ∧
    isPackageClause line = true ∧ (before = broken ls ++ line ++ "\n" ∨ before = broken ls ++ line ∧ behind = "")

theorem splitOn_broken {ls : List String} (h : ∀ l ∈ ls, '\n' ∉ l.toList) (t : String) :
    Text.splitOn (broken ls ++ t) "\n" = ls ++ Text.splitOn t "\n" := by
  induction ls with
  | nil => simp [broken]
  | cons l ls ih =>
    have hl : (broken (l :: ls) ++ t).toList = l.toList ++ '\n' :: (broken ls ++ t).toList := by
      simp [broken]
    rw [Text.splitOn, hl, show "\n".toList = ['\n'] from rfl, splitGo_newline (h l (by simp)), List.map_cons,
      List.cons_append, ← ih fun x hx => h x (List.mem_cons_of_mem l hx)]
    simp [Text.splitOn]

theorem splitOn_line {line : String} (h : '\n' ∉ line.toList) : Text.splitOn line "\n" = [line] := by
  rw [Text.splitOn, show "\n".toList = ['\n'] from rfl, Text.splitGo_free h]
  simp

theorem intercalate_broken (ls : List String) (line : String) (post : List String) :
    "\n".intercalate (ls ++ line :: post) =
      broken ls ++ line ++ (if post.isEmpty then "" else "\n") ++ "\n".intercalate post := by
  induction ls with
  | nil => cases post <;> simp [broken, String.append_assoc]
  | cons l ls ih =>
    rw [List.cons_append, String.intercalate_cons_of_ne_nil (by simp), ih]
    simp [broken, String.append_assoc]

/-- the block goes behind the first line that is a package clause -/
theorem insertAfterPackage_first (block : String) {ls : List String} (h : ∀ l ∈ ls, isPackageClause l = false)
    {line : String} (hline : isPackageClause line = true) (post : List String) :
    ∃ out, insertAfterPackage block (ls ++ line :: post) = some out ∧ out ≠ [] ∧
      "\n".intercalate out =
        broken ls ++ line ++ (if post.isEmpty then "" else "\n") ++ block ++ "\n".intercalate post := by
  induction ls with
  | nil =>
    cases post with
    | nil => exact ⟨[line ++ block], by simp [insertAfterPackage, hline], by simp, by simp [broken]⟩
    | cons next post =>
      refine ⟨(line ++ "\n" ++ block ++ next) :: post, by simp [insertAfterPackage, hline], by simp, ?_⟩
      rw [String.intercalate_cons_append]
      simp [broken]
  | cons l ls ih =>
    obtain ⟨out, hout, hne, heq⟩ := ih fun x hx => h x (List.mem_cons_of_mem l hx)
    obtain ⟨next, rest, hnext⟩ : ∃ next rest, ls ++ line :: post = next :: rest := by
      cases ls <;> exact ⟨_, _, rfl⟩
    rw [hnext] at hout
    refine ⟨l :: out, ?_, by simp, ?_⟩
    · rw [List.cons_append, hnext, insertAfterPackage, if_neg (by simp [h l (by simp)]), hout]
      · rfl
      · simp
    · rw [String.intercalate_cons_of_ne_nil hne, heq]
      simp [broken, String.append_assoc]

theorem insertAfterPackage_atClause (block : String) {text before behind : String} (h : AtClause text before behind) :
    ∃ out, insertAfterPackage block (Text.splitOn text "\n") = some out ∧
      "\n".intercalate out = before ++ block ++ behind := by
  obtain ⟨rfl, ls, line, hls, hline, hclause, hends⟩ := h
  have hfree : ∀ l ∈ ls, '\n' ∉ l.toList := fun l hl => (hls l hl).1
  have hother : ∀ l ∈ ls, isPackageClause l = false := fun l hl => (hls l hl).2
  rcases hends with rfl | ⟨rfl, rfl⟩
  · have hsplit : Text.splitOn (broken ls ++ line ++ "\n" ++ behind) "\n" = ls ++ line :: Text.splitOn behind "\n" := by
      have htext : broken ls ++ line ++ "\n" ++ behind = broken (ls ++ [line]) ++ behind := by
        simp [broken, String.append_assoc]
      have hall : ∀ l ∈ ls ++ [line], '\n' ∉ l.toList := fun l hl =>
        (List.mem_append.1 hl).elim (hfree l) fun hl => by rwa [List.mem_singleton.1 hl]
      rw [htext, splitOn_broken hall]
      simp
    obtain ⟨out, hout, -, heq⟩ := insertAfterPackage_first block hother hclause (Text.splitOn behind "\n")
    have hne : (Text.splitOn behind "\n").isEmpty = false := by
      simp [Text.splitOn, Text.splitGo_ne_nil]
    refine ⟨out, by rw [hsplit, hout], ?_⟩
    rw [heq, Text.intercalate_splitOn (by decide)]
    simp [hne]
  · obtain ⟨out, hout, -, heq⟩ := insertAfterPackage_first block hother hclause []
    refine ⟨out, by rw [String.append_empty, splitOn_broken hfree, splitOn_line hline, hout], ?_⟩
    simpa using heq

/-- a text has a first package clause, or the block has no place in it -/
theorem insertAfterPackage_eq_none {block text : String} (h : ¬ ∃ before behind, AtClause text before behind) :
    insertAfterPackage block (Text.splitOn text "\n") = none := by
  rw [← Option.not_isSome_iff_eq_none, insertAfterPackage_isSome, Bool.not_eq_true]
  cases hfind : (Text.splitOn text "\n").find? isPackageClause with
  | none => simpa using hfind
  | some line =>
    obtain ⟨hline, ls, post, hsplit, hls⟩ := List.find?_eq_some_iff_append.1 hfind
    have hfree {l : String} (hl : l ∈ Text.splitOn text "\n") : '\n' ∉ l.toList := by
      obtain ⟨x, hx, rfl⟩ := List.mem_map.1 hl
      rw [String.toList_ofList]
      exact Text.free_of_mem_splitGo (by simp) hx
    have htext : "\n".intercalate (Text.splitOn text "\n") = text := Text.intercalate_splitOn (by decide) text
    rw [hsplit, intercalate_broken] at htext
    refine absurd ⟨broken ls ++ line ++ (if post.isEmpty then "" else "\n"), "\n".intercalate post, htext.symm, ls, line,
      fun l hl => ⟨hfree (by rw [hsplit]; simp [hl]), by simpa using hls l hl⟩, hfree (by rw [hsplit]; simp), hline, ?_⟩ h
    cases post with
    | nil => exact .inr (by simp)
    | cons next post => exact .inl rfl

/-! ## Main result -/

/-- a piece of a source when its load goes by an alias -/
def Piece.bound (given : String → String) : Piece → String
  | words s => s
  | load path name => given path ++ "." ++ name

/-- the import block of packages and their aliases -/
def importsOf (deps : List String) (given : String → String) : String :=
  "import (\n" ++ String.join (deps.map fun p => "\t" ++ given p ++ " " ++ Text.quote p ++ "\n") ++ ")\n"

theorem loadedPaths_sorted (ps : List Piece) : (loadedPaths ps).Pairwise (· < ·) := by
  rw [loadedPaths, sortedSet, Dict.keys, List.pairwise_map]
  exact Dict.sorted_ofList _

theorem importBlock_aliases {deps : List String} (h : deps.Nodup) :
    importBlock (aliases [] deps) = importsOf deps (aliasOf (aliases [] deps)) := by
  conv_lhs => rw [aliases_eq_map h]
  rw [importBlock, importsOf, List.map_map]
  rfl

/-- `bindLoads`, said with the aliases and not with the list of them -/
theorem bindLoads_eq {src : String} {ps : List Piece} (hps : pieces [] 0 src.toList = ps) (hne : loadedPaths ps ≠ []) :
    ∃ given, Apart (loadedPaths ps) given ∧ bindLoads src =
      match insertAfterPackage ("\n" ++ importsOf (loadedPaths ps) given)
        (Text.splitOn (String.join (ps.map (Piece.bound given))) "\n") with
      | none => failWith (.unsupported "generated source has no package clause")
      | some lines => .ok ("\n".intercalate lines, loadedPaths ps) := by
  have hnodup : (loadedPaths ps).Nodup := (loadedPaths_sorted ps).imp fun h => ne_of_lt h
  have htext : Piece.text (aliases [] (loadedPaths ps)) = Piece.bound (aliasOf (aliases [] (loadedPaths ps))) := by
    funext p
    cases p <;> rfl
  refine ⟨aliasOf (aliases [] (loadedPaths ps)), aliases_apart hnodup, ?_⟩
  rw [← importBlock_aliases hnodup, ← htext]
  exact bindLoads_of_loads hps hne

/-- **Binding loads.** Every text has one division into loads and words. A text without loads stays as it is. With loads, the
paths returned are those loaded, in order and once each, and no two have one alias; the loads are replaced by selectors on
the aliases, and the import block stands behind the first line of the text so rewritten that is a package clause. There
is no output if and only if there is no such line. -/
theorem bindLoads_spec (src : String) :
    ∃ ps, Divided src.toList ps ∧ (∀ qs, Divided src.toList qs → qs = ps) ∧
      ((∀ path name, .load path name ∉ ps) → bindLoads src = .ok (src, [])) ∧
      ((∃ path name, .load path name ∈ ps) → ∃ deps given,
        deps.Pairwise (· < ·) ∧ (∀ path, path ∈ deps ↔ ∃ name, .load path name ∈ ps) ∧ Apart deps given ∧
        (∀ before behind, AtClause (String.join (ps.map (Piece.bound given))) before behind →
          bindLoads src = .ok (before ++ ("\n" ++ importsOf deps given) ++ behind, deps)) ∧
        ((¬ ∃ before behind, AtClause (String.join (ps.map (Piece.bound given))) before behind) →
          bindLoads src = failWith (.unsupported "generated source has no package clause"))) := by
  have hps := pieces_eq_iff.1 (rfl : pieces [] 0 src.toList = pieces [] 0 src.toList)
  refine ⟨pieces [] 0 src.toList, hps, fun qs hqs => (pieces_eq_iff.2 hqs).symm, fun hnone => ?_, fun hsome => ?_⟩
  · have hpaths : loadedPaths (pieces [] 0 src.toList) = [] :=
      List.eq_nil_iff_forall_not_mem.2 fun path hpath => by
        obtain ⟨name, hload⟩ := mem_loadedPaths.1 hpath
        exact hnone path name hload
    simp [bindLoads, hpaths]
  · obtain ⟨path, name, hload⟩ := hsome
    have hne : loadedPaths (pieces [] 0 src.toList) ≠ [] :=
      List.ne_nil_of_mem (mem_loadedPaths.2 ⟨name, hload⟩)
    obtain ⟨given, hapart, hbind⟩ := bindLoads_eq rfl hne
    refine ⟨_, given, loadedPaths_sorted _, fun _ => mem_loadedPaths, hapart, fun before behind hat => ?_, fun hno => ?_⟩
    · obtain ⟨out, hout, heq⟩ :=
        insertAfterPackage_atClause ("\n" ++ importsOf (loadedPaths (pieces [] 0 src.toList)) given) hat
      rw [hbind, hout, ← heq]
    · rw [hbind, insertAfterPackage_eq_none hno]

end Schemata.Source
