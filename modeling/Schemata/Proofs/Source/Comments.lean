import Mathlib.Tactic
import Schemata.Proofs.Path
import Schemata.Proofs.Program.Reached
import Schemata.Proofs.Source.Placement
import Schemata.Proofs.Source.Segments

/-!
Comments of generated validators.

A generated file calls the document by its title and every definition by its name, in comments that hold both as they
are. What stands in one line stays a comment; a line break in a title or a name puts the rest of it among the code.
`Spans t n src` says that a text takes up `n` whole lines of a source.

Main result: `render_comments`. The code of a source, that is its lines but the comments, is that of another title just
where the lines that the two titles put among the code are the same; and the comment that names a definition takes
up one line more than the name has line breaks. `render_spills` is a title whose second line is code.
-/

namespace Schemata.Source

/-! ## Lines -/

def lines (t : String) : List String := Text.splitOn t "\n"

theorem lines_append (a b : String) : lines (a ++ "\n" ++ b) = lines a ++ lines b := by
  have h := Text.splitGo_append '\n' [] a.toList b.toList
  simp only [lines, Text.splitOn, String.toList_append, ← List.map_append]
  rw [show "\n".toList = ['\n'] from rfl, ← h, List.append_assoc]
  rfl

/-- a text has one line more than line breaks -/
theorem length_lines (t : String) : (lines t).length = t.toList.count '\n' + 1 := by
  have key (acc cs : List Char) : (Text.splitGo ['\n'] 0 acc cs).length = cs.count '\n' + 1 := by
    induction cs generalizing acc with
    | nil => simp [Text.splitGo]
    | cons c cs ih =>
      rw [Text.splitGo, List.count_cons]
      by_cases hc : c = '\n'
      · subst hc
        simp [List.isPrefixOf, ih]
      · simp [List.isPrefixOf, ih, hc, Ne.symm hc]
  simpa [lines, Text.splitOn] using key [] t.toList

/-- what was read of a line only stands before the rest of it -/
theorem splitGo_acc (c : Char) (acc cs : List Char) : ∃ l ls, Text.splitGo [c] 0 [] cs = l :: ls ∧
    Text.splitGo [c] 0 acc cs = (acc.reverse ++ l) :: ls := by
  induction cs generalizing acc with
  | nil => exact ⟨[], [], by simp [Text.splitGo], by simp [Text.splitGo]⟩
  | cons d cs ih =>
    by_cases hd : c = d
    · exact ⟨[], Text.splitGo [c] 0 [] cs, by simp [Text.splitGo, hd], by simp [Text.splitGo, hd]⟩
    · obtain ⟨l, ls, hl, hone⟩ := ih [d]
      obtain ⟨l', ls', hl', hacc⟩ := ih (d :: acc)
      rw [hl] at hl'
      obtain ⟨rfl, rfl⟩ := List.cons.inj hl'
      refine ⟨d :: l, ls, ?_, ?_⟩
      · simp [Text.splitGo, List.isPrefixOf, hd, hone]
      · simp [Text.splitGo, List.isPrefixOf, hd, hacc]

theorem splitGo_skip {c : Char} {as : List Char} (h : c ∉ as) (acc cs : List Char) :
    Text.splitGo [c] 0 acc (as ++ cs) = Text.splitGo [c] 0 (as.reverse ++ acc) cs := by
  induction as generalizing acc with
  | nil => simp
  | cons d as ih =>
    have hd : ¬ c = d := fun heq => h (heq ▸ List.mem_cons_self)
    rw [List.cons_append, Text.splitGo, if_neg (by simpa [List.isPrefixOf] using hd), ih fun hc => h (List.mem_cons_of_mem d hc)]
    simp

/-- the first line of a text goes on behind what stands before it without a line break -/
theorem lines_front {a : String} (h : '\n' ∉ a.toList) (b : String) :
    ∃ l ls, lines b = l :: ls ∧ lines (a ++ b) = (a ++ l) :: ls := by
  obtain ⟨l, ls, hl, hacc⟩ := splitGo_acc '\n' a.toList.reverse b.toList
  have hskip := splitGo_skip h [] b.toList
  rw [List.append_nil] at hskip
  refine ⟨String.ofList l, ls.map String.ofList, ?_, ?_⟩
  · rw [lines, Text.splitOn, show "\n".toList = ['\n'] from rfl, hl, List.map_cons]
  · rw [lines, Text.splitOn, show "\n".toList = ['\n'] from rfl, String.toList_append, hskip, hacc, List.map_cons,
      List.reverse_reverse, String.ofList_append, String.ofList_toList]

/-- is the line a comment? -/
def isComment (line : String) : Bool := Text.startsWith line "//"

/-- the lines of a text but its comments -/
def codeLines (t : String) : List String := (lines t).filter fun l => !isComment l

theorem codeLines_append (a b : String) : codeLines (a ++ "\n" ++ b) = codeLines a ++ codeLines b := by
  rw [codeLines, lines_append, List.filter_append]
  rfl

/-- the text takes up some whole lines of a source, and that many -/
def Spans (t : String) (n : Nat) (src : String) : Prop :=
  (∃ above below, lines src = above ++ lines t ++ below) ∧ (lines t).length = n

/-! ## Comments -/

/-- the comment that calls the document by its title -/
def titleComment (o : Options) (title : String) : String :=
  "// " ++ (if o.funcName = "" then "Validate" else o.funcName) ++ " checks " ++ (if title = "" then "a value" else title)
    ++ "."

/-- the comment that names a definition -/
def definitionComment (number : Nat) (name : String) : String :=
  "// " ++ functionName number ++ " validates #/definitions/" ++ name ++ "."

/-- the lines that a title puts among the code -/
def spilled (title : String) : List String := (lines (title ++ ".")).tail.filter fun l => !isComment l

theorem isComment_append (a b : String) : isComment ("//" ++ a ++ b) = true := by
  rw [isComment, Text.startsWith, String.toList_append, String.toList_append]
  exact List.isPrefixOf_iff_prefix.2 ⟨a.toList ++ b.toList, (List.append_assoc ..).symm⟩

/-- the comment of a title is a comment but for what stands behind the first line break of the title -/
theorem codeLines_titleComment {o : Options} (ho : '\n' ∉ o.funcName.toList) (title : String) :
    codeLines (titleComment o title) = spilled title := by
  have hname : '\n' ∉ (if o.funcName = "" then "Validate" else o.funcName).toList := by
    split
    · decide
    · exact ho
  have hspilled : spilled (if title = "" then "a value" else title) = spilled title := by
    split
    · rename_i heq
      subst heq
      decide
    · rfl
  have hfront : '\n' ∉ ("// " ++ (if o.funcName = "" then "Validate" else o.funcName) ++ " checks ").toList := by
    rw [String.toList_append, String.toList_append]
    simp only [List.mem_append, not_or]
    exact ⟨⟨by decide, hname⟩, by decide⟩
  obtain ⟨l, ls, hl, hall⟩ := lines_front hfront ((if title = "" then "a value" else title) ++ ".")
  have htitle : titleComment o title =
      ("// " ++ (if o.funcName = "" then "Validate" else o.funcName) ++ " checks ")
        ++ ((if title = "" then "a value" else title) ++ ".") := by
    rw [titleComment, String.append_assoc]
  have hfirst : isComment ("// " ++ (if o.funcName = "" then "Validate" else o.funcName) ++ " checks " ++ l) = true := by
    have h := isComment_append (" " ++ ((if o.funcName = "" then "Validate" else o.funcName) ++ " checks ")) l
    rwa [← String.append_assoc, ← String.append_assoc] at h
  rw [← hspilled, codeLines, htitle, hall, spilled, hl, List.tail_cons, List.filter_cons_of_neg (by simp [hfirst])]

/-! ## Files -/

theorem break_append (t : String) : "\n\n" ++ t = "\n" ++ ("\n" ++ t) := by
  rw [← String.append_assoc]
  rfl

theorem dot_break : ".\n" = "." ++ "\n" := rfl

/-- the text of a file above the comment of its title -/
def File.above (f : File) : String := "// Code generated by skemac. DO NOT EDIT.\n\n" ++ "package " ++ f.package ++ "\n"

/-- what stands in a file below the comment of its title: the segments of the header from there on, and all others -/
def File.below (f : File) : List Segment :=
  f.header.drop 9 ++ (f.assertion ++ (f.declarations ++ f.functions.flatMap Function.segments))

theorem File.text_title (f : File) :
    f.text = f.above ++ "\n" ++ ("// " ++ f.funcName ++ " checks " ++ f.title ++ ".") ++ "\n" ++ textOf f.below := by
  have hhead : textOf (f.header.take 9) = f.above ++ "\n" ++ ("// " ++ f.funcName ++ " checks " ++ f.title ++ ".") ++ "\n" := by
    unfold File.above
    simp only [File.header, List.take_succ_cons, List.take_zero, textOf_cons, textOf_nil, Segment.text, String.append_empty,
      break_append, String.append_assoc]
    rw [dot_break]
  calc f.text = textOf f.segments := f.segments_text.symm
    _ = textOf (f.header.take 9 ++ f.below) := by rw [File.below, ← List.append_assoc, List.take_append_drop, File.segments]
    _ = textOf (f.header.take 9) ++ textOf f.below := textOf_append _ _
    _ = _ := by rw [hhead]

/-- the text of a function whose node is that of a definition -/
theorem Function.text_definition {g : Function} {name : String} (h : g.definition = some name) :
    ∃ below, g.text = "\n" ++ definitionComment g.number name ++ "\n" ++ below := by
  refine ⟨textOf (g.signature ++ (g.preamble ++ (g.body.flatMap Statement.segments ++ [.code "\x7d\n"]))), ?_⟩
  have hremark : textOf g.remark = definitionComment g.number name ++ "\n" := by
    simp only [Function.remark, h, textOf_cons, textOf_nil, Segment.text, definitionComment, String.append_empty,
      String.append_assoc]
    rw [dot_break]
  calc g.text = textOf g.segments := g.segments_text.symm
    _ = "\n" ++ (textOf g.remark ++ _) := by rw [Function.segments, textOf_cons, textOf_append, Segment.text]
    _ = _ := by rw [hremark, ← String.append_assoc, ← String.append_assoc]

/-- the comment of a definition takes up whole lines of the file, one more than the name has line breaks -/
theorem File.spans_definition {f : File} {g : Function} (hg : g ∈ f.functions) {name : String}
    (h : g.definition = some name) : Spans (definitionComment g.number name) (name.toList.count '\n' + 1) f.text := by
  constructor
  · obtain ⟨before, after, hf⟩ := List.append_of_mem hg
    obtain ⟨below, hbelow⟩ := Function.text_definition h
    have htext : f.text =
        textOf (f.header ++ (f.assertion ++ (f.declarations ++ before.flatMap Function.segments))) ++ "\n"
          ++ definitionComment g.number name ++ "\n" ++ (below ++ textOf (after.flatMap Function.segments)) := by
      rw [← f.segments_text, File.segments, hf]
      simp only [List.flatMap_append, List.flatMap_cons, textOf_append, g.segments_text, hbelow, String.append_assoc]
    rw [htext, lines_append, lines_append]
    exact ⟨_, _, rfl⟩
  · have hfree : ("// " ++ functionName g.number ++ " validates #/definitions/").toList.count '\n' = 0 := by
      have hdigits : '\n' ∉ (toString g.number).toList := by
        rw [Text.toList_toString_nat]
        intro hmem
        exact absurd (Nat.isDigit_of_mem_toDigits (by decide) (by decide) hmem) (by decide)
      apply List.count_eq_zero_of_not_mem
      simp only [functionName, String.toList_append, List.mem_append, not_or]
      exact ⟨⟨by decide, by decide, hdigits⟩, by decide⟩
    have hdot : ".".toList.count '\n' = 0 := by decide
    rw [length_lines, definitionComment, String.toList_append, List.count_append, String.toList_append, List.count_append,
      hfree, hdot, Nat.zero_add, Nat.add_zero]

/-! ## Generated files -/

/-- functions are numbered in their order, and each is told the definition of its node -/
theorem functions_definition {es : List (String × Nat)} {coerce : Bool} {id : Nat} {shapes : List Shape} {pool pool' : Pool}
    {fs : List Function} (h : functions es coerce id shapes pool = .ok (fs, pool')) {i : Nat} {s : Shape}
    (hs : shapes[i]? = some s) : ∃ g, fs[i]? = some g ∧ g.number = id + i ∧ g.definition = definitionAt? es (id + i) := by
  induction shapes generalizing id pool fs i with
  | nil => cases hs
  | cons t shapes ih =>
    simp only [functions] at h
    obtain ⟨f, mid, hf, h⟩ := gen_bind_ok h
    obtain ⟨gs, mid', hgs, h⟩ := gen_bind_ok h
    obtain ⟨rfl, rfl⟩ := gen_pure_ok h
    cases i with
    | zero =>
      unfold function at hf
      obtain ⟨rs, _, -, hf⟩ := gen_bind_ok hf
      obtain ⟨ss, _, -, hf⟩ := gen_bind_ok hf
      obtain ⟨rfl, rfl⟩ := gen_pure_ok hf
      exact ⟨_, rfl, rfl, rfl⟩
    | succ i =>
      obtain ⟨g, hg, hnumber, hdefinition⟩ := ih hgs (by simpa using hs)
      refine ⟨g, by simpa using hg, ?_, ?_⟩
      · rw [hnumber]
        omega
      · rw [hdefinition, show id + 1 + i = id + (i + 1) by omega]

section

variable {p : Program} {o : Options}

/-- the numbers of present shapes grow -/
theorem numbers_increase {ss : List Shape} (h : ∀ s ∈ ss, s.isAbsent = false) (k : Nat) :
    (∀ n ∈ numbers k ss, k ≤ n) ∧ (numbers k ss).Pairwise (· < ·) := by
  induction ss generalizing k with
  | nil => simp [numbers]
  | cons s ss ih =>
    obtain ⟨hle, hlt⟩ := ih (fun t ht => h t (List.mem_cons_of_mem s ht)) (k + s.size)
    have hsize : 0 < s.size := by
      obtain ⟨ts, hts⟩ := Shape.nodes_ne_nil (h s (by simp))
      rw [← Shape.length_nodes, hts]
      simp
    simp only [numbers, h s (by simp), Bool.false_eq_true, if_false]
    refine ⟨List.forall_mem_cons.2 ⟨Nat.le_refl k, fun n hn => ?_⟩, List.pairwise_cons.2 ⟨fun n hn => ?_, hlt⟩⟩
    · have := hle n hn
      omega
    · have := hle n hn
      omega

/-- definitions of different names start at different nodes -/
theorem entryOf_injective (hpresent : ∀ s ∈ p.shapes, s.isAbsent = false) {m n : String} {k : Nat}
    (hm : entryOf? (entries p) m = some k) (hn : entryOf? (entries p) n = some k) : m = n := by
  have hroot := hpresent p.root List.mem_cons_self
  obtain ⟨hle, hlt⟩ := numbers_increase (fun s hs => hpresent s (List.mem_cons_of_mem _ hs)) p.root.size
  have hsize : 0 < p.root.size := by
    obtain ⟨ts, hts⟩ := Shape.nodes_ne_nil hroot
    rw [← Shape.length_nodes, hts]
    simp
  -- the root stands at the beginning, every definition behind it
  have hpositive {name : String} (hname : name ≠ "") (h : entryOf? (entries p) name = some k) : 0 < k := by
    have hk := hle k (List.of_mem_zip (entryOf_listed hroot hname h)).2
    omega
  by_cases hm' : m = "" <;> by_cases hn' : n = ""
  · rw [hm', hn']
  · rw [hm', entryOf_root hroot] at hm
    have := hpositive hn' hn
    simp at hm
    omega
  · rw [hn', entryOf_root hroot] at hn
    have := hpositive hm' hm
    simp at hn
    omega
  · obtain ⟨i, hi⟩ := List.mem_iff_getElem?.1 (entryOf_listed hroot hm' hm)
    obtain ⟨j, hj⟩ := List.mem_iff_getElem?.1 (entryOf_listed hroot hn' hn)
    obtain ⟨hmi, hki⟩ := List.getElem?_zip_eq_some.1 hi
    obtain ⟨hnj, hkj⟩ := List.getElem?_zip_eq_some.1 hj
    have hnodup : (numbers p.root.size (p.names.map p.definition)).Nodup := hlt.imp fun h => h.ne
    have hij : i = j := by
      obtain ⟨hi, rfl⟩ := List.getElem?_eq_some_iff.1 hki
      obtain ⟨hj, hsame⟩ := List.getElem?_eq_some_iff.1 hkj
      exact ((List.Nodup.getElem_inj_iff hnodup).1 hsame).symm
    subst hij
    rw [hmi] at hnj
    exact Option.some.inj hnj

/-- every definition has an entry, which leads to a node -/
theorem entryOf_names (hpresent : ∀ s ∈ p.shapes, s.isAbsent = false) {name : String} (h : name ∈ p.names) :
    ∃ k s, entryOf? (entries p) name = some k ∧ p.nodes[k]? = some s := by
  have hroot := hpresent p.root List.mem_cons_self
  by_cases hname : name = ""
  · obtain ⟨ts, hts⟩ := Shape.nodes_ne_nil hroot
    have hplaced := placed_root (p := p)
    rw [hts] at hplaced
    exact ⟨0, p.root, by rw [hname, entryOf_root hroot], hplaced.head⟩
  · obtain ⟨k, hk⟩ : ∃ k, entryOf? (entries p) name = some k := by
      rw [← Option.isSome_iff_exists, entryOf?, Option.isSome_map, List.find?_isSome]
      obtain ⟨i, hi⟩ := List.mem_iff_getElem?.1 h
      have hlen := (placed_definitions hpresent).length_eq
      have hlt : i < (numbers p.root.size (p.names.map p.definition)).length := by
        rw [hlen, List.length_map]
        exact (List.getElem?_eq_some_iff.1 hi).1
      refine ⟨(name, (numbers p.root.size (p.names.map p.definition))[i]), ?_, by simp⟩
      rw [List.mem_reverse, entries_eq hroot]
      exact List.mem_append_left _ (List.mem_of_getElem? (List.getElem?_zip_eq_some.2 ⟨hi, List.getElem?_eq_getElem hlt⟩))
    obtain ⟨i, hi⟩ := List.mem_iff_getElem?.1 (entryOf_listed hroot hname hk)
    obtain ⟨hni, hki⟩ := List.getElem?_zip_eq_some.1 hi
    have hplaced := forall₂_getElem? (placed_definitions hpresent) hki (by rw [List.getElem?_map, hni, Option.map_some])
    obtain ⟨ts, hts⟩ := Shape.nodes_ne_nil (hpresent (p.definition name)
      (List.mem_cons_of_mem _ (List.mem_map_of_mem (List.mem_of_getElem? hni))))
    rw [hts] at hplaced
    exact ⟨k, _, hk, hplaced.head⟩

/-- the node where a definition starts is called by its name -/
theorem definitionAt_entry (hpresent : ∀ s ∈ p.shapes, s.isAbsent = false) {name : String} (h : name ∈ p.names) {k : Nat}
    (hk : entryOf? (entries p) name = some k) : definitionAt? (entries p) k = some name := by
  have hroot := hpresent p.root List.mem_cons_self
  have hlisted : name ∈ (entries p).dropLast.reverse.map (·.1) := by
    have hlen := (placed_definitions hpresent).length_eq
    rw [entries_eq hroot, List.dropLast_concat, List.map_reverse, List.mem_reverse, List.map_fst_zip]
    · exact h
    · rw [hlen, List.length_map]
  cases hfind : definitionAt? (entries p) k with
  | none => exact absurd hk (by simpa using List.find?_eq_none.1 hfind name hlisted)
  | some m =>
    have hm : entryOf? (entries p) m = some k := by simpa using List.find?_some hfind
    rw [entryOf_injective hpresent hm hk]

/-- a file is made of the functions of all nodes, and of the names that are given or the usual ones -/
theorem generate_ok {f : File} : generate p o = .ok f ↔ ∃ fs pool,
    functions (entries p) o.coerce 0 p.nodes {} = .ok (fs, pool) ∧ f = {
      package := if o.package = "" then "validator" else o.package
      funcName := if o.funcName = "" then "Validate" else o.funcName
      title := if p.title = "" then "a value" else p.title
      assert := o.assert
      entry := (entryOf? (entries p) "").getD 0
      vars := pool.made.reverse
      functions := fs } := by
  unfold generate
  cases hf : functions (entries p) o.coerce 0 p.nodes {} with
  | error e => simp [hf]
  | ok r =>
    obtain ⟨fs, pool⟩ := r
    simp only [hf, Except.ok.injEq, Prod.mk.injEq]
    constructor
    · intro h
      exact ⟨fs, pool, ⟨rfl, rfl⟩, h.symm⟩
    · rintro ⟨_, _, ⟨rfl, rfl⟩, h⟩
      exact h.symm

/-- every definition is named in the comment of one function -/
theorem generate_names {f : File} (h : generate p o = .ok f) (hpresent : ∀ s ∈ p.shapes, s.isAbsent = false)
    {name : String} (hname : name ∈ p.order) : ∃ g ∈ f.functions, g.definition = some name := by
  obtain ⟨k, s, hk, hs⟩ := entryOf_names hpresent (Program.mem_names.2 hname)
  obtain ⟨fs, pool, hf, rfl⟩ := generate_ok.1 h
  obtain ⟨g, hg, -, hdefinition⟩ := functions_definition hf hs
  refine ⟨g, List.mem_of_getElem? hg, ?_⟩
  rw [hdefinition, Nat.zero_add, definitionAt_entry hpresent (Program.mem_names.2 hname) hk]

theorem render_ok {src : String} : render p o = .ok src ↔ ∃ f, generate p o = .ok f ∧ f.text = src := by
  unfold render
  cases hgen : generate p o with
  | ok f => simp
  | error e => cases e <;> simp [abort, failWith]

/-- the source of a program has, above and below the comment of its title, what the source has with any other title -/
theorem render_parts {src : String} (h : render p o = .ok src) : ∃ above below, ∀ title,
    render { p with title := title } o = .ok (above ++ "\n" ++ titleComment o title ++ "\n" ++ below) := by
  obtain ⟨f, hgen, rfl⟩ := render_ok.1 h
  obtain ⟨fs, pool, hf, hfile⟩ := generate_ok.1 hgen
  refine ⟨f.above, textOf f.below, fun title => render_ok.2 ⟨{ f with title := if title = "" then "a value" else title }, ?_, ?_⟩⟩
  · exact generate_ok.2 ⟨fs, pool, hf, by rw [hfile]; rfl⟩
  · rw [File.text_title, hfile]
    rfl

/-- every definition that is present is named in a comment, which takes up one line more than the name has line breaks -/
theorem render_spans {src : String} (h : render p o = .ok src) (hpresent : ∀ s ∈ p.shapes, s.isAbsent = false)
    {name : String} (hname : name ∈ p.order) :
    ∃ k, Spans (definitionComment k name) (name.toList.count '\n' + 1) src := by
  obtain ⟨f, hgen, rfl⟩ := render_ok.1 h
  obtain ⟨g, hg, hdefinition⟩ := generate_names hgen hpresent hname
  exact ⟨g.number, File.spans_definition hg hdefinition⟩

/-- all shapes of the program of a document are present -/
theorem lower_shapes_present {S : Schema} {c : CompileOptions} (h : Program.lower S c = .ok p) :
    ∀ s ∈ p.shapes, s.isAbsent = false := by
  obtain ⟨hroot, hdefinitions⟩ := Lowering.program_top h
  intro s hs
  rcases List.mem_cons.1 hs with rfl | hs
  · exact Lowering.lower_present hroot
  · obtain ⟨name, hname, rfl⟩ := List.mem_map.1 hs
    have hin := Program.mem_names.1 hname
    rw [(Lowering.lower_program h).2.2, sortStrings, List.mem_mergeSort] at hin
    obtain ⟨e, he, rfl⟩ := List.mem_map.1 hin
    obtain ⟨x, hx, hdefinition, -⟩ := hdefinitions e he
    rw [hdefinition]
    exact Lowering.lower_present hx

/-- the source of a document names every definition of it -/
theorem render_spans_lowered {S : Schema} {c : CompileOptions} (hp : Program.lower S c = .ok p) {src : String}
    (h : render p o = .ok src) {name : String} (hname : name ∈ p.order) :
    ∃ k, Spans (definitionComment k name) (name.toList.count '\n' + 1) src :=
  render_spans h (lower_shapes_present hp) hname

end

/-- **Comments hold what has no line break.** Under two titles a program has the same code, that is lines but comments, just
where the comments of the two titles have the same code in them (`codeLines_titleComment`: what stands behind their first
line break); and the comment that names a definition takes up one line more than the name has line breaks. -/
theorem render_comments (p : Program) (o : Options) {src : String} (h : render p o = .ok src) :
    (∀ t u, ∃ source source', render { p with title := t } o = .ok source ∧ render { p with title := u } o = .ok source' ∧
      (codeLines source = codeLines source' ↔ codeLines (titleComment o t) = codeLines (titleComment o u))) ∧
    ((∀ s ∈ p.shapes, s.isAbsent = false) → ∀ name ∈ p.order,
      ∃ k, Spans (definitionComment k name) (name.toList.count '\n' + 1) src) := by
  constructor
  · intro t u
    obtain ⟨above, below, hrender⟩ := render_parts h
    refine ⟨_, _, hrender t, hrender u, ?_⟩
    simp only [codeLines_append, List.append_cancel_right_eq, List.append_cancel_left_eq]
  · exact fun hpresent name hname => render_spans h hpresent hname

/-- texts, and a definition whose name has a blank -/
def shortTexts : Program where
  root := .ref {} "a text"
  defs := [("a text", .primitive {} { type := .string })]
  order := ["a text"]

theorem render_comments_shortTexts : ∃ src, render shortTexts {} = .ok src ∧
    (∃ source source', render { shortTexts with title := "a" } {} = .ok source ∧
      render { shortTexts with title := "b" } {} = .ok source' ∧
      (codeLines source = codeLines source' ↔ codeLines (titleComment {} "a") = codeLines (titleComment {} "b"))) ∧
    ∃ k, Spans (definitionComment k "a text") 1 src := by
  obtain ⟨src, hsrc⟩ : ∃ src, render shortTexts {} = .ok src := ⟨_, rfl⟩
  obtain ⟨htitles, hnames⟩ := render_comments shortTexts {} hsrc
  exact ⟨src, hsrc, htitles "a" "b", hnames (by decide) "a text" (by decide)⟩

/-- **Titles that go on as code.** The second line of the title stands among the code. -/
theorem render_spills : ∃ source source', render { shortTexts with title := "a" } {} = .ok source ∧
    render { shortTexts with title := "a\nfunc init() \x7b\x7d //" } {} = .ok source' ∧ codeLines source ≠ codeLines source' := by
  obtain ⟨src, hsrc⟩ : ∃ src, render shortTexts {} = .ok src := ⟨_, rfl⟩
  obtain ⟨above, below, hrender⟩ := render_parts hsrc
  refine ⟨_, _, hrender "a", hrender "a\nfunc init() \x7b\x7d //", ?_⟩
  simp only [codeLines_append, ne_eq, List.append_cancel_right_eq, List.append_cancel_left_eq]
  decide

end Schemata.Source
