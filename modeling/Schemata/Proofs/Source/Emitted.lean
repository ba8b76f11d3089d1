import Mathlib.Tactic
import Schemata.Proofs.Source.Mentions

/-!
The sources of documents, read as text.

Main results: `render_closed` (a source defines each function and each variable once, and names those that are meant) and
`Program.usedFormats_checked` (the formats that a program reports are those whose checks its source hands to the helper for formats).
Titles and names of definitions stand in comments as they are, so both hold of those without a line break:
`render_reopened` and `Program.usedFormats_unreported` are titles that go on as code.
-/

namespace Schemata.Source

/-! ## Generated files -/

/-- the package and the function are given free names -/
structure Options.Free (o : Options) : Prop where
  package : o.package = "" ∨ isFree o.package = true
  name : o.funcName = "" ∨ isFree o.funcName = true

/-- the title and the names of definitions stay in one line -/
structure InLines (p : Program) : Prop where
  title : OneLine p.title
  names : ∀ name ∈ p.order, OneLine name

section Generated

variable {p : Program} {o : Options} {f : File}

theorem isFree_must {w : String} (h : isWord w = true) : isFree ("Must" ++ w) = true := by
  have hword : isWord ("Must" ++ w) = true := isWord_append (by decide) (Bool.and_eq_true_iff.1 h).2
  -- the names that are mentioned begin with other letters
  have hfirst : ("Must" ++ w).toList = 'M' :: 'u' :: 's' :: 't' :: w.toList := String.toList_append
  have hne (stem : String) (hstem : (stem.toList.head? == some 'M') = false) : "Must" ++ w ≠ stem := by
    rintro rfl
    rw [hfirst] at hstem
    cases hstem
  simp [isFree, hword, Atom.isQuiet, isGiven, numbered, hfirst, List.isPrefixOf, hne "func" (by decide),
    hne "require" (by decide)]

/-- only definitions are called by a name -/
theorem definitionAt_names {k : Nat} {name : String} (h : definitionAt? (entries p) k = some name) : name ∈ p.names := by
  obtain ⟨e, he, rfl⟩ := List.mem_map.1 (List.mem_of_find?_eq_some h)
  rw [List.mem_reverse, entries, List.dropLast_concat] at he
  exact (List.of_mem_zip he).1

theorem generate_tidy (h : generate p o = .ok f) (ho : o.Free) (hp : InLines p) : f.Tidy := by
  have hcount := (generate_made h).count
  obtain ⟨fs, pool, hf, rfl⟩ := generate_ok.1 h
  have hname : isFree (if o.funcName = "" then "Validate" else o.funcName) = true := by
    split
    · decide
    · exact ho.name.resolve_left ‹_›
  have hpackage : isFree (if o.package = "" then "validator" else o.package) = true := by
    split
    · decide
    · exact ho.package.resolve_left ‹_›
  have htitle : OneLine (if p.title = "" then "a value" else p.title) := by
    split
    · decide
    · exact hp.title
  refine ⟨hpackage, hname, isFree_must (quiet_of_free hname).1, htitle, fun g hg name hdefinition => ?_⟩
  · obtain ⟨i, hi⟩ := List.mem_iff_getElem?.1 hg
    have hlt : i < p.nodes.length := hcount ▸ (List.getElem?_eq_some_iff.1 hi).1
    obtain ⟨g', hg', -, hat⟩ := functions_definition hf (List.getElem?_eq_getElem hlt)
    obtain rfl := Option.some.inj (hi.symm.trans hg')
    exact hp.names name (Program.mem_names.1 (definitionAt_names (hat ▸ hdefinition)))

theorem generate_mentions (h : generate p o = .ok f) (ho : o.Free) (hp : InLines p) : mentions f.text = f.mentions :=
  (File.closes (generate_tidy h ho hp) (generate_made h).written).mentions

theorem numbered_variableName (v : Variable) : numbered "v" v.name = false := by
  unfold Variable.name
  cases v.initial <;> simp [numbered, String.toList_append, List.isPrefixOf]

theorem Statement.defined_mentions (st : Statement) : st.mentions.filterMap Mention.defined? = [] := by
  have hcheck : (st.format?.map fun f => Mention.checked f.functionName).toList.filterMap Mention.defined? = [] := by
    cases st.format? <;> rfl
  simp only [mentions, List.filterMap_append, List.filterMap_map, hcheck, List.append_nil, Function.comp_def, Mention.defined?,
    List.filterMap_none]

theorem Statement.used_mentions (st : Statement) : st.mentions.filterMap Mention.used? =
    st.variables.map Variable.name ++ st.calls.map fun c => functionName c.2 := by
  have hcheck : (st.format?.map fun f => Mention.checked f.functionName).toList.filterMap Mention.used? = [] := by
    cases st.format? <;> rfl
  simp only [mentions, List.filterMap_append, List.filterMap_map, hcheck, List.append_nil, Function.comp_def, Mention.used?,
    List.filterMap_eq_map']

theorem Statement.checked_mentions (st : Statement) :
    st.mentions.filterMap Mention.checked? = (st.format?.map Format.functionName).toList := by
  have hcheck : (st.format?.map fun f => Mention.checked f.functionName).toList.filterMap Mention.checked? =
      (st.format?.map Format.functionName).toList := by
    cases st.format? <;> rfl
  simp only [mentions, List.filterMap_append, List.filterMap_map, hcheck, Function.comp_def, Mention.checked?, List.filterMap_none,
    List.nil_append]

theorem File.defined_mentions (f : File) : f.mentions.filterMap Mention.defined? =
    f.vars.map Variable.name ++ (f.functions.map Function.number).map functionName := by
  have hfunction (g : Function) : g.mentions.filterMap Mention.defined? = [functionName g.number] := by
    simp only [Function.mentions, List.filterMap_cons, Mention.defined?, List.filterMap_append, List.filterMap_map, Function.comp_def,
      List.filterMap_none, List.nil_append, List.filterMap_flatMap, Statement.defined_mentions]
    rw [List.flatMap_eq_nil_iff.2 fun _ _ => rfl]
  simp only [mentions, List.filterMap_cons, Mention.defined?, List.filterMap_append, List.filterMap_map, Function.comp_def,
    List.filterMap_eq_map', List.filterMap_flatMap, hfunction, List.map_map]
  rw [← List.map_eq_flatMap]

/-- the names that a function uses: its rules, and what its statements name -/
def Function.uses (g : Function) : List String :=
  g.rules.map Variable.name ++ g.body.flatMap fun st => st.variables.map Variable.name ++ st.calls.map fun c => functionName c.2

theorem File.used_mentions (f : File) :
    f.mentions.filterMap Mention.used? = functionName f.entry :: f.functions.flatMap Function.uses := by
  have hfunction (g : Function) : g.mentions.filterMap Mention.used? = g.uses := by
    simp only [Function.mentions, List.filterMap_cons, Mention.used?, List.filterMap_append, List.filterMap_map, Function.comp_def,
      List.filterMap_eq_map', List.filterMap_flatMap, Statement.used_mentions, Function.uses]
  simp only [mentions, List.filterMap_cons, Mention.used?, List.filterMap_append, List.filterMap_map, Function.comp_def,
    List.filterMap_none, List.nil_append, List.filterMap_flatMap, hfunction]

theorem File.checked_mentions (f : File) : f.mentions.filterMap Mention.checked? = f.checkers := by
  have hfunction (g : Function) : g.mentions.filterMap Mention.checked? = (formatsOf g.body).map Format.functionName := by
    simp only [Function.mentions, List.filterMap_cons, Mention.checked?, List.filterMap_append, List.filterMap_map, Function.comp_def,
      List.filterMap_none, List.nil_append, List.filterMap_flatMap, Statement.checked_mentions, formatsOf, List.map_filterMap]
    rw [List.filterMap_eq_flatMap_toList]
  simp only [mentions, List.filterMap_cons, Mention.checked?, List.filterMap_append, List.filterMap_map, Function.comp_def,
    List.filterMap_none, List.nil_append, List.filterMap_flatMap, hfunction, File.checkers]

/-- names of functions are told from those of variables by their stem -/
theorem filter_names (vs : List Variable) (cs : List (Slot × Nat)) :
    ((vs.map Variable.name ++ cs.map fun c => functionName c.2).filter (numbered "v") = cs.map fun c => functionName c.2) ∧
    (vs.map Variable.name ++ cs.map fun c => functionName c.2).filter (fun w => !numbered "v" w) = vs.map Variable.name := by
  have hvariable : ∀ w ∈ vs.map Variable.name, numbered "v" w = false :=
    List.forall_mem_map.2 fun v _ => numbered_variableName v
  have hfunction : ∀ w ∈ cs.map fun c => functionName c.2, numbered "v" w = true :=
    List.forall_mem_map.2 fun c _ => numbered_nat _ c.2
  rw [List.filter_append, List.filter_append, List.filter_eq_self.2 hfunction,
    List.filter_eq_nil_iff.2 fun w hw => by simp [hvariable w hw], List.filter_eq_self.2 fun w hw => by simp [hvariable w hw],
    List.filter_eq_nil_iff.2 fun w hw => by simp [hfunction w hw]]
  exact ⟨List.nil_append _, List.append_nil _⟩

theorem Function.uses_functions (g : Function) : g.uses.filter (numbered "v") = g.calls.map fun c => functionName c.2 := by
  have hrules := (filter_names g.rules []).1
  simp only [List.map_nil, List.append_nil] at hrules
  simp only [uses, List.filter_append, List.filter_flatMap, (filter_names _ _).1, hrules, List.nil_append, calls, callsOf,
    List.map_flatMap]

theorem Function.uses_variables (g : Function) : g.uses.filter (fun w => !numbered "v" w) = g.variables.map Variable.name := by
  have hrules := (filter_names g.rules []).2
  simp only [List.map_nil, List.append_nil] at hrules
  simp only [uses, List.filter_append, List.filter_flatMap, (filter_names _ _).2, hrules, Function.variables, variablesOf, List.map_append,
    List.map_flatMap]

/-- functions have names of their own -/
theorem functionName_injective {m n : Nat} (h : functionName m = functionName n) : m = n := by
  simpa [functionName] using h

end Generated

/-! ## Sources of documents -/

section Sources

variable {S : Schema} {c : CompileOptions} {p : Program} {o : Options} {text : String}

/-- **Generated source is closed.** Let the title and the names of definitions stay in one line, and let the names that the caller
chooses be free. Then the source of a document defines the variables of a closed file and one function for each node, each name once;
the functions that it names are the one of the root and, function by function, those of the nodes that are meant; and it names
every variable once. -/
theorem render_closed (h : Program.lower S c = .ok p) (hrender : render p o = .ok text) (ho : o.Free) (hp : InLines p) :
    ∃ f, generate p o = .ok f ∧ f.text = text ∧ f.Closed p ∧
      definitions text = f.vars.map Variable.name ++ (List.range p.nodes.length).map functionName ∧ (definitions text).Nodup ∧
      (uses text).filter (numbered "v") =
        functionName f.entry :: f.functions.flatMap (fun g => g.calls.map fun c => functionName c.2) ∧
      (uses text).filter (fun w => !numbered "v" w) = f.vars.map Variable.name := by
  obtain ⟨f, hf, rfl⟩ := render_ok.1 hrender
  have hclosed := (generate_made hf).closed (lower_shapes_present h) (Lowering.program_complete h)
  have hmentions := generate_mentions hf ho hp
  have hdefinitions : definitions f.text = f.vars.map Variable.name ++ (List.range p.nodes.length).map functionName := by
    rw [definitions, hmentions, f.defined_mentions, hclosed.defined]
  have huses : uses f.text = functionName f.entry :: f.functions.flatMap Function.uses := by rw [uses, hmentions, f.used_mentions]
  have hentry : numbered "v" (functionName f.entry) = true := numbered_nat _ _
  refine ⟨f, hf, rfl, hclosed, hdefinitions, ?_, ?_, ?_⟩
  · rw [hdefinitions]
    refine hclosed.distinct.append (List.nodup_range.map fun _ _ => functionName_injective) ?_
    intro w hw hw'
    obtain ⟨v, -, rfl⟩ := List.mem_map.1 hw
    obtain ⟨n, -, hn⟩ := List.mem_map.1 hw'
    have := numbered_nat "v" n
    rw [show "v" ++ toString n = v.name from hn, numbered_variableName v] at this
    cases this
  · simp only [huses, List.filter_cons, hentry, if_true, List.filter_flatMap, Function.uses_functions]
  · simp only [huses, List.filter_cons, hentry, Bool.not_true, Bool.false_eq_true, if_false, List.filter_flatMap,
      Function.uses_variables]
    exact hclosed.named

end Sources

/-- trees with labels, in which a branch leads back to the whole -/
def treesText : String :=
  "\x7b\"properties\":\x7b\"label\":\x7b\"pattern\":\"^a\"\x7d,\"tree\":\x7b\"$ref\":\"#/definitions/tree\"\x7d\x7d," ++
    "\"definitions\":\x7b" ++ "\"tree\":\x7b\"anyOf\":[\x7b\"enum\":[\"leaf\"]\x7d,\x7b\"items\":\x7b\"$ref\":\"#\"\x7d\x7d]\x7d\x7d\x7d"

theorem render_closed_trees : ∃ (S : Schema) (p : Program) (f : File), Schema.decode treesText = .ok S ∧
    Program.lower S {} = .ok p ∧ generate p {} = .ok f ∧ f.Closed p ∧
    definitions f.text = ["re0", "enum1", "v0", "v1", "v2", "v3", "v4", "v5", "v6"] ∧
    (uses f.text).filter (numbered "v") = ["v0", "v1", "v2", "v3", "v4", "v5", "v6", "v0"] ∧
    (uses f.text).filter (fun w => !numbered "v" w) = ["re0", "enum1"] := by
  obtain ⟨S, hS, hlowers⟩ : ∃ S, Schema.decode treesText = .ok S ∧
      Lowering.lowersTo {} (fun p => (generate p {}).toOption.any fun f => decide (p.title = "" ∧ p.order = ["tree"] ∧
        p.nodes.length = 7 ∧ f.vars.map Variable.name = ["re0", "enum1"] ∧
        (functionName f.entry :: f.functions.flatMap fun g => g.calls.map fun c => functionName c.2) =
          ["v0", "v1", "v2", "v3", "v4", "v5", "v6", "v0"])) S = true := by
    apply Schema.decode_ofList
    · unfold treesText
      repeat' first | apply Schema.ofList_append | with_reducible exact rfl
    · decide +kernel
  obtain ⟨p, hp, hall⟩ := Lowering.lower_of_lowersTo hlowers
  obtain ⟨f, hf, hall⟩ := ok_of_any hall
  obtain ⟨htitle, horder, hnodes, hvars, hcalls⟩ := of_decide_eq_true hall
  have hrender : render p {} = .ok f.text := render_ok.2 ⟨f, hf, rfl⟩
  have hlines : InLines p := ⟨by rw [htitle]; decide, by rw [horder]; decide⟩
  obtain ⟨g, hg, -, hclosed, hdefinitions, -, hfunctions, hvariables⟩ := render_closed hp hrender ⟨.inl rfl, .inl rfl⟩ hlines
  obtain rfl : f = g := Except.ok.inj (hf.symm.trans hg)
  rw [hvars, hnodes] at hdefinitions
  exact ⟨S, p, f, hS, hp, hf, hclosed, hdefinitions, hfunctions.trans hcalls, hvariables.trans hvars⟩

/-- a title whose second line is a function -/
def reopeningText : String := "\x7b\"title\":\"a\\nfunc v0() \x7b\x7d //\"\x7d"

/-- the mentions of the text of a file, segment by segment -/
def File.mentionsIn (f : File) : List Mention :=
  mentionsFrom false (atomsOf (f.segments.flatMap fun s => Text.charsOf s.text))

theorem File.mentionsIn_eq (f : File) : f.mentionsIn = Source.mentions f.text := by
  simp only [mentionsIn, Text.charsOf_eq, Source.mentions, atoms, ← f.segments_text, ← chars_eq, chars]

/-- **Titles that define functions.** The second line of the title defines the function of the root once more. -/
theorem render_reopened : ∃ (S : Schema) (p : Program) (text : String), Schema.decode reopeningText = .ok S ∧
    Program.lower S {} = .ok p ∧ render p {} = .ok text ∧ definitions text = ["v0", "v0"] := by
  obtain ⟨S, hS, hlowers⟩ : ∃ S, Schema.decode reopeningText = .ok S ∧
      Lowering.lowersTo {} (fun p => (generate p {}).toOption.any fun f =>
        decide (f.mentionsIn.filterMap Mention.defined? = ["v0", "v0"])) S = true := by
    apply Schema.decode_ofList
    · unfold reopeningText
      with_reducible exact rfl
    · decide +kernel
  obtain ⟨p, hp, hall⟩ := Lowering.lower_of_lowersTo hlowers
  obtain ⟨f, hf, hall⟩ := ok_of_any hall
  refine ⟨S, p, f.text, hS, hp, render_ok.2 ⟨f, hf, rfl⟩, ?_⟩
  rw [definitions, ← f.mentionsIn_eq]
  exact of_decide_eq_true hall

end Schemata.Source

namespace Schemata.Program

open Source (InLines checks)

/-- **A program reports the formats that its source checks.** The formats of the program of a document are in order, each
once, and there are none where formats are not asked for; and a format is never the reason for the program to have no
source. Let the title and the names of definitions stay in one line, and let the names that the caller chooses be free:
then the formats are those whose checks some function of the source hands to the helper for formats. -/
theorem usedFormats_checked {S : Schema} {c : CompileOptions} {p : Program} (h : Program.lower S c = .ok p) :
    p.usedFormats.Pairwise (· < ·) ∧ (c.formats = false → p.usedFormats = []) ∧
    (∀ (o : Source.Options) text, Source.render p o = .ok text → o.Free → InLines p →
      ∀ f, f ∈ p.usedFormats ↔ ∃ k, Format.ofName? f = some k ∧ k.functionName ∈ checks text) ∧
    ∀ o n, Source.generate p o ≠ .error (.unknownFormat n) := by
  refine ⟨usedFormats_sorted p, usedFormats_off h, fun o text hrender ho hp f => ?_,
    Source.generate_knows (Lowering.program_formatted h)⟩
  obtain ⟨file, hfile, rfl⟩ := Source.render_ok.1 hrender
  rw [checks, Source.generate_mentions hfile ho hp, file.checked_mentions]
  exact mem_usedFormats_iff h hfile f

/-- a list of addresses beside a day, and beside the listed texts whose check takes the place of a format's -/
def addressesText : String :=
  "\x7b\"properties\":\x7b\"day\":\x7b\"format\":\"date\"\x7d,\"kind\":\x7b\"format\":\"uuid\",\"enum\":[\"a\"]\x7d," ++
    "\"to\":\x7b\"items\":\x7b\"format\":\"email\"\x7d\x7d\x7d\x7d"

theorem usedFormats_checked_addresses : ∃ S p text, Schema.decode addressesText = .ok S ∧
    Program.lower S { formats := true } = .ok p ∧ Source.render p {} = .ok text ∧ p.usedFormats = ["date", "email"] ∧
    checks text = ["Date", "Email"] ∧
    ∀ f, f ∈ p.usedFormats ↔ ∃ k, Format.ofName? f = some k ∧ k.functionName ∈ checks text := by
  obtain ⟨S, hS, hlowers⟩ : ∃ S, Schema.decode addressesText = .ok S ∧ Lowering.lowersTo { formats := true } (fun p =>
      (Source.generate p {}).toOption.any fun file => decide (p.title = "" ∧ p.order = [] ∧ p.usedFormats = ["date", "email"] ∧
        file.checkers = ["Date", "Email"])) S = true := by
    apply Schema.decode_ofList
    · unfold addressesText
      repeat' first | apply Schema.ofList_append | with_reducible exact rfl
    · decide +kernel
  obtain ⟨p, hp, hall⟩ := Lowering.lower_of_lowersTo hlowers
  obtain ⟨file, hfile, hall⟩ := ok_of_any hall
  obtain ⟨htitle, horder, hused, hcheckers⟩ := of_decide_eq_true hall
  have hrender : Source.render p {} = .ok file.text := Source.render_ok.2 ⟨file, hfile, rfl⟩
  have hlines : InLines p := ⟨by rw [htitle]; decide, by rw [horder]; decide⟩
  have hfree : Source.Options.Free {} := ⟨.inl rfl, .inl rfl⟩
  have hchecks : checks file.text = ["Date", "Email"] := by
    rw [checks, Source.generate_mentions hfile hfree hlines, file.checked_mentions, hcheckers]
  exact ⟨S, p, file.text, hS, hp, hrender, hused, hchecks, (usedFormats_checked hp).2.2.1 {} _ hrender hfree hlines⟩

/-- a title whose second line is a function that checks a format -/
def checkingText : String :=
  "\x7b\"title\":\"a\\nfunc w(s string, p skemac.Pointer, iss *skemac.Issues) \x7b require(" ++
    "\\\"github.com/reoring/skemac/validator\\\").Format(s, p, iss, \\\"email\\\", " ++
    "require(\\\"github.com/reoring/skemac/formats\\\").Email) \x7d //\"\x7d"

/-- **Titles that check formats.** The second line of the title hands a check to the helper for formats, and the program
reports no format. -/
theorem usedFormats_unreported : ∃ S p text, Schema.decode checkingText = .ok S ∧ Program.lower S {} = .ok p ∧
    Source.render p {} = .ok text ∧ p.usedFormats = [] ∧ checks text = ["Email"] := by
  obtain ⟨S, hS, hlowers⟩ : ∃ S, Schema.decode checkingText = .ok S ∧ Lowering.lowersTo {} (fun p =>
      (Source.generate p {}).toOption.any fun file => decide (p.usedFormats = [] ∧
        file.mentionsIn.filterMap Source.Mention.checked? = ["Email"])) S = true := by
    apply Schema.decode_ofList
    · unfold checkingText
      repeat' first | apply Schema.ofList_append | with_reducible exact rfl
    · decide +kernel
  obtain ⟨p, hp, hall⟩ := Lowering.lower_of_lowersTo hlowers
  obtain ⟨file, hfile, hall⟩ := ok_of_any hall
  obtain ⟨hused, hchecks⟩ := of_decide_eq_true hall
  refine ⟨S, p, file.text, hS, hp, Source.render_ok.2 ⟨file, hfile, rfl⟩, hused, ?_⟩
  rw [checks, ← file.mentionsIn_eq]
  exact hchecks

end Schemata.Program
