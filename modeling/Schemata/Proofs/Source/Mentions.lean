import Mathlib.Tactic
import Schemata.Proofs.Source.Atoms
import Schemata.Proofs.Source.Calls

/-!
What the text of a generated file mentions.

`mentions` lists, in the order of a text, the functions and variables that it defines or uses, told by the names that the generator
gives them, and the checks that it hands to the helper for formats. `Says` and `Closes` are texts with their mentions: statements,
functions and files are put together from them, with what may stand between two of them.

Main result: `File.closes`. The text of a file mentions what its parts mention, in their order, if its title and the names of
its definitions stay in the line of their comments.
-/

namespace Schemata.Source

/-! ## Mentions -/

inductive Mention where
  | defined (name : String)
  | used (name : String)
  /-- handed to the helper for formats -/
  | checked (check : String)
  deriving Repr, DecidableEq

/-- is the name the stem with a number behind it? -/
def numbered (stem name : String) : Bool :=
  stem.toList.isPrefixOf name.toList &&
    (!(name.toList.drop stem.toList.length).isEmpty && (name.toList.drop stem.toList.length).all Char.isDigit)

/-- is the name one that functions and variables of the generator have? -/
def isGiven (name : String) : Bool := ["v", "re", "rule", "enum"].any fun stem => numbered stem name

/-- the name that is loaded from the package, and what stands behind the load -/
def loaded? (p : Package) : List Atom → Option (String × List Atom)
  | .word r :: .mark '(' :: .quoted path :: .mark ')' :: .mark '.' :: .word name :: rest =>
    if r = "require" ∧ path = p.path then some (name, rest) else none
  | _ => none

/-- the check that is handed to the helper for formats, where a call of this helper begins -/
def formatCheck? (as : List Atom) : Option String :=
  match loaded? .validator as with
  | some ("Format", .mark '(' :: .word _ :: .mark ',' :: .word _ :: .mark ',' :: .word _ :: .mark ',' :: .quoted _ :: .mark ',' :: args) =>
    (loaded? .formats args).map (·.1)
  | _ => none

/-- the mention that begins with an atom, behind the keyword of functions or not -/
def mention? (keyword : Bool) (a : Atom) (after : List Atom) : Option Mention :=
  match a with
  | .word w =>
    if isGiven w then some (if keyword ∨ after.head? = some (.mark '=') then .defined w else .used w)
    else (formatCheck? (a :: after)).map .checked
  | _ => none

def mentionsFrom (keyword : Bool) : List Atom → List Mention
  | [] => []
  | a :: as => (mention? keyword a as).toList ++ mentionsFrom (a = .word "func") as

/-- the mentions of a text, in order -/
def mentions (t : String) : List Mention := mentionsFrom false (atoms t)

def Mention.defined? : Mention → Option String
  | defined name => some name
  | _ => none

def Mention.used? : Mention → Option String
  | used name => some name
  | _ => none

def Mention.checked? : Mention → Option String
  | checked check => some check
  | _ => none

/-- the functions and variables that a text defines, by their names -/
def definitions (t : String) : List String := (mentions t).filterMap Mention.defined?

/-- the functions and variables that a text names elsewhere -/
def uses (t : String) : List String := (mentions t).filterMap Mention.used?

/-- the checks that a text hands to the helper for formats -/
def checks (t : String) : List String := (mentions t).filterMap Mention.checked?

/-! ## Atoms with their mentions -/

/-- no part of a mention -/
def Atom.isQuiet : Atom → Bool
  | .word w => !isGiven w && w != "func" && w != "require"
  | _ => true

/-- the atoms have these mentions, whatever stands behind them, unless it is an assignment -/
structure Tells (as : List Atom) (ms : List Mention) : Prop where
  head : as.head? ≠ some (.mark '=')
  mentions : ∀ bs, bs.head? ≠ some (.mark '=') → mentionsFrom false (as ++ bs) = ms ++ mentionsFrom false bs

section Tells

variable {as bs : List Atom} {ms ns : List Mention} {w : String}

theorem Tells.append (ha : Tells as ms) (hb : Tells bs ns) : Tells (as ++ bs) (ms ++ ns) := by
  constructor
  · cases as with
    | nil => exact hb.head
    | cons a as => exact ha.head
  · intro cs hcs
    have hhead : (bs ++ cs).head? ≠ some (.mark '=') := by
      cases bs with
      | nil => exact hcs
      | cons b bs => exact hb.head
    rw [List.append_assoc, ha.mentions _ hhead, hb.mentions cs hcs, List.append_assoc]

theorem formatCheck_quiet {w : String} (h : w ≠ "require") (as : List Atom) : formatCheck? (.word w :: as) = none := by
  have hnone : loaded? .validator (.word w :: as) = none := by
    unfold loaded?
    split
    · rename_i heq
      cases heq
      simp [h]
    · rfl
  rw [formatCheck?, hnone]

theorem tells_quiet (h : as.all Atom.isQuiet = true) (hhead : as.head? ≠ some (.mark '=')) : Tells as [] := by
  refine ⟨hhead, fun bs _ => ?_⟩
  clear hhead
  induction as with
  | nil => rfl
  | cons a as ih =>
    rw [List.all_cons, Bool.and_eq_true] at h
    have hnone : mention? false a (as ++ bs) = none ∧ a ≠ .word "func" := by
      cases a with
      | word w =>
        simp only [Atom.isQuiet, Bool.and_eq_true, Bool.not_eq_true', bne_iff_ne] at h
        simp [mention?, h.1, formatCheck_quiet]
      | quoted body => simp [mention?]
      | mark c => simp [mention?]
    rw [List.cons_append, mentionsFrom, hnone.1, decide_eq_false hnone.2]
    exact ih h.2

theorem given_ne (h : isGiven w = true) : w ≠ "func" ∧ w ≠ "require" := by
  constructor <;> rintro rfl <;> revert h <;> decide

theorem tells_used (h : isGiven w = true) : Tells [.word w] [.used w] := by
  refine ⟨by simp, fun bs hbs => ?_⟩
  simp [mentionsFrom, mention?, h, hbs, (given_ne h).1]

/-- a name behind the keyword of functions -/
theorem tells_defined (h : isGiven w = true) : Tells [.word "func", .word w] [.defined w] := by
  refine ⟨by simp, fun bs _ => ?_⟩
  have hnone : mention? false (.word "func") (.word w :: bs) = none := by
    simp [mention?, formatCheck_quiet, show isGiven "func" = false by decide]
  simp only [List.cons_append, List.nil_append, mentionsFrom, hnone, decide_true]
  simp [mention?, h, (given_ne h).1]

theorem tells_function (h : Atom.isQuiet (.word w) = true) : Tells [.word "func", .word w] [] := by
  refine ⟨by simp, fun bs _ => ?_⟩
  have hnone : mention? false (.word "func") (.word w :: bs) = none := by
    simp [mention?, formatCheck_quiet, show isGiven "func" = false by decide]
  simp only [Atom.isQuiet, Bool.and_eq_true, Bool.not_eq_true', bne_iff_ne] at h
  simp only [List.cons_append, List.nil_append, mentionsFrom, hnone, decide_true]
  simp [mention?, h, formatCheck_quiet]

/-- a name before an assignment -/
theorem tells_declared (h : isGiven w = true) : Tells [.word w, .mark '='] [.defined w] := by
  refine ⟨by simp, fun bs _ => ?_⟩
  simp [mentionsFrom, mention?, h]

/-- a load is read on behind its first word -/
theorem mentionsFrom_load (p : Package) {name : String} (h : Atom.isQuiet (.word name) = true) {bs : List Atom}
    (hbs : bs.head? ≠ some (.mark '=')) :
    mentionsFrom false (loadAtoms p name ++ bs) =
      ((formatCheck? (loadAtoms p name ++ bs)).map Mention.checked).toList ++ mentionsFrom false bs := by
  have hrest : Tells [.mark '(', .quoted p.path, .mark ')', .mark '.', .word name] [] :=
    tells_quiet (by simp only [List.all_cons, h]; rfl) (by simp)
  have hcons : loadAtoms p name ++ bs = .word "require" :: ((loadAtoms p name).tail ++ bs) := rfl
  have hfirst : mention? false (.word "require") ((loadAtoms p name).tail ++ bs) =
      (formatCheck? (loadAtoms p name ++ bs)).map .checked := by
    rw [mention?, if_neg (by decide), hcons]
  rw [hcons, mentionsFrom, hfirst, decide_eq_false (by decide), hcons]
  exact congrArg _ (hrest.mentions bs hbs)

theorem tells_load (p : Package) {name : String} (h : Atom.isQuiet (.word name) = true) (hformat : name ≠ "Format") :
    Tells (loadAtoms p name) [] := by
  refine ⟨by simp [loadAtoms], fun bs hbs => ?_⟩
  have hnone : formatCheck? (loadAtoms p name ++ bs) = none := by
    unfold formatCheck?
    split
    · rename_i heq
      simp only [loadAtoms, List.cons_append, loaded?] at heq
      split at heq
      · simp [hformat] at heq
      · cases heq
    · rfl
  rw [mentionsFrom_load p h hbs, hnone]
  rfl

/-- the arguments of the helper for formats, up to the check that it is given -/
def formatAtoms (body : String) : List Atom :=
  [.mark '(', .word "s", .mark ',', .word "p", .mark ',', .word "iss", .mark ',', .quoted body, .mark ',']

theorem tells_format (body : String) {check : String} (h : Atom.isQuiet (.word check) = true) (hformat : check ≠ "Format") :
    Tells (loadAtoms .validator "Format" ++ (formatAtoms body ++ loadAtoms .formats check)) [.checked check] := by
  refine ⟨by simp [loadAtoms], fun bs hbs => ?_⟩
  have hs : isGiven "s" = false := by decide
  have hp : isGiven "p" = false := by decide
  have hiss : isGiven "iss" = false := by decide
  have hquiet : Tells (formatAtoms body) [] :=
    tells_quiet (by simp [formatAtoms, Atom.isQuiet, hs, hp, hiss]) (by simp [formatAtoms])
  have hargs : Tells (formatAtoms body ++ loadAtoms .formats check) [] := hquiet.append (tells_load .formats h hformat)
  have hcheck : formatCheck? (loadAtoms .validator "Format" ++ (formatAtoms body ++ loadAtoms .formats check ++ bs)) = some check := by
    simp [formatCheck?, loaded?, loadAtoms, formatAtoms]
  have hhead : (formatAtoms body ++ loadAtoms .formats check ++ bs).head? ≠ some (.mark '=') := by simp [formatAtoms]
  rw [List.append_assoc, mentionsFrom_load .validator (by decide) hhead, hcheck, hargs.mentions bs hbs]
  rfl

end Tells

/-! ## Texts with their mentions -/

/-- the text has these mentions, if no name goes on behind it -/
def Says (t : String) (ms : List Mention) : Prop := ∃ as, ReadsAs t as ∧ Tells as ms

/-- the text has these mentions, whatever stands behind it -/
def Closes (t : String) (ms : List Mention) : Prop := ∃ as, StopsAs t as ∧ Tells as ms

/-- a text without mentions -/
def isSilent (t : String) : Bool :=
  (Reader.code.run t.toList).2.rests && (atoms t).all Atom.isQuiet && (atoms t).head? != some (.mark '=')

/-- a text without mentions that anything may stand behind -/
def isPlain (t : String) : Bool := isSilent t && (Reader.code.run t.toList).2 == .code

/-- a text without mentions that anything may stand before and behind -/
def isJoint (t : String) : Bool := isPlain t && breaks t

/-- a name that is loaded and mentions nothing -/
def isHelper (name : String) : Bool := isWord name && Atom.isQuiet (.word name) && name != "Format"

section Says

variable {t u : String} {ms ns : List Mention}

theorem Closes.mentions (h : Closes t ms) : Source.mentions t = ms := by
  obtain ⟨as, hrun, htells⟩ := h
  have hall := htells.mentions [] (by simp)
  rw [List.append_nil, mentionsFrom, List.append_nil] at hall
  rw [Source.mentions, hrun.reads.2, hall]

theorem Closes.toSays (h : Closes t ms) : Says t ms := h.imp fun _ h => ⟨h.1.reads, h.2⟩

theorem Closes.before (ht : Closes t ms) (hu : Says u ns) : Says (t ++ u) (ms ++ ns) := by
  obtain ⟨as, hrun, has⟩ := ht
  obtain ⟨bs, hreads, hbs⟩ := hu
  exact ⟨as ++ bs, hrun.append_reads hreads, has.append hbs⟩

theorem Closes.append (ht : Closes t ms) (hu : Closes u ns) : Closes (t ++ u) (ms ++ ns) := by
  obtain ⟨as, hrun, has⟩ := ht
  obtain ⟨bs, hreads, hbs⟩ := hu
  exact ⟨as ++ bs, hrun.append hreads, has.append hbs⟩

theorem Says.append (ht : Says t ms) (hu : Says u ns) (hb : breaks u = true) : Says (t ++ u) (ms ++ ns) := by
  obtain ⟨as, hrun, has⟩ := ht
  obtain ⟨bs, hreads, hbs⟩ := hu
  exact ⟨as ++ bs, hrun.append hreads hb, has.append hbs⟩

theorem Says.append_closes (ht : Says t ms) (hu : Closes u ns) (hb : breaks u = true) : Closes (t ++ u) (ms ++ ns) := by
  obtain ⟨as, hrun, has⟩ := ht
  obtain ⟨bs, hreads, hbs⟩ := hu
  exact ⟨as ++ bs, hrun.append_stops hreads hb, has.append hbs⟩

theorem says_silent (h : isSilent t = true) : Says t [] := by
  simp only [isSilent, Bool.and_eq_true, bne_iff_ne] at h
  exact ⟨atoms t, ⟨h.1.1, rfl⟩, tells_quiet h.1.2 h.2⟩

theorem closes_plain (h : isPlain t = true) : Closes t [] := by
  simp only [isPlain, isSilent, Bool.and_eq_true, bne_iff_ne, beq_iff_eq] at h
  have hatoms : atoms t = (Reader.code.run t.toList).1 := by
    rw [atoms, atomsOf, h.2]
    exact List.append_nil _
  exact ⟨atoms t, Prod.ext hatoms.symm h.2, tells_quiet h.1.1.2 h.1.2⟩

/-- a text behind one without mentions -/
theorem Says.behind (h : Says u ns) (ht : isPlain t = true) : Says (t ++ u) ns := (closes_plain ht).before h

theorem Closes.behind (h : Closes u ns) (ht : isPlain t = true) : Closes (t ++ u) ns := (closes_plain ht).append h

/-- a text before one without mentions -/
theorem Says.joint (h : Says t ms) (hu : isJoint u = true) : Closes (t ++ u) ms := by
  rw [isJoint, Bool.and_eq_true] at hu
  have := h.append_closes (closes_plain hu.1) hu.2
  rwa [List.append_nil] at this

theorem says_tail {args : String} (ht : Says t ms) (h : Says args ns) : Says (t ++ tail args) (ms ++ ns) := by
  unfold tail
  split
  · rename_i hnone
    subst hnone
    rw [String.append_empty]
    obtain ⟨bs, hreads, hbs⟩ := h
    obtain rfl : [] = bs := hreads.2
    have hnone := hbs.mentions [] (by simp)
    obtain rfl : [] = ns := by simpa [mentionsFrom] using hnone
    rwa [List.append_nil]
  · exact ht.append (h.behind (by decide)) (breaks_append (by decide) args)

theorem says_intercalate {α : Type} {l : List α} {f : α → String} {g : α → List Mention} (h : ∀ a ∈ l, Says (f a) (g a)) :
    Says (", ".intercalate (l.map f)) (l.flatMap g) := by
  induction l with
  | nil => exact says_silent (t := "") (by decide)
  | cons a l ih =>
    have hrest := ih fun b hb => h b (List.mem_cons_of_mem a hb)
    rw [List.map_cons, List.flatMap_cons]
    cases l with
    | nil => simpa using h a List.mem_cons_self
    | cons b l =>
      rw [List.map_cons, String.intercalate_cons_cons]
      exact ((h a List.mem_cons_self).joint (by decide)).before hrest

/-- texts one after the other -/
theorem closes_join {α : Type} {l : List α} {f : α → String} {g : α → List Mention} (h : ∀ a ∈ l, Closes (f a) (g a)) :
    Closes (String.join (l.map f)) (l.flatMap g) := by
  induction l with
  | nil => exact closes_plain (t := "") (by decide)
  | cons a l ih =>
    rw [List.map_cons, String.join_cons, List.flatMap_cons]
    exact (h a List.mem_cons_self).append (ih fun b hb => h b (List.mem_cons_of_mem a hb))

/-! ## Names, quoted strings, numbers and loads -/

theorem numbered_nat (stem : String) (n : Nat) : numbered stem (stem ++ toString n) = true := by
  rw [numbered, String.toList_append, Text.toList_toString_nat, List.drop_left]
  simp only [Bool.and_eq_true, List.isPrefixOf_iff_prefix, List.prefix_append, Bool.not_eq_true', List.isEmpty_eq_false_iff, ne_eq,
    Nat.toDigits_ne_nil, not_false_eq_true, true_and]
  exact List.all_eq_true.2 fun c hc => Nat.isDigit_of_mem_toDigits (by decide) (by decide) hc

theorem isGiven_functionName (n : Nat) : isGiven (functionName n) = true :=
  List.any_eq_true.2 ⟨"v", by simp, numbered_nat _ n⟩

theorem isGiven_variableName (v : Variable) : isGiven v.name = true := by
  unfold Variable.name
  cases v.initial with
  | pattern t => exact List.any_eq_true.2 ⟨"re", by simp, numbered_nat _ v.number⟩
  | rule r => exact List.any_eq_true.2 ⟨"rule", by simp, numbered_nat _ v.number⟩
  | values ts => exact List.any_eq_true.2 ⟨"enum", by simp, numbered_nat _ v.number⟩

theorem isWord_functionName (n : Nat) : isWord (functionName n) = true := isWord_append (by decide) (continues_nat n)

theorem isWord_variableName (v : Variable) : isWord v.name = true := by
  unfold Variable.name
  refine isWord_append ?_ (continues_nat v.number)
  split <;> decide

theorem says_used {w : String} (hword : isWord w = true) (h : isGiven w = true) : Says w [.used w] :=
  ⟨_, reads_word hword, tells_used h⟩

theorem says_function (n : Nat) : Says (functionName n) [.used (functionName n)] :=
  says_used (isWord_functionName n) (isGiven_functionName n)

theorem says_variable (v : Variable) : Says v.name [.used v.name] :=
  says_used (isWord_variableName v) (isGiven_variableName v)

theorem says_functionNames (ns : List Nat) : Says (functionNames ns) (ns.map fun n => .used (functionName n)) := by
  have h := says_intercalate (l := ns) fun n _ => says_function n
  rwa [← List.map_eq_flatMap] at h

theorem says_quote (s : String) : Says (Text.quote s) [] := by
  obtain ⟨body, h⟩ := stops_quote s
  exact ⟨_, h.reads, tells_quiet rfl (by simp)⟩

theorem says_quoted (ss : List String) : Says (quoted ss) [] := by
  have h := says_intercalate (l := ss) (g := fun _ => []) fun s _ => says_quote s
  rwa [List.flatMap_eq_nil_iff.2 fun _ _ => rfl] at h

theorem says_flag (b : Bool) : Says (flag b) [] := says_silent (by cases b <;> decide)

/-- the characters of numbers make up no name that is mentioned -/
theorem quiet_numeral {as : List Atom} (h : as.all Atom.isNumeral = true) : as.all Atom.isQuiet = true := by
  refine List.all_eq_true.2 fun a ha => ?_
  have hnumeral := List.all_eq_true.1 h a ha
  cases a with
  | quoted body => rfl
  | mark c => rfl
  | word w =>
    -- every name that is mentioned has a character that no number has
    have hother : ∀ stem ∈ ["v", "re", "rule", "enum", "func", "require"], stem.toList.all isNumeral = false := by decide
    have hlead {stem : String} (hstem : stem ∈ ["v", "re", "rule", "enum", "func", "require"]) : ¬ stem.toList <+: w.toList := by
      intro hpre
      have hall : stem.toList.all isNumeral = true :=
        List.all_eq_true.2 fun c hc => List.all_eq_true.1 hnumeral c (hpre.subset hc)
      rw [hother stem hstem] at hall
      cases hall
    have hgiven : isGiven w = false := by
      rw [isGiven, List.any_eq_false]
      intro stem hstem hnumbered
      rw [numbered, Bool.and_eq_true, List.isPrefixOf_iff_prefix] at hnumbered
      exact hlead (List.mem_append_left ["func", "require"] hstem) hnumbered.1
    have hne {stem : String} (hstem : stem ∈ ["v", "re", "rule", "enum", "func", "require"]) : w ≠ stem := by
      rintro rfl
      exact hlead hstem List.prefix_rfl
    simp [Atom.isQuiet, hgiven, hne]

theorem says_numeral (h : Numeral t) : Says t [] := by
  obtain ⟨as, hreads, hall⟩ := reads_numeral h
  refine ⟨as, hreads, tells_quiet (quiet_numeral hall) fun hhead => ?_⟩
  have := List.all_eq_true.1 hall _ (List.mem_of_mem_head? hhead)
  revert this
  decide

theorem says_load (p : Package) (name : String) (h : isHelper name = true) : Says (load p name) [] := by
  simp only [isHelper, Bool.and_eq_true, bne_iff_ne] at h
  exact ⟨_, reads_load p h.1.1, tells_load p h.1.2 h.2⟩

theorem Written.toSays {t : String} (h : Written t) : Says t [] := by
  induction h with
  | null => exact says_silent (by decide)
  | flag b => exact says_flag b
  | quote s => exact says_quote s
  | number h => exact (((says_numeral h).behind (t := "float64(") (by decide)).joint (u := ")") (by decide)).toSays
  | @array ts h ih =>
    have hitems := says_intercalate (f := id) (g := fun _ => []) ih
    rw [List.map_id, List.flatMap_eq_nil_iff.2 fun _ _ => rfl] at hitems
    exact ((hitems.behind (t := "[]any\x7b") (by decide)).joint (u := "\x7d") (by decide)).toSays
  | @object es h ih =>
    have hfields := says_intercalate (f := fun e : String × String => Text.quote e.1 ++ ": " ++ e.2) (g := fun _ => [])
      fun e he => ((says_quote e.1).joint (u := ": ") (by decide)).before (ih e he)
    rw [List.flatMap_eq_nil_iff.2 fun _ _ => rfl] at hfields
    exact ((hfields.behind (t := "map[string]any\x7b") (by decide)).joint (u := "\x7d") (by decide)).toSays

/-! ## Statements -/

def Statement.mentions (st : Statement) : List Mention :=
  st.variables.map (fun v => Mention.used v.name) ++ st.calls.map (fun c => Mention.used (functionName c.2))
    ++ (st.format?.map fun f => Mention.checked f.functionName).toList

/-- a load, and arguments of it -/
theorem closes_helper {name : String} (h : isHelper name = true) (ht : Says t ms) (hb : breaks t = true) (hu : isJoint u = true) :
    Closes ("\t" ++ (load .validator name ++ (t ++ u))) ms :=
  (((says_load .validator _ h).append_closes (ht.joint hu) (breaks_append hb u))).behind (by decide)

theorem closes_callLine {name subject args : String} (h : isHelper name = true)
    (hsubject : (isSilent ("(" ++ subject ++ ", p, iss") && breaks ("(" ++ subject ++ ", p, iss")) = true) (hargs : Says args ms) :
    Closes (callLine name subject args) ms := by
  rw [Bool.and_eq_true] at hsubject
  have hall := closes_helper h (says_tail (says_silent hsubject.1) hargs) (breaks_append hsubject.2 _) (u := ")\n") (by decide)
  rw [List.nil_append] at hall
  rw [← callSegments_text]
  simpa only [callSegments, textOf_cons, textOf_nil, Segment.text, String.append_empty] using hall

theorem Assertion.says_text (a : Assertion) : Says a.text [] := by
  have hflag {name : String} (h : isHelper name = true) (c : Bool) : Says (helper name ++ "(v, p, iss, " ++ flag c ++ ")") [] := by
    have hargs := ((says_flag c).behind (t := "(v, p, iss, ") (by decide)).joint (u := ")") (by decide)
    have hall := ((says_load .validator _ h).append_closes hargs (breaks_append (breaks_append (by decide) _) _)).toSays
    simpa only [helper, String.append_assoc, List.append_nil] using hall
  have hplain {name : String} (h : isHelper name = true) : Says (helper name ++ "(v, p, iss)") [] :=
    ((says_load .validator _ h).joint (by decide)).toSays
  cases a with
  | number c => exact hflag (by decide) c
  | integer c => exact hflag (by decide) c
  | boolean c => exact hflag (by decide) c
  | _ => exact hplain (by decide)

theorem called_mapIdx (slot : Nat → Slot) (fs : List Nat) : (fs.mapIdx fun i f => (slot i, f)).map (·.2) = fs :=
  List.ext_getElem? fun j => by simp [Function.comp_def]

/-- a statement without variables and without a format uses the functions that it calls -/
theorem Statement.mentions_calls {st : Statement} {fs : List Nat} (hvariables : st.variables = []) (hformat : st.format? = none)
    (hcalls : st.calls.map (·.2) = fs) : st.mentions = fs.map fun f => .used (functionName f) := by
  rw [mentions, hvariables, hformat, ← hcalls, List.map_map, List.map_nil, List.nil_append]
  exact List.append_nil _

theorem isHelper_format (f : Format) : isHelper f.functionName = true := by
  cases f <;> decide

/-- the check of a format is handed to the helper for formats -/
theorem closes_format (name : String) (f : Format) :
    Closes (Statement.format name f).text [.checked f.functionName] := by
  have hname := isHelper_format f
  simp only [isHelper, Bool.and_eq_true, bne_iff_ne] at hname
  obtain ⟨body, hquote⟩ := stops_quote name
  have hargs : StopsAs ("(s, p, iss, " ++ Text.quote name ++ ", ") (formatAtoms body) := by
    have hopen : StopsAs "(s, p, iss, " [.mark '(', .word "s", .mark ',', .word "p", .mark ',', .word "iss", .mark ','] := by decide
    have hcomma : StopsAs ", " [.mark ','] := by decide
    exact (hopen.append hquote).append hcomma
  have hbreaks : breaks ("(s, p, iss, " ++ Text.quote name ++ ", ") = true := breaks_append (breaks_append (by decide) _) _
  have hcall : Says (load .validator "Format" ++ (("(s, p, iss, " ++ Text.quote name ++ ", ") ++ load .formats f.functionName))
      [.checked f.functionName] :=
    ⟨_, (reads_load .validator (by decide)).append (hargs.append_reads (reads_load .formats hname.1.1)) (breaks_append hbreaks _),
      tells_format body hname.1.2 hname.2⟩
  have hall := (hcall.joint (u := ")\n") (by decide)).behind (t := "\t") (by decide)
  rw [← Statement.segments_text]
  simpa only [Statement.segments, textOf_cons, textOf_nil, Segment.text, String.append_empty, String.append_assoc] using hall

/-- a helper that tries variants -/
theorem closes_variants {name : String} (h : isHelper name = true) (fs : List Nat) :
    Closes ("\t" ++ helper name ++ "(v, p, iss, " ++ functionNames fs ++ ")\n") (fs.map fun f => .used (functionName f)) := by
  have hargs := (says_functionNames fs).behind (t := "(v, p, iss, ") (by decide)
  have hall := closes_helper h hargs (breaks_append (by decide) _) (u := ")\n") (by decide)
  simpa only [helper, String.append_assoc] using hall

theorem Statement.closes (st : Statement) : Closes st.text st.mentions := by
  cases st with
  | assert a => exact (a.says_text.behind (by decide)).joint (by decide)
  | bind a =>
    have hsubject : isPlain ("\t" ++ a.subject ++ ", ok := ") = true := by
      unfold Assertion.subject
      split <;> decide
    exact (a.says_text.behind hsubject).joint (by decide)
  | minLength n => exact closes_callLine (by decide) (by decide) (says_numeral (numeral_int n))
  | maxLength n => exact closes_callLine (by decide) (by decide) (says_numeral (numeral_int n))
  | pattern v => exact closes_callLine (by decide) (by decide) (says_variable v)
  | format name f => exact closes_format name f
  | minimum x e =>
    exact closes_callLine (by decide) (by decide) (((says_numeral (numeral_bound x)).joint (by decide)).before (says_flag e))
  | maximum x e =>
    exact closes_callLine (by decide) (by decide) (((says_numeral (numeral_bound x)).joint (by decide)).before (says_flag e))
  | multipleOf x => exact closes_callLine (by decide) (by decide) (says_numeral (numeral_bound x))
  | minItems n => exact closes_callLine (by decide) (by decide) (says_numeral (numeral_int n))
  | maxItems n => exact closes_callLine (by decide) (by decide) (says_numeral (numeral_int n))
  | unique => exact closes_callLine (by decide) (by decide) (says_silent (by decide))
  | items f => exact closes_callLine (by decide) (by decide) (says_function f)
  | tuple n closed rest is =>
    have hcalls : (Statement.tuple n closed rest is).calls.map (·.2) = rest.toList ++ is := by
      cases rest <;> simp [calls, called_mapIdx]
    have hfirst := ((says_numeral (numeral_int n)).joint (u := ", ") (by decide)).before (says_flag closed)
    have hcall {t : String} {ms : List Mention} (hrest : Says t ms) :
        Closes (callLine "Tuple" "a" (toString n ++ ", " ++ flag closed ++ ", " ++ t ++ tail (functionNames is)))
          (ms ++ is.map fun f => .used (functionName f)) :=
      closes_callLine (by decide) (by decide) (says_tail ((hfirst.joint (by decide)).before hrest) (says_functionNames is))
    rw [mentions_calls rfl rfl hcalls, List.map_append]
    cases rest with
    | none => exact hcall (says_silent (by decide))
    | some f => exact hcall (says_function f)
  | required ks => exact closes_callLine (by decide) (by decide) (says_quoted ks)
  | field k f => exact closes_callLine (by decide) (by decide) (((says_quote k).joint (by decide)).before (says_function f))
  | unknown known => exact closes_callLine (by decide) (by decide) (says_quoted known)
  | additional f known => exact closes_callLine (by decide) (by decide) (says_tail (says_function f) (says_quoted known))
  | keyPattern v => exact closes_callLine (by decide) (by decide) (says_variable v)
  | anyOf fs =>
    have hcalls : (Statement.anyOf fs).calls.map (·.2) = fs := called_mapIdx ..
    rw [mentions_calls rfl rfl hcalls]
    exact closes_variants (by decide) fs
  | oneOf fs =>
    have hcalls : (Statement.oneOf fs).calls.map (·.2) = fs := called_mapIdx ..
    rw [mentions_calls rfl rfl hcalls]
    exact closes_variants (by decide) fs
  | tagged prop vs =>
    have hms : (Statement.tagged prop vs).mentions = vs.flatMap fun v => [.used (functionName v.2)] := by
      rw [← List.map_eq_flatMap]
      simp [mentions, Statement.variables, calls, Statement.format?]
    have hvariants : Says (", ".intercalate (vs.map fun v => Text.quote v.1 ++ ": " ++ functionName v.2))
        (vs.flatMap fun v => [.used (functionName v.2)]) :=
      says_intercalate fun v _ => ((says_quote v.1).joint (by decide)).before (says_function v.2)
    have hopen : Closes (Text.quote prop ++ ", map[string]" ++ helper "Check" ++ "\x7b") [] :=
      (((says_quote prop).joint (by decide)).before (says_load .validator _ (by decide))).joint (by decide)
    rw [hms]
    exact closes_callLine (by decide) (by decide) ((hopen.before hvariants).joint (by decide)).toSays
  | enum v => exact closes_callLine (by decide) (by decide) (((says_variable v).joint (by decide)).toSays)
  | call f => exact ((says_function f).behind (by decide)).joint (by decide)

end Says

/-! ## Files -/

def Function.mentions (g : Function) : List Mention :=
  .defined (functionName g.number) :: (g.rules.map (fun v => .used v.name) ++ g.body.flatMap Statement.mentions)

def File.mentions (f : File) : List Mention :=
  .used (functionName f.entry) :: (f.vars.map (fun v => .defined v.name) ++ f.functions.flatMap Function.mentions)

/-- a name that stands in a file as it is given, and is none of the generator's -/
def isFree (w : String) : Bool := isWord w && Atom.isQuiet (.word w)

/-- the text stays in one line -/
def OneLine (t : String) : Prop := '\n' ∉ t.toList

instance (t : String) : Decidable (OneLine t) := inferInstanceAs (Decidable (¬ _))

/-- the names that a file is given are free, and its title and the names of its definitions stay in one line -/
structure File.Tidy (f : File) : Prop where
  package : isFree f.package = true
  name : isFree f.funcName = true
  assertion : isFree ("Must" ++ f.funcName) = true
  title : OneLine f.title
  definitions : ∀ g ∈ f.functions, ∀ name, g.definition = some name → OneLine name

section Files

theorem says_free {w : String} (h : isFree w = true) : Says w [] := by
  rw [isFree, Bool.and_eq_true] at h
  exact ⟨_, reads_word h.1, tells_quiet (by simpa using h.2) (by simp)⟩

theorem says_func {w : String} {ms : List Mention} (hword : isWord w = true) (h : Tells [.word "func", .word w] ms) :
    Says ("func " ++ w) ms := by
  have hfunc : StopsAs "func " [.word "func"] := by decide
  exact ⟨_, hfunc.append_reads (reads_word hword), h⟩

theorem OneLine.append {t u : String} (ht : OneLine t) (hu : OneLine u) : OneLine (t ++ u) := by
  unfold OneLine at *
  simp [ht, hu]

theorem closes_remark {t : String} (h : OneLine t) : Closes ("// " ++ t ++ "\n") [] := by
  have hline : OneLine (" " ++ t) := OneLine.append (by decide) h
  have hslashes : "// " ++ t = "//" ++ (" " ++ t) := by
    rw [← String.append_assoc]
    rfl
  rw [hslashes]
  exact ⟨[], stops_remark hline, tells_quiet rfl (by simp)⟩

theorem oneLine_word {w : String} (h : isWord w = true) : OneLine w := by
  rw [isWord, Bool.and_eq_true] at h
  exact fun hmem => absurd (List.all_eq_true.1 h.2 _ hmem) (by decide)

theorem Function.closes_remark {g : Function} (h : ∀ name, g.definition = some name → OneLine name) :
    Closes (textOf g.remark) [] := by
  cases hd : g.definition with
  | none =>
    simp only [remark, hd]
    exact closes_plain (by decide)
  | some name =>
    have hline : OneLine (functionName g.number ++ " validates #/definitions/" ++ name ++ ".") :=
      OneLine.append (OneLine.append (OneLine.append (oneLine_word (isWord_functionName _)) (by decide)) (h name hd)) (by decide)
    have hall := Source.closes_remark hline
    simp only [remark, hd, textOf_cons, textOf_nil, Segment.text, String.append_empty]
    rw [dot_break]
    simpa only [String.append_assoc] using hall

theorem Function.closes_signature (g : Function) : Closes (textOf g.signature) [.defined (functionName g.number)] := by
  have hname : Says ("func " ++ functionName g.number) [.defined (functionName g.number)] :=
    says_func (isWord_functionName _) (tells_defined (isGiven_functionName _))
  have hpointer := (hname.joint (u := "(v any, p ") (by decide)).before (says_load .core "Pointer" (by decide))
  have hissues := (hpointer.joint (u := ", iss *") (by decide)).before (says_load .core "Issues" (by decide))
  simpa only [signature, textOf_cons, textOf_nil, Segment.text, String.append_empty, String.append_assoc, List.append_nil] using
    hissues.joint (u := ") \x7b\n") (by decide)

theorem Function.closes_preamble (g : Function) : Closes (textOf g.preamble) (g.rules.map fun v => .used v.name) := by
  have hnull : Closes (textOf (if g.nullable then [.code "\tif v == nil \x7b\n\t\treturn\n\t\x7d\n"] else [])) [] := by
    split <;> exact closes_plain (by decide)
  unfold preamble
  rw [textOf_append]
  change Closes _ ([] ++ g.rules.map fun v => .used v.name)
  refine hnull.append ?_
  split
  · rename_i hempty
    rw [List.isEmpty_iff.1 hempty]
    exact closes_plain (by decide)
  · have hrules := says_intercalate (l := g.rules) fun v _ => says_variable v
    rw [← List.map_eq_flatMap] at hrules
    have hcall := (hrules.behind (t := "(v, p, iss, len(*iss), ") (by decide)).joint (u := ")\n") (by decide)
    have hall := ((says_load .validator "Rules" (by decide)).append_closes hcall
      (breaks_append (breaks_append (by decide) _) _)).behind (t := "\tdefer ") (by decide)
    simpa only [textOf_cons, textOf_nil, Segment.text, String.append_empty, List.nil_append] using hall

theorem Function.closes {g : Function} (h : ∀ name, g.definition = some name → OneLine name) : Closes g.text g.mentions := by
  have hbody : Closes (textOf (g.body.flatMap Statement.segments)) (g.body.flatMap Statement.mentions) := by
    rw [textOf_flatMap _ Statement.segments_text]
    exact closes_join fun st _ => st.closes
  have hend : Closes (textOf [.code "\x7d\n"]) [] := closes_plain (by decide)
  rw [← g.segments_text, segments, textOf_cons, textOf_append, textOf_append, textOf_append, textOf_append]
  have hall := (closes_remark h).append (g.closes_signature.append (g.closes_preamble.append (hbody.append hend)))
  rw [List.nil_append, List.append_nil] at hall
  exact hall.behind (by decide)

theorem Initial.closes {i : Initial} (h : ∀ ts, i = .values ts → ∃ vs, literals vs = .ok ts) :
    Closes (textOf i.segments) [] := by
  have hcall (p : Package) (t : String) : Closes (load p "MustCompile" ++ ("(" ++ Text.quote t ++ ")")) [] :=
    (says_load p _ (by decide)).append_closes (((says_quote t).behind (by decide)).joint (by decide))
      (breaks_append (breaks_append (by decide) _) _)
  cases i with
  | pattern t => simpa only [segments, textOf_cons, textOf_nil, Segment.text, String.append_empty] using hcall .patterns t
  | rule r =>
    have hprogram : Says (load .validator "Predicate" ++ "\x7bProgram: " ++ load .rules "MustCompile") [] :=
      ((says_load .validator _ (by decide)).joint (by decide)).before (says_load .rules _ (by decide))
    have hexpr : Closes ("(" ++ Text.quote r.expr ++ "), Message: ") [] := ((says_quote r.expr).behind (by decide)).joint (by decide)
    have hall := hprogram.append_closes ((hexpr.before (says_quote r.message)).joint (u := "\x7d") (by decide))
      (breaks_append (breaks_append (breaks_append (breaks_append (by decide) _) _) _) _)
    simpa only [segments, textOf_cons, textOf_nil, Segment.text, String.append_empty, String.append_assoc, List.append_nil] using hall
  | values ts =>
    obtain ⟨vs, hvs⟩ := h ts rfl
    have hitems := says_intercalate (f := id) (g := fun _ => []) fun t ht => (written_literals hvs t ht).toSays
    rw [List.map_id, List.flatMap_eq_nil_iff.2 fun _ _ => rfl] at hitems
    simpa only [segments, textOf_cons, textOf_nil, Segment.text, String.append_empty] using
      (hitems.behind (t := "[]any\x7b") (by decide)).joint (u := "\x7d") (by decide)

theorem Variable.closes {v : Variable} (h : ∀ ts, v.initial = .values ts → ∃ vs, literals vs = .ok ts) :
    Closes v.text [.defined v.name] := by
  have hassign : StopsAs " = " [.mark '='] := by decide
  have hname : Closes (v.name ++ " = ") [.defined v.name] :=
    ⟨_, (reads_word (isWord_variableName v)).append_stops hassign (by decide), tells_declared (isGiven_variableName v)⟩
  have hall := ((hname.append (Initial.closes h)).append (u := "\n") (closes_plain (by decide))).behind (t := "\t") (by decide)
  rw [← v.segments_text]
  simpa only [segments, textOf_cons, textOf_append, List.cons_append, textOf_nil, Segment.text, String.append_empty,
    String.append_assoc, List.append_nil] using hall

theorem quiet_of_free {w : String} (h : isFree w = true) : isWord w = true ∧ Atom.isQuiet (.word w) = true := by
  rwa [isFree, Bool.and_eq_true] at h

/-- the head of a function that is given its name -/
theorem closes_func {w u : String} (h : isFree w = true) (hu : isJoint u = true) : Closes ("func " ++ w ++ u) [] :=
  (says_func (quiet_of_free h).1 (tells_function (quiet_of_free h).2)).joint hu

/-- the function that checks, up to its end -/
theorem File.closes_header {f : File} (h : f.Tidy) : Closes (textOf (f.header.drop 9)) [.used (functionName f.entry)] := by
  have hfunc := closes_func h.name (u := "(v any) error \x7b\n") (by decide)
  have hissues : Closes ("\tvar iss " ++ load .core "Issues" ++ "\n") [] :=
    ((says_load .core _ (by decide)).behind (by decide)).joint (by decide)
  have hentry : Closes ("\t" ++ functionName f.entry ++ "(v, ") [.used (functionName f.entry)] :=
    ((says_function f.entry).behind (by decide)).joint (by decide)
  have hroot : Closes (load .core "Root" ++ "(), &iss)\n") [] := (says_load .core _ (by decide)).joint (by decide)
  have hreturn : Closes ("\treturn " ++ load .core "AsError" ++ "(iss)\n\x7d\n") [] :=
    ((says_load .core _ (by decide)).behind (by decide)).joint (by decide)
  have hall := hfunc.append (hissues.append ((hentry.append hroot).append hreturn))
  simpa only [header, List.drop_succ_cons, List.drop_zero, textOf_cons, textOf_nil, Segment.text, String.append_empty,
    String.append_assoc, List.append_nil, List.nil_append] using hall

/-- the function that gives up, when there is one -/
theorem File.closes_assertion {f : File} (h : f.Tidy) : Closes (textOf f.assertion) [] := by
  unfold assertion
  split
  · have hname := oneLine_word (quiet_of_free h.name).1
    have hline : OneLine ("Must" ++ f.funcName ++ " is " ++ f.funcName ++ " that panics on failure.") :=
      OneLine.append (OneLine.append (OneLine.append (OneLine.append (by decide) hname) (by decide)) hname) (by decide)
    have hremark := (Source.closes_remark hline).behind (t := "\n") (by decide)
    have hfunc := closes_func h.assertion (u := "(v any) any \x7b\n") (by decide)
    have htry := ((says_free h.name).behind (t := "\tif err := ") (by decide)).joint
      (u := "(v); err != nil \x7b\n\t\tpanic(err)\n\t\x7d\n\treturn v\n\x7d\n") (by decide)
    have hall := hremark.append (hfunc.append htry)
    have hmust : "\n// Must" = "\n" ++ ("// " ++ "Must") := rfl
    have hfail : " that panics on failure.\n" = " that panics on failure." ++ "\n" := rfl
    have hhead : "func Must" = "func " ++ "Must" := rfl
    simp only [textOf_cons, textOf_nil, Segment.text, String.append_empty]
    rw [hmust, hfail, hhead]
    simpa only [String.append_assoc, List.append_nil] using hall
  · exact closes_plain (by decide)

theorem File.closes_declarations {f : File} (h : ∀ v ∈ f.vars, ∀ ts, v.initial = .values ts → ∃ vs, literals vs = .ok ts) :
    Closes (textOf f.declarations) (f.vars.map fun v => .defined v.name) := by
  unfold declarations
  split
  · rename_i hnone
    rw [List.isEmpty_iff.1 hnone]
    exact closes_plain (by decide)
  · have hvars := closes_join (l := f.vars) fun v hv => Variable.closes (h v hv)
    rw [← List.map_eq_flatMap] at hvars
    have hall := (hvars.append (u := ")\n") (closes_plain (by decide))).behind (t := "\nvar (\n") (by decide)
    simpa only [textOf_cons, textOf_append, textOf_flatMap _ Variable.segments_text, textOf_nil, Segment.text, String.append_empty,
      List.append_nil] using hall

/-- **What a file mentions.** The text of a file has the mentions of its parts. -/
theorem File.closes {f : File} (h : f.Tidy) (hvars : ∀ v ∈ f.vars, ∀ ts, v.initial = .values ts → ∃ vs, literals vs = .ok ts) :
    Closes f.text f.mentions := by
  have habove : Closes f.above [] :=
    ((says_free h.package).behind (t := "// Code generated by skemac. DO NOT EDIT.\n\n" ++ "package ") (by decide)).joint
      (u := "\n") (by decide)
  have htitle : OneLine (f.funcName ++ " checks " ++ f.title ++ ".") :=
    OneLine.append (OneLine.append (OneLine.append (oneLine_word (quiet_of_free h.name).1) (by decide)) h.title) (by decide)
  have hfunctions : Closes (textOf (f.functions.flatMap Function.segments)) (f.functions.flatMap Function.mentions) := by
    rw [textOf_flatMap _ Function.segments_text]
    exact closes_join fun g hg => Function.closes (h.definitions g hg)
  have hbelow := (closes_header h).append ((closes_assertion h).append ((closes_declarations hvars).append hfunctions))
  have hall := (habove.append (u := "\n") (closes_plain (by decide))).append ((Source.closes_remark htitle).append hbelow)
  have htext : f.text = f.above ++ "\n" ++ (("// " ++ (f.funcName ++ " checks " ++ f.title ++ ".") ++ "\n") ++ textOf f.below) := by
    rw [File.text_title]
    simp only [String.append_assoc]
  rw [htext, below, textOf_append, textOf_append, textOf_append]
  simp only [List.append_nil, List.nil_append] at hall
  exact hall

end Files

end Schemata.Source
