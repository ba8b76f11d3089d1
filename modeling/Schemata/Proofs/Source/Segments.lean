import Mathlib.Tactic
import Schemata.Proofs.Schema.Text
import Schemata.Proofs.Source.Generation
import Schemata.Proofs.Source.LoadScan
import Schemata.Proofs.Text.Quote

/-!
The segments of a generated file.

`File.segments` divides the text of a file into code, loads and bare names, in the order in which they are printed.
Main results: `File.segments_text` (the segments make up the text) and `File.segments_ready` (they stand together as
`Ready` asks: quoted strings are closed where code ends, no name goes on behind a load, and bare names are followed by
characters that continue nothing).
-/

namespace Schemata.Source

/-! ## Texts inside code -/

theorem Place.run_append (p : Place) (xs ys : List Char) : p.run (xs ++ ys) = (p.run xs).bind fun q => q.run ys := by
  induction xs generalizing p with
  | nil => rfl
  | cons c xs ih =>
    simp only [List.cons_append, Place.run]
    cases p.next c with
    | none => rfl
    | some q => exact ih q

/-- code that ends outside of quoted strings -/
def Level (t : String) : Prop := Place.outside.run t.toList = some .outside

instance (t : String) : Decidable (Level t) := inferInstanceAs (Decidable (_ = _))

/-- code that ends outside of quoted strings or right behind one -/
def Plain (t : String) : Prop := Level t ∨ Place.outside.run t.toList = some .closed

/-- code that may stand behind a quoted string as well as elsewhere -/
def Joint (t : String) : Bool :=
  Place.outside.run t.toList == some .outside && Place.closed.run t.toList == some .outside

theorem Level.plain {t : String} (h : Level t) : Plain t := .inl h

theorem Joint.level {t : String} (h : Joint t = true) : Level t := by
  simp only [Joint, Bool.and_eq_true, beq_iff_eq] at h
  exact h.1

theorem Level.append {t u : String} (ht : Level t) (hu : Level u) : Level (t ++ u) := by
  unfold Level at *
  rw [String.toList_append, Place.run_append, ht]
  exact hu

theorem Level.append_plain {t u : String} (ht : Level t) (hu : Plain u) : Plain (t ++ u) := by
  unfold Plain Level at *
  rw [String.toList_append, Place.run_append, ht]
  exact hu

theorem Plain.append {t u : String} (ht : Plain t) (hu : Joint u = true) : Level (t ++ u) := by
  simp only [Joint, Bool.and_eq_true, beq_iff_eq] at hu
  unfold Plain Level at *
  rw [String.toList_append, Place.run_append]
  rcases ht with ht | ht <;> rw [ht]
  · exact hu.1
  · exact hu.2

/-- no quote mark, and no letter that only loads have -/
def unquoted (t : String) : Bool := t.toList.all fun c => c != 'q' && c != '"'

theorem level_of_unquoted {t : String} (h : unquoted t = true) : Level t := by
  unfold unquoted at h
  unfold Level
  generalize t.toList = cs at h ⊢
  induction cs with
  | nil => rfl
  | cons c cs ih =>
    rw [List.all_cons, Bool.and_eq_true, Bool.and_eq_true, bne_iff_ne, bne_iff_ne] at h
    simp only [Place.run, Place.next, h.1.1, h.1.2, if_false, Option.bind_some]
    exact ih h.2

theorem unquoted_append {t u : String} (ht : unquoted t = true) (hu : unquoted u = true) : unquoted (t ++ u) = true := by
  simp only [unquoted, String.toList_append, List.all_append, Bool.and_eq_true] at *
  exact ⟨ht, hu⟩

theorem plain_intercalate {ts : List String} (h : ∀ t ∈ ts, Plain t) : Plain (", ".intercalate ts) := by
  induction ts with
  | nil => exact .inl rfl
  | cons t ts ih =>
    cases ts with
    | nil => simpa using h t
    | cons u ts =>
      rw [String.intercalate_cons_cons]
      exact ((h t (by simp)).append (by decide)).append_plain (ih fun w hw => h w (List.mem_cons_of_mem t hw))

/-! ## Quoted strings -/

theorem run_inside {xs : List Char} (h : ∀ c ∈ xs, c ≠ '"' ∧ c ≠ '\\') : Place.inside.run xs = some .inside := by
  induction xs with
  | nil => rfl
  | cons c xs ih =>
    obtain ⟨h1, h2⟩ := h c (by simp)
    simp only [Place.run, Place.next, h1, h2, if_false, Option.bind_some]
    exact ih fun d hd => h d (List.mem_cons_of_mem c hd)

theorem hex_chars {n width : Nat} {c : Char} (h : c ∈ (Text.hex n width).toList) : c ≠ '"' ∧ c ≠ '\\' := by
  simp only [Text.hex, String.toList_append, String.toList_ofList, List.mem_append] at h
  rcases h with h | h
  · obtain rfl := List.eq_of_mem_replicate h
    decide
  · obtain ⟨d, hd, rfl⟩ := Text.mem_toDigits (by decide) h
    interval_cases d <;> decide

theorem run_quoteChar (c : Char) : Place.inside.run (Text.quoteChar c).toList = some .inside := by
  have escape (e : Char) (xs : List Char) : Place.inside.run ('\\' :: e :: xs) = Place.inside.run xs := rfl
  rcases Text.quoteChar_cases c with ⟨e, -, h⟩ | ⟨hn, h⟩ | ⟨k, w, -, -, h⟩
  · rw [h, escape]
    rfl
  · have h1 : c ≠ '"' := by
      rintro rfl
      exact hn '"' (by decide)
    have h2 : c ≠ '\\' := by
      rintro rfl
      exact hn '\\' (by decide)
    rw [h]
    exact run_inside (by simp [h1, h2])
  · rw [h, escape]
    exact run_inside fun _ => hex_chars

theorem plain_quote (s : String) : Plain (Text.quote s) := by
  have hbody : Place.inside.run (s.toList.flatMap fun c => (Text.quoteChar c).toList) = some .inside := by
    induction s.toList with
    | nil => rfl
    | cons c cs ih => rw [List.flatMap_cons, Place.run_append, run_quoteChar, Option.bind_some, ih]
  refine .inr ?_
  have hopen (xs : List Char) : Place.outside.run ('"' :: xs) = Place.inside.run xs := rfl
  rw [Text.toList_quote, hopen, Place.run_append, hbody]
  rfl

/-! ## Numbers and names -/

/-- a character of a number, or of the name of one that is not finite -/
def isNumeral (c : Char) : Bool := Json.isNumberChar c || ['N', 'a', 'I', 'n', 'f'].contains c

/-- a text of such characters -/
def Numeral (t : String) : Prop := ∀ c ∈ t.toList, isNumeral c = true

instance (t : String) : Decidable (Numeral t) := List.decidableBAll (fun c => isNumeral c = true) t.toList

theorem Numeral.append {t u : String} (ht : Numeral t) (hu : Numeral u) : Numeral (t ++ u) := by
  unfold Numeral at *
  rw [String.toList_append]
  exact List.forall_mem_append.2 ⟨ht, hu⟩

theorem numeral_of_numeric {t : String} (h : Json.Numeric t) : Numeral t := fun c hc => by
  rw [isNumeral, h c hc, Bool.true_or]

theorem numeral_int (n : Int) : Numeral (toString n) := numeral_of_numeric (Json.spelled_int n).2

theorem numeral_number (x : Float) : Numeral (numberLiteral x) := by
  unfold numberLiteral Number.Layout.text
  split
  · decide
  · split <;> decide
  · exact Numeral.append (by split <;> decide) (numeral_of_numeric (Json.spelled_digits _ _).2)

theorem numeral_bound (x : Float) : Numeral (boundLiteral x) := by
  unfold boundLiteral
  simp only
  split
  · exact numeral_number x
  · exact (numeral_number x).append (by decide)

theorem unquoted_of_numeral {t : String} (h : Numeral t) : unquoted t = true := by
  refine List.all_eq_true.2 fun c hc => ?_
  have hne (d : Char) (hd : isNumeral d = false) : c ≠ d := by
    rintro rfl
    rw [h c hc] at hd
    cases hd
  simp [hne 'q' (by decide), hne '"' (by decide)]

theorem unquoted_nat (n : Nat) : unquoted (toString n) = true :=
  unquoted_of_numeral (numeral_of_numeric (Json.spelled_nat n).2)

theorem unquoted_functionName (n : Nat) : unquoted (functionName n) = true :=
  unquoted_append (by decide) (unquoted_nat n)

theorem unquoted_variableName (v : Variable) : unquoted v.name = true := by
  unfold Variable.name
  refine unquoted_append ?_ (unquoted_nat v.number)
  split <;> decide

theorem unquoted_flag (b : Bool) : unquoted (flag b) = true := by
  cases b <;> decide

/-! ## Values -/

/-- an expression that a value is written as -/
inductive Written : String → Prop where
  | null : Written "nil"
  | flag (b : Bool) : Written (flag b)
  | quote (s : String) : Written (Text.quote s)
  | number {t : String} (h : Numeral t) : Written ("float64(" ++ t ++ ")")
  | array {ts : List String} (h : ∀ t ∈ ts, Written t) : Written ("[]any\x7b" ++ ", ".intercalate ts ++ "\x7d")
  /-- keys, each with the expression of its value -/
  | object {es : List (String × String)} (h : ∀ e ∈ es, Written e.2) :
    Written ("map[string]any\x7b" ++ ", ".intercalate (es.map fun e => Text.quote e.1 ++ ": " ++ e.2) ++ "\x7d")

mutual

theorem written_literal {v : Value} {t : String} (h : literal v = .ok t) : Written t := by
  cases v with
  | null =>
    simp only [literal, Except.ok.injEq] at h
    subst h
    exact .null
  | bool b =>
    simp only [literal, Except.ok.injEq] at h
    subst h
    exact .flag b
  | string s =>
    simp only [literal, Except.ok.injEq] at h
    subst h
    exact .quote s
  | float x =>
    simp only [literal] at h
    split at h
    · simp only [Except.ok.injEq] at h
      subst h
      exact .number (numeral_number x)
    · cases h
  | single x => simp [literal] at h
  | literal d => simp [literal] at h
  | int signed w n =>
    cases signed <;> cases w <;> simp only [literal, reduceCtorEq, Except.ok.injEq] at h
    subst h
    exact .number (numeral_int n)
  | array xs =>
    obtain ⟨ts, hts, rfl⟩ := except_map_ok h
    exact .array (written_literals hts)
  | object fs =>
    obtain ⟨ts, hts, rfl⟩ := except_map_ok h
    obtain ⟨es, rfl, hes⟩ := written_literalFields hts
    exact .object hes

theorem written_literals {vs : List Value} {ts : List String} (h : literals vs = .ok ts) : ∀ t ∈ ts, Written t := by
  cases vs with
  | nil =>
    simp only [literals, Except.ok.injEq] at h
    subst h
    simp
  | cons v vs =>
    obtain ⟨t, us, ht, hus, rfl⟩ := literals_cons h
    exact List.forall_mem_cons.2 ⟨written_literal ht, written_literals hus⟩

theorem written_literalFields {fs : List (String × Value)} {ts : List String} (h : literalFields fs = .ok ts) :
    ∃ es : List (String × String), ts = (es.map fun e => Text.quote e.1 ++ ": " ++ e.2) ∧ ∀ e ∈ es, Written e.2 := by
  cases fs with
  | nil =>
    simp only [literalFields, Except.ok.injEq] at h
    subst h
    exact ⟨[], rfl, by simp⟩
  | cons f fs =>
    obtain ⟨k, v⟩ := f
    obtain ⟨t, us, ht, hus, rfl⟩ := literalFields_cons h
    obtain ⟨es, rfl, hes⟩ := written_literalFields hus
    exact ⟨(k, t) :: es, rfl, List.forall_mem_cons.2 ⟨written_literal ht, hes⟩⟩

end

/-- values are written as code whose quoted strings are closed -/
theorem Written.plain {t : String} (h : Written t) : Plain t := by
  induction h with
  | null => exact .inl (by decide)
  | flag b => exact .inl (level_of_unquoted (unquoted_flag b))
  | quote s => exact plain_quote s
  | number h =>
    exact .inl (level_of_unquoted (unquoted_append (unquoted_append (by decide) (unquoted_of_numeral h)) (by decide)))
  | array h ih =>
    have hlevel : Level "[]any\x7b" := by decide
    exact .inl ((hlevel.append_plain (plain_intercalate ih)).append (by decide))
  | object h ih =>
    have hlevel : Level "map[string]any\x7b" := by decide
    refine .inl ((hlevel.append_plain (plain_intercalate (List.forall_mem_map.2 fun e he => ?_))).append (by decide))
    exact ((plain_quote e.1).append (by decide)).append_plain (ih e he)

/-! ## Segments of a file -/

/-- a fixed stretch of code -/
def fixed (t : String) : Bool := Joint t && t.toList.getLast?.any endsCode

theorem quiet_append {t u : String} (ht : Plain t) (hu : fixed u = true) : Quiet (t ++ u).toList := by
  simp only [fixed, Bool.and_eq_true] at hu
  refine ⟨ht.append hu.1, ?_⟩
  rw [String.toList_append, List.getLast?_append]
  cases hc : u.toList.getLast? with
  | none => simp [hc] at hu
  | some c => simpa [hc] using hu.2

theorem quiet_fixed {u : String} (hu : fixed u = true) : Quiet u.toList := by
  have := quiet_append (t := "") (.inl rfl) hu
  simpa using this

/-- the text of segments -/
def textOf (ss : List Segment) : String := String.join (ss.map Segment.text)

theorem textOf_nil : textOf [] = "" := rfl

theorem textOf_cons (s : Segment) (ss : List Segment) : textOf (s :: ss) = s.text ++ textOf ss := String.join_cons

theorem textOf_append (ss ts : List Segment) : textOf (ss ++ ts) = textOf ss ++ textOf ts := by
  induction ss with
  | nil => rw [List.nil_append, textOf_nil, String.empty_append]
  | cons s ss ih => rw [List.cons_append, textOf_cons, textOf_cons, ih, String.append_assoc]

theorem textOf_flatMap {α : Type} (l : List α) {f : α → List Segment} {g : α → String} (h : ∀ a, textOf (f a) = g a) :
    textOf (l.flatMap f) = String.join (l.map g) := by
  induction l with
  | nil => rfl
  | cons a l ih => rw [List.flatMap_cons, textOf_append, h, ih, List.map_cons, String.join_cons]

theorem chars_eq (ss : List Segment) : chars ss = (textOf ss).toList := by
  rw [textOf, String.toList_join, List.flatMap_map]
  rfl

def Assertion.segments : Assertion → List Segment
  | string => [.load .validator "String", .code "(v, p, iss)"]
  | number c => [.load .validator "Number", .code ("(v, p, iss, " ++ flag c ++ ")")]
  | integer c => [.load .validator "Integer", .code ("(v, p, iss, " ++ flag c ++ ")")]
  | boolean c => [.load .validator "Boolean", .code ("(v, p, iss, " ++ flag c ++ ")")]
  | null => [.load .validator "Null", .code "(v, p, iss)"]
  | array => [.load .validator "Array", .code "(v, p, iss)"]
  | object => [.load .validator "Object", .code "(v, p, iss)"]

def callSegments (name subject args : String) : List Segment :=
  [.code "\t", .load .validator name, .code ("(" ++ subject ++ ", p, iss" ++ tail args ++ ")\n")]

def Statement.segments : Statement → List Segment
  | assert a => .code "\t" :: a.segments ++ [.code "\n"]
  | bind a => .code ("\t" ++ a.subject ++ ", ok := ") :: a.segments
      ++ [.code "\n\tif !ok \x7b\n\t\treturn\n\t\x7d\n"]
  | minLength n => callSegments "MinLength" "s" (toString n)
  | maxLength n => callSegments "MaxLength" "s" (toString n)
  | pattern v => callSegments "Pattern" "s" v.name
  | format name f =>
    [.code "\t", .load .validator "Format", .code ("(s, p, iss, " ++ Text.quote name ++ ", "),
      .load .formats f.functionName, .code ")\n"]
  | minimum x e => callSegments "Minimum" "f" (boundLiteral x ++ ", " ++ flag e)
  | maximum x e => callSegments "Maximum" "f" (boundLiteral x ++ ", " ++ flag e)
  | multipleOf x => callSegments "MultipleOf" "f" (boundLiteral x)
  | minItems n => callSegments "MinItems" "a" (toString n)
  | maxItems n => callSegments "MaxItems" "a" (toString n)
  | unique => callSegments "Unique" "a" ""
  | items f => callSegments "Items" "a" (functionName f)
  | tuple n closed rest is =>
    callSegments "Tuple" "a" (toString n ++ ", " ++ flag closed ++ ", "
      ++ (match rest with | some f => functionName f | none => "nil") ++ tail (functionNames is))
  | required ks => callSegments "Required" "m" (quoted ks)
  | field k f => callSegments "Field" "m" (Text.quote k ++ ", " ++ functionName f)
  | unknown known => callSegments "Unknown" "m" (quoted known)
  | additional f known => callSegments "Additional" "m" (functionName f ++ tail (quoted known))
  | keyPattern v => callSegments "KeyPattern" "m" v.name
  | anyOf fs => [.code "\t", .load .validator "AnyOf", .code ("(v, p, iss, " ++ functionNames fs ++ ")\n")]
  | oneOf fs => [.code "\t", .load .validator "OneOf", .code ("(v, p, iss, " ++ functionNames fs ++ ")\n")]
  | tagged prop vs =>
    [.code "\t", .load .validator "Tagged", .code ("(v, p, iss, " ++ Text.quote prop ++ ", map[string]"),
      .load .validator "Check",
      .code ("\x7b" ++ ", ".intercalate (vs.map fun (t, f) => Text.quote t ++ ": " ++ functionName f) ++ "\x7d)\n")]
  | enum v => callSegments "Enum" "v" (v.name ++ "...")
  | call f => [.code ("\t" ++ functionName f ++ "(v, p, iss)\n")]

theorem callSegments_text (name subject args : String) :
    textOf (callSegments name subject args) = callLine name subject args := by
  simp only [callSegments, callLine, textOf_cons, textOf_nil, Segment.text, helper, String.append_assoc,
    String.append_empty]

theorem Assertion.segments_text (a : Assertion) : textOf a.segments = a.text := by
  cases a <;>
    simp only [Assertion.segments, Assertion.text, textOf_cons, textOf_nil, Segment.text, helper, String.append_assoc,
      String.append_empty]

theorem tail_quote (s t : String) : tail (Text.quote s ++ t) = ", " ++ (Text.quote s ++ t) := by
  refine if_neg fun h => ?_
  have := congrArg String.length h
  simp [Text.quote] at this

theorem Statement.segments_text (st : Statement) : textOf st.segments = st.text := by
  cases st
  case assert a =>
    simp only [Statement.segments, Statement.text, List.cons_append, textOf_cons, textOf_append, a.segments_text,
      textOf_nil, Segment.text, String.append_assoc, String.append_empty]
  case bind a =>
    simp only [Statement.segments, Statement.text, List.cons_append, textOf_cons, textOf_append, a.segments_text,
      textOf_nil, Segment.text, String.append_assoc, String.append_empty]
  case format name f =>
    simp only [Statement.segments, Statement.text, callLine, helper, textOf_cons, textOf_nil, Segment.text,
      String.append_assoc, String.append_empty, tail_quote]
    rfl
  case tagged prop vs =>
    simp only [Statement.segments, Statement.text, callLine, helper, textOf_cons, textOf_nil, Segment.text,
      String.append_assoc, String.append_empty, tail_quote]
    rfl
  case anyOf fs =>
    simp only [Statement.segments, Statement.text, helper, textOf_cons, textOf_nil, Segment.text, String.append_assoc,
      String.append_empty]
  case oneOf fs =>
    simp only [Statement.segments, Statement.text, helper, textOf_cons, textOf_nil, Segment.text, String.append_assoc,
      String.append_empty]
  case call f =>
    simp only [Statement.segments, Statement.text, textOf_cons, textOf_nil, Segment.text, String.append_empty]
  all_goals exact callSegments_text _ _ _

def Initial.segments : Initial → List Segment
  | pattern t => [.load .patterns "MustCompile", .code ("(" ++ Text.quote t ++ ")")]
  | rule r =>
    [.load .validator "Predicate", .code "\x7bProgram: ", .load .rules "MustCompile",
      .code ("(" ++ Text.quote r.expr ++ "), Message: " ++ Text.quote r.message ++ "\x7d")]
  | values ts => [.code ("[]any\x7b" ++ ", ".intercalate ts ++ "\x7d")]

def Variable.segments (v : Variable) : List Segment :=
  .code ("\t" ++ v.name ++ " = ") :: v.initial.segments ++ [.code "\n"]

/-- the comment that names the definition of a function -/
def Function.remark (f : Function) : List Segment :=
  match f.definition with
  | some name => [.code ("// " ++ functionName f.number ++ " validates #/definitions/"), .bare name, .code ".\n"]
  | none => []

def Function.signature (f : Function) : List Segment :=
  [.code ("func " ++ functionName f.number ++ "(v any, p "), .load .core "Pointer", .code ", iss *",
    .load .core "Issues", .code ") \x7b\n"]

/-- what a function does before its body: it accepts null, and puts off its rules -/
def Function.preamble (f : Function) : List Segment :=
  let null : List Segment := if f.nullable then [.code "\tif v == nil \x7b\n\t\treturn\n\t\x7d\n"] else []
  let rules : List Segment := if f.rules.isEmpty then [] else
    [.code "\tdefer ", .load .validator "Rules",
      .code ("(v, p, iss, len(*iss), " ++ ", ".intercalate (f.rules.map Variable.name) ++ ")\n")]
  null ++ rules

def Function.segments (f : Function) : List Segment :=
  .code "\n" :: (f.remark ++ (f.signature ++ (f.preamble ++ (f.body.flatMap Statement.segments ++ [.code "\x7d\n"]))))

def File.header (f : File) : List Segment :=
  [.code "// Code generated by skemac. DO NOT EDIT.\n\n", .code "package ", .bare f.package, .code "\n\n",
    .code "// ", .bare f.funcName, .code " checks ", .bare f.title, .code ".\n",
    .code "func ", .bare f.funcName, .code "(v any) error \x7b\n", .code "\tvar iss ", .load .core "Issues", .code "\n",
    .code ("\t" ++ functionName f.entry ++ "(v, "), .load .core "Root", .code "(), &iss)\n",
    .code "\treturn ", .load .core "AsError", .code "(iss)\n\x7d\n"]

/-- the function that gives up instead of returning an error -/
def File.assertion (f : File) : List Segment :=
  if f.assert then
    [.code "\n// Must", .bare f.funcName, .code " is ", .bare f.funcName, .code " that panics on failure.\n",
      .code "func Must", .bare f.funcName, .code "(v any) any \x7b\n", .code "\tif err := ", .bare f.funcName,
      .code "(v); err != nil \x7b\n\t\tpanic(err)\n\t\x7d\n\treturn v\n\x7d\n"]
  else []

def File.declarations (f : File) : List Segment :=
  if f.vars.isEmpty then [] else .code "\nvar (\n" :: (f.vars.flatMap Variable.segments ++ [.code ")\n"])

def File.segments (f : File) : List Segment :=
  f.header ++ (f.assertion ++ (f.declarations ++ f.functions.flatMap Function.segments))

theorem Variable.segments_text (v : Variable) : textOf v.segments = v.text := by
  unfold Variable.segments Variable.text
  cases v.initial <;>
    simp only [Initial.segments, Initial.text, textOf_cons, textOf_nil, List.cons_append, List.nil_append,
      Segment.text, helper, String.append_assoc, String.append_empty]

theorem Function.segments_text (f : Function) : textOf f.segments = f.text := by
  unfold Function.segments Function.remark Function.signature Function.preamble Function.text
  cases f.definition <;> cases f.nullable <;> cases f.rules.isEmpty <;>
    simp only [textOf_cons, textOf_append, textOf_nil, textOf_flatMap _ Statement.segments_text, Segment.text, helper, String.append_assoc,
      String.append_empty, String.empty_append, if_true, if_false, Bool.false_eq_true]

theorem File.segments_text (f : File) : textOf f.segments = f.text := by
  unfold File.segments File.header File.assertion File.declarations File.text
  cases f.assert <;> cases f.vars.isEmpty <;>
    simp only [textOf_cons, textOf_append, textOf_nil, textOf_flatMap _ Variable.segments_text,
      textOf_flatMap _ Function.segments_text, Segment.text, String.append_assoc,
      String.append_empty, String.empty_append, if_true, if_false, Bool.false_eq_true]

/-! ## How the segments of a file stand together -/

theorem breaksName_append {xs : List Char} (h : breaksName xs = true) (ys : List Char) :
    breaksName (xs ++ ys) = true := by
  cases xs with
  | nil => simp [breaksName] at h
  | cons c xs => exact h

theorem stops_append {xs : List Char} (h : stops xs = true) (ys : List Char) : stops (xs ++ ys) = true := by
  obtain ⟨c, d, r, rfl, hcd⟩ := stops_iff.1 h
  exact stops_iff.2 ⟨c, d, r ++ ys, rfl, hcd⟩

theorem Ready.append {ss ts : List Segment} (hs : Ready ss) (ht : Ready ts) : Ready (ss ++ ts) := by
  induction ss with
  | nil => exact ht
  | cons s ss ih =>
    cases s with
    | code t => exact ⟨hs.1, ih hs.2⟩
    | bare t =>
      refine ⟨?_, ih hs.2⟩
      rw [List.append_eq, chars_append]
      exact stops_append hs.1 _
    | load q name =>
      refine ⟨hs.1, ?_, ih hs.2.2⟩
      rw [List.append_eq, chars_append]
      exact breaksName_append hs.2.1 _

theorem ready_flatMap {α : Type} {l : List α} {f : α → List Segment} (h : ∀ a ∈ l, Ready (f a)) :
    Ready (l.flatMap f) := by
  induction l with
  | nil => trivial
  | cons a l ih =>
    rw [List.flatMap_cons]
    exact (h a (by simp)).append (ih fun b hb => h b (List.mem_cons_of_mem a hb))

/-- a load, and the code behind it, which begins with a character that no name has -/
theorem ready_load {q : Package} {name : String} {c : Char} {t : String} {ss : List Segment} (hname : isName name = true)
    (hc : isIdentChar c = false) (ht : t.toList.head? = some c) (h : Ready (.code t :: ss)) :
    Ready (.load q name :: .code t :: ss) := by
  refine ⟨hname, ?_, h⟩
  rw [chars_cons, Segment.text]
  refine breaksName_append ?_ _
  simp [breaksName, ht, hc]

/-- a bare text, and the code behind it -/
theorem ready_bare {t u : String} {ss : List Segment} (hu : stops u.toList = true) (h : Ready (.code u :: ss)) :
    Ready (.bare t :: .code u :: ss) :=
  ⟨by rw [chars_cons]; exact stops_append hu _, h⟩

theorem ready_code {t : String} {ss : List Segment} (ht : fixed t = true) (h : Ready ss) : Ready (.code t :: ss) :=
  ⟨quiet_fixed ht, h⟩

/-- a load, and a call with arguments -/
theorem ready_call {q : Package} {name t u : String} {c : Char} {ss : List Segment} (hname : isName name = true)
    (hc : isIdentChar c = false) (ht : t.toList.head? = some c) (hplain : Plain t) (hu : fixed u = true) (h : Ready ss) :
    Ready (.load q name :: .code (t ++ u) :: ss) := by
  refine ready_load hname hc ?_ ⟨quiet_append hplain hu, h⟩
  rw [String.toList_append, List.head?_append, ht]
  rfl

theorem level_flag {t : String} (ht : Level t) (b : Bool) : Level (t ++ flag b) :=
  ht.append (level_of_unquoted (unquoted_flag b))

theorem Assertion.segments_ready (a : Assertion) : Ready a.segments := by
  have hflag (c : Bool) : Plain ("(v, p, iss, " ++ flag c) := (level_flag (by decide) c).plain
  cases a with
  | number c => exact ready_call (by decide) (c := '(') (by decide) (by simp) (hflag c) (by decide) trivial
  | integer c => exact ready_call (by decide) (c := '(') (by decide) (by simp) (hflag c) (by decide) trivial
  | boolean c => exact ready_call (by decide) (c := '(') (by decide) (by simp) (hflag c) (by decide) trivial
  | _ => exact ready_load (by decide) (c := '(') (by decide) (by decide) (ready_code (by decide) trivial)

theorem plain_tail {args : String} (h : Plain args) : Plain (tail args) := by
  unfold tail
  split
  · exact .inl rfl
  · exact Level.append_plain (by decide) h

theorem callSegments_ready {name subject args : String} (hname : isName name = true)
    (hsubject : Level ("(" ++ subject ++ ", p, iss")) (hargs : Plain args) : Ready (callSegments name subject args) := by
  refine ready_code (by decide) (ready_call hname (c := '(') (by decide) ?_ ?_ (by decide) trivial)
  · simp
  · exact hsubject.append_plain (plain_tail hargs)

theorem plain_functionNames (ns : List Nat) : Plain (functionNames ns) := by
  refine plain_intercalate fun t ht => ?_
  obtain ⟨n, -, rfl⟩ := List.mem_map.1 ht
  exact .inl (level_of_unquoted (unquoted_functionName n))

theorem plain_quoted (ss : List String) : Plain (quoted ss) := by
  refine plain_intercalate fun t ht => ?_
  obtain ⟨s, -, rfl⟩ := List.mem_map.1 ht
  exact plain_quote s

theorem plain_of_unquoted {t : String} (h : unquoted t = true) : Plain t := .inl (level_of_unquoted h)

theorem plain_pair (k : String) (n : Nat) {u : String} (hu : Joint u = true) :
    Plain (Text.quote k ++ u ++ functionName n) :=
  ((plain_quote k).append hu).append_plain (plain_of_unquoted (unquoted_functionName n))

theorem Statement.segments_ready (st : Statement) : Ready st.segments := by
  cases st with
  | assert a => exact ready_code (by decide) (a.segments_ready.append (ready_code (by decide) trivial))
  | bind a =>
    have hsubject : unquoted a.subject = true := by
      unfold Assertion.subject
      split <;> decide
    refine ⟨quiet_append ?_ (by decide), a.segments_ready.append (ready_code (by decide) trivial)⟩
    exact plain_of_unquoted (unquoted_append (by decide) hsubject)
  | minLength n => exact callSegments_ready (by decide) (by decide) (plain_of_unquoted (unquoted_of_numeral (numeral_int n)))
  | maxLength n => exact callSegments_ready (by decide) (by decide) (plain_of_unquoted (unquoted_of_numeral (numeral_int n)))
  | pattern v => exact callSegments_ready (by decide) (by decide) (plain_of_unquoted (unquoted_variableName v))
  | format name f =>
    have hformat : isName f.functionName = true := by cases f <;> decide
    refine ready_code (by decide) (ready_call (by decide) (c := '(') (by decide) (by simp) ?_ (by decide) ?_)
    · exact Level.append_plain (by decide) (plain_quote name)
    · exact ready_load hformat (c := ')') (by decide) (by decide) (ready_code (by decide) trivial)
  | minimum x e =>
    refine callSegments_ready (by decide) (by decide) ?_
    exact (level_flag (level_of_unquoted (unquoted_append (unquoted_of_numeral (numeral_bound x)) (by decide))) e).plain
  | maximum x e =>
    refine callSegments_ready (by decide) (by decide) ?_
    exact (level_flag (level_of_unquoted (unquoted_append (unquoted_of_numeral (numeral_bound x)) (by decide))) e).plain
  | multipleOf x => exact callSegments_ready (by decide) (by decide) (plain_of_unquoted (unquoted_of_numeral (numeral_bound x)))
  | minItems n => exact callSegments_ready (by decide) (by decide) (plain_of_unquoted (unquoted_of_numeral (numeral_int n)))
  | maxItems n => exact callSegments_ready (by decide) (by decide) (plain_of_unquoted (unquoted_of_numeral (numeral_int n)))
  | unique => exact callSegments_ready (by decide) (by decide) (.inl rfl)
  | items f => exact callSegments_ready (by decide) (by decide) (plain_of_unquoted (unquoted_functionName f))
  | tuple n closed rest is =>
    refine callSegments_ready (by decide) (by decide) (Level.append_plain ?_ (plain_tail (plain_functionNames is)))
    refine level_of_unquoted (unquoted_append (unquoted_append (unquoted_append (unquoted_append (unquoted_of_numeral (numeral_int n))
      (by decide)) (unquoted_flag closed)) (by decide)) ?_)
    cases rest with
    | none => decide
    | some f => exact unquoted_functionName f
  | required ks => exact callSegments_ready (by decide) (by decide) (plain_quoted ks)
  | field k f => exact callSegments_ready (by decide) (by decide) (plain_pair k f (by decide))
  | unknown known => exact callSegments_ready (by decide) (by decide) (plain_quoted known)
  | additional f known =>
    refine callSegments_ready (by decide) (by decide) (Level.append_plain ?_ (plain_tail (plain_quoted known)))
    exact level_of_unquoted (unquoted_functionName f)
  | keyPattern v => exact callSegments_ready (by decide) (by decide) (plain_of_unquoted (unquoted_variableName v))
  | anyOf fs =>
    refine ready_code (by decide) (ready_call (by decide) (c := '(') (by decide) (by simp) ?_ (by decide) trivial)
    exact Level.append_plain (by decide) (plain_functionNames fs)
  | oneOf fs =>
    refine ready_code (by decide) (ready_call (by decide) (c := '(') (by decide) (by simp) ?_ (by decide) trivial)
    exact Level.append_plain (by decide) (plain_functionNames fs)
  | tagged prop vs =>
    refine ready_code (by decide) (ready_call (by decide) (c := '(') (by decide) (by simp) ?_ (by decide)
      (ready_call (by decide) (c := '\x7b') (by decide) (by simp) ?_ (by decide) trivial))
    · exact Level.append_plain (by decide) (plain_quote prop)
    · refine Level.append_plain (by decide) (plain_intercalate fun t ht => ?_)
      obtain ⟨⟨k, n⟩, -, rfl⟩ := List.mem_map.1 ht
      exact plain_pair k n (by decide)
  | enum v =>
    refine callSegments_ready (by decide) (by decide) (plain_of_unquoted ?_)
    exact unquoted_append (unquoted_variableName v) (by decide)
  | call f =>
    refine ⟨quiet_append ?_ (by decide), trivial⟩
    exact plain_of_unquoted (unquoted_append (by decide) (unquoted_functionName f))

theorem Variable.segments_ready {v : Variable} (h : ∀ ts, v.initial = .values ts → ∃ vs, literals vs = .ok ts) :
    Ready v.segments := by
  have hname : Plain ("\t" ++ v.name) := plain_of_unquoted (unquoted_append (by decide) (unquoted_variableName v))
  refine ⟨quiet_append hname (by decide), ?_⟩
  have hopen (t : String) : Plain ("(" ++ Text.quote t) := Level.append_plain (by decide) (plain_quote t)
  have hend : Ready [.code "\n"] := ready_code (by decide) trivial
  cases hi : v.initial with
  | pattern t => exact ready_call (by decide) (c := '(') (by decide) (by simp) (hopen t) (by decide) hend
  | rule r =>
    refine ready_load (by decide) (c := '\x7b') (by decide) (by decide) (ready_code (by decide) ?_)
    refine ready_call (by decide) (c := '(') (by decide) (by simp) ?_ (by decide) hend
    exact ((hopen r.expr).append (by decide)).append_plain (plain_quote r.message)
  | values ts =>
    obtain ⟨vs, hvs⟩ := h ts hi
    refine ⟨quiet_append ?_ (by decide), hend⟩
    exact Level.append_plain (by decide) (plain_intercalate fun t ht => (written_literals hvs t ht).plain)

theorem Function.segments_ready (f : Function) : Ready f.segments := by
  have hname {t : String} (ht : unquoted t = true) : Plain (t ++ functionName f.number) :=
    plain_of_unquoted (unquoted_append ht (unquoted_functionName f.number))
  refine ready_code (by decide) (Ready.append ?_ (Ready.append ?_ (Ready.append ?_ (Ready.append ?_ ?_))))
  · unfold Function.remark
    split
    · exact ⟨quiet_append (hname (by decide)) (by decide), ready_bare (by decide) (ready_code (by decide) trivial)⟩
    · trivial
  · refine ⟨quiet_append (hname (by decide)) (by decide), ?_⟩
    refine ready_load (by decide) (c := ',') (by decide) (by decide) (ready_code (by decide) ?_)
    exact ready_load (by decide) (c := ')') (by decide) (by decide) (ready_code (by decide) trivial)
  · refine Ready.append ?_ ?_
    · split
      · exact ready_code (by decide) trivial
      · trivial
    · split
      · trivial
      · refine ready_code (by decide) (ready_call (by decide) (c := '(') (by decide) (by simp) ?_ (by decide) trivial)
        refine Level.append_plain (by decide) (plain_intercalate fun t ht => ?_)
        obtain ⟨v, -, rfl⟩ := List.mem_map.1 ht
        exact plain_of_unquoted (unquoted_variableName v)
  · exact ready_flatMap fun st _ => st.segments_ready
  · exact ready_code (by decide) trivial

theorem File.segments_ready {f : File} (h : ∀ v ∈ f.vars, ∀ ts, v.initial = .values ts → ∃ vs, literals vs = .ok ts) :
    Ready f.segments := by
  refine Ready.append ?_ (Ready.append ?_ (Ready.append ?_ ?_))
  · refine ready_code (by decide) (ready_code (by decide) (ready_bare (by decide) (ready_code (by decide) ?_)))
    refine ready_code (by decide) (ready_bare (by decide) (ready_code (by decide) (ready_bare (by decide) ?_)))
    refine ready_code (by decide) (ready_code (by decide) (ready_bare (by decide) (ready_code (by decide) ?_)))
    refine ready_code (by decide) (ready_load (by decide) (c := '\n') (by decide) (by decide) (ready_code (by decide) ?_))
    refine ⟨quiet_append ?_ (by decide), ?_⟩
    · exact plain_of_unquoted (unquoted_append (by decide) (unquoted_functionName f.entry))
    · refine ready_load (by decide) (c := '(') (by decide) (by decide) (ready_code (by decide) ?_)
      refine ready_code (by decide) (ready_load (by decide) (c := '(') (by decide) (by decide) ?_)
      exact ready_code (by decide) trivial
  · unfold File.assertion
    split
    · refine ready_code (by decide) (ready_bare (by decide) (ready_code (by decide) (ready_bare (by decide) ?_)))
      refine ready_code (by decide) (ready_code (by decide) (ready_bare (by decide) (ready_code (by decide) ?_)))
      exact ready_code (by decide) (ready_bare (by decide) (ready_code (by decide) trivial))
    · trivial
  · unfold File.declarations
    split
    · trivial
    · refine ready_code (by decide) (Ready.append (ready_flatMap fun v hv => ?_) (ready_code (by decide) trivial))
      exact Variable.segments_ready (h v hv)
  · exact ready_flatMap fun g _ => g.segments_ready

end Schemata.Source
