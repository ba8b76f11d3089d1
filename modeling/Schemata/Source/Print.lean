import Schemata.Source.Generate

/-!
The text of generated validators.

Everything that a validator takes from another package is written as a dynamic load, `require("path").Name`; the
loads become imports once the text is final.
-/

namespace Schemata.Source

/-- the packages that validators load from -/
inductive Package where
  | core | validator | formats | rules | patterns
  deriving Repr, DecidableEq

def Package.path : Package → String
  | core => "github.com/reoring/skemac"
  | validator => "github.com/reoring/skemac/validator"
  | formats => "github.com/reoring/skemac/formats"
  | rules => "github.com/reoring/skemac/rules"
  | patterns => "regexp"

/-- a dynamic load -/
def load (p : Package) (name : String) : String := "require(\"" ++ p.path ++ "\")." ++ name

def helper (name : String) : String := load .validator name

def flag (b : Bool) : String := if b then "true" else "false"

def functionName (n : Nat) : String := "v" ++ toString n

def functionNames (ns : List Nat) : String := ", ".intercalate (ns.map functionName)

def quoted (ss : List String) : String := ", ".intercalate (ss.map Text.quote)

/-- a bound as a constant that reads as a floating-point number -/
def boundLiteral (x : Float) : String :=
  let t := numberLiteral x
  if t.toList.any fun c => c == '.' || c == 'e' || c == 'E' || c == 'n' then t else t ++ ".0"

/-- a list of further arguments -/
def tail (args : String) : String := if args = "" then "" else ", " ++ args

def Assertion.text : Assertion → String
  | string => helper "String" ++ "(v, p, iss)"
  | number c => helper "Number" ++ "(v, p, iss, " ++ flag c ++ ")"
  | integer c => helper "Integer" ++ "(v, p, iss, " ++ flag c ++ ")"
  | boolean c => helper "Boolean" ++ "(v, p, iss, " ++ flag c ++ ")"
  | null => helper "Null" ++ "(v, p, iss)"
  | array => helper "Array" ++ "(v, p, iss)"
  | object => helper "Object" ++ "(v, p, iss)"

/-- the name of the asserted value -/
def Assertion.subject : Assertion → String
  | string => "s"
  | number _ => "f"
  | integer _ => "f"
  | boolean _ => "b"
  | null => "v"
  | array => "a"
  | object => "m"

/-- a line that calls a helper on a subject -/
def callLine (name subject args : String) : String :=
  "\t" ++ helper name ++ "(" ++ subject ++ ", p, iss" ++ tail args ++ ")\n"

def Statement.text : Statement → String
  | assert a => "\t" ++ a.text ++ "\n"
  | bind a => "\t" ++ a.subject ++ ", ok := " ++ a.text ++ "\n\tif !ok \x7b\n\t\treturn\n\t\x7d\n"
  | minLength n => callLine "MinLength" "s" (toString n)
  | maxLength n => callLine "MaxLength" "s" (toString n)
  | pattern v => callLine "Pattern" "s" v.name
  | format name f => callLine "Format" "s" (Text.quote name ++ ", " ++ load .formats f.functionName)
  | minimum x e => callLine "Minimum" "f" (boundLiteral x ++ ", " ++ flag e)
  | maximum x e => callLine "Maximum" "f" (boundLiteral x ++ ", " ++ flag e)
  | multipleOf x => callLine "MultipleOf" "f" (boundLiteral x)
  | minItems n => callLine "MinItems" "a" (toString n)
  | maxItems n => callLine "MaxItems" "a" (toString n)
  | unique => callLine "Unique" "a" ""
  | items f => callLine "Items" "a" (functionName f)
  | tuple n closed rest is =>
    callLine "Tuple" "a" (toString n ++ ", " ++ flag closed ++ ", "
      ++ (match rest with | some f => functionName f | none => "nil") ++ tail (functionNames is))
  | required ks => callLine "Required" "m" (quoted ks)
  | field k f => callLine "Field" "m" (Text.quote k ++ ", " ++ functionName f)
  | unknown known => callLine "Unknown" "m" (quoted known)
  | additional f known => callLine "Additional" "m" (functionName f ++ tail (quoted known))
  | keyPattern v => callLine "KeyPattern" "m" v.name
  | anyOf fs => "\t" ++ helper "AnyOf" ++ "(v, p, iss, " ++ functionNames fs ++ ")\n"
  | oneOf fs => "\t" ++ helper "OneOf" ++ "(v, p, iss, " ++ functionNames fs ++ ")\n"
  | tagged prop vs =>
    callLine "Tagged" "v" (Text.quote prop ++ ", map[string]" ++ helper "Check" ++ "\x7b"
      ++ ", ".intercalate (vs.map fun (t, f) => Text.quote t ++ ": " ++ functionName f) ++ "\x7d")
  | enum v => callLine "Enum" "v" (v.name ++ "...")
  | call f => "\t" ++ functionName f ++ "(v, p, iss)\n"

def Initial.text : Initial → String
  | pattern t => load .patterns "MustCompile" ++ "(" ++ Text.quote t ++ ")"
  | rule r => helper "Predicate" ++ "\x7bProgram: " ++ load .rules "MustCompile" ++ "(" ++ Text.quote r.expr
      ++ "), Message: " ++ Text.quote r.message ++ "\x7d"
  | values ts => "[]any\x7b" ++ ", ".intercalate ts ++ "\x7d"

def Variable.text (v : Variable) : String := "\t" ++ v.name ++ " = " ++ v.initial.text ++ "\n"

def Function.text (f : Function) : String :=
  "\n"
    ++ (match f.definition with
        | some name => "// " ++ functionName f.number ++ " validates #/definitions/" ++ name ++ ".\n"
        | none => "")
    ++ "func " ++ functionName f.number ++ "(v any, p " ++ load .core "Pointer" ++ ", iss *" ++ load .core "Issues"
    ++ ") \x7b\n"
    ++ (if f.nullable then "\tif v == nil \x7b\n\t\treturn\n\t\x7d\n" else "")
    ++ (if f.rules.isEmpty then "" else
        "\tdefer " ++ helper "Rules" ++ "(v, p, iss, len(*iss), " ++ ", ".intercalate (f.rules.map Variable.name) ++ ")\n")
    ++ String.join (f.body.map Statement.text) ++ "\x7d\n"

/-- the text of a validator file, with its loads still in place -/
def File.text (f : File) : String :=
  "// Code generated by skemac. DO NOT EDIT.\n\n"
    ++ "package " ++ f.package ++ "\n\n"
    ++ "// " ++ f.funcName ++ " checks " ++ f.title ++ ".\n"
    ++ "func " ++ f.funcName ++ "(v any) error \x7b\n"
    ++ "\tvar iss " ++ load .core "Issues" ++ "\n"
    ++ "\t" ++ functionName f.entry ++ "(v, " ++ load .core "Root" ++ "(), &iss)\n"
    ++ "\treturn " ++ load .core "AsError" ++ "(iss)\n\x7d\n"
    ++ (if f.assert then
        "\n// Must" ++ f.funcName ++ " is " ++ f.funcName ++ " that panics on failure.\n"
          ++ "func Must" ++ f.funcName ++ "(v any) any \x7b\n"
          ++ "\tif err := " ++ f.funcName ++ "(v); err != nil \x7b\n\t\tpanic(err)\n\t\x7d\n\treturn v\n\x7d\n"
        else "")
    ++ (if f.vars.isEmpty then "" else
        "\nvar (\n" ++ String.join (f.vars.map Variable.text) ++ ")\n")
    ++ String.join (f.functions.map Function.text)

/-- the validator source of a program, with its loads still in place -/
def render (p : Program) (o : Options) : Outcome String :=
  match generate p o with
  | .ok f => .ok f.text
  | .error .badDispatch => abort
  | .error e => failWith (.plain e.message)

end Schemata.Source
