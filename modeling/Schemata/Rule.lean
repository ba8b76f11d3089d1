import Schemata.Rule.Eval

/-!
Rules: predicates that a schema attaches to a value.

A rule is compiled once, which refuses texts that are no expression and expressions whose result can only be
something else than a truth value. A compiled rule is then evaluated on values, where it may still fail.
-/

namespace Schemata

/-- a predicate with the message of its failure -/
structure Rule where
  expr : String
  message : String
  deriving Repr, DecidableEq

namespace Rule

/-- a rule whose expression was read and checked -/
structure Program where
  text : String
  body : Expr

/-- why a text is no rule -/
inductive CompileError where
  | syntaxError (text : String)
  | notBool (text type : String)
  deriving Repr, DecidableEq

def CompileError.message : CompileError → String
  | syntaxError t => "rule " ++ Text.quote t ++ ": ERROR: <input>:1:1: the expression is not well formed or not well typed"
  | notBool t type => "rule " ++ Text.quote t ++ ": result type " ++ type ++ " is not bool"

/-- reads a rule and checks that its result may be a truth value -/
def compile (text : String) : Except CompileError Program :=
  match parse? text with
  | none => .error (.syntaxError text)
  | some e =>
    match Typing.infer? e with
    | none => .error (.syntaxError text)
    | some t => if t = .bool ∨ t = .dyn then .ok ⟨text, e⟩ else .error (.notBool text t.text)

/-- the text of a final result that is no truth value -/
def resultText : Datum → String
  | .null => "NULL_VALUE"
  | d => d.display

/-- the truth of a rule for a value -/
def Program.holds (p : Program) (v : Value) : Except String Bool :=
  match eval [("self", Datum.ofValue v)] p.body with
  | .error e => .error e
  | .ok (.bool b) => .ok b
  | .ok d => .error ("rule " ++ Text.quote p.text ++ ": result " ++ resultText d ++ " is not bool")

end Rule

end Schemata
