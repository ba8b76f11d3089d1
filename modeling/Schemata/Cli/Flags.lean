import Schemata.Dict
import Schemata.Number.Integer
import Schemata.Text.Quote

/-!
Flags of commands.

A flag is a switch, a text or a number, with a default. Arguments are read from the left until one is no flag, or
until `--`. A flag that does not exist, or has no value or a wrong one, is reported together with the list of flags;
a question for help prints that list alone.
-/

namespace Schemata.Cli

inductive FlagValue where
  | switch (on : Bool)
  | text (s : String)
  | number (n : Int)
  deriving Repr, DecidableEq

structure Flag where
  name : String
  /-- its value when it is not given -/
  standard : FlagValue
  usage : String
  deriving Repr, DecidableEq

/-- the flags of a command -/
structure FlagSet where
  command : String
  flags : List Flag
  deriving Repr, DecidableEq

namespace Flag

/-- the word for a value in the list of flags -/
def valueWord (f : Flag) : String :=
  match f.standard with
  | .switch _ => ""
  | .text _ => " string"
  | .number _ => " int"

/-- how a default is shown; the least value of its type is not -/
def defaultNote (f : Flag) : String :=
  match f.standard with
  | .switch b => if b then " (default true)" else ""
  | .text s => if s = "" then "" else " (default " ++ Text.quote s ++ ")"
  | .number n => if n = 0 then "" else " (default " ++ toString n ++ ")"

/-- the lines of a flag; the usage of a switch of one letter stands on the same line -/
def help (f : Flag) : String :=
  let head := "  -" ++ f.name ++ f.valueWord
  head ++ (if Text.byteLength head ≤ 4 then "\t" else "\n    \t") ++ f.usage ++ f.defaultNote ++ "\n"

def truth? (s : String) : Option Bool :=
  if ["1", "t", "T", "true", "TRUE", "True"].contains s then some true
  else if ["0", "f", "F", "false", "FALSE", "False"].contains s then some false
  else none

/-- the value that a text gives, or what is wrong with it -/
def read (f : Flag) (s : String) : Except String FlagValue :=
  match f.standard with
  | .text _ => .ok (.text s)
  | .switch _ =>
    match truth? s with
    | some b => .ok (.switch b)
    | none => .error ("invalid boolean value " ++ Text.quote s ++ " for -" ++ f.name ++ ": parse error")
  | .number _ =>
    match Number.readInteger s with
    | .ok n => .ok (.number n)
    | .error fault =>
      let cause := match fault with
        | .malformed => "parse error"
        | .range => "value out of range"
      .error ("invalid value " ++ Text.quote s ++ " for flag -" ++ f.name ++ ": " ++ cause)

def isSwitch (f : Flag) : Bool :=
  match f.standard with
  | .switch _ => true
  | _ => false

end Flag

namespace FlagSet

/-- the list of all flags, in the order of their names -/
def usage (fs : FlagSet) : String :=
  "Usage of " ++ fs.command ++ ":\n"
    ++ String.join ((fs.flags.mergeSort fun a b => Text.le a.name b.name).map Flag.help)

end FlagSet

/-- how reading ended -/
inductive FlagEnd where
  | done | help | wrong (problem : String)
  deriving Repr, DecidableEq

/-- the values of flags, and the arguments that are left -/
structure Parsed where
  values : Dict FlagValue := []
  rest : List String := []
  ending : FlagEnd := .done
  deriving Repr, DecidableEq

namespace Parsed

def isOn (p : Parsed) (name : String) : Bool := p.values.get? name == some (.switch true)

def textOf (p : Parsed) (name : String) : String :=
  match p.values.get? name with
  | some (.text s) => s
  | _ => ""

def numberOf (p : Parsed) (name : String) : Int :=
  match p.values.get? name with
  | some (.number n) => n
  | _ => 0

end Parsed

/-- a flag as written: nothing, the mark that ends all flags, something malformed, or a name and perhaps a value -/
inductive Written where
  | none | ended | malformed
  | named (name : String) (value : Option String)
  deriving Repr, DecidableEq

/-- takes an argument apart; an equals sign cannot be the first of a name -/
def written (arg : String) : Written :=
  let named (cs : List Char) : Written :=
    match cs with
    | [] => .malformed
    | '-' :: _ => .malformed
    | '=' :: _ => .malformed
    | cs =>
      let (name, value, assigned) := Text.cut (String.ofList cs) "="
      .named name (if assigned then some value else Option.none)
  match arg.toList with
  | ['-', '-'] => .ended
  | '-' :: '-' :: cs => named cs
  | ['-'] => .none
  | '-' :: cs => named cs
  | _ => .none

namespace FlagSet

/-- goes on with a value that was read, or stops with what is wrong with it -/
def next (values : Dict FlagValue) (name : String) (read : Except String FlagValue) (rest : List String)
    (goOn : Dict FlagValue → Parsed) : Parsed :=
  match read with
  | .ok v => goOn (values.insert name v)
  | .error problem => { values, rest, ending := .wrong problem }

/-- reads arguments from the left -/
def parseFrom (fs : FlagSet) (values : Dict FlagValue) : List String → Parsed
  | [] => { values }
  | arg :: rest =>
    match written arg with
    | .none => { values, rest := arg :: rest }
    | .ended => { values, rest }
    | .malformed => { values, rest := arg :: rest, ending := .wrong ("bad flag syntax: " ++ arg) }
    | .named name value =>
      match fs.flags.find? (·.name == name) with
      | none =>
        if name = "help" || name = "h" then { values, rest, ending := .help }
        else { values, rest, ending := .wrong ("flag provided but not defined: -" ++ name) }
      | some f =>
        match value with
        | some v => next values name (f.read v) rest (fs.parseFrom · rest)
        | none =>
          if f.isSwitch then fs.parseFrom (values.insert name (.switch true)) rest
          else
            match rest with
            | [] => { values, ending := .wrong ("flag needs an argument: -" ++ name) }
            | v :: rest => next values name (f.read v) rest (fs.parseFrom · rest)

/-- reads arguments over the defaults -/
def parse (fs : FlagSet) (args : List String) : Parsed :=
  fs.parseFrom (Dict.ofList (fs.flags.map fun f => (f.name, f.standard))) args

end FlagSet

end Schemata.Cli
