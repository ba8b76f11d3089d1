import Schemata.Value

/-!
Validation issues: where a value breaks a rule, which rule, and the words for it.

A `Pointer` is the list of steps from the root; its text escapes `~` and `/` inside field names, so it can be read
back. An `Issue` carries the pointer it was created with. `Wording` turns a code and its parameters into a message;
the dictionaries are the built-in ones.
-/

namespace Schemata

/-- one step into a value -/
inductive Step where
  | field (name : String)
  | index (i : Int)
  deriving Repr, DecidableEq

/-- steps from the root, outermost first -/
abbrev Pointer := List Step

/-- a field name inside a pointer text -/
def escapeToken (s : String) : String := Text.replaceAll (Text.replaceAll s "~" "~0") "/" "~1"

def Step.text : Step → String
  | field name => escapeToken name
  | index i => toString i

namespace Pointer

def root : Pointer := []

def field (p : Pointer) (name : String) : Pointer := p ++ [.field name]

def index (p : Pointer) (i : Int) : Pointer := p ++ [.index i]

/-- the text of a pointer; the root is a single slash -/
def text (p : Pointer) : String :=
  if p.isEmpty then "/" else "/" ++ "/".intercalate (p.map Step.text)

end Pointer

/-- the rules a value can break -/
inductive Code where
  | invalidType | required | unknownKey | tooSmall | tooBig | tooShort | tooLong | pattern | invalidEnum | invalidFormat
  | notMultiple | notUnique | discriminatorMissing | discriminatorUnknown | unionNoMatch | unionAmbiguous | rule
  deriving Repr, DecidableEq

namespace Code

def all : List Code :=
  [invalidType, required, unknownKey, tooSmall, tooBig, tooShort, tooLong, pattern, invalidEnum, invalidFormat,
   notMultiple, notUnique, discriminatorMissing, discriminatorUnknown, unionNoMatch, unionAmbiguous, rule]

def name : Code → String
  | invalidType => "invalid_type"
  | required => "required"
  | unknownKey => "unknown_key"
  | tooSmall => "too_small"
  | tooBig => "too_big"
  | tooShort => "too_short"
  | tooLong => "too_long"
  | pattern => "pattern"
  | invalidEnum => "invalid_enum"
  | invalidFormat => "invalid_format"
  | notMultiple => "not_multiple"
  | notUnique => "not_unique"
  | discriminatorMissing => "discriminator_missing"
  | discriminatorUnknown => "discriminator_unknown"
  | unionNoMatch => "union_no_match"
  | unionAmbiguous => "union_ambiguous"
  | rule => "rule"

def ofName? (s : String) : Option Code := all.find? (·.name == s)

end Code

/-- one broken rule -/
structure Issue where
  pointer : Pointer
  code : Code
  message : String
  params : Dict Value

namespace Issue

def path (i : Issue) : String := i.pointer.text

end Issue

/-- alternating keys and values as parameters; a key that is no text is empty, and a lone key is dropped -/
def pairParams (acc : Dict Value) : List Value → Dict Value
  | .string k :: v :: rest => pairParams (Dict.insert acc k v) rest
  | _ :: v :: rest => pairParams (Dict.insert acc "" v) rest
  | _ => acc

/-- parameters from alternating keys and values, if there is at least one pair -/
def paramsOf (kv : List Value) : Option (Dict Value) := if kv.length < 2 then none else some (pairParams [] kv)

/-- the first three issues in words, and their number when there are more -/
def summarize (issues : List (String × String)) : String :=
  let shown := (issues.take 3).map fun (code, path) => code ++ " at " ++ path
  "; ".intercalate shown ++
    (if issues.length > 3 then "; ... (total " ++ toString issues.length ++ ")" else "")

def Issue.summary (issues : List Issue) : String := summarize (issues.map fun i => (i.code.name, i.path))

/-! ## Messages -/

/-- languages with a dictionary -/
inductive Language where
  | english | japanese
  deriving Repr, DecidableEq

/-- unknown names stand for English -/
def Language.ofName : String → Language
  | "ja" => japanese
  | _ => english

/-- the message of a code; names in braces stand for its parameters -/
def Language.template : Language → Code → String
  | english, .invalidType => "expected \x7bexpected\x7d"
  | english, .required => "required property \x7bkey\x7d missing"
  | english, .unknownKey => "unknown key \x7bkey\x7d"
  | english, .tooSmall => "must be \x7bop\x7d \x7blimit\x7d"
  | english, .tooBig => "must be \x7bop\x7d \x7blimit\x7d"
  | english, .tooShort => "must have at least \x7blimit\x7d \x7bunit\x7d"
  | english, .tooLong => "must have at most \x7blimit\x7d \x7bunit\x7d"
  | english, .pattern => "does not match \x7bpattern\x7d"
  | english, .invalidEnum => "not one of the allowed values"
  | english, .invalidFormat => "invalid \x7bformat\x7d"
  | english, .notMultiple => "must be a multiple of \x7blimit\x7d"
  | english, .notUnique => "items must be unique"
  | english, .discriminatorMissing => "missing discriminator \x7bkey\x7d"
  | english, .discriminatorUnknown => "unknown discriminator value \x7bvalue\x7d"
  | english, .unionNoMatch => "matches no variant"
  | english, .unionAmbiguous => "matches more than one variant"
  | english, .rule => "failed rule \x7brule\x7d"
  | japanese, .invalidType => "型が不正です（期待: \x7bexpected\x7d）"
  | japanese, .required => "必須プロパティ \x7bkey\x7d が不足しています"
  | japanese, .unknownKey => "未知のキー \x7bkey\x7d です"
  | japanese, .tooSmall => "\x7blimit\x7d \x7bop\x7d である必要があります"
  | japanese, .tooBig => "\x7blimit\x7d \x7bop\x7d である必要があります"
  | japanese, .tooShort => "短すぎます（最小 \x7blimit\x7d）"
  | japanese, .tooLong => "長すぎます（最大 \x7blimit\x7d）"
  | japanese, .pattern => "パターン \x7bpattern\x7d に一致しません"
  | japanese, .invalidEnum => "許可された値ではありません"
  | japanese, .invalidFormat => "\x7bformat\x7d 形式ではありません"
  | japanese, .notMultiple => "\x7blimit\x7d の倍数である必要があります"
  | japanese, .notUnique => "要素が重複しています"
  | japanese, .discriminatorMissing => "判別子 \x7bkey\x7d がありません"
  | japanese, .discriminatorUnknown => "判別子の値 \x7bvalue\x7d は未知です"
  | japanese, .unionNoMatch => "どのバリアントにも一致しません"
  | japanese, .unionAmbiguous => "複数のバリアントに一致します"
  | japanese, .rule => "ルール \x7brule\x7d を満たしません"

/-- a message for a code and the texts of its parameters -/
abbrev Wording := String → Dict String → String

/-- fills the names in braces; a code without an entry is its own message -/
def Language.wording (l : Language) : Wording := fun code data =>
  match Code.ofName? code with
  | none => code
  | some c =>
    let pairs := data.map fun (k, v) => (("\x7b" ++ k ++ "\x7d").toList, v.toList)
    String.ofList (Text.replaceEach pairs 0 (l.template c).toList)

/-- an issue at a pointer, its message made from its parameters -/
def Issue.report (t : Wording) (p : Pointer) (code : Code) (params : List (String × Value)) : Issue where
  pointer := p
  code := code
  message := t code.name (Dict.ofList (params.map fun (k, v) => (k, v.display)))
  params := Dict.ofList params

end Schemata
