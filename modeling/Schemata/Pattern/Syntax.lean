import Schemata.Pattern.Basic
import Schemata.Number.Reading
import Schemata.Text.Quote
import Schemata.Text.Script

/-!
The text form of patterns: literals, classes, groups, alternatives, counted repetition, anchors and inline flags.

`Pattern.parse` reads the text from left to right on a `Builder`, a stack of open groups, and stops at the first
thing it does not accept. The error names the rule that was broken and quotes the part of the text that broke it.
-/

namespace Schemata.Pattern

/-- the rule that a pattern text breaks -/
inductive Fault where
  | charRange | escape | namedCapture | groupOption | repeatOp | repeatSize
  | missingBracket | missingParen | missingRepeatArgument | trailingBackslash | unexpectedParen | nesting
  deriving Repr, DecidableEq

def Fault.text : Fault → String
  | charRange => "invalid character class range"
  | escape => "invalid escape sequence"
  | namedCapture => "invalid named capture"
  | groupOption => "invalid or unsupported Perl syntax"
  | repeatOp => "invalid nested repetition operator"
  | repeatSize => "invalid repeat count"
  | missingBracket => "missing closing ]"
  | missingParen => "missing closing )"
  | missingRepeatArgument => "missing argument to repetition operator"
  | trailingBackslash => "trailing backslash at end of expression"
  | unexpectedParen => "unexpected )"
  | nesting => "expression nests too deeply"

structure SyntaxError where
  fault : Fault
  part : String
  deriving Repr, DecidableEq

def SyntaxError.message (e : SyntaxError) : String :=
  "error parsing regexp: " ++ e.fault.text ++ ": \x60" ++ e.part ++ "\x60"

/-- the part of a text that was read, given what is left of it -/
def read (whole rest : List Char) : String := String.ofList (whole.take (whole.length - rest.length))

def fail {α : Type} (f : Fault) (part : String) : Except SyntaxError α := .error ⟨f, part⟩

/-- flags that inline groups switch -/
structure Flags where
  fold : Bool := false
  multiline : Bool := false
  dotNewline : Bool := false
  deriving Repr, DecidableEq

/-- a group that is still open: alternatives before the current one, and the items of the current one, both reversed -/
structure Frame where
  flags : Flags
  alternatives : List Pattern := []
  items : List Pattern := []

structure Builder where
  flags : Flags := {}
  alternatives : List Pattern := []
  items : List Pattern := []
  outer : List Frame := []

def seqAll : List Pattern → Pattern
  | [] => empty
  | [r] => r
  | r :: rs => seq r (seqAll rs)

def altAll : List Pattern → Pattern
  | [] => empty
  | [r] => r
  | r :: rs => alt r (altAll rs)

/-- the pattern of the current group -/
def Builder.close (b : Builder) : Pattern :=
  altAll ((seqAll b.items.reverse :: b.alternatives).reverse)

def Builder.push (b : Builder) (r : Pattern) : Builder := { b with items := r :: b.items }

def Builder.literal (b : Builder) (c : Char) : Builder :=
  b.push (.set { items := [⟨.span c.toNat c.toNat, false⟩], folded := b.flags.fold })

def Builder.opened (b : Builder) (inner : Flags) : Builder :=
  { flags := inner, outer := ⟨b.flags, b.alternatives, b.items⟩ :: b.outer }

/-! ## Classes -/

def digits : List (Nat × Nat) := [(0x30, 0x39)]

def spaces : List (Nat × Nat) := [(0x9, 0xA), (0xC, 0xD), (0x20, 0x20)]

def wordChars : List (Nat × Nat) := [(0x30, 0x39), (0x41, 0x5A), (0x5F, 0x5F), (0x61, 0x7A)]

/-- the one-letter classes `\d`, `\s`, `\w` and their complements -/
def letterClass? : Char → Option ClassItem
  | 'd' => some ⟨.spans digits, false⟩
  | 'D' => some ⟨.spans digits, true⟩
  | 's' => some ⟨.spans spaces, false⟩
  | 'S' => some ⟨.spans spaces, true⟩
  | 'w' => some ⟨.spans wordChars, false⟩
  | 'W' => some ⟨.spans wordChars, true⟩
  | _ => none

/-- the classes that are named inside brackets -/
def namedClass? (name : String) : Option (List (Nat × Nat)) :=
  match name with
  | "alnum" => some [(0x30, 0x39), (0x41, 0x5A), (0x61, 0x7A)]
  | "alpha" => some [(0x41, 0x5A), (0x61, 0x7A)]
  | "ascii" => some [(0, 0x7F)]
  | "blank" => some [(0x9, 0x9), (0x20, 0x20)]
  | "cntrl" => some [(0, 0x1F), (0x7F, 0x7F)]
  | "digit" => some digits
  | "graph" => some [(0x21, 0x7E)]
  | "lower" => some [(0x61, 0x7A)]
  | "print" => some [(0x20, 0x7E)]
  | "punct" => some [(0x21, 0x2F), (0x3A, 0x40), (0x5B, 0x60), (0x7B, 0x7E)]
  | "space" => some [(0x9, 0xD), (0x20, 0x20)]
  | "upper" => some [(0x41, 0x5A)]
  | "word" => some wordChars
  | "xdigit" => some [(0x30, 0x39), (0x41, 0x46), (0x61, 0x66)]
  | _ => none

/-- the names of the general categories -/
def categoryNames : List String :=
  ["C", "Cc", "Cf", "Co", "Cs", "L", "Ll", "Lm", "Lo", "Lt", "Lu", "M", "Mc", "Me", "Mn", "N", "Nd", "Nl", "No",
   "P", "Pc", "Pd", "Pe", "Pf", "Pi", "Po", "Ps", "S", "Sc", "Sk", "Sm", "So", "Z", "Zl", "Zp", "Zs"]

/-- the class of a category or a script, by name -/
def categoryItem? (name : String) (negated : Bool) : Option ClassItem :=
  if name = "Any" then some ⟨.everything, negated⟩
  else if categoryNames.contains name then
    match name.toList with
    | [major] => some ⟨.category major none, negated⟩
    | [major, minor] => some ⟨.category major (some minor), negated⟩
    | _ => none
  else (Text.Script.ranges? name).map fun ranges => ⟨.spans ranges, negated⟩

/-- a category group such as `\pL`, `\p{Lu}` or `\p{Greek}`, read from its backslash; `none` if the text starts otherwise -/
def categoryClass (s : List Char) : Except SyntaxError (Option (ClassItem × List Char)) :=
  match s with
  | '\\' :: p :: t =>
    if p = 'p' ∨ p = 'P' then
      let finish (seq : String) (name : String) (rest : List Char) :
          Except SyntaxError (Option (ClassItem × List Char)) :=
        let (negated, name) := match name.toList with
          | '^' :: r => (p != 'P', String.ofList r)
          | _ => (p == 'P', name)
        match categoryItem? name negated with
        | some item => .ok (some (item, rest))
        | none => fail .charRange seq
      match t with
      | '{' :: r =>
        match Text.cutAt? ['}'] r with
        | some (name, rest) => finish (read s rest) (String.ofList name) rest
        | none => fail .charRange (String.ofList s)
      | c :: rest => finish (read s rest) c.toString rest
      | [] => finish (String.ofList s) "" []
    else .ok none
  | _ => .ok none

/-- up to `n` more octal digits -/
def octal : Nat → Nat → List Char → Nat × List Char
  | 0, acc, cs => (acc, cs)
  | n + 1, acc, c :: cs => if '0' ≤ c ∧ c ≤ '7' then octal n (acc * 8 + (c.toNat - 48)) cs else (acc, c :: cs)
  | _ + 1, acc, [] => (acc, [])

/-- digits of a braced hexadecimal escape up to the closing brace; on failure the text that is left -/
def bracedHex (acc count : Nat) : List Char → Except (List Char) (Nat × List Char)
  | [] => .error []
  | c :: cs =>
    if c = '}' then (if count = 0 then .error cs else .ok (acc, cs))
    else match Number.digitOf? 16 c with
      | none => .error cs
      | some d => if acc * 16 + d > 0x10FFFF then .error cs else bracedHex (acc * 16 + d) (count + 1) cs

/-- an escape that stands for one character, read from its backslash -/
def escapeChar (s : List Char) : Except SyntaxError (Char × List Char) :=
  let bad (rest : List Char) : Except SyntaxError (Char × List Char) := fail .escape (read s rest)
  match s.drop 1 with
  | [] => fail .trailingBackslash ""
  | c :: t =>
    if '1' ≤ c ∧ c ≤ '7' then
      match t with
      | d :: _ =>
        if '0' ≤ d ∧ d ≤ '7' then
          let (n, rest) := octal 2 (c.toNat - 48) t
          .ok (Char.ofNat n, rest)
        else bad t
      | [] => bad t
    else if c = '0' then
      let (n, rest) := octal 2 0 t
      .ok (Char.ofNat n, rest)
    else if c = 'x' then
      match t with
      | [] => bad t
      | '{' :: r =>
        match bracedHex 0 0 r with
        | .ok (n, rest) => .ok (Char.ofNat n, rest)
        | .error rest => bad rest
      | a :: r =>
        match r with
        | [] => bad []
        | b :: rest =>
          match Number.digitOf? 16 a, Number.digitOf? 16 b with
          | some x, some y => .ok (Char.ofNat (x * 16 + y), rest)
          | _, _ => bad rest
    else if c = 'a' then .ok ('\x07', t)
    else if c = 'f' then .ok ('\x0c', t)
    else if c = 'n' then .ok ('\n', t)
    else if c = 'r' then .ok ('\r', t)
    else if c = 't' then .ok ('\t', t)
    else if c = 'v' then .ok ('\x0b', t)
    else if c.toNat < 128 ∧ ¬ c.isAlphanum then .ok (c, t)
    else bad t

/-- one character of a bracketed class -/
def classChar (whole s : List Char) : Except SyntaxError (Char × List Char) :=
  match s with
  | [] => fail .missingBracket (String.ofList whole)
  | '\\' :: _ => escapeChar s
  | c :: t => .ok (c, t)

/-- a named class such as `[:alpha:]`, read from its bracket; `none` if the text starts otherwise -/
def bracketName (s : List Char) : Except SyntaxError (Option (ClassItem × List Char)) :=
  match s with
  | '[' :: ':' :: t =>
    match Text.cutAt? [':', ']'] t with
    | none => .ok none
    | some (body, rest) =>
      let (negated, name) := match body with
        | '^' :: r => (true, String.ofList r)
        | r => (false, String.ofList r)
      match namedClass? name with
      | some ranges => .ok (some (⟨.spans ranges, negated⟩, rest))
      | none => fail .charRange (read s rest)
  | _ => .ok none

/-- one item of a bracketed class -/
def classItem (whole s : List Char) : Except SyntaxError (ClassItem × List Char) := do
  if let some r ← (if s.length > 2 then bracketName s else .ok none) then return r
  if let some r ← categoryClass s then return r
  match s with
  | '\\' :: c :: t =>
    if let some item := letterClass? c then return (item, t)
  | _ => pure ()
  let (low, t) ← classChar whole s
  match t with
  | '-' :: d :: r =>
    if d = ']' then return (⟨.span low.toNat low.toNat, false⟩, t)
    let (high, rest) ← classChar whole (d :: r)
    if high < low then fail .charRange (read s rest)
    else return (⟨.span low.toNat high.toNat, false⟩, rest)
  | _ => return (⟨.span low.toNat low.toNat, false⟩, t)

/-- the items of a bracketed class up to its closing bracket -/
def classItems (whole : List Char) (first : Bool) (acc : List ClassItem) :
    Nat → List Char → Except SyntaxError (List ClassItem × List Char)
  | 0, _ => fail .missingBracket (String.ofList whole)
  | fuel + 1, s =>
    match s, first with
    | ']' :: t, false => .ok (acc.reverse, t)
    | s, _ =>
      match classItem whole s with
      | .error e => .error e
      | .ok (item, t) => classItems whole false (item :: acc) fuel t

/-- a bracketed class, read from its opening bracket -/
def bracketed (flags : Flags) (s : List Char) : Except SyntaxError (Pattern × List Char) :=
  let (negated, t) := match s with
    | '[' :: '^' :: t => (true, t)
    | _ => (false, s.drop 1)
  match classItems s true [] (s.length + 1) t with
  | .error e => .error e
  | .ok (items, rest) => .ok (.set { items, negated, folded := flags.fold }, rest)

/-! ## Groups and repetition -/

def isCaptureName (name : List Char) : Bool := !name.isEmpty && name.all isWordChar

/-- what an opening `(?` asks for: new flags, and whether a group starts -/
structure GroupHead where
  flags : Flags
  opens : Bool
  rest : List Char

/-- flag letters up to the colon or parenthesis; `value` is false behind a minus sign -/
def groupFlags (s : List Char) (flags : Flags) (value seen : Bool) : List Char → Except SyntaxError GroupHead
  | [] => fail .groupOption (String.ofList s)
  | c :: t =>
    if c = 'i' then groupFlags s { flags with fold := value } value true t
    else if c = 'm' then groupFlags s { flags with multiline := value } value true t
    else if c = 's' then groupFlags s { flags with dotNewline := value } value true t
    else if c = 'U' then groupFlags s flags value true t
    else if c = '-' ∧ value then groupFlags s flags false false t
    else if (c = ':' ∨ c = ')') ∧ (value ∨ seen) then .ok ⟨flags, c == ':', t⟩
    else fail .groupOption (read s t)

/-- a group that starts with `(?` -/
def groupHead (flags : Flags) (s : List Char) : Except SyntaxError GroupHead :=
  let named (start : Nat) : Except SyntaxError GroupHead :=
    match Text.cutAt? ['>'] s with
    | none => fail .namedCapture (String.ofList s)
    | some (before, rest) =>
      if isCaptureName (before.drop start) then .ok ⟨flags, true, rest⟩
      else fail .namedCapture (read s rest)
  match s with
  | '(' :: '?' :: 'P' :: '<' :: _ :: _ => named 4
  | '(' :: '?' :: '<' :: _ :: _ => named 3
  | _ => groupFlags s flags true false (s.drop 2)

/-- a count, if one stands here; `none` for its value when it is too large -/
def count (s : List Char) : Option (Option Nat × List Char) :=
  let ds := s.takeWhile Char.isDigit
  let rest := s.dropWhile Char.isDigit
  match ds with
  | [] => none
  | '0' :: _ :: _ => none
  | ds =>
    let n := ds.foldl (fun n c => n * 10 + (c.toNat - 48)) 0
    some (if n ≥ 1000000000 then none else some n, rest)

/-- the bounds of a counted repetition, read from its brace; inner `none` for a count that is too large -/
def bounds (s : List Char) : Option (Option (Nat × Option Nat) × List Char) :=
  match s with
  | '{' :: t =>
    match count t with
    | none => none
    | some (least, '}' :: rest) => some (least.map fun n => (n, some n), rest)
    | some (least, ',' :: '}' :: rest) => some (least.map fun n => (n, none), rest)
    | some (least, ',' :: r) =>
      match count r with
      | some (most, '}' :: rest) =>
        some ((match least, most with | some n, some m => some (n, some m) | _, _ => none), rest)
      | _ => none
    | _ => none
  | _ => none

/-- repeats the last item; `previous` is the repetition that stands directly before, if one does -/
def repeated (b : Builder) (least : Nat) (most : Option Nat) (counted : Bool) (before rest : List Char)
    (previous : Option (List Char)) : Except SyntaxError (Builder × List Char) :=
  let rest := match rest with
    | '?' :: r => r
    | r => r
  match previous with
  | some p => fail .repeatOp (read p rest)
  | none =>
    match b.items with
    | [] => fail .missingRepeatArgument (read before rest)
    | r :: items =>
      let looped := loop r least most
      if counted && (least ≥ 2 || most.any (· ≥ 2)) && !looped.loopsWithin 1000 then
        fail .repeatSize (read before rest)
      else .ok ({ b with items := looped :: items }, rest)

def pushAll (b : Builder) (cs : List Char) : Builder := cs.foldl Builder.literal b

/-- an escape outside classes -/
def escaped (b : Builder) (s : List Char) : Except SyntaxError (Builder × List Char) := do
  match s with
  | '\\' :: 'A' :: t => return (b.push (.anchor .textStart), t)
  | '\\' :: 'b' :: t => return (b.push (.anchor .wordBoundary), t)
  | '\\' :: 'B' :: t => return (b.push (.anchor .noWordBoundary), t)
  | '\\' :: 'z' :: t => return (b.push (.anchor .textEnd), t)
  | '\\' :: 'C' :: _ => fail .escape "\\C"
  | '\\' :: 'Q' :: t =>
    match Text.cutAt? ['\\', 'E'] t with
    | some (body, rest) => return (pushAll b body, rest)
    | none => return (pushAll b t, [])
  | _ => pure ()
  if let some (item, rest) ← categoryClass s then
    return (b.push (.set { items := [item], folded := b.flags.fold }), rest)
  match s with
  | '\\' :: c :: t =>
    if let some item := letterClass? c then
      return (b.push (.set { items := [item], folded := b.flags.fold }), t)
  | _ => pure ()
  let (c, rest) ← escapeChar s
  return (b.literal c, rest)

/-- everything but a line end -/
def notNewline : CharSet := { items := [⟨.span 10 10, false⟩], negated := true }

def anyChar : CharSet := { items := [⟨.everything, false⟩] }

/-- one step of the reader: the builder, what is left, and the repetition just read -/
def step (whole : List Char) (b : Builder) (previous : Option (List Char)) (s : List Char) :
    Except SyntaxError (Builder × List Char × Option (List Char)) := do
  match s with
  | [] => return (b, [], none)
  | c :: t =>
    match c with
    | '(' =>
      match t with
      | '?' :: _ =>
        let g ← groupHead b.flags s
        return (if g.opens then b.opened g.flags else { b with flags := g.flags }, g.rest, none)
      | _ => return (b.opened b.flags, t, none)
    | '|' => return ({ b with alternatives := seqAll b.items.reverse :: b.alternatives, items := [] }, t, none)
    | ')' =>
      match b.outer with
      | [] => fail .unexpectedParen (String.ofList whole)
      | f :: outer =>
        return ({ flags := f.flags, alternatives := f.alternatives, items := b.close :: f.items, outer }, t, none)
    | '^' => return (b.push (.anchor (if b.flags.multiline then .lineStart else .textStart)), t, none)
    | '$' => return (b.push (.anchor (if b.flags.multiline then .lineEnd else .textEnd)), t, none)
    | '.' => return (b.push (.set (if b.flags.dotNewline then anyChar else notNewline)), t, none)
    | '[' =>
      let (r, rest) ← bracketed b.flags s
      return (b.push r, rest, none)
    | '*' => let (b, rest) ← repeated b 0 none false s t previous; return (b, rest, some s)
    | '+' => let (b, rest) ← repeated b 1 none false s t previous; return (b, rest, some s)
    | '?' => let (b, rest) ← repeated b 0 (some 1) false s t previous; return (b, rest, some s)
    | '{' =>
      match bounds s with
      | none => return (b.literal '{', t, none)
      | some (none, rest) => fail .repeatSize (read s rest)
      | some (some (least, most), rest) =>
        if least > 1000 || most.any (· > 1000) || most.any (· < least) then fail .repeatSize (read s rest)
        else
          let (b, rest) ← repeated b least most true s rest previous
          return (b, rest, some s)
    | '\\' => let (b, rest) ← escaped b s; return (b, rest, none)
    | c => return (b.literal c, t, none)

/-- steps until the text is used up; each step reads at least one character -/
def steps (whole : List Char) : Nat → Builder → Option (List Char) → List Char → Except SyntaxError Builder
  | _, b, _, [] => .ok b
  | 0, b, _, _ => .ok b
  | fuel + 1, b, previous, s =>
    match step whole b previous s with
    | .error e => .error e
    | .ok (b, rest, repetition) => steps whole fuel b repetition rest

/-- the depth of nested operators -/
def height : Pattern → Nat
  | empty => 1
  | set _ => 1
  | anchor _ => 1
  | seq a b => max (height a + 1) (height b)
  | alt a b => max (height a + 1) (height b)
  | loop r _ _ => height r + 1

/-- reads a pattern -/
def parse (text : String) : Except SyntaxError Pattern := do
  let cs := text.toList
  let b ← steps cs (cs.length + 1) {} none cs
  if b.outer.length > 1000 then fail .nesting text
  if !b.outer.isEmpty then fail .missingParen text
  let r := b.close
  if height r > 1000 then fail .nesting text
  return r

end Schemata.Pattern
