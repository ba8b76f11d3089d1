import Schemata.Text.Category
import Schemata.Text.CaseMap

/-!
Plain operations on text: searching, splitting, replacing, trimming.

All of them walk the list of characters once, so their laws are inductions over that list. A replacement is never
searched again, and occurrences do not overlap.
-/

namespace Schemata.Text

/-- the rest behind a given beginning -/
def dropPrefix? : (beginning : List Char) → List Char → Option (List Char)
  | [], cs => some cs
  | _, [] => none
  | p :: ps, c :: cs => if p = c then dropPrefix? ps cs else none

/-- text before and behind the first occurrence -/
def cutAt? (pat : List Char) : List Char → Option (List Char × List Char)
  | [] => if pat.isEmpty then some ([], []) else none
  | c :: cs =>
    match dropPrefix? pat (c :: cs) with
    | some rest => some ([], rest)
    | none => (cutAt? pat cs).map fun (a, b) => (c :: a, b)

/-- replaces each occurrence from the left; `skip` characters of the current one are still to be dropped -/
def replaceGo (pat rep : List Char) : (skip : Nat) → List Char → List Char
  | _, [] => []
  | skip + 1, _ :: cs => replaceGo pat rep skip cs
  | 0, c :: cs =>
    if pat.isPrefixOf (c :: cs) then rep ++ replaceGo pat rep (pat.length - 1) cs
    else c :: replaceGo pat rep 0 cs

/-- every occurrence of a non-empty text replaced -/
def replaceAll (s pat rep : String) : String :=
  String.ofList (replaceGo pat.toList rep.toList 0 s.toList)

/-- the first occurrence replaced -/
def replaceFirst (s pat rep : String) : String :=
  match cutAt? pat.toList s.toList with
  | some (a, b) => String.ofList a ++ rep ++ String.ofList b
  | none => s

/-- splits at every occurrence of a non-empty separator -/
def splitGo (sep : List Char) : (skip : Nat) → (acc : List Char) → List Char → List (List Char)
  | _, acc, [] => [acc.reverse]
  | skip + 1, acc, _ :: cs => splitGo sep skip acc cs
  | 0, acc, c :: cs =>
    if sep.isPrefixOf (c :: cs) then acc.reverse :: splitGo sep (sep.length - 1) [] cs
    else splitGo sep 0 (c :: acc) cs

def splitOn (s sep : String) : List String :=
  (splitGo sep.toList 0 [] s.toList).map String.ofList

def contains (s pat : String) : Bool := (cutAt? pat.toList s.toList).isSome

def startsWith (s pat : String) : Bool := pat.toList.isPrefixOf s.toList

def endsWith (s pat : String) : Bool := pat.toList.reverse.isPrefixOf s.toList.reverse

/-- text without a given beginning, unchanged when it begins otherwise -/
def trimPrefix (s pat : String) : String :=
  match dropPrefix? pat.toList s.toList with
  | some r => String.ofList r
  | none => s

/-- text without a given end, unchanged when it ends otherwise -/
def trimSuffix (s pat : String) : String :=
  match dropPrefix? pat.toList.reverse s.toList.reverse with
  | some r => String.ofList r.reverse
  | none => s

/-- text before and behind the first occurrence, or all of it and nothing -/
def cut (s pat : String) : String × String × Bool :=
  match cutAt? pat.toList s.toList with
  | some (a, b) => (String.ofList a, String.ofList b, true)
  | none => (s, "", false)

/-- the white space of the Unicode standard -/
def isBlank (c : Char) : Bool :=
  let n := c.toNat
  (9 ≤ n && n ≤ 13) || n == 32 || n == 0x85 || n == 0xA0 || n == 0x1680 || (0x2000 ≤ n && n ≤ 0x200A)
    || n == 0x2028 || n == 0x2029 || n == 0x202F || n == 0x205F || n == 0x3000

def trimBoth (p : Char → Bool) (cs : List Char) : List Char :=
  ((cs.dropWhile p).reverse.dropWhile p).reverse

def trimSpace (s : String) : String := String.ofList (trimBoth isBlank s.toList)

def trimChars (s : String) (p : Char → Bool) : String := String.ofList (trimBoth p s.toList)

def trimRight (s : String) (p : Char → Bool) : String := String.ofList (s.toList.reverse.dropWhile p).reverse

/-- maximal stretches without white space -/
def fieldsGo : (acc : List Char) → List Char → List (List Char)
  | acc, [] => if acc.isEmpty then [] else [acc.reverse]
  | acc, c :: cs =>
    if isBlank c then (if acc.isEmpty then fieldsGo [] cs else acc.reverse :: fieldsGo [] cs)
    else fieldsGo (c :: acc) cs

def fields (s : String) : List String := (fieldsGo [] s.toList).map String.ofList

/-- runs of white space become one blank, none at the ends -/
def collapse (s : String) : String := " ".intercalate (fields s)

/-- the last element of a text divided by `sep` -/
def lastElement (s sep : String) : String := ((splitOn s sep).getLast?).getD ""

/-- simultaneous replacement of several keys, the earliest position first and at one position the first pair that fits -/
def replaceEach (pairs : List (List Char × List Char)) : (skip : Nat) → List Char → List Char
  | _, [] => []
  | skip + 1, _ :: cs => replaceEach pairs skip cs
  | 0, c :: cs =>
    match pairs.find? fun p => !p.1.isEmpty && p.1.isPrefixOf (c :: cs) with
    | some (pat, rep) => rep ++ replaceEach pairs (pat.length - 1) cs
    | none => c :: replaceEach pairs 0 cs

/-- a text of lower-case hexadecimal digits of a given least width -/
def hex (n width : Nat) : String :=
  let d := String.ofList (Nat.toDigits 16 n)
  String.ofList (List.replicate (width - d.length) '0') ++ d

/-- the number of bytes of the text in UTF-8 -/
def byteLength (s : String) : Nat := s.utf8ByteSize

/-- order of texts by code points -/
def le (a b : String) : Bool := decide (a ≤ b)

/-- a decimal number without sign, digits only -/
def natOf? (s : String) : Option Nat :=
  if s.isEmpty || !s.toList.all Char.isDigit then none
  else some (s.toList.foldl (fun n c => n * 10 + (c.toNat - '0'.toNat)) 0)

end Schemata.Text
