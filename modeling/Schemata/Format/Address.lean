import Schemata.Uri

/-!
Addresses as text: internet protocol addresses, host names and mail boxes.
-/

namespace Schemata.Format

/-- a number up to 255 without a leading zero -/
def isOctet (s : String) : Bool :=
  match Text.natOf? s with
  | some n => n ≤ 255 && s.length ≤ 3 && !(s.length > 1 && Text.startsWith s "0")
  | none => false

def isIPv4 (s : String) : Bool :=
  let parts := Text.splitOn s "."
  parts.length == 4 && parts.all isOctet

/-- groups read so far (in pairs of bytes), and the place of the double colon -/
structure Groups where
  count : Nat := 0
  gap : Option Nat := none

/-- hexadecimal groups divided by colons; the last two may be written as a dotted quad -/
def groups (g : Groups) : Nat → List Char → Option Groups
  | 0, cs => if cs.isEmpty then some g else none
  | fuel + 1, cs =>
    if g.count ≥ 8 then (if cs.isEmpty then some g else none)
    else
      let ds := cs.takeWhile fun c => (Number.digitOf? 16 c).isSome
      let rest := cs.dropWhile fun c => (Number.digitOf? 16 c).isSome
      if ds.isEmpty || ds.length > 4 then none
      else
        match rest with
        | '.' :: _ =>
          if (g.gap.isNone && g.count != 6) || g.count > 6 then none
          else if isIPv4 (String.ofList cs) then some { g with count := g.count + 2 } else none
        | [] => some { g with count := g.count + 1 }
        | [':'] => none
        | [':', ':'] => if g.gap.isSome then none else some { count := g.count + 1, gap := some (g.count + 1) }
        | ':' :: ':' :: more =>
          if g.gap.isSome then none else groups { count := g.count + 1, gap := some (g.count + 1) } fuel more
        | ':' :: more => groups { g with count := g.count + 1 } fuel more
        | _ => none

/-- eight groups, or fewer with one double colon -/
def isIPv6 (s : String) : Bool :=
  let finish : Option Groups → Bool
    | some g => if g.count < 8 then g.gap.isSome else g.gap.isNone
    | none => false
  Text.contains s ":" &&
    match s.toList with
    | [':', ':'] => true
    | ':' :: ':' :: rest => finish (groups { gap := some 0 } 9 rest)
    | cs => finish (groups {} 9 cs)

/-- letters, digits and inner hyphens, at most 63 of them -/
def isLabel (s : String) : Bool :=
  let cs := s.toList
  1 ≤ cs.length && cs.length ≤ 63 && (cs.all fun c => c.isAlphanum || c == '-')
    && (cs.head?).any Char.isAlphanum && (cs.getLast?).any Char.isAlphanum

def isHostname (s : String) : Bool :=
  let s := Text.trimSuffix s "."
  s ≠ "" && s.utf8ByteSize ≤ 253 && (Text.splitOn s ".").all isLabel

/-- a visible character that has no meaning of its own in an address -/
def isAtomChar (c : Char) : Bool :=
  (('!' ≤ c && c ≤ '~') || c.toNat ≥ 128) && !"()<>[]:;@\\,\"".toList.contains c

/-- atoms divided by single points -/
def isDotAtom (s : String) : Bool :=
  s ≠ "" && s.toList.all isAtomChar && (Text.splitOn s ".").all (· ≠ "")

/-- a mail domain: atoms, or an address in brackets -/
def isMailDomain (s : String) : Bool :=
  isDotAtom s ||
    (Text.startsWith s "[" && Text.endsWith s "]" && s.length ≥ 2 &&
      (let inner := Text.trimSuffix (Text.trimPrefix s "[") "]"
       isIPv4 inner || isIPv6 inner))

def isEmail (s : String) : Bool :=
  let (user, domain, found) := Text.cut s "@"
  found && isDotAtom user && isMailDomain domain

def isUri (s : String) : Bool := (Uri.parse? s).any Uri.isAbsolute

/-- thirty-two hexadecimal digits in groups of 8, 4, 4, 4 and 12 -/
def isUuid (s : String) : Bool :=
  let parts := Text.splitOn s "-"
  s.utf8ByteSize == 36 && parts.map String.length == [8, 4, 4, 4, 12]
    && parts.all fun p => p.toList.all fun c => (Number.digitOf? 16 c).isSome

end Schemata.Format
