import Schemata.Text.Basic

/-!
Placeholders: tokens for names that are only known once everything is declared.

A token stands in double braces and names a node and one of its attributes, with a colon between. Nodes are decimal
numbers of 32 bits.
-/

namespace Schemata

structure Placeholder where
  node : Nat
  attr : String
  deriving Repr, DecidableEq

namespace Placeholder

def text (p : Placeholder) : String := "\x7b\x7b" ++ toString p.node ++ ":" ++ p.attr ++ "\x7d\x7d"

def isNameStart (c : Char) : Bool := c.isAlpha || c == '_'

def isNameChar (c : Char) : Bool := c.isAlphanum || c == '_'

/-- a token at the start of a text: its digits, its attribute and what follows -/
def scan? (cs : List Char) : Option (List Char × List Char × List Char) :=
  match cs with
  | '{' :: '{' :: r =>
    let ds := r.takeWhile Char.isDigit
    match ds, r.dropWhile Char.isDigit with
    | [], _ => none
    | ds, ':' :: c :: r2 =>
      if isNameStart c then
        match (c :: r2).dropWhile isNameChar with
        | '}' :: '}' :: rest => some (ds, (c :: r2).takeWhile isNameChar, rest)
        | _ => none
      else none
    | _, _ => none
  | _ => none

def idOf? (ds : List Char) : Option Nat :=
  (Text.natOf? (String.ofList ds)).filter (· < Nat.pow 2 32)

/-- a whole text as one token -/
def parse? (s : String) : Option Placeholder :=
  match scan? s.toList with
  | some (ds, attr, []) => (idOf? ds).map fun n => ⟨n, String.ofList attr⟩
  | _ => none

/-- a part of a text: words, or a token with its own text -/
inductive Piece where
  | words (s : String)
  | token (text : String) (p : Option Placeholder)
  deriving Repr, DecidableEq

/-- a text divided into tokens and the words between them; `skip` characters belong to the current token -/
def pieces (acc : List Char) : Nat → List Char → List Piece
  | _, [] => if acc.isEmpty then [] else [.words (String.ofList acc.reverse)]
  | skip + 1, _ :: cs => pieces acc skip cs
  | 0, c :: cs =>
    match scan? (c :: cs) with
    | some (ds, attr, rest) =>
      let whole := (c :: cs).take ((c :: cs).length - rest.length)
      let token := Piece.token (String.ofList whole) ((idOf? ds).map fun n => ⟨n, String.ofList attr⟩)
      let before := if acc.isEmpty then [] else [Piece.words (String.ofList acc.reverse)]
      before ++ token :: pieces [] (whole.length - 1) cs
    | none => pieces (c :: acc) 0 cs

def split (s : String) : List Piece := pieces [] 0 s.toList

/-- does the text hold a token? -/
def occursIn (s : String) : Bool := (split s).any fun | .token _ _ => true | _ => false

end Placeholder

end Schemata
