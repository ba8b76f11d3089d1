import Schemata.Text.Basic

/-!
Regular patterns and where they match.

A `Pattern` is matched by partial derivatives: `after` gives the patterns that may still have to match once one
character is read, `emptyAt` says whether a pattern matches the empty text at a `Place`. Anchors look at the two
characters around a place and at nothing else, so one definition serves text, line and word boundaries.
`Pattern.search` asks for a match anywhere.
-/

namespace Schemata

/-- part of a character class; `negated` turns this part around -/
inductive ClassBase where
  | span (low high : Nat)
  | category (major : Char) (minor : Option Char)
  | everything
  | spans (ranges : List (Nat × Nat))
  deriving Repr, DecidableEq

structure ClassItem where
  base : ClassBase
  negated : Bool := false
  deriving Repr, DecidableEq

/-- a set of characters; a folded set holds every character that differs from a member only by case -/
structure CharSet where
  items : List ClassItem
  negated : Bool := false
  folded : Bool := false
  deriving Repr, DecidableEq

def ClassBase.holds (b : ClassBase) (c : Char) : Bool :=
  match b with
  | span low high => low ≤ c.toNat && c.toNat ≤ high
  | category major minor =>
    let (a, i) := Text.Category.of c
    a == major && (match minor with | some m => i == m | none => true)
  | everything => true
  | spans ranges => ranges.any fun (low, high) => low ≤ c.toNat && c.toNat ≤ high

def CharSet.holds (s : CharSet) (c : Char) : Bool :=
  let candidates := if s.folded then c :: Text.CaseMap.orbit c else [c]
  let inside := s.items.any fun i => (candidates.any i.base.holds) != i.negated
  inside != s.negated

/-- conditions on a place between two characters -/
inductive Anchor where
  | textStart | textEnd | lineStart | lineEnd | wordBoundary | noWordBoundary
  deriving Repr, DecidableEq

/-- a place in a text: the character before and the one after -/
structure Place where
  before : Option Char
  after : Option Char

def isWordChar (c : Char) : Bool := c.isAlphanum || c == '_'

def Place.boundary (p : Place) : Bool := p.before.any isWordChar != p.after.any isWordChar

def Anchor.holds (a : Anchor) (p : Place) : Bool :=
  match a with
  | textStart => p.before.isNone
  | textEnd => p.after.isNone
  | lineStart => p.before.isNone || p.before == some '\n'
  | lineEnd => p.after.isNone || p.after == some '\n'
  | wordBoundary => p.boundary
  | noWordBoundary => !p.boundary

/-- a regular pattern -/
inductive Pattern where
  | empty
  | set (s : CharSet)
  | anchor (a : Anchor)
  | seq (first second : Pattern)
  | alt (left right : Pattern)
  | loop (body : Pattern) (least : Nat) (most : Option Nat)
  deriving Repr, DecidableEq

namespace Pattern

/-- does the pattern match the empty text at a place? -/
def emptyAt (p : Place) : Pattern → Bool
  | empty => true
  | set _ => false
  | anchor a => a.holds p
  | seq a b => a.emptyAt p && b.emptyAt p
  | alt a b => a.emptyAt p || b.emptyAt p
  | loop r least _ => least == 0 || r.emptyAt p

/-- the rounds of a loop still open once one round reads a character and `k` rounds matched nothing before it -/
def remaining (least : Nat) (most : Option Nat) (k : Nat) : Option (Nat × Option Nat) :=
  match most with
  | none => some (least - (k + 1), none)
  | some m => if m < k + 1 then none else some (least - (k + 1), some (m - (k + 1)))

/-- what may still have to match behind the character `c`, read at a place -/
def after (p : Place) (c : Char) : Pattern → List Pattern
  | empty => []
  | set s => if s.holds c then [empty] else []
  | anchor _ => []
  | seq a b =>
    let firsts := (a.after p c).map fun a' => if a' = empty then b else seq a' b
    if a.emptyAt p then firsts ++ b.after p c else firsts
  | alt a b => a.after p c ++ b.after p c
  | loop r least most =>
    let heads := r.after p c
    let skips := if r.emptyAt p then List.range (max least 1) else [0]
    (skips.filterMap (remaining least most)).flatMap fun (l, m) =>
      heads.map fun h =>
        let rest := if m = some 0 then empty else loop r l m
        if h = empty then rest else if rest = empty then h else seq h rest

/-- walks the text with the set of patterns still to match; a new attempt starts at every place -/
def searchFrom (start : Pattern) (before : Option Char) (open_ : List Pattern) : List Char → Bool
  | [] => (start :: open_).any (emptyAt ⟨before, none⟩)
  | c :: cs =>
    let p : Place := ⟨before, some c⟩
    let live := start :: open_
    live.any (emptyAt p) || searchFrom start (some c) (live.flatMap (after p c)).eraseDups cs

/-- does the pattern match somewhere in the text? -/
def search (r : Pattern) (s : String) : Bool := searchFrom r none [] s.toList

/-- rounds of counted loops within counted loops, bounded by `n` -/
def loopsWithin : Pattern → Nat → Bool
  | empty, _ => true
  | set _, _ => true
  | anchor _, _ => true
  | seq a b, n => a.loopsWithin n && b.loopsWithin n
  | alt a b, n => a.loopsWithin n && b.loopsWithin n
  | loop r least most, n =>
    if least == 0 && (most.isNone || most == some 1) || least == 1 && most.isNone then r.loopsWithin n
    else
      match most with
      | some 0 => true
      | some m => m ≤ n && r.loopsWithin (n / m)
      | none => least ≤ n && r.loopsWithin (if least > 0 then n / least else n)

end Pattern

end Schemata
