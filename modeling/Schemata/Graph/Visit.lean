import Schemata.Graph.Basic

/-!
Walking a graph: chains of wrappers, and visits with a table of handlers, one for each kind.

Optional, nullable and reference nodes wrap one child and compose in any order. A chain is the run of wrappers from
a node down to the first node that wraps nothing; a local chain stops at references, whose targets are described on
their own.

A handler sees its node and the state of the visit, and visits children through the function it is given. A wrapper
without a handler is passed through; any other node without one is a failure.
-/

namespace Schemata.Graph

/-- wrappers in order and the node below them; no node when the chain is broken or leads back into itself -/
def chainFrom (g : Graph) (acc : List Node) : Nat → Option Nat → List Node × Option Node
  | 0, _ => (acc.reverse, none)
  | fuel + 1, id =>
    match id.bind g.get? with
    | none => (acc.reverse, none)
    | some n =>
      if !n.kind.isWrapper then (acc.reverse, some n)
      else
        match n.children with
        | [c] => if acc.any (·.id == n.id) then (acc.reverse, none) else chainFrom g (n :: acc) fuel (some c)
        | _ => (acc.reverse, none)

/-- a chain meets each node once before it ends -/
def chain (g : Graph) (id : Nat) : List Node × Option Node := g.chainFrom [] (g.size + 2) (some id)

def localChainFrom (g : Graph) (acc : List Node) : Nat → Nat → List Node × Option Node
  | 0, _ => (acc.reverse, none)
  | fuel + 1, id =>
    match g.get? id with
    | none => (acc.reverse, none)
    | some n =>
      if !n.kind.isWrapper || n.kind = .ref then (acc.reverse, some n)
      else
        match n.children with
        | [c] => localChainFrom g (n :: acc) fuel c
        | _ => (acc.reverse, none)

/-- the chain up to the first reference -/
def localChain (g : Graph) (id : Nat) : List Node × Option Node := g.localChainFrom [] (g.size + 1) id

/-- the first node below all wrappers -/
def unwrap (g : Graph) (id : Nat) : Option Node := (g.chain id).2

/-- does the chain hold a wrapper of the kind? -/
def chainHas (g : Graph) (id : Nat) (k : Kind) : Bool := (g.chain id).1.any (·.kind = k)

def localHas (g : Graph) (id : Nat) (k : Kind) : Bool := (g.localChain id).1.any (·.kind = k)

def isNullable (g : Graph) (id : Nat) : Bool := g.chainHas id .nullable

def isOptional (g : Graph) (id : Nat) : Bool := g.chainHas id .optional

/-- the validator node of an export, behind any wrappers -/
def validator? (g : Graph) (id : Nat) : Option Node := (g.unwrap id).filter (·.kind = .validator)

end Schemata.Graph

/-! ## Visits -/

namespace Schemata

/-- how a node is visited, given how nodes below it are -/
abbrev Handler (σ ρ : Type) := (visit : Nat → σ → Outcome ρ) → Node → σ → Outcome ρ

structure Visitor (σ ρ : Type) where
  handlers : List (Kind × Handler σ ρ) := []
  fallback : Option (Handler σ ρ) := none

namespace Visitor

variable {σ ρ : Type}

def handler? (t : Visitor σ ρ) (k : Kind) : Option (Handler σ ρ) := (t.handlers.find? (·.1 == k)).map (·.2)

/-- a wrapper stands for its child -/
def passThrough (g : Graph) : Handler σ ρ := fun visit n s =>
  if n.kind.isWrapper then do
    let c ← g.sole n
    visit c.id s
  else failWith (.fault .unhandledNodeKind (n.site ""))

/-- visits a node, nesting at most `depth` deep -/
def visit (t : Visitor σ ρ) (g : Graph) : (depth : Nat) → Option Nat → σ → Outcome ρ
  | 0, _, _ => abort
  | depth + 1, id, s =>
    match id.bind g.get? with
    | none => failWith (.unsupported "nil node")
    | some n =>
      let handler := ((t.handler? n.kind).orElse fun _ => t.fallback).getD (passThrough g)
      handler (fun c s => visit t g depth (some c) s) n s

/-- the results of all children in order -/
def children (g : Graph) (visit : Nat → σ → Outcome ρ) (n : Node) (s : σ) : Outcome (List ρ) :=
  let rec go (i : Nat) : List Nat → Outcome (List ρ)
    | [] => .ok []
    | c :: cs =>
      match g.get? c with
      | none => failWith (.fault .unsupportedConstruct (n.site ("dangling child " ++ toString i)))
      | some m => do
        let r ← visit m.id s
        let rs ← go (i + 1) cs
        return r :: rs
  go 0 n.children

/-- the kinds that need a handler and have none -/
def missing (t : Visitor σ ρ) : List Kind := Kind.all.filter fun k => !k.isWrapper && (t.handler? k).isNone

/-- a table without gaps -/
def checkTotal (t : Visitor σ ρ) : Outcome Unit :=
  match t.missing with
  | [] => .ok ()
  | k :: ks =>
    failWith (.fault .unhandledNodeKind
      { kind := k.name, detail := toString (ks.length + 1) ++ " kinds without handler" })

/-- writes a visit down: the kind and the depth of each handled node, with what its children give in brackets -/
def outline (g : Graph) (kinds : List Kind) (rest : Option String) : Visitor Nat String where
  handlers := kinds.map fun k => (k, fun visit n depth => do
    let cs ← children g visit n (depth + 1)
    return k.name ++ "@" ++ toString depth ++ "(" ++ ",".intercalate cs ++ ")")
  fallback := rest.map fun s => fun _ n _ => .ok (s ++ n.kind.name)

end Visitor

end Schemata
