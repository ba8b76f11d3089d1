import Schemata.Proofs.Graph.Closure
import Schemata.Proofs.Import.Building

/-!
What an import makes of the schemas that it reads.

`parts` are the schemas that the node of a schema is built over. A node reads a schema if the nodes below it read its parts,
down to the references, each of which waits for the place that it names (`Reads`). An import only adds to what it knows,
has built and waits for (`Widens`), so a node goes on reading its schema (`Reads.widens`). A step of an import that returns
keeps, besides, that the nodes in the tables of the documents read the schemas behind their fragments (`Advances`).

A step brings the node of a value if it converts the value on its way and gives a node that the conversion stands below
(`Brings`); a step carries a node if it gives one above it (`Carries`). One that brings a node, followed by one that
carries it on, brings it (`Brings.bind`), so there is one lemma for each step of a conversion, and from them
`schemaNode_brings`: each part of a schema is brought.
-/

namespace Schemata

namespace Graph

/-! ## Nodes below others -/

variable {g h : Graph} {a b : Nat}

theorem leads_of_frame {f : Frame} (hf : g.frame? a = some f) (hb : b ∈ f.children) (hsome : (g.get? b).isSome = true) :
    g.Leads a b := by
  obtain ⟨n, hn, rfl⟩ := Option.map_eq_some_iff.1 hf
  exact ⟨n, hn, hb, hsome⟩

theorem Extends.isSome (hext : g.Extends h) (ha : (g.get? a).isSome = true) : (h.get? a).isSome = true := by
  rw [← isSome_frame?] at ha ⊢
  obtain ⟨f, hf⟩ := Option.isSome_iff_exists.1 ha
  rw [hext a f hf]
  rfl

theorem Leads.extends (hleads : g.Leads a b) (hext : g.Extends h) : h.Leads a b := by
  obtain ⟨n, hn, hb, hsome⟩ := hleads
  have hf : g.frame? a = some n.frame := by rw [frame?, hn]; rfl
  exact leads_of_frame (hext a n.frame hf) hb (hext.isSome hsome)

theorem Attains.mono (hattains : g.Attains a b) (hleads : ∀ a b, g.Leads a b → h.Leads a b) : h.Attains a b := by
  induction hattains with
  | refl => exact .refl
  | tail _ hstep ih => exact ih.tail (hleads _ _ hstep)

/-- what leads to a node is a node -/
theorem Attains.isSome (hattains : g.Attains a b) (hb : (g.get? b).isSome = true) : (g.get? a).isSome = true := by
  rcases Relation.ReflTransGen.cases_head hattains with rfl | ⟨c, ⟨n, hn, -, -⟩, -⟩
  · exact hb
  · rw [hn]
    rfl

end Graph

namespace Import

open Steps
open Setting (Plain)

/-! ## The parts of a schema -/

/-- the values of an object; a key that stands twice has its last -/
def lastValues : Dict Value → List Value
  | [] => []
  | (k, v) :: rest => if Dict.has rest k then lastValues rest else v :: lastValues rest

/-- a schema that may be `false` in the place of none -/
def unlessFalse : Option Value → List Value
  | none => []
  | some (.bool false) => []
  | some v => [v]

/-- the schema that the values of a record share -/
def recordParts (m : Dict Value) : List Value :=
  match object? m "patternProperties" with
  | some [(_, v)] => [v]
  | _ => unlessFalse (m.get? "additionalProperties")

/-- the properties of an object; without any it is a record -/
def objectParts (m : Dict Value) : List Value :=
  let props := (object? m "properties").getD []
  if props.isEmpty then recordParts m else lastValues props

/-- the positions of a tuple and what may follow them, or the schema that the elements share -/
def arrayParts (m : Dict Value) : List Value :=
  match list? m "prefixItems", list? m "items" with
  | some items, _ => items ++ unlessFalse (m.get? "items")
  | none, some items => items ++ unlessFalse (m.get? "additionalItems")
  | none, none => (m.get? "items").toList

def typeParts (m : Dict Value) : (type : String) → List Value
  | "object" => objectParts m
  | "array" => arrayParts m
  | _ => []

/-- the declared types without the one that makes a schema nullable -/
def ownTypes (m : Dict Value) : List String :=
  let types := typeNames m
  if types.contains "null" && (types.length > 1 || isComposite m) then types.erase "null" else types

/-- what the types of a schema speak about; where it lists its values, or is a number or a text, they do not count -/
def ownParts (m : Dict Value) : List Value :=
  if isTrue m "x-kubernetes-int-or-string" || (list? m "enum").isSome || (m.get? "const").isSome then []
  else (if (ownTypes m).isEmpty then inferredTypes m else ownTypes m).flatMap (typeParts m)

def combinedParts (m : Dict Value) : List Value :=
  ["anyOf", "oneOf", "allOf"].flatMap fun key => (list? m key).getD []

/-- the schemas that the node of a schema is built over; a schema that nodes cannot express stays in one piece, unless a
reference stands in it -/
def parts (m : Dict Value) : List Value :=
  if !(unsupported m).isEmpty && !fieldReference m then [] else ownParts m ++ combinedParts m

/-! ## Places -/

/-- the schema behind a fragment of a document -/
def schemaBehind? (p : Progress) (src : Nat) (fragment : String) : Option Value :=
  (p.sources[src]?).bind fun s => Fragment.find? s.root fragment

/-- the document and the fragment that a reference in a document names; the part before `#` is the address of a document,
seen from where the reference stands, or is empty for the document itself -/
def named? (p : Progress) (src : Nat) (ref : String) : Option (Nat × String) :=
  (p.sources[src]?).bind fun s =>
    if (Text.cut ref "#").1 = "" then some (src, (Text.cut ref "#").2.1)
    else (p.known.get? (resolveUri s.uri (Text.cut ref "#").1)).map fun i => (i, (Text.cut ref "#").2.1)

/-- the node reads the schema, which stands in a document: below it are nodes that read the parts of the schema, and where
these are references, each waits for the place that it names -/
inductive Reads (g : Graph) (p : Progress) (src : Nat) : Value → Nat → Prop
  | always (b : Bool) (n : Nat) : Reads g p src (.bool b) n
  /-- the reference itself, or the node that makes it nullable -/
  | reference {m : Dict Value} {ref : String} {n : Nat} {r : Pending} (href : text? m "$ref" = some ref) (hr : r ∈ p.pending)
      (hplace : named? p src ref = some (r.source, r.fragment)) (hn : n = r.node ∨ g.Leads n r.node) : Reads g p src (.object m) n
  | schema {m : Dict Value} {n : Nat} (node : Value → Nat) (href : text? m "$ref" = none)
      (hbelow : ∀ v ∈ parts m, g.Attains n (node v)) (hparts : ∀ v ∈ parts m, Reads g p src v (node v)) :
      Reads g p src (.object m) n

/-- what an import knows, has built and waits for becomes more -/
structure Widens (p q : Progress) : Prop where
  graph : p.graph.Extends q.graph
  sources : ∀ (i : Nat) (s : Source), p.sources[i]? = some s → ∃ t, q.sources[i]? = some t ∧ t.uri = s.uri ∧ t.root = s.root
  known : ∀ uri i, p.known.get? uri = some i → q.known.get? uri = some i
  pending : p.pending ⊆ q.pending

section Widening

variable {o : Options} {p q r : Progress} {src n : Nat} {fragment : String} {v : Value}

theorem Widens.refl (p : Progress) : Widens p p :=
  ⟨.refl _, fun _ s hs => ⟨s, hs, rfl, rfl⟩, fun _ _ h => h, fun _ h => h⟩

theorem Widens.trans (h : Widens p q) (h' : Widens q r) : Widens p r where
  graph := h.graph.trans h'.graph
  sources i s hs := by
    obtain ⟨t, ht, huri, hroot⟩ := h.sources i s hs
    obtain ⟨u, hu, huri', hroot'⟩ := h'.sources i t ht
    exact ⟨u, hu, huri'.trans huri, hroot'.trans hroot⟩
  known uri i hi := h'.known uri i (h.known uri i hi)
  pending _ hr := h'.pending (h.pending hr)

theorem Widens.isSome (h : Widens p q) (hs : (p.sources[src]?).isSome = true) : (q.sources[src]?).isSome = true := by
  obtain ⟨s, hs⟩ := Option.isSome_iff_exists.1 hs
  obtain ⟨t, ht, -, -⟩ := h.sources src s hs
  rw [ht]
  rfl

theorem Widens.root (h : Widens p q) (hv : (p.sources[src]?).map (·.root) = some v) : (q.sources[src]?).map (·.root) = some v := by
  obtain ⟨s, hs, rfl⟩ := Option.map_eq_some_iff.1 hv
  obtain ⟨t, ht, -, hroot⟩ := h.sources src s hs
  rw [ht, Option.map_some, hroot]

theorem Widens.schemaBehind (h : Widens p q) (hv : schemaBehind? p src fragment = some v) :
    schemaBehind? q src fragment = some v := by
  obtain ⟨s, hs, hv⟩ := Option.bind_eq_some_iff.1 hv
  obtain ⟨t, ht, -, hroot⟩ := h.sources src s hs
  rw [schemaBehind?, ht, Option.bind_some, hroot, hv]

theorem Widens.named (h : Widens p q) {ref : String} {place : Nat × String} (hp : named? p src ref = some place) :
    named? q src ref = some place := by
  obtain ⟨s, hs, hp⟩ := Option.bind_eq_some_iff.1 hp
  obtain ⟨t, ht, huri, -⟩ := h.sources src s hs
  rw [named?, ht, Option.bind_some, huri]
  split at hp
  · rw [if_pos ‹_›, hp]
  · obtain ⟨i, hi, rfl⟩ := Option.map_eq_some_iff.1 hp
    rw [if_neg ‹_›, h.known _ i hi]
    rfl

/-- **A node goes on reading its schema.** -/
theorem Reads.mono {g h : Graph} (hreads : Reads g p src v n) (hleads : ∀ a b, g.Leads a b → h.Leads a b) (hw : Widens p q) :
    Reads h q src v n := by
  induction hreads with
  | always b n => exact .always b n
  | reference href hr hplace hn => exact .reference href (hw.pending hr) (hw.named hplace) (hn.imp_right (hleads _ _))
  | schema node href hbelow _ ih => exact .schema node href (fun v hv => (hbelow v hv).mono hleads) ih

theorem Reads.widens (hreads : Reads p.graph p src v n) (h : Widens p q) : Reads q.graph q src v n :=
  hreads.mono (fun _ _ hleads => hleads.extends h.graph) h

/-! ## Steps of an import -/

/-- a document that is known under an address is the first of an import that says where it lies, or the one that the fetcher
has there -/
def Founded (o : Options) (p : Progress) : Prop :=
  ∀ uri i, p.known.get? uri = some i →
    ∃ s, p.sources[i]? = some s ∧ s.uri = uri ∧ (i = 0 ∧ uri = o.baseUri ∨ remote? o uri = some s.root)

/-- each node in the table of a document reads the schema behind its fragment -/
def Stored (p : Progress) : Prop :=
  ∀ src fragment n, nodeBehind? p src fragment = some n →
    ∃ v, schemaBehind? p src fragment = some v ∧ Reads p.graph p src v n

/-- where a step of an import that returns may lead -/
structure Advances (o : Options) (p q : Progress) : Prop where
  widens : Widens p q
  entries : ∀ src fragment n, nodeBehind? p src fragment = some n → nodeBehind? q src fragment = some n
  founded : Founded o p → Founded o q
  stored : Stored p → Stored q

theorem Advances.refl (p : Progress) : Advances o p p := ⟨.refl p, fun _ _ _ h => h, id, id⟩

theorem Advances.trans (h : Advances o p q) (h' : Advances o q r) : Advances o p r where
  widens := h.widens.trans h'.widens
  entries src fragment n hn := h'.entries src fragment n (h.entries src fragment n hn)
  founded hp := h'.founded (h.founded hp)
  stored hp := h'.stored (h.stored hp)

theorem Advances.reads (h : Advances o p q) (hreads : Reads p.graph p src v n) : Reads q.graph q src v n :=
  hreads.widens h.widens

theorem Advances.attains (h : Advances o p q) {a b : Nat} (hab : p.graph.Attains a b) : q.graph.Attains a b :=
  hab.mono fun _ _ hleads => hleads.extends h.widens.graph

/-- documents that stand where documents stood are as known as those -/
theorem Widens.founded (h : Widens p q) (hknown : q.known = p.known) (hp : Founded o p) : Founded o q := by
  intro uri i hi
  rw [hknown] at hi
  obtain ⟨s, hs, huri, hroot⟩ := hp uri i hi
  obtain ⟨t, ht, huri', hroot'⟩ := h.sources i s hs
  exact ⟨t, ht, huri'.trans huri, hroot'.symm ▸ hroot⟩

/-- steps that build no definition -/
theorem Widens.advances (h : Widens p q) (hentries : ∀ src fragment, nodeBehind? q src fragment = nodeBehind? p src fragment)
    (hknown : q.known = p.known) : Advances o p q where
  widens := h
  entries src fragment n hn := by rw [hentries, hn]
  founded := h.founded hknown
  stored hp src fragment n hn := by
    rw [hentries] at hn
    obtain ⟨v, hv, hreads⟩ := hp src fragment n hn
    exact ⟨v, h.schemaBehind hv, hreads.widens h⟩

/-- steps that change the graph, and no more than warnings or references besides -/
theorem advances_of_graph (hgraph : p.graph.Extends q.graph) (hsources : q.sources = p.sources) (hknown : q.known = p.known)
    (hpending : p.pending ⊆ q.pending) : Advances o p q := by
  have hwidens : Widens p q := by
    refine ⟨hgraph, fun i s hs => ⟨s, by rw [hsources, hs], rfl, rfl⟩, fun uri i hi => by rw [hknown, hi], hpending⟩
  refine hwidens.advances (fun src fragment => ?_) hknown
  unfold nodeBehind?
  rw [hsources]

/-! ## Documents -/

/-- a document is added, and becomes known under an address that was not -/
theorem advances_push {uri : String} {root : Value} (hgraph : q.graph = p.graph)
    (hsources : q.sources = p.sources.push { uri, root }) (hpending : q.pending = p.pending)
    (hknown : q.known = p.known ∨ q.known = p.known.insert uri p.sources.size ∧ p.known.get? uri = none ∧
      (p.sources.size = 0 ∧ uri = o.baseUri ∨ remote? o uri = some root)) : Advances o p q := by
  have hold {i : Nat} {s : Source} (hs : p.sources[i]? = some s) : q.sources[i]? = some s := by
    obtain ⟨hi, -⟩ := Array.getElem?_eq_some_iff.1 hs
    rw [hsources, Array.getElem?_push, if_neg (Nat.ne_of_lt hi), hs]
  have hwidens : Widens p q := by
    refine ⟨by rw [hgraph]; exact .refl _, fun i s hs => ⟨s, hold hs, rfl, rfl⟩, fun u i hi => ?_,
      by rw [hpending]; exact fun _ h => h⟩
    rcases hknown with hknown | ⟨hknown, hnone, -⟩
    · rw [hknown, hi]
    · rw [hknown, Dict.get?_insert, if_neg (fun h => by rw [h, hi] at hnone; cases hnone), hi]
  have hentries : ∀ src fragment, nodeBehind? q src fragment = nodeBehind? p src fragment := fun src fragment =>
    (alike_of_push uri root (by rw [hgraph]; exact .refl _) hpending hsources).entries src fragment
  rcases hknown with hknown | ⟨hknown, -, hfrom⟩
  · exact hwidens.advances hentries hknown
  · refine ⟨hwidens, fun src fragment n hn => by rw [hentries, hn], fun hp u i hi => ?_, fun hp src fragment n hn => ?_⟩
    · rw [hknown, Dict.get?_insert] at hi
      split at hi
      · rename_i huri
        obtain rfl := Option.some.inj hi
        refine ⟨{ uri, root }, by rw [hsources, Array.getElem?_push, if_pos rfl], huri, ?_⟩
        rw [← huri]
        exact hfrom
      · obtain ⟨s, hs, hrest⟩ := hp u i hi
        exact ⟨s, hold hs, hrest⟩
    · rw [hentries] at hn
      obtain ⟨v, hv, hreads⟩ := hp src fragment n hn
      exact ⟨v, hwidens.schemaBehind hv, hreads.widens hwidens⟩

theorem locate_advances (o : Options) (src : Nat) (ref : String) (p : Progress) : Advances o p (locate o src ref p).2 := by
  rcases locate_cases o src ref p.sources p.known with ⟨r, hr, -⟩ | ⟨fetcher, uri, text, root, rest, hf, ht, hd, hk, hr⟩
  · rw [hr p rfl rfl]
    exact .refl p
  · rw [hr p rfl rfl]
    have hremote : remote? o uri = some root := by simp [remote?, hf, ht, hd, Except.toOption]
    exact advances_push rfl rfl rfl (.inr ⟨rfl, hk, .inr hremote⟩)

/-- **The target of a reference is the place that it names.** -/
theorem locate_named {ref : String} {t : Nat × String} (hs : (p.sources[src]?).isSome = true)
    (h : locate o src ref p = (.ok t, q)) : named? q src ref = some t := by
  obtain ⟨s, hs⟩ := Option.isSome_iff_exists.1 hs
  have hq := locate_advances o src ref p
  rw [h] at hq
  obtain ⟨s', hs', huri, -⟩ := hq.widens.sources src s hs
  rw [named?, hs', Option.bind_some, huri]
  unfold locate at h
  dsimp only at h
  split at h
  · cases h
  · split at h
    · rename_i hbase
      cases h
      rw [if_pos hbase]
    · rename_i hbase
      rw [if_neg hbase]
      have hread := read_apply o src (Text.cut ref "#").1 (Text.cut ref "#").2.1 _ p rfl
      rw [hs, Option.getD_some] at hread
      have h := hread.symm.trans h
      cases hk : p.known.get? (resolveUri s.uri (Text.cut ref "#").1) with
      | some i =>
        rw [hk] at h
        cases h
        rw [hk]
        rfl
      | none =>
        rw [hk] at h
        obtain ⟨i, u, hfetch, h⟩ := bind_ok h
        cases h
        rcases fetch_cases o (resolveUri s.uri (Text.cut ref "#").1) with ⟨e, he⟩ | ⟨_, _, root, _, -, -, -, hfetched⟩
        · cases (he p).symm.trans hfetch
        · cases (hfetched p).symm.trans hfetch
          simp [fetched, Dict.get?_insert]

/-! ## Single steps -/

/-- a new node has its children, and stands in the graph -/
theorem make_spec {kind : Kind} {options : Schemata.Options} {children : List Nat} {settings : List Setting} (hs : Plain settings)
    (h : make kind options children settings p = (.ok n, q)) :
    Advances o p q ∧ q.graph.frame? n = some ⟨n, kind, children, none, false, []⟩ := by
  obtain ⟨hframes, hnumber⟩ := GraphM.add_frames kind options children hs p.graph
  have hextends := (p.graph.extends_add kind options children).trans hframes.extends
  rw [make, onGraph_apply] at h
  obtain ⟨hn, rfl⟩ := Prod.ext_iff.1 h
  obtain rfl := hnumber n hn
  refine ⟨advances_of_graph hextends rfl rfl (fun _ h => h), (hframes.frames _).trans ?_⟩
  rw [Graph.frame?_add, if_pos rfl]

theorem make_lands {kind : Kind} {options : Schemata.Options} {children : List Nat} {settings : List Setting} (hs : Plain settings)
    (h : make kind options children settings p = (.ok n, q)) : Advances o p q ∧ (q.graph.get? n).isSome = true := by
  obtain ⟨hadvances, hframe⟩ := make_spec hs h
  refine ⟨hadvances, ?_⟩
  rw [← Graph.isSome_frame?, hframe]
  rfl

theorem apply_advances (n : Nat) {settings : List Setting} (hs : Plain settings) (p : Progress) :
    Advances o p (onGraph (GraphM.apply n settings) p).2 :=
  advances_of_graph (GraphM.apply_frames n hs p.graph).extends rfl rfl fun _ h => h

/-- a run of an import next to itself -/
def advancing (o : Options) : Coupling where
  related p q := p = q
  leads := Advances o
  owns p n := (p.graph.get? n).isSome = true
  stands p n := (p.graph.get? n).isSome = true

theorem advancing_sound (o : Options) : (advancing o).Sound o := by
  have hmake {kind : Kind} (options : Schemata.Options) (children : List Nat) {settings : List Setting} (hs : Plain settings) :
      (advancing o).Pairs children (make kind options children settings) (make kind options children settings) fun n => [n] := by
    rintro p _ rfl -
    refine ⟨rfl, rfl, fun n hn => ?_⟩
    obtain ⟨hadvances, hsome⟩ := make_lands hs (Prod.ext hn rfl)
    exact ⟨hadvances, fun m hm => by rw [List.mem_singleton.1 hm]; exact hsome⟩
  constructor
  case refl => exact .refl
  case trans => exact .trans
  case keeps => exact fun h hn => h.widens.graph.isSome hn
  case stays => exact fun h hn => h.widens.graph.isSome hn
  case stands => exact fun h => h
  case sources => exact fun h => congrArg Progress.sources h
  case pruning => exact fun h => congrArg Progress.pruning h
  case nodes => exact fun h => congrArg (·.graph.nodes) h
  case make => exact fun options children _ _ hs => hmake options children hs
  case join => exact fun options children _ _ hs => hmake options children hs
  case optional => exact fun n => hmake _ [n] plain_nil
  case apply =>
    rintro n settings hs p _ rfl -
    exact ⟨rfl, rfl, fun _ _ => ⟨apply_advances n hs p, fun m hm => by cases hm⟩⟩
  case warn =>
    rintro text p _ rfl -
    exact ⟨rfl, rfl, fun _ _ => ⟨advances_of_graph (.refl _) rfl rfl (fun _ h => h), fun m hm => by cases hm⟩⟩
  case locate =>
    intro src ref p q h
    obtain rfl : p = q := h
    exact ⟨rfl, rfl, locate_advances o src ref p⟩

/-- a step that returns leads on -/
def Passes {α : Type} (o : Options) (x : ImportM α) : Prop := ∀ p a q, x p = (.ok a, q) → Advances o p q

theorem apply_passes (n : Nat) {settings : List Setting} (hs : Plain settings) : Passes o (onGraph (GraphM.apply n settings)) := by
  intro p _ q h
  have hadvances : Advances o p _ := apply_advances n hs p
  rw [h] at hadvances
  exact hadvances

theorem named_passes (n : Nat) (name : String) : Passes o (onGraph (GraphM.apply n [.named name])) :=
  apply_passes n (by simp [Plain, Setting.isHook])

theorem Coupling.Pairs.spec {α : Type} {x : ImportM α} {gives : α → List Nat} (h : (advancing o).Pairs [] x x gives) {a : α}
    (hx : x p = (.ok a, q)) : Advances o p q ∧ ∀ n ∈ gives a, (q.graph.get? n).isSome = true := by
  have hret := (h p p rfl fun _ hn => absurd hn List.not_mem_nil).2.2 a (by rw [hx])
  rw [hx] at hret
  exact hret

theorem Coupling.Pairs.passes {α : Type} {x : ImportM α} {gives : α → List Nat} (h : (advancing o).Pairs [] x x gives) :
    Passes o x := fun _ _ _ hx => (Coupling.Pairs.spec h hx).1

end Widening

/-! ## What a conversion brings -/

variable {α β : Type} {o : Options} {convert : Convert} {v : Value} {p q : Progress} {n k : Nat}

/-- where the step returns, it has converted the value, and gives a node that the node of the value stands below -/
def Brings (o : Options) (convert : Convert) (v : Value) (gives : α → Nat → Prop) (x : ImportM α) : Prop :=
  ∀ p a q, x p = (.ok a, q) → ∃ place p₁ k p₂ n, Advances o p p₁ ∧ convert v place p₁ = (.ok k, p₂) ∧ Advances o p₂ q ∧
    gives a n ∧ q.graph.Attains n k

/-- where the step returns, it gives a node that `k` stands below -/
def Carries (o : Options) (k : Nat) (gives : α → Nat → Prop) (x : ImportM α) : Prop :=
  ∀ p a q, (p.graph.get? k).isSome = true → x p = (.ok a, q) → Advances o p q ∧ ∃ n, gives a n ∧ q.graph.Attains n k

/-- conversions that return lead on, to a node -/
def Lands (o : Options) (convert : Convert) : Prop :=
  ∀ v place p n q, convert v place p = (.ok n, q) → Advances o p q ∧ (q.graph.get? n).isSome = true

/-! ### Rules -/

theorem Carries.pure {gives : α → Nat → Prop} {a : α} (h : gives a k) : Carries o k gives (pure a) := by
  intro p b q _ hx
  cases hx
  exact ⟨.refl p, k, h, .refl⟩

/-- a new node carries its children -/
theorem Carries.make {kind : Kind} {options : Schemata.Options} {children : List Nat} {settings : List Setting}
    (hs : Plain settings) (hk : k ∈ children) : Carries o k Eq (make kind options children settings) := by
  intro p n q hsome hx
  obtain ⟨hadvances, hframe⟩ := make_spec hs hx
  refine ⟨hadvances, n, rfl, .single ?_⟩
  exact Graph.leads_of_frame hframe hk (hadvances.widens.graph.isSome hsome)

theorem Carries.imp {gives gives' : α → Nat → Prop} {x : ImportM α} (hx : Carries o k gives x)
    (h : ∀ a n, gives a n → gives' a n) : Carries o k gives' x := by
  intro p a q hsome hrun
  obtain ⟨hpq, n, hn, hnk⟩ := hx p a q hsome hrun
  exact ⟨hpq, n, h a n hn, hnk⟩

theorem Carries.after {gives : β → Nat → Prop} {x : ImportM α} {f : α → ImportM β} (hx : Passes o x)
    (hf : ∀ a, Returns x a → Carries o k gives (f a)) : Carries o k gives (x >>= f) := by
  intro p b q hsome hrun
  obtain ⟨a, u, hxa, hfa⟩ := bind_ok hrun
  have hpu := hx p a u hxa
  obtain ⟨huq, hgives⟩ := hf a ⟨p, by rw [hxa]⟩ u b q (hpu.widens.graph.isSome hsome) hfa
  exact ⟨hpu.trans huq, hgives⟩

theorem Carries.bind {gives : α → Nat → Prop} {gives' : β → Nat → Prop} {x : ImportM α} {f : α → ImportM β}
    (hx : Carries o k gives x) (hf : ∀ a n, gives a n → Carries o n gives' (f a)) : Carries o k gives' (x >>= f) := by
  intro p b q hsome hrun
  obtain ⟨a, u, hxa, hfa⟩ := bind_ok hrun
  obtain ⟨hpu, n, hn, hnk⟩ := hx p a u hsome hxa
  obtain ⟨huq, m, hm, hmn⟩ := hf a n hn u b q (hnk.isSome (hpu.widens.graph.isSome hsome)) hfa
  exact ⟨hpu.trans huq, m, hm, hmn.trans (huq.attains hnk)⟩

theorem Brings.self : Brings o convert v Eq (convert v place) := by
  intro p n q hx
  exact ⟨place, p, n, q, n, .refl p, hx, .refl q, rfl, .refl⟩

theorem Brings.imp {gives gives' : α → Nat → Prop} {x : ImportM α} (hx : Brings o convert v gives x)
    (h : ∀ a n, gives a n → gives' a n) : Brings o convert v gives' x := by
  intro p a q hrun
  obtain ⟨place, p₁, k, p₂, n, h₁, hconvert, h₂, hn, hnk⟩ := hx p a q hrun
  exact ⟨place, p₁, k, p₂, n, h₁, hconvert, h₂, h a n hn, hnk⟩

theorem Brings.after {gives : β → Nat → Prop} {x : ImportM α} {f : α → ImportM β} (hx : Passes o x)
    (hf : ∀ a, Returns x a → Brings o convert v gives (f a)) : Brings o convert v gives (x >>= f) := by
  intro p b q hrun
  obtain ⟨a, u, hxa, hfa⟩ := bind_ok hrun
  obtain ⟨place, p₁, k, p₂, n, h₁, hrest⟩ := hf a ⟨p, by rw [hxa]⟩ u b q hfa
  exact ⟨place, p₁, k, p₂, n, (hx p a u hxa).trans h₁, hrest⟩

theorem Brings.bind (hconv : Lands o convert) {gives : α → Nat → Prop} {gives' : β → Nat → Prop} {x : ImportM α}
    {f : α → ImportM β} (hx : Brings o convert v gives x) (hf : ∀ a n, gives a n → Carries o n gives' (f a)) :
    Brings o convert v gives' (x >>= f) := by
  intro p b q hrun
  obtain ⟨a, u, hxa, hfa⟩ := bind_ok hrun
  obtain ⟨place, p₁, k, p₂, n, h₁, hconvert, h₂, hn, hnk⟩ := hx p a u hxa
  have hk := (hconv v place p₁ k p₂ hconvert).2
  obtain ⟨huq, m, hm, hmn⟩ := hf a n hn u b q (hnk.isSome (h₂.widens.graph.isSome hk)) hfa
  exact ⟨place, p₁, k, p₂, m, h₁, hconvert, h₂.trans huq, hm, hmn.trans (huq.attains hnk)⟩

/-! ### Steps of a conversion -/

variable (hconv : Lands o convert)

include hconv

/-- where conversions lead on, so do the steps made of them -/
theorem Lands.converts (m : Dict Value) : (advancing o).Converts m convert convert := by
  rintro v place - p _ rfl -
  refine ⟨rfl, rfl, fun n hn => ?_⟩
  obtain ⟨hadvances, hsome⟩ := hconv v place p n _ (Prod.ext hn rfl)
  exact ⟨hadvances, fun m hm => by rw [List.mem_singleton.1 hm]; exact hsome⟩

theorem Lands.passes (v : Value) (place : String) : Passes o (convert v place) :=
  fun p n q hx => (hconv v place p n q hx).1

theorem convertPiece_brings (isOptional : Bool) (place : String) :
    Brings o convert v Eq (Coupling.convertPiece convert isOptional v place) := by
  refine .bind hconv .self fun n _ hn => ?_
  subst hn
  split
  · exact .make plain_nil (List.mem_singleton_self n)
  · exact .pure rfl

variable {m : Dict Value}

theorem convertPiece_passes (isOptional : Bool) (hv : Below v (.object m)) (place : String) :
    Passes o (Coupling.convertPiece convert isOptional v place) :=
  Coupling.Pairs.passes (Coupling.convertPiece_pieces (advancing_sound o) (hconv.converts m) [] isOptional hv place)

/-! ### Arrays -/

theorem convertList_passes (place key : String) {vs : List Value} (hvs : ∀ v ∈ vs, Below v (.object m)) (i : Nat) :
    Passes o (convertList convert place key i vs) :=
  Coupling.Pairs.passes (Coupling.convertList_pairs (advancing_sound o) (hconv.converts m) [] place key hvs i)

theorem convertPositions_passes (place key : String) (least : Int) {vs : List Value} (hvs : ∀ v ∈ vs, Below v (.object m))
    (i : Nat) : Passes o (convertPositions convert place key least i vs) :=
  Coupling.Pairs.passes (Coupling.convertPositions_pieces (advancing_sound o) (hconv.converts m) [] place key least hvs i)

theorem convertList_brings (place key : String) {vs : List Value} (hvs : ∀ v ∈ vs, Below v (.object m)) (hv : v ∈ vs) (i : Nat) :
    Brings o convert v (fun ns n => n ∈ ns) (convertList convert place key i vs) := by
  induction vs generalizing i with
  | nil => cases hv
  | cons w vs ih =>
    have hrest : ∀ v ∈ vs, Below v (.object m) := fun v hv => hvs v (List.mem_cons_of_mem _ hv)
    rw [convertList]
    rcases List.mem_cons.1 hv with rfl | hv
    · refine .bind hconv .self fun n _ hn => ?_
      exact .after (convertList_passes hconv place key hrest (i + 1)) fun ns _ => .pure (by simp [hn])
    · refine .after (hconv.passes w _) fun n _ => .bind hconv (ih hrest hv (i + 1)) fun ns k hk => ?_
      exact .pure (List.mem_cons_of_mem n hk)

theorem convertPositions_brings (place key : String) (least : Int) {vs : List Value} (hvs : ∀ v ∈ vs, Below v (.object m))
    (hv : v ∈ vs) (i : Nat) : Brings o convert v (fun ns n => n ∈ ns) (convertPositions convert place key least i vs) := by
  induction vs generalizing i with
  | nil => cases hv
  | cons w vs ih =>
    have hrest : ∀ v ∈ vs, Below v (.object m) := fun v hv => hvs v (List.mem_cons_of_mem _ hv)
    rw [Coupling.convertPositions_cons]
    rcases List.mem_cons.1 hv with rfl | hv
    · refine .bind hconv (convertPiece_brings hconv _ _) fun n _ hn => ?_
      exact .after (convertPositions_passes hconv place key least hrest (i + 1)) fun ns _ => .pure (by simp [hn])
    · refine .after (convertPiece_passes hconv _ (hvs w (by simp)) _) fun n _ => ?_
      exact .bind hconv (ih hrest hv (i + 1)) fun ns k hk => .pure (List.mem_cons_of_mem n hk)

omit hconv in
theorem mem_unlessFalse {a : Option Value} (h : v ∈ unlessFalse a) : a = some v ∧ v ≠ .bool false := by
  unfold unlessFalse at h
  split at h
  · cases h
  · cases h
  · rename_i w hne
    obtain rfl := List.mem_singleton.1 h
    exact ⟨rfl, fun hv => hne (by rw [hv])⟩

theorem tupleNode_brings {items : List Value} {itemsKey key : String} (hitems : list? m itemsKey = some items) (place : String)
    {settings : List Setting} (hs : Plain settings)
    (hv : v ∈ items ++ unlessFalse (m.get? (if key = "prefixItems" then "items" else "additionalItems"))) :
    Brings o convert v Eq (tupleNode convert m items key place settings) := by
  have hbelow : ∀ v ∈ items, Below v (.object m) := fun v hv => below_list? hitems hv
  unfold tupleNode
  dsimp only
  revert hv
  generalize (if key = "prefixItems" then "items" else "additionalItems") = restKey
  intro hv
  rcases List.mem_append.1 hv with hv | hv
  · refine .bind hconv (convertPositions_brings hconv place key _ hbelow hv 0) fun ns n hn => ?_
    split
    · exact .make hs hn
    · exact .after (hconv.passes _ _) fun r _ => .make hs (List.mem_append_left _ hn)
  · obtain ⟨hget, hne⟩ := mem_unlessFalse hv
    refine .after (convertPositions_passes hconv place key _ hbelow 0) fun ns _ => ?_
    split
    · rename_i hfalse
      exact absurd (Option.some.inj (hget.symm.trans hfalse)) hne
    · rw [hget]
      refine .bind hconv .self fun r n hn => .make hs ?_
      simp [hn]

theorem arrayNode_brings (place : String) (hv : v ∈ arrayParts m) : Brings o convert v Eq (arrayNode convert m place) := by
  unfold arrayParts at hv
  unfold arrayNode
  refine .after (Coupling.listSettings_pairs (advancing_sound o) [] m place).passes fun own hown => ?_
  have hs : Plain (itemSettings m ++ own) := (tame_append.2 ⟨tame_itemSettings m, listSettings_tame hown⟩).plain
  dsimp only
  cases hlead : list? m "prefixItems" with
  | some items =>
    rw [hlead] at hv
    exact tupleNode_brings hconv hlead place hs hv
  | none =>
    cases hitems : list? m "items" with
    | some items =>
      rw [hlead, hitems] at hv
      exact tupleNode_brings hconv hitems place hs hv
    | none =>
      rw [hlead, hitems] at hv
      rw [Option.mem_toList.1 hv]
      exact .bind hconv .self fun item n hn => .make hs (by simp [hn])

/-! ### Objects -/

theorem recordNode_brings (place : String) (hv : v ∈ recordParts m) :
    Brings o convert v (fun a n => a = some n) (recordNode? convert m place) := by
  have hpattern (pattern : String) : Plain (if pattern = "" then [] else [Setting.keyPattern pattern]) := by
    split <;> simp [Plain, Setting.isHook]
  have hrecord (pattern at_ : String) : Brings o convert v (fun a n => a = some n) (do
      let n ← convert v at_
      return some (← make .record (.record "") [n] (if pattern = "" then [] else [.keyPattern pattern]))) := by
    refine .bind hconv .self fun n _ hn => ?_
    exact .bind (.make (hpattern pattern) (by simp [hn])) fun r _ hr => .pure (by rw [hr])
  unfold recordParts at hv
  unfold recordNode?
  dsimp only
  split at hv
  · rename_i k w hfields
    rw [hfields]
    obtain rfl := List.mem_singleton.1 hv
    exact hrecord k _
  · rename_i hfields
    obtain ⟨hget, hne⟩ := mem_unlessFalse hv
    rw [hget]
    split
    · exact (hfields _ _ ‹_›).elim
    · rename_i hfalse _
      exact absurd (Option.some.inj hfalse) hne
    · rename_i hsome _
      obtain rfl := Option.some.inj hsome
      exact hrecord _ _
    · rename_i hnone _
      cases hnone

omit hconv in
theorem mem_putField_self (k : String) (n : Nat) (acc : List (String × Nat)) : (k, n) ∈ putField k n acc := by
  induction acc with
  | nil => simp [putField]
  | cons e acc ih =>
    obtain ⟨l, i⟩ := e
    rw [putField]
    split
    · rename_i hkey
      rw [hkey]
      exact List.mem_cons_self
    · exact List.mem_cons_of_mem _ ih

omit hconv in
theorem mem_putField_of_ne {k l : String} (hne : l ≠ k) (n : Nat) {i : Nat} {acc : List (String × Nat)} (h : (l, i) ∈ acc) :
    (l, i) ∈ putField k n acc := by
  induction acc with
  | nil => cases h
  | cons e acc ih =>
    obtain ⟨l', j⟩ := e
    rw [putField]
    rcases List.mem_cons.1 h with heq | h
    · cases heq
      rw [if_neg hne]
      exact List.mem_cons_self
    · split
      · exact List.mem_cons_of_mem _ h
      · exact List.mem_cons_of_mem _ (ih h)

/-- a field stays as it is unless its key comes again -/
theorem convertFields_carries (place : String) (required : List String) {l : String} {acc : List (String × Nat)}
    (hacc : (l, k) ∈ acc) {fs : Dict Value} (hfs : ∀ e ∈ fs, Below e.2 (.object m)) (hl : Dict.has fs l = false) :
    Carries o k (fun fields n => (l, n) ∈ fields) (convertFields convert place required acc fs) := by
  induction fs generalizing acc with
  | nil => exact .pure hacc
  | cons e fs ih =>
    obtain ⟨l', w⟩ := e
    rw [Dict.has, List.any_cons, Bool.or_eq_false_iff] at hl
    have hne : l ≠ l' := fun h => by simp [h] at hl
    rw [Coupling.convertFields_cons]
    refine .after (convertPiece_passes hconv _ (hfs _ List.mem_cons_self) _) fun n _ => ?_
    exact ih (mem_putField_of_ne hne n hacc) (fun e he => hfs e (List.mem_cons_of_mem _ he)) hl.2

theorem convertFields_brings (place : String) (required : List String) (acc : List (String × Nat)) {fs : Dict Value}
    (hfs : ∀ e ∈ fs, Below e.2 (.object m)) (hv : v ∈ lastValues fs) :
    Brings o convert v (fun fields n => ∃ l, Dict.has fs l = true ∧ (l, n) ∈ fields)
      (convertFields convert place required acc fs) := by
  induction fs generalizing acc with
  | nil => cases hv
  | cons e fs ih =>
    obtain ⟨l, w⟩ := e
    have hrest : ∀ e ∈ fs, Below e.2 (.object m) := fun e he => hfs e (List.mem_cons_of_mem _ he)
    have hhas {l' : String} (h : Dict.has fs l' = true) : Dict.has ((l, w) :: fs) l' = true := by
      rw [Dict.has, List.any_cons, Bool.or_eq_true]
      exact .inr h
    have hlater (hv : v ∈ lastValues fs) :
        Brings o convert v (fun fields n => ∃ l', Dict.has ((l, w) :: fs) l' = true ∧ (l', n) ∈ fields)
          (convertFields convert place required acc ((l, w) :: fs)) := by
      rw [Coupling.convertFields_cons]
      refine .after (convertPiece_passes hconv _ (hfs _ List.mem_cons_self) _) fun n _ => ?_
      exact (ih _ hrest hv).imp fun fields n ⟨l', hl', hn⟩ => ⟨l', hhas hl', hn⟩
    rw [lastValues] at hv
    split at hv
    · exact hlater hv
    · rename_i hl
      rcases List.mem_cons.1 hv with rfl | hv
      · rw [Coupling.convertFields_cons]
        refine .bind hconv (convertPiece_brings hconv _ _) fun n _ hn => ?_
        subst hn
        refine (convertFields_carries hconv place required (mem_putField_self l n acc) hrest (by simpa using hl)).imp ?_
        exact fun fields n hn => ⟨l, by simp [Dict.has], hn⟩
      · exact hlater hv

omit hconv in
/-- keys that are added leave the fields of the others alone -/
theorem addMissing_carries (props : Dict Value) {node : ImportM Nat} (hnode : Passes o node) {l : String} (hl : Dict.has props l = true)
    {acc : List (String × Nat)} (hacc : (l, k) ∈ acc) (keys : List String) :
    Carries o k (fun fields n => (l, n) ∈ fields) (addMissing props node acc keys) := by
  induction keys generalizing acc with
  | nil => exact .pure hacc
  | cons key keys ih =>
    rw [addMissing]
    split
    · exact ih hacc
    · rename_i hnot
      have hne : l ≠ key := fun h => hnot (h ▸ hl)
      exact .after hnode fun n _ => ih (mem_putField_of_ne hne n hacc)

theorem fieldsNode_brings (place : String) (hv : v ∈ lastValues ((object? m "properties").getD [])) :
    Brings o convert v Eq (Coupling.fieldsNode o convert m place) := by
  have hC := advancing_sound o
  have hprops : ∀ e ∈ (object? m "properties").getD [], Below e.2 (.object m) := by
    cases h : object? m "properties" with
    | none => simp
    | some fs => exact fun e he => below_object? h he
  have hminLength : Plain [.minLength 1] := by simp [Plain, Setting.isHook]
  have hunknown : Passes o (make .unknown .none [] []) :=
    (Coupling.make_pairs hC .none (by simp) plain_nil (List.nil_subset [])).passes
  have htext : Passes o (make .string (.text {}) [] [.minLength 1]) :=
    (Coupling.make_pairs hC (.text {}) (by simp) hminLength (List.nil_subset [])).passes
  unfold Coupling.fieldsNode
  dsimp only
  refine .bind hconv (convertFields_brings hconv place _ [] hprops hv) fun fields n hfields => ?_
  obtain ⟨l, hl, hn⟩ := hfields
  refine .bind (addMissing_carries _ hunknown hl hn _) fun fields n hn => ?_
  refine .bind (addMissing_carries _ htext hl hn _) fun fields n hn => ?_
  refine .after (Coupling.unlistedPolicy_pairs hC [] m place).passes fun unlisted _ => .make plain_nil ?_
  exact List.mem_map_of_mem (f := (·.2)) hn

theorem objectNode_brings (place : String) (hv : v ∈ objectParts m) : Brings o convert v Eq (objectNode o convert m place) := by
  have hnone : Passes o (pure none : ImportM (Option Nat)) := fun p a q hx => by cases hx; exact .refl p
  unfold objectParts at hv
  unfold objectNode
  dsimp only at hv ⊢
  split at hv
  · rename_i hempty
    rw [if_pos hempty]
    refine .bind hconv (recordNode_brings hconv place hv) fun record n hn => ?_
    rw [hn]
    exact .pure rfl
  · rename_i hprops
    rw [if_neg hprops]
    refine .after hnone fun record hr => ?_
    rw [hr.of_pure]
    exact fieldsNode_brings hconv place hv

/-! ### Types and combinations -/

theorem typeNode_brings (place type : String) (hv : v ∈ typeParts m type) :
    Brings o convert v Eq (typeNode o convert m place type) := by
  unfold typeParts at hv
  split at hv
  · exact objectNode_brings hconv place hv
  · exact arrayNode_brings hconv place hv
  · cases hv

theorem typeNodes_brings (place : String) {types : List String} (hv : v ∈ types.flatMap (typeParts m)) :
    Brings o convert v (fun ns n => n ∈ ns) (typeNodes o convert m place types) := by
  have hC := advancing_sound o
  induction types with
  | nil => cases hv
  | cons t types ih =>
    rw [List.flatMap_cons] at hv
    rw [typeNodes]
    rcases List.mem_append.1 hv with hv | hv
    · refine .bind hconv (typeNode_brings hconv place t hv) fun n _ hn => ?_
      refine .after (Coupling.typeNodes_pairs hC (hconv.converts m) [] place types).passes fun ns _ => ?_
      exact .pure (by simp [hn])
    · refine .after (Coupling.typeNode_pairs hC (hconv.converts m) [] place t).passes fun n _ => ?_
      exact .bind hconv (ih hv) fun ns k hk => .pure (List.mem_cons_of_mem n hk)

theorem ownNode_brings (place : String) (hv : v ∈ ownParts m) :
    Brings o convert v (fun a n => a = some n) (ownNode? o convert m (ownTypes m) place) := by
  unfold ownParts at hv
  split at hv
  · cases hv
  · rename_i hlisted
    simp only [Bool.or_eq_true, not_or, Bool.not_eq_true, Option.isSome_eq_false_iff, Option.isNone_iff_eq_none] at hlisted
    obtain ⟨⟨hint, henum⟩, hconst⟩ := hlisted
    unfold ownNode?
    rw [if_neg (by simp [hint]), henum, hconst]
    dsimp only
    revert hv
    generalize (if (ownTypes m).isEmpty then inferredTypes m else ownTypes m) = types
    intro hv
    split
    · cases hv
    · rename_i t
      rw [List.flatMap_singleton] at hv
      exact .bind hconv (typeNode_brings hconv place t hv) fun n _ hn => .pure (by rw [hn])
    · refine .bind hconv (typeNodes_brings hconv place hv) fun ns n hn => ?_
      exact .bind (.make plain_nil hn) fun u _ hu => .pure (by rw [hu])

omit hconv in
theorem choiceNode_carries (src : Nat) (m : Dict Value) (variants : List Value) {nodes : List Nat} (hk : k ∈ nodes) (place : String) :
    Carries o k Eq (choiceNode o src m variants nodes place) := by
  have hC := advancing_sound o
  unfold choiceNode
  dsimp only
  split
  · exact .make plain_nil hk
  · refine .after (Coupling.unpinned_pairs hC [] src _ variants 0).passes fun i _ => ?_
    split
    · exact .after (Coupling.warnAt_pairs hC [] _ _).passes fun _ _ => .make plain_nil hk
    · exact .make plain_nil hk

theorem partNode_brings (src : Nat) (place key : String) (hv : v ∈ (list? m key).getD []) :
    Brings o convert v (fun a n => a = some n) (partNode? o src convert m place key) := by
  unfold partNode?
  split
  · rename_i hnone
    rw [hnone] at hv
    cases hv
  · rename_i vs hvs
    rw [hvs, Option.getD_some] at hv
    refine .bind hconv (convertList_brings hconv place key (fun v hv => below_list? hvs hv) hv 0) fun ns n hn => ?_
    split
    · exact .bind (.make plain_nil hn) fun u _ hu => .pure (by rw [hu])
    · exact .bind (choiceNode_carries src m vs hn place) fun u _ hu => .pure (by rw [hu])
    · exact .pure (by rw [List.mem_singleton.1 hn])
    · exact .bind (.make plain_nil hn) fun u _ hu => .pure (by rw [hu])

/-- what stands over the nodes of the keywords that a schema combines by -/
def joined (ns : List Nat) : ImportM (Option Nat) :=
  match ns with
  | [] => return none
  | [n] => return some n
  | ns => return some (← make .intersection .none ns [])

omit hconv in
theorem combined_joined (src : Nat) (m : Dict Value) (place : String) : combined? o src convert m place = (do
    let a ← partNode? o src convert m place "anyOf"
    let b ← partNode? o src convert m place "oneOf"
    let c ← partNode? o src convert m place "allOf"
    joined (a.toList ++ b.toList ++ c.toList)) := rfl

omit hconv in
theorem joined_carries {ns : List Nat} (hn : n ∈ ns) : Carries o n (fun a n => a = some n) (joined ns) := by
  cases ns with
  | nil => cases hn
  | cons a ns =>
    cases ns with
    | nil => exact .pure (by rw [List.mem_singleton.1 hn])
    | cons b ns => exact .bind (.make plain_nil hn) fun u _ hu => .pure (by rw [hu])

theorem combined_brings (src : Nat) (place : String) (hv : v ∈ combinedParts m) :
    Brings o convert v (fun a n => a = some n) (combined? o src convert m place) := by
  have hpasses (key : String) := (Coupling.partNode_pairs (advancing_sound o) (hconv.converts m) [] src place key).passes
  unfold combinedParts at hv
  obtain ⟨key, hkey, hv⟩ := List.mem_flatMap.1 hv
  have hpart := partNode_brings hconv src place key hv
  rw [combined_joined]
  simp only [List.mem_cons, List.not_mem_nil, or_false] at hkey
  obtain rfl | rfl | rfl := hkey
  · refine .bind hconv hpart fun a n hn => .after (hpasses _) fun b _ => .after (hpasses _) fun c _ => joined_carries ?_
    simp [hn]
  · refine .after (hpasses _) fun a _ => .bind hconv hpart fun b n hn => .after (hpasses _) fun c _ => joined_carries ?_
    simp [hn]
  · refine .after (hpasses _) fun a _ => .after (hpasses _) fun b _ => .bind hconv hpart fun c n hn => joined_carries ?_
    simp [hn]

/-! ### Schemas -/

omit hconv in
theorem nullable_carries (c : Prop) [Decidable c] : Carries o n Eq (if c then make .nullable .none [n] [] else pure n) := by
  split
  · exact .make plain_nil (List.mem_singleton_self n)
  · exact .pure rfl

theorem keywordsNode_brings (src : Nat) (null : Bool) (place : String) (hv : v ∈ ownParts m ++ combinedParts m) :
    Brings o convert v Eq (Coupling.keywordsNode o src convert m (ownTypes m) null place) := by
  have hC := advancing_sound o
  unfold Coupling.keywordsNode
  dsimp only
  refine .after (Coupling.annotations_pairs hC [] m place).passes fun settings hsettings => ?_
  have hs := (annotations_tame hsettings).plain
  rcases List.mem_append.1 hv with hv | hv
  · refine .bind hconv (ownNode_brings hconv place hv) fun own n hn => ?_
    refine .after (Coupling.combined_pairs hC (hconv.converts m) [] src place).passes fun comb _ => ?_
    rw [hn]
    cases comb with
    | some b => exact .bind (.make hs (by simp)) fun u _ hu => hu ▸ nullable_carries _
    | none => exact .after (apply_passes n hs) fun _ _ => .bind (.pure rfl) fun u _ hu => hu ▸ nullable_carries _
  · refine .after (Coupling.ownNode_pairs hC (hconv.converts m) [] _ place).passes fun own _ => ?_
    refine .bind hconv (combined_brings hconv src place hv) fun comb n hn => ?_
    rw [hn]
    cases own with
    | some a => exact .bind (.make hs (by simp)) fun u _ hu => hu ▸ nullable_carries _
    | none => exact .after (apply_passes n hs) fun _ _ => .bind (.pure rfl) fun u _ hu => hu ▸ nullable_carries _

/-- **Each part of a schema is brought.** -/
theorem schemaNode_brings (src : Nat) (place : String) (hv : v ∈ parts m) :
    Brings o convert v Eq (schemaNode o src convert m place) := by
  unfold parts at hv
  unfold schemaNode
  dsimp only
  split at hv
  · cases hv
  · rename_i hkept
    rw [if_neg hkept]
    split
    · refine .after (Coupling.warnAt_pairs (advancing_sound o) [] _ _).passes fun _ _ => ?_
      exact keywordsNode_brings hconv src _ place hv
    · exact keywordsNode_brings hconv src _ place hv

end Import

end Schemata
