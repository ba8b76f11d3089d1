import Schemata.Proofs.Graph.Building
import Schemata.Proofs.Import.Ending

/-!
What an import keeps while it builds.

`Kept` is the invariant of an import. The nodes that it has added are not loaded and lead to nodes that it has added, to
optional ones only as positions of tuples and fields of objects; each reference among them waits for a definition that was
begun; a definition that is being built has no node yet, and one that is built has a new node, which is not optional. There
is one lemma for each kind of step: those that leave all this alone (`Alike.kept`), a new node (`kept_add`), a new
reference (`kept_referred`), and a definition that is opened (`kept_opened`) or gets its node (`kept_closed`).
-/

namespace Schemata.Import

open Steps
open Setting (isHook Plain)
open Graph (SameFrames)

/-- the fragments of a document whose definitions are being built -/
def building (p : Progress) (src : Nat) : List String := ((p.sources[src]?).map (·.building)).getD []

/-- the node of a definition, once it is built -/
def nodeBehind? (p : Progress) (src : Nat) (fragment : String) : Option Nat :=
  (p.sources[src]?).bind fun s => s.nodes.get? fragment

theorem isBegun_iff_building {p : Progress} {src : Nat} {fragment : String} : isBegun p src fragment = true ↔
    fragment ∈ building p src ∨ (nodeBehind? p src fragment).isSome = true := by
  unfold isBegun building nodeBehind?
  cases p.sources[src]? <;> simp

/-! ## Where steps lead -/

/-- a node that the import has added to a graph that had `base` nodes -/
def New (base : Nat) (p : Progress) (n : Nat) : Prop := base < n ∧ n ≤ p.graph.size

/-- a new node that is not optional -/
structure Whole (base : Nat) (p : Progress) (n : Nat) : Prop where
  new : New base p n
  kind : ∃ f, p.graph.frame? n = some f ∧ f.kind ≠ .optional

/-- where a step that returns may lead: the graph grows, and so do the tables; what was being built still is -/
structure Grows (p q : Progress) : Prop where
  graph : p.graph.Extends q.graph
  building : ∀ src, building q src = building p src
  entries : ∀ src fragment n, nodeBehind? p src fragment = some n → nodeBehind? q src fragment = some n

variable {base : Nat} {p q r : Progress} {src n : Nat} {fragment : String}

theorem Grows.refl (p : Progress) : Grows p p := ⟨.refl _, fun _ => rfl, fun _ _ _ h => h⟩

theorem Grows.trans (h : Grows p q) (h' : Grows q r) : Grows p r where
  graph := h.graph.trans h'.graph
  building src := (h'.building src).trans (h.building src)
  entries src fragment n hn := h'.entries src fragment n (h.entries src fragment n hn)

theorem New.grows (h : New base p n) (hg : p.graph.Extends q.graph) : New base q n := ⟨h.1, h.2.trans hg.size⟩

theorem Whole.grows (h : Whole base p n) (hg : p.graph.Extends q.graph) : Whole base q n where
  new := h.new.grows hg
  kind := by
    obtain ⟨f, hf, hk⟩ := h.kind
    exact ⟨f, hg n f hf, hk⟩

theorem Grows.isBegun (h : Grows p q) (hb : isBegun p src fragment = true) : isBegun q src fragment = true := by
  rw [isBegun_iff_building] at hb ⊢
  rw [h.building]
  apply hb.imp_right
  intro hentry
  obtain ⟨n, hn⟩ := Option.isSome_iff_exists.1 hentry
  rw [h.entries src fragment n hn]
  rfl

/-! ## What an import keeps -/

/-- the numbers of the references that wait -/
def waiting (p : Progress) : List Nat := p.pending.map (·.node)

/-- a node as an import adds it; only those that wait are references -/
structure Fresh (base : Nat) (p : Progress) (f : Frame) : Prop where
  unloaded : f.loaded = false
  onLoad : f.onLoad = []
  children : ∀ c ∈ f.children, New base p c
  /-- only positions and fields are optional -/
  whole : f.kind = .tuple ∨ f.kind = .object ∨ ∀ c ∈ f.children, Whole base p c
  waits : f.kind = .ref ∨ f.deferred.isSome = true → f.id ∈ waiting p

/-- what an import keeps, on a graph that had `base` nodes before -/
structure Kept (base : Nat) (p : Progress) : Prop where
  base_le : base ≤ p.graph.size
  numbered : ∀ id f, p.graph.frame? id = some f → f.id = id
  fresh : ∀ id f, p.graph.frame? id = some f → base < id → Fresh base p f
  /-- what waits is a new reference without a target -/
  references : ∀ r ∈ p.pending, base < r.node ∧ ∃ f, p.graph.frame? r.node = some f ∧ f.kind = .ref ∧ f.children = []
  begun : ∀ r ∈ p.pending, isBegun p r.source r.fragment = true
  distinct : (waiting p).Nodup
  entries : ∀ src fragment n, nodeBehind? p src fragment = some n → Whole base p n
  /-- what is being built has no node yet -/
  unfinished : ∀ src, ∀ fragment ∈ building p src, nodeBehind? p src fragment = none

theorem Fresh.grows {f : Frame} (hf : Fresh base p f) (hg : p.graph.Extends q.graph) (hwaiting : waiting p ⊆ waiting q) :
    Fresh base q f where
  unloaded := hf.unloaded
  onLoad := hf.onLoad
  children c hc := (hf.children c hc).grows hg
  whole := hf.whole.imp_right (Or.imp_right fun h c hc => (h c hc).grows hg)
  waits h := hwaiting (hf.waits h)

/-- steps that leave frames, references and definitions as they are -/
structure Alike (p q : Progress) : Prop where
  frames : SameFrames p.graph q.graph
  pending : q.pending = p.pending
  building : ∀ src, building q src = building p src
  entries : ∀ src fragment, nodeBehind? q src fragment = nodeBehind? p src fragment

theorem Alike.grows (h : Alike p q) : Grows p q where
  graph := h.frames.extends
  building := h.building
  entries src fragment n hn := by rw [h.entries, hn]

theorem Alike.kept (h : Alike p q) (hp : Kept base p) : Kept base q := by
  have hgraph := h.frames.extends
  have hwaiting : waiting q = waiting p := by unfold waiting; rw [h.pending]
  constructor
  case base_le => exact hp.base_le.trans hgraph.size
  case numbered =>
    intro id f hf
    rw [h.frames.frames] at hf
    exact hp.numbered id f hf
  case fresh =>
    intro id f hf hid
    rw [h.frames.frames] at hf
    exact (hp.fresh id f hf hid).grows hgraph (by rw [hwaiting]; exact List.Subset.refl _)
  case references =>
    intro r hr
    rw [h.pending] at hr
    rw [h.frames.frames]
    exact hp.references r hr
  case begun =>
    intro r hr
    rw [h.pending] at hr
    exact h.grows.isBegun (hp.begun r hr)
  case distinct =>
    rw [hwaiting]
    exact hp.distinct
  case entries =>
    intro src fragment n hn
    rw [h.entries] at hn
    exact (hp.entries src fragment n hn).grows hgraph
  case unfinished =>
    intro src fragment hf
    rw [h.building] at hf
    rw [h.entries]
    exact hp.unfinished src fragment hf

theorem alike_of_sources (hframes : SameFrames p.graph q.graph) (hpending : q.pending = p.pending)
    (hsources : q.sources = p.sources) : Alike p q where
  frames := hframes
  pending := hpending
  building src := by unfold building; rw [hsources]
  entries src fragment := by unfold nodeBehind?; rw [hsources]

/-- a document that is added has nothing built and nothing being built -/
theorem alike_of_push (uri : String) (root : Value) (hframes : SameFrames p.graph q.graph) (hpending : q.pending = p.pending)
    (hsources : q.sources = p.sources.push { uri, root }) : Alike p q := by
  have hget (src : Nat) : q.sources[src]? = p.sources[src]? ∨
      q.sources[src]? = some { uri, root } ∧ p.sources[src]? = none := by
    rw [hsources, Array.getElem?_push]
    split
    · rename_i h
      rw [h]
      exact .inr ⟨rfl, Array.getElem?_eq_none le_rfl⟩
    · exact .inl rfl
  refine ⟨hframes, hpending, fun src => ?_, fun src fragment => ?_⟩
  · unfold building
    rcases hget src with h | ⟨h, h'⟩
    · rw [h]
    · rw [h, h']
      rfl
  · unfold nodeBehind?
    rcases hget src with h | ⟨h, h'⟩
    · rw [h]
    · rw [h, h']
      rfl

/-! ## New nodes -/

/-- **A new node.** It keeps the invariant if it is fresh and what waits from now on is this node, for a definition that was begun. -/
theorem kept_extend (hp : Kept base p) {f : Frame} (hid : f.id = p.graph.size + 1)
    (hframes : ∀ id, q.graph.frame? id = if id = p.graph.size + 1 then some f else p.graph.frame? id)
    (hsources : q.sources = p.sources) {more : List Pending} (hpending : q.pending = p.pending ++ more)
    (hmore : ∀ r ∈ more, r.node = p.graph.size + 1 ∧ f.kind = .ref ∧ f.children = [] ∧ isBegun p r.source r.fragment = true)
    (hdistinct : (more.map (·.node)).Nodup) (hfresh : Fresh base q f) : Kept base q ∧ Grows p q := by
  have hbuilding (src : Nat) : building q src = building p src := by unfold building; rw [hsources]
  have hentry (src : Nat) (fragment : String) : nodeBehind? q src fragment = nodeBehind? p src fragment := by
    unfold nodeBehind?; rw [hsources]
  have hwaiting : waiting q = waiting p ++ more.map (·.node) := by
    unfold waiting
    rw [hpending, List.map_append]
  have hgraph : p.graph.Extends q.graph := by
    intro id f' hf
    have := Graph.frame?_le_size hf
    rw [hframes, if_neg (by omega), hf]
  have hgrows : Grows p q := ⟨hgraph, hbuilding, fun src fragment n hn => by rw [hentry, hn]⟩
  have hold {r : Pending} (hr : r ∈ p.pending) : r.node ≤ p.graph.size := by
    obtain ⟨-, f, hf, -⟩ := hp.references r hr
    exact Graph.frame?_le_size hf
  refine ⟨?_, hgrows⟩
  constructor
  case base_le => exact hp.base_le.trans hgraph.size
  case numbered =>
    intro id f' hf
    rw [hframes] at hf
    split at hf
    · cases hf
      rw [hid, ‹id = _›]
    · exact hp.numbered id f' hf
  case fresh =>
    intro id f' hf hlt
    rw [hframes] at hf
    split at hf
    · cases hf
      exact hfresh
    · apply (hp.fresh id f' hf hlt).grows hgraph
      rw [hwaiting]
      exact List.subset_append_left _ _
  case references =>
    intro r hr
    rw [hpending] at hr
    rcases List.mem_append.1 hr with hr | hr
    · have := hold hr
      rw [hframes, if_neg (by omega)]
      exact hp.references r hr
    · obtain ⟨hnode, hk, hc, -⟩ := hmore r hr
      rw [hframes, hnode, if_pos rfl]
      exact ⟨Nat.lt_succ_of_le hp.base_le, f, rfl, hk, hc⟩
  case begun =>
    intro r hr
    rw [hpending] at hr
    apply hgrows.isBegun
    rcases List.mem_append.1 hr with hr | hr
    · exact hp.begun r hr
    · exact (hmore r hr).2.2.2
  case distinct =>
    rw [hwaiting]
    refine List.Nodup.append hp.distinct hdistinct fun n hn hn' => ?_
    obtain ⟨r, hr, rfl⟩ := List.mem_map.1 hn
    obtain ⟨r', hr', heq⟩ := List.mem_map.1 hn'
    have := hold hr
    have := (hmore r' hr').1
    omega
  case entries =>
    intro src fragment n hn
    rw [hentry] at hn
    exact (hp.entries src fragment n hn).grows hgraph
  case unfinished =>
    intro src fragment hf
    rw [hbuilding] at hf
    rw [hentry]
    exact hp.unfinished src fragment hf

/-- a new node that is no reference -/
theorem kept_add (hp : Kept base p) {kind : Kind} (hk : kind ≠ .ref) (options : Schemata.Options) {children : List Nat}
    (hc : ∀ c ∈ children, New base p c) (hwhole : kind = .tuple ∨ kind = .object ∨ ∀ c ∈ children, Whole base p c)
    (hq : q = { p with graph := p.graph.add kind options children }) : Kept base q ∧ Grows p q := by
  subst hq
  have hframes := p.graph.frame?_add kind options children
  have hgraph := p.graph.extends_add kind options children
  have hpending : p.pending = p.pending ++ [] := (List.append_nil _).symm
  refine kept_extend hp rfl hframes rfl hpending ?_ List.nodup_nil ?_
  · intro r hr
    cases hr
  · refine ⟨rfl, rfl, fun c hc' => (hc c hc').grows hgraph, ?_, fun h => ?_⟩
    · exact hwhole.imp_right (Or.imp_right fun h c hc => (h c hc).grows hgraph)
    · rcases h with h | h
      · exact absurd h hk
      · cases h

/-- the progress with one more reference -/
def referred (p : Progress) (src : Nat) (fragment : String) : Progress :=
  { p with
    graph := (p.graph.add .ref .none []).modify (p.graph.size + 1) fun n => { n with deferred := some .missing }
    pending := p.pending ++ [⟨p.graph.size + 1, src, fragment⟩] }

theorem refer_eq (src : Nat) (fragment : String) (p : Progress) :
    refer src fragment p = (.ok (p.graph.size + 1), referred p src fragment) := by
  unfold refer
  rw [bind_apply, onGraph_apply, GraphM.defer_eq]
  rfl

theorem frame?_referred (p : Progress) (src : Nat) (fragment : String) (id : Nat) :
    (referred p src fragment).graph.frame? id = if id = p.graph.size + 1 then
      some ⟨p.graph.size + 1, .ref, [], some .missing, false, []⟩ else p.graph.frame? id := by
  unfold referred
  rw [Graph.frame?_modify, Graph.frame?_add, Graph.get?_add]
  by_cases h : id = p.graph.size + 1
  · simp only [if_pos h]
    rfl
  · simp only [if_neg h]

/-- a new reference, to a definition that was begun -/
theorem kept_referred (hp : Kept base p) (hb : isBegun p src fragment = true) :
    Kept base (referred p src fragment) ∧ Grows p (referred p src fragment) ∧
      Whole base (referred p src fragment) (p.graph.size + 1) := by
  have hframes := frame?_referred p src fragment
  have hsize : (referred p src fragment).graph.size = p.graph.size + 1 := by
    unfold referred
    rw [Graph.size_modify, Graph.size_add]
  have hpending : (referred p src fragment).pending = p.pending ++ [⟨p.graph.size + 1, src, fragment⟩] := rfl
  rw [← and_assoc]
  refine ⟨?_, ⟨Nat.lt_succ_of_le hp.base_le, hsize.ge⟩, _, (hframes _).trans (if_pos rfl), by simp⟩
  refine kept_extend hp rfl hframes rfl hpending ?_ (List.nodup_singleton _) ?_
  · intro r hr
    rw [List.mem_singleton.1 hr]
    exact ⟨rfl, rfl, rfl, hb⟩
  · refine ⟨rfl, rfl, fun c hc => (by cases hc), .inr (.inr fun c hc => by cases hc), fun _ => ?_⟩
    simp [waiting, hpending]

/-! ## Definitions being built -/

variable {s : Source}

theorem building_opened (hs : p.sources[src]? = some s) (fragment : String) (t : Nat) :
    building (opened p src fragment) t = if t = src then fragment :: building p src else building p t := by
  unfold building opened
  rw [Array.getElem?_modify]
  by_cases h : t = src
  · rw [if_pos h, h, if_pos rfl, hs]
    rfl
  · rw [if_neg h, if_neg (Ne.symm h)]

theorem nodeBehind?_opened (p : Progress) (src : Nat) (fragment : String) (t : Nat) (g : String) :
    nodeBehind? (opened p src fragment) t g = nodeBehind? p t g := by
  unfold nodeBehind? opened
  rw [Array.getElem?_modify]
  by_cases h : src = t
  · rw [if_pos h]
    cases p.sources[t]? <;> rfl
  · rw [if_neg h]

/-- a definition is opened that was not begun -/
theorem kept_opened (hp : Kept base p) (hs : p.sources[src]? = some s) (hnew : isBegun p src fragment = false) :
    Kept base (opened p src fragment) where
  base_le := hp.base_le
  numbered := hp.numbered
  fresh id f hf hid := (hp.fresh id f hf hid).grows (.refl _) (List.Subset.refl _)
  references := hp.references
  begun r hr := (isBegun_opened p hs fragment r.source r.fragment).2 (.inl (hp.begun r hr))
  distinct := hp.distinct
  entries t g n hn := by
    rw [nodeBehind?_opened] at hn
    exact (hp.entries t g n hn).grows (.refl _)
  unfinished t g hg := by
    rw [nodeBehind?_opened]
    rw [building_opened hs] at hg
    split at hg
    · rename_i ht
      rcases List.mem_cons.1 hg with rfl | hg
      · cases he : nodeBehind? p t g with
        | none => rfl
        | some n => rw [isBegun_iff_building.2 (.inr (by rw [← ht, he]; rfl))] at hnew; cases hnew
      · exact hp.unfinished t g (ht ▸ hg)
    · exact hp.unfinished t g hg

/-- the progress with a definition that was built -/
def closed (p : Progress) (src : Nat) (fragment : String) (n : Nat) : Progress :=
  { p with sources := p.sources.modify src (entered fragment n) }

theorem building_closed (hs : p.sources[src]? = some s) (fragment : String) (n t : Nat) :
    building (closed p src fragment n) t = if t = src then (building p src).filter (· ≠ fragment) else building p t := by
  unfold building closed
  rw [Array.getElem?_modify]
  by_cases h : t = src
  · rw [if_pos h, h, if_pos rfl, hs]
    rfl
  · rw [if_neg h, if_neg (Ne.symm h)]

theorem nodeBehind?_closed (hs : p.sources[src]? = some s) (fragment : String) (n t : Nat) (g : String) :
    nodeBehind? (closed p src fragment n) t g = if t = src ∧ g = fragment then some n else nodeBehind? p t g := by
  unfold nodeBehind? closed
  rw [Array.getElem?_modify]
  by_cases h : t = src
  · rw [h, if_pos rfl, hs]
    by_cases hg : g = fragment
    · simp [entered, hg, Dict.get?_insert]
    · simp [entered, hg, Dict.get?_insert, Ne.symm hg]
  · rw [if_neg (Ne.symm h), if_neg (by tauto)]

/-- a definition that was being built gets its node -/
theorem kept_closed (hp : Kept base p) (hs : p.sources[src]? = some s) (fragment : String) (hn : Whole base p n) :
    Kept base (closed p src fragment n) where
  base_le := hp.base_le
  numbered := hp.numbered
  fresh id f hf hid := (hp.fresh id f hf hid).grows (.refl _) (List.Subset.refl _)
  references := hp.references
  begun r hr := (isBegun_entered (q := closed p src fragment n) rfl r.source r.fragment).2 (.inl (hp.begun r hr))
  distinct := hp.distinct
  entries t g m hm := by
    rw [nodeBehind?_closed hs] at hm
    split at hm
    · cases hm
      exact hn.grows (.refl _)
    · exact (hp.entries t g m hm).grows (.refl _)
  unfinished t g hg := by
    rw [building_closed hs] at hg
    rw [nodeBehind?_closed hs]
    split at hg
    · rename_i ht
      obtain ⟨hg, hne⟩ := List.mem_filter.1 hg
      rw [if_neg (fun h => by simp [h.2] at hne), ht]
      exact hp.unfinished src g hg
    · rename_i ht
      rw [if_neg (fun h => ht h.1)]
      exact hp.unfinished t g hg

end Schemata.Import
