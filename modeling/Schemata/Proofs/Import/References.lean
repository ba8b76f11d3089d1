import Schemata.Proofs.Graph.Resolving
import Schemata.Proofs.Import.Followed
import Schemata.Proofs.Import.Watching

/-!
References, once an import is over.

A definition gets its node in the table of its document, and a reference waits until the import is over to be put off to that
node (`close`). When it is over nothing is being built, so each reference has a target, and the nodes of the import are
ready to be loaded (`close_ready`).

Main result: `importDocuments_closes`. An import ends, and if it succeeds, each `$ref` of a schema that it reads has its
reference; each definition that a reference leads to was built once, to one node; every load of nodes of the import succeeds;
and a reference that a load reaches has that node as its only child. A `$ref` in a keyword that nodes cannot express is
passed over (`importDocuments_passes_over`). Documents are told apart by their numbers in the import, fragments by their texts.
-/

namespace Schemata.Import

open Steps GraphM

variable {base : Nat} {p : Progress}

/-! ## What references are put off to -/

/-- the node behind the definition that a reference waits for -/
def target? (p : Progress) (id : Nat) : Option Nat :=
  (p.pending.find? (·.node = id)).bind fun r => nodeBehind? p r.source r.fragment

/-- the children of a node -/
def below (p : Progress) (id : Nat) : List Nat := ((p.graph.frame? id).map Frame.children).getD []

/-- what is written down for a reference when the import is over -/
def settled (p : Progress) (r : Pending) : Deferred :=
  match nodeBehind? p r.source r.fragment with
  | some n => .node n
  | none => .missing

def putOff (p : Progress) (g : Graph) (r : Pending) : Graph :=
  g.modify r.node fun n => { n with deferred := some (settled p r) }

theorem close_eq (p : Progress) : close p = p.pending.foldl (putOff p) p.graph := rfl

theorem size_putOff (p : Progress) (rs : List Pending) (g : Graph) : (rs.foldl (putOff p) g).size = g.size := by
  induction rs generalizing g with
  | nil => rfl
  | cons r rs ih => rw [List.foldl_cons, ih, putOff, Graph.size_modify]

theorem size_close (p : Progress) : (close p).size = p.graph.size := size_putOff p p.pending p.graph

/-- nodes that do not wait stay as they are -/
theorem get?_putOff_of_not_mem {rs : List Pending} {id : Nat} (h : id ∉ rs.map (·.node)) (g : Graph) :
    (rs.foldl (putOff p) g).get? id = g.get? id := by
  induction rs generalizing g with
  | nil => rfl
  | cons r rs ih =>
    rw [List.map_cons, List.mem_cons, not_or] at h
    rw [List.foldl_cons, ih h.2, putOff, Graph.get?_modify, if_neg h.1]

theorem frame?_putOff_of_not_mem {rs : List Pending} {id : Nat} (h : id ∉ rs.map (·.node)) (g : Graph) :
    (rs.foldl (putOff p) g).frame? id = g.frame? id := by
  unfold Graph.frame?
  rw [get?_putOff_of_not_mem h]

/-- **A reference is put off to what stands in the table.** -/
theorem frame?_putOff {rs : List Pending} (hrs : (rs.map (·.node)).Nodup) {r : Pending} (hr : r ∈ rs) (g : Graph) :
    (rs.foldl (putOff p) g).frame? r.node = (g.frame? r.node).map fun f => { f with deferred := some (settled p r) } := by
  induction rs generalizing g with
  | nil => cases hr
  | cons r' rs ih =>
    obtain ⟨hfirst, hrest⟩ := List.nodup_cons.1 hrs
    rw [List.foldl_cons]
    rcases List.mem_cons.1 hr with rfl | hr
    · rw [frame?_putOff_of_not_mem hfirst, putOff, Graph.frame?_modify, if_pos rfl, Graph.frame?, Option.map_map]
      rfl
    · have hne : r.node ≠ r'.node := fun h => hfirst (List.mem_map.2 ⟨r, hr, h⟩)
      rw [ih hrest hr, putOff, Graph.frame?_modify, if_neg hne]

theorem leads_putOff (r : Pending) {g : Graph} {a b : Nat} (h : g.Leads a b) : (putOff p g r).Leads a b := by
  obtain ⟨n, hn, hb, hsome⟩ := h
  have hget (id : Nat) : (putOff p g r).get? id = if id = r.node then (g.get? id).map fun n => { n with deferred := some (settled p r) }
      else g.get? id := Graph.get?_modify ..
  unfold Graph.Leads
  rw [hget, hget, hn]
  refine ⟨if a = r.node then { n with deferred := some (settled p r) } else n, ?_, ?_, ?_⟩
  · split <;> rfl
  · split <;> exact hb
  · split
    · rwa [Option.isSome_map]
    · exact hsome

/-- what stands below a node stays there when the import is over -/
theorem leads_close {a b : Nat} (h : p.graph.Leads a b) : (close p).Leads a b := by
  rw [close_eq]
  generalize p.graph = g at h
  induction p.pending generalizing g with
  | nil => exact h
  | cons r rs ih => exact ih _ (leads_putOff r h)

/-! ## Nodes that are ready to be loaded -/

/-- a number leads to the reference that has it -/
theorem Kept.target_eq (hp : Kept base p) {r : Pending} (hr : r ∈ p.pending) :
    target? p r.node = nodeBehind? p r.source r.fragment := by
  obtain ⟨r', hfind⟩ : ∃ r', p.pending.find? (·.node = r.node) = some r' := by
    rw [← Option.isSome_iff_exists, List.find?_isSome]
    exact ⟨r, hr, by simp⟩
  have hnode : r'.node = r.node := by simpa using List.find?_some hfind
  have hsame : r' = r := List.inj_on_of_nodup_map hp.distinct (List.mem_of_find?_eq_some hfind) hr hnode
  rw [target?, hfind, Option.bind_some, hsame]

theorem target_of_not_waiting {id : Nat} (h : id ∉ waiting p) : target? p id = none := by
  have hfind : p.pending.find? (·.node = id) = none := by
    rw [List.find?_eq_none]
    intro r hr
    simp only [decide_eq_true_eq]
    rintro rfl
    exact h (List.mem_map_of_mem hr)
  rw [target?, hfind, Option.bind_none]

/-- a node of the import, as the import leaves it -/
theorem close_frame (hp : Kept base p) (hidle : Idle p) {id : Nat} {f : Frame} (hf : (close p).frame? id = some f)
    (hid : base < id) : f.Ready base p.graph.size (target? p) (below p) ∧ f.loaded = false := by
  rw [close_eq] at hf
  by_cases hwaits : id ∈ waiting p
  · -- a reference: the definition that it waits for was begun, so it is built now
    obtain ⟨r, hr, rfl⟩ := List.mem_map.1 hwaits
    rw [frame?_putOff hp.distinct hr] at hf
    obtain ⟨f, hpf, rfl⟩ := Option.map_eq_some_iff.1 hf
    obtain ⟨t, ht⟩ := hidle.exists_node (hp.begun r hr)
    have hnew := (hp.entries _ _ _ ht).new
    have hfresh := hp.fresh _ f hpf hid
    obtain ⟨-, f', hf', -, hchildren⟩ := hp.references r hr
    obtain rfl : f = f' := Option.some.inj (hpf.symm.trans hf')
    have hfid : f.id = r.node := hp.numbered _ f hpf
    have htarget : target? p r.node = some t := (hp.target_eq hr).trans ht
    have hsettled : settled p r = .node t := by rw [settled, ht]
    refine ⟨⟨hfresh.onLoad, hfresh.children, ?_, fun hnone => ?_, fun u hu => ?_⟩, hfresh.unloaded⟩
    · dsimp only
      rw [hfid, htarget, hsettled]
      rfl
    · dsimp only at hnone
      rw [hfid, htarget] at hnone
      cases hnone
    · have htu : t = u := by
        dsimp only at hu
        rw [hfid, htarget] at hu
        exact Option.some.inj hu
      rw [← htu]
      exact ⟨hnew.1, hnew.2, .inl ⟨hfresh.unloaded, hchildren⟩⟩
  · rw [frame?_putOff_of_not_mem hwaits] at hf
    have hfresh := hp.fresh id f hf hid
    have hfid : f.id = id := hp.numbered id f hf
    have htarget : target? p f.id = none := hfid ▸ target_of_not_waiting hwaits
    have hdeferred : f.deferred = none := by
      by_contra h
      exact hwaits (hfid ▸ hfresh.waits (.inr (Option.isSome_iff_ne_none.2 h)))
    refine ⟨⟨hfresh.onLoad, hfresh.children, ?_, fun _ => ?_, fun t ht => ?_⟩, hfresh.unloaded⟩
    · rw [htarget, hdeferred]
      rfl
    · rw [below, hfid, hf]
      rfl
    · rw [htarget] at ht
      cases ht

/-- **When an import is over, its nodes are ready to be loaded.** -/
theorem close_ready (hp : Kept base p) (hidle : Idle p) : (close p).Ready base (target? p) (below p) where
  numbered := by
    intro id n hn
    have hf : (close p).frame? id = some n.frame := Graph.frame?_of_get? hn
    by_cases hwaits : id ∈ waiting p
    · obtain ⟨r, hr, rfl⟩ := List.mem_map.1 hwaits
      rw [close_eq, frame?_putOff hp.distinct hr] at hf
      obtain ⟨f, hf, hnf⟩ := Option.map_eq_some_iff.1 hf
      exact (congrArg Frame.id hnf).symm.trans (hp.numbered _ f hf)
    · rw [close_eq, frame?_putOff_of_not_mem hwaits] at hf
      exact hp.numbered id n.frame hf
  frames id f hf hid := by
    rw [size_close]
    exact (close_frame hp hidle hf hid).1

theorem close_closedAbove (hp : Kept base p) (hidle : Idle p) : (close p).ClosedAbove base := by
  intro a b ha hloaded _
  obtain ⟨n, hn, hl⟩ := Graph.isLoaded_iff.1 hloaded
  have hunloaded := (close_frame hp hidle (Graph.frame?_of_get? hn) ha).2
  rw [show n.frame.loaded = true from hl] at hunloaded
  cases hunloaded

/-- the references among the nodes of an import are those that it keeps a list of -/
theorem Kept.exists_pending (hp : Kept base p) {id : Nat} {n : Node} (hn : (close p).get? id = some n) (hid : base < id)
    (hkind : n.kind = .ref) : ∃ r ∈ p.pending, r.node = id := by
  suffices h : id ∈ waiting p from List.mem_map.1 h
  by_contra hwaits
  have hf : (close p).frame? id = some n.frame := Graph.frame?_of_get? hn
  rw [close_eq, frame?_putOff_of_not_mem hwaits] at hf
  have hfid : n.frame.id = id := hp.numbered id _ hf
  exact hwaits (hfid ▸ (hp.fresh id _ hf hid).waits (.inl hkind))

/-- a reference leads nowhere until it is loaded -/
theorem Kept.not_leads (hp : Kept base p) {r : Pending} (hr : r ∈ p.pending) (b : Nat) : ¬ (close p).Leads r.node b := by
  rintro ⟨n, hn, hb, -⟩
  obtain ⟨-, f, hf, -, hchildren⟩ := hp.references r hr
  have hclosed : (close p).frame? r.node = some n.frame := Graph.frame?_of_get? hn
  rw [close_eq, frame?_putOff hp.distinct hr, hf] at hclosed
  have hsame : n.children = f.children := congrArg Frame.children (Option.some.inj hclosed).symm
  rw [hsame, hchildren] at hb
  cases hb

/-- **What stands below a node of the import stays there when nodes are loaded.** -/
theorem attains_loads (hp : Kept base p) (hidle : Idle p) {roots : List Nat} (hroots : ∀ a ∈ roots, base < a ∧ a ≤ (close p).size)
    {a b : Nat} (ha : base < a) (hab : (close p).Attains a b) : (loads (roots.map some) (close p)).2.Attains a b := by
  have hready := close_ready hp hidle
  obtain ⟨-, hloaded, -, hlater, -⟩ := loads_succeed hready (close_closedAbove hp hidle) hroots
  induction hab with
  | refl => exact .refl
  | @tail b c hab hbc ih =>
    have hfree : target? p b = none := by
      apply target_of_not_waiting
      intro hwaits
      obtain ⟨r, hr, rfl⟩ := List.mem_map.1 hwaits
      exact hp.not_leads hr c hbc
    exact ih.tail (hready.leads hloaded hlater (attains_above hready ha hab) hfree hbc)

/-! ## Imports -/

/-- the import with a report of each definition when it has its node -/
def watchedDocuments (o : Options) (docs : List Value) : ImportM (DocumentKind × List (String × Option Nat)) :=
  importBy (watchedUpTo o o.depth) o docs

/-- what an import that succeeds on a graph leaves -/
structure Closes (o : Options) (docs : List Value) (g : Graph) (kind : DocumentKind) (entries : List (String × Option Nat))
    (p : Progress) : Prop where
  /-- a document that is known under an address is the first, if the import says where that lies, or the one that the fetcher
  has there -/
  documents : Founded o p
  /-- entries are, one for one, new nodes of the schemas that the documents export -/
  exports : List.Forall₂ (fun e start => ∃ src n, (p.sources[src]?).map (·.root) = some start.1 ∧
    e.2 = some n ∧ nodeBehind? p src start.2 = some n ∧ g.size < n ∧ n ≤ (close p).size) entries (starts o docs)
  /-- a definition reads the schema behind its fragment, where each `$ref` has its reference, for the place that it names -/
  reads : ∀ src fragment n, nodeBehind? p src fragment = some n →
    ∃ v, schemaBehind? p src fragment = some v ∧ Reads (close p) p src v n
  /-- the references among the new nodes are those that the import keeps a list of -/
  references : ∀ id n, (close p).get? id = some n → g.size < id → n.kind = .ref → ∃ r ∈ p.pending, r.node = id
  /-- each reference is for a definition that was built once, to one node -/
  once : ∃ q events, watchedDocuments o docs { graph := g } = (.ok (kind, entries), q) ∧
    q.graph.events = p.graph.events ++ events ∧ ∀ r ∈ p.pending, ∃ t, nodeBehind? p r.source r.fragment = some t ∧
      events.count (built r.source r.fragment t) = 1 ∧ ∀ m, built r.source r.fragment m ∈ events → m = t
  /-- loads of new nodes succeed, leave what stands below nodes, and leave each reference that they reach with the node of its
  place as its only child -/
  loads : ∀ roots : List Nat, (∀ a ∈ roots, g.size < a ∧ a ≤ (close p).size) →
    (∀ x ∈ (loads (roots.map some) (close p)).1, x = .ok ()) ∧
      (∀ a b, g.size < a → (close p).Attains a b → (loads (roots.map some) (close p)).2.Attains a b) ∧
      ∀ root ∈ roots, ∀ r ∈ p.pending, (loads (roots.map some) (close p)).2.Attains root r.node →
        ∃ n t, (loads (roots.map some) (close p)).2.get? r.node = some n ∧ n.loaded = true ∧
          nodeBehind? p r.source r.fragment = some t ∧ n.children = [t]

/-- entries that have nodes are those of their places -/
theorem entries_stand {entries : List (String × Option Nat)} {places : List (Value × String)}
    (hstands : List.Forall₂ (Stands p) entries places) (hled : ∀ e ∈ entries, Led base p e.2) :
    List.Forall₂ (fun e start => ∃ src n, (p.sources[src]?).map (·.root) = some start.1 ∧
      e.2 = some n ∧ nodeBehind? p src start.2 = some n ∧ base < n ∧ n ≤ (close p).size) entries places := by
  induction hstands with
  | nil => exact .nil
  | cons hfirst _ ih =>
    obtain ⟨hnew, hrest⟩ := List.forall_mem_cons.1 hled
    obtain ⟨n, hn, hwhole⟩ := hnew
    obtain ⟨src, hroot, hnode⟩ := hfirst
    exact .cons ⟨src, n, hroot, hn, hnode n hn, hwhole.new.1, (size_close p).symm ▸ hwhole.new.2⟩ (ih hrest)

theorem closes_of_watched {o : Options} {docs : List Value} {g : Graph} {kind : DocumentKind}
    {entries : List (String × Option Nat)} {q : Progress}
    (hrun : importBy (visitUpTo o atBound o.depth) o docs { graph := g } = (.ok (kind, entries), p))
    (hwatch : watchedDocuments o docs { graph := g } = (.ok (kind, entries), q)) (hidle : Idle p) (hw : Watched g.size p q)
    (hentries : ∀ e ∈ entries, Led g.size p e.2) : Closes o docs g kind entries p := by
  obtain ⟨hp, log, htally, hq⟩ := hw
  obtain ⟨hfounded, hstored, hstands⟩ := importBy_reads hrun
  have hready := close_ready hp hidle
  constructor
  case documents => exact hfounded
  case exports => exact entries_stand hstands hentries
  case reads =>
    intro src fragment n hn
    obtain ⟨v, hv, hreads⟩ := hstored src fragment n hn
    exact ⟨v, hv, hreads.mono (fun _ _ => leads_close) (.refl p)⟩
  case references => exact fun id n hn hid hkind => hp.exists_pending hn hid hkind
  case once =>
    refine ⟨q, reports log, hwatch, by rw [hq]; rfl, fun r hr => ?_⟩
    obtain ⟨t, ht⟩ := hidle.exists_node (hp.begun r hr)
    exact ⟨t, ht, htally.once ht⟩
  case loads =>
    intro roots hroots
    obtain ⟨hok, hreached⟩ := loads_ready hready (close_closedAbove hp hidle) hroots
    refine ⟨hok, fun a b ha hab => attains_loads hp hidle hroots ha hab, fun root hroot r hr hattains => ?_⟩
    obtain ⟨n, hn, hloaded, hchildren⟩ := hreached root hroot r.node hattains
    obtain ⟨t, ht⟩ := hidle.exists_node (hp.begun r hr)
    exact ⟨n, t, hn, hloaded, ht, hchildren t ((hp.target_eq hr).trans ht)⟩

/-- **Imports end and close their references.** Where the fetcher has finitely many documents, there is a bound on how many
schemas an import opens inside each other: an importer that would go that deep never comes to its bound, whatever would be
done there. If the import succeeds, each `$ref` of a schema that it reads has its reference, for the place that the `$ref`
names; the definition there was built once, to one node; every load of entries or other nodes of the import succeeds; and
each reference that a load reaches has that node as its only child then. -/
theorem importDocuments_closes {o : Options} (hserved : (served o).Finite) (docs : List Value) :
    ∃ depth, ∀ o' : Options, o'.fetcher = o.fetcher → depth ≤ o'.depth → ∀ g : Graph, g.Numbered →
      (∀ out more, depth ≤ more →
        importBy (visitUpTo o' out more) o' docs { graph := g } = importDocuments o' docs { graph := g }) ∧
      ∀ kind entries p, importDocuments o' docs { graph := g } = (.ok (kind, entries), p) →
        Closes o' docs g kind entries p := by
  obtain ⟨depth, hends⟩ := importBy_ends hserved docs
  refine ⟨depth, fun o' hfetcher hdepth g hg => ⟨fun out more hmore => ?_, fun kind entries p hrun => ?_⟩⟩
  · rw [importDocuments, definition_eq, hends o' hfetcher g out more hmore, hends o' hfetcher g atBound _ hdepth]
  · rw [importDocuments, definition_eq] at hrun
    obtain ⟨q, hwatch, hidle, hw, hentries⟩ := importBy_watched hg o' o'.depth docs hrun
    exact closes_of_watched hrun hwatch hidle hw hentries

/-- lists of lists like themselves -/
def listDocument : Value := .object [("items", .object [("$ref", .string "#")])]

theorem importDocuments_closes_list : (served {}).Finite ∧ ({} : Graph).Numbered ∧
    ∃ o p, importDocuments o [listDocument] { graph := {} } = (.ok (.plain, [("Schema", some 2)]), p) ∧
      p.pending = [⟨1, 0, ""⟩] ∧ Closes o [listDocument] {} .plain [("Schema", some 2)] p := by
  have hserved : (served {}).Finite := by
    refine Set.finite_empty.subset ?_
    rintro uri ⟨_, _, hfetcher, -⟩
    cases hfetcher
  have hnum : ({} : Graph).Numbered := by decide +kernel
  obtain ⟨depth, hcloses⟩ := importDocuments_closes hserved [listDocument]
  have hcloses := (hcloses { depth := depth + 3 } rfl (Nat.le_add_right ..) {} hnum).2 .plain [("Schema", some 2)]
  have hresult : (importDocuments { depth := depth + 3 } [listDocument] { graph := {} }).1 = .ok (.plain, [("Schema", some 2)]) := rfl
  have hpending : (importDocuments { depth := depth + 3 } [listDocument] { graph := {} }).2.pending = [⟨1, 0, ""⟩] := rfl
  refine ⟨hserved, hnum, { depth := depth + 3 }, ?_⟩
  generalize importDocuments { depth := depth + 3 } [listDocument] { graph := {} } = run at hresult hpending hcloses ⊢
  exact ⟨run.2, Prod.ext hresult rfl, hpending, hcloses run.2 (Prod.ext hresult rfl)⟩

/-- a schema that nodes cannot express, with a reference inside -/
def negatedDocument : Value := .object [
  ("definitions", .object [("a", .object [("type", .string "string")])]),
  ("not", .object [("$ref", .string "#/definitions/a")])]

/-- a reference in a keyword that is left out is not followed: the definition that it names is not built -/
theorem importDocuments_passes_over : negatedDocument.field? "not" = some (.object [("$ref", .string "#/definitions/a")]) ∧
    ∃ p q, importDocuments {} [negatedDocument] { graph := {} } = (.ok (.plain, [("Schema", some 1)]), p) ∧
      watchedDocuments {} [negatedDocument] { graph := {} } = (.ok (.plain, [("Schema", some 1)]), q) ∧
      nodeBehind? p 0 "/definitions/a" = none ∧ q.graph.events = [built 0 "" 1] := by
  have hresult : (importDocuments {} [negatedDocument] { graph := {} }).1 = .ok (.plain, [("Schema", some 1)]) := rfl
  have hwatched : (watchedDocuments {} [negatedDocument] { graph := {} }).1 = .ok (.plain, [("Schema", some 1)]) := rfl
  exact ⟨rfl, _, _, Prod.ext hresult rfl, Prod.ext hwatched rfl, rfl, rfl⟩

end Schemata.Import
