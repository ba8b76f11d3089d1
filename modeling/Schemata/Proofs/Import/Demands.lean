import Schemata.Proofs.Compile
import Schemata.Proofs.Document.Constants
import Schemata.Proofs.Graph.Trails
import Schemata.Proofs.Import.Nodes
import Schemata.Proofs.Import.References

/-!
What the predicates of imported arrays and objects demand.

When the root of an import has been loaded, references lead to what they waited for and all other nodes are as they were made
(`Loaded.found`), so a position or a field is optional if it was made so (`Loaded.isOptional`). A compiled root
accepts what its node admits and all nodes accept that it calls (`Compiles.accepts`).

Main results: `importDocuments_positions` and `importDocuments_keys`. They say what decides on arrays and objects besides their
items and values, and by that what does not: the greatest number of items and whether equal items may stand in an array that
has positions, the keys that a record must have, and the pattern for the keys of an object that is no record. Such schemas are
imported without a warning (`pairSchema`, `notesSchema`).
-/

namespace Schemata.Import

variable {base : Nat} {p : Progress} {n : Nat}

/-! ## Loaded -/

/-- the graph of an import that is over, with some of its nodes loaded -/
structure Loaded (base : Nat) (p : Progress) (h : Graph) : Prop where
  kept : Kept base p
  idle : Idle p
  later : (close p).Later h
  ready : h.Ready base (target? p) (below p)

theorem loaded_of_load (hp : Kept base p) (hidle : Idle p) (hn : New base p n) {h : Graph}
    (hload : GraphM.load (some n) (close p) = (.ok (), h)) : Loaded base p h := by
  obtain ⟨k, hk, -, hready⟩ := GraphM.load_ready (close_ready hp hidle) hn.1 ((size_close p).symm ▸ hn.2)
  have hlater := GraphM.load_proceeds (some n) (close p)
  rw [hload] at hlater hk
  cases hk
  exact ⟨hp, hidle, hlater, hready⟩

namespace Loaded

variable {h : Graph}

/-- a node that waits for nothing stays as it is, but for what loading writes down -/
theorem found (hl : Loaded base p h) {k : Node} (hk : p.graph.get? n = some k) (hn : base < n) (hwaits : n ∉ waiting p) :
    ∃ l, h.get? n = some l ∧ l.kind = k.kind ∧ l.options = k.options ∧ l.children = k.children := by
  have hclose : (close p).get? n = some k := by rw [close_eq, get?_putOff_of_not_mem hwaits, hk]
  obtain ⟨l, hget, hbecomes⟩ := hl.later.some hclose
  refine ⟨l, hget, hbecomes.kind, hbecomes.options, ?_⟩
  have hid : l.frame.id = n := hl.ready.numbered n l hget
  have hkept := (hl.ready.frames n l.frame (Graph.frame?_of_get? hget) hn).kept (by rw [hid]; exact target_of_not_waiting hwaits)
  calc l.children = below p n := by rw [← hid]; exact hkept
    _ = k.children := by rw [below, Graph.frame?_of_get? hk]; rfl

/-- a reference has the node that it waited for as its only child, if it has any -/
theorem reference (hl : Loaded base p h) {r : Pending} (hr : r ∈ p.pending) : ∃ l t, h.get? r.node = some l ∧ l.kind = .ref ∧
    nodeBehind? p r.source r.fragment = some t ∧ ∀ c ∈ l.children, c = t := by
  obtain ⟨hbase, f, hf, hkind, -⟩ := hl.kept.references r hr
  obtain ⟨t, ht⟩ := hl.idle.exists_node (hl.kept.begun r hr)
  have hclose : (close p).frame? r.node = some { f with deferred := some (settled p r) } := by
    rw [close_eq, frame?_putOff hl.kept.distinct hr, hf]
    rfl
  obtain ⟨k, hk, hkf⟩ := Option.map_eq_some_iff.1 hclose
  obtain ⟨l, hget, hbecomes⟩ := hl.later.some hk
  have hid : l.frame.id = r.node := hl.ready.numbered _ l hget
  have htarget : target? p l.frame.id = some t := by rw [hid, hl.kept.target_eq hr, ht]
  refine ⟨l, t, hget, ?_, ht, fun c hc => ?_⟩
  · rw [hbecomes.kind, show k.kind = f.kind from congrArg Frame.kind hkf, hkind]
  · obtain ⟨-, -, ⟨-, hnone⟩ | hone⟩ := (hl.ready.frames _ l.frame (Graph.frame?_of_get? hget) hbase).target t htarget
    · rw [show l.children = [] from hnone] at hc
      cases hc
    · rw [show l.children = [t] from hone] at hc
      exact List.mem_singleton.1 hc

theorem not_waiting (hp : Kept base p) {f : Frame} (hf : p.graph.frame? n = some f) (hk : f.kind ≠ .ref) : n ∉ waiting p := by
  intro hmem
  obtain ⟨r, hr, rfl⟩ := List.mem_map.1 hmem
  obtain ⟨-, f', hf', hkind, -⟩ := hp.references r hr
  obtain rfl := Option.some.inj (hf.symm.trans hf')
  exact hk hkind

theorem made (hl : Loaded base p h) {kind : Kind} {options : Schemata.Options} {children : List Nat}
    (hm : Made base p n kind options children) (hk : kind ≠ .ref) :
    ∃ l, h.get? n = some l ∧ l.kind = kind ∧ l.options = options ∧ l.children = children := by
  obtain ⟨k, hget, rfl⟩ := hm.options
  have hframe : k.frame = ⟨n, kind, children, none, false, []⟩ :=
    Option.some.inj ((Graph.frame?_of_get? hget).symm.trans hm.frame)
  obtain ⟨l, hl, hkind, hoptions, hchildren⟩ := hl.found hget hm.new.1 (not_waiting hl.kept hm.frame hk)
  exact ⟨l, hl, hkind.trans (congrArg Frame.kind hframe), hoptions, hchildren.trans (congrArg Frame.children hframe)⟩

/-- what a node that is not optional wraps is not optional either -/
theorem whole (hl : Loaded base p h) (hn : Whole base p n) : ∃ l, h.get? n = some l ∧ l.kind ≠ .optional ∧
    (l.kind.isWrapper = true → ∀ c ∈ l.children, Whole base p c) := by
  obtain ⟨f, hf, hopt⟩ := hn.kind
  by_cases hwaits : n ∈ waiting p
  · obtain ⟨r, hr, rfl⟩ := List.mem_map.1 hwaits
    obtain ⟨l, t, hget, hkind, ht, hchildren⟩ := hl.reference hr
    refine ⟨l, hget, by rw [hkind]; decide, fun _ c hc => ?_⟩
    rw [hchildren c hc]
    exact hl.kept.entries _ _ _ ht
  · obtain ⟨k, hk, rfl⟩ := Option.map_eq_some_iff.1 hf
    obtain ⟨l, hget, hkind, -, hchildren⟩ := hl.found hk hn.new.1 hwaits
    refine ⟨l, hget, by rw [hkind]; exact hopt, fun hwrapper c hc => ?_⟩
    rw [hchildren] at hc
    rcases (hl.kept.fresh n k.frame hf hn.new.1).whole with htuple | hobject | hall
    · rw [hkind, show k.kind = .tuple from htuple] at hwrapper
      cases hwrapper
    · rw [hkind, show k.kind = .object from hobject] at hwrapper
      cases hwrapper
    · exact hall c hc

theorem kind_of_onChain (hl : Loaded base p h) {m : Node} (hm : Graph.OnChain h m n) (hn : Whole base p n) : m.kind ≠ .optional := by
  induction hm with
  | here hget =>
    obtain ⟨l, hl, hkind, -⟩ := hl.whole hn
    obtain rfl := Option.some.inj (hget.symm.trans hl)
    exact hkind
  | step hget hk hc _ ih =>
    obtain ⟨l, hl, -, hbelow⟩ := hl.whole hn
    obtain rfl := Option.some.inj (hget.symm.trans hl)
    exact ih (hbelow hk _ (by rw [hc]; exact List.mem_singleton_self _))

/-- **Pieces.** Positions and fields are optional in the loaded graph when they were made so. -/
theorem isOptional (hl : Loaded base p h) {b : Bool} (hn : Piece base p b n) : h.isOptional n = b := by
  cases hn with
  | whole hn =>
    rw [← Bool.not_eq_true, Graph.isOptional_iff hl.ready.numbered]
    rintro ⟨m, hm, hkind⟩
    exact hl.kind_of_onChain hm hn hkind
  | @optional n c hn hf =>
    obtain ⟨k, hk, hframe⟩ := Option.map_eq_some_iff.1 hf
    obtain ⟨l, hget, hkind, -, hchildren⟩ := hl.found hk hn.1 (not_waiting hl.kept hf (by simp))
    have hkind : l.kind = .optional := hkind.trans (congrArg Frame.kind hframe)
    rw [Graph.isOptional_iff hl.ready.numbered]
    exact ⟨l, .here hget (by rw [hkind]; rfl) (hchildren.trans (congrArg Frame.children hframe)), hkind⟩

end Loaded

/-! ## Compiled -/

/-- the root of a document is imported, loaded, and compiled in the plain dialect, which expresses all nodes -/
structure Compiles (o : Options) (v : Value) (render : Document.Options) (c : CompileOptions) (h : Graph) (id : Nat)
    (q : Predicate) : Prop where
  imported : ∃ g p name k, g.Numbered ∧ importDocuments o [v] { graph := g } = (.ok (.plain, [(name, some id)]), p) ∧
    GraphM.load (some id) (close p) = (.ok (), h) ∧
    compileNode id (some compileDocument) render c (close p) = (.ok q, k)
  dialect : render.dialect = .plain
  guarded : h.Guarded
  nodes : ∀ i n, h.get? i = some n → Document.Expressible n

namespace Compiles

variable {o : Options} {m : Dict Value} {render : Document.Options} {c : CompileOptions} {h : Graph} {id : Nat} {q : Predicate}

theorem run {v : Value} (hc : Compiles o v render c h id q) : ∃ g p name k, g.Numbered ∧
    importDocuments o [v] { graph := g } = (.ok (.plain, [(name, some id)]), p) ∧ Loaded g.size p h ∧ Whole g.size p id ∧
    h.isLoaded id = true ∧ compileNode id (some compileDocument) render c h = (.ok q, k) := by
  obtain ⟨g, p, name, k, hg, hrun, hload, hcompile⟩ := hc.imported
  have hdoc := hrun
  rw [importDocuments, definition_eq] at hdoc
  obtain ⟨w, -, hidle, hw, hentry⟩ := importBy_watched hg o o.depth _ hdoc
  obtain ⟨_, hid, hwhole⟩ := hentry (name, some id) (List.mem_singleton_self _)
  obtain rfl := Option.some.inj hid
  have hloaded := loaded_of_load hw.kept hidle hwhole.new hload
  obtain ⟨-, hroot⟩ := GraphM.load_walked (close_ready hw.kept hidle).numbered hload
  have hagain := GraphM.load_of_loaded hloaded.ready.numbered hroot
  rw [compileNode_load hload hagain] at hcompile
  exact ⟨g, p, name, k, hg, hrun, hloaded, hwhole, hroot, hcompile⟩

/-- the predicate accepts what the node of the root admits and all nodes accept that it calls -/
theorem accepts {v : Value} (hc : Compiles o v render c h id q) {n : Node} (hn : h.get? id = some n) (hk : n.kind ≠ .union)
    (t : Wording) (w : Value) : ∃ is, q.issues t w = .ok is ∧
      (is = [] ↔ n.admits h (judging h id render c) w = true ∧ ∀ e ∈ n.calls w, h.Accepts (judging h id render c) e.1 e.2) := by
  obtain ⟨g, p, name, k, -, -, hloaded, -, hroot, hcompile⟩ := hc.run
  obtain ⟨b, hb⟩ := Option.isSome_iff_exists.1 (Graph.judge_isSome (σ := judging h id render c) hc.guarded id w)
  obtain ⟨is, his, rfl⟩ := Program.validate_verdict
    (compileNode_verdict hloaded.ready.numbered hc.nodes hroot hc.dialect hcompile t hb)
  refine ⟨is, his, ?_⟩
  rw [← List.isEmpty_iff]
  exact Graph.judge_eq_true hn hk hb

/-- the node of a root of one type is the one that its type is converted to -/
theorem root {type : String} (hc : Compiles o (.object m) render c h id q) (hm : OfType m type) (ht : type ≠ "null") :
    ∃ base p depth u u', Loaded base p h ∧ Underway base u ∧
      typeNode o (convertUpTo o atBound depth 0) m "" type u = (.ok id, u') ∧ Touched u' p := by
  obtain ⟨g, p, name, k, hg, hrun, hloaded, hwhole, -⟩ := hc.run
  obtain ⟨_, n, hentries, hroot⟩ := root_run hm ht hg hrun
  obtain ⟨-, rfl⟩ : _ ∧ id = n := by simpa using hentries
  rcases hroot with ⟨f, hf, hk⟩ | ⟨depth, u, u', hu, htype, htouched⟩
  · -- nodes that the dialect expresses are no fragments
    obtain ⟨k, hget, rfl⟩ := Option.map_eq_some_iff.1 hf
    have hcustom : k.kind = .custom := hk
    obtain ⟨l, hl, hkind, -⟩ := hloaded.found hget hwhole.new.1 (Loaded.not_waiting hloaded.kept hf (by rw [hk]; decide))
    exact absurd (hkind.trans hcustom) (hc.nodes id l hl).custom
  · exact ⟨g.size, p, depth, u, u', hloaded, hu, htype, htouched⟩

end Compiles

variable {h : Graph}

/-- the graph of a document that was imported, with its root loaded -/
def rooted (o : Options) (v : Value) (id : Nat) : Graph :=
  (GraphM.load (some id) (close (importDocuments o [v] { graph := {} }).2)).2

/-- a document is compiled, if what its root is read as can be -/
theorem compiles_of_read {o : Options} {v : Value} (name : String) {id : Nat}
    (hrun : (importDocuments o [v] { graph := {} }).1.toOption = some (.plain, [(name, some id)]))
    (hload : (GraphM.load (some id) (close (importDocuments o [v] { graph := {} }).2)).1.isOk = true)
    (hfalls : ∀ n ∈ (rooted o v id).nodes, Graph.handsOn n.kind = true → ∀ c ∈ n.children, c < n.id)
    (hnodes : ∀ n ∈ (rooted o v id).nodes, Document.Expressible n)
    (hnum : (rooted o v id).Numbered) (hloaded : (rooted o v id).isLoaded id = true)
    (hvalidator : (rooted o v id).validator? id = none)
    (hordered : (Document.ofNode (rooted o v id) id { target := Document.target } {}).2.IsOrdered)
    (hread : (Document.readSettled { target := Document.target } (rooted o v id) id {}).any compiles = true) :
    ∃ q, Compiles o v {} {} (rooted o v id) id q := by
  have himported : (importDocuments o [v] { graph := {} }).1 = .ok (.plain, [(name, some id)]) := by
    cases hdone : (importDocuments o [v] { graph := {} }).1 with
    | error e =>
      rw [hdone] at hrun
      cases hrun
    | ok e =>
      rw [hdone] at hrun
      exact congrArg _ (Option.some.inj hrun)
  have hroot : GraphM.load (some id) (close (importDocuments o [v] { graph := {} }).2) = (.ok (), rooted o v id) :=
    Prod.ext (GraphM.eq_ok_of_isOk hload) rfl
  have hguarded : (rooted o v id).Guarded := by
    refine Graph.guarded_of_rank (fun a => a) fun a c ⟨n, hn, hk, hc⟩ => ?_
    obtain rfl := hnum a n hn
    exact Graph.forall_nodes hfalls hn hk c hc
  obtain ⟨q, hq⟩ := compileNode_of_read hnum hloaded hvalidator hordered hread
  have hcompile := compileNode_load hroot (GraphM.load_of_loaded hnum hloaded) compileDocument {} {}
  exact ⟨q, ⟨{}, _, name, _, by decide +kernel, Prod.ext himported rfl, hroot, hcompile.trans hq⟩, rfl, hguarded,
    fun i n hn => Graph.forall_nodes hnodes hn⟩

/-- what a node calls is accepted, if evaluating the calls says so -/
theorem accepts_calls (σ : Judging) (steps : Nat) (v : Value) {id : Nat} {n : Node} (hn : h.get? id = some n)
    (hcalls : (h.get? id).any (fun n => (n.calls v).all fun e => h.judge σ steps e.1 e.2 == some true) = true) :
    ∀ e ∈ n.calls v, h.Accepts σ e.1 e.2 := by
  rw [hn, Option.any_some, List.all_eq_true] at hcalls
  exact fun e he => ⟨steps, eq_of_beq (hcalls e he)⟩

/-! ### Arrays -/

theorem all_optional {ns : List Nat} {least : Int}
    (hns : ∀ j c : Nat, ns[j]? = some c → h.isOptional c = decide ((j : Int) ≥ least)) (k : Nat) :
    (ns.drop k).all h.isOptional = true ↔ min least (ns.length : Int) ≤ k := by
  rw [List.all_eq_true]
  constructor
  · intro hall
    by_contra hlt
    have hk : k < ns.length := by omega
    have hget : ns[k]? = some ns[k] := List.getElem?_eq_getElem hk
    have hopt := hall ns[k] (List.mem_iff_getElem?.2 ⟨0, by rw [List.getElem?_drop, Nat.add_zero, hget]⟩)
    rw [hns k _ hget, decide_eq_true_iff] at hopt
    omega
  · intro hle c hc
    obtain ⟨i, hi⟩ := List.mem_iff_getElem?.1 hc
    rw [List.getElem?_drop] at hi
    obtain ⟨hlt, -⟩ := List.getElem?_eq_some_iff.1 hi
    rw [hns _ c hi, decide_eq_true_iff]
    omega

theorem positions_eq {n : Node} {ns : List Nat} {rest : Option Nat} (ho : n.options = .tuple rest.isSome)
    (hc : n.children = ns ++ rest.toList) : n.positions = ns ∧ n.rest = rest := by
  have hrest : n.hasRest = rest.isSome := by rw [Node.hasRest, ho]
  unfold Node.positions Node.rest
  rw [hrest, hc]
  cases rest with
  | none => simp
  | some r => simp

/-- **Arrays with positions.** The predicate of an imported array accepts arrays for their number of items and for what stands at
each place. It asks for as many items as `minItems` says, but for no more than there are positions, and it allows no more
than these if the rest is refused. Nothing else that the schema says of arrays makes a difference. -/
theorem importDocuments_positions {o : Options} {m : Dict Value} {items : List Value} (hm : OfType m "array")
    (hitems : positional? m = some items) {render : Document.Options} {c : CompileOptions} {id : Nat} {q : Predicate}
    (hc : Compiles o (.object m) render c h id q) :
    ∃ n, h.get? id = some n ∧ n.kind = .tuple ∧ n.positions.length = items.length ∧ n.rest.isNone = refusesRest m ∧
      ∀ t xs, ∃ is, q.issues t (.array xs) = .ok is ∧
        (is = [] ↔ min ((count? m "minItems").getD 0) (items.length : Int) ≤ xs.length ∧
          (refusesRest m = true → xs.length ≤ items.length) ∧
          ∀ e ∈ n.calls (.array xs), h.Accepts (judging h id render c) e.1 e.2) := by
  obtain ⟨base, p, depth, u, u', hloaded, hu, htype, htouched⟩ := hc.root hm (by decide)
  obtain ⟨-, ns, rest, ⟨hmade, hpieces⟩, hlength, hrest⟩ :=
    arrayNode_run (convert_converting base o depth 0) hitems hu htype
  obtain ⟨n, hn, hkind, hoptions, hchildren⟩ := hloaded.made (hmade.touched rfl htouched) (by decide)
  obtain ⟨hpositions, hafter⟩ := positions_eq hoptions hchildren
  have hoptional (j c : Nat) (hj : ns[j]? = some c) : h.isOptional c = decide ((j : Int) ≥ (count? m "minItems").getD 0) :=
    hloaded.isOptional ((hpieces j c hj).grows htouched.frames.extends)
  refine ⟨n, hn, hkind, by rw [hpositions, hlength], by rw [hafter, hrest], fun t xs => ?_⟩
  obtain ⟨is, his, haccepts⟩ := hc.accepts hn (by rw [hkind]; decide) t (.array xs)
  refine ⟨is, his, haccepts.trans ?_⟩
  rw [← and_assoc]
  refine and_congr_left fun _ => ?_
  simp only [Node.admits, hkind, Bool.and_eq_true, hpositions, hafter, all_optional hoptional, hlength, ← hrest]
  refine and_congr_right fun _ => ?_
  cases rest <;> simp

/-- two integers, with bounds that no two items keep -/
def pairSchema : Dict Value := [
  ("items", .array [.object [("type", .string "integer")], .object [("type", .string "integer")]]),
  ("maxItems", .float 1), ("minItems", .float 3), ("type", .string "array"), ("uniqueItems", .bool true)]

theorem importDocuments_positions_pair : OfType pairSchema "array" ∧
    positional? pairSchema = some [.object [("type", .string "integer")], .object [("type", .string "integer")]] ∧
    (importDocuments { depth := 3 } [.object pairSchema] { graph := {} }).2.warnings = [] ∧
    ∃ q, Compiles { depth := 3 } (.object pairSchema) {} {} (rooted { depth := 3 } (.object pairSchema) 4) 4 q ∧
      ∀ t, q.issues t (.array [.float 1, .float 1]) = .ok [] := by
  have htype : OfType pairSchema "array" := by constructor <;> decide +kernel
  have hitems : positional? pairSchema =
      some [.object [("type", .string "integer")], .object [("type", .string "integer")]] := rfl
  obtain ⟨q, hcompiles⟩ : ∃ q, Compiles { depth := 3 } (.object pairSchema) {} {}
      (rooted { depth := 3 } (.object pairSchema) 4) 4 q := by
    refine compiles_of_read "Schema" ?_ ?_ ?_ ?_ ?_ ?_ ?_ ?_ ?_ <;> decide +kernel
  obtain ⟨n, hn, -, -, -, haccepts⟩ := importDocuments_positions htype hitems hcompiles
  refine ⟨htype, hitems, by decide +kernel, q, hcompiles, fun t => ?_⟩
  obtain ⟨is, his, hiff⟩ := haccepts t [.float 1, .float 1]
  have hcalls := accepts_calls (judging (rooted { depth := 3 } (.object pairSchema) 4) 4 {} {}) 9
    (.array [.float 1, .float 1]) hn (by decide +kernel)
  rw [his, hiff.2 ⟨by decide +kernel, by decide +kernel, hcalls⟩]

/-! ### Objects -/

theorem all_demanded {fields : List (String × Nat)} {needed : List String}
    (hfields : ∀ f ∈ fields, h.isOptional f.2 = !needed.contains f.1) (hneeded : ∀ k ∈ needed, k ∈ fields.map (·.1))
    {fs : Dict Value} :
    (fields.all fun f => h.isOptional f.2 || Dict.has fs f.1) = true ↔ ∀ k ∈ needed, Dict.has fs k = true := by
  rw [List.all_eq_true]
  constructor
  · intro hall k hk
    obtain ⟨f, hf, rfl⟩ := List.mem_map.1 (hneeded k hk)
    have hpresent := hall f hf
    rwa [hfields f hf, List.contains_iff_mem.2 hk] at hpresent
  · intro hall f hf
    rw [hfields f hf]
    by_cases hk : f.1 ∈ needed
    · rw [hall f.1 hk, Bool.or_true]
    · simp [hk]

/-- **Objects.** The predicate of an imported record accepts the objects whose keys match the pattern and whose values its node
accepts, whatever keys they must have; that of any other object accepts those that have the keys that they must have,
whatever pattern there is for keys. -/
theorem importDocuments_keys {o : Options} {m : Dict Value} (hm : OfType m "object") {render : Document.Options}
    {c : CompileOptions} {id : Nat} {q : Predicate} (hc : Compiles o (.object m) render c h id q) :
    ∃ n, h.get? id = some n ∧ n.kind = (if (recordPattern? m).isSome then .record else .object) ∧
      ∀ t fs, ∃ is, q.issues t (.object fs) = .ok is ∧
        (is = [] ↔ (match recordPattern? m with
            | some pattern => pattern = "" ∨ ∀ e ∈ fs, Check.matchesText pattern e.1 = true
            | none => (∀ k ∈ demanded o m, Dict.has fs k = true) ∧
                (render.strict = true ∨ n.objectOptions.unlisted = .reject → ∀ e ∈ fs, e.1 ∈ n.objectOptions.keys)) ∧
          ∀ e ∈ n.calls (.object fs), h.Accepts (judging h id render c) e.1 e.2) := by
  obtain ⟨base, p, depth, u, u', hloaded, hu, htype, htouched⟩ := hc.root hm (by decide)
  obtain ⟨-, hnode⟩ := objectNode_run (convert_converting base o depth 0) hu htype
  revert hnode
  cases recordPattern? m with
  | some pattern =>
    rintro ⟨c, hmade⟩
    obtain ⟨n, hn, hkind, hoptions, -⟩ := hloaded.made (hmade.touched rfl htouched) (by decide)
    refine ⟨n, hn, hkind, fun t fs => ?_⟩
    obtain ⟨is, his, haccepts⟩ := hc.accepts hn (by rw [hkind]; decide) t (.object fs)
    refine ⟨is, his, haccepts.trans (and_congr_left fun _ => ?_)⟩
    simp only [Node.admits, hkind, Node.keyPattern, hoptions, Bool.or_eq_true, decide_eq_true_eq, List.all_eq_true]
  | none =>
    rintro ⟨fields, unlisted, hmade, hfields, hkeys⟩
    obtain ⟨n, hn, hkind, hoptions, hchildren⟩ := hloaded.made (hmade.touched rfl htouched) (by decide)
    refine ⟨n, hn, hkind, fun t fs => ?_⟩
    obtain ⟨is, his, haccepts⟩ := hc.accepts hn (by rw [hkind]; decide) t (.object fs)
    refine ⟨is, his, haccepts.trans (and_congr_left fun _ => ?_)⟩
    have hobject : n.objectOptions = { keys := fields.map (·.1), unlisted } := by rw [Node.objectOptions, hoptions]
    have hpairs : n.fields = fields := by
      rw [Node.fields, hobject, hchildren, List.zip_map']
      simp
    simp only [Node.admits, hkind, Bool.and_eq_true, hpairs, hobject]
    refine and_congr (all_demanded (fun f hf => ?_) hkeys) ?_
    · exact hloaded.isOptional ((hfields f hf).grows htouched.frames.extends)
    · cases hstrict : render.strict <;> by_cases hreject : unlisted = .reject <;> simp [judging, hstrict, hreject]

/-- texts under any keys, and a key that must be there -/
def notesSchema : Dict Value := [
  ("additionalProperties", .object [("type", .string "string")]), ("required", .array [.string "a"]), ("type", .string "object")]

theorem importDocuments_keys_notes : OfType notesSchema "object" ∧
    (importDocuments { depth := 3 } [.object notesSchema] { graph := {} }).2.warnings = [] ∧
    ∃ q, Compiles { depth := 3 } (.object notesSchema) {} {} (rooted { depth := 3 } (.object notesSchema) 2) 2 q ∧
      ∀ t, q.issues t (.object []) = .ok [] := by
  have htype : OfType notesSchema "object" := by constructor <;> decide +kernel
  obtain ⟨q, hcompiles⟩ : ∃ q, Compiles { depth := 3 } (.object notesSchema) {} {}
      (rooted { depth := 3 } (.object notesSchema) 2) 2 q := by
    refine compiles_of_read "Schema" ?_ ?_ ?_ ?_ ?_ ?_ ?_ ?_ ?_ <;> decide +kernel
  obtain ⟨n, hn, -, haccepts⟩ := importDocuments_keys htype hcompiles
  refine ⟨htype, by decide +kernel, q, hcompiles, fun t => ?_⟩
  obtain ⟨is, his, hiff⟩ := haccepts t []
  have hcalls := accepts_calls (judging (rooted { depth := 3 } (.object notesSchema) 2) 2 {} {}) 9 (.object []) hn
    (by decide +kernel)
  have hrecord : recordPattern? notesSchema = some "" := by decide +kernel
  rw [his, hiff.2 ⟨by rw [hrecord]; exact .inl rfl, hcalls⟩]

end Schemata.Import
