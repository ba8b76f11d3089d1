import Schemata.Proofs.Import.Watching

/-!
What arrays and objects are imported as.

The positions of an array become a tuple, with those optional that `minItems` does not ask for (`arrayNode_run`). Number of
items and equal items are settings of arrays: on a tuple they do nothing. An object becomes a record of one schema for all
values, with a pattern for its keys, or an object with a field for each key that must be there (`objectNode_run`): a record
knows no keys, and an object no pattern.

A schema of one type (`OfType`) is imported as the node of its type, with annotations set on it (`schemaNode_run`), and so is
the root of a document that holds one (`root_run`).
-/

namespace Schemata.Import

open Steps
open Setting (Plain Tame)
open Graph (SameFrames Extends Fixed)

variable {base : Nat} {p p' : Progress} {n : Nat}

/-! ## Steps on the way -/

/-- a state that an import can be in -/
def Underway (base : Nat) (p : Progress) : Prop := ∃ q, Watched base p q

theorem Underway.kept (h : Underway base p) : Kept base p := by
  obtain ⟨q, hq⟩ := h
  exact hq.kept

/-- a coupled step, run by itself -/
theorem Coupling.Pairs.run {α : Type} {us : List Nat} {x y : ImportM α} {gives : α → List Nat}
    (h : (watching base).Pairs us x y gives) (hp : Underway base p) (hus : ∀ n ∈ us, Whole base p n) {a : α}
    (hrun : x p = (.ok a, p')) : Underway base p' ∧ Grows p p' ∧ ∀ n ∈ gives a, Whole base p' n := by
  obtain ⟨q, hq⟩ := hp
  obtain ⟨-, hrel, hret⟩ := h p q hq hus
  rw [hrun] at hrel hret
  obtain ⟨hgrows, hgives⟩ := hret a rfl
  exact ⟨⟨_, hrel⟩, hgrows, hgives⟩

/-- a node as it was made -/
structure Made (base : Nat) (p : Progress) (n : Nat) (kind : Kind) (options : Schemata.Options) (children : List Nat) :
    Prop where
  new : New base p n
  frame : p.graph.frame? n = some ⟨n, kind, children, none, false, []⟩
  options : ∃ k, p.graph.get? n = some k ∧ k.options = options

theorem make_run (hp : Underway base p) {kind : Kind} (hk : kind ≠ .ref) {options : Schemata.Options} {children : List Nat}
    (hc : ∀ c ∈ children, New base p c) (hwhole : kind = .tuple ∨ kind = .object ∨ ∀ c ∈ children, Whole base p c)
    {settings : List Setting} (hs : Plain settings) (hrun : make kind options children settings p = (.ok n, p')) :
    Underway base p' ∧ Grows p p' ∧ New base p' n ∧ p'.graph.frame? n = some ⟨n, kind, children, none, false, []⟩ := by
  obtain ⟨q, hq⟩ := hp
  obtain ⟨-, hrel, hgrows, hmade⟩ := make_watched hq hk options hc hwhole hs
  rw [hrun] at hrel hgrows hmade
  exact ⟨⟨_, hrel⟩, hgrows, hmade n rfl⟩

/-- fixed options are those that a node was made with -/
theorem make_options {kind : Kind} {options : Schemata.Options} (hfixed : options.isFixed = true) {children : List Nat}
    {settings : List Setting} (hs : Tame settings) (hrun : make kind options children settings p = (.ok n, p')) :
    ∃ k, p'.graph.get? n = some k ∧ k.options = options := by
  obtain ⟨hsame, hnumber⟩ := GraphM.add_frames kind options children hs.plain p.graph
  rw [make, onGraph_apply] at hrun
  obtain ⟨hn, rfl⟩ := Prod.mk.inj hrun
  obtain rfl := hnumber n hn
  have hadded : (p.graph.add kind options children).get? (p.graph.size + 1) =
      some { id := p.graph.size + 1, kind, options, children } := by
    rw [Graph.get?_add, if_pos rfl]
  dsimp only
  rw [GraphM.add_eq, bind_apply]
  obtain ⟨k, hk, hoptions⟩ := GraphM.apply_fixed (p.graph.size + 1) hs (p.graph.add kind options children) _ _ hadded hfixed
  rcases hrun' : GraphM.apply (p.graph.size + 1) settings (p.graph.add kind options children) with ⟨e | u, h⟩ <;>
    rw [hrun'] at hk
  · exact ⟨k, hk, hoptions⟩
  · exact ⟨k, hk, hoptions⟩

/-- what is set on nodes later, besides patterns for keys -/
structure Touched (p p' : Progress) : Prop where
  frames : SameFrames p.graph p'.graph
  fixed : Fixed p.graph p'.graph

theorem Touched.trans {q : Progress} (h : Touched p p') (h' : Touched p' q) : Touched p q :=
  ⟨h.frames.trans h'.frames, h.fixed.trans h'.fixed⟩

theorem touched_apply (id : Nat) {settings : List Setting} (hs : Tame settings) {u : Unit}
    (hrun : onGraph (GraphM.apply id settings) p = (.ok u, p')) : Touched p p' := by
  rw [onGraph_apply] at hrun
  obtain ⟨-, rfl⟩ := Prod.mk.inj hrun
  exact ⟨GraphM.apply_frames id hs.plain p.graph, GraphM.apply_fixed id hs p.graph⟩

theorem Made.touched {kind : Kind} {options : Schemata.Options} {children : List Nat} (h : Made base p n kind options children)
    (hfixed : options.isFixed = true) (ht : Touched p p') : Made base p' n kind options children where
  new := h.new.grows ht.frames.extends
  frame := (ht.frames.frames n).trans h.frame
  options := by
    obtain ⟨k, hk, rfl⟩ := h.options
    exact ht.fixed n k hk hfixed

/-! ## Positions and fields -/

/-- a position or a field, optional or not -/
inductive Piece (base : Nat) (p : Progress) : Bool → Nat → Prop
  | whole {n : Nat} (h : Whole base p n) : Piece base p false n
  | optional {n c : Nat} (hn : New base p n) (hf : p.graph.frame? n = some ⟨n, .optional, [c], none, false, []⟩) :
    Piece base p true n

theorem Piece.new {b : Bool} (h : Piece base p b n) : New base p n := by
  cases h with
  | whole h => exact h.new
  | optional hn => exact hn

theorem Piece.grows {b : Bool} (h : Piece base p b n) (hg : p.graph.Extends p'.graph) : Piece base p' b n := by
  cases h with
  | whole h => exact .whole (h.grows hg)
  | optional hn hf => exact .optional (hn.grows hg) (hg n _ hf)

/-- converting a schema builds a node that is not optional -/
def Converting (base : Nat) (convert : Convert) : Prop :=
  ∀ v place p n p', Underway base p → convert v place p = (.ok n, p') → Underway base p' ∧ Grows p p' ∧ Whole base p' n

theorem convert_converting (base : Nat) (o : Options) (depth src : Nat) : Converting base (convertUpTo o atBound depth src) := by
  intro v place p n p' hp hrun
  obtain ⟨hp', hgrows, hwhole⟩ := (convert_watched base o depth src v place).run hp (by simp) hrun
  exact ⟨hp', hgrows, hwhole n (List.mem_singleton_self n)⟩

variable {convert : Convert}

theorem convertPiece_run (hconv : Converting base convert) (hp : Underway base p) {isOptional : Bool} {v : Value} {place : String}
    (hrun : Coupling.convertPiece convert isOptional v place p = (.ok n, p')) :
    Underway base p' ∧ Grows p p' ∧ Piece base p' isOptional n := by
  obtain ⟨c, q, hc, hrun⟩ := bind_ok hrun
  obtain ⟨hq, hgrows, hwhole⟩ := hconv v place p c q hp hc
  cases isOptional with
  | false =>
    cases hrun
    exact ⟨hq, hgrows, .whole hwhole⟩
  | true =>
    obtain ⟨hp', hmore, hnew, hframe⟩ := make_run hq (by decide) (by simpa using hwhole.new) (by simpa using hwhole) plain_nil hrun
    exact ⟨hp', hgrows.trans hmore, .optional hnew hframe⟩

theorem convertPositions_run (hconv : Converting base convert) {place key : String} {least : Int} {vs : List Value} {i : Nat} {ns : List Nat} (hp : Underway base p)
    (hrun : convertPositions convert place key least i vs p = (.ok ns, p')) :
    Underway base p' ∧ Grows p p' ∧ ns.length = vs.length ∧
      ∀ j n, ns[j]? = some n → Piece base p' (decide (((i + j : Nat) : Int) ≥ least)) n := by
  induction vs generalizing i p ns with
  | nil =>
    cases hrun
    exact ⟨hp, .refl _, rfl, by simp⟩
  | cons v vs ih =>
    rw [Coupling.convertPositions_cons] at hrun
    obtain ⟨n, q, hn, hrun⟩ := bind_ok hrun
    obtain ⟨ns', q', hns, hrun⟩ := bind_ok hrun
    obtain ⟨rfl, rfl⟩ : ns = n :: ns' ∧ p' = q' := by cases hrun; exact ⟨rfl, rfl⟩
    obtain ⟨hq, hgrows, hpiece⟩ := convertPiece_run hconv hp hn
    obtain ⟨hq', hmore, hlength, hpieces⟩ := ih hq hns
    refine ⟨hq', hgrows.trans hmore, by simp [hlength], fun j k hk => ?_⟩
    cases j with
    | zero =>
      obtain rfl := Option.some.inj hk
      exact hpiece.grows hmore.graph
    | succ j =>
      have := hpieces j k hk
      rwa [Nat.add_right_comm i 1 j] at this

/-! ## Arrays with positions -/

/-- what a schema has for the positions of arrays -/
def positional? (m : Dict Value) : Option (List Value) := (list? m "prefixItems").or (list? m "items")

/-- is there no value that the schema under the key accepts? -/
def refuses (m : Dict Value) (key : String) : Bool :=
  match m.get? key with
  | some (.bool false) => true
  | _ => false

/-- does a schema with positions refuse what lies beyond them? -/
def refusesRest (m : Dict Value) : Bool :=
  refuses m (if (list? m "prefixItems").isSome then "items" else "additionalItems")

/-- a node with positions, those from `least` on optional, and what describes the items beyond them -/
structure Positions (base : Nat) (p : Progress) (least : Int) (n : Nat) (ns : List Nat) (rest : Option Nat) : Prop where
  made : Made base p n .tuple (.tuple rest.isSome) (ns ++ rest.toList)
  pieces : ∀ j c : Nat, ns[j]? = some c → Piece base p (decide ((j : Int) ≥ least)) c

/-- the key under which a schema describes the items beyond its positions -/
def restKey (key : String) : String := if key = "prefixItems" then "items" else "additionalItems"

theorem tupleNode_eq (convert : Convert) (m : Dict Value) (items : List Value) (key place : String) (settings : List Setting) :
    tupleNode convert m items key place settings =
      convertPositions convert place key ((count? m "minItems").getD 0) 0 items >>= fun ns =>
        if refuses m (restKey key) = true then make .tuple (.tuple false) ns settings
        else convert ((m.get? (restKey key)).getD (.bool true)) (place ++ "/" ++ restKey key) >>= fun r =>
          make .tuple (.tuple true) (ns ++ [r]) settings := by
  unfold tupleNode restKey
  refine bind_congr fun ns => ?_
  dsimp only
  generalize (if key = "prefixItems" then "items" else "additionalItems") = after
  unfold refuses
  cases m.get? after with
  | none => rfl
  | some v =>
    cases v with
    | bool b => cases b <;> rfl
    | _ => rfl

theorem tupleNode_run (hconv : Converting base convert) {m : Dict Value} {items : List Value} {key place : String} {settings : List Setting} (hs : Tame settings)
    (hp : Underway base p) (hrun : tupleNode convert m items key place settings p = (.ok n, p')) :
    Underway base p' ∧ ∃ ns rest, Positions base p' ((count? m "minItems").getD 0) n ns rest ∧ ns.length = items.length ∧
      rest.isNone = refuses m (restKey key) := by
  rw [tupleNode_eq] at hrun
  obtain ⟨ns, q, hns, hrun⟩ := bind_ok hrun
  obtain ⟨hq, hgrows, hlength, hpieces⟩ := convertPositions_run hconv hp hns
  simp only [Nat.zero_add] at hpieces
  have hnew : ∀ c ∈ ns, New base q c := by
    intro c hc
    obtain ⟨j, hj⟩ := List.mem_iff_getElem?.1 hc
    exact (hpieces j c hj).new
  split at hrun
  · rename_i hclosed
    obtain ⟨hp', hmore, hnew', hframe⟩ := make_run hq (by decide) hnew (.inl rfl) hs.plain hrun
    refine ⟨hp', ns, none, ⟨⟨hnew', by simpa using hframe, make_options rfl hs hrun⟩, ?_⟩, hlength, hclosed.symm⟩
    exact fun j c hc => (hpieces j c hc).grows hmore.graph
  · rename_i hopen
    obtain ⟨r, q', hr, hrun⟩ := bind_ok hrun
    obtain ⟨hq', hgrows', hwhole⟩ := hconv _ _ _ _ _ hq hr
    have hall : ∀ c ∈ ns ++ [r], New base q' c := by
      intro c hc
      rcases List.mem_append.1 hc with hc | hc
      · exact (hnew c hc).grows hgrows'.graph
      · rw [List.mem_singleton.1 hc]
        exact hwhole.new
    obtain ⟨hp', hmore, hnew', hframe⟩ := make_run hq' (by decide) hall (.inl rfl) hs.plain hrun
    refine ⟨hp', ns, some r, ⟨⟨hnew', hframe, make_options rfl hs hrun⟩, ?_⟩, hlength, ?_⟩
    · exact fun j c hc => (hpieces j c hc).grows (hgrows'.trans hmore).graph
    · exact (Bool.eq_false_of_not_eq_true hopen).symm

/-- **Arrays with positions.** -/
theorem arrayNode_run (hconv : Converting base convert) {m : Dict Value} {items : List Value} (hitems : positional? m = some items) {place : String}
    (hp : Underway base p) (hrun : arrayNode convert m place p = (.ok n, p')) :
    Underway base p' ∧ ∃ ns rest, Positions base p' ((count? m "minItems").getD 0) n ns rest ∧ ns.length = items.length ∧
      rest.isNone = refusesRest m := by
  obtain ⟨own, q, hown, hrun⟩ := bind_ok hrun
  obtain ⟨hq, -, -⟩ := (Coupling.listSettings_pairs (watching_sound base {}) [] m place).run hp (by simp) hown
  have hs : Tame (itemSettings m ++ own) := tame_append.2 ⟨tame_itemSettings m, listSettings_tame ⟨p, by rw [hown]⟩⟩
  dsimp only at hrun
  cases hleading : list? m "prefixItems" with
  | some xs =>
    simp only [hleading] at hrun
    obtain rfl : xs = items := by simpa [positional?, hleading] using hitems
    rw [refusesRest, hleading]
    exact tupleNode_run hconv hs hq hrun
  | none =>
    have hlist : list? m "items" = some items := by simpa [positional?, hleading] using hitems
    simp only [hleading, hlist] at hrun
    rw [refusesRest, hleading]
    exact tupleNode_run hconv hs hq hrun

/-! ## Objects -/

theorem mem_putField {k : String} {i : Nat} {acc : List (String × Nat)} {f : String × Nat} (h : f ∈ putField k i acc) :
    f = (k, i) ∨ f ∈ acc := by
  induction acc with
  | nil => exact .inl (List.mem_singleton.1 h)
  | cons e acc ih =>
    rw [putField] at h
    split at h
    · rename_i hk
      rcases List.mem_cons.1 h with rfl | h
      · exact .inl (by rw [hk])
      · exact .inr (List.mem_cons_of_mem _ h)
    · rcases List.mem_cons.1 h with rfl | h
      · exact .inr List.mem_cons_self
      · exact (ih h).imp_right (List.mem_cons_of_mem _)

theorem keys_putField {k l : String} {i : Nat} {acc : List (String × Nat)} :
    l ∈ (putField k i acc).map (·.1) ↔ l = k ∨ l ∈ acc.map (·.1) := by
  induction acc with
  | nil => simp [putField]
  | cons e acc ih =>
    rw [putField]
    split
    · rename_i hk
      simp [hk]
    · simp only [List.map_cons, List.mem_cons, ih]
      tauto

/-- fields, of which those that are needed are not optional -/
def Fields (base : Nat) (p : Progress) (needed : List String) (fields : List (String × Nat)) : Prop :=
  ∀ f ∈ fields, Piece base p (!needed.contains f.1) f.2

theorem Fields.grows {needed : List String} {fields : List (String × Nat)} (h : Fields base p needed fields)
    (hg : p.graph.Extends p'.graph) : Fields base p' needed fields := fun f hf => (h f hf).grows hg

theorem Fields.put {needed : List String} {acc : List (String × Nat)} (h : Fields base p needed acc) {k : String}
    (hk : Piece base p (!needed.contains k) n) : Fields base p needed (putField k n acc) := by
  intro f hf
  rcases mem_putField hf with rfl | hf
  · exact hk
  · exact h f hf

theorem convertFields_run (hconv : Converting base convert) {place : String} {needed : List String} {fs : Dict Value} {acc fields : List (String × Nat)}
    (hp : Underway base p) (hacc : Fields base p needed acc)
    (hrun : convertFields convert place needed acc fs p = (.ok fields, p')) :
    Underway base p' ∧ Grows p p' ∧ Fields base p' needed fields ∧
      ∀ k, k ∈ fields.map (·.1) ↔ k ∈ acc.map (·.1) ∨ k ∈ fs.map (·.1) := by
  induction fs generalizing p acc with
  | nil =>
    cases hrun
    exact ⟨hp, .refl _, hacc, by simp⟩
  | cons e fs ih =>
    obtain ⟨k, v⟩ := e
    rw [Coupling.convertFields_cons] at hrun
    obtain ⟨n, q, hn, hrun⟩ := bind_ok hrun
    obtain ⟨hq, hgrows, hpiece⟩ := convertPiece_run hconv hp hn
    obtain ⟨hp', hmore, hfields, hkeys⟩ := ih hq ((hacc.grows hgrows.graph).put hpiece) hrun
    refine ⟨hp', hgrows.trans hmore, hfields, fun l => ?_⟩
    rw [hkeys, keys_putField, List.map_cons, List.mem_cons]
    tauto

theorem addMissing_run {props : Dict Value} {node : ImportM Nat} (hnode : (watching base).Pairs [] node node fun n => [n])
    {needed keys : List String} (hneeded : keys ⊆ needed) {acc fields : List (String × Nat)} (hp : Underway base p)
    (hacc : Fields base p needed acc) (hrun : addMissing props node acc keys p = (.ok fields, p')) :
    Underway base p' ∧ Grows p p' ∧ Fields base p' needed fields ∧
      (∀ k ∈ acc.map (·.1), k ∈ fields.map (·.1)) ∧ ∀ k ∈ keys, props.has k = false → k ∈ fields.map (·.1) := by
  induction keys generalizing p acc with
  | nil =>
    cases hrun
    exact ⟨hp, .refl _, hacc, fun _ hk => hk, by simp⟩
  | cons k keys ih =>
    obtain ⟨hk, hrest⟩ := List.cons_subset.1 hneeded
    rw [addMissing] at hrun
    split at hrun
    · rename_i hhas
      obtain ⟨hp', hgrows, hfields, hkept, hadded⟩ := ih hrest hp hacc hrun
      refine ⟨hp', hgrows, hfields, hkept, fun l hl hnot => ?_⟩
      rcases List.mem_cons.1 hl with rfl | hl
      · rw [hhas] at hnot
        cases hnot
      · exact hadded l hl hnot
    · obtain ⟨n, q, hn, hrun⟩ := bind_ok hrun
      obtain ⟨hq, hgrows, hwhole⟩ := hnode.run hp (by simp) hn
      have hpiece : Piece base q (!needed.contains k) n := by
        rw [List.contains_iff_mem.2 hk]
        exact .whole (hwhole n (List.mem_singleton_self n))
      obtain ⟨hp', hmore, hfields, hkept, hadded⟩ := ih hrest hq ((hacc.grows hgrows.graph).put hpiece) hrun
      refine ⟨hp', hgrows.trans hmore, hfields, fun l hl => hkept l (keys_putField.2 (.inr hl)), fun l hl hnot => ?_⟩
      rcases List.mem_cons.1 hl with rfl | hl
      · exact hkept l (keys_putField.2 (.inl rfl))
      · exact hadded l hl hnot

/-- the pattern for the keys of a record of its own: of `propertyNames`, or else of the extension -/
def namesPattern (m : Dict Value) : String :=
  match (object? m "propertyNames").bind (text? · "pattern") with
  | some p => if p = "" then (text? m "x-key-pattern").getD "" else p
  | none => (text? m "x-key-pattern").getD ""

/-- what the values of a record are described by, and the pattern for its keys -/
def recordOf? (m : Dict Value) : Option (String × Value) :=
  match object? m "patternProperties" with
  | some [(k, v)] => some (k, v)
  | _ => if refuses m "additionalProperties" then none else (m.get? "additionalProperties").map (namesPattern m, ·)

/-- the pattern for the keys of the record that an object becomes, if it becomes one -/
def recordPattern? (m : Dict Value) : Option String :=
  if ((object? m "properties").getD []).isEmpty then (recordOf? m).map (·.1) else none

theorem recordNode_eq (convert : Convert) (m : Dict Value) (place : String) : ∃ at_, recordNode? convert m place =
    match recordOf? m with
    | some (pattern, v) => do
      let c ← convert v at_
      return some (← make .record (.record "") [c] (if pattern = "" then [] else [.keyPattern pattern]))
    | none => return none := by
  unfold recordNode? recordOf? refuses
  rcases object? m "patternProperties" with _ | _ | ⟨⟨k, v⟩, _ | ⟨e, es⟩⟩
  case some.cons.nil => exact ⟨place ++ "/patternProperties/" ++ escapeToken k, rfl⟩
  all_goals
    refine ⟨place ++ "/additionalProperties", ?_⟩
    cases m.get? "additionalProperties" with
    | none => rfl
    | some v =>
      cases v with
      | bool b => cases b <;> rfl
      | _ => rfl

/-- a record is made without a pattern, which is set then -/
theorem make_record {c : Nat} {pattern : String}
    (hrun : make .record (.record "") [c] (if pattern = "" then [] else [.keyPattern pattern]) p = (.ok n, p')) :
    ∃ k, p'.graph.get? n = some k ∧ k.options = .record pattern := by
  split at hrun
  · rename_i hempty
    rw [hempty]
    exact make_options rfl tame_nil hrun
  · have hadded : (p.graph.add .record (.record "") [c]).get? (p.graph.size + 1) =
        some { id := p.graph.size + 1, kind := .record, options := .record "", children := [c] } := by
      rw [Graph.get?_add, if_pos rfl]
    rw [make, onGraph_apply, GraphM.add_eq, GraphM.apply, bind_assoc, bind_of_ok (GraphM.set_of_get? hadded rfl _)] at hrun
    cases hrun
    refine ⟨{ id := p.graph.size + 1, kind := .record, options := .record pattern, children := [c] }, ?_, rfl⟩
    change ((p.graph.add .record (.record "") [c]).modify (p.graph.size + 1) _).get? (p.graph.size + 1) = _
    rw [Graph.get?_modify, if_pos rfl, hadded]
    rfl

theorem recordNode_run (hconv : Converting base convert) {m : Dict Value} {place : String} {r : Option Nat} (hp : Underway base p)
    (hrun : recordNode? convert m place p = (.ok r, p')) : Underway base p' ∧
      ((recordOf? m = none ∧ r = none) ∨ ∃ pattern v n c, recordOf? m = some (pattern, v) ∧ r = some n ∧
        Made base p' n .record (.record pattern) [c]) := by
  obtain ⟨at_, heq⟩ := recordNode_eq convert m place
  rw [heq] at hrun
  cases hof : recordOf? m with
  | none =>
    rw [hof] at hrun
    cases hrun
    exact ⟨hp, .inl ⟨rfl, rfl⟩⟩
  | some e =>
    obtain ⟨pattern, v⟩ := e
    rw [hof] at hrun
    obtain ⟨c, q, hc, hrun⟩ := bind_ok hrun
    obtain ⟨n, q', hn, hrun⟩ := bind_ok hrun
    cases hrun
    obtain ⟨hq, hgrows, hwhole⟩ := hconv _ _ _ _ _ hp hc
    have hplain : Plain (if pattern = "" then [] else [.keyPattern pattern]) := by
      split <;> simp [Plain, Setting.isHook]
    obtain ⟨hp', -, hnew, hframe⟩ := make_run hq (by decide) (by simpa using hwhole.new) (by simpa using hwhole) hplain hn
    exact ⟨hp', .inr ⟨pattern, v, n, c, rfl, rfl, hnew, hframe, make_record hn⟩⟩

/-- the keys that an object must have -/
def demanded (o : Options) (m : Dict Value) : List String := strings m "required" ++ embeddedKeys o m

theorem fieldsNode_run (hconv : Converting base convert) {o : Options} {m : Dict Value} {place : String} (hp : Underway base p)
    (hrun : Coupling.fieldsNode o convert m place p = (.ok n, p')) : Underway base p' ∧ ∃ fields unlisted,
      Made base p' n .object (.object { keys := fields.map (·.1), unlisted }) (fields.map (·.2)) ∧
        Fields base p' (demanded o m) fields ∧ ∀ k ∈ demanded o m, k ∈ fields.map (·.1) := by
  have hC := watching_sound base o
  have hunknown : (watching base).Pairs [] (make .unknown .none [] []) (make .unknown .none [] []) fun n => [n] :=
    Coupling.make_pairs hC _ (by simp) plain_nil (List.nil_subset _)
  have htext : (watching base).Pairs [] (make .string (.text {}) [] [.minLength 1]) (make .string (.text {}) [] [.minLength 1])
      fun n => [n] :=
    Coupling.make_pairs hC _ (by simp) (by simp [Plain, Setting.isHook]) (List.nil_subset _)
  obtain ⟨declared, p₁, hdeclared, hrun⟩ := bind_ok hrun
  obtain ⟨required, p₂, hrequired, hrun⟩ := bind_ok hrun
  obtain ⟨fields, p₃, hembedded, hrun⟩ := bind_ok hrun
  obtain ⟨unlisted, p₄, hunlisted, hrun⟩ := bind_ok hrun
  have hnone : Fields base p (demanded o m) [] := fun _ hf => absurd hf List.not_mem_nil
  obtain ⟨hp₁, -, hfields₁, hkeys⟩ := convertFields_run hconv hp hnone hdeclared
  obtain ⟨hp₂, -, hfields₂, hkept₂, hadded₂⟩ :=
    addMissing_run hunknown (List.subset_append_left _ _) hp₁ hfields₁ hrequired
  obtain ⟨hp₃, -, hfields₃, hkept₃, hadded₃⟩ :=
    addMissing_run htext (List.subset_append_right _ _) hp₂ hfields₂ hembedded
  obtain ⟨hp₄, hgrows₄, -⟩ := (Coupling.unlistedPolicy_pairs hC [] m place).run hp₃ (by simp) hunlisted
  have hfields₄ := hfields₃.grows hgrows₄.graph
  have hnew : ∀ c ∈ fields.map (·.2), New base p₄ c := by
    intro c hc
    obtain ⟨f, hf, rfl⟩ := List.mem_map.1 hc
    exact (hfields₄ f hf).new
  obtain ⟨hp', hgrows, hnode, hframe⟩ := make_run hp₄ (by decide) hnew (.inr (.inl rfl)) plain_nil hrun
  refine ⟨hp', fields, unlisted, ⟨hnode, hframe, make_options rfl tame_nil hrun⟩, hfields₄.grows hgrows.graph, fun k hk => ?_⟩
  -- a key is declared, or it is added
  cases hhas : Dict.has ((object? m "properties").getD []) k with
  | true =>
    refine hkept₃ k (hkept₂ k ((hkeys k).2 (.inr ?_)))
    simpa [Dict.has] using hhas
  | false =>
    rcases List.mem_append.1 hk with hk | hk
    · exact hkept₃ k (hadded₂ k hk hhas)
    · exact hadded₃ k hk hhas

/-- **Objects.** An object becomes a record with the pattern for its keys, or it has a field for each key that it must have, which is
not optional, as all other fields are. -/
theorem objectNode_run (hconv : Converting base convert) {o : Options} {m : Dict Value} {place : String} (hp : Underway base p)
    (hrun : objectNode o convert m place p = (.ok n, p')) : Underway base p' ∧
      match recordPattern? m with
      | some pattern => ∃ c, Made base p' n .record (.record pattern) [c]
      | none => ∃ fields unlisted, Made base p' n .object (.object { keys := fields.map (·.1), unlisted }) (fields.map (·.2)) ∧
          Fields base p' (demanded o m) fields ∧ ∀ k ∈ demanded o m, k ∈ fields.map (·.1) := by
  unfold objectNode at hrun
  dsimp only at hrun
  unfold recordPattern?
  split at hrun
  · rename_i hnone
    rw [if_pos hnone]
    obtain ⟨r, q, hr, hrun⟩ := bind_ok hrun
    obtain ⟨hq, ⟨hof, rfl⟩ | ⟨pattern, v, k, c, hof, rfl, hmade⟩⟩ := recordNode_run hconv hp hr
    · rw [hof]
      exact fieldsNode_run hconv hq hrun
    · rw [hof]
      cases hrun
      exact ⟨hq, c, hmade⟩
  · rename_i hsome
    rw [if_neg hsome]
    exact fieldsNode_run hconv hp hrun

/-! ## Schemas of one type -/

/-- the schema says of one type of values what they are: it is no reference, and it neither lists nor combines nor allows null -/
structure OfType (m : Dict Value) (type : String) : Prop where
  ref : text? m "$ref" = none
  types : (if (typeNames m).isEmpty then inferredTypes m else typeNames m) = [type]
  either : isTrue m "x-kubernetes-int-or-string" = false
  enum : list? m "enum" = none
  const : m.get? "const" = none
  anyOf : list? m "anyOf" = none
  oneOf : list? m "oneOf" = none
  allOf : list? m "allOf" = none
  nullable : isTrue m "nullable" = false

theorem OfType.no_null {m : Dict Value} {type : String} (h : OfType m type) (ht : type ≠ "null") :
    (typeNames m).contains "null" = false := by
  have htypes := h.types
  cases hnames : typeNames m with
  | nil => rfl
  | cons t ts =>
    rw [hnames] at htypes
    obtain ⟨rfl, rfl⟩ : t = type ∧ ts = [] := by simpa using htypes
    simpa using Ne.symm ht

theorem ownNode_eq {o : Options} {m : Dict Value} {type : String} (h : OfType m type) (place : String) :
    ownNode? o convert m (typeNames m) place = typeNode o convert m place type >>= fun n => pure (some n) := by
  unfold ownNode?
  rw [if_neg (by rw [h.either]; exact Bool.false_ne_true), h.enum, h.const, h.types]

theorem combined_eq {o : Options} {m : Dict Value} {type : String} (h : OfType m type) (src : Nat) (place : String) :
    combined? o src convert m place = pure none := by
  unfold combined? partNode?
  rw [h.anyOf, h.oneOf, h.allOf]
  rfl

theorem keywordsNode_run {o : Options} {m : Dict Value} {type : String} (h : OfType m type) {src : Nat} {place : String}
    (hp : Underway base p) (hrun : Coupling.keywordsNode o src convert m (typeNames m) false place p = (.ok n, p')) :
    ∃ q q', Underway base q ∧ typeNode o convert m place type q = (.ok n, q') ∧ Touched q' p' := by
  unfold Coupling.keywordsNode at hrun
  obtain ⟨settings, q, hsettings, hrun⟩ := bind_ok hrun
  obtain ⟨hq, -, -⟩ := (Coupling.annotations_pairs (watching_sound base o) [] m place).run hp (by simp) hsettings
  rw [ownNode_eq h, combined_eq h] at hrun
  obtain ⟨own, q', hown, hrun⟩ := bind_ok hrun
  obtain ⟨k, u, hk, hown⟩ := bind_ok hown
  cases hown
  obtain ⟨comb, u, hcomb, hrun⟩ := bind_ok hrun
  cases hcomb
  obtain ⟨_, u, happly, hrun⟩ := bind_ok hrun
  cases hrun
  exact ⟨q, q', hq, hk, touched_apply n (annotations_tame ⟨p, by rw [hsettings]⟩) happly⟩

/-- **Schemas of one type.** The node is that of the type, with annotations, unless it is an embedded fragment. -/
theorem schemaNode_run {o : Options} {m : Dict Value} {type : String} (h : OfType m type) (ht : type ≠ "null") {src : Nat}
    {place : String} (hp : Underway base p) (hrun : schemaNode o src convert m place p = (.ok n, p')) :
    (∃ f, p'.graph.frame? n = some f ∧ f.kind = .custom) ∨
      ∃ q q', Underway base q ∧ typeNode o convert m place type q = (.ok n, q') ∧ Touched q' p' := by
  have hform : (do
      if !(unsupported m).isEmpty && !fieldReference m then make .custom (.custom { fragment := some m }) [] []
      else
        if !(unsupported m).isEmpty then
          warnAt place (": ignoring " ++ ", ".intercalate (unsupported m) ++ " (subtree holds references)")
        Coupling.keywordsNode o src convert m (typeNames m) false place) p = (.ok n, p') := by
    rw [← hrun]
    unfold schemaNode
    simp only [h.no_null ht, h.nullable, Bool.false_and, Bool.false_or, Bool.false_eq_true, if_false]
    rfl
  split at hform
  · obtain ⟨-, -, -, hframe⟩ := make_run hp (by decide) (by simp) (by simp) plain_nil hform
    exact .inl ⟨_, hframe, rfl⟩
  · split at hform
    · obtain ⟨_, q, hwarn, hform⟩ := bind_ok hform
      obtain ⟨hq, -, -⟩ := (Coupling.warnAt_pairs (watching_sound base o) [] _ _).run hp (by simp) hwarn
      exact .inr (keywordsNode_run h hq hform)
    · exact .inr (keywordsNode_run h hp hform)

/-! ## Roots -/

theorem touched_of_graph (h : p'.graph = p.graph) : Touched p p' := by
  refine ⟨?_, ?_⟩ <;> rw [h]
  · exact .refl _
  · exact .refl _

theorem tame_named (name : String) : Tame [.named name] := by simp [Tame, Setting.isTame]

theorem nameDefinition_touched {s : Source} {fragment : String} {v : Value} {u : Unit}
    (hrun : nameDefinition s fragment v n p = (.ok u, p')) : Touched p p' := by
  unfold nameDefinition at hrun
  rw [bind_apply, get_apply] at hrun
  dsimp only at hrun
  split at hrun
  · exact touched_apply n (tame_named _) hrun
  · cases hrun
    exact touched_of_graph rfl

/-- a plain document has one entry: its root, converted and named -/
theorem importBy_plain {visit : Visit} {o : Options} {v : Value} {entries : List (String × Option Nat)}
    (hrun : importBy visit o [v] p = (.ok (.plain, entries), p')) :
    ∃ name n, rootEntry visit o v p = (.ok (name, n), p') ∧ entries = [(name, n)] := by
  unfold importBy at hrun
  dsimp only at hrun
  split at hrun
  · obtain ⟨es, q, -, hrun⟩ := bind_ok hrun
    cases hrun
  · split at hrun
    · obtain ⟨es, q, -, hrun⟩ := bind_ok hrun
      cases hrun
    · simp only [List.isEmpty_nil, Bool.not_true, Bool.false_eq_true, if_false] at hrun
      obtain ⟨⟨name, n⟩, q, hroot, hrun⟩ := bind_ok hrun
      cases hrun
      exact ⟨name, n, hroot, rfl⟩

/-- the document is added to no others, and its root is not begun -/
theorem openDocument_run {o : Options} {v : Value} {g : Graph} {i : Nat}
    (hrun : openDocument o v { graph := g } = (.ok i, p')) : i = 0 ∧ p'.sources = #[{ uri := o.baseUri, root := v }] := by
  unfold openDocument at hrun
  obtain ⟨j, q, hadd, hrun⟩ := bind_ok hrun
  cases hadd
  split at hrun <;> cases hrun <;> exact ⟨rfl, rfl⟩

theorem root_run {o : Options} {m : Dict Value} {type : String} (h : OfType m type) (ht : type ≠ "null") {g : Graph}
    (hg : g.Numbered) {entries : List (String × Option Nat)}
    (hrun : importDocuments o [.object m] { graph := g } = (.ok (.plain, entries), p)) :
    ∃ name n, entries = [(name, some n)] ∧ ((∃ f, p.graph.frame? n = some f ∧ f.kind = .custom) ∨
      ∃ depth q q', Underway g.size q ∧ typeNode o (convertUpTo o atBound depth 0) m "" type q = (.ok n, q') ∧ Touched q' p) := by
  rw [importDocuments, definition_eq] at hrun
  obtain ⟨name, r, hroot, rfl⟩ := importBy_plain hrun
  obtain ⟨i, p₁, hopen, hroot⟩ := bind_ok hroot
  obtain ⟨r', p₂, hvisit, hroot⟩ := bind_ok hroot
  have hw : Watched g.size { graph := g } { graph := g } := watched_start hg
  have hnone : ∀ b ∈ ([] : List (Option Nat)), Led g.size { graph := g } b := by simp
  obtain ⟨q₁, -, -, hw₁, -⟩ := openDocument_imports o (.object m) _ _ i p₁ (fun _ => rfl) hw hnone hopen
  obtain ⟨rfl, hsources⟩ := openDocument_run hopen
  have hsource : p₁.sources[0]? = some { uri := o.baseUri, root := .object m } := by rw [hsources]; rfl
  have hfresh : isBegun p₁ 0 "" = false := by
    unfold isBegun
    rw [hsource]
    rfl
  rcases define_cases 0 "" p₁ with ⟨r, hr, hbegun⟩ | ⟨-, s, v, hs, hv, hr⟩
  · rw [visitUpTo, hr _ p₁ rfl] at hvisit
    obtain ⟨-, -, -, htrue⟩ := hbegun r' (Prod.mk.inj hvisit).1
    rw [hfresh] at htrue
    cases htrue
  · obtain rfl := Option.some.inj (hsource.symm.trans hs)
    obtain rfl : v = .object m := (Option.some.inj hv).symm
    rw [visitUpTo, hr _ p₁ rfl] at hvisit
    obtain ⟨n, p₃, hconvert, hvisit⟩ := bind_ok hvisit
    obtain ⟨_, p₄, hname, hvisit⟩ := bind_ok hvisit
    cases hvisit
    -- what comes after the conversion only sets names
    obtain ⟨_, p₅, hget, hroot⟩ := bind_ok hroot
    cases hget
    obtain ⟨_, p₆, happly, hroot⟩ := bind_ok hroot
    cases hroot
    have htouched : Touched p₃ p := by
      refine (nameDefinition_touched hname).trans (.trans ?_ (touched_apply n (tame_named _) happly))
      exact touched_of_graph rfl
    refine ⟨_, n, rfl, ?_⟩
    cases hdepth : o.depth with
    | zero =>
      rw [hdepth] at hconvert
      cases hconvert
    | succ depth =>
      rw [hdepth, convertUpTo, convertWith, h.ref] at hconvert
      have hopened : Underway g.size (opened p₁ 0 "") := ⟨_, opened_watched hw₁ hsource hfresh⟩
      rcases schemaNode_run h ht hopened hconvert with ⟨f, hf, hk⟩ | ⟨q, q', hq, htype, htouch⟩
      · exact .inl ⟨f, htouched.frames.extends n f hf, hk⟩
      · exact .inr ⟨depth, q, q', hq, htype, htouch.trans htouched⟩

end Schemata.Import
