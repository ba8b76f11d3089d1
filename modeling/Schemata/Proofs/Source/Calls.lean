import Mathlib.Tactic
import Schemata.Proofs.Source.Formats

/-!
Which functions of a generated file call which.

`Program.walk` lists the nodes of a program with their addresses, each address once (`walk_nodup`), in the order in which
they get their functions (`walk_nodes`). `Function.calls` are the functions that a body hands values to, each with what it is
handed (`Slot`), and `Shape.targets` are the addresses of the nodes that are meant there.

Main result: `File.Made.closed`. Every call in a generated file leads to the function of the node that is meant, and every variable is
declared once and named once.
-/

namespace Schemata

/-! ## Addresses -/

/-- where a node stands in a program: in a definition or in the root, behind so many parts of each node on the way -/
structure Address where
  definition : Option String := none
  path : List Nat := []
  deriving Repr, DecidableEq

/-- the address of part `i` of a node -/
def Address.part (a : Address) (i : Nat) : Address := { a with path := a.path ++ [i] }

/-- does a node stand at this address or below it? -/
def Address.Covers (a b : Address) : Prop := a.definition = b.definition ∧ a.path <+: b.path

/-- the address that a reference leads to -/
def Address.ofReference (name : String) : Address := { definition := if name = "" then none else some name }

theorem Address.covers_refl (a : Address) : a.Covers a := ⟨rfl, List.prefix_rfl⟩

theorem Address.covers_of_part {a b : Address} {i : Nat} (h : (a.part i).Covers b) : a.Covers b :=
  ⟨h.1, (List.prefix_append _ _).trans h.2⟩

/-- an address is below one part at most -/
theorem Address.part_unique {a b : Address} {i j : Nat} (hi : (a.part i).Covers b) (hj : (a.part j).Covers b) : i = j := by
  have hpaths : a.path ++ [i] = a.path ++ [j] :=
    (List.prefix_of_prefix_length_le hi.2 hj.2 (by simp [part])).eq_of_length (by simp [part])
  simpa using hpaths

theorem Address.not_part_covers (a : Address) (i : Nat) : ¬ (a.part i).Covers a := fun h => by
  have := h.2.length_le
  simp [part] at this

namespace Shape

mutual

/-- the nodes of a shape with their addresses, each before what lies below it -/
def walk (a : Address) : Shape → List (Address × Shape)
  | absent => []
  | array b i l => (a, array b i l) :: walk (a.part 0) i
  | tuple b is r l => (a, tuple b is r l) :: (walkAll a 0 is ++ walk (a.part is.length) r)
  | object b fs x q => (a, object b fs x q) :: (walkFields a 0 fs ++ walk (a.part fs.length) x)
  | oneOf b vs d => (a, oneOf b vs d) :: walkAll a 0 vs
  | anyOf b vs => (a, anyOf b vs) :: walkAll a 0 vs
  | allOf b ps => (a, allOf b ps) :: walkAll a 0 ps
  | s => [(a, s)]

/-- the nodes of parts `i`, `i + 1`, … of the node at an address -/
def walkAll (a : Address) (i : Nat) : List Shape → List (Address × Shape)
  | [] => []
  | s :: ss => walk (a.part i) s ++ walkAll a (i + 1) ss

def walkFields (a : Address) (i : Nat) : List (String × Shape) → List (Address × Shape)
  | [] => []
  | (_, s) :: fs => walk (a.part i) s ++ walkFields a (i + 1) fs

end

variable {s : Shape} {ss : List Shape} {a : Address} {i : Nat}

theorem walkFields_eq (a : Address) (i : Nat) (fs : List (String × Shape)) :
    walkFields a i fs = walkAll a i (fs.map (·.2)) := by
  induction fs generalizing i with
  | nil => rfl
  | cons f fs ih => rw [walkFields, List.map_cons, walkAll, ih]

theorem walkAll_append (a : Address) (i : Nat) (ss ts : List Shape) :
    walkAll a i (ss ++ ts) = walkAll a i ss ++ walkAll a (i + ss.length) ts := by
  induction ss generalizing i with
  | nil => rfl
  | cons s ss ih => rw [List.cons_append, walkAll, ih, walkAll, List.append_assoc, List.length_cons, Nat.add_right_comm, Nat.add_assoc]

theorem walk_absent (h : s.isAbsent = true) : s.walk a = [] := by
  cases s <;> first | rfl | cases h

/-- a node comes first, then its parts one after the other -/
theorem walk_eq (h : s.isAbsent = false) : s.walk a = (a, s) :: walkAll a 0 s.parts := by
  cases s with
  | absent => cases h
  | array b i l => simp [walk, parts, walkAll]
  | tuple b is r l => simp [walk, parts, walkAll, walkAll_append]
  | object b fs x q => simp [walk, parts, walkAll, walkAll_append, walkFields_eq]
  | oneOf b vs d => rfl
  | anyOf b vs => rfl
  | allOf b ps => rfl
  | _ => rfl

theorem sizeOf_part {t : Shape} (h : t ∈ s.parts) : sizeOf t < sizeOf s := by
  cases s with
  | array b i l =>
    obtain rfl := List.mem_singleton.1 h
    simp only [array.sizeOf_spec]
    omega
  | tuple b is r l =>
    rcases List.mem_append.1 h with h | h
    · have := List.sizeOf_lt_of_mem h
      simp only [tuple.sizeOf_spec]
      omega
    · obtain rfl := List.mem_singleton.1 h
      simp only [tuple.sizeOf_spec]
      omega
  | object b fs x q =>
    rcases List.mem_append.1 h with h | h
    · obtain ⟨f, hf, rfl⟩ := List.mem_map.1 h
      have := List.sizeOf_lt_of_mem hf
      have : sizeOf f.2 < sizeOf f := by cases f; simp
      simp only [object.sizeOf_spec]
      omega
    · obtain rfl := List.mem_singleton.1 h
      simp only [object.sizeOf_spec]
      omega
  | oneOf b vs d =>
    have := List.sizeOf_lt_of_mem h
    simp only [oneOf.sizeOf_spec, parts] at *
    omega
  | anyOf b vs =>
    have := List.sizeOf_lt_of_mem h
    simp only [anyOf.sizeOf_spec, parts] at *
    omega
  | allOf b ps =>
    have := List.sizeOf_lt_of_mem h
    simp only [allOf.sizeOf_spec, parts] at *
    omega
  | _ => cases h

/-- what holds of a shape whenever it holds of its parts -/
theorem partsInduction {P : Shape → Prop} (step : ∀ s, (∀ t ∈ s.parts, P t) → P s) (s : Shape) : P s :=
  step s fun t _ => partsInduction step t
termination_by sizeOf s
decreasing_by exact sizeOf_part ‹_›

theorem nodesAll_append (ss ts : List Shape) : nodesAll (ss ++ ts) = nodesAll ss ++ nodesAll ts := by
  induction ss with
  | nil => rfl
  | cons s ss ih => rw [List.cons_append, nodesAll, ih, nodesAll, List.append_assoc]

theorem nodes_eq (h : s.isAbsent = false) : s.nodes = s :: nodesAll s.parts := by
  cases s <;> simp_all [nodes, parts, nodesAll, nodesAll_append, nodesFields_eq, isAbsent]

theorem map_walkAll (h : ∀ s ∈ ss, ∀ a, (s.walk a).map Prod.snd = s.nodes) (a : Address) (i : Nat) :
    (walkAll a i ss).map Prod.snd = nodesAll ss := by
  induction ss generalizing i with
  | nil => rfl
  | cons s ss ih =>
    rw [walkAll, List.map_append, h s (by simp), ih fun t ht => h t (List.mem_cons_of_mem s ht), nodesAll]

theorem map_walk (s : Shape) (a : Address) : (s.walk a).map Prod.snd = s.nodes := by
  induction s using partsInduction generalizing a with
  | step s ih =>
    cases habs : s.isAbsent with
    | true => cases s <;> first | rfl | cases habs
    | false => rw [walk_eq habs, nodes_eq habs, List.map_cons, map_walkAll fun t ht => ih t ht]

theorem length_walk (s : Shape) (a : Address) : (s.walk a).length = s.size := by
  rw [← length_nodes, ← map_walk s a, List.length_map]

theorem length_walkAll (a : Address) (i : Nat) (ss : List Shape) : (walkAll a i ss).length = sizeAll ss := by
  rw [← length_nodesAll, ← map_walkAll (fun s _ => map_walk s) a i, List.length_map]

/-! ## Each address once -/

theorem mem_walkAll {e : Address × Shape} :
    e ∈ walkAll a i ss ↔ ∃ (j : Nat) (s : Shape), ss[j]? = some s ∧ e ∈ s.walk (a.part (i + j)) := by
  induction ss generalizing i with
  | nil => simp [walkAll]
  | cons s ss ih =>
    rw [walkAll, List.mem_append, ih]
    constructor
    · rintro (h | ⟨j, t, hj, h⟩)
      · exact ⟨0, s, rfl, h⟩
      · exact ⟨j + 1, t, by simpa using hj, by rwa [← Nat.add_assoc, Nat.add_right_comm]⟩
    · rintro ⟨j, t, hj, h⟩
      cases j with
      | zero =>
        obtain rfl : s = t := by simpa using hj
        exact .inl h
      | succ j => exact .inr ⟨j, t, by simpa using hj, by rwa [Nat.add_right_comm, Nat.add_assoc]⟩

/-- all nodes of a shape stand at its address or below it -/
theorem walk_covers (s : Shape) {a : Address} {e : Address × Shape} (h : e ∈ s.walk a) : a.Covers e.1 := by
  induction s using partsInduction generalizing a with
  | step s ih =>
    cases habs : s.isAbsent with
    | true => simp [walk_absent habs] at h
    | false =>
      rw [walk_eq habs, List.mem_cons, mem_walkAll] at h
      rcases h with rfl | ⟨j, t, ht, h⟩
      · exact a.covers_refl
      · exact Address.covers_of_part (ih t (List.mem_of_getElem? ht) h)

theorem walkAll_nodup (h : ∀ s ∈ ss, ∀ a, ((s.walk a).map Prod.fst).Nodup) (a : Address) (i : Nat) :
    ((walkAll a i ss).map Prod.fst).Nodup := by
  induction ss generalizing i with
  | nil => exact List.nodup_nil
  | cons s ss ih =>
    rw [walkAll, List.map_append]
    refine (h s (by simp) _).append (ih (fun t ht => h t (List.mem_cons_of_mem s ht)) (i + 1)) ?_
    rintro b hb hb'
    obtain ⟨e, he, rfl⟩ := List.mem_map.1 hb
    obtain ⟨e', he', heq⟩ := List.mem_map.1 hb'
    obtain ⟨j, t, -, he'⟩ := mem_walkAll.1 he'
    have := Address.part_unique (walk_covers s he) (heq ▸ walk_covers t he')
    omega

theorem walk_nodup (s : Shape) (a : Address) : ((s.walk a).map Prod.fst).Nodup := by
  induction s using partsInduction generalizing a with
  | step s ih =>
    cases habs : s.isAbsent with
    | true =>
      rw [walk_absent habs]
      exact List.nodup_nil
    | false =>
      rw [walk_eq habs, List.map_cons, List.nodup_cons]
      refine ⟨fun hmem => ?_, walkAll_nodup ih a 0⟩
      obtain ⟨e, he, heq⟩ := List.mem_map.1 hmem
      obtain ⟨j, t, -, he⟩ := mem_walkAll.1 he
      exact a.not_part_covers _ (heq ▸ walk_covers t he)

end Shape

theorem nodup_eraseDups : ∀ l : List String, l.eraseDups.Nodup
  | [] => List.nodup_nil
  | a :: l => by
    rw [List.eraseDups_cons, List.nodup_cons]
    exact ⟨fun hmem => by simpa using List.mem_eraseDups.1 hmem, nodup_eraseDups _⟩
termination_by l => l.length
decreasing_by exact Nat.lt_succ_of_le (List.length_filter_le _ _)

namespace Program

/-- the nodes of a program with their addresses: those of the root, then those of the definitions in order -/
def walk (p : Program) : List (Address × Shape) :=
  p.root.walk {} ++ p.names.flatMap fun name => (p.definition name).walk { definition := some name }

/-- the address of node `k` -/
def address? (p : Program) (k : Nat) : Option Address := (p.walk[k]?).map Prod.fst

variable {p : Program}

theorem walk_nodes (p : Program) : p.walk.map Prod.snd = p.nodes := by
  simp only [walk, nodes, shapes, List.map_append, List.map_flatMap, Shape.map_walk, List.flatMap_cons, List.flatMap_map]

theorem names_nodup (p : Program) : p.names.Nodup := nodup_eraseDups p.order

theorem walk_nodup (p : Program) : (p.walk.map Prod.fst).Nodup := by
  have hdefinitions {names : List String} (h : names.Nodup) :
      ((names.flatMap fun name => (p.definition name).walk { definition := some name }).map Prod.fst).Nodup := by
    induction names with
    | nil => exact List.nodup_nil
    | cons name names ih =>
      obtain ⟨hname, hnames⟩ := List.nodup_cons.1 h
      rw [List.flatMap_cons, List.map_append]
      refine (Shape.walk_nodup _ _).append (ih hnames) ?_
      intro b hb hb'
      obtain ⟨e, he, rfl⟩ := List.mem_map.1 hb
      obtain ⟨e', he', heq⟩ := List.mem_map.1 hb'
      obtain ⟨m, hm, he'⟩ := List.mem_flatMap.1 he'
      have hone := (Shape.walk_covers _ he).1
      have htwo := (Shape.walk_covers _ he').1
      rw [heq, ← hone] at htwo
      exact hname (Option.some.inj htwo ▸ hm)
  rw [walk, List.map_append]
  refine (Shape.walk_nodup _ _).append (hdefinitions p.names_nodup) ?_
  intro b hb hb'
  obtain ⟨e, he, rfl⟩ := List.mem_map.1 hb
  obtain ⟨e', he', heq⟩ := List.mem_map.1 hb'
  obtain ⟨m, -, he'⟩ := List.mem_flatMap.1 he'
  have hone := (Shape.walk_covers _ he).1
  have htwo := (Shape.walk_covers _ he').1
  rw [heq, ← hone] at htwo
  cases htwo

end Program

/-! ## Calls and what they are meant for -/

namespace Source

/-- what of a value a function is called for -/
inductive Slot where
  | item
  | position (i : Nat)
  | rest
  | field (key : String)
  | additional
  | variant (i : Nat)
  | tag (t : String)
  | whole
  deriving Repr, DecidableEq

/-- the functions that a statement calls or passes on, in the order in which it names them -/
def Statement.calls : Statement → List (Slot × Nat)
  | .items f => [(.item, f)]
  | .tuple _ _ rest is => rest.toList.map (.rest, ·) ++ is.mapIdx fun i f => (.position i, f)
  | .field k f => [(.field k, f)]
  | .additional f _ => [(.additional, f)]
  | .anyOf fs => fs.mapIdx fun i f => (.variant i, f)
  | .oneOf fs => fs.mapIdx fun i f => (.variant i, f)
  | .tagged _ vs => vs.map fun (t, f) => (.tag t, f)
  | .call f => [(.whole, f)]
  | _ => []

def callsOf (ss : List Statement) : List (Slot × Nat) := ss.flatMap Statement.calls

def Function.calls (g : Function) : List (Slot × Nat) := callsOf g.body

end Source

open Source (Slot)

/-- the nodes that are meant by the calls of the function of a node, by their addresses -/
def Shape.targets (a : Address) : Shape → List (Slot × Address)
  | .array _ i _ => if i.isAbsent then [] else [(.item, a.part 0)]
  | .tuple _ is r _ =>
    (if r.isAbsent then [] else [(.rest, a.part is.length)]) ++ is.mapIdx fun i _ => (.position i, a.part i)
  | .object _ fs x q =>
    (fs.mapIdx fun i f => (.field f.1, a.part i))
      ++ (if q.unknown = .checked ∧ x.isAbsent = false then [(.additional, a.part fs.length)] else [])
  | .oneOf _ vs d =>
    if d.property = "" then vs.mapIdx fun i _ => (.variant i, a.part i)
    else (d.mapping.getD []).map fun (t, i) => (.tag t, a.part i.toNat)
  | .anyOf _ vs => vs.mapIdx fun i _ => (.variant i, a.part i)
  | .allOf _ ps => ps.mapIdx fun i _ => (.whole, a.part i)
  | .ref _ name => [(.whole, .ofReference name)]
  | _ => []

namespace Source

/-! ## Numbers -/

section Numbers

variable {α : Type} {ns : List α} {k : Nat}

theorem Placed.trans {m : Nat} {x y : List α} (hx : Placed ns k x) (hy : Placed x m y) : Placed ns (k + m) y := by
  obtain ⟨pre, post, rfl, rfl⟩ := hx
  obtain ⟨pre', post', rfl, rfl⟩ := hy
  exact ⟨pre ++ pre', post' ++ post, by simp, by simp⟩

theorem placed_refl (ns : List α) : Placed ns 0 ns := ⟨[], [], by simp, rfl⟩

variable {p : Program} {a : Address} {ss : List Shape} {i : Nat}

theorem length_numbers (k : Nat) (ss : List Shape) : (numbers k ss).length = ss.length := by
  induction ss generalizing k with
  | nil => rfl
  | cons s ss ih => rw [numbers, List.length_cons, List.length_cons, ih]

/-- part `j` is placed at the number that it gets -/
theorem placed_part {w : List (Address × Shape)} (h : Placed w k (Shape.walkAll a i ss)) (hs : ∀ s ∈ ss, s.isAbsent = false)
    {j : Nat} {s : Shape} (hj : ss[j]? = some s) :
    ∃ n, (numbers k ss)[j]? = some n ∧ Placed w n (s.walk (a.part (i + j))) := by
  induction ss generalizing k i j with
  | nil => cases hj
  | cons t ss ih =>
    rw [Shape.walkAll] at h
    simp only [numbers, hs t (by simp), Bool.false_eq_true, if_false]
    cases j with
    | zero =>
      obtain rfl : t = s := by simpa using hj
      exact ⟨k, rfl, h.left⟩
    | succ j =>
      have hnext := h.right
      rw [Shape.length_walk] at hnext
      obtain ⟨n, hn, hplaced⟩ := ih hnext (fun u hu => hs u (List.mem_cons_of_mem t hu)) (by simpa using hj)
      exact ⟨n, by simpa using hn, by rwa [Nat.add_right_comm, Nat.add_assoc] at hplaced⟩

/-- the number of a place is the one of the node that stands there -/
theorem Placed.address {s : Shape} (h : Placed p.walk k (s.walk a)) (hs : s.isAbsent = false) : p.address? k = some a := by
  rw [Shape.walk_eq hs] at h
  rw [Program.address?, h.head, Option.map_some]

/-- the number of a part leads to the part -/
theorem number_address (h : Placed p.walk k (Shape.walkAll a 0 ss)) (hs : ∀ s ∈ ss, s.isAbsent = false) (j : Nat) :
    (numbers k ss)[j]?.map p.address? = ss[j]?.map fun _ => some (a.part j) := by
  cases hj : ss[j]? with
  | none =>
    rw [List.getElem?_eq_none_iff, ← length_numbers k ss] at hj
    rw [List.getElem?_eq_none hj]
    rfl
  | some s =>
    obtain ⟨n, hn, hplaced⟩ := placed_part h hs hj
    rw [Nat.zero_add] at hplaced
    rw [hn, Option.map_some, hplaced.address (hs s (List.mem_of_getElem? hj))]
    rfl

end Numbers

/-! ## Entries -/

section Entries

variable {p : Program}

theorem placed_walk_root : Placed p.walk 0 (p.root.walk {}) := (placed_refl p.walk).left

/-- definitions are placed at their numbers, one behind the other -/
theorem placed_walk_definition {names : List String} {w : List (Address × Shape)} {k : Nat}
    (h : Placed w k (names.flatMap fun name => (p.definition name).walk { definition := some name }))
    (hs : ∀ name ∈ names, (p.definition name).isAbsent = false) {name : String} {n : Nat}
    (hn : (name, n) ∈ names.zip (numbers k (names.map p.definition))) :
    Placed w n ((p.definition name).walk { definition := some name }) := by
  induction names generalizing k with
  | nil => cases hn
  | cons m names ih =>
    rw [List.flatMap_cons] at h
    simp only [List.map_cons, numbers, hs m (by simp), Bool.false_eq_true, if_false, List.zip_cons_cons, List.mem_cons] at hn
    rcases hn with heq | hn
    · cases heq
      exact h.left
    · have hnext := h.right
      rw [Shape.length_walk] at hnext
      exact ih hnext (fun l hl => hs l (List.mem_cons_of_mem m hl)) hn

/-- the entry of a name leads to the node that a reference of the name leads to -/
theorem entryOf_address (hpresent : ∀ s ∈ p.shapes, s.isAbsent = false) {name : String} {n : Nat}
    (h : entryOf? (entries p) name = some n) : p.address? n = some (.ofReference name) := by
  have hroot := hpresent p.root List.mem_cons_self
  by_cases hname : name = ""
  · subst hname
    rw [entryOf_root hroot] at h
    obtain rfl : 0 = n := by simpa using h
    exact placed_walk_root.address hroot
  · have hlisted := entryOf_listed hroot hname h
    have hdefinitions := (placed_refl p.walk).right
    rw [Nat.zero_add, Shape.length_walk] at hdefinitions
    have hmem : p.definition name ∈ p.shapes := List.mem_cons_of_mem _ (List.mem_map_of_mem (List.of_mem_zip hlisted).1)
    have hplaced := placed_walk_definition hdefinitions
      (fun m hm => hpresent _ (List.mem_cons_of_mem _ (List.mem_map_of_mem hm))) hlisted
    rw [hplaced.address (hpresent _ hmem), Address.ofReference, if_neg hname]

end Entries

/-! ## Bodies -/

theorem callsOf_append (ss ts : List Statement) : callsOf (ss ++ ts) = callsOf ss ++ callsOf ts := List.flatMap_append

theorem callsOf_map {α : Type} (l : List α) {f : α → Statement} {g : α → Slot × Nat} (h : ∀ a, (f a).calls = [g a]) :
    callsOf (l.map f) = l.map g := by
  induction l with
  | nil => rfl
  | cons a l ih =>
    rw [List.map_cons, List.map_cons, ← ih, callsOf, List.flatMap_cons, h a]
    rfl

theorem callsOf_when {α : Type} (o : Option α) {f : α → Statement} (hf : ∀ a, (f a).calls = []) :
    callsOf (when? o f) = [] := by
  cases o <;> simp [when?, callsOf, hf]

theorem callsOf_pattern {make : Variable → Statement} (hmake : ∀ v, (make v).calls = []) {pattern : String}
    {ss : List Statement} (h : patternStatements make pattern ss) : callsOf ss = [] := by
  rcases h with ⟨-, rfl⟩ | ⟨-, n, rfl⟩
  · rfl
  · simp [callsOf, hmake]

theorem callsOf_format {format : String} {ss : List Statement} (h : formatStatements format ss) : callsOf ss = [] := by
  rcases h with ⟨-, rfl⟩ | ⟨f, -, rfl⟩ <;> rfl

theorem callsOf_string {q : Primitive} {pool pool' : Pool} {ss : List Statement} (hs : pool.Sound)
    (h : stringBody q pool = .ok (ss, pool')) : callsOf ss = [] := by
  rcases (stringBody_made hs h).2 with ⟨-, -, -, -, rfl⟩ | ⟨ps, fs, hps, hfs, rfl⟩
  · rfl
  · rw [← List.singleton_append]
    simp only [callsOf_append, callsOf_when q.minLength (f := Statement.minLength) fun _ => rfl,
      callsOf_when q.maxLength (f := Statement.maxLength) fun _ => rfl, callsOf_pattern (fun _ => rfl) hps,
      callsOf_format hfs, List.append_nil]
    rfl

theorem callsOf_number (a : Assertion) (q : Primitive) : callsOf (numberBody a q) = [] := by
  unfold numberBody
  split
  · rfl
  · rw [← List.singleton_append]
    simp only [callsOf_append, callsOf_when q.min (f := fun x => .minimum x q.exclusiveMin) fun _ => rfl,
      callsOf_when q.max (f := fun x => .maximum x q.exclusiveMax) fun _ => rfl,
      callsOf_when q.multipleOf (f := Statement.multipleOf) fun _ => rfl, List.append_nil]
    rfl

theorem callsOf_array (item : Option Nat) (l : ArrayLimits) :
    callsOf (arrayBody item l) = item.toList.map fun f => (.item, f) := by
  unfold arrayBody
  split
  · rename_i h
    simp only [Bool.and_eq_true, Option.isNone_iff_eq_none] at h
    rw [h.2]
    rfl
  · rw [← List.singleton_append]
    simp only [callsOf_append, callsOf_when l.minItems (f := Statement.minItems) fun _ => rfl,
      callsOf_when l.maxItems (f := Statement.maxItems) fun _ => rfl, List.append_nil]
    cases l.unique <;> cases item <;> rfl

theorem callsOf_tuple (o : Option Int) (u : Bool) (n : Int) (c : Bool) (rest : Option Nat) (is : List Nat) :
    callsOf (Statement.bind .array :: when? o Statement.maxItems ++ (if u then [Statement.unique] else [])
        ++ [Statement.tuple n c rest is])
      = rest.toList.map (.rest, ·) ++ is.mapIdx fun i f => (.position i, f) := by
  rw [← List.singleton_append]
  simp only [callsOf_append, callsOf_when o (f := Statement.maxItems) fun _ => rfl, List.append_nil]
  cases u <;> simp [callsOf, Statement.calls]

theorem callsOf_beyond (fields : List (String × Shape)) (additional : Option Nat) (q : ObjectPolicy) :
    callsOf (beyondStatements fields additional q) =
      if q.unknown = .checked then additional.toList.map fun f => (.additional, f) else [] := by
  unfold beyondStatements
  split_ifs with h h' h'
  · rw [h] at h'
    cases h'
  · rfl
  · cases additional <;> rfl
  · rfl

theorem callsOf_object {fields : List (String × Shape)} {ns : List Nat} {additional : Option Nat} {q : ObjectPolicy}
    {pool pool' : Pool} {ss : List Statement} (hs : pool.Sound)
    (h : objectBody fields ns additional q pool = .ok (ss, pool')) :
    callsOf ss = ((fields.map (·.1)).zip ns).map (fun (k, n) => (Slot.field k, n))
      ++ (if q.unknown = .checked then additional.toList.map fun f => (Slot.additional, f) else []) := by
  rcases (objectBody_made hs h).2 with ⟨hopen, rfl⟩ | ⟨ks, hks, rfl⟩
  · simp only [isOpen, Bool.and_eq_true, List.isEmpty_iff, Bool.or_eq_true, decide_eq_true_eq, Option.isNone_iff_eq_none]
      at hopen
    obtain ⟨⟨⟨-, rfl⟩, -⟩, hunknown⟩ := hopen
    rcases hunknown with hunknown | ⟨hunknown, rfl⟩ <;> simp [hunknown, callsOf, Statement.calls]
  · rw [← List.singleton_append]
    have hfields := callsOf_map ((fields.map (·.1)).zip ns) (f := fun (k, n) => .field k n) (g := fun (k, n) => (.field k, n))
      fun _ => rfl
    simp only [callsOf_append, hfields, callsOf_beyond, callsOf_pattern (fun _ => rfl) hks, List.append_nil]
    split <;> rfl

section Closed

variable {p : Program} {a : Address} {k : Nat} {ss : List Shape} {s : Shape}

/-- a call with the address of the node whose function is called -/
def resolve (p : Program) (c : Slot × Nat) : Slot × Option Address := (c.1, p.address? c.2)

/-- what a call is meant for, when it is found -/
def meant (t : Slot × Address) : Slot × Option Address := (t.1, some t.2)

/-- parts in a list, and one behind them -/
theorem placed_last (h : Placed p.walk k (Shape.walkAll a 0 (ss ++ [s]))) :
    Placed p.walk k (Shape.walkAll a 0 ss) ∧ Placed p.walk (k + Shape.sizeAll ss) (s.walk (a.part ss.length)) := by
  rw [Shape.walkAll_append, Nat.zero_add] at h
  have hlast := h.right
  rw [Shape.length_walkAll, Shape.walkAll, Shape.walkAll, List.append_nil] at hlast
  exact ⟨h.left, hlast⟩

/-- calls of the parts in a list -/
theorem resolve_parts (slot : Nat → Slot) (h : Placed p.walk k (Shape.walkAll a 0 ss)) (hs : ∀ s ∈ ss, s.isAbsent = false) :
    ((numbers k ss).mapIdx fun i f => (slot i, f)).map (resolve p) = (ss.mapIdx fun i _ => (slot i, a.part i)).map meant := by
  refine List.ext_getElem? fun j => ?_
  have hj := congrArg (Option.map (slot j, ·)) (number_address h hs j)
  simpa [resolve, meant, Function.comp_def] using hj

/-- calls of fields -/
theorem resolve_fields {fs : List (String × Shape)} (h : Placed p.walk k (Shape.walkAll a 0 (fs.map (·.2))))
    (hs : ∀ s ∈ fs.map (·.2), s.isAbsent = false) :
    (((fs.map (·.1)).zip (numbers k (fs.map (·.2)))).map fun (key, f) => (Slot.field key, f)).map (resolve p) =
      (fs.mapIdx fun i f => (Slot.field f.1, a.part i)).map meant := by
  refine List.ext_getElem? fun j => ?_
  have hj := number_address h hs j
  cases hf : fs[j]? with
  | none =>
    have hlength : fs.length ≤ j := List.getElem?_eq_none_iff.1 hf
    rw [List.getElem?_eq_none (by simp; omega), List.getElem?_eq_none (by simpa)]
  | some f =>
    rw [List.getElem?_map, hf, Option.map_some, Option.map_some] at hj
    obtain ⟨n, hn, haddress⟩ := Option.map_eq_some_iff.1 hj
    have hzip : ((fs.map (·.1)).zip (numbers k (fs.map (·.2))))[j]? = some (f.1, n) :=
      List.getElem?_zip_eq_some.2 ⟨by rw [List.getElem?_map, hf]; rfl, hn⟩
    simp [hzip, hf, resolve, meant, haddress]

/-- calls of the variants by tag -/
theorem resolve_tagged (h : Placed p.walk k (Shape.walkAll a 0 ss)) (hs : ∀ s ∈ ss, s.isAbsent = false)
    {mapping : List (String × Int)} {ts : List (String × Nat)} (ht : taggedVariants (numbers k ss) mapping = .ok ts) :
    (ts.map fun (t, f) => (Slot.tag t, f)).map (resolve p) =
      (mapping.map fun (t, i) => (Slot.tag t, a.part i.toNat)).map meant := by
  induction mapping generalizing ts with
  | nil =>
    obtain rfl : [] = ts := Except.ok.inj ht
    rfl
  | cons e mapping ih =>
    obtain ⟨t, i⟩ := e
    rw [taggedVariants] at ht
    split at ht
    · cases ht
    · rename_i n hn
      have hn : (numbers k ss)[i.toNat]? = some n := by
        split at hn
        · cases hn
        · exact hn
      obtain ⟨s, hi⟩ : ∃ s, ss[i.toNat]? = some s := by
        have hlt := (List.getElem?_eq_some_iff.1 hn).1
        rw [length_numbers] at hlt
        exact ⟨_, List.getElem?_eq_getElem hlt⟩
      have haddress : p.address? n = some (a.part i.toNat) := by
        have hj := number_address h hs i.toNat
        rw [hn, hi] at hj
        exact Option.some.inj hj
      obtain ⟨us, hus, rfl⟩ := except_map_ok ht
      rw [List.map_cons, List.map_cons, ih hus]
      simp [resolve, meant, haddress]

/-- the call of a part that may be missing -/
theorem resolve_present (slot : Slot) (h : Placed p.walk k (s.walk a)) :
    ((present s k).toList.map fun f => (slot, f)).map (resolve p) = (if s.isAbsent then [] else [(slot, a)]).map meant := by
  unfold present
  cases habs : s.isAbsent with
  | true => rfl
  | false => simp [resolve, meant, h.address habs]

/-- **Bodies.** The body of the function of a node calls the functions of the nodes that are meant. -/
theorem body_calls (hpresent : ∀ s ∈ p.shapes, s.isAbsent = false) (hk : Placed p.walk k (s.walk a)) (hs : s.Complete)
    {coerce : Bool} {pool pool' : Pool} {ts : List Statement} (hpool : pool.Sound)
    (h : body (entries p) coerce k s pool = .ok (ts, pool')) :
    (callsOf ts).map (resolve p) = (s.targets a).map meant := by
  have hparts (habs : s.isAbsent = false) : Placed p.walk (k + 1) (Shape.walkAll a 0 s.parts) := by
    rw [Shape.walk_eq habs] at hk
    exact hk.tail
  cases s with
  | absent =>
    obtain ⟨rfl, -⟩ := gen_pure_ok h
    rfl
  | foreign b => simp [body, fail] at h
  | any b =>
    obtain ⟨rfl, -⟩ := gen_pure_ok h
    rfl
  | primitive b q =>
    have hnone : callsOf ts = [] := by
      simp only [body, primitiveBody] at h
      cases hq : q.type <;> simp only [hq] at h
      case string => exact callsOf_string hpool h
      case number =>
        obtain ⟨rfl, -⟩ := gen_pure_ok h
        exact callsOf_number _ q
      case integer =>
        obtain ⟨rfl, -⟩ := gen_pure_ok h
        exact callsOf_number _ q
      case boolean =>
        obtain ⟨rfl, -⟩ := gen_pure_ok h
        rfl
      case null =>
        obtain ⟨rfl, -⟩ := gen_pure_ok h
        rfl
      case other => simp [fail] at h
    rw [hnone]
    rfl
  | array b i l =>
    obtain ⟨rfl, -⟩ := gen_pure_ok h
    have hitem : Placed p.walk (k + 1) (i.walk (a.part 0)) := (@placed_last p a (k + 1) [] i (hparts rfl)).2
    rw [callsOf_array]
    exact resolve_present .item hitem
  | tuple b is r l =>
    obtain ⟨rfl, -⟩ := gen_pure_ok h
    obtain ⟨hitems, hrest⟩ := placed_last (hparts rfl)
    rw [callsOf_tuple, List.map_append, resolve_present .rest hrest, resolve_parts .position hitems hs]
    exact (List.map_append ..).symm
  | object b fs x q =>
    obtain ⟨hfields, hbeyond⟩ := placed_last (hparts rfl)
    rw [callsOf_object hpool h, List.map_append, resolve_fields hfields hs]
    refine (congrArg (_ ++ ·) ?_).trans (List.map_append ..).symm
    rw [← Shape.sizeFields_eq, List.length_map] at hbeyond
    by_cases hq : q.unknown = .checked
    · simp only [hq, true_and, if_true]
      rw [resolve_present .additional hbeyond]
      cases x.isAbsent <;> rfl
    · simp only [hq, false_and, if_false]
      rfl
  | oneOf b vs d =>
    have hvariants : Placed p.walk (k + 1) (Shape.walkAll a 0 vs) := hparts rfl
    change _ = List.map meant (if d.property = "" then _ else _)
    simp only [body] at h
    split at h
    · rename_i hd
      obtain ⟨rfl, -⟩ := gen_pure_ok h
      rw [if_pos hd, ← resolve_parts .variant hvariants hs]
      exact congrArg _ (List.append_nil _)
    · rename_i hd
      rw [if_neg hd]
      cases ht : taggedVariants (numbers (k + 1) vs) (d.mapping.getD []) with
      | error e => simp [ht, fail] at h
      | ok us =>
        rw [ht] at h
        obtain ⟨rfl, -⟩ := gen_pure_ok h
        rw [← resolve_tagged hvariants hs ht]
        exact congrArg _ (List.append_nil _)
  | anyOf b vs =>
    obtain ⟨rfl, -⟩ := gen_pure_ok h
    have hvariants : Placed p.walk (k + 1) (Shape.walkAll a 0 vs) := hparts rfl
    rw [Shape.targets, ← resolve_parts .variant hvariants hs]
    exact congrArg _ (List.append_nil _)
  | allOf b ps =>
    obtain ⟨rfl, -⟩ := gen_pure_ok h
    have hall : Placed p.walk (k + 1) (Shape.walkAll a 0 ps) := hparts rfl
    have hwhole : (numbers (k + 1) ps).mapIdx (fun _ f => (Slot.whole, f)) = (numbers (k + 1) ps).map (Slot.whole, ·) :=
      List.ext_getElem? fun j => by rw [List.getElem?_mapIdx, List.getElem?_map]
    rw [Shape.targets, ← resolve_parts (fun _ => .whole) hall hs, callsOf_map _ fun _ => rfl, hwhole]
  | enum b vs =>
    simp only [body] at h
    cases hl : literals vs with
    | error e => simp [hl, fail] at h
    | ok us =>
      simp only [hl] at h
      obtain ⟨v, mid, -, h⟩ := gen_bind_ok h
      obtain ⟨rfl, -⟩ := gen_pure_ok h
      rfl
  | ref b name =>
    simp only [body] at h
    cases hn : entryOf? (entries p) name with
    | none => simp [hn, fail] at h
    | some n =>
      simp only [hn] at h
      obtain ⟨rfl, -⟩ := gen_pure_ok h
      simp [callsOf, Statement.calls, resolve, meant, Shape.targets, entryOf_address hpresent hn]

end Closed

/-! ## Files -/

section Files

variable {p : Program} {a : Address} {k : Nat} {e : Address × Shape}

theorem Placed.append_left {α : Type} {ns part : List α} (h : Placed ns k part) (post : List α) : Placed (ns ++ post) k part := by
  have := (placed_refl (ns ++ post)).left.trans h
  rwa [Nat.zero_add] at this

theorem Placed.append_right {α : Type} {ns part : List α} (h : Placed ns k part) (pre : List α) :
    Placed (pre ++ ns) (pre.length + k) part := by
  have := (placed_refl (pre ++ ns)).right.trans h
  rwa [Nat.zero_add] at this

/-- nodes are placed in lists that follow each other as they are in each list -/
theorem placed_flatMap {α : Type} {l : List α} {f : α → List (Address × Shape)}
    (h : ∀ x ∈ l, ∀ k e, (f x)[k]? = some e → Placed (f x) k (e.2.walk e.1)) (hk : (l.flatMap f)[k]? = some e) :
    Placed (l.flatMap f) k (e.2.walk e.1) := by
  induction l generalizing k with
  | nil => cases hk
  | cons x l ih =>
    rw [List.flatMap_cons] at hk ⊢
    rcases Nat.lt_or_ge k (f x).length with hlt | hge
    · rw [List.getElem?_append_left hlt] at hk
      exact (h x (by simp) k e hk).append_left _
    · rw [List.getElem?_append_right hge] at hk
      have := (ih (fun y hy => h y (List.mem_cons_of_mem x hy)) hk).append_right (f x)
      rwa [Nat.add_sub_cancel' hge] at this

theorem walkAll_eq_flatMap (a : Address) (i : Nat) (ss : List Shape) :
    Shape.walkAll a i ss = (ss.zipIdx i).flatMap fun e => e.1.walk (a.part e.2) := by
  induction ss generalizing i with
  | nil => rfl
  | cons s ss ih => rw [Shape.walkAll, ih, List.zipIdx_cons, List.flatMap_cons]

/-- a node is placed at its number, with all that lies below it -/
theorem placed_walk (s : Shape) (h : (s.walk a)[k]? = some e) : Placed (s.walk a) k (e.2.walk e.1) := by
  induction s using Shape.partsInduction generalizing a k e with
  | step s ih =>
    cases habs : s.isAbsent with
    | true => simp [Shape.walk_absent habs] at h
    | false =>
      have hwhole := Shape.walk_eq (a := a) habs
      cases k with
      | zero =>
        obtain rfl : (a, s) = e := by simpa [hwhole] using h
        exact placed_refl _
      | succ k =>
        rw [hwhole, List.getElem?_cons_succ, walkAll_eq_flatMap] at h
        have hparts := placed_flatMap (fun x hx _ _ => ih x.1 (List.fst_mem_of_mem_zipIdx hx)) h
        rw [hwhole, walkAll_eq_flatMap, ← List.singleton_append, Nat.add_comm]
        exact hparts.append_right [(a, s)]

theorem placed_program (h : p.walk[k]? = some e) : Placed p.walk k (e.2.walk e.1) := by
  have heq : p.walk = ((p.root, {}) :: p.names.map fun name => (p.definition name, { definition := some name })).flatMap
      fun t : Shape × Address => t.1.walk t.2 := by
    rw [Program.walk, List.flatMap_cons, List.flatMap_map]
  rw [heq] at h ⊢
  exact placed_flatMap (fun t _ _ _ => placed_walk t.1) h

end Files

/-- **Closed files.** The file has what it names: a function for each node of the program, and the variables of its functions. -/
structure File.Closed (p : Program) (f : File) : Prop where
  /-- the functions are those of the nodes, each once -/
  defined : f.functions.map Function.number = List.range p.nodes.length
  /-- checking begins at the root -/
  entry : p.address? f.entry = some {}
  /-- the function of a node calls the functions of the nodes that are meant, and no others -/
  calls : ∀ (k : Nat) (a : Address) (s : Shape) (g : Function), p.walk[k]? = some (a, s) → f.functions[k]? = some g →
    g.calls.map (resolve p) = (s.targets a).map meant
  /-- no call leads to a function that is missing -/
  within : ∀ g ∈ f.functions, ∀ c ∈ g.calls, c.2 < p.nodes.length
  /-- no two variables go by one name -/
  distinct : (f.vars.map Variable.name).Nodup
  /-- the functions name the variables that are declared, each once -/
  named : f.functions.flatMap (fun g => g.variables.map Variable.name) = f.vars.map Variable.name

theorem File.Made.closed {p : Program} {o : Options} {f : File} (h : f.Made p o)
    (hpresent : ∀ s ∈ p.shapes, s.isAbsent = false) (hcomplete : ∀ s ∈ p.nodes, s.Complete) : f.Closed p := by
  have hroot := hpresent p.root List.mem_cons_self
  have hcalls : ∀ (k : Nat) (a : Address) (s : Shape) (g : Function), p.walk[k]? = some (a, s) → f.functions[k]? = some g →
      g.calls.map (resolve p) = (s.targets a).map meant := by
    intro k a s g hk hg
    have hnode : p.nodes[k]? = some s := by
      rw [← Program.walk_nodes, List.getElem?_map, hk]
      rfl
    obtain ⟨g', hg', hof⟩ := h.functions k s hnode
    obtain rfl : g = g' := Option.some.inj (hg.symm.trans hg')
    obtain ⟨pool, pool', hsound, hbody⟩ := hof.body
    exact body_calls hpresent (placed_program hk) (hcomplete s (List.mem_of_getElem? hnode)) hsound hbody
  have hlength : p.walk.length = p.nodes.length := by rw [← Program.walk_nodes, List.length_map]
  refine ⟨?_, ?_, hcalls, fun g hg c hc => ?_, ?_, ?_⟩
  · refine List.ext_getElem (by simp [h.count]) fun k hk _ => ?_
    have hlt : k < p.nodes.length := by simpa [h.count] using hk
    obtain ⟨g, hg, hof⟩ := h.functions k _ (List.getElem?_eq_getElem hlt)
    rw [List.getElem_map, List.getElem_range, (List.getElem?_eq_some_iff.1 hg).2, hof.number]
  · rw [h.entry, entryOf_root hroot, Option.getD_some]
    exact placed_walk_root.address hroot
  · obtain ⟨k, hk⟩ := List.mem_iff_getElem?.1 hg
    have hlt : k < p.walk.length := by
      rw [hlength, ← h.count]
      exact (List.getElem?_eq_some_iff.1 hk).1
    obtain ⟨e, he⟩ : ∃ e, p.walk[k]? = some e := ⟨_, List.getElem?_eq_getElem hlt⟩
    have hmem : resolve p c ∈ (e.2.targets e.1).map meant := by
      rw [← hcalls k e.1 e.2 g he hk]
      exact List.mem_map_of_mem hc
    obtain ⟨t, -, ht⟩ := List.mem_map.1 hmem
    have haddress : p.address? c.2 = some t.2 := (congrArg Prod.snd ht).symm
    obtain ⟨d, hd, -⟩ := Option.map_eq_some_iff.1 haddress
    rw [← hlength]
    exact (List.getElem?_eq_some_iff.1 hd).1
  · have hnames : (f.vars.map Variable.number).Pairwise (· ≠ ·) := h.distinct
    rw [List.pairwise_map] at hnames
    exact List.pairwise_map.2 (hnames.imp fun hne heq => hne (number_of_name heq))
  · rw [← h.vars, List.map_flatMap]

end Source

end Schemata
