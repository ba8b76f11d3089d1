import Schemata.Graph.Load
import Schemata.Proofs.Steps

/-!
What loading changes, and what it leaves.

Loading names nodes, describes them, gives them hints, closes their references and freezes them. The number, the
kind, the options and the export hooks of a node stay, a frozen node stays frozen, and a load of nodes that are frozen already
does nothing.
-/

namespace Schemata

/-- what loading can make of a node -/
structure Node.Becomes (n m : Node) : Prop where
  id : m.id = n.id
  kind : m.kind = n.kind
  options : m.options = n.options
  onExport : m.onExport = n.onExport
  loaded : n.loaded = true → m.loaded = true

theorem Node.Becomes.refl (n : Node) : n.Becomes n := ⟨rfl, rfl, rfl, rfl, fun h => h⟩

theorem Node.Becomes.trans {n m k : Node} (h : n.Becomes m) (h' : m.Becomes k) : n.Becomes k :=
  ⟨h'.id.trans h.id, h'.kind.trans h.kind, h'.options.trans h.options, h'.onExport.trans h.onExport,
    fun hn => h'.loaded (h.loaded hn)⟩

namespace Graph

/-- every node is found under its own number -/
def Numbered (g : Graph) : Prop := ∀ id n, g.get? id = some n → n.id = id

theorem numbered_iff (g : Graph) : g.Numbered ↔ ∀ i : Fin g.nodes.size, g.nodes[i].id = i + 1 := by
  constructor
  · intro h i
    exact h (i + 1) g.nodes[i] (by simp [get?])
  · intro h id n hn
    unfold get? at hn
    split at hn
    · cases hn
    · obtain ⟨hlt, rfl⟩ := Array.getElem?_eq_some_iff.1 hn
      have := h ⟨id - 1, hlt⟩
      simp only [Fin.getElem_fin] at this
      omega

instance (g : Graph) : Decidable g.Numbered := decidable_of_iff _ g.numbered_iff.symm

/-- what all nodes have, the nodes that numbers lead to have -/
theorem forall_nodes {g : Graph} {P : Node → Prop} (h : ∀ n ∈ g.nodes, P n) {id : Nat} {n : Node}
    (hn : g.get? id = some n) : P n := by
  unfold Graph.get? at hn
  split at hn
  · cases hn
  · exact h n (Array.mem_of_getElem? hn)

/-- a later state of a graph: the same numbers, and each node become what loading makes of it -/
structure Later (g h : Graph) : Prop where
  some : ∀ {id n}, g.get? id = some n → ∃ m, h.get? id = some m ∧ n.Becomes m
  none : ∀ {id}, g.get? id = none → h.get? id = none

theorem Later.refl (g : Graph) : Later g g := ⟨fun {_ n} h => ⟨n, h, .refl n⟩, id⟩

theorem Later.trans {g h k : Graph} (h₁ : Later g h) (h₂ : Later h k) : Later g k := by
  refine ⟨fun hn => ?_, fun hn => h₂.none (h₁.none hn)⟩
  obtain ⟨m, hm, hnm⟩ := h₁.some hn
  obtain ⟨k, hk, hmk⟩ := h₂.some hm
  exact ⟨k, hk, hnm.trans hmk⟩

theorem Later.numbered {g h : Graph} (hl : Later g h) (hg : g.Numbered) : h.Numbered := by
  intro id m hm
  cases hn : g.get? id with
  | none => rw [hl.none hn] at hm; cases hm
  | some n =>
    obtain ⟨m', hm', hnm⟩ := hl.some hn
    obtain rfl : m = m' := Option.some.inj (hm.symm.trans hm')
    exact hnm.id.trans (hg id n hn)

theorem Later.isLoaded {g h : Graph} (hl : Later g h) {id : Nat} (hi : g.isLoaded id = true) : h.isLoaded id = true := by
  unfold Graph.isLoaded at hi ⊢
  cases hn : g.get? id with
  | none => simp [hn] at hi
  | some n =>
    obtain ⟨m, hm, hnm⟩ := hl.some hn
    rw [hn] at hi
    rw [hm]
    exact hnm.loaded hi

theorem get?_modify (g : Graph) (id i : Nat) (f : Node → Node) :
    (g.modify id f).get? i = if i = id then (g.get? i).map f else g.get? i := by
  unfold modify get?
  by_cases hid : id = 0
  · subst hid
    by_cases hi : i = 0 <;> simp [hi]
  · by_cases hi : i = 0
    · simp [hi, Ne.symm hid]
    · have hiff : id - 1 = i - 1 ↔ i = id := by omega
      simp [hi, hid, Array.getElem?_modify, hiff]

theorem later_modify {f : Node → Node} (hf : ∀ n : Node, n.Becomes (f n)) (g : Graph) (id : Nat) : Later g (g.modify id f) := by
  constructor
  · intro i n hn
    rw [get?_modify, hn]
    split
    · exact ⟨f n, rfl, hf n⟩
    · exact ⟨n, rfl, .refl n⟩
  · intro i hn
    rw [get?_modify, hn]
    split <;> rfl

theorem later_giveHint (key : String) (seen : List Nat) (fuel id : Nat) (g : Graph) :
    Later g (giveHint key seen fuel id g) := by
  induction fuel generalizing g seen id with
  | zero => exact .refl g
  | succ fuel ih =>
    rw [giveHint]
    split
    · exact .refl g
    · split
      · exact .refl g
      · have hm : Later g (g.modify id fun m => if m.hint = "" then { m with hint := key } else m) := by
          refine later_modify (fun n => ?_) g id
          split
          · exact ⟨rfl, rfl, rfl, rfl, fun h => h⟩
          · exact .refl n
        split
        · exact hm.trans (ih _ _ _)
        · exact hm

theorem later_giveHints (g : Graph) (fields : List (String × Nat)) : Later g (g.giveHints fields) := by
  induction fields generalizing g with
  | nil => exact .refl g
  | cons f rest ih => exact (later_giveHint _ _ _ _ g).trans (ih _)

end Graph

namespace GraphM

open Graph Steps

variable {α β : Type}

/-- the step leads to a later state of the graph -/
abbrev Proceeds (x : GraphM α) : Prop := Moves Later x

theorem proceeds_pure (a : α) : Proceeds (pure a) := Moves.pure Later.refl a

theorem proceeds_bind {x : GraphM α} {f : α → GraphM β} (hx : Proceeds x) (hf : ∀ a, Proceeds (f a)) : Proceeds (x >>= f) :=
  Moves.bind (R := Later) (fun _ _ _ => Later.trans) hx hf

theorem lift_proceeds (o : Outcome α) : Proceeds (lift o) := Later.refl

theorem graph_proceeds : Proceeds graph := Later.refl

theorem node_of_get? {g : Graph} {id : Nat} {n : Node} (hn : g.get? id = some n) : node id g = (.ok n, g) := by
  rw [node, hn]

theorem node_proceeds (id : Nat) : Proceeds (node id) := by
  intro g
  unfold node
  split <;> exact .refl g

theorem modify_proceeds {f : Node → Node} (hf : ∀ n : Node, n.Becomes (f n)) (id : Nat) : Proceeds (update (·.modify id f)) :=
  fun g => later_modify hf g id

theorem report_proceeds (e : Event) : Proceeds (report e) := fun _ => ⟨fun {_ n} h => ⟨n, h, .refl n⟩, id⟩

theorem change_proceeds {f : Node → Node} (hf : ∀ n : Node, n.Becomes (f n)) (id : Nat) : Proceeds (change id f) := by
  refine proceeds_bind (node_proceeds id) fun n => ?_
  split
  · exact lift_proceeds _
  · exact modify_proceeds hf id

theorem react_proceeds (id : Nat) (h : Hook) : Proceeds (react id h) := by
  unfold react
  split
  · exact lift_proceeds _
  · exact change_proceeds (by exact fun _ => ⟨rfl, rfl, rfl, rfl, fun h => h⟩) id
  · exact change_proceeds (by exact fun _ => ⟨rfl, rfl, rfl, rfl, fun h => h⟩) id
  · exact proceeds_pure _

theorem runHooks_proceeds (phase : String) (event : String → String → Event) (id : Nat) (hs : List Hook) :
    Proceeds (runHooks phase event id hs) := by
  induction hs with
  | nil => exact proceeds_pure _
  | cons h hs ih =>
    exact proceeds_bind (node_proceeds id) fun _ => proceeds_bind (fun g => react_proceeds id h g) fun _ =>
      proceeds_bind (node_proceeds id) fun _ => proceeds_bind (report_proceeds _) fun _ => ih

theorem resolve_proceeds (n : Node) : Proceeds (resolve n) := by
  unfold resolve
  split
  · split
    · refine proceeds_bind graph_proceeds fun g => ?_
      split
      · exact modify_proceeds (by exact fun _ => ⟨rfl, rfl, rfl, rfl, fun h => h⟩) _
      · exact lift_proceeds _
    · exact proceeds_pure _
  · exact proceeds_pure _

theorem loadOne_proceeds (id : Nat) : Proceeds (loadOne id) := by
  refine proceeds_bind (node_proceeds id) fun n => proceeds_bind (resolve_proceeds n) fun _ =>
    proceeds_bind (node_proceeds id) fun n => proceeds_bind (runHooks_proceeds _ _ _ _) fun _ =>
    proceeds_bind (node_proceeds id) fun n => ?_
  have freeze : Proceeds (update (·.modify id fun m => { m with loaded := true })) :=
    modify_proceeds (by exact fun _ => ⟨rfl, rfl, rfl, rfl, fun _ => rfl⟩) id
  dsimp only
  split
  · exact proceeds_bind (fun g => later_giveHints g _) fun _ => freeze
  · exact freeze

theorem loadFrom_proceeds (steps : Nat) (stack : List Nat) : Proceeds (loadFrom steps stack) := by
  induction steps generalizing stack with
  | zero => exact proceeds_pure _
  | succ steps ih =>
    unfold loadFrom
    refine proceeds_bind graph_proceeds fun g => ?_
    split
    · exact proceeds_pure _
    · exact proceeds_bind (loadOne_proceeds _) fun _ => proceeds_bind (node_proceeds _) fun n =>
        proceeds_bind graph_proceeds fun g => ih _

theorem load_proceeds (root : Option Nat) : Proceeds (load root) := by
  refine proceeds_bind graph_proceeds fun g => ?_
  split
  · exact lift_proceeds _
  · exact loadFrom_proceeds _ _

/-- a load of a frozen node does nothing -/
theorem load_of_loaded {g : Graph} (hg : g.Numbered) {id : Nat} (h : g.isLoaded id = true) :
    load (some id) g = (.ok (), g) := by
  cases hn : g.get? id with
  | none => simp [isLoaded, hn] at h
  | some n =>
    have hid := hg id n hn
    have hsize : g.size ≠ 0 := by
      intro h0
      have : g.nodes = #[] := Array.eq_empty_of_size_eq_zero h0
      simp [get?, this] at hn
    obtain ⟨k, hk⟩ := Nat.exists_eq_succ_of_ne_zero hsize
    have hload : load (some id) g = loadFrom g.size [n.id] g := by
      simp only [load, graph, bind_apply, Option.bind_some, hn]
    rw [hload, hk, hid, loadFrom, bind_apply]
    simp only [graph, List.dropWhile_cons, h, if_true, List.dropWhile_nil]
    rfl

end GraphM

end Schemata
