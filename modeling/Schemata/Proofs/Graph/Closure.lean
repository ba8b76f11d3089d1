import Mathlib.Data.List.TakeWhile
import Schemata.Proofs.Graph.Loading

/-!
What a load that succeeds has closed.

A load freezes one node after the other and passes over what is frozen already. A walk that is broken off therefore
leaves frozen nodes behind whose children are not loaded, and a later load passes over those too. `Walked` is what a
walk keeps: each node that it has frozen has its target resolved, and its children are frozen or still on the stack.
`load_closes` says what that is worth at the end: everything that the root reaches is loaded exactly when no node
frozen by an earlier load has kept a child that is not, and after loads that all succeeded there is no such node.
-/

namespace Schemata

/-- what a load turns on in a node: where it leads, what it was put off to, and whether it is frozen -/
def Node.links (n : Node) : List Nat × Option Deferred × Bool := (n.children, n.deferred, n.loaded)

namespace Graph

/-! ## Reaching -/

/-- one node is a child of another -/
def Leads (g : Graph) (a b : Nat) : Prop := ∃ n, g.get? a = some n ∧ b ∈ n.children ∧ (g.get? b).isSome = true

instance (g : Graph) (a b : Nat) : Decidable (g.Leads a b) :=
  decidable_of_iff ((g.get? a).any (fun n => decide (b ∈ n.children)) = true ∧ (g.get? b).isSome = true) <| by
    unfold Leads
    cases g.get? a <;> simp

/-- a node is reached from another through children -/
def Attains (g : Graph) : Nat → Nat → Prop := Relation.ReflTransGen g.Leads

/-- the node is frozen, and a target that was put off has been found -/
def Finished (g : Graph) (id : Nat) : Prop :=
  ∃ n, g.get? id = some n ∧ n.loaded = true ∧ (n.deferred.isSome = true → n.children ≠ [])

/-- no frozen node waits for its target -/
def Resolved (g : Graph) : Prop := ∀ id, g.isLoaded id = true → g.Finished id

/-- the children of frozen nodes are frozen -/
def Closed (g : Graph) : Prop := ∀ a b, g.isLoaded a = true → g.Leads a b → g.isLoaded b = true

theorem isLoaded_iff {g : Graph} {id : Nat} : g.isLoaded id = true ↔ ∃ n, g.get? id = some n ∧ n.loaded = true := by
  unfold isLoaded
  cases g.get? id <;> simp

theorem Finished.isLoaded {g : Graph} {id : Nat} (h : g.Finished id) : g.isLoaded id = true := by
  obtain ⟨n, hn, hl, -⟩ := h
  exact isLoaded_iff.2 ⟨n, hn, hl⟩

/-- a graph that was never loaded has nothing frozen -/
theorem not_isLoaded_of_fresh {g : Graph} (h : ∀ n ∈ g.nodes, n.loaded = false) (id : Nat) : g.isLoaded id = false := by
  cases hn : g.get? id with
  | none => simp [isLoaded, hn]
  | some n => simp [isLoaded, hn, forall_nodes h hn]

theorem resolved_of_fresh {g : Graph} (h : ∀ n ∈ g.nodes, n.loaded = false) : g.Resolved := by
  intro id hid
  rw [not_isLoaded_of_fresh h id] at hid
  cases hid

theorem closed_of_fresh {g : Graph} (h : ∀ n ∈ g.nodes, n.loaded = false) : g.Closed := by
  intro a b ha
  rw [not_isLoaded_of_fresh h a] at ha
  cases ha

/-! ## Steps that leave links alone -/

/-- the graphs have the same links, but for those of the nodes that `but` holds of -/
structure SameLinks (but : Nat → Prop) (g h : Graph) : Prop where
  size : h.size = g.size
  links : ∀ id, ¬ but id → (h.get? id).map Node.links = (g.get? id).map Node.links

variable {but : Nat → Prop} {g h k : Graph}

theorem SameLinks.refl (g : Graph) : SameLinks but g g := ⟨rfl, fun _ _ => rfl⟩

theorem SameLinks.trans (h₁ : SameLinks but g h) (h₂ : SameLinks but h k) : SameLinks but g k :=
  ⟨h₂.size.trans h₁.size, fun id hid => (h₂.links id hid).trans (h₁.links id hid)⟩

theorem SameLinks.mono {more : Nat → Prop} (hl : SameLinks but g h) (hm : ∀ id, but id → more id) : SameLinks more g h :=
  ⟨hl.size, fun id hid => hl.links id fun hb => hid (hm id hb)⟩

theorem SameLinks.get? (hl : SameLinks but g h) {id : Nat} (hid : ¬ but id) {n : Node} (hn : g.get? id = some n) :
    ∃ m, h.get? id = some m ∧ m.links = n.links := by
  have := hl.links id hid
  rw [hn] at this
  exact Option.map_eq_some_iff.1 this

theorem SameLinks.isLoaded (hl : SameLinks but g h) {id : Nat} (hid : ¬ but id) : h.isLoaded id = g.isLoaded id := by
  have hany (g : Graph) : g.isLoaded id = ((g.get? id).map Node.links).any (·.2.2) := by
    unfold Graph.isLoaded
    cases g.get? id <;> rfl
  rw [hany, hany, hl.links id hid]

theorem sameLinks_modify {f : Node → Node} (id : Nat) (hf : ¬ but id → ∀ n : Node, (f n).links = n.links) (g : Graph) :
    SameLinks but g (g.modify id f) := by
  constructor
  · unfold modify size
    split <;> simp
  · intro i hi
    rw [get?_modify]
    split
    · subst i
      cases g.get? id with
      | none => rfl
      | some n => simp [hf hi n]
    · rfl

/-- whatever is done to a node, the links of the others stay -/
theorem sameLinks_modify_self (id : Nat) (f : Node → Node) (g : Graph) : SameLinks (· = id) g (g.modify id f) := by
  refine sameLinks_modify id ?_ g
  exact fun h => absurd rfl h

theorem sameLinks_giveHint (key : String) (seen : List Nat) (fuel id : Nat) (g : Graph) :
    SameLinks but g (giveHint key seen fuel id g) := by
  induction fuel generalizing g seen id with
  | zero => exact .refl g
  | succ fuel ih =>
    rw [giveHint]
    split
    · exact .refl g
    · split
      · exact .refl g
      · have hm : SameLinks but g (g.modify id fun m => if m.hint = "" then { m with hint := key } else m) := by
          refine sameLinks_modify id (fun _ n => ?_) g
          split <;> rfl
        split
        · exact hm.trans (ih _ _ _)
        · exact hm

theorem sameLinks_giveHints (g : Graph) (fields : List (String × Nat)) : SameLinks but g (g.giveHints fields) := by
  induction fields generalizing g with
  | nil => exact .refl g
  | cons f rest ih => exact (sameLinks_giveHint _ _ _ _ g).trans (ih _)

end Graph

namespace GraphM

open Graph Steps

variable {α β : Type}

/-- the step leaves all links alone but those of the given node -/
abbrev Spares (id : Nat) (x : GraphM α) : Prop := Moves (SameLinks (· = id)) x

/-- the step leaves all links alone -/
abbrev Keeps (x : GraphM α) : Prop := Moves (SameLinks fun _ => False) x

theorem keeps_pure (a : α) : Keeps (pure a) := Moves.pure SameLinks.refl a

theorem keeps_bind {x : GraphM α} {f : α → GraphM β} (hx : Keeps x) (hf : ∀ a, Keeps (f a)) : Keeps (x >>= f) :=
  Moves.bind (R := SameLinks fun _ => False) (fun _ _ _ => SameLinks.trans) hx hf

theorem lift_keeps (o : Outcome α) : Keeps (lift o) := SameLinks.refl

theorem node_keeps (id : Nat) : Keeps (node id) := by
  intro g
  unfold node
  split <;> exact .refl g

theorem report_keeps (e : Event) : Keeps (report e) := fun _ => ⟨rfl, fun _ _ => rfl⟩

theorem change_keeps {f : Node → Node} (hf : ∀ n : Node, (f n).links = n.links) (id : Nat) : Keeps (change id f) := by
  refine keeps_bind (node_keeps id) fun n => ?_
  split
  · exact lift_keeps _
  · exact fun g => sameLinks_modify id (fun _ => hf) g

theorem react_keeps (id : Nat) (h : Hook) : Keeps (react id h) := by
  unfold react
  split
  · exact lift_keeps _
  · exact change_keeps (by exact fun _ => rfl) id
  · exact change_keeps (by exact fun _ => rfl) id
  · exact keeps_pure _

theorem runHooks_keeps (phase : String) (event : String → String → Event) (id : Nat) (hs : List Hook) :
    Keeps (runHooks phase event id hs) := by
  induction hs with
  | nil => exact keeps_pure _
  | cons h hs ih =>
    exact keeps_bind (node_keeps id) fun _ => keeps_bind (fun g => react_keeps id h g) fun _ =>
      keeps_bind (node_keeps id) fun _ => keeps_bind (report_keeps _) fun _ => ih

/-! ## Loading one node -/

/-- what comes between resolving a node and freezing it -/
def settle (id : Nat) : GraphM Unit := do
  runHooks "onLoad" Event.load id (← node id).onLoad
  let n ← node id
  if n.kind = .object then update (·.giveHints (n.objectOptions.keys.zip n.children)) else pure ()

/-- resolves, settles, freezes -/
theorem loadOne_eq (id : Nat) : loadOne id =
    node id >>= fun n => resolve n >>= fun _ => settle id >>= fun _ =>
      update (·.modify id fun m => { m with loaded := true }) := by
  simp only [loadOne, settle, bind_assoc]
  refine bind_congr fun n => bind_congr fun _ => bind_congr fun m => bind_congr fun _ => bind_congr fun k => ?_
  split <;> rfl

theorem settle_keeps (id : Nat) : Keeps (settle id) := by
  refine keeps_bind (node_keeps id) fun n => keeps_bind (runHooks_keeps _ _ _ _) fun _ =>
    keeps_bind (node_keeps id) fun n => ?_
  split
  · exact fun g => sameLinks_giveHints g _
  · exact keeps_pure _

/-- resolving a node changes its children at most, and finds a target that was put off -/
theorem resolve_spec {g h : Graph} {n : Node} (hn : g.get? n.id = some n) {r : Outcome Unit}
    (hr : resolve n g = (r, h)) : SameLinks (· = n.id) g h ∧
      ∃ m, h.get? n.id = some m ∧ m.deferred = n.deferred ∧ m.loaded = n.loaded ∧
        (r = .ok () → m.deferred.isSome = true → m.children ≠ []) := by
  unfold resolve at hr
  cases hd : n.deferred with
  | none =>
    simp only [hd] at hr
    cases hr
    exact ⟨.refl g, n, hn, hd, rfl, fun _ h => by simp [hd] at h⟩
  | some d =>
    simp only [hd] at hr
    split at hr
    · rw [bind_apply] at hr
      simp only [graph] at hr
      cases ht : g.target? d <;> simp only [ht] at hr
      case none =>
        cases hr
        exact ⟨.refl g, n, hn, hd, rfl, fun h => by cases h⟩
      case some t =>
        cases hr
        refine ⟨sameLinks_modify_self n.id _ g, { n with children := [t.id] }, ?_, hd, rfl, by simp⟩
        rw [get?_modify, if_pos rfl, hn]
        rfl
    · rename_i hc
      cases hr
      exact ⟨.refl g, n, hn, hd, rfl, fun _ _ h => hc (by simp [h])⟩

/-- **One step of a walk.** Loading a node leaves the links of all others alone; it ends with the node finished, or fails and leaves
it as little frozen as before. -/
theorem loadOne_spec {g h : Graph} (hg : g.Numbered) {id : Nat} {r : Outcome Unit} (hr : loadOne id g = (r, h))
    (hl : g.isLoaded id = false) :
    SameLinks (· = id) g h ∧ (r = .ok () → h.Finished id) ∧ (r ≠ .ok () → h.isLoaded id = false) := by
  rw [loadOne_eq, bind_apply] at hr
  cases hn : g.get? id with
  | none =>
    simp only [node, hn] at hr
    cases hr
    exact ⟨.refl g, fun h => (by cases h), fun _ => hl⟩
  | some n =>
    simp only [node, hn] at hr
    obtain rfl : n.id = id := hg id n hn
    have hloaded : n.loaded = false := by simpa [isLoaded, hn] using hl
    rw [bind_apply] at hr
    rcases hres : resolve n g with ⟨r₁, g₁⟩
    obtain ⟨hlinks, m, hm, hd, hml, htarget⟩ := resolve_spec hn hres
    rw [hres] at hr
    rcases r₁ with e | ⟨⟩
    · cases hr
      exact ⟨hlinks, fun h => (by cases h), fun _ => by simp [isLoaded, hm, hml, hloaded]⟩
    · dsimp only at hr
      rw [bind_apply] at hr
      rcases hset : settle n.id g₁ with ⟨r₂, g₂⟩
      have hkeeps := settle_keeps n.id g₁
      rw [hset] at hr hkeeps
      obtain ⟨k, hk, hkm⟩ := SameLinks.get? hkeeps (show ¬ False from fun h => h) hm
      obtain ⟨hkc, hkd, hkl⟩ : k.children = m.children ∧ k.deferred = m.deferred ∧ k.loaded = m.loaded := by
        simpa [Node.links] using hkm
      have hfirst := hlinks.trans (hkeeps.mono fun _ => False.elim)
      rcases r₂ with e | ⟨⟩
      · cases hr
        exact ⟨hfirst, fun h => (by cases h), fun _ => by simp [isLoaded, hk, hkl, hml, hloaded]⟩
      · cases hr
        refine ⟨hfirst.trans (sameLinks_modify_self n.id _ g₂), fun _ => ?_, fun h => absurd rfl h⟩
        refine ⟨{ k with loaded := true }, by rw [get?_modify, if_pos rfl, hk]; rfl, rfl, fun h => ?_⟩
        rw [show ({ k with loaded := true } : Node).children = m.children from hkc]
        exact htarget rfl (by rwa [← hkd])

end GraphM

/-! ## A walk -/

namespace Graph

/-- the nodes that are not frozen -/
def open_ (g : Graph) : Finset Nat := (Finset.range (g.size + 1)).filter fun id => (g.get? id).any (!·.loaded)

theorem mem_open {g : Graph} {id : Nat} : id ∈ g.open_ ↔ (g.get? id).isSome = true ∧ g.isLoaded id = false := by
  have hlt (n : Node) (h : g.get? id = some n) : id < g.size + 1 := by
    unfold get? at h
    split at h
    · cases h
    · obtain ⟨hlt, -⟩ := Array.getElem?_eq_some_iff.1 h
      unfold size
      omega
  unfold open_ isLoaded
  rw [Finset.mem_filter, Finset.mem_range]
  cases h : g.get? id with
  | none => simp
  | some n => simpa [h] using fun _ => hlt n h

/-- what a walk keeps that began at `g` and has come to `h`: the links of what was frozen before stay, each node that the walk has
frozen is finished, and its children are frozen or still on the stack -/
structure Walked (g h : Graph) (stack : List Nat) : Prop where
  later : Later g h
  links : SameLinks (fun id => g.isLoaded id = false) g h
  finished : ∀ a, h.isLoaded a = true → g.isLoaded a = false → h.Finished a
  children : ∀ a b, h.isLoaded a = true → g.isLoaded a = false → h.Leads a b → h.isLoaded b = true ∨ b ∈ stack
  stacked : ∀ a ∈ stack, (h.get? a).isSome = true

theorem Walked.start (g : Graph) {stack : List Nat} (hs : ∀ a ∈ stack, (g.get? a).isSome = true) : Walked g g stack where
  later := .refl g
  links := .refl g
  finished a h h' := by rw [h] at h'; cases h'
  children a b h h' := by rw [h] at h'; cases h'
  stacked := hs

theorem mem_stack {h : Graph} {stack : List Nat} {a : Nat} (ha : a ∈ stack) :
    h.isLoaded a = true ∨ a ∈ stack.dropWhile h.isLoaded := by
  rw [← List.takeWhile_append_dropWhile (p := h.isLoaded) (l := stack), List.mem_append] at ha
  exact ha.imp_left fun ha => List.mem_takeWhile_imp ha

/-- what is frozen may leave the stack -/
theorem Walked.drop {g h : Graph} {stack : List Nat} (hw : Walked g h stack) : Walked g h (stack.dropWhile h.isLoaded) where
  later := hw.later
  links := hw.links
  finished := hw.finished
  children a b ha hga hab := by
    rcases hw.children a b ha hga hab with hb | hb
    · exact .inl hb
    · exact mem_stack hb
  stacked a ha := hw.stacked a (List.dropWhile_subset _ ha)

/-- what was frozen before the walk leads where it led -/
theorem Walked.leads {g h : Graph} {stack : List Nat} (hw : Walked g h stack) {a b : Nat} (ha : g.isLoaded a = true)
    (hab : h.Leads a b) : g.Leads a b := by
  obtain ⟨m, hm, hbm, hb⟩ := hab
  have hlinks := hw.links.links a (by simp [ha])
  rw [hm] at hlinks
  obtain ⟨n, hn, hnm⟩ := Option.map_eq_some_iff.1 hlinks.symm
  refine ⟨n, hn, ?_, ?_⟩
  · rwa [show n.children = m.children from congrArg (·.1) hnm]
  · cases hgb : g.get? b with
    | some _ => rfl
    | none => rw [hw.later.none hgb] at hb; cases hb

/-- a walk that has come to its end leaves the graph closed if it was -/
theorem Walked.closed {g h : Graph} (hw : Walked g h []) (hg : g.Closed) : h.Closed := by
  intro a b ha hab
  cases hga : g.isLoaded a with
  | false => exact (hw.children a b ha hga hab).resolve_right (by simp)
  | true => exact hw.later.isLoaded (hg a b hga (hw.leads hga hab))

theorem Finished.sameLinks {g h : Graph} {a : Nat} (ha : g.Finished a) (hl : SameLinks but g h) (hbut : ¬ but a) :
    h.Finished a := by
  obtain ⟨n, hn, hnl, hnt⟩ := ha
  obtain ⟨m, hm, hmn⟩ := hl.get? hbut hn
  simp only [Node.links, Prod.mk.injEq] at hmn
  exact ⟨m, hm, hmn.2.2.trans hnl, by rw [hmn.1, hmn.2.1]; exact hnt⟩

/-- links that a step leaves alone lead where they led -/
theorem SameLinks.leads {id : Nat} {g h : Graph} (hl : SameLinks (· = id) g h) {a b : Nat} (ha : a ≠ id)
    (hab : h.Leads a b) (hb : (g.get? b).isSome = true) : g.Leads a b := by
  obtain ⟨m, hm, hbm, -⟩ := hab
  have := hl.links a ha
  rw [hm] at this
  obtain ⟨n, hn, hnm⟩ := Option.map_eq_some_iff.1 this.symm
  refine ⟨n, hn, ?_, hb⟩
  rwa [show n.children = m.children from congrArg (·.1) hnm]

end Graph

namespace GraphM

open Graph Steps

/-- the walk goes on: the node on top of the stack is frozen, and its children come before the rest -/
theorem walked_step {g h k : Graph} (hg : g.Numbered) {id : Nat} {rest : List Nat} (hw : Walked g h (id :: rest))
    (hid : h.isLoaded id = false) (hload : loadOne id h = (.ok (), k)) :
    ∃ n, k.get? id = some n ∧
      Walked g k (n.children.filter (fun c => (k.get? c).isSome && !k.isLoaded c) ++ rest) ∧ k.open_ ⊂ h.open_ := by
  obtain ⟨hlinks, hfinished, -⟩ := loadOne_spec (hw.later.numbered hg) hload hid
  have hlater : Later h k := by
    have := loadOne_proceeds id h
    rwa [hload] at this
  have hsome {a : Nat} : (k.get? a).isSome = (h.get? a).isSome := by
    cases ha : h.get? a with
    | none => rw [hlater.none ha]
    | some n =>
      obtain ⟨m, hm, -⟩ := hlater.some ha
      rw [hm]; rfl
  have hdone := hfinished rfl
  have hdone' := hdone
  obtain ⟨n, hn, hnl, -⟩ := hdone'
  refine ⟨n, hn, ⟨hw.later.trans hlater, hw.links.trans (hlinks.mono ?_), ?_, ?_, ?_⟩, ?_⟩
  · rintro a rfl
    cases hga : g.isLoaded a with
    | false => rfl
    | true => rw [hw.later.isLoaded hga] at hid; cases hid
  · intro a ha hga
    by_cases haid : a = id
    · exact haid ▸ hdone
    · rw [hlinks.isLoaded haid] at ha
      exact (hw.finished a ha hga).sameLinks hlinks haid
  · intro a b ha hga hab
    by_cases haid : a = id
    · -- a child of the node itself is frozen, or it was put on the stack
      obtain ⟨m, hm, hbm, hb⟩ := hab
      obtain rfl : m = n := Option.some.inj ((haid ▸ hm).symm.trans hn)
      cases hbl : k.isLoaded b with
      | true => exact .inl rfl
      | false => exact .inr (List.mem_append_left _ (List.mem_filter.2 ⟨hbm, by simp [hb, hbl]⟩))
    · have hhb : (h.get? b).isSome = true := by
        obtain ⟨-, -, -, hb⟩ := hab
        rwa [hsome] at hb
      rw [hlinks.isLoaded haid] at ha
      rcases hw.children a b ha hga (hlinks.leads haid hab hhb) with hb | hb
      · exact .inl (hlater.isLoaded hb)
      · rcases List.mem_cons.1 hb with rfl | hb
        · exact .inl hdone.isLoaded
        · exact .inr (List.mem_append_right _ hb)
  · intro a ha
    rcases List.mem_append.1 ha with ha | ha
    · have := (List.mem_filter.1 ha).2
      simp only [Bool.and_eq_true] at this
      exact this.1
    · rw [hsome]
      exact hw.stacked a (List.mem_cons_of_mem _ ha)
  · refine Finset.ssubset_iff_subset_ne.2 ⟨fun a ha => ?_, fun heq => ?_⟩
    · rw [mem_open, hsome] at ha
      refine mem_open.2 ⟨ha.1, ?_⟩
      cases hl : h.isLoaded a with
      | false => rfl
      | true => rw [hlater.isLoaded hl] at ha; exact ha.2
    · have : id ∈ h.open_ := mem_open.2 ⟨hw.stacked id (List.mem_cons_self ..), hid⟩
      rw [← heq, mem_open, hdone.isLoaded] at this
      exact absurd this.2 (by simp)

/-- **A walk that ends has frozen its stack, and whatever it has frozen has frozen children.** -/
theorem loadFrom_walked {g h k : Graph} (hg : g.Numbered) {steps : Nat} {stack : List Nat} (hw : Walked g h stack)
    (hsteps : h.open_.card ≤ steps) (hload : loadFrom steps stack h = (.ok (), k)) :
    Walked g k [] ∧ ∀ a ∈ stack, k.isLoaded a = true := by
  induction steps generalizing h stack with
  | zero =>
    obtain rfl : h = k := congrArg Prod.snd hload
    have hall {a : Nat} (ha : (h.get? a).isSome = true) : h.isLoaded a = true := by
      by_contra hl
      have : a ∈ h.open_ := mem_open.2 ⟨ha, by simpa using hl⟩
      rw [Finset.card_eq_zero.1 (Nat.le_zero.1 hsteps)] at this
      cases this
    exact ⟨⟨hw.later, hw.links, hw.finished, fun a b _ _ ⟨_, _, _, hb⟩ => .inl (hall hb), nofun⟩, fun a ha => hall (hw.stacked a ha)⟩
  | succ steps ih =>
    have hdrop := hw.drop
    have hstack : ∀ a ∈ stack, h.isLoaded a = true ∨ a ∈ stack.dropWhile h.isLoaded := fun a ha => mem_stack ha
    rw [loadFrom, bind_apply] at hload
    simp only [graph] at hload
    cases hd : stack.dropWhile h.isLoaded with
    | nil =>
      rw [hd] at hdrop hstack
      simp only [hd] at hload
      cases hload
      exact ⟨hdrop, fun a ha => (hstack a ha).resolve_right (by simp)⟩
    | cons id rest =>
      rw [hd] at hdrop hstack
      simp only [hd] at hload
      have hid : h.isLoaded id = false := by
        have := List.head?_dropWhile_not h.isLoaded stack
        rw [hd] at this
        simpa using this
      obtain ⟨⟨⟩, h₁, hone, hload⟩ := bind_ok hload
      obtain ⟨n, hn, hw₁, hcard⟩ := walked_step hg hdrop hid hone
      rw [bind_apply] at hload
      simp only [node, hn] at hload
      rw [bind_apply] at hload
      generalize hnext : n.children.filter (fun c => (h₁.get? c).isSome && !h₁.isLoaded c) ++ rest = next at hw₁
      replace hload : loadFrom steps next h₁ = (.ok (), k) := by rw [← hnext]; exact hload
      obtain ⟨hend, hall⟩ := ih hw₁ (by have := Finset.card_lt_card hcard; omega) hload
      have hlater : Later h₁ k := by
        have := loadFrom_proceeds steps next h₁
        rwa [hload] at this
      have hlater₀ : Later h h₁ := by
        have := loadOne_proceeds id h
        rwa [hone] at this
      refine ⟨hend, fun a ha => ?_⟩
      rcases hstack a ha with ha | ha
      · exact hlater.isLoaded (hlater₀.isLoaded ha)
      · rcases List.mem_cons.1 ha with rfl | ha
        · exact hlater.isLoaded (isLoaded_iff.2 ⟨n, hn, by
            obtain ⟨-, hf, -⟩ := loadOne_spec (hdrop.later.numbered hg) hone hid
            obtain ⟨m, hm, hml, -⟩ := hf rfl
            rwa [Option.some.inj (hn.symm.trans hm)]⟩)
        · exact hall a (hnext ▸ List.mem_append_right _ ha)

/-- whatever stops a walk, what is frozen has its target -/
theorem loadFrom_resolved {h : Graph} (hh : h.Numbered) (hres : h.Resolved) (steps : Nat) (stack : List Nat) :
    (loadFrom steps stack h).2.Resolved := by
  induction steps generalizing h stack with
  | zero => exact hres
  | succ steps ih =>
    rw [loadFrom, bind_apply]
    simp only [graph]
    cases hd : stack.dropWhile h.isLoaded with
    | nil => exact hres
    | cons id rest =>
      have hid : h.isLoaded id = false := by
        have := List.head?_dropWhile_not h.isLoaded stack
        rw [hd] at this
        simpa using this
      simp only
      rw [bind_apply]
      rcases hone : loadOne id h with ⟨r, k⟩
      obtain ⟨hlinks, hfinished, hfailed⟩ := loadOne_spec hh hone hid
      have hlater : Later h k := by
        have := loadOne_proceeds id h
        rwa [hone] at this
      have hk : k.Resolved := by
        intro a ha
        by_cases haid : a = id
        · subst a
          by_cases hr : r = .ok ()
          · exact hfinished hr
          · rw [hfailed hr] at ha; cases ha
        · rw [hlinks.isLoaded haid] at ha
          exact (hres a ha).sameLinks hlinks haid
      rcases r with e | ⟨⟩
      · exact hk
      · simp only
        rw [bind_apply]
        rcases hnode : node id k with ⟨o, k'⟩
        obtain rfl : k' = k := by
          unfold node at hnode
          split at hnode <;> cases hnode <;> rfl
        rcases o with e | n
        · exact hk
        · exact ih (hlater.numbered hh) hk _

/-! ## Loads in a row -/

/-- the loads of a history, one after the other whatever comes of each -/
def loads : List (Option Nat) → Graph → List (Outcome Unit) × Graph
  | [], g => ([], g)
  | root :: roots, g => ((load root g).1 :: (loads roots (load root g).2).1, (loads roots (load root g).2).2)

theorem load_resolved {g : Graph} (hg : g.Numbered) (hres : g.Resolved) (root : Option Nat) :
    (load root g).2.Resolved := by
  rw [load, bind_apply]
  simp only [graph]
  cases root.bind g.get? with
  | none => exact hres
  | some n => exact loadFrom_resolved hg hres _ _

/-- a load that succeeds is a walk from its root to the end -/
theorem load_walked {g h : Graph} (hg : g.Numbered) {root : Nat} (hload : load (some root) g = (.ok (), h)) :
    Walked g h [] ∧ h.isLoaded root = true := by
  rw [load, bind_apply] at hload
  simp only [graph, Option.bind_some] at hload
  cases hn : g.get? root with
  | none => simp only [hn] at hload; cases hload
  | some n =>
    obtain rfl : n.id = root := hg root n hn
    simp only [hn] at hload
    have hsteps : g.open_.card ≤ g.size := by
      have hsub : g.open_ ⊆ (Finset.range (g.size + 1)).erase 0 := by
        intro a ha
        refine Finset.mem_erase.2 ⟨?_, (Finset.mem_filter.1 ha).1⟩
        rintro rfl
        simpa [get?] using (mem_open.1 ha).1
      simpa using Finset.card_le_card hsub
    obtain ⟨hw, hstack⟩ := loadFrom_walked hg (.start g (by simp [hn])) hsteps hload
    exact ⟨hw, hstack _ (List.mem_cons_self ..)⟩

theorem load_closed {g h : Graph} (hg : g.Numbered) (hclosed : g.Closed) {root : Option Nat}
    (hload : load root g = (.ok (), h)) : h.Closed := by
  cases root with
  | none => cases hload
  | some root => exact (load_walked hg hload).1.closed hclosed

/-- **What a history keeps.** Whatever came of the loads, what is frozen has its target; after loads that all succeeded
the children of what is frozen are frozen. -/
theorem loads_spec {g : Graph} (hg : g.Numbered) (hres : g.Resolved) (roots : List (Option Nat)) :
    (loads roots g).2.Numbered ∧ (loads roots g).2.Resolved ∧
      (g.Closed → (∀ o ∈ (loads roots g).1, o = .ok ()) → (loads roots g).2.Closed) := by
  induction roots generalizing g with
  | nil => exact ⟨hg, hres, fun h _ => h⟩
  | cons root roots ih =>
    obtain ⟨hn, hr, hc⟩ := ih ((load_proceeds root g).numbered hg) (load_resolved hg hres root)
    refine ⟨hn, hr, fun hclosed hall => ?_⟩
    simp only [loads, List.mem_cons, forall_eq_or_imp] at hall
    exact hc (load_closed hg hclosed (Prod.ext hall.1 rfl)) hall.2

/-- **What a load that succeeds has closed.** After any history of loads on a graph in which nothing was frozen, succeed as they may, let
a load of a root succeed. Then everything that the root reaches is frozen with its target found if and only if no node
that an earlier load froze, and that the root reaches, has a child that is not frozen; and if the earlier loads
all succeeded, it is so. -/
theorem load_closes {g : Graph} (hg : g.Numbered) (hfresh : ∀ n ∈ g.nodes, n.loaded = false) (roots : List (Option Nat))
    {root : Nat} {h : Graph} (hload : load (some root) (loads roots g).2 = (.ok (), h)) :
    ((∀ id, h.Attains root id → h.Finished id) ↔
      ∀ a b, h.Attains root a → (loads roots g).2.isLoaded a = true → h.Leads a b → h.isLoaded b = true) ∧
    ((∀ o ∈ (loads roots g).1, o = .ok ()) → ∀ id, h.Attains root id → h.Finished id) := by
  obtain ⟨hnum, hres, hclosed⟩ := loads_spec hg (resolved_of_fresh hfresh) roots
  obtain ⟨hw, hroot⟩ := load_walked hnum hload
  have hresolved : h.Resolved := by
    have := load_resolved hnum hres (some root)
    rwa [hload] at this
  -- along a path each node is frozen: by the walk, or by what is known of those frozen before
  have hback (hearlier : ∀ a b, h.Attains root a → (loads roots g).2.isLoaded a = true → h.Leads a b →
      h.isLoaded b = true) (id : Nat) (hid : h.Attains root id) : h.Finished id := by
    refine hresolved id ?_
    induction hid with
    | refl => exact hroot
    | @tail a b hpath hab ih =>
      cases ha : (loads roots g).2.isLoaded a with
      | true => exact hearlier a b hpath ha hab
      | false => exact (hw.children a b ih ha hab).resolve_right (by simp)
  refine ⟨⟨fun hall a b ha _ hab => (hall b (ha.tail hab)).isLoaded, hback⟩, fun hok => hback fun a b _ ha hab => ?_⟩
  exact hw.closed (hclosed (closed_of_fresh hfresh) hok) a b (hw.later.isLoaded ha) hab

theorem eq_ok_of_isOk {o : Outcome Unit} (h : o.isOk = true) : o = .ok () := by
  rcases o with e | ⟨⟩
  · cases h
  · rfl

/-- an object that contains itself through a target put off, and a list of it -/
def chainGraph : Graph := { nodes := #[
  { id := 1, kind := .ref, deferred := some (.node 2) },
  { id := 2, kind := .object, options := .object { keys := ["next"] }, children := [1] },
  { id := 3, kind := .array, options := .array {}, children := [2] }] }

theorem load_closes_chain : ∃ h, chainGraph.Numbered ∧ (∀ n ∈ chainGraph.nodes, n.loaded = false) ∧
    load (some 3) (loads [some 1] chainGraph).2 = (.ok (), h) ∧ h.Attains 3 1 ∧ ∀ id, h.Attains 3 id → h.Finished id := by
  have hnum : chainGraph.Numbered := by decide +kernel
  have hfresh : ∀ n ∈ chainGraph.nodes, n.loaded = false := by decide +kernel
  have hok : (load (some 3) (loads [some 1] chainGraph).2).1 = .ok () := eq_ok_of_isOk (by decide +kernel)
  have hearlier : ∀ o ∈ (loads [some 1] chainGraph).1, o = .ok () := fun o ho =>
    eq_ok_of_isOk (List.all_eq_true.1 (show (loads [some 1] chainGraph).1.all (·.isOk) = true by decide +kernel) o ho)
  have hload : load (some 3) (loads [some 1] chainGraph).2 = (.ok (), (load (some 3) (loads [some 1] chainGraph).2).2) :=
    Prod.ext hok rfl
  obtain ⟨-, hclosed⟩ := load_closes hnum hfresh [some 1] hload
  refine ⟨_, hnum, hfresh, hload, ?_, hclosed hearlier⟩
  exact .tail (.single (by decide +kernel : Leads _ 3 2)) (by decide +kernel : Leads _ 2 1)

/-- an object whose property waits for a target that the graph does not have -/
def danglingGraph : Graph := { nodes := #[
  { id := 1, kind := .ref, deferred := some .missing },
  { id := 2, kind := .object, options := .object { keys := ["next"] }, children := [1] }] }

/-- **A second load covers up the failure of the first.** The object is frozen before its property is come to; the walk breaks off there,
and the next load of the object passes over it and succeeds, with a property that is neither frozen nor resolved. -/
theorem load_leaves_dangling :
    (loads [some 2] danglingGraph).1 ≠ [.ok ()] ∧
      ∃ h, load (some 2) (loads [some 2] danglingGraph).2 = (.ok (), h) ∧ h.Attains 2 1 ∧ ¬ h.Finished 1 := by
  refine ⟨fun h => ?_, (loads [some 2] danglingGraph).2, ?_, ?_, fun h => ?_⟩
  · exact absurd (congrArg (·.map (·.isOk)) h) (by decide +kernel)
  · exact load_of_loaded (by decide +kernel) (by decide +kernel)
  · exact .single (by decide +kernel)
  · exact absurd h.isLoaded (by decide +kernel)

end GraphM

end Schemata
