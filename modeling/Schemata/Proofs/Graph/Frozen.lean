import Schemata.Proofs.Graph.Building
import Schemata.Proofs.Graph.Closure

/-!
Frozen nodes stay as they are.

Where no hook changes its node, a load that succeeds is a row of steps that freeze one node each (`Freezes`, `FreezesAll`).
A step leaves whatever is frozen, reports each load hook of its node once, and gives hints only to nodes that are not
frozen. So a history of loads that succeed changes nothing that it has frozen before, each hook runs at the load that
freezes its node and at no other, and a hint is the key of a property whose wrappers lead to the node (`loads_freeze`).
-/

namespace Schemata

open Relation (ReflTransGen)

/-- does the hook leave its node as it is? -/
def Hook.isQuiet (k : Hook) : Bool :=
  match k.reaction with
  | .fail => true
  | .rename => false
  | .describe => false
  | .watch => true

/-- what a step of a load can make of a node whose hooks are quiet -/
structure Node.Settles (n m : Node) : Prop where
  same : m = { n with children := m.children, hint := m.hint, loaded := m.loaded }
  children : n.children ≠ [] → m.children = n.children
  frozen : n.loaded = true → m = n

namespace Graph

/-- no load hook changes its node -/
def Quiet (g : Graph) : Prop := ∀ id n, g.get? id = some n → ∀ k ∈ n.onLoad, k.isQuiet = true

/-- a wrapper leads to its only child -/
def Passes (g : Graph) (a b : Nat) : Prop := ∃ n, g.get? a = some n ∧ n.kind.isWrapper = true ∧ n.children = [b]

/-- a property of a frozen object has the key, and its wrappers lead to the node -/
def Hints (g : Graph) (id : Nat) (key : String) : Prop :=
  ∃ o n c, g.get? o = some n ∧ n.loaded = true ∧ n.kind = .object ∧ (key, c) ∈ n.objectOptions.keys.zip n.children ∧
    ReflTransGen g.Passes c id

/-- every hint comes from a property -/
def Explained (g : Graph) : Prop := ∀ id n, g.get? id = some n → n.hint = "" ∨ g.Hints id n.hint

/-- before its first load a graph has no hints -/
theorem explained_of_fresh {g : Graph} (h : ∀ n ∈ g.nodes, n.hint = "") : g.Explained := fun _ _ hn =>
  .inl (forall_nodes h hn)

/-- what the load hooks of a node report when each runs once -/
def reports (g : Graph) (id : Nat) : List Event :=
  match g.get? id with
  | some n => n.onLoad.map fun k => .load n.label k.argument
  | none => []

/-! ## Giving hints -/

/-- the second graph is the first with more hints, each from the source -/
structure Hinting (source : String → Nat → Prop) (g h : Graph) : Prop where
  events : h.events = g.events
  none : ∀ {a}, g.get? a = none → h.get? a = none
  some : ∀ {a n}, g.get? a = some n → ∃ hint, h.get? a = some { n with hint := hint } ∧
    (hint = n.hint ∨ n.loaded = false ∧ source hint a)

variable {source : String → Nat → Prop} {g h k : Graph}

theorem Hinting.refl (g : Graph) : Hinting source g g :=
  ⟨rfl, fun hn => hn, fun {_ n} hn => ⟨n.hint, hn, .inl rfl⟩⟩

theorem Hinting.trans (h₁ : Hinting source g h) (h₂ : Hinting source h k) : Hinting source g k := by
  refine ⟨h₂.events.trans h₁.events, fun hn => h₂.none (h₁.none hn), fun {a n} hn => ?_⟩
  obtain ⟨hint, hm, hhint⟩ := h₁.some hn
  obtain ⟨hint', hm', hhint'⟩ := h₂.some hm
  refine ⟨hint', hm', ?_⟩
  rcases hhint' with rfl | hgiven
  · exact hhint
  · exact .inr hgiven

theorem Hinting.mono {more : String → Nat → Prop} (hh : Hinting source g h) (hm : ∀ key a, source key a → more key a) :
    Hinting more g h := by
  refine ⟨hh.events, hh.none, fun hn => ?_⟩
  obtain ⟨hint, hm', hhint⟩ := hh.some hn
  exact ⟨hint, hm', hhint.imp_right fun hg => ⟨hg.1, hm _ _ hg.2⟩⟩

/-- hints do not change where wrappers lead -/
theorem Hinting.passes (hh : Hinting source g h) {a b : Nat} : h.Passes a b ↔ g.Passes a b := by
  constructor
  · rintro ⟨m, hm, hwrap, hc⟩
    cases hn : g.get? a with
    | none =>
      rw [hh.none hn] at hm
      cases hm
    | some n =>
      obtain ⟨hint, hm', -⟩ := hh.some hn
      obtain rfl := Option.some.inj (hm.symm.trans hm')
      exact ⟨n, hn, hwrap, hc⟩
  · rintro ⟨n, hn, hwrap, hc⟩
    obtain ⟨hint, hm, -⟩ := hh.some hn
    exact ⟨_, hm, hwrap, hc⟩

theorem giveHint_hinting (key : String) (seen : List Nat) (fuel id : Nat) (g : Graph) :
    Hinting (fun given a => given = key ∧ ReflTransGen g.Passes id a) g (giveHint key seen fuel id g) := by
  induction fuel generalizing g seen id with
  | zero => exact .refl g
  | succ fuel ih =>
    rw [giveHint]
    cases hn : g.get? id with
    | none => exact .refl g
    | some n =>
      dsimp only
      split
      · exact .refl g
      · rename_i hstop
        have hloaded : n.loaded = false := by
          simp only [Bool.or_eq_true, not_or, Bool.not_eq_true] at hstop
          exact hstop.2
        have hfirst : Hinting (fun given a => given = key ∧ ReflTransGen g.Passes id a) g
            (g.modify id fun m => if m.hint = "" then { m with hint := key } else m) := by
          refine ⟨by unfold modify; split <;> rfl, fun {a} ha => by rw [get?_modify, ha]; split <;> rfl, ?_⟩
          intro a m hm
          rw [get?_modify, hm]
          by_cases ha : a = id
          · subst ha
            obtain rfl := Option.some.inj (hn.symm.trans hm)
            by_cases hempty : n.hint = ""
            · exact ⟨key, by simp [hempty], .inr ⟨hloaded, rfl, .refl⟩⟩
            · exact ⟨n.hint, by simp [hempty], .inl rfl⟩
          · exact ⟨m.hint, by simp [ha], .inl rfl⟩
        split
        · rename_i c hwrap hc
          refine hfirst.trans ((ih (id :: seen) c _).mono ?_)
          rintro given a ⟨rfl, hpath⟩
          exact ⟨rfl, .head ⟨n, hn, hwrap, hc⟩ (.mono (fun _ _ => hfirst.passes.1) _ _ hpath)⟩
        · exact hfirst

theorem giveHints_hinting (g : Graph) (fields : List (String × Nat)) :
    Hinting (fun key a => ∃ c, (key, c) ∈ fields ∧ ReflTransGen g.Passes c a) g (g.giveHints fields) := by
  induction fields generalizing g with
  | nil => exact .refl g
  | cons f rest ih =>
    obtain ⟨key, c⟩ := f
    have hfirst := giveHint_hinting key [] (g.size + 1) c g
    refine (hfirst.mono ?_).trans ((ih _).mono ?_)
    · rintro given a ⟨rfl, hpath⟩
      exact ⟨c, List.mem_cons_self .., hpath⟩
    · rintro given a ⟨c', hmem, hpath⟩
      exact ⟨c', List.mem_cons_of_mem _ hmem, .mono (fun _ _ => hfirst.passes.1) _ _ hpath⟩

/-! ## Freezing one node -/

/-- a step of a load: one node becomes frozen, and its hooks have run -/
structure Freezes (g : Graph) (id : Nat) (h : Graph) : Prop where
  new : g.isLoaded id = false
  loaded : ∀ a, h.isLoaded a = true ↔ a = id ∨ g.isLoaded a = true
  none : ∀ {a}, g.get? a = none → h.get? a = none
  settles : ∀ {a n}, g.get? a = some n → ∃ m, h.get? a = some m ∧ n.Settles m ∧ (m.hint = n.hint ∨ h.Hints a m.hint)
  events : h.events = g.events ++ h.reports id

variable {id : Nat}

/-- **What is frozen stays.** -/
theorem Freezes.kept (hf : Freezes g id h) {a : Nat} (ha : g.isLoaded a = true) : h.get? a = g.get? a := by
  obtain ⟨n, hn, hl⟩ := isLoaded_iff.1 ha
  obtain ⟨m, hm, hsettles, -⟩ := hf.settles hn
  rw [hm, hn, hsettles.frozen hl]

theorem Freezes.back (hf : Freezes g id h) {a : Nat} {m : Node} (hm : h.get? a = some m) :
    ∃ n, g.get? a = some n ∧ n.Settles m ∧ (m.hint = n.hint ∨ h.Hints a m.hint) := by
  cases hn : g.get? a with
  | none =>
    rw [hf.none hn] at hm
    cases hm
  | some n =>
    obtain ⟨m', hm', hboth⟩ := hf.settles hn
    obtain rfl := Option.some.inj (hm.symm.trans hm')
    exact ⟨n, rfl, hboth⟩

theorem Freezes.numbered (hf : Freezes g id h) (hg : g.Numbered) : h.Numbered := by
  intro a m hm
  obtain ⟨n, hn, hsettles, -⟩ := hf.back hm
  rw [hsettles.same]
  exact hg a n hn

theorem Freezes.quiet (hf : Freezes g id h) (hg : g.Quiet) : h.Quiet := by
  intro a m hm
  obtain ⟨n, hn, hsettles, -⟩ := hf.back hm
  rw [hsettles.same]
  exact hg a n hn

/-- children that are there stay, so chains of wrappers do -/
theorem Freezes.passes (hf : Freezes g id h) {a b : Nat} (hp : g.Passes a b) : h.Passes a b := by
  obtain ⟨n, hn, hwrap, hc⟩ := hp
  obtain ⟨m, hm, hsettles, -⟩ := hf.settles hn
  refine ⟨m, hm, ?_, (hsettles.children (by simp [hc])).trans hc⟩
  rw [hsettles.same]
  exact hwrap

theorem Freezes.hints (hf : Freezes g id h) {a : Nat} {key : String} (hh : g.Hints a key) : h.Hints a key := by
  obtain ⟨o, n, c, hn, hl, hkind, hmem, hpath⟩ := hh
  have hkept := hf.kept (isLoaded_iff.2 ⟨n, hn, hl⟩)
  exact ⟨o, n, c, hkept.trans hn, hl, hkind, hmem, .mono (fun _ _ => hf.passes) _ _ hpath⟩

theorem Freezes.explained (hf : Freezes g id h) (hg : g.Explained) : h.Explained := by
  intro a m hm
  obtain ⟨n, hn, -, hhint⟩ := hf.back hm
  rcases hhint with hsame | hhint
  · rw [hsame]
    exact (hg a n hn).imp_right hf.hints
  · exact .inr hhint

/-! ## Freezing one node after the other -/

/-- a row of steps, with the nodes that they freeze in order -/
inductive FreezesAll : Graph → List Nat → Graph → Prop
  | nil (g : Graph) : FreezesAll g [] g
  | cons {g h k : Graph} {id : Nat} {ids : List Nat} (first : Freezes g id h) (rest : FreezesAll h ids k) :
      FreezesAll g (id :: ids) k

variable {ids more : List Nat}

theorem FreezesAll.append (h₁ : FreezesAll g ids h) (h₂ : FreezesAll h more k) : FreezesAll g (ids ++ more) k := by
  induction h₁ with
  | nil => exact h₂
  | cons first _ ih => exact .cons first (ih h₂)

theorem FreezesAll.numbered (hf : FreezesAll g ids h) (hg : g.Numbered) : h.Numbered := by
  induction hf with
  | nil => exact hg
  | cons first _ ih => exact ih (first.numbered hg)

theorem FreezesAll.quiet (hf : FreezesAll g ids h) (hg : g.Quiet) : h.Quiet := by
  induction hf with
  | nil => exact hg
  | cons first _ ih => exact ih (first.quiet hg)

theorem FreezesAll.explained (hf : FreezesAll g ids h) (hg : g.Explained) : h.Explained := by
  induction hf with
  | nil => exact hg
  | cons first _ ih => exact ih (first.explained hg)

theorem FreezesAll.kept (hf : FreezesAll g ids h) {a : Nat} (ha : g.isLoaded a = true) : h.get? a = g.get? a := by
  induction hf with
  | nil => rfl
  | cons first _ ih => exact (ih ((first.loaded a).2 (.inr ha))).trans (first.kept ha)

theorem FreezesAll.isLoaded (hf : FreezesAll g ids h) {a : Nat} (ha : g.isLoaded a = true) : h.isLoaded a = true := by
  unfold Graph.isLoaded at ha ⊢
  rwa [hf.kept ha]

/-- the nodes of the row are those that it has frozen -/
theorem FreezesAll.mem_iff (hf : FreezesAll g ids h) (a : Nat) : a ∈ ids ↔ g.isLoaded a = false ∧ h.isLoaded a = true := by
  induction hf with
  | nil => simp
  | @cons g h k id ids first rest ih =>
    rw [List.mem_cons, ih]
    constructor
    · rintro (rfl | ⟨hnot, hk⟩)
      · exact ⟨first.new, rest.isLoaded ((first.loaded a).2 (.inl rfl))⟩
      · refine ⟨?_, hk⟩
        by_contra hg
        rw [(first.loaded a).2 (.inr (by simpa using hg))] at hnot
        cases hnot
    · rintro ⟨hg, hk⟩
      by_cases ha : a = id
      · exact .inl ha
      · refine .inr ⟨?_, hk⟩
        by_contra hh
        rcases (first.loaded a).1 (by simpa using hh) with rfl | hloaded
        · exact ha rfl
        · rw [hg] at hloaded
          cases hloaded

/-- no node is frozen twice -/
theorem FreezesAll.nodup (hf : FreezesAll g ids h) : ids.Nodup := by
  induction hf with
  | nil => exact List.nodup_nil
  | @cons g h k id ids first rest ih =>
    refine List.nodup_cons.2 ⟨fun hmem => ?_, ih⟩
    have hnot := ((rest.mem_iff id).1 hmem).1
    rw [(first.loaded id).2 (.inl rfl)] at hnot
    cases hnot

/-- **Each hook runs once.** What is reported in a row are the hooks of the nodes that it freezes. -/
theorem FreezesAll.events (hf : FreezesAll g ids h) : h.events = g.events ++ ids.flatMap h.reports := by
  induction hf with
  | nil => simp
  | @cons g h k id ids first rest ih =>
    have hsame : k.reports id = h.reports id := by
      unfold reports
      rw [rest.kept ((first.loaded id).2 (.inl rfl))]
    rw [ih, first.events, List.flatMap_cons, hsame, List.append_assoc]

end Graph

namespace GraphM

open Graph Steps

/-! ## Loading is freezing -/

theorem node_ok {g h : Graph} {id : Nat} {n : Node} (hnode : node id g = (.ok n, h)) : g.get? id = some n ∧ g = h := by
  unfold node at hnode
  split at hnode
  · cases hnode
    exact ⟨by assumption, rfl⟩
  · cases hnode

/-- quiet hooks that all succeed report, and that is all -/
theorem runHooks_watching {g h : Graph} {id : Nat} {n : Node} (hn : g.get? id = some n) {hooks : List Hook}
    (hquiet : ∀ k ∈ hooks, k.isQuiet = true) {phase : String} {event : String → String → Event}
    (hrun : runHooks phase event id hooks g = (.ok (), h)) :
    h = { g with events := g.events ++ hooks.map fun k => event n.label k.argument } := by
  induction hooks generalizing g with
  | nil =>
    obtain rfl : g = h := congrArg Prod.snd hrun
    simp
  | cons k hooks ih =>
    have hk : k.isQuiet = true := hquiet k (List.mem_cons_self ..)
    rw [runHooks, bind_of_ok (node_of_get? hn)] at hrun
    obtain ⟨⟨⟩, g₁, hreact, hrun⟩ := bind_ok hrun
    obtain rfl : g = g₁ := by
      unfold Hook.isQuiet at hk
      unfold mapFailure react at hreact
      cases hr : k.reaction <;> simp only [hr] at hk hreact
      case fail => cases hreact
      case rename => cases hk
      case describe => cases hk
      case watch => exact congrArg Prod.snd hreact
    rw [bind_of_ok (node_of_get? hn)] at hrun
    have hreport : report (event n.label k.argument) g =
      (.ok (), { g with events := g.events ++ [event n.label k.argument] }) := rfl
    rw [bind_of_ok hreport] at hrun
    rw [ih (g := { g with events := g.events ++ [event n.label k.argument] }) hn
      (fun k hk => hquiet k (List.mem_cons_of_mem _ hk)) hrun]
    simp

/-- a target that is found becomes the only child of a node without children -/
theorem resolve_ok {g h : Graph} {n : Node} (hn : g.get? n.id = some n) (hr : resolve n g = (.ok (), h)) :
    ∃ children, (n.children ≠ [] → children = n.children) ∧ h.events = g.events ∧
      ∀ a, h.get? a = if a = n.id then some { n with children := children } else g.get? a := by
  have hself (a : Nat) : g.get? a = if a = n.id then some n else g.get? a := by
    split
    · rename_i ha
      rw [ha, hn]
    · rfl
  unfold resolve at hr
  rcases Option.eq_none_or_eq_some n.deferred with hd | ⟨d, hd⟩ <;> simp only [hd] at hr
  · cases hr
    exact ⟨n.children, fun _ => rfl, rfl, hself⟩
  · split at hr
    · rename_i hempty
      rw [bind_apply] at hr
      simp only [graph] at hr
      cases ht : g.target? d <;> simp only [ht] at hr
      case none => cases hr
      case some t =>
        cases hr
        refine ⟨[t.id], fun hne => absurd (List.isEmpty_iff.1 hempty) hne, ?_, fun a => ?_⟩
        · unfold Graph.modify
          split <;> rfl
        · rw [get?_modify]
          split
          · rename_i ha
            rw [ha, hn]
            rfl
          · rfl
    · cases hr
      exact ⟨n.children, fun _ => rfl, rfl, hself⟩

/-- what comes between: the hooks report, and an object gives its properties their keys as hints -/
theorem settle_ok {g h : Graph} (hquiet : g.Quiet) {id : Nat} {n : Node} (hn : g.get? id = some n)
    (hs : settle id g = (.ok (), h)) :
    Hinting (fun key a => n.kind = .object ∧ ∃ c, (key, c) ∈ n.objectOptions.keys.zip n.children ∧
      ReflTransGen g.Passes c a) { g with events := g.events ++ g.reports id } h := by
  have hreports : g.reports id = n.onLoad.map fun k => Event.load n.label k.argument := by simp only [reports, hn]
  unfold settle at hs
  rw [bind_of_ok (node_of_get? hn)] at hs
  obtain ⟨⟨⟩, g₁, hhooks, hs⟩ := bind_ok hs
  obtain rfl := runHooks_watching hn (hquiet id n hn) hhooks
  rw [← hreports] at hs
  rw [bind_of_ok (node_of_get? (g := { g with events := g.events ++ g.reports id }) hn)] at hs
  split at hs
  · rename_i hobject
    cases hs
    exact (giveHints_hinting _ _).mono fun key a hsource => ⟨hobject, hsource⟩
  · cases hs
    exact .refl _

/-- **A load of one node that succeeds freezes it.** -/
theorem loadOne_freezes {g h : Graph} (hg : g.Numbered) (hquiet : g.Quiet) {id : Nat} (hl : g.isLoaded id = false)
    (hload : loadOne id g = (.ok (), h)) : Freezes g id h := by
  rw [loadOne_eq] at hload
  obtain ⟨n, g₀, hnode, hload⟩ := bind_ok hload
  obtain ⟨hn, rfl⟩ := node_ok hnode
  obtain rfl := hg id n hn
  have hloaded : n.loaded = false := by simpa [isLoaded, hn] using hl
  obtain ⟨⟨⟩, g₁, hresolve, hload⟩ := bind_ok hload
  obtain ⟨children, hchildren, hevents, hget⟩ := resolve_ok hn hresolve
  have hself : g₁.get? n.id = some { n with children := children } := by rw [hget, if_pos rfl]
  have hquiet₁ : g₁.Quiet := by
    intro a m hm
    rw [hget] at hm
    split at hm
    · cases hm
      exact hquiet n.id n hn
    · exact hquiet a m hm
  obtain ⟨⟨⟩, g₂, hsettle, hload⟩ := bind_ok hload
  have hhinting := settle_ok hquiet₁ hself hsettle
  obtain rfl : (g₂.modify n.id fun m => { m with loaded := true }) = h := congrArg Prod.snd hload
  -- where a node stands after the step
  have hafter {a : Nat} {m : Node} (hm : g₁.get? a = some m) : ∃ hint,
      (g₂.modify n.id fun m => { m with loaded := true }).get? a =
        some { m with hint := hint, loaded := m.loaded || decide (a = n.id) } ∧
      (hint = m.hint ∨ m.loaded = false ∧ n.kind = .object ∧
        ∃ c, (hint, c) ∈ n.objectOptions.keys.zip children ∧ ReflTransGen g₁.Passes c a) := by
    obtain ⟨hint, hm', hhint⟩ := hhinting.some hm
    refine ⟨hint, ?_, hhint⟩
    rw [get?_modify, hm']
    by_cases ha : a = n.id <;> simp [ha]
  obtain ⟨hint, hfrozen, -⟩ := hafter hself
  have hpasses {a b : Nat} (hp : g₁.Passes a b) : (g₂.modify n.id fun m => { m with loaded := true }).Passes a b := by
    obtain ⟨m, hm, hwrap, hc⟩ := hp
    obtain ⟨hint, hm', -⟩ := hafter hm
    exact ⟨_, hm', hwrap, hc⟩
  refine ⟨hl, fun a => ?_, fun {a} hnone => ?_, fun {a m} hm => ?_, ?_⟩
  · cases hm : g₁.get? a with
    | none =>
      have hne : a ≠ n.id := by
        rintro rfl
        rw [hself] at hm
        cases hm
      have hga : g.get? a = none := by rwa [hget, if_neg hne] at hm
      have hgone : (g₂.modify n.id fun m => { m with loaded := true }).get? a = none := by
        rw [get?_modify, hhinting.none hm]
        split <;> rfl
      simp [isLoaded, hgone, hga, hne]
    | some m =>
      obtain ⟨hint, hm', -⟩ := hafter hm
      by_cases ha : a = n.id
      · subst ha
        simp [isLoaded, hm']
      · have hga : g.get? a = some m := by rwa [hget, if_neg ha] at hm
        simp [isLoaded, hm', hga, ha]
  · have hne : a ≠ n.id := by
      rintro rfl
      rw [hn] at hnone
      cases hnone
    have hgone : g₁.get? a = none := by rwa [hget, if_neg hne]
    rw [get?_modify, hhinting.none hgone]
    split <;> rfl
  · have hhints {hint : String} (hgiven : n.kind = .object ∧
        ∃ c, (hint, c) ∈ n.objectOptions.keys.zip children ∧ ReflTransGen g₁.Passes c a) :
        (g₂.modify n.id fun m => { m with loaded := true }).Hints a hint := by
      obtain ⟨hobject, c, hmem, hpath⟩ := hgiven
      exact ⟨n.id, _, c, hfrozen, by simp, hobject, hmem, .mono (fun _ _ => hpasses) _ _ hpath⟩
    by_cases ha : a = n.id
    · subst ha
      obtain rfl := Option.some.inj (hn.symm.trans hm)
      obtain ⟨hint, hm', hhint⟩ := hafter hself
      refine ⟨_, hm', ⟨rfl, hchildren, fun h => by rw [hloaded] at h; cases h⟩, ?_⟩
      exact hhint.imp_right fun hgiven => hhints hgiven.2
    · have hsame : g₁.get? a = some m := by rwa [hget, if_neg ha]
      obtain ⟨hint, hm', hhint⟩ := hafter hsame
      refine ⟨_, hm', ⟨rfl, fun _ => rfl, fun h => ?_⟩, hhint.imp_right fun hgiven => hhints hgiven.2⟩
      have hkeep : hint = m.hint := hhint.resolve_right fun hgiven => by rw [h] at hgiven; cases hgiven.1
      subst hkeep
      simp [ha]
  · have hmodify : (g₂.modify n.id fun m => { m with loaded := true }).events = g₂.events := by
      unfold Graph.modify
      split <;> rfl
    rw [hmodify, hhinting.events, hevents]
    simp only [reports, hself, hfrozen]
    rfl

/-- a walk that succeeds freezes one node after the other -/
theorem loadFrom_freezes {g h : Graph} (hg : g.Numbered) (hquiet : g.Quiet) {steps : Nat} {stack : List Nat}
    (hload : loadFrom steps stack g = (.ok (), h)) : ∃ ids, FreezesAll g ids h := by
  induction steps generalizing g stack with
  | zero =>
    obtain rfl : g = h := congrArg Prod.snd hload
    exact ⟨[], .nil _⟩
  | succ steps ih =>
    rw [loadFrom, bind_apply] at hload
    simp only [graph] at hload
    cases hd : stack.dropWhile g.isLoaded with
    | nil =>
      simp only [hd] at hload
      cases hload
      exact ⟨[], .nil _⟩
    | cons id rest =>
      simp only [hd] at hload
      have hid : g.isLoaded id = false := by
        have := List.head?_dropWhile_not g.isLoaded stack
        rw [hd] at this
        simpa using this
      obtain ⟨⟨⟩, g₁, hone, hload⟩ := bind_ok hload
      have hfirst := loadOne_freezes hg hquiet hid hone
      obtain ⟨n, g₂, hnode, hload⟩ := bind_ok hload
      obtain ⟨-, rfl⟩ := node_ok hnode
      rw [bind_apply] at hload
      obtain ⟨ids, hrest⟩ := ih (hfirst.numbered hg) (hfirst.quiet hquiet) hload
      exact ⟨id :: ids, .cons hfirst hrest⟩

theorem load_freezes {g h : Graph} (hg : g.Numbered) (hquiet : g.Quiet) {root : Option Nat}
    (hload : load root g = (.ok (), h)) : ∃ ids, FreezesAll g ids h := by
  rw [load, bind_apply] at hload
  simp only [graph] at hload
  cases hn : root.bind g.get? with
  | none =>
    simp only [hn] at hload
    cases hload
  | some n =>
    simp only [hn] at hload
    exact loadFrom_freezes hg hquiet hload

/-! ## Histories -/

theorem loads_append (roots more : List (Option Nat)) (g : Graph) :
    loads (roots ++ more) g =
      ((loads roots g).1 ++ (loads more (loads roots g).2).1, (loads more (loads roots g).2).2) := by
  induction roots generalizing g with
  | nil => rfl
  | cons root roots ih => simp only [List.cons_append, loads, ih]

/-- **Loads that all succeed freeze one node after the other.** -/
theorem loads_freezes {g : Graph} (hg : g.Numbered) (hquiet : g.Quiet) {roots : List (Option Nat)}
    (hok : ∀ o ∈ (loads roots g).1, o = .ok ()) : ∃ ids, FreezesAll g ids (loads roots g).2 := by
  induction roots generalizing g with
  | nil => exact ⟨[], .nil g⟩
  | cons root roots ih =>
    simp only [loads, List.mem_cons, forall_eq_or_imp] at hok
    obtain ⟨ids, hfirst⟩ := load_freezes hg hquiet (Prod.ext hok.1 rfl)
    obtain ⟨more, hrest⟩ := ih (hfirst.numbered hg) (hfirst.quiet hquiet) hok.2
    exact ⟨ids ++ more, hfirst.append hrest⟩

/-- **Frozen nodes stay as they are.** In a graph whose load hooks change nothing and whose hints, if it has any yet, come from
properties, let any loads succeed, and then more. What the first have frozen the second leave, every part of it; the reports of the second
are those of the load hooks of the nodes that they have frozen, each once; and every hint is empty or the key of
a property of a frozen object whose wrappers lead to the node. -/
theorem loads_freeze {g : Graph} (hg : g.Numbered) (hquiet : g.Quiet) (hhints : g.Explained)
    (roots more : List (Option Nat)) (hok : ∀ o ∈ (loads (roots ++ more) g).1, o = .ok ()) :
    (∀ id, (loads roots g).2.isLoaded id = true → (loads (roots ++ more) g).2.get? id = (loads roots g).2.get? id) ∧
    (∃ frozen : List Nat, frozen.Nodup ∧
      (∀ id, id ∈ frozen ↔ (loads roots g).2.isLoaded id = false ∧ (loads (roots ++ more) g).2.isLoaded id = true) ∧
      (loads (roots ++ more) g).2.events =
        (loads roots g).2.events ++ frozen.flatMap (loads (roots ++ more) g).2.reports) ∧
    (loads (roots ++ more) g).2.Explained := by
  rw [loads_append] at hok ⊢
  obtain ⟨ids, hfirst⟩ := loads_freezes hg hquiet fun o ho => hok o (List.mem_append_left _ ho)
  obtain ⟨frozen, hmore⟩ := loads_freezes (hfirst.numbered hg) (hfirst.quiet hquiet) fun o ho =>
    hok o (List.mem_append_right _ ho)
  refine ⟨fun id hid => hmore.kept hid, ⟨frozen, hmore.nodup, hmore.mem_iff, hmore.events⟩, ?_⟩
  exact hmore.explained (hfirst.explained hhints)

/-- an object with one property, which may be missing and is watched, and a list of it -/
def watchedGraph : Graph := { nodes := #[
  { id := 1, kind := .object, options := .object { keys := ["name"] }, children := [2] },
  { id := 2, kind := .optional, children := [3] },
  { id := 3, kind := .string, onLoad := [⟨.watch, "seen"⟩] },
  { id := 4, kind := .array, options := .array {}, children := [1] }] }

theorem loads_freeze_watched :
    watchedGraph.Numbered ∧ watchedGraph.Quiet ∧ watchedGraph.Explained ∧
      (loads [some 1, some 4] watchedGraph).2.get? 3 = (loads [some 1] watchedGraph).2.get? 3 ∧
      ((loads [some 1, some 4] watchedGraph).2.get? 3).map (·.hint) = some "name" ∧
      (loads [some 1, some 4] watchedGraph).2.Explained := by
  have hnum : watchedGraph.Numbered := by decide +kernel
  have hquiet : watchedGraph.Quiet := by
    refine fun _ n hn => forall_nodes (P := fun n => ∀ k ∈ n.onLoad, k.isQuiet = true) ?_ hn
    decide +kernel
  have hhints : watchedGraph.Explained := explained_of_fresh (by decide +kernel)
  have hok : ∀ o ∈ (loads ([some 1] ++ [some 4]) watchedGraph).1, o = .ok () := fun o ho => eq_ok_of_isOk
    (List.all_eq_true.1 (show (loads [some 1, some 4] watchedGraph).1.all (·.isOk) = true by decide +kernel) o ho)
  obtain ⟨hkept, -, hexplained⟩ := loads_freeze hnum hquiet hhints [some 1] [some 4] hok
  exact ⟨hnum, hquiet, hhints, hkept 3 (by decide +kernel), by decide +kernel, hexplained⟩

end GraphM

end Schemata
