import Schemata.Proofs.Graph.Building
import Schemata.Proofs.Graph.Closure

/-!
Loading nodes whose references have their targets.

The nodes above a number are `Ready` when they lead to each other only, run nothing when they are loaded, and those that
are put off are put off to one of them; the others have children that stay. To load one of them succeeds and leaves them
ready (`loadOne_ready`). So any loads
of such nodes in a row succeed; all that their roots reach is loaded, and a node that was put off has its target as its only
child. Main result: `loads_ready`.
-/

namespace Schemata

open Steps

/-- the frame is as an import leaves it: what it was put off to is its only child, once it has been loaded -/
structure Frame.Ready (base size : Nat) (target : Nat → Option Nat) (below : Nat → List Nat) (f : Frame) : Prop where
  onLoad : f.onLoad = []
  children : ∀ c ∈ f.children, base < c ∧ c ≤ size
  deferred : f.deferred = (target f.id).map Deferred.node
  kept : target f.id = none → f.children = below f.id
  target : ∀ t, target f.id = some t → base < t ∧ t ≤ size ∧ (f.loaded = false ∧ f.children = [] ∨ f.children = [t])

namespace Graph

/-- the nodes above `base` are ready to be loaded; those without a target have the children `below` -/
structure Ready (base : Nat) (target : Nat → Option Nat) (below : Nat → List Nat) (g : Graph) : Prop where
  numbered : g.Numbered
  frames : ∀ id f, g.frame? id = some f → base < id → f.Ready base g.size target below

/-- the children of a node above `base` that is loaded are loaded -/
def ClosedAbove (base : Nat) (g : Graph) : Prop := ∀ a b, base < a → g.isLoaded a = true → g.Leads a b → g.isLoaded b = true

variable {base : Nat} {target : Nat → Option Nat} {below : Nat → List Nat} {g h k : Graph}

theorem Walked.closedAbove (hw : Walked g h []) (hg : g.ClosedAbove base) : h.ClosedAbove base := by
  intro a b hbase ha hab
  cases hga : g.isLoaded a with
  | false => exact (hw.children a b ha hga hab).resolve_right List.not_mem_nil
  | true => exact hw.later.isLoaded (hg a b hbase hga (hw.leads hga hab))

theorem frame?_of_get? {id : Nat} {n : Node} (hn : g.get? id = some n) : g.frame? id = some n.frame := by
  rw [frame?, hn]
  rfl

theorem Ready.of_frames (hg : g.Ready base target below) (hsame : SameFrames g h) : h.Ready base target below where
  numbered := by
    intro id n hn
    have hframe : g.frame? id = some n.frame := by
      rw [← hsame.frames]
      exact frame?_of_get? hn
    obtain ⟨m, hm, hmn⟩ := Option.map_eq_some_iff.1 hframe
    exact (congrArg Frame.id hmn).symm.trans (hg.numbered id m hm)
  frames id f hf hid := by
    rw [hsame.frames] at hf
    rw [hsame.size]
    exact hg.frames id f hf hid

/-- a node is changed to one that is ready as well -/
theorem Ready.modify (hg : g.Ready base target below) {id : Nat} {φ : Node → Node}
    (hφ : ∀ n, g.get? id = some n → (φ n).id = n.id ∧ (base < id → (φ n).frame.Ready base g.size target below)) :
    (g.modify id φ).Ready base target below where
  numbered := by
    intro i n hn
    rw [get?_modify] at hn
    split at hn
    · rename_i hi
      obtain ⟨m, hm, rfl⟩ := Option.map_eq_some_iff.1 hn
      rw [hi] at hm ⊢
      exact (hφ m hm).1.trans (hg.numbered id m hm)
    · exact hg.numbered i n hn
  frames i f hf hid := by
    rw [frame?_modify] at hf
    rw [size_modify]
    split at hf
    · rename_i hi
      obtain ⟨m, hm, rfl⟩ := Option.map_eq_some_iff.1 hf
      rw [hi] at hm hid
      exact (hφ m hm).2 hid
    · exact hg.frames i f hf hid

/-- what stands below a node that was not put off stays there while others are loaded -/
theorem Ready.leads (hg : g.Ready base target below) (hh : h.Ready base target below) (hlater : Later g h) {a b : Nat}
    (ha : base < a) (hfree : target a = none) (hab : g.Leads a b) : h.Leads a b := by
  obtain ⟨n, hn, hb, hsome⟩ := hab
  obtain ⟨m, hm, -⟩ := hlater.some hn
  have hkept {g : Graph} {n : Node} (hg : g.Ready base target below) (hn : g.get? a = some n) : n.children = below a := by
    have hid : n.id = a := hg.numbered a n hn
    have hfree : target n.frame.id = none := by rw [show n.frame.id = a from hid, hfree]
    rw [← hid]
    exact (hg.frames a n.frame (frame?_of_get? hn) ha).kept hfree
  obtain ⟨n', hn'⟩ := Option.isSome_iff_exists.1 hsome
  obtain ⟨m', hm', -⟩ := hlater.some hn'
  refine ⟨m, hm, ?_, by rw [hm']; rfl⟩
  rw [hkept hh hm, ← hkept hg hn]
  exact hb

theorem frames_giveHint (key : String) (seen : List Nat) (fuel id : Nat) (g : Graph) : SameFrames g (giveHint key seen fuel id g) := by
  induction fuel generalizing g seen id with
  | zero => exact .refl g
  | succ fuel ih =>
    rw [giveHint]
    split
    · exact .refl g
    · split
      · exact .refl g
      · have hm : SameFrames g (g.modify id fun m => if m.hint = "" then { m with hint := key } else m) := by
          refine ⟨size_modify g id _, fun i => ?_⟩
          rw [frame?_modify]
          split
          · unfold frame?
            congr 1
            funext n
            split <;> rfl
          · rfl
        split
        · exact hm.trans (ih _ _ _)
        · exact hm

theorem frames_giveHints (g : Graph) (fields : List (String × Nat)) : SameFrames g (g.giveHints fields) := by
  induction fields generalizing g with
  | nil => exact .refl g
  | cons f rest ih => exact (frames_giveHint _ _ _ _ g).trans (ih _)

end Graph

namespace GraphM

open Graph

variable {base : Nat} {target : Nat → Option Nat} {below : Nat → List Nat} {g : Graph} {id : Nat} {n : Node}

/-- a target is found where it should be -/
theorem resolve_ready (hg : g.Ready base target below) (hn : g.get? id = some n) (hid : base < id) :
    ∃ k m, resolve n g = (.ok (), k) ∧ k.size = g.size ∧ k.Ready base target below ∧ k.get? id = some m ∧ m.onLoad = [] ∧
      ∀ t, target id = some t → m.children = [t] := by
  obtain rfl : n.id = id := hg.numbered id n hn
  have hready := hg.frames n.id n.frame (frame?_of_get? hn) hid
  have hdeferred : n.deferred = (target n.id).map Deferred.node := hready.deferred
  unfold resolve
  cases ht : target n.id with
  | none =>
    rw [ht] at hdeferred
    rw [hdeferred]
    exact ⟨g, n, rfl, rfl, hg, hn, hready.onLoad, fun t h => by cases h⟩
  | some t =>
    rw [ht] at hdeferred
    obtain ⟨hbase, hsize, hchildren⟩ := hready.target t ht
    rw [hdeferred]
    dsimp only [Option.map_some]
    split
    · obtain ⟨f, hf⟩ := exists_frame? (Nat.zero_lt_of_lt hbase) hsize
      obtain ⟨m, hm, -⟩ := Option.map_eq_some_iff.1 hf
      obtain rfl : m.id = t := hg.numbered t m hm
      have htarget : g.target? (.node m.id) = some m := hm
      have hnow : ({ n with children := [m.id] } : Node).frame.Ready base g.size target below := by
        refine ⟨hready.onLoad, fun c hc => ?_, hready.deferred, fun hnone => ?_, fun t' ht' => ?_⟩
        · rw [List.mem_singleton.1 hc]
          exact ⟨hbase, hsize⟩
        · cases ht.symm.trans hnone
        · obtain rfl : m.id = t' := Option.some.inj (ht.symm.trans ht')
          exact ⟨hbase, hsize, .inr rfl⟩
      rw [bind_apply]
      simp only [graph, htarget]
      refine ⟨_, { n with children := [m.id] }, rfl, size_modify .., ?_, ?_, hready.onLoad, ?_⟩
      · apply hg.modify
        intro n' hn'
        obtain rfl := Option.some.inj (hn'.symm.trans hn)
        exact ⟨rfl, fun _ => hnow⟩
      · rw [get?_modify, if_pos rfl, hn]
        rfl
      · intro t' ht'
        rw [Option.some.inj ht']
    · rename_i hempty
      refine ⟨g, n, rfl, rfl, hg, hn, hready.onLoad, fun t' ht' => ?_⟩
      rw [← Option.some.inj ht']
      refine hchildren.resolve_left fun h => hempty ?_
      rw [List.isEmpty_iff]
      exact h.2

/-- **One node.** Loading it succeeds, and the nodes are as ready as before. -/
theorem loadOne_ready (hg : g.Ready base target below) (hn : g.get? id = some n) (hid : base < id) :
    ∃ k, loadOne id g = (.ok (), k) ∧ k.size = g.size ∧ k.Ready base target below := by
  obtain ⟨k, m, hresolve, hsize, hk, hm, hhooks, hchildren⟩ := resolve_ready hg hn hid
  have hsettle : ∃ l, settle id k = (.ok (), l) ∧ SameFrames k l := by
    have hnone : runHooks "onLoad" Event.load id [] k = (.ok (), k) := rfl
    unfold settle
    rw [bind_of_ok (node_of_get? hm), hhooks, bind_of_ok hnone, bind_of_ok (node_of_get? hm)]
    split
    · exact ⟨_, rfl, frames_giveHints k _⟩
    · exact ⟨k, rfl, .refl k⟩
  obtain ⟨l, hsettle, hsame⟩ := hsettle
  have hl := hk.of_frames hsame
  refine ⟨l.modify id fun m => { m with loaded := true }, ?_, ?_, ?_⟩
  · rw [loadOne_eq, bind_of_ok (node_of_get? hn), bind_of_ok hresolve, bind_of_ok hsettle]
    rfl
  · rw [size_modify, hsame.size, hsize]
  · apply hl.modify
    intro m' hm'
    refine ⟨rfl, fun _ => ?_⟩
    have hframe := frame?_of_get? hm'
    have hready := hl.frames id m'.frame hframe hid
    refine ⟨hready.onLoad, hready.children, hready.deferred, hready.kept, fun t ht => ?_⟩
    obtain ⟨hbase, hsize, -⟩ := hready.target t ht
    have hid' : m'.id = id := hl.numbered id m' hm'
    refine ⟨hbase, hsize, .inr ?_⟩
    -- hints leave the children as resolving left them
    rw [hsame.frames, frame?_of_get? hm] at hframe
    have hsamechildren : m'.children = m.children := congrArg Frame.children (Option.some.inj hframe).symm
    exact hsamechildren.trans (hchildren t (hid' ▸ ht))

/-- **A walk.** It succeeds, as long as the stack holds nodes that are ready. -/
theorem loadFrom_ready (steps : Nat) {stack : List Nat} (hg : g.Ready base target below) (hstack : ∀ a ∈ stack, base < a ∧ a ≤ g.size) :
    ∃ k, loadFrom steps stack g = (.ok (), k) ∧ k.size = g.size ∧ k.Ready base target below := by
  induction steps generalizing g stack with
  | zero => exact ⟨g, rfl, rfl, hg⟩
  | succ steps ih =>
    have hdrop : ∀ a ∈ stack.dropWhile g.isLoaded, base < a ∧ a ≤ g.size := fun a ha => hstack a (List.dropWhile_subset _ ha)
    rw [loadFrom, bind_apply]
    simp only [graph]
    cases hd : stack.dropWhile g.isLoaded with
    | nil => exact ⟨g, rfl, rfl, hg⟩
    | cons id rest =>
      rw [hd] at hdrop
      obtain ⟨⟨hid, hle⟩, hrest⟩ := List.forall_mem_cons.1 hdrop
      have hget {g : Graph} (hle : id ≤ g.size) : ∃ n, g.get? id = some n := by
        obtain ⟨f, hf⟩ := exists_frame? (Nat.zero_lt_of_lt hid) hle
        obtain ⟨n, hn, -⟩ := Option.map_eq_some_iff.1 hf
        exact ⟨n, hn⟩
      obtain ⟨n, hn⟩ := hget hle
      obtain ⟨k, hload, hsize, hk⟩ := loadOne_ready hg hn hid
      obtain ⟨m, hm⟩ := hget (hsize ▸ hle)
      have hnext : ∀ a ∈ m.children.filter (fun c => (k.get? c).isSome && !k.isLoaded c) ++ rest, base < a ∧ a ≤ k.size := by
        intro a ha
        rcases List.mem_append.1 ha with ha | ha
        · exact (hk.frames id m.frame (frame?_of_get? hm) hid).children a (List.mem_filter.1 ha).1
        · rw [hsize]
          exact hrest a ha
      obtain ⟨l, hl, hlsize, hlready⟩ := ih hk hnext
      refine ⟨l, ?_, hlsize.trans hsize, hlready⟩
      dsimp only
      rw [bind_of_ok hload, bind_of_ok (node_of_get? hm)]
      exact hl

theorem load_ready (hg : g.Ready base target below) (hid : base < id) (hle : id ≤ g.size) :
    ∃ k, load (some id) g = (.ok (), k) ∧ k.size = g.size ∧ k.Ready base target below := by
  obtain ⟨f, hf⟩ := exists_frame? (Nat.zero_lt_of_lt hid) hle
  obtain ⟨n, hn, -⟩ := Option.map_eq_some_iff.1 hf
  obtain rfl : n.id = id := hg.numbered id n hn
  rw [load, bind_apply]
  simp only [graph, Option.bind_some, hn]
  exact loadFrom_ready g.size hg (by simpa using ⟨hid, hle⟩)

/-- loads in a row: all succeed, and what was loaded stays so -/
theorem loads_succeed (hg : g.Ready base target below) (hclosed : g.ClosedAbove base) {roots : List Nat}
    (hroots : ∀ a ∈ roots, base < a ∧ a ≤ g.size) :
    (∀ o ∈ (loads (roots.map some) g).1, o = .ok ()) ∧ (loads (roots.map some) g).2.Ready base target below ∧
      (loads (roots.map some) g).2.ClosedAbove base ∧ Later g (loads (roots.map some) g).2 ∧
      ∀ a ∈ roots, (loads (roots.map some) g).2.isLoaded a = true := by
  induction roots generalizing g with
  | nil => exact ⟨nofun, hg, hclosed, .refl g, nofun⟩
  | cons root roots ih =>
    obtain ⟨⟨hroot, hle⟩, hroots⟩ := List.forall_mem_cons.1 hroots
    obtain ⟨k, hload, hsize, hk⟩ := load_ready hg hroot hle
    obtain ⟨hwalked, hloaded⟩ := load_walked hg.numbered hload
    have hmore : ∀ a ∈ roots, base < a ∧ a ≤ k.size := fun a ha => hsize ▸ hroots a ha
    obtain ⟨hok, hready, hclosed', hlater, hall⟩ := ih hk (hwalked.closedAbove hclosed) hmore
    simp only [List.map_cons, loads, hload]
    refine ⟨?_, hready, hclosed', hwalked.later.trans hlater, ?_⟩
    · exact List.forall_mem_cons.2 ⟨rfl, hok⟩
    · exact List.forall_mem_cons.2 ⟨hlater.isLoaded hloaded, hall⟩

/-- what a node that is ready reaches lies above `base` as well -/
theorem attains_above (hg : g.Ready base target below) {a b : Nat} (ha : base < a) (hab : g.Attains a b) : base < b := by
  induction hab with
  | refl => exact ha
  | @tail b c _ hbc ih =>
    obtain ⟨n, hn, hc, -⟩ := hbc
    exact ((hg.frames b n.frame (frame?_of_get? hn) ih).children c hc).1

/-- **Loads in a row.** Whatever roots are loaded, all loads succeed; all that a root reaches is loaded then, and a node that was put off
has its target as its only child. -/
theorem loads_ready (hg : g.Ready base target below) (hclosed : g.ClosedAbove base) {roots : List Nat}
    (hroots : ∀ a ∈ roots, base < a ∧ a ≤ g.size) :
    (∀ o ∈ (loads (roots.map some) g).1, o = .ok ()) ∧
      ∀ root ∈ roots, ∀ id, (loads (roots.map some) g).2.Attains root id →
        ∃ n, (loads (roots.map some) g).2.get? id = some n ∧ n.loaded = true ∧ ∀ t, target id = some t → n.children = [t] := by
  obtain ⟨hok, hready, hclosed', -, hloaded⟩ := loads_succeed hg hclosed hroots
  refine ⟨hok, fun root hroot id hreached => ?_⟩
  have hbase := (hroots root hroot).1
  have hid : (loads (roots.map some) g).2.isLoaded id = true := by
    induction hreached with
    | refl => exact hloaded root hroot
    | @tail b c hb hbc ih => exact hclosed' b c (attains_above hready hbase hb) ih hbc
  obtain ⟨n, hn, hl⟩ := isLoaded_iff.1 hid
  refine ⟨n, hn, hl, fun t ht => ?_⟩
  have hid' : n.id = id := hready.numbered id n hn
  have hframe := hready.frames id n.frame (frame?_of_get? hn) (attains_above hready hbase hreached)
  obtain ⟨-, -, hchildren⟩ := hframe.target t (by rw [show n.frame.id = id from hid']; exact ht)
  rcases hchildren with ⟨hunloaded, -⟩ | hchildren
  · rw [show n.frame.loaded = true from hl] at hunloaded
    cases hunloaded
  · exact hchildren

end GraphM

end Schemata
