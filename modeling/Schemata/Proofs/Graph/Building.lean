import Schemata.Proofs.Graph.Loading

/-!
What building a graph adds, and what it leaves.

A node is added at the end of a graph and gets the number after all others (`get?_add`). A setting that is no hook
leaves the frame of its node: what loading goes by. Limits and patterns are settings of texts, numbers, arrays and keys, so
the options of tuples and objects stay whatever is set (`Fixed`). Building does not see what hooks have reported (`Muted`).
-/

namespace Schemata

open Steps

/-- what loading goes by in a node -/
structure Frame where
  id : Nat
  kind : Kind
  children : List Nat
  deferred : Option Deferred
  loaded : Bool
  onLoad : List Hook

def Node.frame (n : Node) : Frame := ⟨n.id, n.kind, n.children, n.deferred, n.loaded, n.onLoad⟩

namespace Setting

/-- does the setting hang a hook on its node? -/
def isHook : Setting → Bool
  | .onLoad _ => true
  | .onExport _ => true
  | .onGenerate _ => true
  | _ => false

/-- no setting of the list hangs a hook on its node -/
def Plain (settings : List Setting) : Prop := ∀ s ∈ settings, isHook s = false

/-- is the setting neither a hook nor a pattern for keys? -/
def isTame : Setting → Bool
  | .onLoad _ => false
  | .onExport _ => false
  | .onGenerate _ => false
  | .keyPattern _ => false
  | _ => true

def Tame (settings : List Setting) : Prop := ∀ s ∈ settings, isTame s = true

theorem Tame.plain {settings : List Setting} (h : Tame settings) : Plain settings := by
  intro s hs
  have := h s hs
  cases s <;> first | rfl | cases this

end Setting

/-- options that no setting changes, but for the pattern for the keys of records -/
def Options.isFixed : Options → Bool
  | .tuple _ => true
  | .object _ => true
  | .record _ => true
  | _ => false

theorem Node.frame_set? {n m : Node} {s : Setting} (hs : s.isHook = false) (h : n.set? s = some m) : m.frame = n.frame := by
  have htext {f : TextOptions → TextOptions} (h : n.mapText? f = some m) : m.frame = n.frame := by
    unfold Node.mapText? at h
    split at h <;> cases h
    rfl
  have hnumber {f : NumberOptions → NumberOptions} (h : n.mapNumber? f = some m) : m.frame = n.frame := by
    unfold Node.mapNumber? at h
    split at h <;> cases h
    rfl
  have harray {f : ArrayLimits → ArrayLimits} (h : n.mapArray? f = some m) : m.frame = n.frame := by
    unfold Node.mapArray? at h
    split at h <;> cases h
    rfl
  cases s with
  | onLoad _ => cases hs
  | onExport _ => cases hs
  | onGenerate _ => cases hs
  | minLength _ => exact htext h
  | maxLength _ => exact htext h
  | pattern _ => exact htext h
  | format _ => exact htext h
  | minimum _ => exact hnumber h
  | maximum _ => exact hnumber h
  | exclusiveMinimum _ => exact hnumber h
  | exclusiveMaximum _ => exact hnumber h
  | multipleOf _ => exact hnumber h
  | minItems _ => exact harray h
  | maxItems _ => exact harray h
  | uniqueItems => exact harray h
  | keyPattern _ =>
    rw [Node.set?] at h
    split at h <;> cases h
    rfl
  | _ => cases h; rfl

theorem Node.options_set? {n m : Node} {s : Setting} (hn : n.options.isFixed = true) (hs : s.isTame = true)
    (h : n.set? s = some m) : m.options = n.options := by
  have htext (f : TextOptions → TextOptions) : n.mapText? f = none := by
    unfold Node.mapText?
    split
    · simp_all [Options.isFixed]
    · rfl
  have hnumber (f : NumberOptions → NumberOptions) : n.mapNumber? f = none := by
    unfold Node.mapNumber?
    split
    · simp_all [Options.isFixed]
    · rfl
  have harray (f : ArrayLimits → ArrayLimits) : n.mapArray? f = none := by
    unfold Node.mapArray?
    split
    · simp_all [Options.isFixed]
    · rfl
  cases s with
  | onLoad _ => cases hs
  | onExport _ => cases hs
  | onGenerate _ => cases hs
  | keyPattern _ => cases hs
  | minLength _ => cases (htext _).symm.trans h
  | maxLength _ => cases (htext _).symm.trans h
  | pattern _ => cases (htext _).symm.trans h
  | format _ => cases (htext _).symm.trans h
  | minimum _ => cases (hnumber _).symm.trans h
  | maximum _ => cases (hnumber _).symm.trans h
  | exclusiveMinimum _ => cases (hnumber _).symm.trans h
  | exclusiveMaximum _ => cases (hnumber _).symm.trans h
  | multipleOf _ => cases (hnumber _).symm.trans h
  | minItems _ => cases (harray _).symm.trans h
  | maxItems _ => cases (harray _).symm.trans h
  | uniqueItems => cases (harray _).symm.trans h
  | _ => cases h; rfl

namespace Graph

/-- the frame of the node of a number -/
def frame? (g : Graph) (id : Nat) : Option Frame := (g.get? id).map Node.frame

/-- the same numbers, and the same frames under them -/
structure SameFrames (g h : Graph) : Prop where
  size : h.size = g.size
  frames : ∀ id, h.frame? id = g.frame? id

/-- fixed options stay -/
def Fixed (g h : Graph) : Prop :=
  ∀ id n, g.get? id = some n → n.options.isFixed = true → ∃ m, h.get? id = some m ∧ m.options = n.options

variable {g h k : Graph}

theorem Fixed.refl (g : Graph) : Fixed g g := fun _ n hn _ => ⟨n, hn, rfl⟩

theorem Fixed.trans (h₁ : Fixed g h) (h₂ : Fixed h k) : Fixed g k := by
  intro id n hn hfixed
  obtain ⟨m, hm, heq⟩ := h₁ id n hn hfixed
  obtain ⟨l, hl, heq'⟩ := h₂ id m hm (heq ▸ hfixed)
  exact ⟨l, hl, heq'.trans heq⟩

theorem SameFrames.refl (g : Graph) : SameFrames g g := ⟨rfl, fun _ => rfl⟩

theorem SameFrames.trans (h₁ : SameFrames g h) (h₂ : SameFrames h k) : SameFrames g k :=
  ⟨h₂.size.trans h₁.size, fun id => (h₂.frames id).trans (h₁.frames id)⟩

/-- the frames of the first graph are in the second -/
def Extends (g h : Graph) : Prop := ∀ id f, g.frame? id = some f → h.frame? id = some f

theorem Extends.refl (g : Graph) : Extends g g := fun _ _ hf => hf

theorem Extends.trans (h₁ : Extends g h) (h₂ : Extends h k) : Extends g k := fun id f hf => h₂ id f (h₁ id f hf)

theorem SameFrames.extends (hsame : SameFrames g h) : Extends g h := fun id _ hf => (hsame.frames id).trans hf

theorem size_modify (g : Graph) (id : Nat) (f : Node → Node) : (g.modify id f).size = g.size := by
  unfold modify size
  split <;> simp

theorem frame?_modify (g : Graph) (id i : Nat) (f : Node → Node) :
    (g.modify id f).frame? i = if i = id then (g.get? i).map fun n => (f n).frame else g.frame? i := by
  unfold frame?
  rw [get?_modify]
  split
  · rw [Option.map_map]
    rfl
  · rfl

@[simp] theorem size_add (g : Graph) (kind : Kind) (options : Options) (children : List Nat) :
    (g.add kind options children).size = g.size + 1 := by
  simp [add, size]

theorem get?_le_size {id : Nat} {n : Node} (h : g.get? id = some n) : 0 < id ∧ id ≤ g.size := by
  unfold get? at h
  split at h
  · cases h
  · obtain ⟨hlt, -⟩ := Array.getElem?_eq_some_iff.1 h
    unfold size
    omega

theorem get?_add (g : Graph) (kind : Kind) (options : Options) (children : List Nat) (id : Nat) :
    (g.add kind options children).get? id =
      if id = g.size + 1 then some { id := g.size + 1, kind, options, children } else g.get? id := by
  unfold get? add size
  by_cases hid : id = 0
  · simp [hid]
  · have hlast : id - 1 = g.nodes.size ↔ id = g.nodes.size + 1 := by omega
    simp only [hid, if_false, Array.getElem?_push, hlast]

theorem exists_frame? {id : Nat} (hid : 0 < id) (h : id ≤ g.size) : ∃ f, g.frame? id = some f := by
  have hlt : id - 1 < g.nodes.size := by
    unfold size at h
    omega
  refine ⟨g.nodes[id - 1].frame, ?_⟩
  unfold frame? get?
  rw [if_neg (by omega), Array.getElem?_eq_getElem hlt]
  rfl

theorem frame?_le_size {id : Nat} {f : Frame} (h : g.frame? id = some f) : id ≤ g.size := by
  obtain ⟨n, hn, -⟩ := Option.map_eq_some_iff.1 h
  exact (get?_le_size hn).2

theorem Extends.size (hext : Extends g h) : g.size ≤ h.size := by
  rcases Nat.eq_zero_or_pos g.size with hzero | hpos
  · omega
  · obtain ⟨f, hf⟩ := exists_frame? hpos le_rfl
    exact frame?_le_size (hext g.size f hf)

theorem frame?_add (g : Graph) (kind : Kind) (options : Options) (children : List Nat) (id : Nat) :
    (g.add kind options children).frame? id =
      if id = g.size + 1 then some ⟨g.size + 1, kind, children, none, false, []⟩ else g.frame? id := by
  unfold frame?
  rw [get?_add]
  split
  · rfl
  · rfl

theorem extends_add (g : Graph) (kind : Kind) (options : Options) (children : List Nat) :
    g.Extends (g.add kind options children) := by
  intro id f hf
  have := frame?_le_size hf
  rw [frame?_add, if_neg (by omega), hf]

theorem isSome_frame? (g : Graph) (id : Nat) : (g.frame? id).isSome = (g.get? id).isSome := Option.isSome_map

end Graph

namespace GraphM

open Graph

/-- a setting changes a node that it fits and that is not loaded, and does nothing otherwise -/
theorem set_cases (id : Nat) (s : Setting) (g : Graph) : (set id s g).2 = g ∨
    ∃ n m, g.get? id = some n ∧ n.set? s = some m ∧ (set id s g).2 = g.modify id fun _ => m := by
  cases hn : g.get? id with
  | none =>
    rw [set, bind_apply]
    simp only [node, hn]
    exact .inl rfl
  | some n =>
    rw [set, bind_of_ok (node_of_get? hn)]
    cases hm : n.set? s with
    | none => exact .inl rfl
    | some m =>
      dsimp only
      rw [change, bind_of_ok (node_of_get? hn)]
      split
      · exact .inl rfl
      · exact .inr ⟨n, m, rfl, hm, rfl⟩

theorem set_of_get? {g : Graph} {id : Nat} {n : Node} (hn : g.get? id = some n) (hl : n.loaded = false) (s : Setting) :
    set id s g = (.ok (), ((n.set? s).map fun m => g.modify id fun _ => m).getD g) := by
  rw [set, bind_of_ok (node_of_get? hn)]
  cases n.set? s with
  | none => rfl
  | some m =>
    dsimp only
    rw [change, bind_of_ok (node_of_get? hn), hl]
    rfl

theorem set_frames (id : Nat) {s : Setting} (hs : s.isHook = false) : Moves SameFrames (set id s) := by
  intro g
  obtain hnone | ⟨n, m, hn, hm, hset⟩ := set_cases id s g
  · rw [hnone]
    exact .refl g
  · rw [hset]
    refine ⟨size_modify g id _, fun i => ?_⟩
    rw [frame?_modify]
    split
    · rename_i hi
      rw [hi, frame?, hn]
      exact congrArg some (Node.frame_set? hs hm)
    · rfl

theorem apply_frames (id : Nat) {settings : List Setting} (hs : Setting.Plain settings) : Moves SameFrames (apply id settings) := by
  induction settings with
  | nil => exact SameFrames.refl
  | cons s settings ih =>
    obtain ⟨hs, hrest⟩ := List.forall_mem_cons.1 hs
    exact Moves.bind (R := SameFrames) (fun _ _ _ => SameFrames.trans) (set_frames id hs) fun _ => ih hrest

theorem set_fixed (id : Nat) {s : Setting} (hs : s.isTame = true) : Moves Fixed (set id s) := by
  intro g
  obtain hnone | ⟨n, m, hn, hm, hset⟩ := set_cases id s g
  · rw [hnone]
    exact .refl g
  · rw [hset]
    intro i k hk hfixed
    rw [get?_modify]
    split
    · rename_i hi
      rw [hi, hn] at hk
      obtain rfl := Option.some.inj hk
      exact ⟨m, by rw [hi, hn]; rfl, Node.options_set? hfixed hs hm⟩
    · exact ⟨k, hk, rfl⟩

theorem apply_fixed (id : Nat) {settings : List Setting} (hs : Setting.Tame settings) : Moves Fixed (apply id settings) := by
  induction settings with
  | nil => exact Fixed.refl
  | cons s settings ih =>
    obtain ⟨hs, hrest⟩ := List.forall_mem_cons.1 hs
    exact Moves.bind (R := Fixed) (fun _ _ _ => Fixed.trans) (set_fixed id hs) fun _ => ih hrest

/-- settings do not fail on a node that is not loaded -/
theorem apply_ok {id : Nat} {settings : List Setting} (hs : Setting.Plain settings) {g : Graph} {f : Frame}
    (hf : g.frame? id = some f) (hl : f.loaded = false) : (apply id settings g).1 = .ok () := by
  induction settings generalizing g with
  | nil => rfl
  | cons s settings ih =>
    obtain ⟨hplain, hrest⟩ := List.forall_mem_cons.1 hs
    obtain ⟨n, hn, rfl⟩ := Option.map_eq_some_iff.1 hf
    have hunloaded : n.loaded = false := hl
    have hset := set_of_get? hn hunloaded s
    have hsame := set_frames id hplain g
    rw [hset] at hsame
    rw [apply, bind_of_ok hset]
    exact ih hrest ((hsame.frames id).trans hf)

theorem add_eq (kind : Kind) (options : Options) (children : List Nat) (settings : List Setting) (g : Graph) :
    add kind options children settings g =
      (apply (g.size + 1) settings >>= fun _ => pure (g.size + 1)) (g.add kind options children) := by
  rw [← size_add g kind options children]
  rfl

/-- **A new node.** Its settings leave its frame, and it has the number after all others. -/
theorem add_frames (kind : Kind) (options : Options) (children : List Nat) {settings : List Setting}
    (hs : Setting.Plain settings) (g : Graph) :
    SameFrames (g.add kind options children) (add kind options children settings g).2 ∧
      ∀ id, (add kind options children settings g).1 = .ok id → id = g.size + 1 := by
  have hframes := apply_frames (g.size + 1) hs (g.add kind options children)
  rw [add_eq, bind_apply]
  rcases hrun : apply (g.size + 1) settings (g.add kind options children) with ⟨e | ⟨⟩, h⟩ <;> rw [hrun] at hframes
  · exact ⟨hframes, fun id hid => by cases hid⟩
  · exact ⟨hframes, fun id hid => (Except.ok.inj hid).symm⟩

/-- a new reference -/
theorem defer_eq (target : Deferred) (g : Graph) : defer target [] g =
    (.ok (g.size + 1), (g.add .ref .none []).modify (g.size + 1) fun n => { n with deferred := some target }) := by
  have hadd : add .ref .none [] [] g = (.ok (g.size + 1), g.add .ref .none []) := by
    rw [add_eq]
    rfl
  have hchange : change (g.size + 1) (fun n => { n with deferred := some target }) (g.add .ref .none []) =
      (.ok (), (g.add .ref .none []).modify (g.size + 1) fun n => { n with deferred := some target }) := by
    rw [change, bind_apply, node, get?_add, if_pos rfl]
    rfl
  rw [defer, bind_of_ok hadd, bind_of_ok hchange]
  rfl

/-! ## What hooks have reported -/

/-- the second graph is the first with more reports at the end -/
def Muted (events : List Event) (g h : Graph) : Prop := h = { g with events := g.events ++ events }

variable {events : List Event}

theorem modify_muted {g h : Graph} (hm : Muted events g h) (id : Nat) (f : Node → Node) :
    Muted events (g.modify id f) (h.modify id f) := by
  subst hm
  unfold Muted Graph.modify
  by_cases hid : id = 0 <;> simp [hid]

theorem set_muted (id : Nat) (s : Setting) : Blind (Muted events) (set id s) := by
  have hnode (id : Nat) : Blind (Muted events) (node id) := by
    rintro g _ rfl
    have hget : ({ g with events := g.events ++ events } : Graph).get? id = g.get? id := rfl
    unfold node
    rw [hget]
    cases g.get? id with
    | none => exact ⟨rfl, rfl⟩
    | some n => exact ⟨rfl, rfl⟩
  refine (hnode id).bind fun n => ?_
  split
  · refine (hnode id).bind fun k => ?_
    split
    · rintro g _ rfl
      exact ⟨rfl, rfl⟩
    · intro g h hm
      exact ⟨rfl, modify_muted hm id _⟩
  · exact .pure _

theorem apply_muted (id : Nat) (settings : List Setting) : Blind (Muted events) (apply id settings) := by
  induction settings with
  | nil => exact .pure _
  | cons s settings ih => exact (set_muted id s).bind fun _ => ih

theorem add_muted (kind : Kind) (options : Options) (children : List Nat) (settings : List Setting) :
    Blind (Muted events) (add kind options children settings) := by
  rintro g _ rfl
  rw [add_eq, add_eq]
  exact ((apply_muted _ settings).bind fun _ => .pure _) _ _ rfl

theorem defer_muted (target : Deferred) : Blind (Muted events) (defer target []) := by
  rintro g _ rfl
  rw [defer_eq, defer_eq]
  have hadd : Muted events (g.add .ref .none []) (({ g with events := g.events ++ events } : Graph).add .ref .none []) := rfl
  exact ⟨rfl, modify_muted hadd (g.size + 1) _⟩

end GraphM

end Schemata
