import Mathlib.Tactic
import Schemata.Proofs.Registry.Names

/-!
Calls on a registry, one after the other.

Every change notes how to take it back, and taking it back leads to a state that cannot be told from the one before
(`undo_changes`). So what all changes keep holds in every state that a discard can lead to as well (`sound_call`), and
discarding what came after a mark gives back declarations, owners, links and final names (`discard_restores`),
whatever was declared, promoted, linked again or discarded in between.
-/

namespace Schemata

/-! ## States that cannot be told apart -/

namespace Declarations

def linkOf? (d : Declarations) (id : Nat) : Option String := (d.links.find? (·.1 == id)).map (·.2)

/-- the same declarations, and the same link for every node, in whatever order the links are kept -/
structure Alike (d e : Declarations) : Prop where
  entries : d.entries = e.entries
  links : ∀ id, d.linkOf? id = e.linkOf? id

variable {d e f : Declarations}

theorem Alike.refl (d : Declarations) : d.Alike d := ⟨rfl, fun _ => rfl⟩

theorem Alike.symm (h : d.Alike e) : e.Alike d := ⟨h.entries.symm, fun id => (h.links id).symm⟩

theorem Alike.trans (h : d.Alike e) (h' : e.Alike f) : d.Alike f :=
  ⟨h.entries.trans h'.entries, fun id => (h.links id).trans (h'.links id)⟩

/-- one node linked anew, or its link taken away -/
theorem linkOf?_relink (d : Declarations) (id : Nat) (s : Option String) (x : Nat) :
    ((Undo.relink id s).apply d).linkOf? x = if x = id then s else d.linkOf? x := by
  have hothers : ((d.links.filter (·.1 != id)).find? (·.1 == x)).map (·.2) = if x = id then none else d.linkOf? x := by
    by_cases hx : x = id
    · subst hx
      rw [if_pos rfl, Option.map_eq_none_iff, List.find?_eq_none]
      intro l hl
      simpa using (List.mem_filter.1 hl).2
    · rw [if_neg hx, linkOf?, List.find?_filter]
      congr 2
      funext l
      by_cases hl : l.1 = x <;> simp [hl, hx]
  cases s with
  | none => simpa [linkOf?, Undo.apply] using hothers
  | some s =>
    by_cases hx : x = id
    · simp [linkOf?, Undo.apply, hx]
    · have hne : ¬ id = x := fun h => hx h.symm
      rw [if_neg hx] at hothers ⊢
      simpa [linkOf?, Undo.apply, hne] using hothers

end Declarations

namespace Undo

open Declarations

theorem apply_alike (u : Undo) {d e : Declarations} (h : d.Alike e) : (u.apply d).Alike (u.apply e) := by
  cases u with
  | relink id s => exact ⟨h.entries, fun x => by rw [linkOf?_relink, linkOf?_relink, h.links]⟩
  | restore p => exact ⟨by simp only [apply, h.entries], h.links⟩
  | forget id => exact ⟨by simp only [apply, h.entries], h.links⟩

theorem foldr_alike (us : List Undo) {d e : Declarations} (h : d.Alike e) : (us.foldr apply d).Alike (us.foldr apply e) := by
  induction us with
  | nil => exact h
  | cons u us ih => exact u.apply_alike ih

end Undo

namespace Registry

/-! ## Calls -/

/-- a call on a registry; every declaration sees the graph as it is then -/
inductive Call where
  | declare (g : Graph) (id : Nat) (file hint : String) (explicit : Bool)
  | link (id : Nat) (text : String)
  | mark
  | discard (mark : Nat)

/-- a registry without declarations -/
def start (target : String) (naming : Naming := .standard) : Registry := { target, naming }

/-- the registry after a call; taking a mark changes nothing, and neither does a declaration that is refused -/
def call (r : Registry) : Call → Registry
  | .declare g id file hint explicit =>
    match r.declare g id file hint explicit with
    | .ok (s, _) => s
    | .error _ => r
  | .link id text => r.link id text
  | .mark => r
  | .discard m => r.discard m

def run (r : Registry) (calls : List Call) : Registry := calls.foldl call r

@[simp] theorem run_nil (r : Registry) : r.run [] = r := rfl

theorem run_append (r : Registry) (A B : List Call) : r.run (A ++ B) = (r.run A).run B := List.foldl_append

theorem run_snoc (r : Registry) (A : List Call) (c : Call) : r.run (A ++ [c]) = (r.run A).call c := by
  rw [run_append]
  rfl

/-- a node linked -/
def linked (r : Registry) (id : Nat) (s : String) : Declarations :=
  { r.now with links := (id, s) :: r.now.links.filter (·.1 != id) }

/-- an inline declaration as an explicit one takes it over -/
def promoted (r : Registry) (g : Graph) (e : Declaration) (file hint : String) : Declaration :=
  let wish := r.baseName g e.id hint e.seq
  { e with file, explicit := true, base := if wish = "" then e.base else wish }

theorem promoted_base (r : Registry) (g : Graph) (e : Declaration) (file hint : String) : (r.promoted g e file hint).base =
    if r.baseName g e.id hint e.seq = "" then e.base else r.baseName g e.id hint e.seq := by
  simp only [promoted]

theorem promoted_id (r : Registry) (g : Graph) (e : Declaration) (file hint : String) : (r.promoted g e file hint).id = e.id := by
  simp only [promoted]

/-- the promoted declaration stands where the inline one stood -/
def promotion (r : Registry) (g : Graph) (e : Declaration) (file hint : String) : Declarations :=
  { r.now with entries := r.now.entries.map fun d => if d.id = e.id then r.promoted g e file hint else d }

/-- a node declared for the first time, behind all others -/
def addition (r : Registry) (g : Graph) (id : Nat) (file hint : String) (explicit : Bool) : Declarations :=
  { r.now with entries := r.now.entries ++
      [{ id, file, base := r.baseName g id hint (r.count + 1), explicit, seq := r.count + 1 }] }

/-- the changes that calls make: the new state, how it is taken back, and the number of first declarations after it -/
inductive Changes (r : Registry) : Declarations → Undo → Nat → Prop where
  | link (id : Nat) (text : String) (h : sanitizeLink text ≠ "") :
    Changes r (r.linked id (sanitizeLink text)) (.relink id (r.linkOf? id)) r.count
  | promote (g : Graph) (e : Declaration) (file hint : String) (he : e ∈ r.now.entries) :
    Changes r (r.promotion g e file hint) (.restore e) r.count
  | add (g : Graph) (id : Nat) (file hint : String) (explicit : Bool) (h : ∀ e ∈ r.now.entries, e.id ≠ id) :
    Changes r (r.addition g id file hint explicit) (.forget id) (r.count + 1)

/-- the registry after a change -/
def changed (r : Registry) (d : Declarations) (u : Undo) (count : Nat) : Registry := { r.record d u with count }

/-- **What a declaration does** while names are not final: a new node is added; an explicit declaration takes over an inline one;
everything else is passed over. -/
theorem declare_cases {r : Registry} (hr : r.names = none) (g : Graph) (id : Nat) (file hint : String) (explicit : Bool) :
    ((∀ e ∈ r.now.entries, e.id ≠ id) ∧ r.call (.declare g id file hint explicit) =
        r.changed (r.addition g id file hint explicit) (.forget id) (r.count + 1)) ∨
      ∃ e ∈ r.now.entries, e.id = id ∧
        (explicit = true ∧ e.explicit = false ∧ r.call (.declare g id file hint explicit) =
            r.changed (r.promotion g e file hint) (.restore e) r.count ∨
          (explicit = true → e.explicit = true) ∧ r.call (.declare g id file hint explicit) = r) := by
  cases hfind : r.find? id with
  | none =>
    refine .inl ⟨fun e he => by simpa using List.find?_eq_none.1 hfind e he, ?_⟩
    simp [call, declare, hr, hfind, changed, addition]
  | some e =>
    obtain rfl : e.id = id := by simpa using List.find?_some hfind
    refine .inr ⟨e, List.mem_of_find?_eq_some hfind, rfl, ?_⟩
    cases hexplicit : explicit with
    | false => exact .inr ⟨by simp, by simp [call, declare, hr, hfind]⟩
    | true =>
      cases he : e.explicit with
      | true => exact .inr ⟨fun _ => rfl, by simp [call, declare, hr, hfind, he]⟩
      | false =>
        refine .inl ⟨rfl, rfl, ?_⟩
        simp [call, declare, hr, hfind, he, changed, promotion, promoted]
        rfl

theorem declare_of_final {r : Registry} (hr : r.names ≠ none) (g : Graph) (id : Nat) (file hint : String) (explicit : Bool) :
    r.call (.declare g id file hint explicit) = r := by
  have : r.names.isSome = true := Option.isSome_iff_ne_none.2 hr
  simp [call, declare, this, abortWith]

/-- **What a call does**: nothing, a discard or one change. -/
theorem call_cases (r : Registry) (c : Call) :
    r.call c = r ∨ (∃ m, c = .discard m ∧ r.call c = r.discard m) ∨
      ∃ d u n, r.Changes d u n ∧ r.call c = r.changed d u n := by
  cases c with
  | mark => exact .inl rfl
  | discard m => exact .inr (.inl ⟨m, rfl, rfl⟩)
  | link id text =>
    by_cases h : sanitizeLink text = ""
    · exact .inl (if_pos h)
    · exact .inr (.inr ⟨_, _, _, .link id text h, if_neg h⟩)
  | declare g id file hint explicit =>
    by_cases hr : r.names = none
    · rcases declare_cases hr g id file hint explicit with ⟨hnew, h⟩ | ⟨e, he, -, ⟨-, -, h⟩ | ⟨-, h⟩⟩
      · exact .inr (.inr ⟨_, _, _, .add g id file hint explicit hnew, h⟩)
      · exact .inr (.inr ⟨_, _, _, .promote g e file hint he, h⟩)
      · exact .inl h
    · exact .inl (declare_of_final hr g id file hint explicit)

/-! ## What every change keeps -/

/-- declared nodes in the order of their first declarations, with names and links that calls give -/
structure Orderly (naming : Naming) (count : Nat) (d : Declarations) : Prop where
  ids : (d.entries.map (·.id)).Nodup
  order : d.entries.Pairwise fun a b => a.seq < b.seq
  bound : ∀ e ∈ d.entries, e.seq ≤ count
  base : ∀ e ∈ d.entries, ∃ (r : Registry) (g : Graph) (hint : String) (pos : Nat),
    r.naming = naming ∧ e.base = r.baseName g e.id hint pos
  links : ∀ id s, d.linkOf? id = some s → s ≠ "" ∧ ∃ text, s = sanitizeLink text

variable {r : Registry} {d e : Declarations} {u : Undo} {n m : Nat} {naming : Naming}

theorem Orderly.alike (h : Orderly naming n d) (hd : d.Alike e) : Orderly naming n e := by
  obtain ⟨hentries, hlinks⟩ := hd
  exact ⟨hentries ▸ h.ids, hentries ▸ h.order, hentries ▸ h.bound, hentries ▸ h.base,
    fun id s hs => h.links id s ((hlinks id).trans hs)⟩

theorem Orderly.mono (h : Orderly naming n d) (hle : n ≤ m) : Orderly naming m d :=
  { h with bound := fun e he => (h.bound e he).trans hle }

theorem Orderly.eq_of_id (h : Orderly naming n d) {x y : Declaration} (hx : x ∈ d.entries) (hy : y ∈ d.entries)
    (hid : x.id = y.id) : x = y := List.inj_on_of_nodup_map h.ids hx hy hid

theorem Orderly.eq_of_seq (h : Orderly naming n d) {x y : Declaration}
    (hx : x ∈ d.entries) (hy : y ∈ d.entries) (hseq : x.seq = y.seq) : x = y := by
  have hnodup : (d.entries.map (·.seq)).Nodup := by
    rw [List.Nodup, List.pairwise_map]
    exact h.order.imp fun hlt => ne_of_lt hlt
  exact List.inj_on_of_nodup_map hnodup hx hy hseq

theorem promotion_ids (r : Registry) (g : Graph) (e : Declaration) (file hint : String) :
    (r.promotion g e file hint).entries.map (·.id) = r.now.entries.map (·.id) := by
  rw [promotion, List.map_map]
  refine List.map_congr_left fun d _ => ?_
  by_cases hd : d.id = e.id
  · simp [promoted, hd]
  · simp [hd]

theorem promotion_seqs (h : Orderly naming n r.now) (g : Graph) {p : Declaration} (hp : p ∈ r.now.entries) (file hint : String) :
    (r.promotion g p file hint).entries.map (·.seq) = r.now.entries.map (·.seq) := by
  rw [promotion, List.map_map]
  refine List.map_congr_left fun d hd => ?_
  by_cases hid : d.id = p.id
  · obtain rfl := h.eq_of_id hd hp hid
    simp [promoted]
  · simp [hid]

theorem mem_promotion {g : Graph} {p x : Declaration} {file hint : String} (h : x ∈ (r.promotion g p file hint).entries) :
    x = r.promoted g p file hint ∨ x ∈ r.now.entries ∧ x.id ≠ p.id := by
  obtain ⟨d, hd, rfl⟩ := List.mem_map.1 h
  by_cases hid : d.id = p.id
  · exact .inl (if_pos hid)
  · rw [if_neg hid]
    exact .inr ⟨hd, hid⟩

theorem mem_addition {g : Graph} {id : Nat} {file hint : String} {explicit : Bool} {x : Declaration} :
    x ∈ (r.addition g id file hint explicit).entries ↔ x ∈ r.now.entries ∨
      x = { id, file, base := r.baseName g id hint (r.count + 1), explicit, seq := r.count + 1 } := by
  simp [addition]

theorem Orderly.changes (h : Orderly r.naming r.count r.now) (hc : r.Changes d u n) :
    r.count ≤ n ∧ Orderly r.naming n d := by
  cases hc with
  | link id text hne =>
    refine ⟨le_rfl, { h with links := fun x s hs => ?_ }⟩
    have hlink := Declarations.linkOf?_relink r.now id (some (sanitizeLink text)) x
    by_cases hx : x = id
    · obtain rfl : sanitizeLink text = s := Option.some.inj (((if_pos hx).symm.trans hlink.symm).trans hs)
      exact ⟨hne, text, rfl⟩
    · exact h.links x s (((if_neg hx).symm.trans hlink.symm).trans hs)
  | promote g p file hint hp =>
    refine ⟨le_rfl, ?_, ?_, fun x hx => ?_, fun x hx => ?_, h.links⟩
    · rw [promotion_ids]
      exact h.ids
    · rw [← List.pairwise_map, promotion_seqs h g hp]
      exact List.pairwise_map.2 h.order
    · rcases mem_promotion hx with rfl | ⟨hx, -⟩
      · exact h.bound p hp
      · exact h.bound x hx
    · rcases mem_promotion hx with rfl | ⟨hx, -⟩
      · by_cases hwish : r.baseName g p.id hint p.seq = ""
        · obtain ⟨s, g', hint', pos, hs, hbase⟩ := h.base p hp
          exact ⟨s, g', hint', pos, hs, by rw [promoted_base, if_pos hwish, promoted_id]; exact hbase⟩
        · exact ⟨r, g, hint, p.seq, rfl, by rw [promoted_base, if_neg hwish, promoted_id]⟩
      · exact h.base x hx
  | add g id file hint explicit hnew =>
    refine ⟨Nat.le_succ _, ?_, ?_, fun x hx => ?_, fun x hx => ?_, h.links⟩
    · rw [addition, List.map_append, List.nodup_append]
      refine ⟨h.ids, by simp, ?_⟩
      rintro _ ha _ hb rfl
      obtain ⟨x, hx, rfl⟩ := List.mem_map.1 ha
      exact hnew x hx (by simpa using hb)
    · rw [addition, List.pairwise_append]
      refine ⟨h.order, List.pairwise_singleton _ _, fun a ha b hb => ?_⟩
      obtain rfl := List.mem_singleton.1 hb
      exact Nat.lt_succ_of_le (h.bound a ha)
    · rcases mem_addition.1 hx with hx | rfl
      · exact (h.bound x hx).trans (Nat.le_succ _)
      · exact le_rfl
    · rcases mem_addition.1 hx with hx | rfl
      · exact h.base x hx
      · exact ⟨r, g, hint, r.count + 1, rfl, rfl⟩

/-! ## Taking changes back -/

/-- **Taking a change back** leads to a state that cannot be told from the one before it. -/
theorem undo_changes (h : Orderly r.naming r.count r.now) (hc : r.Changes d u n) : (u.apply d).Alike r.now := by
  cases hc with
  | link id text hne =>
    refine ⟨rfl, fun x => ?_⟩
    have hlinked := Declarations.linkOf?_relink r.now id (some (sanitizeLink text)) x
    rw [Declarations.linkOf?_relink]
    by_cases hx : x = id
    · rw [if_pos hx, hx]
      rfl
    · rw [if_neg hx] at hlinked ⊢
      exact hlinked
  | promote g e file hint he =>
    refine ⟨?_, fun _ => rfl⟩
    simp only [Undo.apply, promotion, List.map_map]
    conv_rhs => rw [← List.map_id r.now.entries]
    refine List.map_congr_left fun d hd => ?_
    by_cases hde : d.id = e.id
    · obtain rfl := h.eq_of_id hd he hde
      simp [promoted]
    · simp [hde]
  | add g id file hint explicit hnew =>
    refine ⟨?_, fun _ => rfl⟩
    simp only [Undo.apply, addition, List.filter_append]
    rw [List.filter_eq_self.2 fun e he => by simpa using hnew e he]
    simp

theorem discard_mark (r : Registry) : (r.discard r.mark).now = r.now := by
  simp [discard, mark]

theorem discard_changed (d : Declarations) (u : Undo) (n : Nat) (hm : m ≤ r.mark) :
    ((r.changed d u n).discard m).now = (r.journal.drop m).foldr Undo.apply (u.apply d) := by
  simp [discard, changed, record, List.drop_append_of_le_length hm]

theorem discard_changed_of_lt (d : Declarations) (u : Undo) (n : Nat) (hm : r.mark < m) :
    ((r.changed d u n).discard m).now = d := by
  have : (r.journal ++ [u]).drop m = [] := by
    rw [List.drop_eq_nil_iff, List.length_append]
    exact hm
  simp [discard, changed, record, this]

/-- of two discards, the one that goes further back counts -/
theorem discard_discard (r : Registry) (k m : Nat) : ((r.discard k).discard m).now = (r.discard (min k m)).now := by
  have : (r.journal.take k).drop m ++ r.journal.drop k = r.journal.drop (min k m) := by
    rcases le_total k m with h | h
    · have hnil : (r.journal.take k).drop m = [] := by
        rw [List.drop_eq_nil_iff, List.length_take]
        omega
      rw [hnil, List.nil_append, min_eq_left h]
    · rw [min_eq_right h, List.drop_take]
      conv_rhs => rw [← List.take_append_drop (k - m) (r.journal.drop m), List.drop_drop, Nat.add_sub_cancel' h]
  simp only [discard, ← this, List.foldr_append]

/-- every state that a discard can lead to is orderly -/
def Sound (r : Registry) : Prop := ∀ m, Orderly r.naming r.count (r.discard m).now

theorem Sound.now (h : r.Sound) : Orderly r.naming r.count r.now := r.discard_mark ▸ h r.mark

theorem sound_start (target : String) (naming : Naming) : (start target naming).Sound := by
  intro m
  have : ((start target naming).discard m).now = {} := by simp [start, discard]
  rw [this]
  exact ⟨List.nodup_nil, .nil, by simp, by simp, by simp [Declarations.linkOf?]⟩

/-- a change after a change: whatever is discarded, nothing else comes up -/
theorem Sound.changed (h : r.Sound) (hc : r.Changes d u n) : (r.changed d u n).Sound := by
  obtain ⟨hle, hd⟩ := h.now.changes hc
  intro m
  rcases Nat.lt_or_ge r.mark m with hm | hm
  · rw [discard_changed_of_lt d u n hm]
    exact hd
  · rw [discard_changed d u n hm]
    exact ((h m).alike (Undo.foldr_alike _ (undo_changes h.now hc).symm)).mono hle

theorem Sound.discard (h : r.Sound) (k : Nat) : (r.discard k).Sound := by
  intro m
  rw [discard_discard]
  exact h (min k m)

theorem Sound.call (h : r.Sound) (c : Call) : (r.call c).Sound := by
  rcases r.call_cases c with hc | ⟨m, -, hc⟩ | ⟨d, u, n, hchange, hc⟩ <;> rw [hc]
  · exact h
  · exact h.discard m
  · exact h.changed hchange

theorem Sound.run (h : r.Sound) (calls : List Call) : (r.run calls).Sound := by
  induction calls using List.reverseRecOn with
  | nil => exact h
  | append_singleton calls c ih =>
    rw [run_snoc]
    exact ih.call c

/-- no call touches the rules for names, the target or final names -/
theorem call_keeps (r : Registry) (c : Call) :
    (r.call c).naming = r.naming ∧ (r.call c).target = r.target ∧ (r.call c).names = r.names := by
  rcases r.call_cases c with hc | ⟨m, -, hc⟩ | ⟨d, u, n, -, hc⟩ <;> rw [hc] <;> exact ⟨rfl, rfl, rfl⟩

theorem run_keeps (r : Registry) (calls : List Call) :
    (r.run calls).naming = r.naming ∧ (r.run calls).target = r.target ∧ (r.run calls).names = r.names := by
  induction calls using List.reverseRecOn with
  | nil => exact ⟨rfl, rfl, rfl⟩
  | append_singleton calls c ih =>
    obtain ⟨hnaming, htarget, hnames⟩ := (r.run calls).call_keeps c
    rw [run_snoc]
    exact ⟨hnaming.trans ih.1, htarget.trans ih.2.1, hnames.trans ih.2.2⟩

/-! ## Discarding what came after a mark -/

/-- discarding after the mark of `a` leads from `r` back to what `a` is -/
structure Keeps (a r : Registry) : Prop where
  mark : a.mark ≤ r.mark
  back : (r.discard a.mark).now.Alike a.now

theorem Keeps.call {a : Registry} (h : Keeps a r) (hr : r.Sound) {c : Call} (hc : ∀ m, c = .discard m → a.mark ≤ m) :
    Keeps a (r.call c) := by
  rcases r.call_cases c with hcall | ⟨m, rfl, hcall⟩ | ⟨d, u, n, hchange, hcall⟩ <;> rw [hcall]
  · exact h
  · have hm := hc m rfl
    refine ⟨?_, ?_⟩
    · have hlength := h.mark
      simp only [Registry.mark, discard, List.length_take] at hm hlength ⊢
      exact le_min hm hlength
    · rw [discard_discard, min_eq_right hm]
      exact h.back
  · refine ⟨?_, ?_⟩
    · have hlength := h.mark
      simp only [Registry.mark, changed, record, List.length_append] at hlength ⊢
      exact hlength.trans (Nat.le_add_right _ _)
    · rw [discard_changed d u n h.mark]
      exact (Undo.foldr_alike _ (undo_changes hr.now hchange)).trans h.back

/-- whatever is called after a mark without going back further, the mark stays good -/
theorem keeps_run {a : Registry} (ha : a.Sound) {calls : List Call} (hcalls : ∀ m, .discard m ∈ calls → a.mark ≤ m) :
    Keeps a (a.run calls) := by
  induction calls using List.reverseRecOn with
  | nil => exact ⟨le_rfl, by rw [run_nil, discard_mark]; exact .refl _⟩
  | append_singleton calls c ih =>
    rw [run_snoc]
    have hkeeps := ih fun m hm => hcalls m (List.mem_append_left _ hm)
    apply hkeeps.call (ha.run calls)
    intro m hm
    apply hcalls m
    exact List.mem_append_right _ (List.mem_singleton.2 hm.symm)

/-- final names do not tell alike states apart -/
theorem computeNames_alike {r s : Registry} (hnaming : r.naming = s.naming) (h : r.now.Alike s.now) :
    r.computeNames = s.computeNames := by
  have hlink : r.linkOf? = s.linkOf? := funext h.links
  have hassign (group : List Declaration) : r.assign group = s.assign group := by
    simp only [assign, hlink]
  simp only [computeNames, files, attributes, hassign, h.entries, hnaming]

theorem finalize_alike {r s : Registry} (hnaming : r.naming = s.naming) (hr : r.names = none) (hs : s.names = none)
    (h : r.now.Alike s.now) : r.finalize.names = s.finalize.names := by
  simp [finalize, hr, hs, computeNames_alike hnaming h]

/-- **Discarding restores a registry.** Whatever came after a mark, be it declarations of new nodes, promotions, further links
or discards to marks taken since, discarding it leaves every node declared, owned and linked as it was at the mark, and
the final names are those of the registry as it was. -/
theorem discard_restores (target : String) (naming : Naming) (A B : List Call)
    (hB : ∀ m, .discard m ∈ B → ((start target naming).run A).mark ≤ m) :
    let a := (start target naming).run A
    let r := (a.run B).discard a.mark
    (∀ id, r.declared id = a.declared id ∧ r.owner? id = a.owner? id ∧ r.linkOf? id = a.linkOf? id) ∧
      (∀ p, r.finalize.lookup? p = a.finalize.lookup? p) ∧
      ∀ file, r.finalize.symbols file = a.finalize.symbols file := by
  intro a r
  have hsound : a.Sound := (sound_start target naming).run A
  have halike : r.now.Alike a.now := (keeps_run hsound hB).back
  obtain ⟨hnaming, -, hnone⟩ := a.run_keeps B
  have hfresh : a.names = none := ((start target naming).run_keeps A).2.2
  have hnames : r.finalize.names = a.finalize.names := finalize_alike hnaming (hnone.trans hfresh) hfresh halike
  refine ⟨?_, ?_, ?_⟩
  · intro id
    have hfind : r.find? id = a.find? id := by rw [find?, find?, halike.entries]
    have hdeclared : r.declared id = a.declared id := by rw [declared, declared, hfind]
    have howner : r.owner? id = a.owner? id := by rw [owner?, owner?, hfind]
    exact ⟨hdeclared, howner, halike.links id⟩
  · intro p
    rw [lookup?, lookup?, hnames]
  · intro file
    rw [symbols, symbols, hnames]

theorem discard_restores_nested :
    let a := (start "go").run [.declare {} 1 "ok" "Keep" false, .declare {} 2 "ok" "Other" true, .link 2 "Forced"]
    let B : List Call := [.declare {} 1 "bad" "Mine" true, .link 2 "Again", .mark, .declare {} 3 "bad" "Drop" false,
      .link 1 "Late", .discard 5, .declare {} 4 "ok" "Keep" false]
    (∀ m, .discard m ∈ B → a.mark ≤ m) ∧ (a.run B).finalize.symbols "ok" = ["Again", "Keep"] ∧
      ((a.run B).discard a.mark).finalize.symbols "ok" = ["Keep", "Forced"] := by
  intro a B
  have hB : ∀ m, .discard m ∈ B → a.mark ≤ m := by
    intro m hm
    obtain rfl : m = 5 := by simpa [B] using hm
    decide +kernel
  refine ⟨hB, ?_, ?_⟩
  · rw [finalize_listed (by decide +kernel)]
    decide +kernel
  · rw [(discard_restores "go" .standard _ B hB).2.2, finalize_listed (by decide +kernel)]
    decide +kernel

end Registry

end Schemata
