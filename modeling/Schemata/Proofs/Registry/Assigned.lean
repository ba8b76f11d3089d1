import Mathlib.Tactic
import Schemata.Proofs.Registry.Calls

/-!
Final names, after any calls.

A declaration asks for its link, or else for its base name. A name that some declaration of a file asks for is in use
exactly when one before it asked for it (`Fair.mem_used`), and a number is only given to a name that nobody asks for.
So the names of a file are distinct exactly when no link is what an earlier declaration of the file asks for
(`nodup_nameAll`). Every attribute of a node follows from its name and its file (`Unnamed.lookup_eq`).
-/

namespace Schemata.Registry

/-! ## One declaration -/

namespace Assignment

/-- the number that is tried next for a base name -/
def nextNumber (a : Assignment) (base : String) : Nat := ((a.next.find? (·.1 == base)).map (·.2)).getD 0

theorem nextNumber_filter (a : Assignment) (used : List String) (symbols : List (Nat × String)) (base : String) (n : Nat)
    (b : String) : nextNumber { used, next := (base, n) :: a.next.filter (·.1 != base), symbols } b =
      if b = base then n else a.nextNumber b := by
  by_cases hb : b = base
  · simp [nextNumber, hb]
  · have hne : ¬ base = b := fun h => hb h.symm
    have hfind : (a.next.filter (·.1 != base)).find? (·.1 == b) = a.next.find? (·.1 == b) := by
      rw [List.find?_filter]
      congr 1
      funext e
      by_cases he : e.1 = b <;> simp [he, hb]
    simp [nextNumber, hb, hne, hfind]

/-- what a declaration is named, and the numbers to try after it -/
inductive Gives (taken : List String) (a : Assignment) (e : Declaration) : Option String → String → List (String × Nat) → Prop where
  | linked (s : String) : Gives taken a e (some s) s a.next
  | bare (h : e.base ∉ a.used) : Gives taken a e none e.base a.next
  | numbered (n : Nat) (hused : e.base ∈ a.used) (htaken : e.base ++ toString n ∉ taken)
      (hfree : e.base ++ toString n ∉ a.used) (hstart : a.nextNumber e.base ≤ n)
      (hskip : ∀ k, a.nextNumber e.base ≤ k → k < n → e.base ++ toString k ∈ taken ∨ e.base ++ toString k ∈ a.used) :
    Gives taken a e none (e.base ++ toString n) ((e.base, n + 1) :: a.next.filter (·.1 != e.base))

theorem name_gives (taken : List String) (a : Assignment) (e : Declaration) (link : Option String) :
    ∃ s next, Gives taken a e link s next ∧
      a.name taken e link = { used := s :: a.used, next, symbols := a.symbols ++ [(e.id, s)] } := by
  cases link with
  | some s => exact ⟨s, a.next, .linked s, rfl⟩
  | none =>
    by_cases hused : e.base ∈ a.used
    · obtain ⟨n, hn, hstart, hskip⟩ := freeNumber_spec (taken ++ a.used) e.base ((taken ++ a.used).length + 1) (a.nextNumber e.base)
      have hfree := freeNumber_free (taken ++ a.used) e.base (a.nextNumber e.base)
      rw [hn, List.mem_append, not_or] at hfree
      refine ⟨_, _, .numbered n hused hfree.1 hfree.2 hstart fun k hk hlt => List.mem_append.1 (hskip k hk hlt), ?_⟩
      have hname : a.name taken e none =
          { used := (freeNumber (taken ++ a.used) e.base ((taken ++ a.used).length + 1) (a.nextNumber e.base)).1 :: a.used
            next := (e.base, (freeNumber (taken ++ a.used) e.base ((taken ++ a.used).length + 1) (a.nextNumber e.base)).2) ::
              a.next.filter (·.1 != e.base)
            symbols := a.symbols ++
              [(e.id, (freeNumber (taken ++ a.used) e.base ((taken ++ a.used).length + 1) (a.nextNumber e.base)).1)] } :=
        if_pos (by simpa using hused)
      rw [hname, hn]
    · exact ⟨e.base, a.next, .bare hused, if_neg (by simpa using hused)⟩

end Assignment

/-! ## The declarations of one file -/

section

variable (link : Nat → Option String) (taken : List String)

/-- the name that a declaration asks for -/
def wish (e : Declaration) : String := (link e.id).getD e.base

/-- declarations named one after the other -/
def nameAll (group : List Declaration) : Assignment := group.foldl (fun a e => a.name taken e (link e.id)) {}

theorem nameAll_snoc (group : List Declaration) (e : Declaration) :
    nameAll link taken (group ++ [e]) = (nameAll link taken group).name taken e (link e.id) := by
  simp [nameAll, List.foldl_append]

theorem assign_nameAll (r : Registry) (group : List Declaration) :
    r.assign group = (nameAll r.linkOf? (group.map (wish r.linkOf?)) group).symbols := rfl

/-- what naming keeps: every wish is in use, and what is in use without a wish is nobody's wish -/
structure Fair (group : List Declaration) (a : Assignment) : Prop where
  ids : a.symbols.map (·.1) = group.map (·.id)
  used : ∀ s, s ∈ a.used ↔ s ∈ a.symbols.map (·.2)
  wished : ∀ e ∈ group, wish link e ∈ a.used
  taken : ∀ s ∈ a.used, s ∈ taken → ∃ e ∈ group, wish link e = s

variable {link taken} {group : List Declaration} {a : Assignment}

theorem Fair.name (h : Fair link taken group a) {e : Declaration} {s : String} {next : List (String × Nat)}
    (hs : a.Gives taken e (link e.id) s next) :
    Fair link taken (group ++ [e]) { used := s :: a.used, next, symbols := a.symbols ++ [(e.id, s)] } := by
  have hwish : wish link e ∈ s :: a.used ∧ (s ∈ taken → wish link e = s) := by
    unfold wish
    generalize link e.id = l at hs
    cases hs with
    | linked => exact ⟨List.mem_cons_self, fun _ => rfl⟩
    | bare => exact ⟨List.mem_cons_self, fun _ => rfl⟩
    | numbered n hused htaken => exact ⟨List.mem_cons_of_mem _ hused, fun hmem => absurd hmem htaken⟩
  refine ⟨by simp [h.ids], fun t => ?_, fun d hd => ?_, fun t ht htaken => ?_⟩
  · simp only [List.mem_cons, h.used, List.map_append, List.mem_append, List.map_cons, List.map_nil, List.not_mem_nil, or_false]
    exact or_comm
  · rcases List.mem_append.1 hd with hd | hd
    · exact List.mem_cons_of_mem s (h.wished d hd)
    · rw [List.mem_singleton.1 hd]
      exact hwish.1
  · rcases List.mem_cons.1 ht with rfl | ht
    · exact ⟨e, by simp, hwish.2 htaken⟩
    · obtain ⟨d, hd, hds⟩ := h.taken t ht htaken
      exact ⟨d, List.mem_append_left _ hd, hds⟩

theorem nameAll_fair (group : List Declaration) : Fair link taken group (nameAll link taken group) := by
  induction group using List.reverseRecOn with
  | nil => exact ⟨rfl, by simp [nameAll], by simp, by simp [nameAll]⟩
  | append_singleton group e ih =>
    obtain ⟨s, next, hs, hname⟩ := (nameAll link taken group).name_gives taken e (link e.id)
    rw [nameAll_snoc, hname]
    exact ih.name hs

/-- **Wishes in use.** A name that somebody asks for is in use exactly when it was asked for already. -/
theorem Fair.mem_used (h : Fair link taken group a) {s : String} (hs : s ∈ taken) : s ∈ a.used ↔ ∃ e ∈ group, wish link e = s :=
  ⟨fun hu => h.taken s hu hs, fun ⟨e, he, hw⟩ => hw ▸ h.wished e he⟩

/-- only a link can repeat a name -/
theorem Fair.repeats_iff (h : Fair link taken group a) {e : Declaration} (he : wish link e ∈ taken) {s : String}
    {next : List (String × Nat)} (hs : a.Gives taken e (link e.id) s next) :
    s ∈ a.used ↔ ∃ d ∈ group, link e.id = some (wish link d) := by
  rw [wish] at he
  generalize link e.id = l at hs he
  cases hs with
  | linked =>
    have hused : s ∈ a.used ↔ ∃ d ∈ group, wish link d = s := h.mem_used he
    simpa only [Option.some.injEq, eq_comm] using hused
  | bare hbase => exact iff_of_false hbase (by simp)
  | numbered n _ _ hfree => exact iff_of_false hfree (by simp)

/-- the names of a file are distinct exactly when no link is what an earlier declaration asks for -/
theorem nodup_nameAll (htaken : ∀ e ∈ group, wish link e ∈ taken) :
    ((nameAll link taken group).symbols.map (·.2)).Nodup ↔ group.Pairwise fun d e => link e.id ≠ some (wish link d) := by
  induction group using List.reverseRecOn with
  | nil => simp [nameAll]
  | append_singleton group e ih =>
    obtain ⟨s, next, hs, hname⟩ := (nameAll link taken group).name_gives taken e (link e.id)
    have hfair : Fair link taken group (nameAll link taken group) := nameAll_fair group
    have hrepeats := hfair.repeats_iff (htaken e (by simp)) hs
    have hnew : (∀ t ∈ (nameAll link taken group).symbols.map (·.2), t ≠ s) ↔ ∀ d ∈ group, link e.id ≠ some (wish link d) := by
      rw [hfair.used] at hrepeats
      constructor
      · intro h d hd hlink
        exact h s (hrepeats.2 ⟨d, hd, hlink⟩) rfl
      · rintro h t ht rfl
        obtain ⟨d, hd, hlink⟩ := hrepeats.1 ht
        exact h d hd hlink
    rw [nameAll_snoc, hname, List.map_append, List.nodup_append, List.pairwise_append,
      ih fun d hd => htaken d (List.mem_append_left _ hd)]
    simp only [List.map_cons, List.map_nil, List.nodup_singleton, List.pairwise_singleton, List.mem_singleton, true_and,
      forall_eq]
    rw [hnew]

end

/-- a name is the link, or else the base name, with a number or without -/
theorem mem_nameAll {link : Nat → Option String} {taken : List String} {group : List Declaration} {p : Nat × String}
    (hp : p ∈ (nameAll link taken group).symbols) :
    ∃ e ∈ group, e.id = p.1 ∧ (link e.id = some p.2 ∨ p.2 = e.base ∨ ∃ n : Nat, p.2 = e.base ++ toString n) := by
  induction group using List.reverseRecOn with
  | nil => cases hp
  | append_singleton group e ih =>
    obtain ⟨s, next, hs, hname⟩ := (nameAll link taken group).name_gives taken e (link e.id)
    rw [nameAll_snoc, hname] at hp
    rcases List.mem_append.1 hp with hp | hp
    · obtain ⟨d, hd, hrest⟩ := ih hp
      exact ⟨d, List.mem_append_left _ hd, hrest⟩
    · obtain rfl := List.mem_singleton.1 hp
      refine ⟨e, by simp, rfl, ?_⟩
      generalize link e.id = l at hs
      cases hs with
      | linked => exact .inl rfl
      | bare => exact .inr (.inl rfl)
      | numbered n => exact .inr (.inr ⟨n, rfl⟩)

/-! ## Final names -/

/-- with standard names, not final -/
structure Unnamed (r : Registry) : Prop where
  sound : r.Sound
  naming : r.naming = .standard
  names : r.names = none

theorem unnamed_run (target : String) (calls : List Call) : ((start target).run calls).Unnamed :=
  let ⟨hnaming, _, hnames⟩ := (start target).run_keeps calls
  ⟨(sound_start target .standard).run calls, hnaming, hnames⟩

/-- the declarations of a file, in order -/
def entriesOf (r : Registry) (file : String) : List Declaration := r.now.entries.filter (·.file == file)

/-- the name that a declared node gets -/
def nameOf (r : Registry) (id : Nat) : String :=
  (((r.find? id).bind fun e => (r.assign (r.entriesOf e.file)).find? (·.1 == id)).map (·.2)).getD ""

/-- the attributes of a node with standard names -/
def standardValue? (attr file symbol : String) : Option String :=
  if attr = symbolAttr ∨ attr = refAttr then some symbol
  else if attr = uniqueAttr then some (file ++ "#" ++ symbol)
  else if attr = fileAttr then some file
  else none

variable {r : Registry}

theorem mem_attributes (hr : r.naming = .standard) (file : String) (id : Nat) (symbol : String) (p : Placeholder)
    (v : String) : (p, v) ∈ r.attributes file id symbol ↔ id = p.node ∧ standardValue? p.attr file symbol = some v := by
  obtain ⟨node, attr⟩ := p
  simp only [attributes, hr, Naming.standard, List.map_cons, List.map_nil, List.mem_append, List.mem_cons, Prod.mk.injEq,
    Placeholder.mk.injEq, List.not_mem_nil, or_false, standardValue?]
  by_cases hsymbol : attr = symbolAttr
  · subst hsymbol
    simp [symbolAttr, refAttr, uniqueAttr, fileAttr, eq_comm]
  by_cases href : attr = refAttr
  · subst href
    simp [symbolAttr, refAttr, uniqueAttr, fileAttr, eq_comm]
  by_cases hunique : attr = uniqueAttr
  · subst hunique
    simp [symbolAttr, refAttr, uniqueAttr, fileAttr, eq_comm]
  by_cases hfile : attr = fileAttr
  · subst hfile
    simp [symbolAttr, refAttr, uniqueAttr, fileAttr, eq_comm]
  simp [hsymbol, href, hunique, hfile]

namespace Unnamed

theorem find?_eq_some (h : r.Unnamed) {id : Nat} {e : Declaration} : r.find? id = some e ↔ e ∈ r.now.entries ∧ e.id = id := by
  constructor
  · intro hf
    exact ⟨List.mem_of_find?_eq_some hf, by simpa using List.find?_some hf⟩
  · rintro ⟨he, rfl⟩
    cases hf : r.find? e.id with
    | none => exact absurd (List.find?_eq_none.1 hf e he) (by simp)
    | some d =>
      have hd : d.id = e.id := by simpa using List.find?_some hf
      rw [h.sound.now.eq_of_id (List.mem_of_find?_eq_some hf) he hd]

theorem listed (h : r.Unnamed) : r.finalize = r.listed :=
  finalize_listed ⟨h.names, h.sound.now.order.imp fun hlt => by simpa using hlt.le⟩

/-- the names that a file's declarations get -/
theorem assign_eq (h : r.Unnamed) (file : String) :
    r.assign (r.entriesOf file) = (r.entriesOf file).map fun e => (e.id, r.nameOf e.id) := by
  have hids : (r.assign (r.entriesOf file)).map (·.1) = (r.entriesOf file).map (·.id) := by
    rw [assign_nameAll]
    exact (nameAll_fair _).ids
  have hnodup : ((r.assign (r.entriesOf file)).map (·.1)).Nodup := by
    rw [hids]
    exact h.sound.now.ids.sublist (List.filter_sublist.map _)
  have hkeys : (r.assign (r.entriesOf file)).map (fun p => (p.1, r.nameOf p.1)) = r.assign (r.entriesOf file) := by
    conv_rhs => rw [← List.map_id (r.assign (r.entriesOf file))]
    refine List.map_congr_left fun p hp => ?_
    obtain ⟨id, s⟩ := p
    have hid : id ∈ (r.entriesOf file).map (·.id) := hids ▸ List.mem_map_of_mem hp
    obtain ⟨e, he, rfl⟩ := List.mem_map.1 hid
    obtain ⟨hmem, hfile⟩ := List.mem_filter.1 he
    obtain rfl : e.file = file := by simpa using hfile
    have hfind := find?_key hp fun w hw => congrArg Prod.snd (List.inj_on_of_nodup_map hnodup hw hp rfl)
    simp only [nameOf, h.find?_eq_some.2 ⟨hmem, rfl⟩, Option.bind_some, hfind, Option.map_some, Option.getD_some, id]
  calc r.assign (r.entriesOf file)
      = ((r.assign (r.entriesOf file)).map (·.1)).map fun i => (i, r.nameOf i) := by rw [List.map_map]; exact hkeys.symm
    _ = (r.entriesOf file).map fun e => (e.id, r.nameOf e.id) := by rw [hids, List.map_map]; rfl

/-- **Final attributes.** A node has the attributes that follow from its name and its file, an undeclared one has none. -/
theorem lookup_eq (h : r.Unnamed) (p : Placeholder) :
    r.finalize.lookup? p = (r.find? p.node).bind fun e => standardValue? p.attr e.file (r.nameOf e.id) := by
  have hmem (v : String) : (p, v) ∈ r.listedNames.values ↔
      ((r.find? p.node).bind fun e => standardValue? p.attr e.file (r.nameOf e.id)) = some v := by
    simp only [Option.bind_eq_some_iff, h.find?_eq_some, listedNames, List.mem_flatMap, List.mem_map]
    constructor
    · rintro ⟨-, ⟨file, -, rfl⟩, ⟨id, s⟩, hs, hv⟩
      obtain ⟨e, he, heq⟩ := List.mem_map.1 (h.assign_eq file ▸ hs)
      obtain ⟨rfl, rfl⟩ := Prod.mk.inj heq
      obtain ⟨hmem, hfile⟩ := List.mem_filter.1 he
      obtain rfl : e.file = file := by simpa using hfile
      obtain ⟨hnode, hv⟩ := (mem_attributes h.naming ..).1 hv
      exact ⟨e, ⟨hmem, hnode⟩, hv⟩
    · rintro ⟨e, ⟨he, hnode⟩, hv⟩
      refine ⟨_, ⟨e.file, ?_, rfl⟩, (e.id, r.nameOf e.id), ?_, (mem_attributes h.naming ..).2 ⟨hnode, hv⟩⟩
      · rw [files, mem_sortedSet]
        exact List.mem_map_of_mem he
      · change (e.id, r.nameOf e.id) ∈ r.assign (r.entriesOf e.file)
        rw [h.assign_eq]
        exact List.mem_map_of_mem (List.mem_filter.2 ⟨he, by simp⟩)
  have hlookup : r.finalize.lookup? p = (r.listedNames.values.find? (·.1 == p)).map (·.2) := by
    rw [h.listed]
    rfl
  refine Option.ext fun v => ?_
  rw [hlookup, ← hmem]
  constructor
  · intro hv
    obtain ⟨⟨q, w⟩, hf, rfl⟩ := Option.map_eq_some_iff.1 hv
    obtain rfl : q = p := by simpa using List.find?_some hf
    exact List.mem_of_find?_eq_some hf
  · intro hv
    rw [find?_key hv fun w hw => Option.some.inj (((hmem w).1 hw).symm.trans ((hmem v).1 hv)), Option.map_some]

theorem symbols_eq (h : r.Unnamed) (file : String) :
    r.finalize.symbols file = (r.entriesOf file).map fun e => r.nameOf e.id := by
  have hgroups : r.listedNames.symbols =
      Dict.ofList (r.files.map fun f => (f, (r.entriesOf f).map fun e => r.nameOf e.id)) := by
    simp only [listedNames, List.map_map]
    congr 1
    refine List.map_congr_left fun f _ => ?_
    change (f, (r.assign (r.entriesOf f)).map (·.2)) = _
    rw [h.assign_eq, List.map_map]
    rfl
  rw [h.listed]
  change (r.listedNames.symbols.get? file).getD [] = _
  rw [hgroups, Dict.get?_ofList, ← List.map_reverse, Dict.get?_keyed]
  split
  · rfl
  · rename_i hfile
    have hnil : r.entriesOf file = [] := by
      rw [entriesOf, List.filter_eq_nil_iff]
      intro e he heq
      refine hfile ?_
      rw [List.mem_reverse, files, mem_sortedSet]
      exact List.mem_map.2 ⟨e, he, by simpa using heq⟩
    rw [hnil]
    rfl

theorem call (h : r.Unnamed) (c : Call) : (r.call c).Unnamed :=
  let ⟨hnaming, _, hnames⟩ := r.call_keeps c
  ⟨h.sound.call c, hnaming.trans h.naming, hnames.trans h.names⟩

theorem nameOf_cases (h : r.Unnamed) {e : Declaration} (he : e ∈ r.now.entries) :
    r.linkOf? e.id = some (r.nameOf e.id) ∨ r.nameOf e.id = e.base ∨ ∃ n : Nat, r.nameOf e.id = e.base ++ toString n := by
  have hmem : (e.id, r.nameOf e.id) ∈ r.assign (r.entriesOf e.file) := by
    rw [h.assign_eq]
    exact List.mem_map_of_mem (List.mem_filter.2 ⟨he, by simp⟩)
  obtain ⟨d, hd, hid, hcases⟩ := mem_nameAll hmem
  obtain rfl := h.sound.now.eq_of_id (List.mem_filter.1 hd).1 he hid
  exact hcases

theorem nodup_entriesOf (h : r.Unnamed) (file : String) : (r.entriesOf file).Nodup :=
  (List.Nodup.of_map _ h.sound.now.ids).sublist List.filter_sublist

/-- the names of a file are distinct exactly when no link is what an earlier declaration asks for -/
theorem nodup_nameOf (h : r.Unnamed) (file : String) : ((r.entriesOf file).map fun e => r.nameOf e.id).Nodup ↔
    (r.entriesOf file).Pairwise fun d e => r.linkOf? e.id ≠ some (wish r.linkOf? d) := by
  have hwishes : ∀ e ∈ r.entriesOf file, wish r.linkOf? e ∈ (r.entriesOf file).map (wish r.linkOf?) :=
    fun e he => List.mem_map_of_mem he
  have hnodup := nodup_nameAll hwishes
  rwa [← assign_nameAll, h.assign_eq, List.map_map] at hnodup

end Unnamed

end Schemata.Registry
