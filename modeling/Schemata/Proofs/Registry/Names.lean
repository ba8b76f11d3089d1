import Mathlib.Tactic
import Schemata.Proofs.Registry.Resolution
import Schemata.Proofs.Dict

/-!
Names of declared nodes.

A name that a registry makes is not empty and holds no character with a meaning to placeholders, strings or pointers
(`IsName`). Nodes declared one after the other for one file get pairwise distinct names, and their symbol and their
reference are that name (`Inline.named`).
-/

namespace Schemata

/-! ## Characters of names -/

/-- characters without a meaning to placeholders, strings and pointers -/
def safeChar (c : Char) : Bool := c != '{' && c != '"' && c != '\\' && c != '\x00' && c != '/' && c != '~'

theorem safeChar_iff {c : Char} :
    safeChar c = true ↔ c ≠ '{' ∧ c ≠ '"' ∧ c ≠ '\\' ∧ c ≠ '\x00' ∧ c ≠ '/' ∧ c ≠ '~' := by
  simp [safeChar, and_assoc]

theorem safeChar_ident {c : Char} (h : isIdentChar c = true) : safeChar c = true := by
  rw [safeChar_iff]
  refine ⟨?_, ?_, ?_, ?_, ?_, ?_⟩ <;> rintro rfl <;> exact absurd h (by decide)

theorem safeChar_upperAscii : ∀ n < 128, isIdentChar (Char.ofNat n) = true → safeChar (Char.ofNat n).toUpper = true := by
  decide

/-- shifting the characters of a span beyond the first 128 gives characters, none of them unsafe -/
def safeSpan (s : Text.CaseMap.Span) : Bool :=
  s.start + s.count * s.stride ≤ 128 ||
    (let low : Int := s.start + s.shift
     let high : Int := low + s.count * s.stride
     decide (1 ≤ low) && (decide (high ≤ 0xD800) || decide (0xDFFF < low)) && decide (high ≤ 0x110000) &&
       [34, 47, 92, 123, 126].all fun b : Int => decide (b < low) || decide (high ≤ b))

theorem safeSpan_upper : ∀ s ∈ Text.CaseMap.upperSpans, safeSpan s = true := by
  decide +kernel

/-- beyond the first 128 characters, a character is its own upper-case form, or its span says how far away that is -/
theorem shift_upper {c : Char} (hc : ¬ c.toNat < 128) :
    Text.CaseMap.shift Text.CaseMap.upperSpans c = c ∨
      ∃ s ∈ Text.CaseMap.upperSpans, s.holds c.toNat = true ∧
        ((Text.CaseMap.shift Text.CaseMap.upperSpans c).toNat : Int) = c.toNat + s.shift := by
  unfold Text.CaseMap.shift
  split
  · rename_i s hs
    have hspan := safeSpan_upper s (List.mem_of_find?_eq_some hs)
    have hholds := List.find?_some hs
    refine .inr ⟨s, List.mem_of_find?_eq_some hs, hholds, ?_⟩
    simp only [Text.CaseMap.Span.holds, Bool.and_eq_true, decide_eq_true_eq] at hholds
    obtain ⟨⟨hlo, hhi⟩, -⟩ := hholds
    simp only [safeSpan, Bool.or_eq_true, Bool.and_eq_true, decide_eq_true_eq] at hspan
    obtain ⟨m, hm⟩ : ∃ m : Nat, ((c.toNat : Int) + s.shift).toNat = m := ⟨_, rfl⟩
    have hvalid : m.isValidChar := by
      simp only [Nat.isValidChar]
      omega
    have hnat : (Char.ofNat m).toNat = m := by
      rw [Char.ofNat, dif_pos hvalid]
      rfl
    rw [hm, hnat]
    omega
  · exact .inl rfl

theorem safeChar_shift {c : Char} (hc : ¬ c.toNat < 128) (h : safeChar c = true) :
    safeChar (Text.CaseMap.shift Text.CaseMap.upperSpans c) = true := by
  rcases shift_upper hc with heq | ⟨s, hs, hholds, hnat⟩
  · rwa [heq]
  · have hspan := safeSpan_upper s hs
    simp only [Text.CaseMap.Span.holds, Bool.and_eq_true, decide_eq_true_eq] at hholds
    obtain ⟨⟨hlo, hhi⟩, -⟩ := hholds
    simp only [safeSpan, Bool.or_eq_true, Bool.and_eq_true, decide_eq_true_eq, List.all_cons, List.all_nil] at hspan
    rw [safeChar_iff]
    refine ⟨?_, ?_, ?_, ?_, ?_, ?_⟩ <;> intro heq <;> rw [heq] at hnat <;> revert hnat <;>
      simp only [Char.reduceToNat] <;> omega

theorem safeChar_toUpper {c : Char} (h : isIdentChar c = true) : safeChar (Text.CaseMap.toUpper c) = true := by
  unfold Text.CaseMap.toUpper
  split
  · rename_i hc
    have := safeChar_upperAscii c.toNat hc
    rw [Char.ofNat_toNat] at this
    exact this h
  · rename_i hc
    exact safeChar_shift hc (safeChar_ident h)

theorem safeChar_digit {c : Char} (h : c.isDigit = true) : safeChar c = true := by
  rw [safeChar_iff]
  refine ⟨?_, ?_, ?_, ?_, ?_, ?_⟩ <;> rintro rfl <;> exact absurd h (by decide)

/-- a name: not empty and of safe characters -/
structure IsName (s : String) : Prop where
  nonempty : s ≠ ""
  safe : ∀ c ∈ s.toList, safeChar c = true

theorem safe_identChars (upper started : Bool) (cs : List Char) :
    ∀ c ∈ identChars upper started cs, safeChar c = true := by
  induction cs generalizing upper started with
  | nil => simp [identChars]
  | cons d cs ih =>
    intro c hc
    rw [identChars] at hc
    split at hc
    · rename_i hd
      rcases List.mem_cons.1 hc with rfl | hc
      · split
        · exact safeChar_toUpper hd
        · exact safeChar_ident hd
      · exact ih _ _ c hc
    · exact ih _ _ c hc

theorem safe_sanitize (s : String) : ∀ c ∈ (sanitize s).toList, safeChar c = true := by
  intro c hc
  rw [sanitize, String.toList_ofList] at hc
  have hsafe := safe_identChars false false s.toList
  revert hc hsafe
  generalize identChars false false s.toList = cs
  intro hc hsafe
  cases cs with
  | nil => simp [guardDigit] at hc
  | cons d cs =>
    rw [guardDigit] at hc
    split at hc
    · rcases List.mem_cons.1 hc with rfl | hc
      · decide
      · exact hsafe c hc
    · exact hsafe c hc

theorem safe_number (n : Nat) : ∀ c ∈ (toString n).toList, safeChar c = true := by
  intro c hc
  rw [Text.toList_toString_nat] at hc
  exact safeChar_digit (Nat.isDigit_of_mem_toDigits (by decide) (by decide) hc)

theorem IsName.number {s : String} (h : IsName s) (n : Nat) : IsName (s ++ toString n) := by
  refine ⟨?_, ?_⟩
  · intro heq
    have := congrArg String.toList heq
    rw [String.toList_append] at this
    exact h.nonempty (String.toList_eq_nil_iff.1 (List.append_eq_nil_iff.1 this).1)
  · intro c hc
    rw [String.toList_append] at hc
    rcases List.mem_append.1 hc with hc | hc
    · exact h.safe c hc
    · exact safe_number n c hc

end Schemata

namespace Schemata.Registry

/-! ## Free numbers -/

theorem freeNumber_mem {taken : List String} {base : String} {fuel start : Nat}
    (h : (freeNumber taken base fuel start).1 ∈ taken) : ∀ k < fuel, base ++ toString (start + k) ∈ taken := by
  induction fuel generalizing start with
  | zero =>
    intro k hk
    omega
  | succ fuel ih =>
    rw [freeNumber] at h
    split at h
    · rename_i hc
      intro k hk
      cases k with
      | zero => simpa using hc
      | succ k =>
        have := ih h k (by omega)
        rwa [Nat.add_assoc, Nat.add_comm 1 k] at this
    · rename_i hc
      exact absurd (by simpa using h) (by simpa using hc)

/-- more candidates than taken names leave a free one -/
theorem freeNumber_free (taken : List String) (base : String) (start : Nat) :
    (freeNumber taken base (taken.length + 1) start).1 ∉ taken := by
  intro h
  have hall := freeNumber_mem h
  have hnodup : ((List.range (taken.length + 1)).map fun k => base ++ toString (start + k)).Nodup := by
    refine List.Nodup.map ?_ List.nodup_range
    intro a b hab
    have := Text.number_injective hab
    omega
  have hsub : ((List.range (taken.length + 1)).map fun k => base ++ toString (start + k)) ⊆ taken := by
    intro x hx
    obtain ⟨k, hk, rfl⟩ := List.mem_map.1 hx
    exact hall k (List.mem_range.1 hk)
  have hle := hnodup.length_le_of_subset hsub
  simp at hle

/-- all numbers before the one that is taken are in use -/
theorem freeNumber_spec (taken : List String) (base : String) (fuel start : Nat) :
    ∃ n, freeNumber taken base fuel start = (base ++ toString n, n + 1) ∧ start ≤ n ∧
      ∀ k, start ≤ k → k < n → base ++ toString k ∈ taken := by
  induction fuel generalizing start with
  | zero => exact ⟨start, rfl, le_rfl, fun k hk hlt => absurd hk (not_le.2 hlt)⟩
  | succ fuel ih =>
    by_cases hc : base ++ toString start ∈ taken
    · obtain ⟨n, hn, hle, hskip⟩ := ih (start + 1)
      refine ⟨n, ?_, (Nat.le_succ start).trans hle, fun k hk hlt => ?_⟩
      · rw [freeNumber, if_pos (by simpa using hc), hn]
      · rcases Nat.eq_or_lt_of_le hk with rfl | hk
        · exact hc
        · exact hskip k hk hlt
    · refine ⟨start, ?_, le_rfl, fun k hk hlt => absurd hk (not_le.2 hlt)⟩
      rw [freeNumber, if_neg (by simpa using hc)]

/-! ## Assigning names -/

/-- what naming one declaration after the other keeps: every name given is used, and none is given twice -/
structure Named (a : Assignment) (ids : List Nat) : Prop where
  ids : a.symbols.map (·.1) = ids
  used : ∀ s ∈ a.symbols.map (·.2), s ∈ a.used
  distinct : (a.symbols.map (·.2)).Nodup
  names : ∀ s ∈ a.symbols.map (·.2), IsName s

theorem Named.extend {a : Assignment} {ids : List Nat} (h : Named a ids) {id : Nat} {s : String}
    {next : List (String × Nat)} (hs : s ∉ a.used) (hname : IsName s) :
    Named { used := s :: a.used, next, symbols := a.symbols ++ [(id, s)] } (ids ++ [id]) := by
  refine ⟨by simp [h.ids], ?_, ?_, ?_⟩
  · intro t ht
    simp only [List.map_append, List.map_cons, List.map_nil, List.mem_append, List.mem_singleton] at ht
    rcases ht with ht | rfl
    · exact List.mem_cons_of_mem s (h.used t ht)
    · exact List.mem_cons_self
  · rw [List.map_append, List.nodup_append]
    refine ⟨h.distinct, by simp, ?_⟩
    rintro t ht u hu rfl
    obtain rfl : t = s := by simpa using hu
    exact hs (h.used t ht)
  · intro t ht
    simp only [List.map_append, List.map_cons, List.map_nil, List.mem_append, List.mem_singleton] at ht
    rcases ht with ht | rfl
    · exact h.names t ht
    · exact hname

theorem Named.name {a : Assignment} {ids : List Nat} (h : Named a ids) {e : Declaration} (taken : List String)
    (he : IsName e.base) : Named (a.name taken e none) (ids ++ [e.id]) := by
  unfold Assignment.name
  simp only
  split
  · have hfree := freeNumber_free (taken ++ a.used) e.base (((a.next.find? (·.1 == e.base)).map (·.2)).getD 0)
    obtain ⟨n, hn, -⟩ := freeNumber_spec (taken ++ a.used) e.base ((taken ++ a.used).length + 1)
      (((a.next.find? (·.1 == e.base)).map (·.2)).getD 0)
    refine h.extend (fun hu => hfree (List.mem_append_right taken hu)) ?_
    rw [hn]
    exact he.number n
  · rename_i hu
    exact h.extend (by simpa using hu) he

theorem Named.fold {group : List Declaration} (hbase : ∀ e ∈ group, IsName e.base) (taken : List String)
    {a : Assignment} {ids : List Nat} (h : Named a ids) :
    Named (group.foldl (fun a e => a.name taken e none) a) (ids ++ group.map (·.id)) := by
  induction group generalizing a ids with
  | nil => simpa using h
  | cons e group ih =>
    have hstep := h.name taken (hbase e (by simp))
    have := ih (fun d hd => hbase d (List.mem_cons_of_mem e hd)) hstep
    simpa using this

/-! ## Declarations for one file -/

/-- a registry with standard naming and without links that has only seen declarations for one file, these nodes among them,
and has no final names yet -/
structure Inline (r : Registry) (file : String) (ids : List Nat) : Prop where
  ids : ids ⊆ r.now.entries.map (·.id)
  nodup : (r.now.entries.map (·.id)).Nodup
  file : ∀ e ∈ r.now.entries, e.file = file
  base : ∀ e ∈ r.now.entries, IsName e.base
  links : r.now.links = []
  names : r.names = none
  naming : r.naming = .standard

theorem isName_fallback (n : Nat) : IsName ("Schema" ++ toString n) := by
  refine IsName.number ⟨by decide, ?_⟩ n
  simp [safeChar]

theorem isName_baseName {r : Registry} (hr : r.naming = .standard) (g : Graph) (id : Nat) (hint : String) (pos : Nat) :
    IsName (r.baseName g id hint pos) := by
  unfold baseName
  simp only
  cases hf : List.find? (fun x => decide (x ≠ ""))
      (List.map sanitize [(Option.map Node.name (g.get? id)).getD "", hint, (Option.map Node.hint (g.get? id)).getD ""]) with
  | none =>
    rw [hr]
    exact isName_fallback pos
  | some s =>
    have hne := List.find?_some hf
    obtain ⟨t, -, rfl⟩ := List.mem_map.1 (List.mem_of_find?_eq_some hf)
    exact ⟨by simpa using hne, safe_sanitize t⟩

/-- a declaration for the file -/
theorem Inline.declare {r r' : Registry} {file : String} {ids : List Nat} (h : Inline r file ids) {g : Graph} {id : Nat}
    {hint : String} {explicit changed : Bool} (hd : r.declare g id file hint explicit = .ok (r', changed)) :
    Inline r' file (ids ++ [id]) := by
  unfold Registry.declare at hd
  rw [h.names, if_neg (by simp)] at hd
  cases hfind : r.find? id with
  | none =>
    rw [hfind] at hd
    cases hd
    have hnew : id ∉ r.now.entries.map (·.id) := by
      rintro hid
      obtain ⟨e, he, rfl⟩ := List.mem_map.1 hid
      exact absurd (List.find?_eq_none.1 hfind e he) (by simp)
    refine ⟨?_, ?_, ?_, ?_, h.links, h.names, h.naming⟩
    · simp only [record, List.map_append, List.map_cons, List.map_nil]
      exact List.append_subset.2 ⟨fun i hi => List.mem_append_left _ (h.ids hi), List.subset_append_right _ _⟩
    · simp only [record, List.map_append, List.map_cons, List.map_nil]
      refine List.nodup_append.2 ⟨h.nodup, by simp, fun i hi j hj => ?_⟩
      rw [List.mem_singleton.1 hj]
      rintro rfl
      exact hnew hi
    · intro e he
      rcases List.mem_append.1 he with he | he
      · exact h.file e he
      · rw [List.mem_singleton.1 he]
    · intro e he
      rcases List.mem_append.1 he with he | he
      · exact h.base e he
      · rw [List.mem_singleton.1 he]
        exact isName_baseName h.naming g id hint _
  | some e =>
    rw [hfind] at hd
    have hmem := List.mem_of_find?_eq_some hfind
    obtain rfl : e.id = id := by simpa using List.find?_some hfind
    have hids : ids ++ [e.id] ⊆ r.now.entries.map (·.id) :=
      List.append_subset.2 ⟨h.ids, by simpa using ⟨e, hmem, rfl⟩⟩
    simp only at hd
    split at hd
    · cases hd
      exact ⟨hids, h.nodup, h.file, h.base, h.links, h.names, h.naming⟩
    · cases hd
      set wish := r.baseName g e.id hint e.seq
      have hwish : IsName wish := isName_baseName h.naming g e.id hint e.seq
      set e' : Declaration := { e with file, explicit := true, base := if wish = "" then e.base else wish } with he'
      have hsame : (r.now.entries.map fun d => if d.id = e.id then e' else d).map (·.id) = r.now.entries.map (·.id) := by
        rw [List.map_map]
        refine List.map_congr_left fun d _ => ?_
        simp only [Function.comp]
        split
        · rename_i hd
          exact hd.symm
        · rfl
      refine ⟨hsame ▸ hids, hsame ▸ h.nodup, fun d hd => ?_, fun d hd => ?_, h.links, h.names, h.naming⟩
      · obtain ⟨c, hc, rfl⟩ := List.mem_map.1 hd
        split
        · rfl
        · exact h.file c hc
      · obtain ⟨c, hc, rfl⟩ := List.mem_map.1 hd
        split
        · rw [he', if_neg hwish.nonempty]
          exact hwish
        · exact h.base c hc

/-! ## Final names -/

/-! ### Declarations listed in order -/

/-- the final names, for declarations that are listed in order -/
def listedNames (r : Registry) : Names :=
  let groups := r.files.map fun f => (f, r.assign (r.now.entries.filter (·.file == f)))
  { values := groups.flatMap fun (f, ss) => ss.flatMap fun (id, s) => r.attributes f id s
    symbols := Dict.ofList (groups.map fun (f, ss) => (f, ss.map (·.2))) }

/-- not final yet, and declared in the order of the list -/
def IsOrdered (r : Registry) : Prop := r.names = none ∧ r.now.entries.Pairwise fun a b => decide (a.seq ≤ b.seq) = true

instance (r : Registry) : Decidable (IsOrdered r) := inferInstanceAs (Decidable (_ ∧ _))

theorem finalize_of_ordered {r : Registry} (h : r.IsOrdered) : r.finalize = { r with names := some r.listedNames } := by
  have hsort (f : String) : (r.now.entries.filter (·.file == f)).mergeSort (fun a b => a.seq ≤ b.seq) =
      r.now.entries.filter (·.file == f) := List.mergeSort_of_pairwise (h.2.filter _)
  simp [finalize, h.1, computeNames, listedNames, hsort]

/-- the registry with the names that it gives to declarations listed in order -/
def listed (r : Registry) : Registry := { r with names := some r.listedNames }

theorem finalize_listed {r : Registry} (h : r.IsOrdered) : r.finalize = r.listed := finalize_of_ordered h

/-! ### Inline declarations -/

/-- the declarations of a registry in the order in which they are named -/
def group (r : Registry) : List Declaration := r.now.entries.mergeSort fun a b => a.seq ≤ b.seq

theorem Inline.assigned {r : Registry} {file : String} {ids : List Nat} (h : Inline r file ids) :
    ∃ a, Named a (r.group.map (·.id)) ∧ r.assign r.group = a.symbols := by
  have hlink (id : Nat) : r.linkOf? id = none := by simp [linkOf?, h.links]
  have hbase : ∀ e ∈ r.group, IsName e.base := fun e he => h.base e (List.mem_mergeSort.1 he)
  have hstart : Named {} [] := ⟨rfl, by simp, by simp, by simp⟩
  refine ⟨_, by simpa using hstart.fold hbase (r.group.map fun e => (r.linkOf? e.id).getD e.base), ?_⟩
  simp only [assign, hlink]

theorem Inline.mem_values {r : Registry} {file : String} {ids : List Nat} (h : Inline r file ids) {p : Placeholder}
    {v : String} (hp : p.attr = refAttr ∨ p.attr = symbolAttr) :
    (p, v) ∈ r.computeNames.values ↔ (p.node, v) ∈ r.assign r.group := by
  have hfiles : ∀ f, f ∈ r.files ↔ f = file ∧ r.now.entries ≠ [] := by
    intro f
    rw [files, mem_sortedSet, List.mem_map]
    constructor
    · rintro ⟨e, he, rfl⟩
      exact ⟨h.file e he, List.ne_nil_of_mem he⟩
    · rintro ⟨rfl, hne⟩
      obtain ⟨e, he⟩ := List.exists_mem_of_ne_nil _ hne
      exact ⟨e, he, h.file e he⟩
  have hgroup : (r.now.entries.filter (·.file == file)).mergeSort (fun a b => a.seq ≤ b.seq) = r.group := by
    rw [group, List.filter_eq_self.2]
    intro e he
    simpa using h.file e he
  have hattr (id : Nat) (s : String) : (p, v) ∈ r.attributes file id s ↔ p.node = id ∧ v = s := by
    obtain ⟨node, attr⟩ := p
    simp only [attributes, h.naming, Naming.standard, List.map_cons, List.map_nil, List.mem_append, List.mem_cons,
      Prod.mk.injEq, Placeholder.mk.injEq, List.not_mem_nil, or_false] at hp ⊢
    rcases hp with rfl | rfl <;> simp [refAttr, symbolAttr, uniqueAttr, fileAttr]
  simp only [computeNames, List.mem_flatMap, List.mem_map]
  constructor
  · rintro ⟨-, ⟨f, hf, rfl⟩, ⟨id, s⟩, hs, hmem⟩
    obtain ⟨rfl, -⟩ := (hfiles f).1 hf
    simp only [hgroup] at hs
    obtain ⟨rfl, rfl⟩ := (hattr id s).1 hmem
    exact hs
  · intro hs
    have hne : r.now.entries ≠ [] := by
      intro hnil
      have hgroup : r.group = [] := by rw [group, hnil, List.mergeSort_nil]
      rw [hgroup] at hs
      simp [assign] at hs
    refine ⟨_, ⟨file, (hfiles file).2 ⟨rfl, hne⟩, rfl⟩, (p.node, v), ?_, (hattr _ _).2 ⟨rfl, rfl⟩⟩
    simpa only [hgroup] using hs

/-- **Names of inline declarations.** Nodes declared for one file get pairwise distinct names, and their symbol and
their reference are that name. -/
theorem Inline.named {r : Registry} {file : String} {ids : List Nat} (h : Inline r file ids) :
    ∃ name : Nat → String, (∀ id ∈ ids, IsName (name id)) ∧ (∀ a ∈ ids, ∀ b ∈ ids, name a = name b → a = b) ∧
      ∀ id ∈ ids, ∀ attr, attr = refAttr ∨ attr = symbolAttr → r.finalize.lookup? ⟨id, attr⟩ = some (name id) := by
  obtain ⟨a, ha, hassign⟩ := h.assigned
  have hperm : (r.group.map (·.id)).Perm (r.now.entries.map (·.id)) := (List.mergeSort_perm _ _).map _
  have hkeys : (a.symbols.map (·.1)).Nodup := by
    rw [ha.ids]
    exact hperm.nodup_iff.2 h.nodup
  have hmem (id : Nat) (hid : id ∈ ids) : ∃ s, (id, s) ∈ a.symbols := by
    have : id ∈ a.symbols.map (·.1) := by
      rw [ha.ids]
      exact hperm.mem_iff.2 (h.ids hid)
    obtain ⟨⟨i, s⟩, hs, rfl⟩ := List.mem_map.1 this
    exact ⟨s, hs⟩
  choose! name hname using hmem
  have hvalues : r.finalize.names = some r.computeNames := by simp [finalize, h.names]
  refine ⟨name, ?_, ?_, ?_⟩
  · intro id hid
    exact ha.names _ (List.mem_map.2 ⟨_, hname id hid, rfl⟩)
  · intro i hi j hj heq
    have := List.inj_on_of_nodup_map ha.distinct (hname i hi) (hname j hj) heq
    exact (Prod.mk.inj this).1
  · intro id hid attr hattr
    have hin : (⟨id, attr⟩, name id) ∈ r.computeNames.values := by
      rw [h.mem_values hattr, hassign]
      exact hname id hid
    unfold lookup?
    rw [hvalues, Option.bind_some]
    cases hf : r.computeNames.values.find? (·.1 == ⟨id, attr⟩) with
    | none =>
      have := List.find?_eq_none.1 hf _ hin
      simp at this
    | some e =>
      obtain ⟨p, v⟩ := e
      obtain rfl : p = ⟨id, attr⟩ := by simpa using List.find?_some hf
      have hv := (h.mem_values hattr).1 (List.mem_of_find?_eq_some hf)
      rw [hassign] at hv
      have := List.inj_on_of_nodup_map hkeys hv (hname id hid) rfl
      rw [Option.map_some, (Prod.mk.inj this).2]

end Schemata.Registry
