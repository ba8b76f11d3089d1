import Mathlib.Tactic
import Mathlib.Order.Bounds.Basic
import Schemata.Proofs.Registry.Assigned

/-!
Distinct names, and numbers in the order of first declaration.

- `symbols_distinct_iff`: after any calls, links among them, the names of a file are distinct exactly when no link is what an
  earlier declaration of the file asks for. A link to the base name of an earlier declaration is such a case
  (`symbols_shared`).
- `suffixes_first_seen`: after declarations alone, the first declaration of a base name keeps it, every later one gets the
  least number beyond those tried (`FirstSeen`), all names of a file are distinct, and no order of enumeration matters.
-/

namespace Schemata.Registry

variable {r : Registry}

/-! ## Links -/

theorem pairwise_order {l : List Declaration} (h : l.Pairwise fun a b => a.seq < b.seq) {R : Declaration → Declaration → Prop} :
    l.Pairwise R ↔ ∀ a ∈ l, ∀ b ∈ l, a.seq < b.seq → R a b := by
  induction l with
  | nil => simp
  | cons x l ih =>
    obtain ⟨hx, hl⟩ := List.pairwise_cons.1 h
    rw [List.pairwise_cons, ih hl]
    constructor
    · rintro ⟨hR, hall⟩ a ha b hb hlt
      rcases List.mem_cons.1 hb with rfl | hbl
      · rcases List.mem_cons.1 ha with rfl | hal
        · exact absurd hlt (lt_irrefl _)
        · exact absurd (hx a hal) hlt.asymm
      · rcases List.mem_cons.1 ha with rfl | hal
        · exact hR b hbl
        · exact hall a hal b hbl hlt
    · intro hall
      exact ⟨fun b hb => hall x (by simp) b (by simp [hb]) (hx b hb),
        fun a ha b hb => hall a (by simp [ha]) b (by simp [hb])⟩

/-- the symbol, the reference and the unique name each tell the symbols of a file apart -/
theorem standardValue_injective {attr : String} (h : attr ∈ [symbolAttr, refAttr, uniqueAttr]) (file : String) :
    ∃ f : String → String, f.Injective ∧ ∀ s, standardValue? attr file s = some (f s) := by
  rcases List.mem_cons.1 h with rfl | h
  · exact ⟨id, Function.injective_id, fun s => by simp [standardValue?]⟩
  rcases List.mem_cons.1 h with rfl | h
  · exact ⟨id, Function.injective_id, fun s => by simp [standardValue?]⟩
  obtain rfl := List.mem_singleton.1 h
  refine ⟨fun s => file ++ "#" ++ s, fun s t hst => ?_, fun s => by simp [standardValue?, uniqueAttr, symbolAttr, refAttr]⟩
  have := congrArg String.toList hst
  simp only [String.toList_append, List.append_cancel_left_eq] at this
  exact String.toList_injective this

/-- **Distinct names, also with links.** After any calls the symbols of each file are distinct, and the references and the unique
names with them, exactly when no link is what an earlier declaration of the file asks for: its link, or else its base
name. So distinct links alone are not enough. -/
theorem symbols_distinct_iff (target : String) (calls : List Call) :
    let r := (start target).run calls
    ∀ attr ∈ [symbolAttr, refAttr, uniqueAttr],
      (∀ e ∈ r.now.entries, (r.finalize.lookup? ⟨e.id, attr⟩).isSome) ∧
        ((∀ a ∈ r.now.entries, ∀ b ∈ r.now.entries, a.file = b.file → a.id ≠ b.id →
            r.finalize.lookup? ⟨a.id, attr⟩ ≠ r.finalize.lookup? ⟨b.id, attr⟩) ↔
          ∀ a ∈ r.now.entries, ∀ b ∈ r.now.entries, a.file = b.file → a.seq < b.seq →
            r.linkOf? b.id ≠ some (wish r.linkOf? a)) := by
  intro r attr hattr
  have h : r.Unnamed := unnamed_run target calls
  have hvalue (e : Declaration) (he : e ∈ r.now.entries) :
      r.finalize.lookup? ⟨e.id, attr⟩ = standardValue? attr e.file (r.nameOf e.id) := by
    rw [h.lookup_eq, h.find?_eq_some.2 ⟨he, rfl⟩, Option.bind_some]
  have hsame (a : Declaration) (ha : a ∈ r.now.entries) (b : Declaration) (hb : b ∈ r.now.entries) (hfile : a.file = b.file) :
      r.finalize.lookup? ⟨a.id, attr⟩ = r.finalize.lookup? ⟨b.id, attr⟩ ↔ r.nameOf a.id = r.nameOf b.id := by
    obtain ⟨f, hf, hval⟩ := standardValue_injective hattr b.file
    rw [hvalue a ha, hvalue b hb, hfile, hval, hval, Option.some.injEq, hf.eq_iff]
  have hnames : (∀ file, ((r.entriesOf file).map fun e => r.nameOf e.id).Nodup) ↔
      ∀ a ∈ r.now.entries, ∀ b ∈ r.now.entries, a.file = b.file → a.id ≠ b.id →
        r.finalize.lookup? ⟨a.id, attr⟩ ≠ r.finalize.lookup? ⟨b.id, attr⟩ := by
    rw [forall_congr' fun file => List.nodup_map_iff_inj_on (h.nodup_entriesOf file)]
    simp only [entriesOf, List.mem_filter, beq_iff_eq]
    constructor
    · intro hinj a ha b hb hfile hid heq
      exact hid (congrArg _ (hinj b.file a ⟨ha, hfile⟩ b ⟨hb, rfl⟩ ((hsame a ha b hb hfile).1 heq)))
    · rintro hne file a ⟨ha, hfa⟩ b ⟨hb, hfb⟩ heq
      have hfile := hfa.trans hfb.symm
      by_contra hab
      exact hne a ha b hb hfile (fun hid => hab (h.sound.now.eq_of_id ha hb hid)) ((hsame a ha b hb hfile).2 heq)
  have hlinks : (∀ file, (r.entriesOf file).Pairwise fun d e => r.linkOf? e.id ≠ some (wish r.linkOf? d)) ↔
      ∀ a ∈ r.now.entries, ∀ b ∈ r.now.entries, a.file = b.file → a.seq < b.seq →
        r.linkOf? b.id ≠ some (wish r.linkOf? a) := by
    simp only [pairwise_order (h.sound.now.order.filter _), entriesOf, List.mem_filter, beq_iff_eq]
    constructor
    · intro hall a ha b hb hfile
      exact hall b.file a ⟨ha, hfile⟩ b ⟨hb, rfl⟩
    · rintro hall file a ⟨ha, hfa⟩ b ⟨hb, hfb⟩
      exact hall a ha b hb (hfa.trans hfb.symm)
  constructor
  · intro e he
    obtain ⟨f, -, hval⟩ := standardValue_injective hattr e.file
    rw [hvalue e he, hval]
    rfl
  · rw [← hnames, ← hlinks]
    exact forall_congr' h.nodup_nameOf

theorem symbols_shared :
    let r := (start "go").run [.declare {} 1 "f" "A" false, .declare {} 2 "f" "B" false, .link 2 "A"]
    r.now.links = [(2, "A")] ∧ Placeholder.occursIn "A" = false ∧ r.owner? 1 = some "f" ∧ r.owner? 2 = some "f" ∧
      r.finalize.lookup? ⟨1, symbolAttr⟩ = some "A" ∧ r.finalize.lookup? ⟨2, symbolAttr⟩ = some "A" ∧
      r.finalize.symbols "f" = ["A", "A"] := by
  intro r
  rw [finalize_listed (r := r) (by decide +kernel)]
  decide +kernel

/-! ## First come, first served -/

/-- a number is tried for a base name: it is not above one that was given -/
def Tried (given : List (String × String)) (base : String) (k : Nat) : Prop := ∃ n, (base, base ++ toString n) ∈ given ∧ k ≤ n

/-- Pairs of a base name and the name given for it, in order. The first of a base name is given the base name itself, every later one
the base name with the least number that is above all tried so far and makes neither a base name of the file nor a name
that was given already. -/
inductive FirstSeen (bases : List String) : List (String × String) → Prop where
  | nil : FirstSeen bases []
  | first {given : List (String × String)} {base : String} (h : FirstSeen bases given) (hnew : ∀ e ∈ given, e.1 ≠ base) :
    FirstSeen bases (given ++ [(base, base)])
  | later {given : List (String × String)} {base : String} {n : Nat} (h : FirstSeen bases given) (hold : ∃ e ∈ given, e.1 = base)
      (hn : IsLeast {m | (∀ k, Tried given base k → k < m) ∧ base ++ toString m ∉ bases ∧
        ∀ e ∈ given, e.2 ≠ base ++ toString m} n) :
    FirstSeen bases (given ++ [(base, base ++ toString n)])

theorem number_ne_base (base : String) (n : Nat) : base ++ toString n ≠ base := by
  intro h
  simpa using congrArg String.length h

theorem tried_first {given : List (String × String)} {base b : String} {k : Nat} :
    Tried (given ++ [(base, base)]) b k ↔ Tried given b k := by
  simp only [Tried, List.mem_append, List.mem_singleton, Prod.mk.injEq]
  refine exists_congr fun n => and_congr_left fun _ => or_iff_left ?_
  rintro ⟨rfl, h⟩
  exact number_ne_base b n h

theorem tried_later {given : List (String × String)} {base b : String} {n k : Nat} :
    Tried (given ++ [(base, base ++ toString n)]) b k ↔ Tried given b k ∨ b = base ∧ k ≤ n := by
  simp only [Tried, List.mem_append, List.mem_singleton, Prod.mk.injEq]
  constructor
  · rintro ⟨m, hm | ⟨rfl, hm⟩, hk⟩
    · exact .inl ⟨m, hm, hk⟩
    · exact .inr ⟨rfl, Text.number_injective hm ▸ hk⟩
  · rintro (⟨m, hm, hk⟩ | ⟨rfl, hk⟩)
    · exact ⟨m, .inl hm, hk⟩
    · exact ⟨n, .inr ⟨rfl, rfl⟩, hk⟩

section

variable {bases : List String} {group : List Declaration} {a : Assignment} {given : List (String × String)}

/-- what naming without links keeps: names are given as first come, first served, and the next number to try is the first
that was not tried -/
structure Counts (bases : List String) (group : List Declaration) (a : Assignment) (given : List (String × String)) : Prop where
  seen : FirstSeen bases given
  bases : given.map (·.1) = group.map (·.base)
  symbols : given.map (·.2) = a.symbols.map (·.2)
  tried : ∀ b k, k < a.nextNumber b ↔ Tried given b k

theorem Counts.name (h : Counts bases group a given) (hfair : Fair (fun _ => none) bases group a) {e : Declaration}
    (he : e.base ∈ bases) {s : String} {next : List (String × Nat)} (hs : a.Gives bases e none s next) :
    Counts bases (group ++ [e]) { used := s :: a.used, next, symbols := a.symbols ++ [(e.id, s)] } (given ++ [(e.base, s)]) := by
  have hold : e.base ∈ a.used ↔ ∃ p ∈ given, p.1 = e.base := by
    have hmem : e.base ∈ given.map (·.1) ↔ e.base ∈ group.map (·.base) := by rw [h.bases]
    rw [hfair.mem_used he, ← List.mem_map, ← List.mem_map, hmem]
    rfl
  have hgiven (t : String) : t ∈ a.used ↔ ∃ p ∈ given, p.2 = t := by
    rw [hfair.used, ← h.symbols, List.mem_map]
  refine ⟨?_, by simp [h.bases], by simp [h.symbols], fun b k => ?_⟩
  · cases hs with
    | bare hbase => exact h.seen.first fun p hp heq => hbase (hold.2 ⟨p, hp, heq⟩)
    | numbered n hused htaken hfree hstart hskip =>
      refine h.seen.later (hold.1 hused) ⟨⟨fun k hk => ?_, htaken, fun p hp heq => hfree ((hgiven _).2 ⟨p, hp, heq⟩)⟩, ?_⟩
      · exact ((h.tried e.base k).2 hk).trans_le hstart
      · rintro m ⟨habove, hbase, hnew⟩
        by_contra hlt
        have hm : a.nextNumber e.base ≤ m := by
          by_contra hm
          exact lt_irrefl m (habove m ((h.tried e.base m).1 (not_le.1 hm)))
        rcases hskip m hm (not_le.1 hlt) with hmem | hmem
        · exact hbase hmem
        · obtain ⟨p, hp, heq⟩ := (hgiven _).1 hmem
          exact hnew p hp heq
  · cases hs with
    | bare hbase =>
      rw [tried_first]
      exact h.tried b k
    | numbered n hused htaken hfree hstart hskip =>
      rw [Assignment.nextNumber_filter, tried_later, ← h.tried]
      by_cases hb : b = e.base
      · subst hb
        simp only [if_true, true_and]
        omega
      · simp [hb]

theorem nameAll_counts (hbases : ∀ e ∈ group, e.base ∈ bases) :
    ∃ given, Counts bases group (nameAll (fun _ => none) bases group) given := by
  induction group using List.reverseRecOn with
  | nil => exact ⟨[], .nil, rfl, rfl, by simp [nameAll, Assignment.nextNumber, Tried]⟩
  | append_singleton group e ih =>
    obtain ⟨given, hgiven⟩ := ih fun d hd => hbases d (List.mem_append_left _ hd)
    obtain ⟨s, next, hs, hname⟩ := (nameAll (fun _ => none) bases group).name_gives bases e none
    rw [nameAll_snoc, hname]
    exact ⟨_, hgiven.name (nameAll_fair group) (hbases e (by simp)) hs⟩

end

/-! ## Declarations alone -/

/-- what a declaration asks for -/
structure Request where
  graph : Graph
  id : Nat
  file : String
  hint : String
  explicit : Bool

def Request.call (q : Request) : Call := .declare q.graph q.id q.file q.hint q.explicit

/-- the request that decides on owner and base name of a node: the first explicit one, or else the first -/
def deciding? (qs : List Request) (id : Nat) : Option Request :=
  (qs.find? fun q => q.id == id && q.explicit).or (qs.find? (·.id == id))

theorem deciding_eq_none {qs : List Request} {id : Nat} (h : id ∉ qs.map (·.id)) : deciding? qs id = none := by
  have hne (q : Request) (hq : q ∈ qs) : q.id ≠ id := fun heq => h (List.mem_map.2 ⟨q, hq, heq⟩)
  rw [deciding?, Option.or_eq_none_iff, List.find?_eq_none, List.find?_eq_none]
  exact ⟨fun q hq => by simp [hne q hq], fun q hq => by simp [hne q hq]⟩

theorem deciding_other (qs : List Request) {q : Request} {id : Nat} (h : q.id ≠ id) : deciding? (qs ++ [q]) id = deciding? qs id := by
  simp [deciding?, List.find?_append, h]

theorem deciding_new {qs : List Request} {q : Request} (h : deciding? qs q.id = none) : deciding? (qs ++ [q]) q.id = some q := by
  rw [deciding?, Option.or_eq_none_iff] at h
  cases hq : q.explicit <;> simp [deciding?, List.find?_append, h.1, h.2, hq]

theorem deciding_kept {qs : List Request} {q p : Request} (h : deciding? qs q.id = some p) (hp : q.explicit = true → p.explicit = true) :
    deciding? (qs ++ [q]) q.id = some p := by
  unfold deciding? at h ⊢
  rw [List.find?_append, List.find?_append]
  cases hexplicit : qs.find? fun p => p.id == q.id && p.explicit with
  | some p' => simpa [hexplicit] using h
  | none =>
    rw [hexplicit, Option.none_or] at h
    have hinline : p.explicit = false := by
      simpa [show p.id = q.id by simpa using List.find?_some h] using List.find?_eq_none.1 hexplicit p (List.mem_of_find?_eq_some h)
    have hq : q.explicit = false := by
      by_contra hq
      rw [hp (by simpa using hq)] at hinline
      cases hinline
    simp [h, hq]

theorem deciding_promoted {qs : List Request} {q p : Request} (h : deciding? qs q.id = some p) (hp : p.explicit = false)
    (hq : q.explicit = true) : deciding? (qs ++ [q]) q.id = some q := by
  unfold deciding? at h ⊢
  rw [List.find?_append, List.find?_append]
  cases hexplicit : qs.find? fun p => p.id == q.id && p.explicit with
  | some p' =>
    obtain rfl : p' = p := by simpa [hexplicit] using h
    have := List.find?_some hexplicit
    simp [hp] at this
  | none => simp [hq]

/-- what declarations alone keep: nodes stand in the order of their first requests, with the owner and the base name that the
deciding request gives -/
structure Declares (target : String) (qs : List Request) (r : Registry) : Prop where
  unnamed : r.Unnamed
  links : r.now.links = []
  count : r.count = r.now.entries.length
  ids : r.now.entries.map (·.id) = (qs.map (·.id)).eraseDups
  entry : ∀ i e, r.now.entries[i]? = some e → e.seq = i + 1 ∧ ∃ q, deciding? qs e.id = some q ∧ e.explicit = q.explicit ∧
    e.file = q.file ∧ e.base = (start target).baseName q.graph e.id q.hint (i + 1)

variable {target : String} {qs : List Request}

theorem Unnamed.baseName_eq (h : r.Unnamed) (target : String) (g : Graph) (id : Nat) (hint : String) (pos : Nat) :
    r.baseName g id hint pos = (start target).baseName g id hint pos := by
  simp only [baseName, h.naming, start]

theorem Declares.call (h : Declares target qs r) (q : Request) : Declares target (qs ++ [q]) (r.call q.call) := by
  have hmem (id : Nat) : id ∈ r.now.entries.map (·.id) ↔ id ∈ qs.map (·.id) := by rw [h.ids, List.mem_eraseDups]
  have hids : ((qs ++ [q]).map (·.id)).eraseDups =
      r.now.entries.map (·.id) ++ if q.id ∈ qs.map (·.id) then [] else [q.id] := by
    rw [List.map_append, List.eraseDups_append, h.ids, List.map_singleton, List.removeAll]
    by_cases hq : q.id ∈ qs.map (·.id)
    · rw [if_pos hq, List.filter_cons_of_neg (by simpa using hq)]
      rfl
    · rw [if_neg hq, List.filter_cons_of_pos (by simpa using hq)]
      rfl
  have hunnamed := h.unnamed.call q.call
  rcases declare_cases h.unnamed.names q.graph q.id q.file q.hint q.explicit with
    ⟨hnew, hcall⟩ | ⟨p, hp, hid, ⟨hq, hinline, hcall⟩ | ⟨hkeep, hcall⟩⟩ <;>
      rw [Request.call, hcall] at hunnamed ⊢
  · have hq : q.id ∉ qs.map (·.id) := by
      rw [← hmem]
      intro hq
      obtain ⟨e, he, heq⟩ := List.mem_map.1 hq
      exact hnew e he heq
    refine ⟨hunnamed, h.links, ?_, ?_, fun i e he => ?_⟩
    · simp [changed, record, addition, h.count]
    · rw [hids, if_neg hq]
      simp [changed, record, addition]
    · simp only [changed, record, addition, List.getElem?_append] at he
      split at he
      · obtain ⟨hseq, p, hp, hrest⟩ := h.entry i e he
        exact ⟨hseq, p, by rwa [deciding_other qs (hnew e (List.mem_of_getElem? he)).symm], hrest⟩
      · rename_i hi
        obtain ⟨hi', rfl⟩ := List.getElem?_eq_some_iff.1 he
        obtain rfl : i = r.now.entries.length := by
          simp only [List.length_singleton] at hi'
          omega
        simp only [List.getElem_singleton, h.count, true_and]
        exact ⟨q, deciding_new (deciding_eq_none hq), rfl, rfl, h.unnamed.baseName_eq target ..⟩
  · have hmem : q.id ∈ qs.map (·.id) := (hmem q.id).1 (List.mem_map.2 ⟨p, hp, hid⟩)
    refine ⟨hunnamed, h.links, ?_, ?_, fun i e he => ?_⟩
    · simp [changed, record, promotion, h.count]
    · rw [hids, if_pos hmem, List.append_nil]
      exact promotion_ids r q.graph p q.file q.hint
    · simp only [changed, record, promotion, List.getElem?_map] at he
      obtain ⟨d, hd, rfl⟩ := Option.map_eq_some_iff.1 he
      obtain ⟨hseq, s, hs, hexplicit, hrest⟩ := h.entry i d hd
      by_cases hdp : d.id = p.id
      · obtain rfl := h.unnamed.sound.now.eq_of_id (List.mem_of_getElem? hd) hp hdp
        rw [hid] at hs
        rw [if_pos rfl]
        have hwish := (isName_baseName h.unnamed.naming q.graph d.id q.hint d.seq).nonempty
        refine ⟨hseq, q, ?_, hq.symm, rfl, ?_⟩
        · have hpromoted : (r.promoted q.graph d q.file q.hint).id = q.id := hid
          rw [hpromoted]
          exact deciding_promoted hs (hexplicit.symm.trans hinline) hq
        · rw [promoted_base, if_neg hwish, hseq]
          exact h.unnamed.baseName_eq target ..
      · rw [if_neg hdp]
        exact ⟨hseq, s, by rwa [deciding_other qs fun heq => hdp (heq.symm.trans hid.symm)], hexplicit, hrest⟩
  · have hmem : q.id ∈ qs.map (·.id) := (hmem q.id).1 (List.mem_map.2 ⟨p, hp, hid⟩)
    refine ⟨hunnamed, h.links, h.count, by rw [hids, if_pos hmem, List.append_nil], fun i e he => ?_⟩
    obtain ⟨hseq, s, hs, hexplicit, hrest⟩ := h.entry i e he
    refine ⟨hseq, s, ?_, hexplicit, hrest⟩
    by_cases heq : q.id = e.id
    · obtain rfl := h.unnamed.sound.now.eq_of_id (List.mem_of_getElem? he) hp (heq.symm.trans hid.symm)
      rw [← heq] at hs ⊢
      exact deciding_kept hs fun hq => hexplicit ▸ hkeep hq
    · rwa [deciding_other qs heq]

theorem declares_run (target : String) (qs : List Request) : Declares target qs ((start target).run (qs.map Request.call)) := by
  induction qs using List.reverseRecOn with
  | nil => exact ⟨unnamed_run target [], rfl, rfl, rfl, by simp [start]⟩
  | append_singleton qs q ih =>
    rw [List.map_append, List.map_singleton, run_snoc]
    exact ih.call q

/-- without links, the names of a file are given as first come, first served -/
theorem Declares.firstSeen (h : Declares target qs r) (file : String) :
    FirstSeen ((r.entriesOf file).map (·.base)) ((r.entriesOf file).map fun e => (e.base, r.nameOf e.id)) := by
  have hlink : r.linkOf? = fun _ => none := funext fun id => by simp [linkOf?, h.links]
  have hbases : ∀ e ∈ r.entriesOf file, e.base ∈ (r.entriesOf file).map (·.base) := fun e he => List.mem_map_of_mem he
  obtain ⟨given, hgiven⟩ := nameAll_counts hbases
  have hassign : (nameAll (fun _ => none) ((r.entriesOf file).map (·.base)) (r.entriesOf file)).symbols =
      (r.entriesOf file).map fun e => (e.id, r.nameOf e.id) := by
    rw [← h.unnamed.assign_eq, assign_nameAll, hlink]
    rfl
  have hnames : given.map (·.2) = (r.entriesOf file).map fun e => r.nameOf e.id := by
    rw [hgiven.symbols, hassign, List.map_map]
    rfl
  have hzip : given = (r.entriesOf file).map fun e => (e.base, r.nameOf e.id) := by
    rw [← List.zip_unzip given, List.unzip_fst, List.unzip_snd, hgiven.bases, hnames, List.zip_map']
  exact hzip ▸ hgiven.seen

/-! ## Orders of enumeration -/

/-- the final names when declarations and files are enumerated in some order -/
def enumerated (r : Registry) (entries : List Declaration) (files : List String) : Names :=
  let groups := (sortedSet files).map fun f =>
    (f, r.assign ((entries.filter (·.file == f)).mergeSort fun a b => a.seq ≤ b.seq))
  { values := groups.flatMap fun (f, ss) => ss.flatMap fun (id, s) => r.attributes f id s
    symbols := Dict.ofList (groups.map fun (f, ss) => (f, ss.map (·.2))) }

theorem computeNames_enumerated (r : Registry) : r.computeNames = r.enumerated r.now.entries (r.now.entries.map (·.file)) := rfl

/-- the order in which declarations and files are enumerated does not matter -/
theorem Unnamed.enumerated_eq (h : r.Unnamed) {entries : List Declaration} {files : List String}
    (hentries : entries.Perm r.now.entries) (hfiles : ∀ f, f ∈ files ↔ f ∈ entries.map (·.file)) :
    r.enumerated entries files = r.computeNames := by
  have hset : sortedSet files = sortedSet (r.now.entries.map (·.file)) :=
    sortedSet_congr fun f => (hfiles f).trans ((hentries.map _).mem_iff)
  have hsort (f : String) : (entries.filter (·.file == f)).mergeSort (fun a b => a.seq ≤ b.seq) =
      (r.now.entries.filter (·.file == f)).mergeSort fun a b => a.seq ≤ b.seq := by
    have hperm := (List.mergeSort_perm (entries.filter (·.file == f)) fun a b => decide (a.seq ≤ b.seq)).trans
      ((hentries.filter (·.file == f)).trans
        (List.mergeSort_perm (r.now.entries.filter (·.file == f)) fun a b => decide (a.seq ≤ b.seq)).symm)
    have hsorted (l : List Declaration) :
        (l.mergeSort fun a b => decide (a.seq ≤ b.seq)).Pairwise fun a b => decide (a.seq ≤ b.seq) = true := by
      refine List.pairwise_mergeSort (fun a b c hab hbc => ?_) (fun a b => ?_) l
      · simp only [decide_eq_true_eq] at hab hbc ⊢
        exact hab.trans hbc
      · simp only [Bool.or_eq_true, decide_eq_true_eq]
        exact le_total a.seq b.seq
    refine hperm.eq_of_pairwise (fun a b ha hb hab hba => ?_) (hsorted _) (hsorted _)
    have hseq : a.seq = b.seq := le_antisymm (by simpa using hab) (by simpa using hba)
    have hmem (x : Declaration) (hx : x ∈ (r.now.entries.filter (·.file == f)).mergeSort fun a b => decide (a.seq ≤ b.seq)) :
        x ∈ r.now.entries := (List.mem_filter.1 (List.mem_mergeSort.1 hx)).1
    exact h.sound.now.eq_of_seq (hmem a (hperm.mem_iff.1 ha)) (hmem b hb) hseq
  simp only [computeNames_enumerated, enumerated, hset, hsort]

/-! ## First come, first served, for every history -/

/-- **Numbers in first-seen order.** After any declarations without links, the nodes stand in the order of their first declarations,
owned and called as the deciding request of each says. In every file the first node of a base name keeps it and each
later one gets it with the least number that is above all tried and makes neither a base name nor a name of the file;
so all names of a file are distinct. No order in which nodes or files are enumerated changes a name. -/
theorem suffixes_first_seen (target : String) (qs : List Request) :
    let r := (start target).run (qs.map Request.call)
    r.now.entries.map (·.id) = (qs.map (·.id)).eraseDups ∧
      (∀ i e, r.now.entries[i]? = some e → e.seq = i + 1 ∧ ∃ q, deciding? qs e.id = some q ∧ e.file = q.file ∧
        e.base = (start target).baseName q.graph e.id q.hint (i + 1)) ∧
      (∃ name : Nat → String, (∀ e ∈ r.now.entries, r.finalize.lookup? ⟨e.id, symbolAttr⟩ = some (name e.id)) ∧
        ∀ file, let group := r.now.entries.filter (·.file == file)
          r.finalize.symbols file = group.map (fun e => name e.id) ∧
            FirstSeen (group.map (·.base)) (group.map fun e => (e.base, name e.id)) ∧
              (group.map fun e => name e.id).Nodup) ∧
      ∀ entries files, entries.Perm r.now.entries → (∀ f, f ∈ files ↔ f ∈ entries.map (·.file)) →
        r.finalize.names = some (r.enumerated entries files) := by
  intro r
  have h : Declares target qs r := declares_run target qs
  refine ⟨h.ids, ?_, ⟨r.nameOf, ?_, ?_⟩, ?_⟩
  · intro i e he
    obtain ⟨hseq, q, hq, -, hrest⟩ := h.entry i e he
    exact ⟨hseq, q, hq, hrest⟩
  · intro e he
    rw [h.unnamed.lookup_eq, h.unnamed.find?_eq_some.2 ⟨he, rfl⟩]
    simp [standardValue?]
  · intro file group
    have hnodup : (group.map fun e => r.nameOf e.id).Nodup := by
      apply (h.unnamed.nodup_nameOf file).2
      apply List.pairwise_of_forall
      intro a b
      simp [linkOf?, h.links]
    exact ⟨h.unnamed.symbols_eq file, h.firstSeen file, hnodup⟩
  · intro entries files hentries hfiles
    rw [h.unnamed.enumerated_eq hentries hfiles]
    simp [finalize, h.unnamed.names]

end Schemata.Registry
