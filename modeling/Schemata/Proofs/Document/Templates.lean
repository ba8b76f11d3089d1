import Mathlib.Tactic
import Schemata.Proofs.Document.Closed
import Schemata.Proofs.Program.Reached

/-!
Templates and resolved documents are compiled alike.

A template names its definitions by one token and points to them by another; a resolved document uses one name for
both. Links are canonical, so the two are linked in the same way (`Outline.corresponds`), and lowering them gives
programs that are the same but for the names of definitions (`lower_template`).
-/

namespace Schemata

namespace Lowering

open Schema (Body ofBody everywhere_ofBody Linking)

/-! ## Documents with listed definitions -/

/-- the definitions of a document are the schemas `body` of some nodes, each under its label -/
structure Lists (O : List Nat) (label : Nat → String) (body : Nat → Schema) (S : Schema) : Prop where
  definitions : S.body.definitions.Perm (O.map fun t => (label t, body t))
  defs : S.body.defs = []
  nodup : (O.map label).Nodup
  apart : (O.map fun t => canonical (label t)).Nodup

variable {O : List Nat} {label : Nat → String} {body : Nat → Schema} {S : Schema} {options : CompileOptions}

theorem Lists.index (h : Lists O label body S) :
    (contextOf S options).index = S.body.definitions.map fun d => (canonical d.1, d.1) := by
  have hdistinct : (S.body.definitions.map fun d => canonical d.1).Nodup := by
    rw [(h.definitions.map _).nodup_iff, List.map_map]
    exact h.apart
  simp only [contextOf, h.defs, indexOf]
  exact indexOf_distinct hdistinct

theorem Lists.names (h : Lists O label body S) (options : CompileOptions) :
    ((contextOf S options).index.map (·.2)).Perm (O.map label) := by
  have := h.definitions.map (·.1)
  rw [h.index, List.map_map]
  rwa [List.map_map] at this

theorem Lists.find? (h : Lists O label body S) {t : Nat} (ht : t ∈ O) {token : String}
    (hc : canonical (unescapeToken token) = canonical (label t)) :
    (contextOf S options).find? token = some (label t) := by
  have hmem : (canonical (label t), label t) ∈ (contextOf S options).index := by
    rw [h.index]
    exact List.mem_map.2 ⟨(label t, body t), h.definitions.mem_iff.2 (List.mem_map_of_mem ht), rfl⟩
  have hnodup : ((contextOf S options).index.map (·.1)).Nodup := by
    rw [h.index, List.map_map, (h.definitions.map _).nodup_iff, List.map_map]
    exact h.apart
  rw [Context.find?, hc]
  exact (Dict.get?_eq_some hnodup).2 hmem

theorem Lists.definition? (h : Lists O label body S) {t : Nat} (ht : t ∈ O) :
    S.body.definition? (label t) = some (body t) := by
  have hnodup : (S.body.definitions.map (·.1)).Nodup := by
    rw [(h.definitions.map _).nodup_iff, List.map_map]
    exact h.nodup
  have hget := (Dict.get?_eq_some hnodup).2 (h.definitions.mem_iff.2 (List.mem_map_of_mem ht))
  rw [Schema.Body.definition?, hget]
  rfl

theorem pointer_ne_root (n : String) : "#/definitions/" ++ n ≠ "#" := by
  intro h
  have := congrArg String.length h
  rw [String.length_append] at this
  change 14 + n.length = 1 at this
  omega

/-- a pointer to a definition is linked to it, and is looked up as it -/
theorem Lists.pointer (h : Lists O label body S) {t : Nat} (ht : t ∈ O) {token : String} (hslash : '/' ∉ token.toList)
    (htilde : '~' ∉ token.toList) (hc : canonical token = canonical (label t)) :
    reference (contextOf S options) ("#/definitions/" ++ token) = .ok (.ref {} (label t)) ∧
      resolve (contextOf S options) ("#/definitions/" ++ token) = some (body t) := by
  have hfind : (contextOf S options).find? token = some (label t) := h.find? ht (by rw [unescapeToken_free htilde, hc])
  constructor
  · rw [reference, if_neg (pointer_ne_root token), localName?_pointer]
    simp only [hfind]
  · rw [resolve, if_neg (pointer_ne_root token), lastElement_pointer hslash]
    simp only [hfind]
    exact h.definition? ht

/-! ## Titles -/

/-- the reference that stands for a document without a title -/
def titleLink (b : Body) : Outcome String :=
  if b.own.ref ≠ "" then .ok b.own.ref
  else
    match b.allOf with
    | some [s] => if s.isAbsent then abort else .ok s.own.ref
    | _ => .ok ""

/-- the definition that a reference names -/
def linkName (ref : String) : String :=
  match localName? ref with
  | some token => unescapeToken token
  | none => ""

theorem title_eq (b : Body) : title b = if b.own.title ≠ "" then .ok b.own.title else (titleLink b).map linkName := by
  unfold title titleLink
  split
  · rfl
  · by_cases href : b.own.ref = ""
    · rw [if_neg (not_not.2 href), href]
      match b.allOf with
      | none => rfl
      | some [] => rfl
      | some [s] =>
        simp only
        split <;> rfl
      | some (s :: t :: ss) => rfl
    · rw [if_pos href]
      split
      · rename_i h _
        exact absurd h href
      · rfl

theorem titleLink_relink {g : String → String} {b b' : Body} (hsame : (ofBody b').bare = (ofBody b).relink g)
    (hempty : g b.own.ref = "" ↔ b.own.ref = "") : titleLink b' = (titleLink b).map g := by
  rw [Schema.bare_ofBody, Schema.relink_ofBody] at hsame
  have hbody := Schema.ofBody_injective hsame
  have href : b'.own.ref = g b.own.ref := congrArg (fun b : Body => b.own.ref) hbody
  have hall : b'.allOf = b.allOf.map (·.map (Schema.relink g)) := congrArg Body.allOf hbody
  unfold titleLink
  rw [href, hall]
  by_cases h : b.own.ref = ""
  · have hg : g "" = "" := h ▸ hempty.2 h
    rw [if_neg (not_not.2 (hempty.2 h)), if_neg (not_not.2 h)]
    match b.allOf with
    | none => exact congrArg _ hg.symm
    | some [] => exact congrArg _ hg.symm
    | some [s] =>
      simp only [Option.map_some, List.map_cons, List.map_nil, Schema.isAbsent_relink]
      obtain rfl | ⟨c, rfl⟩ := Schema.eq_absent_or_ofBody s
      · rfl
      · rw [Schema.own_relink]
        rfl
    | some (s :: t :: ss) => exact congrArg _ hg.symm
  · rw [if_pos (mt hempty.1 h), if_pos h]
    rfl

theorem titleLink_link {L : String → Prop} (hL : L "") {b : Body} (hb : (ofBody b).Everywhere (Linking L)) {l : String}
    (hl : titleLink b = .ok l) : L l := by
  obtain ⟨level, below⟩ := everywhere_ofBody.1 hb
  unfold titleLink at hl
  split at hl
  · cases hl
    exact level _ List.mem_cons_self
  · split at hl
    · rename_i s hs
      have hmem : s ∈ b.below := Schema.mem_below.2 (by simp [hs])
      obtain rfl | ⟨c, rfl⟩ := Schema.eq_absent_or_ofBody s
      · cases hl
      · cases hl
        exact (everywhere_ofBody.1 (below _ hmem)).1 _ List.mem_cons_self
    · cases hl
      exact hL

theorem title_relink {L : String → Prop} {g r : String → String} {b b' : Body}
    (hsame : (ofBody b').bare = (ofBody b).relink g) (hb : (ofBody b).Everywhere (Linking L)) (hL : L "")
    (hempty : ∀ l, L l → (g l = "" ↔ l = "")) (hname : ∀ l, L l → linkName (g l) = r (linkName l))
    (htitle : r b.own.title = b.own.title) : title b' = (title b).map r := by
  have hown : b'.own.title = b.own.title := by
    have := congrArg (fun s : Schema => s.own.title) hsame
    rwa [Schema.own_relink] at this
  have hlink := titleLink_relink hsame (hempty _ ((everywhere_ofBody.1 hb).1 _ List.mem_cons_self))
  rw [title_eq, title_eq, hown]
  split
  · exact congrArg _ htitle.symm
  · rw [hlink]
    cases hl : titleLink b with
    | error e => rfl
    | ok l => exact congrArg _ (hname l (titleLink_link hL hb hl))

end Lowering

namespace Document

open Schema (Body ofBody Everywhere everywhere_ofBody relink bare links Linking)
open Placeholder (IsAttr)
open Lowering (Lists Corresponds)

/-! ## Names -/

/-- the name in a resolved document for a name in its template; any other name is moved out of the way -/
def finalName (name : Nat → String) (O : List Nat) (n : String) : String :=
  if n = "" then ""
  else
    match O.find? fun t => Placeholder.text ⟨t, symbolAttr⟩ == n with
    | some t => name t
    | none => "\x7b" ++ n

variable {name : Nat → String} {O : List Nat}

theorem finalName_symbol {t : Nat} (ht : t ∈ O) : finalName name O (Placeholder.text ⟨t, symbolAttr⟩) = name t := by
  have hne : Placeholder.text ⟨t, symbolAttr⟩ ≠ "" := by
    intro h
    have := congrArg String.toList h
    rw [Placeholder.toList_text] at this
    cases this
  rw [finalName, if_neg hne]
  split
  · rename_i u hu
    rw [token_injective (show Placeholder.text ⟨u, symbolAttr⟩ = _ by simpa using List.find?_some hu)]
  · rename_i hnone
    exact absurd (List.find?_eq_none.1 hnone t ht) (by simp)

/-- a name is moved to the name of its node, or out of the way -/
theorem finalName_cases (n : String) : (n = "" ∧ finalName name O n = "") ∨
    (∃ t ∈ O, n = Placeholder.text ⟨t, symbolAttr⟩ ∧ finalName name O n = name t) ∨ finalName name O n = "\x7b" ++ n := by
  unfold finalName
  split
  · rename_i h
    exact .inl ⟨h, rfl⟩
  · split
    · rename_i t ht
      have hlabel : Placeholder.text ⟨t, symbolAttr⟩ = n := by simpa using List.find?_some ht
      exact .inr (.inl ⟨t, List.mem_of_find?_eq_some ht, hlabel.symm, rfl⟩)
    · exact .inr (.inr rfl)

theorem finalName_injective (hnames : ∀ t ∈ O, IsName (name t)) (hapart : ∀ a ∈ O, ∀ b ∈ O, name a = name b → a = b) :
    Function.Injective (finalName name O) := by
  have hempty (n : String) : "\x7b" ++ n ≠ "" := by
    intro h
    have := congrArg String.length h
    rw [String.length_append] at this
    change 1 + n.length = 0 at this
    omega
  have hbrace {t : Nat} (ht : t ∈ O) (n : String) : name t ≠ "\x7b" ++ n := by
    intro h
    refine (IsName.plain (hnames t ht) '\x7b' ?_).1 rfl
    rw [h, String.toList_append]
    exact List.mem_cons_self
  intro m n h
  rcases @finalName_cases name O m with ⟨rfl, hm⟩ | ⟨s, hs, rfl, hm⟩ | hm <;>
    rcases @finalName_cases name O n with ⟨rfl, hn⟩ | ⟨t, ht, rfl, hn⟩ | hn
  · rfl
  all_goals rw [hm, hn] at h
  · exact absurd h.symm (hnames t ht).nonempty
  · exact absurd h.symm (hempty n)
  · exact absurd h (hnames s hs).nonempty
  · rw [hapart s hs t ht h]
  · exact absurd h (hbrace hs n)
  · exact absurd h (hempty m)
  · exact absurd h.symm (hbrace ht m)
  · have := congrArg String.toList h
    rw [String.toList_append, String.toList_append] at this
    exact String.toList_injective (List.append_cancel_left this)

/-! ## Links -/

section Links

theorem token_chars {n : Nat} {attr : String} (ha : IsAttr attr) {c : Char} (hc : c ∈ (Placeholder.text ⟨n, attr⟩).toList) :
    c ≠ '/' ∧ c ≠ '~' := by
  have hattr : ∀ c ∈ attr.toList, c ≠ '/' ∧ c ≠ '~' := by
    rcases ha with rfl | rfl
    · rw [show refAttr.toList = ['r', 'e', 'f'] from rfl]
      simp
    · rw [show symbolAttr.toList = ['s', 'y', 'm', 'b', 'o', 'l'] from rfl]
      simp
  rw [Placeholder.toList_text] at hc
  simp only [Placeholder.tokenChars, List.mem_cons, List.mem_append, List.not_mem_nil, or_false] at hc
  rcases hc with rfl | rfl | hc | rfl | hc | rfl | rfl
  · decide
  · decide
  · have : c.isDigit = true := Nat.isDigit_of_mem_toDigits (by decide) (by decide) hc
    constructor <;> rintro rfl <;> exact absurd this (by decide)
  · decide
  · exact hattr c hc
  · decide
  · decide

theorem canonical_token {n : Nat} {attr : String} (ha : IsAttr attr) (hn : n < 2 ^ 32) :
    Lowering.canonical (Placeholder.text ⟨n, attr⟩) = "#" ++ toString n := by
  rw [Lowering.canonical, Placeholder.parse?_text ha hn]

variable {r : Registry}

theorem Named.chars (hr : Named r O name) {t : Nat} (ht : t ∈ O) {c : Char} (hc : c ∈ (name t).toList) :
    c ≠ '{' ∧ c ≠ '/' ∧ c ≠ '~' := by
  obtain ⟨h1, -, -, -, h2, h3⟩ := safeChar_iff.1 ((hr.names t ht).safe c hc)
  exact ⟨h1, h2, h3⟩

theorem Named.canonical (hr : Named r O name) {t : Nat} (ht : t ∈ O) : Lowering.canonical (name t) = name t :=
  Lowering.canonical_free fun hc => (hr.chars ht hc).1 rfl

/-- a link names no definition, or one of those of the document -/
theorem renamed_link (hr : Named r O name) {l : String} (hl : IsLink O l) :
    (l = "" ∧ renamed name l = "") ∨ (l = "#" ∧ renamed name l = "#") ∨
      ∃ t ∈ O, l = pointer t ∧ renamed name l = "#/definitions/" ++ name t := by
  rcases hl with rfl | rfl | ⟨t, ht, rfl⟩
  · exact .inl ⟨rfl, renamed_free (by decide)⟩
  · exact .inr (.inl ⟨rfl, renamed_free (by decide)⟩)
  · exact .inr (.inr ⟨t, ht, rfl, renamed_pointer (hr.range t ht)⟩)

theorem renamed_link_empty (hr : Named r O name) {l : String} (hl : IsLink O l) : renamed name l = "" ↔ l = "" := by
  have hne (n : String) : "#/definitions/" ++ n ≠ "" := by
    intro h
    have := congrArg String.length h
    rw [String.length_append] at this
    change 14 + n.length = 0 at this
    omega
  rcases renamed_link hr hl with ⟨rfl, h⟩ | ⟨rfl, h⟩ | ⟨t, -, rfl, h⟩ <;> rw [h]
  exact iff_of_false (hne _) (hne _)

theorem canonicalRef_pointer {t : Nat} (ht : t < 2 ^ 32) :
    Lowering.canonicalRef (pointer t) = "#/definitions/" ++ ("#" ++ toString t) := by
  rw [pointer, Lowering.canonicalRef_pointer (fun hc => (token_chars (.inl rfl) hc).1 rfl)
    (fun hc => (token_chars (.inl rfl) hc).2 rfl), canonical_token (.inl rfl) ht]

/-- links are told apart in a template as they are in the resolved document -/
theorem Named.apart_links (hr : Named r O name) {l m : String} (hl : IsLink O l) (hm : IsLink O m) :
    Lowering.canonicalRef (renamed name l) = Lowering.canonicalRef (renamed name m) ↔
      Lowering.canonicalRef l = Lowering.canonicalRef m := by
  have hname {t : Nat} (ht : t ∈ O) : Lowering.canonicalRef ("#/definitions/" ++ name t) = "#/definitions/" ++ name t := by
    rw [Lowering.canonicalRef_pointer (fun hc => (hr.chars ht hc).2.1 rfl) (fun hc => (hr.chars ht hc).2.2 rfl), hr.canonical ht]
  have hlong (n : String) : "" ≠ "#/definitions/" ++ n ∧ "#" ≠ "#/definitions/" ++ n := by
    refine ⟨fun h => ?_, fun h => Lowering.pointer_ne_root n h.symm⟩
    have := congrArg String.length h
    rw [String.length_append] at this
    change 0 = 14 + n.length at this
    omega
  have hcut {a b : String} : "#/definitions/" ++ a = "#/definitions/" ++ b ↔ a = b := by
    rw [← String.toList_inj, String.toList_append, String.toList_append, List.append_cancel_left_eq, String.toList_inj]
  have hshort : Lowering.canonicalRef "" = "" ∧ Lowering.canonicalRef "#" = "#" := by decide
  by_cases heq : l = m
  · rw [heq]
    exact iff_of_true rfl rfl
  rcases renamed_link hr hl with ⟨rfl, hl'⟩ | ⟨rfl, hl'⟩ | ⟨a, ha, rfl, hl'⟩ <;>
    rcases renamed_link hr hm with ⟨rfl, hm'⟩ | ⟨rfl, hm'⟩ | ⟨b, hb, rfl, hm'⟩
  · exact absurd rfl heq
  · rw [hl', hm']
  · simp only [hl', hm', hshort, hname hb, canonicalRef_pointer (hr.range b hb), (hlong _).1]
  · rw [hl', hm']
  · exact absurd rfl heq
  · simp only [hl', hm', hshort, hname hb, canonicalRef_pointer (hr.range b hb), (hlong _).2]
  · simp only [hl', hm', hshort, hname ha, canonicalRef_pointer (hr.range a ha), (hlong _).1.symm]
  · simp only [hl', hm', hshort, hname ha, canonicalRef_pointer (hr.range a ha), (hlong _).2.symm]
  · rw [hl', hm', hname ha, hname hb, canonicalRef_pointer (hr.range a ha), canonicalRef_pointer (hr.range b hb), hcut, hcut]
    have hab : a ≠ b := fun h => heq (by rw [h])
    exact iff_of_false (fun h => hab (hr.apart a ha b hb h)) fun h => hab (Text.number_injective h)

end Links

/-! ## Documents -/

section

variable {cx : Context} {hoist : Option Nat} {root : Nat} {head : Schema} {st : State} {r : Registry} {b : Body} {s : Schema}

theorem Tidy.settled (h : Tidy (diction O) b) : Schema.Settled (renamed name) b :=
  ⟨fun t ht => renamed_free (h.texts t ht), fun e he => renamed_free (h.keys e he)⟩

theorem Tidy.relinks (h : s.Everywhere (Tidy (diction O))) : Schema.Relinks (renamed name) s :=
  Schema.reread_relink (h.imp fun _ hb => ⟨hb.settled, hb.definitions, hb.defs⟩)

theorem Tidy.linking (h : s.Everywhere (Tidy (diction O))) : (s.reread id).Everywhere (Linking (IsLink O)) :=
  Schema.linking_reread (.inl rfl) (h.imp fun _ hb => hb.links)

/-- a document that is read back has definitions of one kind only -/
theorem Outline.defs_reread (hnum : cx.graph.Numbered) (hc : NoCustom cx.graph) (h : Outline cx hoist root head st)
    (o : Options) (f : String → String) : ((assemble o st head).root.reread f).body.defs = [] := by
  obtain ⟨B, hB, -, hdefs⟩ := h.root_body hnum hc o
  rw [hB, Schema.reread_ofBody, Schema.ofBody_body]
  simp [Schema.Parts.reread, Schema.Body.parts, hdefs, Schema.rereadMap, Dict.ofList]

/-- the definitions of the template -/
theorem Outline.template_lists (hnum : cx.graph.Numbered) (hc : NoCustom cx.graph) (h : Outline cx hoist root head st)
    (hrange : ∀ t ∈ st.order, t < 2 ^ 32) (o : Options) :
    Lists st.order (fun t => Placeholder.text ⟨t, symbolAttr⟩) (fun t => (bodyOf st t).reread id)
      ((assemble o st head).root.reread id) where
  definitions := h.definitions_perm hnum hc (fun _ _ => rfl) (fun _ _ _ _ hab => token_injective hab) o
  defs := h.defs_reread hnum hc o _
  nodup := h.nodup.map fun _ _ hab => token_injective hab
  apart := by
    refine List.Nodup.map_on (fun a ha b hb hab => ?_) h.nodup
    rw [canonical_token (.inr rfl) (hrange a ha), canonical_token (.inr rfl) (hrange b hb)] at hab
    exact Text.number_injective hab

/-- the definitions of the resolved document -/
theorem Outline.resolved_lists (hnum : cx.graph.Numbered) (hc : NoCustom cx.graph) (h : Outline cx hoist root head st)
    (hr : Named r st.order name) (o : Options) :
    Lists st.order name (fun t => (bodyOf st t).reread (renamed name)) ((assemble o st head).root.reread (renamed name)) where
  definitions := h.definitions_perm hnum hc (fun t ht => renamed_symbol (hr.range t ht)) hr.apart o
  defs := h.defs_reread hnum hc o _
  nodup := List.Nodup.map_on hr.apart h.nodup
  apart := by
    refine List.Nodup.map_on (fun a ha b hb hab => hr.apart a ha b hb ?_) h.nodup
    rwa [hr.canonical ha, hr.canonical hb] at hab

/-- a document that is read with its names filled in as it is relinked -/
structure Relinked (O : List Nat) (name : Nat → String) (body : Nat → Schema) (T : Schema) : Prop where
  root : (ofBody (T.reread (renamed name)).body).bare = (ofBody (T.reread id).body).relink (renamed name)
  links : (ofBody (T.reread id).body).Everywhere (Linking (IsLink O))
  title : renamed name (T.reread id).body.own.title = (T.reread id).body.own.title
  bodies : ∀ t ∈ O, ((body t).reread id).Everywhere (Linking (IsLink O)) ∧ Schema.Relinks (renamed name) (body t)

theorem Outline.relinked (hnum : cx.graph.Numbered) (hc : NoCustom cx.graph) (htok : Tokenless cx.graph)
    (hext : PlainExtensions cx.graph) (h : Outline cx hoist root head st) (o : Options) (name : Nat → String) :
    Relinked st.order name (bodyOf st) (assemble o st head).root := by
  have hspeaks := speaks_diction htok hext st.order
  have hlink : ∀ t ∈ st.order, IsLink st.order (pointer t) := fun t ht => .inr (.inr ⟨t, ht, rfl⟩)
  obtain ⟨B, hB, -, hlevel, hbelow⟩ := h.top hnum hc hspeaks hlink o
  have hsettled : Schema.Settled (renamed name) B := ⟨hlevel.settled.texts, hlevel.settled.keys⟩
  have hlinks : (ofBody B).Everywhere (Linking (IsLink st.order)) :=
    everywhere_ofBody.2 ⟨hlevel.links, fun s hs => (hbelow s hs).imp fun b hb => hb.links⟩
  rw [hB]
  refine ⟨?_, ?_, ?_, fun t ht => ?_⟩
  · have := Schema.bare_reread hsettled (Schema.Body.forall_below.1 fun s hs => Tidy.relinks (hbelow s hs))
    rwa [Schema.reread_ofBody, Schema.reread_ofBody] at this ⊢
  · have := Schema.linking_reread (.inl rfl) hlinks
    rwa [Schema.reread_ofBody] at this ⊢
  · rw [Schema.reread_ofBody]
    exact renamed_free (hlevel.texts _ (Schema.mem_plainTexts.2
      (.inl (List.mem_cons_of_mem _ (List.mem_cons_of_mem _ List.mem_cons_self)))))
  · obtain ⟨-, d, hd⟩ := h.body_rendered ht
    have htidy := hd.tidy hnum hc hspeaks hlink
    exact ⟨Tidy.linking htidy, Tidy.relinks htidy⟩

/-- **Links.** The links of a template, and what they lead to, correspond to those of the resolved document. -/
theorem Relinked.corresponds {body : Nat → Schema} {T : Schema} (h : Relinked O name body T) (hr : Named r O name)
    (hl : Lists O (fun t => Placeholder.text ⟨t, symbolAttr⟩) (fun t => (body t).reread id) (T.reread id))
    (hl' : Lists O name (fun t => (body t).reread (renamed name)) (T.reread (renamed name))) (options : CompileOptions) :
    Corresponds (IsLink O) (renamed name) (finalName name O) (Lowering.contextOf (T.reread id) options)
      (Lowering.contextOf (T.reread (renamed name)) options) := by
  -- what a pointer of the template leads to, and what its counterpart leads to
  have hpointer {t : Nat} (ht : t ∈ O) := @Lists.pointer _ _ _ _ options hl t ht (Placeholder.text ⟨t, refAttr⟩)
    (fun hc => (token_chars (.inl rfl) hc).1 rfl) (fun hc => (token_chars (.inl rfl) hc).2 rfl)
    (by rw [canonical_token (.inl rfl) (hr.range t ht), canonical_token (.inr rfl) (hr.range t ht)])
  have hpointer' {t : Nat} (ht : t ∈ O) := @Lists.pointer _ _ _ _ options hl' t ht (name t)
    (fun hc => (hr.chars ht hc).2.1 rfl) (fun hc => (hr.chars ht hc).2.2 rfl) rfl
  have hroot (S : Schema) : Lowering.resolve (Lowering.contextOf S options) "#" = some (ofBody S.body) := if_pos rfl
  have hempty : finalName name O "" = "" := if_pos rfl
  refine ⟨rfl, fun l hlink => renamed_link_empty hr hlink, fun l hlink hne => ?_, fun l hlink hne => ?_,
    fun l s hlink hne hs => ?_, fun l m hlink hm => hr.apart_links hlink hm⟩
  · rcases renamed_link hr hlink with ⟨rfl, -⟩ | ⟨rfl, hg⟩ | ⟨t, ht, rfl, hg⟩
    · exact absurd rfl hne
    · rw [hg]
      exact congrArg (fun n => (.ok (.ref {} n) : Outcome Shape)) hempty.symm
    · rw [hg, (hpointer' ht).1, pointer, (hpointer ht).1]
      exact congrArg (fun n => (.ok (.ref {} n) : Outcome Shape)) (finalName_symbol ht).symm
  · rcases renamed_link hr hlink with ⟨rfl, -⟩ | ⟨rfl, hg⟩ | ⟨t, ht, rfl, hg⟩
    · exact absurd rfl hne
    · rw [hg, hroot, hroot]
      exact congrArg some h.root
    · rw [hg, (hpointer' ht).2, pointer, (hpointer ht).2]
      rw [Option.map_some, Option.map_some, (h.bodies t ht).2, Schema.bare_relink]
  · rcases renamed_link hr hlink with ⟨rfl, -⟩ | ⟨rfl, -⟩ | ⟨t, ht, rfl, -⟩
    · exact absurd rfl hne
    · rw [hroot] at hs
      cases hs
      exact h.links
    · rw [pointer, (hpointer ht).2] at hs
      cases hs
      exact (h.bodies t ht).1

/-- a link names the same node before and after names are filled in -/
theorem linkName_renamed (hr : Named r O name) {l : String} (hl : IsLink O l) :
    Lowering.linkName (renamed name l) = renamed name (Lowering.linkName l) := by
  have hname (n : String) (hn : '~' ∉ n.toList) : Lowering.linkName ("#/definitions/" ++ n) = n := by
    rw [Lowering.linkName, Lowering.localName?_pointer]
    exact Lowering.unescapeToken_free hn
  have hnone : Lowering.linkName "" = "" ∧ Lowering.linkName "#" = "" := by decide
  have hempty : renamed name "" = "" := renamed_free (by decide)
  rcases renamed_link hr hl with ⟨rfl, h⟩ | ⟨rfl, h⟩ | ⟨t, ht, rfl, h⟩
  · rw [h, hnone.1, hempty]
  · rw [h, hnone.2, hempty]
  · rw [h, hname _ fun hc => (hr.chars ht hc).2.2 rfl, pointer, hname _ fun hc => (token_chars (.inl rfl) hc).2 rfl, renamed,
      Placeholder.parse?_text (.inl rfl) (hr.range t ht)]

/-- **Documents and their templates.** Lowering a template and lowering its resolved text fail together, or give
programs that are the same but for the names of definitions. -/
theorem Relinked.together {body : Nat → Schema} {T : Schema} (h : Relinked O name body T) (hr : Named r O name)
    (hl : Lists O (fun t => Placeholder.text ⟨t, symbolAttr⟩) (fun t => (body t).reread id) (T.reread id))
    (hl' : Lists O name (fun t => (body t).reread (renamed name)) (T.reread (renamed name))) (options : CompileOptions) :
    Lowering.Together (fun p p' => p.Renamed (finalName name O) p' ∧ p'.title = renamed name p.title ∧
        (p.defs.map (·.1)).Perm (O.map fun t => Placeholder.text ⟨t, symbolAttr⟩))
      (Program.lower (T.reread id) options) (Program.lower (T.reread (renamed name)) options) := by
  have hfinal : O.map name = (O.map fun t => Placeholder.text ⟨t, symbolAttr⟩).map (finalName name O) := by
    rw [List.map_map]
    exact List.map_congr_left fun t ht => (finalName_symbol ht).symm
  have hnames := (hl'.names options).trans ((List.Perm.of_eq hfinal).trans ((hl.names options).map (finalName name O)).symm)
  have hdefinitions : ∀ n ∈ (Lowering.contextOf (T.reread id) options).index.map (·.2),
      ((Lowering.contextOf (T.reread id) options).definition n).Everywhere (Linking (IsLink O)) ∧
        ((Lowering.contextOf (T.reread (renamed name)) options).definition (finalName name O n)).bare =
          ((Lowering.contextOf (T.reread id) options).definition n).relink (renamed name) := by
    intro n hn
    obtain ⟨t, ht, rfl⟩ := List.mem_map.1 ((hl.names options).mem_iff.1 hn)
    rw [finalName_symbol ht]
    have hbody : (Lowering.contextOf (T.reread id) options).definition (Placeholder.text ⟨t, symbolAttr⟩) = (body t).reread id :=
      congrArg (Option.getD · _) (hl.definition? ht)
    have hbody' : (Lowering.contextOf (T.reread (renamed name)) options).definition (name t) = (body t).reread (renamed name) :=
      congrArg (Option.getD · _) (hl'.definition? ht)
    rw [hbody, hbody', (h.bodies t ht).2, Schema.bare_relink]
    exact ⟨(h.bodies t ht).1, rfl⟩
  have htitle := Lowering.title_relink h.root h.links (.inl rfl) (fun l hl => renamed_link_empty hr hl)
    (fun l hl => linkName_renamed hr hl) h.title
  refine (Lowering.program_relink (h.corresponds hr hl hl' options) h.links h.root hnames hdefinitions htitle).imp
    fun p p' ⟨hrenamed, htitle, hdefs⟩ => ⟨hrenamed, htitle, ?_⟩
  rw [hdefs]
  exact (List.mergeSort_perm _ _).trans (hl.names options)

/-- **Templates are compiled as resolved documents are.** -/
theorem lower_template {g : Graph} (hnum : g.Numbered) (hkeys : DistinctKeys g) (hcustom : NoCustom g) (htok : Tokenless g)
    (hext : PlainExtensions g) {root : Nat} {before after final : Registry} {o : Options} {doc : Document}
    (h : ofNode g root before o = (.ok doc, after)) {name : Nat → String} (hnamed : Named final doc.definitions name)
    {raw text : String} {seen : Dict String} (hraw : doc.template = .ok raw) (hres : (final.resolve raw).2 = .ok (text, seen))
    {S S' : Schema} (hS : Schema.decode raw = .ok S) (hS' : Schema.decode text = .ok S') :
    (doc.definitions.map name).Nodup ∧
      ∀ options, Lowering.Together
        (fun p p' => (p.defs.map (·.1)).Perm (doc.definitions.map fun t => Placeholder.text ⟨t, symbolAttr⟩) ∧
          p'.title = renamed name p.title ∧
          (∃ f, Function.Injective f ∧ f "" = "" ∧ (∀ t ∈ doc.definitions, f (Placeholder.text ⟨t, symbolAttr⟩) = name t) ∧
            p.Renamed f p') ∧
          ∀ coerce words v, p'.validate coerce words v = p.validate coerce words v)
        (Program.lower S options) (Program.lower S' options) := by
  obtain ⟨head, st, houtline, rfl, -, -⟩ := ofNode_outline hnum hkeys h
  set cx := contextOf g root o
  have hpresent : (assemble o st head).root.isAbsent = false := by
    obtain ⟨B, hB, -⟩ := @Outline.root_body cx hnum hcustom _ _ _ _ houtline o
    rw [hB]
    rfl
  have hextra := @Outline.extra_plain cx _ _ _ _ hnum hcustom htok hext houtline o
  obtain rfl := decode_template hpresent (fun k hk e he => (hextra k hk e he).1) (template_ok hraw) hS
  obtain rfl := decode_resolved hnamed hpresent (@Outline.texts_own cx _ _ _ _ hnum hcustom htok hext houtline o) hextra
    (template_ok hraw) hres hS'
  have hl := @Outline.template_lists cx _ _ _ _ hnum hcustom houtline hnamed.range o
  have hl' := @Outline.resolved_lists name cx _ _ _ _ _ hnum hcustom houtline hnamed o
  have hrelinked := @Outline.relinked cx _ _ _ _ hnum hcustom htok hext houtline o name
  have hinjective := finalName_injective hnamed.names hnamed.apart
  have hempty : finalName name st.order "" = "" := if_pos rfl
  refine ⟨List.Nodup.map_on hnamed.apart houtline.nodup, fun options => ?_⟩
  refine (hrelinked.together hnamed hl hl' options).imp fun p p' ⟨hrenamed, htitle, hdefs⟩ => ?_
  have hdistinct : (p.defs.map (·.1)).Nodup := hdefs.nodup_iff.2 hl.nodup
  exact ⟨hdefs, htitle, ⟨_, hinjective, hempty, fun t ht => finalName_symbol ht, hrenamed⟩,
    fun coerce words v => Program.validate_renamed hrenamed hinjective hempty hdistinct coerce words v⟩

/-- documents whose templates and texts are read back and pass a check -/
theorem ofNode_read {g : Graph} {start : Registry} {root : Nat} {o : Options} {P : Schema → Schema → Bool}
    (hr : (ofNode g root start o).2.IsOrdered)
    (h : (readTemplate start g root o).any fun S => (readSettled start g root o).any (P S)) :
    ∃ doc after raw text seen S S', ofNode g root start o = (.ok doc, after) ∧ doc.template = .ok raw ∧
      (after.resolve raw).2 = .ok (text, seen) ∧ Schema.decode raw = .ok S ∧ Schema.decode text = .ok S' ∧ P S S' = true := by
  obtain ⟨S, hS, h⟩ := (Option.any_eq_true _ _).1 h
  obtain ⟨S', hS', h⟩ := (Option.any_eq_true _ _).1 h
  rw [readSettled_eq] at hS'
  obtain ⟨doc, r, raw, text, seen, hof, hraw, hres, hdecode⟩ := readListed_some hr hS'
  exact ⟨doc, r, raw, text, seen, S, S', hof, hraw, hres, readTemplate_some hof hraw hS, hdecode, h⟩

/-- the names of a document rendered with names of its own -/
theorem ofNode_own {g : Graph} (hnum : g.Numbered) (hkeys : DistinctKeys g) (hcustom : NoCustom g) {root : Nat} {o : Options}
    {doc : Document} {after : Registry} (h : ofNode g root { target := target } o = (.ok doc, after)) {raw : String}
    (hraw : doc.template = .ok raw) {out : String × Dict String} (hres : (after.resolve raw).2 = .ok out) :
    ∃ name, Named after doc.definitions name := by
  obtain ⟨head, st, name, -, rfl, hnamed⟩ :=
    ofNode_named hnum hkeys hcustom h (ofNode_inline hnum hkeys h (inline_start _)) hraw hres
  exact ⟨name, hnamed⟩

theorem lower_template_nested : ∃ doc after raw text seen S S', nestedGraph.Numbered ∧ DistinctKeys nestedGraph ∧
    NoCustom nestedGraph ∧ Tokenless nestedGraph ∧ PlainExtensions nestedGraph ∧
    ofNode nestedGraph 5 { target := target } {} = (.ok doc, after) ∧ doc.template = .ok raw ∧
    (after.resolve raw).2 = .ok (text, seen) ∧ Schema.decode raw = .ok S ∧ Schema.decode text = .ok S' ∧
    S.body.definitions.length = 1 ∧
    ∃ name : Nat → String, Named after doc.definitions name ∧ (doc.definitions.map name).Nodup ∧
      ∃ p p' f, Program.lower S {} = .ok p ∧ Program.lower S' {} = .ok p' ∧ p.Renamed f p' ∧
        (∀ t ∈ doc.definitions, f (Placeholder.text ⟨t, symbolAttr⟩) = name t) ∧
        ∀ coerce words v, p'.validate coerce words v = p.validate coerce words v := by
  have hnum : nestedGraph.Numbered := by decide +kernel
  have hkeys : DistinctKeys nestedGraph := fun id n =>
    Graph.forall_nodes (P := fun n => n.kind = .object → n.objectOptions.keys.Nodup) (by decide +kernel)
  have hcustom : NoCustom nestedGraph := fun id n => Graph.forall_nodes (P := fun n => n.kind ≠ .custom) (by decide +kernel)
  have htok : Tokenless nestedGraph := fun id n =>
    Graph.forall_nodes (P := fun n => ∀ t ∈ n.texts, Placeholder.occursIn t = false) (by decide +kernel)
  have hext : PlainExtensions nestedGraph := fun id n =>
    Graph.forall_nodes (P := fun n => ∀ e ∈ n.info.extensions ++ n.info.openapi, Schema.isKnown e.1 = false) (by decide +kernel)
  obtain ⟨doc, after, raw, text, seen, S, S', hdoc, hraw, hres, hS, hS', hread⟩ := @ofNode_read nestedGraph { target := target }
    5 {} (fun S _ => S.body.definitions.length == 1 && (Program.lower S {}).toOption.isSome) (by decide +kernel) (by decide +kernel)
  obtain ⟨hone, hlower⟩ := Bool.and_eq_true_iff.1 hread
  obtain ⟨name, hnamed⟩ := ofNode_own hnum hkeys hcustom hdoc hraw hres
  obtain ⟨hnodup, htogether⟩ := lower_template hnum hkeys hcustom htok hext hdoc hnamed hraw hres hS hS'
  refine ⟨doc, after, raw, text, seen, S, S', hnum, hkeys, hcustom, htok, hext, hdoc, hraw, hres, hS, hS',
    by simpa using hone, name, hnamed, hnodup, ?_⟩
  obtain ⟨⟨e, he⟩, -⟩ | ⟨p, p', hp, hp', -, -, ⟨f, -, -, hf, hrenamed⟩, hvalidate⟩ := htogether {}
  · rw [he] at hlower
    cases hlower
  · exact ⟨p, p', f, hp, hp', hrenamed, hf, hvalidate⟩

/-- a number and a text with an extension that is named as references are -/
def pairGraph : Graph := { nodes := #[
  { id := 1, kind := .integer, options := .number {}, loaded := true },
  { id := 2, kind := .ref, children := [1], loaded := true },
  { id := 3, kind := .string, options := .text {}, info := { extensions := [("$ref", .string "#/definitions/Schema1")] },
    loaded := true },
  { id := 4, kind := .tuple, options := .tuple false, children := [2, 3], loaded := true }] }

/-- a choice by a constant that is displayed as a text with a token -/
def choiceGraph : Graph := { nodes := #[
  { id := 1, kind := .const, options := .const (.object [("\x7b\x7b2", .string "ref\x7d\x7d")]), loaded := true },
  { id := 2, kind := .object, options := .object { keys := ["kind"] }, children := [1], loaded := true },
  { id := 3, kind := .ref, children := [2], loaded := true },
  { id := 4, kind := .union, options := .union "kind", children := [3], loaded := true }] }

/-- a truth value and a text, both of them referred to -/
def twinGraph : Graph := { nodes := #[
  { id := 1, kind := .boolean, loaded := true },
  { id := 2, kind := .string, options := .text {}, loaded := true },
  { id := 3, kind := .ref, children := [1], loaded := true },
  { id := 4, kind := .ref, children := [2], loaded := true },
  { id := 5, kind := .tuple, options := .tuple false, children := [3, 4], loaded := true }] }

/-- a registry in which two nodes are linked to one name -/
def linkedTwins : Registry := (Registry.link { target := target } 1 "X").link 2 "X"

/-- does the first schema fail to be compiled where the second does not? -/
def failsAlone (S S' : Schema) : Bool :=
  (Program.lower S {}).toOption.isNone && (Program.lower S' {}).toOption.isSome

/-- does the first program accept the value, and does the second find issues in it? -/
def tellsApart (v : Value) (p p' : Program) : Bool :=
  (p.validate false (fun _ _ => "") v).toOption.any List.isEmpty &&
    (p'.validate false (fun _ _ => "") v).toOption.any fun is => !is.isEmpty

/-- does the program of the first schema accept the value, and that of the second find issues in it? -/
def acceptsAlone (options : CompileOptions) (v : Value) (S S' : Schema) : Bool :=
  (Program.lower S options).toOption.any fun p => (Program.lower S' options).toOption.any (tellsApart v p)

/-- **Templates that are compiled in another way.** An extension may point to the name that a definition gets in the end,
a constant may be displayed as a text that holds a token, and two definitions may be linked to one name. -/
theorem lower_template_apart :
    (pairGraph.Numbered ∧ DistinctKeys pairGraph ∧ NoCustom pairGraph ∧ Tokenless pairGraph ∧
      ∃ doc after raw text seen S S' name, ofNode pairGraph 4 { target := target } {} = (.ok doc, after) ∧
        Named after doc.definitions name ∧ doc.template = .ok raw ∧ (after.resolve raw).2 = .ok (text, seen) ∧
        Schema.decode raw = .ok S ∧ Schema.decode text = .ok S' ∧ failsAlone S S' = true) ∧
    (choiceGraph.Numbered ∧ DistinctKeys choiceGraph ∧ NoCustom choiceGraph ∧ PlainExtensions choiceGraph ∧
      (∀ id n, choiceGraph.get? id = some n → ∀ t ∈ n.info.texts ++ n.objectOptions.keys ++ n.constValue.texts,
        Placeholder.occursIn t = false) ∧
      ∃ doc after raw text seen S S' name, ofNode choiceGraph 4 { target := target } { dialect := .openapi } = (.ok doc, after) ∧
        Named after doc.definitions name ∧ doc.template = .ok raw ∧ (after.resolve raw).2 = .ok (text, seen) ∧
        Schema.decode raw = .ok S ∧ Schema.decode text = .ok S' ∧
        acceptsAlone { dialect := .openapi, discriminator := true }
          (.object [("kind", .object [("\x7b\x7b2", .string "ref\x7d\x7d")])]) S S' = true) ∧
    (twinGraph.Numbered ∧ DistinctKeys twinGraph ∧ NoCustom twinGraph ∧ Tokenless twinGraph ∧ PlainExtensions twinGraph ∧
      ∃ doc after raw text seen S S', ofNode twinGraph 5 linkedTwins {} = (.ok doc, after) ∧ doc.template = .ok raw ∧
        (after.resolve raw).2 = .ok (text, seen) ∧ Schema.decode raw = .ok S ∧ Schema.decode text = .ok S' ∧
        acceptsAlone {} (.array [.bool true, .string "a"]) S S' = true) := by
  have hkeys {g : Graph} (h : ∀ n ∈ g.nodes, n.kind = .object → n.objectOptions.keys.Nodup) : DistinctKeys g :=
    fun id n => Graph.forall_nodes h
  have hcustom {g : Graph} (h : ∀ n ∈ g.nodes, n.kind ≠ .custom) : NoCustom g := fun id n => Graph.forall_nodes h
  have htok {g : Graph} (h : ∀ n ∈ g.nodes, ∀ t ∈ n.texts, Placeholder.occursIn t = false) : Tokenless g :=
    fun id n => Graph.forall_nodes h
  have hext {g : Graph} (h : ∀ n ∈ g.nodes, ∀ e ∈ n.info.extensions ++ n.info.openapi, Schema.isKnown e.1 = false) :
      PlainExtensions g := fun id n => Graph.forall_nodes h
  refine ⟨?_, ?_, ?_⟩
  · have hnum : pairGraph.Numbered := by decide +kernel
    have hgraph : DistinctKeys pairGraph ∧ NoCustom pairGraph := ⟨hkeys (by decide +kernel), hcustom (by decide +kernel)⟩
    obtain ⟨doc, after, raw, text, seen, S, S', hdoc, hraw, hres, hrest⟩ :=
      @ofNode_read pairGraph { target := target } 4 {} failsAlone (by decide +kernel) (by decide +kernel)
    obtain ⟨name, hnamed⟩ := ofNode_own hnum hgraph.1 hgraph.2 hdoc hraw hres
    exact ⟨hnum, hgraph.1, hgraph.2, htok (by decide +kernel), doc, after, raw, text, seen, S, S', name, hdoc, hnamed, hraw,
      hres, hrest⟩
  · have hnum : choiceGraph.Numbered := by decide +kernel
    have hgraph : DistinctKeys choiceGraph ∧ NoCustom choiceGraph := ⟨hkeys (by decide +kernel), hcustom (by decide +kernel)⟩
    have hplain : PlainExtensions choiceGraph := hext (by decide +kernel)
    obtain ⟨doc, after, raw, text, seen, S, S', hdoc, hraw, hres, hrest⟩ :=
      @ofNode_read choiceGraph { target := target } 4 { dialect := .openapi }
        (acceptsAlone { dialect := .openapi, discriminator := true }
          (.object [("kind", .object [("\x7b\x7b2", .string "ref\x7d\x7d")])]))
        (by decide +kernel) (by decide +kernel)
    obtain ⟨name, hnamed⟩ := ofNode_own hnum hgraph.1 hgraph.2 hdoc hraw hres
    exact ⟨hnum, hgraph.1, hgraph.2, hplain,
      fun id n => Graph.forall_nodes (P := fun n => ∀ t ∈ n.info.texts ++ n.objectOptions.keys ++ n.constValue.texts,
        Placeholder.occursIn t = false) (by decide +kernel),
      doc, after, raw, text, seen, S, S', name, hdoc, hnamed, hraw, hres, hrest⟩
  · obtain ⟨doc, after, raw, text, seen, S, S', hdoc, hraw, hres, hS, hS', hread⟩ := @ofNode_read twinGraph linkedTwins 5 {}
      (fun S S' => Lowering.lowersTo {}
        (fun p => (Program.lower S' {}).toOption.any (tellsApart (.array [.bool true, .string "a"]) p)) S)
      (by decide +kernel) (by decide +kernel)
    exact ⟨by decide +kernel, hkeys (by decide +kernel), hcustom (by decide +kernel), htok (by decide +kernel),
      hext (by decide +kernel), doc, after, raw, text, seen, S, S', hdoc, hraw, hres, hS, hS', Lowering.any_of_lowersTo hread⟩

end

end Document

end Schemata
