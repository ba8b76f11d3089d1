import Mathlib.Tactic
import Schemata.Proofs.Document.Levels
import Schemata.Proofs.Registry.Resolution
import Schemata.Proofs.Program.Lowering

/-!
Documents with their names filled in.

The tokens of a document are the names of its definitions and the pointers to them; no other text holds one (`Own`).
`renamed` puts a name for each, and `decode_resolved` says that the schema read from a resolved text is the rendered one
with its strings renamed. A template is read as it stands (`decode_template`).
-/

namespace Schemata

namespace Placeholder

theorem natOf?_toString (n : Nat) : Text.natOf? (toString n) = some n := by
  have hdigits : ∀ c ∈ Nat.toDigits 10 n, c.isDigit = true := fun c hc =>
    Nat.isDigit_of_mem_toDigits (by decide) (by decide) hc
  have hvalue (ds : List Char) (m : Nat) :
      ds.foldl (fun n c => n * 10 + (c.toNat - '0'.toNat)) m = Nat.ofDigitChars 10 ds m := by
    induction ds generalizing m with
    | nil => rfl
    | cons c ds ih => rw [List.foldl_cons, Nat.ofDigitChars_cons, ih, Nat.mul_comm m 10]
  have hne : (toString n).isEmpty = false := by
    rw [String.isEmpty_eq_false_iff]
    intro h
    have := congrArg String.toList h
    rw [Text.toList_toString_nat] at this
    exact Nat.toDigits_ne_nil this
  rw [Text.natOf?, hne, Text.toList_toString_nat, hvalue, Nat.ofDigitChars_ten_toDigits, if_neg]
  simpa using hdigits

theorem idOf?_toDigits {n : Nat} : idOf? (Nat.toDigits 10 n) = if n < 2 ^ 32 then some n else none := by
  have : String.ofList (Nat.toDigits 10 n) = toString n := by
    rw [← Text.toList_toString_nat, String.ofList_toList]
  rw [idOf?, this, natOf?_toString, Option.filter_some]
  simp

/-- the attributes that documents use -/
def IsAttr (attr : String) : Prop := attr = refAttr ∨ attr = symbolAttr

theorem IsAttr.token {attr : String} (h : IsAttr attr) (n : Nat) : IsToken (Nat.toDigits 10 n) attr.toList := by
  have hname : (∃ c cs, attr.toList = c :: cs ∧ isNameStart c = true) ∧ ∀ c ∈ attr.toList, isNameChar c = true := by
    rcases h with rfl | rfl
    · rw [show refAttr.toList = ['r', 'e', 'f'] from rfl]
      exact ⟨⟨_, _, rfl, by decide⟩, by simp [isNameChar]⟩
    · rw [show symbolAttr.toList = ['s', 'y', 'm', 'b', 'o', 'l'] from rfl]
      exact ⟨⟨_, _, rfl, by decide⟩, by simp [isNameChar]⟩
  exact ⟨Nat.toDigits_ne_nil, fun c hc => Nat.isDigit_of_mem_toDigits (by decide) (by decide) hc, hname.1, hname.2⟩

theorem toList_text (n : Nat) (attr : String) : (text ⟨n, attr⟩).toList = tokenChars (Nat.toDigits 10 n) attr.toList := by
  simp [text, tokenChars]

theorem parse?_text {n : Nat} {attr : String} (h : IsAttr attr) (hn : n < 2 ^ 32) : parse? (text ⟨n, attr⟩) = some ⟨n, attr⟩ := by
  have := scan?_token (h.token n) []
  rw [List.append_nil, ← toList_text] at this
  rw [parse?, this]
  simp only [idOf?_toDigits, if_pos hn, Option.map_some, String.ofList_toList]

/-- a text that is a token holds one -/
theorem parse?_free {s : String} (h : Registry.tokensOf s.toList = []) : parse? s = none := by
  unfold parse?
  split
  · rename_i ds attr hs
    obtain ⟨heq, htok⟩ := scan?_eq_some hs
    rw [heq, Registry.tokensOf_token htok] at h
    cases h
  · rfl

end Placeholder

namespace Document

open Schema (Body ofBody Everywhere everywhere_ofBody)
open Placeholder (IsAttr)

/-! ## Renaming -/

/-- a text with the name of a definition put for its token, which is all of the text or the end of a pointer -/
def renamed (name : Nat → String) (s : String) : String :=
  match Placeholder.parse? s with
  | some p => name p.node
  | none =>
    match Text.dropPrefix? "#/definitions/".toList s.toList with
    | some rest =>
      match Placeholder.parse? (String.ofList rest) with
      | some p => "#/definitions/" ++ name p.node
      | none => s
    | none => s

theorem dropPrefix?_eq_some {p cs rest : List Char} (h : Text.dropPrefix? p cs = some rest) : cs = p ++ rest := by
  induction p generalizing cs with
  | nil =>
    cases cs <;> cases h <;> rfl
  | cons c p ih =>
    cases cs with
    | nil => cases h
    | cons d cs =>
      rw [Text.dropPrefix?] at h
      split at h
      · rename_i heq
        rw [heq, ih h, List.cons_append]
      · cases h

theorem pointerStart : ∀ c ∈ "#/definitions/".toList, c ≠ '{' ∧ Text.needsEscape c = false := by
  rw [show "#/definitions/".toList = ['#', '/', 'd', 'e', 'f', 'i', 'n', 'i', 't', 'i', 'o', 'n', 's', '/'] from rfl]
  simp [Text.needsEscape]

variable {name : Nat → String}

/-- a text without tokens stays as it is -/
theorem renamed_free {s : String} (h : Placeholder.occursIn s = false) : renamed name s = s := by
  have htokens := Registry.tokensOf_eq_nil h
  unfold renamed
  rw [Placeholder.parse?_free htokens]
  simp only
  split
  · rename_i rest hrest
    rw [dropPrefix?_eq_some hrest, Registry.tokensOf_of_ne fun c hc => (pointerStart c hc).1] at htokens
    rw [Placeholder.parse?_free (by simpa using htokens)]
  · rfl

theorem renamed_symbol {t : Nat} (ht : t < 2 ^ 32) : renamed name (Placeholder.text ⟨t, symbolAttr⟩) = name t := by
  rw [renamed, Placeholder.parse?_text (.inr rfl) ht]

theorem renamed_pointer {t : Nat} (ht : t < 2 ^ 32) : renamed name (pointer t) = "#/definitions/" ++ name t := by
  have hnone : Placeholder.parse? (pointer t) = none := by
    unfold Placeholder.parse?
    rw [pointer, String.toList_append, show "#/definitions/".toList = '#' :: "/definitions/".toList from rfl,
      List.cons_append, Placeholder.scan?_of_ne (by decide)]
  rw [renamed, hnone]
  simp only
  rw [pointer, String.toList_append, Lowering.dropPrefix?_append]
  simp only [String.ofList_toList, Placeholder.parse?_text (.inl rfl) ht]

/-! ## Texts of documents -/

/-- a text of a document: without tokens, or the name of a definition, or a pointer to one -/
def Own (O : List Nat) (s : String) : Prop :=
  Placeholder.occursIn s = false ∨ ∃ t ∈ O, s = Placeholder.text ⟨t, symbolAttr⟩ ∨ s = pointer t

/-- what a registry makes of the definitions of a document: the symbol and the reference of each resolve to one name, and
no two definitions get the same name -/
structure Named (r : Registry) (O : List Nat) (name : Nat → String) : Prop where
  names : ∀ t ∈ O, IsName (name t)
  apart : ∀ a ∈ O, ∀ b ∈ O, name a = name b → a = b
  resolved : ∀ t ∈ O, ∀ attr, IsAttr attr → ∃ seen, (r.resolve (Placeholder.text ⟨t, attr⟩)).2 = .ok (name t, seen)

theorem keeps_renamed : Schema.Keeps (renamed name) := by
  refine ⟨renamed_free (by decide), fun w => renamed_free ?_, fun s hs => renamed_free ?_⟩
  · cases w <;> decide
  · revert s
    decide

theorem words_free : ∀ s ∈ Schema.words, Placeholder.occursIn s = false := by
  decide

theorem IsName.plain {s : String} (h : IsName s) : ∀ c ∈ s.toList, c ≠ '{' ∧ c ≠ '"' ∧ c ≠ '\\' ∧ c ≠ '\x00' := by
  intro c hc
  obtain ⟨h1, h2, h3, h4, -⟩ := safeChar_iff.1 (h.safe c hc)
  exact ⟨h1, h2, h3, h4⟩

variable {r : Registry} {O : List Nat}

theorem Named.fill (h : Named r O name) {t : Nat} (ht : t ∈ O) {attr : String} (ha : IsAttr attr) :
    r.finalize.fill^[Registry.maxPasses] (Placeholder.tokenChars (Nat.toDigits 10 t) attr.toList) = (name t).toList := by
  obtain ⟨seen, hres⟩ := h.resolved t ht attr ha
  rw [← Placeholder.toList_text]
  exact Registry.resolve_ok hres

/-- a number that tokens cannot hold is not resolved -/
theorem fill_large (r : Registry) {t : Nat} (hlarge : ¬ t < 2 ^ 32) {attr : String} (ha : IsAttr attr) :
    r.fill (Placeholder.tokenChars (Nat.toDigits 10 t) attr.toList) = Placeholder.tokenChars (Nat.toDigits 10 t) attr.toList := by
  have hvalue : r.tokenValue (Nat.toDigits 10 t) attr.toList = Placeholder.tokenChars (Nat.toDigits 10 t) attr.toList := by
    rw [Registry.tokenValue, Placeholder.idOf?_toDigits, if_neg hlarge]
    simp [Registry.valueOf?]
  have := Registry.fill_token r (IsAttr.token ha t) []
  rwa [hvalue, Registry.fill_nil, List.append_nil] at this

theorem Named.range (h : Named r O name) : ∀ t ∈ O, t < 2 ^ 32 := by
  intro t ht
  by_contra hlarge
  have hname := h.fill ht (.inr rfl)
  rw [Function.iterate_fixed (fill_large _ hlarge (.inr rfl))] at hname
  refine (IsName.plain (h.names t ht) '{' ?_).1 rfl
  rw [← hname]
  exact List.mem_cons_self

/-- every text of a document resolves to its renaming -/
theorem Named.settles (h : Named r O name) {s : String} (hs : Own O s) : r.finalize.Settles s (renamed name s) := by
  have htoken (before : String) (hbefore : ∀ c ∈ before.toList, c ≠ '{' ∧ Text.needsEscape c = false) {t : Nat} (ht : t ∈ O)
      {attr : String} (ha : IsAttr attr) :
      r.finalize.Settles (before ++ Placeholder.text ⟨t, attr⟩) (before ++ name t) := by
    have := Registry.settles_token r.finalize (IsAttr.token ha t) hbefore (h.fill ht ha)
      fun c hc => (IsName.plain (h.names t ht) c hc).2
    rwa [← Placeholder.toList_text, String.ofList_toList] at this
  rcases hs with hs | ⟨t, ht, rfl | rfl⟩
  · rw [renamed_free hs]
    exact Registry.settles_free _ hs
  · rw [renamed_symbol (h.range t ht)]
    simpa using htoken "" (by simp) ht (.inr rfl)
  · rw [renamed_pointer (h.range t ht)]
    exact htoken _ pointerStart ht (.inl rfl)

/-- the strings of a document are its texts and words of the format -/
theorem own_strings {T : Schema} (h : ∀ s ∈ T.texts, Own O s) : ∀ s ∈ T.json.strings, Own O s := fun s hs =>
  (Schema.spoken_json T s hs).elim (h s) fun hw => .inl (words_free s hw)

/-- the schema that is read from the text of a schema's document with its strings changed -/
theorem decode_written {f : String → String} {T S : Schema} (hT : T.isAbsent = false) (hf : Schema.Keeps f)
    (hp : ∀ k ∈ T.keywords, Schema.Plain f k) {text : String}
    (hj : ∀ j, Json.parse text = .ok j → j = T.json.mapStrings f) (h : Schema.decode text = .ok S) : S = T.reread f := by
  unfold Schema.decode at h
  cases hparse : Json.parse text with
  | error e => rw [hparse] at h; cases h
  | ok j =>
    rw [hparse, hj j hparse] at h
    obtain ⟨-, ⟨⟩, h⟩ := except_bind_ok h
    obtain ⟨S', hS', h⟩ := except_bind_ok h
    obtain rfl := Schema.ofJson_json hf hp hS'
    rw [Schema.isAbsent_reread, hT] at h
    exact (Except.ok.inj h).symm

/-- **Templates read back.** -/
theorem decode_template {T S : Schema} (hT : T.isAbsent = false)
    (hp : ∀ k ∈ T.keywords, ∀ e ∈ k.extra, Schema.isKnown e.1 = false) {text : String} (ht : T.text = .ok text)
    (h : Schema.decode text = .ok S) : S = T.reread id := by
  obtain ⟨rfl, hnum⟩ := Schema.text_writes ht
  refine decode_written hT ⟨rfl, fun _ => rfl, fun _ _ => rfl⟩ (fun k hk e he => ⟨hp k hk e he, rfl⟩) (fun j hj => ?_) h
  refine Json.parse_written (w := Json.plainly) hnum (fun s _ => Json.spells_escaped s) ?_
  rwa [← Json.text_eq, String.ofList_toList]

/-- **Resolved documents read back.** The schema read from a resolved text is the rendered one, with its strings
renamed. -/
theorem decode_resolved (hr : Named r O name) {T S : Schema} (hT : T.isAbsent = false) (htexts : ∀ s ∈ T.texts, Own O s)
    (hp : ∀ k ∈ T.keywords, ∀ e ∈ k.extra, Schema.isKnown e.1 = false ∧ Placeholder.occursIn e.1 = false)
    {text out : String} {seen : Dict String} (ht : T.text = .ok text) (hres : (r.resolve text).2 = .ok (out, seen))
    (h : Schema.decode out = .ok S) : S = T.reread (renamed name) := by
  obtain ⟨rfl, hnum⟩ := Schema.text_writes ht
  refine decode_written hT keeps_renamed (fun k hk e he => ⟨(hp k hk e he).1, renamed_free (hp k hk e he).2⟩)
    (fun j hj => ?_) h
  exact Registry.parse_resolved hnum (fun s hs => hr.settles (own_strings htexts s hs)) hres hj

/-! ## Numbers of definitions -/

theorem member_mem_fields {p : Schema.Parts Json} {w : Schema.Keyword} {j : Json} (h : p.member w = some j) :
    (w.name, j) ∈ p.fields := by
  have hmem : (w.name, j) ∈ p.members := Schema.mem_members.2 ⟨w, j, h, rfl⟩
  unfold Schema.Parts.fields
  split
  · exact hmem
  · refine (Dict.get?_eq_some (Dict.sorted_ofList _).nodup).1 ?_
    rw [Dict.get?_ofList, List.reverse_append, Dict.get?_append, Dict.get?_reverse (Schema.nodup_members p),
      (Dict.get?_eq_some (Schema.nodup_members p)).2 hmem]
    rfl

/-- the names of definitions are strings of the document -/
theorem definition_mem_strings {b : Body} {e : String × Schema} (he : e ∈ b.definitions) : e.1 ∈ (ofBody b).json.strings := by
  have hmember : (b.parts Schema.json).member .definitions =
      some (.object (b.definitions.map fun e => (e.1, Schema.json e.2))) := by
    cases hd : b.definitions with
    | nil => simp [hd] at he
    | cons d ds => simp [Schema.Parts.member, Schema.Body.parts, Schema.mapJson, hd]
  rw [Schema.json_ofBody, Json.strings, Json.mem_stringsIn]
  refine ⟨_, member_mem_fields hmember, .inr ?_⟩
  rw [Json.strings, Json.mem_stringsIn]
  exact ⟨_, List.mem_map_of_mem he, .inl rfl⟩

/-- a token that stands for no node is left over -/
theorem range_of_resolved {r : Registry} {j : Json} (hj : ∀ t ∈ j.numerals, Json.Spelled t) {out : String × Dict String}
    (h : (r.resolve j.text).2 = .ok out) {t : Nat} (ht : Placeholder.text ⟨t, symbolAttr⟩ ∈ j.strings) : t < 2 ^ 32 := by
  by_contra hlarge
  have hfree := (r.resolve_ok_iff hj).1 ⟨out, h⟩ _ ht
  have htok : Placeholder.IsToken (Nat.toDigits 10 t) symbolAttr.toList := IsAttr.token (.inr rfl) t
  rw [Registry.settled, Json.plainly, Placeholder.toList_text, Text.escaped_self (Registry.needsEscape_token htok),
    Function.iterate_fixed (fill_large _ hlarge (.inr rfl)), ← List.append_nil (Placeholder.tokenChars _ _),
    Registry.tokensOf_token htok] at hfree
  cases hfree

/-! ## Graphs without tokens -/

/-- no text of the graph holds a token -/
def Tokenless (g : Graph) : Prop := ∀ id n, g.get? id = some n → ∀ t ∈ n.texts, Placeholder.occursIn t = false

/-- no extension takes the name of a keyword -/
def PlainExtensions (g : Graph) : Prop :=
  ∀ id n, g.get? id = some n → ∀ e ∈ n.info.extensions ++ n.info.openapi, Schema.isKnown e.1 = false

/-- the texts that refer to a schema of a document with the definitions `O` -/
def IsLink (O : List Nat) (s : String) : Prop := s = "" ∨ s = "#" ∨ ∃ t ∈ O, s = pointer t

/-- texts of a document with the definitions `O` -/
def diction (O : List Nat) : Diction where
  link := IsLink O
  text s := Placeholder.occursIn s = false
  extra s := Schema.isKnown s = false ∧ Placeholder.occursIn s = false

theorem IsLink.own {O : List Nat} {s : String} (h : IsLink O s) : Own O s := by
  rcases h with rfl | rfl | ⟨t, ht, rfl⟩
  · exact .inl (by decide)
  · exact .inl (by decide)
  · exact .inr ⟨t, ht, .inr rfl⟩

theorem vocabulary_free : ∀ t ∈ vocabulary, Placeholder.occursIn t = false := by
  decide

theorem speaks_diction {g : Graph} (htok : Tokenless g) (hext : PlainExtensions g) (O : List Nat) :
    Speaks g (diction O) where
  words := ⟨vocabulary_free, .inl rfl⟩
  root := .inr (.inl rfl)
  texts id n hn t ht := htok id n hn t (n.ownTexts_subset ht)
  tags _ id n hn v hv := htok id n hn _ (List.mem_append_right _ (List.mem_flatMap.2 ⟨v, hv, List.mem_cons_self⟩))
  own := ⟨⟨rfl, by decide⟩, ⟨rfl, by decide⟩⟩
  extensions id n hn e he := ⟨hext id n hn e he, htok id n hn e.1 (by
    simp only [Node.texts, Meta.texts, List.mem_append, List.mem_flatMap]
    exact .inl (.inl (.inl (.inl (.inr ⟨e, List.mem_append.1 he, List.mem_cons_self⟩)))))⟩

theorem mem_names {b : Body} {s : String} : s ∈ b.names ↔
    s ∈ (b.properties.getD []).map (·.1) ∨ s ∈ b.definitions.map (·.1) ∨ s ∈ b.defs.map (·.1) := by
  cases hp : b.properties <;> simp [Schema.Body.names, Schema.Parts.names, Schema.Body.parts, hp]

section

variable {cx : Context} {hoist : Option Nat} {root : Nat} {head : Schema} {st : State}

/-- the texts of a document -/
theorem Outline.texts_spoken (hnum : cx.graph.Numbered) (hc : NoCustom cx.graph)
    (hspeaks : Speaks cx.graph (diction st.order)) (h : Outline cx hoist root head st) (o : Options) :
    ∀ s ∈ (assemble o st head).root.texts, Own st.order s := by
  have hlaid := h.laid hnum hc hspeaks (fun t ht => .inr (.inr ⟨t, ht, rfl⟩)) o
  refine hlaid.texts fun b hb s hs => ?_
  rcases List.mem_append.1 hs with hs | hs
  · rcases Schema.links_or_plain hs with hs | hs
    · exact (hb.tidy.links s hs).own
    · exact .inl (hb.tidy.texts s hs)
  · rcases mem_names.1 hs with hs | hs | hs
    · obtain ⟨e, he, rfl⟩ := List.mem_map.1 hs
      exact .inl (hb.tidy.keys e he)
    · obtain ⟨e, he, rfl⟩ := List.mem_map.1 hs
      rcases hb.definitions with hd | hd
      · rw [hd] at he
        cases he
      · rw [hd] at he
        obtain ⟨t, ht, -, hname, -⟩ := h.mem_entries he
        exact .inr ⟨t, ht, .inl hname⟩
    · rw [show b.defs = [] from hb.tidy.defs] at hs
      cases hs

theorem Outline.texts_own (hnum : cx.graph.Numbered) (hc : NoCustom cx.graph) (htok : Tokenless cx.graph)
    (hext : PlainExtensions cx.graph) (h : Outline cx hoist root head st) (o : Options) :
    ∀ s ∈ (assemble o st head).root.texts, Own st.order s :=
  h.texts_spoken hnum hc (speaks_diction htok hext st.order) o

/-- the keywords of no fixed meaning in a document -/
theorem Outline.extra_spoken (hnum : cx.graph.Numbered) (hc : NoCustom cx.graph)
    (hspeaks : Speaks cx.graph (diction st.order)) (h : Outline cx hoist root head st) (o : Options) :
    ∀ k ∈ (assemble o st head).root.keywords, ∀ e ∈ k.extra,
      Schema.isKnown e.1 = false ∧ Placeholder.occursIn e.1 = false :=
  (h.laid hnum hc hspeaks (fun t ht => .inr (.inr ⟨t, ht, rfl⟩)) o).keywords fun _ hb => hb.tidy.extra

theorem Outline.extra_plain (hnum : cx.graph.Numbered) (hc : NoCustom cx.graph) (htok : Tokenless cx.graph)
    (hext : PlainExtensions cx.graph) (h : Outline cx hoist root head st) (o : Options) :
    ∀ k ∈ (assemble o st head).root.keywords, ∀ e ∈ k.extra,
      Schema.isKnown e.1 = false ∧ Placeholder.occursIn e.1 = false :=
  h.extra_spoken hnum hc (speaks_diction htok hext st.order) o

theorem perm_ofList {α : Type} {l : List (String × α)} (h : (l.map (·.1)).Nodup) : (Dict.ofList l).Perm l := by
  have hsorted := (Dict.sorted_ofList l).nodup
  refine (List.perm_ext_iff_of_nodup (.of_map _ hsorted) (.of_map _ h)).2 fun e => ?_
  rw [← Dict.get?_eq_some hsorted, Dict.get?_ofList, Dict.get?_reverse h, Dict.get?_eq_some h]

theorem entries_perm {st : State} (hn : st.order.Nodup) :
    (entries st).Perm (st.order.map fun t => (Placeholder.text ⟨t, symbolAttr⟩, bodyOf st t)) := by
  refine perm_ofList ?_
  rw [List.map_map]
  exact hn.map fun a b hab => token_injective hab

/-- names stay apart -/
theorem Outline.keyed (hnum : cx.graph.Numbered) (hc : NoCustom cx.graph) (htok : Tokenless cx.graph)
    (hext : PlainExtensions cx.graph) (h : Outline cx hoist root head st) (hr : Named r st.order name) (o : Options) :
    (assemble o st head).root.Keyed (renamed name) := by
  have hlaid := h.laid hnum hc (speaks_diction htok hext st.order) (fun t ht => .inr (.inr ⟨t, ht, rfl⟩)) o
  refine hlaid.keyed fun b hb => ⟨?_, ?_, ?_⟩
  · have hkeys : ((b.parts id).properties.getD []).map (fun e => renamed name e.1) = (b.properties.getD []).map (·.1) := by
      have hparts : (b.parts id).properties.getD [] = b.properties.getD [] := by
        cases hp : b.properties <;> simp [Schema.Body.parts, hp]
      rw [hparts]
      exact List.map_congr_left fun e he => renamed_free (hb.tidy.keys e he)
    rw [hkeys]
    exact hb.tidy.sorted.nodup
  · have hdefs : (b.parts id).definitions = b.definitions := by simp [Schema.Body.parts]
    rw [hdefs]
    rcases hb.definitions with hd | hd
    · simp [hd]
    · rw [hd, ((entries_perm h.nodup).map _).nodup_iff, List.map_map]
      refine List.Nodup.map_on (fun a ha b hb hab => ?_) h.nodup
      simp only [Function.comp, renamed_symbol (hr.range a ha), renamed_symbol (hr.range b hb)] at hab
      exact hr.apart a ha b hb hab
  · simp [Schema.Body.parts, show b.defs = [] from hb.tidy.defs]

end

/-! ## Loaded graphs -/

theorem template_ok {doc : Document} {t : String} (h : doc.template = .ok t) : doc.root.text = .ok t := by
  unfold template at h
  split at h
  · rename_i t' ht
    rw [ht, Except.ok.inj h]
  · cases h

/-- what rendering does on a graph whose root is loaded -/
theorem renderText_steps {g g' : Graph} (hnum : g.Numbered) {root : Nat} (hloaded : g.isLoaded root = true) {o : Options}
    {text : String} {doc : Document} (h : renderText (some root) o g = (.ok (text, doc), g')) :
    g' = g ∧ ∃ r raw seen, ofNode g root { target := target } o = (.ok doc, r) ∧ doc.template = .ok raw ∧
      (r.resolve raw).2 = .ok (text, seen) := by
  obtain ⟨⟨⟩, u, hload, h⟩ := Steps.bind_ok h
  rw [GraphM.load_of_loaded hnum hloaded] at hload
  cases hload
  obtain ⟨_, u, hgraph, h⟩ := Steps.bind_ok h
  cases hgraph
  rcases hof : ofNode g root { target := target } o with ⟨res, r⟩
  simp only [Option.getD_some, hof] at h
  obtain ⟨d, u, hdoc, h⟩ := Steps.bind_ok h
  obtain ⟨raw, v, hraw, h⟩ := Steps.bind_ok h
  obtain ⟨⟨out, seen⟩, w, hres, h⟩ := Steps.bind_ok h
  cases h
  obtain ⟨rfl, rfl⟩ := Prod.mk.inj hdoc
  obtain ⟨htemplate, rfl⟩ := Prod.mk.inj hraw
  obtain ⟨hout, rfl⟩ := Prod.mk.inj hres
  exact ⟨rfl, r, raw, seen, rfl, htemplate, hout⟩

/-- the definitions of a document whose text resolves are numbered in the range of tokens -/
theorem Outline.range {cx : Context} (hnum : cx.graph.Numbered) (hc : NoCustom cx.graph) {hoist : Option Nat} {root : Nat}
    {head : Schema} {st : State} (h : Outline cx hoist root head st) {o : Options} {raw : String}
    (hraw : (assemble o st head).root.text = .ok raw) {r : Registry} {out : String × Dict String}
    (hres : (r.resolve raw).2 = .ok out) : ∀ t ∈ st.order, t < 2 ^ 32 := by
  intro t ht
  obtain ⟨rfl, hnumerals⟩ := Schema.text_writes hraw
  obtain ⟨B, hB, hdefs, -⟩ := h.root_body hnum hc o
  refine range_of_resolved hnumerals hres ?_
  have hmem : Placeholder.text ⟨t, symbolAttr⟩ ∈ (entries st).map (·.1) := by
    rw [((entries_perm h.nodup).map _).mem_iff, List.map_map]
    exact List.mem_map.2 ⟨t, ht, rfl⟩
  obtain ⟨e, he, hname⟩ := List.mem_map.1 hmem
  rw [hB, ← hname]
  exact definition_mem_strings (hdefs ▸ he)

/-- declarations for one file give names -/
theorem named_inline {file : String} (h : r.Inline file O) (hrange : ∀ t ∈ O, t < 2 ^ 32) : ∃ name, Named r O name := by
  obtain ⟨name, hnames, hapart, hlookup⟩ := h.named
  refine ⟨name, hnames, hapart, fun t ht attr ha => ?_⟩
  have hplain : ∀ c ∈ (name t).toList, c ≠ '{' := fun c hc => (IsName.plain (hnames t ht) c hc).1
  have hvalue : r.finalize.tokenValue (Nat.toDigits 10 t) attr.toList = (name t).toList := by
    rw [Registry.tokenValue, Placeholder.idOf?_toDigits, if_pos (hrange t ht), Option.map_some, String.ofList_toList,
      Registry.valueOf?, Option.bind_some, hlookup t ht attr ha, Option.getD_some]
  have hfree : Registry.tokensOf (name t).toList = [] := by
    have := Registry.tokensOf_of_ne hplain []
    rwa [List.append_nil] at this
  refine Registry.resolve_of_fill ?_ hfree
  rw [Placeholder.toList_text]
  exact Registry.fill_value _ (IsAttr.token ha t) hvalue hplain

/-- **Named documents.** What a document comes from whose text resolves in a registry that has its definitions. -/
theorem ofNode_named {g : Graph} (hnum : g.Numbered) (hkeys : DistinctKeys g) (hc : NoCustom g) {root : Nat}
    {r r' : Registry} {o : Options} {doc : Document} (h : ofNode g root r o = (.ok doc, r')) {final : Registry} {file : String}
    (hfinal : final.Inline file doc.definitions) {raw : String} (hraw : doc.template = .ok raw) {out : String × Dict String}
    (hres : (final.resolve raw).2 = .ok out) :
    ∃ head st name, Outline (contextOf g root o) (hoistOf g root) root head st ∧ doc = assemble o st head ∧
      Named final st.order name := by
  obtain ⟨head, st, houtline, rfl, rfl, -⟩ := ofNode_outline hnum hkeys h
  have hrange := @Outline.range (contextOf g root o) hnum hc _ _ _ _ houtline _ _ (template_ok hraw) _ _ hres
  obtain ⟨name, hnamed⟩ := named_inline hfinal hrange
  exact ⟨head, st, name, houtline, rfl, hnamed⟩

/-- rendering declares the definitions of the document -/
theorem ofNode_inline {g : Graph} (hnum : g.Numbered) (hkeys : DistinctKeys g) {root : Nat} {r r' : Registry} {o : Options}
    {doc : Document} (h : ofNode g root r o = (.ok doc, r')) (hr : r.Inline o.path []) : r'.Inline o.path doc.definitions := by
  obtain ⟨head, st, -, rfl, -, hinline⟩ := ofNode_outline hnum hkeys h
  exact hinline hr

theorem inline_start (file : String) : Registry.Inline { target := target } file [] :=
  ⟨by simp, .nil, by simp, by simp, rfl, rfl, rfl⟩

/-- **Rendered texts.** What a text rendered from a loaded graph comes from, and what is read from it. -/
theorem renderText_ok {g g' : Graph} (hnum : g.Numbered) (hkeys : DistinctKeys g) (hc : NoCustom g) {root : Nat}
    (hloaded : g.isLoaded root = true) {o : Options} {text : String} {doc : Document}
    (h : renderText (some root) o g = (.ok (text, doc), g')) :
    ∃ head st name r, Outline (contextOf g root o) (hoistOf g root) root head st ∧ doc = assemble o st head ∧
      Named r st.order name ∧ g' = g ∧
      ∃ raw seen, doc.root.text = .ok raw ∧ (r.resolve raw).2 = .ok (text, seen) := by
  obtain ⟨rfl, r, raw, seen, hof, hraw, hres⟩ := renderText_steps hnum hloaded h
  obtain ⟨head, st, name, houtline, hdoc, hnamed⟩ :=
    ofNode_named hnum hkeys hc hof (ofNode_inline hnum hkeys hof (inline_start _)) hraw hres
  exact ⟨head, st, name, r, houtline, hdoc, hnamed, rfl, raw, seen, template_ok hraw, hres⟩

/-! ## Declarations in order

For a given graph all of this can be evaluated, on the characters of the texts. Most characters stand for themselves and most
strings hold no token: these are left as they are. -/

/-- the characters of a string in a text -/
def plainChars (s : String) : List Char :=
  (Text.charsOf s).flatMap fun c => if Text.needsEscape c then (Text.jsonChar c).toList else [c]

theorem plainChars_eq (s : String) : plainChars s = Json.plainly s := by
  rw [plainChars, Text.charsOf_eq]
  refine List.flatMap_congr fun c _ => ?_
  cases hc : Text.needsEscape c with
  | false => simp [Text.jsonChar_self hc]
  | true => simp

/-- passes over characters, as long as there are tokens -/
def settle (r : Registry) : Nat → List Char → List Char
  | 0, cs => cs
  | n + 1, cs => if Registry.tokensOf cs = [] then cs else settle r n (r.fill cs)

theorem settle_eq (r : Registry) (n : Nat) (cs : List Char) : settle r n cs = r.fill^[n] cs := by
  induction n generalizing cs with
  | zero => rfl
  | succ n ih =>
    rw [settle]
    split
    · rename_i hfree
      exact (Function.iterate_fixed (r.fill_of_free hfree) (n + 1)).symm
    · rw [ih, Function.iterate_succ_apply]

/-- the characters of a string after a number of passes -/
def settledChars (r : Registry) (n : Nat) (s : String) : List Char := settle r n (plainChars s)

theorem settledChars_eq (r : Registry) (n : Nat) (s : String) : settledChars r n s = r.settled n s := by
  rw [settledChars, settle_eq, plainChars_eq, Registry.settled]

/-- the schema read from the template of a document -/
def readTemplate (start : Registry) (g : Graph) (root : Nat) (o : Options) : Option Schema :=
  (ofNode g root start o).1.toOption.bind fun doc =>
    if doc.template.toOption.isSome then Schema.readChars (Json.written plainChars doc.root.json) else none

/-- the schema read from the text of a document whose definitions are declared in order -/
def readListed (start : Registry) (g : Graph) (root : Nat) (o : Options) : Option Schema :=
  match ofNode g root start o with
  | (.ok doc, r) =>
    if doc.template.toOption.isSome ∧ ∀ s ∈ doc.root.json.strings, Registry.tokensOf (r.listed.settled Registry.maxPasses s) = [] then
      Schema.readChars (Json.written (r.listed.settled Registry.maxPasses) doc.root.json)
    else none
  | (.error _, _) => none

/-- the same, string for string -/
def readSettled (start : Registry) (g : Graph) (root : Nat) (o : Options) : Option Schema :=
  match ofNode g root start o with
  | (.ok doc, r) =>
    if doc.template.toOption.isSome ∧ ∀ s ∈ doc.root.json.strings, Registry.tokensOf (settledChars r.listed Registry.maxPasses s) = [] then
      Schema.readChars (Json.written (settledChars r.listed Registry.maxPasses) doc.root.json)
    else none
  | (.error _, _) => none

theorem readSettled_eq (start : Registry) (g : Graph) (root : Nat) (o : Options) :
    readSettled start g root o = readListed start g root o := by
  have hsettled (r : Registry) : settledChars r Registry.maxPasses = r.settled Registry.maxPasses :=
    funext (settledChars_eq r Registry.maxPasses)
  unfold readSettled readListed
  simp only [hsettled]

theorem template_some {doc : Document} (h : doc.template.toOption.isSome = true) : ∃ raw, doc.template = .ok raw := by
  cases ht : doc.template with
  | error e => simp [ht, Except.toOption] at h
  | ok raw => exact ⟨raw, rfl⟩

theorem readTemplate_some {start : Registry} {g : Graph} {root : Nat} {o : Options} {doc : Document} {r : Registry} {S : Schema}
    (hof : ofNode g root start o = (.ok doc, r)) {raw : String} (hraw : doc.template = .ok raw)
    (h : readTemplate start g root o = some S) : Schema.decode raw = .ok S := by
  obtain ⟨rfl, -⟩ := Schema.text_writes (template_ok hraw)
  refine Schema.decode_chars ?_
  have hdoc : (ofNode g root start o).1.toOption = some doc := by rw [hof]; rfl
  rw [readTemplate, hdoc, Option.bind_some] at h
  split at h
  · rwa [funext plainChars_eq, ← Json.text_eq] at h
  · cases h

theorem readListed_some {start : Registry} {g : Graph} {root : Nat} {o : Options} {S : Schema}
    (hr : (ofNode g root start o).2.IsOrdered) (h : readListed start g root o = some S) :
    ∃ doc r raw text seen, ofNode g root start o = (.ok doc, r) ∧ doc.template = .ok raw ∧
      (r.resolve raw).2 = .ok (text, seen) ∧ Schema.decode text = .ok S := by
  unfold readListed at h
  rcases hof : ofNode g root start o with ⟨_ | doc, r⟩ <;> rw [hof] at h hr
  · cases h
  have hfinal : r.listed = r.finalize := (Registry.finalize_listed hr).symm
  simp only [hfinal] at h
  split at h
  · rename_i hall
    obtain ⟨raw, hraw⟩ := template_some hall.1
    obtain ⟨rfl, hnum⟩ := Schema.text_writes (template_ok hraw)
    obtain ⟨⟨text, seen⟩, hres⟩ := (r.resolve_ok_iff hnum).2 hall.2
    refine ⟨doc, r, _, text, seen, rfl, hraw, hres, Schema.decode_chars ?_⟩
    rw [Registry.resolve_written hnum hres]
    exact h
  · cases h

/-- loaded graphs whose documents are rendered, read back and pass a check -/
theorem renderText_read {g : Graph} (hnum : g.Numbered) {root : Nat} (hloaded : g.isLoaded root = true) {o : Options}
    (hr : (ofNode g root { target := target } o).2.IsOrdered) {P : Schema → Bool} (h : (readSettled { target := target } g root o).any P) :
    ∃ text doc S, renderText (some root) o g = (.ok (text, doc), g) ∧ Schema.decode text = .ok S ∧ P S = true := by
  rw [readSettled_eq] at h
  obtain ⟨S, hS, hP⟩ := (Option.any_eq_true _ _).1 h
  obtain ⟨doc, r, raw, text, seen, hof, hraw, hres, hdecode⟩ := readListed_some hr hS
  refine ⟨text, doc, S, ?_, hdecode, hP⟩
  unfold renderText
  rw [Steps.bind_of_ok (GraphM.load_of_loaded hnum hloaded), Steps.bind_of_ok (by rfl : GraphM.graph g = _)]
  simp only [Option.getD_some, hof]
  rw [Steps.bind_of_ok (by rfl), hraw, Steps.bind_of_ok (by rfl), hres]
  rfl

end Document

end Schemata
