import Mathlib.Tactic
import Schemata.Proofs.Dict
import Schemata.Proofs.Program.Reached

/-!
What references lead to.

Definitions stand under two keywords (`Table`), and lowering puts both into one index by the canonical form of their
names. So a pointer to a definition leads to the first definition whose name has the canonical form of the name in the
pointer, whichever keyword it stands under (`linked`); and a definition with the empty name cannot be told from the root.

Main result: `reference_checks`. Where a reference is part of a program, values are checked against the shape of what it is
linked to: the root for `#`, and for a pointer the very schema under its keyword and name, unless another definition
stands in the way (`Clear`). In `reference_astray` one does.
-/

namespace Schemata.Lowering

open Schema (Body ofBody)

/-! ## Pointers -/

/-- the keywords that definitions stand under -/
inductive Table where
  | definitions | defs

/-- how a pointer to a definition under the keyword begins -/
def Table.pointer : Table → String
  | definitions => definitionsPrefix
  | defs => defsPrefix

def Table.entries (b : Body) : Table → List (String × Schema)
  | definitions => b.definitions
  | defs => b.defs

/-- the schema under a keyword and a name -/
def stored (b : Body) (k : Table) (name : String) : Option Schema := Dict.get? (k.entries b) name

theorem startsWith_append {s pat : String} (h : Text.startsWith s pat = true) : ∃ rest, s = pat ++ rest := by
  rw [Text.startsWith, List.isPrefixOf_iff_prefix] at h
  obtain ⟨rest, hrest⟩ := h
  exact ⟨String.ofList rest, String.toList_injective (by simp [hrest])⟩

theorem trimPrefix_append (pat rest : String) : Text.trimPrefix (pat ++ rest) pat = rest := by
  rw [Text.trimPrefix, String.toList_append, dropPrefix?_append]
  simp

/-- the token of a pointer is all that follows -/
theorem localName?_table (k : Table) (token : String) : localName? (k.pointer ++ token) = some token := by
  cases k with
  | definitions => exact localName?_pointer token
  | defs =>
    have hother : Text.startsWith (defsPrefix ++ token) definitionsPrefix = false := by
      rw [Text.startsWith, String.toList_append]
      rfl
    have hstart : Text.startsWith (defsPrefix ++ token) defsPrefix = true := by
      rw [Text.startsWith, String.toList_append, List.isPrefixOf_iff_prefix]
      exact List.prefix_append _ _
    rw [Table.pointer, localName?, if_neg (by simp [hother]), if_pos hstart, trimPrefix_append]

/-- a name is only found behind a pointer -/
theorem localName?_some {ref token : String} (h : localName? ref = some token) : ∃ k : Table, ref = k.pointer ++ token := by
  have hkey (k : Table) (hstart : Text.startsWith ref k.pointer = true) : ∃ k : Table, ref = k.pointer ++ token := by
    obtain ⟨rest, rfl⟩ := startsWith_append hstart
    rw [localName?_table] at h
    exact ⟨k, by rw [Option.some.inj h]⟩
  rw [localName?] at h
  split at h
  · rename_i hstart
    exact hkey .definitions hstart
  · split at h
    · rename_i hstart
      exact hkey .defs hstart
    · cases h

/-! ## The index -/

/-- the name of the first definition whose name has the canonical form of the name in a pointer -/
def linked (b : Body) (token : String) : Option String :=
  ((b.definitions ++ b.defs).find? fun e => canonical e.1 == canonical (unescapeToken token)).map (·.1)

theorem find?_indexOf (acc : List (String × String)) (ds : List (String × Schema)) (key : String) :
    (indexOf acc ds).find? (·.1 == key) =
      (acc.find? (·.1 == key)).or ((ds.find? fun e => canonical e.1 == key).map fun e => (canonical e.1, e.1)) := by
  induction ds generalizing acc with
  | nil => simp [indexOf]
  | cons d ds ih =>
    rw [indexOf, List.find?_cons]
    split
    · rename_i hany
      rw [ih]
      -- a name that is taken is never reached again
      by_cases hkey : (canonical d.1 == key) = true
      · obtain rfl : canonical d.1 = key := by simpa using hkey
        have hsome : (acc.find? (·.1 == canonical d.1)).isSome = true := by
          rw [List.find?_isSome]
          simpa using hany
        obtain ⟨e, he⟩ := Option.isSome_iff_exists.1 hsome
        rw [he, Option.some_or, Option.some_or]
      · rw [Bool.not_eq_true] at hkey
        rw [hkey]
    · rw [ih, List.find?_append, Option.or_assoc]
      by_cases hkey : (canonical d.1 == key) = true
      · simp [hkey]
      · rw [Bool.not_eq_true] at hkey
        simp [hkey]

variable {S : Schema} {o : CompileOptions} {p : Program}

theorem find?_contextOf (token : String) : (contextOf S o).find? token = linked S.body token := by
  rw [Context.find?, linked]
  simp only [contextOf]
  rw [find?_indexOf, find?_indexOf, List.find?_append]
  cases S.body.definitions.find? fun e => canonical e.1 == canonical (unescapeToken token) <;>
    cases S.body.defs.find? fun e => canonical e.1 == canonical (unescapeToken token) <;> rfl

/-- a name that is found is listed -/
theorem find?_mem {L : Context} {token name : String} (h : L.find? token = some name) : ∃ e ∈ L.index, e.2 = name := by
  obtain ⟨e, he, rfl⟩ := Option.map_eq_some_iff.1 h
  exact ⟨e, List.mem_of_find?_eq_some he, rfl⟩

/-- the schema that a name stands for; the empty name stands for the root -/
def Context.meant (L : Context) (name : String) : Schema := if name = "" then ofBody L.document else L.definition name

/-- the shape behind a name is that of the schema it stands for -/
theorem target_lowered (h : Program.lower S o = .ok p) {name : String}
    (hname : name = "" ∨ ∃ e ∈ (contextOf S o).index, e.2 = name) :
    ∃ t, p.target? name = some t ∧ lower (contextOf S o) ((contextOf S o).meant name) = .ok t := by
  obtain ⟨hroot, hdefinitions⟩ := program_top h
  by_cases hempty : name = ""
  · subst hempty
    exact ⟨p.root, rfl, hroot⟩
  · obtain ⟨e, he, rfl⟩ := hname.resolve_left hempty
    obtain ⟨x, hx, hshape, hmem⟩ := hdefinitions e he
    refine ⟨x, ?_, ?_⟩
    · rw [Program.target?, if_neg hempty, if_pos (by simpa using hmem), hshape]
    · rwa [Context.meant, if_neg hempty]

/-- a name that is told apart: no other name has its canonical form, and a name under `$defs` is not defined before -/
structure Clear (b : Body) (k : Table) (name : String) : Prop where
  nonempty : name ≠ ""
  plain : canonical name = name
  defined : name ∈ (k.entries b).map (·.1)
  alone : ∀ e ∈ b.definitions ++ b.defs, canonical e.1 = name → e.1 = name
  first : k = .defs → name ∉ b.definitions.map (·.1)

/-- a pointer with a name that is told apart is linked to the schema under its keyword -/
theorem Clear.linked {b : Body} {k : Table} {token : String} (h : Clear b k (unescapeToken token)) :
    linked b token = some (unescapeToken token) ∧ b.definition? (unescapeToken token) = stored b k (unescapeToken token) ∧
      ∃ s, stored b k (unescapeToken token) = some s := by
  refine ⟨?_, ?_, Option.isSome_iff_exists.1 (Dict.get?_isSome_iff.2 h.defined)⟩
  · obtain ⟨e, he, hname⟩ := List.mem_map.1 h.defined
    have hmem : e ∈ b.definitions ++ b.defs := by
      cases k with
      | definitions => exact List.mem_append_left _ he
      | defs => exact List.mem_append_right _ he
    unfold Lowering.linked
    rw [h.plain]
    cases hfind : (b.definitions ++ b.defs).find? fun e => canonical e.1 == unescapeToken token with
    | none =>
      have hne := List.find?_eq_none.1 hfind e hmem
      rw [hname, h.plain] at hne
      simp at hne
    | some d =>
      have hd : canonical d.1 = unescapeToken token := by simpa using List.find?_some hfind
      rw [Option.map_some, h.alone d (List.mem_of_find?_eq_some hfind) hd]
  · obtain ⟨s, hs⟩ := Option.isSome_iff_exists.1 (Dict.get?_isSome_iff.2 h.defined)
    unfold Schema.Body.definition? stored
    cases k with
    | definitions =>
      change Dict.get? b.definitions _ = some s at hs
      simp [Table.entries, hs]
    | defs =>
      rw [Dict.get?_eq_none_iff.2 (h.first rfl)]
      rfl

/-! ## Checks -/

/-- a check of the first shape is the check of the second, with the null flag and the rules of the first around it -/
def Follows (p : Program) (x t : Shape) : Prop :=
  ∀ (cx : Check.Context), cx.program = p → ∀ fuel v q, Check.issues cx (fuel + 1) x v q =
    if x.base.nullable && v.isNull then some [] else (Check.issues cx fuel t v q).map (Check.rules cx x.base v q)

theorem follows_ref {base : Base} {name : String} {t : Shape} (h : p.target? name = some t) : Follows p (.ref base name) t := by
  rintro cx rfl fuel v q
  rw [Check.issues_succ]
  simp only [Check.own, h]

/-- **What references are checked against.** Where a level with a reference is part of a program, its check is that of a
shape `t`: that of the root for `#`, and that of the schema its name stands for behind a pointer. This is the schema under
the keyword and the name of the pointer, where that name is told apart. -/
theorem reference_checks (h : Program.lower S o = .ok p) {b : Body} (hb : Reached kept (contextOf S o) (ofBody b))
    (href : b.own.ref ≠ "") :
    ∃ x t, lower (contextOf S o) (ofBody b) = .ok x ∧ (∃ f, x.mapBase f ∈ p.nodes ∧ Follows p (x.mapBase f) t) ∧
      (b.own.ref = "#" ∧ lower (contextOf S o) (ofBody S.body) = .ok t ∨ ∃ k token name, b.own.ref = Table.pointer k ++ token ∧
        linked S.body token = some name ∧ lower (contextOf S o) ((contextOf S o).meant name) = .ok t) ∧
      ∀ k token, b.own.ref = Table.pointer k ++ token → Clear S.body k (unescapeToken token) →
        ∃ s, stored S.body k (unescapeToken token) = some s ∧ lower (contextOf S o) s = .ok t := by
  obtain ⟨x, hx, f, hf⟩ := hb.within h
  obtain ⟨name, hreference, rfl⟩ := lower_reference href hx
  by_cases hroot : b.own.ref = "#"
  · obtain rfl : name = "" := by
      rw [reference, if_pos hroot] at hreference
      cases hreference
      rfl
    refine ⟨_, p.root, hx, ⟨f, hf, follows_ref rfl⟩, .inl ⟨hroot, (program_top h).1⟩, fun k token htoken => ?_⟩
    have := localName?_table k token
    rw [← htoken, hroot] at this
    cases this
  · obtain ⟨token, hlocal, hfind⟩ : ∃ token, localName? b.own.ref = some token ∧ (contextOf S o).find? token = some name := by
      rw [reference, if_neg hroot] at hreference
      cases hlocal : localName? b.own.ref with
      | none =>
        rw [hlocal] at hreference
        cases hreference
      | some token =>
        rw [hlocal] at hreference
        cases hfind : (contextOf S o).find? token with
        | none =>
          simp only [hfind] at hreference
          cases hreference
        | some n =>
          simp only [hfind] at hreference
          cases hreference
          exact ⟨token, rfl, hfind⟩
    obtain ⟨t, ht, hmeant⟩ := target_lowered h (.inr (find?_mem hfind))
    obtain ⟨k, hk⟩ := localName?_some hlocal
    have hlinked : linked S.body token = some name := by rw [← find?_contextOf (o := o), hfind]
    refine ⟨_, t, hx, ⟨f, hf, follows_ref ht⟩, .inr ⟨k, token, name, hk, hlinked, hmeant⟩, fun k' token' htoken hclear => ?_⟩
    obtain rfl : token' = token := by
      have := localName?_table k' token'
      rw [← htoken, hlocal] at this
      exact (Option.some.inj this).symm
    obtain ⟨hname, hstored, s, hs⟩ := hclear.linked
    rw [hlinked] at hname
    obtain rfl := Option.some.inj hname
    refine ⟨s, hs, ?_⟩
    rw [Context.meant, if_neg hclear.nonempty] at hmeant
    have hdefinition : (contextOf S o).definition (unescapeToken token') = s := by
      change (S.body.definition? _).getD _ = s
      rw [hstored, hs]
      rfl
    rwa [hdefinition] at hmeant

/-- a document whose one reference leads to its one definition -/
def aliasDocument : Schema := ofBody {
  properties := some [("x", .reference "#/definitions/a")]
  definitions := [("a", .ofKeywords { type := some (.string "string") })] }

theorem reference_checks_alias :
    ∃ p x t s, Program.lower aliasDocument {} = .ok p ∧ lower (contextOf aliasDocument {}) (.reference "#/definitions/a") = .ok x ∧
      (∃ f, x.mapBase f ∈ p.nodes ∧ Follows p (x.mapBase f) t) ∧ stored aliasDocument.body .definitions "a" = some s ∧
      lower (contextOf aliasDocument {}) s = .ok t := by
  have heval : (Program.lower aliasDocument {}).toOption.any (fun _ => true) = true := by decide +kernel
  obtain ⟨p, hp, -⟩ := ok_of_any heval
  have hreached : Reached kept (contextOf aliasDocument {}) (.reference "#/definitions/a") := by
    apply Reached.step (b := aliasDocument.body) .root
    have hkept : kept aliasDocument.body = [.reference "#/definitions/a"] := by rfl
    rw [hkept]
    exact List.mem_singleton_self _
  obtain ⟨x, t, hx, hf, -, hclear⟩ := reference_checks hp (b := { own := { ref := "#/definitions/a" } }) hreached (by decide)
  have hname : unescapeToken "a" = "a" := by decide +kernel
  obtain ⟨s, hs, ht⟩ := hclear .definitions "a" (by decide) (by
    rw [hname]
    exact ⟨by decide, by decide +kernel, by decide, by decide +kernel, nofun⟩)
  rw [hname] at hs
  exact ⟨p, x, t, s, hp, hx, hf, hs, ht⟩

/-- one name under both keywords -/
def sharedText : String :=
  "\x7b\"definitions\":\x7b\"a\":\x7b\"type\":\"string\"\x7d\x7d,\"$defs\":\x7b\"a\":\x7b\"type\":\"integer\"\x7d\x7d," ++
    "\"properties\":\x7b\"x\":\x7b\"$ref\":\"#/$defs/a\"\x7d\x7d\x7d"

/-- a definition without a name -/
def namelessText : String :=
  "\x7b\"definitions\":\x7b\"\":\x7b\"type\":\"string\"\x7d\x7d,\"type\":\"object\"," ++
    "\"properties\":\x7b\"a\":\x7b\"$ref\":\"#/definitions/\"\x7d\x7d\x7d"

/-- **References that go astray.** The schema under the keyword and the name of the pointer accepts a value that the
document rejects where the reference stands: the name is taken by the other keyword, or is empty. -/
theorem reference_astray :
    (∃ S s, Schema.decode sharedText = .ok S ∧ stored S.body .defs "a" = some s ∧ accepts {} (.float 1) s = true ∧
      rejects {} (.object [("x", .float 1)]) S = true) ∧
    ∃ S s, Schema.decode namelessText = .ok S ∧ stored S.body .definitions "" = some s ∧
      accepts {} (.string "x") s = true ∧ rejects {} (.object [("a", .string "x")]) S = true := by
  have hastray {text : String} {k : Table} {name : String} {v w : Value} {cs : List Char} (htext : text = String.ofList cs)
      (h : (Schema.readChars cs).any (fun S =>
        (stored S.body k name).any (lowersTo {} (passes {} v)) && lowersTo {} (refuses {} w) S) = true) :
      ∃ S s, Schema.decode text = .ok S ∧ stored S.body k name = some s ∧ accepts {} v s = true ∧ rejects {} w S = true := by
    obtain ⟨S, hS, hboth⟩ := Schema.decode_ofList htext h
    obtain ⟨haccepts, hrejects⟩ := Bool.and_eq_true_iff.1 hboth
    obtain ⟨s, hs, hv⟩ := (Option.any_eq_true _ _).1 haccepts
    exact ⟨S, s, hS, hs, any_of_lowersTo hv, any_of_lowersTo hrejects⟩
  constructor
  · apply hastray
    case htext =>
      unfold sharedText
      repeat' first | apply Schema.ofList_append | with_reducible exact rfl
    case h => decide +kernel
  · apply hastray
    case htext =>
      unfold namelessText
      repeat' first | apply Schema.ofList_append | with_reducible exact rfl
    case h => decide +kernel

end Schemata.Lowering
