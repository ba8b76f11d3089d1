import Mathlib.Tactic
import Schemata.Issue
import Schemata.Proofs.Fragment
import Schemata.Proofs.Graph.Judging
import Schemata.Proofs.Path

/-!
Pointers as places in a value.

`Value.at?` walks down a pointer: by its name into a field, by its number into an item. A place is a pointer whose walk ends
at a value. Main result: `text_eq_iff`. Inside one value a text is that of one place, with one exception: the root is written as
a single slash, and so is the field with the empty name right below it (`text_empty_field`).
-/

namespace Schemata

namespace Value

/-- the value behind one step -/
def step? : Value → Step → Option Value
  | .object fs, .field k => Dict.get? fs k
  | .array xs, .index i => if 0 ≤ i then xs[i.toNat]? else none
  | _, _ => none

/-- the value at the end of the steps -/
def at? (v : Value) (p : Pointer) : Option Value := p.foldlM step? v

variable {v x : Value} {p : Pointer}

@[simp] theorem at?_root (v : Value) : v.at? Pointer.root = some v := rfl

theorem at?_cons (v : Value) (s : Step) (p : Pointer) : v.at? (s :: p) = (v.step? s).bind (·.at? p) := rfl

theorem at?_step (h : v.at? p = some x) (s : Step) : v.at? (p ++ [s]) = x.step? s := by
  rw [at?, List.foldlM_append]
  change (v.at? p).bind (·.at? [s]) = _
  rw [h, Option.bind_some, at?_cons]
  exact Option.bind_fun_some (x.step? s)

theorem at?_field {fs : Dict Value} (h : v.at? p = some (.object fs)) (k : String) :
    v.at? (p.field k) = Dict.get? fs k := at?_step h (.field k)

theorem at?_index {xs : List Value} (h : v.at? p = some (.array xs)) (i : Nat) : v.at? (p.index i) = xs[i]? := by
  rw [Pointer.index, at?_step h, step?, if_pos (Int.natCast_nonneg i), Int.toNat_natCast]

end Value

/-! ## Steps -/

/-- keys that are escaped alike are the same -/
theorem escapeToken_injective {k l : String} (h : escapeToken k = escapeToken l) : k = l := by
  have hlist := congrArg String.toList h
  rw [Fragment.toList_escapeToken, Fragment.toList_escapeToken] at hlist
  apply String.toList_injective
  rw [← Fragment.replaceEach_written k.toList, hlist, Fragment.replaceEach_written]

namespace Step

theorem text_free (s : Step) : '/' ∉ s.text.toList := by
  cases s with
  | field k => exact Fragment.slash_not_mem_escapeToken k
  | index i =>
    rw [text, Text.toList_toString_int, List.mem_append]
    rintro (h | h)
    · split at h <;> simp at h
    · obtain ⟨d, hd, hc⟩ := Text.mem_toDigits (by decide) h
      interval_cases d <;> exact absurd hc (by decide)

theorem index_text_ne (i : Int) : (index i).text ≠ "" := by
  intro h
  have hlist := congrArg String.toList h
  rw [text, Text.toList_toString_int, String.toList_empty, List.append_eq_nil_iff] at hlist
  exact Nat.toDigits_ne_nil hlist.2

/-- a step with an empty text goes into the field without a name -/
theorem text_eq_empty {s : Step} (h : s.text = "") : s = .field "" := by
  cases s with
  | field k => rw [escapeToken_injective (l := "") (h.trans (by decide +kernel))]
  | index i => exact absurd h (index_text_ne i)

/-- out of one value, steps with the same text are the same: into an object by names, into an array by numbers -/
theorem eq_of_text {v : Value} {s t : Step} (hs : (v.step? s).isSome) (ht : (v.step? t).isSome) (h : s.text = t.text) :
    s = t := by
  cases v with
  | object fs =>
    cases s with
    | index i => cases hs
    | field k =>
      cases t with
      | index i => cases ht
      | field l => rw [escapeToken_injective h]
  | array xs =>
    cases s with
    | field k => cases hs
    | index i =>
      cases t with
      | field k => cases ht
      | index j =>
        simp only [Value.step?] at hs ht
        split at hs <;> rename_i hi <;> [skip; cases hs]
        split at ht <;> rename_i hj <;> [skip; cases ht]
        obtain ⟨m, rfl⟩ := Int.eq_ofNat_of_zero_le hi
        obtain ⟨n, rfl⟩ := Int.eq_ofNat_of_zero_le hj
        rw [Text.toString_nat_injective h]
  | _ => cases hs

end Step

/-! ## Pointers -/

namespace Pointer

theorem text_root : root.text = "/" := rfl

theorem text_of_ne {p : Pointer} (hp : p ≠ []) : p.text = "/" ++ "/".intercalate (p.map Step.text) := by
  rw [text, if_neg (by rwa [List.isEmpty_iff])]

/-- the text of a pointer that is not the root tells the texts of its steps -/
theorem splitOn_text {p : Pointer} (hp : p ≠ []) : Text.splitOn p.text "/" = "" :: p.map Step.text := by
  have hfree : ∀ e ∈ p.map Step.text, '/' ∉ e.toList := by
    intro e he
    obtain ⟨s, -, rfl⟩ := List.mem_map.1 he
    exact s.text_free
  rw [text_of_ne hp, Path.splitOn_slash, Text.splitOn_intercalate (by simpa using hp) hfree]

/-- only the field without a name is written like the root -/
theorem text_eq_slash {p : Pointer} (hp : p ≠ []) : p.text = "/" ↔ p = root.field "" := by
  constructor
  · intro h
    have hsplit := splitOn_text hp
    rw [h, show Text.splitOn "/" "/" = ["", ""] by decide +kernel, List.cons_eq_cons] at hsplit
    obtain ⟨s, rest, rfl, hs, hrest⟩ := List.map_eq_cons_iff.1 hsplit.2.symm
    rw [List.map_eq_nil_iff.1 hrest, Step.text_eq_empty hs]
    rfl
  · rintro rfl
    decide +kernel

/-- places whose steps have the same texts are the same -/
theorem eq_of_texts {v : Value} {p q : Pointer} (hp : (v.at? p).isSome) (hq : (v.at? q).isSome)
    (h : p.map Step.text = q.map Step.text) : p = q := by
  induction p generalizing v q with
  | nil => exact (List.map_eq_nil_iff.1 h.symm).symm
  | cons s p ih =>
    obtain ⟨t, q, rfl, ht, hrest⟩ := List.map_eq_cons_iff.1 h.symm
    rw [Value.at?_cons] at hp hq
    have hs' := Option.isSome_of_isSome_bind hp
    have ht' := Option.isSome_of_isSome_bind hq
    obtain rfl := Step.eq_of_text hs' ht' ht.symm
    obtain ⟨x, hx⟩ := Option.isSome_iff_exists.1 hs'
    rw [hx, Option.bind_some] at hp hq
    rw [ih hp hq hrest.symm]

/-- **Texts tell places apart.** Two places in one value have the same text if and only if they are the same, or one is the root and
the other the field with the empty name right below it. -/
theorem text_eq_iff {v : Value} {p q : Pointer} (hp : (v.at? p).isSome) (hq : (v.at? q).isSome) :
    p.text = q.text ↔ p = q ∨ (p = root ∧ q = root.field "") ∨ (p = root.field "" ∧ q = root) := by
  constructor
  · intro h
    by_cases hp' : p = root <;> by_cases hq' : q = root
    · exact .inl (hp'.trans hq'.symm)
    · rw [hp', text_root] at h
      exact .inr (.inl ⟨hp', (text_eq_slash hq').1 h.symm⟩)
    · rw [hq', text_root] at h
      exact .inr (.inr ⟨(text_eq_slash hp').1 h, hq'⟩)
    · have hsplit := congrArg (Text.splitOn · "/") h
      rw [splitOn_text hp', splitOn_text hq', List.cons_eq_cons] at hsplit
      exact .inl (eq_of_texts hp hq hsplit.2)
  · rintro (rfl | ⟨rfl, rfl⟩ | ⟨rfl, rfl⟩)
    · rfl
    · decide +kernel
    · decide +kernel

/-- names made of the characters that escapes are made of, and one that is empty -/
def slashedValue : Value :=
  .object [("", .array [.null]), ("a/b", .array [.null]), ("a~1b", .array [.null, .null])]

theorem text_eq_iff_slashed : (slashedValue.at? [.field "a/b", .index 0]).isSome ∧
    (slashedValue.at? [.field "a~1b", .index 0]).isSome ∧
    text [.field "a/b", .index 0] ≠ text [.field "a~1b", .index 0] := by
  have hp : (slashedValue.at? [.field "a/b", .index 0]).isSome := by decide +kernel
  have hq : (slashedValue.at? [.field "a~1b", .index 0]).isSome := by decide +kernel
  refine ⟨hp, hq, fun h => ?_⟩
  exact absurd ((text_eq_iff hp hq).1 h) (by decide)

/-- **Two places with one text.** The root and the field with the empty name are both written as a single slash. -/
theorem text_empty_field : (Value.object [("", .null)]).Decoded ∧ ((Value.object [("", .null)]).at? root).isSome ∧
    ((Value.object [("", .null)]).at? (root.field "")).isSome ∧ root ≠ root.field "" ∧ root.text = (root.field "").text := by
  refine ⟨.object (List.pairwise_singleton ..) (by simp [Value.Decoded.null]), rfl, rfl, by decide, by decide +kernel⟩

end Pointer

end Schemata
