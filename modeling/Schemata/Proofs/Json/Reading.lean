import Mathlib.Tactic
import Schemata.Proofs.Json.Text

/-!
JSON texts read back.

A reader that accepts a text which starts with a written document has read that document, and stands behind it
(`value_written`): with the strings escaped, `parse_text` says that the only document read from the text of a document
is the document itself.
-/

namespace Schemata.Json

/-! ## Characters -/

theorem skipSpace_cons {c : Char} (h : isSpace c = false) (cs : List Char) : skipSpace (c :: cs) = c :: cs := by
  rw [skipSpace, List.dropWhile_cons_of_neg (by simp [h])]

theorem isNumberChar_facts {c : Char} (h : isNumberChar c = true) : isSpace c = false ∧ c ≠ ']' ∧ c ≠ '"' ∧ c ≠ '{' ∧
    c ≠ '[' ∧ c ≠ 't' ∧ c ≠ 'f' ∧ c ≠ 'n' := by
  have hs : isSpace c = false := by
    by_contra hc
    simp only [isSpace, Bool.not_eq_false, Bool.or_eq_true, beq_iff_eq] at hc
    rcases hc with ((rfl | rfl) | rfl) | rfl <;> exact absurd h (by decide)
  refine ⟨hs, ?_, ?_, ?_, ?_, ?_, ?_, ?_⟩ <;> rintro rfl <;> exact absurd h (by decide)

/-- does a text not go on with a number? -/
def EndsNumber (rest : List Char) : Prop := ∀ c ∈ rest.head?, isNumberChar c = false

theorem endsNumber_close {c : Char} (h : isNumberChar c = false) (cs : List Char) : EndsNumber (c :: cs) := by
  intro d hd
  obtain rfl : c = d := by simpa using hd
  exact h

theorem takeWhile_number {cs rest : List Char} (hcs : ∀ c ∈ cs, isNumberChar c = true) (hr : EndsNumber rest) :
    (cs ++ rest).takeWhile isNumberChar = cs ∧ (cs ++ rest).dropWhile isNumberChar = rest := by
  cases rest with
  | nil =>
    rw [List.takeWhile_append_of_pos hcs, List.dropWhile_append_of_pos hcs]
    simp
  | cons c rest => exact Text.takeWhile_stop hcs (hr c (by simp)) rest

/-! ## Documents -/

section

variable {w : String → List Char} {f : String → String}

/-- a written document starts with a character of its own -/
theorem written_head {j : Json} (h : ∀ t ∈ j.numerals, Spelled t) :
    ∃ c cs, written w j = c :: cs ∧ isSpace c = false ∧ c ≠ ']' := by
  cases j with
  | null => exact ⟨'n', _, rfl, by decide, by decide⟩
  | bool b => cases b <;> exact ⟨_, _, rfl, by decide, by decide⟩
  | number t =>
    obtain ⟨hne, hc⟩ := h t (by simp [numerals])
    cases ht : t.toList with
    | nil => exact absurd (String.toList_eq_nil_iff.1 ht) hne
    | cons c cs =>
      have hf := isNumberChar_facts (hc c (by simp [ht]))
      exact ⟨c, cs, ht, hf.1, hf.2.1⟩
  | string s => exact ⟨'"', _, rfl, by decide, by decide⟩
  | array xs => cases xs <;> exact ⟨'[', _, rfl, by decide, by decide⟩
  | object fs => rcases fs with _ | ⟨⟨k, x⟩, fs⟩ <;> exact ⟨'{', _, rfl, by decide, by decide⟩

/-- whatever the reader makes of a text that starts with the written document is the document with its strings read -/
def Reads (w : String → List Char) (f : String → String) (j : Json) : Prop :=
  ∀ (depth fuel : Nat) (rest rest' : List Char) (j' : Json), EndsNumber rest →
    value depth fuel (written w j ++ rest) = .ok (j', rest') → j' = mapStrings f j ∧ rest' = rest

theorem reads_word {j : Json} (h : j = .null ∨ ∃ b, j = .bool b) : Reads w f j := by
  intro depth fuel rest rest' j' _ hv
  cases fuel with
  | zero => simp [value] at hv
  | succ fuel =>
    rcases h with rfl | ⟨_ | _, rfl⟩ <;> simp [written, value, skipSpace, isSpace, keyword, Text.dropPrefix?] at hv <;>
      exact ⟨hv.1.symm, hv.2.symm⟩

theorem reads_number {t : String} (ht : Spelled t) : Reads w f (.number t) := by
  intro depth fuel rest rest' j' hr h
  obtain ⟨hne, hcs⟩ := ht
  rw [written] at h
  cases fuel with
  | zero => simp [value] at h
  | succ fuel =>
    cases htl : t.toList with
    | nil => exact absurd (String.toList_eq_nil_iff.1 htl) hne
    | cons c cs =>
      have hc := hcs c (by simp [htl])
      obtain ⟨h1, h2, h3, h4, h5, h6, h7, h8⟩ := isNumberChar_facts hc
      have hrest : ∀ d ∈ cs, isNumberChar d = true := fun d hd => hcs d (by simp [htl, hd])
      have hw := takeWhile_number hrest hr
      have htext : String.ofList (c :: cs) = t := by rw [← htl, String.ofList_toList]
      rw [htl, List.cons_append] at h
      unfold value at h
      rw [skipSpace_cons h1] at h
      simp only [h6, h7, h8, numberBody, hw, htext, beq_iff_eq, if_false] at h
      split at h
      · split at h
        · simp at h
        · split at h
          · simp at h
          · simp only [Except.ok.injEq, Prod.mk.injEq] at h
            exact ⟨h.1.symm, h.2.symm⟩
      · simp at h

theorem reads_string {s : String} (hs : Spells (w s) (f s)) : Reads w f (.string s) := by
  intro depth fuel rest rest' j' _ h
  cases fuel with
  | zero => simp [value] at h
  | succ fuel =>
    rw [written, quoted, List.cons_append, List.append_assoc, value, skipSpace_cons (by decide)] at h
    simp only [List.singleton_append, hs rest, Except.ok.injEq, Prod.mk.injEq] at h
    exact ⟨h.1.symm, h.2.symm⟩

theorem elements_written {x : Json} {xs : List Json} (hx : ∀ y ∈ x :: xs, Reads w f y) {depth fuel : Nat}
    {acc : List Json} {rest rest' : List Char} {j : Json}
    (h : elements depth acc fuel (written w x ++ (writtenItems w xs ++ ']' :: rest)) = .ok (j, rest')) :
    j = .array (acc.reverse ++ (x :: xs).map (mapStrings f)) ∧ rest' = rest := by
  induction xs generalizing x acc fuel with
  | nil =>
    cases fuel with
    | zero => simp [elements] at h
    | succ fuel =>
      rw [writtenItems, List.nil_append, elements] at h
      split at h
      · simp at h
      · rename_i v r hv
        obtain ⟨rfl, rfl⟩ := hx x (by simp) _ _ _ _ _ (endsNumber_close (by decide) rest) hv
        rw [skipSpace_cons (by decide)] at h
        simp only [Except.ok.injEq, Prod.mk.injEq] at h
        exact ⟨by rw [← h.1, List.reverse_cons, List.map_singleton], h.2.symm⟩
  | cons y ys ih =>
    cases fuel with
    | zero => simp [elements] at h
    | succ fuel =>
      rw [writtenItems, List.cons_append, List.append_assoc, elements] at h
      split at h
      · simp at h
      · rename_i v r hv
        obtain ⟨rfl, rfl⟩ := hx x (by simp) _ _ _ _ _ (endsNumber_close (by decide) _) hv
        rw [skipSpace_cons (by decide)] at h
        obtain ⟨h1, h2⟩ := ih (fun z hz => hx z (List.mem_cons_of_mem _ hz)) h
        exact ⟨by rw [h1]; simp, h2⟩

theorem members_written {k : String} {x : Json} {fs : List (String × Json)}
    (hf : ∀ e ∈ (k, x) :: fs, Spells (w e.1) (f e.1) ∧ Reads w f e.2) {depth fuel : Nat} {acc : List (String × Json)}
    {rest rest' : List Char} {j : Json}
    (h : members depth acc fuel (quoted (w k) ++ ':' :: (written w x ++ (writtenMembers w fs ++ '}' :: rest))) =
      .ok (j, rest')) : j = .object (acc.reverse ++ ((k, x) :: fs).map fun e => (f e.1, mapStrings f e.2)) ∧
        rest' = rest := by
  have hkey (k : String) (more : List Char) : quoted (w k) ++ more = '"' :: (w k ++ '"' :: more) := by simp [quoted]
  induction fs generalizing k x acc fuel with
  | nil =>
    obtain ⟨hk, hx⟩ := hf (k, x) (by simp)
    cases fuel with
    | zero => simp [members] at h
    | succ fuel =>
      rw [hkey, writtenMembers, List.nil_append, members, skipSpace_cons (by decide)] at h
      simp only [hk _, skipSpace_cons (show isSpace ':' = false by decide)] at h
      split at h
      · simp at h
      · rename_i v r hv
        obtain ⟨rfl, rfl⟩ := hx _ _ _ _ _ (endsNumber_close (by decide) rest) hv
        rw [skipSpace_cons (by decide)] at h
        simp only [Except.ok.injEq, Prod.mk.injEq] at h
        exact ⟨by rw [← h.1, List.reverse_cons, List.map_singleton], h.2.symm⟩
  | cons e es ih =>
    obtain ⟨hk, hx⟩ := hf (k, x) (by simp)
    cases fuel with
    | zero => simp [members] at h
    | succ fuel =>
      rw [hkey, writtenMembers, List.cons_append, members, skipSpace_cons (by decide)] at h
      simp only [hk _, skipSpace_cons (show isSpace ':' = false by decide)] at h
      split at h
      · simp at h
      · rename_i v r hv
        obtain ⟨rfl, rfl⟩ := hx _ _ _ _ _ (endsNumber_close (by decide) _) hv
        simp only [List.append_assoc, List.cons_append] at h
        rw [skipSpace_cons (by decide)] at h
        obtain ⟨h1, h2⟩ := ih (fun d hd => hf d (List.mem_cons_of_mem _ hd)) h
        exact ⟨by rw [h1]; simp, h2⟩

theorem reads_array {xs : List Json} (hn : ∀ t ∈ numeralsOf xs, Spelled t) (hx : ∀ x ∈ xs, Reads w f x) :
    Reads w f (.array xs) := by
  intro depth fuel rest rest' j' _ h
  rw [mapStrings, mapItems_eq]
  cases fuel with
  | zero => simp [value] at h
  | succ fuel =>
    cases xs with
    | nil =>
      have ht : written w (.array []) = ['[', ']'] := rfl
      rw [ht, List.cons_append, List.cons_append, List.nil_append, value, skipSpace_cons (by decide)] at h
      simp only [skipSpace_cons (show isSpace ']' = false by decide)] at h
      split at h
      · simp at h
      · simp only [Except.ok.injEq, Prod.mk.injEq] at h
        exact ⟨h.1.symm, h.2.symm⟩
    | cons x xs =>
      obtain ⟨c, cs, hc, hspace, hclose⟩ :=
        written_head (w := w) (show ∀ t ∈ x.numerals, Spelled t from fun t ht => hn t (by simp [numeralsOf, ht]))
      rw [written, hc, List.cons_append, List.cons_append, List.cons_append, List.append_assoc, List.append_assoc,
        value, skipSpace_cons (by decide)] at h
      simp only [skipSpace_cons hspace] at h
      split at h
      · simp at h
      · split at h
        · rename_i heq
          exact absurd (List.cons.inj heq).1 hclose
        · rw [← List.cons_append, ← hc] at h
          exact elements_written hx h

theorem reads_object {fs : List (String × Json)} (hf : ∀ e ∈ fs, Spells (w e.1) (f e.1) ∧ Reads w f e.2) :
    Reads w f (.object fs) := by
  intro depth fuel rest rest' j' _ h
  rw [mapStrings, mapMembers_eq]
  cases fuel with
  | zero => simp [value] at h
  | succ fuel =>
    rcases fs with _ | ⟨⟨k, x⟩, fs⟩
    · have ht : written w (.object []) = ['{', '}'] := rfl
      rw [ht, List.cons_append, List.cons_append, List.nil_append, value, skipSpace_cons (by decide)] at h
      simp only [skipSpace_cons (show isSpace '}' = false by decide)] at h
      split at h
      · simp at h
      · simp only [Except.ok.injEq, Prod.mk.injEq] at h
        exact ⟨h.1.symm, h.2.symm⟩
    · rw [written, List.cons_append, value, skipSpace_cons (by decide)] at h
      simp only [quoted, List.cons_append, skipSpace_cons (show isSpace '"' = false by decide)] at h
      split at h
      · simp at h
      · have hm : members (depth + 1) [] fuel
            (quoted (w k) ++ ':' :: (written w x ++ (writtenMembers w fs ++ '}' :: rest))) = .ok (j', rest') := by
          simpa [quoted] using h
        simpa using members_written hf hm

mutual

/-- **Documents read back.** A reader that accepts a text which starts with a written document has read that document
and stands behind it. -/
theorem value_written : ∀ {j : Json}, (∀ t ∈ j.numerals, Spelled t) → (∀ s ∈ j.strings, Spells (w s) (f s)) →
    Reads w f j
  | .null, _, _ => reads_word (.inl rfl)
  | .bool b, _, _ => reads_word (.inr ⟨b, rfl⟩)
  | .number t, ht, _ => reads_number (ht t (by simp [numerals]))
  | .string s, _, hs => reads_string (hs s (by simp [strings]))
  | .array xs, ht, hs => reads_array (by simpa [numerals] using ht)
      (items_written (by simpa [numerals] using ht) (by simpa [strings] using hs))
  | .object fs, ht, hs => reads_object (fields_written (by simpa [numerals] using ht) (by simpa [strings] using hs))

theorem items_written : ∀ {xs : List Json}, (∀ t ∈ numeralsOf xs, Spelled t) →
    (∀ s ∈ stringsOf xs, Spells (w s) (f s)) → ∀ x ∈ xs, Reads w f x
  | [], _, _ => by simp
  | x :: xs, ht, hs => by
    have hx : Reads w f x :=
      value_written (fun t h => ht t (by simp [numeralsOf, h])) fun s h => hs s (by simp [stringsOf, h])
    have hxs : ∀ y ∈ xs, Reads w f y :=
      items_written (fun t h => ht t (by simp [numeralsOf, h])) fun s h => hs s (by simp [stringsOf, h])
    exact List.forall_mem_cons.2 ⟨hx, hxs⟩

theorem fields_written : ∀ {fs : List (String × Json)}, (∀ t ∈ numeralsIn fs, Spelled t) →
    (∀ s ∈ stringsIn fs, Spells (w s) (f s)) → ∀ e ∈ fs, Spells (w e.1) (f e.1) ∧ Reads w f e.2
  | [], _, _ => by simp
  | (k, x) :: fs, ht, hs => by
    have hk : Spells (w k) (f k) := hs k (by simp [stringsIn])
    have hx : Reads w f x :=
      value_written (fun t h => ht t (by simp [numeralsIn, h])) fun s h => hs s (by simp [stringsIn, h])
    have hfs : ∀ e ∈ fs, Spells (w e.1) (f e.1) ∧ Reads w f e.2 :=
      fields_written (fun t h => ht t (by simp [numeralsIn, h])) fun s h => hs s (by simp [stringsIn, h])
    exact List.forall_mem_cons.2 ⟨⟨hk, hx⟩, hfs⟩

end

/-- the only document that is read from a written one is that document -/
theorem parse_written {j j' : Json} (hj : ∀ t ∈ j.numerals, Spelled t) (hs : ∀ s ∈ j.strings, Spells (w s) (f s))
    (h : parse (String.ofList (written w j)) = .ok j') : j' = mapStrings f j := by
  simp only [parse, String.toList_ofList] at h
  split at h
  · simp at h
  · rename_i v rest hv
    rw [← List.append_nil (written w j)] at hv
    obtain ⟨rfl, rfl⟩ := value_written hj hs _ _ _ _ _ (by simp [EndsNumber]) hv
    simpa [skipSpace] using h.symm

end

end Schemata.Json
