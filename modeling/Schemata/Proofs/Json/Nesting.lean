import Mathlib.Tactic
import Schemata.Proofs.Json.Reading

/-!
JSON texts that are accepted, and documents that were read.

A written document is read, and read as itself, if its numbers are numbers and it is not nested deeper than the reader goes
(`value_accepts`). A step of the reader takes at least one character, so the length of the text bounds the steps.

The reader builds a document from the inside out. What holds of words, strings and numbers, and of arrays and objects
whenever it holds of what stands in them, one level deeper, holds of every document that was read (`Formed`,
`formed_parse`). Two instances are used: the numbers of a document are runs of number characters (`allSpelled_parse`), and
no document is nested deeper than the reader goes (`nesting_parse`).
-/

namespace Schemata.Json

/-! ## Depth -/

mutual

/-- how deep a document is nested -/
def nesting : Json → Nat
  | .array xs => nestingOf xs + 1
  | .object fs => nestingIn fs + 1
  | _ => 0

def nestingOf : List Json → Nat
  | [] => 0
  | x :: xs => max x.nesting (nestingOf xs)

def nestingIn : List (String × Json) → Nat
  | [] => 0
  | (_, x) :: fs => max x.nesting (nestingIn fs)

end

theorem nesting_le_of_mem {xs : List Json} {x : Json} (h : x ∈ xs) : x.nesting ≤ nestingOf xs := by
  induction xs with
  | nil => cases h
  | cons y ys ih =>
    rw [nestingOf]
    rcases List.mem_cons.1 h with rfl | h
    · exact Nat.le_max_left _ _
    · exact (ih h).trans (Nat.le_max_right _ _)

theorem nesting_le_of_mem_fields {fs : List (String × Json)} {e : String × Json} (h : e ∈ fs) :
    e.2.nesting ≤ nestingIn fs := by
  induction fs with
  | nil => cases h
  | cons d ds ih =>
    rw [nestingIn]
    rcases List.mem_cons.1 h with rfl | h
    · exact Nat.le_max_left _ _
    · exact (ih h).trans (Nat.le_max_right _ _)

/-! ## Numbers -/

/-- a text that the reader takes for a number -/
structure IsNumber (t : String) : Prop where
  starts : ∃ c cs, t.toList = c :: cs ∧ (c.isDigit || c == '-') = true
  spelled : Spelled t
  number : (Number.parse? t).isSome = true

theorem EndsNumber.of_end {rest : List Char} (h : endsNumber rest = true) : EndsNumber rest := by
  cases rest with
  | nil => simp [EndsNumber]
  | cons c cs =>
    refine endsNumber_close ?_ cs
    simp only [endsNumber, isSpace, Bool.or_eq_true, beq_iff_eq] at h
    rcases h with ((((rfl | (((rfl | rfl) | rfl) | rfl)) | rfl) | rfl) | rfl) | rfl <;> decide

/-! ## Documents -/

section

variable {w : String → List Char} {f : String → String}

/-- the reader accepts the written document, if it may go deep enough and has steps enough -/
def Accepts (w : String → List Char) (f : String → String) (j : Json) : Prop :=
  ∀ (depth fuel : Nat) (rest : List Char), endsNumber rest = true → depth + j.nesting ≤ maxDepth →
    (written w j).length ≤ fuel → value depth fuel (written w j ++ rest) = .ok (mapStrings f j, rest)

theorem accepts_word {j : Json} (h : j = .null ∨ ∃ b, j = .bool b) : Accepts w f j := by
  intro depth fuel rest _ _ hfuel
  cases fuel with
  | zero => rcases h with rfl | ⟨_ | _, rfl⟩ <;> simp [written] at hfuel
  | succ fuel =>
    rcases h with rfl | ⟨_ | _, rfl⟩ <;>
      simp [written, value, skipSpace, isSpace, keyword, Text.dropPrefix?, mapStrings]

theorem accepts_number {t : String} (ht : IsNumber t) : Accepts w f (.number t) := by
  intro depth fuel rest hr _ hfuel
  obtain ⟨c, cs, htl, hstart⟩ := ht.starts
  have hc := ht.spelled.2 c (by simp [htl])
  obtain ⟨h1, h2, h3, h4, h5, h6, h7, h8⟩ := isNumberChar_facts hc
  have hrest : ∀ d ∈ cs, isNumberChar d = true := fun d hd => ht.spelled.2 d (by simp [htl, hd])
  have hw := takeWhile_number hrest (.of_end hr)
  have htext : String.ofList (c :: cs) = t := by rw [← htl, String.ofList_toList]
  have hnumber : (Number.parse? t).isNone = false := by simpa using ht.number
  rw [written, htl] at hfuel ⊢
  cases fuel with
  | zero => simp at hfuel
  | succ fuel =>
    rw [List.cons_append]
    unfold value
    rw [skipSpace_cons h1]
    simp only [hstart, numberBody, hw, htext, hr, hnumber, mapStrings, if_true, Bool.not_true, Bool.false_eq_true, if_false]

theorem accepts_string {s : String} (hs : Spells (w s) (f s)) : Accepts w f (.string s) := by
  intro depth fuel rest _ _ hfuel
  cases fuel with
  | zero => simp [written, quoted] at hfuel
  | succ fuel =>
    rw [written, quoted, List.cons_append, List.append_assoc, value, skipSpace_cons (by decide)]
    simp only [List.singleton_append, hs rest, mapStrings]

theorem elements_accepts {x : Json} {xs : List Json} (hx : ∀ y ∈ x :: xs, Accepts w f y) {depth fuel : Nat}
    (hdepth : ∀ y ∈ x :: xs, depth + y.nesting ≤ maxDepth) (acc : List Json) (rest : List Char)
    (hfuel : (written w x ++ (writtenItems w xs ++ [']'])).length ≤ fuel) :
    elements depth acc fuel (written w x ++ (writtenItems w xs ++ ']' :: rest)) =
      .ok (.array (acc.reverse ++ (x :: xs).map (mapStrings f)), rest) := by
  induction xs generalizing x acc fuel with
  | nil =>
    simp only [writtenItems, List.length_append, List.length_cons, List.length_nil, List.nil_append] at hfuel
    obtain ⟨fuel, rfl⟩ : ∃ n, fuel = n + 1 := ⟨fuel - 1, by omega⟩
    rw [writtenItems, List.nil_append, elements,
      hx x (by simp) depth fuel (']' :: rest) (by simp [endsNumber]) (hdepth x (by simp)) (by omega)]
    simp only [skipSpace_cons (show isSpace ']' = false by decide)]
    simp
  | cons y ys ih =>
    simp only [writtenItems, List.length_append, List.length_cons, List.length_nil] at hfuel
    obtain ⟨fuel, rfl⟩ : ∃ n, fuel = n + 1 := ⟨fuel - 1, by omega⟩
    rw [writtenItems, List.cons_append, List.append_assoc, elements,
      hx x (by simp) depth fuel _ (by simp [endsNumber]) (hdepth x (by simp)) (by omega)]
    simp only [skipSpace_cons (show isSpace ',' = false by decide)]
    rw [ih (fun z hz => hx z (List.mem_cons_of_mem _ hz)) (fun z hz => hdepth z (List.mem_cons_of_mem _ hz)) _
      (by simp only [List.length_append, List.length_cons, List.length_nil]; omega)]
    simp

theorem members_accepts {k : String} {x : Json} {fs : List (String × Json)}
    (hf : ∀ e ∈ (k, x) :: fs, Spells (w e.1) (f e.1) ∧ Accepts w f e.2) {depth fuel : Nat}
    (hdepth : ∀ e ∈ (k, x) :: fs, depth + e.2.nesting ≤ maxDepth) (acc : List (String × Json)) (rest : List Char)
    (hfuel : (quoted (w k) ++ ':' :: (written w x ++ (writtenMembers w fs ++ ['}']))).length ≤ fuel) :
    members depth acc fuel (quoted (w k) ++ ':' :: (written w x ++ (writtenMembers w fs ++ '}' :: rest))) =
      .ok (.object (acc.reverse ++ ((k, x) :: fs).map fun e => (f e.1, mapStrings f e.2)), rest) := by
  have hkey (k : String) (more : List Char) : quoted (w k) ++ more = '"' :: (w k ++ '"' :: more) := by simp [quoted]
  induction fs generalizing k x acc fuel with
  | nil =>
    have hk : Spells (w k) (f k) := (hf (k, x) (by simp)).1
    have hx : Accepts w f x := (hf (k, x) (by simp)).2
    simp only [writtenMembers, List.length_append, List.length_cons, List.length_nil, List.nil_append] at hfuel
    obtain ⟨fuel, rfl⟩ : ∃ n, fuel = n + 1 := ⟨fuel - 1, by omega⟩
    rw [hkey, writtenMembers, List.nil_append, members, skipSpace_cons (by decide)]
    simp only [hk _, skipSpace_cons (show isSpace ':' = false by decide)]
    rw [hx depth fuel ('}' :: rest) (by simp [endsNumber]) (hdepth (k, x) (by simp)) (by omega)]
    simp only [skipSpace_cons (show isSpace '}' = false by decide)]
    simp
  | cons e es ih =>
    have hk : Spells (w k) (f k) := (hf (k, x) (by simp)).1
    have hx : Accepts w f x := (hf (k, x) (by simp)).2
    simp only [writtenMembers, List.length_append, List.length_cons, List.length_nil] at hfuel
    obtain ⟨fuel, rfl⟩ : ∃ n, fuel = n + 1 := ⟨fuel - 1, by omega⟩
    rw [hkey, writtenMembers, List.cons_append, members, skipSpace_cons (by decide)]
    simp only [hk _, skipSpace_cons (show isSpace ':' = false by decide)]
    rw [hx depth fuel _ (by simp [endsNumber]) (hdepth (k, x) (by simp)) (by omega)]
    simp only [List.append_assoc, List.cons_append, skipSpace_cons (show isSpace ',' = false by decide)]
    rw [ih (fun d hd => hf d (List.mem_cons_of_mem _ hd)) (fun d hd => hdepth d (List.mem_cons_of_mem _ hd)) _
      (by simp only [List.length_append, List.length_cons, List.length_nil]; omega)]
    simp

theorem accepts_array {xs : List Json} (hn : ∀ t ∈ numeralsOf xs, IsNumber t) (hx : ∀ x ∈ xs, Accepts w f x) :
    Accepts w f (.array xs) := by
  intro depth fuel rest _ hdepth hfuel
  rw [nesting] at hdepth
  have hshallow : ¬ depth ≥ maxDepth := by omega
  rw [mapStrings, mapItems_eq]
  cases fuel with
  | zero => cases xs <;> simp [written] at hfuel
  | succ fuel =>
    cases xs with
    | nil =>
      have ht : written w (.array []) = ['[', ']'] := rfl
      rw [ht, List.cons_append, List.cons_append, List.nil_append, value, skipSpace_cons (by decide)]
      simp only [skipSpace_cons (show isSpace ']' = false by decide), if_neg hshallow, List.map_nil]
    | cons x xs =>
      obtain ⟨c, cs, hc, hspace, hclose⟩ := written_head (w := w) (j := x)
        fun t ht => (hn t (by simp [numeralsOf, ht])).spelled
      have hnested : ∀ y ∈ x :: xs, depth + 1 + y.nesting ≤ maxDepth := fun y hy => by
        have := nesting_le_of_mem hy
        omega
      have hall := elements_accepts hx hnested [] rest (by simpa [written] using hfuel)
      rw [hc, List.cons_append] at hall
      rw [written, hc, List.cons_append, List.cons_append, List.cons_append, List.append_assoc, List.append_assoc,
        value, skipSpace_cons (by decide)]
      simp only [skipSpace_cons hspace, if_neg hshallow]
      split
      · rename_i heq
        exact absurd (List.cons.inj heq).1 hclose
      · simpa using hall

theorem accepts_object {fs : List (String × Json)} (hf : ∀ e ∈ fs, Spells (w e.1) (f e.1) ∧ Accepts w f e.2) :
    Accepts w f (.object fs) := by
  intro depth fuel rest _ hdepth hfuel
  rw [nesting] at hdepth
  have hshallow : ¬ depth ≥ maxDepth := by omega
  rw [mapStrings, mapMembers_eq]
  cases fuel with
  | zero => rcases fs with _ | ⟨⟨k, x⟩, fs⟩ <;> simp [written] at hfuel
  | succ fuel =>
    rcases fs with _ | ⟨⟨k, x⟩, fs⟩
    · have ht : written w (.object []) = ['{', '}'] := rfl
      rw [ht, List.cons_append, List.cons_append, List.nil_append, value, skipSpace_cons (by decide)]
      simp only [skipSpace_cons (show isSpace '}' = false by decide), if_neg hshallow, List.map_nil]
    · have hnested : ∀ e ∈ (k, x) :: fs, depth + 1 + e.2.nesting ≤ maxDepth := fun e he => by
        have := nesting_le_of_mem_fields he
        omega
      have hall := members_accepts hf hnested [] rest (by simpa [written] using hfuel)
      rw [written, List.cons_append, value, skipSpace_cons (by decide)]
      simp only [quoted, List.cons_append, skipSpace_cons (show isSpace '"' = false by decide), if_neg hshallow]
      simpa [quoted] using hall

mutual

/-- **Documents are accepted.** The reader takes a written document whose numbers are numbers, and stands behind it. -/
theorem value_accepts : ∀ {j : Json}, (∀ t ∈ j.numerals, IsNumber t) → (∀ s ∈ j.strings, Spells (w s) (f s)) →
    Accepts w f j
  | .null, _, _ => accepts_word (.inl rfl)
  | .bool b, _, _ => accepts_word (.inr ⟨b, rfl⟩)
  | .number t, ht, _ => accepts_number (ht t (by simp [numerals]))
  | .string s, _, hs => accepts_string (hs s (by simp [strings]))
  | .array xs, ht, hs => accepts_array (by simpa [numerals] using ht)
      (items_accept (by simpa [numerals] using ht) (by simpa [strings] using hs))
  | .object fs, ht, hs => accepts_object (fields_accept (by simpa [numerals] using ht) (by simpa [strings] using hs))

theorem items_accept : ∀ {xs : List Json}, (∀ t ∈ numeralsOf xs, IsNumber t) →
    (∀ s ∈ stringsOf xs, Spells (w s) (f s)) → ∀ x ∈ xs, Accepts w f x
  | [], _, _ => by simp
  | x :: xs, ht, hs => by
    have hx : Accepts w f x :=
      value_accepts (fun t h => ht t (by simp [numeralsOf, h])) fun s h => hs s (by simp [stringsOf, h])
    have hxs : ∀ y ∈ xs, Accepts w f y :=
      items_accept (fun t h => ht t (by simp [numeralsOf, h])) fun s h => hs s (by simp [stringsOf, h])
    exact List.forall_mem_cons.2 ⟨hx, hxs⟩

theorem fields_accept : ∀ {fs : List (String × Json)}, (∀ t ∈ numeralsIn fs, IsNumber t) →
    (∀ s ∈ stringsIn fs, Spells (w s) (f s)) → ∀ e ∈ fs, Spells (w e.1) (f e.1) ∧ Accepts w f e.2
  | [], _, _ => by simp
  | (k, x) :: fs, ht, hs => by
    have hk : Spells (w k) (f k) := hs k (by simp [stringsIn])
    have hx : Accepts w f x :=
      value_accepts (fun t h => ht t (by simp [numeralsIn, h])) fun s h => hs s (by simp [stringsIn, h])
    have hfs : ∀ e ∈ fs, Spells (w e.1) (f e.1) ∧ Accepts w f e.2 :=
      fields_accept (fun t h => ht t (by simp [numeralsIn, h])) fun s h => hs s (by simp [stringsIn, h])
    exact List.forall_mem_cons.2 ⟨⟨hk, hx⟩, hfs⟩

end

/-- a written document is read as itself -/
theorem parse_accepts {j : Json} (ht : ∀ t ∈ j.numerals, IsNumber t) (hs : ∀ s ∈ j.strings, Spells (w s) (f s))
    (hdepth : j.nesting ≤ maxDepth) : parse (String.ofList (written w j)) = .ok (mapStrings f j) := by
  have hread := value_accepts ht hs 0 (3 * (written w j).length + 3) [] rfl (by omega) (by omega)
  rw [List.append_nil] at hread
  simp only [parse, String.toList_ofList, hread]
  rfl

end

/-! ## Documents that were read -/

/-- what the reader cannot break: it holds of all that the reader builds at a depth, if it holds of its parts a level deeper -/
structure Formed (P : Nat → Json → Prop) : Prop where
  null : ∀ depth, P depth .null
  bool : ∀ depth b, P depth (.bool b)
  string : ∀ depth s, P depth (.string s)
  number : ∀ depth t, Spelled t → P depth (.number t)
  array : ∀ depth xs, depth < maxDepth → (∀ x ∈ xs, P (depth + 1) x) → P depth (.array xs)
  object : ∀ depth fs, depth < maxDepth → (∀ e ∈ fs, P (depth + 1) e.2) → P depth (.object fs)

theorem keyword_ok {word : String} {v j : Json} {cs rest : List Char} (h : keyword word v cs = .ok (j, rest)) : j = v := by
  unfold keyword at h
  split at h <;> cases h
  rfl

theorem numberBody_ok {c : Char} (hc : isNumberChar c = true) {cs rest : List Char} {j : Json}
    (h : numberBody c cs = .ok (j, rest)) : ∃ t, Spelled t ∧ j = .number t := by
  unfold numberBody at h
  simp only at h
  split at h
  · cases h
  · split at h
    · cases h
    · cases h
      refine ⟨_, spelled_ofList (List.cons_ne_nil _ _) (List.forall_mem_cons.2 ⟨hc, ?_⟩), rfl⟩
      exact List.all_eq_true.1 List.all_takeWhile

section

variable {P : Nat → Json → Prop} (hP : Formed P)

include hP

mutual

theorem formed_value : ∀ {fuel depth : Nat} {cs rest : List Char} {j : Json}, value depth fuel cs = .ok (j, rest) → P depth j
  | 0, _, _, _, _, h => by cases h
  | fuel + 1, depth, cs, rest, j, h => by
    unfold value at h
    split at h
    · cases h
    · split at h
      · cases h
      · rename_i hdepth
        split at h
        · cases h
          exact hP.object depth [] (by omega) (by simp)
        · exact formed_members (by omega) (by simp) h
    · split at h
      · cases h
      · rename_i hdepth
        split at h
        · cases h
          exact hP.array depth [] (by omega) (by simp)
        · exact formed_elements (by omega) (by simp) h
    · split at h
      · cases h
        exact hP.string depth _
      · cases h
    · rename_i c _ _ _ _ _
      split at h
      · rename_i hc
        have hchar : isNumberChar c = true := by
          simp only [Bool.or_eq_true, beq_iff_eq] at hc
          rcases hc with hc | rfl
          · simp [isNumberChar, hc]
          · decide
        obtain ⟨t, ht, rfl⟩ := numberBody_ok hchar h
        exact hP.number depth t ht
      · split at h
        · exact keyword_ok h ▸ hP.bool depth true
        · split at h
          · exact keyword_ok h ▸ hP.bool depth false
          · split at h
            · exact keyword_ok h ▸ hP.null depth
            · cases h

theorem formed_elements : ∀ {fuel depth : Nat} {acc : List Json} {cs rest : List Char} {j : Json}, depth < maxDepth →
    (∀ x ∈ acc, P (depth + 1) x) → elements (depth + 1) acc fuel cs = .ok (j, rest) → P depth j
  | 0, _, _, _, _, _, _, _, h => by cases h
  | fuel + 1, depth, acc, cs, rest, j, hdepth, hacc, h => by
    unfold elements at h
    split at h
    · cases h
    · rename_i hv
      have hmore := List.forall_mem_cons.2 ⟨formed_value hv, hacc⟩
      split at h
      · cases h
        exact hP.array depth _ hdepth fun x hx => hmore x (List.mem_reverse.1 hx)
      · exact formed_elements hdepth hmore h
      · cases h
      · cases h

theorem formed_members : ∀ {fuel depth : Nat} {acc : List (String × Json)} {cs rest : List Char} {j : Json}, depth < maxDepth →
    (∀ e ∈ acc, P (depth + 1) e.2) → members (depth + 1) acc fuel cs = .ok (j, rest) → P depth j
  | 0, _, _, _, _, _, _, _, h => by cases h
  | fuel + 1, depth, acc, cs, rest, j, hdepth, hacc, h => by
    unfold members at h
    simp only at h
    split at h
    · cases h
    · split at h
      · split at h
        · cases h
        · rename_i hv
          have hmore (k : String) : ∀ e ∈ (k, _) :: acc, P (depth + 1) e.2 := List.forall_mem_cons.2 ⟨formed_value hv, hacc⟩
          split at h
          · cases h
            exact hP.object depth _ hdepth fun e he => hmore _ e (List.mem_reverse.1 he)
          · exact formed_members hdepth (hmore _) h
          · cases h
          · cases h
      · cases h
      · cases h

end

/-- **Documents that were read** are formed as the reader forms them. -/
theorem formed_parse {s : String} {j : Json} (h : parse s = .ok j) : P 0 j := by
  unfold parse at h
  simp only at h
  split at h
  · cases h
  · rename_i hv
    split at h
    · cases h
      exact formed_value hP hv
    · split at h
      · cases h
        exact formed_value hP hv
      · cases h

end

/-! ## Numbers -/

/-- every number of a document is a run of number characters -/
def AllSpelled (j : Json) : Prop := ∀ t ∈ j.numerals, Spelled t

theorem allSpelled_array {xs : List Json} : AllSpelled (.array xs) ↔ ∀ x ∈ xs, AllSpelled x := by
  have hall : (∀ t ∈ numeralsOf xs, Spelled t) ↔ ∀ x ∈ xs, AllSpelled x := by
    induction xs with
    | nil => simp [numeralsOf]
    | cons x xs ih => simp only [numeralsOf, List.mem_append, or_imp, forall_and, ih, List.forall_mem_cons, AllSpelled]
  rw [AllSpelled, numerals, hall]

theorem allSpelled_object {fs : List (String × Json)} : AllSpelled (.object fs) ↔ ∀ e ∈ fs, AllSpelled e.2 := by
  have hall : (∀ t ∈ numeralsIn fs, Spelled t) ↔ ∀ e ∈ fs, AllSpelled e.2 := by
    induction fs with
    | nil => simp [numeralsIn]
    | cons e fs ih => simp only [numeralsIn, List.mem_append, or_imp, forall_and, ih, List.forall_mem_cons, AllSpelled]
  rw [AllSpelled, numerals, hall]

/-- **Numbers are spelled.** What is read as a number is a run of number characters. -/
theorem allSpelled_parse {s : String} {j : Json} (h : parse s = .ok j) : AllSpelled j := by
  refine formed_parse (P := fun _ => AllSpelled) ⟨?_, ?_, ?_, ?_, ?_, ?_⟩ h
  · exact fun _ => nofun
  · exact fun _ _ => nofun
  · exact fun _ _ => nofun
  · intro _ t ht u hu
    exact List.mem_singleton.1 hu ▸ ht
  · exact fun _ _ _ => allSpelled_array.2
  · exact fun _ _ _ => allSpelled_object.2

/-! ## Depth -/

theorem nestingOf_le {xs : List Json} {n : Nat} (h : ∀ x ∈ xs, x.nesting ≤ n) : nestingOf xs ≤ n := by
  induction xs with
  | nil => exact Nat.zero_le n
  | cons x xs ih => exact max_le (h x (by simp)) (ih fun y hy => h y (by simp [hy]))

theorem nestingIn_le {fs : List (String × Json)} {n : Nat} (h : ∀ e ∈ fs, e.2.nesting ≤ n) : nestingIn fs ≤ n := by
  induction fs with
  | nil => exact Nat.zero_le n
  | cons e fs ih => exact max_le (h e (by simp)) (ih fun d hd => h d (by simp [hd]))

/-- **No document is nested deeper than the reader goes.** -/
theorem nesting_parse {s : String} {j : Json} (h : parse s = .ok j) : j.nesting ≤ maxDepth := by
  have hformed : Formed fun depth j => depth ≤ maxDepth → j.nesting ≤ maxDepth - depth := by
    refine ⟨?_, ?_, ?_, ?_, ?_, ?_⟩
    · exact fun _ _ => Nat.zero_le _
    · exact fun _ _ _ => Nat.zero_le _
    · exact fun _ _ _ => Nat.zero_le _
    · exact fun _ _ _ _ => Nat.zero_le _
    · intro depth xs hdepth hxs _
      have := nestingOf_le fun x hx => hxs x hx hdepth
      rw [nesting]
      omega
    · intro depth fs hdepth hfs _
      have := nestingIn_le fun e he => hfs e he hdepth
      rw [nesting]
      omega
  exact formed_parse hformed h (Nat.zero_le _)

end Schemata.Json
