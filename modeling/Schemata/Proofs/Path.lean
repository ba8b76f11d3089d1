import Mathlib.Tactic
import Schemata.Path
import Schemata.Proofs.Text.Basic

/-!
Laws of clean paths.

A clean path is determined by whether it is absolute and by its elements: steps up, of which an absolute path has none, then
names. `Tidy` says so of the elements, innermost first, as cleaning builds them up; `spell` writes a path from its
elements, and reading it gives them back. Joining a path with names adds the names, and a way that does not leave its
place consists of names only.
-/

namespace Schemata

namespace Text

/-! ## Splitting at slashes -/

theorem splitGo_append (c : Char) (acc a b : List Char) :
    splitGo [c] 0 acc (a ++ c :: b) = splitGo [c] 0 acc a ++ splitGo [c] 0 [] b := by
  induction a generalizing acc with
  | nil => simp [splitGo, List.isPrefixOf]
  | cons d a ih =>
    rw [List.cons_append, splitGo, splitGo]
    split
    · rename_i h
      rw [if_pos (by simpa [List.isPrefixOf] using h)]
      simpa using ih []
    · rename_i h
      rw [if_neg (by simpa [List.isPrefixOf] using h)]
      exact ih _

theorem splitOn_append (a b : String) : splitOn (a ++ "/" ++ b) "/" = splitOn a "/" ++ splitOn b "/" := by
  have h := splitGo_append '/' [] a.toList b.toList
  simp only [splitOn, String.toList_append, ← List.map_append]
  rw [show "/".toList = ['/'] from rfl, ← h, List.append_assoc]
  rfl

theorem splitOn_free {s : String} (h : '/' ∉ s.toList) : splitOn s "/" = [s] := by
  rw [splitOn, show "/".toList = ['/'] from rfl, splitGo_free h]
  simp

theorem free_of_mem_splitGo {c : Char} {acc cs x : List Char} (hacc : c ∉ acc) (h : x ∈ splitGo [c] 0 acc cs) : c ∉ x := by
  induction cs generalizing acc with
  | nil =>
    obtain rfl : x = acc.reverse := by simpa [splitGo] using h
    simpa using hacc
  | cons d cs ih =>
    rw [splitGo] at h
    split at h
    · rcases List.mem_cons.1 h with rfl | h
      · simpa using hacc
      · exact ih (by simp) h
    · rename_i hd
      refine ih ?_ h
      have hne : ¬ c = d := by simpa [List.isPrefixOf] using hd
      simp [hne, hacc]

theorem free_of_mem_splitOn {s e : String} (h : e ∈ splitOn s "/") : '/' ∉ e.toList := by
  obtain ⟨x, hx, rfl⟩ := List.mem_map.1 h
  rw [String.toList_ofList]
  exact free_of_mem_splitGo (c := '/') (by simp) hx

theorem splitOn_intercalate {es : List String} (hne : es ≠ []) (h : ∀ e ∈ es, '/' ∉ e.toList) :
    splitOn ("/".intercalate es) "/" = es := by
  induction es with
  | nil => exact absurd rfl hne
  | cons e es ih =>
    cases es with
    | nil => simpa using splitOn_free (h e (by simp))
    | cons f es =>
      rw [String.intercalate_cons_cons, splitOn_append, splitOn_free (h e (by simp)),
        ih (by simp) fun x hx => h x (List.mem_cons_of_mem e hx)]
      rfl

theorem startsWith_iff {s p : String} : startsWith s p = true ↔ ∃ rest, s = p ++ rest := by
  unfold startsWith
  rw [List.isPrefixOf_iff_prefix]
  constructor
  · rintro ⟨r, hr⟩
    exact ⟨String.ofList r, String.toList_injective (by simp [hr])⟩
  · rintro ⟨r, rfl⟩
    exact ⟨r.toList, by simp⟩

end Text

namespace Path

open Text

/-! ## Elements -/

/-- what a clean path consists of: a name or a step up -/
def IsElement (e : String) : Prop := e ≠ "" ∧ e ≠ "." ∧ '/' ∉ e.toList

/-- an element that leads down -/
def IsName (e : String) : Prop := IsElement e ∧ e ≠ ".."

theorem isName_iff {e : String} : IsName e ↔ e ≠ "" ∧ e ≠ "." ∧ e ≠ ".." ∧ '/' ∉ e.toList := by
  unfold IsName IsElement
  tauto

/-- elements of a clean path, innermost first: a step up is only above other steps up, and in no absolute path -/
def Tidy (rooted : Bool) : List String → Prop
  | [] => True
  | e :: acc => IsElement e ∧ (e = ".." → rooted = false ∧ ∀ x ∈ acc, x = "..") ∧ Tidy rooted acc

theorem Tidy.isElement {rooted : Bool} {acc : List String} (h : Tidy rooted acc) {e : String} (he : e ∈ acc) : IsElement e := by
  induction acc with
  | nil => cases he
  | cons f acc ih =>
    rcases List.mem_cons.1 he with rfl | he
    · exact h.1
    · exact ih h.2.2 he

theorem tidy_append {rooted : Bool} {names acc : List String} (hn : ∀ e ∈ names, IsName e) (h : Tidy rooted acc) :
    Tidy rooted (names ++ acc) := by
  induction names with
  | nil => exact h
  | cons e names ih =>
    have he := hn e (by simp)
    exact ⟨he.1, fun h => absurd h he.2, ih fun x hx => hn x (List.mem_cons_of_mem e hx)⟩

theorem tidy_of_names {rooted : Bool} {names : List String} (hn : ∀ e ∈ names, IsName e) : Tidy rooted names.reverse := by
  have := @tidy_append rooted names.reverse [] (by simpa using hn) trivial
  simpa using this

/-- what lies above an element of a clean path that is no step up holds no step up -/
theorem Tidy.names {rooted : Bool} {inner outer : List String} {e : String} (h : Tidy rooted (inner ++ e :: outer))
    (he : e ≠ "..") : ∀ x ∈ inner, x ≠ ".." := by
  induction inner with
  | nil => simp
  | cons f inner ih =>
    intro x hx
    rcases List.mem_cons.1 hx with rfl | hx
    · exact fun hx => he ((h.2.1 hx).2 e (by simp))
    · exact ih h.2.2 x hx

/-! ## Cleaning -/

theorem cleanStep_tidy {rooted : Bool} {acc : List String} (h : Tidy rooted acc) {e : String} (he : '/' ∉ e.toList) :
    Tidy rooted (cleanStep rooted acc e) := by
  unfold cleanStep
  split
  · exact h
  · rename_i hne
    rw [not_or] at hne
    split
    · rename_i hup
      subst e
      cases acc with
      | nil =>
        cases rooted with
        | true => trivial
        | false => exact ⟨⟨hne.1, hne.2, he⟩, fun _ => ⟨rfl, by simp⟩, trivial⟩
      | cons top acc =>
        dsimp only
        split
        · rename_i htop
          obtain ⟨hrooted, hall⟩ := h.2.1 htop
          exact ⟨⟨hne.1, hne.2, he⟩, fun _ => ⟨hrooted, by simpa [htop] using hall⟩, h⟩
        · exact h.2.2
    · rename_i hup
      exact ⟨⟨hne.1, hne.2, he⟩, fun h => absurd h hup, h⟩

theorem foldl_cleanStep_tidy {rooted : Bool} {acc es : List String} (h : Tidy rooted acc) (hes : ∀ e ∈ es, '/' ∉ e.toList) :
    Tidy rooted (es.foldl (cleanStep rooted) acc) := by
  induction es generalizing acc with
  | nil => exact h
  | cons e es ih => exact ih (cleanStep_tidy h (hes e (by simp))) fun x hx => hes x (List.mem_cons_of_mem e hx)

/-- what is no element is passed over -/
theorem cleanStep_skip {rooted : Bool} {acc : List String} {e : String} (he : e = "" ∨ e = ".") : cleanStep rooted acc e = acc := by
  unfold cleanStep
  exact if_pos he

theorem cleanStep_name {rooted : Bool} {acc : List String} {e : String} (he : IsName e) : cleanStep rooted acc e = e :: acc := by
  unfold cleanStep
  rw [if_neg (by simp [he.1.1, he.1.2.1]), if_neg he.2]

/-- names pile up -/
theorem foldl_cleanStep_names {rooted : Bool} {acc names : List String} (h : ∀ e ∈ names, IsName e) :
    names.foldl (cleanStep rooted) acc = names.reverse ++ acc := by
  induction names generalizing acc with
  | nil => rfl
  | cons e names ih =>
    rw [List.foldl_cons, cleanStep_name (h e (by simp)), ih fun x hx => h x (List.mem_cons_of_mem e hx)]
    simp

/-- the elements of a clean path are clean -/
theorem foldl_cleanStep_self {rooted : Bool} {acc : List String} (h : Tidy rooted acc) :
    acc.reverse.foldl (cleanStep rooted) [] = acc := by
  induction acc with
  | nil => rfl
  | cons e acc ih =>
    rw [List.reverse_cons, List.foldl_append, ih h.2.2]
    simp only [List.foldl_cons, List.foldl_nil]
    by_cases he : e = ".."
    · obtain ⟨hrooted, hall⟩ := h.2.1 he
      subst e
      unfold cleanStep
      rw [if_neg (by simp), if_pos rfl]
      cases acc with
      | nil => simp [hrooted]
      | cons top acc => simp [hall top (by simp)]
    · exact cleanStep_name ⟨h.1, he⟩

/-! ## Spelling -/

/-- the clean path of given elements -/
def spell (rooted : Bool) (es : List String) : String :=
  if rooted then "/" ++ "/".intercalate es else if "/".intercalate es = "" then "." else "/".intercalate es

/-- the elements that cleaning leaves of a path -/
def parts (p : String) : List String := ((splitOn p "/").foldl (cleanStep (isAbsolute p)) []).reverse

theorem clean_eq (p : String) : clean p = spell (isAbsolute p) (parts p) := rfl

theorem parts_tidy (p : String) : Tidy (isAbsolute p) (parts p).reverse := by
  rw [parts, List.reverse_reverse]
  exact foldl_cleanStep_tidy trivial fun e he => free_of_mem_splitOn he

theorem intercalate_ne {es : List String} (hne : es ≠ []) (h : ∀ e ∈ es, IsElement e) : "/".intercalate es ≠ "" := by
  intro hempty
  have hsplit := splitOn_intercalate hne fun e he => (h e he).2.2
  rw [hempty, splitOn_free (by simp)] at hsplit
  exact (h "" (by simp [← hsplit])).1 rfl

@[simp] theorem spell_nil : spell false [] = "." := rfl

theorem spell_false {es : List String} (hne : es ≠ []) (h : ∀ e ∈ es, IsElement e) : spell false es = "/".intercalate es := by
  rw [spell, if_neg (by simp), if_neg (intercalate_ne hne h)]

theorem spell_ne (rooted : Bool) (es : List String) : spell rooted es ≠ "" := by
  unfold spell
  split
  · simp
  · split
    · simp
    · assumption

theorem isAbsolute_iff {p : String} : isAbsolute p = true ↔ ∃ rest, p = "/" ++ rest := by
  unfold isAbsolute
  rw [beq_iff_eq, List.head?_eq_some_iff]
  constructor
  · rintro ⟨r, hr⟩
    exact ⟨String.ofList r, String.toList_injective (by simp [hr])⟩
  · rintro ⟨r, rfl⟩
    exact ⟨r.toList, by simp⟩

theorem isAbsolute_append {a : String} (ha : a ≠ "") (b : String) : isAbsolute (a ++ b) = isAbsolute a := by
  unfold isAbsolute
  have hne : a.toList ≠ [] := fun h => ha (String.toList_injective h)
  obtain ⟨c, cs, hc⟩ := List.exists_cons_of_ne_nil hne
  simp [String.toList_append, hc]

theorem splitOn_slash (b : String) : splitOn ("/" ++ b) "/" = "" :: splitOn b "/" := by
  have := splitOn_append "" b
  rwa [splitOn_free (s := "") (by simp), String.empty_append] at this

/-- reading what was spelled, empty elements aside -/
theorem splitOn_spell {rooted : Bool} {es : List String} (h : ∀ e ∈ es, IsElement e) :
    (splitOn (spell rooted es) "/").filter (fun e => e ≠ "" && e ≠ ".") = es := by
  have hall : es.filter (fun e => e ≠ "" && e ≠ ".") = es :=
    List.filter_eq_self.2 fun e he => by simp [(h e he).1, (h e he).2.1]
  by_cases hne : es = []
  · subst hne
    cases rooted <;> decide
  · have hsplit := splitOn_intercalate hne fun e he => (h e he).2.2
    cases rooted with
    | true =>
      rw [spell, if_pos rfl, splitOn_slash, hsplit, List.filter_cons, if_neg (by simp), hall]
    | false => rw [spell_false hne h, hsplit, hall]

theorem elements_spell {rooted : Bool} {es : List String} (h : ∀ e ∈ es, IsElement e) : elements (spell rooted es) = es :=
  splitOn_spell h

theorem isAbsolute_spell {rooted : Bool} {es : List String} (h : ∀ e ∈ es, IsElement e) : isAbsolute (spell rooted es) = rooted := by
  cases rooted with
  | true => exact isAbsolute_iff.2 ⟨_, rfl⟩
  | false =>
    cases es with
    | nil => rfl
    | cons e es =>
      rw [spell_false (by simp) h, Bool.eq_false_iff]
      intro habs
      obtain ⟨rest, hrest⟩ := isAbsolute_iff.1 habs
      have hsplit := @splitOn_intercalate (e :: es) (by simp) fun x hx => (h x hx).2.2
      rw [hrest, splitOn_slash] at hsplit
      exact (h e (by simp)).1 (List.cons.inj hsplit).1.symm

/-- empty elements do not count -/
theorem foldl_cleanStep_filter (rooted : Bool) (acc es : List String) :
    (es.filter fun e => e ≠ "" && e ≠ ".").foldl (cleanStep rooted) acc = es.foldl (cleanStep rooted) acc := by
  induction es generalizing acc with
  | nil => rfl
  | cons e es ih =>
    rw [List.filter_cons]
    split
    · exact ih _
    · rename_i he
      rw [ih, List.foldl_cons, cleanStep_skip (by simpa [or_iff_not_imp_left] using he)]

theorem parts_spell {rooted : Bool} {es : List String} (h : Tidy rooted es.reverse) : parts (spell rooted es) = es := by
  have hes : ∀ e ∈ es, IsElement e := fun e he => h.isElement (List.mem_reverse.2 he)
  rw [parts, isAbsolute_spell hes, ← foldl_cleanStep_filter, splitOn_spell hes]
  have := foldl_cleanStep_self h
  rw [List.reverse_reverse] at this
  rw [this, List.reverse_reverse]

theorem isElement_of_parts {p e : String} (he : e ∈ parts p) : IsElement e := (parts_tidy p).isElement (List.mem_reverse.2 he)

theorem elements_clean (p : String) : elements (clean p) = parts p := elements_spell fun _ => isElement_of_parts

theorem isAbsolute_clean (p : String) : isAbsolute (clean p) = isAbsolute p := isAbsolute_spell fun _ => isElement_of_parts

theorem clean_spell {rooted : Bool} {es : List String} (h : Tidy rooted es.reverse) : clean (spell rooted es) = spell rooted es := by
  rw [clean_eq, parts_spell h, isAbsolute_spell fun e he => h.isElement (List.mem_reverse.2 he)]

theorem clean_ne (p : String) : clean p ≠ "" := by
  rw [clean_eq]
  exact spell_ne _ _

@[simp] theorem clean_clean (p : String) : clean (clean p) = clean p := clean_spell (parts_tidy p)

/-- a clean path has one spelling -/
theorem spell_inj {r₁ r₂ : Bool} {es₁ es₂ : List String} (h₁ : Tidy r₁ es₁.reverse) (h₂ : Tidy r₂ es₂.reverse)
    (h : spell r₁ es₁ = spell r₂ es₂) : r₁ = r₂ ∧ es₁ = es₂ := by
  have hel {r : Bool} {es : List String} (h : Tidy r es.reverse) : ∀ e ∈ es, IsElement e :=
    fun e he => h.isElement (List.mem_reverse.2 he)
  have habs := @isAbsolute_spell r₁ es₁ (hel h₁)
  have hes := @elements_spell r₁ _ (hel h₁)
  rw [h] at habs hes
  rw [isAbsolute_spell (hel h₂)] at habs
  rw [elements_spell (hel h₂)] at hes
  exact ⟨habs.symm, hes.symm⟩

/-! ## Joining -/

theorem join_empty {b : String} (hb : b ≠ "") : join ["", b] = clean b := by
  simp [join, hb]

theorem join_pair {a b : String} (ha : a ≠ "") (hb : b ≠ "") : join [a, b] = clean (a ++ "/" ++ b) := by
  simp [join, ha, hb, String.intercalate_cons_cons]

/-- joining goes on cleaning where the first path ends -/
theorem join_spell {rooted : Bool} {acc : List String} (h : Tidy rooted acc) (b : String) :
    join [spell rooted acc.reverse, b] = spell rooted ((splitOn b "/").foldl (cleanStep rooted) acc).reverse := by
  have hel : ∀ e ∈ acc.reverse, IsElement e := fun e he => h.isElement (List.mem_reverse.1 he)
  have habs : isAbsolute (spell rooted acc.reverse) = rooted := isAbsolute_spell hel
  by_cases hb : b = ""
  · subst b
    rw [splitOn_free (by simp)]
    simp only [List.foldl_cons, List.foldl_nil]
    rw [show join [spell rooted acc.reverse, ""] = clean (spell rooted acc.reverse) by simp [join, spell_ne],
      clean_spell (by simpa using h), cleanStep_skip (.inl rfl)]
  · rw [join_pair (spell_ne _ _) hb, clean_eq, String.append_assoc, isAbsolute_append (spell_ne _ _), habs, parts,
      isAbsolute_append (spell_ne _ _), habs, ← String.append_assoc, splitOn_append, List.foldl_append,
      ← foldl_cleanStep_filter rooted [] (splitOn _ _), splitOn_spell hel, foldl_cleanStep_self h]

/-- joining with names adds the names -/
theorem join_names {rooted : Bool} {es names : List String} (h : Tidy rooted es.reverse) (hn : ∀ e ∈ names, IsName e) :
    join [spell rooted es, spell false names] = spell rooted (es ++ names) := by
  have := join_spell h (spell false names)
  rw [List.reverse_reverse] at this
  rw [this, ← foldl_cleanStep_filter, splitOn_spell fun e he => (hn e he).1, foldl_cleanStep_names hn]
  simp

theorem clean_join {a b : String} (ha : a ≠ "") : join [a, b] = join [clean a, b] := by
  have hspell := join_spell (parts_tidy a) b
  rw [List.reverse_reverse] at hspell
  rw [clean_eq, hspell]
  by_cases hb : b = ""
  · subst b
    rw [show join [a, ""] = clean a by simp [join, ha], splitOn_free (by simp)]
    simp only [List.foldl_cons, List.foldl_nil]
    rw [cleanStep_skip (.inl rfl), List.reverse_reverse]
    rfl
  · rw [join_pair ha hb, clean_eq, String.append_assoc, isAbsolute_append ha, parts, isAbsolute_append ha,
      ← String.append_assoc, splitOn_append, List.foldl_append, parts, List.reverse_reverse]

/-! ## Directories and last elements -/

theorem dir_free {e : String} (h : '/' ∉ e.toList) : dir e = "." := by
  simp [dir, splitOn_free h]

theorem dir_spell {es : List String} {e : String} (h : ∀ x ∈ es ++ [e], IsName x) : dir (spell false (es ++ [e])) = spell false es := by
  have hel : ∀ x ∈ es ++ [e], IsElement x := fun x hx => (h x hx).1
  rw [spell_false (by simp) hel]
  have hsplit := @splitOn_intercalate (es ++ [e]) (by simp) fun x hx => (hel x hx).2.2
  unfold dir
  rw [hsplit]
  cases hes : es with
  | nil => rfl
  | cons f rest =>
    rw [← hes, if_neg (by simp [hes]), List.dropLast_concat]
    have hne : es ≠ [] := by simp [hes]
    have hnames : ∀ x ∈ es, IsName x := fun x hx => h x (List.mem_append_left _ hx)
    have hspell := spell_false hne fun x hx => (hnames x hx).1
    have hclean : clean ("/".intercalate es ++ "/") = clean (spell false es) := by
      rw [← hspell, clean_eq, clean_eq, isAbsolute_append (spell_ne _ _), parts, isAbsolute_append (spell_ne _ _), parts]
      have := splitOn_append (spell false es) ""
      rw [String.append_empty, splitOn_free (s := "") (by simp)] at this
      rw [this, List.foldl_append]
      simp [cleanStep]
    rw [hclean]
    exact clean_spell (tidy_of_names hnames)

theorem dir_ne (p : String) : dir p ≠ "" := by
  unfold dir
  dsimp only
  split
  · decide
  · exact clean_ne _

theorem base_spell {rooted : Bool} {es : List String} {e : String} (h : ∀ x ∈ es ++ [e], IsElement x) :
    base (spell rooted (es ++ [e])) = e := by
  have he := h e (by simp)
  obtain ⟨pre, hpre, hfree⟩ : ∃ pre, spell rooted (es ++ [e]) = pre ++ e ∧ (pre = "" ∨ ∃ q, pre = q ++ "/") := by
    have hbody : ∃ pre, "/".intercalate (es ++ [e]) = pre ++ e ∧ (pre = "" ∨ ∃ q, pre = q ++ "/") := by
      cases hes : es with
      | nil => exact ⟨"", by simp, .inl rfl⟩
      | cons f rest =>
        rw [← hes]
        refine ⟨"/".intercalate es ++ "/", ?_, .inr ⟨_, rfl⟩⟩
        rw [String.intercalate_append_of_ne_nil (by simp [hes]) (by simp)]
        simp
    obtain ⟨pre, hpre, hq⟩ := hbody
    cases rooted with
    | true =>
      refine ⟨"/" ++ pre, by rw [spell, if_pos rfl, hpre, String.append_assoc], .inr ?_⟩
      rcases hq with rfl | ⟨q, rfl⟩
      · exact ⟨"", by simp⟩
      · exact ⟨"/" ++ q, by rw [String.append_assoc]⟩
    | false => exact ⟨pre, by rw [spell_false (by simp) h, hpre], hq⟩
  have htrim : trimRight (pre ++ e) (· == '/') = pre ++ e := by
    obtain ⟨cs, c, hc⟩ : ∃ cs c, e.toList = cs ++ [c] := by
      have hne : e.toList ≠ [] := fun h => he.1 (String.toList_injective h)
      exact ⟨_, _, (List.dropLast_append_getLast hne).symm⟩
    have hcs : ¬ c = '/' := fun h => he.2.2 (by simp [hc, h])
    apply String.toList_injective
    simp [trimRight, hc, hcs]
  have hne : pre ++ e ≠ "" := by simp [he.1]
  rw [base, hpre, if_neg hne]
  simp only [htrim, if_neg hne]
  rcases hfree with rfl | ⟨q, rfl⟩
  · simp [lastElement, splitOn_free he.2.2]
  · have := lastElement_append (c := '/') (a := q) he.2.2
    rwa [show String.singleton '/' = "/" from rfl] at this

/-! ## Ways -/

/-- a way leaves its place when it begins with a step up -/
theorem leaves_intercalate {e : String} {es : List String} (h : ∀ x ∈ e :: es, '/' ∉ x.toList) :
    leaves ("/".intercalate (e :: es)) = true ↔ e = ".." := by
  have hsplit := @splitOn_intercalate (e :: es) (by simp) h
  unfold leaves
  rw [Bool.or_eq_true, decide_eq_true_eq, startsWith_iff]
  constructor
  · rintro (hup | ⟨rest, hrest⟩)
    · rw [hup, splitOn_free (by simp)] at hsplit
      exact (List.cons.inj hsplit).1.symm
    · rw [hrest, show "../" ++ rest = ".." ++ "/" ++ rest from rfl, splitOn_append, splitOn_free (s := "..") (by simp)] at hsplit
      exact (List.cons.inj hsplit).1.symm
  · rintro rfl
    cases es with
    | nil => exact .inl (by simp)
    | cons f es => exact .inr ⟨"/".intercalate (f :: es), by rw [String.intercalate_cons_cons]; rfl⟩

theorem leaves_spell {es : List String} (h : ∀ x ∈ es, IsElement x) : leaves (spell false es) = true ↔ es.head? = some ".." := by
  cases es with
  | nil => decide
  | cons e es => rw [spell_false (by simp) h, leaves_intercalate fun x hx => (h x hx).2.2]; simp

theorem dropCommon_spec (as bs : List String) :
    ∃ common, as = common ++ (dropCommon as bs).1 ∧ bs = common ++ (dropCommon as bs).2 := by
  induction as generalizing bs with
  | nil => exact ⟨[], rfl, rfl⟩
  | cons a as ih =>
    cases bs with
    | nil => exact ⟨[], rfl, rfl⟩
    | cons b bs =>
      rw [dropCommon]
      split
      · rename_i hab
        obtain ⟨common, h₁, h₂⟩ := ih bs
        exact ⟨a :: common, by rw [List.cons_append, ← h₁], by rw [List.cons_append, ← h₂, hab]⟩
      · exact ⟨[], rfl, rfl⟩

theorem dropCommon_append (as bs : List String) : dropCommon as (as ++ bs) = ([], bs) := by
  induction as with
  | nil => cases bs <;> rfl
  | cons a as ih => rw [List.cons_append, dropCommon, if_pos rfl, ih]

/-- **A way that does not leave its place leads down.** -/
theorem relative_leaves {root full : String} (h : leaves (relative root full) = false) :
    ∃ down, parts full = parts root ++ down ∧ ∀ e ∈ down, e ≠ ".." := by
  unfold relative at h
  rw [elements_clean, elements_clean] at h
  obtain ⟨common, hroot, hfull⟩ := dropCommon_spec (parts root) (parts full)
  generalize dropCommon (parts root) (parts full) = d at h hroot hfull
  obtain ⟨up, down⟩ := d
  simp only at h hroot hfull
  have hslash : ∀ x ∈ up.map (fun _ => "..") ++ down, '/' ∉ x.toList := by
    intro x hx
    rcases List.mem_append.1 hx with hx | hx
    · obtain ⟨-, -, rfl⟩ := List.mem_map.1 hx
      decide
    · exact (isElement_of_parts (hfull ▸ List.mem_append_right common hx)).2.2
  cases up with
  | cons u up =>
    simp only [List.map_cons, List.cons_append] at h hslash
    rw [if_neg (by simp), (leaves_intercalate hslash).2 rfl] at h
    cases h
  | nil =>
    rw [List.append_nil] at hroot
    refine ⟨down, by rw [hroot, hfull], ?_⟩
    cases down with
    | nil => simp
    | cons e down =>
      simp only [List.map_nil, List.nil_append] at h hslash
      have he : e ≠ ".." := by
        intro he
        rw [if_neg (by simp), (leaves_intercalate hslash).2 he] at h
        cases h
      have htidy := parts_tidy full
      rw [hfull, List.reverse_append, List.reverse_cons, List.append_assoc] at htidy
      have := htidy.names he
      simpa [he] using this

/-! ## Below a place -/

/-- a clean path leads down from another by names -/
def Below (root full : String) : Prop :=
  clean full = full ∧ isAbsolute full = isAbsolute root ∧
    ∃ down, elements full = elements root ++ down ∧ down ≠ [] ∧ ∀ e ∈ down, IsName e

theorem Below.ne {root full : String} (h : Below root full) : full ≠ root := by
  obtain ⟨-, -, down, hdown, hne, -⟩ := h
  rintro rfl
  exact hne (by simpa using hdown)

theorem elements_append (a b : String) : elements (a ++ "/" ++ b) = elements a ++ elements b := by
  simp only [elements, splitOn_append, List.filter_append]

/-- what lies above a place does not lie inside it -/
theorem Below.not_inside {root full : String} (h : Below root full) : startsWith root (full ++ "/") = false := by
  obtain ⟨-, -, down, hdown, hne, -⟩ := h
  rw [Bool.eq_false_iff]
  intro hin
  obtain ⟨rest, hrest⟩ := startsWith_iff.1 hin
  have := congrArg List.length hdown
  rw [hrest, elements_append] at this
  have hpos := List.length_pos_of_ne_nil hne
  simp only [List.length_append] at this
  omega

theorem below_spell {root : String} {names : List String} (hne : names ≠ []) (hn : ∀ e ∈ names, IsName e) :
    Below (clean root) (spell (isAbsolute root) (parts root ++ names)) := by
  have htidy : Tidy (isAbsolute root) (parts root ++ names).reverse := by
    rw [List.reverse_append]
    exact tidy_append (by simpa using hn) (parts_tidy root)
  have hel : ∀ e ∈ parts root ++ names, IsElement e := fun e he => htidy.isElement (List.mem_reverse.2 he)
  exact ⟨clean_spell htidy, by rw [isAbsolute_spell hel, isAbsolute_clean], names, by rw [elements_spell hel, elements_clean], hne, hn⟩

end Path

end Schemata
