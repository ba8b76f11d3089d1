import Mathlib.Data.List.TakeWhile
import Mathlib.Tactic
import Schemata.Proofs.Source.LoadScan

/-!
What it is to divide a text into loads and words.

A load is `require("p").Name`: the path has no quote mark and is not empty, the name goes on as long as it can. `Divided`
says, without reference to how loads are searched, that a list of pieces is the division of a text: words in which no load
begins, seen with the text behind them, alternate with loads. Main result: `pieces_eq_iff`, the search yields the one
division that a text has.
-/

namespace Schemata.Source

/-- what a load is made of -/
structure IsLoad (path name : String) : Prop where
  path_ne : path ≠ ""
  quoteless : '"' ∉ path.toList
  named : isName name = true

def loadText (path name : String) : String := "require(\"" ++ path ++ "\")." ++ name

/-- does a load begin where a text begins? -/
def LoadBegins (cs : List Char) : Prop :=
  ∃ path name rest, IsLoad path name ∧ cs = (loadText path name).toList ++ rest

/-- does a text begin with none of the characters of names? -/
def NameStops (cs : List Char) : Prop := ∀ c, cs.head? = some c → isIdentChar c = false

def Piece.isWords : Piece → Bool
  | words _ => true
  | load _ _ => false

/-- a text divided into its loads, found from left to right, and the words between them -/
inductive Divided : List Char → List Piece → Prop
  | nil : Divided [] []
  | load {path name : String} {rest : List Char} {ps : List Piece} (hload : IsLoad path name) (hstop : NameStops rest)
      (hrest : Divided rest ps) : Divided ((loadText path name).toList ++ rest) (.load path name :: ps)
  | words {xs rest : List Char} {ps : List Piece} (hne : xs ≠ [])
      (hfree : ∀ x', x' <:+ xs → x' ≠ [] → ¬ LoadBegins (x' ++ rest)) (hwhole : ∀ p, ps.head? = some p → p.isWords = false)
      (hrest : Divided rest ps) : Divided (xs ++ rest) (.words (String.ofList xs) :: ps)

/-! ## Names -/

theorem isName_iff {name : String} :
    isName name = true ↔ ∃ c r, name.toList = c :: r ∧ isIdentStart c = true ∧ ∀ d ∈ r, isIdentChar d = true := by
  unfold isName
  split
  · rename_i h
    simp [h]
  · rename_i c r h
    simp [h]

theorem isIdentChar_of_start {c : Char} (h : isIdentStart c = true) : isIdentChar c = true := by
  simp only [isIdentStart, Bool.or_eq_true] at h
  simp only [isIdentChar, Char.isAlphanum, Bool.or_eq_true]
  tauto

theorem isIdentChar_of_isName {name : String} (h : isName name = true) {c : Char} (hc : c ∈ name.toList) :
    isIdentChar c = true := by
  obtain ⟨d, r, hn, hd, hr⟩ := isName_iff.1 h
  rw [hn] at hc
  rcases List.mem_cons.1 hc with rfl | hc
  · exact isIdentChar_of_start hd
  · exact hr c hc

/-- a name goes on with the characters of names -/
theorem isName_append {name : String} (h : isName name = true) {s : String} (hs : ∀ c ∈ s.toList, isIdentChar c = true) :
    isName (name ++ s) = true := by
  obtain ⟨c, r, hn, hc, hr⟩ := isName_iff.1 h
  refine isName_iff.2 ⟨c, r ++ s.toList, by simp [hn], hc, fun d hd => ?_⟩
  exact (List.mem_append.1 hd).elim (hr d) (hs d)

theorem nameStops_dropWhile (cs : List Char) : NameStops (cs.dropWhile isIdentChar) := fun c hc => by
  have := List.head?_dropWhile_not isIdentChar cs
  simpa [hc] using this

theorem span_name {xs ys : List Char} (hx : ∀ c ∈ xs, isIdentChar c = true) (hy : NameStops ys) :
    (xs ++ ys).takeWhile isIdentChar = xs ∧ (xs ++ ys).dropWhile isIdentChar = ys := by
  rw [List.takeWhile_append_of_pos hx, List.dropWhile_append_of_pos hx]
  cases ys with
  | nil => simp
  | cons y ys => simp [hy y rfl]

/-! ## One load -/

theorem toList_loadText (path name : String) : (loadText path name).toList =
    "require(\"".toList ++ (path.toList ++ ("\").".toList ++ name.toList)) := by
  simp only [loadText, String.toList_append, List.append_assoc]

theorem scanLoad?_of_isLoad {path name : String} {rest : List Char} (h : IsLoad path name) (hstop : NameStops rest) :
    scanLoad? ((loadText path name).toList ++ rest) = some (path, name, rest) := by
  obtain ⟨c, r, hn, hc, -⟩ := isName_iff.1 h.named
  have hdrop : Text.dropPrefix? "require(\"".toList ((loadText path name).toList ++ rest) =
      some (path.toList ++ '"' :: (").".toList ++ (name.toList ++ rest))) :=
    dropPrefix?_eq_some.2 (by
      rw [toList_loadText]
      simp only [List.append_assoc]
      rfl)
  obtain ⟨htake, hbehind⟩ := takeWhile_quote h.quoteless (").".toList ++ (name.toList ++ rest))
  have hclose : Text.dropPrefix? "\").".toList ('"' :: (").".toList ++ (name.toList ++ rest))) =
      some (c :: (r ++ rest)) := dropPrefix?_eq_some.2 (by rw [hn]; rfl)
  obtain ⟨hword, hleft⟩ := span_name (fun d hd => isIdentChar_of_isName h.named hd) hstop
  rw [hn, List.cons_append] at hword hleft
  have hne : path.toList.isEmpty = false := by simpa using h.path_ne
  have hback : String.ofList (c :: r) = name := by rw [← hn, String.ofList_toList]
  simp only [scanLoad?, hdrop, htake, hbehind, hne, hclose, hc, if_true, hword, hleft, hback, String.ofList_toList]

theorem isLoad_of_scanLoad? {cs rest : List Char} {path name : String} (h : scanLoad? cs = some (path, name, rest)) :
    IsLoad path name ∧ NameStops rest ∧ cs = (loadText path name).toList ++ rest := by
  unfold scanLoad? at h
  split at h
  · cases h
  · rename_i r hopen
    have hcs := dropPrefix?_eq_some.1 hopen
    dsimp only at h
    split at h
    · rename_i c r2 hp hclose
      have hr := dropPrefix?_eq_some.1 hclose
      split at h
      · rename_i hc
        obtain ⟨rfl, rfl, rfl⟩ : String.ofList (r.takeWhile (· != '"')) = path ∧
            String.ofList ((c :: r2).takeWhile isIdentChar) = name ∧ (c :: r2).dropWhile isIdentChar = rest := by
          simpa only [Option.some.injEq, Prod.mk.injEq] using h
        have hname : isName (String.ofList ((c :: r2).takeWhile isIdentChar)) = true :=
          isName_iff.2 ⟨c, r2.takeWhile isIdentChar, by simp [isIdentChar_of_start hc], hc,
            fun d hd => List.mem_takeWhile_imp hd⟩
        refine ⟨⟨by simpa using hp, fun hq => ?_, hname⟩, nameStops_dropWhile _, ?_⟩
        · rw [String.toList_ofList] at hq
          simpa using List.mem_takeWhile_imp hq
        · have hsplit : r = r.takeWhile (· != '"') ++ ("\").".toList ++ (c :: r2)) := by
            rw [← hr, List.takeWhile_append_dropWhile]
          have hpath : (String.ofList (r.takeWhile (· != '"'))).toList = r.takeWhile (· != '"') := String.toList_ofList
          have hword : (String.ofList ((c :: r2).takeWhile isIdentChar)).toList = (c :: r2).takeWhile isIdentChar :=
            String.toList_ofList
          rw [hcs, toList_loadText, hpath, hword, List.append_assoc, List.append_assoc, List.append_assoc,
            List.takeWhile_append_dropWhile, ← hsplit]
      · cases h
    · cases h

theorem loadBegins_iff {cs : List Char} : LoadBegins cs ↔ (scanLoad? cs).isSome = true := by
  constructor
  · rintro ⟨path, name, rest, h, rfl⟩
    -- the name of the load that is found goes on as long as it can
    have hlong : IsLoad path (name ++ String.ofList (rest.takeWhile isIdentChar)) := by
      refine ⟨h.path_ne, h.quoteless, isName_append h.named fun c hc => ?_⟩
      rw [String.toList_ofList] at hc
      exact List.mem_takeWhile_imp hc
    have htext : (loadText path name).toList ++ rest =
        (loadText path (name ++ String.ofList (rest.takeWhile isIdentChar))).toList ++ rest.dropWhile isIdentChar := by
      simp only [toList_loadText, String.toList_append, String.toList_ofList, List.append_assoc,
        List.takeWhile_append_dropWhile]
    rw [htext, scanLoad?_of_isLoad hlong (nameStops_dropWhile rest)]
    rfl
  · intro h
    obtain ⟨⟨path, name, rest⟩, hs⟩ := Option.isSome_iff_exists.1 h
    obtain ⟨hload, -, hcs⟩ := isLoad_of_scanLoad? hs
    exact ⟨path, name, rest, hload, hcs⟩

theorem inert_iff {xs ys : List Char} : Inert xs ys ↔ ∀ x', x' <:+ xs → x' ≠ [] → ¬ LoadBegins (x' ++ ys) := by
  simp only [Inert, loadBegins_iff, Option.not_isSome_iff_eq_none]

theorem inert_nil (ys : List Char) : Inert [] ys := fun _ hx hne => absurd (List.suffix_nil.1 hx) hne

/-! ## The search -/

/-- the words that a search has gone over -/
def wordsBefore (acc : List Char) : List Piece := if acc.isEmpty then [] else [.words (String.ofList acc.reverse)]

theorem pieces_isLoad {path name : String} {rest : List Char} (h : IsLoad path name) (hstop : NameStops rest)
    (acc : List Char) :
    pieces acc 0 ((loadText path name).toList ++ rest) = wordsBefore acc ++ .load path name :: pieces [] 0 rest := by
  have hscan := scanLoad?_of_isLoad h hstop
  obtain ⟨xs, hxs⟩ : ∃ xs, (loadText path name).toList = 'r' :: xs :=
    ⟨(loadText path name).toList.tail, by rw [toList_loadText]; rfl⟩
  rw [hxs, List.cons_append] at hscan ⊢
  have hlen : (xs ++ rest).length - rest.length = xs.length := by simp
  simp only [pieces, beq_self_eq_true, if_true, hscan, hlen, pieces_skip, wordsBefore]

theorem pieces_of_divided {cs : List Char} {ps : List Piece} (h : Divided cs ps) (acc : List Char)
    (hacc : acc = [] ∨ ∀ p, ps.head? = some p → p.isWords = false) : pieces acc 0 cs = wordsBefore acc ++ ps := by
  induction h generalizing acc with
  | nil => simp [pieces, wordsBefore]
  | load hload hstop _ ih =>
    rw [pieces_isLoad hload hstop, ih [] (.inl rfl)]
    rfl
  | @words xs rest ps hne hfree hwhole _ ih =>
    obtain rfl : acc = [] := hacc.resolve_right fun h => by simpa [Piece.isWords] using h _ rfl
    rw [pieces_inert (inert_iff.2 hfree), ih _ (.inr hwhole)]
    simp [wordsBefore, hne]

/-- the words gone over, put before the division of what is left -/
theorem divided_wordsBefore {acc rest : List Char} {ps : List Piece} (hin : Inert acc.reverse rest)
    (hwhole : ∀ p, ps.head? = some p → p.isWords = false) (hrest : Divided rest ps) :
    Divided (acc.reverse ++ rest) (wordsBefore acc ++ ps) := by
  by_cases hacc : acc = []
  · simpa [hacc, wordsBefore] using hrest
  · have := Divided.words (by simpa using hacc) (inert_iff.1 hin) hwhole hrest
    simpa [wordsBefore, hacc] using this

theorem divided_pieces (cs acc : List Char) (h : Inert acc.reverse cs) :
    Divided (acc.reverse ++ cs) (pieces acc 0 cs) := by
  induction hn : cs.length using Nat.strong_induction_on generalizing cs acc with
  | _ n ih =>
    cases cs with
    | nil => simpa [pieces, wordsBefore] using divided_wordsBefore h (by simp) .nil
    | cons c cs =>
      cases hs : scanLoad? (c :: cs) with
      | none =>
        have hstep : pieces acc 0 (c :: cs) = pieces (c :: acc) 0 cs := by simp [pieces, hs]
        have hin : Inert (c :: acc).reverse cs := by
          rw [List.reverse_cons, inert_append]
          exact ⟨h, inert_cons.2 ⟨hs, inert_nil cs⟩⟩
        rw [hstep]
        simpa using ih cs.length (by simp [← hn]) cs (c :: acc) hin rfl
      | some found =>
        obtain ⟨path, name, rest⟩ := found
        obtain ⟨hload, hstop, hcs⟩ := isLoad_of_scanLoad? hs
        have hshort : rest.length < n := by
          have := congrArg List.length hcs
          rw [toList_loadText] at this
          simp at this hn
          omega
        have hrest := ih rest.length hshort rest [] (inert_nil rest) rfl
        rw [hcs] at h ⊢
        rw [pieces_isLoad hload hstop]
        exact divided_wordsBefore h (by simp [Piece.isWords]) (.load hload hstop hrest)

/-- **Loads of a text.** The search finds one list of pieces, and it is the one division that the text has. -/
theorem pieces_eq_iff {cs : List Char} {ps : List Piece} : pieces [] 0 cs = ps ↔ Divided cs ps := by
  constructor
  · rintro rfl
    exact divided_pieces cs [] (inert_nil cs)
  · intro h
    exact pieces_of_divided h [] (.inl rfl)

end Schemata.Source
