import Mathlib.Tactic
import Schemata.Registry
import Schemata.Proofs.Json.Reading

/-!
Resolving placeholders in texts.

A pass puts names for the tokens of a text, from the left. In a JSON text a token stands inside one string, so a pass
over a document works string by string (`fill_written`), and what is read from the resolved text of a document is the
document with its strings resolved (`parse_resolved`). A string without tokens stays as it is (`settles_free`), and one
that ends in a token takes its name there (`settles_token`).

The tokens of a document's text are those of its strings, one string after the other (`tokens_written`). So resolving a
document succeeds exactly when each of its strings resolves to a text without tokens (`resolve_ok_iff`).
-/

namespace Schemata.Placeholder

/-! ## Tokens -/

/-- digits and an attribute that a token can hold -/
structure IsToken (ds attr : List Char) : Prop where
  digits : ds ≠ []
  digit : ∀ c ∈ ds, c.isDigit = true
  start : ∃ c cs, attr = c :: cs ∧ isNameStart c = true
  name : ∀ c ∈ attr, isNameChar c = true

/-- the characters of a token -/
def tokenChars (ds attr : List Char) : List Char := '{' :: '{' :: (ds ++ ':' :: (attr ++ ['}', '}']))

theorem isNameChar_of_start {c : Char} (h : isNameStart c = true) : isNameChar c = true := by
  simp only [isNameStart, Bool.or_eq_true] at h
  simp only [isNameChar, Char.isAlphanum, Bool.or_eq_true]
  tauto

/-- a token at the start of a text is what the scanner finds there -/
theorem scan?_token {ds attr : List Char} (h : IsToken ds attr) (rest : List Char) :
    scan? (tokenChars ds attr ++ rest) = some (ds, attr, rest) := by
  obtain ⟨hne, hds, ⟨c, cs, rfl, hc⟩, hattr⟩ := h
  have hd := Text.takeWhile_stop hds (show Char.isDigit ':' = false by decide) ((c :: cs) ++ '}' :: '}' :: rest)
  have ha := Text.takeWhile_stop hattr (show isNameChar '}' = false by decide) ('}' :: rest)
  have hshape : tokenChars ds (c :: cs) ++ rest = '{' :: '{' :: (ds ++ ':' :: ((c :: cs) ++ '}' :: '}' :: rest)) := by
    simp [tokenChars]
  rw [hshape]
  unfold scan?
  simp only [hd]
  cases ds with
  | nil => exact absurd rfl hne
  | cons d ds =>
    simp only [List.cons_append, hc, if_true]
    rw [← List.cons_append, ha.1, ha.2]
    rfl

theorem scan?_eq_some {cs ds attr rest : List Char} (h : scan? cs = some (ds, attr, rest)) :
    cs = tokenChars ds attr ++ rest ∧ IsToken ds attr := by
  unfold scan? at h
  split at h
  · rename_i r
    simp only at h
    split at h
    · simp at h
    · rename_i c r2 hr hne
      split at h
      · rename_i hc
        split at h
        · rename_i rest' hrest
          simp only [Option.some.injEq, Prod.mk.injEq] at h
          obtain ⟨rfl, rfl, rfl⟩ := h
          have h1 : r = r.takeWhile Char.isDigit ++ ':' :: c :: r2 := by
            rw [← hr, List.takeWhile_append_dropWhile]
          have h2 : c :: r2 = (c :: r2).takeWhile isNameChar ++ '}' :: '}' :: rest' := by
            rw [← hrest, List.takeWhile_append_dropWhile]
          refine ⟨?_, fun hnil => hne (by simpa using hnil), List.all_eq_true.1 List.all_takeWhile, ?_,
            List.all_eq_true.1 List.all_takeWhile⟩
          · simp only [tokenChars, List.cons_append, List.append_assoc, List.nil_append]
            rw [← h2]
            exact congrArg _ (congrArg _ h1)
          · exact ⟨c, _, List.takeWhile_cons_of_pos (isNameChar_of_start hc), hc⟩
        · simp at h
      · simp at h
    · simp at h
  · simp at h

theorem scan?_of_ne {c : Char} (h : c ≠ '{') (cs : List Char) : scan? (c :: cs) = none := by
  cases hs : scan? (c :: cs) with
  | none => rfl
  | some t =>
    obtain ⟨hc, -⟩ := scan?_eq_some hs
    exact absurd (List.cons.inj hc).1 h

theorem scan?_single {c : Char} (h : c ≠ '{') (cs : List Char) : scan? ('{' :: c :: cs) = none := by
  cases hs : scan? ('{' :: c :: cs) with
  | none => rfl
  | some t =>
    obtain ⟨hc, -⟩ := scan?_eq_some hs
    exact absurd (List.cons.inj (List.cons.inj hc).2).1 h

end Schemata.Placeholder

namespace Schemata.Registry

open Placeholder
open Text (escaped)

/-! ## One pass -/

/-- what a pass puts for a piece -/
def pieceText (r : Registry) : Piece → String
  | .words w => w
  | .token t p => (r.valueOf? p).getD t

/-- a pass over the characters of a text -/
def fill (r : Registry) (cs : List Char) : List Char := (pieces [] 0 cs).flatMap fun p => (r.pieceText p).toList

theorem pass_eq (r : Registry) (s : String) : r.pass s = String.ofList (r.fill s.toList) := by
  have hpass : r.pass s = String.join ((split s).map r.pieceText) := rfl
  apply String.toList_injective
  rw [hpass, String.toList_join, String.toList_ofList, fill, List.flatMap_map]
  rfl

@[simp] theorem toList_pass (r : Registry) (s : String) : (r.pass s).toList = r.fill s.toList := by
  rw [pass_eq, String.toList_ofList]

/-- characters that were read before stand in front of what the rest gives -/
theorem pieces_flatMap (f : Piece → List Char) (hf : ∀ w, f (.words w) = w.toList) (acc : List Char) (skip : Nat)
    (cs : List Char) : (pieces acc skip cs).flatMap f = acc.reverse ++ (pieces [] skip cs).flatMap f := by
  have hwords (acc : List Char) :
      (if acc.isEmpty then [] else [Piece.words (String.ofList acc.reverse)]).flatMap f = acc.reverse := by
    cases acc <;> simp [hf]
  induction cs generalizing acc skip with
  | nil =>
    simp only [pieces, hwords]
    simp
  | cons c cs ih =>
    cases skip with
    | succ skip =>
      rw [pieces, pieces]
      exact ih acc skip
    | zero =>
      simp only [pieces]
      split
      · simp only [List.flatMap_append, hwords]
        simp
      · rw [ih (c :: acc), ih [c]]
        simp

theorem pieces_skip (skip : Nat) (cs : List Char) : pieces [] skip cs = pieces [] 0 (cs.drop skip) := by
  induction cs generalizing skip with
  | nil => cases skip <;> rfl
  | cons c cs ih =>
    cases skip with
    | zero => rfl
    | succ skip => rw [pieces, ih, List.drop_succ_cons]

@[simp] theorem fill_nil (r : Registry) : r.fill [] = [] := rfl

theorem fill_cons (r : Registry) {c : Char} {cs : List Char} (h : scan? (c :: cs) = none) :
    r.fill (c :: cs) = c :: r.fill cs := by
  rw [fill, pieces]
  simp only [h]
  rw [pieces_flatMap _ fun _ => rfl]
  rfl

/-- what a pass puts for a token -/
def tokenValue (r : Registry) (ds attr : List Char) : List Char :=
  ((r.valueOf? ((idOf? ds).map fun n => ⟨n, String.ofList attr⟩)).getD (String.ofList (tokenChars ds attr))).toList

theorem pieces_token {ds attr : List Char} (h : IsToken ds attr) (rest : List Char) :
    pieces [] 0 (tokenChars ds attr ++ rest) =
      .token (String.ofList (tokenChars ds attr)) ((idOf? ds).map fun n => ⟨n, String.ofList attr⟩) ::
        pieces [] 0 rest := by
  have hscan := scan?_token h rest
  have hwhole : (tokenChars ds attr ++ rest).take ((tokenChars ds attr ++ rest).length - rest.length) =
      tokenChars ds attr := by
    rw [List.length_append, Nat.add_sub_cancel, List.take_left]
  obtain ⟨c, cs, hc⟩ : ∃ c cs, tokenChars ds attr = c :: cs := ⟨_, _, rfl⟩
  have hdrop : (cs ++ rest).drop ((tokenChars ds attr).length - 1) = rest := by
    rw [hc, List.length_cons, Nat.add_sub_cancel, List.drop_left]
  rw [hc, List.cons_append] at hscan hwhole ⊢
  simp only [pieces, hscan, hwhole, List.isEmpty_nil, if_true, List.nil_append]
  rw [pieces_skip, ← hc, hdrop]

theorem fill_token (r : Registry) {ds attr : List Char} (h : IsToken ds attr) (rest : List Char) :
    r.fill (tokenChars ds attr ++ rest) = r.tokenValue ds attr ++ r.fill rest := by
  rw [fill, pieces_token h, List.flatMap_cons]
  rfl

theorem fill_of_ne (r : Registry) {xs : List Char} (h : ∀ c ∈ xs, c ≠ '{') (rest : List Char) :
    r.fill (xs ++ rest) = xs ++ r.fill rest := by
  induction xs with
  | nil => rfl
  | cons c xs ih =>
    rw [List.cons_append, fill_cons r (scan?_of_ne (h c (by simp)) _), ih fun d hd => h d (List.mem_cons_of_mem c hd)]
    rfl

/-! ## The tokens of a text -/

/-- the nodes and attributes that the tokens of a text name, from the left -/
def tokensOf (cs : List Char) : List (Option Placeholder) :=
  (pieces [] 0 cs).filterMap fun | .words _ => none | .token _ p => some p

/-- words that were read before are no token -/
theorem tokens_acc {α : Type} (f : Piece → Option α) (hf : ∀ w, f (.words w) = none) (acc : List Char) (skip : Nat)
    (cs : List Char) : (pieces acc skip cs).filterMap f = (pieces [] skip cs).filterMap f := by
  have hwords (acc : List Char) :
      (if acc.isEmpty then [] else [Piece.words (String.ofList acc.reverse)]).filterMap f = [] := by
    cases acc <;> simp [hf]
  induction cs generalizing acc skip with
  | nil => simp only [pieces, hwords]
  | cons c cs ih =>
    cases skip with
    | succ skip =>
      rw [pieces, pieces]
      exact ih acc skip
    | zero =>
      simp only [pieces]
      split
      · rw [List.filterMap_append, List.filterMap_append, hwords, hwords]
      · rw [ih (c :: acc), ih [c]]

theorem tokensOf_cons {c : Char} {cs : List Char} (h : scan? (c :: cs) = none) : tokensOf (c :: cs) = tokensOf cs := by
  rw [tokensOf, pieces]
  simp only [h]
  exact tokens_acc _ (fun _ => rfl) [c] 0 cs

theorem tokensOf_token {ds attr : List Char} (h : IsToken ds attr) (rest : List Char) :
    tokensOf (tokenChars ds attr ++ rest) = ((idOf? ds).map fun n => ⟨n, String.ofList attr⟩) :: tokensOf rest := by
  rw [tokensOf, pieces_token h, List.filterMap_cons]
  rfl

theorem tokensOf_eq_nil {s : String} (h : occursIn s = false) : tokensOf s.toList = [] := by
  rw [tokensOf, List.filterMap_eq_nil_iff]
  intro p hp
  have := List.any_eq_false.1 h p hp
  cases p with
  | words w => rfl
  | token t p => simp at this

/-- a text without tokens stays as it is -/
theorem fill_of_free (r : Registry) {cs : List Char} (h : tokensOf cs = []) : r.fill cs = cs := by
  induction cs with
  | nil => rfl
  | cons c cs ih =>
    cases hs : scan? (c :: cs) with
    | none => rw [fill_cons r hs, ih (by rwa [tokensOf_cons hs] at h)]
    | some t =>
      obtain ⟨heq, htok⟩ := scan?_eq_some hs
      rw [heq, tokensOf_token htok] at h
      cases h

/-! ## Strings of documents -/

theorem isNameChar_digit {c : Char} (h : c.isDigit = true) : isNameChar c = true := by
  simp [isNameChar, Char.isAlphanum, h]

theorem isNameChar_range {c : Char} (h : isNameChar c = true) : 48 ≤ c.toNat ∧ c.toNat ≤ 122 := by
  have hupper : c.isUpper = decide (c.val ≥ 'A'.val ∧ c.val ≤ 'Z'.val) := rfl
  have hlower : c.isLower = (decide (c.val ≥ 'a'.val) && decide (c.val ≤ 'z'.val)) := rfl
  have halpha : c.isAlpha = (c.isUpper || c.isLower) := rfl
  simp only [isNameChar, Char.isAlphanum, halpha, hupper, hlower, Char.isDigit, Bool.or_eq_true,
    Bool.and_eq_true, decide_eq_true_eq, beq_iff_eq, UInt32.le_iff_toNat_le] at h
  have hn : c.toNat = c.val.toNat := rfl
  rcases h with ((h | h) | h) | rfl
  · simp at h; omega
  · simp at h; omega
  · simp at h; omega
  · decide

theorem needsEscape_word {c : Char} (h : isNameChar c = true) : Text.needsEscape c = false := by
  obtain ⟨hlo, hhi⟩ := isNameChar_range h
  by_contra hc
  simp only [Text.needsEscape, Bool.not_eq_false, Bool.or_eq_true, decide_eq_true_eq, beq_iff_eq] at hc
  rcases hc with ((((((hc | rfl) | rfl) | rfl) | rfl) | rfl) | hc) | hc
  · omega
  · exact absurd h (by decide)
  · exact absurd h (by decide)
  · exact absurd h (by decide)
  · exact absurd h (by decide)
  · exact absurd h (by decide)
  · omega
  · omega

/-- no character of a token is escaped -/
theorem needsEscape_token {ds attr : List Char} (h : IsToken ds attr) :
    ∀ c ∈ tokenChars ds attr, Text.needsEscape c = false := by
  intro c hc
  simp only [tokenChars, List.mem_cons, List.mem_append, List.not_mem_nil, or_false] at hc
  rcases hc with rfl | rfl | hc | rfl | hc | rfl | rfl
  · decide
  · decide
  · exact needsEscape_word (isNameChar_digit (h.digit c hc))
  · decide
  · exact needsEscape_word (h.name c hc)
  · decide
  · decide

/-- characters without escapes at the start of an escaped text are the text's own -/
theorem escaped_start {tok cs rest : List Char} (htok : ∀ c ∈ tok, Text.needsEscape c = false)
    (h : escaped cs = tok ++ rest) : ∃ more, cs = tok ++ more ∧ rest = escaped more := by
  induction tok generalizing cs with
  | nil => exact ⟨cs, rfl, h.symm⟩
  | cons c tok ih =>
    have hc := htok c (by simp)
    cases cs with
    | nil => cases h
    | cons d cs =>
      have hbackslash (xs : List Char) (hd : (Text.jsonChar d).toList = '\\' :: xs) : False := by
        rw [Text.escaped_cons, hd] at h
        obtain rfl : '\\' = c := (List.cons.inj h).1
        exact absurd hc (by decide)
      rcases Text.jsonChar_cases d with ⟨e, -, hd⟩ | ⟨-, -, -, hd⟩ | ⟨-, -, hd⟩
      · exact (hbackslash _ hd).elim
      · rw [Text.escaped_cons, hd] at h
        obtain ⟨rfl, htail⟩ := List.cons.inj h
        obtain ⟨more, rfl, hrest⟩ := ih (fun e he => htok e (List.mem_cons_of_mem _ he)) htail
        exact ⟨more, rfl, hrest⟩
      · exact (hbackslash _ hd).elim

theorem scan?_escaped {cs : List Char} (h : scan? cs = none) : scan? (escaped cs) = none := by
  cases he : scan? (escaped cs) with
  | none => rfl
  | some t =>
    obtain ⟨ds, attr, rest⟩ := t
    obtain ⟨heq, htok⟩ := scan?_eq_some he
    obtain ⟨more, rfl, -⟩ := escaped_start (needsEscape_token htok) heq
    rw [scan?_token htok] at h
    cases h

theorem jsonChar_ne_brace {c d : Char} (hc : c ≠ '{') (hd : d ∈ (Text.jsonChar c).toList) : d ≠ '{' := by
  rcases Text.jsonChar_cases c with ⟨e, he, h⟩ | ⟨-, -, -, h⟩ | ⟨hlt, -, h⟩
  · rw [h] at hd
    simp only [Text.stringLetters, List.mem_cons, Prod.mk.injEq, List.not_mem_nil, or_false] at he hd
    rcases hd with rfl | rfl
    · decide
    · rcases he with ⟨-, rfl⟩ | ⟨-, rfl⟩ | ⟨-, rfl⟩ | ⟨-, rfl⟩ | ⟨-, rfl⟩ <;> decide
  · rw [h] at hd
    obtain rfl : d = c := by simpa using hd
    exact hc
  · rw [h] at hd
    obtain ⟨ds, hds, hlt', -, -⟩ := Text.hex_digits hlt (by decide)
    rw [hds] at hd
    simp only [List.mem_cons, List.mem_map] at hd
    rcases hd with rfl | rfl | ⟨n, hn, rfl⟩
    · decide
    · decide
    · have := hlt' n hn
      interval_cases n <;> decide

/-- escaping a text without tokens makes none -/
theorem fill_escaped (r : Registry) {cs : List Char} (h : tokensOf cs = []) : r.fill (escaped cs) = escaped cs := by
  induction cs with
  | nil => rfl
  | cons c cs ih =>
    cases hs : scan? (c :: cs) with
    | some t =>
      obtain ⟨heq, htok⟩ := scan?_eq_some hs
      rw [heq, tokensOf_token htok] at h
      cases h
    | none =>
      have hnone := scan?_escaped hs
      rw [tokensOf_cons hs] at h
      rw [Text.escaped_cons] at hnone ⊢
      by_cases hc : c = '{'
      · subst hc
        have hself : (Text.jsonChar '{').toList = ['{'] := Text.jsonChar_self (by decide)
        rw [hself, List.singleton_append] at hnone ⊢
        rw [fill_cons r hnone, ih h]
      · rw [fill_of_ne r (fun d hd => jsonChar_ne_brace hc hd), ih h]

/-! ## Documents -/

open Json (Spelled Spells numerals numeralsOf numeralsIn mapStrings quoted written writtenItems writtenMembers plainly)

/-- a token ends before the closing quote of the string it stands in -/
theorem scan?_quote (cs tail : List Char) :
    scan? (cs ++ '"' :: tail) = (scan? cs).map fun (ds, attr, rest) => (ds, attr, rest ++ '"' :: tail) := by
  cases hs : scan? cs with
  | some t =>
    obtain ⟨ds, attr, rest⟩ := t
    obtain ⟨rfl, htok⟩ := scan?_eq_some hs
    rw [List.append_assoc, scan?_token htok]
    rfl
  | none =>
    cases he : scan? (cs ++ '"' :: tail) with
    | none => rfl
    | some t =>
      obtain ⟨ds, attr, rest⟩ := t
      obtain ⟨heq, htok⟩ := scan?_eq_some he
      rcases List.append_eq_append_iff.1 heq with ⟨more, hmore, htail⟩ | ⟨more, rfl, -⟩
      · cases more with
        | nil =>
          rw [List.append_nil] at hmore
          rw [← hmore, ← List.append_nil (tokenChars ds attr), scan?_token htok] at hs
          cases hs
        | cons c more =>
          obtain rfl : '"' = c := (List.cons.inj htail).1
          have := needsEscape_token htok '"' (by rw [hmore]; simp)
          exact absurd this (by decide)
      · rw [scan?_token htok] at hs
        cases hs

theorem fill_quote (r : Registry) (cs tail : List Char) :
    r.fill (cs ++ '"' :: tail) = r.fill cs ++ '"' :: r.fill tail := by
  induction hn : cs.length using Nat.strong_induction_on generalizing cs with
  | _ n ih =>
    subst hn
    cases hs : scan? cs with
    | some t =>
      obtain ⟨ds, attr, rest⟩ := t
      obtain ⟨rfl, htok⟩ := scan?_eq_some hs
      have hlen : rest.length < (tokenChars ds attr ++ rest).length := by
        simp only [tokenChars, List.length_append, List.length_cons]
        omega
      rw [List.append_assoc, fill_token r htok, fill_token r htok, ih rest.length hlen rest rfl, List.append_assoc]
    | none =>
      cases cs with
      | nil => exact fill_of_ne r (by simp : ∀ c ∈ ['"'], c ≠ '{') tail
      | cons c cs =>
        have hnone := scan?_quote (c :: cs) tail
        rw [hs, List.cons_append] at hnone
        rw [List.cons_append, fill_cons r hnone, fill_cons r hs, ih cs.length (by simp) cs rfl]
        rfl

theorem fill_quoted (r : Registry) (cs rest : List Char) :
    r.fill (quoted cs ++ rest) = quoted (r.fill cs) ++ r.fill rest := by
  have hopen := fill_cons r (scan?_of_ne (by decide : '"' ≠ '{') (cs ++ '"' :: rest))
  rw [fill_quote] at hopen
  simpa [quoted] using hopen

theorem fill_plain (r : Registry) {c : Char} (hc : c ≠ '{') (cs : List Char) : r.fill (c :: cs) = c :: r.fill cs :=
  fill_cons r (scan?_of_ne hc cs)

theorem spelled_ne_brace {t : String} (h : Spelled t) : ∀ c ∈ t.toList, c ≠ '{' := by
  rintro c hc rfl
  exact absurd (h.2 _ hc) (by decide)

mutual

/-- **A pass works string by string.** -/
theorem fill_written (r : Registry) (w : String → List Char) : ∀ {j : Json}, (∀ t ∈ j.numerals, Spelled t) →
    ∀ rest, r.fill (written w j ++ rest) = written (r.fill ∘ w) j ++ r.fill rest
  | .null, _ => fill_of_ne r (by simp : ∀ c ∈ ['n', 'u', 'l', 'l'], c ≠ '{')
  | .bool true, _ => fill_of_ne r (by simp : ∀ c ∈ ['t', 'r', 'u', 'e'], c ≠ '{')
  | .bool false, _ => fill_of_ne r (by simp : ∀ c ∈ ['f', 'a', 'l', 's', 'e'], c ≠ '{')
  | .number t, ht => fill_of_ne r (spelled_ne_brace (ht t (by simp [numerals])))
  | .string s, _ => fill_quoted r (w s)
  | .array [], _ => fill_of_ne r (by simp : ∀ c ∈ ['[', ']'], c ≠ '{')
  | .array (x :: xs), ht => fun rest => by
    have hx := fill_written r w (j := x) (fun t h => ht t (by simp [numerals, numeralsOf, h]))
    have hxs (rest : List Char) : r.fill (writtenItems w xs ++ rest) = writtenItems (r.fill ∘ w) xs ++ r.fill rest :=
      fill_items r w (fun t h => ht t (by simp [numerals, numeralsOf, h])) rest
    rw [written, written]
    simp only [List.cons_append, List.append_assoc, List.nil_append]
    rw [fill_plain r (by decide), hx, hxs, fill_plain r (by decide)]
  | .object [], _ => fun rest => by
    have hopen := fill_cons r (scan?_single (by decide : '}' ≠ '{') rest)
    exact hopen.trans (congrArg _ (fill_plain r (by decide) rest))
  | .object ((k, x) :: fs), ht => fun rest => by
    have hx := fill_written r w (j := x) (fun t h => ht t (by simp [numerals, numeralsIn, h]))
    have hfs (rest : List Char) :
        r.fill (writtenMembers w fs ++ rest) = writtenMembers (r.fill ∘ w) fs ++ r.fill rest :=
      fill_members r w (fun t h => ht t (by simp [numerals, numeralsIn, h])) rest
    have hopen (cs : List Char) : r.fill ('{' :: (quoted (w k) ++ cs)) = '{' :: r.fill (quoted (w k) ++ cs) :=
      fill_cons r (scan?_single (by decide : '"' ≠ '{') _)
    rw [written, written]
    simp only [List.cons_append, List.append_assoc, List.nil_append]
    rw [hopen, fill_quoted, fill_plain r (by decide), hx, hfs, fill_plain r (by decide)]
    rfl

theorem fill_items (r : Registry) (w : String → List Char) : ∀ {xs : List Json}, (∀ t ∈ numeralsOf xs, Spelled t) →
    ∀ rest, r.fill (writtenItems w xs ++ rest) = writtenItems (r.fill ∘ w) xs ++ r.fill rest
  | [], _ => fun rest => rfl
  | x :: xs, ht => fun rest => by
    have hx := fill_written r w (j := x) (fun t h => ht t (by simp [numeralsOf, h]))
    have hxs (rest : List Char) : r.fill (writtenItems w xs ++ rest) = writtenItems (r.fill ∘ w) xs ++ r.fill rest :=
      fill_items r w (fun t h => ht t (by simp [numeralsOf, h])) rest
    rw [writtenItems, writtenItems]
    simp only [List.cons_append, List.append_assoc]
    rw [fill_plain r (by decide), hx, hxs]

theorem fill_members (r : Registry) (w : String → List Char) :
    ∀ {fs : List (String × Json)}, (∀ t ∈ numeralsIn fs, Spelled t) →
      ∀ rest, r.fill (writtenMembers w fs ++ rest) = writtenMembers (r.fill ∘ w) fs ++ r.fill rest
  | [], _ => fun rest => rfl
  | (k, x) :: fs, ht => fun rest => by
    have hx := fill_written r w (j := x) (fun t h => ht t (by simp [numeralsIn, h]))
    have hfs (rest : List Char) :
        r.fill (writtenMembers w fs ++ rest) = writtenMembers (r.fill ∘ w) fs ++ r.fill rest :=
      fill_members r w (fun t h => ht t (by simp [numeralsIn, h])) rest
    rw [writtenMembers, writtenMembers]
    simp only [List.cons_append, List.append_assoc]
    rw [fill_plain r (by decide), fill_quoted, fill_plain r (by decide), hx, hfs]
    rfl

end

/-- how a string stands in the text of a document after a number of passes -/
def settled (r : Registry) (n : Nat) (s : String) : List Char := r.fill^[n] (plainly s)

theorem passes_text (r : Registry) {j : Json} (hj : ∀ t ∈ j.numerals, Spelled t) (n : Nat)
    (seen : List (String × String)) : (r.passes n j.text seen).1 = String.ofList (written (r.settled n) j) := by
  have key (w : String → List Char) (n : Nat) (seen : List (String × String)) :
      (r.passes n (String.ofList (written w j)) seen).1 = String.ofList (written (fun s => r.fill^[n] (w s)) j) := by
    induction n generalizing w seen with
    | zero => rw [passes]; rfl
    | succ n ih =>
      have h := fill_written r w hj []
      rw [List.append_nil, fill_nil, List.append_nil] at h
      rw [passes, pass_eq, String.toList_ofList, h, ih]
      rfl
  have htext : j.text = String.ofList (written plainly j) := by rw [← Json.text_eq, String.ofList_toList]
  rw [htext, key]
  rfl

theorem findSome_token (cs : List Char) :
    ((pieces [] 0 cs).findSome? fun | .words _ => none | .token _ p => some (p.getD ⟨0, ""⟩)) = none ↔ tokensOf cs = [] := by
  rw [List.findSome?_eq_none_iff, tokensOf, List.filterMap_eq_nil_iff]
  refine forall_congr' fun p => forall_congr' fun _ => ?_
  cases p <;> simp

theorem passes_eq (r : Registry) (n : Nat) (text : String) (seen : List (String × String)) :
    r.passes n text seen = (r.pass^[n] text, seen ++ (List.range n).flatMap fun k => r.applied (r.pass^[k] text)) := by
  induction n generalizing text seen with
  | zero => simp [passes]
  | succ n ih =>
    rw [passes, ih, List.range_succ_eq_map, List.flatMap_cons, List.flatMap_map, List.append_assoc]
    rfl

theorem toList_passes (r : Registry) (n : Nat) (text : String) : (r.pass^[n] text).toList = r.fill^[n] text.toList := by
  induction n generalizing text with
  | zero => rfl
  | succ n ih => rw [Function.iterate_succ_apply, Function.iterate_succ_apply, ih, toList_pass]

/-- resolving makes its passes, and fails on a token that they leave -/
theorem resolve_cases (r : Registry) (text : String) :
    tokensOf (r.finalize.passes maxPasses text []).1.toList = [] ∧
        (r.resolve text).2 =
          .ok ((r.finalize.passes maxPasses text []).1, Dict.ofList (r.finalize.passes maxPasses text []).2) ∨
      tokensOf (r.finalize.passes maxPasses text []).1.toList ≠ [] ∧
        ∃ site, (r.resolve text).2 = failWith (.fault .referenceNotFound site) := by
  unfold resolve
  dsimp only
  generalize r.finalize.passes maxPasses text [] = done
  have hleft := findSome_token done.1.toList
  split
  · rename_i p hp
    refine .inr ⟨fun hnil => ?_, _, rfl⟩
    cases hp.symm.trans (hleft.2 hnil)
  · rename_i hp
    exact .inl ⟨hleft.1 hp, rfl⟩

/-- a string that resolves to a text -/
def Settles (r : Registry) (s t : String) : Prop := Spells (r.settled maxPasses s) t

/-- a resolved text is written with the strings that the strings of the document resolve to -/
theorem resolve_written {r : Registry} {j : Json} (hj : ∀ t ∈ j.numerals, Spelled t) {t : String} {seen : Dict String}
    (h : (r.resolve j.text).2 = .ok (t, seen)) : t.toList = written (r.finalize.settled maxPasses) j := by
  have hcases := r.resolve_cases j.text
  rw [passes_text r.finalize hj, h] at hcases
  rcases hcases with ⟨-, hok⟩ | ⟨-, site, hfail⟩
  · rw [(Prod.mk.inj (Except.ok.inj hok)).1, String.toList_ofList]
  · cases hfail

/-- **Resolving works string by string.** The document read from a resolved text has the strings that the strings of
the document resolve to. -/
theorem parse_resolved {r : Registry} {j j' : Json} {f : String → String} (hj : ∀ t ∈ j.numerals, Spelled t)
    (hr : ∀ s ∈ j.strings, r.finalize.Settles s (f s)) {t : String} {seen : Dict String}
    (h : (r.resolve j.text).2 = .ok (t, seen)) (hparse : Json.parse t = .ok j') : j' = mapStrings f j := by
  refine Json.parse_written hj hr ?_
  rwa [← resolve_written hj h, String.ofList_toList]

theorem settles_free (r : Registry) {s : String} (h : occursIn s = false) : r.Settles s s := by
  have hfix : r.settled maxPasses s = plainly s := by
    rw [settled, Function.iterate_fixed]
    exact fill_escaped r (tokensOf_eq_nil h)
  rw [Settles, hfix]
  exact Json.spells_escaped s

/-- what a text resolves to -/
theorem resolve_ok {r : Registry} {text out : String} {seen : Dict String} (h : (r.resolve text).2 = .ok (out, seen)) :
    r.finalize.fill^[maxPasses] text.toList = out.toList := by
  have hcases := r.resolve_cases text
  rw [h, passes_eq] at hcases
  rcases hcases with ⟨-, hok⟩ | ⟨-, site, hfail⟩
  · rw [(Prod.mk.inj (Except.ok.inj hok)).1, toList_passes]
  · cases hfail

theorem resolve_of_fill {r : Registry} {text out : String} (h : r.finalize.fill^[maxPasses] text.toList = out.toList)
    (hfree : tokensOf out.toList = []) : ∃ seen, (r.resolve text).2 = .ok (out, seen) := by
  have hcases := r.resolve_cases text
  simp only [passes_eq, toList_passes, h] at hcases
  have hout : r.finalize.pass^[maxPasses] text = out := String.toList_injective (by rw [toList_passes, h])
  rcases hcases with ⟨-, hok⟩ | ⟨hleft, -⟩
  · exact ⟨_, hout ▸ hok⟩
  · exact absurd hfree hleft

/-- what stands in front of a token stays there -/
theorem iterate_fill_of_ne (r : Registry) {xs : List Char} (h : ∀ c ∈ xs, c ≠ '{') (n : Nat) (rest : List Char) :
    r.fill^[n] (xs ++ rest) = xs ++ r.fill^[n] rest := by
  induction n generalizing rest with
  | zero => rfl
  | succ n ih => rw [Function.iterate_succ_apply, Function.iterate_succ_apply, fill_of_ne r h, ih]

/-- a string that ends in a token takes there what the token resolves to -/
theorem settles_token (r : Registry) {before value : String} {ds attr : List Char} (htok : IsToken ds attr)
    (hbefore : ∀ c ∈ before.toList, c ≠ '{' ∧ Text.needsEscape c = false)
    (hvalue : r.fill^[maxPasses] (tokenChars ds attr) = value.toList)
    (hv : ∀ c ∈ value.toList, c ≠ '"' ∧ c ≠ '\\' ∧ c ≠ '\x00') :
    r.Settles (before ++ String.ofList (tokenChars ds attr)) (before ++ value) := by
  have hself : plainly (before ++ String.ofList (tokenChars ds attr)) = before.toList ++ tokenChars ds attr := by
    rw [plainly, String.toList_append, String.toList_ofList, Text.escaped_self]
    intro c hc
    rcases List.mem_append.1 hc with hc | hc
    · exact (hbefore c hc).2
    · exact needsEscape_token htok c hc
  have hfix : r.settled maxPasses (before ++ String.ofList (tokenChars ds attr)) = (before ++ value).toList := by
    rw [settled, hself, iterate_fill_of_ne r fun c hc => (hbefore c hc).1, hvalue, String.toList_append]
  rw [Settles, hfix]
  apply Json.spells_self
  intro c hc
  rw [String.toList_append] at hc
  rcases List.mem_append.1 hc with hc | hc
  · have hplain := (hbefore c hc).2
    refine ⟨?_, ?_, ?_⟩ <;> rintro rfl <;> exact absurd hplain (by decide)
  · exact hv c hc

/-- a token whose value holds none resolves to it -/
theorem fill_value (r : Registry) {value : String} {ds attr : List Char} (htok : IsToken ds attr)
    (hvalue : r.tokenValue ds attr = value.toList) (hv : ∀ c ∈ value.toList, c ≠ '{') :
    r.fill^[maxPasses] (tokenChars ds attr) = value.toList := by
  have hfirst : r.fill (tokenChars ds attr) = value.toList := by
    rw [← List.append_nil (tokenChars ds attr), fill_token r htok, hvalue, fill_nil, List.append_nil]
  have hstay : r.fill value.toList = value.toList := by
    simpa using fill_of_ne r hv []
  rw [maxPasses, Function.iterate_succ_apply, hfirst, Function.iterate_fixed hstay]

open Json (strings stringsOf stringsIn)

/-! ## Tokens of a text -/

theorem tokensOf_of_ne {xs : List Char} (h : ∀ c ∈ xs, c ≠ '{') (rest : List Char) :
    tokensOf (xs ++ rest) = tokensOf rest := by
  induction xs with
  | nil => rfl
  | cons c xs ih =>
    rw [List.cons_append, tokensOf_cons (scan?_of_ne (h c (by simp)) _), ih fun d hd => h d (List.mem_cons_of_mem c hd)]

theorem tokensOf_plain {c : Char} (hc : c ≠ '{') (cs : List Char) : tokensOf (c :: cs) = tokensOf cs :=
  tokensOf_cons (scan?_of_ne hc cs)

/-- escaping a text without tokens makes none -/
theorem tokensOf_escaped {cs : List Char} (h : tokensOf cs = []) : tokensOf (Text.escaped cs) = [] := by
  induction cs with
  | nil => rfl
  | cons c cs ih =>
    cases hs : scan? (c :: cs) with
    | some t =>
      obtain ⟨heq, htok⟩ := scan?_eq_some hs
      rw [heq, tokensOf_token htok] at h
      cases h
    | none =>
      have hnone := scan?_escaped hs
      rw [tokensOf_cons hs] at h
      rw [Text.escaped_cons] at hnone ⊢
      by_cases hc : c = '{'
      · subst hc
        have hself : (Text.jsonChar '{').toList = ['{'] := Text.jsonChar_self (by decide)
        rw [hself, List.singleton_append] at hnone ⊢
        rw [tokensOf_cons hnone, ih h]
      · rw [tokensOf_of_ne fun d hd => jsonChar_ne_brace hc hd, ih h]

theorem tokensOf_quote (cs tail : List Char) : tokensOf (cs ++ '"' :: tail) = tokensOf cs ++ tokensOf tail := by
  induction hn : cs.length using Nat.strong_induction_on generalizing cs with
  | _ n ih =>
    subst hn
    cases hs : scan? cs with
    | some t =>
      obtain ⟨ds, attr, rest⟩ := t
      obtain ⟨rfl, htok⟩ := scan?_eq_some hs
      have hlen : rest.length < (tokenChars ds attr ++ rest).length := by
        simp only [tokenChars, List.length_append, List.length_cons]
        omega
      rw [List.append_assoc, tokensOf_token htok, tokensOf_token htok, ih rest.length hlen rest rfl, List.cons_append]
    | none =>
      cases cs with
      | nil => exact tokensOf_plain (by decide) tail
      | cons c cs =>
        have hnone := scan?_quote (c :: cs) tail
        rw [hs, List.cons_append] at hnone
        rw [List.cons_append, tokensOf_cons hnone, tokensOf_cons hs, ih cs.length (by simp) cs rfl]

theorem tokensOf_quoted (cs rest : List Char) : tokensOf (quoted cs ++ rest) = tokensOf cs ++ tokensOf rest := by
  rw [← tokensOf_quote, ← tokensOf_plain (by decide : '"' ≠ '{') (cs ++ '"' :: rest)]
  simp [quoted]

mutual

/-- **The tokens of a document are those of its strings.** -/
theorem tokens_written (w : String → List Char) : ∀ {j : Json}, (∀ t ∈ j.numerals, Spelled t) →
    ∀ rest, tokensOf (written w j ++ rest) = j.strings.flatMap (tokensOf ∘ w) ++ tokensOf rest
  | .null, _ => tokensOf_of_ne (by simp : ∀ c ∈ ['n', 'u', 'l', 'l'], c ≠ '{')
  | .bool true, _ => tokensOf_of_ne (by simp : ∀ c ∈ ['t', 'r', 'u', 'e'], c ≠ '{')
  | .bool false, _ => tokensOf_of_ne (by simp : ∀ c ∈ ['f', 'a', 'l', 's', 'e'], c ≠ '{')
  | .number t, ht => tokensOf_of_ne (spelled_ne_brace (ht t (by simp [numerals])))
  | .string s, _ => fun rest => by
    rw [written, tokensOf_quoted, strings, List.flatMap_singleton]
    rfl
  | .array [], _ => tokensOf_of_ne (by simp : ∀ c ∈ ['[', ']'], c ≠ '{')
  | .array (x :: xs), ht => fun rest => by
    have hx := tokens_written w (j := x) (fun t h => ht t (by simp [numerals, numeralsOf, h]))
    have hxs := (tokens_items w : (∀ t ∈ numeralsOf xs, Spelled t) → _) (fun t h => ht t (by simp [numerals, numeralsOf, h]))
    rw [written, strings, stringsOf, List.flatMap_append]
    simp only [List.cons_append, List.append_assoc, List.nil_append]
    rw [tokensOf_plain (by decide), hx, hxs, tokensOf_plain (by decide)]
  | .object [], _ => fun rest => by
    have hopen := tokensOf_cons (scan?_single (by decide : '}' ≠ '{') rest)
    exact hopen.trans (tokensOf_plain (by decide) rest)
  | .object ((k, x) :: fs), ht => fun rest => by
    have hx := tokens_written w (j := x) (fun t h => ht t (by simp [numerals, numeralsIn, h]))
    have hfs := (tokens_members w : (∀ t ∈ numeralsIn fs, Spelled t) → _) (fun t h => ht t (by simp [numerals, numeralsIn, h]))
    have hopen (cs : List Char) : tokensOf ('{' :: (quoted (w k) ++ cs)) = tokensOf (quoted (w k) ++ cs) :=
      tokensOf_cons (scan?_single (by decide : '"' ≠ '{') _)
    rw [written, strings, stringsIn, List.flatMap_cons, List.flatMap_append]
    simp only [List.cons_append, List.append_assoc, List.nil_append]
    rw [hopen, tokensOf_quoted, tokensOf_plain (by decide), hx, hfs, tokensOf_plain (by decide)]
    rfl

theorem tokens_items (w : String → List Char) : ∀ {xs : List Json}, (∀ t ∈ numeralsOf xs, Spelled t) →
    ∀ rest, tokensOf (writtenItems w xs ++ rest) = (stringsOf xs).flatMap (tokensOf ∘ w) ++ tokensOf rest
  | [], _ => fun rest => rfl
  | x :: xs, ht => fun rest => by
    have hx := tokens_written w (j := x) (fun t h => ht t (by simp [numeralsOf, h]))
    have hxs := (tokens_items w : (∀ t ∈ numeralsOf xs, Spelled t) → _) (fun t h => ht t (by simp [numeralsOf, h]))
    rw [writtenItems, stringsOf, List.flatMap_append]
    simp only [List.cons_append, List.append_assoc]
    rw [tokensOf_plain (by decide), hx, hxs]

theorem tokens_members (w : String → List Char) : ∀ {fs : List (String × Json)}, (∀ t ∈ numeralsIn fs, Spelled t) →
    ∀ rest, tokensOf (writtenMembers w fs ++ rest) = (stringsIn fs).flatMap (tokensOf ∘ w) ++ tokensOf rest
  | [], _ => fun rest => rfl
  | (k, x) :: fs, ht => fun rest => by
    have hx := tokens_written w (j := x) (fun t h => ht t (by simp [numeralsIn, h]))
    have hfs := (tokens_members w : (∀ t ∈ numeralsIn fs, Spelled t) → _) (fun t h => ht t (by simp [numeralsIn, h]))
    rw [writtenMembers, stringsIn, List.flatMap_cons, List.flatMap_append]
    simp only [List.cons_append, List.append_assoc]
    rw [tokensOf_plain (by decide), tokensOf_quoted, tokensOf_plain (by decide), hx, hfs]
    rfl

end

/-! ## Success -/

/-- **What resolves.** Resolving a document succeeds exactly when each of its strings resolves to a text without tokens. -/
theorem resolve_ok_iff (r : Registry) {j : Json} (hj : ∀ t ∈ j.numerals, Spelled t) :
    (∃ out, (r.resolve j.text).2 = .ok out) ↔ ∀ s ∈ j.strings, tokensOf (r.finalize.settled maxPasses s) = [] := by
  have htokens : tokensOf (written (r.finalize.settled maxPasses) j) = [] ↔
      ∀ s ∈ j.strings, tokensOf (r.finalize.settled maxPasses s) = [] := by
    have h := tokens_written (r.finalize.settled maxPasses) hj []
    rw [List.append_nil, show tokensOf [] = [] from rfl, List.append_nil] at h
    simp only [h, List.flatMap_eq_nil_iff, Function.comp_apply]
  rw [← htokens]
  have hcases := r.resolve_cases j.text
  rw [passes_text r.finalize hj, String.toList_ofList] at hcases
  rcases hcases with ⟨hnil, hok⟩ | ⟨hleft, site, hfail⟩
  · exact iff_of_true ⟨_, hok⟩ hnil
  · rw [hfail]
    exact iff_of_false (by simp [failWith]) hleft

/-- a document without tokens resolves -/
theorem resolve_free (r : Registry) {j : Json} (hj : ∀ t ∈ j.numerals, Spelled t)
    (hfree : ∀ s ∈ j.strings, occursIn s = false) : ∃ out, (r.resolve j.text).2 = .ok out := by
  refine (r.resolve_ok_iff hj).2 fun s hs => ?_
  have htokens := tokensOf_eq_nil (hfree s hs)
  have hfix : r.finalize.settled maxPasses s = Json.plainly s := Function.iterate_fixed (fill_escaped _ htokens) _
  rw [hfix]
  exact tokensOf_escaped htokens

end Schemata.Registry
