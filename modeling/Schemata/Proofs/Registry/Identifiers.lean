import Mathlib.Tactic
import Schemata.Proofs.Registry.Expansion
import Schemata.Proofs.Text.Category

/-!
What sanitizing gives.

A sanitized text is an identifier (`Sanitized`): letters, digits and underscores, none when the text has none, and the
same again when it is sanitized once more. It never starts with one of the ten ASCII digits; the guard does not see other
digits, so it starts with one of those exactly when it is the first identifier character of the text
(`sanitize_arabic`). A sanitized link keeps its tokens, with identifier characters between them (`SanitizedLink`).

Main result: `sanitize_identifier`.
-/

namespace Schemata

/-! ## Characters -/

theorem identChar_upperAscii :
    ∀ n < 128, isIdentChar (Char.ofNat n) = true → isIdentChar (Char.ofNat n).toUpper = true := by
  decide

/-- capitalising keeps identifier characters -/
theorem identChar_toUpper {c : Char} (h : isIdentChar c = true) : isIdentChar (Text.CaseMap.toUpper c) = true := by
  unfold Text.CaseMap.toUpper
  split
  · rename_i hc
    have := identChar_upperAscii c.toNat hc
    rw [Char.ofNat_toNat] at this
    exact this h
  · rename_i hc
    rcases shift_upper hc with heq | ⟨s, hs, hholds, hnat⟩
    · rwa [heq]
    · have hletter : Text.Category.isLetter c = true ∨ Text.Category.isDecimalDigit c = true := by
        simp only [isIdentChar, Bool.or_eq_true, beq_iff_eq] at h
        rcases h with (rfl | h) | h
        · exact absurd (by decide) hc
        · exact .inl h
        · exact .inr h
      have := Text.Category.isLetter_of_shift hs hholds hnat hletter
      simp [isIdentChar, this]

/-! ## Words run together -/

section Words

variable {upper started : Bool} {cs : List Char}

theorem identChars_ident : ∀ c ∈ identChars upper started cs, isIdentChar c = true := by
  induction cs generalizing upper started with
  | nil => simp [identChars]
  | cons d cs ih =>
    intro c hc
    rw [identChars] at hc
    split at hc
    · rename_i hd
      rcases List.mem_cons.1 hc with rfl | hc
      · split
        · exact identChar_toUpper hd
        · exact hd
      · exact ih c hc
    · exact ih c hc

theorem identChars_eq_nil : identChars upper started cs = [] ↔ ∀ c ∈ cs, isIdentChar c = false := by
  induction cs generalizing upper with
  | nil => simp [identChars]
  | cons d cs ih =>
    rw [identChars, List.forall_mem_cons]
    split
    · rename_i hd
      simp [hd]
    · rename_i hd
      rw [ih]
      simp [hd]

/-- no word starts after identifier characters, so they stay as they are -/
theorem identChars_of_ident (h : ∀ c ∈ cs, isIdentChar c = true) : identChars false started cs = cs := by
  induction cs generalizing started with
  | nil => rfl
  | cons d cs ih =>
    obtain ⟨hd, hcs⟩ := List.forall_mem_cons.1 h
    rw [identChars, if_pos hd, ih hcs]
    rfl

/-- the first word is not capitalised -/
theorem head_identChars : (identChars upper false cs).head? = cs.find? isIdentChar := by
  induction cs generalizing upper with
  | nil => rfl
  | cons d cs ih =>
    rw [identChars, List.find?_cons]
    split
    · rename_i hd
      simp [hd]
    · rename_i hd
      rw [ih]
      simp [hd]

theorem guardDigit_ident (h : ∀ c ∈ cs, isIdentChar c = true) : ∀ c ∈ guardDigit cs, isIdentChar c = true := by
  cases cs with
  | nil => exact h
  | cons d cs =>
    rw [guardDigit]
    split
    · exact List.forall_mem_cons.2 ⟨by decide, h⟩
    · exact h

theorem guardDigit_eq_nil : guardDigit cs = [] ↔ cs = [] := by
  cases cs with
  | nil => rfl
  | cons d cs =>
    rw [guardDigit]
    split <;> simp

theorem head_guardDigit : (guardDigit cs).head?.any Text.Category.isDecimalDigit =
    cs.head?.any fun c => Text.Category.isDecimalDigit c && !c.isDigit := by
  cases cs with
  | nil => rfl
  | cons d cs =>
    rw [guardDigit]
    split
    · rename_i hd
      simp [hd]
      decide
    · rename_i hd
      simp [hd]

/-- guarding twice is guarding once -/
theorem guardDigit_guardDigit : guardDigit (guardDigit cs) = guardDigit cs := by
  cases cs with
  | nil => rfl
  | cons d cs =>
    rw [guardDigit]
    split
    · rfl
    · rename_i hd
      rw [guardDigit, if_neg hd]

end Words

/-! ## Sanitized texts -/

/-- what a sanitized text is to the text that it comes from -/
structure Sanitized (s t : String) : Prop where
  /-- it consists of letters, digits and underscores -/
  chars : ∀ c ∈ t.toList, isIdentChar c = true
  /-- it is empty when nothing in the text can be part of it -/
  empty : t = "" ↔ ∀ c ∈ s.toList, isIdentChar c = false
  /-- it starts with a digit when the text does, other characters left out, and only if that is none of the ten ASCII digits -/
  digit : t.toList.head?.any Text.Category.isDecimalDigit =
    (s.toList.find? isIdentChar).any fun c => Text.Category.isDecimalDigit c && !c.isDigit
  /-- sanitizing it changes nothing -/
  again : sanitize t = t

theorem toList_sanitize (s : String) : (sanitize s).toList = guardDigit (identChars false false s.toList) := by
  rw [sanitize, String.toList_ofList]

theorem sanitized_sanitize (s : String) : Sanitized s (sanitize s) := by
  have hchars : ∀ c ∈ (sanitize s).toList, isIdentChar c = true := by
    rw [toList_sanitize]
    exact guardDigit_ident identChars_ident
  refine ⟨hchars, ?_, ?_, ?_⟩
  · rw [← String.toList_eq_nil_iff, toList_sanitize, guardDigit_eq_nil, identChars_eq_nil]
  · rw [toList_sanitize, head_guardDigit, head_identChars]
  · rw [sanitize, identChars_of_ident hchars, toList_sanitize, guardDigit_guardDigit]
    rfl

end Schemata

namespace Schemata.Placeholder

open Registry (pieces_token tokens_acc)

/-! ## Sanitized links -/

/-- the texts of the tokens, from the left -/
def tokenTexts (cs : List Char) : List String :=
  (pieces [] 0 cs).filterMap fun | .words _ => none | .token t _ => some t

theorem tokenTexts_cons {c : Char} {cs : List Char} (h : scan? (c :: cs) = none) : tokenTexts (c :: cs) = tokenTexts cs := by
  rw [tokenTexts, pieces]
  simp only [h]
  exact tokens_acc _ (fun _ => rfl) [c] 0 cs

theorem tokenTexts_token {ds attr : List Char} (h : IsToken ds attr) (rest : List Char) :
    tokenTexts (tokenChars ds attr ++ rest) = String.ofList (tokenChars ds attr) :: tokenTexts rest := by
  rw [tokenTexts, pieces_token h, List.filterMap_cons]
  rfl

theorem ne_brace {c : Char} (h : isIdentChar c = true) : c ≠ '{' := (safeChar_iff.1 (safeChar_ident h)).1

theorem tokenTexts_ident {xs : List Char} (h : ∀ c ∈ xs, isIdentChar c = true) (rest : List Char) :
    tokenTexts (xs ++ rest) = tokenTexts rest := by
  induction xs with
  | nil => rfl
  | cons c xs ih =>
    obtain ⟨hc, hxs⟩ := List.forall_mem_cons.1 h
    rw [List.cons_append, tokenTexts_cons (scan?_of_ne (ne_brace hc) _), ih hxs]

theorem outside_ident {xs : List Char} (h : ∀ c ∈ xs, isIdentChar c = true) (rest : List Char) :
    outside (xs ++ rest) = xs ++ outside rest := by
  induction xs with
  | nil => rfl
  | cons c xs ih =>
    obtain ⟨hc, hxs⟩ := List.forall_mem_cons.1 h
    rw [List.cons_append, outside_cons (scan?_of_ne (ne_brace hc) _), ih hxs, List.cons_append]

/-- what a sanitized link is to the text that it comes from -/
structure SanitizedLink (s t : String) : Prop where
  /-- it has the same tokens, in the same order -/
  tokens : tokenTexts t.toList = tokenTexts s.toList
  /-- letters, digits and underscores stand between them -/
  words : ∀ w, .words w ∈ split t → ∀ c ∈ w.toList, isIdentChar c = true

theorem sanitizeLink_go (ps : List Piece) (first : Bool)
    (h : ∀ t p, .token t p ∈ ps → ∃ ds attr, IsToken ds attr ∧ t = String.ofList (tokenChars ds attr)) :
    tokenTexts (String.join (sanitizeLink.go first ps)).toList =
        ps.filterMap (fun | .words _ => none | .token t _ => some t) ∧
      ∀ c ∈ outside (String.join (sanitizeLink.go first ps)).toList, isIdentChar c = true := by
  induction ps generalizing first with
  | nil => exact ⟨rfl, by simp [sanitizeLink.go, outside, pieces]⟩
  | cons p ps ih =>
    obtain ⟨htokens, houtside⟩ := ih false fun t p hp => h t p (List.mem_cons_of_mem _ hp)
    rw [String.toList_join] at htokens houtside ⊢
    cases p with
    | words w =>
      have hw : ∀ c ∈ (if first then sanitize w else String.ofList (identChars false false w.toList)).toList,
          isIdentChar c = true := by
        cases first with
        | true => exact (sanitized_sanitize w).chars
        | false =>
          rw [if_neg (by simp), String.toList_ofList]
          exact identChars_ident
      rw [sanitizeLink.go, List.flatMap_cons, tokenTexts_ident hw, outside_ident hw, List.forall_mem_append]
      exact ⟨htokens, hw, houtside⟩
    | token t p =>
      obtain ⟨ds, attr, htok, rfl⟩ := h t p List.mem_cons_self
      rw [sanitizeLink.go, List.flatMap_cons, String.toList_ofList, tokenTexts_token htok, outside_token htok, htokens]
      exact ⟨rfl, houtside⟩

theorem sanitizedLink_sanitizeLink (s : String) : SanitizedLink s (sanitizeLink s) := by
  obtain ⟨htokens, houtside⟩ := sanitizeLink_go (split s) true fun t p hp =>
    let ⟨ds, attr, htok, ht, _⟩ := mem_pieces_token hp
    ⟨ds, attr, htok, ht⟩
  exact ⟨htokens, fun w hw c hc => houtside c (List.mem_flatMap.2 ⟨_, hw, hc⟩)⟩

end Schemata.Placeholder

namespace Schemata

open Placeholder

/-- **Identifiers.** A text is sanitized to an identifier, and a link text to its tokens with identifier characters between
them. -/
theorem sanitize_identifier (s : String) : Sanitized s (sanitize s) ∧ SanitizedLink s (sanitizeLink s) :=
  ⟨sanitized_sanitize s, sanitizedLink_sanitizeLink s⟩

/-- a digit that is not one of the ten ASCII digits stays in front -/
theorem sanitize_arabic : sanitize "٣x" = "٣x" ∧
    ¬ ∀ c cs, (sanitize "٣x").toList = c :: cs → Text.Category.isDecimalDigit c = false := by
  have hident : ∀ c ∈ ['٣', 'x'], isIdentChar c = true := by
    refine List.forall_mem_cons.2 ⟨?_, List.forall_mem_singleton.2 (by decide)⟩
    rw [isIdentChar, Text.Category.isDecimalDigit_three, Bool.or_true]
  have heq : sanitize "٣x" = "٣x" := by
    rw [sanitize, show "٣x".toList = ['٣', 'x'] from rfl, identChars_of_ident hident]
    rfl
  refine ⟨heq, fun h => ?_⟩
  have := h '٣' ['x'] (by rw [heq]; rfl)
  rw [Text.Category.isDecimalDigit_three] at this
  cases this

end Schemata
