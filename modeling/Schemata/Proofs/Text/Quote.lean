import Mathlib.Tactic
import Schemata.Proofs.Text.Basic

/-!
Quoted texts: how each character is written, and how quoted texts are read back.
-/

namespace Schemata.Text

/-- the characters that are escaped by a letter, with the letter -/
def letterEscapes : List (Char × Char) :=
  [('"', '"'), ('\\', '\\'), ('\n', 'n'), ('\r', 'r'), ('\t', 't'), ('\x07', 'a'), ('\x08', 'b'), ('\x0b', 'v'),
    ('\x0c', 'f')]

/-- how a character stands in a quoted text: escaped by a letter, as it is, or by its number -/
theorem quoteChar_cases (c : Char) :
    (∃ e, (c, e) ∈ letterEscapes ∧ (quoteChar c).toList = ['\\', e]) ∨
    ((∀ e, (c, e) ∉ letterEscapes) ∧ (quoteChar c).toList = [c]) ∨
    (∃ k w, ((k = 'x' ∧ w = 2) ∨ (k = 'u' ∧ w = 4) ∨ (k = 'U' ∧ w = 8)) ∧ c.toNat < 16 ^ w ∧
      (quoteChar c).toList = '\\' :: k :: (hex c.toNat w).toList) := by
  by_cases h : ∃ e, (c, e) ∈ letterEscapes
  · obtain ⟨e, he⟩ := h
    refine .inl ⟨e, he, ?_⟩
    simp only [letterEscapes, List.mem_cons, Prod.mk.injEq, List.not_mem_nil, or_false] at he
    rcases he with ⟨rfl, rfl⟩ | ⟨rfl, rfl⟩ | ⟨rfl, rfl⟩ | ⟨rfl, rfl⟩ | ⟨rfl, rfl⟩ | ⟨rfl, rfl⟩ | ⟨rfl, rfl⟩ | ⟨rfl, rfl⟩
      | ⟨rfl, rfl⟩ <;> rfl
  · have hn : ∀ e, (c, e) ∉ letterEscapes := fun e he => h ⟨e, he⟩
    have hne : c ≠ '"' ∧ c ≠ '\\' ∧ c ≠ '\n' ∧ c ≠ '\r' ∧ c ≠ '\t' ∧ c ≠ '\x07' ∧ c ≠ '\x08' ∧ c ≠ '\x0b' ∧
        c ≠ '\x0c' := by
      refine ⟨?_, ?_, ?_, ?_, ?_, ?_, ?_, ?_, ?_⟩ <;> rintro rfl <;> exact h ⟨_, by simp [letterEscapes]; rfl⟩
    obtain ⟨h1, h2, h3, h4, h5, h6, h7, h8, h9⟩ := hne
    have hq : quoteChar c = if Category.isPrintable c then c.toString
        else if c.toNat < 128 then "\\x" ++ hex c.toNat 2
        else if c.toNat < 0x10000 then "\\u" ++ hex c.toNat 4
        else "\\U" ++ hex c.toNat 8 := by
      simp only [quoteChar]
    have hlt : c.toNat < 0x110000 := by
      have := c.valid
      simp only [UInt32.isValidChar, Nat.isValidChar] at this
      have h' : c.toNat = c.val.toNat := rfl
      omega
    rw [hq]
    split
    · exact .inr (.inl ⟨hn, String.toList_singleton c⟩)
    · split
      · exact .inr (.inr ⟨'x', 2, .inl ⟨rfl, rfl⟩, by omega, by rw [String.toList_append]; rfl⟩)
      · split
        · exact .inr (.inr ⟨'u', 4, .inr (.inl ⟨rfl, rfl⟩), by omega, by rw [String.toList_append]; rfl⟩)
        · exact .inr (.inr ⟨'U', 8, .inr (.inr ⟨rfl, rfl⟩), by omega, by rw [String.toList_append]; rfl⟩)

/-! ## Reading quoted texts -/

/-- where a reader stands in a quoted text: between characters, behind a backslash, or in the digits of an escape -/
inductive QuotePlace where
  | plain
  | escape
  | digits (left value : Nat)
  deriving Repr, DecidableEq

/-- the number of digits behind the letter of an escape by number -/
def escapeWidth (c : Char) : Option Nat :=
  if c = 'x' then some 2 else if c = 'u' then some 4 else if c = 'U' then some 8 else none

def hexDigit? (c : Char) : Option Nat := (List.range 16).find? fun d => Nat.digitChar d == c

/-- the text up to the closing quote mark, and what stands behind it -/
def readQuoted : QuotePlace → List Char → Option (List Char × List Char)
  | _, [] => none
  | .plain, c :: cs =>
    if c = '"' then some ([], cs)
    else if c = '\\' then readQuoted .escape cs
    else if c = '\n' then none
    else (readQuoted .plain cs).map fun (r, rest) => (c :: r, rest)
  | .escape, c :: cs =>
    match letterEscapes.find? (·.2 == c), escapeWidth c with
    | some (d, _), _ => (readQuoted .plain cs).map fun (r, rest) => (d :: r, rest)
    | none, some w => readQuoted (.digits (w - 1) 0) cs
    | none, none => none
  | .digits left value, c :: cs =>
    match hexDigit? c with
    | none => none
    | some d =>
      if left = 0 then (readQuoted .plain cs).map fun (r, rest) => (Char.ofNat (16 * value + d) :: r, rest)
      else readQuoted (.digits (left - 1) (16 * value + d)) cs

/-- the text that a quoted one stands for -/
def unquote (s : String) : Option String :=
  match s.toList with
  | '"' :: cs =>
    match readQuoted .plain cs with
    | some (r, []) => some (String.ofList r)
    | _ => none
  | _ => none

theorem hexDigit?_digitChar {d : Nat} (hd : d < 16) : hexDigit? (Nat.digitChar d) = some d := by
  interval_cases d <;> decide

/-- the digits of a number in base sixteen, from the most significant one, are read to the number -/
theorem readQuoted_digits {ds : List Nat} (hds : ∀ d ∈ ds, d < 16) (hne : ds ≠ []) (value : Nat) (rest : List Char) :
    readQuoted (.digits (ds.length - 1) value) (ds.map Nat.digitChar ++ rest) =
      (readQuoted .plain rest).map fun (r, rest') => (Char.ofNat (ds.foldl (fun n d => 16 * n + d) value) :: r, rest') := by
  induction ds generalizing value with
  | nil => exact absurd rfl hne
  | cons d ds ih =>
    have hd := hexDigit?_digitChar (hds d (by simp))
    simp only [List.map_cons, List.cons_append, readQuoted, hd, List.length_cons, Nat.add_sub_cancel, List.foldl_cons]
    cases ds with
    | nil => simp
    | cons e ds =>
      rw [if_neg (by simp)]
      exact ih (fun x hx => hds x (List.mem_cons_of_mem d hx)) (by simp) _

/-- hexadecimal digits of a given width, from the most significant one -/
theorem hex_digits {n w : Nat} (hn : n < 16 ^ w) (hw : 0 < w) :
    ∃ ds : List Nat, (hex n w).toList = ds.map Nat.digitChar ∧ (∀ d ∈ ds, d < 16) ∧ ds.length = w ∧
      ds.foldl (fun n d => 16 * n + d) 0 = n := by
  have key (n : Nat) : ∃ ds : List Nat, Nat.toDigits 16 n = ds.map Nat.digitChar ∧ (∀ d ∈ ds, d < 16) ∧
      ds.foldl (fun n d => 16 * n + d) 0 = n := by
    induction n using Nat.strong_induction_on with
    | _ n ih =>
      rw [Nat.toDigits_eq_if (by decide)]
      split
      · rename_i h
        exact ⟨[n], by simp, by simpa using h, by simp⟩
      · rename_i h
        obtain ⟨ds, h1, h2, h3⟩ := ih (n / 16) (Nat.div_lt_self (by omega) (by decide))
        refine ⟨ds ++ [n % 16], by simp [h1], ?_, ?_⟩
        · intro d hd
          rcases List.mem_append.1 hd with hd | hd
          · exact h2 d hd
          · obtain rfl : d = n % 16 := by simpa using hd
            exact Nat.mod_lt _ (by decide)
        · rw [List.foldl_append, h3]
          simp only [List.foldl_cons, List.foldl_nil]
          omega
  obtain ⟨ds, h1, h2, h3⟩ := key n
  have hlen : ds.length ≤ w := by
    have := (Nat.length_toDigits_le_iff (b := 16) (by decide) hw).2 hn
    simpa [h1] using this
  refine ⟨List.replicate (w - ds.length) 0 ++ ds, ?_, ?_, by simp; omega, ?_⟩
  · simp [hex, h1]
  · intro d hd
    rcases List.mem_append.1 hd with hd | hd
    · rw [List.eq_of_mem_replicate hd]
      decide
    · exact h2 d hd
  · have hzero (k : Nat) : (List.replicate k 0).foldl (fun n d => 16 * n + d) 0 = 0 := by
      induction k with
      | zero => rfl
      | succ k ih => simpa [List.replicate_succ] using ih
    rw [List.foldl_append, hzero, h3]

/-- a character reads back from the way it is written in a quoted text -/
theorem readQuoted_quoteChar (c : Char) (rest : List Char) :
    readQuoted .plain ((quoteChar c).toList ++ rest) =
      (readQuoted .plain rest).map fun (r, rest') => (c :: r, rest') := by
  rcases quoteChar_cases c with ⟨e, he, h⟩ | ⟨hn, h⟩ | ⟨k, w, hk, hlt, h⟩
  · rw [h]
    simp only [letterEscapes, List.mem_cons, Prod.mk.injEq, List.not_mem_nil, or_false] at he
    rcases he with ⟨rfl, rfl⟩ | ⟨rfl, rfl⟩ | ⟨rfl, rfl⟩ | ⟨rfl, rfl⟩ | ⟨rfl, rfl⟩ | ⟨rfl, rfl⟩ | ⟨rfl, rfl⟩ | ⟨rfl, rfl⟩
      | ⟨rfl, rfl⟩ <;> rfl
  · have h1 : c ≠ '"' := by
      rintro rfl
      exact hn '"' (by decide)
    have h2 : c ≠ '\\' := by
      rintro rfl
      exact hn '\\' (by decide)
    have h3 : c ≠ '\n' := by
      rintro rfl
      exact hn 'n' (by decide)
    rw [h]
    simp [readQuoted, h1, h2, h3]
  · have hw : 0 < w := by rcases hk with ⟨-, rfl⟩ | ⟨-, rfl⟩ | ⟨-, rfl⟩ <;> decide
    obtain ⟨ds, hds, hlt', hlen, hval⟩ := hex_digits hlt hw
    have hne : ds ≠ [] := by
      rintro rfl
      simp at hlen
      omega
    have hmark : readQuoted .plain ('\\' :: k :: (ds.map Nat.digitChar ++ rest)) =
        readQuoted (.digits (ds.length - 1) 0) (ds.map Nat.digitChar ++ rest) := by
      rw [hlen]
      rcases hk with ⟨rfl, rfl⟩ | ⟨rfl, rfl⟩ | ⟨rfl, rfl⟩ <;> rfl
    rw [h, hds, List.cons_append, List.cons_append, hmark, readQuoted_digits hlt' hne, hval, Char.ofNat_toNat]

theorem readQuoted_quote (s rest : List Char) :
    readQuoted .plain (s.flatMap (fun c => (quoteChar c).toList) ++ '"' :: rest) = some (s, rest) := by
  induction s with
  | nil => rfl
  | cons c s ih => rw [List.flatMap_cons, List.append_assoc, readQuoted_quoteChar, ih, Option.map_some]

theorem toList_quote (s : String) :
    (quote s).toList = '"' :: (s.toList.flatMap (fun c => (quoteChar c).toList) ++ ['"']) := by
  simp [quote, String.toList_join, List.flatMap_map]

/-- **Quoted texts read back.** -/
theorem unquote_quote (s : String) : unquote (quote s) = some s := by
  unfold unquote
  rw [toList_quote]
  simp only [readQuoted_quote, String.ofList_toList]

end Schemata.Text
