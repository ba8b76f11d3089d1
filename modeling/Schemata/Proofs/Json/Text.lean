import Mathlib.Tactic
import Schemata.Json.Build
import Schemata.Json.Reader
import Schemata.Proofs.Text.Quote

/-!
Texts of JSON documents.

A string is written with its control characters, quotes and markup escaped, and reads back as itself. A document is
written without white space; `written` takes any way of writing its strings, and `text_eq` says that the text of a
document is its written form with the strings escaped.
-/

namespace Schemata.Text

/-! ## Strings -/

/-- the characters that a string of a data document escapes by a letter, with the letter -/
def stringLetters : List (Char × Char) := [('"', '"'), ('\\', '\\'), ('\n', 'n'), ('\r', 'r'), ('\t', 't')]

/-- how a character stands in a string of a data document: escaped by a letter, as it is, or by its number -/
theorem jsonChar_cases (c : Char) :
    (∃ e, (c, e) ∈ stringLetters ∧ (jsonChar c).toList = ['\\', e]) ∨
    (c ≠ '"' ∧ c ≠ '\\' ∧ 32 ≤ c.toNat ∧ (jsonChar c).toList = [c]) ∨
    (c.toNat < 16 ^ 4 ∧ ¬ (0xD800 ≤ c.toNat ∧ c.toNat < 0xE000) ∧
      (jsonChar c).toList = '\\' :: 'u' :: (hex c.toNat 4).toList) := by
  by_cases h : ∃ e, (c, e) ∈ stringLetters
  · obtain ⟨e, he⟩ := h
    refine .inl ⟨e, he, ?_⟩
    simp only [stringLetters, List.mem_cons, Prod.mk.injEq, List.not_mem_nil, or_false] at he
    rcases he with ⟨rfl, rfl⟩ | ⟨rfl, rfl⟩ | ⟨rfl, rfl⟩ | ⟨rfl, rfl⟩ | ⟨rfl, rfl⟩ <;> rfl
  · have hne : c ≠ '"' ∧ c ≠ '\\' ∧ c ≠ '\n' ∧ c ≠ '\r' ∧ c ≠ '\t' := by
      refine ⟨?_, ?_, ?_, ?_, ?_⟩ <;> rintro rfl <;> exact h ⟨_, by simp [stringLetters]; rfl⟩
    obtain ⟨h1, h2, h3, h4, h5⟩ := hne
    have hvalid : ¬ (0xD800 ≤ c.toNat ∧ c.toNat < 0xE000) := by
      have := c.valid
      simp only [UInt32.isValidChar, Nat.isValidChar] at this
      have h' : c.toNat = c.val.toNat := rfl
      omega
    have hq : jsonChar c =
        if c.toNat < 32 || c == '<' || c == '>' || c == '&' || c.toNat == 0x2028 || c.toNat == 0x2029
        then "\\u" ++ hex c.toNat 4 else c.toString := by
      simp only [jsonChar]
    rw [hq]
    split
    · rename_i hc
      refine .inr (.inr ⟨?_, hvalid, by rw [String.toList_append]; rfl⟩)
      simp only [Bool.or_eq_true, decide_eq_true_eq, beq_iff_eq] at hc
      rcases hc with ((((hc | rfl) | rfl) | rfl) | hc) | hc
      · omega
      · decide
      · decide
      · decide
      · omega
      · omega
    · rename_i hc
      refine .inr (.inl ⟨h1, h2, ?_, String.toList_singleton c⟩)
      by_contra hlt
      exact hc (by simp [Nat.lt_of_not_le hlt])

/-- the characters that a string of a data document escapes -/
def needsEscape (c : Char) : Bool :=
  c.toNat < 32 || c == '"' || c == '\\' || c == '<' || c == '>' || c == '&' || c.toNat == 0x2028 || c.toNat == 0x2029

theorem jsonChar_self {c : Char} (h : needsEscape c = false) : (jsonChar c).toList = [c] := by
  simp only [needsEscape, Bool.or_eq_false_iff, decide_eq_false_iff_not, beq_eq_false_iff_ne, ne_eq] at h
  obtain ⟨⟨⟨⟨⟨⟨⟨h1, h2⟩, h3⟩, h4⟩, h5⟩, h6⟩, h7⟩, h8⟩ := h
  have hnot (d : Char) (hd : d.toNat < 32) : c ≠ d := by
    rintro rfl
    exact h1 hd
  have hq : jsonChar c =
      if c.toNat < 32 || c == '<' || c == '>' || c == '&' || c.toNat == 0x2028 || c.toNat == 0x2029
      then "\\u" ++ hex c.toNat 4 else c.toString := by
    have hn := hnot '\n' (by decide)
    have hr := hnot '\r' (by decide)
    have ht := hnot '\t' (by decide)
    simp only [jsonChar]
  rw [hq, if_neg (by simp [h1, h4, h5, h6, h7, h8])]
  exact String.toList_singleton c

/-- the characters of a text as a string of a data document holds them -/
def escaped (cs : List Char) : List Char := cs.flatMap fun c => (jsonChar c).toList

@[simp] theorem escaped_nil : escaped [] = [] := rfl

theorem escaped_cons (c : Char) (cs : List Char) : escaped (c :: cs) = (jsonChar c).toList ++ escaped cs := rfl

theorem escaped_self {cs : List Char} (h : ∀ c ∈ cs, needsEscape c = false) : escaped cs = cs := by
  induction cs with
  | nil => rfl
  | cons c cs ih =>
    rw [escaped_cons, jsonChar_self (h c (by simp)), ih fun d hd => h d (List.mem_cons_of_mem c hd)]
    rfl

theorem toList_jsonString (s : String) : (jsonString s).toList = '"' :: (escaped s.toList ++ ['"']) := by
  simp [jsonString, escaped, String.toList_join, List.flatMap_map]

end Schemata.Text

namespace Schemata.Json

open Text (escaped)

theorem digitOf?_digitChar {d : Nat} (hd : d < 16) : Number.digitOf? 16 (Nat.digitChar d) = some d := by
  interval_cases d <;> decide

theorem hex4_hex {n : Nat} (hn : n < 16 ^ 4) (rest : List Char) :
    hex4 ((Text.hex n 4).toList ++ rest) = some (n, rest) := by
  obtain ⟨ds, hds, hlt, hlen, hval⟩ := Text.hex_digits hn (by decide)
  obtain ⟨a, b, c, d, rfl⟩ : ∃ a b c d, ds = [a, b, c, d] := by
    match ds, hlen with
    | [a, b, c, d], _ => exact ⟨a, b, c, d, rfl⟩
  have hv : hexValue ([a, b, c, d].map Nat.digitChar) = some n := by
    simp only [List.mem_cons, List.not_mem_nil, or_false, forall_eq_or_imp, forall_eq] at hlt
    obtain ⟨ha, hb, hc, hd⟩ := hlt
    simp only [List.foldl_cons, List.foldl_nil] at hval
    simp only [hexValue, List.map_cons, List.map_nil, List.foldl_cons, List.foldl_nil, digitOf?_digitChar ha,
      digitOf?_digitChar hb, digitOf?_digitChar hc, digitOf?_digitChar hd]
    rw [Option.some.injEq]
    omega
  rw [hds]
  simp only [List.map_cons, List.map_nil] at hv
  simp only [List.map_cons, List.map_nil, List.cons_append, List.nil_append, hex4, hv, Option.map_some]

/-- an escaped character is one step of the reader -/
theorem stringBody_jsonChar (acc : List Char) (fuel : Nat) (c : Char) (rest : List Char) :
    stringBody acc (fuel + 1) ((Text.jsonChar c).toList ++ rest) = stringBody (c :: acc) fuel rest := by
  rcases Text.jsonChar_cases c with ⟨e, he, h⟩ | ⟨h1, h2, h3, h⟩ | ⟨hlt, hv, h⟩
  · rw [h]
    simp only [Text.stringLetters, List.mem_cons, Prod.mk.injEq, List.not_mem_nil, or_false] at he
    rcases he with ⟨rfl, rfl⟩ | ⟨rfl, rfl⟩ | ⟨rfl, rfl⟩ | ⟨rfl, rfl⟩ | ⟨rfl, rfl⟩ <;> rfl
  · rw [h]
    have h0 : c ≠ '\x00' := by
      rintro rfl
      exact absurd h3 (by decide)
    simp only [List.cons_append, List.nil_append, stringBody, if_neg h1, if_neg h0, if_neg h2]
  · rw [h]
    have hu : unitChar c.toNat = c := by rw [unitChar, if_neg hv, Char.ofNat_toNat]
    have hs : ¬ (0xD800 ≤ c.toNat ∧ c.toNat < 0xDC00) := fun hc => hv ⟨hc.1, by omega⟩
    have hq : '\\' ≠ '"' := by decide
    have h0 : '\\' ≠ '\x00' := by decide
    simp only [List.cons_append, stringBody, if_neg hq, if_neg h0, if_true, hex4_hex hlt, if_neg hs, hu]

theorem stringBody_escaped (cs acc rest : List Char) {fuel : Nat} (hfuel : cs.length < fuel) :
    stringBody acc fuel (escaped cs ++ '"' :: rest) = .ok (String.ofList (acc.reverse ++ cs), rest) := by
  induction cs generalizing acc fuel with
  | nil =>
    obtain ⟨n, rfl⟩ : ∃ n, fuel = n + 1 := ⟨fuel - 1, by omega⟩
    simp [stringBody]
  | cons c cs ih =>
    obtain ⟨n, rfl⟩ : ∃ n, fuel = n + 1 := ⟨fuel - 1, by omega⟩
    rw [Text.escaped_cons, List.append_assoc, stringBody_jsonChar, ih _ (by simpa using hfuel)]
    simp

theorem length_le_escaped (cs : List Char) : cs.length ≤ (escaped cs).length := by
  induction cs with
  | nil => simp
  | cons c cs ih =>
    have : 1 ≤ (Text.jsonChar c).toList.length := by
      rcases Text.jsonChar_cases c with ⟨e, _, h⟩ | ⟨_, _, _, h⟩ | ⟨_, _, h⟩ <;> rw [h] <;> simp
    rw [Text.escaped_cons, List.length_append, List.length_cons]
    omega

/-- characters that a reader takes for the text, up to the closing quote -/
def Spells (cs : List Char) (s : String) : Prop :=
  ∀ rest, stringBody [] ((cs ++ '"' :: rest).length + 1) (cs ++ '"' :: rest) = .ok (s, rest)

/-- **Strings read back.** -/
theorem spells_escaped (s : String) : Spells (escaped s.toList) s := by
  intro rest
  have hlen := length_le_escaped s.toList
  rw [stringBody_escaped _ _ _ (by rw [List.length_append, List.length_cons]; omega)]
  simp

/-- characters that mean nothing to the reader stand for themselves -/
theorem spells_self {s : String} (h : ∀ c ∈ s.toList, c ≠ '"' ∧ c ≠ '\\' ∧ c ≠ '\x00') : Spells s.toList s := by
  have key (cs : List Char) (hcs : ∀ c ∈ cs, c ≠ '"' ∧ c ≠ '\\' ∧ c ≠ '\x00') (acc rest : List Char) (fuel : Nat)
      (hfuel : cs.length < fuel) :
      stringBody acc fuel (cs ++ '"' :: rest) = .ok (String.ofList (acc.reverse ++ cs), rest) := by
    induction cs generalizing acc fuel with
    | nil =>
      obtain ⟨n, rfl⟩ : ∃ n, fuel = n + 1 := ⟨fuel - 1, by omega⟩
      simp [stringBody]
    | cons c cs ih =>
      obtain ⟨n, rfl⟩ : ∃ n, fuel = n + 1 := ⟨fuel - 1, by omega⟩
      obtain ⟨h1, h2, h3⟩ := hcs c (by simp)
      simp only [List.cons_append, stringBody, if_neg h1, if_neg h3, if_neg h2]
      rw [ih (fun d hd => hcs d (List.mem_cons_of_mem c hd)) _ _ (by simpa using hfuel)]
      simp
  intro rest
  rw [key s.toList h [] rest _ (by rw [List.length_append, List.length_cons]; omega)]
  simp

/-! ## Documents -/

mutual

/-- the texts of the numbers in a document -/
def numerals : Json → List String
  | .number t => [t]
  | .array xs => numeralsOf xs
  | .object fs => numeralsIn fs
  | _ => []

def numeralsOf : List Json → List String
  | [] => []
  | x :: xs => numerals x ++ numeralsOf xs

def numeralsIn : List (String × Json) → List String
  | [] => []
  | (_, x) :: fs => numerals x ++ numeralsIn fs

end

mutual

/-- the strings and keys of a document -/
def strings : Json → List String
  | .string s => [s]
  | .array xs => stringsOf xs
  | .object fs => stringsIn fs
  | _ => []

def stringsOf : List Json → List String
  | [] => []
  | x :: xs => strings x ++ stringsOf xs

def stringsIn : List (String × Json) → List String
  | [] => []
  | (k, x) :: fs => k :: (strings x ++ stringsIn fs)

end

/-- is the text a run of number characters? -/
def Spelled (t : String) : Prop := t ≠ "" ∧ ∀ c ∈ t.toList, isNumberChar c = true

theorem spelled_ofList {cs : List Char} (hne : cs ≠ []) (h : ∀ c ∈ cs, isNumberChar c = true) :
    Spelled (String.ofList cs) := by
  refine ⟨fun hs => hne ?_, fun c hc => h c (by simpa using hc)⟩
  simpa using congrArg String.toList hs

mutual

/-- the document with every string and every key changed -/
def mapStrings (f : String → String) : Json → Json
  | .string s => .string (f s)
  | .array xs => .array (mapItems f xs)
  | .object fs => .object (mapMembers f fs)
  | j => j

def mapItems (f : String → String) : List Json → List Json
  | [] => []
  | x :: xs => mapStrings f x :: mapItems f xs

def mapMembers (f : String → String) : List (String × Json) → List (String × Json)
  | [] => []
  | (k, x) :: fs => (f k, mapStrings f x) :: mapMembers f fs

end

theorem mapItems_eq (f : String → String) (xs : List Json) : mapItems f xs = xs.map (mapStrings f) := by
  induction xs with
  | nil => rfl
  | cons x xs ih => rw [mapItems, ih, List.map_cons]

theorem mapMembers_eq (f : String → String) (fs : List (String × Json)) :
    mapMembers f fs = fs.map fun e => (f e.1, mapStrings f e.2) := by
  induction fs with
  | nil => rfl
  | cons e fs ih => rw [mapMembers, ih, List.map_cons]

mutual

theorem mapStrings_id : ∀ j : Json, mapStrings id j = j
  | .null | .bool _ | .number _ | .string _ => rfl
  | .array xs => congrArg array (mapItems_id xs)
  | .object fs => congrArg object (mapMembers_id fs)

theorem mapItems_id : ∀ xs : List Json, mapItems id xs = xs
  | [] => rfl
  | x :: xs => congrArg₂ List.cons (mapStrings_id x) (mapItems_id xs)

theorem mapMembers_id : ∀ fs : List (String × Json), mapMembers id fs = fs
  | [] => rfl
  | (k, x) :: fs => congrArg₂ (fun y gs => (k, y) :: gs) (mapStrings_id x) (mapMembers_id fs)

end

/-- characters in quotes -/
def quoted (cs : List Char) : List Char := '"' :: (cs ++ ['"'])

mutual

/-- the characters of a document whose strings are written in a given way -/
def written (w : String → List Char) : Json → List Char
  | .null => "null".toList
  | .bool b => (if b then "true" else "false").toList
  | .number t => t.toList
  | .string s => quoted (w s)
  | .array [] => "[]".toList
  | .array (x :: xs) => '[' :: (written w x ++ (writtenItems w xs ++ [']']))
  | .object [] => "\x7b\x7d".toList
  | .object ((k, x) :: fs) => '{' :: (quoted (w k) ++ ':' :: (written w x ++ (writtenMembers w fs ++ ['}'])))

/-- the elements behind the first -/
def writtenItems (w : String → List Char) : List Json → List Char
  | [] => []
  | x :: xs => ',' :: (written w x ++ writtenItems w xs)

/-- the members behind the first -/
def writtenMembers (w : String → List Char) : List (String × Json) → List Char
  | [] => []
  | (k, x) :: fs => ',' :: (quoted (w k) ++ ':' :: (written w x ++ writtenMembers w fs))

end

/-- the strings of data documents, escaped -/
def plainly (s : String) : List Char := escaped s.toList

theorem toList_jsonString (s : String) : (Text.jsonString s).toList = quoted (plainly s) := Text.toList_jsonString s

mutual

/-- the text of a document is its written form with the strings escaped -/
theorem text_eq : ∀ j : Json, j.text.toList = written plainly j
  | .null => rfl
  | .bool b => rfl
  | .number t => rfl
  | .string s => toList_jsonString s
  | .array [] => rfl
  | .array (x :: xs) => by
    rw [text, textItems, String.toList_append, String.toList_append, Text.toList_intercalate, written, text_eq x,
      textItems_eq xs]
    simp
  | .object [] => rfl
  | .object ((k, x) :: fs) => by
    rw [text, textFields, String.toList_append, String.toList_append, Text.toList_intercalate, written,
      textFields_eq fs, String.toList_append, String.toList_append, toList_jsonString, text_eq x]
    simp

theorem textItems_eq : ∀ xs : List Json,
    (textItems xs).flatMap (fun t => ",".toList ++ t.toList) = writtenItems plainly xs
  | [] => rfl
  | x :: xs => by
    rw [textItems, writtenItems, List.flatMap_cons, text_eq x, textItems_eq xs]
    simp

theorem textFields_eq : ∀ fs : List (String × Json),
    (textFields fs).flatMap (fun t => ",".toList ++ t.toList) = writtenMembers plainly fs
  | [] => rfl
  | (k, x) :: fs => by
    rw [textFields, writtenMembers, List.flatMap_cons, textFields_eq fs, String.toList_append, String.toList_append,
      toList_jsonString, text_eq x]
    simp

end

end Schemata.Json
