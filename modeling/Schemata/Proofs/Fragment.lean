import Mathlib.Tactic
import Schemata.Fragment
import Schemata.Proofs.Dict
import Schemata.Proofs.Path

/-!
Which keys a fragment can name.

A fragment is written from keys with tildes and slashes escaped. Read back, each step has its percent escapes resolved first, and
those are never written: a percent sign in a key stands as it is. So a key comes back unless the whole of it reads as text with
percent escapes (`HasEscapes`). Then resolving takes at least one percent sign or digit two away (`weight_decoded`), and what comes back
is another key.

Main result: `find?_ofKeys_iff`. Keys that lead to a value make a fragment that finds it exactly if none of them has such escapes.
-/

namespace Schemata

namespace Uri

/-! ## Characters and their bytes -/

theorem toList_loop (bs : ByteArray) (i : Nat) (seen : List UInt8) :
    ByteArray.toList.loop bs i seen = seen.reverse ++ bs.data.toList.drop i := by
  fun_induction ByteArray.toList.loop bs i seen with
  | case1 i seen hlt ih =>
    have hi : i < bs.data.toList.length := by simpa using hlt
    have hget : bs.get! i = bs.data.toList[i] := by
      rw [Array.getElem_toList]
      exact getElem!_pos bs.data i hlt
    rw [ih, List.drop_eq_getElem_cons hi, hget]
    simp
  | case2 i seen hge =>
    have hle : bs.data.toList.length ≤ i := by simpa using hge
    rw [List.drop_eq_nil_of_le hle, List.append_nil]

/-- the bytes of a character -/
theorem bytes_char (c : Char) : c.toString.toUTF8.toList = String.utf8EncodeChar c := by
  rw [ByteArray.toList, toList_loop, Char.toString, String.toUTF8_eq_toByteArray, String.toByteArray_singleton,
    List.utf8Encode_singleton, List.toList_data_toByteArray]
  simp

/-- bytes start with one character only -/
theorem char_of_bytes {c d : Char} {rest more : List UInt8}
    (h : String.utf8EncodeChar c ++ rest = String.utf8EncodeChar d ++ more) : c = d := by
  have hbytes := congrArg List.toByteArray h
  rw [List.toByteArray_append, List.toByteArray_append] at hbytes
  have hc := ByteArray.utf8DecodeChar?_utf8EncodeChar_append (b := rest.toByteArray) (c := c)
  rw [hbytes, ByteArray.utf8DecodeChar?_utf8EncodeChar_append] at hc
  exact (Option.some_inj.1 hc).symm

/-- a character of a given number of bytes at the start -/
def char? (bs : List UInt8) (n : Nat) : Option (Char × List UInt8) :=
  if bs.length < n then none
  else (String.fromUTF8? ⟨(bs.take n).toArray⟩).bind fun s =>
    match s.toList with
    | [c] => some (c, bs.drop n)
    | _ => none

theorem sequence?_eq (bs : List UInt8) : sequence? bs =
    (char? bs 1).orElse fun _ => (char? bs 2).orElse fun _ => (char? bs 3).orElse fun _ => char? bs 4 := rfl

theorem char?_eq_some_iff {bs rest : List UInt8} {n : Nat} {c : Char} :
    char? bs n = some (c, rest) ↔ n = (String.utf8EncodeChar c).length ∧ bs = String.utf8EncodeChar c ++ rest := by
  have harray : ∀ l : List UInt8, (⟨l.toArray⟩ : ByteArray) = l.toByteArray := fun l => by
    rw [ByteArray.ext_iff, List.data_toByteArray]
  rw [char?, harray]
  constructor
  · intro h
    split at h
    · cases h
    · rename_i hlength
      obtain ⟨s, hs, h⟩ := Option.bind_eq_some_iff.1 h
      split at h
      · rename_i d hd
        obtain ⟨rfl, rfl⟩ : d = c ∧ bs.drop n = rest := by simpa using h
        rw [String.fromUTF8?] at hs
        split at hs
        · obtain rfl := Option.some_inj.1 hs
          have hbytes : (bs.take n).toByteArray = (String.utf8EncodeChar d).toByteArray := by
            rw [← List.utf8Encode_singleton, ← String.toByteArray_ofList, ← hd, String.ofList_toList]
            rfl
          rw [List.toByteArray_inj] at hbytes
          refine ⟨?_, by rw [← hbytes, List.take_append_drop]⟩
          rw [← hbytes, List.length_take]
          omega
        · cases hs
      · cases h
  · rintro ⟨rfl, rfl⟩
    have hvalid : (String.utf8EncodeChar c).toByteArray.IsValidUTF8 := .intro [c] List.utf8Encode_singleton.symm
    have hread : String.fromUTF8 (String.utf8EncodeChar c).toByteArray hvalid = String.singleton c := by
      rw [← String.toByteArray_inj, String.toByteArray_singleton, List.utf8Encode_singleton]
      rfl
    rw [if_neg (by simp), List.take_left, List.drop_left, String.fromUTF8?, dif_pos hvalid, hread]
    simp

theorem sequence?_char (c : Char) (rest : List UInt8) : sequence? (String.utf8EncodeChar c ++ rest) = some (c, rest) := by
  have hown : char? (String.utf8EncodeChar c ++ rest) (String.utf8EncodeChar c).length = some (c, rest) :=
    char?_eq_some_iff.2 ⟨rfl, rfl⟩
  have hother : ∀ n, n ≠ (String.utf8EncodeChar c).length → char? (String.utf8EncodeChar c ++ rest) n = none := by
    intro n hn
    rw [Option.eq_none_iff_forall_ne_some]
    rintro ⟨d, more⟩ h
    obtain ⟨rfl, hbytes⟩ := char?_eq_some_iff.1 h
    exact hn (by rw [char_of_bytes hbytes])
  have hsize : (String.utf8EncodeChar c).length = c.utf8Size := String.length_utf8EncodeChar c
  have hpos := c.utf8Size_pos
  have hle := c.utf8Size_le_four
  rw [sequence?_eq]
  obtain h | h | h | h : (String.utf8EncodeChar c).length = 1 ∨ (String.utf8EncodeChar c).length = 2 ∨
      (String.utf8EncodeChar c).length = 3 ∨ (String.utf8EncodeChar c).length = 4 := by omega
  all_goals
    rw [h] at hown hother
    simp [hown, hother]

theorem eq_of_sequence? {bs rest : List UInt8} {c : Char} (h : sequence? bs = some (c, rest)) :
    bs = String.utf8EncodeChar c ++ rest := by
  have hsome : ∃ n, char? bs n = some (c, rest) := by
    rw [sequence?_eq] at h
    cases h1 : char? bs 1 with
    | some _ => exact ⟨1, by simpa [h1] using h⟩
    | none =>
      cases h2 : char? bs 2 with
      | some _ => exact ⟨2, by simpa [h1, h2] using h⟩
      | none =>
        cases h3 : char? bs 3 with
        | some _ => exact ⟨3, by simpa [h1, h2, h3] using h⟩
        | none => exact ⟨4, by simpa [h1, h2, h3] using h⟩
  obtain ⟨n, hn⟩ := hsome
  exact (char?_eq_some_iff.1 hn).2

/-- bytes of characters are decoded to these -/
theorem decodeBytes_chars (cs : List Char) {fuel : Nat} (h : (cs.flatMap String.utf8EncodeChar).length ≤ fuel) :
    decodeBytes fuel (cs.flatMap String.utf8EncodeChar) = cs := by
  induction cs generalizing fuel with
  | nil => cases fuel <;> rfl
  | cons c cs ih =>
    rw [List.flatMap_cons] at h ⊢
    have hpos : 0 < (String.utf8EncodeChar c).length := by
      rw [String.length_utf8EncodeChar]
      exact c.utf8Size_pos
    rw [List.length_append] at h
    obtain ⟨b, bs, hb⟩ := List.exists_cons_of_length_pos (l := String.utf8EncodeChar c ++ cs.flatMap String.utf8EncodeChar)
      (by rw [List.length_append]; omega)
    obtain ⟨fuel, rfl⟩ : ∃ k, fuel = k + 1 := ⟨fuel - 1, by omega⟩
    have hnext := sequence?_char c (cs.flatMap String.utf8EncodeChar)
    rw [hb] at hnext ⊢
    rw [decodeBytes, hnext]
    simp only
    rw [ih (by omega)]

/-! ## Texts with escapes -/

/-- each percent sign starts an escape -/
inductive Escaped : List Char → Prop
  | nil : Escaped []
  | escape {a b : Char} {cs : List Char} {v : Nat} (hv : hexValue a b = some v) (hcs : Escaped cs) : Escaped ('%' :: a :: b :: cs)
  | plain {c : Char} {cs : List Char} (hc : c ≠ '%') (hcs : Escaped cs) : Escaped (c :: cs)

theorem Escaped.append_left {cs ds : List Char} (hds : Escaped ds) (h : '%' ∉ cs) : Escaped (cs ++ ds) := by
  induction cs with
  | nil => exact hds
  | cons c cs ih => exact .plain (fun heq => h (by simp [heq])) (ih fun hmem => h (List.mem_cons_of_mem c hmem))

theorem Escaped.behind {cs ds : List Char} (h : Escaped (cs ++ ds)) (hcs : '%' ∉ cs) : Escaped ds := by
  induction cs with
  | nil => exact h
  | cons c cs ih =>
    generalize hwhole : c :: cs ++ ds = whole at h
    cases h with
    | nil => cases hwhole
    | escape => exact absurd (List.cons.inj hwhole).1 fun heq => hcs (by simp [heq])
    | plain _ hrest =>
      obtain ⟨rfl, rfl⟩ := List.cons.inj hwhole
      exact ih hrest fun hmem => hcs (List.mem_cons_of_mem c hmem)

theorem wellEscaped_iff {cs : List Char} : wellEscaped .path cs = true ↔ Escaped cs := by
  rw [wellEscaped, Option.isNone_iff_eq_none]
  constructor
  · fun_induction faultIn? .path cs with
    | case1 => simp
    | case2 a b rest v hv ok hok ih => exact fun h => .escape hv (ih h)
    | case3 => simp
    | case4 => simp
    | case5 => simp
    | case6 c rest _ hc _ ih => exact fun h => .plain hc (ih h)
    | case7 => exact fun _ => .nil
  · intro h
    induction h with
    | nil => rfl
    | escape hv _ ih => simp [faultIn?, hv, ih]
    | plain hc _ ih =>
      rw [faultIn?.eq_3 _ _ _ (fun _ _ _ heq => absurd heq hc) hc]
      simpa using ih

/-- texts without percent signs are read as they stand -/
theorem unescapeBytes_free {cs : List Char} (h : '%' ∉ cs) : unescapeBytes cs = cs.flatMap String.utf8EncodeChar := by
  induction cs with
  | nil => simp [unescapeBytes]
  | cons c cs ih =>
    have hc : c ≠ '%' := fun heq => h (by simp [heq])
    rw [unescapeBytes.eq_2 _ _ fun _ _ _ heq => absurd heq hc, ih fun hmem => h (List.mem_cons_of_mem c hmem), bytes_char]
    rfl

theorem escaped_free {cs : List Char} (h : '%' ∉ cs) : Escaped cs := by
  simpa using Escaped.nil.append_left h

theorem unescape?_free {s : String} (h : '%' ∉ s.toList) : unescape? s = some s := by
  rw [unescape?, if_pos (wellEscaped_iff.2 (escaped_free h)), unescapeBytes_free h]
  simp only
  rw [decodeBytes_chars _ le_rfl, String.ofList_toList]

/-! ## What escapes weigh

Percent signs and digits two weigh one each. An escape weighs more than what it stands for: it has a percent sign, and a digit two
if it stands for either of them, `%25` or `%32`. -/

def heavy (c : Char) : Bool := c == '%' || c == '2'

def heavyByte (b : UInt8) : Bool := b == 37 || b == 50

def weight (cs : List Char) : Nat := cs.countP heavy

@[simp] theorem weight_nil : weight [] = 0 := rfl

@[simp] theorem weight_cons (c : Char) (cs : List Char) : weight (c :: cs) = (if heavy c then 1 else 0) + weight cs := by
  rw [weight, List.countP_cons, Nat.add_comm]
  rfl

@[simp] theorem weight_append (cs ds : List Char) : weight (cs ++ ds) = weight cs + weight ds := List.countP_append

theorem heavyByte_iff {n : Nat} (h : n < 256) : heavyByte (UInt8.ofNat n) = true ↔ n = 37 ∨ n = 50 := by
  have heq : ∀ m < 256, UInt8.ofNat n = UInt8.ofNat m ↔ n = m := fun m hm => by
    rw [← UInt8.toNat_inj, UInt8.toNat_ofNat_of_lt' h, UInt8.toNat_ofNat_of_lt' hm]
  rw [heavyByte, Bool.or_eq_true, beq_iff_eq, beq_iff_eq]
  exact or_congr (heq 37 (by decide)) (heq 50 (by decide))

theorem heavy_iff {c : Char} : heavy c = true ↔ c.val.toNat = 37 ∨ c.val.toNat = 50 := by
  have heq : ∀ d : Char, c = d ↔ c.val.toNat = d.val.toNat := fun d => by rw [UInt32.toNat_inj, Char.val_inj]
  rw [heavy, Bool.or_eq_true, beq_iff_eq, beq_iff_eq]
  exact or_congr (heq '%') (heq '2')

/-- the bytes of a character weigh what it weighs -/
theorem countP_utf8 (c : Char) : (String.utf8EncodeChar c).countP heavyByte = if heavy c then 1 else 0 := by
  have hlight : ∀ n : Nat, 128 ≤ n → n < 256 → heavyByte (UInt8.ofNat n) = false := by
    intro n hn hlt
    rw [← Bool.not_eq_true, heavyByte_iff hlt]
    omega
  rw [String.utf8EncodeChar]
  by_cases hascii : c.val.toNat ≤ 127
  · have hsame : heavyByte (UInt8.ofNat c.val.toNat) = heavy c := by
      rw [Bool.eq_iff_iff, heavyByte_iff (by omega), heavy_iff]
    simp only [if_pos hascii, List.countP_cons, List.countP_nil, hsame, Nat.zero_add]
  · have hc : heavy c = false := by
      rw [← Bool.not_eq_true, heavy_iff]
      omega
    rw [hc]
    simp only [if_neg hascii]
    split
    · simp (disch := omega) only [List.countP_cons, List.countP_nil, hlight, Bool.false_eq_true, if_false, Nat.add_zero]
    · split
      · simp (disch := omega) only [List.countP_cons, List.countP_nil, hlight, Bool.false_eq_true, if_false, Nat.add_zero]
      · simp (disch := omega) only [List.countP_cons, List.countP_nil, hlight, Bool.false_eq_true, if_false, Nat.add_zero]

theorem weight_decodeBytes (fuel : Nat) (bs : List UInt8) : weight (decodeBytes fuel bs) ≤ bs.countP heavyByte := by
  fun_induction decodeBytes fuel bs with
  | case1 => simp
  | case2 => simp
  | case3 fuel b bs c rest hnext ih =>
    rw [eq_of_sequence? hnext, List.countP_append, countP_utf8, weight_cons]
    omega
  | case4 fuel b bs hnone ih =>
    rw [weight_cons, if_neg (by decide), List.countP_cons]
    omega

theorem digitOf?_two {c : Char} (h : Number.digitOf? 16 c = some 2) : c = '2' := by
  have hv := (Option.filter_eq_some_iff.1 h).1
  have hle : ∀ d e : Char, d ≤ e ↔ d.val.toNat ≤ e.val.toNat := fun d e => by rw [Char.le_def, UInt32.le_iff_toNat_le]
  rw [← Char.val_inj, ← UInt32.toNat_inj]
  split at hv
  · rename_i hdigit
    have hvalue : c.val.toNat - 48 = 2 := Option.some_inj.1 hv
    have hlow : 48 ≤ c.val.toNat := (hle _ _).1 hdigit.1
    exact (by omega : c.val.toNat = 50)
  · split at hv
    · simp at hv
    · split at hv
      · simp at hv
      · cases hv

theorem digitOf?_lt {c : Char} {n : Nat} (h : Number.digitOf? 16 c = some n) : n < 16 := by
  simpa using (Option.filter_eq_some_iff.1 h).2

theorem heavy_of_hexValue {a b : Char} {v : Nat} (h : hexValue a b = some v) (hv : heavyByte (UInt8.ofNat v) = true) :
    heavy a = true ∨ heavy b = true := by
  rw [hexValue] at h
  split at h
  · rename_i x y hx hy
    obtain rfl := Option.some_inj.1 h
    have hxlt := digitOf?_lt hx
    have hylt := digitOf?_lt hy
    rcases (heavyByte_iff (by omega)).1 hv with hv | hv
    · obtain rfl : x = 2 := by omega
      exact .inl (by rw [digitOf?_two hx]; rfl)
    · obtain rfl : y = 2 := by omega
      exact .inr (by rw [digitOf?_two hy]; rfl)
  · cases h

/-- resolving escapes takes weight away -/
theorem Escaped.weight_lt {cs : List Char} (h : Escaped cs) :
    (unescapeBytes cs).countP heavyByte ≤ weight cs ∧ ('%' ∈ cs → (unescapeBytes cs).countP heavyByte < weight cs) := by
  induction h with
  | nil => simp [unescapeBytes]
  | @escape a b cs v hv _ ih =>
    have hlt : (unescapeBytes ('%' :: a :: b :: cs)).countP heavyByte < weight ('%' :: a :: b :: cs) := by
      rw [unescapeBytes.eq_1, hv]
      simp only [List.countP_cons, weight_cons]
      have hpercent : heavy '%' = true := rfl
      have hdigits := heavy_of_hexValue hv
      rw [hpercent]
      split <;> grind
    exact ⟨hlt.le, fun _ => hlt⟩
  | @plain c cs hc _ ih =>
    rw [unescapeBytes.eq_2 _ _ fun _ _ _ heq => absurd heq hc, bytes_char, List.countP_append, countP_utf8, weight_cons]
    refine ⟨by omega, fun hmem => ?_⟩
    have := ih.2 (by simpa [hc.symm] using hmem)
    omega

/-- a text with escapes is not what they stand for -/
theorem weight_decoded {s t : String} (h : Escaped s.toList) (hpercent : '%' ∈ s.toList) (ht : unescape? s = some t) :
    weight t.toList < weight s.toList := by
  rw [unescape?, if_pos (wellEscaped_iff.2 h)] at ht
  simp only [Option.some_inj] at ht
  rw [← ht, String.toList_ofList]
  exact (weight_decodeBytes _ _).trans_lt (h.weight_lt.2 hpercent)

end Uri

namespace Text

theorem weight_replaceEach {pairs : List (List Char × List Char)} (h : ∀ p ∈ pairs, Uri.weight p.2 = 0) (skip : Nat) (cs : List Char) :
    Uri.weight (replaceEach pairs skip cs) ≤ Uri.weight cs := by
  fun_induction replaceEach pairs skip cs with
  | case1 => simp
  | case2 skip c cs ih => rw [Uri.weight_cons]; omega
  | case3 c cs pat rep hfind ih =>
    rw [Uri.weight_append, Uri.weight_cons, h _ (List.mem_of_find?_eq_some hfind)]
    omega
  | case4 c cs hfind ih =>
    rw [Uri.weight_cons, Uri.weight_cons]
    omega

/-- replacing one character is done at each place for itself -/
theorem toList_replaceAll (s : String) (c : Char) (rep : String) :
    (replaceAll s (String.singleton c) rep).toList = s.toList.flatMap fun d => if d = c then rep.toList else [d] := by
  rw [replaceAll, String.toList_ofList, String.toList_singleton]
  induction s.toList with
  | nil => rfl
  | cons d cs ih =>
    rw [replaceGo, List.flatMap_cons]
    by_cases hd : d = c
    · rw [if_pos (by simp [List.isPrefixOf, hd]), if_pos hd]
      simpa using ih
    · rw [if_neg (by simpa [List.isPrefixOf] using Ne.symm hd), if_neg hd, ih]
      rfl

end Text

namespace Fragment

/-! ## Steps as they are written -/

/-- a character of a key inside a step -/
def written (c : Char) : List Char := if c = '~' then ['~', '0'] else if c = '/' then ['~', '1'] else [c]

theorem toList_escapeToken (k : String) : (escapeToken k).toList = k.toList.flatMap written := by
  rw [escapeToken, show ("~" : String) = String.singleton '~' from rfl, show ("/" : String) = String.singleton '/' from rfl,
    Text.toList_replaceAll, Text.toList_replaceAll, List.flatMap_assoc]
  refine List.flatMap_congr fun c _ => ?_
  by_cases htilde : c = '~'
  · subst htilde
    rfl
  · rw [if_neg htilde, written, if_neg htilde, List.flatMap_singleton]
    rfl

theorem written_plain {c : Char} (htilde : c ≠ '~') (hslash : c ≠ '/') : written c = [c] := by
  rw [written, if_neg htilde, if_neg hslash]

theorem mem_written {c d : Char} (h : d ∈ written c) : d = c ∨ d = '~' ∨ d = '0' ∨ d = '1' := by
  rw [written] at h
  split at h
  · simp only [List.mem_cons, List.not_mem_nil, or_false] at h
    tauto
  · split at h
    · simp only [List.mem_cons, List.not_mem_nil, or_false] at h
      tauto
    · exact .inl (List.mem_singleton.1 h)

theorem percent_mem_written {c : Char} : '%' ∈ written c ↔ c = '%' := by
  constructor
  · intro h
    obtain heq | h | h | h := mem_written h
    · exact heq.symm
    all_goals exact absurd h (by decide)
  · rintro rfl
    exact List.mem_singleton.2 rfl

theorem slash_not_mem_escapeToken (k : String) : '/' ∉ (escapeToken k).toList := by
  rw [toList_escapeToken, List.mem_flatMap]
  rintro ⟨c, -, hc⟩
  obtain rfl | h | h | h := mem_written hc
  · exact absurd hc (by decide)
  all_goals exact absurd h (by decide)

theorem weight_escapeToken (k : String) : Uri.weight (escapeToken k).toList = Uri.weight k.toList := by
  rw [toList_escapeToken]
  induction k.toList with
  | nil => rfl
  | cons c cs ih =>
    rw [List.flatMap_cons, Uri.weight_append, Uri.weight_cons, ih, written]
    split
    · rename_i h; subst h; rfl
    · split
      · rename_i h; subst h; rfl
      · simp

theorem percent_mem_escapeToken {k : String} : '%' ∈ (escapeToken k).toList ↔ '%' ∈ k.toList := by
  simp [toList_escapeToken, List.mem_flatMap, percent_mem_written]

/-- hexadecimal digits stand as they are -/
theorem written_digit {c : Char} (h : (Number.digitOf? 16 c).isSome) : written c = [c] :=
  written_plain (by rintro rfl; exact absurd h (by decide)) (by rintro rfl; exact absurd h (by decide))

theorem digits_of_hexValue {a b : Char} {v : Nat} (h : Uri.hexValue a b = some v) :
    (Number.digitOf? 16 a).isSome ∧ (Number.digitOf? 16 b).isSome := by
  rw [Uri.hexValue] at h
  split at h
  · rename_i hx hy
    simp [hx, hy]
  · cases h

/-- where a hexadecimal digit is read, it was in the key -/
theorem cons_of_written {cs more : List Char} {a : Char} (ha : (Number.digitOf? 16 a).isSome) (h : cs.flatMap written = a :: more) :
    ∃ rest, cs = a :: rest ∧ rest.flatMap written = more := by
  cases cs with
  | nil => cases h
  | cons c rest =>
    rw [List.flatMap_cons] at h
    by_cases hc : c = '~' ∨ c = '/'
    · obtain rfl : a = '~' := by
        rcases hc with rfl | rfl
        · exact (List.cons.inj h).1.symm
        · exact (List.cons.inj h).1.symm
      exact absurd ha (by decide)
    · rw [not_or] at hc
      rw [written_plain hc.1 hc.2] at h
      obtain ⟨rfl, rfl⟩ := List.cons.inj h
      exact ⟨rest, rfl, rfl⟩

theorem escaped_of_written (n : Nat) : ∀ cs : List Char, cs.length ≤ n → Uri.Escaped (cs.flatMap written) → Uri.Escaped cs := by
  -- an escape takes three characters at once, so the induction is on a bound of the length
  induction n with
  | zero =>
    intro cs hlength _
    rw [List.length_eq_zero_iff.1 (Nat.le_zero.1 hlength)]
    exact .nil
  | succ n ih =>
    intro cs hlength h
    cases cs with
    | nil => exact .nil
    | cons c cs =>
      rw [List.length_cons] at hlength
      rw [List.flatMap_cons] at h
      by_cases hc : c = '%'
      · subst hc
        rw [show written '%' = ['%'] from rfl, List.singleton_append] at h
        generalize hmore : cs.flatMap written = more at h
        cases h with
        | plain hc _ => exact absurd rfl hc
        | escape hv hrest =>
          obtain ⟨ha, hb⟩ := digits_of_hexValue hv
          obtain ⟨cs, rfl, hcs⟩ := cons_of_written ha hmore
          obtain ⟨cs, rfl, rfl⟩ := cons_of_written hb hcs
          simp only [List.length_cons] at hlength
          exact .escape hv (ih cs (by omega) hrest)
      · exact .plain hc (ih cs (by omega) (h.behind fun hmem => hc (percent_mem_written.1 hmem)))

/-- writing a key leaves its percent escapes as they are -/
theorem escaped_escapeToken {k : String} : Uri.Escaped (escapeToken k).toList ↔ Uri.Escaped k.toList := by
  rw [toList_escapeToken]
  refine ⟨escaped_of_written _ _ le_rfl, fun h => ?_⟩
  generalize k.toList = cs at h ⊢
  induction h with
  | nil => exact .nil
  | escape hv _ ih =>
    obtain ⟨ha, hb⟩ := digits_of_hexValue hv
    rw [List.flatMap_cons, List.flatMap_cons, List.flatMap_cons, written_digit ha, written_digit hb]
    exact .escape hv ih
  | @plain c cs hc _ ih =>
    rw [List.flatMap_cons]
    exact ih.append_left fun hmem => hc (percent_mem_written.1 hmem)

/-- the escapes of steps, undone -/
theorem replaceEach_written (cs : List Char) :
    Text.replaceEach [("~1".toList, "/".toList), ("~0".toList, "~".toList)] 0 (cs.flatMap written) = cs := by
  induction cs with
  | nil => rfl
  | cons c cs ih =>
    rw [List.flatMap_cons]
    by_cases htilde : c = '~'
    · subst htilde
      rw [show written '~' = ['~', '0'] from rfl]
      exact congrArg ('~' :: ·) ih
    · by_cases hslash : c = '/'
      · subst hslash
        rw [show written '/' = ['~', '1'] from rfl]
        exact congrArg ('/' :: ·) ih
      · rw [written_plain htilde hslash, List.singleton_append, Text.replaceEach]
        have hnone : [("~1".toList, "/".toList), ("~0".toList, "~".toList)].find?
            (fun p => !p.1.isEmpty && p.1.isPrefixOf (c :: cs.flatMap written)) = none := by
          rw [List.find?_eq_none]
          simp [Ne.symm htilde]
        rw [hnone]
        simp only
        rw [ih]

/-! ## Keys that come back -/

/-- a key with percent escapes, all of them well formed -/
def HasEscapes (k : String) : Prop := '%' ∈ k.toList ∧ Uri.wellEscaped .path k.toList = true

instance (k : String) : Decidable (HasEscapes k) := inferInstanceAs (Decidable (_ ∧ _))

-- the one is a text with an escape, the other is none
example : HasEscapes "a%20b" ∧ ¬ HasEscapes "50%" := by decide +kernel

/-- a key comes back from its step unless percent escapes are seen in it -/
theorem unescape_escapeToken (k : String) : unescape (escapeToken k) = k ↔ ¬ HasEscapes k := by
  constructor
  · rintro hback ⟨hpercent, hok⟩
    have hescaped := escaped_escapeToken.2 (Uri.wellEscaped_iff.1 hok)
    obtain ⟨t, ht⟩ : ∃ t, Uri.unescape? (escapeToken k) = some t := by
      rw [Uri.unescape?, if_pos (Uri.wellEscaped_iff.2 hescaped)]
      exact ⟨_, rfl⟩
    have hlt : Uri.weight t.toList < Uri.weight k.toList :=
      weight_escapeToken k ▸ Uri.weight_decoded hescaped (percent_mem_escapeToken.2 hpercent) ht
    have hle : Uri.weight k.toList ≤ Uri.weight t.toList := by
      conv_lhs => rw [← hback, unescape, ht, String.toList_ofList]
      exact Text.weight_replaceEach (by decide) 0 _
    omega
  · intro h
    have hsame : (Uri.unescape? (escapeToken k)).getD (escapeToken k) = escapeToken k := by
      by_cases hpercent : '%' ∈ k.toList
      · have hbad : ¬ Uri.wellEscaped .path (escapeToken k).toList = true := fun hok =>
          h ⟨hpercent, Uri.wellEscaped_iff.2 (escaped_escapeToken.1 (Uri.wellEscaped_iff.1 hok))⟩
        rw [Uri.unescape?, if_neg hbad]
        rfl
      · rw [Uri.unescape?_free fun hmem => hpercent (percent_mem_escapeToken.1 hmem)]
        rfl
    simp only [unescape]
    rw [hsame, toList_escapeToken, replaceEach_written, String.ofList_toList]

/-! ## Fragments of keys -/

/-- the fragment that is written for the keys on the way down -/
def ofKeys : List String → String
  | [] => ""
  | k :: keys => "/" ++ escapeToken k ++ ofKeys keys

/-- the value behind keys, through objects only -/
def follow? (v : Value) : List String → Option Value
  | [] => some v
  | k :: keys =>
    match v with
    | .object fs => (Dict.get? fs k).bind fun w => follow? w keys
    | _ => none

theorem ofKeys_eq (k : String) (keys : List String) : ofKeys (k :: keys) = "/" ++ "/".intercalate ((k :: keys).map escapeToken) := by
  induction keys generalizing k with
  | nil => simp [ofKeys]
  | cons l keys ih =>
    rw [ofKeys, ih, List.map_cons, List.map_cons, List.map_cons, String.intercalate_cons_cons]
    simp only [String.append_assoc]

theorem steps_ofKeys {keys : List String} (hne : keys ≠ []) : steps (ofKeys keys) = keys.map fun k => unescape (escapeToken k) := by
  obtain ⟨k, keys, rfl⟩ := List.exists_cons_of_ne_nil hne
  have hrest : String.ofList ((ofKeys (k :: keys)).toList.drop 1) = "/".intercalate ((k :: keys).map escapeToken) := by
    rw [ofKeys_eq, String.toList_append, show "/".toList = ['/'] from rfl, List.singleton_append, List.drop_succ_cons, List.drop_zero,
      String.ofList_toList]
  rw [steps, hrest, Text.splitOn_intercalate (by simp) fun e he => ?_, List.map_map]
  · rfl
  · obtain ⟨l, -, rfl⟩ := List.mem_map.1 he
    exact slash_not_mem_escapeToken l

theorem find?_ofKeys {root : Value} {keys : List String} (hne : keys ≠ []) :
    find? root (ofKeys keys) = walk? root (keys.map fun k => unescape (escapeToken k)) := by
  have hslash : ofKeys keys ≠ "" := by
    obtain ⟨k, keys, rfl⟩ := List.exists_cons_of_ne_nil hne
    intro h
    simpa [ofKeys] using congrArg String.toList h
  rw [find?, if_neg hslash, steps_ofKeys hne]

/-- a walk along keys that are steps as they stand -/
theorem walk?_of_follow? {keys : List String} {v w : Value} (h : follow? v keys = some w) : walk? v keys = some w := by
  induction keys generalizing v with
  | nil => exact h
  | cons k keys ih =>
    cases v with
    | object fs =>
      obtain ⟨x, hx, hw⟩ := Option.bind_eq_some_iff.1 h
      rw [walk?, show step? (.object fs) k = some x from hx]
      exact ih hw
    | _ => cases h

/-- objects inside each other with one key each -/
def nest (keys : List String) : Value := keys.foldr (fun k v => .object [(k, v)]) (.string "")

theorem follow?_nest (keys : List String) : follow? (nest keys) keys = some (.string "") := by
  induction keys with
  | nil => rfl
  | cons k keys ih => simpa [nest, follow?, Dict.get?] using ih

/-- in objects with one key each only these keys lead on -/
theorem walk?_nest {keys other : List String} {w : Value} (hlength : other.length = keys.length) (h : walk? (nest keys) other = some w) :
    other = keys := by
  induction keys generalizing other with
  | nil => exact List.length_eq_zero_iff.1 hlength
  | cons k keys ih =>
    cases other with
    | nil => cases hlength
    | cons l other =>
      obtain ⟨x, hx, hw⟩ := Option.bind_eq_some_iff.1 h
      have hentry := Dict.mem_of_get? (show Dict.get? [(k, nest keys)] l = some x from hx)
      obtain ⟨rfl, rfl⟩ : l = k ∧ x = nest keys := by simpa using hentry
      rw [ih (Nat.succ.inj hlength) hw]

/-- keys are found by their fragment in every document exactly if each of them comes back -/
theorem finds_iff (keys : List String) :
    (∀ root w, keys ≠ [] ∨ root.isNull = false → follow? root keys = some w → find? root (ofKeys keys) = some w) ↔
      ∀ k ∈ keys, ¬ HasEscapes k := by
  constructor
  · intro h k hk
    have hne : keys ≠ [] := List.ne_nil_of_mem hk
    have hfound := h (nest keys) (.string "") (.inl hne) (follow?_nest keys)
    rw [find?_ofKeys hne] at hfound
    have hback := List.map_eq_map_iff.1 ((walk?_nest (by simp) hfound).trans (List.map_id keys).symm)
    exact (unescape_escapeToken k).1 (hback k hk)
  · intro h root w hroot hw
    by_cases hne : keys = []
    · subst hne
      obtain rfl := Option.some_inj.1 hw
      rw [ofKeys, find?, if_pos rfl, hroot.resolve_left (by simp)]
      rfl
    · have hback : (keys.map fun k => unescape (escapeToken k)) = keys :=
        (List.map_congr_left fun k hk => (unescape_escapeToken k).2 (h k hk)).trans (List.map_id keys)
      rw [find?_ofKeys hne, hback]
      exact walk?_of_follow? hw

/-- Keys that lead to a value make a fragment that finds it, in every document, exactly if none of them has percent escapes that are
all well formed; so it is for the name of a definition among those of a description. -/
theorem find?_ofKeys_iff (keys : List String) (name : String) :
    ((∀ root w, keys ≠ [] ∨ root.isNull = false → follow? root keys = some w → find? root (ofKeys keys) = some w) ↔
      ∀ k ∈ keys, ¬ HasEscapes k) ∧
    ((∀ root w, follow? root ["components", "schemas", name] = some w →
      find? root ("/components/schemas/" ++ escapeToken name) = some w) ↔ ¬ HasEscapes name) := by
  refine ⟨finds_iff keys, ?_⟩
  have hpointer : "/components/schemas/" ++ escapeToken name = ofKeys ["components", "schemas", name] := by
    rw [ofKeys, ofKeys, ofKeys, ofKeys, show escapeToken "components" = "components" by decide +kernel,
      show escapeToken "schemas" = "schemas" by decide +kernel, String.append_empty, ← String.append_assoc, ← String.append_assoc]
    rfl
  have hcomponents : ¬ HasEscapes "components" := by decide +kernel
  have hschemas : ¬ HasEscapes "schemas" := by decide +kernel
  have hkeys := finds_iff ["components", "schemas", name]
  rw [← hpointer] at hkeys
  simpa [hcomponents, hschemas] using hkeys

end Fragment
end Schemata
