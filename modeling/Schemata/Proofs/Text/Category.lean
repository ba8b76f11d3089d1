import Mathlib.Tactic
import Schemata.Text.CaseMap
import Schemata.Text.Category

/-!
Classes of characters read off the table.

The table is regular (`Regular`): its runs start one after the other, its classes agree with those of the first 128
characters, and the upper-case forms beyond those are letters. That is checked once, on the decoded runs. From it,
bisection finds the run of a character (`of_eq`), each class is a property of that run (`isLetter_eq`,
`isDecimalDigit_eq`), and the upper-case form of a letter or digit that has one is a letter (`letter_of_shift`).
-/

namespace Schemata.Text.Category

/-! ## Runs in order -/

/-- the last run that starts at or before the code point -/
def last (n : Nat) : List Run → Option Run
  | [] => none
  | r :: rs => if r.start ≤ n then (last n rs).or (some r) else none

theorem start_of_last {n : Nat} {r s : Run} {rs : List Run} (h : last n (r :: rs) = some s) : r.start ≤ n := by
  rw [last] at h
  split at h
  · assumption
  · cases h

theorem last_cons {n : Nat} {r s : Run} {rs : List Run} (h : last n rs = some s) (hle : r.start ≤ n) :
    last n (r :: rs) = some s := by
  rw [last, if_pos hle, h, Option.some_or]

/-- the run at a place is the last one when the next starts after the code point -/
theorem last_of_get {n k : Nat} {r : Run} {rs : List Run} (hrs : rs.Pairwise fun a b => a.start < b.start)
    (hr : rs[k]? = some r) (hle : r.start ≤ n) (hlt : ∀ s, rs[k + 1]? = some s → n < s.start) : last n rs = some r := by
  induction rs generalizing k with
  | nil => simp at hr
  | cons a rs ih =>
    obtain ⟨ha, hrs⟩ := List.pairwise_cons.1 hrs
    cases k with
    | zero =>
      obtain rfl : a = r := by simpa using hr
      have hnone : last n rs = none := by
        cases rs with
        | nil => rfl
        | cons s rs => exact if_neg (not_le.2 (hlt s (by simp)))
      rw [last, if_pos hle, hnone, Option.none_or]
    | succ k =>
      have hr : rs[k]? = some r := by simpa using hr
      exact last_cons (ih hrs hr fun s hs => hlt s (by simpa using hs)) ((ha r (List.mem_of_getElem? hr)).le.trans hle)

/-! ## Stretches -/

/-- the first code point of the runs -/
def first : List Run → Nat
  | [] => 0x110000
  | r :: _ => r.start

/-- a stretch put in front of those after it; it is joined with one that starts where it ends -/
def join (lo hi : Nat) : List (Nat × Nat) → List (Nat × Nat)
  | [] => [(lo, hi)]
  | (lo', hi') :: ss => if hi = lo' then (lo, hi') :: ss else (lo, hi) :: (lo', hi') :: ss

/-- the stretches of code points whose runs have the property, each as its first code point and the one after it -/
def stretches (p : Run → Bool) : List Run → List (Nat × Nat)
  | [] => []
  | r :: rs => if p r then join r.start (first rs) (stretches p rs) else stretches p rs

/-- do all code points of the range lie in one stretch? -/
def within (ss : List (Nat × Nat)) (lo hi : Nat) : Bool := ss.any fun s => hi.ble s.2 && s.1.ble lo

theorem mem_join {lo hi : Nat} {ss : List (Nat × Nat)} {s : Nat × Nat} (h : s ∈ join lo hi ss) :
    s ∈ ss ∨ s = (lo, hi) ∨ s.1 = lo ∧ (hi, s.2) ∈ ss := by
  cases ss with
  | nil => simp_all [join]
  | cons t ss =>
    rw [join] at h
    split at h
    · rename_i heq
      rcases List.mem_cons.1 h with rfl | h
      · exact .inr (.inr ⟨rfl, heq ▸ List.mem_cons_self⟩)
      · exact .inl (List.mem_cons_of_mem _ h)
    · rcases List.mem_cons.1 h with rfl | h
      · exact .inr (.inl rfl)
      · exact .inl h

/-- every code point of a stretch has a run with the property -/
theorem last_of_stretch {p : Run → Bool} {rs : List Run} (hrs : rs.Pairwise fun a b => a.start < b.start)
    {lo hi : Nat} (h : (lo, hi) ∈ stretches p rs) {n : Nat} (hlo : lo ≤ n) (hhi : n < hi) : (last n rs).any p = true := by
  induction rs generalizing lo hi with
  | nil => cases h
  | cons r rs ih =>
    obtain ⟨hr, hrs⟩ := List.pairwise_cons.1 hrs
    -- a code point that belongs to a later run comes after the start of this one
    have hlater {lo hi : Nat} (h : (lo, hi) ∈ stretches p rs) (hlo : lo ≤ n) (hhi : n < hi) :
        (last n (r :: rs)).any p = true := by
      obtain ⟨s, hs, hp⟩ := (Option.any_eq_true _ _).1 (ih hrs h hlo hhi)
      cases rs with
      | nil => cases hs
      | cons t rs =>
        have := hr t List.mem_cons_self
        rw [last_cons hs (this.le.trans (start_of_last hs))]
        exact hp
    have hown (hp : p r = true) (hle : r.start ≤ n) (hlt : n < first rs) : (last n (r :: rs)).any p = true := by
      have hnone : last n rs = none := by
        cases rs with
        | nil => rfl
        | cons t rs => exact if_neg (not_le.2 hlt)
      rw [last, if_pos hle, hnone]
      exact hp
    rw [stretches] at h
    split at h
    · rename_i hp
      rcases mem_join h with h | h | ⟨rfl, h⟩
      · exact hlater h hlo hhi
      · obtain ⟨rfl, rfl⟩ := Prod.mk.inj h
        exact hown hp hlo hhi
      · rcases Nat.lt_or_ge n (first rs) with hlt | hge
        · exact hown hp hlo hlt
        · exact hlater h hge hhi
    · exact hlater h hlo hhi

theorem last_of_within {p : Run → Bool} {rs : List Run} (hrs : rs.Pairwise fun a b => a.start < b.start)
    {lo hi : Nat} (h : within (stretches p rs) lo hi = true) {n : Nat} (hlo : lo ≤ n) (hhi : n < hi) :
    (last n rs).any p = true := by
  obtain ⟨⟨lo', hi'⟩, hmem, hs⟩ := List.any_eq_true.1 h
  simp only [Bool.and_eq_true, Nat.ble_eq] at hs
  exact last_of_stretch hrs hmem (hs.2.trans hlo) (hhi.trans_le hs.1)

/-! ## The table -/

def Run.isLetter (r : Run) : Bool := r.major == 'L'

def Run.isDigit (r : Run) : Bool := r.major == 'N' && r.minor == 'd'

def Run.isOther (r : Run) : Bool := !r.isLetter && !r.isDigit

/-- the characters of the span all go to letters, or none of them is a letter or a digit -/
def raises (letters others : List (Nat × Nat)) (s : CaseMap.Span) : Bool :=
  let low := ((s.start : Int) + s.shift).toNat
  decide (0 ≤ (s.start : Int) + s.shift) &&
    (within letters low (low + (s.count - 1) * s.stride + 1) ||
      ((List.range s.count).all fun k => within letters (low + k * s.stride) (low + k * s.stride + 1)) ||
      within others s.start (s.start + s.count * s.stride))

/-- what the table must be for bisection and for the upper-case forms -/
structure Regular (rs : List Run) : Prop where
  start : first rs = 0
  length : rs.length ≤ 2 ^ 16
  chain : rs.IsChain fun a b => a.start < b.start
  letters : ∀ n < 128, (last n rs).any Run.isLetter = (Char.ofNat n).isAlpha
  digits : ∀ n < 128, (last n rs).any Run.isDigit = (Char.ofNat n).isDigit
  raised : CaseMap.upperSpans.all (raises (stretches Run.isLetter rs) (stretches Run.isOther rs)) = true

instance (rs : List Run) : Decidable (Regular rs) :=
  decidable_of_iff (first rs = 0 ∧ rs.length ≤ 2 ^ 16 ∧ (rs.IsChain fun a b => a.start < b.start) ∧
      (∀ n < 128, (last n rs).any Run.isLetter = (Char.ofNat n).isAlpha) ∧
      (∀ n < 128, (last n rs).any Run.isDigit = (Char.ofNat n).isDigit) ∧
      CaseMap.upperSpans.all (raises (stretches Run.isLetter rs) (stretches Run.isOther rs)) = true)
    ⟨fun ⟨a, b, c, d, e, f⟩ => ⟨a, b, c, d, e, f⟩, fun ⟨a, b, c, d, e, f⟩ => ⟨a, b, c, d, e, f⟩⟩

theorem toList_table : table.toList = read runs.toList := List.toList_toArray

set_option maxRecDepth 100000 in
/-- The text is split into its characters line by line: decoding a text in the kernel is out of reach, decoding a list
of characters is not. -/
theorem checked_runs : ∃ lines css, runs = String.join lines ∧
    List.Forall₂ (fun s cs => s = String.ofList cs) lines css ∧
    Regular (read css.flatten) ∧ (last 0x663 (read css.flatten)).any Run.isDigit = true := by
  apply Exists.intro
  apply Exists.intro
  refine ⟨rfl, ?_, ?_⟩
  · repeat' first | apply List.Forall₂.nil | apply List.Forall₂.cons | with_reducible exact rfl
  · decide +kernel

theorem flatten_eq {lines : List String} {css : List (List Char)}
    (h : List.Forall₂ (fun s cs => s = String.ofList cs) lines css) : (String.join lines).toList = css.flatten := by
  rw [String.toList_join]
  induction h with
  | nil => rfl
  | cons h _ ih => rw [List.flatMap_cons, List.flatten_cons, ih, h, String.toList_ofList]

theorem checked_table : Regular table.toList ∧ (last 0x663 table.toList).any Run.isDigit = true := by
  obtain ⟨lines, css, hruns, hlines, h⟩ := checked_runs
  rw [toList_table, hruns, flatten_eq hlines]
  exact h

theorem regular_table : Regular table.toList := checked_table.1

theorem increasing : table.toList.Pairwise fun a b => a.start < b.start := regular_table.chain.pairwise

/-! ## Bisection -/

theorem find_eq {rs : Array Run} (hrs : rs.toList.Pairwise fun a b => a.start < b.start) {n lo hi fuel : Nat}
    (hlt : lo < hi) (hsize : hi ≤ rs.size) (hfuel : hi - lo ≤ 2 ^ fuel) (hlo : ∀ r, rs[lo]? = some r → r.start ≤ n)
    (hhi : ∀ r, rs[hi]? = some r → n < r.start) : find rs n lo hi fuel = last n rs.toList := by
  have hget (k : Nat) : rs.toList[k]? = rs[k]? := Array.getElem?_toList
  have hfound {lo hi : Nat} (hlt : lo < hi) (hsize : hi ≤ rs.size) (h : hi ≤ lo + 1)
      (hlo : ∀ r, rs[lo]? = some r → r.start ≤ n) (hhi : ∀ r, rs[hi]? = some r → n < r.start) :
      rs[lo]? = last n rs.toList := by
    obtain rfl : hi = lo + 1 := by omega
    obtain ⟨r, hr⟩ : ∃ r, rs[lo]? = some r := ⟨_, Array.getElem?_eq_getElem (by omega)⟩
    rw [hr, last_of_get hrs (by rw [hget, hr]) (hlo r hr) fun s hs => hhi s (by rw [← hget, hs])]
  induction fuel generalizing lo hi with
  | zero => exact hfound hlt hsize (by simpa [Nat.add_comm] using hfuel) hlo hhi
  | succ fuel ih =>
    rw [find]
    split
    · rename_i h
      exact hfound hlt hsize h hlo hhi
    · rename_i h
      have hpow : 2 ^ (fuel + 1) = 2 * 2 ^ fuel := by ring
      obtain ⟨r, hr⟩ : ∃ r, rs[(lo + hi) / 2]? = some r := ⟨_, Array.getElem?_eq_getElem (by omega)⟩
      have hmid {s : Run} (hs : rs[(lo + hi) / 2]? = some s) : r = s := Option.some.inj (hr.symm.trans hs)
      simp only [hr]
      split
      · rename_i hle
        exact ih (by omega) hsize (by omega) (fun s hs => hmid hs ▸ hle) hhi
      · rename_i hgt
        exact ih (by omega) (by omega) (by omega) hlo fun s hs => hmid hs ▸ not_le.1 hgt

theorem find_whole {rs : Array Run} (hrs : rs.toList.Pairwise fun a b => a.start < b.start) (hstart : first rs.toList = 0)
    (hlen : rs.toList.length ≤ 2 ^ 16) (n : Nat) : find rs n 0 rs.size 16 = last n rs.toList := by
  obtain ⟨r, hr, h0⟩ : ∃ r, rs[0]? = some r ∧ r.start = 0 := by
    rw [← Array.getElem?_toList]
    cases h : rs.toList with
    | nil => rw [h] at hstart; cases hstart
    | cons r _ => exact ⟨r, rfl, by rwa [h] at hstart⟩
  have hsize : 0 < rs.size := (Array.getElem?_eq_some_iff.1 hr).1
  refine find_eq hrs hsize le_rfl (by simpa using hlen) (fun s hs => ?_) fun s hs => ?_
  · obtain rfl := Option.some.inj (hr.symm.trans hs)
    exact h0 ▸ Nat.zero_le n
  · rw [Array.getElem?_size] at hs
    cases hs

/-- **Categories.** The category of a character is that of the last run that starts at or before it. -/
theorem of_eq (c : Char) : of c = ((last c.toNat table.toList).map fun r => (r.major, r.minor)).getD ('C', 'n') := by
  rw [of, find_whole increasing regular_table.start regular_table.length]

/-- the first 128 characters have the class that their runs have -/
theorem ascii {p : Char → Bool} {q : Run → Bool} (h : ∀ n < 128, (last n table.toList).any q = p (Char.ofNat n))
    {c : Char} (hc : c.toNat < 128) : p c = (last c.toNat table.toList).any q := by
  rw [h c.toNat hc, Char.ofNat_toNat]

theorem isLetter_eq (c : Char) : isLetter c = (last c.toNat table.toList).any Run.isLetter := by
  rw [isLetter, of_eq]
  split
  · rename_i hc
    exact ascii regular_table.letters hc
  · generalize last c.toNat table.toList = r
    cases r <;> rfl

theorem isDecimalDigit_eq (c : Char) : isDecimalDigit c = (last c.toNat table.toList).any Run.isDigit := by
  rw [isDecimalDigit, of_eq]
  split
  · rename_i hc
    exact ascii regular_table.digits hc
  · generalize last c.toNat table.toList = r
    cases r <;> rfl

theorem isDecimalDigit_of_isDigit {c : Char} (h : c.isDigit = true) : isDecimalDigit c = true := by
  have hlt : c.toNat < 128 := by
    simp only [Char.isDigit, Bool.and_eq_true, decide_eq_true_eq, UInt32.le_iff_toNat_le] at h
    have : c.toNat = c.val.toNat := rfl
    simp at h
    omega
  rw [isDecimalDigit, if_pos hlt, h]

/-! ## Upper-case forms -/

/-- a letter or digit that has another upper-case form has a letter for it -/
theorem isLetter_of_shift {s : CaseMap.Span} (hs : s ∈ CaseMap.upperSpans) {c d : Char} (hc : s.holds c.toNat = true)
    (hd : (d.toNat : Int) = c.toNat + s.shift) (h : isLetter c = true ∨ isDecimalDigit c = true) : isLetter d = true := by
  simp only [CaseMap.Span.holds, Bool.and_eq_true, decide_eq_true_eq, beq_iff_eq] at hc
  obtain ⟨⟨hlo, hhi⟩, hmod⟩ := hc
  obtain ⟨k, hk⟩ : s.stride ∣ c.toNat - s.start := Nat.dvd_of_mod_eq_zero hmod
  have hcount : k < s.count := by
    by_contra hge
    have := Nat.mul_le_mul_left s.stride (not_lt.1 hge)
    rw [Nat.mul_comm s.count] at hhi
    omega
  have hlast : k * s.stride ≤ (s.count - 1) * s.stride := Nat.mul_le_mul_right _ (by omega)
  have hraised := List.all_eq_true.1 regular_table.raised s hs
  simp only [raises, Bool.and_eq_true, Bool.or_eq_true, decide_eq_true_eq] at hraised
  obtain ⟨hpos, hraised⟩ := hraised
  have hplace : d.toNat = ((s.start : Int) + s.shift).toNat + k * s.stride := by
    rw [Nat.mul_comm k]
    omega
  rw [isLetter_eq]
  rcases hraised with (hwhole | hpoints) | hother
  · exact last_of_within increasing hwhole (by omega) (by omega)
  · exact last_of_within increasing (List.all_eq_true.1 hpoints k (List.mem_range.2 hcount)) hplace.ge (by omega)
  · obtain ⟨r, hr, hnone⟩ := (Option.any_eq_true _ _).1 (last_of_within increasing hother hlo hhi)
    simp only [Run.isOther, Bool.and_eq_true, Bool.not_eq_true'] at hnone
    simp [isLetter_eq, isDecimalDigit_eq, hr, hnone] at h

/-- the Arabic-Indic digit three is a digit beyond the first 128 characters -/
theorem isDecimalDigit_three : isDecimalDigit '٣' = true := by
  rw [isDecimalDigit_eq]
  exact checked_table.2

end Schemata.Text.Category
