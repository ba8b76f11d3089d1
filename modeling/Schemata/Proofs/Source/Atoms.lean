import Mathlib.Tactic
import Schemata.Source.Lexeme
import Schemata.Proofs.Source.Segments
import Schemata.Proofs.Text.Category

/-!
Reading source text.

A text is read to its atoms, which are words, quoted strings and marks; blanks and comments are passed over (`atoms`). A
reader goes through the text character by character, so two texts are read one after the other wherever no name goes
on from the first into the second (`ReadsAs.append`, `StopsAs.append`). Names, quoted strings, numbers, loads and comments
are read as what they are: `reads_word`, `stops_quote`, `reads_numeral`, `reads_load`, `stops_remark`.
-/

namespace Schemata.Source

/-! ## Readers -/

inductive Atom where
  /-- a longest stretch of characters that names have; a number is read as words and marks -/
  | word (w : String)
  /-- a literal in quote marks, as it stands between them -/
  | quoted (body : String)
  | mark (c : Char)
  deriving Repr, DecidableEq

/-- where a reader stands, and what it has read there, latest first -/
inductive Reader where
  | code
  | word (read : List Char)
  /-- behind a slash, which may begin a comment -/
  | slash
  /-- in a comment that ends with its line -/
  | remark
  /-- in a comment that ends with a star and a slash -/
  | block (star : Bool)
  | quoted (close : Char) (escaped : Bool) (read : List Char)
  deriving Repr, DecidableEq

namespace Reader

/-- a character in code, when no name goes on with it -/
def enter (c : Char) : List Atom × Reader :=
  if c = ' ' ∨ c = '\t' ∨ c = '\n' ∨ c = '\r' then ([], code)
  else if continuesName c then ([], word [c])
  else if c = '"' ∨ c = '\'' ∨ c = '\x60' then ([], quoted c false [])
  else if c = '/' then ([], slash)
  else ([.mark c], code)

def next (c : Char) : Reader → List Atom × Reader
  | code => enter c
  | word read => if continuesName c then ([], word (c :: read)) else (.word (String.ofList read.reverse) :: (enter c).1, (enter c).2)
  | slash =>
    if c = '/' then ([], remark)
    else if c = '*' then ([], block false)
    else (.mark '/' :: (enter c).1, (enter c).2)
  | remark => ([], if c = '\n' then code else remark)
  | block star => ([], if star ∧ c = '/' then code else block (c = '*'))
  | quoted close true read => ([], quoted close false (c :: read))
  | quoted close false read =>
    if c = close then ([.quoted (String.ofList read.reverse)], code)
    else ([], quoted close (c = '\\' ∧ close ≠ '\x60') (c :: read))

def run (r : Reader) : List Char → List Atom × Reader
  | [] => ([], r)
  | c :: cs => ((r.next c).1 ++ ((r.next c).2.run cs).1, ((r.next c).2.run cs).2)

/-- what is still to be told when the text ends -/
def ending : Reader → List Atom
  | word read => [.word (String.ofList read.reverse)]
  | slash => [.mark '/']
  | _ => []

/-- in code or in a word -/
def rests : Reader → Bool
  | code => true
  | word _ => true
  | _ => false

theorem run_append (r : Reader) (xs ys : List Char) :
    r.run (xs ++ ys) = ((r.run xs).1 ++ ((r.run xs).2.run ys).1, ((r.run xs).2.run ys).2) := by
  induction xs generalizing r with
  | nil => rfl
  | cons c xs ih =>
    simp only [List.cons_append, run]
    rw [ih]
    simp only [List.append_assoc]

/-- a word ends where a character comes that no name goes on with -/
theorem run_word {read : List Char} {c : Char} (hc : continuesName c = false) (cs : List Char) :
    (word read).run (c :: cs) = (.word (String.ofList read.reverse) :: (code.run (c :: cs)).1, (code.run (c :: cs)).2) := by
  simp [run, next, hc]

end Reader

/-- the atoms of a text that is given by its characters -/
def atomsOf (cs : List Char) : List Atom := (Reader.code.run cs).1 ++ (Reader.code.run cs).2.ending

/-- the atoms of a text -/
def atoms (t : String) : List Atom := atomsOf t.toList

/-- does the text begin with a character that no name goes on with? -/
def breaks (t : String) : Bool := t.toList.head?.any fun c => !continuesName c

theorem breaks_append {t : String} (h : breaks t = true) (u : String) : breaks (t ++ u) = true := by
  unfold breaks at *
  rw [String.toList_append, List.head?_append]
  cases ht : t.toList.head? with
  | none => simp [ht] at h
  | some c => simpa [ht] using h

/-! ## Texts read as atoms -/

/-- the text is read as these atoms, if no name goes on behind it -/
def ReadsAs (t : String) (as : List Atom) : Prop := (Reader.code.run t.toList).2.rests = true ∧ atoms t = as

/-- the text is read as these atoms, whatever stands behind it -/
def StopsAs (t : String) (as : List Atom) : Prop := Reader.code.run t.toList = (as, .code)

instance (t : String) (as : List Atom) : Decidable (ReadsAs t as) := inferInstanceAs (Decidable (_ ∧ _))

instance (t : String) (as : List Atom) : Decidable (StopsAs t as) := inferInstanceAs (Decidable (_ = _))

variable {t u : String} {as bs : List Atom}

theorem StopsAs.reads (h : StopsAs t as) : ReadsAs t as := by
  unfold StopsAs at h
  simp [ReadsAs, atoms, atomsOf, h, Reader.rests, Reader.ending]

theorem StopsAs.append_reads (ht : StopsAs t as) (hu : ReadsAs u bs) : ReadsAs (t ++ u) (as ++ bs) := by
  obtain ⟨hrests, rfl⟩ := hu
  unfold StopsAs at ht
  simp only [ReadsAs, atoms, atomsOf, String.toList_append, Reader.run_append, ht]
  exact ⟨hrests, List.append_assoc ..⟩

theorem StopsAs.append (ht : StopsAs t as) (hu : StopsAs u bs) : StopsAs (t ++ u) (as ++ bs) := by
  unfold StopsAs at *
  rw [String.toList_append, Reader.run_append, ht, hu]

/-- behind a text in which no name goes on, the next text is read as it is by itself -/
theorem ReadsAs.run (ht : ReadsAs t as) (hb : breaks u = true) : ∃ as', Reader.code.run (t ++ u).toList =
    (as' ++ (Reader.code.run u.toList).1, (Reader.code.run u.toList).2) ∧ as' = as := by
  obtain ⟨hrests, rfl⟩ := ht
  obtain ⟨c, cs, hu, hc⟩ : ∃ c cs, u.toList = c :: cs ∧ continuesName c = false := by
    unfold breaks at hb
    cases hu : u.toList with
    | nil => simp [hu] at hb
    | cons c cs => exact ⟨c, cs, rfl, by simpa [hu] using hb⟩
  refine ⟨_, ?_, rfl⟩
  rw [String.toList_append, Reader.run_append, atoms, atomsOf]
  generalize Reader.code.run t.toList = r at hrests
  obtain ⟨as, r⟩ := r
  cases r with
  | code => simp [Reader.ending]
  | word read => simp [hu, Reader.run_word hc, Reader.ending]
  | _ => cases hrests

theorem ReadsAs.append (ht : ReadsAs t as) (hu : ReadsAs u bs) (hb : breaks u = true) : ReadsAs (t ++ u) (as ++ bs) := by
  obtain ⟨_, hrun, rfl⟩ := ht.run hb
  obtain ⟨hrests, rfl⟩ := hu
  simp only [ReadsAs, atoms, atomsOf, hrun]
  exact ⟨hrests, List.append_assoc ..⟩

theorem ReadsAs.append_stops (ht : ReadsAs t as) (hu : StopsAs u bs) (hb : breaks u = true) : StopsAs (t ++ u) (as ++ bs) := by
  obtain ⟨_, hrun, rfl⟩ := ht.run hb
  unfold StopsAs at *
  rw [hrun, hu]

/-! ## Words -/

/-- is the text one word? -/
def isWord (w : String) : Bool := !w.toList.isEmpty && w.toList.all continuesName

/-- characters that go on with a name are none that a reader looks for first -/
theorem enter_continues {c : Char} (h : continuesName c = true) : Reader.enter c = ([], .word [c]) := by
  have hblank : ¬ (c = ' ' ∨ c = '\t' ∨ c = '\n' ∨ c = '\r') := by
    rintro (rfl | rfl | rfl | rfl) <;> revert h <;> decide
  rw [Reader.enter, if_neg hblank, if_pos h]

theorem reads_word {w : String} (h : isWord w = true) : ReadsAs w [.word w] := by
  have key {read cs : List Char} (h : cs.all continuesName = true) :
      (Reader.word read).run cs = ([], .word (cs.reverse ++ read)) := by
    induction cs generalizing read with
    | nil => rfl
    | cons c cs ih =>
      rw [List.all_cons, Bool.and_eq_true] at h
      simp [Reader.run, Reader.next, h.1, ih h.2]
  have hrun : Reader.code.run w.toList = ([], .word w.toList.reverse) := by
    unfold isWord at h
    cases hw : w.toList with
    | nil => simp [hw] at h
    | cons c cs =>
      rw [hw, List.all_cons, Bool.and_eq_true, Bool.and_eq_true] at h
      simp [Reader.run, Reader.next, enter_continues h.2.1, key h.2.2]
  simp [ReadsAs, atoms, atomsOf, hrun, Reader.rests, Reader.ending]

theorem isWord_append {w v : String} (hw : isWord w = true) (hv : v.toList.all continuesName = true) : isWord (w ++ v) = true := by
  simp only [isWord, Bool.and_eq_true, Bool.not_eq_true'] at *
  rw [String.toList_append]
  refine ⟨?_, by rw [List.all_append, hw.2, hv]; rfl⟩
  simpa using fun h => absurd h (by simpa using hw.1)

theorem continues_nat (n : Nat) : (toString n).toList.all continuesName = true := by
  rw [Text.toList_toString_nat]
  refine List.all_eq_true.2 fun c hc => ?_
  have hdigit := Nat.isDigit_of_mem_toDigits (by decide) (by decide) hc
  rw [continuesName, Text.Category.isDecimalDigit_of_isDigit hdigit, Bool.or_true]

/-! ## Quoted strings -/

/-- a reader in a string goes on over characters that neither end nor escape -/
theorem run_inside_atoms {cs : List Char} (h : ∀ c ∈ cs, c ≠ '"' ∧ c ≠ '\\') (read : List Char) :
    (Reader.quoted '"' false read).run cs = ([], .quoted '"' false (cs.reverse ++ read)) := by
  induction cs generalizing read with
  | nil => rfl
  | cons c cs ih =>
    obtain ⟨hclose, hescape⟩ := h c List.mem_cons_self
    have hnext : (Reader.quoted '"' false read).next c = ([], .quoted '"' false (c :: read)) := by
      simp [Reader.next, hclose, hescape]
    simp [Reader.run, hnext, ih fun d hd => h d (List.mem_cons_of_mem c hd)]

/-- a character as it stands in a quoted string -/
theorem run_quoteChar_atoms (c : Char) (read : List Char) :
    ∃ read', (Reader.quoted '"' false read).run (Text.quoteChar c).toList = ([], .quoted '"' false read') := by
  have hescape (e : Char) (cs : List Char) : (Reader.quoted '"' false read).run ('\\' :: e :: cs) =
      (Reader.quoted '"' false (e :: '\\' :: read)).run cs := by
    simp [Reader.run, Reader.next]
  rcases Text.quoteChar_cases c with ⟨e, -, h⟩ | ⟨hn, h⟩ | ⟨k, w, -, -, h⟩
  · exact ⟨_, by rw [h, hescape]; rfl⟩
  · have hclose : c ≠ '"' := by
      rintro rfl
      exact hn '"' (by decide)
    have hplain : c ≠ '\\' := by
      rintro rfl
      exact hn '\\' (by decide)
    exact ⟨_, by rw [h, run_inside_atoms (by simp [hclose, hplain])]⟩
  · exact ⟨_, by rw [h, hescape, run_inside_atoms fun _ => hex_chars]⟩

theorem stops_quote (s : String) : ∃ body, StopsAs (Text.quote s) [.quoted body] := by
  have hbody (cs read : List Char) : ∃ read', (Reader.quoted '"' false read).run (cs.flatMap fun c => (Text.quoteChar c).toList) =
      ([], .quoted '"' false read') := by
    induction cs generalizing read with
    | nil => exact ⟨read, rfl⟩
    | cons c cs ih =>
      obtain ⟨mid, hmid⟩ := run_quoteChar_atoms c read
      obtain ⟨read', hread⟩ := ih mid
      exact ⟨read', by rw [List.flatMap_cons, Reader.run_append, hmid, hread]; rfl⟩
  obtain ⟨read, hread⟩ := hbody s.toList []
  have hopen (cs : List Char) : Reader.code.run ('"' :: cs) = (Reader.quoted '"' false []).run cs := rfl
  exact ⟨String.ofList read.reverse, by rw [StopsAs, Text.toList_quote, hopen, Reader.run_append, hread]; rfl⟩

/-! ## Comments -/

/-- a comment, up to the end of its line -/
theorem stops_remark {t : String} (h : '\n' ∉ t.toList) : StopsAs ("//" ++ t ++ "\n") [] := by
  have key {cs : List Char} (h : '\n' ∉ cs) : Reader.remark.run cs = ([], .remark) := by
    induction cs with
    | nil => rfl
    | cons c cs ih =>
      have hc : ¬ c = '\n' := fun heq => h (heq ▸ List.mem_cons_self)
      simp [Reader.run, Reader.next, hc, ih fun hmem => h (List.mem_cons_of_mem c hmem)]
  have hopen : Reader.code.run "//".toList = ([], .remark) := by decide
  rw [StopsAs, String.toList_append, String.toList_append, Reader.run_append, Reader.run_append, hopen, key h]
  rfl

/-! ## Numbers -/

/-- what numbers are read as -/
def Atom.isNumeral : Atom → Bool
  | .word w => w.toList.all Source.isNumeral
  | .mark c => Source.isNumeral c
  | .quoted _ => false

theorem enter_numeral {c : Char} (h : isNumeral c = true) : Reader.enter c = ([], .word [c]) ∨ Reader.enter c = ([.mark c], .code) := by
  have hne : ∀ d ∈ [' ', '\t', '\n', '\r', '"', '\'', '\x60', '/'], c ≠ d := by
    rintro d hd rfl
    have hnone : [' ', '\t', '\n', '\r', '"', '\'', '\x60', '/'].all (!isNumeral ·) = true := by decide
    have hno := List.all_eq_true.1 hnone c hd
    rw [h] at hno
    cases hno
  simp only [List.forall_mem_cons] at hne
  simp only [Reader.enter, hne, or_false, if_false]
  split
  · exact .inl rfl
  · exact .inr rfl

/-- in code, or in a word that has characters of numbers only -/
def Reader.inNumeral : Reader → Bool
  | code => true
  | word read => read.all isNumeral
  | _ => false

theorem next_numeral {c : Char} (hc : isNumeral c = true) {r : Reader} (hr : r.inNumeral = true) :
    (r.next c).1.all Atom.isNumeral = true ∧ (r.next c).2.inNumeral = true := by
  have henter : (Reader.enter c).1.all Atom.isNumeral = true ∧ (Reader.enter c).2.inNumeral = true := by
    rcases enter_numeral hc with h | h <;> simp [h, Reader.inNumeral, Atom.isNumeral, hc]
  cases r with
  | code => exact henter
  | word read =>
    have hread : read.all isNumeral = true := hr
    by_cases h : continuesName c = true
    · simp [Reader.next, h, Reader.inNumeral, hc, hread]
    · have hword : Atom.isNumeral (.word (String.ofList read.reverse)) = true := by simpa [Atom.isNumeral] using hread
      simp only [Reader.next, h, Bool.false_eq_true, if_false, List.all_cons, hword, Bool.true_and]
      exact henter
  | _ => cases hr

theorem run_numeral {cs : List Char} (h : cs.all isNumeral = true) {r : Reader} (hr : r.inNumeral = true) :
    (r.run cs).1.all Atom.isNumeral = true ∧ (r.run cs).2.inNumeral = true := by
  induction cs generalizing r with
  | nil => exact ⟨rfl, hr⟩
  | cons c cs ih =>
    rw [List.all_cons, Bool.and_eq_true] at h
    obtain ⟨hatoms, hnext⟩ := next_numeral h.1 hr
    obtain ⟨hrest, hend⟩ := ih h.2 hnext
    exact ⟨by rw [Reader.run, List.all_append, hatoms, hrest]; rfl, hend⟩

/-- a number is read as words and marks that have its characters only -/
theorem reads_numeral {t : String} (h : Numeral t) : ∃ as, ReadsAs t as ∧ as.all Atom.isNumeral = true := by
  obtain ⟨hall, hend⟩ := run_numeral (List.all_eq_true.2 h) (r := .code) rfl
  refine ⟨_, ⟨?_, rfl⟩, ?_⟩
  · generalize (Reader.code.run t.toList).2 = r at hend
    cases r <;> first | rfl | cases hend
  · rw [atoms, atomsOf, List.all_append, hall]
    generalize (Reader.code.run t.toList).2 = r at hend
    cases r with
    | word read => simpa [Reader.ending, Atom.isNumeral, Reader.inNumeral] using hend
    | code => rfl
    | _ => cases hend

/-! ## Loads -/

/-- what a load is read as -/
def loadAtoms (p : Package) (name : String) : List Atom :=
  [.word "require", .mark '(', .quoted p.path, .mark ')', .mark '.', .word name]

theorem reads_load (p : Package) {name : String} (h : isWord name = true) : ReadsAs (load p name) (loadAtoms p name) := by
  have hpath : StopsAs ("require(\"" ++ p.path ++ "\").") [.word "require", .mark '(', .quoted p.path, .mark ')', .mark '.'] := by
    cases p <;> decide
  exact hpath.append_reads (reads_word h)

end Schemata.Source
