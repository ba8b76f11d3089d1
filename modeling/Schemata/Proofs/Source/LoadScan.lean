import Mathlib.Tactic
import Schemata.Source.Loads
import Schemata.Source.Print

/-!
Where loads are found in a source.

A source is a list of segments: code with its quoted strings, the loads of the generator, and names that stand bare (in
comments and clauses). The search for loads knows nothing of segments. It takes any `require(` before a quote mark for the
start of a load, when another quote mark follows, not at once, and behind that one a selection `).Name`.

`Token.straddle` says, of what the author of a schema chose, whether the search finds more than the generator wrote: a
quoted string ends as a load begins and the next quote mark is followed by a selection, or a bare text begins a load.
Main results: `pieces_chars_iff` (the loads found are those of the generator if and only if no load starts outside them)
and `undisturbed_iff` (that is so if and only if nothing straddles).
-/

namespace Schemata.Source

/-! ## Where a load starts -/

/-- the text that a load begins with, up to its first quote mark -/
def opener : List Char := ['r', 'e', 'q', 'u', 'i', 'r', 'e', '(']

/-- does a text ask for a load, if a quote mark follows it? -/
def opens (cs : List Char) : Bool := opener.isSuffixOf cs

/-- does a text behind a quote mark select a name of a load? -/
def selects (cs : List Char) : Bool :=
  match cs with
  | ')' :: '.' :: c :: _ => isIdentStart c
  | _ => false

/-- the text behind the first quote mark -/
def behindQuote (cs : List Char) : List Char := (cs.dropWhile (· != '"')).tail

theorem dropPrefix?_eq_some {ps cs r : List Char} : Text.dropPrefix? ps cs = some r ↔ cs = ps ++ r := by
  induction ps generalizing cs with
  | nil => simp [Text.dropPrefix?, eq_comm]
  | cons p ps ih =>
    cases cs with
    | nil => simp [Text.dropPrefix?]
    | cons c cs =>
      by_cases h : p = c
      · simp [Text.dropPrefix?, h, ih]
      · simp [Text.dropPrefix?, h, eq_comm]

theorem selects_iff {cs : List Char} :
    selects cs = true ↔ ∃ c r, cs = ')' :: '.' :: c :: r ∧ isIdentStart c = true := by
  unfold selects
  split
  · simp
  · rename_i h
    simp only [Bool.false_eq_true, false_iff, not_exists, not_and]
    intro c r hcs
    exact absurd hcs (h c r)

theorem takeWhile_isEmpty {r : List Char} (h : r ≠ []) :
    (r.takeWhile (· != '"')).isEmpty = false ↔ r.head? ≠ some '"' := by
  cases r with
  | nil => exact absurd rfl h
  | cons c r => by_cases hc : c = '"' <;> simp [hc]

/-- a load starts where the opener stands before a quote mark, the next quote mark is not the next character, and a name is
selected behind it -/
theorem scanLoad?_isSome {cs : List Char} :
    (scanLoad? cs).isSome = true ↔
      ∃ r, cs = opener ++ '"' :: r ∧ r.head? ≠ some '"' ∧ selects (behindQuote r) = true := by
  unfold scanLoad?
  cases h : Text.dropPrefix? "require(\"".toList cs with
  | none =>
    simp only [Option.isSome_none, Bool.false_eq_true, false_iff, not_exists, not_and]
    intro r hr
    have : Text.dropPrefix? "require(\"".toList cs = some r := dropPrefix?_eq_some.2 hr
    rw [h] at this
    cases this
  | some r =>
    rw [dropPrefix?_eq_some] at h
    subst h
    have hr : ∀ r', "require(\"".toList ++ r = opener ++ '"' :: r' ↔ r = r' := fun r' => by
      change opener ++ '"' :: r = _ ↔ _
      simp
    simp only [hr, exists_eq_left']
    constructor
    · intro hs
      split at hs
      · rename_i c r2 hp hd
        rw [dropPrefix?_eq_some] at hd
        have hne : r ≠ [] := by rintro rfl; simp at hp
        refine ⟨(takeWhile_isEmpty hne).1 hp, selects_iff.2 ⟨c, r2, ?_, ?_⟩⟩
        · simp [behindQuote, hd]
        · by_contra hc
          simp [hc] at hs
      · simp at hs
    · rintro ⟨hq, hs⟩
      obtain ⟨c, r2, hb, hc⟩ := selects_iff.1 hs
      have hne : r ≠ [] := by rintro rfl; simp [behindQuote] at hb
      obtain ⟨q, w, hd⟩ : ∃ q w, r.dropWhile (· != '"') = q :: w := by
        cases hd : r.dropWhile (· != '"') with
        | nil => simp [behindQuote, hd] at hb
        | cons q w => exact ⟨q, w, rfl⟩
      have hq' : q = '"' := by
        have := List.head?_dropWhile_not (· != '"') r
        simpa [hd] using this
      have hw : w = ')' :: '.' :: c :: r2 := by simpa [behindQuote, hd] using hb
      have hdp : Text.dropPrefix? "\").".toList (r.dropWhile (· != '"')) = some (c :: r2) :=
        dropPrefix?_eq_some.2 (by rw [hd, hq', hw]; rfl)
      simp only [(takeWhile_isEmpty hne).2 hq, hdp, hc, if_true, Option.isSome_some]


/-- the names that loads select -/
def isName (name : String) : Bool :=
  match name.toList with
  | [] => false
  | c :: r => isIdentStart c && r.all isIdentChar

/-- does a text go on with a character that no identifier has? -/
def breaksName (cs : List Char) : Bool := cs.head?.any fun c => !isIdentChar c

theorem takeWhile_quote {p : List Char} (hp : '"' ∉ p) (r : List Char) :
    (p ++ '"' :: r).takeWhile (· != '"') = p ∧ (p ++ '"' :: r).dropWhile (· != '"') = '"' :: r := by
  have hall : ∀ c ∈ p, (c != '"') = true := fun c hc => by
    simp only [bne_iff_ne, ne_eq]
    rintro rfl
    exact hp hc
  rw [List.takeWhile_append_of_pos hall, List.dropWhile_append_of_pos hall]
  simp

theorem takeWhile_name {xs ys : List Char} (hx : ∀ c ∈ xs, isIdentChar c = true) (hy : breaksName ys = true) :
    (xs ++ ys).takeWhile isIdentChar = xs ∧ (xs ++ ys).dropWhile isIdentChar = ys := by
  rw [List.takeWhile_append_of_pos hx, List.dropWhile_append_of_pos hx]
  cases ys with
  | nil => simp [breaksName] at hy
  | cons y ys =>
    have : isIdentChar y = false := by simpa [breaksName] using hy
    simp [this]

theorem Package.path_quoteless (q : Package) : '"' ∉ q.path.toList ∧ q.path.toList.isEmpty = false := by
  cases q <;> decide

/-- a load that the generator writes is found whole, when no identifier goes on behind it -/
theorem scanLoad?_load (q : Package) {name : String} {ys : List Char} (hname : isName name = true)
    (hys : breaksName ys = true) :
    scanLoad? ((load q name).toList ++ ys) = some (q.path, name, ys) := by
  obtain ⟨hquote, hne⟩ := q.path_quoteless
  cases hn : name.toList with
  | nil => simp [isName, hn] at hname
  | cons c r =>
    simp only [isName, hn, Bool.and_eq_true, List.all_eq_true] at hname
    have hall : ∀ x ∈ c :: r, isIdentChar x = true := by
      intro x hx
      rcases List.mem_cons.1 hx with rfl | hx
      · have := hname.1
        simp only [isIdentStart, Bool.or_eq_true] at this
        simp only [isIdentChar, Char.isAlphanum, Bool.or_eq_true]
        tauto
      · exact hname.2 x hx
    have htext : (load q name).toList ++ ys =
        "require(\"".toList ++ (q.path.toList ++ '"' :: (").".toList ++ (c :: r ++ ys))) := by
      simp only [load, String.toList_append, hn, List.append_assoc]
      rfl
    have hdrop : Text.dropPrefix? "require(\"".toList ((load q name).toList ++ ys) = _ :=
      dropPrefix?_eq_some.2 htext
    have hclose : Text.dropPrefix? "\").".toList ('"' :: (").".toList ++ (c :: r ++ ys))) = some (c :: (r ++ ys)) :=
      dropPrefix?_eq_some.2 rfl
    obtain ⟨htake, hrest⟩ := takeWhile_quote hquote (").".toList ++ (c :: r ++ ys))
    obtain ⟨hword, hbehind⟩ := takeWhile_name hall hys
    have hback : String.ofList (c :: r) = name := by rw [← hn, String.ofList_toList]
    simp only [List.cons_append] at hword hbehind
    simp only [scanLoad?, hdrop, htake, hrest, hne, hclose, hname.1, if_true, hword, hbehind, hback,
      String.ofList_toList]

/-! ## Segments -/

/-- a stretch of a source: code with its quoted strings, a load of the generator, or a name that stands bare -/
inductive Segment where
  | code (t : String)
  | load (p : Package) (name : String)
  | bare (t : String)
  deriving Repr, DecidableEq

def Segment.text : Segment → String
  | code t => t
  | load p name => Source.load p name
  | bare t => t

def chars (ss : List Segment) : List Char := ss.flatMap fun s => s.text.toList

theorem chars_cons (s : Segment) (ss : List Segment) : chars (s :: ss) = s.text.toList ++ chars ss := rfl

theorem chars_append (ss ts : List Segment) : chars (ss ++ ts) = chars ss ++ chars ts := List.flatMap_append

/-- the pieces of a source of which only the loads of the generator count as loads; `acc` is the text before, reversed -/
def Segment.pieces (acc : List Char) : List Segment → List Piece
  | [] => if acc.isEmpty then [] else [.words (String.ofList acc.reverse)]
  | load p name :: ss =>
    (if acc.isEmpty then [] else [Piece.words (String.ofList acc.reverse)]) ++ .load p.path name :: pieces [] ss
  | code t :: ss => pieces (t.toList.reverse ++ acc) ss
  | bare t :: ss => pieces (t.toList.reverse ++ acc) ss

/-- no load starts in a text when `ys` follows it -/
def Inert (xs ys : List Char) : Prop := ∀ x' , x' <:+ xs → x' ≠ [] → scanLoad? (x' ++ ys) = none

/-- no load starts outside the loads of the generator -/
def Undisturbed : List Segment → Prop
  | [] => True
  | .load _ _ :: ss => Undisturbed ss
  | s :: ss => Inert s.text.toList (chars ss) ∧ Undisturbed ss

theorem pieces_inert {xs ys : List Char} (h : Inert xs ys) (acc : List Char) :
    pieces acc 0 (xs ++ ys) = pieces (xs.reverse ++ acc) 0 ys := by
  induction xs generalizing acc with
  | nil => rfl
  | cons c xs ih =>
    have hc : scanLoad? (c :: (xs ++ ys)) = none := h (c :: xs) List.suffix_rfl (by simp)
    have ht : Inert xs ys := fun x' hx => h x' (hx.trans (List.suffix_cons c xs))
    have : pieces acc 0 (c :: (xs ++ ys)) = pieces (c :: acc) 0 (xs ++ ys) := by
      simp [pieces, hc]
    simp [this, ih ht]

theorem pieces_skip (acc xs ys : List Char) : pieces acc xs.length (xs ++ ys) = pieces acc 0 ys := by
  induction xs with
  | nil => rfl
  | cons c xs ih => simpa [pieces] using ih

/-- the words before a load, if there are any -/
theorem pieces_load (q : Package) {name : String} {ys : List Char} (hname : isName name = true)
    (hys : breaksName ys = true) (acc : List Char) :
    pieces acc 0 ((load q name).toList ++ ys) =
      (if acc.isEmpty then [] else [Piece.words (String.ofList acc.reverse)]) ++ .load q.path name :: pieces [] 0 ys := by
  have hscan := scanLoad?_load q hname hys
  obtain ⟨xs, hxs⟩ : ∃ xs, (load q name).toList = 'r' :: xs :=
    ⟨(load q name).toList.tail, by simp only [load, String.toList_append]; rfl⟩
  rw [hxs] at hscan ⊢
  have hlen : (xs ++ ys).length - ys.length = xs.length := by simp
  simp only [List.cons_append, pieces, beq_self_eq_true, if_true]
  simp only [List.cons_append] at hscan
  simp only [hscan, hlen, pieces_skip]

/-- what stands before the first load of a text that is not inert -/
theorem pieces_disturbed {xs ys : List Char} (h : ¬ Inert xs ys) (acc : List Char) :
    ∃ x1 x2 path name ps, xs = x1 ++ x2 ∧ x2 ≠ [] ∧
      pieces acc 0 (xs ++ ys) =
        (if (x1.reverse ++ acc).isEmpty then [] else [Piece.words (String.ofList (x1.reverse ++ acc).reverse)])
          ++ .load path name :: ps := by
  induction xs generalizing acc with
  | nil => exact absurd (fun x' hx hne => absurd (List.suffix_nil.1 hx) hne) h
  | cons c xs ih =>
    cases hscan : scanLoad? (c :: (xs ++ ys)) with
    | some l =>
      obtain ⟨path, name, rest⟩ := l
      have hr : c = 'r' := by
        have : (scanLoad? (c :: (xs ++ ys))).isSome = true := by rw [hscan]; rfl
        obtain ⟨r, hr, -⟩ := scanLoad?_isSome.1 this
        exact (List.cons.inj hr).1
      refine ⟨[], c :: xs, path, name, pieces [] ((xs ++ ys).length - rest.length) (xs ++ ys), rfl, by simp, ?_⟩
      simp only [List.cons_append, pieces, hr, beq_self_eq_true, if_true]
      rw [hr] at hscan
      simp only [hscan, List.reverse_nil, List.nil_append]
      rfl
    | none =>
      have hrest : ¬ Inert xs ys := fun hi => h fun x' hx hne => by
        rcases List.suffix_cons_iff.1 hx with rfl | hx
        · exact hscan
        · exact hi x' hx hne
      obtain ⟨x1, x2, path, name, ps, hxs, hne, hp⟩ := ih hrest (c :: acc)
      refine ⟨c :: x1, x2, path, name, ps, by rw [hxs]; rfl, hne, ?_⟩
      have : pieces acc 0 (c :: (xs ++ ys)) = pieces (c :: acc) 0 (xs ++ ys) := by
        simp [pieces, hscan]
      simpa [this] using hp

/-- the words that were read come first -/
theorem Segment.pieces_head {acc : List Char} (hacc : acc ≠ []) (ss : List Segment) :
    ∃ w ps, Segment.pieces acc ss = .words (String.ofList w) :: ps ∧ acc.length ≤ w.length := by
  have he : acc.isEmpty = false := by cases acc with
    | nil => exact absurd rfl hacc
    | cons _ _ => rfl
  induction ss generalizing acc with
  | nil => exact ⟨acc.reverse, [], by simp [Segment.pieces, he], by simp⟩
  | cons s ss ih =>
    have hlong (t : String) : ∃ w ps, Segment.pieces (t.toList.reverse ++ acc) ss = .words (String.ofList w) :: ps ∧
        acc.length ≤ w.length := by
      have hne : t.toList.reverse ++ acc ≠ [] := by simp [hacc]
      obtain ⟨w, ps, hw, hl⟩ := ih hne (by simpa using hne)
      exact ⟨w, ps, hw, le_trans (by simp) hl⟩
    cases s with
    | code t => exact hlong t
    | bare t => exact hlong t
    | load q name => exact ⟨acc.reverse, _, by simp only [Segment.pieces, he]; rfl, by simp⟩

theorem pieces_ne_of_disturbed {xs : List Char} {ss : List Segment} (h : ¬ Inert xs (chars ss)) (acc : List Char) :
    pieces acc 0 (xs ++ chars ss) ≠ Segment.pieces (xs.reverse ++ acc) ss := by
  obtain ⟨x1, x2, path, name, ps, hxs, hne, hp⟩ := pieces_disturbed h acc
  have hpos : 0 < x2.length := List.length_pos_iff.2 hne
  have hacc : xs.reverse ++ acc ≠ [] := by
    intro h0
    simp [hxs, hne] at h0
  obtain ⟨w, qs, hw, hl⟩ := Segment.pieces_head hacc ss
  rw [hp, hw]
  intro he
  split at he
  · cases he
  · have hword := Piece.words.inj (List.cons.inj he).1
    have hlen := congrArg List.length (String.ofList_injective hword)
    simp only [hxs, List.length_append, List.length_reverse] at hlen hl
    omega

/-! ## Code and its quoted strings -/

/-- where a character of code stands: outside of quoted strings, right behind one, inside one, behind a backslash in one -/
inductive Place where
  | outside | closed | inside | escaped
  deriving Repr, DecidableEq

/-- the place behind a character. Code has no `q` outside of quoted strings, and never two of these without a gap. -/
def Place.next : Place → Char → Option Place
  | outside, c => if c = 'q' then none else if c = '"' then some inside else some outside
  | closed, c => if c = 'q' ∨ c = '"' then none else some outside
  | inside, c => if c = '"' then some closed else if c = '\\' then some escaped else some inside
  | escaped, _ => some inside

/-- the place behind a text -/
def Place.run (p : Place) : List Char → Option Place
  | [] => some p
  | c :: cs => (p.next c).bind fun q => run q cs

/-- what the quoted strings of code hold, as it is written; `acc` is what the current one held so far, reversed -/
def contents : Place → (acc : List Char) → List Char → List (List Char)
  | _, _, [] => []
  | .outside, _, c :: cs => contents (if c = '"' then .inside else .outside) [] cs
  | .closed, _, _ :: cs => contents .outside [] cs
  | .inside, acc, c :: cs =>
    if c = '"' then acc.reverse :: contents .closed [] cs
    else contents (if c = '\\' then .escaped else .inside) (c :: acc) cs
  | .escaped, acc, c :: cs => contents .inside (c :: acc) cs

/-- may code end with this character? -/
def endsCode (c : Char) : Bool := c != 'r' && c != 'e'

/-- code that the generator writes in one stretch -/
structure Quiet (t : List Char) : Prop where
  run : Place.outside.run t = some .outside
  last : t.getLast?.all endsCode = true

/-- what the author of a schema chose of a source, and the loads between -/
inductive Token where
  | quoted (content : List Char)
  | load
  | bare (t : List Char)
  deriving Repr, DecidableEq

/-- does the text behind the next quote mark select a name? -/
def Token.next : List Token → Bool
  | [] => false
  | load :: _ => false
  | quoted c :: _ => selects c
  | bare t :: ts => if t.contains '"' then selects (behindQuote t) else next ts

/-- does a load start in a bare text? `behind` says whether the text behind the next quote mark after it selects a name -/
def asks (behind : Bool) : List Char → Bool
  | [] => false
  | c :: cs =>
    (match Text.dropPrefix? (opener ++ ['"']) (c :: cs) with
     | none => false
     | some r => r.head? != some '"' && if r.contains '"' then selects (behindQuote r) else behind)
    || asks behind cs

/-- is there a quoted string that ends as a load begins, where the next one goes on as a load does, or a load in a bare text? -/
def Token.straddle : List Token → Bool
  | [] => false
  | load :: ts => straddle ts
  | quoted c :: ts => (opens c && next ts) || straddle ts
  | bare t :: ts => asks (next ts) t || straddle ts

def Segment.tokens : Segment → List Token
  | code t => (contents .outside [] t.toList).map .quoted
  | load _ _ => [.load]
  | bare t => [.bare t.toList]

/-! ## Looking ahead to the next quote mark -/

/-- does the text behind the first quote mark select a name? -/
def reaches (cs : List Char) : Bool := selects (behindQuote cs)

theorem behindQuote_append {xs : List Char} (ys : List Char) :
    behindQuote (xs ++ ys) = if xs.contains '"' then behindQuote xs ++ ys else behindQuote ys := by
  induction xs with
  | nil => rfl
  | cons c xs ih =>
    by_cases hc : c = '"'
    · simp [behindQuote, hc]
    · have h1 (zs : List Char) : behindQuote (c :: zs) = behindQuote zs := by simp [behindQuote, hc]
      simp [h1, ih, Ne.symm hc]

/-- a text that goes on behind a bare text: it continues no name, no opener and no selection -/
def stops : List Char → Bool
  | c :: d :: _ => c == ' ' || c == '\n' || (c == '.' && d == '\n') || (c == '(' && d == 'v')
  | _ => false

/-- a selection that is not there when a text ends is not made by a text that cannot go on with one -/
theorem selects_append {ys : List Char} (h0 : selects ys = false) (h1 : selects (')' :: ys) = false)
    (h2 : selects (')' :: '.' :: ys) = false) (xs : List Char) : selects (xs ++ ys) = selects xs := by
  match xs with
  | [] => exact h0
  | [x] =>
    by_cases hx : x = ')'
    · subst hx
      exact h1
    · simp [selects, hx]
  | [x, y] =>
    by_cases hx : x = ')' <;> by_cases hy : y = '.'
    · subst hx hy
      exact h2
    all_goals simp [selects, hx, hy]
  | x :: y :: z :: xs =>
    by_cases hx : x = ')' <;> by_cases hy : y = '.' <;> simp [selects, hx, hy]

theorem stops_iff {ys : List Char} : stops ys = true ↔
    ∃ c d r, ys = c :: d :: r ∧ (c = ' ' ∨ c = '\n' ∨ (c = '.' ∧ d = '\n') ∨ (c = '(' ∧ d = 'v')) := by
  match ys with
  | [] => simp [stops]
  | [c] => simp [stops]
  | c :: d :: r => simp [stops, or_assoc]

theorem selects_append_of_stops {ys : List Char} (h : stops ys = true) (xs : List Char) :
    selects (xs ++ ys) = selects xs := by
  obtain ⟨c, d, r, rfl, hcd⟩ := stops_iff.1 h
  rcases hcd with rfl | rfl | ⟨rfl, rfl⟩ | ⟨rfl, rfl⟩ <;>
    exact selects_append (by simp [selects]) (by simp [selects]; try decide) (by simp [selects]; try decide) xs

theorem selects_append_quote (xs ys : List Char) : selects (xs ++ '"' :: ys) = selects xs :=
  selects_append (by simp [selects]) (by simp [selects]) (by simp [selects]; decide) xs

theorem reaches_append_of_stops {ys : List Char} (h : stops ys = true) (xs : List Char) :
    reaches (xs ++ ys) = if xs.contains '"' then reaches xs else reaches ys := by
  unfold reaches
  rw [behindQuote_append]
  split
  · exact selects_append_of_stops h _
  · rfl

theorem reaches_load (q : Package) (name : String) (ys : List Char) :
    reaches ((load q name).toList ++ ys) = false := by
  simp only [load, String.toList_append, List.append_assoc]
  cases q <;> rfl

/-! ## Bare text -/

theorem inert_cons {c : Char} {xs ys : List Char} :
    Inert (c :: xs) ys ↔ scanLoad? (c :: (xs ++ ys)) = none ∧ Inert xs ys := by
  constructor
  · intro h
    exact ⟨h (c :: xs) List.suffix_rfl (by simp), fun x' hx => h x' (hx.trans (List.suffix_cons c xs))⟩
  · rintro ⟨h, hi⟩ x' hx hne
    rcases List.suffix_cons_iff.1 hx with rfl | hx
    · exact h
    · exact hi x' hx hne

theorem inert_append {xs ys zs : List Char} : Inert (xs ++ ys) zs ↔ Inert xs (ys ++ zs) ∧ Inert ys zs := by
  induction xs with
  | nil =>
    simp only [List.nil_append, iff_and_self]
    exact fun _ x' hx hne => absurd (List.suffix_nil.1 hx) hne
  | cons c xs ih => simp only [List.cons_append, inert_cons, ih, List.append_assoc, and_assoc]

/-- an opener with its quote mark does not begin in a bare text and end behind it -/
theorem opener_within {xs ys r : List Char} (h : stops ys = true)
    (he : xs ++ ys = opener ++ '"' :: r) : ∃ r', xs = opener ++ '"' :: r' ∧ r = r' ++ ys := by
  have he' : xs ++ ys = (opener ++ ['"']) ++ r := by simpa using he
  rcases List.append_eq_append_iff.1 he' with ⟨a, h1, h2⟩ | ⟨a, h1, h2⟩
  · cases a with
    | nil => exact ⟨[], by simpa using h1.symm, by simpa using h2.symm⟩
    | cons x a =>
      exfalso
      -- the first two characters behind the text would be the end of the opener
      obtain ⟨c, d, t, rfl, hcd⟩ := stops_iff.1 h
      obtain ⟨rfl, h3⟩ := List.cons.inj h2
      have hmem : ∀ y ∈ c :: a, y ∈ opener ++ ['"'] := fun y hy => by rw [h1]; exact List.mem_append_right _ hy
      have hc := hmem c (by simp)
      rcases hcd with rfl | rfl | ⟨rfl, rfl⟩ | ⟨rfl, rfl⟩
      · revert hc; decide
      · revert hc; decide
      · revert hc; decide
      · cases a with
        | nil =>
          have := congrArg List.getLast? h1
          simp at this
        | cons y a =>
          obtain ⟨rfl, -⟩ := List.cons.inj h3
          exact absurd (hmem 'v' (by simp)) (by decide)
  · exact ⟨a, by simpa using h1, h2⟩

/-- loads in a bare text -/
theorem inert_bare {ys : List Char} (h : stops ys = true) (xs : List Char) :
    Inert xs ys ↔ asks (reaches ys) xs = false := by
  induction xs with
  | nil => exact iff_of_true (fun x' hx hne => absurd (List.suffix_nil.1 hx) hne) rfl
  | cons c xs ih =>
    have hys : ys.head? ≠ some '"' := by
      obtain ⟨c, d, t, rfl, hcd⟩ := stops_iff.1 h
      rcases hcd with rfl | rfl | ⟨rfl, rfl⟩ | ⟨rfl, rfl⟩ <;> simp
    rw [inert_cons, ih, asks, Bool.or_eq_false_iff, and_congr_left_iff]
    intro _
    rw [← Option.not_isSome_iff_eq_none, scanLoad?_isSome]
    cases hd : Text.dropPrefix? (opener ++ ['"']) (c :: xs) with
    | none =>
      simp only [iff_true, not_exists, not_and]
      intro r hr
      obtain ⟨r', hr', -⟩ := opener_within h (show (c :: xs) ++ ys = _ from hr)
      have hsome : Text.dropPrefix? (opener ++ ['"']) (c :: xs) = some r' :=
        dropPrefix?_eq_some.2 (by simpa using hr')
      rw [hd] at hsome
      cases hsome
    | some r =>
      have hr := dropPrefix?_eq_some.1 hd
      have hall : ∀ r', c :: (xs ++ ys) = opener ++ '"' :: r' ↔ r' = r ++ ys := fun r' => by
        have : c :: (xs ++ ys) = opener ++ '"' :: (r ++ ys) := by
          rw [← List.cons_append, hr]
          simp
        rw [this]
        simp [eq_comm]
      have hhead : (r ++ ys).head? ≠ some '"' ↔ (r.head? != some '"') = true := by
        cases r with
        | nil => simpa using hys
        | cons x r => simp
      simp only [hall, exists_eq_left, hhead]
      have := reaches_append_of_stops h r
      unfold reaches at this
      rw [this, ← Bool.and_eq_true, Bool.not_eq_true]
      rfl

/-! ## Code -/

/-- the content of a quoted string as it stands in code: every quote mark in it has a backslash before it -/
structure Content (p : Place) (k : List Char) : Prop where
  first : p = .inside → k.head? ≠ some '"'
  before : ∀ a b, k = a ++ '"' :: b → a.getLast? ≠ some '('

theorem Content.cons {p q : Place} {c : Char} {k : List Char} (hk : Content q k) (hc : c = '"' → p = .escaped)
    (hq : q = .escaped → c = '\\') (hq' : q = .inside ∨ q = .escaped) : Content p (c :: k) := by
  refine ⟨fun hp hhead => ?_, fun a b hab => ?_⟩
  · have := hc (by simpa using hhead)
    rw [hp] at this
    cases this
  · cases a with
    | nil => simp
    | cons x a =>
      obtain ⟨rfl, hk'⟩ := List.cons.inj hab
      cases a with
      | cons y a =>
        rw [List.getLast?_cons_cons]
        exact hk.before _ _ hk'
      | nil =>
        rcases hq' with rfl | rfl
        · exact absurd (by rw [hk']; rfl) (hk.first rfl)
        · simp [hq rfl]

/-- the quoted string that code is in the middle of, and the code behind it -/
theorem contents_inside {p : Place} (hp : p = .inside ∨ p = .escaped) {t : List Char}
    (h : p.run t = some .outside) (acc : List Char) :
    ∃ k t', t = k ++ '"' :: t' ∧ contents p acc t = (acc.reverse ++ k) :: contents .closed [] t' ∧
      Place.closed.run t' = some .outside ∧ Content p k := by
  induction t generalizing p acc with
  | nil => rcases hp with rfl | rfl <;> simp [Place.run] at h
  | cons c t ih =>
    have step {q : Place} (hq : q = .inside ∨ q = .escaped) (hnext : p.next c = some q)
        (hcont : contents p acc (c :: t) = contents q (c :: acc) t)
        (hc : c = '"' → p = .escaped) (hesc : q = .escaped → c = '\\') :
        ∃ k t', c :: t = k ++ '"' :: t' ∧ contents p acc (c :: t) = (acc.reverse ++ k) :: contents .closed [] t' ∧
          Place.closed.run t' = some .outside ∧ Content p k := by
      have hrun : q.run t = some .outside := by simpa [Place.run, hnext] using h
      obtain ⟨k, t', rfl, hk, ht, hK⟩ := ih hq hrun (c :: acc)
      exact ⟨c :: k, t', rfl, by simp [hcont, hk], ht, hK.cons hc hesc hq⟩
    rcases hp with rfl | rfl
    · by_cases hq : c = '"'
      · subst hq
        refine ⟨[], t, rfl, by simp [contents], by simpa [Place.run, Place.next] using h, by simp, fun a b hab => ?_⟩
        simp at hab
      · by_cases hb : c = '\\'
        · exact step (.inr rfl) (by simp [Place.next, hb]) (by simp [contents, hb]) (fun h => absurd h hq) fun _ => hb
        · exact step (.inl rfl) (by simp [Place.next, hb, hq]) (by simp [contents, hb, hq]) (fun h => absurd h hq)
            nofun
    · exact step (.inl rfl) rfl rfl (fun _ => rfl) nofun

/-- loads that start in the content of a quoted string -/
theorem inert_content {p : Place} {k : List Char} (hk : Content p k) {zs : List Char} (hzs : zs.head? ≠ some '"') :
    Inert k ('"' :: zs) ↔ (opens k && reaches zs) = false := by
  rw [← Bool.not_eq_true, Bool.and_eq_true, not_and']
  constructor
  · intro hi hz ho
    obtain ⟨x, rfl⟩ : opener <:+ k := by simpa [opens] using ho
    have hnone := hi opener (List.suffix_append _ _) (by decide)
    have hsome := scanLoad?_isSome.2 ⟨zs, rfl, hzs, hz⟩
    rw [hnone] at hsome
    cases hsome
  · intro hno x' hx hne
    rw [← Option.not_isSome_iff_eq_none, scanLoad?_isSome]
    rintro ⟨r, hr, hhead, hsel⟩
    rcases List.append_eq_append_iff.1 hr with ⟨a, h1, h2⟩ | ⟨a, h1, h2⟩
    · cases a with
      | nil =>
        have hx' : x' = opener := by simpa using h1.symm
        have hzr : zs = r := (List.cons.inj h2).2
        subst hx' hzr
        exact hno hsel (by simpa [opens] using hx)
      | cons y a =>
        obtain ⟨rfl, -⟩ := List.cons.inj h2
        have : '"' ∈ opener := by rw [h1]; simp
        exact absurd this (by decide)
    · cases a with
      | nil =>
        have hx' : x' = opener := by simpa using h1
        have hzr : r = zs := (List.cons.inj h2).2
        subst hx' hzr
        exact hno hsel (by simpa [opens] using hx)
      | cons y a =>
        obtain ⟨rfl, -⟩ := List.cons.inj h2
        obtain ⟨x, rfl⟩ := hx
        refine hk.before (x ++ opener) a (by rw [h1]; simp) ?_
        simp [List.getLast?_append, opener]

/-- a step through code outside of its quoted strings -/
theorem run_outside {p : Place} (hp : p = .outside ∨ p = .closed) {c : Char} {t : List Char}
    (h : p.run (c :: t) = some .outside) :
    c ≠ 'q' ∧ (c = '"' → p = .outside) ∧
      ((c ≠ '"' ∧ Place.outside.run t = some .outside ∧ contents p [] (c :: t) = contents .outside [] t) ∨
        (c = '"' ∧ Place.inside.run t = some .outside ∧ contents p [] (c :: t) = contents .inside [] t)) := by
  by_cases h1 : c = 'q'
  · rcases hp with rfl | rfl <;> simp [Place.run, Place.next, h1] at h
  · by_cases h2 : c = '"'
    · subst h2
      rcases hp with rfl | rfl
      · simpa [Place.run, Place.next, contents] using h
      · simp [Place.run, Place.next] at h
    · rcases hp with rfl | rfl <;> simpa [Place.run, Place.next, contents, h1, h2] using h

theorem run_closed_head {t : List Char} (h : Place.closed.run t = some .outside) (ys : List Char) :
    (t ++ ys).head? ≠ some '"' := by
  cases t with
  | nil => simp [Place.run] at h
  | cons c t =>
    obtain ⟨-, hc, -⟩ := run_outside (.inr rfl) h
    intro hq
    have := hc (by simpa using hq)
    cases this

/-- the next quote mark of code opens its first quoted string -/
theorem reaches_code {p : Place} (hp : p = .outside ∨ p = .closed) {t : List Char} (h : p.run t = some .outside)
    {ys : List Char} {ts : List Token} (hts : reaches ys = Token.next ts) :
    reaches (t ++ ys) = Token.next ((contents p [] t).map .quoted ++ ts) := by
  induction t generalizing p with
  | nil => simpa [contents] using hts
  | cons c t ih =>
    obtain ⟨-, -, ⟨hc, hrun, hcont⟩ | ⟨rfl, hrun, hcont⟩⟩ := run_outside hp h
    · rw [hcont, ← ih (.inl rfl) hrun]
      simp [reaches, behindQuote, hc]
    · obtain ⟨k, t', rfl, hk, -, -⟩ := contents_inside (.inl rfl) hrun []
      rw [hcont, hk]
      have : reaches ('"' :: (k ++ '"' :: t') ++ ys) = selects (k ++ '"' :: (t' ++ ys)) := by
        simp [reaches, behindQuote]
      rw [this, selects_append_quote]
      rfl

/-- code outside of its quoted strings starts no load -/
theorem scanLoad?_outside {p : Place} (hp : p = .outside ∨ p = .closed) {c : Char} {t : List Char}
    (h : p.run (c :: t) = some .outside) (hlast : (c :: t).getLast?.all endsCode = true) (ys : List Char) :
    scanLoad? (c :: (t ++ ys)) = none := by
  rw [← Option.not_isSome_iff_eq_none, scanLoad?_isSome]
  rintro ⟨r, hr, -⟩
  obtain ⟨rfl, hr1⟩ := List.cons.inj hr
  match t with
  | [] => simp [endsCode] at hlast
  | [e] =>
    obtain ⟨rfl, -⟩ := List.cons.inj hr1
    simp [endsCode] at hlast
  | e :: q :: t =>
    obtain ⟨rfl, hr2⟩ := List.cons.inj hr1
    obtain ⟨rfl, -⟩ := List.cons.inj hr2
    rcases hp with rfl | rfl <;> simp [Place.run, Place.next] at h

/-- **Loads in code.** They start in quoted strings alone: in one that ends as an opener, when the next quote mark is
followed by a selection. -/
theorem inert_code {p : Place} (hp : p = .outside ∨ p = .closed) {t : List Char} (h : p.run t = some .outside)
    (hlast : t.getLast?.all endsCode = true) {ys : List Char} {ts : List Token} (hts : reaches ys = Token.next ts) :
    (Inert t ys ∧ Token.straddle ts = false) ↔ Token.straddle ((contents p [] t).map .quoted ++ ts) = false := by
  induction hn : t.length using Nat.strong_induction_on generalizing p t with
  | _ n ih =>
    cases t with
    | nil =>
      have : Inert [] ys := fun x' hx hne => absurd (List.suffix_nil.1 hx) hne
      simp [contents, this]
    | cons c t =>
      have hnone := scanLoad?_outside hp h hlast ys
      have hlast' {t' : List Char} (hs : t' <:+ t) : t'.getLast?.all endsCode = true := by
        obtain ⟨x, rfl⟩ := hs
        cases t' with
        | nil => rfl
        | cons y t' => simpa [List.getLast?_cons, List.getLast?_append] using hlast
      obtain ⟨-, -, ⟨hc, hrun, hcont⟩ | ⟨rfl, hrun, hcont⟩⟩ := run_outside hp h
      · rw [hcont, inert_cons, ← ih t.length (by simp [← hn]) (.inl rfl) hrun (hlast' List.suffix_rfl) rfl]
        simp [hnone]
      · obtain ⟨k, t', rfl, hk, hrun', hK⟩ := contents_inside (.inl rfl) hrun []
        have hhead := run_closed_head hrun' ys
        have hquote : scanLoad? ('"' :: (t' ++ ys)) = none := by
          rw [← Option.not_isSome_iff_eq_none, scanLoad?_isSome]
          rintro ⟨r, hr, -⟩
          cases hr
        have hsuf : t' <:+ k ++ '"' :: t' := (List.suffix_cons _ _).trans (List.suffix_append _ _)
        have hih := ih t'.length (by simp [← hn]; omega) (.inr rfl) hrun' (hlast' hsuf) rfl
        rw [hcont, hk, inert_cons, inert_append, inert_cons, List.cons_append, inert_content hK hhead,
          reaches_code (.inr rfl) hrun' hts]
        simp only [hnone, hquote, true_and, List.reverse_nil, List.nil_append, List.map_cons, List.cons_append,
          Token.straddle, Bool.or_eq_false_iff, ← hih, and_assoc]

/-! ## Sources -/

/-- segments as the generator puts them together -/
def Ready : List Segment → Prop
  | [] => True
  | .load _ name :: ss => isName name = true ∧ breaksName (chars ss) = true ∧ Ready ss
  | .code t :: ss => Quiet t.toList ∧ Ready ss
  | .bare _ :: ss => stops (chars ss) = true ∧ Ready ss

theorem reaches_chars {ss : List Segment} (h : Ready ss) :
    reaches (chars ss) = Token.next (ss.flatMap Segment.tokens) := by
  induction ss with
  | nil => rfl
  | cons s ss ih =>
    cases s with
    | load q name => exact reaches_load q name (chars ss)
    | code t => exact reaches_code (.inl rfl) h.1.run (ih h.2)
    | bare t =>
      rw [chars_cons, Segment.text, reaches_append_of_stops h.1, ih h.2]
      rfl

theorem undisturbed_iff {ss : List Segment} (h : Ready ss) :
    Undisturbed ss ↔ Token.straddle (ss.flatMap Segment.tokens) = false := by
  induction ss with
  | nil => simp [Undisturbed, Token.straddle]
  | cons s ss ih =>
    cases s with
    | load q name => exact ih h.2.2
    | code t =>
      simp only [Undisturbed, ih h.2]
      exact inert_code (.inl rfl) h.1.run h.1.last (reaches_chars h.2)
    | bare t =>
      simp only [Undisturbed, ih h.2, List.flatMap_cons, Segment.tokens, List.cons_append, List.nil_append,
        Token.straddle, Bool.or_eq_false_iff, Segment.text, inert_bare h.1, reaches_chars h.2]

/-- **Loads of a source.** The loads that are found are those of the generator if and only if no text of its author begins
one. -/
theorem pieces_chars_iff {ss : List Segment} (h : Ready ss) (acc : List Char) :
    pieces acc 0 (chars ss) = Segment.pieces acc ss ↔ Undisturbed ss := by
  induction ss generalizing acc with
  | nil => exact iff_of_true rfl trivial
  | cons s ss ih =>
    have words {xs : List Char} (hss : Ready ss) :
        pieces acc 0 (xs ++ chars ss) = Segment.pieces (xs.reverse ++ acc) ss ↔ Inert xs (chars ss) ∧ Undisturbed ss := by
      by_cases hi : Inert xs (chars ss)
      · rw [pieces_inert hi, ih hss]
        simp [hi]
      · exact iff_of_false (pieces_ne_of_disturbed hi acc) fun hu => hi hu.1
    cases s with
    | code t => exact words h.2
    | bare t => exact words h.2
    | load q name =>
      rw [chars_cons, Segment.text, pieces_load q h.1 h.2.1 acc, Segment.pieces, List.append_cancel_left_eq,
        List.cons.injEq, ih h.2.2]
      simp [Undisturbed]

end Schemata.Source
