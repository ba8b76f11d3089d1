import Mathlib.Algebra.Order.BigOperators.Group.Finset
import Schemata.Proofs.Import.Definitions

/-!
Imports that end.

Conversion goes down into values that are nested less deep, and across to definitions that are not begun yet. Where the
fetcher has finitely many documents, an import comes across finitely many texts, so there are finitely many definitions
to begin (`World.definitions`), and each one that is opened leaves fewer (`free_opened`). Conversions are therefore nested
no deeper than a bound, whatever would be done there (`convertUpTo_pairs`). Main result: `importBy_ends`.
-/

namespace Schemata.Import

open Steps

/-- conversion with any other converter in the place of its bound -/
def convertUpTo (o : Options) (out : Nat → Convert) : (depth : Nat) → (src : Nat) → Convert
  | 0, src => out src
  | depth + 1, src =>
    convertWith o (fun target fragment => define (convertUpTo o out depth target) target fragment)
      (convertUpTo o out depth src) src

/-- leads to definitions that are converted so -/
def visitUpTo (o : Options) (out : Nat → Convert) (depth : Nat) : Visit := fun src fragment =>
  define (convertUpTo o out depth src) src fragment

/-- what the importer does at its bound -/
def atBound : Nat → Convert := fun _ _ _ => stop (.leaf .tooDeep)

theorem convert_eq (o : Options) (depth src : Nat) : convert o depth src = convertUpTo o atBound depth src := by
  induction depth generalizing src with
  | zero => rfl
  | succ depth ih => rw [convert_succ, convertUpTo, ih]; simp only [ih]

theorem convertUpTo_add (o : Options) (out : Nat → Convert) (depth more src : Nat) :
    convertUpTo o out (depth + more) src = convertUpTo o (convertUpTo o out more) depth src := by
  induction depth generalizing src with
  | zero => rw [Nat.zero_add]; rfl
  | succ depth ih => rw [Nat.succ_add, convertUpTo, convertUpTo, ih]; simp only [ih]

/-- the importer is the one that stops at its bound -/
theorem definition_eq (o : Options) : definition o = visitUpTo o atBound o.depth := by
  funext src fragment
  rw [definition, convert_eq, visitUpTo]

/-! ## What an import can come across -/

/-- texts, levels of nesting, addresses that have documents, and room for documents -/
structure World where
  words : Finset String
  height : Nat
  served : Finset String
  room : Nat

/-- the value has no texts and no levels beyond those of the world -/
structure World.Holds (W : World) (v : Value) : Prop where
  texts : ∀ s ∈ texts v, s ∈ W.words
  nesting : nesting v ≤ W.height

/-- what the fetcher has lies in the world -/
def World.Serves (W : World) (o : Options) : Prop :=
  ∀ fetcher uri text, o.fetcher = some fetcher → fetcher uri = .ok text →
    uri ∈ W.served ∧ ∀ root rest, decode text = .ok (root :: rest) → W.Holds root

/-- the definitions that there can be: a document and the fragment of a reference each -/
def World.definitions (W : World) : Finset (Nat × String) :=
  Finset.range W.room ×ˢ W.words.image fun t => (Text.cut t "#").2.1

/-- the addresses that have documents which are not known yet -/
def World.unknown (W : World) (p : Progress) : Finset String := W.served.filter fun u => (p.known.get? u).isNone

/-- the definitions that are not begun yet -/
def World.free (W : World) (p : Progress) : Finset (Nat × String) := W.definitions.filter fun e => !isBegun p e.1 e.2

/-- the documents so far lie in the world, which has room for those that are not known yet and for `more` -/
structure World.Fits (W : World) (more : Nat) (p : Progress) : Prop where
  roots : ∀ (i : Nat) (s : Source), p.sources[i]? = some s → W.Holds s.root
  room : p.sources.size + (W.unknown p).card + more ≤ W.room

variable {W : World} {o : Options} {p q : Progress} {more : Nat}

theorem World.Holds.below {v w : Value} (h : W.Holds w) (hv : Below v w) : W.Holds v :=
  ⟨fun s hs => h.texts s (hv.texts hs), hv.nesting.le.trans h.nesting⟩

theorem World.Holds.find? {root v : Value} {fragment : String} (h : W.Holds root)
    (hv : Fragment.find? root fragment = some v) : W.Holds v :=
  ⟨fun s hs => h.texts s ((find?_texts hv).1 hs), (find?_texts hv).2.trans h.nesting⟩

/-- what is not looked at may change -/
theorem World.Fits.of_eq (h : W.Fits more p) (hs : q.sources = p.sources) (hk : q.known = p.known) : W.Fits more q := by
  constructor
  · rw [hs]
    exact h.roots
  · rw [hs, show W.unknown q = W.unknown p by unfold World.unknown; rw [hk]]
    exact h.room

theorem World.free_of_eq (W : World) (hs : q.sources = p.sources) : W.free q = W.free p := by
  unfold World.free isBegun
  rw [hs]

/-- changes of a document other than of its value -/
theorem World.Fits.modify (h : W.Fits more p) (src : Nat) {f : Source → Source} (hf : ∀ s, (f s).root = s.root)
    (hs : q.sources = p.sources.modify src f) (hk : q.known = p.known) : W.Fits more q := by
  constructor
  · intro i s hi
    rw [hs, Array.getElem?_modify] at hi
    split at hi
    · obtain ⟨s', hs', rfl⟩ := Option.map_eq_some_iff.1 hi
      rw [hf]
      exact h.roots i s' hs'
    · exact h.roots i s hi
  · rw [hs, Array.size_modify, show W.unknown q = W.unknown p by unfold World.unknown; rw [hk]]
    exact h.room

/-- fewer definitions are free where more are begun -/
theorem World.free_subset (W : World) (h : ∀ t f, isBegun p t f = true → isBegun q t f = true) : W.free q ⊆ W.free p := by
  intro e he
  simp only [World.free, Finset.mem_filter, Bool.not_eq_true'] at he ⊢
  refine ⟨he.1, ?_⟩
  cases hb : isBegun p e.1 e.2 with
  | false => rfl
  | true => rw [h e.1 e.2 hb] at he; cases he.2

/-- **A definition that is opened was free, and is no more.** -/
theorem free_opened (hfits : W.Fits more p) {src : Nat} {s : Source} (hs : p.sources[src]? = some s) {fragment : String}
    (hnew : isBegun p src fragment = false) (hword : fragment ∈ W.words.image fun t => (Text.cut t "#").2.1) :
    (W.free (opened p src fragment)).card < (W.free p).card := by
  have hsrc : src < p.sources.size := by
    by_contra hle
    rw [Array.getElem?_eq_none (not_lt.1 hle)] at hs
    cases hs
  have hmem : (src, fragment) ∈ W.free p := by
    simp only [World.free, World.definitions, Finset.mem_filter, Finset.mem_product, Finset.mem_range, hnew, Bool.not_false,
      and_true]
    exact ⟨by have := hfits.room; omega, hword⟩
  have hopened := isBegun_opened p hs fragment
  have hnot : (src, fragment) ∉ W.free (opened p src fragment) := by
    intro h
    have := (Finset.mem_filter.1 h).2
    rw [(hopened src fragment).2 (.inr ⟨rfl, rfl⟩)] at this
    cases this
  have hsub : W.free (opened p src fragment) ⊆ W.free p := W.free_subset fun t g h => (hopened t g).2 (.inl h)
  exact Finset.card_lt_card ((Finset.ssubset_iff_of_subset hsub).2 ⟨_, hmem, hnot⟩)

/-! ## Runs that do not see the bound -/

/-- two runs in the same state, with at most `m` definitions still free -/
def within (W : World) (more m : Nat) : Coupling where
  related p q := p = q ∧ W.Fits more p ∧ (W.free p).card ≤ m
  leads _ _ := True
  owns _ _ := True
  stands _ _ := True

theorem onGraph_within {α : Type} (W : World) (more m : Nat) (before : Progress → Nat → Prop) (us : List Nat)
    (act : GraphM α) (g : α → List Nat) :
    (within W more m).Steps before (fun _ _ => True) us (onGraph act) (onGraph act) g := by
  rintro p _ ⟨rfl, hfits, hfree⟩ -
  exact ⟨rfl, ⟨rfl, hfits.of_eq rfl rfl, hfree⟩, fun _ _ => ⟨trivial, fun _ _ => trivial⟩⟩

theorem World.unknown_subset (W : World) {uri : String} {i : Nat} (h : q.known = p.known.insert uri i) :
    W.unknown q ⊆ W.unknown p := by
  intro u hu
  simp only [World.unknown, h, Finset.mem_filter, Dict.get?_insert] at hu ⊢
  refine ⟨hu.1, ?_⟩
  by_cases huri : uri = u
  · rw [if_pos huri] at hu
    cases hu.2
  · rw [if_neg huri] at hu
    exact hu.2

/-- a document is added that there was room for -/
theorem World.Fits.push {less : Nat} (h : W.Fits more p) {uri : String} {root : Value} (hroot : W.Holds root)
    (hs : q.sources = p.sources.push { uri, root }) (hroom : (W.unknown q).card + 1 + less ≤ (W.unknown p).card + more) :
    W.Fits less q := by
  constructor
  · intro i s hi
    rw [hs, Array.getElem?_push] at hi
    split at hi
    · cases hi
      exact hroot
    · exact h.roots i s hi
  · have := h.room
    rw [hs, Array.size_push]
    omega

/-- one document more, and one address less to come -/
theorem fits_fetched (hW : W.Serves o) (h : W.Fits more p) {fetcher : Fetcher} {uri text : String} {root : Value}
    {rest : List Value} (hf : o.fetcher = some fetcher) (ht : fetcher uri = .ok text) (hd : decode text = .ok (root :: rest))
    (hk : p.known.get? uri = none) : W.Fits more (fetched p uri root) := by
  obtain ⟨hserved, hroot⟩ := hW fetcher uri text hf ht
  have hsub : W.unknown (fetched p uri root) ⊆ W.unknown p := W.unknown_subset rfl
  have hmem : uri ∈ W.unknown p := by simp [World.unknown, hserved, hk]
  have hnot : uri ∉ W.unknown (fetched p uri root) := by simp [World.unknown, fetched, Dict.get?_insert]
  have hcard := Finset.card_lt_card ((Finset.ssubset_iff_of_subset hsub).2 ⟨_, hmem, hnot⟩)
  exact h.push (hroot root rest hd) rfl (by omega)

theorem locate_within (hW : W.Serves o) (m src : Nat) (ref : String) (hfits : W.Fits more p) (hfree : (W.free p).card ≤ m) :
    W.Fits more (locate o src ref p).2 ∧ (W.free (locate o src ref p).2).card ≤ m := by
  rcases locate_cases o src ref p.sources p.known with ⟨r, hr, -⟩ | ⟨fetcher, uri, text, root, rest, hf, ht, hd, hk, hr⟩
  · rw [hr p rfl rfl]
    exact ⟨hfits, hfree⟩
  · rw [hr p rfl rfl]
    refine ⟨fits_fetched hW hfits hf ht hd hk, le_trans (Finset.card_le_card (W.free_subset fun t g h => ?_)) hfree⟩
    rwa [isBegun_push (q := fetched p uri root) uri root rfl]

theorem within_sound (hW : W.Serves o) (more m : Nat) : (within W more m).Sound o where
  refl _ := trivial
  trans _ _ := trivial
  keeps _ _ := trivial
  stays _ _ := trivial
  stands _ := trivial
  sources h := by rw [h.1]
  pruning h := by rw [h.1]
  nodes h := by rw [h.1]
  make options children settings _ _ := onGraph_within W more m _ _ _ _
  join options children settings _ _ := onGraph_within W more m _ _ _ _
  optional n := onGraph_within W more m _ _ _ _
  apply n settings _ := onGraph_within W more m _ _ _ _
  warn text := by
    rintro p _ ⟨rfl, hfits, hfree⟩ -
    exact ⟨rfl, ⟨rfl, hfits.of_eq rfl rfl, hfree⟩, fun _ _ => ⟨trivial, fun _ _ => trivial⟩⟩
  locate src ref p q h := by
    obtain ⟨rfl, hfits, hfree⟩ := h
    exact ⟨rfl, ⟨rfl, locate_within hW m src ref hfits hfree⟩, trivial⟩

theorem refer_within (W : World) (more m : Nat) (us : List Nat) (src : Nat) (fragment : String) (g : Nat → List Nat) :
    (within W more m).Pairs us (refer src fragment) (refer src fragment) g := by
  rintro p _ ⟨rfl, hfits, hfree⟩ -
  have hkeep : (refer src fragment p).2.sources = p.sources ∧ (refer src fragment p).2.known = p.known := by
    unfold refer
    rw [bind_apply, onGraph_apply]
    rcases (GraphM.defer .missing [] p.graph).1 with e | n
    · exact ⟨rfl, rfl⟩
    · exact ⟨rfl, rfl⟩
  refine ⟨rfl, ⟨rfl, hfits.of_eq hkeep.1 hkeep.2, ?_⟩, fun _ _ => ⟨trivial, fun _ _ => trivial⟩⟩
  rwa [W.free_of_eq hkeep.1]

theorem conclude_within (hW : W.Serves o) (more m : Nat) (us : List Nat) (src : Nat) (fragment : String) (s : Source)
    (v : Value) (n : Nat) (g : Option Nat → List Nat) :
    (within W more m).Pairs us (conclude src fragment s v n) (conclude src fragment s v n) g := by
  have hC := within_sound hW more m
  have hchange : (within W more m).Pairs (us ++ []) (changeSource src (entered fragment n)) (changeSource src (entered fragment n))
      fun _ => [] := by
    rintro p _ ⟨rfl, hfits, hfree⟩ -
    refine ⟨rfl, ⟨rfl, hfits.modify src (f := entered fragment n) (fun _ => rfl) rfl rfl, ?_⟩, fun _ _ => ⟨trivial, by simp⟩⟩
    refine le_trans (Finset.card_le_card (W.free_subset fun t g h => ?_)) hfree
    exact (isBegun_entered rfl t g).2 (.inl h)
  have hname : (within W more m).Pairs us (nameDefinition s fragment v n) (nameDefinition s fragment v n) fun _ => [] :=
    fun p q hpq _ => nameDefinition_pairs hC s fragment v (List.mem_singleton_self n) p q hpq fun _ _ => trivial
  refine .bind hC hname fun _ _ => .bind hC hchange fun _ _ => ?_
  exact fun p q hpq _ => ⟨rfl, hpq, fun _ _ => ⟨trivial, fun _ _ => trivial⟩⟩

variable {out out' : Nat → Convert}

/-- **Definitions.** They are built alike when their values are converted alike, with as many definitions to begin as are free once
they are opened. -/
theorem define_within (hW : W.Serves o) {m src : Nat} {fragment : String} {convert convert' : Convert}
    (hbuild : ∀ p s, W.Fits more p → (W.free p).card ≤ m → p.sources[src]? = some s → isBegun p src fragment = false →
      ∃ m', m' ≤ m ∧ (W.free (opened p src fragment)).card ≤ m' ∧ ∀ v, W.Holds v →
        (within W more m').Pairs [] (convert v fragment) (convert' v fragment) fun n => [n]) :
    (within W more m).Pairs [] (define convert src fragment) (define convert' src fragment) fun _ => [] := by
  rintro p _ ⟨rfl, hfits, hfree⟩ -
  rcases define_cases src fragment p with ⟨r, hr, -⟩ | ⟨hnew, s, v, hs, hv, hr⟩
  · rw [hr convert p rfl, hr convert' p rfl]
    exact ⟨rfl, ⟨rfl, hfits, hfree⟩, fun _ _ => ⟨trivial, by simp⟩⟩
  · obtain ⟨m', hm', hleft, hconvert⟩ := hbuild p s hfits hfree hs hnew
    have hopened : (within W more m').related (opened p src fragment) (opened p src fragment) :=
      ⟨rfl, hfits.modify src (f := fun s => { s with building := fragment :: s.building }) (fun _ => rfl) rfl rfl, hleft⟩
    have hpairs : (within W more m').Pairs [] (convert v fragment >>= conclude src fragment s v)
        (convert' v fragment >>= conclude src fragment s v) fun _ => [] := by
      refine .bind (within_sound hW more m') (hconvert v ((hfits.roots src s hs).find? hv)) fun n _ => ?_
      exact conclude_within hW more m' _ src fragment s v n _
    obtain ⟨heq, ⟨hsame, hfits', hfree'⟩, -⟩ := hpairs _ _ hopened (by simp)
    rw [hr convert p rfl, hr convert' p rfl]
    exact ⟨heq, ⟨hsame, hfits', by omega⟩, fun _ _ => ⟨trivial, by simp⟩⟩

theorem located_within (hW : W.Serves o) (more m src : Nat) (ref place : String) :
    (within W more m).Pairs [] (located o src ref place) (located o src ref place) fun _ => [] := by
  rintro p _ ⟨rfl, hfits, hfree⟩ -
  exact ⟨rfl, ⟨rfl, locate_within hW m src ref hfits hfree⟩, fun _ _ => ⟨trivial, by simp⟩⟩

/-- **The bound is not met.** With `m` definitions still free, each of them and the value at hand need as many levels as a value can
have. -/
theorem convertUpTo_pairs (hW : W.Serves o) (out out' : Nat → Convert) (more m : Nat) {levels depth : Nat}
    (hdepth : m * W.height + levels ≤ depth) {v : Value} (hv : W.Holds v) (hlevels : nesting v ≤ levels) (src : Nat)
    (place : String) :
    (within W more m).Pairs [] (convertUpTo o out depth src v place) (convertUpTo o out' depth src v place) fun n => [n] := by
  induction m using Nat.strong_induction_on generalizing levels depth v src place with
  | _ m ihm =>
    induction levels generalizing depth v place with
    | zero =>
      have := nesting_pos v
      omega
    | succ levels ih =>
      obtain ⟨depth, rfl⟩ : ∃ d, depth = d + 1 := ⟨depth - 1, by omega⟩
      rw [convertUpTo, convertUpTo]
      apply convertWith_pairs (within_sound hW more m)
      · rintro m' rfl w place hw
        have := hw.nesting
        exact ih (by omega) (hv.below hw) (by omega) place
      · rintro m' ref rfl href
        have hC := within_sound hW more m
        refine .bind hC (located_within hW more m src ref place) fun t ht => ?_
        refine .bind hC (g := fun _ => []) ?_ fun _ _ => refer_within W more m _ t.1 t.2 _
        have hword : t.2 ∈ W.words.image fun t => (Text.cut t "#").2.1 := by
          rw [located_fragment ht]
          exact Finset.mem_image_of_mem _ (hv.texts ref (texts_text? href))
        refine define_within hW fun p s hfits hfree hs hnew => ?_
        have hless := free_opened hfits hs hnew hword
        obtain ⟨m, rfl⟩ : ∃ k, m = k + 1 := ⟨m - 1, by omega⟩
        refine ⟨m, Nat.le_succ m, by omega, fun w hw => ?_⟩
        rw [Nat.succ_mul] at hdepth
        exact ihm m (Nat.lt_succ_self m) (by omega : m * W.height + W.height ≤ depth) hw hw.nesting t.1 t.2

/-! ## Imports -/

/-- levels that are enough in a world -/
def World.depth (W : World) : Nat := W.definitions.card * W.height + W.height

theorem World.Fits.mono {less : Nat} (h : W.Fits more p) (hle : less ≤ more) : W.Fits less p :=
  ⟨h.roots, (Nat.add_le_add_left hle _).trans h.room⟩

theorem visit_same (hW : W.Serves o) (out out' : Nat → Convert) (more src : Nat) (fragment : String) :
    Same (W.Fits more) (visitUpTo o out W.depth src fragment) (visitUpTo o out' W.depth src fragment) := by
  intro p hfits
  have hall (p : Progress) : (W.free p).card ≤ W.definitions.card := Finset.card_le_card (Finset.filter_subset _ _)
  have hpairs : (within W more W.definitions.card).Pairs [] (visitUpTo o out W.depth src fragment)
      (visitUpTo o out' W.depth src fragment) fun _ => [] := by
    refine define_within hW fun p s _ _ _ _ => ⟨_, le_rfl, hall _, fun v hv => ?_⟩
    exact convertUpTo_pairs hW out out' more _ (le_refl W.depth) hv hv.nesting src fragment
  obtain ⟨heq, ⟨hsame, hfits', -⟩, -⟩ := hpairs p p ⟨rfl, hfits, hall p⟩ (by simp)
  exact ⟨Prod.ext heq hsame, hfits'⟩

/-- steps that do the same are followed alike -/
theorem Same.bind_eq {α β : Type} {P : Progress → Prop} {x y : ImportM α} (h : Same P x y) {p : Progress} (hp : P p)
    {f f' : α → ImportM β} (hf : ∀ a q, P q → f a q = f' a q) : (x >>= f) p = (y >>= f') p := by
  obtain ⟨heq, hkeep⟩ := h p hp
  rw [bind_apply, bind_apply, ← heq]
  rcases hx : x p with ⟨e | a, q⟩
  · rfl
  · rw [hx] at hkeep
    exact hf a q hkeep

theorem openDocument_fits (o : Options) {v : Value} (hv : W.Holds v) (h : W.Fits (more + 1) p) :
    ∃ i q, openDocument o v p = (.ok i, q) ∧ W.Fits more q := by
  unfold openDocument
  by_cases hbase : o.baseUri = ""
  · refine ⟨p.sources.size, { p with sources := p.sources.push { uri := o.baseUri, root := v } }, ?_, h.push hv rfl ?_⟩
    · simp only [hbase, ne_eq, not_true_eq_false, if_false]
      rfl
    · exact (by omega : (W.unknown p).card + 1 + more ≤ (W.unknown p).card + (more + 1))
  · refine ⟨p.sources.size, { p with
      sources := p.sources.push { uri := o.baseUri, root := v }
      known := p.known.insert o.baseUri p.sources.size }, ?_, h.push hv rfl ?_⟩
    · simp only [hbase, ne_eq, not_false_eq_true, if_true]
      rfl
    · have := Finset.card_le_card (W.unknown_subset (p := p)
        (q := { p with
          sources := p.sources.push { uri := o.baseUri, root := v }
          known := p.known.insert o.baseUri p.sources.size }) rfl)
      omega

section Imports

variable (hW : W.Serves o) (out out' : Nat → Convert)

include hW

theorem rootEntry_eq {v : Value} (hv : W.Holds v) (h : W.Fits 1 p) :
    rootEntry (visitUpTo o out W.depth) o v p = rootEntry (visitUpTo o out' W.depth) o v p := by
  obtain ⟨i, q, hopen, hq⟩ := openDocument_fits o hv h
  unfold rootEntry
  rw [bind_of_ok hopen, bind_of_ok hopen]
  exact Same.bind_eq (visit_same hW out out' 0 i "") hq fun _ _ _ => rfl

theorem componentEntries_same (src : Nat) (lead : String) (names : List String) :
    Same (W.Fits more) (componentEntries (visitUpTo o out W.depth) src lead names)
      (componentEntries (visitUpTo o out' W.depth) src lead names) := by
  induction names with
  | nil => exact .pure _
  | cons name names ih =>
    exact (visit_same hW out out' more src _).bind fun n => ih.bind fun entries => .pure _

theorem apiEntries_eq {v : Value} (hv : W.Holds v) (h : W.Fits 1 p) :
    apiEntries (visitUpTo o out W.depth) o v p = apiEntries (visitUpTo o out' W.depth) o v p := by
  obtain ⟨i, q, hopen, hq⟩ := openDocument_fits o hv h
  unfold apiEntries
  rw [bind_of_ok hopen, bind_of_ok hopen]
  cases Fragment.find? v "/components/schemas" with
  | some w => exact (componentEntries_same hW out out' i _ _ q hq).1
  | none => exact (componentEntries_same hW out out' i _ _ q hq).1

theorem resourceEntries_eq {docs : List Value} (hdocs : ∀ v ∈ docs, ∀ s, resourceSchema? v = some s → W.Holds s)
    (h : W.Fits docs.length p) (seen : List String) :
    resourceEntries (visitUpTo o out W.depth) o seen docs p = resourceEntries (visitUpTo o out' W.depth) o seen docs p := by
  induction docs generalizing p seen with
  | nil => rfl
  | cons v docs ih =>
    have hnext := fun v hv => hdocs v (List.mem_cons_of_mem _ hv)
    have hless : W.Fits docs.length p := h.mono (by simp)
    have hwarn (text : String) {x y : ImportM (List (String × Option Nat))}
        (hxy : ∀ q, W.Fits docs.length q → x q = y q) : (warn text >>= fun _ => x) p = (warn text >>= fun _ => y) p :=
      hxy _ (hless.of_eq rfl rfl)
    rw [resourceEntries, resourceEntries]
    split
    · exact hwarn _ fun q hq => ih hnext hq seen
    · dsimp only
      split
      · exact ih hnext hless seen
      · cases hs : resourceSchema? v with
        | none => rfl
        | some schema =>
          dsimp only
          generalize (if resourceKind v ≠ "" then resourceKind v else if o.name ≠ "" then o.name else "Resource") = kind
          split
          · exact hwarn _ fun q hq => ih hnext hq seen
          · have hadd : addSource o.baseUri schema p =
                (.ok p.sources.size, { p with sources := p.sources.push { uri := o.baseUri, root := schema } }) := rfl
            have hq : W.Fits docs.length { p with sources := p.sources.push { uri := o.baseUri, root := schema } } :=
              h.push (hdocs v (by simp) schema hs) rfl
                (by exact (by omega : (W.unknown p).card + 1 + docs.length ≤ (W.unknown p).card + (docs.length + 1)))
            have hvisit := visit_same hW out out' docs.length p.sources.size ""
            have hwrapped : Same (W.Fits docs.length)
                (fun q => (Outcome.mapFailure (visitUpTo o out W.depth p.sources.size "" q).1 (wrap ("CRD " ++ kind ++ ": ")),
                  (visitUpTo o out W.depth p.sources.size "" q).2) : ImportM (Option Nat))
                (fun q => (Outcome.mapFailure (visitUpTo o out' W.depth p.sources.size "" q).1 (wrap ("CRD " ++ kind ++ ": ")),
                  (visitUpTo o out' W.depth p.sources.size "" q).2)) := by
              intro q hq
              obtain ⟨heq, hkeep⟩ := hvisit q hq
              dsimp only
              rw [← heq]
              exact ⟨rfl, hkeep⟩
            rw [bind_of_ok hadd, bind_of_ok hadd]
            refine Same.bind_eq hwrapped hq fun n r hr => ?_
            rw [bind_apply, bind_apply, ih hnext hr]

theorem importBy_eq {docs : List Value} (hdocs : ∀ v ∈ docs, W.Holds v)
    (hschemas : ∀ v ∈ flattenLists docs, ∀ s, resourceSchema? v = some s → W.Holds s)
    (h : W.Fits ((flattenLists docs).length + 1) p) :
    importBy (visitUpTo o out W.depth) o docs p = importBy (visitUpTo o out' W.depth) o docs p := by
  have hone : W.Fits 1 p := h.mono (by omega)
  cases docs with
  | nil => rfl
  | cons first rest =>
    have hfirst : W.Holds first := hdocs first (by simp)
    unfold importBy
    dsimp only
    split
    · have hresources : allResources (visitUpTo o out W.depth) o (first :: rest) p =
          allResources (visitUpTo o out' W.depth) o (first :: rest) p := by
        have hall : W.Fits (flattenLists (first :: rest)).length { p with pruning := true } :=
          (h.mono (Nat.le_succ _)).of_eq rfl rfl
        have hentries := resourceEntries_eq hW out out' hschemas hall []
        have hmodify : (modify fun p => { p with pruning := true } : ImportM PUnit) p = (.ok ⟨⟩, { p with pruning := true }) := rfl
        unfold allResources
        rw [bind_of_ok hmodify, bind_of_ok hmodify, bind_apply, bind_apply, hentries]
      rw [bind_apply, bind_apply, hresources]
    · split
      · rw [bind_apply, bind_apply, apiEntries_eq hW out out' hfirst hone]
      · split
        · have hwarn (text : String) : warn text p = (.ok (), { p with warnings := p.warnings ++ [text] }) := rfl
          have hwarned (text : String) : W.Fits 1 { p with warnings := p.warnings ++ [text] } := hone.of_eq rfl rfl
          rw [bind_of_ok (hwarn _), bind_of_ok (hwarn _), bind_apply, bind_apply,
            rootEntry_eq hW out out' hfirst (hwarned _)]
        · rw [bind_apply, bind_apply, rootEntry_eq hW out out' hfirst hone]

end Imports

/-- the addresses that the fetcher of an import has documents behind -/
def served (o : Options) : Set String := {uri | ∃ fetcher text, o.fetcher = some fetcher ∧ fetcher uri = .ok text}

/-- the first document of what a fetcher has behind an address -/
def remote? (o : Options) (uri : String) : Option Value := do
  let fetcher ← o.fetcher
  let text ← (fetcher uri).toOption
  let docs ← (decode text).toOption
  docs.head?

/-- a world for an import whose fetcher has finitely many documents -/
theorem exists_world (hserved : (served o).Finite) (roots : List Value) (more : Nat) : ∃ W : World, W.Serves o ∧
    (∀ v ∈ roots, W.Holds v) ∧ ∀ g : Graph, W.Fits more { graph := g } := by
  obtain ⟨all, hall⟩ : ∃ all, all = roots ++ hserved.toFinset.toList.filterMap (remote? o) := ⟨_, rfl⟩
  let W : World := {
    words := (all.flatMap texts).toFinset
    height := (all.map nesting).sum
    served := hserved.toFinset
    room := hserved.toFinset.card + more }
  have hholds : ∀ v ∈ all, W.Holds v := by
    intro v hv
    refine ⟨fun s hs => List.mem_toFinset.2 (List.mem_flatMap.2 ⟨v, hv, hs⟩), ?_⟩
    exact List.le_sum_of_mem (List.mem_map_of_mem hv)
  refine ⟨W, ?_, fun v hv => hholds v (by rw [hall]; exact List.mem_append_left _ hv), fun g => ?_⟩
  · intro fetcher uri text hf ht
    have hmem : uri ∈ hserved.toFinset := (Set.Finite.mem_toFinset _).2 ⟨fetcher, text, hf, ht⟩
    refine ⟨hmem, fun root rest hd => hholds root ?_⟩
    rw [hall]
    refine List.mem_append_right _ (List.mem_filterMap.2 ⟨uri, Finset.mem_toList.2 hmem, ?_⟩)
    simp [remote?, hf, ht, hd, Except.toOption]
  · refine ⟨fun i s hs => by simp at hs, ?_⟩
    have hcard : (W.unknown { graph := g }).card ≤ hserved.toFinset.card := Finset.card_le_card (Finset.filter_subset _ _)
    change 0 + _ + more ≤ _ + more
    omega

/-- **Imports end.** Where the fetcher has finitely many documents, there is a bound on how many schemas an import opens inside each other: whatever
else is asked for, whatever would be done beyond the bound, and wherever beyond it the importer would stop, it imports the same. -/
theorem importBy_ends (hserved : (served o).Finite) (docs : List Value) : ∃ depth, ∀ o' : Options, o'.fetcher = o.fetcher →
    ∀ g out more, depth ≤ more →
      importBy (visitUpTo o' out more) o' docs { graph := g } = importBy (visitUpTo o' atBound depth) o' docs { graph := g } := by
  obtain ⟨W, hserves, hroots, hfits⟩ := exists_world hserved (docs ++ (flattenLists docs).filterMap resourceSchema?)
    ((flattenLists docs).length + 1)
  refine ⟨W.depth, fun o' hfetcher g out more hmore => ?_⟩
  have hW : W.Serves o' := by
    unfold World.Serves
    rw [hfetcher]
    exact hserves
  obtain ⟨beyond, rfl⟩ := Nat.exists_eq_add_of_le hmore
  have hsplit : visitUpTo o' out (W.depth + beyond) = visitUpTo o' (convertUpTo o' out beyond) W.depth := by
    funext src fragment
    rw [visitUpTo, visitUpTo, convertUpTo_add]
  rw [hsplit]
  apply importBy_eq hW
  · exact fun v hv => hroots v (List.mem_append_left _ hv)
  · exact fun v hv s hs => hroots s (List.mem_append_right _ (List.mem_filterMap.2 ⟨v, hv, hs⟩))
  · exact hfits g

end Schemata.Import
