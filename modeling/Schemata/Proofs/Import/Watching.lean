import Schemata.Proofs.Import.Building

/-!
An import that reports what it builds.

Next to the import runs one that reports each definition when it has its node (`watchedUpTo`). Both go the same way, the
invariant holds after every step, and at any time the reports are of the definitions in the tables, each of them once
(`Watched`). This is so for definitions (`define_watched`), where one may be asked for while it is being built; from there for
references and conversions (`convert_watched`), by induction on how many may be open inside each other; and from there
for imports (`importBy_watched`), whose entries are new nodes because no definition is being built around them.
-/

namespace Schemata.Import

open Steps
open Setting (isHook Plain)

variable {base : Nat} {p q r : Progress} {src n : Nat} {fragment : String} {s : Source}

/-- the report of a definition that was built: where it stands and the node that it became -/
def built (src : Nat) (fragment : String) (n : Nat) : Event := .exported (toString n) (toString src) fragment "" none

theorem built_inj {t m : Nat} {g : String} (h : built src fragment n = built t g m) : src = t ∧ fragment = g ∧ n = m := by
  have hdigits {a b : Nat} (h : toString a = toString b) : a = b := by
    have hlists : Nat.toDigits 10 a = Nat.toDigits 10 b := by
      have := congrArg String.toList h
      simpa [Nat.toString_eq_ofList_toDigits] using this
    calc
      a = Nat.ofDigitChars 10 (Nat.toDigits 10 a) 0 := Nat.ofDigitChars_ten_toDigits.symm
      _ = Nat.ofDigitChars 10 (Nat.toDigits 10 b) 0 := by rw [hlists]
      _ = b := Nat.ofDigitChars_ten_toDigits
  injection h with hnode hsrc hfragment
  exact ⟨hdigits hsrc, hfragment, hdigits hnode⟩

/-- conversion that reports the node it ends with -/
def watch (src : Nat) (convert : Convert) : Convert := fun v fragment => do
  let n ← convert v fragment
  onGraph (GraphM.report (built src fragment n))
  return n

/-- conversion that reports each definition on its way -/
def watchedConvert (o : Options) : (depth : Nat) → (src : Nat) → Convert
  | 0, src => atBound src
  | depth + 1, src =>
    convertWith o (fun target fragment => define (watch target (watchedConvert o depth target)) target fragment)
      (watchedConvert o depth src) src

/-- leads to definitions, and reports each one that is built -/
def watchedUpTo (o : Options) (depth : Nat) : Visit := fun src fragment =>
  define (watch src (watchedConvert o depth src)) src fragment

/-- the same progress with more reports -/
def muted (events : List Event) (p : Progress) : Progress :=
  { p with graph := { p.graph with events := p.graph.events ++ events } }

/-- the reports are of the definitions in the tables, each of them once -/
structure Tally (p : Progress) (log : List (Nat × String × Nat)) : Prop where
  nodup : log.Nodup
  entries : ∀ src fragment n, (src, fragment, n) ∈ log ↔ nodeBehind? p src fragment = some n

def reports (log : List (Nat × String × Nat)) : List Event := log.map fun e => built e.1 e.2.1 e.2.2

/-- the second run is the first with the reports of what it has built -/
structure Watched (base : Nat) (p q : Progress) : Prop where
  kept : Kept base p
  reported : ∃ log, Tally p log ∧ q = muted (reports log) p

def watching (base : Nat) : Coupling where
  related := Watched base
  leads := Grows
  owns := Whole base
  stands := New base

/-- the step does not see what was reported -/
def Deaf {α : Type} (x : ImportM α) : Prop := ∀ events, Blind (fun p q => q = muted events p) x

theorem onGraph_deaf {α : Type} {act : GraphM α} (h : ∀ events, Blind (GraphM.Muted events) act) : Deaf (onGraph act) := by
  rintro events p _ rfl
  obtain ⟨heq, hgraph⟩ := h events p.graph (muted events p).graph rfl
  rw [onGraph_apply, onGraph_apply, hgraph]
  exact ⟨heq, rfl⟩

theorem locate_deaf (o : Options) (src : Nat) (ref : String) : Deaf (locate o src ref) := by
  rintro events p _ rfl
  rcases locate_cases o src ref p.sources p.known with ⟨r, hr, -⟩ | ⟨_, _, _, _, _, -, -, -, -, hr⟩
  · rw [hr p rfl rfl, hr (muted events p) rfl rfl]
    exact ⟨rfl, rfl⟩
  · rw [hr p rfl rfl, hr (muted events p) rfl rfl]
    exact ⟨rfl, rfl⟩

/-- a step that does not see reports, and builds nothing by itself -/
theorem Watched.of_deaf {α : Type} (h : Watched base p q) {x : ImportM α} (hx : Deaf x) (hkept : Kept base (x p).2)
    (hentries : ∀ src fragment, nodeBehind? (x p).2 src fragment = nodeBehind? p src fragment) :
    (x p).1 = (x q).1 ∧ Watched base (x p).2 (x q).2 := by
  obtain ⟨hp, log, htally, hq⟩ := h
  obtain ⟨heq, hmuted⟩ := hx (reports log) p q hq
  refine ⟨heq, hkept, log, ⟨htally.nodup, fun src fragment n => ?_⟩, hmuted⟩
  rw [hentries]
  exact htally.entries src fragment n

/-- steps that change neither frames nor definitions -/
theorem Watched.of_alike {α : Type} (h : Watched base p q) {x : ImportM α} (hx : Deaf x) (halike : Alike p (x p).2) :
    (x p).1 = (x q).1 ∧ Watched base (x p).2 (x q).2 :=
  h.of_deaf hx (halike.kept h.kept) halike.entries

theorem locate_alike (o : Options) (src : Nat) (ref : String) (p : Progress) : Alike p (locate o src ref p).2 := by
  rcases locate_cases o src ref p.sources p.known with ⟨r, hr, -⟩ | ⟨_, uri, _, root, _, -, -, -, -, hr⟩
  · rw [hr p rfl rfl]
    exact alike_of_sources (.refl _) rfl rfl
  · rw [hr p rfl rfl]
    exact alike_of_push uri root (.refl _) rfl rfl

theorem make_watched (h : Watched base p q) {kind : Kind} (hk : kind ≠ .ref) (options : Schemata.Options)
    {children : List Nat} (hc : ∀ c ∈ children, New base p c)
    (hwhole : kind = .tuple ∨ kind = .object ∨ ∀ c ∈ children, Whole base p c) {settings : List Setting} (hs : Plain settings) :
    (make kind options children settings p).1 = (make kind options children settings q).1 ∧
      Watched base (make kind options children settings p).2 (make kind options children settings q).2 ∧
      Grows p (make kind options children settings p).2 ∧
      ∀ n, (make kind options children settings p).1 = .ok n → New base (make kind options children settings p).2 n ∧
        (make kind options children settings p).2.graph.frame? n = some ⟨n, kind, children, none, false, []⟩ := by
  obtain ⟨hframes, hnumber⟩ := GraphM.add_frames kind options children hs p.graph
  obtain ⟨hkept, hgrows⟩ := kept_add h.kept hk options hc hwhole rfl
  have halike : Alike { p with graph := p.graph.add kind options children } (make kind options children settings p).2 :=
    alike_of_sources hframes rfl rfl
  have hall := hgrows.trans halike.grows
  have hdeaf : Deaf (make kind options children settings) := onGraph_deaf fun events => GraphM.add_muted kind options children settings
  obtain ⟨heq, hrel⟩ := h.of_deaf hdeaf (halike.kept hkept) fun src fragment => halike.entries src fragment
  refine ⟨heq, hrel, hall, fun n hn => ?_⟩
  obtain rfl := hnumber n hn
  have hsize : (make kind options children settings p).2.graph.size = p.graph.size + 1 :=
    hframes.size.trans (Graph.size_add ..)
  refine ⟨⟨Nat.lt_succ_of_le h.kept.base_le, hsize.ge⟩, (hframes.frames _).trans ?_⟩
  rw [Graph.frame?_add, if_pos rfl]

theorem watching_sound (base : Nat) (o : Options) : (watching base).Sound o where
  refl := Grows.refl
  trans := Grows.trans
  keeps h hn := hn.grows h.graph
  stays h hn := hn.grows h.graph
  stands hn := hn.new
  sources := by
    rintro p q ⟨-, log, -, rfl⟩
    rfl
  pruning := by
    rintro p q ⟨-, log, -, rfl⟩
    rfl
  nodes := by
    rintro p q ⟨-, log, -, rfl⟩
    rfl
  make := by
    intro kind options children settings hk hs p q h hc
    obtain ⟨heq, hrel, hgrows, hmade⟩ := make_watched h hk.1 options (fun c hc' => (hc c hc').new) (.inr (.inr hc)) hs
    refine ⟨heq, hrel, fun n hn => ⟨hgrows, fun m hm => ?_⟩⟩
    rw [List.mem_singleton.1 hm]
    exact ⟨(hmade n hn).1, _, (hmade n hn).2, hk.2⟩
  join := by
    intro kind options children settings hk hs p q h hc
    have href : kind ≠ .ref ∧ kind ≠ .optional := by obtain rfl | rfl := hk <;> decide
    obtain ⟨heq, hrel, hgrows, hmade⟩ := make_watched h href.1 options hc (hk.imp_right .inl) hs
    refine ⟨heq, hrel, fun n hn => ⟨hgrows, fun m hm => ?_⟩⟩
    rw [List.mem_singleton.1 hm]
    exact ⟨(hmade n hn).1, _, (hmade n hn).2, href.2⟩
  optional := by
    intro n p q h hc
    obtain ⟨heq, hrel, hgrows, hmade⟩ := make_watched h (by decide : Kind.optional ≠ .ref) .none
      (fun c hc' => (hc c hc').new) (.inr (.inr hc)) plain_nil
    refine ⟨heq, hrel, fun k hk => ⟨hgrows, fun m hm => ?_⟩⟩
    rw [List.mem_singleton.1 hm]
    exact (hmade k hk).1
  apply := by
    intro n settings hs p q h _
    have halike : Alike p (onGraph (GraphM.apply n settings) p).2 :=
      alike_of_sources (GraphM.apply_frames n hs p.graph) rfl rfl
    obtain ⟨heq, hrel⟩ := h.of_alike (onGraph_deaf fun events => GraphM.apply_muted n settings) halike
    exact ⟨heq, hrel, fun _ _ => ⟨halike.grows, fun n hn => by cases hn⟩⟩
  warn := by
    intro text p q h _
    have halike : Alike p (warn text p).2 := alike_of_sources (.refl _) rfl rfl
    obtain ⟨heq, hrel⟩ := h.of_alike (x := warn text) (fun _ _ _ hq => ⟨rfl, by rw [hq]; rfl⟩) halike
    exact ⟨heq, hrel, fun _ _ => ⟨halike.grows, fun n hn => by cases hn⟩⟩
  locate := by
    intro src ref p q h
    obtain ⟨heq, hrel⟩ := h.of_alike (locate_deaf o src ref) (locate_alike o src ref p)
    exact ⟨heq, hrel, (locate_alike o src ref p).grows⟩

/-! ## Leading to definitions -/

/-- naming a definition leaves frames alone, and succeeds for a node that is not loaded -/
theorem nameDefinition_spec (hp : Kept base p) (hn : Whole base p n) (s : Source) (fragment : String) (v : Value) :
    ∃ p', nameDefinition s fragment v n p = (.ok (), p') ∧ Alike p p' ∧ p'.sources = p.sources := by
  have hplain : Plain [.named (definitionName s fragment v)] := by simp [Plain, isHook]
  obtain ⟨f, hf, -⟩ := hn.kind
  have hok := GraphM.apply_ok hplain hf (hp.fresh n f hf hn.new.1).unloaded
  unfold nameDefinition
  rw [bind_apply, get_apply]
  dsimp only
  split
  · refine ⟨_, Prod.ext hok rfl, ?_, rfl⟩
    exact alike_of_sources (GraphM.apply_frames n hplain p.graph) rfl rfl
  · exact ⟨p, rfl, alike_of_sources (.refl _) rfl rfl, rfl⟩

theorem nameDefinition_deaf (s : Source) (fragment : String) (v : Value) (n : Nat) : Deaf (nameDefinition s fragment v n) := by
  have happly : Deaf (onGraph (GraphM.apply n [.named (definitionName s fragment v)])) :=
    onGraph_deaf fun events => GraphM.apply_muted n _
  rintro events p _ rfl
  have hget : (muted events p).graph.get? n = p.graph.get? n := rfl
  unfold nameDefinition
  dsimp only
  rw [bind_of_ok (get_apply p), bind_of_ok (get_apply (muted events p)), hget]
  split
  · exact happly events p _ rfl
  · exact ⟨rfl, rfl⟩

/-- both lead to definitions alike; what they lead to was begun then, and has a node unless it is being built -/
def LeadAlike (base : Nat) (visit visit' : Visit) : Prop :=
  ∀ src fragment p q, Watched base p q →
    (visit src fragment p).1 = (visit' src fragment q).1 ∧
    Watched base (visit src fragment p).2 (visit' src fragment q).2 ∧
    ∀ a, (visit src fragment p).1 = .ok a →
      Grows p (visit src fragment p).2 ∧ isBegun (visit src fragment p).2 src fragment = true ∧
      (a = none ∧ fragment ∈ building p src ∨ ∃ n, a = some n ∧ Whole base (visit src fragment p).2 n)

/-- a definition in the tables is in the reports as well -/
theorem Tally.concluded {log : List (Nat × String × Nat)} (h : Tally p log) (hs : p.sources[src]? = some s)
    (hnone : nodeBehind? p src fragment = none) (n : Nat) :
    Tally (closed p src fragment n) (log ++ [(src, fragment, n)]) := by
  constructor
  · refine List.Nodup.append h.nodup (List.nodup_singleton _) fun e he he' => ?_
    rw [List.mem_singleton.1 he'] at he
    rw [(h.entries src fragment n).1 he] at hnone
    cases hnone
  · intro t g m
    rw [nodeBehind?_closed hs, List.mem_append, List.mem_singleton, h.entries]
    by_cases hpair : t = src ∧ g = fragment
    · obtain ⟨rfl, rfl⟩ := hpair
      simp [hnone, eq_comm]
    · rw [if_neg hpair]
      simp only [Prod.mk.injEq]
      tauto

theorem conclude_deaf (src : Nat) (fragment : String) (s : Source) (v : Value) (n : Nat) : Deaf (conclude src fragment s v n) := by
  intro events
  apply (nameDefinition_deaf s fragment v n events).bind
  intro _
  have hchange : Blind (fun p q => q = muted events p) (changeSource src (entered fragment n)) := by
    rintro p _ rfl
    exact ⟨rfl, rfl⟩
  exact hchange.bind fun _ => .pure _

/-- **The end of a definition.** It gets its node, in the table and in the reports. -/
theorem conclude_watched (h : Watched base p q) (hs : p.sources[src]? = some s) (hbuilding : fragment ∈ building p src)
    (hn : Whole base p n) (first : Source) (v : Value) :
    ∃ p' q', conclude src fragment first v n p = (.ok (some n), closed p' src fragment n) ∧
      (onGraph (GraphM.report (built src fragment n)) >>= fun _ => conclude src fragment first v n) q = (.ok (some n), q') ∧
      Alike p p' ∧ p'.sources = p.sources ∧ Watched base (closed p' src fragment n) q' := by
  obtain ⟨hp, log, htally, rfl⟩ := h
  obtain ⟨p', hname, halike, hsources⟩ := nameDefinition_spec hp hn first fragment v
  have hconclude : conclude src fragment first v n p = (.ok (some n), closed p' src fragment n) := by
    rw [conclude, bind_of_ok hname]
    rfl
  have hlog : reports (log ++ [(src, fragment, n)]) = reports log ++ [built src fragment n] := List.map_append
  have hreport : onGraph (GraphM.report (built src fragment n)) (muted (reports log) p) =
      (.ok (), muted (reports (log ++ [(src, fragment, n)])) p) := by
    rw [hlog]
    unfold muted
    rw [← List.append_assoc]
    rfl
  obtain ⟨heq, hmuted⟩ := conclude_deaf src fragment first v n (reports (log ++ [(src, fragment, n)])) p _ rfl
  rw [hconclude] at heq hmuted
  have hs' : p'.sources[src]? = some s := by rw [hsources]; exact hs
  refine ⟨p', _, hconclude, ?_, halike, hsources, ?_, log ++ [(src, fragment, n)], ?_, rfl⟩
  · rw [bind_of_ok hreport]
    exact Prod.ext heq.symm hmuted
  · exact kept_closed (halike.kept hp) hs' fragment (hn.grows halike.grows.graph)
  · apply Tally.concluded _ hs'
    · rw [halike.entries]
      exact hp.unfinished src fragment hbuilding
    · exact ⟨htally.nodup, fun t g m => by rw [halike.entries]; exact htally.entries t g m⟩

theorem opened_watched (h : Watched base p q) (hs : p.sources[src]? = some s) (hnew : isBegun p src fragment = false) :
    Watched base (opened p src fragment) (opened q src fragment) := by
  obtain ⟨hp, log, htally, rfl⟩ := h
  refine ⟨kept_opened hp hs hnew, log, ⟨htally.nodup, fun t g m => ?_⟩, rfl⟩
  rw [nodeBehind?_opened]
  exact htally.entries t g m

/-- a definition is closed as it was opened: nothing more is being built, and one more is built -/
theorem grows_closed {p₁ p₂ : Progress} (hs : p.sources[src]? = some s) (hnew : isBegun p src fragment = false)
    (h₁ : Grows (opened p src fragment) p₁) (h₂ : Alike p₁ p₂) {s₂ : Source} (hs₂ : p₂.sources[src]? = some s₂) :
    Grows p (closed p₂ src fragment n) := by
  have hnot : fragment ∉ building p src := fun h => by rw [isBegun_iff_building.2 (.inl h)] at hnew; cases hnew
  have hbuilding (t : Nat) : building p₂ t = if t = src then fragment :: building p src else building p t :=
    (h₂.building t).trans ((h₁.building t).trans (building_opened hs fragment t))
  constructor
  case graph => exact h₁.graph.trans h₂.grows.graph
  case building =>
    intro t
    rw [building_closed hs₂]
    split
    · rename_i ht
      rw [hbuilding, if_pos rfl, ht, List.filter_cons_of_neg (by simp), List.filter_eq_self]
      intro g hg
      exact decide_eq_true fun h => hnot (h ▸ hg)
    · rw [hbuilding, if_neg ‹_›]
  case entries =>
    intro t g m hm
    rw [nodeBehind?_closed hs₂, if_neg, h₂.entries]
    · exact h₁.entries t g m (by rwa [nodeBehind?_opened])
    · rintro ⟨rfl, rfl⟩
      rw [isBegun_iff_building.2 (.inr (by rw [hm]; rfl))] at hnew
      cases hnew

/-- **Definitions.** They are led to alike when their values are converted alike, and one of the two reports what it has built. -/
theorem define_watched {convert convert' : Convert}
    (hconvert : ∀ v, (watching base).Pairs [] (convert v fragment) (convert' v fragment) fun n => [n]) (h : Watched base p q) :
    (define convert src fragment p).1 = (define (watch src convert') src fragment q).1 ∧
    Watched base (define convert src fragment p).2 (define (watch src convert') src fragment q).2 ∧
    ∀ a, (define convert src fragment p).1 = .ok a →
      Grows p (define convert src fragment p).2 ∧ isBegun (define convert src fragment p).2 src fragment = true ∧
      (a = none ∧ fragment ∈ building p src ∨ ∃ n, a = some n ∧ Whole base (define convert src fragment p).2 n) := by
  have hsources : q.sources = p.sources := by
    obtain ⟨-, log, -, rfl⟩ := h
    rfl
  rcases define_cases src fragment p with ⟨r, hr, ha⟩ | ⟨hnew, s, v, hs, -, hr⟩
  · rw [hr convert p rfl, hr _ q hsources]
    refine ⟨rfl, h, fun a hra => ⟨.refl p, ?_, ?_⟩⟩
    · obtain ⟨s, -, -, hbegun⟩ := ha a hra
      exact hbegun
    · obtain ⟨s, hs, rfl, hbegun⟩ := ha a hra
      have hentry : nodeBehind? p src fragment = s.nodes.get? fragment := by unfold nodeBehind?; rw [hs]; rfl
      rw [← hentry]
      cases he : nodeBehind? p src fragment with
      | some n => exact .inr ⟨n, rfl, h.kept.entries src fragment n he⟩
      | none =>
        rw [isBegun_iff_building, he] at hbegun
        exact .inl ⟨rfl, hbegun.resolve_right (by simp)⟩
  · have hwatch : (watch src convert' v fragment >>= conclude src fragment s v) =
        convert' v fragment >>= fun n => onGraph (GraphM.report (built src fragment n)) >>= fun _ => conclude src fragment s v n := by
      simp only [watch, bind_assoc, pure_bind]
    rw [hr convert p rfl, hr _ q hsources, hwatch, bind_apply, bind_apply]
    obtain ⟨heq, hrel, hret⟩ := hconvert v _ _ (opened_watched h hs hnew) (by simp)
    rcases hx : convert v fragment (opened p src fragment) with ⟨e | n, p₁⟩ <;>
      rcases hy : convert' v fragment (opened q src fragment) with ⟨e' | n', q₁⟩ <;> rw [hx, hy] at heq hrel
    · refine ⟨?_, hrel, fun a ha => by cases ha⟩
      rw [Except.error.inj heq]
    · cases heq
    · cases heq
    · obtain rfl : n = n' := Except.ok.inj heq
      obtain ⟨hgrows, hnodes⟩ := hret n (by rw [hx])
      rw [hx] at hgrows hnodes
      have hn : Whole base p₁ n := hnodes n (by simp)
      have hbuilding : fragment ∈ building p₁ src := by
        rw [hgrows.building, building_opened hs, if_pos rfl]
        exact List.mem_cons_self
      obtain ⟨s₁, hs₁⟩ : ∃ s₁, p₁.sources[src]? = some s₁ := by
        cases hs₁ : p₁.sources[src]? with
        | some s₁ => exact ⟨s₁, rfl⟩
        | none => simp [building, hs₁] at hbuilding
      obtain ⟨p₂, q₂, hconclude, hconclude', halike, hsame, hwatched⟩ := conclude_watched hrel hs₁ hbuilding hn s v
      have hs₂ : p₂.sources[src]? = some s₁ := by rw [hsame]; exact hs₁
      dsimp only
      rw [hconclude, hconclude']
      refine ⟨rfl, hwatched, fun a ha => ⟨grows_closed hs hnew hgrows halike hs₂, ?_, .inr ⟨n, ?_, ?_⟩⟩⟩
      · exact isBegun_iff_building.2 (.inr (by rw [nodeBehind?_closed hs₂, if_pos ⟨rfl, rfl⟩]; rfl))
      · exact (Except.ok.inj ha).symm
      · exact hn.grows halike.grows.graph

/-! ## Conversion -/

theorem refer_deaf (src : Nat) (fragment : String) : Deaf (refer src fragment) := by
  intro events
  apply (onGraph_deaf (fun events => GraphM.defer_muted .missing) events).bind
  intro n
  have hpending : Blind (fun p q => q = muted events p)
      (modify fun p => { p with pending := p.pending ++ [⟨n, src, fragment⟩] } : ImportM PUnit) := by
    rintro p _ rfl
    exact ⟨rfl, rfl⟩
  exact hpending.bind fun _ => .pure n

/-- references are made alike where their definitions are led to alike -/
theorem reference_watched (o : Options) {visit visit' : Visit} (hvisit : LeadAlike base visit visit') (src : Nat)
    (ref place : String) :
    (watching base).Pairs [] (reference o visit src ref place) (reference o visit' src ref place) fun n => [n] := by
  have hC := watching_sound base o
  have hlocated : (watching base).Pairs [] (located o src ref place) (located o src ref place) fun _ => [] := by
    intro p q h _
    obtain ⟨heq, hrel, hgrows⟩ := hC.locate src ref h
    rw [located_apply, located_apply, heq]
    exact ⟨rfl, hrel, fun _ _ => ⟨hgrows, fun n hn => by cases hn⟩⟩
  refine .bind hC hlocated fun ⟨target, fragment⟩ _ => ?_
  intro p q h _
  obtain ⟨heq, hrel, hret⟩ := hvisit target fragment p q h
  dsimp only
  rw [bind_apply, bind_apply]
  rcases hx : visit target fragment p with ⟨e | a, p₁⟩ <;> rcases hy : visit' target fragment q with ⟨e' | a', q₁⟩ <;>
    rw [hx, hy] at heq hrel
  · refine ⟨?_, hrel, fun a ha => by cases ha⟩
    rw [Except.error.inj heq]
  · cases heq
  · cases heq
  · obtain ⟨hgrows, hbegun, -⟩ := hret a (by rw [hx])
    rw [hx] at hgrows hbegun
    obtain ⟨hkept, hmore, hnew⟩ := kept_referred hrel.kept hbegun
    have hrun := refer_eq target fragment p₁
    obtain ⟨heq', hrel'⟩ := hrel.of_deaf (refer_deaf target fragment) (by rw [hrun]; exact hkept) fun src fragment => by
      rw [hrun]; rfl
    refine ⟨heq', hrel', fun n hn => ?_⟩
    dsimp only at hn ⊢
    rw [hrun] at hn ⊢
    refine ⟨hgrows.trans hmore, fun m hm => ?_⟩
    rw [List.mem_singleton.1 hm, ← Except.ok.inj hn]
    exact hnew

/-- **Conversion.** From wherever the invariant holds, converting a schema leads to where it holds, and to a new node. -/
theorem convert_watched (base : Nat) (o : Options) (depth src : Nat) (v : Value) (place : String) :
    (watching base).Pairs [] (convertUpTo o atBound depth src v place) (watchedConvert o depth src v place) fun n => [n] := by
  induction depth generalizing src v place with
  | zero => exact .stop [] _ _
  | succ depth ih =>
    rw [convertUpTo, watchedConvert]
    apply convertWith_pairs (watching_sound base o)
    · intro m _ v place _
      exact ih src v place
    · intro m ref _ _
      apply reference_watched
      intro target fragment p q h
      exact define_watched (fun v => ih target v fragment) h

/-- leading to a definition from outside of all others -/
theorem visit_watched (base : Nat) (o : Options) (depth : Nat) :
    LeadAlike base (visitUpTo o atBound depth) (watchedUpTo o depth) := by
  intro src fragment p q h
  exact define_watched (fun v => convert_watched base o depth src v fragment) h

/-! ## Imports -/

/-- no definition is being built -/
def Idle (p : Progress) : Prop := ∀ src, building p src = []

/-- there is a node, which is new and not optional -/
def Led (base : Nat) (p : Progress) (a : Option Nat) : Prop := ∃ n, a = some n ∧ Whole base p n

theorem Led.grows {a : Option Nat} (h : Led base p a) (hg : Grows p q) : Led base q a := by
  obtain ⟨n, rfl, hn⟩ := h
  exact ⟨n, rfl, hn.grows hg.graph⟩

/-- outside of definitions: where the first step returns, the second returns the same; what they give has new nodes, if what they
use has -/
def Imports {α : Type} (base : Nat) (uses : List (Option Nat)) (x y : ImportM α) (gives : α → List (Option Nat)) : Prop :=
  ∀ p q a p', Idle p → Watched base p q → (∀ b ∈ uses, Led base p b) → x p = (.ok a, p') →
    ∃ q', y q = (.ok a, q') ∧ Idle p' ∧ Watched base p' q' ∧ Grows p p' ∧ ∀ b ∈ gives a, Led base p' b

namespace Imports

variable {α β : Type} {us : List (Option Nat)}

theorem pure {a : α} {gives : α → List (Option Nat)} (h : gives a ⊆ us) :
    Imports base us (Pure.pure a) (Pure.pure a) gives := by
  intro p q b p' hidle hw huses hx
  cases hx
  exact ⟨q, rfl, hidle, hw, .refl p, fun c hc => huses c (h hc)⟩

theorem stop (f : Failure) (gives : α → List (Option Nat)) : Imports base us (Import.stop f) (Import.stop f) gives := by
  intro p q a p' _ _ _ hx
  cases hx

theorem bind {x y : ImportM α} {f f' : α → ImportM β} {g : α → List (Option Nat)} {h : β → List (Option Nat)}
    (hx : Imports base us x y g) (hf : ∀ a, Imports base (us ++ g a) (f a) (f' a) h) :
    Imports base us (x >>= f) (y >>= f') h := by
  intro p q b p' hidle hw huses hrun
  obtain ⟨a, p₁, hrun₁, hrun₂⟩ := bind_ok hrun
  obtain ⟨q₁, hy, hidle₁, hw₁, hgrows₁, hgives⟩ := hx p q a p₁ hidle hw huses hrun₁
  have huses₁ : ∀ b ∈ us ++ g a, Led base p₁ b := by
    intro b hb
    rcases List.mem_append.1 hb with hb | hb
    · exact (huses b hb).grows hgrows₁
    · exact hgives b hb
  obtain ⟨q', hy', hidle', hw', hgrows', hgives'⟩ := hf a p₁ q₁ b p' hidle₁ hw₁ huses₁ hrun₂
  refine ⟨q', ?_, hidle', hw', hgrows₁.trans hgrows', hgives'⟩
  rw [bind_of_ok hy]
  exact hy'

/-- steps that build nothing -/
theorem of_alike {x : ImportM α} (hx : Deaf x) (halike : ∀ p, Alike p (x p).2) : Imports base us x x fun _ => [] := by
  intro p q a p' hidle hw _ hrun
  obtain ⟨heq, hw'⟩ := hw.of_alike hx (halike p)
  have halike := halike p
  rw [hrun] at heq hw' halike
  refine ⟨(x q).2, Prod.ext heq.symm rfl, fun src => ?_, hw', halike.grows, fun b hb => by cases hb⟩
  rw [halike.building, hidle src]

theorem get {f f' : Progress → ImportM α} {g : α → List (Option Nat)}
    (h : ∀ p q, Watched base p q → Imports base us (f p) (f' q) g) : Imports base us (MonadState.get >>= f) (MonadState.get >>= f') g :=
  fun p q a p' hidle hw huses hrun => h p q hw p q a p' hidle hw huses hrun

/-- a failure may be wrapped -/
theorem wrapped {x y : ImportM α} {gives : α → List (Option Nat)} (h : Imports base us x y gives) (f : Failure → Failure) :
    Imports base us (fun p => (Outcome.mapFailure (x p).1 f, (x p).2)) (fun p => (Outcome.mapFailure (y p).1 f, (y p).2))
      gives := by
  intro p q a p' hidle hw huses hrun
  have hx : x p = (.ok a, p') := by
    change (Outcome.mapFailure (x p).1 f, (x p).2) = _ at hrun
    rcases hx : x p with ⟨(e | e) | b, p₁⟩ <;> rw [hx] at hrun <;> cases hrun
    rfl
  obtain ⟨q', hy, hrest⟩ := h p q a p' hidle hw huses hx
  refine ⟨q', ?_, hrest⟩
  change (Outcome.mapFailure (y q).1 f, (y q).2) = _
  rw [hy]
  rfl

/-- a definition from outside of all others is not being built, so there is a node -/
theorem visit {visit visit' : Visit} (h : LeadAlike base visit visit') (src : Nat) (fragment : String) :
    Imports base us (visit src fragment) (visit' src fragment) fun a => [a] := by
  intro p q a p' hidle hw _ hrun
  obtain ⟨heq, hw', hret⟩ := h src fragment p q hw
  obtain ⟨hgrows, -, hnode⟩ := hret a (by rw [hrun])
  rw [hrun] at heq hw' hgrows hnode
  refine ⟨(visit' src fragment q).2, Prod.ext heq.symm rfl, fun t => ?_, hw', hgrows, fun b hb => ?_⟩
  · rw [hgrows.building, hidle t]
  · rw [List.mem_singleton.1 hb]
    rcases hnode with ⟨-, hbuilding⟩ | hnew
    · rw [hidle src] at hbuilding
      cases hbuilding
    · exact hnew

end Imports

section Documents

variable {visit visit' : Visit} (hvisit : LeadAlike base visit visit') {us : List (Option Nat)}

theorem warn_imports (text : String) : Imports base us (warn text) (warn text) fun _ => [] := by
  apply Imports.of_alike
  · rintro events p _ rfl
    exact ⟨rfl, rfl⟩
  · exact fun p => alike_of_sources (.refl _) rfl rfl

theorem addSource_imports (uri : String) (root : Value) :
    Imports base us (addSource uri root) (addSource uri root) fun _ => [] := by
  apply Imports.of_alike
  · rintro events p _ rfl
    exact ⟨rfl, rfl⟩
  · exact fun p => alike_of_push uri root (.refl _) rfl rfl

theorem openDocument_imports (o : Options) (v : Value) : Imports base us (openDocument o v) (openDocument o v) fun _ => [] := by
  unfold openDocument
  refine .bind (addSource_imports _ v) fun i => ?_
  have hend : Imports base (us ++ []) (Pure.pure i) (Pure.pure i) fun _ => [] := .pure (List.nil_subset _)
  split
  · refine .bind (g := fun _ => []) ?_ fun _ => .pure (List.nil_subset _)
    apply Imports.of_alike
    · rintro events p _ rfl
      exact ⟨rfl, rfl⟩
    · exact fun p => alike_of_sources (.refl _) rfl rfl
  · exact hend

include hvisit

theorem rootEntry_imports (o : Options) (v : Value) :
    Imports base us (rootEntry visit o v) (rootEntry visit' o v) fun e => [e.2] := by
  unfold rootEntry
  refine .bind (openDocument_imports o v) fun src => .bind (.visit hvisit src "") fun n => ?_
  apply Imports.get
  intro p q hw
  have hnodes : q.graph.get? = p.graph.get? := by
    obtain ⟨-, log, -, rfl⟩ := hw
    rfl
  rw [hnodes]
  dsimp only
  cases n with
  | none => exact .pure (by simp)
  | some id =>
    refine .bind (g := fun _ => []) ?_ fun _ => .pure (by simp)
    have hplain (name : String) : Plain [.named name] := by simp [Plain, isHook]
    apply Imports.of_alike
    · exact onGraph_deaf fun events => GraphM.apply_muted id _
    · exact fun p => alike_of_sources (GraphM.apply_frames id (hplain _) p.graph) rfl rfl

theorem componentEntries_imports (src : Nat) (lead : String) (names : List String) :
    Imports base us (componentEntries visit src lead names) (componentEntries visit' src lead names) fun es => es.map (·.2) := by
  induction names generalizing us with
  | nil => exact .pure (by simp)
  | cons name names ih =>
    exact .bind (.visit hvisit src _) fun n => .bind ih fun entries => .pure (by simp)

theorem apiEntries_imports (o : Options) (v : Value) :
    Imports base us (apiEntries visit o v) (apiEntries visit' o v) fun es => es.map (·.2) := by
  unfold apiEntries
  refine .bind (openDocument_imports o v) fun src => ?_
  dsimp only
  split
  · exact componentEntries_imports hvisit src _ _
  · exact componentEntries_imports hvisit src _ _

theorem resourceEntries_imports (o : Options) (seen : List String) (docs : List Value) :
    Imports base us (resourceEntries visit o seen docs) (resourceEntries visit' o seen docs) fun es => es.map (·.2) := by
  induction docs generalizing us seen with
  | nil => exact .pure (by simp)
  | cons v docs ih =>
    rw [resourceEntries, resourceEntries]
    split
    · exact .bind (warn_imports _) fun _ => ih _
    · dsimp only
      split
      · exact ih _
      · cases resourceSchema? v with
        | none => exact .stop _ _
        | some schema =>
          dsimp only
          generalize (if resourceKind v ≠ "" then resourceKind v else if o.name ≠ "" then o.name else "Resource") = kind
          split
          · exact .bind (warn_imports _) fun _ => ih _
          · refine .bind (addSource_imports _ _) fun src => ?_
            refine .bind ((Imports.visit hvisit src "").wrapped _) fun n => .bind (ih _) fun entries => ?_
            exact .pure (by simp)

theorem allResources_imports (o : Options) (docs : List Value) :
    Imports base us (allResources visit o docs) (allResources visit' o docs) fun es => es.map (·.2) := by
  unfold allResources
  have hmodify : Imports base us (modify fun p => { p with pruning := true } : ImportM PUnit)
      (modify fun p => { p with pruning := true }) fun _ => [] := by
    apply Imports.of_alike
    · rintro events p _ rfl
      exact ⟨rfl, rfl⟩
    · exact fun p => alike_of_sources (.refl _) rfl rfl
  refine .bind hmodify fun _ => .bind (resourceEntries_imports hvisit o [] _) fun entries => ?_
  split
  · split
    · exact .bind (.stop _ fun _ => []) fun _ => .bind (.stop _ fun _ => []) fun _ => .pure (by simp)
    · exact .bind (.stop _ fun _ => []) fun _ => .pure (by simp)
  · exact .pure (by simp)

/-- **Imports.** Where definitions are led to alike, an import that returns does so in both runs, and its entries are new nodes. -/
theorem importBy_imports (o : Options) (docs : List Value) :
    Imports base us (importBy visit o docs) (importBy visit' o docs) fun r => r.2.map (·.2) := by
  unfold importBy
  cases docs with
  | nil => exact .stop _ _
  | cons first rest =>
    dsimp only
    split
    · exact .bind (allResources_imports hvisit o _) fun es => .pure (by simp)
    · split
      · exact .bind (apiEntries_imports hvisit o first) fun es => .pure (by simp)
      · split
        · refine .bind (warn_imports _) fun _ => ?_
          exact .bind (rootEntry_imports hvisit o first) fun e => .pure (by simp)
        · exact .bind (rootEntry_imports hvisit o first) fun e => .pure (by simp)

end Documents

/-- an import begins with nothing built and nothing reported -/
theorem watched_start {g : Graph} (hg : g.Numbered) : Watched g.size { graph := g } { graph := g } := by
  have hentry (src : Nat) (fragment : String) : nodeBehind? { graph := g } src fragment = none := rfl
  have hkept : Kept g.size { graph := g } := by
    constructor
    case base_le => exact le_rfl
    case numbered =>
      intro id f hf
      obtain ⟨n, hn, rfl⟩ := Option.map_eq_some_iff.1 hf
      exact hg id n hn
    case fresh =>
      intro id f hf hid
      exact absurd (Graph.frame?_le_size hf) (not_le_of_gt hid)
    case references => exact nofun
    case begun => exact nofun
    case distinct => exact List.nodup_nil
    case entries =>
      intro src fragment n hn
      rw [hentry] at hn
      cases hn
    case unfinished => exact fun src fragment _ => hentry src fragment
  refine ⟨hkept, [], ⟨List.nodup_nil, fun src fragment n => ?_⟩, ?_⟩
  · rw [hentry]
    simp
  · unfold muted reports
    simp

/-- **What an import has built.** An import that returns keeps the invariant, its entries are new nodes, and the import that reports what it
builds returns the same. -/
theorem importBy_watched {g : Graph} (hg : g.Numbered) (o : Options) (depth : Nat) (docs : List Value)
    {a : DocumentKind × List (String × Option Nat)} {p : Progress}
    (hrun : importBy (visitUpTo o atBound depth) o docs { graph := g } = (.ok a, p)) :
    ∃ q, importBy (watchedUpTo o depth) o docs { graph := g } = (.ok a, q) ∧ Idle p ∧ Watched g.size p q ∧
      ∀ e ∈ a.2, Led g.size p e.2 := by
  have himports : Imports g.size [] _ _ _ := importBy_imports (visit_watched g.size o depth) o docs
  obtain ⟨q, hq, hidle, hw, -, hentries⟩ := himports _ _ a p (fun _ => rfl) (watched_start hg) (fun b hb => by cases hb) hrun
  exact ⟨q, hq, hidle, hw, fun e he => hentries e.2 (List.mem_map_of_mem he)⟩

/-- when an import is over, what was begun is built -/
theorem Idle.exists_node (h : Idle p) (hb : isBegun p src fragment = true) : ∃ n, nodeBehind? p src fragment = some n := by
  rw [isBegun_iff_building, h src] at hb
  exact Option.isSome_iff_exists.1 (hb.resolve_left List.not_mem_nil)

/-- **Each definition is built once.** Its report is there once, and there is none of it with another node. -/
theorem Tally.once {log : List (Nat × String × Nat)} (h : Tally p log) (hn : nodeBehind? p src fragment = some n) :
    (reports log).count (built src fragment n) = 1 ∧ ∀ m, built src fragment m ∈ reports log → m = n := by
  have hinjective : Function.Injective fun e : Nat × String × Nat => built e.1 e.2.1 e.2.2 := by
    intro e e' heq
    obtain ⟨hsrc, hfragment, hnode⟩ := built_inj heq
    exact Prod.ext hsrc (Prod.ext hfragment hnode)
  constructor
  · apply List.count_eq_one_of_mem (h.nodup.map hinjective)
    exact List.mem_map_of_mem (f := fun e : Nat × String × Nat => built e.1 e.2.1 e.2.2) ((h.entries src fragment n).2 hn)
  · intro m hm
    obtain ⟨e, he, heq⟩ := List.mem_map.1 hm
    obtain ⟨rfl, rfl, rfl⟩ := built_inj heq
    have := (h.entries e.1 e.2.1 e.2.2).1 he
    exact Option.some.inj (this.symm.trans hn)

end Schemata.Import
