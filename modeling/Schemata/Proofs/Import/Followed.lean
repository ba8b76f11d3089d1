import Schemata.Proofs.Import.Reading

/-!
References that an import follows.

A conversion that returns gives a node that reads its schema (`convert_reads`), by induction on how many schemas may be open:
the parts of a schema are brought, and a reference waits for the place that it names. Leading to a definition that is
not begun converts its schema, so the tables hold nodes that read the schemas behind their fragments (`define_reads`). Main
result: `importBy_reads`. An import that succeeds leaves such tables, and its entries are, one for one, the nodes of the places
that it starts from (`starts`).
-/

namespace Schemata.Import

open Steps

variable {o : Options} {p q : Progress} {src n : Nat} {fragment : String} {v : Value} {a : Option Nat}

/-! ## Definitions -/

theorem opened_advances (p : Progress) (src : Nat) (fragment : String) : Advances o p (opened p src fragment) := by
  have hwidens : Widens p (opened p src fragment) := by
    refine ⟨.refl _, fun i s hs => ?_, fun _ _ h => h, fun _ h => h⟩
    unfold opened
    rw [Array.getElem?_modify, hs]
    split <;> exact ⟨_, rfl, rfl, rfl⟩
  exact hwidens.advances (nodeBehind?_opened p src fragment) rfl

theorem closed_widens (p : Progress) (src : Nat) (fragment : String) (n : Nat) : Widens p (closed p src fragment n) := by
  refine ⟨.refl _, fun i s hs => ?_, fun _ _ h => h, fun _ h => h⟩
  unfold closed
  rw [Array.getElem?_modify, hs]
  split <;> exact ⟨_, rfl, rfl, rfl⟩

/-- **A definition that was opened is closed with a node that reads its schema.** -/
theorem closed_advances {s : Source} (hnone : nodeBehind? p src fragment = none) (hpq : Advances o p q)
    (hs : q.sources[src]? = some s) (hv : schemaBehind? q src fragment = some v) (hreads : Reads q.graph q src v n) :
    Advances o p (closed q src fragment n) := by
  have hwidens := closed_widens q src fragment n
  refine ⟨hpq.widens.trans hwidens, fun t g m hm => ?_, fun hp => hwidens.founded rfl (hpq.founded hp), fun hp t g m hm => ?_⟩
  · rw [nodeBehind?_closed hs, if_neg, hpq.entries t g m hm]
    rintro ⟨rfl, rfl⟩
    rw [hnone] at hm
    cases hm
  · rw [nodeBehind?_closed hs] at hm
    split at hm
    · rename_i hplace
      obtain ⟨rfl, rfl⟩ := hplace
      obtain rfl := Option.some.inj hm
      exact ⟨v, hwidens.schemaBehind hv, hreads.widens hwidens⟩
    · obtain ⟨w, hw, hreads⟩ := hpq.stored hp t g m hm
      exact ⟨w, hwidens.schemaBehind hw, hreads.widens hwidens⟩

theorem nameDefinition_passes (s : Source) (fragment : String) (v : Value) (n : Nat) :
    Passes o (nameDefinition s fragment v n) := by
  intro p _ q h
  unfold nameDefinition at h
  rw [bind_of_ok (get_apply p)] at h
  split at h
  · exact named_passes n _ p _ q h
  · cases h
    exact .refl p

/-- **Definitions.** What leading to one gives stands in the table then, and reads the schema behind the fragment. -/
theorem define_reads {convert : Convert} (hconv : ∀ v p n q, (p.sources[src]?).isSome = true → convert v fragment p = (.ok n, q) →
      Advances o p q ∧ Reads q.graph q src v n)
    (h : define convert src fragment p = (.ok a, q)) : Advances o p q ∧ a = nodeBehind? q src fragment := by
  rcases define_cases src fragment p with ⟨r, hr, ha⟩ | ⟨hnew, s, v, hs, hv, hr⟩
  · rw [hr convert p rfl] at h
    obtain ⟨hres, rfl⟩ := Prod.mk.inj h
    obtain ⟨s, hs, rfl, -⟩ := ha a hres
    refine ⟨.refl p, ?_⟩
    rw [nodeBehind?, hs, Option.bind_some]
  · rw [hr convert p rfl] at h
    obtain ⟨n, p₁, hrun, h⟩ := bind_ok h
    have hnone : nodeBehind? p src fragment = none := by
      by_contra hsome
      rw [isBegun_iff_building.2 (.inr (Option.isSome_iff_ne_none.2 hsome))] at hnew
      cases hnew
    have hopened : Advances o p (opened p src fragment) := opened_advances p src fragment
    have hsource : (p.sources[src]?).isSome = true := by rw [hs]; rfl
    obtain ⟨hfirst, hreads⟩ := hconv v _ n p₁ (hopened.widens.isSome hsource) hrun
    obtain ⟨_, p₂, hname, h⟩ := bind_ok h
    have hnamed : Advances o p₁ p₂ := nameDefinition_passes s fragment v n p₁ _ p₂ hname
    have hall := (hopened.trans hfirst).trans hnamed
    obtain ⟨s₂, hs₂, -⟩ := hall.widens.sources src s hs
    have hend : (a, q) = (some n, closed p₂ src fragment n) := by
      cases h
      rfl
    obtain ⟨rfl, rfl⟩ := Prod.ext_iff.1 hend
    refine ⟨closed_advances hnone hall hs₂ (hall.widens.schemaBehind ?_) (hnamed.reads hreads), ?_⟩
    · rw [schemaBehind?, hs, Option.bind_some, hv]
    · rw [nodeBehind?_closed hs₂, if_pos ⟨rfl, rfl⟩]

/-! ## Conversion -/

theorem referred_advances (p : Progress) (src : Nat) (fragment : String) : Advances o p (referred p src fragment) := by
  refine advances_of_graph (fun id f hf => ?_) rfl rfl (List.subset_append_left ..)
  have := Graph.frame?_le_size hf
  rw [frame?_referred, if_neg (by omega), hf]

/-- **References.** Where leading to definitions leads on, a reference waits for the place that it names. -/
theorem reference_reads {visit : Visit} (hvisit : ∀ src fragment, Passes o (visit src fragment)) {ref place : String}
    (h : reference o visit src ref place p = (.ok n, q)) :
    Advances o p q ∧ (q.graph.get? n).isSome = true ∧ ((p.sources[src]?).isSome = true →
      ∃ r ∈ q.pending, n = r.node ∧ named? q src ref = some (r.source, r.fragment)) := by
  obtain ⟨⟨target, fragment⟩, p₁, hlocated, h⟩ := bind_ok h
  obtain ⟨_, p₂, hvisited, h⟩ := bind_ok h
  have hrun := refer_eq target fragment p₂
  obtain ⟨hn, rfl⟩ := Prod.ext_iff.1 (hrun.symm.trans h)
  obtain rfl := Except.ok.inj hn
  have hfirst : Advances o p p₁ := by
    have hlocate := locate_advances o src ref p
    rw [located_apply] at hlocated
    obtain ⟨-, rfl⟩ := Prod.ext_iff.1 hlocated
    exact hlocate
  have hlast : Advances o p₁ (referred p₂ target fragment) :=
    (hvisit target fragment p₁ _ p₂ hvisited).trans (referred_advances p₂ target fragment)
  refine ⟨hfirst.trans hlast, ?_, fun hs => ?_⟩
  · rw [← Graph.isSome_frame?, frame?_referred, if_pos rfl]
    rfl
  · have hlocate : locate o src ref p = (.ok (target, fragment), p₁) := by
      rw [located_apply] at hlocated
      rcases hl : locate o src ref p with ⟨(f | r) | t, p'⟩ <;> rw [hl] at hlocated <;> cases hlocated
      rfl
    refine ⟨⟨p₂.graph.size + 1, target, fragment⟩, List.mem_append_right _ (List.mem_singleton_self _), rfl, ?_⟩
    exact hlast.widens.named (locate_named hs hlocate)

/-- a schema without `$ref`, where the nodes that conversions give read their schemas -/
theorem schemaNode_reads {convert : Convert} (hconv : Lands o convert)
    (hreads : ∀ v place p n q, convert v place p = (.ok n, q) → (p.sources[src]?).isSome = true → Reads q.graph q src v n)
    {m : Dict Value} {place : String} (href : text? m "$ref" = none) (h : schemaNode o src convert m place p = (.ok n, q))
    (hs : (p.sources[src]?).isSome = true) : Reads q.graph q src (.object m) n := by
  have hparts : ∀ w, ∃ k, w ∈ parts m → q.graph.Attains n k ∧ Reads q.graph q src w k := by
    intro w
    by_cases hw : w ∈ parts m
    · obtain ⟨place', p₁, k, p₂, _, h₁, hconvert, h₂, rfl, hattains⟩ := schemaNode_brings hconv src place hw p n q h
      exact ⟨k, fun _ => ⟨hattains, h₂.reads (hreads w place' p₁ k p₂ hconvert (h₁.widens.isSome hs))⟩⟩
    · exact ⟨0, fun h => absurd h hw⟩
  choose node hnode using hparts
  exact .schema node href (fun w hw => (hnode w hw).1) fun w hw => (hnode w hw).2

/-- **Conversion.** The node that a conversion gives reads the schema. -/
theorem convert_reads (o : Options) (depth src : Nat) (v : Value) (place : String) (p : Progress) (n : Nat) (q : Progress)
    (h : convertUpTo o atBound depth src v place p = (.ok n, q)) :
    Advances o p q ∧ (q.graph.get? n).isSome = true ∧ ((p.sources[src]?).isSome = true → Reads q.graph q src v n) := by
  induction depth generalizing src v place p n q with
  | zero => cases h
  | succ depth ih =>
    have hlands (src : Nat) : Lands o (convertUpTo o atBound depth src) := fun v place p n q h =>
      ⟨(ih src v place p n q h).1, (ih src v place p n q h).2.1⟩
    have hvisit (src : Nat) (fragment : String) : Passes o (define (convertUpTo o atBound depth src) src fragment) :=
      fun p a q h => (define_reads (fun v p n q hs h => ⟨(ih src v _ p n q h).1, (ih src v _ p n q h).2.2 hs⟩) h).1
    rw [convertUpTo] at h
    unfold convertWith at h
    split at h
    · obtain ⟨hadvances, hsome⟩ := make_lands plain_nil h
      exact ⟨hadvances, hsome, fun _ => .always true n⟩
    · obtain ⟨hadvances, hsome⟩ := make_lands plain_nil h
      exact ⟨hadvances, hsome, fun _ => .always false n⟩
    · rename_i m
      cases href : text? m "$ref" with
      | none =>
        rw [href] at h
        obtain ⟨hadvances, hsome⟩ :=
          (Coupling.schemaNode_pairs (advancing_sound o) ((hlands src).converts m) [] src place).spec h
        have hbelow := fun w place p k q h => (ih src w place p k q h).2.2
        exact ⟨hadvances, hsome n (List.mem_singleton_self n), schemaNode_reads (hlands src) hbelow href h⟩
      | some ref =>
        rw [href] at h
        obtain ⟨k, p₁, hrun, h⟩ := bind_ok h
        obtain ⟨hfirst, hsome, hwaits⟩ := reference_reads hvisit hrun
        split at h
        · obtain ⟨hlast, hframe⟩ := make_spec plain_nil h
          refine ⟨hfirst.trans hlast, (make_lands (o := o) plain_nil h).2, fun hs => ?_⟩
          obtain ⟨r, hr, rfl, hnamed⟩ := hwaits hs
          refine .reference href (hlast.widens.pending hr) (hlast.widens.named hnamed) (.inr ?_)
          exact Graph.leads_of_frame hframe (List.mem_singleton_self _) (hlast.widens.graph.isSome hsome)
        · cases h
          refine ⟨hfirst, hsome, fun hs => ?_⟩
          obtain ⟨r, hr, hk, hnamed⟩ := hwaits hs
          exact .reference href hr hnamed (.inl hk)
    · cases h

/-- leading to a definition from outside of all others -/
theorem visit_reads {depth : Nat} (h : visitUpTo o atBound depth src fragment p = (.ok a, q)) :
    Advances o p q ∧ a = nodeBehind? q src fragment :=
  define_reads (fun v p n q hs h => by
    obtain ⟨hadvances, -, hreads⟩ := convert_reads o depth src v fragment p n q h
    exact ⟨hadvances, hreads hs⟩) h

/-! ## Imports -/

/-- the places of the schemas that an object of components lists -/
def componentStarts (v : Value) (lead : String) (components : Option Value) : List (Value × String) :=
  let names : List String := match components with
    | some (.object m) => Dict.keys m
    | _ => []
  names.map fun name => (v, lead ++ escapeToken name)

/-- the component schemas of an API description -/
def apiStarts (v : Value) : List (Value × String) :=
  match Fragment.find? v "/components/schemas" with
  | some w => componentStarts v "/components/schemas/" (some w)
  | none => componentStarts v "/definitions/" (Fragment.find? v "/definitions")

/-- the name of a resource: its kind, what the import asks for, or a general one -/
def resourceName (o : Options) (v : Value) : String :=
  if resourceKind v ≠ "" then resourceKind v else if o.name ≠ "" then o.name else "Resource"

/-- the schemas of the resources of the kind that is asked for, of each name the first; `seen` holds the names before -/
def resourceStarts (o : Options) (seen : List String) : List Value → List (Value × String)
  | [] => []
  | v :: rest =>
    if !isResources v || (o.kind ≠ "" && resourceKind v ≠ o.kind) || seen.contains (resourceName o v) then resourceStarts o seen rest
    else
      match resourceSchema? v with
      | some schema => (schema, "") :: resourceStarts o (resourceName o v :: seen) rest
      | none => resourceStarts o seen rest

/-- the schemas that documents export: the document that each of them stands in, and the fragment there -/
def starts (o : Options) : List Value → List (Value × String)
  | [] => []
  | first :: rest =>
    if isResources first then resourceStarts o [] (flattenLists (first :: rest))
    else if isApi first then apiStarts first
    else [(first, "")]

/-- the node of the entry, if it has one, is that of the place -/
def Stands (p : Progress) (e : String × Option Nat) (start : Value × String) : Prop :=
  ∃ src, (p.sources[src]?).map (·.root) = some start.1 ∧ ∀ n, e.2 = some n → nodeBehind? p src start.2 = some n

theorem Stands.advances {e : String × Option Nat} {start : Value × String} (h : Stands p e start) (hpq : Advances o p q) :
    Stands q e start := by
  obtain ⟨src, hroot, hnode⟩ := h
  exact ⟨src, hpq.widens.root hroot, fun n hn => hpq.entries _ _ _ (hnode n hn)⟩

/-- where the step returns from such a state, it leads on, and its entries are, one for one, the nodes of the places -/
def Exports (o : Options) (P : Progress → Prop) (x : ImportM (List (String × Option Nat)))
    (places : List (Value × String)) : Prop :=
  ∀ p es q, P p → x p = (.ok es, q) → Advances o p q ∧ List.Forall₂ (Stands q) es places

variable {depth : Nat} {visit : Visit}
  (hvisit : ∀ src fragment p a q, visit src fragment p = (.ok a, q) → Advances o p q ∧ a = nodeBehind? q src fragment)

include hvisit

theorem componentEntries_exports (root : Value) (src : Nat) (lead : String) (names : List String) :
    Exports o (fun p => (p.sources[src]?).map (·.root) = some root) (componentEntries visit src lead names)
      (names.map fun name => (root, lead ++ escapeToken name)) := by
  induction names with
  | nil =>
    intro p es q _ h
    cases h
    exact ⟨.refl p, .nil⟩
  | cons name names ih =>
    intro p es q hroot h
    rw [componentEntries] at h
    obtain ⟨a, p₁, hfirst, h⟩ := bind_ok h
    obtain ⟨rest, p₂, hrest, h⟩ := bind_ok h
    obtain ⟨hled, ha⟩ := hvisit _ _ _ _ _ hfirst
    have hroot := hled.widens.root hroot
    obtain ⟨hmore, hall⟩ := ih p₁ rest p₂ hroot hrest
    cases h
    refine ⟨hled.trans hmore, .cons (Stands.advances ⟨src, hroot, fun n hn => ?_⟩ hmore) hall⟩
    rw [← ha]
    exact hn

omit hvisit in
/-- a document that is opened first -/
theorem openDocument_advances {i : Nat} (hsources : p.sources.size = 0) (hknown : p.known = [])
    (h : openDocument o v p = (.ok i, q)) : Advances o p q ∧ (q.sources[i]?).map (·.root) = some v := by
  have hadd : addSource o.baseUri v p =
    (.ok p.sources.size, { p with sources := p.sources.push { uri := o.baseUri, root := v } }) := rfl
  unfold openDocument at h
  rw [bind_of_ok hadd] at h
  split at h
  · cases h
    exact ⟨advances_push rfl rfl rfl (.inr ⟨rfl, by rw [hknown]; rfl, .inl ⟨hsources, rfl⟩⟩), by simp⟩
  · cases h
    exact ⟨advances_push rfl rfl rfl (.inl rfl), by simp⟩

/-- an import that has not begun -/
def Begins (p : Progress) : Prop := p.sources.size = 0 ∧ p.known = []

theorem rootEntry_stands {e : String × Option Nat} (hbegins : Begins p) (h : rootEntry visit o v p = (.ok e, q)) :
    Advances o p q ∧ Stands q e (v, "") := by
  unfold rootEntry at h
  obtain ⟨src, p₁, hopen, h⟩ := bind_ok h
  obtain ⟨a, p₂, hfirst, h⟩ := bind_ok h
  obtain ⟨hopened, hroot⟩ := openDocument_advances hbegins.1 hbegins.2 hopen
  obtain ⟨hled, ha⟩ := hvisit _ _ _ _ _ hfirst
  have hstands (name : String) : Stands p₂ (name, a) (v, "") := ⟨src, hled.widens.root hroot, fun n hn => ha ▸ hn⟩
  rw [bind_of_ok (get_apply p₂)] at h
  cases a with
  | none =>
    cases h
    exact ⟨hopened.trans hled, hstands _⟩
  | some id =>
    obtain ⟨_, _, hname, h⟩ := bind_ok h
    cases h
    have hnamed : Advances o p₂ q := named_passes id _ p₂ _ q hname
    exact ⟨(hopened.trans hled).trans hnamed, (hstands _).advances hnamed⟩

theorem apiEntries_exports (v : Value) : Exports o Begins (apiEntries visit o v) (apiStarts v) := by
  rintro p es q ⟨hsources, hknown⟩ h
  unfold apiEntries at h
  obtain ⟨src, p₁, hopen, h⟩ := bind_ok h
  obtain ⟨hopened, hroot⟩ := openDocument_advances hsources hknown hopen
  have hentries (lead : String) (components : Option Value)
      (h : componentEntries visit src lead (match components with | some (.object m) => Dict.keys m | _ => []) p₁ = (.ok es, q)) :
      Advances o p q ∧ List.Forall₂ (Stands q) es (componentStarts v lead components) := by
    obtain ⟨hmore, hall⟩ := componentEntries_exports hvisit v src lead _ p₁ es q hroot h
    exact ⟨hopened.trans hmore, hall⟩
  unfold apiStarts
  cases hfind : Fragment.find? v "/components/schemas" with
  | some w =>
    rw [hfind] at h
    exact hentries _ (some w) h
  | none =>
    rw [hfind] at h
    exact hentries _ _ h

omit hvisit in
theorem warn_passes (text : String) : Passes o (warn text) := by
  intro p _ q h
  cases h
  exact advances_of_graph (.refl _) rfl rfl fun _ h => h

/-- one more resource -/
theorem resourceEntry_stands {name : String} {f : Failure → Failure} {schema : Value}
    (h : (addSource o.baseUri schema >>= fun src => fun p =>
      let (r, p) := (visit src "").run p
      (Outcome.mapFailure r f, p) : ImportM (Option Nat)) p = (.ok a, q)) : Advances o p q ∧ Stands q (name, a) (schema, "") := by
  obtain ⟨src, p₁, hadd, h⟩ := bind_ok h
  have hadded : Advances o p p₁ ∧ (p₁.sources[src]?).map (·.root) = some schema := by
    cases hadd
    exact ⟨advances_push rfl rfl rfl (.inl rfl), by simp⟩
  have hrun : visit src "" p₁ = (.ok a, q) := by
    change (Outcome.mapFailure (visit src "" p₁).1 f, (visit src "" p₁).2) = _ at h
    rcases hx : visit src "" p₁ with ⟨(e | e) | b, p₂⟩ <;> rw [hx] at h <;> cases h
    rfl
  obtain ⟨hled, ha⟩ := hvisit _ _ _ _ _ hrun
  exact ⟨hadded.1.trans hled, src, hled.widens.root hadded.2, fun n hn => ha ▸ hn⟩

theorem resourceEntries_exports (seen : List String) (docs : List Value) :
    Exports o (fun _ => True) (resourceEntries visit o seen docs) (resourceStarts o seen docs) := by
  induction docs generalizing seen with
  | nil =>
    intro p es q _ h
    cases h
    exact ⟨.refl p, .nil⟩
  | cons v rest ih =>
    -- what is passed over leads on, and adds no entry
    have hskip {p q : Progress} {es : List (String × Option Nat)} (text : String)
        (h : (warn text >>= fun _ => resourceEntries visit o seen rest) p = (.ok es, q)) :
        Advances o p q ∧ List.Forall₂ (Stands q) es (resourceStarts o seen rest) := by
      obtain ⟨_, p₁, hfirst, h⟩ := bind_ok h
      obtain ⟨hmore, hall⟩ := ih seen p₁ es q trivial h
      exact ⟨(warn_passes text p _ p₁ hfirst).trans hmore, hall⟩
    intro p es q _ h
    rw [resourceEntries] at h
    rw [resourceStarts]
    split at h
    · rename_i hresource
      rw [if_pos (by rw [hresource]; rfl)]
      exact hskip _ h
    · rename_i hresource
      dsimp only at h
      split at h
      · rename_i hkind
        rw [if_pos (by rw [hkind]; simp)]
        exact ih seen p es q trivial h
      · rename_i hkind
        cases hschema : resourceSchema? v with
        | none =>
          rw [hschema] at h
          cases h
        | some schema =>
          have hname : (if resourceKind v ≠ "" then resourceKind v else if o.name ≠ "" then o.name else "Resource") =
            resourceName o v := rfl
          rw [hschema] at h
          dsimp only at h
          rw [hname] at h
          split at h
          · rename_i hseen
            rw [if_pos (by rw [hseen]; simp)]
            exact hskip _ h
          · rename_i hseen
            rw [if_neg (by simp only [hresource, hkind, hseen]; simp)]
            rw [← bind_assoc] at h
            obtain ⟨a, p₁, hentry, h⟩ := bind_ok h
            obtain ⟨more, p₂, hmore, h⟩ := bind_ok h
            cases h
            obtain ⟨hfirst, hstands⟩ := resourceEntry_stands hvisit hentry
            obtain ⟨hrest, hall⟩ := ih _ p₁ more _ trivial hmore
            exact ⟨hfirst.trans hrest, .cons (hstands.advances hrest) hall⟩

theorem allResources_exports (docs : List Value) :
    Exports o (fun _ => True) (allResources visit o docs) (resourceStarts o [] (flattenLists docs)) := by
  intro p es q _ h
  unfold allResources at h
  obtain ⟨_, p₁, hmodify, h⟩ := bind_ok h
  obtain ⟨entries, p₂, hentries, h⟩ := bind_ok h
  have hmodified : Advances o p p₁ := by
    cases hmodify
    exact advances_of_graph (.refl _) rfl rfl fun _ h => h
  obtain ⟨hadvances, hall⟩ := resourceEntries_exports hvisit [] _ p₁ entries p₂ trivial hentries
  have hend : (es, q) = (entries, p₂) := by
    split at h
    · split at h
      · cases h
      · cases h
    · cases h
      rfl
  obtain ⟨rfl, rfl⟩ := Prod.mk.inj hend
  exact ⟨hmodified.trans hadvances, hall⟩

/-- **Imports.** What leads on and leaves what it gives in the tables makes an import that does so for the places that it
starts from. -/
theorem importBy_exports {docs : List Value} {a : DocumentKind × List (String × Option Nat)} (hbegins : Begins p)
    (h : importBy visit o docs p = (.ok a, q)) : Advances o p q ∧ List.Forall₂ (Stands q) a.2 (starts o docs) := by
  cases docs with
  | nil => cases h
  | cons first rest =>
    unfold importBy at h
    unfold starts
    dsimp only at h ⊢
    split at h
    · rename_i hresources
      rw [if_pos hresources]
      obtain ⟨es, p₁, h, hend⟩ := bind_ok h
      cases hend
      exact allResources_exports hvisit _ p es q trivial h
    · rename_i hresources
      rw [if_neg hresources]
      split at h
      · rename_i hapi
        rw [if_pos hapi]
        obtain ⟨es, p₁, h, hend⟩ := bind_ok h
        cases hend
        exact apiEntries_exports hvisit first p es q hbegins h
      · rename_i hapi
        rw [if_neg hapi]
        have hroot {p : Progress} (hbegins : Begins p)
            (h : (rootEntry visit o first >>= fun e => pure (DocumentKind.plain, [e])) p = (.ok a, q)) :
            Advances o p q ∧ List.Forall₂ (Stands q) a.2 [(first, "")] := by
          obtain ⟨e, p₁, h, hend⟩ := bind_ok h
          cases hend
          obtain ⟨hadvances, hstands⟩ := rootEntry_stands hvisit hbegins h
          exact ⟨hadvances, .cons hstands .nil⟩
        split at h
        · obtain ⟨_, p₁, hwarn, h⟩ := bind_ok h
          obtain ⟨hadvances, hall⟩ := hroot (by cases hwarn; exact hbegins) h
          exact ⟨(warn_passes _ p _ p₁ hwarn).trans hadvances, hall⟩
        · exact hroot hbegins h

omit hvisit in
/-- **What an import has read.** One that succeeds knows its documents, the nodes in their tables read the schemas behind
their fragments, and its entries are the nodes of the places that it starts from. -/
theorem importBy_reads {g : Graph} {docs : List Value} {a : DocumentKind × List (String × Option Nat)}
    (h : importBy (visitUpTo o atBound depth) o docs { graph := g } = (.ok a, p)) :
    Founded o p ∧ Stored p ∧ List.Forall₂ (Stands p) a.2 (starts o docs) := by
  have hbegins : Begins { graph := g } := ⟨rfl, rfl⟩
  obtain ⟨hadvances, hentries⟩ := importBy_exports (fun _ _ _ _ _ => visit_reads) hbegins h
  refine ⟨hadvances.founded fun uri i hi => ?_, hadvances.stored fun src fragment n hn => ?_, hentries⟩
  · cases hi
  · cases hn

end Schemata.Import
