import Schemata.Proofs.Import.Coupling
import Schemata.Proofs.Text.Basic

/-!
What it takes to lead to a definition.

A definition is begun when the table of its document has a node for it, or when it is being built. To lead to one that is
begun changes nothing; to lead to any other opens it, converts the value behind its fragment, and closes it with an
entry in the table (`define_cases`). Looking for the target of a reference adds one document at most (`locate_cases`).
-/

namespace Schemata.Import

open Steps
open Setting (isHook Plain)

/-- has the definition behind a fragment of a document been begun? -/
def isBegun (p : Progress) (src : Nat) (fragment : String) : Bool :=
  (p.sources[src]?).any fun s => s.building.contains fragment || (s.nodes.get? fragment).isSome

theorem isBegun_iff {p : Progress} {src : Nat} {fragment : String} : isBegun p src fragment = true ↔
    ∃ s, p.sources[src]? = some s ∧ (fragment ∈ s.building ∨ (s.nodes.get? fragment).isSome = true) := by
  unfold isBegun
  cases p.sources[src]? <;> simp

/-- a document that is changed changes what is begun in it -/
theorem isBegun_modify {p q : Progress} {src : Nat} {f : Source → Source} (h : q.sources = p.sources.modify src f)
    {fragment : String} (hf : ∀ s g, (g ∈ (f s).building ∨ ((f s).nodes.get? g).isSome = true) ↔
      (g ∈ s.building ∨ (s.nodes.get? g).isSome = true) ∨ g = fragment) (t : Nat) (g : String) :
    isBegun q t g = true ↔ isBegun p t g = true ∨ t = src ∧ g = fragment ∧ (p.sources[src]?).isSome = true := by
  rw [isBegun_iff, isBegun_iff, h, Array.getElem?_modify]
  by_cases ht : src = t
  · subst ht
    cases p.sources[src]? with
    | none => simp
    | some s => simp [hf]
  · simp [ht, Ne.symm ht]

/-! ## Steps that change one part of the progress -/

variable {α : Type}

theorem onGraph_apply (act : GraphM α) (p : Progress) :
    onGraph act p = ((act p.graph).1, { p with graph := (act p.graph).2 }) := rfl

theorem source_apply (src : Nat) (p : Progress) :
    source src p = (.ok ((p.sources[src]?).getD { uri := "", root := .null }), p) := rfl

/-! ## Definitions -/

/-- the progress with the building of a definition begun -/
def opened (p : Progress) (src : Nat) (fragment : String) : Progress :=
  { p with sources := p.sources.modify src fun s => { s with building := fragment :: s.building } }

theorem isBegun_opened (p : Progress) {src : Nat} {s : Source} (hs : p.sources[src]? = some s) (fragment : String) (t : Nat)
    (g : String) : isBegun (opened p src fragment) t g = true ↔ isBegun p t g = true ∨ t = src ∧ g = fragment := by
  have hsources : (opened p src fragment).sources =
      p.sources.modify src fun s => { s with building := fragment :: s.building } := rfl
  have hbuilding (s : Source) (g : String) : (g ∈ fragment :: s.building ∨ (s.nodes.get? g).isSome = true) ↔
      (g ∈ s.building ∨ (s.nodes.get? g).isSome = true) ∨ g = fragment := by
    rw [List.mem_cons]
    tauto
  rw [isBegun_modify hsources hbuilding, hs]
  simp

/-- names the node of a definition, unless it has a name -/
def nameDefinition (s : Source) (fragment : String) (v : Value) (n : Nat) : ImportM Unit := do
  let name := definitionName s fragment v
  if name ≠ "" && ((← get).graph.get? n).any (·.name = "") then onGraph (GraphM.apply n [.named name])

/-- the document with the node of a definition in its table -/
def entered (fragment : String) (n : Nat) (s : Source) : Source :=
  { s with nodes := s.nodes.insert fragment n, building := s.building.filter (· ≠ fragment) }

/-- what was begun stays begun when a definition is entered -/
theorem isBegun_entered {p q : Progress} {src n : Nat} {fragment : String}
    (h : q.sources = p.sources.modify src (entered fragment n)) (t : Nat) (g : String) :
    isBegun q t g = true ↔ isBegun p t g = true ∨ t = src ∧ g = fragment ∧ (p.sources[src]?).isSome = true := by
  refine isBegun_modify h (fun s g => ?_) t g
  simp only [entered, List.mem_filter, Dict.get?_insert]
  by_cases hg : fragment = g
  · simp [hg]
  · simp [hg, Ne.symm hg]

/-- ends the building of a definition with its node -/
def conclude (src : Nat) (fragment : String) (s : Source) (v : Value) (n : Nat) : ImportM (Option Nat) := do
  nameDefinition s fragment v n
  changeSource src (entered fragment n)
  return some n

theorem conclude_eq (src : Nat) (fragment : String) (s : Source) (v : Value) : conclude src fragment s v = fun n => do
    let name := definitionName s fragment v
    if name ≠ "" && ((← get).graph.get? n).any (·.name = "") then onGraph (GraphM.apply n [.named name])
    changeSource src (entered fragment n)
    return some n := by
  funext n
  unfold conclude nameDefinition
  simp only [bind_assoc]
  refine bind_congr fun p => ?_
  split
  · rfl
  · rfl

theorem nameDefinition_pairs {C : Coupling} {o : Options} (hC : C.Sound o) {us : List Nat} (s : Source) (fragment : String)
    (v : Value) {n : Nat} (hn : n ∈ us) :
    C.Pairs us (nameDefinition s fragment v n) (nameDefinition s fragment v n) fun _ => [] := by
  unfold nameDefinition
  apply Coupling.Pairs.get
  intro p q hpq
  have hget : p.graph.get? n = q.graph.get? n := by unfold Graph.get?; rw [hC.nodes hpq]
  rw [hget]
  split
  · exact (hC.apply n (by simp [Plain, isHook])).uses (by simpa using hn)
  · exact .pure hC (List.nil_subset us)

theorem find?_null (fragment : String) : Fragment.find? .null fragment = none := by
  unfold Fragment.find?
  split
  · rfl
  · cases hs : Fragment.steps fragment with
    | nil =>
      simp only [Fragment.steps, Text.splitOn, List.map_eq_nil_iff] at hs
      exact absurd hs (Text.splitGo_ne_nil _ _ _ _)
    | cons s rest => rfl

/-- no schema stands behind the fragment -/
def noSchema (s : Source) (fragment : String) : Stop :=
  .failed (.fault .referenceNotFound { path := s.uri ++ "#" ++ fragment, detail := "no schema at pointer" })

/-- leading to a definition looks at its document, then for the node, then for the schema -/
theorem define_apply (convert : Convert) (src : Nat) (fragment : String) {q : Progress} {s : Source}
    (hs : (q.sources[src]?).getD { uri := "", root := .null } = s) : define convert src fragment q =
      (match s.nodes.get? fragment with
      | some n => pure (some n)
      | none =>
        if s.building.contains fragment then pure none
        else match Fragment.find? s.root fragment with
          | none => throw (noSchema s fragment)
          | some v => changeSource src (fun s => { s with building := fragment :: s.building }) >>= fun _ =>
              convert v fragment >>= conclude src fragment s v : ImportM (Option Nat)) q := by
  subst hs
  simp only [conclude_eq]
  unfold define
  rw [bind_apply, source_apply]
  rfl

/-- **Definitions.** Leading to one reads documents only. Either nothing changes, whatever the converter, and if there is an answer it
is what the table has for a definition that was begun; or the definition is built. -/
theorem define_cases (src : Nat) (fragment : String) (p : Progress) :
    (∃ r, (∀ convert q, q.sources = p.sources → define convert src fragment q = (r, q)) ∧
      ∀ a, r = .ok a → ∃ s, p.sources[src]? = some s ∧ a = s.nodes.get? fragment ∧ isBegun p src fragment = true) ∨
    isBegun p src fragment = false ∧ ∃ s v, p.sources[src]? = some s ∧ Fragment.find? s.root fragment = some v ∧
      ∀ convert q, q.sources = p.sources →
        define convert src fragment q = (convert v fragment >>= conclude src fragment s v) (opened q src fragment) := by
  cases hs : p.sources[src]? with
  | none =>
    refine .inl ⟨.error (noSchema { uri := "", root := .null } fragment), fun convert q hq => ?_, ?_⟩
    · rw [define_apply (s := { uri := "", root := .null }) convert src fragment (by rw [hq, hs]; rfl)]
      simp only [Dict.get?, List.find?_nil, Option.map_none, List.contains_nil, find?_null]
      rfl
    · intro a ha
      cases ha
  | some s =>
    have hbegun : isBegun p src fragment = (s.building.contains fragment || (s.nodes.get? fragment).isSome) := by
      simp [isBegun, hs]
    have hsource (convert : Convert) (q : Progress) (hq : q.sources = p.sources) :=
      define_apply (s := s) convert src fragment (by rw [hq, hs]; rfl)
    cases hn : s.nodes.get? fragment with
    | some n =>
      refine .inl ⟨.ok (some n), fun convert q hq => ?_, fun a ha => ?_⟩
      · rw [hsource _ q hq, hn]
        rfl
      · exact ⟨s, rfl, by rw [hn]; exact (Except.ok.inj ha).symm, by simp [hbegun, hn]⟩
    | none =>
      cases hb : s.building.contains fragment with
      | true =>
        refine .inl ⟨.ok none, fun convert q hq => ?_, fun a ha => ?_⟩
        · rw [hsource _ q hq, hn, hb]
          rfl
        · exact ⟨s, rfl, by rw [hn]; exact (Except.ok.inj ha).symm, by rw [hbegun, hb]; rfl⟩
      | false =>
        cases hv : Fragment.find? s.root fragment with
        | none =>
          refine .inl ⟨.error (noSchema s fragment), fun convert q hq => ?_, fun a ha => ?_⟩
          · rw [hsource _ q hq, hn, hb, hv]
            rfl
          · cases ha
        | some v =>
          refine .inr ⟨by rw [hbegun, hn, hb]; rfl, s, v, rfl, hv, fun convert q hq => ?_⟩
          rw [hsource _ q hq, hn, hb, hv]
          rfl

/-! ## Targets of references -/

/-- the progress with one more document, known under its address -/
def fetched (p : Progress) (uri : String) (root : Value) : Progress :=
  { p with sources := p.sources.push { uri, root }, known := p.known.insert uri p.sources.size }

/-- nothing is begun in a document that was added -/
theorem isBegun_push {p q : Progress} (uri : String) (root : Value) (h : q.sources = p.sources.push { uri, root }) (t : Nat)
    (g : String) : isBegun q t g = isBegun p t g := by
  unfold isBegun
  rw [h, Array.getElem?_push]
  split
  · rename_i ht
    subst ht
    simp [Dict.get?]
  · rfl

/-- a fetch fails and changes nothing, or adds a document that the fetcher has -/
theorem fetch_cases (o : Options) (uri : String) : (∃ e, ∀ p, fetch o uri p = (.error e, p)) ∨
    ∃ fetcher text root rest, o.fetcher = some fetcher ∧ fetcher uri = .ok text ∧ decode text = .ok (root :: rest) ∧
      ∀ p, fetch o uri p = (.ok p.sources.size, fetched p uri root) := by
  unfold fetch
  cases hf : o.fetcher with
  | none => exact .inl ⟨_, fun p => rfl⟩
  | some fetcher =>
    cases ht : fetcher uri with
    | error e => exact .inl ⟨e, fun p => by simp only [bind_apply, lift, ht]⟩
    | ok text =>
      cases hd : decode text with
      | error e =>
        cases e with
        | failed f => exact .inl ⟨_, fun p => by simp only [bind_apply, lift, ht, hd, Outcome.mapFailure]; rfl⟩
        | aborted r => exact .inl ⟨_, fun p => by simp only [bind_apply, lift, ht, hd, Outcome.mapFailure]; rfl⟩
      | ok docs =>
        cases docs with
        | nil => exact .inl ⟨_, fun p => by simp only [bind_apply, lift, ht, hd, Outcome.mapFailure]; rfl⟩
        | cons root rest =>
          refine .inr ⟨fetcher, text, root, rest, rfl, ht, hd, fun p => ?_⟩
          simp only [bind_apply, lift, ht, hd, Outcome.mapFailure]
          rfl

/-- the document at an address is known, or it is fetched -/
theorem read_apply (o : Options) (src : Nat) (address fragment uri : String) (p : Progress)
    (huri : resolveUri ((p.sources[src]?).getD { uri := "", root := .null }).uri address = uri) :
    (source src >>= fun s => get >>= fun q =>
      match q.known.get? (resolveUri s.uri address) with
      | some i => pure (i, fragment)
      | none => fetch o (resolveUri s.uri address) >>= fun i => pure (i, fragment) : ImportM (Nat × String)) p =
    (match p.known.get? uri with
      | some i => pure (i, fragment)
      | none => fetch o uri >>= fun i => pure (i, fragment) : ImportM (Nat × String)) p := by
  subst huri
  rfl

/-- **Targets.** Looking for one reads documents and addresses only. It changes nothing, or it adds the document that the fetcher
has behind an address that was not known. -/
theorem locate_cases (o : Options) (src : Nat) (ref : String) (sources : Array Source) (known : Dict Nat) :
    (∃ r, (∀ p, p.sources = sources → p.known = known → locate o src ref p = (r, p)) ∧
      ∀ t, r = .ok t → t.2 = (Text.cut ref "#").2.1) ∨
    ∃ fetcher uri text root rest, o.fetcher = some fetcher ∧ fetcher uri = .ok text ∧ decode text = .ok (root :: rest) ∧
      known.get? uri = none ∧ ∀ p, p.sources = sources → p.known = known →
        locate o src ref p = (.ok (sources.size, (Text.cut ref "#").2.1), fetched p uri root) := by
  unfold locate
  dsimp only
  split
  · exact .inl ⟨_, fun p _ _ => rfl, fun t ht => by cases ht⟩
  · split
    · refine .inl ⟨.ok (src, (Text.cut ref "#").2.1), fun p _ _ => rfl, fun t ht => ?_⟩
      cases ht
      rfl
    · obtain ⟨uri, huri⟩ : ∃ uri, resolveUri ((sources[src]?).getD { uri := "", root := .null }).uri (Text.cut ref "#").1 = uri :=
        ⟨_, rfl⟩
      have hread (p : Progress) (hsources : p.sources = sources) (hknown : p.known = known) :=
        read_apply o src (Text.cut ref "#").1 (Text.cut ref "#").2.1 uri p (by rw [hsources, huri])
      cases hk : known.get? uri with
      | some i =>
        refine .inl ⟨.ok (i, (Text.cut ref "#").2.1), fun p hsources hknown => ?_, fun t ht => ?_⟩
        · refine (hread p hsources hknown).trans ?_
          rw [hknown, hk]
          rfl
        · cases ht
          rfl
      | none =>
        rcases fetch_cases o uri with ⟨e, he⟩ | ⟨fetcher, text, root, rest, hf, ht, hd, hfetch⟩
        · refine .inl ⟨.error e, fun p hsources hknown => ?_, fun t ht => by cases ht⟩
          refine (hread p hsources hknown).trans ?_
          rw [hknown, hk]
          simp only [bind_apply, he]
        · refine .inr ⟨fetcher, uri, text, root, rest, hf, ht, hd, hk, fun p hsources hknown => ?_⟩
          refine (hread p hsources hknown).trans ?_
          rw [hknown, hk]
          simp only [bind_apply, hfetch, hsources]
          rfl

theorem located_apply (o : Options) (src : Nat) (ref place : String) (p : Progress) :
    located o src ref place p = (Outcome.mapFailure (locate o src ref p).1 (·.withPath place), (locate o src ref p).2) := rfl

theorem located_fragment {o : Options} {src : Nat} {ref place : String} {t : Nat × String}
    (h : Returns (located o src ref place) t) : t.2 = (Text.cut ref "#").2.1 := by
  obtain ⟨p, hp⟩ := h
  have hok : (locate o src ref p).1 = .ok t := by
    rw [located_apply] at hp
    rcases hl : (locate o src ref p).1 with (f | r) | a <;> rw [hl] at hp
    · cases hp
    · cases hp
    · exact hp
  rcases locate_cases o src ref p.sources p.known with ⟨r, hr, ht⟩ | ⟨_, _, _, _, _, -, -, -, -, hr⟩
  · rw [hr p rfl rfl] at hok
    exact ht t hok
  · rw [hr p rfl rfl] at hok
    cases hok
    rfl

end Schemata.Import
