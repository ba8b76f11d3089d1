import Schemata.Proofs.Import.Values
import Schemata.Proofs.Steps

/-!
Two imports side by side.

A coupling says which states two runs may be in at the same time, where a step that returns may lead, and which nodes may
become children of others: some of any, others only as positions of tuples or fields of objects. `Pairs` says of two
steps that they stay coupled; it passes from parts to the whole (`Pairs.bind`). So whatever an import does besides following
references is coupled with itself once its few single steps are (`Sound`), and one level of conversion is coupled when the
levels below it and its references are (`convertWith_pairs`).
-/

namespace Schemata.Import

open Steps
open Setting (isHook isTame Plain Tame)

variable {α β : Type}

/-- the step can end with the value -/
def Returns (x : ImportM α) (a : α) : Prop := ∃ p, (x p).1 = .ok a

theorem Returns.of_pure {a b : α} (h : Returns (pure a) b) : b = a := by
  obtain ⟨p, hp⟩ := h
  exact (Except.ok.inj hp).symm

theorem Returns.of_bind {x : ImportM α} {f : α → ImportM β} {b : β} (h : Returns (x >>= f) b) :
    ∃ a, Returns x a ∧ Returns (f a) b := by
  obtain ⟨p, hp⟩ := h
  obtain ⟨a, q, hx, hf⟩ := bind_ok (Prod.ext hp rfl)
  exact ⟨a, ⟨p, by rw [hx]⟩, ⟨q, by rw [hf]⟩⟩

/-! ## What annotations set -/

theorem readRules_tame {m : Dict Value} {key place : String} {settings : List Setting}
    (h : Returns (readRules m key place) settings) : Tame settings := by
  have hgo (vs : List Value) : ∀ i ss, Returns (readRules.go key place i vs) ss → Tame ss := by
    induction vs with
    | nil =>
      intro i ss hss
      rw [hss.of_pure]
      exact tame_nil
    | cons v vs ih =>
      intro i ss hss
      rw [readRules.go] at hss
      split at hss
      · obtain ⟨_, -, hss⟩ := hss.of_bind
        exact ih _ _ hss
      · split at hss
        · obtain ⟨_, -, hss⟩ := hss.of_bind
          exact ih _ _ hss
        · obtain ⟨rest, hrest, hss⟩ := hss.of_bind
          rw [hss.of_pure]
          exact List.forall_mem_cons.2 ⟨rfl, ih _ _ hrest⟩
  exact hgo _ 0 _ h

theorem annotations_tame {o : Options} {m : Dict Value} {place : String} {settings : List Setting}
    (h : Returns (annotations o m place) settings) : Tame settings := by
  simp only [annotations, pure_bind] at h
  obtain ⟨rules, hrules, h⟩ := h.of_bind
  have hrules := readRules_tame hrules
  have hannotations := tame_annotationSettings m
  have hextensions := tame_extensionSettings m
  split at h
  · obtain ⟨more, hmore, h⟩ := h.of_bind
    rw [h.of_pure]
    simp only [tame_append]
    exact ⟨⟨⟨hannotations, hrules⟩, readRules_tame hmore⟩, hextensions⟩
  · rw [h.of_pure]
    simp only [tame_append]
    exact ⟨⟨⟨hannotations, hrules⟩, tame_nil⟩, hextensions⟩

theorem tame_contains (m : Dict Value) : Tame (match (m.get? "contains").bind containsPredicate? with
    | some p => (containsRules m p).map Setting.rule
    | none => []) := by
  split
  · intro s hs
    obtain ⟨r, -, rfl⟩ := List.mem_map.1 hs
    rfl
  · exact tame_nil

theorem listSettings_tame {m : Dict Value} {place : String} {settings : List Setting}
    (h : Returns (listSettings m place) settings) : Tame settings := by
  simp only [listSettings, pure_bind] at h
  have hown (own : List Setting) (hown : Tame own) := tame_append.2 ⟨hown, tame_contains m⟩
  split at h
  · rw [h.of_pure]
    exact hown _ (by simp [Tame, isTame])
  · split at h
    · obtain ⟨_, -, h⟩ := h.of_bind
      rw [h.of_pure]
      exact hown _ tame_nil
    · rw [h.of_pure]
      exact hown _ (by simp [Tame, isTame])
  · rw [h.of_pure]
    exact hown _ tame_nil
  · rw [h.of_pure]
    exact hown _ tame_nil
  · obtain ⟨_, -, h⟩ := h.of_bind
    rw [h.of_pure]
    exact hown _ tame_nil

/-! ## Couplings -/

structure Coupling where
  /-- the states that the two runs are in at the same time -/
  related : Progress → Progress → Prop
  /-- where a step that returns may lead the first run -/
  leads : Progress → Progress → Prop
  /-- the nodes that may become children of others -/
  owns : Progress → Nat → Prop
  /-- the nodes that may become positions of a tuple or fields of an object -/
  stands : Progress → Nat → Prop

/-- from coupled states both steps have the same outcome and end coupled; where the nodes that it uses are as they should be
before, a step that returns gives nodes that are as they should be after it -/
def Coupling.Steps (C : Coupling) (before after : Progress → Nat → Prop) (uses : List Nat) (x y : ImportM α)
    (gives : α → List Nat) : Prop :=
  ∀ p q, C.related p q → (∀ n ∈ uses, before p n) →
    (x p).1 = (y q).1 ∧ C.related (x p).2 (y q).2 ∧
      ∀ a, (x p).1 = .ok a → C.leads p (x p).2 ∧ ∀ n ∈ gives a, after (x p).2 n

/-- steps over nodes that may become children -/
def Coupling.Pairs (C : Coupling) (uses : List Nat) (x y : ImportM α) (gives : α → List Nat) : Prop :=
  C.Steps C.owns C.owns uses x y gives

/-- steps over positions and fields -/
def Coupling.Pieces (C : Coupling) (uses : List Nat) (x y : ImportM α) (gives : α → List Nat) : Prop :=
  C.Steps C.stands C.stands uses x y gives

/-- steps that join positions or fields -/
def Coupling.Joins (C : Coupling) (uses : List Nat) (x y : ImportM α) (gives : α → List Nat) : Prop :=
  C.Steps C.stands C.owns uses x y gives

/-- the single steps of an import, but for those that follow references, are coupled with themselves -/
structure Coupling.Sound (C : Coupling) (o : Options) : Prop where
  refl : ∀ p, C.leads p p
  trans : ∀ {p q r}, C.leads p q → C.leads q r → C.leads p r
  keeps : ∀ {p q n}, C.leads p q → C.owns p n → C.owns q n
  stays : ∀ {p q n}, C.leads p q → C.stands p n → C.stands q n
  stands : ∀ {p n}, C.owns p n → C.stands p n
  sources : ∀ {p q}, C.related p q → p.sources = q.sources
  pruning : ∀ {p q}, C.related p q → p.pruning = q.pruning
  nodes : ∀ {p q}, C.related p q → p.graph.nodes = q.graph.nodes
  make : ∀ {kind} options children {settings}, kind ≠ .ref ∧ kind ≠ .optional → Plain settings →
    C.Pairs children (make kind options children settings) (make kind options children settings) fun n => [n]
  /-- positions and fields are joined -/
  join : ∀ {kind} options children {settings}, kind = .tuple ∨ kind = .object → Plain settings →
    C.Joins children (Import.make kind options children settings) (Import.make kind options children settings) fun n => [n]
  /-- a position or field is made optional -/
  optional : ∀ n, C.Steps C.owns C.stands [n] (Import.make .optional .none [n] []) (Import.make .optional .none [n] [])
    fun k => [k]
  apply : ∀ n {settings}, Plain settings →
    C.Pairs [n] (onGraph (GraphM.apply n settings)) (onGraph (GraphM.apply n settings)) fun _ => []
  warn : ∀ text, C.Pairs [] (warn text) (warn text) fun _ => []
  /-- looking for the target of a reference leads on also when it fails -/
  locate : ∀ src ref {p q}, C.related p q → (locate o src ref p).1 = (locate o src ref q).1 ∧
    C.related (locate o src ref p).2 (locate o src ref q).2 ∧ C.leads p (locate o src ref p).2

namespace Coupling

variable {C : Coupling} {o : Options} {us us' : List Nat} {before after : Progress → Nat → Prop}

/-! ## Rules -/

theorem Steps.mono {before' after' : Progress → Nat → Prop} {x y : ImportM α} {g g' : α → List Nat}
    (h : C.Steps before after us x y g) (hus : us ⊆ us') (hg : ∀ a, g' a ⊆ g a)
    (hbefore : ∀ {p n}, before' p n → before p n) (hafter : ∀ {p n}, after p n → after' p n) :
    C.Steps before' after' us' x y g' := by
  intro p q hpq huses
  obtain ⟨heq, hrel, hret⟩ := h p q hpq fun n hn => hbefore (huses n (hus hn))
  refine ⟨heq, hrel, fun a ha => ?_⟩
  obtain ⟨hleads, hafter'⟩ := hret a ha
  exact ⟨hleads, fun n hn => hafter (hafter' n (hg a hn))⟩

/-- a step that uses no nodes may stand between others -/
theorem Steps.free {x y : ImportM α} {g : α → List Nat} (h : C.Steps before after [] x y g) (us : List Nat)
    (before' : Progress → Nat → Prop) : C.Steps before' after us x y g :=
  fun p q hpq _ => h p q hpq fun _ hn => absurd hn List.not_mem_nil

theorem Pairs.mono {x y : ImportM α} {g g' : α → List Nat} (h : C.Pairs us x y g) (hus : us ⊆ us')
    (hg : ∀ a, g' a ⊆ g a) : C.Pairs us' x y g' := Steps.mono h hus hg id id

theorem Pairs.uses {x y : ImportM α} {g : α → List Nat} (h : C.Pairs us x y g) (hus : us ⊆ us') : C.Pairs us' x y g :=
  h.mono hus fun _ _ hn => hn

theorem Pairs.stop (us : List Nat) (f : Failure) (g : α → List Nat) : C.Pairs us (stop f) (stop f) g :=
  fun _ _ hpq _ => ⟨rfl, hpq, fun _ h => by cases h⟩

variable (hC : C.Sound o)

include hC

theorem Steps.pure {a : α} {g : α → List Nat} (h : g a ⊆ us) (hle : ∀ {p n}, before p n → after p n) :
    C.Steps before after us (pure a) (pure a) g := by
  intro p q hpq huses
  refine ⟨rfl, hpq, fun b hb => ?_⟩
  cases hb
  exact ⟨hC.refl p, fun n hn => hle (huses n (h hn))⟩

theorem Steps.bind {x y : ImportM α} {f f' : α → ImportM β} {g : α → List Nat} {h : β → List Nat}
    (hkeeps : ∀ {p q n}, C.leads p q → before p n → before q n) (hx : C.Steps before before us x y g)
    (hf : ∀ a, Returns x a → C.Steps before after (us ++ g a) (f a) (f' a) h) : C.Steps before after us (x >>= f) (y >>= f') h := by
  intro p q hpq huses
  obtain ⟨heq, hrel, hret⟩ := hx p q hpq huses
  rw [bind_apply, bind_apply]
  rcases hp : x p with ⟨e | a, p'⟩ <;> rcases hq : y q with ⟨e' | b, q'⟩ <;> rw [hp, hq] at heq hrel
  · refine ⟨congrArg Except.error (Except.error.inj heq), hrel, fun b hb => ?_⟩
    cases hb
  · cases heq
  · cases heq
  · obtain rfl : a = b := by simpa using heq
    obtain ⟨hleads, hgives⟩ := hret a (by rw [hp])
    rw [hp] at hleads hgives
    have huses' : ∀ n ∈ us ++ g a, before p' n := by
      intro n hn
      rcases List.mem_append.1 hn with hn | hn
      · exact hkeeps hleads (huses n hn)
      · exact hgives n hn
    obtain ⟨heq', hrel', hret'⟩ := hf a ⟨p, by rw [hp]⟩ p' q' hrel huses'
    refine ⟨heq', hrel', fun b hb => ?_⟩
    obtain ⟨hleads', hgives'⟩ := hret' b hb
    exact ⟨hC.trans hleads hleads', hgives'⟩

theorem Pairs.pure {a : α} {g : α → List Nat} (h : g a ⊆ us) : C.Pairs us (pure a) (pure a) g := Steps.pure hC h id

theorem Pairs.bind {x y : ImportM α} {f f' : α → ImportM β} {g : α → List Nat} {h : β → List Nat} (hx : C.Pairs us x y g)
    (hf : ∀ a, Returns x a → C.Pairs (us ++ g a) (f a) (f' a) h) : C.Pairs us (x >>= f) (y >>= f') h :=
  Steps.bind hC hC.keeps hx hf

theorem Pieces.pure {a : α} {g : α → List Nat} (h : g a ⊆ us) : C.Pieces us (pure a) (pure a) g := Steps.pure hC h id

theorem Pieces.bind {x y : ImportM α} {f f' : α → ImportM β} {g : α → List Nat} {h : β → List Nat} (hx : C.Pieces us x y g)
    (hf : ∀ a, Returns x a → C.Pieces (us ++ g a) (f a) (f' a) h) : C.Pieces us (x >>= f) (y >>= f') h :=
  Steps.bind hC hC.stays hx hf

theorem Joins.bind {x y : ImportM α} {f f' : α → ImportM β} {g : α → List Nat} {h : β → List Nat} (hx : C.Pieces us x y g)
    (hf : ∀ a, Returns x a → C.Joins (us ++ g a) (f a) (f' a) h) : C.Joins us (x >>= f) (y >>= f') h :=
  Steps.bind hC hC.stays hx hf

/-- what may become a child of any node may become a position or a field -/
theorem Pairs.piece {x y : ImportM α} {g : α → List Nat} (h : C.Pairs [] x y g) (us : List Nat) : C.Pieces us x y g :=
  Steps.mono (Steps.free h us C.stands) (List.Subset.refl us) (fun _ _ hn => hn) id hC.stands

theorem Joins.pairs {x y : ImportM α} {g : α → List Nat} (h : C.Joins us x y g) : C.Pairs us x y g :=
  Steps.mono h (List.Subset.refl us) (fun _ _ hn => hn) hC.stands id

omit hC in
theorem Pairs.get {f f' : Progress → ImportM α} {g : α → List Nat}
    (h : ∀ p q, C.related p q → C.Pairs us (f p) (f' q) g) : C.Pairs us (get >>= f) (get >>= f') g :=
  fun p q hpq huses => h p q hpq p q hpq huses

theorem make_pairs {kind : Kind} (options : Schemata.Options) {children : List Nat} {settings : List Setting}
    (hk : kind ≠ .ref ∧ kind ≠ .optional) (hs : Plain settings) (hc : children ⊆ us) :
    C.Pairs us (make kind options children settings) (make kind options children settings) fun n => [n] :=
  (hC.make options children hk hs).uses hc

theorem warnAt_pairs (us : List Nat) (place text : String) :
    C.Pairs us (warnAt place text) (warnAt place text) fun _ => [] :=
  (hC.warn _).uses (List.nil_subset us)

/-! ## Annotations -/

theorem readRules_pairs (us : List Nat) (m : Dict Value) (key place : String) :
    C.Pairs us (readRules m key place) (readRules m key place) fun _ => [] := by
  have hgo (vs : List Value) : ∀ i us, C.Pairs us (readRules.go key place i vs) (readRules.go key place i vs) fun _ => [] := by
    induction vs with
    | nil => exact fun i us => .pure hC (List.nil_subset _)
    | cons v vs ih =>
      intro i us
      rw [readRules.go]
      split
      · exact .bind hC (warnAt_pairs hC us _ _) fun _ _ => ih _ _
      · split
        · exact .bind hC (warnAt_pairs hC us _ _) fun _ _ => ih _ _
        · exact .bind hC (ih _ us) fun _ _ => .pure hC (List.nil_subset _)
  exact hgo _ 0 us

theorem annotations_pairs (us : List Nat) (m : Dict Value) (place : String) :
    C.Pairs us (annotations o m place) (annotations o m place) fun _ => [] := by
  have hnone {us : List Nat} (l : List Setting) : C.Pairs us (Pure.pure l) (Pure.pure l) fun _ => [] :=
    .pure hC (List.nil_subset _)
  simp only [annotations, pure_bind]
  refine .bind hC (readRules_pairs hC us m _ place) fun rules _ => ?_
  split
  · exact .bind hC (readRules_pairs hC _ m _ place) fun more _ => hnone _
  · exact hnone _

theorem listSettings_pairs (us : List Nat) (m : Dict Value) (place : String) :
    C.Pairs us (listSettings m place) (listSettings m place) fun _ => [] := by
  have hnone {us : List Nat} (l : List Setting) : C.Pairs us (Pure.pure l) (Pure.pure l) fun _ => [] :=
    .pure hC (List.nil_subset _)
  simp only [listSettings, pure_bind]
  split
  · exact hnone _
  · split
    · exact .bind hC (warnAt_pairs hC us _ _) fun _ _ => hnone _
    · exact hnone _
  · exact hnone _
  · exact hnone _
  · exact .bind hC (warnAt_pairs hC us _ _) fun _ _ => hnone _

/-! ## Arrays -/

omit hC

variable {m : Dict Value} {convert convert' : Convert}

/-- the schemas below an object are converted to nodes that may become children -/
def Converts (C : Coupling) (m : Dict Value) (convert convert' : Convert) : Prop :=
  ∀ v place, Below v (.object m) → C.Pairs [] (convert v place) (convert' v place) fun n => [n]

theorem Converts.pairs (hconv : C.Converts m convert convert') (us : List Nat) {v : Value} (hv : Below v (.object m))
    (place : String) : C.Pairs us (convert v place) (convert' v place) fun n => [n] :=
  (hconv v place hv).uses (List.nil_subset us)

variable (hconv : C.Converts m convert convert')

include hC hconv

theorem convertList_pairs (us : List Nat) (place key : String) {vs : List Value} (hvs : ∀ v ∈ vs, Below v (.object m)) (i : Nat) :
    C.Pairs us (convertList convert place key i vs) (convertList convert' place key i vs) fun ns => ns := by
  induction vs generalizing i us with
  | nil => exact .pure hC (List.nil_subset us)
  | cons v vs ih =>
    refine .bind hC (hconv.pairs us (hvs v (by simp)) _) fun n _ => ?_
    refine .bind hC (ih _ (fun v hv => hvs v (List.mem_cons_of_mem _ hv)) _) fun ns _ => ?_
    exact .pure hC (by simp)

omit hC hconv in
/-- the schema of a position or a field, converted; it is optional or not -/
def convertPiece (convert : Convert) (isOptional : Bool) (v : Value) (place : String) : ImportM Nat := do
  let n ← convert v place
  if isOptional then make .optional .none [n] [] else return n

theorem convertPiece_pieces (us : List Nat) (isOptional : Bool) {v : Value} (hv : Below v (.object m)) (place : String) :
    C.Pieces us (convertPiece convert isOptional v place) (convertPiece convert' isOptional v place) fun n => [n] := by
  have hpiece : C.Steps C.owns C.stands [] (convertPiece convert isOptional v place) (convertPiece convert' isOptional v place)
      fun n => [n] := by
    refine Steps.bind hC hC.keeps (hconv v place hv) fun n _ => ?_
    split
    · exact hC.optional n
    · exact Steps.pure hC (List.Subset.refl _) hC.stands
  exact hpiece.free us C.stands

omit hC hconv in
theorem convertPositions_cons (convert : Convert) (place key : String) (least : Int) (i : Nat) (v : Value) (vs : List Value) :
    convertPositions convert place key least i (v :: vs) =
      convertPiece convert (decide ((i : Int) ≥ least)) v (place ++ "/" ++ key ++ "/" ++ toString i) >>= fun n =>
        convertPositions convert place key least (i + 1) vs >>= fun ns => Pure.pure (n :: ns) := by
  rw [convertPositions, convertPiece, bind_assoc]
  refine bind_congr fun n => ?_
  by_cases h : (i : Int) ≥ least
  · simp [h]
  · simp [h]

theorem convertPositions_pieces (us : List Nat) (place key : String) (least : Int) {vs : List Value}
    (hvs : ∀ v ∈ vs, Below v (.object m)) (i : Nat) :
    C.Pieces us (convertPositions convert place key least i vs) (convertPositions convert' place key least i vs)
      fun ns => ns := by
  induction vs generalizing i us with
  | nil => exact .pure hC (List.nil_subset us)
  | cons v vs ih =>
    rw [convertPositions_cons, convertPositions_cons]
    refine .bind hC (convertPiece_pieces hC hconv us _ (hvs v (by simp)) _) fun n _ => ?_
    refine .bind hC (ih _ (fun v hv => hvs v (List.mem_cons_of_mem _ hv)) _) fun ns _ => ?_
    exact .pure hC (by simp)

omit hconv in
theorem join_pairs {kind : Kind} (options : Schemata.Options) {children : List Nat} {settings : List Setting}
    (hk : kind = .tuple ∨ kind = .object) (hs : Plain settings) (hc : children ⊆ us) :
    C.Joins us (make kind options children settings) (make kind options children settings) fun n => [n] :=
  Steps.mono (hC.join options children hk hs) hc (fun _ _ hn => hn) id id

theorem tupleNode_pairs (us : List Nat) {items : List Value} {itemsKey : String} (hitems : list? m itemsKey = some items)
    (key place : String) {settings : List Setting} (hs : Plain settings) :
    C.Pairs us (tupleNode convert m items key place settings) (tupleNode convert' m items key place settings)
      fun n => [n] := by
  unfold tupleNode
  refine (Joins.bind hC (convertPositions_pieces hC hconv us _ _ _ (fun v hv => below_list? hitems hv) _) fun ns _ => ?_).pairs hC
  dsimp only
  generalize (if key = "prefixItems" then "items" else "additionalItems") = restKey
  split
  · exact join_pairs hC _ (.inl rfl) hs (by simp)
  · have hrest : Below ((m.get? restKey).getD (.bool true)) (.object m) := by
      cases h : m.get? restKey with
      | none => exact below_true (get?_of_list? hitems)
      | some v => exact below_get? h
    refine .bind hC (Pairs.piece hC (hconv _ _ hrest) _) fun r _ => ?_
    exact join_pairs hC _ (.inl rfl) hs (by simp)

theorem arrayNode_pairs (us : List Nat) (place : String) :
    C.Pairs us (arrayNode convert m place) (arrayNode convert' m place) fun n => [n] := by
  unfold arrayNode
  refine .bind hC (listSettings_pairs hC us m place) fun own hown => ?_
  have hs : Plain (itemSettings m ++ own) := (tame_append.2 ⟨tame_itemSettings m, listSettings_tame hown⟩).plain
  dsimp only
  split
  · exact tupleNode_pairs hC hconv _ ‹_› _ _ hs
  · exact tupleNode_pairs hC hconv _ ‹_› _ _ hs
  · split
    · refine .bind hC (hconv.pairs _ (below_get? ‹_›) _) fun item _ => ?_
      exact make_pairs hC _ (by simp) hs (by simp)
    · refine .bind hC (make_pairs hC _ (by simp) plain_nil (List.nil_subset _)) fun item _ => ?_
      exact make_pairs hC _ (by simp) hs (by simp)

/-! ## Objects -/

theorem recordNode_pairs (us : List Nat) (place : String) :
    C.Pairs us (recordNode? convert m place) (recordNode? convert' m place) Option.toList := by
  have hrecord (pattern : String) {v : Value} (hv : Below v (.object m)) (at_ : String) :
      C.Pairs us
        (do
          let n ← convert v at_
          return some (← make .record (.record "") [n] (if pattern = "" then [] else [.keyPattern pattern])))
        (do
          let n ← convert' v at_
          return some (← make .record (.record "") [n] (if pattern = "" then [] else [.keyPattern pattern])))
        Option.toList := by
    refine .bind hC (hconv.pairs us hv _) fun n _ => ?_
    refine .bind hC (make_pairs hC _ (by simp) ?_ (by simp)) fun r _ => .pure hC (by simp)
    split <;> simp [Plain, isHook]
  unfold recordNode?
  dsimp only
  split
  · exact hrecord _ (below_object? ‹_› (List.mem_singleton_self (_, _))) _
  · exact .pure hC (List.nil_subset us)
  · exact hrecord _ (below_get? ‹_›) _
  · exact .pure hC (List.nil_subset us)

omit hconv in
theorem unlistedPolicy_pairs (us : List Nat) (m : Dict Value) (place : String) :
    C.Pairs us (unlistedPolicy o m place) (unlistedPolicy o m place) fun _ => [] := by
  have hdefault {us : List Nat} : C.Pairs us
      (get >>= fun p => Pure.pure (o.unlisted.getD (if p.pruning then .drop else .keep)))
      (get >>= fun p => Pure.pure (o.unlisted.getD (if p.pruning then .drop else .keep))) fun _ => [] := by
    apply Pairs.get
    intro p q hpq
    rw [hC.pruning hpq]
    exact .pure hC (List.nil_subset _)
  have hkeep {us : List Nat} (u : Unlisted) : C.Pairs us (Pure.pure u) (Pure.pure u) fun _ => [] :=
    .pure hC (List.nil_subset _)
  unfold unlistedPolicy
  split
  · exact hkeep _
  · dsimp only
    split
    · split
      · exact .bind hC (warnAt_pairs hC us _ _) fun _ _ => hkeep _
      · exact hkeep _
    · exact hdefault

omit hC hconv in
theorem putField_ids (k : String) (n : Nat) (acc : List (String × Nat)) :
    (putField k n acc).map (·.2) ⊆ n :: acc.map (·.2) := by
  induction acc with
  | nil => simp [putField]
  | cons e acc ih =>
    obtain ⟨l, i⟩ := e
    intro j hj
    rw [putField] at hj
    split at hj
    · simp only [List.map_cons, List.mem_cons] at hj ⊢
      tauto
    · simp only [List.map_cons, List.mem_cons] at hj ⊢
      rcases hj with rfl | hj
      · simp
      · have := ih hj
        simp only [List.mem_cons] at this
        tauto

omit hC hconv in
theorem convertFields_cons (convert : Convert) (place : String) (required : List String) (acc : List (String × Nat)) (k : String)
    (v : Value) (fs : Dict Value) : convertFields convert place required acc ((k, v) :: fs) =
      convertPiece convert (!required.contains k) v (place ++ "/properties/" ++ escapeToken k) >>= fun n =>
        convertFields convert place required (putField k n acc) fs := by
  rw [convertFields, convertPiece, bind_assoc]
  refine bind_congr fun n => ?_
  cases required.contains k with
  | true => simp
  | false => simp

theorem convertFields_pieces {us : List Nat} (place : String) (required : List String) {acc : List (String × Nat)}
    (hacc : acc.map (·.2) ⊆ us) {fs : Dict Value} (hfs : ∀ e ∈ fs, Below e.2 (.object m)) :
    C.Pieces us (convertFields convert place required acc fs) (convertFields convert' place required acc fs)
      fun fields => fields.map (·.2) := by
  induction fs generalizing acc us with
  | nil => exact .pure hC hacc
  | cons e fs ih =>
    obtain ⟨k, v⟩ := e
    rw [convertFields_cons, convertFields_cons]
    refine .bind hC (convertPiece_pieces hC hconv us _ (hfs _ (List.mem_cons_self ..)) _) fun n _ => ?_
    refine ih ?_ fun e he => hfs e (List.mem_cons_of_mem _ he)
    intro i hi
    rcases List.mem_cons.1 (putField_ids k n acc hi) with rfl | hi
    · simp
    · exact List.mem_append_left _ (hacc hi)

omit hconv in
theorem addMissing_pieces {us : List Nat} (props : Dict Value) {node : ImportM Nat} (hnode : C.Pairs [] node node fun n => [n])
    {acc : List (String × Nat)} (hacc : acc.map (·.2) ⊆ us) (keys : List String) :
    C.Pieces us (addMissing props node acc keys) (addMissing props node acc keys) fun fields => fields.map (·.2) := by
  induction keys generalizing acc us with
  | nil => exact .pure hC hacc
  | cons k keys ih =>
    rw [addMissing]
    split
    · exact ih hacc
    · refine .bind hC (Pairs.piece hC hnode us) fun n _ => ih ?_
      intro i hi
      rcases List.mem_cons.1 (putField_ids k n acc hi) with rfl | hi
      · simp
      · exact List.mem_append_left _ (hacc hi)

omit hC hconv in
/-- an object that is no record -/
def fieldsNode (o : Options) (convert : Convert) (m : Dict Value) (place : String) : ImportM Nat := do
  let props := (object? m "properties").getD []
  let required := strings m "required"
  let fields ← convertFields convert place (required ++ embeddedKeys o m) [] props
  let fields ← addMissing props (make .unknown .none [] []) fields required
  let fields ← addMissing props (make .string (.text {}) [] [.minLength 1]) fields (embeddedKeys o m)
  let unlisted ← unlistedPolicy o m place
  make .object (.object { keys := fields.map (·.1), unlisted }) (fields.map (·.2)) []

theorem fieldsNode_pairs (us : List Nat) (place : String) :
    C.Pairs us (fieldsNode o convert m place) (fieldsNode o convert' m place) fun n => [n] := by
  have hprops : ∀ e ∈ (object? m "properties").getD [], Below e.2 (.object m) := by
    cases h : object? m "properties" with
    | none => simp
    | some fs => exact fun e he => below_object? h he
  have hminLength : Plain [.minLength 1] := by simp [Plain, isHook]
  unfold fieldsNode
  dsimp only
  refine (Joins.bind hC (convertFields_pieces hC hconv place _ (List.nil_subset us) hprops) fun fields _ => ?_).pairs hC
  refine .bind hC (addMissing_pieces hC _ (make_pairs hC _ (by simp) plain_nil (List.nil_subset []))
    (List.subset_append_right _ _) _) fun fields _ => ?_
  refine .bind hC (addMissing_pieces hC _ (make_pairs hC _ (by simp) hminLength (List.nil_subset []))
    (List.subset_append_right _ _) _) fun fields _ => ?_
  refine .bind hC (Pairs.piece hC (unlistedPolicy_pairs hC [] m place) _) fun unlisted _ => ?_
  exact join_pairs hC _ (.inr rfl) plain_nil fun i hi => List.mem_append_left _ (List.mem_append_right _ hi)

theorem objectNode_pairs (us : List Nat) (place : String) :
    C.Pairs us (objectNode o convert m place) (objectNode o convert' m place) fun n => [n] := by
  unfold objectNode
  dsimp only
  split
  · refine .bind hC (recordNode_pairs hC hconv us place) fun record _ => ?_
    cases record with
    | some n => exact .pure hC (by simp)
    | none => exact fieldsNode_pairs hC hconv _ place
  · refine .bind hC (.pure hC (g := Option.toList) (List.nil_subset us)) fun record hr => ?_
    rw [hr.of_pure]
    exact fieldsNode_pairs hC hconv _ place

/-! ## Types and combinations -/

theorem typeNode_pairs (us : List Nat) (place type : String) :
    C.Pairs us (typeNode o convert m place type) (typeNode o convert' m place type) fun n => [n] := by
  unfold typeNode
  split
  · exact make_pairs hC _ (by simp) (tame_textSettings m).plain (List.nil_subset us)
  · exact make_pairs hC _ (by simp) (tame_numberSettings m).plain (List.nil_subset us)
  · exact make_pairs hC _ (by simp) (tame_numberSettings m).plain (List.nil_subset us)
  · exact make_pairs hC _ (by simp) plain_nil (List.nil_subset us)
  · exact make_pairs hC _ (by simp) plain_nil (List.nil_subset us)
  · exact objectNode_pairs hC hconv us place
  · exact arrayNode_pairs hC hconv us place
  · exact .stop us _ _

theorem typeNodes_pairs (us : List Nat) (place : String) (types : List String) :
    C.Pairs us (typeNodes o convert m place types) (typeNodes o convert' m place types) fun ns => ns := by
  induction types generalizing us with
  | nil => exact .pure hC (List.nil_subset us)
  | cons t types ih =>
    refine .bind hC (typeNode_pairs hC hconv us place t) fun n _ => .bind hC (ih _) fun ns _ => ?_
    exact .pure hC (by simp)

theorem ownNode_pairs (us : List Nat) (types : List String) (place : String) :
    C.Pairs us (ownNode? o convert m types place) (ownNode? o convert' m types place) Option.toList := by
  have hmake {us : List Nat} {kind : Kind} (options : Schemata.Options) (hk : kind ≠ .ref ∧ kind ≠ .optional) {ns : List Nat} (hns : ns ⊆ us) :
      C.Pairs us (make kind options ns [] >>= fun n => Pure.pure (some n)) (make kind options ns [] >>= fun n => Pure.pure (some n))
        Option.toList :=
    .bind hC (make_pairs hC options hk plain_nil hns) fun n _ => .pure hC (by simp)
  unfold ownNode?
  split
  · refine .bind hC (make_pairs hC _ (by simp) plain_nil (List.nil_subset us)) fun i _ => ?_
    refine .bind hC (make_pairs hC _ (by simp) plain_nil (List.nil_subset _)) fun s _ => ?_
    exact hmake _ (by simp) (by simp)
  · split
    · exact hmake _ (by simp) (List.nil_subset us)
    · exact hmake _ (by simp) (List.nil_subset us)
    · generalize (if types.isEmpty then inferredTypes m else types) = ts
      split
      · exact .pure hC (List.nil_subset us)
      · exact .bind hC (typeNode_pairs hC hconv us place _) fun n _ => .pure hC (by simp)
      · exact .bind hC (typeNodes_pairs hC hconv us place _) fun ns _ => hmake _ (by simp) (by simp)

omit hconv in
theorem pins_pairs (us : List Nat) (prop : String) (steps src : Nat) (v : Value) :
    C.Pairs us (pins o prop steps src v) (pins o prop steps src v) fun _ => [] := by
  have hanswer {us : List Nat} (b : Bool) : C.Pairs us (Pure.pure b) (Pure.pure b) fun _ => [] :=
    .pure hC (List.nil_subset _)
  induction steps generalizing us src v with
  | zero =>
    rw [pins]
    exact hanswer _
  | succ steps ih =>
    have hany (xs : List Value) : ∀ us, C.Pairs us (pins.any o prop steps src xs) (pins.any o prop steps src xs) fun _ => [] := by
      induction xs with
      | nil =>
        intro us
        rw [pins.any]
        exact hanswer _
      | cons x xs ihx =>
        intro us
        rw [pins.any]
        refine .bind hC (ih us src x) fun b _ => ?_
        split
        · exact hanswer _
        · exact ihx _
    unfold pins
    split
    · split
      · -- a reference is looked up, and its failure is passed over
        rename_i ref _
        intro p q hpq huses
        obtain ⟨heq, hrel, hleads⟩ := hC.locate src ref hpq
        have hrun (r : Progress) : ExceptT.run (locate o src ref) r = locate o src ref r := rfl
        rcases hp : locate o src ref p with ⟨e | ⟨target, fragment⟩, p'⟩ <;>
          rcases hq : locate o src ref q with ⟨e' | t, q'⟩ <;> rw [hp, hq] at heq hrel <;> rw [hp] at hleads <;>
          simp only [hrun, hp, hq]
        · exact ⟨trivial, hrel, fun _ _ => ⟨hleads, by simp⟩⟩
        · cases heq
        · cases heq
        · obtain rfl : (target, fragment) = t := Except.ok.inj heq
          rw [hC.sources hrel]
          dsimp only
          split
          · rename_i w _
            obtain ⟨heq', hrel', hret⟩ := ih us target w p' q' hrel fun n hn => hC.keeps hleads (huses n hn)
            refine ⟨heq', hrel', fun b hb => ?_⟩
            exact ⟨hC.trans hleads (hret b hb).1, (hret b hb).2⟩
          · exact ⟨rfl, hrel, fun _ _ => ⟨hleads, by simp⟩⟩
      · refine .bind hC (hany _ us) fun b _ => ?_
        split
        · exact hanswer _
        · split
          · exact hanswer _
          · exact hanswer _
    · exact hanswer _

omit hconv in
theorem unpinned_pairs (us : List Nat) (src : Nat) (prop : String) (vs : List Value) (i : Nat) :
    C.Pairs us (unpinned? o src prop i vs) (unpinned? o src prop i vs) fun _ => [] := by
  induction vs generalizing i us with
  | nil => exact .pure hC (List.nil_subset us)
  | cons v vs ih =>
    rw [unpinned?]
    refine .bind hC (pins_pairs hC us prop 9 src v) fun b _ => ?_
    split
    · exact ih _ _
    · exact .pure hC (List.nil_subset _)

omit hconv in
theorem choiceNode_pairs {us : List Nat} (src : Nat) (m : Dict Value) (variants : List Value) {nodes : List Nat}
    (hnodes : nodes ⊆ us) (place : String) :
    C.Pairs us (choiceNode o src m variants nodes place) (choiceNode o src m variants nodes place) fun n => [n] := by
  unfold choiceNode
  dsimp only
  split
  · exact make_pairs hC _ (by simp) plain_nil hnodes
  · refine .bind hC (unpinned_pairs hC us src _ variants 0) fun i _ => ?_
    have hnodes : nodes ⊆ us ++ [] := by simpa using hnodes
    split
    · refine .bind hC (warnAt_pairs hC _ _ _) fun _ _ => ?_
      exact make_pairs hC _ (by simp) plain_nil (by simpa using hnodes)
    · exact make_pairs hC _ (by simp) plain_nil hnodes

theorem partNode_pairs (us : List Nat) (src : Nat) (place key : String) :
    C.Pairs us (partNode? o src convert m place key) (partNode? o src convert' m place key) Option.toList := by
  unfold partNode?
  split
  · exact .pure hC (List.nil_subset us)
  · rename_i vs hvs
    refine .bind hC (convertList_pairs hC hconv us place key (fun v hv => below_list? hvs hv) 0) fun ns _ => ?_
    split
    · exact .bind hC (make_pairs hC _ (by simp) plain_nil (by simp)) fun n _ => .pure hC (by simp)
    · exact .bind hC (choiceNode_pairs hC src m vs (by simp) place) fun n _ => .pure hC (by simp)
    · exact .pure hC (by simp)
    · exact .bind hC (make_pairs hC _ (by simp) plain_nil (by simp)) fun n _ => .pure hC (by simp)

theorem combined_pairs (us : List Nat) (src : Nat) (place : String) :
    C.Pairs us (combined? o src convert m place) (combined? o src convert' m place) Option.toList := by
  unfold combined?
  refine .bind hC (partNode_pairs hC hconv us src place "anyOf") fun a _ => ?_
  refine .bind hC (partNode_pairs hC hconv _ src place "oneOf") fun b _ => ?_
  refine .bind hC (partNode_pairs hC hconv _ src place "allOf") fun c _ => ?_
  have hparts : a.toList ++ b.toList ++ c.toList ⊆ us ++ a.toList ++ b.toList ++ c.toList := by
    intro n hn
    simp only [List.mem_append] at hn ⊢
    tauto
  revert hparts
  generalize a.toList ++ b.toList ++ c.toList = parts
  intro hparts
  split
  · exact .pure hC (List.nil_subset _)
  · exact .pure hC hparts
  · exact .bind hC (make_pairs hC _ (by simp) plain_nil hparts) fun n _ => .pure hC (by simp)

/-! ## Schemas -/

omit hconv in
/-- a node that is there, or is made nullable -/
theorem nullable_pairs {us : List Nat} {n : Nat} (hn : n ∈ us) (c : Prop) [Decidable c] :
    C.Pairs us (if c then make .nullable .none [n] [] else Pure.pure n) (if c then make .nullable .none [n] [] else Pure.pure n)
      fun n => [n] := by
  split
  · exact make_pairs hC _ (by simp) plain_nil (by simpa using hn)
  · exact .pure hC (by simpa using hn)

omit hC hconv in
/-- a schema with its keywords taken one by one -/
def keywordsNode (o : Options) (src : Nat) (convert : Convert) (m : Dict Value) (types : List String) (null : Bool)
    (place : String) : ImportM Nat := do
  let settings ← annotations o m place
  let own ← ownNode? o convert m types place
  let comb ← combined? o src convert m place
  let n ← match own, comb with
    | some a, some b => make .intersection .none [a, b] settings
    | none, some b => do onGraph (GraphM.apply b settings); pure b
    | some a, none => do onGraph (GraphM.apply a settings); pure a
    | none, none => make .unknown .none [] settings
  if null then make .nullable .none [n] [] else return n

theorem keywordsNode_pairs (us : List Nat) (src : Nat) (types : List String) (null : Bool) (place : String) :
    C.Pairs us (keywordsNode o src convert m types null place) (keywordsNode o src convert' m types null place)
      fun n => [n] := by
  unfold keywordsNode
  dsimp only
  refine .bind hC (annotations_pairs hC us m place) fun settings hsettings => ?_
  refine .bind hC (ownNode_pairs hC hconv _ types place) fun own _ => ?_
  refine .bind hC (combined_pairs hC hconv _ src place) fun comb _ => ?_
  have hs := (annotations_tame hsettings).plain
  split
  · exact .bind hC (make_pairs hC _ (by simp) hs (by simp)) fun n _ => nullable_pairs hC (by simp) _
  · rename_i b _ _
    refine .bind hC ((hC.apply b hs).uses (by simp)) fun _ _ => ?_
    exact .bind hC (.pure hC (g := fun n => [n]) (by simp)) fun n _ => nullable_pairs hC (by simp) _
  · rename_i a _ _
    refine .bind hC ((hC.apply a hs).uses (by simp)) fun _ _ => ?_
    exact .bind hC (.pure hC (g := fun n => [n]) (by simp)) fun n _ => nullable_pairs hC (by simp) _
  · exact .bind hC (make_pairs hC _ (by simp) hs (by simp)) fun n _ => nullable_pairs hC (by simp) _

/-- **Schemas that are no references.** -/
theorem schemaNode_pairs (us : List Nat) (src : Nat) (place : String) :
    C.Pairs us (schemaNode o src convert m place) (schemaNode o src convert' m place) fun n => [n] := by
  unfold schemaNode
  dsimp only
  split
  · exact make_pairs hC _ (by simp) plain_nil (List.nil_subset us)
  · split
    · exact .bind hC (warnAt_pairs hC us _ _) fun _ _ => keywordsNode_pairs hC hconv _ src _ _ place
    · exact keywordsNode_pairs hC hconv us src _ _ place

end Coupling

/-! ## One level -/

/-- the document and the fragment that a reference names, or a failure that tells where the reference stands -/
def located (o : Options) (src : Nat) (ref place : String) : ImportM (Nat × String) := fun p =>
  let (r, p) := (locate o src ref).run p
  (Outcome.mapFailure r (·.withPath place), p)

/-- a reference, when `visit` leads to the definitions -/
def reference (o : Options) (visit : Visit) (src : Nat) (ref place : String) : ImportM Nat := do
  let (target, fragment) ← located o src ref place
  let _ ← visit target fragment
  refer target fragment

/-- one level of conversion, when `convert` converts what is below it and `visit` leads to the definitions -/
def convertWith (o : Options) (visit : Visit) (convert : Convert) (src : Nat) : Convert := fun v place =>
  match v with
  | .bool true => make .unknown .none [] []
  | .bool false => make .custom (.custom { fragment := some [("not", .object [])] }) [] []
  | .object m =>
    match text? m "$ref" with
    | none => schemaNode o src convert m place
    | some ref => do
      let n ← reference o visit src ref place
      if isTrue m "nullable" then make .nullable .none [n] [] else return n
  | v => stop (fail (Fragment.display place ++ ": schema must be an object or boolean, got " ++ v.carrierName))

theorem convert_succ (o : Options) (fuel src : Nat) : convert o (fuel + 1) src =
    convertWith o (fun target fragment => define (convert o fuel target) target fragment) (convert o fuel src) src := by
  funext v place
  cases v with
  | bool b => cases b <;> rfl
  | object m =>
    rw [convert, convertWith]
    cases text? m "$ref" with
    | none => rfl
    | some ref =>
      simp only [reference, bind_assoc]
      rfl
  | _ => rfl

/-- **One level.** Conversions are coupled when those of the schemas below are, and the references. -/
theorem convertWith_pairs {C : Coupling} {o : Options} (hC : C.Sound o) {visit visit' : Visit} {convert convert' : Convert}
    {src : Nat} {v : Value} {place : String} (hbelow : ∀ m, v = .object m → C.Converts m convert convert')
    (href : ∀ m ref, v = .object m → text? m "$ref" = some ref →
      C.Pairs [] (reference o visit src ref place) (reference o visit' src ref place) fun n => [n]) :
    C.Pairs [] (convertWith o visit convert src v place) (convertWith o visit' convert' src v place) fun n => [n] := by
  unfold convertWith
  split
  · exact Coupling.make_pairs hC _ (by simp) plain_nil (List.nil_subset _)
  · exact Coupling.make_pairs hC _ (by simp) plain_nil (List.nil_subset _)
  · rename_i m
    split
    · exact Coupling.schemaNode_pairs hC (hbelow m rfl) [] src place
    · exact .bind hC (href m _ rfl ‹_›) fun n _ => Coupling.nullable_pairs hC (by simp) _
  · exact .stop [] _ _

end Schemata.Import
