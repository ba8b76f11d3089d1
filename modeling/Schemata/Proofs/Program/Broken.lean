import Mathlib.Tactic
import Schemata.Proofs.Program.Reached

/-!
Documents that lowering breaks off on.

A place of a schema may hold `null`, and most of lowering takes such a place for a schema without keywords. Two places
are looked into without a check: the one schema of `allOf` whose name is to be the title of the document (`Untitled`),
and what is on the way from a variant to the constant that tells it from the others (`Missing`, `Untagged`).

Main result: `lower_breaks`. Lowering fails, or breaks off on a document that has one of these places, or gives the
program of a document that has none. `lower_null` is a document of one keyword on which it breaks off.
-/

namespace Schemata.Lowering

open Schema (Body ofBody)

/-- a stop that is no failure -/
def broken : Stop → Prop
  | .failed _ => False
  | .aborted _ => True

theorem broken_unsupported (detail : String) : ¬ broken (.failed (.unsupported detail)) := nofun

theorem spares_failWith {α : Type} (f : Failure) : Spares broken (failWith f : Outcome α) := by
  intro e he
  cases he
  exact nofun

theorem spares_reference (L : Context) (ref : String) : Spares broken (reference L ref) := by
  unfold reference
  split
  · exact spares_ok _
  · split
    · exact spares_failWith _
    · split
      · exact spares_failWith _
      · exact spares_ok _

variable {L : Context} {d : Discriminator}

/-! ## Tags -/

/-- on the way to the tag of a schema, at most `n` references long, a schema is missing: at an end of a reference, or
where the property that holds the tag should be -/
inductive Missing (L : Context) (d : Discriminator) : Nat → Schema → Prop
  | absent {n : Nat} : Missing L d n .absent
  | property {n : Nat} {b : Body} (hend : n = 0 ∨ b.own.ref = "")
      (hnull : Dict.get? (b.properties.getD []) d.propertyName = some .absent) : Missing L d n (ofBody b)
  | follow {n : Nat} {b : Body} {s : Schema} (href : b.own.ref ≠ "") (hs : resolve L b.own.ref = some s)
      (hmissing : Missing L d n s) : Missing L d (n + 1) (ofBody b)

theorem displayed_error {p : Option Schema} : (∃ e, displayed p = .error e) ↔ p = some .absent := by
  constructor
  · rintro ⟨e, he⟩
    unfold displayed at he
    split at he
    · cases he
    · rfl
    · split at he
      · cases he
      · split at he <;> cases he
  · rintro rfl
    exact ⟨_, rfl⟩

theorem picked_error {b : Body} :
    (∃ e, picked d (some (ofBody b)) = .error e) ↔ Dict.get? (b.properties.getD []) d.propertyName = some .absent :=
  displayed_error

/-- following references only stops where a schema is missing -/
theorem follow_error {n : Nat} {s : Schema} : (∃ e, (follow L n s >>= picked d) = .error e) ↔ Missing L d n s := by
  induction n generalizing s with
  | zero =>
    change (∃ e, picked d (some s) = .error e) ↔ _
    obtain rfl | ⟨b, rfl⟩ := Schema.eq_absent_or_ofBody s
    · exact ⟨fun _ => .absent, fun _ => ⟨_, rfl⟩⟩
    · rw [picked_error]
      constructor
      · exact .property (.inl rfl)
      · intro h
        generalize hs : ofBody b = s at h
        cases h with
        | absent => cases hs
        | property _ hnull =>
          obtain rfl := Schema.ofBody_injective hs
          exact hnull
  | succ n ih =>
    obtain rfl | ⟨b, rfl⟩ := Schema.eq_absent_or_ofBody s
    · exact ⟨fun _ => .absent, fun _ => ⟨_, rfl⟩⟩
    · rw [follow_ofBody]
      constructor
      · split
        · rename_i href
          exact fun h => .property (.inr href) (picked_error.1 h)
        · rename_i href
          cases hs : resolve L b.own.ref with
          | none => exact fun ⟨e, he⟩ => nomatch he
          | some t => exact fun h => .follow href hs (ih.1 h)
      · intro h
        generalize hb : ofBody b = s at h
        cases h with
        | absent => cases hb
        | property hend hnull =>
          obtain rfl := Schema.ofBody_injective hb
          rw [if_pos (hend.resolve_left (Nat.succ_ne_zero n))]
          exact picked_error.2 hnull
        | follow href hs hmissing =>
          obtain rfl := Schema.ofBody_injective hb
          rw [if_neg href, hs]
          exact ih.2 hmissing

/-- a variant without a tag of its own in the mapping, on whose way a schema is missing -/
theorem tag_error {v : Schema} : (∃ e, tag L d v = .error e) ↔ mapped d v.own.ref = none ∧ Missing L d 8 v := by
  obtain rfl | ⟨b, rfl⟩ := Schema.eq_absent_or_ofBody v
  · exact ⟨fun _ => ⟨rfl, .absent⟩, fun _ => ⟨_, rfl⟩⟩
  · rw [tag_ofBody, show (ofBody b).own.ref = b.own.ref from rfl]
    cases mapped d b.own.ref with
    | none => simp [follow_error]
    | some t => simp

/-- the variants are looked at in turn, up to the first without a tag -/
theorem tags_error {i : Nat} {acc : Dict Int} {vs : List Schema} : (∃ e, tags L d i acc vs = .error e) ↔
    ∃ before v after, vs = before ++ v :: after ∧ (∀ u ∈ before, ∃ t, tag L d u = .ok (some t)) ∧
      ∃ e, tag L d v = .error e := by
  induction vs generalizing i acc with
  | nil => simp [tags]
  | cons v vs ih =>
    rw [tags]
    constructor
    · rintro ⟨e, he⟩
      cases ht : tag L d v with
      | error e' => exact ⟨[], v, vs, rfl, by simp, e', ht⟩
      | ok o =>
        rw [ht] at he
        cases o with
        | none => cases he
        | some t =>
          obtain ⟨before, u, after, rfl, hbefore, hu⟩ := ih.1 ⟨e, he⟩
          exact ⟨v :: before, u, after, rfl, List.forall_mem_cons.2 ⟨⟨t, ht⟩, hbefore⟩, hu⟩
    · rintro ⟨before, u, after, heq, hbefore, e, hu⟩
      cases before with
      | nil =>
        cases heq
        rw [hu]
        exact ⟨e, rfl⟩
      | cons w before =>
        cases heq
        obtain ⟨⟨t, ht⟩, hbefore⟩ := List.forall_mem_cons.1 hbefore
        rw [ht]
        exact ih.2 ⟨before, u, after, rfl, hbefore, e, hu⟩

/-- a level that is dispatched on a tag, and for one of its variants, after variants that have tags, a schema is missing -/
structure Untagged (L : Context) (b : Body) (d : Discriminator) (before : List Schema) (v : Schema)
    (after : List Schema) : Prop where
  ref : b.own.ref = ""
  asked : L.options.discriminator = true
  discriminator : b.own.discriminator = some d
  named : d.propertyName ≠ ""
  variants : b.oneOf = some (before ++ v :: after)
  tagged : ∀ u ∈ before, ∃ t, tag L d u = .ok (some t)
  unmapped : mapped d v.own.ref = none
  missing : Missing L d 8 v

/-- dispatching stops on just the levels where a schema is missing -/
theorem dispatch_error {b : Body} (href : b.own.ref = "") :
    (∃ e, dispatch L b.own (b.oneOf.getD []) = .error e) ↔ ∃ d before v after, Untagged L b d before v after := by
  unfold dispatch
  constructor
  · rintro ⟨e, he⟩
    split at he
    · cases he
    · rename_i d hd
      split at he
      · cases he
      · rename_i hasked
        have hasked : d.propertyName ≠ "" ∧ L.options.discriminator = true := by simpa using hasked
        have herror : ∃ e, tags L d 0 [] (b.oneOf.getD []) = .error e := by
          cases ht : tags L d 0 [] (b.oneOf.getD []) with
          | error e => exact ⟨e, rfl⟩
          | ok o =>
            rw [ht] at he
            cases he
        obtain ⟨before, v, after, hvs, hbefore, hv⟩ := tags_error.1 herror
        have hone : b.oneOf = some (before ++ v :: after) := by
          cases hb : b.oneOf with
          | none => simp [hb] at hvs
          | some ss => simpa [hb] using hvs
        obtain ⟨hmapped, hmissing⟩ := tag_error.1 hv
        exact ⟨d, before, v, after, href, hasked.2, hd, hasked.1, hone, hbefore, hmapped, hmissing⟩
  · rintro ⟨d, before, v, after, h⟩
    have herror : ∃ e, tags L d 0 [] (before ++ v :: after) = .error e :=
      tags_error.2 ⟨before, v, after, rfl, h.tagged, tag_error.2 ⟨h.unmapped, h.missing⟩⟩
    obtain ⟨e, he⟩ := herror
    refine ⟨e, ?_⟩
    simp [h.discriminator, h.asked, h.named, h.variants, he, Except.map]

/-- a level that has a shape is none of these -/
theorem not_untagged {b : Body} {x : Shape} (h : lower L (ofBody b) = .ok x) {before after : List Schema} {v : Schema} :
    ¬ Untagged L b d before v after := by
  intro hun
  obtain ⟨-, -, -, ones, dis, -, -, -, hones, hdis, -⟩ := lower_parts hun.ref h
  obtain ⟨e, he⟩ := (dispatch_error hun.ref).2 ⟨d, before, v, after, hun⟩
  rw [hun.variants] at hones
  obtain ⟨y, hy, -⟩ := lowerGiven_mem hones (s := v) (by simp)
  rw [dispatched, if_neg (by simpa using List.ne_nil_of_mem hy), he] at hdis
  cases hdis

/-! ## Documents -/

/-- the title of a document is to be found in a missing schema -/
def Untitled (b : Body) : Prop := b.own.title = "" ∧ b.own.ref = "" ∧ b.allOf = some [.absent]

theorem title_error {b : Body} : (∃ e, title b = .error e) ↔ Untitled b := by
  unfold title Untitled
  by_cases ht : b.own.title = ""
  · rw [if_neg (not_not.2 ht)]
    constructor
    · rintro ⟨e, he⟩
      split at he
      · rename_i s href hall
        split at he
        · rename_i habs
          refine ⟨ht, href, ?_⟩
          obtain rfl | ⟨c, rfl⟩ := Schema.eq_absent_or_ofBody s
          · exact hall
          · cases habs
        · cases he
      · cases he
    · rintro ⟨-, href, hall⟩
      rw [href, hall]
      exact ⟨_, rfl⟩
  · rw [if_pos ht]
    simp [ht]

/-- a document in which a schema is missing where one is looked for -/
def Breaks (S : Schema) (o : CompileOptions) : Prop :=
  Untitled S.body ∨ ∃ b d before v after, Reached met (contextOf S o) (ofBody b) ∧
    Untagged (contextOf S o) b d before v after

variable {S : Schema} {o : CompileOptions}

/-- a document that does not break comes to a program or a failure -/
theorem spares_program (h : ¬ Breaks S o) : Spares broken (Program.lower S o) := by
  obtain ⟨htitle, hlevel⟩ := not_or.1 h
  have hlower : ∀ s, Reached met (contextOf S o) s → Spares broken (lower (contextOf S o) s) := by
    intro s hs
    induction s using Schema.treeInduction with
    | absent => exact spares_ok _
    | node b ih =>
      refine spares_level broken_unsupported (fun _ => spares_reference _ _)
        (fun s hmet => Schema.Body.forall_below.2 ih s (met_below hmet) (hs.step hmet)) fun href e he => ?_
      obtain ⟨d, before, v, after, hun⟩ := (dispatch_error href).1 ⟨e, he⟩
      exact absurd ⟨b, d, before, v, after, hs, hun⟩ hlevel
  rw [program_lower]
  refine spares_bind (spares_named fun n hn => ?_) fun defs _ =>
    spares_bind (hlower _ .root) fun root _ => spares_bind (fun e he => ?_) fun t _ => spares_ok _
  · rw [sortStrings, List.mem_mergeSort] at hn
    obtain ⟨e, he, rfl⟩ := List.mem_map.1 hn
    exact hlower _ (.definition he)
  · exact absurd (title_error.1 ⟨e, he⟩) htitle

/-- a document that breaks comes to no program -/
theorem no_program (h : Breaks S o) (p : Program) : Program.lower S o ≠ .ok p := by
  intro hp
  rcases h with htitle | ⟨b, d, before, v, after, hb, hun⟩
  · obtain ⟨e, he⟩ := title_error.2 htitle
    rw [program_lower] at hp
    obtain ⟨defs, -, hp⟩ := except_bind_ok hp
    obtain ⟨root, -, hp⟩ := except_bind_ok hp
    obtain ⟨t, ht, -⟩ := except_bind_ok hp
    rw [he] at ht
    cases ht
  · obtain ⟨x, hx⟩ := hb.lowered hp
    exact not_untagged hx hun

/-- **Where lowering breaks off.** A document fails, or it breaks and lowering breaks off, or it does not break and has a
program. -/
theorem lower_breaks (S : Schema) (o : CompileOptions) :
    (∃ f, Program.lower S o = failWith f) ∨ (Breaks S o ∧ ∃ r, Program.lower S o = .error (.aborted r)) ∨
      (¬ Breaks S o ∧ ∃ p, Program.lower S o = .ok p) := by
  cases h : Program.lower S o with
  | error e =>
    cases e with
    | failed f => exact .inl ⟨f, rfl⟩
    | aborted r =>
      refine .inr (.inl ⟨?_, r, rfl⟩)
      by_contra hno
      exact spares_program hno _ h trivial
  | ok p => exact .inr (.inr ⟨fun hbreaks => no_program hbreaks p h, p, rfl⟩)

/-- does lowering break off on the document? -/
def breaksOff (o : CompileOptions) (S : Schema) : Bool :=
  match Program.lower S o with
  | .error (.aborted _) => true
  | _ => false

/-- **A document on which lowering breaks off.** A document with `null` where the one schema of `allOf` should be can be
read, and lowering breaks off on it. -/
theorem lower_null : ∃ S, Schema.decode "\x7b\"allOf\":[null]\x7d" = .ok S ∧ ∃ r, Program.lower S {} = .error (.aborted r) := by
  have heval : (Schema.decode "\x7b\"allOf\":[null]\x7d").toOption.any (breaksOff {}) = true := by decide +kernel
  obtain ⟨S, hS, hbreaks⟩ := ok_of_any heval
  refine ⟨S, hS, ?_⟩
  unfold breaksOff at hbreaks
  split at hbreaks
  · rename_i r hr
    exact ⟨r, hr⟩
  · cases hbreaks

/-- so it does on a variant that is missing -/
example : breaksOff { discriminator := true } (ofBody {
    own := { discriminator := some { propertyName := "kind" } }, oneOf := some [.absent] }) = true := by
  decide +kernel

end Schemata.Lowering
