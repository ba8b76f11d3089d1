import Mathlib.Tactic
import Schemata.Proofs.Program.Walk
import Schemata.Proofs.Steps

/-!
What verification of a program promises.

A verified shape is present, its patterns and rules can be read, and so can those of the shapes below it that a check asks
for; a reference leads to a shape of the program, which is verified as well (`verified_target`).
-/

namespace Schemata

/-- a check that is made only under a condition -/
theorem outcome_guard_ok {c : Bool} {x : Outcome Unit} {f : Unit → Outcome Unit}
    (h : (if c then x >>= f else f ()) = .ok ()) : (c = false ∨ x = .ok ()) ∧ f () = .ok () := by
  cases c with
  | false => exact ⟨.inl rfl, h⟩
  | true =>
    obtain ⟨⟨⟩, hx, h⟩ := outcome_bind_ok h
    exact ⟨.inr hx, h⟩

namespace Verify

variable {p : Program} {b : Base}

theorem rulesRun_ok {rs : List Rule} (h : rulesRun rs = .ok ()) : ∀ r ∈ rs, ∃ prog, Rule.compile r.expr = .ok prog := by
  induction rs with
  | nil => exact fun r hr => nomatch hr
  | cons r rs ih =>
    rw [rulesRun] at h
    cases hc : Rule.compile r.expr with
    | error e =>
      rw [hc] at h
      cases h
    | ok prog =>
      rw [hc] at h
      intro s hs
      rcases List.mem_cons.1 hs with rfl | hs
      · exact ⟨prog, hc⟩
      · exact ih h s hs

theorem patternRuns_ok {t : String} (h : patternRuns t = .ok ()) (ht : t ≠ "") : ∃ r, Pattern.parse t = .ok r := by
  rw [patternRuns, if_neg ht] at h
  cases hp : Pattern.parse t with
  | error e =>
    rw [hp] at h
    cases h
  | ok r => exact ⟨r, rfl⟩

theorem shapes_ok {ss : List Shape} (h : shapes p ss = .ok ()) : ∀ s ∈ ss, shape p s = .ok () := by
  induction ss with
  | nil => exact fun s hs => nomatch hs
  | cons s ss ih =>
    rw [shapes] at h
    obtain ⟨⟨⟩, hs, h⟩ := outcome_bind_ok h
    intro t ht
    rcases List.mem_cons.1 ht with rfl | ht
    · exact hs
    · exact ih h t ht

theorem fields_ok {fs : List (String × Shape)} (h : fields p fs = .ok ()) : ∀ s ∈ fs.map (·.2), shape p s = .ok () := by
  induction fs with
  | nil => exact fun s hs => nomatch hs
  | cons f fs ih =>
    rw [fields] at h
    obtain ⟨⟨⟩, hs, h⟩ := outcome_bind_ok h
    intro t ht
    rcases List.mem_cons.1 ht with rfl | ht
    · exact hs
    · exact ih h t ht

attribute [local simp] shape

theorem present {s : Shape} (h : shape p s = .ok ()) : s.isAbsent = false := by
  cases s with
  | absent => simp [abort] at h
  | foreign b => rfl
  | any b => rfl
  | primitive b q => rfl
  | array b i l => rfl
  | tuple b is r l => rfl
  | object b fs a q => rfl
  | oneOf b vs d => rfl
  | anyOf b vs => rfl
  | allOf b ps => rfl
  | enum b vs => rfl
  | ref b n => rfl

theorem primitive_ok {q : Primitive} (h : shape p (.primitive b q) = .ok ()) :
    (q.type = .string → patternRuns q.pattern = .ok ()) ∧ (∀ n, q.type ≠ .other n) ∧ rulesRun b.rules = .ok () := by
  rw [shape] at h
  cases hq : q.type with
  | string =>
    rw [hq] at h
    obtain ⟨⟨⟩, hp, h⟩ := outcome_bind_ok h
    exact ⟨fun _ => hp, nofun, h⟩
  | other n =>
    rw [hq] at h
    cases h
  | number =>
    rw [hq] at h
    exact ⟨nofun, nofun, h⟩
  | integer =>
    rw [hq] at h
    exact ⟨nofun, nofun, h⟩
  | boolean =>
    rw [hq] at h
    exact ⟨nofun, nofun, h⟩
  | null =>
    rw [hq] at h
    exact ⟨nofun, nofun, h⟩

theorem array_ok {i : Shape} {l : ArrayLimits} (h : shape p (.array b i l) = .ok ()) :
    (i.isAbsent = true ∨ shape p i = .ok ()) ∧ rulesRun b.rules = .ok () := by
  rw [shape] at h
  obtain ⟨hi, h⟩ := outcome_guard_ok h
  exact ⟨by simpa using hi, h⟩

theorem tuple_ok {is : List Shape} {r : Shape} {l : TupleLimits} (h : shape p (.tuple b is r l) = .ok ()) :
    (∀ s ∈ is, shape p s = .ok ()) ∧ (r.isAbsent = true ∨ shape p r = .ok ()) ∧ rulesRun b.rules = .ok () := by
  rw [shape] at h
  obtain ⟨⟨⟩, his, h⟩ := outcome_bind_ok h
  obtain ⟨hr, h⟩ := outcome_guard_ok h
  exact ⟨shapes_ok his, by simpa using hr, h⟩

theorem object_ok {fs : List (String × Shape)} {a : Shape} {q : ObjectPolicy}
    (h : shape p (.object b fs a q) = .ok ()) :
    (∀ s ∈ fs.map (·.2), shape p s = .ok ()) ∧ (q.unknown = .checked → a.isAbsent = false → shape p a = .ok ()) ∧
      patternRuns q.keyPattern = .ok () ∧ rulesRun b.rules = .ok () := by
  rw [shape] at h
  obtain ⟨⟨⟩, hfs, h⟩ := outcome_bind_ok h
  obtain ⟨ha, h⟩ := outcome_guard_ok h
  obtain ⟨⟨⟩, hk, h⟩ := outcome_bind_ok h
  refine ⟨fields_ok hfs, fun hq habs => ?_, hk, h⟩
  rcases ha with hc | ha
  · simp [hq, habs] at hc
  · exact ha

theorem oneOf_ok {vs : List Shape} {d : Dispatch} (h : shape p (.oneOf b vs d) = .ok ()) :
    (∀ s ∈ vs, shape p s = .ok ()) ∧ mappingRuns vs.length d = .ok () ∧ rulesRun b.rules = .ok () := by
  rw [shape] at h
  obtain ⟨⟨⟩, hvs, h⟩ := outcome_bind_ok h
  obtain ⟨⟨⟩, hd, h⟩ := outcome_bind_ok h
  exact ⟨shapes_ok hvs, hd, h⟩

theorem anyOf_ok {vs : List Shape} (h : shape p (.anyOf b vs) = .ok ()) :
    (∀ s ∈ vs, shape p s = .ok ()) ∧ rulesRun b.rules = .ok () := by
  rw [shape] at h
  obtain ⟨⟨⟩, hvs, h⟩ := outcome_bind_ok h
  exact ⟨shapes_ok hvs, h⟩

theorem allOf_ok {ps : List Shape} (h : shape p (.allOf b ps) = .ok ()) :
    (∀ s ∈ ps, shape p s = .ok ()) ∧ rulesRun b.rules = .ok () := by
  rw [shape] at h
  obtain ⟨⟨⟩, hps, h⟩ := outcome_bind_ok h
  exact ⟨shapes_ok hps, h⟩

theorem ref_ok {n : String} (h : shape p (.ref b n) = .ok ()) :
    (∃ s, p.target? n = some s) ∧ rulesRun b.rules = .ok () := by
  rw [shape] at h
  cases ht : p.target? n with
  | some s =>
    rw [ht] at h
    exact ⟨⟨s, rfl⟩, h⟩
  | none =>
    rw [ht] at h
    cases h

/-- the rules of a verified shape can be read -/
theorem rules_ok {s : Shape} (h : shape p s = .ok ()) : rulesRun s.base.rules = .ok () := by
  cases s with
  | absent => rfl
  | foreign b => simp [failWith] at h
  | any b => simpa [Shape.base] using h
  | primitive b q => exact (primitive_ok h).2.2
  | array b i l => exact (array_ok h).2
  | tuple b is r l => exact (tuple_ok h).2.2
  | object b fs a q => exact (object_ok h).2.2.2
  | oneOf b vs d => exact (oneOf_ok h).2.2
  | anyOf b vs => exact (anyOf_ok h).2
  | allOf b ps => exact (allOf_ok h).2
  | enum b vs => simpa [Shape.base] using h
  | ref b n => exact (ref_ok h).2

end Verify

/-- every shape of a verified program is verified -/
theorem verified_shapes {p : Program} (h : p.verify = .ok ()) : ∀ s ∈ p.shapes, Verify.shape p s = .ok () := by
  unfold Program.verify at h
  obtain ⟨⟨⟩, hdefs, hroot⟩ := outcome_bind_ok h
  intro s hs
  rcases List.mem_cons.1 hs with rfl | hs
  · exact hroot
  · obtain ⟨n, hn, rfl⟩ := List.mem_map.1 hs
    exact Verify.shapes_ok hdefs _ (List.mem_map_of_mem (Program.mem_names.1 hn))

theorem verified_target {p : Program} (h : p.verify = .ok ()) {name : String} {s : Shape} (hs : p.target? name = some s) :
    Verify.shape p s = .ok () := verified_shapes h s (Program.target_mem hs)

end Schemata
