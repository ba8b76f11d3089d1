import Mathlib.Tactic
import Schemata.Failure

/-!
What a failure still says when it names a file.

A failure can be asked for a kind of fault and for a failure that wraps nothing (`Target`, `Holds`). `withPath` cuts out the
first fault when that names no path yet, and drops what hangs beside it (`beside`). So it keeps every target just when
each target beside the first fault is one of the fault as well (`withPath_keeps_iff`): always where nothing is joined
(`Linear`), and not always where failures are joined (`withPath_drops`).
-/

namespace Schemata.Failure

/-! ## Targets -/

/-- what a failure can be asked for -/
inductive Target where
  | kind (k : FaultKind)
  | leaf (l : Leaf)
  deriving Repr, DecidableEq

/-- does the failure hold what it is asked for? -/
def Holds (f : Failure) : Target → Prop
  | .kind k => f.isKind k = true
  | .leaf l => l ∈ f.leaves

instance (f : Failure) (t : Target) : Decidable (f.Holds t) :=
  match t with
  | .kind k => inferInstanceAs (Decidable (f.isKind k = true))
  | .leaf l => inferInstanceAs (Decidable (l ∈ f.leaves))

variable {f e : Failure} {parts : List Failure} {t : Target} {path : String}

@[simp] theorem holds_leaf {l : Leaf} : (Failure.leaf l).Holds t ↔ t = .leaf l := by
  cases t <;> simp [Holds, isKind, kinds, leaves]

@[simp] theorem holds_fault {k : FaultKind} {site : Site} : (fault k site).Holds t ↔ t = .kind k := by
  cases t <;> simp [Holds, isKind, kinds, leaves]

@[simp] theorem holds_causedFault {k : FaultKind} {site : Site} :
    (causedFault k site e).Holds t ↔ t = .kind k ∨ e.Holds t := by
  cases t <;> simp [Holds, isKind, kinds, leaves]

@[simp] theorem holds_wrapped {before after : String} : (wrapped before e after).Holds t ↔ e.Holds t := by
  cases t <;> rfl

theorem mem_kindsOf {k : FaultKind} : k ∈ kindsOf parts ↔ ∃ f ∈ parts, k ∈ f.kinds := by
  induction parts with
  | nil => simp [kindsOf]
  | cons f parts ih => simp [kindsOf, ih]

theorem mem_leavesOf {l : Leaf} : l ∈ leavesOf parts ↔ ∃ f ∈ parts, l ∈ f.leaves := by
  induction parts with
  | nil => simp [leavesOf]
  | cons f parts ih => simp [leavesOf, ih]

@[simp] theorem holds_joined : (joined parts).Holds t ↔ ∃ f ∈ parts, f.Holds t := by
  cases t <;> simp [Holds, isKind, kinds, leaves, mem_kindsOf, mem_leavesOf]

/-- a failure is grouped by the kinds that it holds -/
theorem category_congr (h : ∀ t, f.Holds t ↔ e.Holds t) : f.category = e.category := by
  have hkind (k : FaultKind) : f.isKind k = e.isKind k := Bool.eq_iff_iff.2 (h (.kind k))
  simp only [category, hkind]

/-! ## The first fault -/

/-- the path that a fault names -/
def path? : Failure → Option String
  | fault _ site => some site.path
  | causedFault _ site _ => some site.path
  | _ => none

/-- the same fault with a path -/
def setPath (path : String) : Failure → Failure
  | fault k site => fault k { site with path }
  | causedFault k site cause => causedFault k { site with path } cause
  | f => f

@[simp] theorem holds_setPath : (e.setPath path).Holds t ↔ e.Holds t := by
  cases e <;> simp [setPath]

theorem withPath_none (h : f.firstFault? = none) : f.withPath path = wrapped (path ++ ": ") f "" := by
  simp only [withPath, h]

theorem withPath_some (h : f.firstFault? = some e) (hpath : e.path?.isSome = true) :
    f.withPath path = if e.path? = some "" then e.setPath path else f := by
  cases e <;> simp_all [withPath, path?, setPath]

mutual

/-- what hangs beside the first fault -/
def beside : Failure → List Failure
  | leaf _ => []
  | fault _ _ => []
  | causedFault _ _ _ => []
  | wrapped _ cause _ => cause.beside
  | joined parts => besideOf parts

def besideOf : List Failure → List Failure
  | [] => []
  | f :: fs => match f.firstFault? with
    | some _ => f.beside ++ fs
    | none => f :: besideOf fs

end

mutual

/-- what is found first is a fault -/
theorem path?_firstFault : ∀ {f e : Failure}, f.firstFault? = some e → e.path?.isSome = true
  | .leaf _, _, h => by simp [firstFault?] at h
  | .fault _ _, _, h => by
    cases h
    rfl
  | .causedFault _ _ _, _, h => by
    cases h
    rfl
  | .wrapped _ cause _, _, h => path?_firstFault (f := cause) h
  | .joined _, _, h => by
    rw [firstFault?] at h
    exact path?_firstFaultOf h

theorem path?_firstFaultOf : ∀ {parts : List Failure} {e : Failure}, firstFaultOf? parts = some e → e.path?.isSome = true
  | [], _, h => by simp [firstFaultOf?] at h
  | f :: parts, _, h => by
    rw [firstFaultOf?] at h
    split at h
    · rename_i e' hf
      cases h
      exact path?_firstFault hf
    · exact path?_firstFaultOf h

end

mutual

/-- the targets of a failure are those of its first fault and those beside it -/
theorem holds_iff_beside : ∀ {f e : Failure} {t : Target}, f.firstFault? = some e →
    (f.Holds t ↔ e.Holds t ∨ ∃ g ∈ f.beside, g.Holds t)
  | .leaf _, _, _, h => by simp [firstFault?] at h
  | .fault _ _, _, _, h => by
    cases h
    simp [beside]
  | .causedFault _ _ _, _, _, h => by
    cases h
    simp [beside]
  | .wrapped _ cause _, _, _, h => holds_wrapped.trans (holds_iff_beside (f := cause) h)
  | .joined _, _, _, h => by
    rw [firstFault?] at h
    exact holds_joined.trans (holdsOf_iff_beside h)

theorem holdsOf_iff_beside : ∀ {parts : List Failure} {e : Failure} {t : Target}, firstFaultOf? parts = some e →
    ((∃ f ∈ parts, f.Holds t) ↔ e.Holds t ∨ ∃ g ∈ besideOf parts, g.Holds t)
  | [], _, _, h => by simp [firstFaultOf?] at h
  | f :: parts, e, t, h => by
    rw [firstFaultOf?] at h
    rw [besideOf]
    cases hf : f.firstFault? with
    | some e' =>
      rw [hf] at h
      cases h
      simp [holds_iff_beside hf, or_and_right, exists_or, or_assoc]
    | none =>
      rw [hf] at h
      have hrest := holdsOf_iff_beside (t := t) h
      simp only [List.mem_cons, exists_eq_or_imp, hrest]
      exact or_left_comm

end

/-! ## Naming a file -/

/-- **What naming a file keeps.** If the first fault names no path, the targets left are those of the fault alone; otherwise all are. -/
theorem holds_withPath : (f.withPath path).Holds t ↔
    match f.firstFault? with
    | some e => if e.path? = some "" then e.Holds t else f.Holds t
    | none => f.Holds t := by
  cases h : f.firstFault? with
  | none => rw [withPath_none h, holds_wrapped]
  | some e =>
    rw [withPath_some h (path?_firstFault h)]
    dsimp only
    split
    · exact holds_setPath
    · rfl

/-- **When naming a file loses nothing.** It never adds a target. It keeps them all if and only if the first fault names a path already,
or has every target of what hangs beside it; and then it keeps the category. -/
theorem withPath_keeps_iff (f : Failure) (path : String) :
    (∀ t, (f.withPath path).Holds t → f.Holds t) ∧
    ((∀ t, f.Holds t → (f.withPath path).Holds t) ↔
      ∀ e, f.firstFault? = some e → e.path? = some "" → ∀ g ∈ f.beside, ∀ t, g.Holds t → e.Holds t) ∧
    ((∀ t, f.Holds t → (f.withPath path).Holds t) → (f.withPath path).category = f.category) := by
  have hadd (t : Target) (h : (f.withPath path).Holds t) : f.Holds t := by
    rw [holds_withPath] at h
    split at h
    · rename_i e he
      split at h
      · exact (holds_iff_beside he).2 (.inl h)
      · exact h
    · exact h
  refine ⟨hadd, ⟨fun hkeep e he hpath g hg t ht => ?_, fun hbeside t ht => ?_⟩, fun hkeep => ?_⟩
  · have hleft := holds_withPath.1 (hkeep t ((holds_iff_beside he).2 (.inr ⟨g, hg, ht⟩)))
    simpa [he, hpath] using hleft
  · rw [holds_withPath]
    split
    · rename_i e he
      split
      · rename_i hpath
        rcases (holds_iff_beside he).1 ht with ht | ⟨g, hg, ht⟩
        · exact ht
        · exact hbeside e he hpath g hg t ht
      · exact ht
    · exact ht
  · exact category_congr fun t => ⟨hadd t, hkeep t⟩

/-- failures with nothing joined on the way to the first fault -/
inductive Linear : Failure → Prop
  | leaf (l : Leaf) : Linear (.leaf l)
  | fault (k : FaultKind) (site : Site) : Linear (.fault k site)
  | causedFault (k : FaultKind) (site : Site) (cause : Failure) : Linear (.causedFault k site cause)
  | wrapped (before : String) {cause : Failure} (after : String) (h : Linear cause) : Linear (.wrapped before cause after)

theorem Linear.beside (h : Linear f) : f.beside = [] := by
  induction h with
  | leaf => rfl
  | fault => rfl
  | causedFault => rfl
  | wrapped before after _ ih => exact ih

/-- one failure after the other loses nothing -/
theorem Linear.withPath (h : Linear f) (path : String) :
    (∀ t, (f.withPath path).Holds t ↔ f.Holds t) ∧ (f.withPath path).category = f.category := by
  obtain ⟨hadd, hkeep, hcategory⟩ := withPath_keeps_iff f path
  have hall : ∀ t, f.Holds t → (f.withPath path).Holds t := hkeep.2 fun e _ _ g hg => by
    rw [h.beside] at hg
    cases hg
  exact ⟨fun t => ⟨hadd t, hall t⟩, hcategory hall⟩

/-- **Joined failures lose their siblings.** A failure to fetch that is joined with a structural fault and a full disk is all that is left,
and its category is not that of the whole. -/
theorem withPath_drops :
    let f := joined [.of .fetch "a", .of .unhandledNodeKind "b", .plain "disk full"]
    f.Holds (.kind .unhandledNodeKind) ∧ ¬ (f.withPath "a.json").Holds (.kind .unhandledNodeKind) ∧
    f.Holds (.leaf (.plain "disk full")) ∧ ¬ (f.withPath "a.json").Holds (.leaf (.plain "disk full")) ∧
    f.category = .structural ∧ (f.withPath "a.json").category = .external := by
  decide

end Schemata.Failure
