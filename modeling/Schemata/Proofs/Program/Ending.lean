import Schemata.Proofs.Program.Reached

/-!
Checks that end.

A union, an intersection or a reference hands the value that it is asked about on to other shapes; fields, further properties,
items and positions ask about a smaller part of it. Where no circle of shapes hands a value on to itself, the shapes that
handed a value on are all different, and every smaller part of the value starts afresh. So the budget of a value suffices
(`issues_after`), and the check of the program ends on every value (`validate_ends`), however its definitions refer to
each other.
-/

namespace Schemata

/-- kinds of shapes that have other shapes check the value itself -/
def Shape.handsOn : Shape → Bool
  | .oneOf _ _ _ | .anyOf _ _ | .allOf _ _ | .ref _ _ => true
  | _ => false

namespace Program

/-- a shape has another check the value that it is asked about itself -/
def HandsOn (p : Program) (s t : Shape) : Prop := s.handsOn = true ∧ t ∈ s.callees p

/-- no circle of shapes hands a value on to itself: every circle goes through a field, further properties, an item or a position -/
def Guarded (p : Program) : Prop := ∀ s ∈ p.nodes, ¬ Relation.TransGen p.HandsOn s s

/-- a rank that falls wherever a shape of the program hands a value on -/
theorem guarded_of_rank {p : Program} (rank : Shape → Nat)
    (h : ∀ s ∈ p.nodes, s.handsOn = true → ∀ t ∈ s.callees p, rank t < rank s) : p.Guarded := by
  intro s hs hcircle
  have hfalls {t : Shape} (ht : Relation.TransGen p.HandsOn s t) : rank t < rank s ∧ (t.isAbsent = true ∨ t ∈ p.nodes) := by
    induction ht with
    | single hstep => exact ⟨h s hs hstep.1 _ hstep.2, callees_mem hs hstep.2⟩
    | @tail t u _ hstep ih =>
      obtain ⟨hrank, habs | hmem⟩ := ih
      · cases t with
        | absent => cases hstep.1
        | _ => cases habs
      · exact ⟨(h t hmem hstep.1 u hstep.2).trans hrank, callees_mem hmem hstep.2⟩
  exact lt_irrefl _ (hfalls hcircle).1

end Program

namespace Check

/-! ## One step has an answer -/

variable {cx : Context}

theorem concat_isSome {xs : List (Option (List Issue))} (h : ∀ x ∈ xs, x.isSome = true) : (concat xs).isSome = true := by
  induction xs with
  | nil => rfl
  | cons x xs ih =>
    obtain ⟨is, rfl⟩ := Option.isSome_iff_exists.1 (h x (by simp))
    rw [concat_cons, Option.bind_some, Option.isSome_map]
    exact ih fun y hy => h y (List.mem_cons_of_mem _ hy)

theorem firstMatch_isSome {check : Shape → Option (List Issue)} {otherwise : Issue} {ss : List Shape}
    (h : ∀ s ∈ ss, (check s).isSome = true) : (firstMatch check otherwise ss).isSome = true := by
  induction ss with
  | nil => rfl
  | cons s ss ih =>
    obtain ⟨is, his⟩ := Option.isSome_iff_exists.1 (h s (by simp))
    rw [firstMatch, his]
    cases is with
    | nil => rfl
    | cons i is => exact ih fun t ht => h t (List.mem_cons_of_mem s ht)

theorem anyOf_isSome {check : Shape → Option (List Issue)} {p : Pointer} {ss : List Shape}
    (h : ∀ s ∈ ss, (check s).isSome = true) : (anyOf cx check p ss).isSome = true := by
  match ss with
  | [] => rfl
  | [s] => exact h s (by simp)
  | s :: t :: ss => exact firstMatch_isSome h

theorem oneOf_isSome {count : Nat} {p : Pointer} {xs : List (Option (List Issue))} (h : ∀ x ∈ xs, x.isSome = true) :
    (oneOf cx count p xs).isSome = true := by
  have hall : (xs.mapM id).isSome = true := by
    induction xs with
    | nil => rfl
    | cons x xs ih =>
      obtain ⟨is, rfl⟩ := Option.isSome_iff_exists.1 (h x (by simp))
      obtain ⟨rs, hrs⟩ := Option.isSome_iff_exists.1 (ih fun y hy => h y (List.mem_cons_of_mem _ hy))
      simp [hrs]
  obtain ⟨rs, hrs⟩ := Option.isSome_iff_exists.1 hall
  rw [oneOf, hrs]
  rfl

/-- a step has an answer when the checks that it asks for have one: those of the value itself, which only some kinds ask for,
and those of the values right below -/
theorem own_isSome {check : Shape → Value → Pointer → Option (List Issue)} {s : Shape} {v : Value} {p : Pointer}
    (hsame : s.handsOn = true → ∀ t ∈ s.callees cx.program, (check t v p).isSome = true)
    (hbelow : ∀ t ∈ s.callees cx.program, ∀ x ∈ v.members, ∀ q, (check t x q).isSome = true) :
    (own cx check s v p).isSome = true := by
  have hmap {α : Type} {f : α → Option (List Issue)} {l : List α} (h : ∀ a ∈ l, (f a).isSome = true) :
      ∀ x ∈ l.map f, x.isSome = true := by
    intro x hx
    obtain ⟨a, ha, rfl⟩ := List.mem_map.1 hx
    exact h a ha
  cases s with
  | absent => rfl
  | foreign b => rfl
  | any b => rfl
  | primitive b q => rfl
  | enum b vs => rfl
  | array b item l =>
    cases v <;> try rfl
    rename_i xs
    simp only [own]
    split
    · rfl
    · refine concat_isSome (List.forall_mem_cons.2 ⟨rfl, hmap fun e he => ?_⟩)
      exact hbelow item (by simp [Shape.callees]) e.1 (List.fst_mem_of_mem_zipIdx he) _
  | tuple b positions rest l =>
    cases v <;> try rfl
    rename_i xs
    simp only [own]
    refine concat_isSome (List.forall_mem_cons.2 ⟨rfl, List.forall_mem_append.2 ⟨hmap fun e he => ?_, ?_⟩⟩)
    · have he := List.fst_mem_of_mem_zipIdx he
      obtain ⟨⟨x, t⟩, i⟩ := e
      exact hbelow t (by simp [Shape.callees, (List.of_mem_zip he).2]) x (List.of_mem_zip he).1 _
    · split
      · simp
      · refine hmap fun e he => hbelow rest (by simp [Shape.callees]) e.1 ?_ _
        exact List.mem_of_mem_drop (List.fst_mem_of_mem_zipIdx he)
  | object b fields additional q =>
    cases v <;> try rfl
    rename_i fs
    simp only [own]
    refine concat_isSome (List.forall_mem_append.2 ⟨List.forall_mem_cons.2
      ⟨rfl, List.forall_mem_append.2 ⟨hmap fun e he => ?_, ?_⟩⟩, by simp⟩)
    · obtain ⟨k, t⟩ := e
      dsimp only
      cases hk : Dict.get? fs k with
      | none => rfl
      | some x => exact hbelow t (List.mem_append_left _ (List.mem_map_of_mem (f := (·.2)) he)) x (get?_mem hk) _
    · split_ifs
      · simp
      · refine hmap fun e he => hbelow additional (by simp [Shape.callees]) e.2 ?_ _
        exact List.mem_map_of_mem (List.mem_of_mem_filter he)
      · simp
  | oneOf b variants d =>
    have hsame := hsame rfl
    simp only [own]
    split
    · exact oneOf_isSome (hmap hsame)
    · cases hs : select cx d variants v p with
      | ok t => exact hsame t (select_mem cx hs)
      | error is => rfl
  | anyOf b variants => exact anyOf_isSome (hsame rfl)
  | allOf b parts => exact concat_isSome (hmap (hsame rfl))
  | ref b name =>
    simp only [own]
    cases ht : cx.program.target? name with
    | none => rfl
    | some t => exact hsame rfl t (by simp [Shape.callees, ht])

/-! ## The whole walk -/

/-- the shapes that handed the value on are all different, so there are at most as many as shapes -/
theorem issues_after (hg : cx.program.Guarded) {steps : Nat} {seen : List Shape} {s : Shape} {v : Value} {a : Pointer}
    (hs : s.isAbsent = true ∨ s ∈ cx.program.nodes) (hnodup : seen.Nodup)
    (hseen : ∀ t ∈ seen, t ∈ cx.program.nodes ∧ Relation.TransGen cx.program.HandsOn t s)
    (hsteps : v.depth * (cx.program.size + 1) + (cx.program.size - seen.length) + 1 ≤ steps) :
    (issues cx steps s v a).isSome = true := by
  induction steps generalizing seen s v a with
  | zero => omega
  | succ steps ih =>
    rcases hs with habs | hmem
    · rw [issues_absent habs]
      rfl
    rw [issues_succ]
    split
    · rfl
    rw [Option.isSome_map]
    refine own_isSome (fun hk t ht => ?_) fun t ht x hx q => ?_
    · have hstep : cx.program.HandsOn s t := ⟨hk, ht⟩
      have hnew : (s :: seen).Nodup := List.nodup_cons.2 ⟨fun h => hg s hmem (hseen s h).2, hnodup⟩
      have hall : ∀ u ∈ s :: seen, u ∈ cx.program.nodes :=
        List.forall_mem_cons.2 ⟨hmem, fun u hu => (hseen u hu).1⟩
      have hlength : (s :: seen).length ≤ cx.program.size := by
        rw [← Program.length_nodes]
        exact (hnew.subperm hall).length_le
      refine ih (Program.callees_mem hmem ht) hnew (fun u hu => ⟨hall u hu, ?_⟩) ?_
      · rcases List.mem_cons.1 hu with rfl | hu
        · exact .single hstep
        · exact (hseen u hu).2.tail hstep
      · rw [List.length_cons] at hlength ⊢
        omega
    · -- one level down, every shape may hand the value on again
      have hdepth := Value.depth_members hx
      refine ih (Program.callees_mem hmem ht) List.nodup_nil (by simp) ?_
      have hlevel : x.depth * (cx.program.size + 1) + (cx.program.size + 1) ≤ v.depth * (cx.program.size + 1) := by
        rw [← Nat.succ_mul]
        exact Nat.mul_le_mul_right _ hdepth
      simp only [List.length_nil]
      omega

/-- **Every check ends.** Where no circle of shapes hands a value on to itself, the program lists what is wrong with any value,
and a larger budget would find the same. -/
theorem validate_ends {p : Program} (hg : p.Guarded) (coerce : Bool) (t : Wording) (v : Value) :
    ∃ is, p.validate coerce t v = .ok is ∧
      ∀ fuel, p.budget v ≤ fuel → issues ⟨p, coerce, t⟩ fuel p.root v Pointer.root = some is := by
  have hroot : p.root.isAbsent = true ∨ p.root ∈ p.nodes := by
    cases habs : p.root.isAbsent with
    | true => exact .inl rfl
    | false =>
      rw [Program.nodes_eq]
      exact .inr (Shape.nodes_subset_all List.mem_cons_self (Shape.self_mem_nodes habs))
  have hsome : (issues ⟨p, coerce, t⟩ (p.budget v) p.root v Pointer.root).isSome = true := by
    refine @issues_after ⟨p, coerce, t⟩ hg _ _ _ _ _ hroot List.nodup_nil (by simp) ?_
    simp only [Program.budget, Nat.add_mul, List.length_nil]
    omega
  obtain ⟨is, his⟩ := Option.isSome_iff_exists.1 hsome
  have hmore (fuel : Nat) (h : p.budget v ≤ fuel) : issues ⟨p, coerce, t⟩ fuel p.root v Pointer.root = some is :=
    issues_le h _ _ _ is his
  exact ⟨is, validate_eq_ok.2 ⟨_, his⟩, hmore⟩

open Lowering

/-- null or a tree, whose branches are the document again or a list of trees -/
def treeSchema : Schema := .ofBody {
  anyOf := some [.ofKeywords { type := some (.string "null") }, .reference "#/definitions/tree"]
  definitions := [("tree", .ofBody {
    own := { type := some (.string "object") }
    properties := some [
      ("next", .reference "#"),
      ("rest", .ofBody {
        own := { type := some (.string "array") }
        items := .single (.reference "#/definitions/tree") })] })] }

/-- how far a shape of the trees may hand a value on -/
def treeRank : Shape → Nat
  | .ref _ "" => 3
  | .anyOf _ _ => 2
  | .ref _ _ => 1
  | _ => 0

theorem validate_ends_tree : ∃ p, Program.lower treeSchema {} = .ok p ∧ p.Guarded ∧
    ∀ v, ∃ is, p.validate false (fun _ _ => "") v = .ok is ∧
      ∀ fuel, p.budget v ≤ fuel → issues ⟨p, false, fun _ _ => ""⟩ fuel p.root v Pointer.root = some is := by
  have hlower : (Program.lower treeSchema {}).toOption.any (fun p =>
      p.nodes.all fun s => !s.handsOn || (s.callees p).all fun t => treeRank t < treeRank s) = true := by
    rw [lowerInOrder_eq (by decide)]
    decide +kernel
  obtain ⟨p, hp, hrank⟩ := ok_of_any hlower
  have hg : p.Guarded := by
    refine Program.guarded_of_rank treeRank fun s hs hk t ht => ?_
    have hs := List.all_eq_true.1 hrank s hs
    rw [hk, Bool.not_true, Bool.false_or] at hs
    exact of_decide_eq_true (List.all_eq_true.1 hs t ht)
  exact ⟨p, hp, hg, validate_ends hg false fun _ _ => ""⟩

/-- a document that is nothing but a reference to itself never says anything about a value -/
example : ({ root := .ref {} "" } : Program).validate false (fun _ _ => "") .null = abort := rfl

end Check

end Schemata
