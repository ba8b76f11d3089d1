import Mathlib.Tactic
import Schemata.Graph.Visit
import Schemata.Proofs.Dict
import Schemata.Proofs.Program.Verdict
import Schemata.Proofs.Schema.Bounds

/-!
Judging values by the graph itself.

A node says which values it accepts without being rendered first: `Node.admits` is its own condition, `Node.calls` are the
nodes below it with the values that they are asked about, and `Graph.concludes` puts the answers together. `Graph.judge`
follows them, at most so many nested steps deep. Where no node hands a value on to itself, the number of nodes for each
level of the value is enough (`judge_isSome`).
-/

namespace Schemata

/-- how values are judged -/
structure Judging where
  /-- numbers and truth values may be given as text -/
  coerce : Bool := false
  /-- string formats are checked -/
  formats : Bool := false
  /-- no object takes further properties -/
  strict : Bool := false

/-! ## Written values -/

namespace Value

/-- a value as it comes back from a document that it is written to -/
def written (v : Value) : Value := v.reread id

/-- a value that documents can give: numbers are finite, objects have their keys in order -/
inductive Decoded : Value → Prop
  | null : Decoded .null
  | bool (b : Bool) : Decoded (.bool b)
  | float {x : Float} (h : Number.isFinite x = true) : Decoded (.float x)
  | string (s : String) : Decoded (.string s)
  | array {xs : List Value} (h : ∀ x ∈ xs, Decoded x) : Decoded (.array xs)
  | object {fs : Dict Value} (hsorted : Dict.Sorted fs) (h : ∀ e ∈ fs, Decoded e.2) : Decoded (.object fs)

theorem toFields_eq (acc : Dict Value) (fs : List (String × Json)) :
    Json.toFields acc fs = (fs.map fun e => (e.1, e.2.toValue)).foldl (fun d e => Dict.insert d e.1 e.2) acc := by
  induction fs generalizing acc with
  | nil => rfl
  | cons e fs ih => rw [Json.toFields, ih, List.map_cons, List.foldl_cons]

/-- such a value comes back as it was -/
theorem written_decoded {v : Value} (h : Decoded v) : v.written = v := by
  induction h with
  | null => rfl
  | bool b => rfl
  | float h => exact Schema.reread_finite id h
  | string s => rfl
  | @array xs _ ih =>
    have hitems : (array xs).written = .array (xs.map written) := by
      simp only [written, reread, Json.ofData, Json.mapStrings, Json.toValue, Json.ofDataItems_eq, Json.mapItems_eq,
        Schema.toValues_eq, List.map_map]
      rfl
    rw [hitems, List.map_congr_left ih, List.map_id']
  | @object fs hsorted _ ih =>
    have hfields : (object fs).written = .object (Dict.ofList (fs.map fun e => (e.1, e.2.written))) := by
      simp only [written, reread, Json.ofData, Json.mapStrings, Json.toValue, Json.ofDataFields_eq, Json.mapMembers_eq,
        toFields_eq, List.map_map]
      rfl
    have hsame : (fs.map fun e => (e.1, e.2.written)) = fs :=
      (List.map_congr_left fun e he => by rw [ih e he]).trans (List.map_id' fs)
    rw [hfields, hsame, Dict.ofList_of_sorted hsorted]

end Value

/-! ## One node -/

/-- is a text as long as it may be, and of the pattern and format? -/
def TextOptions.admits (σ : Judging) (o : TextOptions) (s : String) : Bool :=
  withinLimits s.length o.minLength o.maxLength && (o.pattern = "" || Check.matchesText o.pattern s)
    && (!σ.formats || (Format.ofName? o.format).all (·.holds s))

/-- is a number on the right side of each bound, and a multiple? -/
def NumberOptions.admits (o : NumberOptions) (x : Float) : Bool :=
  o.minimum.all (fun m => !decide (x < m)) && o.exclusiveMinimum.all (fun m => !decide (x ≤ m))
    && o.maximum.all (fun m => !decide (m < x)) && o.exclusiveMaximum.all (fun m => !decide (m ≤ x))
    && o.multipleOf.all fun m => Check.isMultiple x m

/-- the properties of an object with their nodes -/
def Node.fields (n : Node) : List (String × Nat) := n.objectOptions.keys.zip n.children

/-- the fixed positions of a tuple -/
def Node.positions (n : Node) : List Nat := if n.hasRest then n.children.dropLast else n.children

/-- the node of all items beyond the fixed positions -/
def Node.rest (n : Node) : Option Nat := if n.hasRest then n.children.getLast? else none

/-- the conditions on a value that a node checks itself -/
def Node.admits (g : Graph) (σ : Judging) (n : Node) (v : Value) : Bool :=
  match n.kind, v with
  | .string, .string s => n.textOptions.admits σ s
  | .string, _ => false
  | .number, v => (v.reading σ.coerce).any n.numberOptions.admits
  | .integer, v => (v.reading σ.coerce).any fun x => Number.isWhole x && n.numberOptions.admits x
  | .boolean, .bool _ => true
  | .boolean, .string s => σ.coerce && (s = "true" || s = "false")
  | .boolean, _ => false
  | .null, v => v.isNull
  | .enum, v => n.enumValues.any fun want => Value.equal v want.written
  | .const, v => Value.equal v n.constValue.written
  | .object, .object fs =>
    n.fields.all (fun f => g.isOptional f.2 || Dict.has fs f.1)
      && (!(σ.strict || n.objectOptions.unlisted = .reject) || fs.all fun e => (n.fields.map (·.1)).contains e.1)
  | .object, _ => false
  | .array, .array xs =>
    withinLimits xs.length n.arrayOptions.minItems n.arrayOptions.maxItems && (!n.arrayOptions.unique || Check.distinct xs)
  | .array, _ => false
  | .tuple, .array xs =>
    (n.positions.drop xs.length).all g.isOptional && (n.rest.isSome || decide (xs.length ≤ n.positions.length))
  | .tuple, _ => false
  | .record, .object fs => n.keyPattern = "" || fs.all fun e => Check.matchesText n.keyPattern e.1
  | .record, _ => false
  | _, _ => true

/-- the nodes below that have to judge, each with its value -/
def Node.calls (n : Node) (v : Value) : List (Nat × Value) :=
  match n.kind, v with
  | .object, .object fs => n.fields.filterMap fun f => (Dict.get? fs f.1).map (f.2, ·)
  | .array, .array xs => n.children.flatMap fun c => xs.map (c, ·)
  | .tuple, .array xs =>
    n.positions.zip xs ++ n.rest.toList.flatMap fun c => (xs.drop n.positions.length).map (c, ·)
  | .record, .object fs => n.children.flatMap fun c => fs.map (c, ·.2)
  | .union, v | .intersection, v | .optional, v | .ref, v | .validator, v => n.children.map (·, v)
  | _, _ => []

namespace Graph

/-- the answer of a node to a value, from the answers of the nodes below: one of them for a union, all of them else -/
def concludes (g : Graph) (σ : Judging) (n : Node) (v : Value) (answers : List Bool) : Bool :=
  if n.kind = .union then answers.any id else n.admits g σ v && answers.all id

/-- does the node accept the value? No answer says that there are more than so many nested steps to it. -/
def judge (g : Graph) (σ : Judging) : (steps : Nat) → Nat → Value → Option Bool
  | 0, _, _ => none
  | steps + 1, id, v =>
    match g.get? id with
    | none => some false
    | some n => ((n.calls v).mapM fun e => g.judge σ steps e.1 e.2).map (g.concludes σ n v)

/-! ## Enough steps -/

/-- kinds whose children judge the value itself -/
def handsOn : Kind → Bool
  | .union | .intersection | .optional | .ref | .validator => true
  | _ => false

/-- a node hands values on to a child -/
def HandsOn (g : Graph) (a c : Nat) : Prop := ∃ n, g.get? a = some n ∧ handsOn n.kind = true ∧ c ∈ n.children

/-- no circle of nodes hands a value on to itself -/
def Guarded (g : Graph) : Prop := ∀ a, ¬ Relation.TransGen g.HandsOn a a

/-- a rank that falls wherever a value is handed on -/
theorem guarded_of_rank {g : Graph} (rank : Nat → Nat) (h : ∀ a c, g.HandsOn a c → rank c < rank a) : g.Guarded := by
  intro a ha
  have hfalls {c : Nat} (hc : Relation.TransGen g.HandsOn a c) : rank c < rank a := by
    induction hc with
    | single hstep => exact h _ _ hstep
    | tail _ hstep ih => exact (h _ _ hstep).trans ih
  exact lt_irrefl _ (hfalls ha)

/-- the nested steps that judging a value can take: every node at each level of the value -/
def budget (g : Graph) (v : Value) : Nat := (v.depth + 1) * (g.size + 1)

variable {g : Graph} {σ : Judging}

/-- a node that hands values on has no condition of its own, and every child judges the value itself -/
theorem handsOn_spec (g : Graph) (σ : Judging) {n : Node} (hk : handsOn n.kind = true) (v : Value) :
    n.calls v = n.children.map (·, v) ∧ n.admits g σ v = true := by
  have hkinds : n.kind = .union ∨ n.kind = .intersection ∨ n.kind = .optional ∨ n.kind = .ref ∨ n.kind = .validator := by
    revert hk
    cases n.kind <;> simp [handsOn]
  rcases hkinds with h | h | h | h | h <;> simp [Node.calls, Node.admits, h]

/-- a call is about the value itself, or about one right below it -/
theorem call_cases {n : Node} {v : Value} {e : Nat × Value} (h : e ∈ n.calls v) :
    (handsOn n.kind = true ∧ e.1 ∈ n.children ∧ e.2 = v) ∨ e.2 ∈ v.members := by
  unfold Node.calls at h
  split at h
  · obtain ⟨f, -, hf⟩ := List.mem_filterMap.1 h
    obtain ⟨x, hx, rfl⟩ := Option.map_eq_some_iff.1 hf
    exact .inr (List.mem_map_of_mem (Dict.mem_of_get? hx))
  · obtain ⟨c, -, hc⟩ := List.mem_flatMap.1 h
    obtain ⟨x, hx, rfl⟩ := List.mem_map.1 hc
    exact .inr hx
  · rcases List.mem_append.1 h with h | h
    · exact .inr (List.of_mem_zip h).2
    · obtain ⟨c, -, hc⟩ := List.mem_flatMap.1 h
      obtain ⟨x, hx, rfl⟩ := List.mem_map.1 hc
      exact .inr (List.mem_of_mem_drop hx)
  · obtain ⟨c, -, hc⟩ := List.mem_flatMap.1 h
    obtain ⟨x, hx, rfl⟩ := List.mem_map.1 hc
    exact .inr (List.mem_map_of_mem hx)
  · rename_i hk
    obtain ⟨c, hc, rfl⟩ := List.mem_map.1 h
    exact .inl ⟨by rw [hk]; rfl, hc, rfl⟩
  · rename_i hk
    obtain ⟨c, hc, rfl⟩ := List.mem_map.1 h
    exact .inl ⟨by rw [hk]; rfl, hc, rfl⟩
  · rename_i hk
    obtain ⟨c, hc, rfl⟩ := List.mem_map.1 h
    exact .inl ⟨by rw [hk]; rfl, hc, rfl⟩
  · rename_i hk
    obtain ⟨c, hc, rfl⟩ := List.mem_map.1 h
    exact .inl ⟨by rw [hk]; rfl, hc, rfl⟩
  · rename_i hk
    obtain ⟨c, hc, rfl⟩ := List.mem_map.1 h
    exact .inl ⟨by rw [hk]; rfl, hc, rfl⟩
  · cases h

theorem get?_bounds {id : Nat} {n : Node} (h : g.get? id = some n) : id ∈ List.range' 1 g.size := by
  unfold get? at h
  split at h
  · cases h
  · rename_i hid
    obtain ⟨hlt, -⟩ := Array.getElem?_eq_some_iff.1 h
    rw [List.mem_range'_1, size]
    omega

theorem mapM_isSome {α β : Type} {f : α → Option β} {as : List α} (h : ∀ a ∈ as, (f a).isSome = true) :
    (as.mapM f).isSome = true := by
  rw [Option.isSome_iff_exists]
  refine ⟨as.pmap (fun a ha => (f a).get ha) h, mapM_eq_some.2 ?_⟩
  induction as with
  | nil => exact .nil
  | cons a as ih => exact .cons (Option.some_get _).symm (ih _)

/-- the nodes that handed the value on are all different, so there are at most as many as nodes -/
theorem judge_after (hg : g.Guarded) {steps : Nat} {seen : List Nat} {id : Nat} {v : Value} (hnodup : seen.Nodup)
    (hseen : ∀ a ∈ seen, a ∈ List.range' 1 g.size ∧ Relation.TransGen g.HandsOn a id)
    (hsteps : v.depth * (g.size + 1) + (g.size - seen.length) + 1 ≤ steps) : (g.judge σ steps id v).isSome = true := by
  induction steps generalizing seen id v with
  | zero => omega
  | succ steps ih =>
    rw [judge]
    split
    · rfl
    · rename_i n hn
      rw [Option.isSome_map]
      refine mapM_isSome fun e he => ?_
      rcases call_cases he with ⟨hk, hc, hv⟩ | hmem
      · have hstep : g.HandsOn id e.1 := ⟨n, hn, hk, hc⟩
        have hnew : (id :: seen).Nodup := List.nodup_cons.2 ⟨fun h => hg id (hseen id h).2, hnodup⟩
        have hall : ∀ a ∈ id :: seen, a ∈ List.range' 1 g.size := by
          rintro a (_ | ⟨_, ha⟩)
          · exact get?_bounds hn
          · exact (hseen a ha).1
        have hlength : (id :: seen).length ≤ g.size := by
          simpa using (hnew.subperm hall).length_le
        refine ih hnew (fun a ha => ⟨hall a ha, ?_⟩) ?_
        · rcases List.mem_cons.1 ha with rfl | ha
          · exact .single hstep
          · exact (hseen a ha).2.tail hstep
        · rw [hv]
          rw [List.length_cons] at hlength ⊢
          omega
      · -- one level down, every node may hand the value on again
        have hdepth := Value.depth_members hmem
        refine ih List.nodup_nil (by simp) ?_
        have hlevel : e.2.depth * (g.size + 1) + (g.size + 1) ≤ v.depth * (g.size + 1) := by
          rw [← Nat.succ_mul]
          exact Nat.mul_le_mul_right _ hdepth
        simp only [List.length_nil]
        omega

/-- **Every value is judged.** -/
theorem judge_isSome (hg : g.Guarded) (id : Nat) (v : Value) : (g.judge σ (g.budget v) id v).isSome = true := by
  refine judge_after hg List.nodup_nil (by simp) ?_
  rw [budget, Nat.add_mul, List.length_nil]
  omega

/-- more steps change no answer -/
theorem judge_le {steps more id : Nat} {v : Value} {b : Bool} (hle : steps ≤ more) (h : g.judge σ steps id v = some b) :
    g.judge σ more id v = some b := by
  induction steps generalizing more id v b with
  | zero => cases h
  | succ steps ih =>
    obtain ⟨more, rfl⟩ : ∃ k, more = k + 1 := ⟨more - 1, by omega⟩
    rw [judge] at h ⊢
    split at h
    · exact h
    · obtain ⟨bs, hbs, rfl⟩ := Option.map_eq_some_iff.1 h
      exact Option.map_eq_some_iff.2
        ⟨bs, mapM_eq_some.2 ((mapM_eq_some.1 hbs).imp fun e b hb => ih (Nat.le_of_succ_le_succ hle) hb), rfl⟩

end Graph

end Schemata
