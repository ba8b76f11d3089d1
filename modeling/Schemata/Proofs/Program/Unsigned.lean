import Mathlib.Tactic
import Schemata.Proofs.Program.Walk
import Schemata.Proofs.Source.Constant

/-!
Programs whose bounds have lost the sign of their zeros.

A bound of negative zero and one of zero accept the same numbers, but an issue shows the bound it is about. `Shape.unsigned`
is the shape with all its bounds `Number.unsigned`; it is the shape itself where no bound is negative zero
(`unsigned_eq_self`).
-/

namespace Schemata

def Primitive.unsigned (q : Primitive) : Primitive :=
  { q with
    min := q.min.map Number.unsigned
    max := q.max.map Number.unsigned
    multipleOf := q.multipleOf.map Number.unsigned }

/-- the bounds of a scalar type -/
def Primitive.limits (q : Primitive) : List Float := q.min.toList ++ q.max.toList ++ q.multipleOf.toList

theorem Primitive.unsigned_eq_self {q : Primitive} (h : ∀ x ∈ q.limits, Number.unsigned x = x) :
    q.unsigned = q := by
  have hopt {o : Option Float} (ho : ∀ x ∈ o.toList, Number.unsigned x = x) : o.map Number.unsigned = o := by
    cases o with
    | none => rfl
    | some x => exact congrArg some (ho x (by simp))
  simp only [Primitive.limits, List.mem_append] at h
  unfold Primitive.unsigned
  rw [hopt fun x hx => h x (.inl (.inl hx)), hopt fun x hx => h x (.inl (.inr hx)), hopt fun x hx => h x (.inr hx)]

namespace Shape

mutual

/-- the shape without the signs of the zeros among its bounds -/
def unsigned : Shape → Shape
  | absent => absent
  | foreign b => foreign b
  | any b => any b
  | primitive b q => primitive b q.unsigned
  | array b i l => array b i.unsigned l
  | tuple b is r l => tuple b (unsignedAll is) r.unsigned l
  | object b fs a q => object b (unsignedFields fs) a.unsigned q
  | oneOf b vs d => oneOf b (unsignedAll vs) d
  | anyOf b vs => anyOf b (unsignedAll vs)
  | allOf b ps => allOf b (unsignedAll ps)
  | enum b vs => enum b vs
  | ref b n => ref b n

def unsignedAll : List Shape → List Shape
  | [] => []
  | s :: ss => s.unsigned :: unsignedAll ss

def unsignedFields : List (String × Shape) → List (String × Shape)
  | [] => []
  | (k, s) :: fs => (k, s.unsigned) :: unsignedFields fs

end

@[simp] theorem unsignedAll_eq (ss : List Shape) : unsignedAll ss = ss.map unsigned := by
  induction ss with
  | nil => simp [unsignedAll]
  | cons s ss ih => simp [unsignedAll, ih]

@[simp] theorem unsignedFields_eq (fs : List (String × Shape)) :
    unsignedFields fs = fs.map fun (k, s) => (k, s.unsigned) := by
  induction fs with
  | nil => simp [unsignedFields]
  | cons f fs ih => simp [unsignedFields, ih]

@[simp] theorem base_unsigned (s : Shape) : s.unsigned.base = s.base := by
  cases s <;> simp [unsigned, base]

@[simp] theorem isAbsent_unsigned (s : Shape) : s.unsigned.isAbsent = s.isAbsent := by
  cases s <;> simp [unsigned, isAbsent]

/-- is no bound of the node negative zero? -/
def signless : Shape → Prop
  | primitive _ q => ∀ x ∈ q.limits, Number.unsigned x = x
  | _ => True

mutual

theorem unsigned_eq_self : ∀ {s : Shape}, (∀ t ∈ s.nodes, t.signless) → s.unsigned = s
  | .absent, _ => rfl
  | .foreign b, _ => rfl
  | .any b, _ => rfl
  | .enum b vs, _ => rfl
  | .ref b n, _ => rfl
  | .primitive b q, h => by
    have hq : ∀ x ∈ q.limits, Number.unsigned x = x := h (.primitive b q) (by simp [nodes])
    rw [unsigned, Primitive.unsigned_eq_self hq]
  | .array b i l, h => by
    simp only [nodes, List.mem_cons] at h
    rw [unsigned, unsigned_eq_self fun t ht => h t (.inr ht)]
  | .tuple b is r l, h => by
    simp only [nodes, List.mem_cons, List.mem_append] at h
    rw [unsigned, unsignedAll_eq_self fun t ht => h t (.inr (.inl ht)), unsigned_eq_self fun t ht => h t (.inr (.inr ht))]
  | .object b fs a q, h => by
    simp only [nodes, List.mem_cons, List.mem_append] at h
    rw [unsigned, unsignedFields_eq_self fun t ht => h t (.inr (.inl ht)),
      unsigned_eq_self fun t ht => h t (.inr (.inr ht))]
  | .oneOf b vs d, h => by
    simp only [nodes, List.mem_cons] at h
    rw [unsigned, unsignedAll_eq_self fun t ht => h t (.inr ht)]
  | .anyOf b vs, h => by
    simp only [nodes, List.mem_cons] at h
    rw [unsigned, unsignedAll_eq_self fun t ht => h t (.inr ht)]
  | .allOf b ps, h => by
    simp only [nodes, List.mem_cons] at h
    rw [unsigned, unsignedAll_eq_self fun t ht => h t (.inr ht)]

theorem unsignedAll_eq_self : ∀ {ss : List Shape}, (∀ t ∈ nodesAll ss, t.signless) → unsignedAll ss = ss
  | [], _ => by simp
  | s :: ss, h => by
    simp only [nodesAll, List.mem_append] at h
    rw [unsignedAll, unsigned_eq_self fun t ht => h t (.inl ht), unsignedAll_eq_self fun t ht => h t (.inr ht)]

theorem unsignedFields_eq_self :
    ∀ {fs : List (String × Shape)}, (∀ t ∈ nodesFields fs, t.signless) → unsignedFields fs = fs
  | [], _ => by simp
  | (k, s) :: fs, h => by
    simp only [nodesFields, List.mem_append] at h
    rw [unsignedFields, unsigned_eq_self fun t ht => h t (.inl ht), unsignedFields_eq_self fun t ht => h t (.inr ht)]

end

end Shape

namespace Program

def unsigned (p : Program) : Program :=
  { p with root := p.root.unsigned, defs := p.defs.map fun (k, s) => (k, s.unsigned) }

/-- is no bound of the program negative zero? -/
def Signless (p : Program) : Prop := ∀ s ∈ p.root :: p.defs.map (·.2), ∀ t ∈ s.nodes, t.signless

theorem unsigned_eq_self {p : Program} (h : p.Signless) : p.unsigned = p := by
  have hdefs : (p.defs.map fun (k, s) => (k, s.unsigned)) = p.defs := by
    refine (List.map_congr_left fun e he => ?_).trans (List.map_id _)
    obtain ⟨k, s⟩ := e
    simp only [id]
    rw [Shape.unsigned_eq_self (h s (List.mem_cons_of_mem _ (List.mem_map_of_mem (f := (·.2)) he)))]
  unfold unsigned
  rw [Shape.unsigned_eq_self (h p.root List.mem_cons_self), hdefs]

theorem definition_unsigned (p : Program) (name : String) : p.unsigned.definition name = (p.definition name).unsigned := by
  have hget : Dict.get? p.unsigned.defs name = (Dict.get? p.defs name).map Shape.unsigned := by
    simp only [Dict.get?, unsigned, List.find?_map, Option.map_map]
    rfl
  unfold definition
  rw [hget]
  cases Dict.get? p.defs name <;> simp [Shape.unsigned]

theorem target_unsigned (p : Program) (name : String) : p.unsigned.target? name = (p.target? name).map Shape.unsigned := by
  unfold target?
  split
  · rfl
  · rw [show p.unsigned.order = p.order from rfl]
    split
    · rw [definition_unsigned, Option.map_some]
    · rfl

end Program

end Schemata
