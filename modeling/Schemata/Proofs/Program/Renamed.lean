import Mathlib.Tactic
import Schemata.Proofs.Dict
import Schemata.Proofs.Program.Walk

/-!
Programs with other names for their definitions.

`Shape.redirect f` is a shape with the names in its references changed. A program is a renamed copy of another
(`Program.Renamed`) when its root and its definitions are those of the other but for the names; the definitions may
come in another order. Where names stay apart, it finds the same issues in every value (`validate_renamed`).
-/

namespace Schemata

namespace Shape

mutual

/-- the shape with the names in its references changed -/
def redirect (f : String → String) : Shape → Shape
  | absent => absent
  | foreign b => foreign b
  | any b => any b
  | primitive b q => primitive b q
  | array b i l => array b (i.redirect f) l
  | tuple b is r l => tuple b (redirectAll f is) (r.redirect f) l
  | object b fs a q => object b (redirectFields f fs) (a.redirect f) q
  | oneOf b vs d => oneOf b (redirectAll f vs) d
  | anyOf b vs => anyOf b (redirectAll f vs)
  | allOf b ps => allOf b (redirectAll f ps)
  | enum b vs => enum b vs
  | ref b n => ref b (f n)

def redirectAll (f : String → String) : List Shape → List Shape
  | [] => []
  | s :: ss => s.redirect f :: redirectAll f ss

def redirectFields (f : String → String) : List (String × Shape) → List (String × Shape)
  | [] => []
  | (k, s) :: fs => (k, s.redirect f) :: redirectFields f fs

end

variable (f : String → String)

@[simp] theorem redirectAll_eq (ss : List Shape) : redirectAll f ss = ss.map (redirect f) := by
  induction ss with
  | nil => simp [redirectAll]
  | cons s ss ih => simp [redirectAll, ih]

@[simp] theorem redirectFields_eq (fs : List (String × Shape)) :
    redirectFields f fs = fs.map fun e => (e.1, e.2.redirect f) := by
  induction fs with
  | nil => simp [redirectFields]
  | cons e fs ih => simp [redirectFields, ih]

@[simp] theorem base_redirect (s : Shape) : (s.redirect f).base = s.base := by
  cases s <;> simp [redirect, base]

@[simp] theorem isAbsent_redirect (s : Shape) : (s.redirect f).isAbsent = s.isAbsent := by
  cases s <;> simp [redirect, isAbsent]

@[simp] theorem mapBase_redirect (g : Base → Base) (s : Shape) : (s.mapBase g).redirect f = (s.redirect f).mapBase g := by
  cases s <;> simp [redirect, mapBase]

mutual

theorem redirect_id : ∀ s : Shape, s.redirect id = s
  | absent => by simp [redirect]
  | foreign b => by simp [redirect]
  | any b => by simp [redirect]
  | primitive b q => by simp [redirect]
  | array b i l => by rw [redirect, redirect_id i]
  | tuple b is r l => by rw [redirect, redirectAll_id is, redirect_id r]
  | object b fs a q => by rw [redirect, redirectFields_id fs, redirect_id a]
  | oneOf b vs d => by rw [redirect, redirectAll_id vs]
  | anyOf b vs => by rw [redirect, redirectAll_id vs]
  | allOf b ps => by rw [redirect, redirectAll_id ps]
  | enum b vs => by simp [redirect]
  | ref b n => by simp [redirect]

theorem redirectAll_id : ∀ ss : List Shape, redirectAll id ss = ss
  | [] => by simp [redirectAll]
  | s :: ss => by rw [redirectAll, redirect_id s, redirectAll_id ss]

theorem redirectFields_id : ∀ fs : List (String × Shape), redirectFields id fs = fs
  | [] => by simp [redirectFields]
  | (k, s) :: fs => by rw [redirectFields, redirect_id s, redirectFields_id fs]

end

end Shape

/-! ## Renamed programs -/

/-- the same program but for the names of definitions and their order -/
structure Program.Renamed (f : String → String) (p q : Program) : Prop where
  root : q.root = p.root.redirect f
  defs : q.defs.Perm (p.defs.map fun e => (f e.1, e.2.redirect f))
  order : q.order.Perm (p.order.map f)

namespace Check

variable {f : String → String} {p q : Program} {coerce : Bool} {words : Wording}

/-- one step on a shape with other names, when the targets of references correspond -/
theorem own_redirect (htarget : ∀ n, q.target? (f n) = (p.target? n).map (Shape.redirect f))
    {check check' : Shape → Value → Pointer → Option (List Issue)}
    (hcheck : ∀ s v a, check' (s.redirect f) v a = check s v a) (s : Shape) (v : Value) (a : Pointer) :
    own ⟨q, coerce, words⟩ check' (s.redirect f) v a = own ⟨p, coerce, words⟩ check s v a := by
  have hall {vs : List Shape} : (vs.map (Shape.redirect f)).map (fun s => check' s v a) = vs.map fun s => check s v a := by
    rw [List.map_map]
    exact List.map_congr_left fun s _ => hcheck s v a
  cases s with
  | absent => rfl
  | foreign b => rfl
  | any b => rfl
  | primitive b x => rfl
  | enum b vs => rfl
  | array b item l =>
    cases v <;> try rfl
    simp only [Shape.redirect, own, Shape.isAbsent_redirect, hcheck]
    rfl
  | tuple b positions rest l =>
    cases v <;> try rfl
    rename_i xs
    have hlisted : ((xs.zip (positions.map (Shape.redirect f))).zipIdx.map fun e => check' e.1.2 e.1.1 (a.index e.2)) =
        (xs.zip positions).zipIdx.map fun e => check e.1.2 e.1.1 (a.index e.2) := by
      rw [List.zip_map_right, List.zipIdx_map, List.map_map]
      exact List.map_congr_left fun e _ => hcheck _ _ _
    simp only [Shape.redirect, Shape.redirectAll_eq, own, Shape.isAbsent_redirect, hcheck, List.length_map]
    exact congrArg concat (congrArg (some _ :: ·) (congrArg (· ++ _) hlisted))
  | object b fields additional x =>
    cases v <;> try rfl
    rename_i fs
    have hkeys : (fields.map fun e => (e.1, e.2.redirect f)).map (·.1) = fields.map (·.1) := by
      simp [Function.comp_def]
    have hrequired : x.requiredKeys (fields.map fun e => (e.1, e.2.redirect f)) = x.requiredKeys fields := by
      rw [ObjectPolicy.requiredKeys, ObjectPolicy.requiredKeys, hkeys]
    simp only [Shape.redirect, Shape.redirectFields_eq, own, Shape.isAbsent_redirect, hcheck, hkeys, hrequired]
    refine congrArg concat (congrArg₂ (· ++ ·) (congrArg (some _ :: ·) (congrArg (· ++ _) ?_)) rfl)
    rw [List.map_map]
    refine List.map_congr_left fun e _ => ?_
    simp only [Function.comp]
    cases Dict.get? fs e.1 with
    | none => rfl
    | some x => exact hcheck e.2 x (a.field e.1)
  | oneOf b variants d =>
    have hselect : select ⟨q, coerce, words⟩ d (variants.map (Shape.redirect f)) v a =
        (select ⟨p, coerce, words⟩ d variants v a).map (Shape.redirect f) := by
      unfold select
      cases v with
      | object fs =>
        simp only
        cases Dict.get? fs d.property with
        | none => rfl
        | some tag =>
          have hbind : ((Dict.get? (d.mapping.getD []) tag.display).bind fun i => (variants.map (Shape.redirect f))[i.toNat]?) =
              ((Dict.get? (d.mapping.getD []) tag.display).bind fun i => variants[i.toNat]?).map (Shape.redirect f) := by
            simp only [List.getElem?_map, Option.map_bind, Function.comp_def]
          simp only [hbind]
          cases (Dict.get? (d.mapping.getD []) tag.display).bind fun i => variants[i.toNat]? <;> rfl
      | _ => rfl
    simp only [Shape.redirect, Shape.redirectAll_eq, own, hall, List.length_map, hselect]
    split
    · rfl
    · cases select ⟨p, coerce, words⟩ d variants v a with
      | error is => rfl
      | ok s => exact hcheck s v a
  | anyOf b variants =>
    have hfirst (otherwise : Issue) : firstMatch (fun s => check' s v a) otherwise (variants.map (Shape.redirect f)) =
        firstMatch (fun s => check s v a) otherwise variants := by
      induction variants with
      | nil => rfl
      | cons s ss ih =>
        rw [List.map_cons, firstMatch, firstMatch, hcheck, ih]
    simp only [Shape.redirect, Shape.redirectAll_eq, own]
    obtain _ | ⟨s, _ | ⟨t, ss⟩⟩ := variants
    · rfl
    · exact hcheck s v a
    · have hcount : ((s :: t :: ss).map (Shape.redirect f)).length = (s :: t :: ss).length := List.length_map _
      refine (hfirst _).trans ?_
      rw [← List.map_cons, hcount]
      rfl
  | allOf b parts => simp only [Shape.redirect, Shape.redirectAll_eq, own, hall]
  | ref b name =>
    simp only [Shape.redirect, own, htarget]
    cases p.target? name with
    | none => rfl
    | some s => exact hcheck s v a

theorem issues_redirect (htarget : ∀ n, q.target? (f n) = (p.target? n).map (Shape.redirect f)) (fuel : Nat) (s : Shape)
    (v : Value) (a : Pointer) :
    issues ⟨q, coerce, words⟩ fuel (s.redirect f) v a = issues ⟨p, coerce, words⟩ fuel s v a := by
  induction fuel generalizing s v a with
  | zero => rfl
  | succ fuel ih =>
    rw [issues_succ, issues_succ, Shape.base_redirect, own_redirect htarget ih]
    rfl

end Check

namespace Program

variable {f : String → String} {p q : Program}

theorem Renamed.target (h : Renamed f p q) (hf : Function.Injective f) (hroot : f "" = "") (hn : (p.defs.map (·.1)).Nodup)
    (n : String) : q.target? (f n) = (p.target? n).map (Shape.redirect f) := by
  have hempty : f n = "" ↔ n = "" := by rw [← hroot, hf.eq_iff, hroot]
  have horder : q.order.contains (f n) = p.order.contains n := by
    rw [Bool.eq_iff_iff, List.contains_iff_mem, List.contains_iff_mem, h.order.mem_iff, List.mem_map_of_injective hf]
  have hget : Dict.get? q.defs (f n) = (Dict.get? p.defs n).map (Shape.redirect f) := by
    have hdistinct : ((p.defs.map fun e => (f e.1, e.2.redirect f)).map (·.1)).Nodup := by
      simpa [Function.comp_def] using hn.map hf
    refine Option.ext fun t => ?_
    rw [Dict.get?_eq_some ((h.defs.map _).nodup_iff.2 hdistinct), h.defs.mem_iff, Option.map_eq_some_iff, List.mem_map]
    constructor
    · rintro ⟨⟨m, s⟩, hs, heq⟩
      obtain ⟨hname, rfl⟩ := Prod.mk.inj heq
      obtain rfl := hf hname
      exact ⟨s, (Dict.get?_eq_some hn).2 hs, rfl⟩
    · rintro ⟨s, hs, rfl⟩
      exact ⟨(n, s), (Dict.get?_eq_some hn).1 hs, rfl⟩
  have hdefinition : q.definition (f n) = (p.definition n).redirect f := by
    rw [definition, definition, hget]
    cases Dict.get? p.defs n <;> rfl
  unfold target?
  simp only [hempty, horder, hdefinition, h.root]
  split_ifs <;> rfl

/-- **Names do not matter.** A renamed program finds the same issues in every value. -/
theorem validate_renamed (h : Renamed f p q) (hf : Function.Injective f) (hroot : f "" = "")
    (hn : (p.defs.map (·.1)).Nodup) (coerce : Bool) (words : Wording) (v : Value) :
    q.validate coerce words v = p.validate coerce words v := by
  have hok (is : List Issue) : q.validate coerce words v = .ok is ↔ p.validate coerce words v = .ok is := by
    simp only [Check.validate_eq_ok, h.root, Check.issues_redirect (h.target hf hroot hn)]
  have herror {r : Program} (hr : ∀ is, r.validate coerce words v ≠ .ok is) : r.validate coerce words v = abort := by
    unfold validate at hr ⊢
    split
    · rename_i is heq
      exact absurd (by rw [heq]) (hr is)
    · rfl
  by_cases hp : ∃ is, p.validate coerce words v = .ok is
  · obtain ⟨is, his⟩ := hp
    rw [his, (hok is).2 his]
  · rw [not_exists] at hp
    rw [herror hp, herror fun is => mt (hok is).1 (hp is)]

end Program

end Schemata
