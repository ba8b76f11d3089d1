import Mathlib.Tactic
import Schemata.Failure

/-!
Steps on a state that may stop, whatever the state is.

Graphs, runs and documents are all changed by steps of this kind. Four notions carry the results about them: `Blind`
says that a step does not see the difference between related states, `Moves` that a step takes a state to a related
one, `Same` that two steps do the same from the states that they keep to, and `Finishes` that a step has a result or
fails, but does not break off. All pass from parts to the whole, so a result about a long step is one line for each of
its parts.
-/

namespace Schemata

theorem outcome_bind_ok {α β : Type} {x : Outcome α} {f : α → Outcome β} {b : β} (h : (x >>= f) = .ok b) :
    ∃ a, x = .ok a ∧ f a = .ok b := by
  cases x with
  | error e => cases h
  | ok a => exact ⟨a, rfl, h⟩

/-- steps on a state; what was done before a stop stays done -/
abbrev Steps (σ α : Type) := ExceptT Stop (StateM σ) α

namespace Steps

variable {σ α β : Type}

theorem get_apply (s : σ) : (get : Steps σ σ) s = (.ok s, s) := rfl

theorem modify_apply (f : σ → σ) (s : σ) : (modify f : Steps σ PUnit) s = (.ok ⟨⟩, f s) := rfl

theorem bind_apply (x : Steps σ α) (f : α → Steps σ β) (s : σ) :
    (x >>= f : Steps σ β) s =
      match x s with
      | (.ok a, t) => f a t
      | (.error e, t) => (.error e, t) := by
  simp only [bind, ExceptT.bind, ExceptT.mk, StateT.bind, ExceptT.bindCont]
  rcases x s with ⟨_ | _, t⟩ <;> rfl

/-- a step with a result is the first part with a result and the second part from there -/
theorem bind_ok {x : Steps σ α} {f : α → Steps σ β} {s t : σ} {b : β} (h : (x >>= f : Steps σ β) s = (.ok b, t)) :
    ∃ a u, x s = (.ok a, u) ∧ f a u = (.ok b, t) := by
  rw [bind_apply] at h
  rcases hx : x s with ⟨_ | a, u⟩ <;> rw [hx] at h
  · cases h
  · exact ⟨a, u, rfl, h⟩

theorem bind_of_ok {x : Steps σ α} {s u : σ} {a : α} (h : x s = (.ok a, u)) (f : α → Steps σ β) :
    (x >>= f : Steps σ β) s = f a u := by
  rw [bind_apply, h]

/-! ## Steps that do not see a difference -/

/-- from related states the step gives the same result and related states -/
def Blind (E : σ → σ → Prop) (x : Steps σ α) : Prop := ∀ s t, E s t → (x s).1 = (x t).1 ∧ E (x s).2 (x t).2

theorem Blind.pure {E : σ → σ → Prop} (a : α) : Blind E (Pure.pure a : Steps σ α) := fun _ _ h => ⟨rfl, h⟩

theorem Blind.bind {E : σ → σ → Prop} {x : Steps σ α} {f : α → Steps σ β} (hx : Blind E x) (hf : ∀ a, Blind E (f a)) :
    Blind E (x >>= f) := by
  intro s t h
  have hst := hx s t h
  simp only [bind_apply]
  rcases hs : x s with ⟨_ | a, u⟩ <;> rcases ht : x t with ⟨_ | b, v⟩ <;> simp only [hs, ht] at hst ⊢
  · exact ⟨congrArg Except.error (Except.error.inj hst.1), hst.2⟩
  · exact absurd hst.1 (by simp)
  · exact absurd hst.1 (by simp)
  · obtain rfl : a = b := by simpa using hst.1
    exact hf a u v hst.2

/-! ## Where steps lead -/

/-- the step takes every state to a related one, also when it stops -/
def Moves (R : σ → σ → Prop) (x : Steps σ α) : Prop := ∀ s, R s (x s).2

theorem Moves.pure {R : σ → σ → Prop} (hr : ∀ s, R s s) (a : α) : Moves R (Pure.pure a : Steps σ α) := fun s => hr s

theorem Moves.bind {R : σ → σ → Prop} (ht : ∀ s t u, R s t → R t u → R s u) {x : Steps σ α} {f : α → Steps σ β}
    (hx : Moves R x) (hf : ∀ a, Moves R (f a)) : Moves R (x >>= f) := by
  intro s
  have hs := hx s
  rw [bind_apply]
  rcases h : x s with ⟨_ | a, u⟩ <;> simp only [h] at hs ⊢
  · exact hs
  · exact ht _ _ _ hs (hf a u)

/-! ## Steps that do the same -/

/-- from states that satisfy `P` both steps do the same, and lead to such states -/
def Same (P : σ → Prop) (x y : Steps σ α) : Prop := ∀ s, P s → x s = y s ∧ P (x s).2

theorem Same.pure {P : σ → Prop} (a : α) : Same P (Pure.pure a : Steps σ α) (Pure.pure a) := fun _ h => ⟨rfl, h⟩

theorem Same.bind {P : σ → Prop} {x y : Steps σ α} {f f' : α → Steps σ β} (hx : Same P x y) (hf : ∀ a, Same P (f a) (f' a)) :
    Same P (x >>= f) (y >>= f') := by
  intro s h
  obtain ⟨heq, hkeep⟩ := hx s h
  rw [bind_apply, bind_apply, ← heq]
  rcases hs : x s with ⟨_ | a, t⟩ <;> rw [hs] at hkeep
  · exact ⟨rfl, hkeep⟩
  · exact hf a t hkeep

/-! ## Steps that do not break off -/

/-- a result with the property, or a failure -/
def Concludes (Q : α → Prop) : Outcome α → Prop
  | .ok a => Q a
  | .error (.failed _) => True
  | .error (.aborted _) => False

theorem Concludes.imp {Q R : α → Prop} {o : Outcome α} (h : Concludes Q o) (hQ : ∀ a, Q a → R a) : Concludes R o := by
  cases o with
  | ok a => exact hQ a h
  | error e => cases e <;> exact h

/-- from states that satisfy `P` the step has a result that satisfies `Q` or fails, and leads to such a state -/
def Finishes (P : σ → Prop) (Q : α → Prop) (x : Steps σ α) : Prop := ∀ s, P s → P (x s).2 ∧ Concludes Q (x s).1

theorem Finishes.pure {P : σ → Prop} {Q : α → Prop} {a : α} (h : Q a) : Finishes P Q (Pure.pure a : Steps σ α) :=
  fun _ hs => ⟨hs, h⟩

theorem Finishes.bind {P : σ → Prop} {Q : α → Prop} {R : β → Prop} {x : Steps σ α} {f : α → Steps σ β}
    (hx : Finishes P Q x) (hf : ∀ a, Q a → Finishes P R (f a)) : Finishes P R (x >>= f) := by
  intro s hs
  obtain ⟨hkeep, hres⟩ := hx s hs
  rw [bind_apply]
  rcases hrun : x s with ⟨e | a, t⟩ <;> rw [hrun] at hkeep hres
  · cases e with
    | failed f => exact ⟨hkeep, trivial⟩
    | aborted reason => exact hres.elim
  · exact hf a hres t hkeep

end Steps

end Schemata
