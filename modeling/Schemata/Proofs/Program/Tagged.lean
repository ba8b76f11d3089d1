import Mathlib.Tactic
import Schemata.Proofs.Program.Verdict

/-!
Unions with and without dispatch.

`Shape.Dispatches T s t` says that `t` is `s` but for the dispatch in some of its unions, of which `T` holds. Where a
dispatch is sure to select the variant that accepts a value (`Check.Sure`), trying all variants and looking at the selected
one come to the same: a check of `t` finds nothing wrong just when one of `s` finds nothing wrong (`Check.issues_agree`).
-/

namespace Schemata

/-- the second shape is the first, but for the dispatch of unions -/
inductive Shape.Dispatches (T : List Shape → Dispatch → Prop) : Shape → Shape → Prop
  | absent : Dispatches T .absent .absent
  | any (b : Base) : Dispatches T (.any b) (.any b)
  | primitive (b : Base) (q : Primitive) : Dispatches T (.primitive b q) (.primitive b q)
  | enum (b : Base) (vs : List Value) : Dispatches T (.enum b vs) (.enum b vs)
  | ref (b : Base) (name : String) : Dispatches T (.ref b name) (.ref b name)
  | array {b : Base} {l : ArrayLimits} {i j : Shape} (items : Dispatches T i j) : Dispatches T (.array b i l) (.array b j l)
  | tuple {b : Base} {l : TupleLimits} {is js : List Shape} {r r' : Shape} (positions : List.Forall₂ (Dispatches T) is js)
      (rest : Dispatches T r r') : Dispatches T (.tuple b is r l) (.tuple b js r' l)
  | object {b : Base} {q : ObjectPolicy} {fs gs : List (String × Shape)} {a a' : Shape}
      (keys : gs.map (·.1) = fs.map (·.1)) (fields : List.Forall₂ (Dispatches T) (fs.map (·.2)) (gs.map (·.2)))
      (additional : Dispatches T a a') : Dispatches T (.object b fs a q) (.object b gs a' q)
  | oneOf {b : Base} {d : Dispatch} {vs ws : List Shape} (variants : List.Forall₂ (Dispatches T) vs ws)
      (dispatch : d.property ≠ "" → T vs d) : Dispatches T (.oneOf b vs {}) (.oneOf b ws d)
  | anyOf {b : Base} {vs ws : List Shape} (variants : List.Forall₂ (Dispatches T) vs ws) :
      Dispatches T (.anyOf b vs) (.anyOf b ws)
  | allOf {b : Base} {ps qs : List Shape} (parts : List.Forall₂ (Dispatches T) ps qs) :
      Dispatches T (.allOf b ps) (.allOf b qs)

namespace Shape.Dispatches

variable {T : List Shape → Dispatch → Prop} {s t : Shape}

theorem base (h : Dispatches T s t) : t.base = s.base := by
  cases h <;> rfl

theorem isAbsent (h : Dispatches T s t) : t.isAbsent = s.isAbsent := by
  cases h <;> rfl

theorem mapBase (h : Dispatches T s t) (f : Base → Base) : Dispatches T (s.mapBase f) (t.mapBase f) := by
  cases h with
  | absent => exact .absent
  | any b => exact .any _
  | primitive b q => exact .primitive _ q
  | enum b vs => exact .enum _ vs
  | ref b n => exact .ref _ n
  | array items => exact .array items
  | tuple positions rest => exact .tuple positions rest
  | object keys fields additional => exact .object keys fields additional
  | oneOf variants dispatch => exact .oneOf variants dispatch
  | anyOf variants => exact .anyOf variants
  | allOf parts => exact .allOf parts

end Shape.Dispatches

namespace Check

/-! ## Answers that agree -/

/-- where the first is an answer, so is the second, and both find something wrong or neither does -/
def Agree (o o' : Option (List Issue)) : Prop := ∀ is, o = some is → ∃ js, o' = some js ∧ js.isEmpty = is.isEmpty

theorem Agree.rfl {o : Option (List Issue)} : Agree o o := fun is h => ⟨is, h, Eq.refl _⟩

theorem agree_some {is js : List Issue} (h : js.isEmpty = is.isEmpty) : Agree (some is) (some js) := by
  rintro _ ⟨⟩
  exact ⟨js, Eq.refl _, h⟩

variable {p q : Program} {coerce : Bool} {words : Wording}

theorem rules_agree {b : Base} {v : Value} {a : Pointer} {o o' : Option (List Issue)} (h : Agree o o') :
    Agree (o.map (rules ⟨p, coerce, words⟩ b v a)) (o'.map (rules ⟨q, coerce, words⟩ b v a)) := by
  intro r hr
  obtain ⟨is, his, rfl⟩ := Option.map_eq_some_iff.1 hr
  obtain ⟨js, hjs, hempty⟩ := h is his
  refine ⟨_, by rw [hjs, Option.map_some], ?_⟩
  unfold rules
  rw [hempty]
  split
  · rfl
  · exact hempty

theorem concat_agree {xs ys : List (Option (List Issue))} (h : List.Forall₂ Agree xs ys) : Agree (concat xs) (concat ys) := by
  induction h with
  | nil => exact Agree.rfl
  | @cons x y xs ys hxy _ ih =>
    intro r hr
    rw [concat_cons] at hr ⊢
    obtain ⟨a, rfl, hr⟩ := Option.bind_eq_some_iff.1 hr
    obtain ⟨b, hb, rfl⟩ := Option.map_eq_some_iff.1 hr
    obtain ⟨a', rfl, ha'⟩ := hxy a (Eq.refl _)
    obtain ⟨b', hb', hempty⟩ := ih b hb
    refine ⟨a' ++ b', by rw [hb', Option.bind_some, Option.map_some], ?_⟩
    rw [isEmpty_append, isEmpty_append, ha', hempty]

variable {check check' : Shape → Option (List Issue)} {ss ts : List Shape}

theorem firstMatch_agree {i j : Issue} (h : List.Forall₂ (fun s t => Agree (check s) (check' t)) ss ts) :
    Agree (firstMatch check i ss) (firstMatch check' j ts) := by
  induction h with
  | nil => exact agree_some (Eq.refl _)
  | @cons s t ss ts hst _ ih =>
    intro r hr
    unfold firstMatch at hr ⊢
    cases hs : check s with
    | none =>
      rw [hs] at hr
      cases hr
    | some is =>
      obtain ⟨js, hjs, hempty⟩ := hst is hs
      rw [hs] at hr
      rw [hjs]
      cases is with
      | nil =>
        obtain rfl := List.isEmpty_iff.1 hempty
        cases hr
        exact ⟨[], Eq.refl _, Eq.refl _⟩
      | cons i is =>
        cases js with
        | nil => cases hempty
        | cons j js => exact ih r hr

theorem anyOf_agree {cx cx' : Context} {a a' : Pointer} (h : List.Forall₂ (fun s t => Agree (check s) (check' t)) ss ts) :
    Agree (anyOf cx check a ss) (anyOf cx' check' a' ts) := by
  match ss, ts, h with
  | [], [], h => exact firstMatch_agree h
  | [s], [t], .cons hst .nil => exact hst
  | s :: s' :: ss, t :: t' :: ts, h => exact firstMatch_agree h

/-- answers that agree, all of them at once -/
theorem mapM_agree {xs ys : List (Option (List Issue))} (h : List.Forall₂ Agree xs ys) {rs : List (List Issue)}
    (hrs : xs.mapM id = some rs) :
    ∃ rs', ys.mapM id = some rs' ∧ (rs'.filter List.isEmpty).length = (rs.filter List.isEmpty).length := by
  simp only [mapM_eq_some] at hrs ⊢
  induction h generalizing rs with
  | nil =>
    cases hrs
    exact ⟨[], .nil, Eq.refl _⟩
  | cons hxy _ ih =>
    obtain _ | ⟨hr, hrs⟩ := hrs
    obtain ⟨r', hr', hempty⟩ := hxy _ hr
    obtain ⟨rs', hrs', hcount⟩ := ih hrs
    refine ⟨r' :: rs', .cons hr' hrs', ?_⟩
    rw [List.filter_cons, List.filter_cons, hempty]
    split <;> simp [hcount]

theorem oneOf_agree {cx cx' : Context} {n m : Nat} {a a' : Pointer} {xs ys : List (Option (List Issue))}
    (h : List.Forall₂ Agree xs ys) : Agree (oneOf cx n a xs) (oneOf cx' m a' ys) := by
  intro is his
  unfold oneOf at his ⊢
  cases hrs : xs.mapM id with
  | none =>
    rw [hrs] at his
    cases his
  | some rs =>
    obtain ⟨rs', hrs', hcount⟩ := mapM_agree h hrs
    rw [hrs] at his
    rw [hrs']
    obtain rfl := Option.some.inj his
    refine ⟨_, Eq.refl _, ?_⟩
    simp only [hcount]
    split_ifs <;> rfl

/-! ## Dispatch -/

/-- a variant that accepts a value is the one that the dispatch selects -/
def Sure (cx : Context) (vs : List Shape) (d : Dispatch) : Prop :=
  ∀ (i : Nat) s, vs[i]? = some s → ∀ fuel v a, issues cx fuel s v a = some [] →
    ∃ fs tag, v = .object fs ∧ Dict.get? fs d.property = some tag ∧ Dict.get? (d.mapping.getD []) tag.display = some (i : Int)

/-- the partner of a member stands at the same place -/
theorem forall₂_index {α β : Type} {R : α → β → Prop} {xs : List α} {ys : List β} (h : List.Forall₂ R xs ys) {i : Nat} {x : α}
    (hx : xs[i]? = some x) : ∃ y, ys[i]? = some y ∧ R x y := by
  induction h generalizing i with
  | nil => cases hx
  | @cons a b xs ys hab _ ih =>
    cases i with
    | zero =>
      obtain rfl : a = x := by simpa using hx
      exact ⟨b, rfl, hab⟩
    | succ i => exact ih (by simpa using hx)

theorem filter_unique {α : Type} {P : α → Bool} {xs : List α} {i : Nat} {x : α} (hi : xs[i]? = some x) (hx : P x = true)
    (hunique : ∀ (j : Nat) y, xs[j]? = some y → P y = true → j = i) : xs.filter P = [x] := by
  induction xs generalizing i with
  | nil => cases hi
  | cons y ys ih =>
    cases i with
    | zero =>
      obtain rfl : y = x := by simpa using hi
      rw [List.filter_cons_of_pos hx]
      refine congrArg (y :: ·) (List.filter_eq_nil_iff.2 fun z hz hP => ?_)
      obtain ⟨j, hj⟩ := List.mem_iff_getElem?.1 hz
      exact absurd (hunique (j + 1) z (by simpa using hj) hP) (by omega)
    | succ i =>
      have hy : ¬ P y = true := fun hP => absurd (hunique 0 y (Eq.refl _) hP) (by omega)
      rw [List.filter_cons_of_neg hy]
      refine ih (by simpa using hi) fun j z hj hP => ?_
      have := hunique (j + 1) z (by simpa using hj) hP
      omega

theorem select_index {cx : Context} {d : Dispatch} {vs : List Shape} {fs : Dict Value} {tag : Value} {i : Nat} {s : Shape}
    (htag : Dict.get? fs d.property = some tag) (hi : Dict.get? (d.mapping.getD []) tag.display = some (i : Int))
    (hs : vs[i]? = some s) (a : Pointer) : select cx d vs (.object fs) a = .ok s := by
  unfold select
  simp only [htag, hi, Option.bind_some, Int.toNat_natCast, hs]

theorem select_error {cx : Context} {d : Dispatch} {vs : List Shape} {v : Value} {a : Pointer} {is : List Issue}
    (h : select cx d vs v a = .error is) : is.isEmpty = false := by
  unfold select at h
  split at h
  · split at h
    · cases h
      rfl
    · split at h <;> cases h
      rfl
  · cases h
    rfl

/-- **Trying and selecting.** Trying all variants agrees with the check of the variant that a sure dispatch selects. -/
theorem select_agree {cx cx' : Context} {fuel : Nat} {d : Dispatch} {v : Value} {a : Pointer} {n : Nat}
    (hsure : Sure cx ss d) (h : List.Forall₂ (fun s t => Agree (issues cx fuel s v a) (check' t)) ss ts) :
    Agree (oneOf cx n a (ss.map fun s => issues cx fuel s v a))
      (match select cx' d ts v a with
        | .ok t => check' t
        | .error is => some is) := by
  intro is his
  unfold oneOf at his
  cases hrs : (ss.map fun s => issues cx fuel s v a).mapM id with
  | none =>
    rw [hrs] at his
    cases his
  | some rs =>
    rw [hrs] at his
    have hanswers : List.Forall₂ (fun s r => issues cx fuel s v a = some r) ss rs := by
      simpa [mapM_eq_some, List.forall₂_map_left_iff] using hrs
    by_cases hmatch : ∃ i : Nat, rs[i]? = some []
    · -- the variant that accepts the value is the only one, and is selected
      obtain ⟨i, hi⟩ := hmatch
      obtain ⟨s, hs, hissues⟩ := forall₂_index hanswers.flip hi
      obtain ⟨t, ht, hagree⟩ := forall₂_index h hs
      obtain ⟨fs, tag, rfl, htag, hindex⟩ := hsure i s hs fuel v a hissues
      have hone : rs.filter List.isEmpty = [[]] := by
        refine filter_unique hi rfl fun j r hj hr => ?_
        obtain rfl := List.isEmpty_iff.1 hr
        obtain ⟨s', hs', hissues'⟩ := forall₂_index hanswers.flip hj
        obtain ⟨fs', tag', hfs, htag', hindex'⟩ := hsure j s' hs' fuel _ a hissues'
        cases hfs
        rw [htag] at htag'
        cases htag'
        rw [hindex] at hindex'
        exact (Int.ofNat.inj (Option.some.inj hindex')).symm
      obtain ⟨js, hjs, hempty⟩ := hagree [] hissues
      refine ⟨js, by rw [select_index htag hindex ht]; exact hjs, ?_⟩
      rw [← Option.some.inj his, hone, hempty]
      rfl
    · -- no variant accepts the value, whichever is selected
      have hnone : rs.filter List.isEmpty = [] := by
        refine List.filter_eq_nil_iff.2 fun r hr hempty => hmatch ?_
        obtain rfl := List.isEmpty_iff.1 hempty
        exact List.mem_iff_getElem?.1 hr
      rw [← Option.some.inj his, hnone]
      cases hselect : select cx' d ts v a with
      | error js => exact ⟨js, rfl, select_error hselect⟩
      | ok t =>
        obtain ⟨i, hi⟩ := List.mem_iff_getElem?.1 (select_mem cx' hselect)
        obtain ⟨s, hs, hagree⟩ := forall₂_index h.flip hi
        obtain ⟨r, hr, hissues⟩ := forall₂_index hanswers hs
        obtain ⟨js, hjs, hempty⟩ := hagree r hissues
        refine ⟨js, hjs, ?_⟩
        rw [hempty]
        cases r with
        | nil => exact absurd ⟨i, hr⟩ hmatch
        | cons j r => rfl

/-! ## Whole walks -/

section

variable {T : List Shape → Dispatch → Prop}

theorem forall₂_zip {α β γ : Type} {R : β → γ → Prop} {bs : List β} {cs : List γ} (h : List.Forall₂ R bs cs) (as : List α) :
    List.Forall₂ (fun e f => e.1 = f.1 ∧ R e.2 f.2) (as.zip bs) (as.zip cs) := by
  induction h generalizing as with
  | nil => simp
  | cons hbc _ ih =>
    cases as with
    | nil => exact .nil
    | cons a as => exact .cons ⟨rfl, hbc⟩ (ih as)

theorem forall₂_zipIdx {α β : Type} {R : α → β → Prop} {as : List α} {bs : List β} (h : List.Forall₂ R as bs) (k : Nat) :
    List.Forall₂ (fun e f => R e.1 f.1 ∧ e.2 = f.2) (as.zipIdx k) (bs.zipIdx k) := by
  induction h generalizing k with
  | nil => exact .nil
  | cons hab _ ih => exact .cons ⟨hab, rfl⟩ (ih (k + 1))

/-- members under the same keys -/
theorem forall₂_entries {R : Shape → Shape → Prop} {fs gs : List (String × Shape)} (hkeys : gs.map (·.1) = fs.map (·.1))
    (h : List.Forall₂ R (fs.map (·.2)) (gs.map (·.2))) : List.Forall₂ (fun e f => f.1 = e.1 ∧ R e.2 f.2) fs gs := by
  induction fs generalizing gs with
  | nil =>
    obtain rfl : gs = [] := by simpa using hkeys
    exact .nil
  | cons e fs ih =>
    cases gs with
    | nil => cases h
    | cons f gs =>
      obtain ⟨hkey, hkeys⟩ := List.cons.inj hkeys
      obtain _ | ⟨hef, h⟩ := h
      exact .cons ⟨hkey, hef⟩ (ih hkeys h)

/-- one step on shapes that differ in dispatch -/
theorem own_agree {fuel : Nat} (hcheck : ∀ {s t}, s.Dispatches (Sure ⟨p, coerce, words⟩) t → ∀ v a,
      Agree (issues ⟨p, coerce, words⟩ fuel s v a) (issues ⟨q, coerce, words⟩ fuel t v a))
    (htarget : ∀ n, Option.Rel (Shape.Dispatches (Sure ⟨p, coerce, words⟩)) (p.target? n) (q.target? n)) {s t : Shape}
    (h : s.Dispatches (Sure ⟨p, coerce, words⟩) t) (v : Value) (a : Pointer) :
    Agree (own ⟨p, coerce, words⟩ (issues ⟨p, coerce, words⟩ fuel) s v a)
      (own ⟨q, coerce, words⟩ (issues ⟨q, coerce, words⟩ fuel) t v a) := by
  cases h with
  | absent => exact Agree.rfl
  | any b => exact Agree.rfl
  | primitive b x => exact Agree.rfl
  | enum b vs => exact Agree.rfl
  | ref b name =>
    simp only [own]
    have h := htarget name
    cases hp : p.target? name with
    | none =>
      rw [hp] at h
      cases h' : q.target? name with
      | none => exact Agree.rfl
      | some t => rw [h'] at h; cases h
    | some s =>
      rw [hp] at h
      cases h' : q.target? name with
      | none => rw [h'] at h; cases h
      | some t =>
        rw [h'] at h
        cases h with
        | some hst => exact hcheck hst v a
  | array items =>
    cases v <;> try exact Agree.rfl
    rename_i xs
    simp only [own, items.isAbsent]
    split
    · exact Agree.rfl
    · exact concat_agree (.cons Agree.rfl (forall₂_map fun e _ => hcheck items e.1 _))
  | tuple positions rest =>
    cases v <;> try exact Agree.rfl
    rename_i xs
    simp only [own, rest.isAbsent, positions.length_eq]
    refine concat_agree (.cons Agree.rfl (List.rel_append ?_ ?_))
    · rw [List.forall₂_map_left_iff, List.forall₂_map_right_iff]
      refine (forall₂_zipIdx (forall₂_zip positions xs) 0).imp fun e f hef => ?_
      obtain ⟨⟨x, s⟩, i⟩ := e
      obtain ⟨⟨y, t⟩, j⟩ := f
      obtain ⟨⟨rfl, hst⟩, rfl⟩ := hef
      exact hcheck hst x _
    · split
      · exact .nil
      · exact forall₂_map fun e _ => hcheck rest e.1 _
  | object keys fields additional =>
    cases v <;> try exact Agree.rfl
    rename_i b x es gs e e' fs
    have hrequired : x.requiredKeys gs = x.requiredKeys es := by
      rw [ObjectPolicy.requiredKeys, ObjectPolicy.requiredKeys, keys]
    simp only [own, additional.isAbsent, keys, hrequired]
    refine concat_agree (.cons Agree.rfl (List.rel_append (List.rel_append ?_ ?_) (.cons Agree.rfl .nil)))
    · rw [List.forall₂_map_left_iff, List.forall₂_map_right_iff]
      refine (forall₂_entries keys fields).imp fun e f hef => ?_
      obtain ⟨k, s⟩ := e
      obtain ⟨k', t⟩ := f
      obtain ⟨rfl, hst⟩ := hef
      cases hget : Dict.get? fs k' with
      | none => exact Agree.rfl
      | some y => exact hcheck hst y _
    · split_ifs
      · exact .cons Agree.rfl .nil
      · exact forall₂_map fun e _ => hcheck additional e.2 _
      · exact .nil
  | oneOf variants dispatch =>
    simp only [own, if_true]
    split
    · refine oneOf_agree ?_
      rw [List.forall₂_map_left_iff, List.forall₂_map_right_iff]
      exact variants.imp fun s t hst => hcheck hst v a
    · rename_i hproperty
      exact select_agree (dispatch hproperty) (variants.imp fun s t hst => hcheck hst v a)
  | anyOf variants => exact anyOf_agree (variants.imp fun s t hst => hcheck hst v a)
  | allOf parts =>
    refine concat_agree ?_
    rw [List.forall₂_map_left_iff, List.forall₂_map_right_iff]
    exact parts.imp fun s t hst => hcheck hst v a

/-- **Walks agree.** -/
theorem issues_agree (htarget : ∀ n, Option.Rel (Shape.Dispatches (Sure ⟨p, coerce, words⟩)) (p.target? n) (q.target? n))
    (fuel : Nat) {s t : Shape} (h : s.Dispatches (Sure ⟨p, coerce, words⟩) t) (v : Value) (a : Pointer) :
    Agree (issues ⟨p, coerce, words⟩ fuel s v a) (issues ⟨q, coerce, words⟩ fuel t v a) := by
  induction fuel generalizing s t v a with
  | zero => exact fun is h => nomatch h
  | succ fuel ih =>
    rw [issues_succ, issues_succ, h.base]
    split
    · exact Agree.rfl
    · exact rules_agree (own_agree (fun hst v a => ih hst v a) htarget h v a)

end

end Check

end Schemata
