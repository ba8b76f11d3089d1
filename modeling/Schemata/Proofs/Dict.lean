import Mathlib.Data.String.Basic
import Mathlib.Tactic
import Schemata.Dict

/-!
Laws of dictionaries.
-/

namespace Schemata

theorem mem_insert_keys {α : Type} (d : Dict α) (k : String) (v : α) (x : String) :
    x ∈ Dict.keys (Dict.insert d k v) ↔ x = k ∨ x ∈ Dict.keys d := by
  induction d with
  | nil => simp [Dict.insert, Dict.keys]
  | cons e d ih =>
    obtain ⟨l, w⟩ := e
    simp only [Dict.insert]
    split
    · simp [Dict.keys]
    · split
      · rename_i h
        simp [Dict.keys, h]
      · have := ih
        simp only [Dict.keys, List.map_cons, List.mem_cons] at this ⊢
        rw [this]
        tauto

/-- the entry of a key that has one value only -/
theorem find?_key {α β : Type} [DecidableEq α] {l : List (α × β)} {k : α} {v : β} (hv : (k, v) ∈ l)
    (huniq : ∀ w, (k, w) ∈ l → w = v) : l.find? (·.1 == k) = some (k, v) := by
  cases hf : l.find? (·.1 == k) with
  | none => exact absurd (List.find?_eq_none.1 hf _ hv) (by simp)
  | some e =>
    obtain ⟨k', w⟩ := e
    obtain rfl : k' = k := by simpa using List.find?_some hf
    rw [huniq w (List.mem_of_find?_eq_some hf)]

theorem mem_sortedSet {xs : List String} {x : String} : x ∈ sortedSet xs ↔ x ∈ xs := by
  have key (d : Dict Unit) : x ∈ Dict.keys ((xs.map fun x => (x, ())).foldl (fun d e => Dict.insert d e.1 e.2) d) ↔
      x ∈ xs ∨ x ∈ Dict.keys d := by
    induction xs generalizing d with
    | nil => simp
    | cons y ys ih =>
      simp only [List.map_cons, List.foldl_cons, ih, mem_insert_keys, List.mem_cons]
      tauto
  simpa [sortedSet, Dict.ofList, Dict.keys] using key []

namespace Dict

variable {α β : Type}

theorem mem_insert {d : Dict α} {k : String} {v : α} {e : String × α} (h : e ∈ insert d k v) : e = (k, v) ∨ e ∈ d := by
  induction d with
  | nil => simpa [insert] using h
  | cons e' d ih =>
    rw [insert] at h
    split at h
    · exact List.mem_cons.1 h
    · split at h
      · rcases List.mem_cons.1 h with h | h
        · exact .inl h
        · exact .inr (List.mem_cons_of_mem _ h)
      · rcases List.mem_cons.1 h with rfl | h
        · exact .inr (by simp)
        · exact (ih h).imp id (List.mem_cons_of_mem _)

theorem mem_foldl_insert {l : List (String × α)} {d : Dict α} {e : String × α}
    (h : e ∈ l.foldl (fun d e => insert d e.1 e.2) d) : e ∈ l ∨ e ∈ d := by
  induction l generalizing d with
  | nil => exact .inr h
  | cons a l ih =>
    rcases ih h with h | h
    · exact .inl (List.mem_cons_of_mem a h)
    · exact (mem_insert h).imp (fun h => by rw [h]; simp) id

theorem mem_ofList {l : List (String × α)} {e : String × α} (h : e ∈ ofList l) : e ∈ l :=
  (mem_foldl_insert h).resolve_right (by simp)

/-- entries are put in order by their keys alone -/
theorem insert_map (f : String × α → β) (d : Dict α) (k : String) (v : α) :
    insert (d.map fun e => (e.1, f e)) k (f (k, v)) = (insert d k v).map fun e => (e.1, f e) := by
  induction d with
  | nil => rfl
  | cons e d ih =>
    simp only [List.map_cons, insert]
    split
    · rfl
    · split
      · rfl
      · rw [ih, List.map_cons]

theorem ofList_map (f : String × α → β) (l : List (String × α)) :
    ofList (l.map fun e => (e.1, f e)) = (ofList l).map fun e => (e.1, f e) := by
  have key (d : Dict α) : (l.map fun e => (e.1, f e)).foldl (fun d e => insert d e.1 e.2) (d.map fun e => (e.1, f e)) =
      (l.foldl (fun d e => insert d e.1 e.2) d).map fun e => (e.1, f e) := by
    induction l generalizing d with
    | nil => rfl
    | cons e l ih =>
      simp only [List.map_cons, List.foldl_cons]
      rw [insert_map f d e.1 e.2, ih]
  exact key []

/-! ## Look-ups -/

/-- what is looked up stands among the entries -/
theorem mem_of_get? {d : Dict α} {k : String} {x : α} (h : get? d k = some x) : (k, x) ∈ d := by
  obtain ⟨e, he, rfl⟩ := Option.map_eq_some_iff.1 h
  have hk := List.find?_some he
  obtain rfl : e.1 = k := by simpa using hk
  exact List.mem_of_find?_eq_some he

theorem get?_cons (e : String × α) (d : Dict α) (x : String) :
    get? (e :: d) x = if e.1 = x then some e.2 else get? d x := by
  by_cases h : e.1 = x <;> simp [get?, h]

theorem get?_insert (d : Dict α) (k : String) (v : α) (x : String) :
    get? (insert d k v) x = if k = x then some v else get? d x := by
  induction d with
  | nil => simp [insert, get?_cons]
  | cons e d ih =>
    obtain ⟨l, w⟩ := e
    rw [insert]
    split
    · exact get?_cons _ _ _
    · split
      · rename_i h
        subst h
        by_cases hx : k = x <;> simp [get?_cons, hx]
      · rename_i hne
        rw [get?_cons, ih, get?_cons]
        by_cases hl : l = x
        · have : k ≠ x := by rintro rfl; exact hne hl.symm
          simp [hl, this]
        · simp [hl]

theorem get?_append (l m : List (String × α)) (x : String) :
    get? (l ++ m) x = (get? l x).orElse fun _ => get? m x := by
  simp only [get?, List.find?_append]
  cases List.find? (fun e => e.1 == x) l <;> simp

theorem get?_foldl_insert (l : List (String × α)) (d : Dict α) (x : String) :
    get? (l.foldl (fun d e => insert d e.1 e.2) d) x = (get? l.reverse x).orElse fun _ => get? d x := by
  induction l generalizing d with
  | nil => rfl
  | cons e l ih =>
    rw [List.foldl_cons, ih, get?_insert, List.reverse_cons]
    rw [get?_append, get?_cons]
    by_cases he : e.1 = x <;> cases get? l.reverse x <;> simp [he, get?]

theorem get?_ofList (l : List (String × α)) (x : String) : get? (ofList l) x = get? l.reverse x := by
  rw [ofList, get?_foldl_insert]
  cases get? l.reverse x <;> rfl

theorem get?_eq_some {l : List (String × α)} (h : (l.map (·.1)).Nodup) {x : String} {v : α} :
    get? l x = some v ↔ (x, v) ∈ l := by
  constructor
  · intro hg
    obtain ⟨e, he, rfl⟩ := Option.map_eq_some_iff.1 hg
    have hx := List.find?_some he
    simp only [beq_iff_eq] at hx
    subst hx
    exact List.mem_of_find?_eq_some he
  · intro hm
    induction l with
    | nil => cases hm
    | cons e l ih =>
      rw [List.map_cons, List.nodup_cons] at h
      rw [get?_cons]
      rcases List.mem_cons.1 hm with rfl | hm
      · simp
      · have : e.1 ≠ x := by
          rintro rfl
          exact h.1 (List.mem_map_of_mem (f := (·.1)) hm)
        rw [if_neg this, ih h.2 hm]

theorem get?_isSome_iff {l : List (String × α)} {x : String} : (get? l x).isSome ↔ x ∈ l.map (·.1) := by
  simp [get?, List.find?_isSome]

theorem get?_eq_none_iff {l : List (String × α)} {x : String} : get? l x = none ↔ x ∉ l.map (·.1) := by
  rw [← get?_isSome_iff, Bool.not_eq_true, Option.isSome_eq_false_iff, Option.isNone_iff_eq_none]

theorem get?_reverse {l : List (String × α)} (h : (l.map (·.1)).Nodup) (x : String) : get? l.reverse x = get? l x := by
  have hr : (l.reverse.map (·.1)).Nodup := by rwa [List.map_reverse, List.nodup_reverse]
  refine Option.ext fun v => ?_
  rw [get?_eq_some hr, get?_eq_some h, List.mem_reverse]

theorem get?_filter (l : List (String × α)) (P : String → Bool) (x : String) :
    get? (l.filter fun e => P e.1) x = if P x then get? l x else none := by
  induction l with
  | nil => simp [get?]
  | cons e l ih =>
    by_cases he : P e.1 = true
    · rw [List.filter_cons_of_pos (by simpa using he), get?_cons, get?_cons, ih]
      by_cases hx : e.1 = x
      · subst hx
        simp [he]
      · simp [hx]
    · rw [List.filter_cons_of_neg (by simpa using he), ih, get?_cons]
      by_cases hx : e.1 = x
      · subst hx
        simp [he]
      · simp [hx]

theorem get?_keyed (l : List String) (f : String → α) (x : String) :
    get? (l.map fun k => (k, f k)) x = if x ∈ l then some (f x) else none := by
  induction l with
  | nil => rfl
  | cons k l ih =>
    rw [List.map_cons, get?_cons, ih]
    by_cases hk : k = x
    · simp [hk]
    · have hne : ¬ x = k := fun h => hk h.symm
      simp [hk, hne]

/-- entries that never disagree are all kept -/
theorem get?_ofList_eq_some {l : List (String × α)} (h : ∀ k v w, (k, v) ∈ l → (k, w) ∈ l → v = w) {k : String}
    {v : α} : get? (ofList l) k = some v ↔ (k, v) ∈ l := by
  rw [get?_ofList, ← List.mem_reverse]
  constructor
  · intro hget
    obtain ⟨⟨k', w⟩, hf, rfl⟩ := Option.map_eq_some_iff.1 hget
    obtain rfl : k' = k := by simpa using List.find?_some hf
    exact List.mem_of_find?_eq_some hf
  · intro hmem
    have huniq : ∀ w, (k, w) ∈ l.reverse → w = v := fun w hw => h k w v (List.mem_reverse.1 hw) (List.mem_reverse.1 hmem)
    rw [get?, find?_key hmem huniq, Option.map_some]

theorem mem_keys_ofList {l : List (String × α)} {x : String} : x ∈ (ofList l).map (·.1) ↔ x ∈ l.map (·.1) := by
  rw [← get?_isSome_iff, get?_ofList, get?_isSome_iff, List.map_reverse, List.mem_reverse]

/-! ## Order -/

/-- strictly increasing keys -/
def Sorted (d : Dict α) : Prop := d.Pairwise fun a b => a.1 < b.1

theorem Sorted.nodup {d : Dict α} (h : Sorted d) : (d.map (·.1)).Nodup := by
  rw [List.Nodup, List.pairwise_map]
  exact h.imp fun hlt => ne_of_lt hlt

theorem sorted_insert {d : Dict α} (h : Sorted d) (k : String) (v : α) : Sorted (insert d k v) := by
  induction d with
  | nil => exact List.pairwise_singleton _ _
  | cons e d ih =>
    obtain ⟨l, w⟩ := e
    obtain ⟨hl, hd⟩ := List.pairwise_cons.1 h
    rw [insert]
    split
    · rename_i hlt
      exact List.pairwise_cons.2 ⟨fun e he => (List.mem_cons.1 he).elim (fun h => h ▸ hlt)
        fun he => lt_trans hlt (hl e he), h⟩
    · split
      · rename_i heq
        exact List.pairwise_cons.2 ⟨fun e he => heq ▸ hl e he, hd⟩
      · rename_i hlt hne
        refine List.pairwise_cons.2 ⟨fun e he => ?_, ih hd⟩
        rcases mem_insert he with rfl | he
        · exact lt_of_le_of_ne (not_lt.1 hlt) fun h => hne h.symm
        · exact hl e he

theorem sorted_foldl_insert (l : List (String × α)) {d : Dict α} (h : Sorted d) :
    Sorted (l.foldl (fun d e => insert d e.1 e.2) d) := by
  induction l generalizing d with
  | nil => exact h
  | cons e l ih => exact ih (sorted_insert h e.1 e.2)

theorem sorted_ofList (l : List (String × α)) : Sorted (ofList l) := sorted_foldl_insert l List.Pairwise.nil

/-- two dictionaries with the same look-ups are the same list -/
theorem Sorted.ext {d d' : Dict α} (h : Sorted d) (h' : Sorted d') (hget : ∀ x, get? d x = get? d' x) : d = d' := by
  have hmem (e : String × α) : e ∈ d ↔ e ∈ d' := by
    obtain ⟨x, v⟩ := e
    rw [← get?_eq_some h.nodup, ← get?_eq_some h'.nodup, hget]
  have hnodup {d : Dict α} (h : Sorted d) : d.Nodup := h.nodup.of_map _
  refine List.Perm.eq_of_pairwise ?_ h h' ((List.perm_ext_iff_of_nodup (hnodup h) (hnodup h')).2 hmem)
  intro a b _ _ hab hba
  exact absurd hab (lt_asymm hba)

theorem ofList_of_sorted {d : Dict α} (h : Sorted d) : ofList d = d :=
  (sorted_ofList d).ext h fun x => by rw [get?_ofList, get?_reverse h.nodup]

/-- of the entries of two lists, those whose keys belong to the first -/
theorem filter_ofList_append {l m : List (String × α)} {P : String → Bool} (hl : ∀ e ∈ l, P e.1 = true)
    (hm : ∀ e ∈ m, P e.1 = false) : ((ofList (l ++ m)).filter fun e => P e.1) = ofList l := by
  refine Sorted.ext ((sorted_ofList _).sublist List.filter_sublist) (sorted_ofList l) fun x => ?_
  have hnone {k : List (String × α)} (hk : x ∉ k.map (·.1)) : get? k.reverse x = none := by
    rw [get?_eq_none_iff, List.map_reverse, List.mem_reverse]
    exact hk
  rw [get?_filter, get?_ofList, get?_ofList, List.reverse_append, get?_append]
  cases hx : P x with
  | true =>
    rw [hnone (k := m) fun hmem => ?_]
    · rfl
    · obtain ⟨e, he, rfl⟩ := List.mem_map.1 hmem
      rw [hm e he] at hx
      cases hx
  | false =>
    rw [hnone (k := l) fun hmem => ?_]
    · rfl
    · obtain ⟨e, he, rfl⟩ := List.mem_map.1 hmem
      rw [hl e he] at hx
      cases hx

end Dict

theorem sortedSet_congr {xs ys : List String} (h : ∀ x, x ∈ xs ↔ x ∈ ys) : sortedSet xs = sortedSet ys := by
  have hdict : Dict.ofList (xs.map fun x => (x, ())) = Dict.ofList (ys.map fun y => (y, ())) := by
    refine (Dict.sorted_ofList _).ext (Dict.sorted_ofList _) fun x => ?_
    rw [Dict.get?_ofList, Dict.get?_ofList, ← List.map_reverse, ← List.map_reverse, Dict.get?_keyed, Dict.get?_keyed]
    simp only [List.mem_reverse, h]
  rw [sortedSet, hdict, sortedSet]

end Schemata
