import Mathlib.Tactic
import Schemata.Yaml.Resolve

/-!
Documents whose reading ends.

An alias may name a node that it stands in, so documents are graphs, and following aliases need not come to an end. `Node.value`
stops at a depth; `Node.Opens` says which nodes the reading of a node comes to, those behind an error left out. Where it
comes from a node back to the same node, no depth is enough (`endless_of_circle`); where it never does, the nodes on the way down
are all different, so there are no more of them than `depthBound` allows (`circle_of_endless`).

Main result: `reading_ends`. The bound is met only where no bound would do, and that is where reading comes back to a node that it
is still reading. `read_alias_inside` is a text with such a document.
-/

namespace Schemata.Yaml

open Relation (ReflTransGen TransGen)

variable {α β : Type} {table : Array Node} {f f' : Node → Except StreamError Value} {n m : Node} {depth : Nat}

/-! ## Answers that do not change -/

/-- the second is the answer of the first, unless the first does not end -/
def Answers (x y : Except StreamError α) : Prop := x ≠ .error .endless → y = x

theorem answers_rfl {x : Except StreamError α} : Answers x x := fun _ => rfl

theorem answers_bind {x y : Except StreamError α} {k k' : α → Except StreamError β} (hx : Answers x y)
    (hk : ∀ a, Answers (k a) (k' a)) : Answers (x >>= k) (y >>= k') := by
  intro h
  cases x with
  | error e =>
    have hy : y = .error e := hx fun he => h (by cases he; rfl)
    rw [hy]
    rfl
  | ok a =>
    rw [hx (by simp)]
    exact hk a h

theorem bind_endless {x : Except StreamError α} {k : α → Except StreamError β} :
    (x >>= k) = .error .endless ↔ x = .error .endless ∨ ∃ a, x = .ok a ∧ k a = .error .endless := by
  cases x with
  | error e => simp [bind, Except.bind]
  | ok a => simp [bind, Except.bind]

/-! ## One level -/

/-- the data of a node, given the data of the nodes inside it -/
def Node.level (table : Array Node) (f : Node → Except StreamError Value) : Node → Except StreamError Value
  | .scalar _ tag style text => .ok (scalarValue tag style text)
  | .reference _ _ target =>
    match table[target]? with
    | some n => f n
    | none => .ok .null
  | .sequence _ items => do return .array (← items.mapM f)
  | .mapping _ entries => do return .ofEntries (← entriesOf f [] entries)

theorem value_succ (table : Array Node) (depth : Nat) (n : Node) :
    n.value table (depth + 1) = n.level table (Node.value table depth) := by
  cases n <;> rfl

theorem entriesOf_cons (f : Node → Except StreamError Value) (seen : List (String × Mark)) (k n : Node)
    (rest : List (Node × Node)) : entriesOf f seen ((k, n) :: rest) =
      match seen.find? (·.1 == k.keyText) with
      | some (_, first) => .error (.duplicate (duplicateAt k.keyText first k.mark))
      | none => f n >>= fun v => entriesOf f ((k.keyText, k.mark) :: seen) rest >>= fun vs => .ok ((k.keyText, v) :: vs) := rfl

theorem items_answers (h : ∀ n, Answers (f n) (f' n)) (ns : List Node) : Answers (ns.mapM f) (ns.mapM f') := by
  induction ns with
  | nil => exact answers_rfl
  | cons n ns ih =>
    rw [List.mapM_cons, List.mapM_cons]
    exact answers_bind (h n) fun v => answers_bind ih fun vs => answers_rfl

theorem entries_answers (h : ∀ n, Answers (f n) (f' n)) (es : List (Node × Node)) (seen : List (String × Mark)) :
    Answers (entriesOf f seen es) (entriesOf f' seen es) := by
  induction es generalizing seen with
  | nil => exact answers_rfl
  | cons e es ih =>
    rw [entriesOf_cons, entriesOf_cons]
    split
    · exact answers_rfl
    · exact answers_bind (h e.2) fun v => answers_bind (ih _) fun vs => answers_rfl

theorem level_answers (h : ∀ n, Answers (f n) (f' n)) (n : Node) : Answers (n.level table f) (n.level table f') := by
  cases n with
  | scalar m tag style text => exact answers_rfl
  | reference m name target =>
    simp only [Node.level]
    split
    · exact h _
    · exact answers_rfl
  | sequence m items => exact answers_bind (items_answers h items) fun vs => answers_rfl
  | mapping m entries => exact answers_bind (entries_answers h entries []) fun vs => answers_rfl

/-- an answer at one depth is the answer at every greater depth -/
theorem value_answers {d e : Nat} (h : d ≤ e) (n : Node) : Answers (n.value table d) (n.value table e) := by
  induction d generalizing e n with
  | zero => exact fun hne => absurd rfl hne
  | succ d ih =>
    obtain ⟨e, rfl⟩ : ∃ k, e = k + 1 := ⟨e - 1, by omega⟩
    rw [value_succ, value_succ]
    exact level_answers (fun n => ih (by omega) n) n

/-! ## What reading comes to -/

/-- reading the node gives data -/
def Node.HasData (table : Array Node) (n : Node) : Prop := ∃ depth v, n.value table depth = .ok v

/-- reading the first node comes to the second, inside it or behind it: all that is read before has data, and no key before stands
twice -/
inductive Node.Opens (table : Array Node) : Node → Node → Prop
  | target {mark : Mark} {name : String} {i : Nat} {n : Node} (h : table[i]? = some n) : Opens table (.reference mark name i) n
  | item {mark : Mark} {before after : List Node} {n : Node} (h : ∀ x ∈ before, x.HasData table) :
      Opens table (.sequence mark (before ++ n :: after)) n
  | entry {mark : Mark} {before after : List (Node × Node)} {k n : Node}
      (hkeys : ((before ++ [(k, n)]).map (·.1.keyText)).Nodup) (h : ∀ e ∈ before, e.2.HasData table) :
      Opens table (.mapping mark (before ++ (k, n) :: after)) n

/-- what does not end in a list is behind data -/
theorem items_endless {ns : List Node} (h : ns.mapM f = .error .endless) :
    ∃ before n after, ns = before ++ n :: after ∧ (∀ x ∈ before, ∃ v, f x = .ok v) ∧ f n = .error .endless := by
  induction ns with
  | nil => cases h
  | cons n ns ih =>
    rw [List.mapM_cons] at h
    obtain h | ⟨v, hv, h⟩ := bind_endless.1 h
    · exact ⟨[], n, ns, rfl, by simp, h⟩
    · obtain h | ⟨vs, -, h⟩ := bind_endless.1 h
      · obtain ⟨before, m, after, rfl, hbefore, hm⟩ := ih h
        exact ⟨n :: before, m, after, rfl, List.forall_mem_cons.2 ⟨⟨v, hv⟩, hbefore⟩, hm⟩
      · cases h

theorem key_new_iff {seen : List (String × Mark)} {key : String} :
    seen.find? (·.1 == key) = none ↔ key ∉ seen.map (·.1) := by
  rw [List.find?_eq_none, List.mem_map]
  constructor
  · rintro h ⟨s, hs, rfl⟩
    exact h s hs (beq_self_eq_true _)
  · intro h s hs heq
    exact h ⟨s, hs, eq_of_beq heq⟩

theorem entries_endless {es : List (Node × Node)} {seen : List (String × Mark)} (hseen : (seen.map (·.1)).Nodup)
    (h : entriesOf f seen es = .error .endless) :
    ∃ before k n after, es = before ++ (k, n) :: after ∧
      ((before ++ [(k, n)]).map (·.1.keyText) ++ seen.map (·.1)).Nodup ∧ (∀ e ∈ before, ∃ v, f e.2 = .ok v) ∧
      f n = .error .endless := by
  induction es generalizing seen with
  | nil => cases h
  | cons e es ih =>
    obtain ⟨k, n⟩ := e
    rw [entriesOf_cons] at h
    split at h
    · cases h
    next hnone =>
      have hnew := key_new_iff.1 hnone
      obtain h | ⟨v, hv, h⟩ := bind_endless.1 h
      · exact ⟨[], k, n, es, rfl, List.nodup_cons.2 ⟨hnew, hseen⟩, by simp, h⟩
      · obtain h | ⟨vs, -, h⟩ := bind_endless.1 h
        · have hseen' : (((k.keyText, k.mark) :: seen).map (·.1)).Nodup := List.nodup_cons.2 ⟨hnew, hseen⟩
          obtain ⟨before, l, m, after, rfl, hkeys, hbefore, hm⟩ := ih hseen' h
          exact ⟨(k, n) :: before, l, m, after, rfl, List.nodup_middle.1 hkeys,
            List.forall_mem_cons.2 ⟨⟨v, hv⟩, hbefore⟩, hm⟩
        · cases h

/-- data that is behind what does not end is not reached -/
theorem items_of_endless {before after : List Node} (hbefore : ∀ x ∈ before, (∃ v, f x = .ok v) ∨ f x = .error .endless)
    (hn : f n = .error .endless) : (before ++ n :: after).mapM f = .error .endless := by
  induction before with
  | nil => exact bind_endless.2 (.inl hn)
  | cons x before ih =>
    obtain ⟨hx, hbefore⟩ := List.forall_mem_cons.1 hbefore
    rw [List.cons_append, List.mapM_cons]
    obtain ⟨v, hv⟩ | hx := hx
    · exact bind_endless.2 (.inr ⟨v, hv, bind_endless.2 (.inl (ih hbefore))⟩)
    · exact bind_endless.2 (.inl hx)

theorem entries_of_endless {before after : List (Node × Node)} {k : Node} {seen : List (String × Mark)}
    (hkeys : ((before ++ [(k, n)]).map (·.1.keyText) ++ seen.map (·.1)).Nodup)
    (hbefore : ∀ e ∈ before, (∃ v, f e.2 = .ok v) ∨ f e.2 = .error .endless) (hn : f n = .error .endless) :
    entriesOf f seen (before ++ (k, n) :: after) = .error .endless := by
  induction before generalizing seen with
  | nil =>
    have hnone : seen.find? (·.1 == k.keyText) = none := key_new_iff.2 (List.nodup_cons.1 hkeys).1
    rw [List.nil_append, entriesOf_cons, hnone]
    exact bind_endless.2 (.inl hn)
  | cons e before ih =>
    obtain ⟨l, m⟩ := e
    obtain ⟨hm, hbefore⟩ := List.forall_mem_cons.1 hbefore
    have hnone : seen.find? (·.1 == l.keyText) = none :=
      key_new_iff.2 fun hl => (List.nodup_cons.1 hkeys).1 (List.mem_append_right _ hl)
    rw [List.cons_append, entriesOf_cons, hnone]
    obtain ⟨v, hv⟩ | hm := hm
    · exact bind_endless.2 (.inr ⟨v, hv, bind_endless.2 (.inl (ih (List.nodup_middle.2 hkeys) hbefore))⟩)
    · exact bind_endless.2 (.inl hm)

/-- what has data has it at every depth that is enough -/
theorem Node.HasData.ok_or_endless (h : n.HasData table) (depth : Nat) :
    (∃ v, n.value table depth = .ok v) ∨ n.value table depth = .error .endless := by
  obtain ⟨d, v, hv⟩ := h
  obtain hle | hle := le_total depth d
  · by_cases hend : n.value table depth = .error .endless
    · exact .inr hend
    · exact .inl ⟨v, (value_answers hle n hend).symm.trans hv⟩
  · exact .inl ⟨v, (value_answers hle n (by simp [hv])).trans hv⟩

/-- a node is not read to its end at a depth when one that its reading comes to is not at the depth below -/
theorem value_endless : n.value table (depth + 1) = .error .endless ↔
    ∃ m, n.Opens table m ∧ m.value table depth = .error .endless := by
  rw [value_succ]
  constructor
  · intro h
    cases n with
    | scalar mark tag style text => cases h
    | reference mark name target =>
      simp only [Node.level] at h
      split at h
      next m hm => exact ⟨m, .target hm, h⟩
      · cases h
    | sequence mark items =>
      obtain h | ⟨vs, -, h⟩ := bind_endless.1 h
      · obtain ⟨before, m, after, rfl, hbefore, hm⟩ := items_endless h
        exact ⟨m, .item fun x hx => ⟨depth, hbefore x hx⟩, hm⟩
      · cases h
    | mapping mark entries =>
      obtain h | ⟨vs, -, h⟩ := bind_endless.1 h
      · have hseen : (([] : List (String × Mark)).map (·.1)).Nodup := List.nodup_nil
        obtain ⟨before, k, m, after, rfl, hkeys, hbefore, hm⟩ := entries_endless hseen h
        exact ⟨m, .entry (by simpa using hkeys) fun e he => ⟨depth, hbefore e he⟩, hm⟩
      · cases h
  · rintro ⟨m, hopens, hm⟩
    cases hopens with
    | target h => simp only [Node.level, h, hm]
    | item h => exact bind_endless.2 (.inl (items_of_endless (fun x hx => (h x hx).ok_or_endless depth) hm))
    | entry hkeys h =>
      have hkeys' := hkeys
      rw [← List.append_nil (List.map _ _)] at hkeys'
      exact bind_endless.2 (.inl (entries_of_endless hkeys' (fun e he => (h e he).ok_or_endless depth) hm))

/-! ## Circles -/

theorem endless_of_circle (hn : ReflTransGen (Node.Opens table) n m) (hm : TransGen (Node.Opens table) m m) (depth : Nat) :
    n.value table depth = .error .endless := by
  induction depth generalizing n with
  | zero => rfl
  | succ depth ih =>
    -- the circle is still ahead one node further
    obtain ⟨c, hc, hcm⟩ : ∃ c, n.Opens table c ∧ ReflTransGen (Node.Opens table) c m := by
      obtain rfl | ⟨c, hc, hcm⟩ := hn.cases_head
      · exact TransGen.head'_iff.1 hm
      · exact ⟨c, hc, hcm⟩
    exact value_endless.2 ⟨c, hc, ih hcm⟩

/-- the nodes right inside a node whose data is read, keys left out -/
def Node.inside : Node → List Node
  | .sequence _ items => items
  | .mapping _ entries => entries.map (·.2)
  | _ => []

theorem countAll_values (es : List (Node × Node)) : countAll (es.map (·.2)) ≤ countEntries es := by
  induction es with
  | nil => exact le_rfl
  | cons e es ih =>
    rw [List.map_cons, countAll, countEntries]
    omega

theorem inside_count (n : Node) : countAll n.inside < n.count := by
  cases n with
  | scalar _ _ _ _ => exact Nat.one_pos
  | reference _ _ _ => exact Nat.one_pos
  | sequence _ items =>
    rw [Node.inside, Node.count]
    omega
  | mapping _ entries =>
    have := countAll_values entries
    rw [Node.inside, Node.count]
    omega

/-- nodes with all that is inside them are not more than is counted -/
theorem exists_inside (ns : List Node) :
    ∃ l, ns ⊆ l ∧ l.length ≤ countAll ns ∧ ∀ a ∈ l, a.inside ⊆ l := by
  induction h : countAll ns using Nat.strong_induction_on generalizing ns with
  | h k ih =>
    cases ns with
    | nil => exact ⟨[], by simp⟩
    | cons n ns =>
      rw [countAll] at h
      have hn := inside_count n
      obtain ⟨l, hl, hlength, hclosed⟩ := ih (countAll n.inside) (by omega) n.inside rfl
      obtain ⟨l', hl', hlength', hclosed'⟩ := ih (countAll ns) (by omega) ns rfl
      refine ⟨n :: (l ++ l'), ?_, ?_, ?_⟩
      · exact List.cons_subset_cons n (List.Subset.trans hl' (List.subset_append_right l l'))
      · rw [List.length_cons, List.length_append]
        omega
      · intro a ha
        apply List.Subset.trans _ (List.subset_cons_self n (l ++ l'))
        obtain rfl | ha := List.mem_cons.1 ha
        · exact List.Subset.trans hl (List.subset_append_left l l')
        · obtain ha | ha := List.mem_append.1 ha
          · exact List.Subset.trans (hclosed a ha) (List.subset_append_left l l')
          · exact List.Subset.trans (hclosed' a ha) (List.subset_append_right l l')

theorem Node.Opens.mem {l : List Node} (htable : table.toList ⊆ l) (hclosed : ∀ a ∈ l, a.inside ⊆ l) (h : n.Opens table m)
    (hn : n ∈ l) : m ∈ l := by
  cases h with
  | target h => exact htable (Array.mem_toList_iff.2 (Array.mem_of_getElem? h))
  | item h => exact hclosed _ hn (by simp [Node.inside])
  | entry hkeys h => exact hclosed _ hn (by simp [Node.inside])

/-- on a way of different nodes that is longer than there are nodes, one comes back -/
theorem circle_of_endless (h : n.value table (depthBound table n) = .error .endless) :
    ∃ m, ReflTransGen (Node.Opens table) n m ∧ TransGen (Node.Opens table) m m := by
  obtain ⟨l, hl, hlength, hclosed⟩ := exists_inside (n :: table.toList)
  obtain ⟨hnl, htable⟩ := List.cons_subset.1 hl
  have key (depth : Nat) : ∀ (seen : List Node) (a : Node), seen.Nodup → seen ⊆ l →
      (∀ b ∈ seen, TransGen (Node.Opens table) b a) → a ∈ l → ReflTransGen (Node.Opens table) n a →
      l.length < seen.length + depth → a.value table depth = .error .endless →
      ∃ m, ReflTransGen (Node.Opens table) n m ∧ TransGen (Node.Opens table) m m := by
    induction depth with
    | zero =>
      intro seen a hnodup hseen _ _ _ hmany _
      have := (hnodup.subperm hseen).length_le
      omega
    | succ depth ih =>
      intro seen a hnodup hseen hway ha hreach hmany hend
      by_cases hmem : a ∈ seen
      · exact ⟨a, hreach, hway a hmem⟩
      obtain ⟨c, hopens, hc⟩ := value_endless.1 hend
      apply ih (a :: seen) c (List.nodup_cons.2 ⟨hmem, hnodup⟩) (List.cons_subset.2 ⟨ha, hseen⟩) _
        (hopens.mem htable hclosed ha) (hreach.tail hopens) _ hc
      · intro b hb
        obtain rfl | hb := List.mem_cons.1 hb
        · exact .single hopens
        · exact (hway b hb).tail hopens
      · rw [List.length_cons]
        omega
  rw [countAll] at hlength
  refine key _ [] n List.nodup_nil (List.nil_subset l) (by simp) hnl .refl ?_ h
  rw [List.length_nil, depthBound]
  omega

/-- where the bound is not enough, no depth is -/
theorem endless_of_bound (h : n.value table (depthBound table n) = .error .endless) (depth : Nat) :
    n.value table depth = .error .endless := by
  obtain ⟨m, hn, hm⟩ := circle_of_endless h
  exact endless_of_circle hn hm depth

/-- no greater depth than the bound changes an answer, and the bound is met exactly when reading comes to a node and from there
back to it -/
theorem reading_ends (table : Array Node) (n : Node) :
    (∀ depth, depthBound table n ≤ depth → n.value table depth = n.value table (depthBound table n)) ∧
      (n.value table (depthBound table n) = .error .endless ↔
        ∃ m, ReflTransGen (Node.Opens table) n m ∧ TransGen (Node.Opens table) m m) := by
  refine ⟨fun depth hle => ?_, circle_of_endless, fun ⟨m, hn, hm⟩ => endless_of_circle hn hm _⟩
  by_cases hend : n.value table (depthBound table n) = .error .endless
  · rw [hend, endless_of_bound hend]
  · exact value_answers hle n hend

theorem endless_document {text : String}
    (h : (match Stream.ofText text with
      | .ok s => match nextDocument true s with
        | .ok (some n, s') => match n.value s'.table (depthBound s'.table n) with
          | .error .endless => true
          | _ => false
        | _ => false
      | _ => false) = true) :
    ∃ s n s', Stream.ofText text = .ok s ∧ nextDocument true s = .ok (some n, s') ∧
      ∀ depth, n.value s'.table depth = .error .endless := by
  split at h
  next s hs =>
    split at h
    next n s' hn =>
      split at h
      next hvalue => exact ⟨s, n, s', hs, hn, endless_of_bound hvalue⟩
      · cases h
    · cases h
  · cases h

/-- an alias inside the node that it names: no depth is enough -/
theorem read_alias_inside : ∃ s n s', Stream.ofText "a: &x [*x]" = .ok s ∧ nextDocument true s = .ok (some n, s') ∧
    ∀ depth, n.value s'.table depth = .error .endless :=
  endless_document (by decide +kernel)

end Schemata.Yaml
