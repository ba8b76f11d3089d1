import Mathlib.Tactic
import Schemata.Proofs.Graph.Judging
import Schemata.Proofs.Graph.Loading

/-!
Trails: runs of nodes with one child each.

Local chains of wrappers, whole chains and the path from a root all follow single children as long as the kind of the node
lets them pass. A trail that ends visits no node twice, so it is shorter than the graph has nodes (`Trail.length_lt`), and
the bounds of the walks along it are never met (`localChain_iff`). A whole chain has a guard against circles instead;
`mem_chain` says that it misses no wrapper for it.
-/

namespace Schemata.Graph

variable {g : Graph}

/-- different nodes are at most as many as the graph has -/
theorem length_le_size {ids : List Nat} (hnodup : ids.Nodup) (h : ∀ i ∈ ids, (g.get? i).isSome = true) :
    ids.length ≤ g.size := by
  have hsub : ids ⊆ List.range' 1 g.size := by
    intro i hi
    obtain ⟨n, hn⟩ := Option.isSome_iff_exists.1 (h i hi)
    exact get?_bounds hn
  simpa using (hnodup.subperm hsub).length_le

/-- induction along edges that run in no circle: one step more than there are nodes is enough -/
theorem acyclic_induction {R : Nat → Nat → Prop} (hcircle : ∀ a, ¬ Relation.TransGen R a a)
    (hnode : ∀ a c, R a c → (g.get? a).isSome = true) {motive : Nat → Nat → Prop}
    (hstep : ∀ k a, (∀ c, R a c → motive k c) → motive (k + 1) a) (a : Nat) : motive (g.size + 1) a := by
  -- the nodes passed are all different
  have key (k : Nat) : ∀ (seen : List Nat) (a : Nat), seen.Nodup →
      (∀ b ∈ seen, (g.get? b).isSome = true ∧ Relation.TransGen R b a) → g.size - seen.length + 1 ≤ k → motive k a := by
    induction k with
    | zero => omega
    | succ k ih =>
      intro seen a hnodup hseen hk
      apply hstep
      intro c hc
      have hnew : (a :: seen).Nodup := List.nodup_cons.2 ⟨fun ha => hcircle a (hseen a ha).2, hnodup⟩
      have hall : ∀ b ∈ a :: seen, (g.get? b).isSome = true := by
        rintro b (_ | ⟨_, hb⟩)
        · exact hnode a c hc
        · exact (hseen b hb).1
      have hlength := length_le_size hnew hall
      rw [List.length_cons] at hlength
      apply ih (a :: seen) c hnew
      · intro b hb
        refine ⟨hall b hb, ?_⟩
        rcases List.mem_cons.1 hb with rfl | hb
        · exact .single hc
        · exact (hseen b hb).2.tail hc
      · rw [List.length_cons]
        omega
  exact key _ [] a List.nodup_nil (by simp) (by simp)

/-! ## Trails -/

/-- the nodes, each with one child, that `through` lets pass, and the first node below them that it does not -/
inductive Trail (g : Graph) (through : Kind → Bool) : Nat → List Node → Node → Prop
  | here {a : Nat} {n : Node} (hn : g.get? a = some n) (hk : through n.kind = false) : Trail g through a [] n
  | step {a c : Nat} {n last : Node} {ns : List Node} (hn : g.get? a = some n) (hk : through n.kind = true)
      (hc : n.children = [c]) (h : Trail g through c ns last) : Trail g through a (n :: ns) last

variable {through : Kind → Bool} {a : Nat} {ns ms : List Node} {last last' : Node}

theorem Trail.isSome (h : Trail g through a ns last) : (g.get? a).isSome = true := by
  cases h with
  | here hn => rw [hn]; rfl
  | step hn => rw [hn]; rfl

theorem Trail.unique (h : Trail g through a ns last) (h' : Trail g through a ms last') : ns = ms ∧ last = last' := by
  induction h generalizing ms with
  | here hn hk =>
    cases h' with
    | here hm => exact ⟨rfl, Option.some.inj (hn.symm.trans hm)⟩
    | step hm hk' =>
      obtain rfl := Option.some.inj (hn.symm.trans hm)
      rw [hk] at hk'
      cases hk'
  | step hn hk hc _ ih =>
    cases h' with
    | here hm hk' =>
      obtain rfl := Option.some.inj (hn.symm.trans hm)
      rw [hk] at hk'
      cases hk'
    | step hm _ hc' h' =>
      obtain rfl := Option.some.inj (hn.symm.trans hm)
      obtain rfl : _ = _ := List.singleton_injective (hc.symm.trans hc')
      obtain ⟨rfl, rfl⟩ := ih h'
      exact ⟨rfl, rfl⟩

/-- from every node of a trail the trail goes on to the same end, and is no longer -/
theorem Trail.from (hg : g.Numbered) (h : Trail g through a ns last) {m : Node} (hm : m ∈ ns ++ [last]) :
    g.get? m.id = some m ∧ ∃ ms, Trail g through m.id ms last ∧ ms.length ≤ ns.length := by
  induction h with
  | @here a n hn hk =>
    obtain rfl : m = n := by simpa using hm
    rw [hg a m hn]
    exact ⟨hn, [], .here hn hk, le_rfl⟩
  | @step a c n last ns hn hk hc h ih =>
    rcases List.mem_cons.1 hm with rfl | hm
    · rw [hg a m hn]
      exact ⟨hn, m :: ns, .step hn hk hc h, le_rfl⟩
    · obtain ⟨hget, ms, hms, hle⟩ := ih hm
      exact ⟨hget, ms, hms, hle.trans (Nat.le_succ _)⟩

theorem Trail.stops (h : Trail g through a ns last) : through last.kind = false := by
  induction h with
  | here _ hk => exact hk
  | step _ _ _ _ ih => exact ih

/-- a trail goes on where it ends as a trail that lets more pass -/
theorem Trail.trans {through' : Kind → Bool} (hg : g.Numbered) (hle : ∀ k, through k = true → through' k = true)
    (h : Trail g through a ns last) (h' : Trail g through' last.id ms last') : Trail g through' a (ns ++ ms) last' := by
  induction h with
  | here hn =>
    rw [hg _ _ hn] at h'
    exact h'
  | step hn hk hc _ ih => exact .step hn (hle _ hk) hc (ih h')

/-- where a trail ends, so does one that lets less pass -/
theorem Trail.shorten {through' : Kind → Bool} (hle : ∀ k, through' k = true → through k = true)
    (h : Trail g through a ns last) : ∃ ms m, Trail g through' a ms m := by
  induction h with
  | @here a n hn hk => exact ⟨[], n, .here hn (by rw [← Bool.not_eq_true] at hk ⊢; exact fun h => hk (hle _ h))⟩
  | @step a c n last ns hn hk hc _ ih =>
    obtain ⟨ms, m, hm⟩ := ih
    cases hk' : through' n.kind with
    | true => exact ⟨n :: ms, m, .step hn hk' hc hm⟩
    | false => exact ⟨[], n, .here hn hk'⟩

theorem Trail.nodup (hg : g.Numbered) (h : Trail g through a ns last) : ((ns ++ [last]).map (·.id)).Nodup := by
  induction h with
  | here => simp
  | @step a c n last ns hn hk hc h ih =>
    rw [List.cons_append, List.map_cons, List.nodup_cons]
    refine ⟨fun hmem => ?_, ih⟩
    -- a node that came again would have two trails of different lengths
    obtain ⟨m, hm, hid⟩ := List.mem_map.1 hmem
    obtain ⟨-, ms, hms, hle⟩ := h.from hg hm
    rw [hid, hg a n hn] at hms
    obtain ⟨rfl, -⟩ := hms.unique (.step hn hk hc h)
    simp at hle

/-- **Trails are short.** -/
theorem Trail.length_lt (hg : g.Numbered) (h : Trail g through a ns last) : ns.length < g.size := by
  have hvalid : ∀ i ∈ (ns ++ [last]).map (·.id), (g.get? i).isSome = true := by
    intro i hi
    obtain ⟨m, hm, rfl⟩ := List.mem_map.1 hi
    rw [(h.from hg hm).1]
    rfl
  simpa using length_le_size (h.nodup hg) hvalid

/-! ## Local chains -/

/-- the wrappers of a local chain -/
def isLocal (k : Kind) : Bool := k.isWrapper && k != .ref

theorem ends_eq (k : Kind) : (!k.isWrapper || decide (k = .ref)) = !isLocal k := by cases k <;> rfl

theorem localChainFrom_of_trail (h : Trail g isLocal a ns last) {acc : List Node} {fuel : Nat} (hfuel : ns.length < fuel) :
    g.localChainFrom acc fuel a = (acc.reverse ++ ns, some last) := by
  induction h generalizing acc fuel with
  | here hn hk =>
    obtain ⟨fuel, rfl⟩ : ∃ k, fuel = k + 1 := ⟨fuel - 1, by omega⟩
    rw [localChainFrom, hn]
    simp [ends_eq, hk]
  | @step a c n last ns hn hk hc _ ih =>
    obtain ⟨fuel, rfl⟩ : ∃ k, fuel = k + 1 := ⟨fuel - 1, by omega⟩
    rw [localChainFrom, hn]
    simp only [ends_eq, hk, hc, Bool.not_true, Bool.false_eq_true, if_false]
    rw [ih (by simpa using hfuel)]
    simp

theorem trail_of_localChainFrom {acc : List Node} {fuel : Nat} (h : g.localChainFrom acc fuel a = (ms, some last)) :
    ∃ ns, ms = acc.reverse ++ ns ∧ Trail g isLocal a ns last := by
  induction fuel generalizing acc a with
  | zero => cases h
  | succ fuel ih =>
    rw [localChainFrom] at h
    cases hn : g.get? a with
    | none => rw [hn] at h; cases h
    | some n =>
      rw [hn] at h
      simp only [ends_eq] at h
      split at h
      · rename_i hk
        cases h
        exact ⟨[], by simp, .here hn (by simpa using hk)⟩
      · rename_i hk
        split at h
        · rename_i c hc
          obtain ⟨ns, rfl, htrail⟩ := ih h
          exact ⟨n :: ns, by simp, .step hn (by simpa using hk) hc htrail⟩
        · cases h

/-- **Local chains.** A local chain that ends is a trail, and its bound is never met. -/
theorem localChain_iff (hg : g.Numbered) : g.localChain a = (ns, some last) ↔ Trail g isLocal a ns last := by
  constructor
  · intro h
    obtain ⟨ms, rfl, htrail⟩ := trail_of_localChainFrom h
    simpa using htrail
  · intro h
    have := @localChainFrom_of_trail _ _ _ _ h [] (g.size + 1) (by have := h.length_lt hg; omega)
    simpa [localChain] using this

/-! ## Whole chains -/

/-- a wrapper on the chain of a node: a wrapper wraps one child, and references are followed -/
inductive OnChain (g : Graph) (m : Node) : Nat → Prop
  | here {a c : Nat} (hm : g.get? a = some m) (hk : m.kind.isWrapper = true) (hc : m.children = [c]) : OnChain g m a
  | step {a c : Nat} {n : Node} (hn : g.get? a = some n) (hk : n.kind.isWrapper = true) (hc : n.children = [c])
      (h : OnChain g m c) : OnChain g m a

theorem onChain_iff {m n : Node} {c : Nat} (hn : g.get? a = some n) (hk : n.kind.isWrapper = true) (hc : n.children = [c]) :
    OnChain g m a ↔ m = n ∨ OnChain g m c := by
  constructor
  · rintro (⟨hm, -, -⟩ | ⟨hn', -, hc', h⟩)
    · exact .inl (Option.some.inj (hm.symm.trans hn))
    · obtain rfl := Option.some.inj (hn.symm.trans hn')
      obtain rfl : _ = _ := List.singleton_injective (hc.symm.trans hc')
      exact .inr h
  · rintro (rfl | h)
    · exact .here hn hk hc
    · exact .step hn hk hc h

theorem not_onChain {m : Node} (h : ∀ n c, g.get? a = some n → n.kind.isWrapper = true → n.children ≠ [c]) :
    ¬ OnChain g m a := by
  rintro (⟨hn, hk, hc⟩ | ⟨hn, hk, hc, -⟩) <;> exact h _ _ hn hk hc

/-- the wrappers that a walk along a chain has passed: different nodes, each with its child among them or next -/
structure Passed (g : Graph) (acc : List Node) (a : Nat) : Prop where
  nodup : (acc.map (·.id)).Nodup
  found : ∀ n ∈ acc, g.get? n.id = some n
  next : ∀ n ∈ acc, ∃ c, n.children = [c] ∧ (c = a ∨ ∃ m ∈ acc, m.id = c)

variable {acc : List Node}

theorem Passed.length_le (h : Passed g acc a) : acc.length ≤ g.size := by
  have hvalid : ∀ i ∈ acc.map (·.id), (g.get? i).isSome = true := by
    intro i hi
    obtain ⟨n, hn, rfl⟩ := List.mem_map.1 hi
    rw [h.found n hn]
    rfl
  simpa using length_le_size h.nodup hvalid

theorem Passed.cons (hg : g.Numbered) (h : Passed g acc a) {n : Node} {c : Nat} (hn : g.get? a = some n)
    (hc : n.children = [c]) (hnew : ∀ m ∈ acc, m.id ≠ n.id) : Passed g (n :: acc) c := by
  constructor
  · rw [List.map_cons, List.nodup_cons]
    refine ⟨fun hmem => ?_, h.nodup⟩
    obtain ⟨m, hm, hid⟩ := List.mem_map.1 hmem
    exact hnew m hm hid
  · rintro m (_ | ⟨_, hm⟩)
    · rw [hg a n hn]
      exact hn
    · exact h.found m hm
  · rintro m (_ | ⟨_, hm⟩)
    · exact ⟨c, hc, .inl rfl⟩
    · obtain ⟨d, hd, rfl | ⟨k, hk, hkd⟩⟩ := h.next m hm
      · exact ⟨d, hd, .inr ⟨n, by simp, hg d n hn⟩⟩
      · exact ⟨d, hd, .inr ⟨k, List.mem_cons_of_mem n hk, hkd⟩⟩

/-- a walk that comes back to a wrapper has passed all wrappers of its chain -/
theorem Passed.all (h : Passed g acc a) (hback : ∃ n ∈ acc, n.id = a) {m : Node} {b : Nat} (hb : ∃ n ∈ acc, n.id = b)
    (hm : OnChain g m b) : m ∈ acc := by
  induction hm with
  | here hm =>
    obtain ⟨n, hn, rfl⟩ := hb
    rw [h.found n hn] at hm
    cases hm
    exact hn
  | step hn' _ hc _ ih =>
    obtain ⟨n, hn, rfl⟩ := hb
    obtain rfl := Option.some.inj ((h.found n hn).symm.trans hn')
    obtain ⟨d, hd, hnext⟩ := h.next n hn
    obtain rfl : _ = _ := List.singleton_injective (hc.symm.trans hd)
    rcases hnext with rfl | hnext
    · exact ih hback
    · exact ih hnext

theorem mem_chainFrom (hg : g.Numbered) {fuel : Nat} (h : Passed g acc a) (hfuel : g.size < acc.length + fuel) {m : Node} :
    m ∈ (g.chainFrom acc fuel (some a)).1 ↔ m ∈ acc ∨ OnChain g m a := by
  induction fuel generalizing acc a with
  | zero =>
    have := h.length_le
    omega
  | succ fuel ih =>
    have hstop (hno : ¬ OnChain g m a) : m ∈ acc.reverse ↔ m ∈ acc ∨ OnChain g m a := by simp [hno]
    rw [chainFrom, Option.bind_some]
    cases hn : g.get? a with
    | none => exact hstop (not_onChain fun n c hn' => by rw [hn] at hn'; cases hn')
    | some n =>
      simp only
      split
      · rename_i hk
        refine hstop (not_onChain fun n' c hn' hk' => ?_)
        cases hn.symm.trans hn'
        simp [hk'] at hk
      · rename_i hk
        have hk : n.kind.isWrapper = true := by simpa using hk
        split
        · rename_i c hc
          split
          · rename_i hback
            -- back at a wrapper that was passed before
            obtain ⟨k, hkmem, hid⟩ := List.any_eq_true.1 hback
            have hk' : ∃ k ∈ acc, k.id = a := ⟨k, hkmem, by rw [← hg a n hn]; simpa using hid⟩
            rw [List.mem_reverse, iff_self_or]
            exact h.all hk' hk'
          · rename_i hnew
            have hnew : ∀ k ∈ acc, k.id ≠ n.id := by simpa using hnew
            rw [ih (h.cons hg hn hc hnew) (by rw [List.length_cons]; omega), onChain_iff hn hk hc, List.mem_cons]
            tauto
        · rename_i hc
          refine hstop (not_onChain fun n' c hn' _ hc' => ?_)
          cases hn.symm.trans hn'
          exact hc c hc'

/-- the bound of a walk along a chain is not met: the guard against circles ends it before -/
theorem chainFrom_more (hg : g.Numbered) {fuel : Nat} (h : Passed g acc a) (hfuel : g.size < acc.length + fuel) {more : Nat}
    (hmore : fuel ≤ more) : g.chainFrom acc more (some a) = g.chainFrom acc fuel (some a) := by
  induction fuel generalizing acc a more with
  | zero =>
    have := h.length_le
    omega
  | succ fuel ih =>
    obtain ⟨more, rfl⟩ : ∃ k, more = k + 1 := ⟨more - 1, by omega⟩
    rw [chainFrom, chainFrom, Option.bind_some]
    cases hn : g.get? a with
    | none => rfl
    | some n =>
      simp only
      split
      · rfl
      · split
        · rename_i c hc
          split
          · rfl
          · rename_i hnew
            have hnew : ∀ k ∈ acc, k.id ≠ n.id := by simpa using hnew
            exact ih (h.cons hg hn hc hnew) (by rw [List.length_cons]; omega) (by omega)
        · rfl

theorem passed_nil (g : Graph) (a : Nat) : Passed g [] a := ⟨by simp, by simp, by simp⟩

/-- **Whole chains.** The guard against circles loses no wrapper. -/
theorem mem_chain (hg : g.Numbered) {m : Node} : m ∈ (g.chain a).1 ↔ OnChain g m a := by
  simpa [chain] using @mem_chainFrom g a [] hg (g.size + 2) (passed_nil g a) (by simp) m

theorem isOptional_iff (hg : g.Numbered) : g.isOptional a = true ↔ ∃ m, OnChain g m a ∧ m.kind = .optional := by
  simp only [isOptional, chainHas, List.any_eq_true, mem_chain hg, decide_eq_true_eq]

end Schemata.Graph
