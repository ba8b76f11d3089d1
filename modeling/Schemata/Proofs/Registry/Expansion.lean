import Mathlib.Data.List.MinMax
import Mathlib.Tactic
import Schemata.Proofs.Registry.Assigned
import Schemata.Proofs.Registry.Resolution

/-!
Resolving as expansion.

Passes work on the whole text, while names lead to names token by token. The two agree on neat texts, where every opening
brace belongs to a token: there a pass works part by part and puts neat values in (`fill_append`, `neat_fill`), so `n`
passes take away exactly the tokens of level `n` and less (`tokensOf_passes`) and expand the text (`expands_passes`).

Names and links are neat, whatever was declared and linked (`Unnamed.neat_nameOf`). So resolving gives the full
expansion, or fails because some token has no level or one that is too high (`resolve_expands`). Only the path of a file
can bring in a loose brace, and then two values side by side may make a token that neither holds (`resolve_joined`).
-/

namespace Schemata.Placeholder

open Registry (pieces_flatMap pieces_token)

/-! ## Neat texts -/

/-- the characters of a text that belong to no token -/
def outside (cs : List Char) : List Char :=
  (pieces [] 0 cs).flatMap fun
    | .words w => w.toList
    | .token _ _ => []

theorem outside_cons {c : Char} {cs : List Char} (h : scan? (c :: cs) = none) : outside (c :: cs) = c :: outside cs := by
  rw [outside, pieces]
  simp only [h]
  rw [pieces_flatMap _ fun _ => rfl]
  rfl

theorem outside_token {ds attr : List Char} (h : IsToken ds attr) (rest : List Char) :
    outside (tokenChars ds attr ++ rest) = outside rest := by
  rw [outside, pieces_token h, List.flatMap_cons]
  rfl

/-- a text of tokens and of characters other than the opening brace -/
inductive Neat : List Char → Prop where
  | nil : Neat []
  | char {c : Char} {cs : List Char} (hc : c ≠ '{') (h : Neat cs) : Neat (c :: cs)
  | token {ds attr cs : List Char} (ht : IsToken ds attr) (h : Neat cs) : Neat (tokenChars ds attr ++ cs)

theorem neat_of_outside {cs : List Char} (h : '{' ∉ outside cs) : Neat cs := by
  induction hn : cs.length using Nat.strong_induction_on generalizing cs with
  | _ n ih =>
    subst hn
    cases hs : scan? cs with
    | some t =>
      obtain ⟨ds, attr, rest⟩ := t
      obtain ⟨rfl, htok⟩ := scan?_eq_some hs
      have hlen : rest.length < (tokenChars ds attr ++ rest).length := by
        simp only [tokenChars, List.length_append, List.length_cons]
        omega
      rw [outside_token htok] at h
      exact .token htok (ih rest.length hlen h rfl)
    | none =>
      cases cs with
      | nil => exact .nil
      | cons c cs =>
        rw [outside_cons hs, List.mem_cons, not_or] at h
        exact .char (Ne.symm h.1) (ih cs.length (by simp) h.2 rfl)

theorem Neat.append {xs ys : List Char} (hx : Neat xs) (hy : Neat ys) : Neat (xs ++ ys) := by
  induction hx with
  | nil => exact hy
  | char hc _ ih => exact .char hc ih
  | token ht _ ih =>
    rw [List.append_assoc]
    exact .token ht ih

theorem neat_of_ne {cs : List Char} (h : ∀ c ∈ cs, c ≠ '{') : Neat cs := by
  induction cs with
  | nil => exact .nil
  | cons c cs ih => exact .char (h c (by simp)) (ih fun d hd => h d (List.mem_cons_of_mem c hd))

theorem neat_of_isName {s : String} (h : IsName s) : Neat s.toList :=
  neat_of_ne fun c hc => (safeChar_iff.1 (h.safe c hc)).1

theorem neat_token {ds attr : List Char} (h : IsToken ds attr) : Neat (tokenChars ds attr) := by
  simpa using Neat.token h .nil

/-- the text of a token tells which node and which attribute it names -/
theorem mem_pieces_token {acc cs : List Char} {skip : Nat} {t : String} {p : Option Placeholder}
    (h : .token t p ∈ pieces acc skip cs) :
    ∃ ds attr, IsToken ds attr ∧ t = String.ofList (tokenChars ds attr) ∧
      p = (idOf? ds).map fun n => ⟨n, String.ofList attr⟩ := by
  have hwords (acc : List Char) : .token t p ∉ (if acc.isEmpty then [] else [Piece.words (String.ofList acc.reverse)]) := by
    split <;> simp
  induction cs generalizing acc skip with
  | nil => exact absurd h (hwords acc)
  | cons c cs ih =>
    cases skip with
    | succ skip => exact ih h
    | zero =>
      rw [pieces] at h
      cases hs : scan? (c :: cs) with
      | none =>
        simp only [hs] at h
        exact ih h
      | some found =>
        obtain ⟨ds, attr, rest⟩ := found
        obtain ⟨heq, htok⟩ := scan?_eq_some hs
        have hwhole : (c :: cs).take ((c :: cs).length - rest.length) = tokenChars ds attr := by
          rw [heq, List.length_append, Nat.add_sub_cancel, List.take_left]
        simp only [hs, hwhole] at h
        rcases List.mem_append.1 h with h | h
        · exact absurd h (hwords acc)
        · rcases List.mem_cons.1 h with h | h
          · obtain ⟨rfl, rfl⟩ := Piece.token.inj h
            exact ⟨ds, attr, htok, rfl, rfl⟩
          · exact ih h

theorem token_eq {cs ds : List Char} {t : String} {p q : Option Placeholder} (hp : .token t p ∈ pieces [] 0 cs)
    (hq : .token t q ∈ pieces [] 0 ds) : p = q := by
  obtain ⟨ds, attr, hds, rfl, rfl⟩ := mem_pieces_token hp
  obtain ⟨ds', attr', hds', heq, rfl⟩ := mem_pieces_token hq
  have hscan := scan?_token hds []
  rw [String.ofList_injective heq, scan?_token hds' []] at hscan
  simp only [Option.some.injEq, Prod.mk.injEq, and_true] at hscan
  rw [hscan.1, hscan.2]

/-- a sanitized link is neat: its tokens stay, and the words between them become identifiers -/
theorem neat_sanitizeLink (s : String) : Neat (sanitizeLink s).toList := by
  have key (ps : List Piece) (first : Bool) (h : ∀ t p, .token t p ∈ ps → Neat t.toList) :
      Neat (String.join (sanitizeLink.go first ps)).toList := by
    induction ps generalizing first with
    | nil => exact .nil
    | cons p ps ih =>
      have hrest := ih false fun t p hp => h t p (List.mem_cons_of_mem _ hp)
      rw [String.toList_join] at hrest ⊢
      cases p with
      | words w =>
        refine Neat.append (neat_of_ne fun c hc => ?_) hrest
        have hsafe : safeChar c = true := by
          cases first with
          | true => exact safe_sanitize w c hc
          | false => exact safe_identChars false false w.toList c (by simpa using hc)
        exact (safeChar_iff.1 hsafe).1
      | token t p => exact (h t p (by simp)).append hrest
  refine key _ true fun t p hp => ?_
  obtain ⟨ds, attr, htok, rfl, -⟩ := mem_pieces_token hp
  rw [String.toList_ofList]
  exact neat_token htok

end Schemata.Placeholder

namespace Schemata.Registry

open Placeholder

variable {r : Registry}

/-! ## Passes over neat texts -/

theorem fill_append (r : Registry) {xs : List Char} (hx : Neat xs) (ys : List Char) :
    r.fill (xs ++ ys) = r.fill xs ++ r.fill ys := by
  induction hx with
  | nil => rfl
  | char hc _ ih =>
    rw [List.cons_append, fill_cons r (scan?_of_ne hc _), fill_cons r (scan?_of_ne hc _), ih, List.cons_append]
  | token ht _ ih => rw [List.append_assoc, fill_token r ht, fill_token r ht, ih, List.append_assoc]

theorem tokensOf_append {xs : List Char} (hx : Neat xs) (ys : List Char) :
    tokensOf (xs ++ ys) = tokensOf xs ++ tokensOf ys := by
  induction hx with
  | nil => rfl
  | char hc _ ih => rw [List.cons_append, tokensOf_cons (scan?_of_ne hc _), tokensOf_cons (scan?_of_ne hc _), ih]
  | token ht _ ih => rw [List.append_assoc, tokensOf_token ht, tokensOf_token ht, ih, List.cons_append]

/-- what stands for a token after a pass is its value, or the token itself when it has none -/
theorem tokenValue_cases (r : Registry) (ds attr : List Char) :
    (∃ v, r.valueOf? ((idOf? ds).map fun n => ⟨n, String.ofList attr⟩) = some v ∧ r.tokenValue ds attr = v.toList) ∨
      r.valueOf? ((idOf? ds).map fun n => ⟨n, String.ofList attr⟩) = none ∧
        r.tokenValue ds attr = tokenChars ds attr := by
  unfold tokenValue
  cases hv : r.valueOf? ((idOf? ds).map fun n => ⟨n, String.ofList attr⟩) with
  | none => exact .inr ⟨rfl, by simp⟩
  | some v => exact .inl ⟨v, rfl, rfl⟩

theorem neat_fill {cs : List Char} (h : Neat cs) (hv : ∀ q ∈ tokensOf cs, ∀ v, r.valueOf? q = some v → Neat v.toList) :
    Neat (r.fill cs) := by
  induction h with
  | nil => exact .nil
  | char hc _ ih =>
    rw [tokensOf_cons (scan?_of_ne hc _)] at hv
    rw [fill_cons r (scan?_of_ne hc _)]
    exact .char hc (ih hv)
  | @token ds attr cs ht _ ih =>
    rw [tokensOf_token ht] at hv
    have hrest := ih fun q hq => hv q (List.mem_cons_of_mem _ hq)
    rw [fill_token r ht]
    rcases r.tokenValue_cases ds attr with ⟨v, hval, hput⟩ | ⟨-, hput⟩
    · rw [hput]
      exact (hv _ List.mem_cons_self v hval).append hrest
    · rw [hput]
      exact .token ht hrest

/-- the tokens after a pass: those of the values, and those without a value -/
theorem mem_tokensOf_fill {cs : List Char} (h : Neat cs)
    (hv : ∀ q ∈ tokensOf cs, ∀ v, r.valueOf? q = some v → Neat v.toList) (q : Option Placeholder) :
    q ∈ tokensOf (r.fill cs) ↔ (∃ p ∈ tokensOf cs, ∃ v, r.valueOf? p = some v ∧ q ∈ tokensOf v.toList) ∨
      q ∈ tokensOf cs ∧ r.valueOf? q = none := by
  induction h with
  | nil => simp [tokensOf, pieces]
  | char hc _ ih =>
    rw [tokensOf_cons (scan?_of_ne hc _)] at hv ⊢
    rw [fill_cons r (scan?_of_ne hc _), tokensOf_cons (scan?_of_ne hc _)]
    exact ih hv
  | @token ds attr cs ht _ ih =>
    rw [tokensOf_token ht] at hv ⊢
    have hrest := ih fun q hq => hv q (List.mem_cons_of_mem _ hq)
    rw [fill_token r ht]
    rcases r.tokenValue_cases ds attr with ⟨v, hval, hput⟩ | ⟨hval, hput⟩
    · rw [hput, tokensOf_append (hv _ List.mem_cons_self v hval), List.mem_append, hrest]
      simp only [List.mem_cons, exists_eq_or_imp, hval, Option.some.injEq, exists_eq_left']
      constructor
      · rintro (hq | hq | ⟨hq, hnone⟩)
        · exact .inl (.inl hq)
        · exact .inl (.inr hq)
        · exact .inr ⟨.inr hq, hnone⟩
      · rintro ((hq | hq) | ⟨rfl | hq, hnone⟩)
        · exact .inl hq
        · exact .inr (.inl hq)
        · rw [hval] at hnone
          cases hnone
        · exact .inr (.inr ⟨hq, hnone⟩)
    · rw [hput, tokensOf_token ht, List.mem_cons, hrest]
      simp only [List.mem_cons, exists_eq_or_imp, hval, reduceCtorEq, false_and, exists_false, false_or]
      constructor
      · rintro (rfl | hq | ⟨hq, hnone⟩)
        · exact .inr ⟨.inl rfl, hval⟩
        · exact .inl hq
        · exact .inr ⟨.inr hq, hnone⟩
      · rintro (hq | ⟨rfl | hq, hnone⟩)
        · exact .inr (.inl hq)
        · exact .inl rfl
        · exact .inr (.inr ⟨hq, hnone⟩)

/-! ## Texts that stay neat -/

/-- a token that a text leads to: it stands in the text or in the value of one that the text leads to -/
inductive Reached (r : Registry) (cs : List Char) : Option Placeholder → Prop where
  | text {q : Option Placeholder} (hq : q ∈ tokensOf cs) : Reached r cs q
  | value {p q : Option Placeholder} {v : String} (hp : Reached r cs p) (hv : r.valueOf? p = some v)
      (hq : q ∈ tokensOf v.toList) : Reached r cs q

theorem Reached.trans {cs ds : List Char} (h : ∀ q ∈ tokensOf ds, Reached r cs q) {q : Option Placeholder}
    (hq : Reached r ds q) : Reached r cs q := by
  induction hq with
  | text hq => exact h _ hq
  | value _ hv hq ih => exact .value ih hv hq

/-- a neat text that leads to neat values only -/
structure Settling (r : Registry) (cs : List Char) : Prop where
  neat : Neat cs
  values : ∀ q v, Reached r cs q → r.valueOf? q = some v → Neat v.toList

namespace Settling

variable {cs : List Char}

theorem token_values (h : Settling r cs) : ∀ q ∈ tokensOf cs, ∀ v, r.valueOf? q = some v → Neat v.toList :=
  fun q hq v hv => h.values q v (.text hq) hv

theorem value (h : Settling r cs) {q : Option Placeholder} (hq : q ∈ tokensOf cs) {v : String} (hv : r.valueOf? q = some v) :
    Settling r v.toList := by
  constructor
  · exact h.token_values q hq v hv
  · intro p w hp hw
    have hreached : Reached r cs p := hp.trans fun t ht => .value (.text hq) hv ht
    exact h.values p w hreached hw

/-- a pass leads to nothing new -/
theorem fill (h : Settling r cs) : Settling r (r.fill cs) := by
  constructor
  · exact neat_fill h.neat h.token_values
  · intro p w hp hw
    have hreached : Reached r cs p := by
      apply hp.trans
      intro t ht
      rcases (mem_tokensOf_fill h.neat h.token_values t).1 ht with ⟨q, hq, v, hv, ht⟩ | ⟨ht, -⟩
      · exact .value (.text hq) hv ht
      · exact .text ht
    exact h.values p w hreached hw

end Settling

theorem passes_append {xs : List Char} (hx : Settling r xs) (ys : List Char) (n : Nat) :
    r.fill^[n] (xs ++ ys) = r.fill^[n] xs ++ r.fill^[n] ys := by
  induction n generalizing xs ys with
  | zero => rfl
  | succ n ih => rw [Function.iterate_succ_apply, Function.iterate_succ_apply, Function.iterate_succ_apply,
      fill_append r hx.neat, ih hx.fill]

theorem passes_cons {c : Char} (hc : c ≠ '{') (cs : List Char) (n : Nat) : r.fill^[n] (c :: cs) = c :: r.fill^[n] cs := by
  induction n generalizing cs with
  | zero => rfl
  | succ n ih => rw [Function.iterate_succ_apply, Function.iterate_succ_apply, fill_cons r (scan?_of_ne hc cs), ih]

/-! ## Levels -/

/-- The level of a token: one more than the highest level in its value, so 1 when its value holds no token. A token without a
value has no level, nor has one that leads back to itself. -/
inductive Level (r : Registry) : Option Placeholder → Nat → Prop where
  | value {p : Option Placeholder} {v : String} (level : Option Placeholder → Nat) (hv : r.valueOf? p = some v)
      (h : ∀ q ∈ tokensOf v.toList, Level r q (level q)) :
    Level r p (1 + ((tokensOf v.toList).map level).foldr max 0)

/-- a value without tokens has level 1 -/
theorem level_plain {p : Option Placeholder} {v : String} (hv : r.valueOf? p = some v) (hfree : tokensOf v.toList = []) :
    Level r p 1 := by
  have h := Level.value (fun _ => 0) hv fun q hq => by
    rw [hfree] at hq
    cases hq
  rwa [hfree] at h

/-- a value whose tokens all have one level is one level above them -/
theorem level_above {p : Option Placeholder} {v : String} {n : Nat} (hv : r.valueOf? p = some v) (hne : tokensOf v.toList ≠ [])
    (h : ∀ q ∈ tokensOf v.toList, Level r q n) : Level r p (1 + n) := by
  have hmax : ((tokensOf v.toList).map fun _ => n).foldr max 0 = n := by
    obtain ⟨q, hq⟩ := List.exists_mem_of_ne_nil _ hne
    refine le_antisymm (List.max_le_of_forall_le _ n fun x hx => ?_) (List.le_max_of_le (List.mem_map.2 ⟨q, hq, rfl⟩) le_rfl)
    obtain ⟨-, -, rfl⟩ := List.mem_map.1 hx
    exact le_rfl
  have hlevel := Level.value (fun _ => n) hv h
  rwa [hmax] at hlevel

/-- one level more than the tokens of the value -/
theorem level_le_succ {p : Option Placeholder} {n : Nat} :
    (∃ k ≤ n + 1, Level r p k) ↔ ∃ v, r.valueOf? p = some v ∧ ∀ q ∈ tokensOf v.toList, ∃ k ≤ n, Level r q k := by
  constructor
  · rintro ⟨k, hk, hlevel⟩
    cases hlevel with
    | @value _ v level hv h =>
      refine ⟨v, hv, fun q hq => ⟨level q, ?_, h q hq⟩⟩
      have hmax : level q ≤ ((tokensOf v.toList).map level).foldr max 0 :=
        List.le_max_of_le (List.mem_map_of_mem hq) le_rfl
      omega
  · rintro ⟨v, hv, h⟩
    choose! level hle hlevel using h
    refine ⟨_, ?_, .value level hv hlevel⟩
    have hmax : ((tokensOf v.toList).map level).foldr max 0 ≤ n := by
      refine List.max_le_of_forall_le _ _ fun x hx => ?_
      obtain ⟨q, hq, rfl⟩ := List.mem_map.1 hx
      exact hle q hq
    omega

theorem not_level_zero {p : Option Placeholder} : ¬ ∃ k ≤ 0, Level r p k := by
  rintro ⟨k, hk, hlevel⟩
  cases hlevel
  omega

/-- **What passes take away.** After a number of passes no token is left exactly when every token of the text has a level up to
that number. -/
theorem tokensOf_passes {cs : List Char} (h : Settling r cs) (n : Nat) :
    tokensOf (r.fill^[n] cs) = [] ↔ ∀ q ∈ tokensOf cs, ∃ k ≤ n, Level r q k := by
  induction n generalizing cs with
  | zero =>
    rw [Function.iterate_zero_apply, List.eq_nil_iff_forall_not_mem]
    exact forall_congr' fun q => imp_congr_right fun _ => iff_of_false id not_level_zero
  | succ n ih =>
    rw [Function.iterate_succ_apply, ih h.fill]
    simp only [level_le_succ, mem_tokensOf_fill h.neat h.token_values]
    constructor
    · intro hall q hq
      cases hv : r.valueOf? q with
      | none =>
        -- a token without a value stays, and no level can be given to it
        obtain ⟨k, -, hlevel⟩ := hall q (.inr ⟨hq, hv⟩)
        cases hlevel with
        | value level hval => cases hv.symm.trans hval
      | some v => exact ⟨v, rfl, fun t ht => hall t (.inl ⟨q, hq, v, hv, ht⟩)⟩
    · rintro hall q (⟨p, hp, v, hv, hq⟩ | ⟨hq, hnone⟩)
      · obtain ⟨w, hw, hlevels⟩ := hall p hp
        obtain rfl := Option.some.inj (hv.symm.trans hw)
        exact hlevels q hq
      · obtain ⟨v, hv, -⟩ := hall q hq
        cases hnone.symm.trans hv

/-! ## Expansion -/

/-- a text with every token replaced by its value, expanded in turn; everything else stays -/
inductive Expands (r : Registry) : List Char → List Char → Prop where
  | nil : Expands r [] []
  | char {c : Char} {cs out : List Char} (hc : scan? (c :: cs) = none) (h : Expands r cs out) :
    Expands r (c :: cs) (c :: out)
  | token {ds attr cs val out : List Char} {v : String} (ht : IsToken ds attr)
      (hv : r.valueOf? ((idOf? ds).map fun n => ⟨n, String.ofList attr⟩) = some v) (hval : Expands r v.toList val)
      (h : Expands r cs out) : Expands r (tokenChars ds attr ++ cs) (val ++ out)

/-- a text without tokens is its own expansion -/
theorem expands_free {cs : List Char} (h : Neat cs) (hfree : tokensOf cs = []) : Expands r cs cs := by
  induction h with
  | nil => exact .nil
  | char hc _ ih =>
    rw [tokensOf_cons (scan?_of_ne hc _)] at hfree
    exact .char (scan?_of_ne hc _) (ih hfree)
  | token ht _ _ =>
    rw [tokensOf_token ht] at hfree
    cases hfree

/-- **What passes make of a text.** When every token has a level up to their number, its full expansion. -/
theorem expands_passes {cs : List Char} (h : Settling r cs) {n : Nat} (hlevel : ∀ q ∈ tokensOf cs, ∃ k ≤ n, Level r q k) :
    Expands r cs (r.fill^[n] cs) := by
  induction n generalizing cs with
  | zero => exact expands_free h.neat ((tokensOf_passes h 0).2 hlevel)
  | succ n ih =>
    -- the values of the tokens are expanded by the passes that are left, the rest of the text by all of them
    have hvalues : ∀ q ∈ tokensOf cs, ∀ v, r.valueOf? q = some v → Settling r v.toList := fun q hq v hv => h.value hq hv
    have hneat := h.neat
    clear h
    induction hneat with
    | nil =>
      have hnil : r.fill^[n + 1] [] = [] := Function.iterate_fixed (fill_nil r) (n + 1)
      rw [hnil]
      exact .nil
    | char hc _ ihs =>
      rw [tokensOf_cons (scan?_of_ne hc _)] at hlevel hvalues
      rw [passes_cons hc]
      exact .char (scan?_of_ne hc _) (ihs hlevel hvalues)
    | @token ds attr cs ht _ ihs =>
      rw [tokensOf_token ht] at hlevel hvalues
      obtain ⟨v, hv, hlevels⟩ := level_le_succ.1 (hlevel _ List.mem_cons_self)
      have hvalue := hvalues _ List.mem_cons_self v hv
      have hput : r.tokenValue ds attr = v.toList := by rw [tokenValue, hv, Option.getD_some]
      have hsplit : r.fill^[n + 1] (tokenChars ds attr ++ cs) = r.fill^[n] v.toList ++ r.fill^[n + 1] cs := by
        rw [Function.iterate_succ_apply, fill_token r ht, hput, passes_append hvalue, ← Function.iterate_succ_apply]
      rw [hsplit]
      refine .token ht hv (ih hvalue hlevels) (ihs ?_ ?_)
      · exact fun q hq => hlevel q (List.mem_cons_of_mem _ hq)
      · exact fun q hq => hvalues q (List.mem_cons_of_mem _ hq)

/-! ## Names are neat -/

theorem Unnamed.neat_nameOf (h : r.Unnamed) {e : Declaration} (he : e ∈ r.now.entries) : Neat (r.nameOf e.id).toList := by
  have hbase : IsName e.base := by
    obtain ⟨s, g, hint, pos, hs, hbase⟩ := h.sound.now.base e he
    rw [hbase]
    exact isName_baseName (hs.trans h.naming) g e.id hint pos
  rcases h.nameOf_cases he with hlink | hname | ⟨n, hname⟩
  · obtain ⟨-, text, htext⟩ := h.sound.now.links e.id _ hlink
    rw [htext]
    exact neat_sanitizeLink text
  · rw [hname]
    exact neat_of_isName hbase
  · rw [hname]
    exact neat_of_isName (hbase.number n)

/-! ## Every registry -/

/-- a registry with standard names after any calls, with the names made final at any time -/
inductive Reachable (target : String) : Registry → Prop where
  | start : Reachable target (start target)
  | call {r : Registry} (h : Reachable target r) (c : Call) : Reachable target (r.call c)
  | finalize {r : Registry} (h : Reachable target r) : Reachable target r.finalize

theorem reachable_run (target : String) (calls : List Call) : Reachable target ((Registry.start target).run calls) := by
  induction calls using List.reverseRecOn with
  | nil => exact .start
  | append_singleton calls c ih =>
    rw [run_snoc]
    exact ih.call c

/-- final names are those of the calls before -/
theorem Reachable.names {target : String} (h : Reachable target r) :
    ∃ s : Registry, s.Unnamed ∧ r.finalize.names = s.finalize.names := by
  have hfinal {r s : Registry} (h : r.names = s.finalize.names) : r.finalize = r := by
    have : r.names.isSome = true := by
      rw [h]
      unfold Registry.finalize
      split
      · assumption
      · rfl
    rw [Registry.finalize, if_pos this]
  have hstate : r.Unnamed ∨ ∃ s : Registry, s.Unnamed ∧ r.names = s.finalize.names := by
    induction h with
    | start => exact .inl (unnamed_run target [])
    | call _ c ih =>
      rcases ih with hr | ⟨s, hs, hnames⟩
      · exact .inl (hr.call c)
      · exact .inr ⟨s, hs, (call_keeps _ c).2.2.trans hnames⟩
    | finalize _ ih =>
      rcases ih with hr | ⟨s, hs, hnames⟩
      · exact .inr ⟨_, hr, rfl⟩
      · exact .inr ⟨s, hs, by rw [hfinal hnames, hnames]⟩
  rcases hstate with hr | ⟨s, hs, hnames⟩
  · exact ⟨r, hr, rfl⟩
  · exact ⟨s, hs, by rw [hfinal hnames, hnames]⟩

/-- only the path of a file can bring in a loose brace -/
theorem Reachable.neat_value {target : String} (h : Reachable target r) {p : Placeholder} {v : String}
    (hv : r.finalize.lookup? p = some v)
    (hfile : p.attr = fileAttr ∨ p.attr = uniqueAttr → ∀ file, r.finalize.lookup? ⟨p.node, fileAttr⟩ = some file →
      Neat file.toList) : Neat v.toList := by
  obtain ⟨s, hs, hnames⟩ := h.names
  have hlookup (p : Placeholder) : r.finalize.lookup? p = s.finalize.lookup? p := by
    rw [lookup?, lookup?, hnames]
  rw [hlookup, hs.lookup_eq] at hv
  obtain ⟨e, hfind, hvalue⟩ := Option.bind_eq_some_iff.1 hv
  have hpath : r.finalize.lookup? ⟨p.node, fileAttr⟩ = some e.file := by
    rw [hlookup, hs.lookup_eq, hfind, Option.bind_some]
    rfl
  have hname := hs.neat_nameOf (hs.find?_eq_some.1 hfind).1
  unfold standardValue? at hvalue
  split_ifs at hvalue with hsymbol hunique hattr
  · obtain rfl := Option.some.inj hvalue
    exact hname
  · obtain rfl := Option.some.inj hvalue
    rw [String.toList_append, String.toList_append]
    exact ((hfile (.inr hunique) _ hpath).append (neat_of_ne (by simp))).append hname
  · obtain rfl := Option.some.inj hvalue
    exact hfile (.inl hattr) _ hpath

/-! ## Resolving -/

theorem mem_applied {text t v : String} :
    (t, v) ∈ r.applied text ↔ ∃ p, .token t p ∈ split text ∧ r.valueOf? p = some v := by
  rw [applied, List.mem_filterMap]
  constructor
  · rintro ⟨p, hp, heq⟩
    cases p with
    | words w => cases heq
    | token u p =>
      obtain ⟨w, hw, heq⟩ := Option.map_eq_some_iff.1 heq
      obtain ⟨rfl, rfl⟩ := Prod.mk.inj heq
      exact ⟨p, hp, hw⟩
  · rintro ⟨p, hp, hv⟩
    exact ⟨.token t p, hp, Option.map_eq_some_iff.2 ⟨v, hv, rfl⟩⟩

/-- all that passes put in -/
def replaced (r : Registry) (text : String) : List (String × String) :=
  (List.range maxPasses).flatMap fun k => r.applied (r.pass^[k] text)

theorem mem_replaced {text t v : String} : (t, v) ∈ r.replaced text ↔
    ∃ k < maxPasses, ∃ p, .token t p ∈ split (r.pass^[k] text) ∧ r.valueOf? p = some v := by
  simp only [replaced, List.mem_flatMap, List.mem_range, mem_applied]

/-- a token is always replaced by the same value -/
theorem get?_replaced {text t v : String} : Dict.get? (Dict.ofList (r.replaced text)) t = some v ↔
    ∃ k < maxPasses, ∃ p, .token t p ∈ split (r.pass^[k] text) ∧ r.valueOf? p = some v := by
  rw [← mem_replaced]
  refine Dict.get?_ofList_eq_some fun t v w hv hw => ?_
  obtain ⟨k, -, p, hp, hv⟩ := mem_replaced.1 hv
  obtain ⟨l, -, q, hq, hw⟩ := mem_replaced.1 hw
  obtain rfl := token_eq hp hq
  exact Option.some.inj (hv.symm.trans hw)

/-- resolving fills in the text a number of times, and fails on a token that is left -/
theorem resolve_fills (r : Registry) (text : String) :
    tokensOf (r.finalize.fill^[maxPasses] text.toList) = [] ∧
        (r.resolve text).2 = .ok (r.finalize.pass^[maxPasses] text, Dict.ofList (r.finalize.replaced text)) ∨
      tokensOf (r.finalize.fill^[maxPasses] text.toList) ≠ [] ∧
        ∃ site, (r.resolve text).2 = failWith (.fault .referenceNotFound site) := by
  have hcases := r.resolve_cases text
  simp only [passes_eq, List.nil_append, toList_passes] at hcases
  exact hcases

/-- **Resolving is expansion, or fails.** Take any registry with standard names, and a text without loose opening braces that leads to
no path of a file with one. When every token of the text has a level of at most three, resolving gives the text with
every token expanded, no token is left, and the values are told for exactly the tokens that some pass replaced.
Otherwise resolving fails with a reference that was not found. -/
theorem resolve_expands {target : String} (hr : Reachable target r) {text : String} (htext : '{' ∉ outside text.toList)
    (hfiles : ∀ p file, Reached r.finalize text.toList (some p) → p.attr = fileAttr ∨ p.attr = uniqueAttr →
      r.finalize.lookup? ⟨p.node, fileAttr⟩ = some file → '{' ∉ outside file.toList) :
    ((∀ q ∈ tokensOf text.toList, ∃ k ≤ maxPasses, Level r.finalize q k) →
        ∃ out seen, (r.resolve text).2 = .ok (out, seen) ∧ Expands r.finalize text.toList out.toList ∧
          tokensOf out.toList = [] ∧ ∀ t v, Dict.get? seen t = some v ↔
            ∃ k < maxPasses, ∃ p, .token t p ∈ split (r.finalize.pass^[k] text) ∧ r.finalize.valueOf? p = some v) ∧
      ((¬ ∀ q ∈ tokensOf text.toList, ∃ k ≤ maxPasses, Level r.finalize q k) →
        ∃ site, (r.resolve text).2 = failWith (.fault .referenceNotFound site)) := by
  have hsettling : Settling r.finalize text.toList := by
    constructor
    · exact neat_of_outside htext
    · intro q v hq hv
      obtain ⟨p, rfl, hp⟩ := Option.bind_eq_some_iff.1 hv
      apply hr.neat_value hp
      intro hattr file hfile
      exact neat_of_outside (hfiles p file hq hattr hfile)
  have hlevels := tokensOf_passes hsettling maxPasses
  rcases r.resolve_fills text with ⟨hnil, hok⟩ | ⟨hleft, hfail⟩
  · constructor
    · intro hlevel
      refine ⟨_, _, hok, ?_, ?_, ?_⟩
      · rw [toList_passes]
        exact expands_passes hsettling hlevel
      · rw [toList_passes]
        exact hnil
      · intro t v
        exact get?_replaced
    · intro hnot
      exact absurd (hlevels.1 hnil) hnot
  · constructor
    · intro hlevel
      exact absurd (hlevels.2 hlevel) hleft
    · intro _
      exact hfail

theorem mem_of_lookup {p : Placeholder} {v : String} (h : r.listed.lookup? p = some v) : (p, v) ∈ r.listedNames.values := by
  obtain ⟨⟨q, w⟩, hf, rfl⟩ := Option.map_eq_some_iff.1 h
  obtain rfl : q = p := by simpa using List.find?_some hf
  exact List.mem_of_find?_eq_some hf

theorem resolve_expands_alias :
    let r := (start "go").run [.declare {} 1 "f" "User" false, .declare {} 2 "f" "Alias" false,
      .link 2 "\x7b\x7b1:symbol\x7d\x7dAlias"]
    let text := "type \x7b\x7b2:symbol\x7d\x7d = \x7b\x7b1:ref\x7d\x7d"
    r.finalize.pass^[maxPasses] text = "type UserAlias = User" ∧
      ∃ out seen, (r.resolve text).2 = .ok (out, seen) ∧ Expands r.finalize text.toList out.toList := by
  intro r text
  have hfinal : r.finalize = r.listed := finalize_listed (by decide +kernel)
  have hneat : '{' ∉ outside text.toList := by decide +kernel
  have hpaths : ∀ x ∈ r.listedNames.values, x.1.attr = fileAttr → '{' ∉ outside x.2.toList := by decide +kernel
  obtain ⟨hok, -⟩ := resolve_expands (reachable_run "go" _) hneat fun p file _ _ hfile =>
    hpaths _ (mem_of_lookup (hfinal ▸ hfile)) rfl
  have hlevels : ∀ q ∈ tokensOf text.toList, ∃ k ≤ maxPasses, Level r.finalize q k := by
    have htokens : tokensOf text.toList = [some ⟨2, symbolAttr⟩, some ⟨1, refAttr⟩] := by decide +kernel
    have hvalue : tokensOf "\x7b\x7b1:symbol\x7d\x7dAlias".toList = [some ⟨1, symbolAttr⟩] := by decide +kernel
    have hsymbol : Level r.listed (some ⟨1, symbolAttr⟩) 1 :=
      level_plain (show _ = some "User" by decide +kernel) (by decide +kernel)
    have hlink : Level r.listed (some ⟨2, symbolAttr⟩) (1 + 1) := by
      refine level_above (show _ = some "\x7b\x7b1:symbol\x7d\x7dAlias" by decide +kernel) (by decide +kernel) fun q hq => ?_
      rw [hvalue, List.mem_singleton] at hq
      rwa [hq]
    have href : Level r.listed (some ⟨1, refAttr⟩) 1 :=
      level_plain (show _ = some "User" by decide +kernel) (by decide +kernel)
    rw [htokens, hfinal]
    intro q hq
    rcases List.mem_cons.1 hq with rfl | hq
    · exact ⟨2, by decide, hlink⟩
    · rw [List.mem_singleton.1 hq]
      exact ⟨1, by decide, href⟩
  obtain ⟨out, seen, hresolve, hexpands, -⟩ := hok hlevels
  refine ⟨?_, out, seen, hresolve, hexpands⟩
  rw [hfinal]
  decide +kernel

theorem resolve_joined :
    let r := (start "go").run [.declare {} 2 "\x7b\x7b9:r" "A" false, .declare {} 3 "ef\x7d\x7d" "B" false,
      .declare {} 4 "f" "C" false, .link 4 "\x7b\x7b2:file\x7d\x7d\x7b\x7b3:file\x7d\x7d"]
    let text := "\x7b\x7b4:symbol\x7d\x7d"
    outside text.toList = [] ∧ tokensOf text.toList = [some ⟨4, symbolAttr⟩] ∧ Level r.finalize (some ⟨4, symbolAttr⟩) 2 ∧
      ∃ site, (r.resolve text).2 = failWith (.fault .referenceNotFound site) := by
  intro r text
  have hfinal : r.finalize = r.listed := finalize_listed (by decide +kernel)
  have hlevel : Level r.listed (some ⟨4, symbolAttr⟩) (1 + 1) := by
    refine level_above (show _ = some "\x7b\x7b2:file\x7d\x7d\x7b\x7b3:file\x7d\x7d" by decide +kernel)
      (by decide +kernel) fun q hq => ?_
    have htokens : tokensOf "\x7b\x7b2:file\x7d\x7d\x7b\x7b3:file\x7d\x7d".toList =
        [some ⟨2, fileAttr⟩, some ⟨3, fileAttr⟩] := by decide +kernel
    rw [htokens] at hq
    rcases List.mem_cons.1 hq with rfl | hq
    · exact level_plain (show _ = some "\x7b\x7b9:r" by decide +kernel) (by decide +kernel)
    · rw [List.mem_singleton.1 hq]
      exact level_plain (show _ = some "ef\x7d\x7d" by decide +kernel) (by decide +kernel)
  refine ⟨by decide +kernel, by decide +kernel, hfinal ▸ hlevel, ?_⟩
  rcases r.resolve_fills text with ⟨hnil, -⟩ | ⟨-, hfail⟩
  · rw [hfinal] at hnil
    exact absurd hnil (by decide +kernel)
  · exact hfail

end Schemata.Registry
