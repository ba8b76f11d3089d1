import Mathlib.Tactic
import Schemata.Json.Duplicate

/-!
Which key is reported as standing twice.

`keyPlaces` lists the keys of a document in its order, each with the steps to its object and the keys that the object has
before it. Reading the tokens of a value comes back to the frames that it started from, with the value complete, unless a key
of the value repeats one before it in its object; then the first such key is reported (`read_tokens`).

Main result: `duplicate?_spec`. Nothing is reported exactly if no object at any depth repeats a key, and otherwise the first key
in document order that its object has already, with the pointer of that object.
-/

namespace Schemata.Json

/-! ## Keys of a document -/

/-- induction on documents: from what a container holds to the container -/
theorem induct {P : Json → Prop} (hnull : P null) (hbool : ∀ b, P (bool b)) (hnumber : ∀ t, P (number t))
    (hstring : ∀ s, P (string s)) (harray : ∀ xs, (∀ x ∈ xs, P x) → P (array xs))
    (hobject : ∀ fs, (∀ e ∈ fs, P e.2) → P (object fs)) (j : Json) : P j := by
  match j with
  | null => exact hnull
  | bool b => exact hbool b
  | number t => exact hnumber t
  | string s => exact hstring s
  | array xs => exact harray xs fun x hx => induct hnull hbool hnumber hstring harray hobject x
  | object fs => exact hobject fs fun e he => induct hnull hbool hnumber hstring harray hobject e.2
termination_by sizeOf j
decreasing_by
  · have := List.sizeOf_lt_of_mem hx
    simp only [array.sizeOf_spec]
    omega
  · have := List.sizeOf_lt_of_mem he
    have : sizeOf e = 1 + sizeOf e.1 + sizeOf e.2 := by cases e; rfl
    simp only [object.sizeOf_spec]
    omega

/-- a value stands in a document, at the end of some steps down -/
inductive Holds : Json → List String → Json → Prop
  | self (j : Json) : Holds j [] j
  | item {xs : List Json} {i : Nat} {x w : Json} {steps : List String} (hx : xs[i]? = some x) (hw : Holds x steps w) :
      Holds (.array xs) (toString i :: steps) w
  | field {fs : List (String × Json)} {k : String} {x w : Json} {steps : List String} (hx : (k, x) ∈ fs) (hw : Holds x steps w) :
      Holds (.object fs) (escapeToken k :: steps) w

/-- a key where it stands: the steps to its object, and the keys that the object has before it, the last first -/
structure KeyPlace where
  steps : List String
  earlier : List String
  key : String

namespace KeyPlace

/-- the key is one of the fields' keys, behind the keys before it -/
def StandsIn (p : KeyPlace) (fs : List (String × Json)) : Prop :=
  ∃ before x after, fs = before ++ (p.key, x) :: after ∧ p.earlier = (before.map (·.1)).reverse

/-- the object has the key already -/
def repeats (p : KeyPlace) : Bool := p.earlier.contains p.key

/-- the report of the key, with the pointer of its object -/
def report (p : KeyPlace) : DuplicateKey := { key := p.key, path := p.steps.foldl (fun text step => text ++ "/" ++ step) "" }

end KeyPlace

mutual

/-- the keys of a document in its order; `steps` lead to the document -/
def keyPlaces (steps : List String) : Json → List KeyPlace
  | array xs => itemPlaces steps 0 xs
  | object fs => fieldPlaces steps [] fs
  | _ => []

def itemPlaces (steps : List String) (index : Nat) : List Json → List KeyPlace
  | [] => []
  | x :: xs => keyPlaces (steps ++ [toString index]) x ++ itemPlaces steps (index + 1) xs

def fieldPlaces (steps earlier : List String) : List (String × Json) → List KeyPlace
  | [] => []
  | (k, x) :: rest => ⟨steps, earlier, k⟩ :: (keyPlaces (steps ++ [escapeToken k]) x ++ fieldPlaces steps (k :: earlier) rest)

end

theorem mem_itemPlaces {steps : List String} {p : KeyPlace} (xs : List Json) (index : Nat) :
    p ∈ itemPlaces steps index xs ↔ ∃ i x, xs[i]? = some x ∧ p ∈ keyPlaces (steps ++ [toString (index + i)]) x := by
  induction xs generalizing index with
  | nil => simp [itemPlaces]
  | cons x xs ih =>
    rw [itemPlaces, List.mem_append, ih]
    constructor
    · rintro (h | ⟨i, y, hy, h⟩)
      · exact ⟨0, x, rfl, h⟩
      · exact ⟨i + 1, y, hy, by rwa [Nat.add_comm i 1, ← Nat.add_assoc]⟩
    · rintro ⟨i, y, hy, h⟩
      cases i with
      | zero =>
        obtain rfl : x = y := Option.some.inj hy
        exact .inl h
      | succ i => exact .inr ⟨i, y, hy, by rwa [Nat.add_comm i 1, ← Nat.add_assoc] at h⟩

/-- the keys of an object itself, and those of its values -/
theorem mem_fieldPlaces {steps : List String} {p : KeyPlace} (fs : List (String × Json)) (earlier : List String) :
    p ∈ fieldPlaces steps earlier fs ↔
      (∃ before x after, fs = before ++ (p.key, x) :: after ∧ p.steps = steps ∧
        p.earlier = (before.map (·.1)).reverse ++ earlier) ∨
      ∃ k x, (k, x) ∈ fs ∧ p ∈ keyPlaces (steps ++ [escapeToken k]) x := by
  induction fs generalizing earlier with
  | nil => simp [fieldPlaces]
  | cons f fs ih =>
    obtain ⟨k, x⟩ := f
    rw [fieldPlaces, List.mem_cons, List.mem_append, ih]
    constructor
    · rintro (rfl | h | ⟨before, y, after, rfl, hsteps, hearlier⟩ | ⟨k', y, hy, h⟩)
      · exact .inl ⟨[], x, fs, rfl, rfl, rfl⟩
      · exact .inr ⟨k, x, List.mem_cons_self .., h⟩
      · exact .inl ⟨(k, x) :: before, y, after, rfl, hsteps, by simpa using hearlier⟩
      · exact .inr ⟨k', y, List.mem_cons_of_mem _ hy, h⟩
    · rintro (⟨before, y, after, hfs, hsteps, hearlier⟩ | ⟨k', y, hy, h⟩)
      · cases before with
        | nil =>
          obtain ⟨hkey, -⟩ := List.cons.inj hfs
          obtain ⟨rfl, rfl⟩ := Prod.mk.inj hkey
          obtain ⟨psteps, pearlier, pkey⟩ := p
          exact .inl (by simpa using ⟨hsteps, hearlier⟩)
        | cons f before =>
          obtain ⟨rfl, rfl⟩ := List.cons.inj hfs
          exact .inr (.inr (.inl ⟨before, y, after, rfl, hsteps, by simpa using hearlier⟩))
      · rcases List.mem_cons.1 hy with hy | hy
        · obtain ⟨rfl, rfl⟩ := Prod.mk.inj hy
          exact .inr (.inl h)
        · exact .inr (.inr (.inr ⟨k', y, hy, h⟩))

/-- the keys of the objects that stand in a document -/
def HasKey (j : Json) (steps : List String) (p : KeyPlace) : Prop :=
  ∃ route fs, Holds j route (.object fs) ∧ p.steps = steps ++ route ∧ p.StandsIn fs

/-- **Keys of a document.** They are those of the fields of the objects that stand in it, each with the keys before it. -/
theorem mem_keyPlaces {p : KeyPlace} (j : Json) (steps : List String) : p ∈ keyPlaces steps j ↔ HasKey j steps p := by
  have hnone {j : Json} {steps : List String} (hplaces : keyPlaces steps j = []) (hj : ∀ route fs, ¬ Holds j route (.object fs)) :
      p ∈ keyPlaces steps j ↔ HasKey j steps p := by
    rw [hplaces]
    exact iff_of_false List.not_mem_nil fun ⟨route, fs, h, _⟩ => hj route fs h
  induction j using induct generalizing steps with
  | hnull => exact hnone rfl (by rintro _ _ ⟨⟩)
  | hbool b => exact hnone rfl (by rintro _ _ ⟨⟩)
  | hnumber t => exact hnone rfl (by rintro _ _ ⟨⟩)
  | hstring s => exact hnone rfl (by rintro _ _ ⟨⟩)
  | harray xs ih =>
    rw [keyPlaces, mem_itemPlaces]
    constructor
    · rintro ⟨i, x, hx, h⟩
      obtain ⟨route, fs, hholds, hsteps, hfs⟩ := (ih x (List.mem_of_getElem? hx) _).1 h
      exact ⟨toString (0 + i) :: route, fs, .item (by rwa [Nat.zero_add]) hholds, by rw [hsteps]; simp, hfs⟩
    · rintro ⟨route, fs, hholds, hsteps, hfs⟩
      cases hholds with
      | @item _ i x _ route hx hw =>
        refine ⟨i, x, hx, (ih x (List.mem_of_getElem? hx) _).2 ⟨route, fs, hw, ?_, hfs⟩⟩
        rw [hsteps, Nat.zero_add]
        simp
  | hobject fs ih =>
    rw [keyPlaces, mem_fieldPlaces]
    constructor
    · rintro (⟨before, x, after, hfs, hsteps, hearlier⟩ | ⟨k, x, hx, h⟩)
      · exact ⟨[], fs, .self _, by simpa using hsteps, before, x, after, hfs, by simpa using hearlier⟩
      · obtain ⟨route, gs, hholds, hsteps, hgs⟩ := (ih (k, x) hx _).1 h
        exact ⟨escapeToken k :: route, gs, .field hx hholds, by rw [hsteps]; simp, hgs⟩
    · rintro ⟨route, gs, hholds, hsteps, hgs⟩
      cases hholds with
      | self =>
        obtain ⟨before, x, after, hfs, hearlier⟩ := hgs
        exact .inl ⟨before, x, after, hfs, by simpa using hsteps, by simpa using hearlier⟩
      | @field _ k x _ route hx hw =>
        refine .inr ⟨k, x, hx, (ih (k, x) hx _).2 ⟨route, gs, hw, ?_, hgs⟩⟩
        rw [hsteps]
        simp

/-- the keys of an object are distinct exactly if each is new to the object where it stands -/
theorem nodup_iff_standsIn (fs : List (String × Json)) (steps : List String) :
    (fs.map (·.1)).Nodup ↔ ∀ p : KeyPlace, p.steps = steps → p.StandsIn fs → p.repeats = false := by
  constructor
  · rintro h p - ⟨before, x, after, rfl, hearlier⟩
    rw [List.map_append, List.nodup_append] at h
    rw [KeyPlace.repeats, hearlier]
    simpa using fun y hy => h.2.2 p.key (List.mem_map_of_mem hy) p.key (List.mem_cons_self ..) rfl
  · intro h
    induction fs using List.reverseRecOn with
    | nil => exact List.nodup_nil
    | append_singleton fs e ih =>
      have hfs : (fs.map (·.1)).Nodup := by
        apply ih
        rintro p hp ⟨before, x, after, rfl, hearlier⟩
        exact h p hp ⟨before, x, after ++ [e], by simp, hearlier⟩
      have hlast := h ⟨steps, (fs.map (·.1)).reverse, e.1⟩ rfl ⟨fs, e.2, [], rfl, rfl⟩
      rw [List.map_append, List.map_singleton, ← List.concat_eq_append, List.nodup_concat]
      refine ⟨fun hmem => ?_, hfs⟩
      rw [KeyPlace.repeats, List.contains_eq_mem, decide_eq_false_iff_not] at hlast
      exact hlast (List.mem_reverse.2 hmem)

/-- the keys of a document are all new to their objects exactly if no object repeats one -/
theorem no_repeats_iff (j : Json) : (∀ p ∈ keyPlaces [] j, p.repeats = false) ↔
    ∀ steps fs, Holds j steps (.object fs) → (fs.map (·.1)).Nodup := by
  constructor
  · intro h steps fs hfs
    rw [nodup_iff_standsIn fs steps]
    intro p hp hstands
    exact h p ((mem_keyPlaces j []).2 ⟨steps, fs, hfs, hp, hstands⟩)
  · intro h p hp
    obtain ⟨route, fs, hholds, hsteps, hstands⟩ := (mem_keyPlaces j []).1 hp
    exact (nodup_iff_standsIn fs route).1 (h route fs hholds) p hsteps hstands

/-! ## Reading tokens -/

/-- reading from the frames so far -/
def read (fs : Frames) (ts : List Token) : Except DuplicateKey Frames := ts.foldlM readToken fs

/-- the steps to the value that is read next -/
def stepsTo (fs : Frames) : List String := (fs.map (·.step)).reverse

/-- a value comes next, and no key -/
def Awaits (fs : Frames) : Prop := ∀ keys key rest, fs ≠ .object keys true key :: rest

/-- reading that comes across keys: the first that is repeated, else the frames behind them -/
def outcome (places : List KeyPlace) (fs : Frames) : Except DuplicateKey Frames :=
  match places.find? (·.repeats) with
  | some p => .error p.report
  | none => .ok fs

theorem read_append {fs gs : Frames} {ts us : List Token} {ps qs : List KeyPlace} {r : Frames}
    (hts : read fs ts = outcome ps gs) (hus : read gs us = outcome qs r) : read fs (ts ++ us) = outcome (ps ++ qs) r := by
  unfold read at *
  rw [List.foldlM_append, hts]
  unfold outcome at *
  rw [List.find?_append]
  cases ps.find? (·.repeats) with
  | some p => rfl
  | none => exact hus

theorem report_path (fs : Frames) (keys : List String) (s : String) :
    (KeyPlace.mk (stepsTo fs) keys s).report = { key := s, path := pointerOf fs } := by
  unfold KeyPlace.report pointerOf stepsTo
  rw [List.foldl_reverse, List.foldr_map]

theorem read_one (fs : Frames) (t : Token) : read fs [t] = readToken fs t := by
  unfold read
  rw [List.foldlM_cons]
  exact bind_pure _

/-- a key where one is expected -/
theorem read_key (keys : List String) (key s : String) (fs : Frames) :
    read (.object keys true key :: fs) [.string s] = outcome [⟨stepsTo fs, keys, s⟩] (.object (s :: keys) false s :: fs) := by
  rw [read_one, readToken, outcome, List.find?_singleton, KeyPlace.repeats]
  cases keys.contains s with
  | true => exact congrArg Except.error (report_path fs keys s).symm
  | false => rfl

/-- a text where a value is expected -/
theorem readToken_text {fs : Frames} (hfs : Awaits fs) (s : String) : readToken fs (.string s) = .ok (valueDone fs) := by
  cases fs with
  | nil => rfl
  | cons f fs =>
    cases f with
    | array i => rfl
    | object keys expectsKey key =>
      cases expectsKey with
      | true => exact absurd rfl (hfs keys key fs)
      | false => rfl

theorem stepsTo_object (keys : List String) (b : Bool) (key : String) (fs : Frames) :
    stepsTo (.object keys b key :: fs) = stepsTo fs ++ [escapeToken key] := by
  simp [stepsTo, Frame.step]

theorem stepsTo_array (i : Nat) (fs : Frames) : stepsTo (.array i :: fs) = stepsTo fs ++ [toString i] := by
  simp [stepsTo, Frame.step]

/-- the value is read as one: what is reported is the first of its keys that is repeated -/
def Consumes (j : Json) : Prop := ∀ fs, Awaits fs → read fs j.tokens = outcome (keyPlaces (stepsTo fs) j) (valueDone fs)

theorem read_items {xs : List Json} (hxs : ∀ x ∈ xs, Consumes x) (i : Nat) (fs : Frames) :
    read (.array i :: fs) (itemTokens xs) = outcome (itemPlaces (stepsTo fs) i xs) (.array (i + xs.length) :: fs) := by
  induction xs generalizing i with
  | nil => rfl
  | cons x xs ih =>
    obtain ⟨hx, hxs⟩ := List.forall_mem_cons.1 hxs
    have hfirst := hx (.array i :: fs) (by rintro _ _ _ ⟨⟩)
    rw [stepsTo_array] at hfirst
    have hrest := ih hxs (i + 1)
    rw [Nat.add_assoc, Nat.add_comm 1] at hrest
    exact read_append hfirst hrest

theorem read_fields {es : List (String × Json)} (hes : ∀ e ∈ es, Consumes e.2) (keys : List String) (key : String) (fs : Frames) :
    ∃ keys' key', read (.object keys true key :: fs) (fieldTokens es) =
      outcome (fieldPlaces (stepsTo fs) keys es) (.object keys' true key' :: fs) := by
  induction es generalizing keys key with
  | nil => exact ⟨keys, key, rfl⟩
  | cons e es ih =>
    obtain ⟨k, x⟩ := e
    obtain ⟨hx, hes⟩ := List.forall_mem_cons.1 hes
    obtain ⟨keys', key', hrest⟩ := ih hes (k :: keys) k
    have hvalue := hx (.object (k :: keys) false k :: fs) (by rintro _ _ _ ⟨⟩)
    rw [stepsTo_object] at hvalue
    exact ⟨keys', key', read_append (read_key keys key k fs) (read_append hvalue hrest)⟩

/-- **Reading a value.** -/
theorem read_tokens (j : Json) : Consumes j := by
  induction j using induct with
  | hnull => exact fun fs _ => rfl
  | hbool b => exact fun fs _ => rfl
  | hnumber t => exact fun fs _ => rfl
  | hstring s =>
    intro fs hfs
    rw [tokens, read_one]
    exact readToken_text hfs s
  | harray xs ih =>
    intro fs _
    have hclose : read (.array (0 + xs.length) :: fs) [.close .array] = outcome [] (valueDone fs) := rfl
    have hitems := read_append (read_items ih 0 fs) hclose
    rw [List.append_nil] at hitems
    exact hitems
  | hobject es ih =>
    intro fs _
    obtain ⟨keys, key, hfields⟩ := read_fields ih [] "" fs
    have hclose : read (.object keys true key :: fs) [.close .object] = outcome [] (valueDone fs) := rfl
    have hfields := read_append hfields hclose
    rw [List.append_nil] at hfields
    exact hfields

theorem duplicate?_eq (j : Json) : j.duplicate? = ((keyPlaces [] j).find? (·.repeats)).map (·.report) := by
  have h := read_tokens j [] (by rintro _ _ _ ⟨⟩)
  unfold read outcome at h
  unfold duplicate?
  rw [h, show stepsTo [] = [] from rfl]
  cases (keyPlaces [] j).find? (·.repeats) <;> rfl

/-- **Repeated keys.** Nothing is reported exactly if no object, however deep, repeats a key; and what is reported is the first key in document order
that its object has already, with the pointer of that object. -/
theorem duplicate?_spec (j : Json) :
    (j.duplicate? = none ↔ ∀ steps fs, Holds j steps (.object fs) → (fs.map (·.1)).Nodup) ∧
      j.duplicate? = ((keyPlaces [] j).find? (·.repeats)).map (·.report) := by
  refine ⟨?_, duplicate?_eq j⟩
  rw [duplicate?_eq, Option.map_eq_none_iff, List.find?_eq_none, ← no_repeats_iff]
  simp

/-- a key that stands twice in an item of a list, as a text beside a key and as a key -/
example : duplicate? (.object [("a/b", .array [.string "k", .object [("k", .string "k"), ("k", .null)]])]) =
    some { key := "k", path := "/a~1b/1" } := by decide +kernel

end Schemata.Json
