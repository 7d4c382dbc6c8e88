import Mathlib.Data.List.Nodup
import Mathlib.Data.List.Pairwise
import ServiceTypings.Record.Decode

/-! JSON values as a grammar speaks of them: what stands at a key, whether an object repeats a key, how
deep a value is nested and whether its strings and numbers have a meaning. A value can be read in full
exactly if it is legible and not nested too deep (`readable_iff`), and where no key is repeated the look-up
that runs finds what stands at a key (`finds_of_unrepeated`). -/

namespace ServiceTypings.Json

mutual

/-- Whether `p` holds of the value and of all values in it. -/
def everywhere (p : Json → Bool) : Json → Bool
  | null => p null
  | bool b => p (bool b)
  | number n => p (number n)
  | string glyphs => p (string glyphs)
  | array items => p (array items) && everywhereItems p items
  | object members => p (object members) && everywhereMembers p members

def everywhereItems (p : Json → Bool) : List Json → Bool
  | [] => true
  | v :: vs => everywhere p v && everywhereItems p vs

def everywhereMembers (p : Json → Bool) : List (List Glyph × Json) → Bool
  | [] => true
  | (_, v) :: ms => everywhere p v && everywhereMembers p ms

end

mutual

/-- How many arrays and objects lie around the innermost value, the value itself included. -/
def nesting : Json → Nat
  | array items => nestingItems items + 1
  | object members => nestingMembers members + 1
  | _ => 0

def nestingItems : List Json → Nat
  | [] => 0
  | v :: vs => max (nesting v) (nestingItems vs)

def nestingMembers : List (List Glyph × Json) → Nat
  | [] => 0
  | (_, v) :: ms => max (nesting v) (nestingMembers ms)

end

/-- The keys of an object that are texts. -/
def keyTexts (members : List (List Glyph × Json)) : List String :=
  members.filterMap fun m => textOf? m.1

/-- No two keys of an object are the same text. -/
def keysUnrepeated : Json → Bool
  | object members => (keyTexts members).Nodup
  | _ => true

/-- No object in the value repeats a key. -/
def unrepeated : Json → Bool :=
  everywhere keysUnrepeated

/-- All keys of an object are texts. -/
def keysLegible : Json → Bool
  | object members => members.all fun m => (textOf? m.1).isSome
  | _ => true

/-- What a value is by itself has a meaning: a number is in range, a string a text, and so are keys. -/
def legibleAlone : Json → Bool
  | number n => n.inRange
  | string glyphs => (textOf? glyphs).isSome
  | v => v.keysLegible

/-- All strings and keys in the value are texts and all its numbers are in range. -/
def legible : Json → Bool :=
  everywhere legibleAlone

theorem everywhereItems_eq (p : Json → Bool) (items : List Json) :
    everywhereItems p items = items.all (everywhere p) := by
  induction items with
  | nil => rfl
  | cons v vs ih => rw [everywhereItems, ih, List.all_cons]

theorem everywhereMembers_eq (p : Json → Bool) (members : List (List Glyph × Json)) :
    everywhereMembers p members = members.all fun m => everywhere p m.2 := by
  induction members with
  | nil => rfl
  | cons m ms ih => rw [everywhereMembers, ih, List.all_cons]

theorem everywhere_array_iff {p : Json → Bool} {items : List Json} :
    everywhere p (array items) ↔ p (array items) ∧ ∀ v ∈ items, everywhere p v := by
  rw [everywhere, Bool.and_eq_true, everywhereItems_eq, List.all_eq_true]

theorem everywhere_object_iff {p : Json → Bool} {members : List (List Glyph × Json)} :
    everywhere p (object members) ↔ p (object members) ∧ ∀ m ∈ members, everywhere p m.2 := by
  rw [everywhere, Bool.and_eq_true, everywhereMembers_eq, List.all_eq_true]

mutual

theorem readable_iff : ∀ (levels : Nat) (v : Json),
    readable levels v ↔ v.nesting ≤ levels ∧ v.legible
  | levels, null => by simp [readable, nesting, legible, everywhere, legibleAlone, keysLegible]
  | levels, bool b => by simp [readable, nesting, legible, everywhere, legibleAlone, keysLegible]
  | levels, number n => by simp [readable, nesting, legible, everywhere, legibleAlone]
  | levels, string glyphs => by simp [readable, nesting, legible, everywhere, legibleAlone]
  | 0, array items => by simp [readable, nesting]
  | levels + 1, array items => by
    rw [readable, readableItems_iff levels items]
    simp [nesting, legible, everywhere, legibleAlone, keysLegible]
  | 0, object members => by simp [readable, nesting]
  | levels + 1, object members => by
    rw [readable, readableMembers_iff levels members]
    simp [nesting, legible, everywhere, legibleAlone]

theorem readableItems_iff : ∀ (levels : Nat) (items : List Json),
    readableItems levels items ↔
      nestingItems items ≤ levels ∧ everywhereItems legibleAlone items
  | levels, [] => by simp [readableItems, nestingItems, everywhereItems]
  | levels, v :: vs => by
    rw [readableItems, Bool.and_eq_true, readable_iff levels v, readableItems_iff levels vs,
      nestingItems, everywhereItems, Bool.and_eq_true, Nat.max_le]
    exact and_and_and_comm

theorem readableMembers_iff : ∀ (levels : Nat) (members : List (List Glyph × Json)),
    readableMembers levels members ↔ nestingMembers members ≤ levels ∧
      (object members).keysLegible ∧ everywhereMembers legibleAlone members
  | levels, [] => by simp [readableMembers, nestingMembers, everywhereMembers, keysLegible]
  | levels, (key, v) :: ms => by
    rw [readableMembers, Bool.and_eq_true, Bool.and_eq_true, readable_iff levels v,
      readableMembers_iff levels ms, nestingMembers, everywhereMembers, Bool.and_eq_true, Nat.max_le]
    simp only [keysLegible, List.all_cons, Bool.and_eq_true, legible]
    tauto

end

/-- What stands at a key of a record: the value of that member, or the one at the key's place. -/
inductive Stands (keys : List String) (key : String) : Json → Json → Prop
  | member {members : List (List Glyph × Json)} {glyphs : List Glyph} {w : Json}
      (hkey : textOf? glyphs = some key) (hw : (glyphs, w) ∈ members) :
      Stands keys key (object members) w
  | item {items : List Json} {w : Json} {k : Nat} (hkey : keys[k]? = some key)
      (hw : items[k]? = some w) : Stands keys key (array items) w

variable {keys : List String} {key : String} {v w : Json} {p : Json → Bool}

theorem Stands.everywhere (h : v.Stands keys key w) (hv : everywhere p v) : everywhere p w := by
  cases h with
  | member _ hw => exact (everywhere_object_iff.1 hv).2 _ hw
  | item _ hw => exact (everywhere_array_iff.1 hv).2 _ (List.mem_of_getElem? hw)

theorem nesting_le_nestingItems {items : List Json} (hw : w ∈ items) :
    w.nesting ≤ nestingItems items := by
  induction items with
  | nil => exact absurd hw List.not_mem_nil
  | cons v vs ih =>
    rw [nestingItems]
    rcases List.mem_cons.1 hw with rfl | hw
    · exact Nat.le_max_left ..
    · exact Nat.le_trans (ih hw) (Nat.le_max_right ..)

theorem nesting_le_nestingMembers {members : List (List Glyph × Json)} {glyphs : List Glyph}
    (hw : (glyphs, w) ∈ members) : w.nesting ≤ nestingMembers members := by
  induction members with
  | nil => exact absurd hw List.not_mem_nil
  | cons m ms ih =>
    rw [nestingMembers]
    rcases List.mem_cons.1 hw with rfl | hw
    · exact Nat.le_max_left ..
    · exact Nat.le_trans (ih hw) (Nat.le_max_right ..)

theorem Stands.nesting_lt (h : v.Stands keys key w) : w.nesting < v.nesting := by
  cases h with
  | member _ hw => exact Nat.lt_succ_of_le (nesting_le_nestingMembers hw)
  | item _ hw => exact Nat.lt_succ_of_le (nesting_le_nestingItems (List.mem_of_getElem? hw))

/-- What stands at a key of a value that can be read in full can be read in one level less. -/
theorem Stands.readable {levels : Nat} (h : v.Stands keys key w) (hv : v.readable (levels + 1)) :
    w.readable levels := by
  rw [readable_iff] at hv ⊢
  exact ⟨Nat.le_of_lt_succ (Nat.lt_of_lt_of_le h.nesting_lt hv.1), h.everywhere hv.2⟩

theorem keysLegible_of_legible (h : v.legible) : v.keysLegible := by
  cases v with
  | object members => exact (everywhere_object_iff.1 h).1
  | _ => rfl

theorem everywhere_of_mem {items : List Json} (hv : everywhere p (array items)) (hw : w ∈ items) :
    everywhere p w :=
  (everywhere_array_iff.1 hv).2 w hw

theorem eq_of_keyTexts_nodup {members : List (List Glyph × Json)} (h : (keyTexts members).Nodup)
    {m n : List Glyph × Json} (hm : m ∈ members) (hn : n ∈ members) (hmkey : textOf? m.1 = some key)
    (hnkey : textOf? n.1 = some key) : m = n := by
  by_contra hne
  have hpairs := List.pairwise_filterMap.1 h
  have hsymm : Std.Symm fun a b : List Glyph × Json =>
      ∀ x, textOf? a.1 = some x → ∀ y, textOf? b.1 = some y → x ≠ y :=
    ⟨fun a b hab x hx y hy => (hab y hy x hx).symm⟩
  exact hpairs.forall hm hn hne key hmkey key hnkey rfl

theorem keyed_iff {m : List Glyph × Json} : keyed key m ↔ textOf? m.1 = some key := by
  rw [keyed, decide_eq_true_eq]

/-- Whatever the look-up finds stands at that key, also where keys are repeated. -/
theorem stands_of_at?_eq_some (hkey : key ∈ keys) (h : v.at? keys key = some w) :
    v.Stands keys key w := by
  cases v with
  | object members =>
    obtain ⟨m, hfind, rfl⟩ := Option.map_eq_some_iff.1 h
    exact .member (keyed_iff.1 (List.find?_some hfind))
      (List.mem_reverse.1 (List.mem_of_find?_eq_some hfind))
  | array items =>
    have hplace : keys[keys.idxOf key]? = some key :=
      List.getElem?_eq_some_iff.2 ⟨List.idxOf_lt_length_of_mem hkey, List.getElem_idxOf _⟩
    exact .item hplace h
  | null | bool b | number n | string glyphs => cases h

theorem find?_keyed_eq_some_iff {members : List (List Glyph × Json)} (h : (keyTexts members).Nodup)
    {m : List Glyph × Json} :
    members.reverse.find? (keyed key) = some m ↔ m ∈ members ∧ textOf? m.1 = some key := by
  constructor
  · intro hfind
    exact ⟨List.mem_reverse.1 (List.mem_of_find?_eq_some hfind),
      keyed_iff.1 (List.find?_some hfind)⟩
  · rintro ⟨hm, hkey⟩
    have hsome : (members.reverse.find? (keyed key)).isSome :=
      List.find?_isSome.2 ⟨m, List.mem_reverse.2 hm, keyed_iff.2 hkey⟩
    obtain ⟨n, hn⟩ := Option.isSome_iff_exists.1 hsome
    have hnkey : textOf? n.1 = some key := keyed_iff.1 (List.find?_some hn)
    have hnmem := List.mem_reverse.1 (List.mem_of_find?_eq_some hn)
    rw [hn, eq_of_keyTexts_nodup h hm hnmem hkey hnkey]

/-- The look-up at that key finds exactly what stands there. -/
def Finds (keys : List String) (key : String) (v : Json) : Prop :=
  ∀ w, v.at? keys key = some w ↔ v.Stands keys key w

theorem finds_of_unrepeated (hv : v.unrepeated) (hkeys : keys.Nodup) (hkey : key ∈ keys) :
    v.Finds keys key := by
  refine fun w => ⟨stands_of_at?_eq_some hkey, fun h => ?_⟩
  cases h with
  | member htext hmem =>
    have hnodup := of_decide_eq_true (everywhere_object_iff.1 hv).1
    rw [at?, (find?_keyed_eq_some_iff hnodup).2 ⟨hmem, htext⟩, Option.map_some]
  | @item _ _ k hk hitem =>
    obtain ⟨hlt, hget⟩ := List.getElem?_eq_some_iff.1 hk
    rw [at?, ← hget, hkeys.idxOf_getElem k hlt, hitem]

theorem Finds.unique (h : v.Finds keys key) {u : Json} (hw : v.Stands keys key w)
    (hu : v.Stands keys key u) : w = u :=
  Option.some.inj (((h w).2 hw).symm.trans ((h u).2 hu))

theorem Finds.at?_eq_none_iff (h : v.Finds keys key) :
    v.at? keys key = none ↔ ∀ w, ¬v.Stands keys key w := by
  rw [Option.eq_none_iff_forall_ne_some]
  exact forall_congr' fun w => not_congr (h w)

theorem length_filter_keyed_le_one {members : List (List Glyph × Json)} (h : (keyTexts members).Nodup)
    (key : String) : (members.filter (keyed key)).length ≤ 1 := by
  have hkeyed : keyed key = fun m => textOf? m.1 == some key := by
    funext m
    rw [keyed, beq_eq_decide]
  have hcount := List.nodup_iff_count_le_one.1 h key
  rw [keyTexts, List.count_filterMap, List.countP_eq_length_filter] at hcount
  rwa [hkeyed]

/-- Without repeated keys, a record read directly only has to have texts for keys. -/
theorem keysDistinct_iff (hv : v.unrepeated) : v.keysDistinct keys ↔ v.keysLegible := by
  cases v with
  | object members =>
    have hnodup : (keyTexts members).Nodup := of_decide_eq_true (everywhere_object_iff.1 hv).1
    rw [keysDistinct, Bool.and_eq_true, keysLegible, and_iff_left_iff_imp]
    exact fun _ => List.all_eq_true.2 fun key _ => decide_eq_true (length_filter_keyed_le_one hnodup key)
  | _ => rfl

end ServiceTypings.Json
