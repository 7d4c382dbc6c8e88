import Mathlib.Data.List.Perm.Basic
import ServiceTypings.Proofs.ListedRecord

/-! Edits that change how a record is spelled and not what it says. Its members may change places; one that
says nothing may be added or taken away; and the object may become the array of its values, or the array an
object. A record that repeats no key with a meaning has the same values afterwards at every such key, up to
values that say nothing (`Edit.alike`). Inside a record, the value at one of its keys may be edited in turn
(`Replaced`). -/

namespace ServiceTypings

namespace Json

/-- The values at a key of a record, one for each time that the key is there. -/
def valuesAt (keys : List String) (key : String) : Json → List Json
  | array items => items[keys.idxOf key]?.toList
  | object members => (members.filter (keyed key)).map Prod.snd
  | _ => []

variable {keys : List String} {key : String} {v w : Json}

theorem at?_eq_getLast?_valuesAt (keys : List String) (key : String) (v : Json) :
    v.at? keys key = (v.valuesAt keys key).getLast? := by
  cases v with
  | array items =>
    rw [at?, valuesAt]
    cases items[keys.idxOf key]? with
    | none => rfl
    | some w => rfl
  | object members =>
    rw [at?, valuesAt, ← List.head?_filter, List.filter_reverse, List.head?_reverse,
      List.getLast?_map]
  | null | bool b | number n | string glyphs => rfl

theorem keysOnce_iff : v.keysOnce keys ↔ ∀ key ∈ keys, (v.valuesAt keys key).length ≤ 1 := by
  cases v with
  | array items =>
    refine iff_of_true rfl fun key _ => ?_
    rw [valuesAt]
    exact Option.length_toList_le
  | object members => simp [keysOnce, valuesAt]
  | null | bool b | number n | string glyphs => simp [keysOnce, valuesAt]

theorem valuesAt_append (before after : List (List Glyph × Json)) :
    (object (before ++ after)).valuesAt keys key =
      (object before).valuesAt keys key ++ (object after).valuesAt keys key := by
  simp only [valuesAt, List.filter_append, List.map_append]

theorem valuesAt_cons_of_keyed {glyphs : List Glyph} (h : textOf? glyphs = some key)
    (members : List (List Glyph × Json)) :
    (object ((glyphs, w) :: members)).valuesAt keys key = w :: (object members).valuesAt keys key := by
  rw [valuesAt, List.filter_cons_of_pos (keyed_iff.2 h), List.map_cons, valuesAt]

theorem valuesAt_cons_of_ne {glyphs : List Glyph} {other : String} (h : textOf? glyphs = some other)
    (hne : key ≠ other) (members : List (List Glyph × Json)) :
    (object ((glyphs, w) :: members)).valuesAt keys key = (object members).valuesAt keys key := by
  have hnot : ¬keyed key (glyphs, w) := by
    rw [keyed_iff, h, Option.some_inj]
    exact hne.symm
  rw [valuesAt, List.filter_cons_of_neg hnot, valuesAt]

theorem mem_valuesAt_of_mem {members : List (List Glyph × Json)} {m : List Glyph × Json} (hm : m ∈ members)
    (hkey : textOf? m.1 = some key) : m.2 ∈ (object members).valuesAt keys key :=
  List.mem_map_of_mem (List.mem_filter.2 ⟨hm, keyed_iff.2 hkey⟩)

theorem mem_of_mem_valuesAt_object {members : List (List Glyph × Json)}
    (h : w ∈ (object members).valuesAt keys key) : ∃ m ∈ members, m.2 = w := by
  obtain ⟨m, hm, hw⟩ := List.mem_map.1 h
  exact ⟨m, (List.mem_filter.1 hm).1, hw⟩

theorem mem_of_mem_valuesAt_array {items : List Json} (h : w ∈ (array items).valuesAt keys key) :
    w ∈ items :=
  List.mem_of_getElem? (Option.mem_toList.1 h)

/-- A record without other values than those at its keys. -/
theorem exists_mem_valuesAt_array {items : List Json} (hnodup : keys.Nodup)
    (hshort : items.length ≤ keys.length) (hw : w ∈ items) :
    ∃ key ∈ keys, w ∈ (array items).valuesAt keys key := by
  obtain ⟨i, hi, rfl⟩ := List.mem_iff_getElem.1 hw
  refine ⟨keys[i], List.getElem_mem _, ?_⟩
  rw [valuesAt, hnodup.idxOf_getElem i (Nat.lt_of_lt_of_le hi hshort)]
  simp [hi]

theorem keysOnce_of_unrepeated (h : v.unrepeated) : v.keysOnce keys := by
  cases v with
  | object members =>
    have hnodup : (keyTexts members).Nodup := of_decide_eq_true (everywhere_object_iff.1 h).1
    exact List.all_eq_true.2 fun key _ => decide_eq_true (length_filter_keyed_le_one hnodup key)
  | null | bool b | number n | string glyphs | array items => rfl

theorem everywhere_of_mem_valuesAt {p : Json → Bool} (hv : everywhere p v)
    (hw : w ∈ v.valuesAt keys key) : everywhere p w := by
  cases v with
  | object members =>
    obtain ⟨m, hm, rfl⟩ := mem_of_mem_valuesAt_object hw
    exact (everywhere_object_iff.1 hv).2 m hm
  | array items => exact (everywhere_array_iff.1 hv).2 w (mem_of_mem_valuesAt_array hw)
  | null | bool b | number n | string glyphs => exact absurd hw List.not_mem_nil

theorem valuesAt_eq_singleton (honce : v.keysOnce keys) (hkey : key ∈ keys)
    (h : v.at? keys key = some w) : v.valuesAt keys key = [w] := by
  have hlength := keysOnce_iff.1 honce key hkey
  rw [at?_eq_getLast?_valuesAt] at h
  obtain ⟨before, hbefore⟩ := List.getLast?_eq_some_iff.1 h
  rw [hbefore, List.length_append, List.length_singleton] at hlength
  obtain rfl : before = [] := List.length_eq_zero_iff.1 (by omega)
  exact hbefore

theorem at?_eq_some_of_mem_valuesAt (honce : v.keysOnce keys) (hkey : key ∈ keys)
    (h : w ∈ v.valuesAt keys key) : v.at? keys key = some w := by
  cases hat : v.at? keys key with
  | none =>
    rw [at?_eq_getLast?_valuesAt, List.getLast?_eq_none_iff] at hat
    rw [hat] at h
    exact absurd h List.not_mem_nil
  | some x =>
    rw [valuesAt_eq_singleton honce hkey hat, List.mem_singleton] at h
    rw [h]

theorem legible_of_readable? {levels : Nat} (honce : v.keysOnce keys) (hkey : key ∈ keys)
    (h : Record.readable? levels (v.at? keys key)) : ∀ w ∈ v.valuesAt keys key, w.legible := by
  intro w hw
  rw [at?_eq_some_of_mem_valuesAt honce hkey hw] at h
  exact ((readable_iff levels w).1 h).2

theorem readable?_of_legible {levels : Nat} (hkey : key ∈ keys) (hnesting : v.nesting ≤ levels + 1)
    (h : ∀ w ∈ v.valuesAt keys key, w.legible) : Record.readable? levels (v.at? keys key) := by
  cases hat : v.at? keys key with
  | none => rfl
  | some w =>
    have hlt := (stands_of_at?_eq_some hkey hat).nesting_lt
    rw [at?_eq_getLast?_valuesAt] at hat
    exact (readable_iff levels w).2 ⟨by omega, h w (List.mem_of_getLast? hat)⟩

theorem keysLegible_object_iff {members : List (List Glyph × Json)} :
    (object members).keysLegible ↔ ∀ m ∈ members, (textOf? m.1).isSome := by
  rw [keysLegible, List.all_eq_true]

theorem legible_object_iff {members : List (List Glyph × Json)} :
    (object members).legible ↔ (object members).keysLegible ∧ ∀ m ∈ members, m.2.legible :=
  everywhere_object_iff

theorem legible_array_iff {items : List Json} : (array items).legible ↔ ∀ w ∈ items, w.legible := by
  rw [legible, everywhere_array_iff]
  exact and_iff_right rfl

/-- Whether all elements of the value are as `p` says, if it is an array. -/
def Each (p : Json → Prop) : Json → Prop
  | array items => ∀ w ∈ items, p w
  | _ => True

theorem each_of_unrepeated {p : Json → Prop} (hp : ∀ w, w.unrepeated → p w) (hv : v.unrepeated) :
    v.Each p := by
  cases v with
  | array items => exact fun w hw => hp w (everywhere_of_mem hv hw)
  | null | bool b | number n | string glyphs | object members => trivial

end Json

open Json

/-- The keys of the records of a kind in their order, those of its lists and those of its comments. -/
structure RecordKind where
  keys : List String
  lists : List String
  comments : List String
  nodup : keys.Nodup
  disjoint : ∀ key ∈ lists, key ∉ comments

namespace RecordKind

/-- At that key the value says what no value would say: anything at a key that is not known, what is no
array for a list, null for a comment. -/
inductive Silent (k : RecordKind) (key : String) (w : Json) : Prop
  | unknown (hkey : key ∉ k.keys)
  | list (hkey : key ∈ k.lists) (hw : ∀ items, w ≠ array items)
  | comment (hkey : key ∈ k.comments) (hw : w = null)

/-- The array has the object's known values in the order of their keys. For a list or a comment that the
object lacks it has null, or it ends before that place. -/
structure Positional (k : RecordKind) (members : List (List Glyph × Json)) (items : List Json) : Prop where
  short : items.length ≤ k.keys.length
  values : ∀ key ∈ k.keys, (array items).valuesAt k.keys key = (object members).valuesAt k.keys key ∨
    (object members).valuesAt k.keys key = [] ∧ (key ∈ k.lists ∨ key ∈ k.comments) ∧
      (array items).valuesAt k.keys key = [null]

/-- One edit of a record of that kind. -/
inductive Edit (k : RecordKind) : Json → Json → Prop
  | permute {members members' : List (List Glyph × Json)} (h : members.Perm members') :
      Edit k (object members) (object members')
  | add {before after : List (List Glyph × Json)} {glyphs : List Glyph} {key : String} {w : Json}
      (hkey : textOf? glyphs = some key) (hw : w.legible) (hsilent : k.Silent key w)
      (habsent : key ∈ k.keys → (object (before ++ after)).valuesAt k.keys key = []) :
      Edit k (object (before ++ after)) (object (before ++ (glyphs, w) :: after))
  | remove {before after : List (List Glyph × Json)} {glyphs : List Glyph} {key : String} {w : Json}
      (hkey : textOf? glyphs = some key) (hsilent : k.Silent key w) :
      Edit k (object (before ++ (glyphs, w) :: after)) (object (before ++ after))
  | toArray {members : List (List Glyph × Json)} {items : List Json} (h : k.Positional members items) :
      Edit k (object members) (array items)
  | toObject {members : List (List Glyph × Json)} {items : List Json} (h : k.Positional members items)
      (hknown : ∀ m ∈ members, ∃ key ∈ k.keys, textOf? m.1 = some key) :
      Edit k (array items) (object members)

/-- The values at a key are the same before and after, or say nothing both before and after. -/
inductive Alike (k : RecordKind) (key : String) (xs ys : List Json) : Prop
  | same (h : ys = xs)
  | silent (hxs : ∀ w ∈ xs, k.Silent key w) (hys : ∀ w ∈ ys, k.Silent key w ∧ w.legible)

variable {k : RecordKind} {key : String} {v w : Json}

theorem legible_null : null.legible := rfl

theorem silent_null (h : key ∈ k.lists ∨ key ∈ k.comments) : k.Silent key null := by
  rcases h with h | h
  · exact .list h (by simp)
  · exact .comment h rfl

theorem eq_of_perm_of_length_le_one {α : Type} {xs ys : List α} (h : xs.Perm ys) (hxs : xs.length ≤ 1) :
    ys = xs := by
  match xs with
  | [] => exact List.nil_perm.1 h
  | [x] => exact (List.singleton_perm.1 h).symm
  | x :: y :: zs => simp at hxs

theorem Edit.alike (h : k.Edit v w) (honce : v.keysOnce k.keys) (hkey : key ∈ k.keys) :
    k.Alike key (v.valuesAt k.keys key) (w.valuesAt k.keys key) := by
  have hlength := keysOnce_iff.1 honce key hkey
  cases h with
  | permute h => exact .same (eq_of_perm_of_length_le_one ((h.filter _).map _) hlength)
  | @add before after glyphs other x hother hx hsilent habsent =>
    by_cases hne : key = other
    · subst hne
      have hnone := habsent hkey
      rw [valuesAt_append, List.append_eq_nil_iff] at hnone
      refine .silent (by simp [valuesAt_append, hnone]) ?_
      simp [valuesAt_append, valuesAt_cons_of_keyed hother, hnone, hsilent, hx]
    · exact .same (by simp only [valuesAt_append, valuesAt_cons_of_ne hother hne])
  | @remove before after glyphs other x hother hsilent =>
    by_cases hne : key = other
    · subst hne
      rw [valuesAt_append, valuesAt_cons_of_keyed hother, List.length_append, List.length_cons]
        at hlength
      have hbefore := List.length_eq_zero_iff.1 (Nat.le_zero.1 (by omega) :
        ((object before).valuesAt k.keys key).length = 0)
      have hafter := List.length_eq_zero_iff.1 (Nat.le_zero.1 (by omega) :
        ((object after).valuesAt k.keys key).length = 0)
      refine .silent ?_ (by simp [valuesAt_append, hbefore, hafter])
      simp [valuesAt_append, valuesAt_cons_of_keyed hother, hbefore, hafter, hsilent]
    · exact .same (by simp only [valuesAt_append, valuesAt_cons_of_ne hother hne])
  | toArray h =>
    rcases h.values key hkey with hsame | ⟨hnone, hkind, hnull⟩
    · exact .same hsame
    · refine .silent (by simp [hnone]) ?_
      simp [hnull, silent_null hkind, legible_null]
  | toObject h _ =>
    rcases h.values key hkey with hsame | ⟨hnone, hkind, hnull⟩
    · exact .same hsame.symm
    · refine .silent ?_ (by simp [hnone])
      simp [hnull, silent_null hkind]

theorem Alike.eq_of_text {xs ys : List Json} (h : k.Alike key xs ys) (hkey : key ∈ k.keys)
    (hlist : key ∉ k.lists) (hcomment : key ∉ k.comments) : ys = xs := by
  have hnot : ∀ w, ¬k.Silent key w := by
    intro w hw
    cases hw with
    | unknown hunknown => exact hunknown hkey
    | list h _ => exact hlist h
    | comment h _ => exact hcomment h
  cases h with
  | same h => exact h
  | silent hxs hys =>
    rw [List.eq_nil_iff_forall_not_mem.2 fun w hw => hnot w (hxs w hw),
      List.eq_nil_iff_forall_not_mem.2 fun w hw => hnot w (hys w hw).1]

theorem Silent.ne_array (h : k.Silent key w) (hkey : key ∈ k.keys) (hlist : key ∈ k.lists) :
    ∀ items, w ≠ array items := by
  cases h with
  | unknown hunknown => exact absurd hkey hunknown
  | list _ hw => exact hw
  | comment hcomment _ => exact absurd hcomment (k.disjoint key hlist)

theorem Silent.eq_null (h : k.Silent key w) (hkey : key ∈ k.keys) (hcomment : key ∈ k.comments) :
    w = null := by
  cases h with
  | unknown hunknown => exact absurd hkey hunknown
  | list hlist _ => exact absurd hcomment (k.disjoint key hlist)
  | comment _ hw => exact hw

theorem list?_of_ne_array {α : Type} {decode : Json → Option α} {o : Option Json}
    (h : ∀ w ∈ o, ∀ items, w ≠ array items) : Record.list? decode o = some [] := by
  cases o with
  | none => rfl
  | some w =>
    cases w with
    | array items => exact absurd rfl (h _ rfl items)
    | null | bool b | number n | string glyphs | object members => rfl

theorem each_of_ne_array {p : Json → Prop} (h : ∀ items, w ≠ array items) : w.Each p := by
  cases w with
  | array items => exact absurd rfl (h items)
  | null | bool b | number n | string glyphs | object members => trivial

namespace Edit

variable (h : k.Edit v w)

include h

theorem isRecord_eq : w.isRecord k.keys = v.isRecord k.keys := by
  cases h with
  | permute _ | add _ _ _ _ | remove _ _ => rfl
  | toArray h => simpa [isRecord] using h.short
  | toObject h _ => simpa [isRecord] using h.short

theorem keysLegible (hv : v.keysLegible) : w.keysLegible := by
  cases h with
  | permute h =>
    rw [keysLegible_object_iff] at hv ⊢
    exact fun m hm => hv m (h.mem_iff.2 hm)
  | add hkey _ _ _ =>
    rw [keysLegible_object_iff, List.forall_mem_append] at hv ⊢
    rw [List.forall_mem_cons, hkey]
    exact ⟨hv.1, rfl, hv.2⟩
  | remove _ _ =>
    rw [keysLegible_object_iff, List.forall_mem_append] at hv ⊢
    rw [List.forall_mem_cons] at hv
    exact ⟨hv.1, hv.2.2⟩
  | toArray _ => rfl
  | toObject _ hknown =>
    rw [keysLegible_object_iff]
    intro m hm
    obtain ⟨key, _, hkey⟩ := hknown m hm
    rw [hkey, Option.isSome_some]

theorem legible (hv : v.legible) : w.legible := by
  have hkeys := h.keysLegible (keysLegible_of_legible hv)
  cases h with
  | permute h =>
    rw [legible_object_iff] at hv ⊢
    exact ⟨hkeys, fun m hm => hv.2 m (h.mem_iff.2 hm)⟩
  | add hkey hw _ _ =>
    rw [legible_object_iff, List.forall_mem_append] at hv ⊢
    rw [List.forall_mem_cons]
    exact ⟨hkeys, hv.2.1, hw, hv.2.2⟩
  | remove _ _ =>
    rw [legible_object_iff, List.forall_mem_append] at hv ⊢
    rw [List.forall_mem_cons] at hv
    exact ⟨hkeys, hv.2.1, hv.2.2.2⟩
  | toArray h =>
    rw [legible_object_iff] at hv
    rw [legible_array_iff]
    intro x hx
    obtain ⟨key, hkey, hx⟩ := exists_mem_valuesAt_array k.nodup h.short hx
    rcases h.values key hkey with hsame | ⟨_, _, hnull⟩
    · obtain ⟨m, hm, rfl⟩ := mem_of_mem_valuesAt_object (hsame ▸ hx)
      exact hv.2 m hm
    · rw [hnull, List.mem_singleton] at hx
      rw [hx]
      rfl
  | toObject h hknown =>
    rw [legible_array_iff] at hv
    rw [legible_object_iff]
    refine ⟨hkeys, fun m hm => ?_⟩
    obtain ⟨key, hkey, htext⟩ := hknown m hm
    have hm : m.2 ∈ (object _).valuesAt k.keys key := mem_valuesAt_of_mem hm htext
    rcases h.values key hkey with hsame | ⟨hnone, _, _⟩
    · exact hv _ (mem_of_mem_valuesAt_array (hsame ▸ hm))
    · rw [hnone] at hm
      exact absurd hm List.not_mem_nil

theorem keysOnce (honce : v.keysOnce k.keys) : w.keysOnce k.keys := by
  have hlength := keysOnce_iff.1 honce
  rw [keysOnce_iff]
  intro key hkey
  cases h with
  | permute h => exact ((h.filter _).map Prod.snd).length_eq ▸ hlength key hkey
  | @add before after glyphs other x hother _ _ habsent =>
    by_cases hne : key = other
    · subst hne
      have hnone := habsent hkey
      rw [valuesAt_append, List.append_eq_nil_iff] at hnone
      simp [valuesAt_append, valuesAt_cons_of_keyed hother, hnone]
    · have hold := hlength key hkey
      rw [valuesAt_append] at hold ⊢
      rwa [valuesAt_cons_of_ne hother hne]
  | @remove before after glyphs other x hother _ =>
    have hold := hlength key hkey
    rw [valuesAt_append] at hold ⊢
    by_cases hne : key = other
    · subst hne
      rw [valuesAt_cons_of_keyed hother, List.length_append, List.length_cons] at hold
      rw [List.length_append]
      omega
    · rwa [valuesAt_cons_of_ne hother hne] at hold
  | toArray _ => exact keysOnce_iff.1 rfl key hkey
  | toObject h _ =>
    rcases h.values key hkey with hsame | ⟨hnone, _, _⟩
    · rw [← hsame]
      exact hlength key hkey
    · rw [hnone]
      exact Nat.zero_le 1

section

variable (honce : v.keysOnce k.keys) (hkey : key ∈ k.keys)

include honce hkey

/-- What stands at a key can be read after an edit if it could be before. -/
theorem legible_valuesAt (hv : ∀ x ∈ v.valuesAt k.keys key, x.legible) :
    ∀ y ∈ w.valuesAt k.keys key, y.legible := by
  cases h.alike honce hkey with
  | same hsame => rwa [hsame]
  | silent _ hys => exact fun y hy => (hys y hy).2

/-- At the key of a text nothing changes. -/
theorem at?_eq (hlist : key ∉ k.lists) (hcomment : key ∉ k.comments) :
    w.at? k.keys key = v.at? k.keys key := by
  rw [at?_eq_getLast?_valuesAt, at?_eq_getLast?_valuesAt,
    (h.alike honce hkey).eq_of_text hkey hlist hcomment]

theorem comment?_eq (hcomment : key ∈ k.comments) :
    Record.comment? (w.at? k.keys key) = Record.comment? (v.at? k.keys key) := by
  rw [at?_eq_getLast?_valuesAt, at?_eq_getLast?_valuesAt]
  cases h.alike honce hkey with
  | same hsame => rw [hsame]
  | silent hxs hys =>
    have hnone : ∀ {xs : List Json}, (∀ x ∈ xs, k.Silent key x) →
        Record.comment? xs.getLast? = some none := by
      intro xs hxs
      cases hlast : xs.getLast? with
      | none => rfl
      | some x =>
        rw [(hxs x (List.mem_of_getLast? hlast)).eq_null hkey hcomment]
        rfl
    rw [hnone hxs, hnone fun y hy => (hys y hy).1]

theorem list?_eq (hlist : key ∈ k.lists) {α : Type} (decode : Json → Option α) :
    Record.list? decode (w.at? k.keys key) = Record.list? decode (v.at? k.keys key) := by
  rw [at?_eq_getLast?_valuesAt, at?_eq_getLast?_valuesAt]
  cases h.alike honce hkey with
  | same hsame => rw [hsame]
  | silent hxs hys =>
    rw [list?_of_ne_array fun x hx => (hxs x (List.mem_of_getLast? hx)).ne_array hkey hlist,
      list?_of_ne_array fun y hy => (hys y (List.mem_of_getLast? hy)).1.ne_array hkey hlist]

theorem each (hlist : key ∈ k.lists) {p : Json → Prop} (hv : ∀ x ∈ v.valuesAt k.keys key, x.Each p) :
    ∀ y ∈ w.valuesAt k.keys key, y.Each p := by
  cases h.alike honce hkey with
  | same hsame => rwa [hsame]
  | silent _ hys => exact fun y hy => each_of_ne_array ((hys y hy).1.ne_array hkey hlist)

end

end Edit

end RecordKind

/-- The value at a key of a record gives way to one that stands in that relation to it. -/
inductive Replaced (keys : List String) (key : String) (R : Json → Json → Prop) : Json → Json → Prop
  | member {before after : List (List Glyph × Json)} {glyphs : List Glyph} {x y : Json}
      (hkey : textOf? glyphs = some key) (h : R x y) :
      Replaced keys key R (object (before ++ (glyphs, x) :: after))
        (object (before ++ (glyphs, y) :: after))
  | item {before after : List Json} {x y : Json} (hkey : keys[before.length]? = some key) (h : R x y) :
      Replaced keys key R (array (before ++ x :: after)) (array (before ++ y :: after))

/-- One element of an array gives way to another. -/
inductive ItemReplaced (R : Json → Json → Prop) : Json → Json → Prop
  | mk {before after : List Json} {x y : Json} (h : R x y) :
      ItemReplaced R (array (before ++ x :: after)) (array (before ++ y :: after))

namespace Replaced

variable {keys : List String} {key other : String} {R : Json → Json → Prop} {v w : Json}
  (h : Replaced keys key R v w)

include h

theorem isRecord_eq : w.isRecord keys = v.isRecord keys := by
  cases h with
  | member _ _ => rfl
  | item _ _ => simp [isRecord]

theorem keysLegible (hv : v.keysLegible) : w.keysLegible := by
  cases h with
  | member _ _ =>
    rw [keysLegible_object_iff, List.forall_mem_append, List.forall_mem_cons] at hv ⊢
    exact hv
  | item _ _ => rfl

theorem legible (hR : ∀ x y, R x y → x.legible → y.legible) (hv : v.legible) : w.legible := by
  have hkeys := h.keysLegible (keysLegible_of_legible hv)
  cases h with
  | member _ h =>
    rw [legible_object_iff, List.forall_mem_append, List.forall_mem_cons] at hv ⊢
    exact ⟨hkeys, hv.2.1, hR _ _ h hv.2.2.1, hv.2.2.2⟩
  | item _ h =>
    rw [legible_array_iff, List.forall_mem_append, List.forall_mem_cons] at hv ⊢
    exact ⟨hv.1, hR _ _ h hv.2.1, hv.2.2⟩

/-- At all other keys the record has what it had. -/
theorem valuesAt_eq_of_ne (hother : other ∈ keys) (hne : other ≠ key) :
    w.valuesAt keys other = v.valuesAt keys other := by
  cases h with
  | member hkey _ => simp only [valuesAt_append, valuesAt_cons_of_ne hkey hne]
  | @item before after x y hkey _ =>
    have hplace : keys.idxOf other ≠ before.length := by
      intro heq
      rw [← heq, List.getElem?_idxOf hother, Option.some_inj] at hkey
      exact hne hkey
    have hset : before ++ y :: after = (before ++ x :: after).set before.length y := by simp
    rw [hset, valuesAt, valuesAt, List.getElem?_set_ne hplace.symm]

theorem exists_valuesAt (hnodup : keys.Nodup) :
    ∃ before after x y, R x y ∧ v.valuesAt keys key = before ++ x :: after ∧
      w.valuesAt keys key = before ++ y :: after := by
  cases h with
  | @member before after glyphs x y hkey h =>
    refine ⟨(object before).valuesAt keys key, (object after).valuesAt keys key, x, y, h, ?_, ?_⟩
    · rw [valuesAt_append, valuesAt_cons_of_keyed hkey]
    · rw [valuesAt_append, valuesAt_cons_of_keyed hkey]
  | @item before after x y hkey h =>
    obtain ⟨hlt, hget⟩ := List.getElem?_eq_some_iff.1 hkey
    have hplace : keys.idxOf key = before.length := by rw [← hget, hnodup.idxOf_getElem]
    refine ⟨[], [], x, y, h, ?_, ?_⟩
    · simp [valuesAt, hplace]
    · simp [valuesAt, hplace]

theorem keysOnce (hnodup : keys.Nodup) (honce : v.keysOnce keys) : w.keysOnce keys := by
  rw [keysOnce_iff] at honce ⊢
  intro other hother
  by_cases hne : other = key
  · subst hne
    obtain ⟨before, after, x, y, _, hv, hw⟩ := h.exists_valuesAt hnodup
    have hlength := honce other hother
    rw [hv] at hlength
    rw [hw]
    simpa using hlength
  · rw [h.valuesAt_eq_of_ne hother hne]
    exact honce other hother

theorem at?_eq_of_ne (hother : other ∈ keys) (hne : other ≠ key) :
    w.at? keys other = v.at? keys other := by
  rw [at?_eq_getLast?_valuesAt, at?_eq_getLast?_valuesAt, h.valuesAt_eq_of_ne hother hne]

theorem legible_valuesAt (hnodup : keys.Nodup) (hR : ∀ x y, R x y → x.legible → y.legible)
    (hother : other ∈ keys) (hv : ∀ x ∈ v.valuesAt keys other, x.legible) :
    ∀ y ∈ w.valuesAt keys other, y.legible := by
  by_cases hne : other = key
  · subst hne
    obtain ⟨before, after, x, y, hxy, hvalues, hvalues'⟩ := h.exists_valuesAt hnodup
    rw [hvalues, List.forall_mem_append, List.forall_mem_cons] at hv
    rw [hvalues', List.forall_mem_append, List.forall_mem_cons]
    exact ⟨hv.1, hR x y hxy hv.2.1, hv.2.2⟩
  · rwa [h.valuesAt_eq_of_ne hother hne]

/-- Where the key is not repeated, the one value at the key is replaced. -/
theorem exists_valuesAt_eq_singleton (hnodup : keys.Nodup) (honce : v.keysOnce keys) (hkey : key ∈ keys) :
    ∃ x y, R x y ∧ v.valuesAt keys key = [x] ∧ w.valuesAt keys key = [y] := by
  obtain ⟨before, after, x, y, hR, hv, hw⟩ := h.exists_valuesAt hnodup
  have hlength := keysOnce_iff.1 honce key hkey
  rw [hv, List.length_append, List.length_cons] at hlength
  obtain rfl : before = [] := List.length_eq_zero_iff.1 (by omega)
  obtain rfl : after = [] := List.length_eq_zero_iff.1 (by omega)
  exact ⟨x, y, hR, hv, hw⟩

end Replaced

/-- Edits in that relation keep `p`, what a record is decoded to where `p` holds, and legibility. -/
structure Keeps {α : Type} (R : Json → Json → Prop) (p : Json → Prop) (decode : Json → Option α) :
    Prop where
  kept : ∀ v w, R v w → p v → p w
  decode_eq : ∀ v w, R v w → p v → decode w = decode v
  legible : ∀ v w, R v w → v.legible → w.legible

namespace Keeps

variable {α : Type} {R : Json → Json → Prop} {p : Json → Prop} {decode : Json → Option α}
  {keys : List String} {key : String} {v w : Json} (hR : Keeps R p decode)

include hR

/-- What an element's edits keep, the edits of a list keep. -/
theorem items : Keeps (ItemReplaced R) (Each p) fun v => Record.list? decode (some v) := by
  refine ⟨fun v w h hv => ?_, fun v w h hv => ?_, fun v w h hv => ?_⟩
  · obtain ⟨h⟩ := h
    rw [Each, List.forall_mem_append, List.forall_mem_cons] at hv ⊢
    exact ⟨hv.1, hR.kept _ _ h hv.2.1, hv.2.2⟩
  · obtain ⟨h⟩ := h
    rw [Each, List.forall_mem_append, List.forall_mem_cons] at hv
    simp only [Record.list?, List.mapM_append, List.mapM_cons, hR.decode_eq _ _ h hv.2.1]
  · obtain ⟨h⟩ := h
    rw [legible_array_iff, List.forall_mem_append, List.forall_mem_cons] at hv ⊢
    exact ⟨hv.1, hR.legible _ _ h hv.2.1, hv.2.2⟩

section

variable (hnodup : keys.Nodup) (honce : v.keysOnce keys) (hkey : key ∈ keys)

include hnodup honce hkey

theorem each (h : Replaced keys key (ItemReplaced R) v w) (hp : ∀ x ∈ v.valuesAt keys key, x.Each p) :
    ∀ y ∈ w.valuesAt keys key, y.Each p := by
  obtain ⟨x, y, hxy, hv, hw⟩ := h.exists_valuesAt_eq_singleton hnodup honce hkey
  rw [hv, List.forall_mem_singleton] at hp
  rw [hw, List.forall_mem_singleton]
  exact hR.items.kept x y hxy hp

/-- An edit of an element leaves the decoded list as it was. -/
theorem list?_eq (h : Replaced keys key (ItemReplaced R) v w)
    (hp : ∀ x ∈ v.valuesAt keys key, x.Each p) :
    Record.list? decode (w.at? keys key) = Record.list? decode (v.at? keys key) := by
  obtain ⟨x, y, hxy, hv, hw⟩ := h.exists_valuesAt_eq_singleton hnodup honce hkey
  rw [hv, List.forall_mem_singleton] at hp
  rw [at?_eq_getLast?_valuesAt, at?_eq_getLast?_valuesAt, hv, hw]
  exact hR.items.decode_eq x y hxy hp

end

end Keeps

end ServiceTypings
