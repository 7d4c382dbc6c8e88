import ServiceTypings.Proofs.JsonValues
import ServiceTypings.Proofs.Success

/-! The grammar of definition files. `WellShaped` says which values a record may have, member by member,
and `Shows` which record a value stands for, nothing left out: one record for each element of a list, in
order. Decoding finds the record that is shown, and every legible value that is well-shaped shows one; so
a text is accepted exactly if its value is well-shaped and what is read in full of it can be
(`ofText?_accepts_wellShaped`). -/

namespace ServiceTypings

namespace Json

/-- A string stands at the key. -/
def HasString (keys : List String) (key : String) (v : Json) : Prop :=
  ∃ glyphs, v.Stands keys key (string glyphs)

/-- What stands at the key, if anything does, is null or a string. -/
def HasComment (keys : List String) (key : String) (v : Json) : Prop :=
  ∀ w, v.Stands keys key w → w = null ∨ ∃ glyphs, w = string glyphs

/-- If an array stands at the key, all its elements are as `p` says. -/
def HasList (p : Json → Prop) (keys : List String) (key : String) (v : Json) : Prop :=
  ∀ items, v.Stands keys key (array items) → ∀ w ∈ items, p w

/-- The string at the key is that text. -/
def ShowsText (keys : List String) (key : String) (v : Json) (text : String) : Prop :=
  ∃ glyphs, v.Stands keys key (string glyphs) ∧ textOf? glyphs = some text

/-- Without a comment, nothing but null stands at the key. -/
def ShowsComment (keys : List String) (key : String) (v : Json) : Option String → Prop
  | none => ∀ w, v.Stands keys key w → w = null
  | some text => v.ShowsText keys key text

/-- The array at the key shows the list, element by element; where no array is, the list is empty. -/
def ShowsList {α : Type} (R : Json → α → Prop) (keys : List String) (key : String) (v : Json)
    (l : List α) : Prop :=
  (∃ items, v.Stands keys key (array items) ∧ List.Forall₂ R items l) ∨
    (∀ items, ¬v.Stands keys key (array items)) ∧ l = []

/-- What stands at the key is legible. -/
def LegibleAt (keys : List String) (key : String) (v : Json) : Prop :=
  ∀ w, v.Stands keys key w → w.legible

theorem legibleAt_of_legible {v : Json} (h : v.legible) (keys : List String) :
    ∀ key ∈ keys, v.LegibleAt keys key :=
  fun _ _ _ hw => hw.everywhere h

variable {keys : List String} {key : String} {v : Json} {α : Type} {R S : Json → α → Prop}
  {p q : Json → Prop}

theorem text?_eq_some_iff (h : v.Finds keys key) {text : String} :
    Record.text? (v.at? keys key) = some text ↔ v.ShowsText keys key text := by
  cases hat : v.at? keys key with
  | none =>
    refine iff_of_false (by simp [Record.text?]) ?_
    rintro ⟨glyphs, hw, _⟩
    exact h.at?_eq_none_iff.1 hat _ hw
  | some w =>
    have hw := (h w).1 hat
    rw [Record.text?]
    constructor
    · intro htext
      cases w with
      | string glyphs => exact ⟨glyphs, hw, htext⟩
      | _ => simp [string?] at htext
    · rintro ⟨glyphs, hw', htext⟩
      rw [h.unique hw hw']
      exact htext

theorem comment?_eq_some_iff (h : v.Finds keys key) {comment : Option String} :
    Record.comment? (v.at? keys key) = some comment ↔ v.ShowsComment keys key comment := by
  cases hat : v.at? keys key with
  | none =>
    have hnone := h.at?_eq_none_iff.1 hat
    cases comment with
    | none => exact iff_of_true rfl fun w hw => absurd hw (hnone w)
    | some text =>
      refine iff_of_false (by simp [Record.comment?]) ?_
      rintro ⟨glyphs, hw, _⟩
      exact hnone _ hw
  | some w =>
    have hw := (h w).1 hat
    cases comment with
    | none =>
      have hnull : v.ShowsComment keys key none ↔ w = null :=
        ⟨fun hall => hall w hw, fun hnull u hu => (h.unique hu hw).trans hnull⟩
      rw [hnull]
      cases w <;> simp [Record.comment?, string?]
    | some text =>
      have htext : v.ShowsComment keys key (some text) ↔
          ∃ glyphs, w = string glyphs ∧ textOf? glyphs = some text := by
        constructor
        · rintro ⟨glyphs, hw', htext⟩
          exact ⟨glyphs, h.unique hw hw', htext⟩
        · rintro ⟨glyphs, rfl, htext⟩
          exact ⟨glyphs, hw, htext⟩
      rw [htext]
      cases w <;> simp [Record.comment?, string?]

theorem unrepeated_of_stands_array {items : List Json} {w : Json} (hv : v.unrepeated)
    (hitems : v.Stands keys key (array items)) (hw : w ∈ items) : w.unrepeated :=
  everywhere_of_mem (hitems.everywhere hv) hw

theorem list?_eq_some_iff (hv : v.unrepeated) (h : v.Finds keys key) {decode : Json → Option α}
    (hdecode : ∀ w, w.unrepeated → ∀ a, decode w = some a ↔ R w a) {l : List α} :
    Record.list? decode (v.at? keys key) = some l ↔ v.ShowsList R keys key l := by
  by_cases harray : ∃ items, v.Stands keys key (array items)
  · obtain ⟨items, hitems⟩ := harray
    have hitem : ∀ w ∈ items, ∀ a, decode w = some a ↔ R w a := fun w hw =>
      hdecode w (unrepeated_of_stands_array hv hitems hw)
    rw [(h _).2 hitems, Record.list?, mapM_eq_some_iff]
    constructor
    · intro hl
      exact Or.inl ⟨items, hitems, forall₂_imp_of_mem hl fun w hw a => (hitem w hw a).1⟩
    · rintro (⟨items', hitems', hl⟩ | ⟨hnone, _⟩)
      · obtain rfl := array.inj (h.unique hitems hitems')
        exact forall₂_imp_of_mem hl fun w hw a => (hitem w hw a).2
      · exact absurd hitems (hnone items)
  · have hnone := not_exists.1 harray
    have hempty : Record.list? decode (v.at? keys key) = some [] := by
      cases hat : v.at? keys key with
      | none => rfl
      | some w =>
        cases w with
        | array items => exact absurd ((h _).1 hat) (hnone items)
        | _ => rfl
    rw [hempty, Option.some_inj, eq_comm]
    constructor
    · intro hl
      exact Or.inr ⟨hnone, hl⟩
    · rintro (⟨items, hitems, _⟩ | ⟨_, hl⟩)
      · exact absurd hitems (hnone items)
      · exact hl

theorem hasString_of_showsText {text : String} (h : v.ShowsText keys key text) :
    v.HasString keys key := by
  obtain ⟨glyphs, hw, _⟩ := h
  exact ⟨glyphs, hw⟩

theorem hasComment_of_showsComment (h : v.Finds keys key) {comment : Option String}
    (hcomment : v.ShowsComment keys key comment) : v.HasComment keys key := by
  intro w hw
  cases comment with
  | none => exact Or.inl (hcomment w hw)
  | some text =>
    obtain ⟨glyphs, hw', _⟩ := hcomment
    exact Or.inr ⟨glyphs, h.unique hw hw'⟩

theorem hasList_of_showsList (hv : v.unrepeated) (h : v.Finds keys key)
    (hR : ∀ w, w.unrepeated → ∀ a, R w a → p w) {l : List α} (hl : v.ShowsList R keys key l) :
    v.HasList p keys key := by
  intro items hitems w hw
  rcases hl with ⟨items', hitems', hl⟩ | ⟨hnone, _⟩
  · obtain rfl := array.inj (h.unique hitems hitems')
    obtain ⟨a, _, ha⟩ := exists_mem_of_forall₂ hl hw
    exact hR w (unrepeated_of_stands_array hv hitems hw) a ha
  · exact absurd hitems (hnone items)

theorem readable?_iff (h : v.Finds keys key) {levels : Nat} :
    Record.readable? levels (v.at? keys key) ↔ ∀ w, v.Stands keys key w → w.readable levels := by
  rw [Record.readable?, Option.all_eq_true]
  exact forall_congr' fun w => imp_congr_left (h w)

theorem readable_of_showsText (h : v.Finds keys key) {text : String}
    (htext : v.ShowsText keys key text) (levels : Nat) {w : Json} (hw : v.Stands keys key w) :
    w.readable levels := by
  obtain ⟨glyphs, hw', hglyphs⟩ := htext
  rw [h.unique hw hw', readable, hglyphs, Option.isSome_some]

theorem readable_of_showsComment (h : v.Finds keys key) {comment : Option String}
    (hcomment : v.ShowsComment keys key comment) (levels : Nat) {w : Json}
    (hw : v.Stands keys key w) : w.readable levels := by
  cases comment with
  | none => rw [hcomment w hw, readable]
  | some text => exact readable_of_showsText h hcomment levels hw

theorem exists_showsText (hlegible : v.LegibleAt keys key)
    (h : v.HasString keys key) : ∃ text, v.ShowsText keys key text := by
  obtain ⟨glyphs, hw⟩ := h
  obtain ⟨text, htext⟩ := Option.isSome_iff_exists.1 (hlegible _ hw)
  exact ⟨text, glyphs, hw, htext⟩

theorem exists_showsComment (hlegible : v.LegibleAt keys key)
    (hcomment : v.HasComment keys key) : ∃ comment, v.ShowsComment keys key comment := by
  by_cases hstring : v.HasString keys key
  · obtain ⟨text, htext⟩ := exists_showsText hlegible hstring
    exact ⟨some text, htext⟩
  · refine ⟨none, fun w hw => ?_⟩
    rcases hcomment w hw with hnull | ⟨glyphs, rfl⟩
    · exact hnull
    · exact absurd ⟨glyphs, hw⟩ hstring

theorem exists_showsList (hlegible : v.LegibleAt keys key)
    (hp : ∀ w, w.legible → p w → ∃ a, R w a) (hlist : v.HasList p keys key) :
    ∃ l, v.ShowsList R keys key l := by
  by_cases harray : ∃ items, v.Stands keys key (array items)
  · obtain ⟨items, hitems⟩ := harray
    have hall : ∀ w ∈ items, ∃ a, R w a := fun w hw =>
      hp w (everywhere_of_mem (hlegible _ hitems) hw) (hlist items hitems w hw)
    obtain ⟨l, hl⟩ := exists_forall₂ hall
    exact ⟨l, Or.inl ⟨items, hitems, hl⟩⟩
  · exact ⟨[], Or.inr ⟨not_exists.1 harray, rfl⟩⟩

end Json

open Json

variable {v : Json}

namespace FieldRecord

structure WellShaped (v : Json) : Prop where
  shape : v.isRecord keys
  name : v.HasString keys "1"
  typeToken : v.HasString keys "2"
  comment : v.HasComment keys "6"

structure Shows (v : Json) (r : FieldRecord) : Prop where
  shape : v.isRecord keys
  name : v.ShowsText keys "1" r.name
  typeToken : v.ShowsText keys "2" r.typeToken
  comment : v.ShowsComment keys "6" r.comment

theorem finds (hv : v.unrepeated) : ∀ key ∈ keys, v.Finds keys key :=
  fun _ hkey => finds_of_unrepeated hv (by decide) hkey

theorem decode?_eq_some_iff (hv : v.unrepeated) {r : FieldRecord} :
    decode? v = some r ↔ Shows v r := by
  have hfinds := finds hv
  rw [decode?, guard_bind_eq_some_iff]
  simp only [Option.bind_eq_bind, Option.bind_eq_some_iff, Option.pure_def, Option.some_inj,
    text?_eq_some_iff (hfinds "1" (by decide)), text?_eq_some_iff (hfinds "2" (by decide)),
    comment?_eq_some_iff (hfinds "6" (by decide))]
  constructor
  · rintro ⟨hshape, name, hname, token, htoken, comment, hcomment, rfl⟩
    exact ⟨hshape, hname, htoken, hcomment⟩
  · rintro ⟨hshape, hname, htoken, hcomment⟩
    exact ⟨hshape, _, hname, _, htoken, _, hcomment, rfl⟩

theorem Shows.wellShaped (hv : v.unrepeated) {r : FieldRecord} (h : Shows v r) : WellShaped v :=
  ⟨h.shape, hasString_of_showsText h.name, hasString_of_showsText h.typeToken,
    hasComment_of_showsComment (finds hv "6" (by decide)) h.comment⟩

theorem WellShaped.exists_shows (hv : ∀ key ∈ keys, v.LegibleAt keys key)
    (h : WellShaped v) : ∃ r, Shows v r := by
  obtain ⟨name, hname⟩ := exists_showsText (hv "1" (by decide)) h.name
  obtain ⟨token, htoken⟩ := exists_showsText (hv "2" (by decide)) h.typeToken
  obtain ⟨comment, hcomment⟩ := exists_showsComment (hv "6" (by decide)) h.comment
  exact ⟨⟨name, token, comment⟩, h.shape, hname, htoken, hcomment⟩

end FieldRecord

namespace MethodRecord

structure WellShaped (v : Json) : Prop where
  shape : v.isRecord keys
  name : v.HasString keys "1"
  returnToken : v.HasString keys "2"
  args : v.HasList FieldRecord.WellShaped keys "3"
  comment : v.HasComment keys "6"

structure Shows (v : Json) (r : MethodRecord) : Prop where
  shape : v.isRecord keys
  name : v.ShowsText keys "1" r.name
  returnToken : v.ShowsText keys "2" r.returnToken
  args : v.ShowsList FieldRecord.Shows keys "3" r.args
  comment : v.ShowsComment keys "6" r.comment

theorem finds (hv : v.unrepeated) : ∀ key ∈ keys, v.Finds keys key :=
  fun _ hkey => finds_of_unrepeated hv (by decide) hkey

theorem decode?_eq_some_iff (hv : v.unrepeated) {r : MethodRecord} :
    decode? v = some r ↔ Shows v r := by
  have hfinds := finds hv
  have hargs : ∀ w, w.unrepeated → ∀ a, FieldRecord.decode? w = some a ↔ FieldRecord.Shows w a :=
    fun _ hw _ => FieldRecord.decode?_eq_some_iff hw
  rw [decode?, guard_bind_eq_some_iff]
  simp only [Option.bind_eq_bind, Option.bind_eq_some_iff, Option.pure_def, Option.some_inj,
    text?_eq_some_iff (hfinds "1" (by decide)), text?_eq_some_iff (hfinds "2" (by decide)),
    list?_eq_some_iff hv (hfinds "3" (by decide)) hargs,
    comment?_eq_some_iff (hfinds "6" (by decide))]
  constructor
  · rintro ⟨hshape, name, hname, token, htoken, args, hargs, comment, hcomment, rfl⟩
    exact ⟨hshape, hname, htoken, hargs, hcomment⟩
  · rintro ⟨hshape, hname, htoken, hargs, hcomment⟩
    exact ⟨hshape, _, hname, _, htoken, _, hargs, _, hcomment, rfl⟩

theorem Shows.wellShaped (hv : v.unrepeated) {r : MethodRecord} (h : Shows v r) : WellShaped v :=
  ⟨h.shape, hasString_of_showsText h.name, hasString_of_showsText h.returnToken,
    hasList_of_showsList hv (finds hv "3" (by decide))
      (fun _ hw _ ha => FieldRecord.Shows.wellShaped hw ha) h.args,
    hasComment_of_showsComment (finds hv "6" (by decide)) h.comment⟩

theorem WellShaped.exists_shows (hv : ∀ key ∈ keys, v.LegibleAt keys key)
    (h : WellShaped v) : ∃ r, Shows v r := by
  obtain ⟨name, hname⟩ := exists_showsText (hv "1" (by decide)) h.name
  obtain ⟨token, htoken⟩ := exists_showsText (hv "2" (by decide)) h.returnToken
  obtain ⟨args, hargs⟩ := exists_showsList (hv "3" (by decide))
    (fun w hw => FieldRecord.WellShaped.exists_shows (legibleAt_of_legible hw _)) h.args
  obtain ⟨comment, hcomment⟩ := exists_showsComment (hv "6" (by decide)) h.comment
  exact ⟨⟨name, token, args, comment⟩, h.shape, hname, htoken, hargs, hcomment⟩

end MethodRecord

namespace ObjectRecord

structure WellShaped (v : Json) : Prop where
  shape : v.isRecord keys
  name : v.HasString keys "1"
  fields : v.HasList FieldRecord.WellShaped keys "2"
  methods : v.HasList MethodRecord.WellShaped keys "3"
  comment : v.HasComment keys "6"

structure Shows (v : Json) (r : ObjectRecord) : Prop where
  shape : v.isRecord keys
  name : v.ShowsText keys "1" r.name
  fields : v.ShowsList FieldRecord.Shows keys "2" r.fields
  methods : v.ShowsList MethodRecord.Shows keys "3" r.methods
  comment : v.ShowsComment keys "6" r.comment

/-- What is read in full of a record `level` levels deep can be read: its keys and the values at those
that have a meaning. -/
structure Readable (level : Nat) (v : Json) : Prop where
  keysLegible : v.keysLegible
  values : ∀ key ∈ keys, ∀ w, v.Stands keys key w → w.readable (nestingLimit - level)

theorem finds (hv : v.unrepeated) : ∀ key ∈ keys, v.Finds keys key :=
  fun _ hkey => finds_of_unrepeated hv (by decide) hkey

theorem decode?_eq_some_iff (hv : v.unrepeated) {r : ObjectRecord} :
    decode? v = some r ↔ Shows v r := by
  have hfinds := finds hv
  have hfields : ∀ w, w.unrepeated → ∀ a, FieldRecord.decode? w = some a ↔ FieldRecord.Shows w a :=
    fun _ hw _ => FieldRecord.decode?_eq_some_iff hw
  have hmethods : ∀ w, w.unrepeated → ∀ a,
      MethodRecord.decode? w = some a ↔ MethodRecord.Shows w a :=
    fun _ hw _ => MethodRecord.decode?_eq_some_iff hw
  rw [decode?, guard_bind_eq_some_iff]
  simp only [Option.bind_eq_bind, Option.bind_eq_some_iff, Option.pure_def, Option.some_inj,
    text?_eq_some_iff (hfinds "1" (by decide)),
    list?_eq_some_iff hv (hfinds "2" (by decide)) hfields,
    list?_eq_some_iff hv (hfinds "3" (by decide)) hmethods,
    comment?_eq_some_iff (hfinds "6" (by decide))]
  constructor
  · rintro ⟨hshape, name, hname, fields, hfields, methods, hmethods, comment, hcomment, rfl⟩
    exact ⟨hshape, hname, hfields, hmethods, hcomment⟩
  · rintro ⟨hshape, hname, hfields, hmethods, hcomment⟩
    exact ⟨hshape, _, hname, _, hfields, _, hmethods, _, hcomment, rfl⟩

theorem Shows.wellShaped (hv : v.unrepeated) {r : ObjectRecord} (h : Shows v r) : WellShaped v :=
  ⟨h.shape, hasString_of_showsText h.name,
    hasList_of_showsList hv (finds hv "2" (by decide))
      (fun _ hw _ hf => FieldRecord.Shows.wellShaped hw hf) h.fields,
    hasList_of_showsList hv (finds hv "3" (by decide))
      (fun _ hw _ hm => MethodRecord.Shows.wellShaped hw hm) h.methods,
    hasComment_of_showsComment (finds hv "6" (by decide)) h.comment⟩

theorem WellShaped.exists_shows (hv : ∀ key ∈ keys, v.LegibleAt keys key)
    (h : WellShaped v) : ∃ r, Shows v r := by
  obtain ⟨name, hname⟩ := exists_showsText (hv "1" (by decide)) h.name
  obtain ⟨fields, hfields⟩ := exists_showsList (hv "2" (by decide))
    (fun w hw => FieldRecord.WellShaped.exists_shows (legibleAt_of_legible hw _)) h.fields
  obtain ⟨methods, hmethods⟩ := exists_showsList (hv "3" (by decide))
    (fun w hw => MethodRecord.WellShaped.exists_shows (legibleAt_of_legible hw _)) h.methods
  obtain ⟨comment, hcomment⟩ := exists_showsComment (hv "6" (by decide)) h.comment
  exact ⟨⟨name, fields, methods, comment⟩, h.shape, hname, hfields, hmethods, hcomment⟩

theorem Readable.legibleAt {level : Nat} (h : Readable level v) :
    ∀ key ∈ keys, v.LegibleAt keys key :=
  fun key hkey w hw => ((readable_iff _ w).1 (h.values key hkey w hw)).2

theorem decodeAt?_eq_some_iff (hv : v.unrepeated) {level : Nat} {r : ObjectRecord} :
    decodeAt? level v = some r ↔ Readable level v ∧ Shows v r := by
  have hfinds := finds hv
  rw [decodeAt?, guard_bind_eq_some_iff, guard_bind_eq_some_iff, guard_bind_eq_some_iff,
    keysDistinct_iff hv, readable?_iff (hfinds "2" (by decide)), readable?_iff (hfinds "3" (by decide)),
    decode?_eq_some_iff hv]
  constructor
  · rintro ⟨hkeys, hfields, hmethods, hshows⟩
    refine ⟨⟨hkeys, fun key hkey w hw => ?_⟩, hshows⟩
    simp only [keys, List.mem_cons, List.not_mem_nil, or_false] at hkey
    rcases hkey with rfl | rfl | rfl | rfl
    · exact readable_of_showsText (hfinds "1" (by decide)) hshows.name _ hw
    · exact hfields w hw
    · exact hmethods w hw
    · exact readable_of_showsComment (hfinds "6" (by decide)) hshows.comment _ hw
  · rintro ⟨hreadable, hshows⟩
    exact ⟨hreadable.keysLegible, hreadable.values "2" (by decide), hreadable.values "3" (by decide),
      hshows⟩

end ObjectRecord

namespace DefinitionFile

structure WellShaped (v : Json) : Prop where
  shape : v.isRecord keys
  main : ∃ w, v.Stands keys "1" w ∧ ObjectRecord.WellShaped w
  classes : v.HasList ObjectRecord.WellShaped keys "2"

structure Shows (v : Json) (file : DefinitionFile) : Prop where
  shape : v.isRecord keys
  main : ∃ w, v.Stands keys "1" w ∧ ObjectRecord.Shows w file.main
  classes : v.ShowsList ObjectRecord.Shows keys "2" file.classes

/-- What is read in full of a file can be read: the keys of the file and of its main object, and the values
at those that have a meaning. -/
structure Readable (v : Json) : Prop where
  keysLegible : v.keysLegible
  main : ∀ w, v.Stands keys "1" w → ObjectRecord.Readable 2 w
  classes : ∀ w, v.Stands keys "2" w → w.readable (nestingLimit - 1)

theorem finds (hv : v.unrepeated) : ∀ key ∈ keys, v.Finds keys key :=
  fun _ hkey => finds_of_unrepeated hv (by decide) hkey

theorem decode?_eq_some_iff (hv : v.unrepeated) {file : DefinitionFile} :
    decode? v = some file ↔ Readable v ∧ Shows v file := by
  have hfinds := finds hv
  have hclasses : ∀ w, w.unrepeated → ∀ a,
      ObjectRecord.decode? w = some a ↔ ObjectRecord.Shows w a :=
    fun _ hw _ => ObjectRecord.decode?_eq_some_iff hw
  rw [decode?, guard_bind_eq_some_iff, guard_bind_eq_some_iff, guard_bind_eq_some_iff,
    keysDistinct_iff hv, readable?_iff (hfinds "2" (by decide))]
  simp only [Option.bind_eq_bind, Option.bind_eq_some_iff, Option.pure_def, Option.some_inj,
    list?_eq_some_iff hv (hfinds "2" (by decide)) hclasses]
  constructor
  · rintro ⟨hshape, hkeys, hreadable, w, hat, main, hmain, classes, hclasses, rfl⟩
    have hw := (hfinds "1" (by decide) w).1 hat
    rw [ObjectRecord.decodeAt?_eq_some_iff (hw.everywhere hv)] at hmain
    refine ⟨⟨hkeys, fun u hu => ?_, hreadable⟩, hshape, ⟨w, hw, hmain.2⟩, hclasses⟩
    rw [(hfinds "1" (by decide)).unique hu hw]
    exact hmain.1
  · rintro ⟨hreadable, hshape, ⟨w, hw, hmain⟩, hclasses⟩
    exact ⟨hshape, hreadable.keysLegible, hreadable.classes, w, (hfinds "1" (by decide) w).2 hw, _,
      (ObjectRecord.decodeAt?_eq_some_iff (hw.everywhere hv)).2 ⟨hreadable.main w hw, hmain⟩, _,
      hclasses, rfl⟩

theorem Shows.wellShaped (hv : v.unrepeated) {file : DefinitionFile} (h : Shows v file) :
    WellShaped v := by
  obtain ⟨w, hw, hmain⟩ := h.main
  exact ⟨h.shape, ⟨w, hw, hmain.wellShaped (hw.everywhere hv)⟩,
    hasList_of_showsList hv (finds hv "2" (by decide))
      (fun _ hw _ hc => ObjectRecord.Shows.wellShaped hw hc) h.classes⟩

theorem WellShaped.exists_shows (hreadable : Readable v) (h : WellShaped v) :
    ∃ file, Shows v file := by
  obtain ⟨w, hw, hmain⟩ := h.main
  obtain ⟨main, hmain⟩ := hmain.exists_shows (hreadable.main w hw).legibleAt
  have hclasses : v.LegibleAt keys "2" :=
    fun u hu => ((readable_iff _ u).1 (hreadable.classes u hu)).2
  obtain ⟨classes, hclasses⟩ := exists_showsList hclasses
    (fun u hu => ObjectRecord.WellShaped.exists_shows (legibleAt_of_legible hu _)) h.classes
  exact ⟨⟨main, classes⟩, h.shape, ⟨w, hw, hmain⟩, hclasses⟩

/-- A value that is legible throughout and not nested too deep can be read in full. -/
theorem readable_of_legible (hnesting : v.nesting ≤ nestingLimit) (h : v.legible) : Readable v := by
  have hv : v.readable nestingLimit := (readable_iff _ v).2 ⟨hnesting, h⟩
  refine ⟨keysLegible_of_legible h, fun w hw => ?_, fun w hw => hw.readable hv⟩
  exact ⟨keysLegible_of_legible (hw.everywhere h), fun key _ u hu => hu.readable (hw.readable hv)⟩

/-- A text is accepted exactly if its value is well-shaped and what is read in full of it can be, as all
of it can that is legible and not nested too deep; and what is accepted is the file that the value shows. -/
theorem ofText?_accepts_wellShaped {text : String} {v : Json} (hread : Json.read? text = some v)
    (hv : v.unrepeated) :
    ((ofText? text).isSome ↔ WellShaped v ∧ Readable v) ∧
      (v.nesting ≤ nestingLimit → v.legible → Readable v) ∧
      ∀ file, ofText? text = some file → Shows v file := by
  rw [ofText?, hread, Option.bind_some]
  refine ⟨?_, readable_of_legible, fun file hfile => ((decode?_eq_some_iff hv).1 hfile).2⟩
  rw [Option.isSome_iff_exists]
  constructor
  · rintro ⟨file, hfile⟩
    obtain ⟨hreadable, hshows⟩ := (decode?_eq_some_iff hv).1 hfile
    exact ⟨hshows.wellShaped hv, hreadable⟩
  · rintro ⟨hshape, hreadable⟩
    obtain ⟨file, hshows⟩ := hshape.exists_shows hreadable
    exact ⟨file, (decode?_eq_some_iff hv).2 ⟨hreadable, hshows⟩⟩

/-- A file with records of both kinds, a method's arguments two lists deep and a number for a list. -/
def mixedText : String :=
  "\x7b\"1\":\x7b\"1\":\"Tasks_v1\",\"3\":[\x7b\"1\":\"list\",\"2\":\"void\"," ++
    "\"3\":[[\"id\",\"String\",null]],\"9\":true\x7d,[\"get\",\"String\",[],\"One.\"]]\x7d,\"2\":0\x7d"

def mixedFile : DefinitionFile :=
  ⟨⟨"Tasks_v1", [], [⟨"list", "void", [⟨"id", "String", none⟩], none⟩,
    ⟨"get", "String", [], some "One."⟩], none⟩, []⟩

theorem ofText?_accepts_mixed :
    ∃ v, Json.read? mixedText = some v ∧ v.unrepeated ∧ WellShaped v ∧ Readable v ∧
      ofText? mixedText = some mixedFile ∧ Shows v mixedFile := by
  have hresult : ((Json.read? mixedText).map fun v => (v.unrepeated, decode? v)) =
      some (true, some mixedFile) := by decide +kernel
  obtain ⟨v, hread, hpair⟩ := Option.map_eq_some_iff.1 hresult
  obtain ⟨hv, hdecode⟩ := Prod.mk.inj hpair
  have hfile : ofText? mixedText = some mixedFile := by rw [ofText?, hread, Option.bind_some, hdecode]
  obtain ⟨hiff, _, hshows⟩ := ofText?_accepts_wellShaped hread hv
  obtain ⟨hshape, hreadable⟩ := hiff.1 (by rw [hfile]; rfl)
  exact ⟨v, hread, hv, hshape, hreadable, hfile, hshows _ hfile⟩

/-- An object that has a number in place of its fields. -/
def numbered (n : Number) : Json :=
  object [([.char '1'], string ("Tasks_v1".toList.map .char)), ([.char '2'], number n)]

theorem wellShaped_numbered (n : Number) : ObjectRecord.WellShaped (numbered n) := by
  have hkeys : ∀ {key w}, (numbered n).Stands ObjectRecord.keys key w →
      key = "1" ∧ w = string ("Tasks_v1".toList.map .char) ∨ key = "2" ∧ w = number n := by
    rintro key w ⟨hkey, hw⟩
    simp only [List.mem_cons, List.not_mem_nil, or_false, Prod.mk.injEq] at hw
    rcases hw with ⟨rfl, rfl⟩ | ⟨rfl, rfl⟩
    · exact Or.inl ⟨(Option.some.inj hkey).symm, rfl⟩
    · exact Or.inr ⟨(Option.some.inj hkey).symm, rfl⟩
  refine ⟨rfl, ⟨_, .member rfl List.mem_cons_self⟩, fun items h => ?_, fun items h => ?_,
    fun w h => ?_⟩
  · simpa using hkeys h
  · simpa using hkeys h
  · simpa using hkeys h

def numberedFile (n : Number) : Json :=
  object [([.char '1'], numbered n)]

theorem wellShaped_numberedFile (n : Number) : WellShaped (numberedFile n) := by
  refine ⟨rfl, ⟨_, .member rfl List.mem_cons_self, wellShaped_numbered n⟩, fun items h => ?_⟩
  obtain ⟨_, hw⟩ := h
  simp [numbered] at hw

/-- Whatever number stands there, the list is empty and the file well-shaped; but a number out of range is
not accepted. -/
theorem ofText?_rejects_wellShaped :
    let n : Number := ⟨false, [1], [], 999⟩
    ∃ text, Json.read? text = some (numberedFile n) ∧ (numberedFile n).unrepeated ∧
      (numberedFile n).nesting ≤ nestingLimit ∧ WellShaped (numberedFile n) ∧
      ofText? text = none := by
  intro n
  exact ⟨"\x7b\"1\":\x7b\"1\":\"Tasks_v1\",\"2\":1e999\x7d\x7d", rfl, by decide +kernel,
    by decide +kernel, wellShaped_numberedFile n, by decide +kernel⟩

end DefinitionFile
end ServiceTypings
