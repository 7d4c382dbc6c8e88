import ServiceTypings.Proofs.JsonInPlace
import ServiceTypings.Proofs.JsonValues
import ServiceTypings.Proofs.Success

/-! An object record is decoded in two places: as the main record of a file, where whatever has no meaning
is passed over, and as one of its classes, where all of it is read first. Where it repeats no key with a
meaning, both come to the same record; the list only asks in addition that all of the record can be read,
one level deeper (`ofText?_listed_iff_alone`). -/

namespace ServiceTypings

namespace Json

/-- None of `keys` is repeated in the object itself. -/
def keysOnce (keys : List String) : Json → Bool
  | object members => keys.all fun key => (members.filter (keyed key)).length ≤ 1
  | _ => true

variable {keys : List String} {key : String} {v : Json} {levels : Nat}

theorem keysDistinct_iff_keysLegible (h : v.keysOnce keys) : v.keysDistinct keys ↔ v.keysLegible := by
  cases v with
  | object members =>
    rw [keysDistinct, keysLegible, Bool.and_eq_true]
    exact and_iff_left h
  | null | bool b | number n | string glyphs | array items => rfl

theorem readable_mono {levels' : Nat} (h : v.readable levels) (hle : levels ≤ levels') :
    v.readable levels' := by
  rw [readable_iff] at h ⊢
  exact ⟨Nat.le_trans h.1 hle, h.2⟩

theorem readable?_at? (h : v.readable (levels + 1)) (hkey : key ∈ keys) :
    Record.readable? levels (v.at? keys key) := by
  cases hat : v.at? keys key with
  | none => rfl
  | some w => exact (stands_of_at?_eq_some hkey hat).readable h

theorem readable_singleton_iff : (array [v]).readable (levels + 1) ↔ v.readable levels := by
  rw [readable, readableItems, readableItems, Bool.and_true]

end Json

open Json Json.Reader

namespace ObjectRecord

variable {v : Json} {level : Nat} {x : ObjectRecord}

theorem decodeAt?_eq_some_iff_keysDistinct :
    decodeAt? level v = some x ↔
      v.keysDistinct keys ∧ Record.readable? (nestingLimit - level) (v.at? keys "2") ∧
        Record.readable? (nestingLimit - level) (v.at? keys "3") ∧ decode? v = some x := by
  rw [decodeAt?, guard_bind_eq_some_iff, guard_bind_eq_some_iff, guard_bind_eq_some_iff]

/-- A record that can be read in full is passed over nowhere. -/
theorem decodeAt?_eq_decode? (honce : v.keysOnce keys) (hv : v.readable (nestingLimit - level)) :
    decodeAt? level v = some x ↔ decode? v = some x := by
  have hlegible : v.legible := ((readable_iff _ v).1 hv).2
  have hdeeper : v.readable (nestingLimit - level + 1) := readable_mono hv (Nat.le_succ _)
  rw [decodeAt?_eq_some_iff_keysDistinct]
  constructor
  · intro h
    exact h.2.2.2
  · intro h
    have hkeys := (keysDistinct_iff_keysLegible honce).2 (keysLegible_of_legible hlegible)
    exact ⟨hkeys, readable?_at? hdeeper (by decide), readable?_at? hdeeper (by decide), h⟩

theorem list?_singleton_eq_some_iff :
    Record.list? decode? (some (array [v])) = some [x] ↔ decode? v = some x := by
  rw [Record.list?, mapM_eq_some_iff, List.forall₂_cons, and_iff_left .nil]

end ObjectRecord

namespace DefinitionFile

/-- The text is a file with that main record and with that value for its list of classes, if it has any. -/
def Holds (text : String) (main : Json) (classes : Option Json) : Prop :=
  ∃ f, Json.read? text = some f ∧ f.isRecord keys ∧ f.keysDistinct keys ∧
    f.at? keys "1" = some main ∧ f.at? keys "2" = classes

/-- The value of the list can be read in full and stands for those classes. -/
def ListsClasses (classes : Option Json) (l : List ObjectRecord) : Prop :=
  Record.readable? (nestingLimit - 1) classes ∧ Record.list? ObjectRecord.decode? classes = some l

variable {text m r : String} {v w main : Json} {classes : Option Json} {x : ObjectRecord}

theorem ofText?_eq_some_iff_of_holds (h : Holds text main classes) {file : DefinitionFile} :
    ofText? text = some file ↔
      ObjectRecord.decodeAt? 2 main = some file.main ∧ ListsClasses classes file.classes := by
  obtain ⟨f, hread, hshape, hkeys, hmain, hclasses⟩ := h
  rw [ofText?, hread, Option.bind_some, decode?, guard_bind_eq_some_iff, guard_bind_eq_some_iff,
    guard_bind_eq_some_iff, hmain, hclasses, ListsClasses]
  simp only [Option.bind_eq_bind, Option.bind_some, Option.bind_eq_some_iff, Option.pure_def,
    Option.some_inj]
  constructor
  · rintro ⟨-, -, hreadable, main', hmain', classes', hclasses', rfl⟩
    exact ⟨hmain', hreadable, hclasses'⟩
  · rintro ⟨hmain', hreadable, hclasses'⟩
    exact ⟨hshape, hkeys, hreadable, _, hmain', _, hclasses', rfl⟩

theorem listsClasses_singleton_iff :
    ListsClasses (some (array [v])) [x] ↔
      v.readable (nestingLimit - 2) ∧ ObjectRecord.decode? v = some x := by
  rw [ListsClasses, ObjectRecord.list?_singleton_eq_some_iff]
  exact and_congr_left' readable_singleton_iff

/-- A file whose main record is all it has. -/
def aloneText (r : String) : String :=
  "\x7b\"1\":" ++ r ++ "\x7d"

/-- A file with two records, the second one in the list of classes. -/
def listedText (m r : String) : String :=
  "\x7b\"1\":" ++ m ++ ",\"2\":[" ++ r ++ "]\x7d"

/-- Both files open with the key of the main record. -/
theorem leads_mainKey {cs rest : List Char} {r' : Reader}
    (h : Leads (reading [.member [] [.char '1']] .value) cs r' rest) :
    Leads start ('\x7b' :: '"' :: '1' :: '"' :: ':' :: cs) r' rest :=
  .token (by decide) rfl (by simp) rfl (.token (by decide) rfl (by simp) rfl
    (.token (by decide) rfl (by simp) rfl h))

theorem read?_aloneText (hr : Json.read? r = some v) :
    Json.read? (aloneText r) = some (object [([.char '1'], v)]) := by
  have htext : (aloneText r).toList =
      '\x7b' :: '"' :: '1' :: '"' :: ':' :: (r.toList ++ ['\x7d']) := by
    simp [aloneText]
  apply read?_of_leads
  rw [htext]
  have hend : Leads (reading [.object [([.char '1'], v)]] .more) ['\x7d']
      (finished (object [([.char '1'], v)])) [] :=
    .token (by decide) rfl (by simp) rfl (.refl _ _)
  exact leads_mainKey ((leads_of_read? hr (ends_cons (by decide) []) rfl).trans hend)

theorem read?_listedText (hm : Json.read? m = some w) (hr : Json.read? r = some v) :
    Json.read? (listedText m r) =
      some (object [([.char '1'], w), ([.char '2'], array [v])]) := by
  have htext : (listedText m r).toList = '\x7b' :: '"' :: '1' :: '"' :: ':' ::
      (m.toList ++ ',' :: '"' :: '2' :: '"' :: ':' :: '[' :: (r.toList ++ [']', '\x7d'])) := by
    simp [listedText]
  apply read?_of_leads
  rw [htext]
  have hend : Leads (reading [.array [v], .member [([.char '1'], w)] [.char '2']] .more) [']', '\x7d']
      (finished (object [([.char '1'], w), ([.char '2'], array [v])])) [] :=
    .token (by decide) rfl (by simp) rfl (.token (by decide) rfl (by simp) rfl (.refl _ _))
  have hitem : Leads (reading [.array [], .member [([.char '1'], w)] [.char '2']] .value)
      (r.toList ++ [']', '\x7d']) _ [] :=
    (leads_of_read? hr (ends_cons (by decide) _) rfl).trans hend
  have hclasses : Leads (reading [.object [([.char '1'], w)]] .more)
      (',' :: '"' :: '2' :: '"' :: ':' :: '[' :: (r.toList ++ [']', '\x7d'])) _ [] :=
    .token (by decide) rfl (by simp) rfl (.token (by decide) rfl (by simp) rfl
      (.token (by decide) rfl (by simp) rfl (.token (by decide) rfl (by simp) rfl hitem.firstItem)))
  exact leads_mainKey ((leads_of_read? hm (ends_cons (by decide) _) rfl).trans hclasses)

/-- A record that repeats no key with a meaning is the same listed as alone, whatever files it stands in and
whatever main record it is listed with, if all of it can be read where it is listed; otherwise it is not
listed at all. And the text of every record can be put in both places. -/
theorem ofText?_listed_iff_alone (hr : Json.read? r = some v) (honce : v.keysOnce ObjectRecord.keys) :
    (∀ listed m main alone classes l x, Holds listed m (some (array [v])) →
      ObjectRecord.decodeAt? 2 m = some main → Holds alone v classes → ListsClasses classes l →
      (ofText? listed = some ⟨main, [x]⟩ ↔
        ofText? alone = some ⟨x, l⟩ ∧ v.readable (nestingLimit - 2))) ∧
    Holds (aloneText r) v none ∧
    ∀ m w, Json.read? m = some w → Holds (listedText m r) w (some (array [v])) := by
  refine ⟨?_, ⟨_, read?_aloneText hr, rfl, rfl, rfl, rfl⟩,
    fun m w hm => ⟨_, read?_listedText hm hr, rfl, rfl, rfl, rfl⟩⟩
  intro listed m main alone classes l x hlisted hmain halone hclasses
  rw [ofText?_eq_some_iff_of_holds hlisted, ofText?_eq_some_iff_of_holds halone,
    listsClasses_singleton_iff]
  constructor
  · rintro ⟨-, hreadable, hx⟩
    exact ⟨⟨(ObjectRecord.decodeAt?_eq_decode? honce hreadable).2 hx, hclasses⟩, hreadable⟩
  · rintro ⟨⟨hx, -⟩, hreadable⟩
    exact ⟨hmain, hreadable, (ObjectRecord.decodeAt?_eq_decode? honce hreadable).1 hx⟩

/-- A record with a key twice that has no meaning, and with fields of both kinds. -/
def looseText : String :=
  "\x7b\"9\":[1,[2]],\"1\":\"Kind_v1\",\"9\":null," ++
    "\"2\":[[\"id\",\"String\"],\x7b\"2\":\"number\",\"7\":[[]],\"1\":\"size\"\x7d]\x7d"

def looseRecord : ObjectRecord :=
  ⟨"Kind_v1", [⟨"id", "String", none⟩, ⟨"size", "number", none⟩], [], none⟩

theorem ofText?_listed_loose :
    ∃ v, Json.read? looseText = some v ∧ v.keysOnce ObjectRecord.keys ∧ v.readable (nestingLimit - 2) ∧
      ofText? (aloneText looseText) = some ⟨looseRecord, []⟩ ∧
      ofText? (listedText "[\"Tasks_v1\"]" looseText) =
        some ⟨⟨"Tasks_v1", [], [], none⟩, [looseRecord]⟩ := by
  have hvalue : (Json.read? looseText).map (fun v =>
      (v.keysOnce ObjectRecord.keys, v.readable (nestingLimit - 2))) = some (true, true) := by
    decide +kernel
  obtain ⟨v, hread, hpair⟩ := Option.map_eq_some_iff.1 hvalue
  obtain ⟨honce, hreadable⟩ := Prod.mk.inj hpair
  have halone : ofText? (aloneText looseText) = some ⟨looseRecord, []⟩ := by decide +kernel
  obtain ⟨hiff, hholds, hlisted⟩ := ofText?_listed_iff_alone hread honce
  have hmain : Json.read? "[\"Tasks_v1\"]" = some (array [string ("Tasks_v1".toList.map .char)]) := rfl
  refine ⟨v, hread, honce, hreadable, halone, ?_⟩
  exact (hiff _ _ _ _ _ _ _ (hlisted _ _ hmain) rfl hholds ⟨rfl, rfl⟩).2 ⟨halone, hreadable⟩

end DefinitionFile
end ServiceTypings
