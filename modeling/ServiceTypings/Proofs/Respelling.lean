import Mathlib.Logic.Relation
import ServiceTypings.Proofs.RecordEdits

/-! Decoding does not depend on how a definition file is spelled. An edit of a file is an edit of the file
itself, of its main object, or of any record in its lists, however deep. Each edit keeps what the file is
decoded to, and so do any number of them one after another (`ofText?_of_edits`). What an edit adds has to
be legible, since a list is read in full before it counts as none (`ofText?_rejects_number_for_list`). -/

namespace ServiceTypings

open Json

namespace FieldRecord

def kind : RecordKind :=
  ⟨keys, [], ["6"], by decide, by decide⟩

/-- The record repeats no key that has a meaning. -/
def Once (v : Json) : Prop :=
  v.keysOnce keys

theorem once_of_unrepeated {v : Json} (h : v.unrepeated) : Once v :=
  keysOnce_of_unrepeated h

theorem keeps : Keeps kind.Edit Once decode? := by
  refine ⟨fun v w h => h.keysOnce, fun v w h honce => ?_, fun v w h => h.legible⟩
  have hshape : w.isRecord keys = v.isRecord keys := h.isRecord_eq
  have hname : w.at? keys "1" = v.at? keys "1" := h.at?_eq honce (by decide) (by decide) (by decide)
  have htype : w.at? keys "2" = v.at? keys "2" := h.at?_eq honce (by decide) (by decide) (by decide)
  have hcomment : Record.comment? (w.at? keys "6") = Record.comment? (v.at? keys "6") :=
    h.comment?_eq honce (by decide) (by decide)
  rw [decode?, decode?, hshape, hname, htype, hcomment]

end FieldRecord

namespace MethodRecord

def kind : RecordKind :=
  ⟨keys, ["3"], ["6"], by decide, by decide⟩

/-- Neither the record nor one of its arguments repeats a key that has a meaning. -/
structure Once (v : Json) : Prop where
  keysOnce : v.keysOnce keys
  args : ∀ x ∈ v.valuesAt keys "3", x.Each FieldRecord.Once

/-- One edit of the record or of one of its arguments. -/
inductive Edit (v w : Json) : Prop
  | record (h : kind.Edit v w)
  | arg (h : Replaced keys "3" (ItemReplaced FieldRecord.kind.Edit) v w)

theorem once_of_unrepeated {v : Json} (h : v.unrepeated) : Once v :=
  ⟨keysOnce_of_unrepeated h, fun _ hx =>
    each_of_unrepeated (fun _ => FieldRecord.once_of_unrepeated) (everywhere_of_mem_valuesAt h hx)⟩

variable {v w : Json}

theorem once_of_edit (h : Edit v w) (hv : Once v) : Once w := by
  cases h with
  | record h => exact ⟨h.keysOnce hv.keysOnce, h.each hv.keysOnce (by decide) (by decide) hv.args⟩
  | arg h =>
    exact ⟨h.keysOnce kind.nodup hv.keysOnce,
      FieldRecord.keeps.each kind.nodup hv.keysOnce (by decide) h hv.args⟩

theorem decode?_eq_of_edit (h : Edit v w) (hv : Once v) : decode? w = decode? v := by
  have honce := hv.keysOnce
  cases h with
  | record h =>
    have hshape : w.isRecord keys = v.isRecord keys := h.isRecord_eq
    have hname : w.at? keys "1" = v.at? keys "1" := h.at?_eq honce (by decide) (by decide) (by decide)
    have hreturn : w.at? keys "2" = v.at? keys "2" := h.at?_eq honce (by decide) (by decide) (by decide)
    have hargs : Record.list? FieldRecord.decode? (w.at? keys "3") =
        Record.list? FieldRecord.decode? (v.at? keys "3") := h.list?_eq honce (by decide) (by decide) _
    have hcomment : Record.comment? (w.at? keys "6") = Record.comment? (v.at? keys "6") :=
      h.comment?_eq honce (by decide) (by decide)
    rw [decode?, decode?, hshape, hname, hreturn, hargs, hcomment]
  | arg h =>
    have hargs : Record.list? FieldRecord.decode? (w.at? keys "3") =
        Record.list? FieldRecord.decode? (v.at? keys "3") :=
      FieldRecord.keeps.list?_eq kind.nodup honce (by decide) h hv.args
    rw [decode?, decode?, h.isRecord_eq, h.at?_eq_of_ne (by decide) (by decide : "1" ≠ "3"),
      h.at?_eq_of_ne (by decide) (by decide : "2" ≠ "3"), hargs,
      h.at?_eq_of_ne (by decide) (by decide : "6" ≠ "3")]

theorem keeps : Keeps Edit Once decode? := by
  refine ⟨fun v w => once_of_edit, fun v w => decode?_eq_of_edit, fun v w h => ?_⟩
  cases h with
  | record h => exact h.legible
  | arg h => exact h.legible FieldRecord.keeps.items.legible

end MethodRecord

namespace ObjectRecord

def kind : RecordKind :=
  ⟨keys, ["2", "3"], ["6"], by decide, by decide⟩

/-- No record in the object, itself included, repeats a key that has a meaning. -/
structure Once (v : Json) : Prop where
  keysOnce : v.keysOnce keys
  fields : ∀ x ∈ v.valuesAt keys "2", x.Each FieldRecord.Once
  methods : ∀ x ∈ v.valuesAt keys "3", x.Each MethodRecord.Once

/-- One edit of the object or of a record in it. -/
inductive Edit (v w : Json) : Prop
  | record (h : kind.Edit v w)
  | field (h : Replaced keys "2" (ItemReplaced FieldRecord.kind.Edit) v w)
  | method (h : Replaced keys "3" (ItemReplaced MethodRecord.Edit) v w)

theorem once_of_unrepeated {v : Json} (h : v.unrepeated) : Once v := by
  refine ⟨keysOnce_of_unrepeated h, fun x hx => ?_, fun x hx => ?_⟩
  · exact each_of_unrepeated (fun _ => FieldRecord.once_of_unrepeated) (everywhere_of_mem_valuesAt h hx)
  · exact each_of_unrepeated (fun _ => MethodRecord.once_of_unrepeated) (everywhere_of_mem_valuesAt h hx)

variable {v w : Json}

theorem once_of_edit (h : Edit v w) (hv : Once v) : Once w := by
  have honce := hv.keysOnce
  cases h with
  | record h =>
    exact ⟨h.keysOnce honce, h.each honce (by decide) (by decide) hv.fields,
      h.each honce (by decide) (by decide) hv.methods⟩
  | field h =>
    refine ⟨h.keysOnce kind.nodup honce,
      FieldRecord.keeps.each kind.nodup honce (by decide) h hv.fields, ?_⟩
    rw [h.valuesAt_eq_of_ne (by decide) (by decide)]
    exact hv.methods
  | method h =>
    refine ⟨h.keysOnce kind.nodup honce, ?_,
      MethodRecord.keeps.each kind.nodup honce (by decide) h hv.methods⟩
    rw [h.valuesAt_eq_of_ne (by decide) (by decide)]
    exact hv.fields

theorem decode?_eq_of_edit (h : Edit v w) (hv : Once v) : decode? w = decode? v := by
  have honce := hv.keysOnce
  cases h with
  | record h =>
    have hshape : w.isRecord keys = v.isRecord keys := h.isRecord_eq
    have hname : w.at? keys "1" = v.at? keys "1" := h.at?_eq honce (by decide) (by decide) (by decide)
    have hfields : Record.list? FieldRecord.decode? (w.at? keys "2") =
        Record.list? FieldRecord.decode? (v.at? keys "2") := h.list?_eq honce (by decide) (by decide) _
    have hmethods : Record.list? MethodRecord.decode? (w.at? keys "3") =
        Record.list? MethodRecord.decode? (v.at? keys "3") := h.list?_eq honce (by decide) (by decide) _
    have hcomment : Record.comment? (w.at? keys "6") = Record.comment? (v.at? keys "6") :=
      h.comment?_eq honce (by decide) (by decide)
    rw [decode?, decode?, hshape, hname, hfields, hmethods, hcomment]
  | field h =>
    have hfields : Record.list? FieldRecord.decode? (w.at? keys "2") =
        Record.list? FieldRecord.decode? (v.at? keys "2") :=
      FieldRecord.keeps.list?_eq kind.nodup honce (by decide) h hv.fields
    rw [decode?, decode?, h.isRecord_eq, h.at?_eq_of_ne (by decide) (by decide : "1" ≠ "2"), hfields,
      h.at?_eq_of_ne (by decide) (by decide : "3" ≠ "2"),
      h.at?_eq_of_ne (by decide) (by decide : "6" ≠ "2")]
  | method h =>
    have hmethods : Record.list? MethodRecord.decode? (w.at? keys "3") =
        Record.list? MethodRecord.decode? (v.at? keys "3") :=
      MethodRecord.keeps.list?_eq kind.nodup honce (by decide) h hv.methods
    rw [decode?, decode?, h.isRecord_eq, h.at?_eq_of_ne (by decide) (by decide : "1" ≠ "3"),
      h.at?_eq_of_ne (by decide) (by decide : "2" ≠ "3"), hmethods,
      h.at?_eq_of_ne (by decide) (by decide : "6" ≠ "3")]

theorem keeps : Keeps Edit Once decode? := by
  refine ⟨fun v w => once_of_edit, fun v w => decode?_eq_of_edit, fun v w h => ?_⟩
  cases h with
  | record h => exact h.legible
  | field h => exact h.legible FieldRecord.keeps.items.legible
  | method h => exact h.legible MethodRecord.keeps.items.legible

/-- The value spells the record as a main object: its keys and its lists have a meaning throughout. What
else it holds is passed over. -/
structure Spells (v : Json) (r : ObjectRecord) : Prop where
  once : Once v
  keysLegible : v.keysLegible
  lists : ∀ key ∈ kind.lists, ∀ x ∈ v.valuesAt keys key, x.legible
  decoded : decode? v = some r

theorem Spells.of_edit {r : ObjectRecord} (hv : Spells v r) (h : Edit v w) : Spells w r := by
  refine ⟨once_of_edit h hv.once, ?_, fun key hkey => ?_, ?_⟩
  · cases h with
    | record h => exact h.keysLegible hv.keysLegible
    | field h => exact h.keysLegible hv.keysLegible
    | method h => exact h.keysLegible hv.keysLegible
  · have hkeys : key ∈ kind.keys := by
      revert key
      decide
    have hlists := hv.lists key hkey
    cases h with
    | record h => exact h.legible_valuesAt hv.once.keysOnce hkeys hlists
    | field h => exact h.legible_valuesAt kind.nodup FieldRecord.keeps.items.legible hkeys hlists
    | method h => exact h.legible_valuesAt kind.nodup MethodRecord.keeps.items.legible hkeys hlists
  · rw [decode?_eq_of_edit h hv.once]
    exact hv.decoded

/-- What is read directly and accepted spells what it is read as. -/
theorem spells_of_decodeAt? {level : Nat} {r : ObjectRecord} (hv : v.unrepeated)
    (h : decodeAt? level v = some r) : Spells v r := by
  have honce := once_of_unrepeated hv
  rw [decodeAt?_eq_some_iff_keysDistinct, keysDistinct_iff_keysLegible honce.keysOnce] at h
  obtain ⟨hkeys, hfields, hmethods, hdecode⟩ := h
  have hfields := legible_of_readable? honce.keysOnce (by decide) hfields
  have hmethods := legible_of_readable? honce.keysOnce (by decide) hmethods
  exact ⟨honce, hkeys, List.forall_mem_cons.2 ⟨hfields, List.forall_mem_singleton.2 hmethods⟩, hdecode⟩

theorem Spells.decodeAt?_eq {level : Nat} {r : ObjectRecord} (h : Spells v r)
    (hnesting : v.nesting ≤ nestingLimit - level + 1) : decodeAt? level v = some r := by
  rw [decodeAt?_eq_some_iff_keysDistinct, keysDistinct_iff_keysLegible h.once.keysOnce]
  exact ⟨h.keysLegible, readable?_of_legible (by decide) hnesting (h.lists "2" (by decide)),
    readable?_of_legible (by decide) hnesting (h.lists "3" (by decide)), h.decoded⟩

end ObjectRecord

namespace DefinitionFile

def kind : RecordKind :=
  ⟨keys, ["2"], [], by decide, by decide⟩

/-- One edit of the file, of its main object or of one of its classes. -/
inductive Edit (v w : Json) : Prop
  | file (h : kind.Edit v w)
  | main (h : Replaced keys "1" ObjectRecord.Edit v w)
  | cls (h : Replaced keys "2" (ItemReplaced ObjectRecord.Edit) v w)

/-- The value spells the file: its main object is spelled by the one value at its key, its classes are
legible and decoded to those of the file, and what else there is is passed over. -/
structure Spells (v : Json) (file : DefinitionFile) : Prop where
  shape : v.isRecord keys
  keysOnce : v.keysOnce keys
  keysLegible : v.keysLegible
  main : ∃ x, v.valuesAt keys "1" = [x] ∧ ObjectRecord.Spells x file.main
  legible : ∀ x ∈ v.valuesAt keys "2", x.legible
  each : ∀ x ∈ v.valuesAt keys "2", x.Each ObjectRecord.Once
  classes : Record.list? ObjectRecord.decode? (v.at? keys "2") = some file.classes

variable {v w : Json} {file : DefinitionFile}

/-- One edit keeps what is spelled. -/
theorem Spells.of_edit (hv : Spells v file) (h : Edit v w) : Spells w file := by
  have honce := hv.keysOnce
  obtain ⟨x, hx, hmain⟩ := hv.main
  cases h with
  | file h =>
    have hshape : w.isRecord keys = v.isRecord keys := h.isRecord_eq
    have hclasses : Record.list? ObjectRecord.decode? (w.at? keys "2") =
        Record.list? ObjectRecord.decode? (v.at? keys "2") := h.list?_eq honce (by decide) (by decide) _
    have hsame : w.valuesAt keys "1" = v.valuesAt keys "1" :=
      (h.alike honce (by decide)).eq_of_text (by decide) (by decide) (by decide)
    exact ⟨hshape ▸ hv.shape, h.keysOnce honce, h.keysLegible hv.keysLegible, ⟨x, hsame.trans hx, hmain⟩,
      h.legible_valuesAt honce (by decide) hv.legible, h.each honce (by decide) (by decide) hv.each,
      hclasses.trans hv.classes⟩
  | main h =>
    obtain ⟨y, z, hyz, hy, hz⟩ := h.exists_valuesAt_eq_singleton kind.nodup honce (by decide)
    obtain rfl : y = x := by simpa [hx] using hy.symm
    have hsame : w.valuesAt keys "2" = v.valuesAt keys "2" := h.valuesAt_eq_of_ne (by decide) (by decide)
    refine ⟨h.isRecord_eq ▸ hv.shape, h.keysOnce kind.nodup honce, h.keysLegible hv.keysLegible,
      ⟨z, hz, hmain.of_edit hyz⟩, hsame ▸ hv.legible, hsame ▸ hv.each, ?_⟩
    rw [h.at?_eq_of_ne (by decide) (by decide)]
    exact hv.classes
  | cls h =>
    have hsame : w.valuesAt keys "1" = v.valuesAt keys "1" := h.valuesAt_eq_of_ne (by decide) (by decide)
    have hclasses := ObjectRecord.keeps.list?_eq kind.nodup honce (by decide) h hv.each
    exact ⟨h.isRecord_eq ▸ hv.shape, h.keysOnce kind.nodup honce, h.keysLegible hv.keysLegible,
      ⟨x, hsame.trans hx, hmain⟩,
      h.legible_valuesAt kind.nodup ObjectRecord.keeps.items.legible (by decide) hv.legible,
      ObjectRecord.keeps.each kind.nodup honce (by decide) h hv.each, hclasses.trans hv.classes⟩

/-- So does any sequence of edits. -/
theorem Spells.of_edits (hv : Spells v file) (h : Relation.ReflTransGen Edit v w) : Spells w file := by
  induction h with
  | refl => exact hv
  | tail _ hedit ih => exact ih.of_edit hedit

theorem spells_of_decode? (hv : v.unrepeated) (h : decode? v = some file) : Spells v file := by
  have honce : v.keysOnce keys := keysOnce_of_unrepeated hv
  rw [decode?, guard_bind_eq_some_iff, guard_bind_eq_some_iff, guard_bind_eq_some_iff,
    keysDistinct_iff_keysLegible honce] at h
  simp only [Option.bind_eq_bind, Option.bind_eq_some_iff, Option.pure_def, Option.some_inj] at h
  obtain ⟨hshape, hkeys, hreadable, x, hx, main, hmain, classes, hclasses, rfl⟩ := h
  have hvalues := valuesAt_eq_singleton honce (by decide) hx
  have hunrepeated : x.unrepeated := everywhere_of_mem_valuesAt hv (hvalues ▸ List.mem_singleton_self x)
  refine ⟨hshape, honce, hkeys, ⟨x, hvalues, ObjectRecord.spells_of_decodeAt? hunrepeated hmain⟩,
    legible_of_readable? honce (by decide) hreadable, fun y hy => ?_, hclasses⟩
  exact each_of_unrepeated (fun _ => ObjectRecord.once_of_unrepeated) (everywhere_of_mem_valuesAt hv hy)

theorem Spells.decode?_eq (h : Spells v file) (hnesting : v.nesting ≤ nestingLimit) :
    decode? v = some file := by
  obtain ⟨x, hx, hmain⟩ := h.main
  have hat : v.at? keys "1" = some x := by rw [at?_eq_getLast?_valuesAt, hx, List.getLast?_singleton]
  have hlt := (stands_of_at?_eq_some (by decide) hat).nesting_lt
  have hdecode : ObjectRecord.decodeAt? 2 x = some file.main :=
    hmain.decodeAt?_eq (by rw [nestingLimit] at hnesting ⊢; omega)
  rw [decode?, guard_bind_eq_some_iff, guard_bind_eq_some_iff, guard_bind_eq_some_iff,
    keysDistinct_iff_keysLegible h.keysOnce, hat, h.classes]
  simp only [Option.bind_eq_bind, Option.bind_some, hdecode, Option.pure_def]
  exact ⟨h.shape, h.keysLegible, readable?_of_legible (by decide) hnesting h.legible, trivial⟩

/-- However a file is edited, and however often, it is read as the same file: by changing the order of
members, by adding or taking away what says nothing, by writing records as arrays or as objects, in the
file, its main object and all records in it. What is added has to be legible, and the text not nested too
deep at the end. -/
theorem ofText?_of_edits {text text' : String} (hread : Json.read? text = some v) (hv : v.unrepeated)
    (hfile : ofText? text = some file) (hedits : Relation.ReflTransGen Edit v w)
    (hread' : Json.read? text' = some w) (hnesting : w.nesting ≤ nestingLimit) :
    ofText? text' = some file := by
  rw [ofText?, hread, Option.bind_some] at hfile
  rw [ofText?, hread', Option.bind_some]
  exact ((spells_of_decode? hv hfile).of_edits hedits).decode?_eq hnesting

def serviceName : Json :=
  string ("Tasks_v1".toList.map .char)

/-- The members of a method's record: its name, its return type, and a word in place of its arguments. -/
def listName : List Glyph × Json :=
  ([.char '1'], string ("list".toList.map .char))

def listReturn : List Glyph × Json :=
  ([.char '2'], string ("void".toList.map .char))

def noArguments : List Glyph × Json :=
  ([.char '3'], bool false)

def serviceMembers : List (List Glyph × Json) :=
  [([.char '1'], serviceName), ([.char '3'], array [object [listName, listReturn]])]

def serviceItems (method : Json) : List Json :=
  [serviceName, null, array [method]]

/-- A file with that main object and a member that has no meaning. -/
def extraFile (main : Json) : Json :=
  object [([.char '9'], bool true), ([.char '1'], main)]

theorem positional_service :
    ObjectRecord.kind.Positional serviceMembers (serviceItems (object [listName, listReturn])) := by
  refine ⟨by decide, List.forall_mem_cons.2 ⟨.inl rfl, List.forall_mem_cons.2 ⟨.inr ⟨rfl, by decide, rfl⟩,
    List.forall_mem_cons.2 ⟨.inl rfl, List.forall_mem_singleton.2 (.inl rfl)⟩⟩⟩⟩

/-- An edit of the method in the array that the main object is written as. -/
theorem edit_of_method {m m' : Json} (h : MethodRecord.Edit m m') :
    Edit (extraFile (array (serviceItems m))) (extraFile (array (serviceItems m'))) := by
  have hitem : ItemReplaced MethodRecord.Edit (array [m]) (array [m']) := @ItemReplaced.mk _ [] [] m m' h
  have hobject : ObjectRecord.Edit (array (serviceItems m)) (array (serviceItems m')) :=
    .method (@Replaced.item _ _ _ [serviceName, null] [] _ _ rfl hitem)
  exact .main (@Replaced.member _ _ _ [([.char '9'], bool true)] [] [.char '1'] _ _ rfl hobject)

/-- Four edits: a member is added to the file, its main object becomes an array, the method's members
change places, and the method gets a word in place of its arguments. -/
theorem edits_of_service :
    Relation.ReflTransGen Edit (object [([.char '1'], object serviceMembers)])
      (extraFile (array (serviceItems (object [listReturn, listName, noArguments])))) := by
  have hadd : Edit (object [([.char '1'], object serviceMembers)]) (extraFile (object serviceMembers)) :=
    .file (@RecordKind.Edit.add kind [] [([.char '1'], object serviceMembers)] [.char '9'] "9" (bool true)
      rfl rfl (.unknown (by decide)) (fun h => absurd h (by decide)))
  have harray : Edit (extraFile (object serviceMembers))
      (extraFile (array (serviceItems (object [listName, listReturn])))) :=
    .main (@Replaced.member _ _ _ [([.char '9'], bool true)] [] [.char '1'] _ _ rfl
      (.record (.toArray positional_service)))
  have hpermute : MethodRecord.Edit (object [listName, listReturn]) (object [listReturn, listName]) :=
    .record (.permute (List.Perm.swap ..))
  have hsilent : MethodRecord.Edit (object [listReturn, listName])
      (object [listReturn, listName, noArguments]) :=
    .record (@RecordKind.Edit.add MethodRecord.kind [listReturn, listName] [] [.char '3'] "3" (bool false)
      rfl rfl (.list (by decide) (by simp)) fun _ => rfl)
  exact .head hadd (.head harray (.head (edit_of_method hpermute) (.single (edit_of_method hsilent))))

def serviceText : String :=
  "\x7b\"1\":\x7b\"1\":\"Tasks_v1\",\"3\":[\x7b\"1\":\"list\",\"2\":\"void\"\x7d]\x7d\x7d"

def editedText : String :=
  "\x7b\"9\":true,\"1\":[\"Tasks_v1\",null,[\x7b\"2\":\"void\",\"1\":\"list\",\"3\":false\x7d]]\x7d"

def serviceFile : DefinitionFile :=
  ⟨⟨"Tasks_v1", [], [⟨"list", "void", [], none⟩], none⟩, []⟩

theorem ofText?_of_four_edits :
    ofText? serviceText = some serviceFile ∧ ofText? editedText = some serviceFile := by
  have hread : Json.read? serviceText = some (object [([.char '1'], object serviceMembers)]) := rfl
  have hread' : Json.read? editedText =
      some (extraFile (array (serviceItems (object [listReturn, listName, noArguments])))) := rfl
  have hfile : ofText? serviceText = some serviceFile := by decide +kernel
  exact ⟨hfile, ofText?_of_edits hread (by decide +kernel) hfile edits_of_service hread' (by decide +kernel)⟩

def bareText : String :=
  "\x7b\"1\":\x7b\"1\":\"Tasks_v1\"\x7d\x7d"

/-- The same file with a number in place of the absent fields. -/
def numberText : String :=
  "\x7b\"1\":\x7b\"1\":\"Tasks_v1\",\"2\":1e999\x7d\x7d"

/-- A number out of range is no array, yet it cannot stand in place of an absent list: the file is accepted
without the list and rejected with the number. -/
theorem ofText?_rejects_number_for_list :
    let n : Number := ⟨false, [1], [], 999⟩
    Json.read? bareText = some (object [([.char '1'], object [([.char '1'], serviceName)])]) ∧
      ofText? bareText = some ⟨⟨"Tasks_v1", [], [], none⟩, []⟩ ∧
      Json.read? numberText =
        some (object [([.char '1'], object [([.char '1'], serviceName), ([.char '2'], number n)])]) ∧
      (∀ items, number n ≠ array items) ∧ ofText? numberText = none := by
  intro n
  exact ⟨rfl, by decide +kernel, rfl, by simp, by decide +kernel⟩

end DefinitionFile

end ServiceTypings
