import ServiceTypings.Download
import ServiceTypings.Proofs.Additions
import ServiceTypings.Proofs.Places

/-! Paths that lead to an entry of a directory. A path is told by its components, and a name that is joined
to a directory comes as one more of them (`components_join`). What is written for an input has such a name,
made from the stem of the input (`output_stands_in_directory`). What is downloaded is called by an id, and
an id with a slash in it leads elsewhere first (`definition_eq_join`); all services are kept in the directory
and apart exactly if the settings give no such id (`Settings.downloads_stand_apart_iff`). -/

namespace ServiceTypings

namespace Path

variable {directory name path id a b : String}

/-- Where a path begins, if that is the root or a dot, and then its pieces that lead somewhere. Paths of the
same components count as the same. -/
def components (path : String) : List String :=
  (if isAbsolute path then ["/"] else if (pieces path).head? = some "." then ["."] else []) ++
    (pieces path).filter (!isIdle ·)

/-- The path goes on with one name behind the directory. -/
def IsEntry (directory path : String) : Prop :=
  ∃ name, IsName name ∧ components path = components directory ++ [name]

theorem stepsInto_ne_nil (h : directory ≠ "") : stepsInto directory ≠ [] := by
  intro hnil
  cases pieces_eq_stepsInto directory with
  | inl hpieces => exact pieces_ne_nil directory (hpieces.trans hnil)
  | inr hpieces =>
    rw [hnil, List.nil_append] at hpieces
    have hempty := intercalate_pieces directory
    rw [hpieces] at hempty
    exact h (by simpa using hempty.symm)

theorem head?_stepsInto (h : directory ≠ "") :
    (stepsInto directory).head? = (pieces directory).head? := by
  cases pieces_eq_stepsInto directory with
  | inl hpieces => rw [hpieces]
  | inr hpieces => rw [hpieces, List.head?_append_of_ne_nil _ (stepsInto_ne_nil h)]

/-- A name joined to a directory is one more component. -/
theorem components_join (h : IsName name) :
    components (join directory name) = components directory ++ [name] := by
  have hdot : name ≠ "." := by
    rintro rfl
    exact absurd h.isIdle_eq_false (by decide)
  -- a dot counts in front only, and the name comes in front if the directory is the empty text
  have hhead : (stepsInto directory ++ [name]).head? = some "." ↔ (pieces directory).head? = some "." := by
    by_cases hempty : directory = ""
    · subst hempty
      have hpieces : pieces "" = [""] := pieces_eq_singleton (by simp)
      simp [stepsInto, hpieces, hdot]
    · rw [List.head?_append_of_ne_nil _ (stepsInto_ne_nil hempty), head?_stepsInto hempty]
  have hname : [name].filter (!isIdle ·) = [name] := by simp [h.isIdle_eq_false]
  unfold components
  simp only [isAbsolute_join h.slash_not_mem, pieces_join h.slash_not_mem, hhead, List.filter_append,
    filter_stepsInto, hname, List.append_assoc]

theorem components_join_eq_iff {other : String} (ha : IsName a) (hb : IsName b) :
    components (join directory a) = components (join other b) ↔
      a = b ∧ components directory = components other := by
  rw [components_join ha, components_join hb, ← List.concat_eq_append, ← List.concat_eq_append,
    List.concat_inj, and_comm]

theorem isEntry_join_iff {other : String} (h : IsName name) :
    IsEntry directory (join other name) ↔ components other = components directory := by
  unfold IsEntry
  rw [components_join h]
  constructor
  · rintro ⟨_, _, hsame⟩
    exact List.append_inj_left' hsame rfl
  · intro hsame
    exact ⟨name, h, by rw [hsame]⟩

theorem slash_mem_components_iff : "/" ∈ components path ↔ isAbsolute path = true := by
  rw [components, List.mem_append]
  constructor
  · intro h
    cases h with
    | inl hstart =>
      by_contra habsolute
      rw [if_neg habsolute] at hstart
      split at hstart <;> simp at hstart
    | inr hpiece =>
      exact absurd (slash_not_mem_of_mem_pieces (List.mem_filter.1 hpiece).1) (by simp)
  · intro h
    rw [if_pos h]
    exact Or.inl List.mem_cons_self

theorem filter_components (path : String) :
    (components path).filter (fun c => c ≠ "/" && c ≠ ".") = (pieces path).filter (!isIdle ·) := by
  have hstart : (if isAbsolute path then ["/"] else if (pieces path).head? = some "." then ["."] else []).filter
      (fun c => c ≠ "/" && c ≠ ".") = [] := by
    split
    · rfl
    · split <;> rfl
  rw [components, List.filter_append, hstart, List.nil_append, List.filter_eq_self]
  intro piece hpiece
  rw [List.mem_filter] at hpiece
  have hslash : piece ≠ "/" := by
    rintro rfl
    exact slash_not_mem_of_mem_pieces hpiece.1 (by simp)
  have hdot : piece ≠ "." := by
    rintro rfl
    simp [isIdle] at hpiece
  simp [hslash, hdot]

theorem mem_toList_iff_components {c : Char} (hslash : c ≠ '/') (hdot : c ≠ '.') :
    c ∈ path.toList ↔ ∃ piece ∈ components path, c ∈ piece.toList := by
  have hpieces : c ∈ path.toList ↔ ∃ piece ∈ pieces path, c ∈ piece.toList := by
    have hsep : c ∉ "/".toList := by simp [hslash]
    rw [← mem_toList_intercalate hsep, intercalate_pieces]
  rw [hpieces]
  constructor
  · rintro ⟨piece, hpiece, hc⟩
    have hidle : isIdle piece = false := by
      rw [isIdle, Bool.or_eq_false_iff, decide_eq_false_iff_not, decide_eq_false_iff_not]
      constructor
      · rintro rfl
        simp at hc
      · rintro rfl
        simp [hdot] at hc
    exact ⟨piece, List.mem_append_right _ (List.mem_filter.2 ⟨hpiece, by simp [hidle]⟩), hc⟩
  · rintro ⟨piece, hpiece, hc⟩
    rw [components, List.mem_append] at hpiece
    cases hpiece with
    | inl hstart =>
      split at hstart
      · simp [List.mem_singleton.1 hstart, hslash] at hc
      · split at hstart
        · simp [List.mem_singleton.1 hstart, hdot] at hc
        · simp at hstart
    | inr hpiece => exact ⟨piece, (List.mem_filter.1 hpiece).1, hc⟩

/-- Every disk has directories of the same components in the same place. -/
theorem enter_eq_ok_iff_of_components_eq {other : String} (hsame : components directory = components other)
    {d : Disk} {base : Location} (hat : d.at? base = some .directory) :
    d.enter directory = .ok base ↔ d.enter other = .ok base := by
  have habsolute : isAbsolute directory = isAbsolute other := by
    rw [Bool.eq_iff_iff, ← slash_mem_components_iff, ← slash_mem_components_iff, hsame]
  rw [Disk.enter_eq_ok_iff hat, Disk.enter_eq_ok_iff hat, Disk.startOf, Disk.startOf, habsolute,
    mem_toList_iff_components (by decide) (by decide), mem_toList_iff_components (by decide) (by decide),
    ← filter_components, ← filter_components, hsame]

/-- Two paths that are always one file: they have the same components, and every disk leads along both to
the same place. -/
structure Same (a b : String) : Prop where
  components_eq : components a = components b
  place_iff : ∀ (d : Disk) (place : Location), d.locate a = .ok place ↔ d.locate b = .ok place

/-- Two paths that are never one file: they differ in their components, and no disk leads along both to one
place. -/
structure Apart (a b : String) : Prop where
  components_ne : components a ≠ components b
  place_ne : ∀ (d : Disk) (place : Location), d.locate a = .ok place → d.locate b ≠ .ok place

theorem same_join_iff {other : String} (ha : IsName a) (hb : IsName b) :
    Same (join directory a) (join other b) ↔ a = b ∧ components directory = components other := by
  constructor
  · intro h
    exact (components_join_eq_iff ha hb).1 h.components_eq
  · rintro ⟨rfl, hsame⟩
    refine ⟨(components_join_eq_iff ha ha).2 ⟨rfl, hsame⟩, fun d place => ?_⟩
    rw [Disk.locate_join_eq_ok_iff ha, Disk.locate_join_eq_ok_iff ha]
    refine and_congr_right fun _ => exists_congr fun base => and_congr_left fun hat => ?_
    exact enter_eq_ok_iff_of_components_eq hsame hat.1

theorem apart_join {other : String} (ha : IsName a) (hb : IsName b) (hne : a ≠ b) :
    Apart (join directory a) (join other b) := by
  constructor
  · intro hsame
    exact hne ((components_join_eq_iff ha hb).1 hsame).1
  · intro d place hplace hplace'
    exact hne (Disk.name_eq_of_locate_join_eq ha hb hplace hplace')

/-- What is written for an input stands right in the directory, under a name that ends as declarations do:
the path has that name as one more component, and every disk leads along it to the entry of that name, in
the place where the directory is. Two inputs are written to one path exactly if they have the same stem,
where an input without one counts as `output`. -/
theorem output_stands_in_directory :
    (∀ input directory, ∃ name, IsName name ∧ ".d.ts".toList <:+ name.toList ∧
      output input directory = join directory name ∧
      components (output input directory) = components directory ++ [name] ∧
      ∀ (d : Disk) (place : Location), d.locate (output input directory) = .ok place ↔
        '\x00' ∉ name.toList ∧ ∃ base, d.enter directory = .ok base ∧
          d.at? base = some .directory ∧ place = base ++ [name]) ∧
    ∀ a b directory,
      (output a directory = output b directory ↔
        (stem? a).getD "output" = (stem? b).getD "output") ∧
      (components (output a directory) = components (output b directory) ↔
        (stem? a).getD "output" = (stem? b).getD "output") := by
  constructor
  · intro input directory
    have hname : IsName (outputName input) := isName_outputName input
    refine ⟨outputName input, hname, ?_, output_eq_join input directory, components_join hname, ?_⟩
    · rw [outputName, String.toList_append]
      exact List.suffix_append _ _
    · intro d place
      exact Disk.locate_join_eq_ok_iff hname
  · intro a b directory
    have hcomponents : components (output a directory) = components (output b directory) ↔
        (stem? a).getD "output" = (stem? b).getD "output" := by
      rw [output_eq_join, output_eq_join,
        components_join_eq_iff (isName_outputName a) (isName_outputName b), and_iff_left rfl,
        outputName, outputName, String.append_left_inj]
    refine ⟨⟨fun h => hcomponents.1 (congrArg components h), fun h => ?_⟩, hcomponents⟩
    rw [output_eq_join, output_eq_join, outputName, outputName, h]

example : output "../x/..json/." "out/." = "out/./..d.ts" := by decide +kernel

/-- Only the empty path has nothing to tell. -/
theorem components_ne_nil (h : path ≠ "") : components path ≠ [] := by
  obtain ⟨first, rest, hpieces⟩ := List.exists_cons_of_ne_nil (pieces_ne_nil path)
  by_cases habsolute : isAbsolute path = true
  · simp [components, habsolute]
  have hfirst : first ≠ "" := by
    rintro rfl
    have hpath := intercalate_pieces path
    rw [hpieces] at hpath
    cases rest with
    | nil => exact h (by simpa using hpath.symm)
    | cons second rest =>
      rw [String.intercalate_cons_cons, String.empty_append] at hpath
      exact habsolute (by simp [← hpath, isAbsolute])
  by_cases hdot : first = "."
  · simp [components, hpieces, habsolute, hdot]
  · simp [components, hpieces, habsolute, hdot, isIdle, hfirst]

/-- A text up to its last slash. -/
def upToSlash (text : String) : String :=
  String.ofList (text.toList.reverse.dropWhile (· ≠ '/')).reverse

/-- What a text has behind its last slash. -/
def behindSlash (text : String) : String :=
  String.ofList (text.toList.reverse.takeWhile (· ≠ '/')).reverse

theorem upToSlash_append_behindSlash (text : String) : upToSlash text ++ behindSlash text = text := by
  rw [← String.toList_inj, String.toList_append, upToSlash, behindSlash, String.toList_ofList,
    String.toList_ofList, ← List.reverse_append, List.takeWhile_append_dropWhile, List.reverse_reverse]

theorem slash_not_mem_behindSlash (text : String) : '/' ∉ (behindSlash text).toList := by
  rw [behindSlash, String.toList_ofList, List.mem_reverse]
  intro hmem
  simpa using List.mem_takeWhile_imp hmem

theorem upToSlash_eq_empty_iff {text : String} : upToSlash text = "" ↔ '/' ∉ text.toList := by
  rw [← String.toList_inj, upToSlash, String.toList_ofList, String.toList_empty,
    List.reverse_eq_nil_iff, List.dropWhile_eq_nil_iff]
  constructor
  · intro h hmem
    simpa using h '/' (List.mem_reverse.2 hmem)
  · intro h c hc
    rw [decide_eq_true_eq]
    rintro rfl
    exact h (List.mem_reverse.1 hc)

theorem getLast?_upToSlash {text : String} (h : upToSlash text ≠ "") :
    (upToSlash text).toList.getLast? = some '/' := by
  have hhead := List.head?_dropWhile_not (· ≠ '/') text.toList.reverse
  rw [upToSlash, String.toList_ofList, List.getLast?_reverse]
  cases hcase : (text.toList.reverse.dropWhile (· ≠ '/')).head? with
  | none =>
    rw [List.head?_eq_none_iff] at hcase
    exact absurd (by rw [upToSlash, hcase]; rfl) h
  | some c =>
    rw [hcase] at hhead
    simpa using hhead

theorem lead_lead (directory : String) : lead (lead directory) = lead directory := by
  by_cases hempty : directory = ""
  · subst hempty
    rfl
  · apply lead_of_getLast?
    unfold lead
    split
    next hslash => simpa [hempty] using hslash
    next => simp

theorem components_lead (directory : String) : components (lead directory) = components directory := by
  unfold lead
  split
  next => rfl
  next h =>
    have hempty : directory ≠ "" := by
      rintro rfl
      exact h rfl
    have hidle : [""].filter (!isIdle ·) = [] := rfl
    unfold components
    rw [isAbsolute_append hempty, pieces_append_slash,
      List.head?_append_of_ne_nil _ (pieces_ne_nil directory), List.filter_append, hidle, List.append_nil]

theorem join_empty (directory : String) : join directory "" = lead directory := by
  rw [join_eq_lead_append rfl, String.append_empty]

/-- To join a way that ends in a slash, with a name behind it, is to join one after the other. -/
theorem join_append {way : String} (hway : way ≠ "" → way.toList.getLast? = some '/')
    (hname : '/' ∉ name.toList) : join directory (way ++ name) = join (join directory way) name := by
  have hjoin : ∀ base, join base name = lead base ++ name :=
    fun base => join_eq_lead_append (isAbsolute_eq_false hname)
  rw [hjoin (join directory way)]
  by_cases hempty : way = ""
  · subst hempty
    rw [join_empty, lead_lead, String.empty_append, hjoin directory]
  · have hlast : (join directory way).toList.getLast? = some '/' := by
      unfold join
      split
      · exact hway hempty
      · split <;> simp only [String.toList_append, List.getLast?_append, hway hempty, Option.some_or]
    rw [lead_of_getLast? hlast]
    unfold join
    rw [isAbsolute_append hempty]
    split
    · rfl
    · split <;> simp only [String.append_assoc]

theorem isName_behindSlash (id : String) : IsName (behindSlash id ++ ".json") :=
  isName_append (slash_not_mem_behindSlash id) (by simp) (c := 'n') (by simp) (by decide)

/-- What an id has behind its last slash is the name under which its file is kept, in the directory to which
all before it leads. -/
theorem definition_eq_join (directory id : String) :
    definition directory id = join (join directory (upToSlash id)) (behindSlash id ++ ".json") := by
  rw [← join_append getLast?_upToSlash (isName_behindSlash id).slash_not_mem, ← String.append_assoc,
    upToSlash_append_behindSlash]
  rfl

theorem isEntry_definition_iff : IsEntry directory (definition directory id) ↔
    components (join directory (upToSlash id)) = components directory := by
  rw [definition_eq_join, isEntry_join_iff (isName_behindSlash id)]

theorem same_definition_iff : Same (definition directory a) (definition directory b) ↔
    behindSlash a = behindSlash b ∧
      components (join directory (upToSlash a)) = components (join directory (upToSlash b)) := by
  rw [definition_eq_join, definition_eq_join, same_join_iff (isName_behindSlash a) (isName_behindSlash b),
    String.append_left_inj]

theorem apart_definition (h : behindSlash a ≠ behindSlash b) :
    Apart (definition directory a) (definition directory b) := by
  rw [definition_eq_join, definition_eq_join]
  apply apart_join (isName_behindSlash a) (isName_behindSlash b)
  rwa [Ne, String.append_left_inj]

theorem behindSlash_eq_self (h : '/' ∉ id.toList) : behindSlash id = id := by
  have hid := upToSlash_append_behindSlash id
  rwa [upToSlash_eq_empty_iff.2 h, String.empty_append] at hid

/-- An id stays in every directory only if it has no slash. -/
theorem forall_isEntry_definition_iff :
    (∀ directory, IsEntry directory (definition directory id)) ↔ '/' ∉ id.toList := by
  simp only [isEntry_definition_iff]
  rw [← upToSlash_eq_empty_iff]
  constructor
  · intro h
    by_contra hne
    -- from the empty path, every id with a slash leads away
    have hjoin : join "" (upToSlash id) = upToSlash id := by simp [join]
    have hsame := h ""
    rw [hjoin] at hsame
    exact components_ne_nil hne hsame
  · intro h directory
    rw [h, join_empty, components_lead]

end Path

namespace Settings

variable {s : Settings}

theorem exists_mem_registry {d : Definition} (h : d ∈ s.definitions) :
    ∃ e ∈ s.registry.definitions, e.id = d.id := by
  rw [registry, Registry.definitions_extendIrregular, Registry.definitions_addDefinitions]
  apply List.mem_map.1
  rw [Keyed.map_putAll Definition.id _ Registry.builtin_ids_nodup, List.mem_eraseDups, List.mem_append]
  exact Or.inr (List.mem_map_of_mem h)

/-- The ids that are there from the start have no slash. -/
theorem forall_slash_not_mem_iff : (∀ d ∈ s.registry.definitions, '/' ∉ d.id.toList) ↔
    ∀ d ∈ s.definitions, '/' ∉ d.id.toList := by
  constructor
  · intro h d hd
    obtain ⟨e, he, hid⟩ := exists_mem_registry hd
    exact hid ▸ h e he
  · intro h d hd
    cases mem_registry_definitions hd with
    | inl hnew => exact h d hnew
    | inr hold =>
      have hbuiltin : ∀ d ∈ Registry.builtin.definitions, '/' ∉ d.id.toList := by decide +kernel
      exact hbuiltin d hold

/-- Where the definition files of services are kept. A file stands right in the directory exactly if what
its id has up to the last slash leads nowhere from there. Two paths are one exactly if their ids have the
same behind the last slash and lead to the same directory before it; if the former differs, they are never
one file. All files stand right in any directory, and services of different ids have files of their own,
exactly if no id of the settings has a slash. -/
theorem downloads_stand_apart_iff (s : Settings) :
    (∀ d ∈ s.registry.definitions, ∀ directory, Path.IsEntry directory (d.path directory) ↔
      Path.components (Path.join directory (Path.upToSlash d.id)) = Path.components directory) ∧
    (∀ d ∈ s.registry.definitions, ∀ e ∈ s.registry.definitions, ∀ directory,
      (Path.Same (d.path directory) (e.path directory) ↔ Path.behindSlash d.id = Path.behindSlash e.id ∧
        Path.components (Path.join directory (Path.upToSlash d.id)) =
          Path.components (Path.join directory (Path.upToSlash e.id))) ∧
      (Path.behindSlash d.id ≠ Path.behindSlash e.id →
        Path.Apart (d.path directory) (e.path directory))) ∧
    (((∀ d ∈ s.registry.definitions, ∀ directory, Path.IsEntry directory (d.path directory)) ∧
        ∀ d ∈ s.registry.definitions, ∀ e ∈ s.registry.definitions, d.id ≠ e.id →
          ∀ directory, Path.Apart (d.path directory) (e.path directory)) ↔
      ∀ d ∈ s.definitions, '/' ∉ d.id.toList) := by
  refine ⟨fun d _ directory => Path.isEntry_definition_iff, fun d _ e _ directory => ?_, ?_⟩
  · exact ⟨Path.same_definition_iff, Path.apart_definition⟩
  · rw [← forall_slash_not_mem_iff]
    constructor
    · -- that all stand in the directory is enough
      rintro ⟨hentry, _⟩ d hd
      exact Path.forall_isEntry_definition_iff.1 (hentry d hd)
    · intro h
      refine ⟨fun d hd => Path.forall_isEntry_definition_iff.2 (h d hd), ?_⟩
      intro d hd e he hne directory
      apply Path.apart_definition
      rwa [Path.behindSlash_eq_self (h d hd), Path.behindSlash_eq_self (h e he)]

/-- A service of the settings beside one known from the start. -/
theorem downloads_stand_apart_of_chat :
    let chat : Definition := ⟨"Chat", some "Chat_v1", some "Chat.V1.", "chat"⟩
    let drive := Registry.service "Drive" "Drive_v2" "Drive.V2." "drive/v2"
    let s : Settings := { definitions := [chat] }
    (∀ d ∈ s.definitions, '/' ∉ d.id.toList) ∧ chat ∈ s.registry.definitions ∧
      drive ∈ s.registry.definitions ∧ Path.IsEntry "definitions" (chat.path "definitions") ∧
      Path.behindSlash chat.id ≠ Path.behindSlash drive.id ∧
      Path.Apart (chat.path "definitions") (drive.path "definitions") := by
  intro chat drive s
  have hslash : ∀ d ∈ s.definitions, '/' ∉ d.id.toList := by decide
  have hchat : chat ∈ s.registry.definitions := by decide +kernel
  have hdrive : drive ∈ s.registry.definitions := by decide +kernel
  have hname : Path.behindSlash chat.id ≠ Path.behindSlash drive.id := by decide +kernel
  obtain ⟨_, hpairs, hall⟩ := downloads_stand_apart_iff s
  refine ⟨hslash, hchat, hdrive, (hall.2 hslash).1 chat hchat "definitions", hname, ?_⟩
  exact (hpairs chat hchat drive hdrive "definitions").2 hname

/-- Settings may call services by paths. Of three such services the first two are not kept in the directory,
and the third has the file of a service known from the start. -/
theorem download_leaves_directory :
    ∃ s, Settings.ofText? ("[[definitions]]\nid = \"/srv/Chat\"\nurl = \"chat\"\n" ++
        "[[definitions]]\nid = \"../Chat\"\nurl = \"chat\"\n" ++
        "[[definitions]]\nid = \"./Drive\"\nurl = \"drive\"\n") = some s ∧
      ∃ root ∈ s.registry.definitions, ∃ up ∈ s.registry.definitions,
        ∃ here ∈ s.registry.definitions, ∃ drive ∈ s.registry.definitions,
          root.path "definitions" = "/srv/Chat.json" ∧
          ¬Path.IsEntry "definitions" (root.path "definitions") ∧
          up.path "definitions" = "definitions/../Chat.json" ∧
          ¬Path.IsEntry "definitions" (up.path "definitions") ∧
          here.id = "./Drive" ∧ drive.id = "Drive" ∧
          Path.Same (here.path "definitions") (drive.path "definitions") := by
  let root : Definition := ⟨"/srv/Chat", none, none, "chat"⟩
  let up : Definition := ⟨"../Chat", none, none, "chat"⟩
  let here : Definition := ⟨"./Drive", none, none, "drive"⟩
  refine ⟨{ definitions := [root, up, here] }, by decide +kernel, root, by decide +kernel,
    up, by decide +kernel, here, by decide +kernel,
    Registry.service "Drive" "Drive_v2" "Drive.V2." "drive/v2", by decide +kernel,
    by decide +kernel, ?_, by decide +kernel, ?_, rfl, rfl, ?_⟩
  · exact fun h => absurd (Path.isEntry_definition_iff.1 h) (by decide +kernel)
  · exact fun h => absurd (Path.isEntry_definition_iff.1 h) (by decide +kernel)
  · exact Path.same_definition_iff.2 ⟨by decide +kernel, by decide +kernel⟩

end Settings
end ServiceTypings
