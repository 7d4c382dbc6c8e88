import ServiceTypings.Disk
import ServiceTypings.Proofs.Split
import ServiceTypings.Proofs.Success

/-! Where paths lead on a disk. A path is followed through directories alone, so two disks with the same
directories agree on where it leads, whatever their files hold. The files that conversions write into one
directory stand side by side, one for each name (`output_eq_of_locate_eq`). -/

namespace ServiceTypings

namespace Disk

variable {d e : Disk} {place target : Location} {path content : String}

theorem checkDirectory_eq_ok_iff : d.checkDirectory place = .ok () ↔ d.at? place = some .directory := by
  unfold checkDirectory
  split
  next h => simp [h]
  next item hne h => simpa [h] using hne
  next h => simp [h]

theorem follow_append (d : Disk) (place : Location) (ps qs : List String) :
    d.follow place (ps ++ qs) = d.follow place ps >>= fun target => d.follow target qs := by
  induction ps generalizing place with
  | nil => rfl
  | cons p ps ih =>
    rw [List.cons_append, follow, follow]
    cases d.checkDirectory place with
    | error _ => rfl
    | ok _ =>
      simp only [bind, Except.bind] at ih ⊢
      split
      · exact ih place
      · split
        · exact ih place.dropLast
        · exact ih (place ++ [p])

/-- Whoever comes to a directory has started from one. -/
theorem at?_eq_directory_of_follow (hat : d.at? target = some .directory) {ps : List String}
    (h : d.follow place ps = .ok target) : d.at? place = some .directory := by
  cases ps with
  | nil =>
    obtain rfl := Except.ok.inj h
    exact hat
  | cons p ps =>
    rw [follow, bind_eq_ok_iff] at h
    obtain ⟨_, hcheck, _⟩ := h
    exact checkDirectory_eq_ok_iff.1 hcheck

/-- On the way to a directory, idle pieces make no difference. -/
theorem follow_filter_eq_ok_iff (hat : d.at? target = some .directory) {ps : List String} :
    d.follow place (ps.filter (!Path.isIdle ·)) = .ok target ↔ d.follow place ps = .ok target := by
  induction ps generalizing place with
  | nil => rfl
  | cons p ps ih =>
    rw [follow, bind_eq_ok_iff]
    by_cases hidle : Path.isIdle p = true
    · rw [List.filter_cons_of_neg (by simp [hidle]), if_pos hidle, ih]
      constructor
      · intro h
        exact ⟨(), checkDirectory_eq_ok_iff.2 (at?_eq_directory_of_follow hat h), h⟩
      · rintro ⟨_, _, h⟩
        exact h
    · rw [List.filter_cons_of_pos (by simp [hidle]), follow, bind_eq_ok_iff, if_neg hidle, if_neg hidle]
      refine exists_congr fun _ => and_congr_right fun _ => ?_
      split
      · exact ih
      · exact ih

/-- A name that is not a way back leads one level down. -/
theorem follow_name_eq_ok_iff {name : String} (hidle : Path.isIdle name = false) (hup : name ≠ "..") :
    d.follow place [name] = .ok target ↔ d.at? place = some .directory ∧ target = place ++ [name] := by
  simp only [follow, hidle, if_neg hup, Bool.false_eq_true, if_false, bind_eq_ok_iff,
    Except.ok.injEq]
  constructor
  · rintro ⟨_, h, rfl⟩
    exact ⟨checkDirectory_eq_ok_iff.1 h, rfl⟩
  · rintro ⟨h, rfl⟩
    exact ⟨(), checkDirectory_eq_ok_iff.2 h, rfl⟩

theorem locate_eq_ok_iff : d.locate path = .ok place ↔ path ≠ "" ∧ '\x00' ∉ path.toList ∧
    d.follow (d.startOf path) (Path.pieces path) = .ok place := by
  unfold locate
  split
  next h => simp [h]
  next h =>
    split
    next hnul => simp [hnul]
    next hnul => simp [h, hnul]

theorem readText_eq_ok_iff : d.readText path = .ok content ↔
    ∃ place, d.locate path = .ok place ∧ d.at? place = some (.text content) := by
  rw [readText, bind_eq_ok_iff]
  refine exists_congr fun place => and_congr_right fun _ => ?_
  split <;> simp_all

theorem writeText_eq_ok_iff : d.writeText path content = .ok e ↔
    ∃ place, d.locate path = .ok place ∧ d.at? place ≠ some .directory ∧
      e = d.put place (.text content) := by
  rw [writeText, bind_eq_ok_iff]
  refine exists_congr fun place => and_congr_right fun _ => ?_
  split
  next h => simp [h]
  next h => rw [and_iff_right (show d.at? place ≠ some .directory from h), Except.ok.injEq, eq_comm]

/-- No file stands at the root. -/
theorem ne_nil_of_at?_ne_directory (h : d.at? place ≠ some .directory) : place ≠ [] := by
  rintro rfl
  exact h (if_pos rfl)

/-- Both disks have the same directories, and paths start from the same one. -/
structure SameDirectories (d e : Disk) : Prop where
  here : d.here = e.here
  directory_iff : ∀ place, d.at? place = some .directory ↔ e.at? place = some .directory

theorem SameDirectories.follow_eq_ok (h : SameDirectories d e) {ps : List String}
    (hd : d.follow place ps = .ok target) : e.follow place ps = .ok target := by
  induction ps generalizing place with
  | nil => exact hd
  | cons p ps ih =>
    rw [follow, bind_eq_ok_iff] at hd ⊢
    obtain ⟨_, hcheck, hd⟩ := hd
    rw [checkDirectory_eq_ok_iff, h.directory_iff] at hcheck
    refine ⟨(), checkDirectory_eq_ok_iff.2 hcheck, ?_⟩
    split at hd
    next hp => rw [if_pos hp]; exact ih hd
    next hp =>
      rw [if_neg hp]
      split at hd
      next hup => rw [if_pos hup]; exact ih hd
      next hup => rw [if_neg hup]; exact ih hd

theorem SameDirectories.symm (h : SameDirectories d e) : SameDirectories e d :=
  ⟨h.here.symm, fun place => (h.directory_iff place).symm⟩

theorem SameDirectories.locate_eq_ok_iff (h : SameDirectories d e) :
    d.locate path = .ok place ↔ e.locate path = .ok place := by
  have hstart : d.startOf path = e.startOf path := by rw [startOf, startOf, h.here]
  rw [Disk.locate_eq_ok_iff, Disk.locate_eq_ok_iff, hstart]
  refine and_congr_right fun _ => and_congr_right fun _ => ⟨h.follow_eq_ok, h.symm.follow_eq_ok⟩

end Disk

namespace Path

variable {directory name : String}

theorem isAbsolute_eq_false (h : '/' ∉ name.toList) : isAbsolute name = false := by
  rw [isAbsolute, decide_eq_false_iff_not]
  intro hhead
  exact h (List.mem_of_mem_head? hhead)

/-- The pieces that lead into a directory, whether or not a slash stands behind its name. -/
def stepsInto (directory : String) : List String :=
  if directory = "" then []
  else if directory.toList.getLast? = some '/' then (pieces directory).dropLast
  else pieces directory

/-- Behind those pieces a path has at most the empty piece that follows a slash at its end. -/
theorem pieces_eq_stepsInto (directory : String) :
    pieces directory = stepsInto directory ∨ pieces directory = stepsInto directory ++ [""] := by
  unfold stepsInto
  by_cases hempty : directory = ""
  · rw [if_pos hempty, hempty]
    exact Or.inr (pieces_eq_singleton (by simp))
  · rw [if_neg hempty]
    by_cases hslash : directory.toList.getLast? = some '/'
    · obtain ⟨base, hbase⟩ := List.getLast?_eq_some_iff.1 hslash
      have hdirectory : directory = String.ofList base ++ "/" := by
        rw [← String.toList_inj, hbase]
        simp
      rw [if_pos hslash, hdirectory, pieces_append_slash, List.dropLast_concat]
      exact Or.inr rfl
    · rw [if_neg hslash]
      exact Or.inl rfl

theorem filter_stepsInto (directory : String) :
    (stepsInto directory).filter (!isIdle ·) = (pieces directory).filter (!isIdle ·) := by
  cases pieces_eq_stepsInto directory with
  | inl h => rw [h]
  | inr h => simp [h, isIdle]

/-- The text of a directory as it stands before a name that is joined to it. -/
def lead (directory : String) : String :=
  if directory = "" || directory.toList.getLast? = some '/' then directory else directory ++ "/"

theorem join_eq_lead_append (h : isAbsolute name = false) : join directory name = lead directory ++ name := by
  unfold join lead
  rw [if_neg (by simp [h])]
  split <;> rfl

theorem lead_of_getLast? (h : directory.toList.getLast? = some '/') : lead directory = directory := by
  unfold lead
  rw [if_pos (by simp [h])]

theorem pieces_join (h : '/' ∉ name.toList) :
    pieces (join directory name) = stepsInto directory ++ [name] := by
  rw [join_eq_lead_append (isAbsolute_eq_false h)]
  unfold stepsInto
  by_cases hempty : directory = ""
  · subst hempty
    exact pieces_eq_singleton h
  · rw [if_neg hempty]
    by_cases hslash : directory.toList.getLast? = some '/'
    · obtain ⟨base, hbase⟩ := List.getLast?_eq_some_iff.1 hslash
      have hdirectory : directory = String.ofList base ++ "/" := by
        rw [← String.toList_inj, hbase]
        simp
      rw [lead_of_getLast? hslash, if_pos hslash, hdirectory, pieces_append, pieces_append_slash,
        pieces_eq_singleton h, List.dropLast_concat]
    · unfold lead
      rw [if_neg (by simp [hempty, hslash]), if_neg hslash, pieces_append, pieces_eq_singleton h]

theorem isAbsolute_append {a b : String} (h : a ≠ "") : isAbsolute (a ++ b) = isAbsolute a := by
  have hhead : a.toList.head? ≠ none := by simpa using h
  obtain ⟨c, hc⟩ := Option.ne_none_iff_exists'.1 hhead
  simp [isAbsolute, hc]

/-- A name joined to a directory is absolute if the directory is. -/
theorem isAbsolute_join (h : '/' ∉ name.toList) :
    isAbsolute (join directory name) = isAbsolute directory := by
  have hname := isAbsolute_eq_false h
  rw [join_eq_lead_append hname]
  by_cases hempty : directory = ""
  · subst hempty
    exact hname
  · unfold lead
    split
    · exact isAbsolute_append hempty
    · rw [String.append_assoc]
      exact isAbsolute_append hempty

theorem join_ne_empty (h : name ≠ "") : join directory name ≠ "" := by
  unfold join
  split
  · exact h
  · split <;> simp [h]

theorem mem_toList_join {c : Char} (h : '/' ∉ name.toList) (hc : c ≠ '/') :
    c ∈ (join directory name).toList ↔ c ∈ directory.toList ∨ c ∈ name.toList := by
  rw [join_eq_lead_append (isAbsolute_eq_false h)]
  unfold lead
  split <;> simp [hc]

/-- A text that can be the name of an entry in a directory. -/
structure IsName (name : String) : Prop where
  slash_not_mem : '/' ∉ name.toList
  isIdle_eq_false : isIdle name = false
  ne_up : name ≠ ".."

theorem IsName.ne_empty (h : IsName name) : name ≠ "" := by
  rintro rfl
  exact absurd h.isIdle_eq_false (by decide)

/-- With an ending behind it, any text without a slash is a name. -/
theorem isName_append {stem ending : String} {c : Char} (hstem : '/' ∉ stem.toList)
    (hending : '/' ∉ ending.toList) (hlast : ending.toList.getLast? = some c) (hc : c ≠ '.') :
    IsName (stem ++ ending) := by
  have hwhole : (stem ++ ending).toList.getLast? = some c := by
    rw [String.toList_append, List.getLast?_append, hlast, Option.some_or]
  have hne : ∀ other : String, other.toList.getLast? ≠ some c → stem ++ ending ≠ other := by
    rintro other hother rfl
    exact hother hwhole
  refine ⟨?_, ?_, hne ".." (by simpa using hc.symm)⟩
  · rw [String.toList_append, List.mem_append, not_or]
    exact ⟨hstem, hending⟩
  · rw [isIdle, Bool.or_eq_false_iff, decide_eq_false_iff_not, decide_eq_false_iff_not]
    exact ⟨hne "" (by simp), hne "." (by simpa using hc.symm)⟩

/-- The name of the file that an input's declarations are written to. -/
def outputName (input : String) : String :=
  (stem? input).getD "output" ++ ".d.ts"

theorem slash_not_mem_stemOf (h : '/' ∉ name.toList) : '/' ∉ (stemOf name).toList := by
  unfold stemOf
  simp only
  split
  · exact h
  · rw [String.toList_ofList, List.mem_reverse]
    intro hmem
    have hmem := (List.dropWhile_sublist _).mem (List.mem_of_mem_drop hmem)
    exact h (List.mem_reverse.1 hmem)

theorem slash_not_mem_of_fileName? {path : String} (h : fileName? path = some name) :
    '/' ∉ name.toList := by
  unfold fileName? at h
  split at h
  next last hlast =>
    rw [Option.ite_none_left_eq_some, Option.some_inj] at h
    obtain ⟨_, rfl⟩ := h
    exact slash_not_mem_of_mem_pieces (List.mem_filter.1 (List.mem_of_getLast? hlast)).1
  next => simp at h

theorem isName_outputName (input : String) : IsName (outputName input) := by
  apply isName_append (c := 's') _ (by simp) (by simp) (by decide)
  cases hstem : stem? input with
  | none => simp
  | some stem =>
    obtain ⟨name, hname, rfl⟩ := Option.map_eq_some_iff.1 hstem
    exact slash_not_mem_stemOf (slash_not_mem_of_fileName? hname)

theorem output_eq_join (input directory : String) :
    output input directory = join directory (outputName input) := rfl

end Path

namespace Disk

variable {d : Disk} {place base : Location} {a b directory other name : String}

/-- The directory in which a joined path goes on: the empty text stands for the place where the disk is. -/
def enter (d : Disk) (directory : String) : Except DiskError Location :=
  if directory = "" then .ok d.here else d.locate directory

/-- Where a directory is depends on its pieces that lead somewhere. -/
theorem enter_eq_ok_iff (hat : d.at? base = some .directory) :
    d.enter directory = .ok base ↔ '\x00' ∉ directory.toList ∧
      d.follow (d.startOf directory) ((Path.pieces directory).filter (!Path.isIdle ·)) = .ok base := by
  unfold enter
  by_cases hempty : directory = ""
  · subst hempty
    rw [if_pos rfl, ← Path.filter_stepsInto, and_iff_right (by simp)]
    exact Iff.rfl
  · rw [if_neg hempty, locate_eq_ok_iff, and_iff_right hempty, follow_filter_eq_ok_iff hat]

/-- A path that is a name joined to a directory leads right into the directory, to the entry of that
name. -/
theorem locate_join_eq_ok_iff (h : Path.IsName name) :
    d.locate (Path.join directory name) = .ok place ↔ '\x00' ∉ name.toList ∧
      ∃ base, d.enter directory = .ok base ∧ d.at? base = some .directory ∧ place = base ++ [name] := by
  have hstart : d.startOf (Path.join directory name) = d.startOf directory := by
    rw [startOf, startOf, Path.isAbsolute_join h.slash_not_mem]
  have hnul : '\x00' ∉ (Path.join directory name).toList ↔
      '\x00' ∉ directory.toList ∧ '\x00' ∉ name.toList := by
    rw [Path.mem_toList_join h.slash_not_mem (by decide), not_or]
  rw [locate_eq_ok_iff, hstart, hnul, Path.pieces_join h.slash_not_mem, follow_append, bind_eq_ok_iff]
  simp only [follow_name_eq_ok_iff h.isIdle_eq_false h.ne_up]
  constructor
  · rintro ⟨_, ⟨hdirectory, hname⟩, base, hfollow, hat, rfl⟩
    -- the walk does not see the slash that the directory's text may end in
    rw [← follow_filter_eq_ok_iff hat, Path.filter_stepsInto] at hfollow
    exact ⟨hname, base, (enter_eq_ok_iff hat).2 ⟨hdirectory, hfollow⟩, hat, rfl⟩
  · rintro ⟨hname, base, henter, hat, rfl⟩
    obtain ⟨hdirectory, hfollow⟩ := (enter_eq_ok_iff hat).1 henter
    rw [← Path.filter_stepsInto, follow_filter_eq_ok_iff hat] at hfollow
    exact ⟨Path.join_ne_empty h.ne_empty, ⟨hdirectory, hname⟩, base, hfollow, hat, rfl⟩

/-- Whatever directories they are joined to, two names lead to one place only if they are the same. -/
theorem name_eq_of_locate_join_eq (ha : Path.IsName a) (hb : Path.IsName b)
    (hplace : d.locate (Path.join directory a) = .ok place)
    (hplace' : d.locate (Path.join other b) = .ok place) : a = b := by
  obtain ⟨_, base, _, _, rfl⟩ := (locate_join_eq_ok_iff ha).1 hplace
  obtain ⟨_, base', _, _, hsame⟩ := (locate_join_eq_ok_iff hb).1 hplace'
  exact List.singleton_inj.1 (List.append_inj_right' hsame rfl)

/-- In one directory, what two inputs are written to is one file only if it is one path. -/
theorem output_eq_of_locate_eq (ha : d.locate (Path.output a directory) = .ok place)
    (hb : d.locate (Path.output b directory) = .ok place) :
    Path.output a directory = Path.output b directory := by
  have hname := name_eq_of_locate_join_eq (Path.isName_outputName a) (Path.isName_outputName b) ha hb
  rw [Path.output_eq_join, Path.output_eq_join, hname]

end Disk
end ServiceTypings
