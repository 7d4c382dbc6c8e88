import ServiceTypings.Proofs.FirstFault
import ServiceTypings.Proofs.References

/-! When two members come to one name. A dash is dropped and a letter raised, so two names that differ can
become the same, and this in three ways (`joinFirstDash_eq_iff`). A property key is quoted if a
dash is left, which tells no more names apart and no fewer; in a parameter a dash that is left is written as
an underscore, so that names meet in one more way (`parameterName_eq_iff`). Nothing rejects or renames
members that meet. -/

namespace ServiceTypings

namespace Identifier

variable {a b text before before' after after' : List Char} {x y : Char}

/-- The text around its first joint. -/
structure Cut (text before : List Char) (letter : Char) (after : List Char) : Prop where
  eq : text = before ++ '-' :: letter :: after
  first : FirstJoint text before.length

theorem Cut.joinFirstDash_eq (h : Cut text before x after) :
    joinFirstDash text = before ++ x.toUpper :: after := by
  obtain ⟨rfl, hfirst⟩ := h
  exact joinFirstDash_append hfirst

theorem exists_cut_or_no_joint (text : List Char) :
    (∃ before letter after, Cut text before letter after) ∨ ∀ i, ¬JointAt text i := by
  refine (exists_firstJoint_or_no_joint text).imp_left ?_
  rintro ⟨i, hfirst⟩
  obtain ⟨before, c, letter, d, rest, htext, rfl, _⟩ := jointAt_iff_exists_split.1 hfirst.1
  refine ⟨before ++ [c], letter, d :: rest, by simp [htext], ?_⟩
  rwa [List.length_append]

/-- Two texts that differ and become the same when the dash at the first joint is dropped. -/
inductive Meet (a b : List Char) : Prop
  /-- One is the other with its first joint's dash dropped and the letter raised, and has no joint. -/
  | joined {before after : List Char} {x : Char} (cut : Cut a before x after)
      (none : ∀ i, ¬JointAt b i) (eq : b = before ++ x.toUpper :: after)
  /-- They differ only in the case of the letter behind their first joint's dash. -/
  | recased {before after : List Char} {x y : Char} (left : Cut a before x after)
      (right : Cut b before y after) (ne : x ≠ y) (eq : x.toUpper = y.toUpper)
  /-- Their first joints are at different places, and each has a raised letter for the other's dash. -/
  | apart {before between after : List Char} {x y : Char}
      (left : Cut a before x (between ++ y.toUpper :: after))
      (right : Cut b (before ++ x.toUpper :: between) y after)

theorem Meet.joinFirstDash_eq (h : Meet a b) : joinFirstDash a = joinFirstDash b := by
  cases h with
  | joined cut none eq => rw [cut.joinFirstDash_eq, joinFirstDash_of_no_joint none, eq]
  | recased left right _ eq => rw [left.joinFirstDash_eq, right.joinFirstDash_eq, eq]
  | apart left right => simp [left.joinFirstDash_eq, right.joinFirstDash_eq]

/-- Two cuts, the second no further to the left than the first. -/
theorem Cut.eq_or_meet {ahead : List Char} (ha : Cut a before x after)
    (hb : Cut b (before ++ ahead) y after') (h : x.toUpper :: after = ahead ++ y.toUpper :: after') :
    a = b ∨ Meet a b := by
  cases ahead with
  | nil =>
    rw [List.append_nil] at hb
    obtain ⟨hcase, rfl⟩ := List.cons.inj h
    by_cases hletter : x = y
    · exact Or.inl (by rw [ha.eq, hb.eq, hletter])
    · exact Or.inr (.recased ha hb hletter hcase)
  | cons z between =>
    obtain ⟨rfl, rfl⟩ := List.cons.inj h
    exact Or.inr (.apart ha hb)

theorem joinFirstDash_eq_iff : joinFirstDash a = joinFirstDash b ↔ a = b ∨ Meet a b ∨ Meet b a := by
  constructor
  · intro h
    obtain ⟨before, x, after, ha⟩ | ha := exists_cut_or_no_joint a <;>
      obtain ⟨before', y, after', hb⟩ | hb := exists_cut_or_no_joint b
    · -- The text whose first joint is further to the left takes the place of `a` in `Cut.eq_or_meet`.
      rw [ha.joinFirstDash_eq, hb.joinFirstDash_eq, List.append_eq_append_iff] at h
      obtain ⟨ahead, rfl, h⟩ | ⟨ahead, rfl, h⟩ := h
      · exact (ha.eq_or_meet hb h).imp_right Or.inl
      · exact (hb.eq_or_meet ha h).imp Eq.symm Or.inr
    · rw [ha.joinFirstDash_eq, joinFirstDash_of_no_joint hb] at h
      exact Or.inr (Or.inl (.joined ha hb h.symm))
    · rw [joinFirstDash_of_no_joint ha, hb.joinFirstDash_eq] at h
      exact Or.inr (Or.inr (.joined hb ha h))
    · rw [joinFirstDash_of_no_joint ha, joinFirstDash_of_no_joint hb] at h
      exact Or.inl h
  · rintro (rfl | h | h)
    · rfl
    · exact h.joinFirstDash_eq
    · exact h.joinFirstDash_eq.symm

/-- Two names that differ and have the same camel case. -/
def Collide (a b : String) : Prop :=
  Meet a.toList b.toList ∨ Meet b.toList a.toList

theorem camelCase_eq_iff {a b : String} : camelCase a = camelCase b ↔ a = b ∨ Collide a b := by
  rw [camelCase, camelCase, String.ofList_inj, joinFirstDash_eq_iff, String.toList_inj, Collide]

/-- A quoted key has a dash in it, and one that is not quoted has none. -/
theorem propertyKey_eq_iff {a b : String} : propertyKey a = propertyKey b ↔ a = b ∨ Collide a b := by
  rw [← camelCase_eq_iff]
  refine ⟨fun h => ?_, fun h => by rw [propertyKey, propertyKey, h]⟩
  have hlist := congrArg String.toList h
  simp only [propertyKey] at hlist
  split at hlist <;> split at hlist
  · simpa [String.toList_append, String.toList_inj] using hlist
  · rename_i hdash hnone
    have hmem : '-' ∈ (camelCase b).toList := by
      rw [← hlist]
      simp [String.toList_append, hdash]
    exact absurd hmem hnone
  · rename_i hnone hdash
    have hmem : '-' ∈ (camelCase a).toList := by
      rw [hlist]
      simp [String.toList_append, hdash]
    exact absurd hmem hnone
  · exact String.toList_inj.1 hlist

/-- The same but for underscores in place of dashes. -/
def Alike (a b : List Char) : Prop :=
  List.Forall₂ (fun c d => c = d ∨ c = '-' ∧ d = '_' ∨ c = '_' ∧ d = '-') a b

theorem parameterName_eq_iff {a b : String} :
    parameterName a = parameterName b ↔ Alike (camelCase a).toList (camelCase b).toList := by
  rw [parameterName, parameterName, String.ofList_inj, ← List.forall₂_eq_eq_eq,
    List.forall₂_map_left_iff, List.forall₂_map_right_iff, Alike]
  have hchar : ∀ c d : Char, (if c = '-' then '_' else c) = (if d = '-' then '_' else d) ↔
      c = d ∨ c = '-' ∧ d = '_' ∨ c = '_' ∧ d = '-' := by
    intro c d
    split <;> split <;> simp_all [eq_comm]
  simp only [hchar]

theorem Alike.eq (h : Alike a b) (ha : '_' ∉ a) (hb : '_' ∉ b) : a = b := by
  induction h with
  | nil => rfl
  | cons hchar _ ih =>
    rw [List.mem_cons, not_or] at ha hb
    obtain rfl | ⟨_, rfl⟩ | ⟨rfl, _⟩ := hchar
    · rw [ih ha.2 hb.2]
    · exact absurd rfl hb.1
    · exact absurd rfl ha.1

theorem isLower_iff : x.isLower = true ↔ 97 ≤ x.toNat ∧ x.toNat ≤ 122 :=
  (Bool.and_eq_true _ _).to_iff.trans (and_congr decide_eq_true_iff decide_eq_true_iff)

theorem isUpper_iff : x.isUpper = true ↔ 65 ≤ x.toNat ∧ x.toNat ≤ 90 :=
  decide_eq_true_iff

theorem toUpper_eq_self (h : x.isLower = false) : x.toUpper = x :=
  dif_neg fun hlower => Bool.false_ne_true (h.symm.trans (isLower_iff.2 hlower))

theorem toNat_toUpper (h : x.isLower = true) : x.toUpper.toNat = x.toNat - 32 := by
  have hlower := isLower_iff.1 h
  obtain ⟨hvalid, hupper⟩ : ∃ hvalid, x.toUpper = ⟨x.val + ('A'.val - 'a'.val), hvalid⟩ :=
    ⟨_, dif_pos hlower⟩
  -- the step down is added as a word that is 32 short of overflow
  have hstep : ('A'.val - 'a'.val).toNat = 2 ^ 32 - 32 := by decide
  rw [hupper, ← Char.toNat_val, UInt32.toNat_add, hstep, Char.toNat_val]
  omega

theorem isUpper_toUpper (h : x.isLower = true) : x.toUpper.isUpper = true := by
  have hlower := isLower_iff.1 h
  rw [isUpper_iff, toNat_toUpper h]
  omega

/-- Small letters are told apart when they are raised. -/
theorem eq_of_toUpper_eq (hx : x.isLower = true) (hy : y.isLower = true)
    (h : x.toUpper = y.toUpper) : x = y := by
  have hxle := (isLower_iff.1 hx).1
  have hyle := (isLower_iff.1 hy).1
  have hsub : x.toNat - 32 = y.toNat - 32 := by rw [← toNat_toUpper hx, ← toNat_toUpper hy, h]
  exact Char.toNat_inj.1 (by omega)

theorem eq_underscore_of_toUpper (h : x.toUpper = '_') : x = '_' := by
  cases hlower : x.isLower with
  | true =>
    have hupper := isUpper_toUpper hlower
    rw [h] at hupper
    exact absurd hupper (by decide)
  | false => rwa [toUpper_eq_self hlower] at h

theorem underscore_not_mem_joinFirstDash (h : '_' ∉ text) : '_' ∉ joinFirstDash text := by
  obtain ⟨before, x, after, hcut⟩ | hnone := exists_cut_or_no_joint text
  · rw [hcut.eq] at h
    rw [hcut.joinFirstDash_eq]
    simp only [List.mem_append, List.mem_cons, not_or] at h ⊢
    exact ⟨h.1, fun hx => h.2.2.1 (eq_underscore_of_toUpper hx.symm).symm, h.2.2.2⟩
  · rwa [joinFirstDash_of_no_joint hnone]

theorem parameterName_eq_iff_of_no_underscore {a b : String} (ha : '_' ∉ a.toList)
    (hb : '_' ∉ b.toList) : parameterName a = parameterName b ↔ a = b ∨ Collide a b := by
  rw [parameterName_eq_iff, ← camelCase_eq_iff]
  refine ⟨fun h => String.toList_inj.1 (h.eq ?_ ?_), fun h => ?_⟩
  · rw [toList_camelCase]
    exact underscore_not_mem_joinFirstDash ha
  · rw [toList_camelCase]
    exact underscore_not_mem_joinFirstDash hb
  · rw [h, Alike]
    exact List.forall₂_same.2 fun c _ => Or.inl rfl

/-- There is no capital, and the letter behind the first joint's dash is a small one. -/
structure Small (text : List Char) : Prop where
  isUpper : ∀ c ∈ text, c.isUpper = false
  isLower : ∀ {before after : List Char} {letter : Char}, Cut text before letter after →
    letter.isLower = true

theorem small_of_forall_dash (hupper : text.all (fun c => !c.isUpper) = true)
    (hlower : ∀ i < text.length, text[i]? = some '-' → text[i + 1]?.all Char.isLower = true) :
    Small text where
  isUpper := by simpa using hupper
  isLower := by
    intro before after letter hcut
    have hdash := hcut.first.1.dash
    have hletter := hlower _ (List.getElem?_eq_some_iff.1 hdash).1 hdash
    rw [hcut.eq, List.getElem?_append_right (Nat.le_add_right _ _)] at hletter
    simpa using hletter

/-- A raised letter is the only capital, so it shows where the dash was. -/
theorem Small.not_meet (ha : Small a) (hb : Small b) : ¬Meet a b := by
  intro h
  cases h with
  | @joined before after x cut _ eq =>
    have hmem : x.toUpper ∈ b := by simp [eq]
    exact Bool.false_ne_true ((hb.isUpper _ hmem).symm.trans (isUpper_toUpper (ha.isLower cut)))
  | recased left right ne eq =>
    exact ne (eq_of_toUpper_eq (ha.isLower left) (hb.isLower right) eq)
  | @apart before between after x y left right =>
    have hmem : y.toUpper ∈ a := by simp [left.eq]
    exact Bool.false_ne_true ((ha.isUpper _ hmem).symm.trans (isUpper_toUpper (hb.isLower right)))

theorem Small.not_collide {a b : String} (ha : Small a.toList) (hb : Small b.toList) :
    ¬Collide a b :=
  not_or.2 ⟨ha.not_meet hb, hb.not_meet ha⟩

section Names

variable {names : List String}

/-- Spelled names are distinct exactly if no two names are spelled the same. -/
theorem nodup_map_iff {spell : String → String} {Same : String → String → Prop}
    (h : ∀ a ∈ names, ∀ b ∈ names, spell a = spell b ↔ Same a b) :
    (names.map spell).Nodup ↔ names.Pairwise fun a b => ¬Same a b := by
  rw [List.Nodup, List.pairwise_map]
  exact List.Pairwise.iff_of_mem fun ha hb => not_congr (h _ ha _ hb)

theorem nodup_map_iff_of_collide {spell : String → String}
    (h : ∀ a ∈ names, ∀ b ∈ names, spell a = spell b ↔ a = b ∨ Collide a b) :
    (names.map spell).Nodup ↔ names.Nodup ∧ names.Pairwise fun a b => ¬Collide a b := by
  rw [nodup_map_iff h, List.Nodup, ← List.pairwise_and_iff]
  simp only [not_or, ne_eq]

theorem pairwise_not_collide_of_small (h : ∀ name ∈ names, Small name.toList) :
    names.Pairwise fun a b => ¬Collide a b :=
  List.pairwise_of_forall_mem_list fun a ha b hb => (h a ha).not_collide (h b hb)

theorem nodup_map_propertyKey_iff :
    (names.map propertyKey).Nodup ↔ names.Nodup ∧ names.Pairwise fun a b => ¬Collide a b :=
  nodup_map_iff_of_collide fun _ _ _ _ => propertyKey_eq_iff

theorem nodup_map_parameterName_iff : (names.map parameterName).Nodup ↔
    names.Pairwise fun a b => ¬Alike (camelCase a).toList (camelCase b).toList :=
  nodup_map_iff fun _ _ _ _ => parameterName_eq_iff

theorem nodup_map_parameterName_iff_of_no_underscore (h : ∀ name ∈ names, '_' ∉ name.toList) :
    (names.map parameterName).Nodup ↔ names.Nodup ∧ names.Pairwise fun a b => ¬Collide a b :=
  nodup_map_iff_of_collide fun a ha b hb => parameterName_eq_iff_of_no_underscore (h a ha) (h b hb)

end Names

end Identifier

namespace Converter

open Identifier

variable {c : Converter}

/-- What the names of an object's members become. Its keys are distinct exactly if the names of its fields
are distinct and no two of them collide, and so it is with the parameters of a method if no argument has an
underscore in its name; else an underscore may also stand for a dash that is left. Small names never
collide. -/
theorem interface_members_distinct_iff {r : ObjectRecord} {i : Interface}
    (h : c.interface r = .ok i) :
    ((i.fields.map Field.name).Nodup ↔ (r.fields.map FieldRecord.name).Nodup ∧
      (r.fields.map FieldRecord.name).Pairwise fun a b => ¬Collide a b) ∧
    ((∀ name ∈ r.fields.map FieldRecord.name, Small name.toList) →
      ((i.fields.map Field.name).Nodup ↔ (r.fields.map FieldRecord.name).Nodup)) ∧
    List.Forall₂ (fun (record : MethodRecord) (m : Method) =>
      ((m.params.map Field.name).Nodup ↔ (record.args.map FieldRecord.name).Pairwise fun a b =>
        ¬Alike (camelCase a).toList (camelCase b).toList) ∧
      ((∀ name ∈ record.args.map FieldRecord.name, '_' ∉ name.toList) →
        ((m.params.map Field.name).Nodup ↔ (record.args.map FieldRecord.name).Nodup ∧
          (record.args.map FieldRecord.name).Pairwise fun a b => ¬Collide a b)) ∧
      ((∀ name ∈ record.args.map FieldRecord.name, '_' ∉ name.toList ∧ Small name.toList) →
        ((m.params.map Field.name).Nodup ↔ (record.args.map FieldRecord.name).Nodup)))
      r.methods i.methods := by
  have hdeclares := declares_of_interface_eq_ok h
  rw [map_name_of_declaresField writtenAsKey_iff hdeclares.fields]
  refine ⟨nodup_map_propertyKey_iff, fun hsmall => ?_, hdeclares.methods.imp fun record m hm => ?_⟩
  · rw [nodup_map_propertyKey_iff]
    exact and_iff_left (pairwise_not_collide_of_small hsmall)
  · rw [map_name_of_declaresField writtenAsParameter_iff hm.params]
    refine ⟨nodup_map_parameterName_iff, nodup_map_parameterName_iff_of_no_underscore, fun hargs => ?_⟩
    rw [nodup_map_parameterName_iff_of_no_underscore fun name hname => (hargs name hname).1]
    exact and_iff_left (pairwise_not_collide_of_small fun name hname => (hargs name hname).2)

/-- A class with these names of fields, and with one method that has these names of arguments. -/
def namedMembers (fields args : List String) : ObjectRecord :=
  ⟨"Tasks_v1.Tasks.V1.Schema.Task", fields.map (⟨·, "String", none⟩),
    [⟨"insert", "void", args.map (⟨·, "String", none⟩), none⟩], none⟩

def declaredMembers (fields args : List String) : Interface :=
  ⟨scriptConverter.root.join taskName, fields.map (⟨propertyKey ·, "string", none⟩),
    [⟨propertyKey "insert", "void", args.map (⟨parameterName ·, "string", none⟩), none⟩], none⟩

theorem interface_namedMembers (fields args : List String) :
    scriptConverter.interface (namedMembers fields args) = .ok (declaredMembers fields args) := by
  have htext : Registry.builtin.typeOf "Tasks_v1.Tasks.V1.Schema.Task" = .ok "Tasks.Schema.Task" :=
    typeOf_task
  have hname : scriptConverter.relativeName "Tasks_v1.Tasks.V1.Schema.Task" = .ok taskName :=
    relativeName_eq_ok_iff.2 ⟨_, htext, by decide +kernel⟩
  have hstring : scriptConverter.registry.typeOf "String" = .ok "string" := by decide +kernel
  have hvoid : scriptConverter.registry.typeOf "void" = .ok "void" := by decide +kernel
  refine interface_eq_ok_iff.2 ⟨_, _, _, hname, ?_,
    .cons (method_eq_ok_iff.2 ⟨_, _, ?_, hvoid, rfl⟩) .nil, rfl⟩
  · simp only [namedMembers, List.forall₂_map_left_iff, List.forall₂_map_right_iff, List.forall₂_same]
    exact fun name _ => field_eq_ok_iff.2 ⟨_, hstring, rfl⟩
  · simp only [List.forall₂_map_left_iff, List.forall₂_map_right_iff, List.forall₂_same]
    exact fun name _ => parameter_eq_ok_iff.2 ⟨_, hstring, rfl⟩

theorem interface_members_distinct_of_small :
    (∀ name ∈ ["max-results", "foo-b-bar"], '_' ∉ name.toList ∧ Small name.toList) ∧
      ∃ i, scriptConverter.interface
          (namedMembers ["max-results", "foo-b-bar"] ["max-results", "foo-b-bar"]) = .ok i ∧
        (i.fields.map Field.name).Nodup ∧
        ∃ m, i.methods = [m] ∧ (m.params.map Field.name).Nodup := by
  have hsmall : ∀ name ∈ ["max-results", "foo-b-bar"], '_' ∉ name.toList ∧ Small name.toList := by
    simp only [List.forall_mem_cons, List.not_mem_nil, false_implies, implies_true, and_true]
    exact ⟨⟨by decide +kernel, small_of_forall_dash (by decide +kernel) (by decide +kernel)⟩,
      by decide +kernel, small_of_forall_dash (by decide +kernel) (by decide +kernel)⟩
  have h := interface_namedMembers ["max-results", "foo-b-bar"] ["max-results", "foo-b-bar"]
  obtain ⟨-, hkeys, hmethods⟩ := interface_members_distinct_iff h
  obtain ⟨-, -, hparams⟩ := (List.forall₂_cons.1 hmethods).1
  refine ⟨hsmall, _, h, (hkeys fun name hname => (hsmall name hname).2).2 (by decide +kernel), _, rfl, ?_⟩
  exact (hparams hsmall).2 (by decide +kernel)

/-- Two fields whose names differ and whose keys are the same, and two such arguments. -/
theorem interface_with_repeated_members : ∃ i,
    scriptConverter.interface (namedMembers ["foo-bar", "fooBar"] ["x-y", "x_y"]) = .ok i ∧
      ((namedMembers ["foo-bar", "fooBar"] ["x-y", "x_y"]).fields.map FieldRecord.name).Nodup ∧
      i.fields.map Field.name = ["fooBar", "fooBar"] ∧
      ∃ record m, (namedMembers ["foo-bar", "fooBar"] ["x-y", "x_y"]).methods = [record] ∧
        i.methods = [m] ∧ (record.args.map FieldRecord.name).Nodup ∧
        m.params.map Field.name = ["x_y", "x_y"] :=
  ⟨_, interface_namedMembers _ _, by decide, by decide +kernel, _, _, rfl, rfl, by decide,
    by decide +kernel⟩

end Converter
end ServiceTypings
