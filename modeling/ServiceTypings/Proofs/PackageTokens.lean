import Mathlib.Data.List.TakeWhile
import ServiceTypings.Proofs.Resolution
import ServiceTypings.Registry.Builtin

/-! Tokens that begin with the package of a definition. Where the names of a registry are told apart by
their first parts (`Separated`), such a token has one reading, that of its own definition, and means a
name below the definition's id (`typeOf_packageStart_append`). The services known from the start are so
named. -/

namespace ServiceTypings

/-- What comes before the first dot. -/
def firstPart (text : String) : List Char :=
  text.toList.takeWhile (· ≠ '.')

theorem firstPart_append_of_dotted {a : String} (h : '.' ∈ a.toList) (b : String) :
    firstPart (a ++ b) = firstPart a := by
  have hstop : (a.toList.takeWhile (· ≠ '.')).length ≠ a.toList.length := by
    intro hlength
    have hself := (List.takeWhile_prefix (l := a.toList) (· ≠ '.')).eq_of_length hlength
    rw [List.takeWhile_eq_self_iff] at hself
    simpa using hself '.' h
  rw [firstPart, String.toList_append, List.takeWhile_append, if_neg hstop, firstPart]

theorem firstPart_append_dot {a : String} (h : '.' ∉ a.toList) (b : String) :
    firstPart (a ++ "." ++ b) = a.toList := by
  have hlist : (a ++ "." ++ b).toList = a.toList ++ '.' :: b.toList := by simp
  have hall : ∀ c ∈ a.toList, decide (c ≠ '.') = true := by
    intro c hc
    rw [decide_eq_true_eq]
    rintro rfl
    exact h hc
  rw [firstPart, hlist, List.takeWhile_append_of_pos hall, List.takeWhile_cons_of_neg (by simp),
    List.append_nil]

namespace TypeToken

theorem primitive?_eq_none_of_dotted {token : String} (h : '.' ∈ token.toList) :
    primitive? token = none := by
  unfold primitive?
  split <;> first | rfl | exact absurd h (by decide)

end TypeToken

theorem Definition.dot_mem_of_packageStart {d : Definition} {start : String}
    (h : d.packageStart = some start) (rest : String) : '.' ∈ (start ++ rest).toList := by
  obtain ⟨inner, abbreviated, _, _, rfl⟩ := packageStart_eq_some_iff.1 h
  simp

namespace Registry

open TypeToken

/-- Packages and abbreviated names are known by their first parts, which are all different. -/
structure Separated (r : Registry) : Prop where
  inner_dotless : ∀ d ∈ r.definitions, ∀ inner ∈ d.innerName, '.' ∉ inner.toList
  abbreviated_dotted : ∀ d ∈ r.definitions, ∀ start ∈ d.abbreviatedName, '.' ∈ start.toList
  inner_unique : ∀ d ∈ r.definitions, ∀ inner ∈ d.innerName, ∀ e ∈ r.definitions,
    e.innerName = some inner → e = d
  inner_apart : ∀ d ∈ r.definitions, ∀ inner ∈ d.innerName, ∀ e ∈ r.definitions,
    ∀ start ∈ e.abbreviatedName, inner.toList ≠ firstPart start

namespace Separated

variable {r : Registry} {d : Definition} {start rest : String}

/-- A package and more has only the reading that its definition gives it. -/
theorem reads_iff (h : r.Separated) (hd : d ∈ r.definitions) (hstart : d.packageStart = some start)
    (hrest : rest ≠ "") {length : Nat} {type : String} :
    r.Reads (start ++ rest) length type ↔
      length = start.utf8ByteSize ∧ type = d.id ++ "." ++ rest := by
  obtain ⟨inner, abbreviated, hi, ha, rfl⟩ := Definition.packageStart_eq_some_iff.1 hstart
  have hinner : '.' ∉ inner.toList := h.inner_dotless d hd inner hi
  have hfirst : firstPart (inner ++ "." ++ abbreviated ++ rest) = inner.toList := by
    rw [String.append_assoc]
    exact firstPart_append_dot hinner (abbreviated ++ rest)
  -- a definition whose package begins the token is the one that was asked for
  have hown : ∀ e ∈ r.definitions, ∀ other abbreviated' rest', e.innerName = some other →
      inner ++ "." ++ abbreviated ++ rest = other ++ "." ++ abbreviated' ++ rest' → e = d := by
    intro e he other abbreviated' rest' ho htoken
    rw [htoken, String.append_assoc,
      firstPart_append_dot (h.inner_dotless e he other ho)] at hfirst
    exact h.inner_unique d hd inner hi e he (String.toList_inj.1 hfirst ▸ ho)
  constructor
  · rintro ⟨e, he, hreads⟩
    cases hreads with
    | inner ho =>
      have hdot := Definition.dot_mem_of_packageStart hstart rest
      exact absurd hdot (h.inner_dotless e he _ ho)
    | package ho hb htoken =>
      obtain rfl := hown e he _ _ "" ho (htoken.trans String.append_empty.symm)
      obtain rfl := Option.some.inj (hi.symm.trans ho)
      obtain rfl := Option.some.inj (ha.symm.trans hb)
      exact absurd (by simpa using htoken) hrest
    | belowPackage ho hb htoken _ =>
      obtain rfl := hown e he _ _ _ ho htoken
      obtain rfl := Option.some.inj (hi.symm.trans ho)
      obtain rfl := Option.some.inj (ha.symm.trans hb)
      rw [String.append_right_inj] at htoken
      exact ⟨rfl, by rw [htoken]⟩
    | abbreviated hb htoken _ =>
      rw [htoken, firstPart_append_of_dotted (h.abbreviated_dotted e he _ hb)] at hfirst
      exact absurd hfirst.symm (h.inner_apart d hd inner hi e he _ hb)
  · rintro ⟨rfl, rfl⟩
    exact ⟨d, hd, .belowPackage hi ha rfl hrest⟩

theorem typeOf_packageStart_append (h : r.Separated) (hd : d ∈ r.definitions)
    (hstart : d.packageStart = some start) (hrest : rest ≠ "")
    (hirregular : r.irregular? (start ++ rest) = none) :
    r.typeOf (start ++ rest) = .ok (d.id ++ "." ++ rest) := by
  have hopen : r.LeavesOpen (start ++ rest) :=
    ⟨primitive?_eq_none_of_dotted (Definition.dot_mem_of_packageStart hstart rest), hirregular⟩
  refine typeOf_eq_ok_iff.2 (Or.inr (Or.inr ⟨hopen, ?_, ?_⟩))
  · refine ⟨_, (h.reads_iff hd hstart hrest).2 ⟨rfl, rfl⟩, fun other _ hother => ?_⟩
    exact Nat.le_of_eq ((h.reads_iff hd hstart hrest).1 hother).1
  · rintro other ⟨_, hother, _⟩
    exact ((h.reads_iff hd hstart hrest).1 hother).2

end Separated

theorem builtin_separated : builtin.Separated where
  inner_dotless := by decide +kernel
  abbreviated_dotted := by decide +kernel
  inner_unique := by decide +kernel
  inner_apart := by decide +kernel

theorem builtin_id_dotless : ∀ d ∈ builtin.definitions, '.' ∉ d.id.toList := by
  decide +kernel

end Registry
end ServiceTypings
