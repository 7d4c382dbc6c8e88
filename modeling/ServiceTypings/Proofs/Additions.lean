import Mathlib.Data.List.Induction
import ServiceTypings.Proofs.DistinctNames
import ServiceTypings.Proofs.Growth
import ServiceTypings.Settings

/-! Registries built up by additions, in any number and order. What such a registry holds is told from the
additions alone: the ids in the order in which they first came, for each id the last definition given, for
each irregular token the last type (`registry_of_additions`). The registry of settings is the built-in one
with their additions, and a definition that was replaced settles no token any more. -/

namespace ServiceTypings

theorem eraseDups_of_nodup {α : Type} [DecidableEq α] {l : List α} (h : l.Nodup) : l.eraseDups = l := by
  induction l using List.reverseRecOn with
  | nil => rfl
  | append_singleton l a ih =>
    obtain ⟨hl, _, hdisjoint⟩ := List.nodup_append.1 h
    have ha : a ∉ l := fun ha => hdisjoint a ha a List.mem_cons_self rfl
    rw [eraseDups_concat, ih hl, if_neg ha]

namespace Keyed

variable {α κ : Type} [DecidableEq κ] (key : α → κ)

/-- Puts entries in, one after the other. -/
def putAll (xs entries : List α) : List α :=
  xs.foldl (fun entries x => put key x entries) entries

theorem putAll_append (xs ys entries : List α) :
    putAll key (xs ++ ys) entries = putAll key ys (putAll key xs entries) :=
  List.foldl_append

/-- The last entry of a key is the one that is found. -/
theorem find?_putAll (k : κ) (xs entries : List α) :
    find? key k (putAll key xs entries) = (find? key k xs.reverse).or (find? key k entries) := by
  induction xs generalizing entries with
  | nil => rfl
  | cons x xs ih =>
    have hrest : find? key k (x :: xs).reverse = (find? key k xs.reverse).or (find? key k [x]) := by
      rw [List.reverse_cons, find?, List.find?_append]
      rfl
    rw [hrest, Option.or_assoc]
    refine (ih (put key x entries)).trans ?_
    congr 1
    by_cases hx : key x = k
    · subst hx
      rw [put, find?_alter_self key (key x) (fun _ => x) fun _ => rfl]
      simp [find?]
    · rw [put, find?_alter_of_ne key (fun _ => x) (fun _ => rfl) (Ne.symm hx)]
      simp [find?, hx]

theorem nodup_map_putAll (xs : List α) {entries : List α} (h : (entries.map key).Nodup) :
    ((putAll key xs entries).map key).Nodup := by
  induction xs generalizing entries with
  | nil => exact h
  | cons x xs ih => exact ih (nodup_map_put key x h)

/-- Keys stand in the order in which they first came. -/
theorem map_putAll (xs : List α) {entries : List α} (h : (entries.map key).Nodup) :
    (putAll key xs entries).map key = (entries.map key ++ xs.map key).eraseDups := by
  induction xs using List.reverseRecOn with
  | nil => rw [List.map_nil, List.append_nil, eraseDups_of_nodup h]; rfl
  | append_singleton xs x ih =>
    rw [putAll_append, List.map_append, List.map_singleton, ← List.append_assoc, eraseDups_concat, ← ih]
    exact map_alter key (key x) (fun _ => x) _ rfl

theorem getElem?_put_of_ne {x e : α} {entries : List α} {i : Nat} (he : entries[i]? = some e)
    (hne : key e ≠ key x) : (put key x entries)[i]? = some e := by
  unfold put
  induction entries generalizing i with
  | nil => simp at he
  | cons y ys ih =>
    by_cases hy : key y = key x
    · cases i with
      | zero =>
        obtain rfl : y = e := by simpa using he
        exact absurd hy hne
      | succ i => simpa [alter, hy] using he
    · cases i with
      | zero => simpa [alter, hy] using he
      | succ i => simpa [alter, hy] using ih (by simpa using he)

theorem getElem?_putAll_of_not_mem {xs entries : List α} {e : α} {i : Nat} (he : entries[i]? = some e)
    (hxs : key e ∉ xs.map key) : (putAll key xs entries)[i]? = some e := by
  induction xs generalizing entries with
  | nil => exact he
  | cons x xs ih =>
    rw [List.map_cons, List.mem_cons, not_or] at hxs
    exact ih (getElem?_put_of_ne key he hxs.1) hxs.2

theorem mem_putAll {xs entries : List α} (h : (entries.map key).Nodup) {e : α}
    (he : e ∈ putAll key xs entries) : e ∈ xs ∨ e ∈ entries := by
  induction xs generalizing entries with
  | nil => exact Or.inr he
  | cons x xs ih =>
    rcases ih (nodup_map_put key x h) he with he | he
    · exact Or.inl (List.mem_cons_of_mem x he)
    · rcases mem_alter h he with rfl | ⟨he, _⟩
      · exact Or.inl List.mem_cons_self
      · exact Or.inr he

theorem find?_eq_some_of_mem {entries : List α} (h : (entries.map key).Nodup) {e : α}
    (he : e ∈ entries) : find? key (key e) entries = some e := by
  induction entries with
  | nil => simp at he
  | cons x xs ih =>
    rw [List.map_cons, List.nodup_cons] at h
    rcases List.mem_cons.1 he with rfl | he
    · simp [find?]
    · have hx : key x ≠ key e := fun hx => h.1 (hx ▸ List.mem_map_of_mem he)
      simpa [find?, hx] using ih h.2 he

end Keyed

/-- What may be added to a registry in one go. -/
inductive Addition where
  | definition (d : Definition)
  | irregular (token type : String)
  | irregulars (entries : List (String × String))
  deriving DecidableEq, Repr

namespace Addition

def addTo (r : Registry) : Addition → Registry
  | definition d => r.addDefinition d
  | irregular token type => r.addIrregular (token, type)
  | irregulars entries => r.extendIrregular entries

/-- The definitions that it brings. -/
def definitions : Addition → List Definition
  | definition d => [d]
  | irregular .. | irregulars _ => []

/-- The irregular tokens that it brings, each with its type. -/
def entries : Addition → List (String × String)
  | definition _ => []
  | irregular token type => [(token, type)]
  | irregulars entries => entries

end Addition

namespace Registry

variable {r : Registry}

def addAll (r : Registry) (additions : List Addition) : Registry :=
  additions.foldl Addition.addTo r

theorem irregular_extendIrregular (r : Registry) (entries : List (String × String)) :
    (r.extendIrregular entries).irregular = Keyed.putAll Prod.fst entries r.irregular := by
  induction entries generalizing r with
  | nil => rfl
  | cons entry entries ih => exact ih (r.addIrregular entry)

theorem definitions_addDefinitions (r : Registry) (ds : List Definition) :
    (r.addDefinitions ds).definitions = Keyed.putAll Definition.id ds r.definitions := by
  induction ds generalizing r with
  | nil => rfl
  | cons d ds ih => exact ih (r.addDefinition d)

theorem definitions_addTo (r : Registry) (a : Addition) :
    (a.addTo r).definitions = Keyed.putAll Definition.id a.definitions r.definitions := by
  cases a with
  | definition d => rfl
  | irregular token type => rfl
  | irregulars entries => exact r.definitions_extendIrregular entries

theorem irregular_addTo (r : Registry) (a : Addition) :
    (a.addTo r).irregular = Keyed.putAll Prod.fst a.entries r.irregular := by
  cases a with
  | definition d => rfl
  | irregular token type => rfl
  | irregulars entries => exact r.irregular_extendIrregular entries

theorem definitions_addAll (r : Registry) (additions : List Addition) :
    (r.addAll additions).definitions =
      Keyed.putAll Definition.id (additions.flatMap Addition.definitions) r.definitions := by
  induction additions generalizing r with
  | nil => rfl
  | cons a additions ih =>
    rw [List.flatMap_cons, Keyed.putAll_append, ← definitions_addTo]
    exact ih (a.addTo r)

/-- For the irregular tokens only those that the additions bring count. -/
theorem irregular_addAll (r : Registry) (additions : List Addition) :
    (r.addAll additions).irregular =
      Keyed.putAll Prod.fst (additions.flatMap Addition.entries) r.irregular := by
  induction additions generalizing r with
  | nil => rfl
  | cons a additions ih =>
    rw [List.flatMap_cons, Keyed.putAll_append, ← irregular_addTo]
    exact ih (a.addTo r)

/-- The registry `s` is what the additions make of `r`, told from them alone. -/
structure Becomes (r : Registry) (additions : List Addition) (s : Registry) : Prop where
  /-- There is one definition for each id. -/
  nodup : (s.definitions.map Definition.id).Nodup
  /-- Ids stand in the order in which they first came, so that a replacement stands where the replaced
  definition stood. -/
  ids : s.definitions.map Definition.id = (r.definitions.map Definition.id ++
    (additions.flatMap Addition.definitions).map Definition.id).eraseDups
  /-- The last definition of an id counts, or else the one there was. -/
  find? : ∀ id, s.find? id =
    (Keyed.find? Definition.id id (additions.flatMap Addition.definitions).reverse).or (r.find? id)
  /-- A definition whose id is not added stays as it is and where it is. -/
  kept : ∀ (i : Nat) (d : Definition), r.definitions[i]? = some d →
    d.id ∉ (additions.flatMap Addition.definitions).map Definition.id → s.definitions[i]? = some d
  /-- The last type of a token counts, or else the one there was. -/
  irregular? : ∀ token, s.irregular? token =
    ((Keyed.find? Prod.fst token (additions.flatMap Addition.entries).reverse).map Prod.snd).or
      (r.irregular? token)

theorem becomes_addAll (h : (r.definitions.map Definition.id).Nodup) (additions : List Addition) :
    r.Becomes additions (r.addAll additions) := by
  refine ⟨?_, ?_, fun id => ?_, fun i d hd hid => ?_, fun token => ?_⟩
  · rw [definitions_addAll]
    exact Keyed.nodup_map_putAll Definition.id _ h
  · rw [definitions_addAll]
    exact Keyed.map_putAll Definition.id _ h
  · rw [Registry.find?, definitions_addAll, Keyed.find?_putAll]
    rfl
  · rw [definitions_addAll]
    exact Keyed.getElem?_putAll_of_not_mem Definition.id hd hid
  · rw [Registry.irregular?, irregular_addAll, Keyed.find?_putAll, Option.map_or]
    rfl

/-- A definition that is not the one found under its id is not there, and settles no token. -/
theorem typeOf_eq_unresolved_of_replaced (h : (r.definitions.map Definition.id).Nodup)
    {old : Definition} (hold : r.find? old.id ≠ some old) {token : String} (hopen : r.LeavesOpen token)
    (hothers : ∀ d ∈ r.definitions, d ≠ old → ∀ length type, ¬d.Reads token length type) :
    r.typeOf token = .error (.unresolvedType token) := by
  refine typeOf_eq_unresolved_iff.2 ⟨hopen, ?_⟩
  rintro ⟨length, type, d, hd, hreads⟩
  have hne : d ≠ old := by
    rintro rfl
    exact hold (Keyed.find?_eq_some_of_mem Definition.id h hd)
  exact hothers d hd hne length type hreads

end Registry

namespace Settings

/-- What settings add to the built-in registry. -/
def additions (s : Settings) : List Addition :=
  s.definitions.map .definition ++ [.irregulars s.irregular]

theorem registry_eq_addAll (s : Settings) : s.registry = Registry.builtin.addAll s.additions := by
  rw [registry, additions, Registry.addAll, List.foldl_append, List.foldl_map]
  rfl

theorem mem_registry_definitions {s : Settings} {d : Definition} (h : d ∈ s.registry.definitions) :
    d ∈ s.definitions ∨ d ∈ Registry.builtin.definitions := by
  rw [registry, Registry.definitions_extendIrregular, Registry.definitions_addDefinitions] at h
  exact Keyed.mem_putAll Definition.id Registry.builtin_ids_nodup h

end Settings

namespace Registry

/-- Whatever is added to a registry with distinct ids, such as the empty one and the built-in one, the
outcome is told from the additions alone. The registry of settings is the outcome for the built-in one and
what they add; a token that none of its definitions reads, save one that was replaced, has no type. -/
theorem registry_of_additions :
    (∀ r : Registry, (r.definitions.map Definition.id).Nodup → ∀ additions,
      r.Becomes additions (r.addAll additions)) ∧
    (empty.definitions.map Definition.id).Nodup ∧ (builtin.definitions.map Definition.id).Nodup ∧
    ∀ s : Settings, s.registry = builtin.addAll s.additions ∧
      ∀ old ∈ builtin.definitions ++ s.definitions, s.registry.find? old.id ≠ some old →
        ∀ token, s.registry.LeavesOpen token →
          (∀ d ∈ s.registry.definitions, d ≠ old → ∀ length type, ¬d.Reads token length type) →
          s.registry.typeOf token = .error (.unresolvedType token) := by
  refine ⟨fun r h => becomes_addAll h, List.nodup_nil, builtin_ids_nodup, fun s => ?_⟩
  refine ⟨s.registry_eq_addAll, fun old _ hold token hopen hothers => ?_⟩
  have hnodup : (s.registry.definitions.map Definition.id).Nodup := by
    rw [s.registry_eq_addAll]
    exact (becomes_addAll builtin_ids_nodup s.additions).nodup
  exact typeOf_eq_unresolved_of_replaced hnodup hold hopen hothers

/-- A built-in service given anew, with other names: its old package is unknown from then on. -/
theorem registry_of_additions_renamed_service :
    let old := service "Drive" "Drive_v2" "Drive.V2." "drive/v2"
    let new : Definition := ⟨"Drive", some "Drive_v3", some "Drive.V3.", ""⟩
    let s : Settings := { definitions := [new], irregular := [("Drive.V3.Empty", "void")] }
    (builtin.definitions.map Definition.id).Nodup ∧ builtin.Becomes s.additions s.registry ∧
      old ∈ builtin.definitions ∧ s.registry.find? "Drive" = some new ∧
      builtin.typeOf "Drive_v2" = .ok "Drive" ∧
      s.registry.typeOf "Drive_v2" = .error (.unresolvedType "Drive_v2") := by
  intro old new s
  obtain ⟨hbecomes, _, hbuiltin, hsettings⟩ := registry_of_additions
  obtain ⟨hregistry, hreplaced⟩ := hsettings s
  have hold : old ∈ builtin.definitions := by decide +kernel
  have hfind : s.registry.find? "Drive" = some new := by decide +kernel
  have hothers : ∀ d ∈ s.registry.definitions, d ≠ old → d.matchesOf "Drive_v2" = [] := by
    decide +kernel
  refine ⟨hbuiltin, hregistry ▸ hbecomes builtin hbuiltin s.additions, hold, hfind, by decide +kernel, ?_⟩
  refine hreplaced old (List.mem_append_left _ hold) ?_ "Drive_v2" ⟨by decide, by decide +kernel⟩ ?_
  · exact fun h => absurd (Option.some.inj (hfind.symm.trans h)) (by decide)
  · intro d hd hne length type hreads
    obtain ⟨m, hm, _⟩ := hreads.exists_match
    simp [hothers d hd hne] at hm

end Registry
end ServiceTypings
