/-! Lists that hold one entry for each key, in the order in which the keys first came. A new entry goes to
the end; a later entry for a known key takes the place of the earlier one (`find?_alter`). -/

namespace ServiceTypings.Keyed

variable {α κ : Type} [DecidableEq κ]

def find? (key : α → κ) (k : κ) (entries : List α) : Option α :=
  entries.find? fun x => key x = k

/-- Replaces the entry of key `k` by `f` of it, or appends `f none`. -/
def alter (key : α → κ) (k : κ) (f : Option α → α) : List α → List α
  | [] => [f none]
  | x :: xs => if key x = k then f (some x) :: xs else x :: alter key k f xs

def put (key : α → κ) (x : α) (entries : List α) : List α :=
  alter key (key x) (fun _ => x) entries

theorem find?_alter_self (key : α → κ) (k : κ) (f : Option α → α) (h : ∀ o, key (f o) = k)
    (xs : List α) : find? key k (alter key k f xs) = some (f (find? key k xs)) := by
  induction xs with
  | nil => simp [alter, find?, h]
  | cons x xs ih =>
    by_cases hx : key x = k
    · simp [alter, find?, hx, h]
    · simpa [alter, find?, hx] using ih

theorem find?_alter_of_ne (key : α → κ) {k k' : κ} (f : Option α → α) (h : ∀ o, key (f o) = k)
    (hk : k' ≠ k) (xs : List α) : find? key k' (alter key k f xs) = find? key k' xs := by
  induction xs with
  | nil => simp [alter, find?, h, hk.symm]
  | cons x xs ih =>
    by_cases hx : key x = k
    · simp [alter, find?, hx, h, hk.symm]
    · simp only [alter, if_neg hx, find?, List.find?_cons]
      rw [show List.find? (fun x => decide (key x = k')) (alter key k f xs) =
        List.find? (fun x => decide (key x = k')) xs from ih]

/-- Only what `f` makes of the entry that stands under `k` matters. -/
theorem alter_congr (key : α → κ) (k : κ) {f g : Option α → α} {xs : List α}
    (h : f (find? key k xs) = g (find? key k xs)) : alter key k f xs = alter key k g xs := by
  induction xs with
  | nil =>
    rw [find?, List.find?_nil] at h
    rw [alter, alter, h]
  | cons x xs ih =>
    by_cases hx : key x = k
    · have hf : find? key k (x :: xs) = some x := by simp [find?, hx]
      rw [hf] at h
      rw [alter, alter, if_pos hx, if_pos hx, h]
    · have hf : find? key k (x :: xs) = find? key k xs := by simp [find?, hx]
      rw [hf] at h
      rw [alter, alter, if_neg hx, if_neg hx, ih h]

/-- A changed entry keeps its place, and a new one comes last; it is enough that the entry that stands
under `k` keeps its key. -/
theorem map_alter (key : α → κ) (k : κ) (f : Option α → α) (xs : List α)
    (h : key (f (find? key k xs)) = k) :
    (alter key k f xs).map key = if k ∈ xs.map key then xs.map key else xs.map key ++ [k] := by
  induction xs with
  | nil =>
    rw [find?, List.find?_nil] at h
    simp [alter, h]
  | cons x xs ih =>
    by_cases hx : key x = k
    · have hf : find? key k (x :: xs) = some x := by simp [find?, hx]
      rw [hf] at h
      simp [alter, hx, h]
    · have hf : find? key k (x :: xs) = find? key k xs := by simp [find?, hx]
      rw [hf] at h
      simp only [alter, if_neg hx, List.map_cons, ih h, List.mem_cons, Ne.symm hx, false_or]
      split <;> simp

/-- With one entry for each key, only the entry of key `k` is changed. -/
theorem mem_alter {key : α → κ} {k : κ} {f : Option α → α} {xs : List α} (hxs : (xs.map key).Nodup)
    {x : α} (hx : x ∈ alter key k f xs) : x = f (find? key k xs) ∨ x ∈ xs ∧ key x ≠ k := by
  induction xs with
  | nil =>
    left
    simpa [alter, find?] using hx
  | cons y ys ih =>
    rw [List.map_cons, List.nodup_cons] at hxs
    by_cases hy : key y = k
    · have hf : find? key k (y :: ys) = some y := by simp [find?, hy]
      rw [alter, if_pos hy, List.mem_cons] at hx
      rw [hf]
      rcases hx with hx | hx
      · exact Or.inl hx
      · have hne : key x ≠ k := fun h => hxs.1 (hy.trans h.symm ▸ List.mem_map_of_mem hx)
        exact Or.inr ⟨List.mem_cons_of_mem y hx, hne⟩
    · have hf : find? key k (y :: ys) = find? key k ys := by simp [find?, hy]
      rw [alter, if_neg hy, List.mem_cons] at hx
      rw [hf]
      rcases hx with rfl | hx
      · exact Or.inr ⟨List.mem_cons_self, hy⟩
      · rcases ih hxs.2 hx with h | ⟨h, hne⟩
        · exact Or.inl h
        · exact Or.inr ⟨List.mem_cons_of_mem y h, hne⟩

end ServiceTypings.Keyed
