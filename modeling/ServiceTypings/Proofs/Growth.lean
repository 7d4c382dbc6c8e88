import Mathlib.Data.List.Basic
import Mathlib.Data.List.Nodup
import Mathlib.Data.List.Perm.Basic
import ServiceTypings.Namespace

/-! What a tree holds after any insertions. `Grown name is n` says of a namespace and of every one below
it which interfaces stand there, under which keys the others are found, and in which order. A bare root
is grown, one insertion keeps the tree so (`Grown.attachAt`), hence so does any sequence of them
(`Grown.insertAll`); and what `Grown` says of the root it says of each namespace found by a path. -/

namespace ServiceTypings

theorem nodup_eraseDups {α : Type} [BEq α] [LawfulBEq α] (l : List α) : l.eraseDups.Nodup := by
  induction hn : l.length using Nat.strongRecOn generalizing l with
  | ind n ih =>
    cases l with
    | nil => exact List.nodup_nil
    | cons a l =>
      rw [List.eraseDups_cons, List.nodup_cons]
      have hl : (l.filter fun b => !b == a).length ≤ l.length := List.length_filter_le ..
      rw [List.length_cons] at hn
      refine ⟨fun h => ?_, ih _ (by omega) _ rfl⟩
      have ha := List.mem_eraseDups.1 h
      simp at ha

/-- A last element that came before changes nothing; a new one goes to the end. -/
theorem eraseDups_concat {α : Type} [BEq α] [LawfulBEq α] [DecidableEq α] (l : List α) (a : α) :
    (l ++ [a]).eraseDups = if a ∈ l.eraseDups then l.eraseDups else l.eraseDups ++ [a] := by
  rw [List.eraseDups_append]
  by_cases h : a ∈ l
  · simp [List.mem_eraseDups, List.removeAll, h]
  · simp [List.mem_eraseDups, List.removeAll, h, List.eraseDups_cons]

/-- A list falls apart into what has no key and, for each key, what has that key. -/
theorem flatMap_filter_perm {α κ : Type} [DecidableEq κ] (key? : α → Option κ) (l : List α)
    {keys : List κ} (hk : keys.Nodup) (hl : ∀ x ∈ l, ∀ k, key? x = some k → k ∈ keys) :
    ((keys.flatMap fun k => l.filter fun x => key? x = some k) ++
      l.filter fun x => key? x = none).Perm l := by
  induction keys generalizing l with
  | nil =>
    have hnone : l.filter (fun x => key? x = none) = l := by
      refine List.filter_eq_self.2 fun x hx => ?_
      cases h : key? x with
      | none => simp
      | some k => exact absurd (hl x hx k h) List.not_mem_nil
    rw [List.flatMap_nil, List.nil_append, hnone]
  | cons k ks ih =>
    rw [List.nodup_cons] at hk
    -- the elements of the other keys are found among those that do not have key `k`
    have hothers := ih (l.filter fun x => !decide (key? x = some k)) hk.2 (by
      intro x hx k' hk'
      rw [List.mem_filter] at hx
      rcases List.mem_cons.1 (hl x hx.1 k' hk') with rfl | h
      · simp [hk'] at hx
      · exact h)
    have hsome : (ks.flatMap fun k' =>
        (l.filter fun x => !decide (key? x = some k)).filter fun x => key? x = some k') =
        ks.flatMap fun k' => l.filter fun x => key? x = some k' := by
      refine List.flatMap_congr fun k' hk' => ?_
      rw [List.filter_filter]
      refine List.filter_congr fun x _ => ?_
      have hne : k ≠ k' := fun h => hk.1 (h ▸ hk')
      by_cases hx : key? x = some k' <;> simp [hx, hne.symm]
    have hnone : (l.filter fun x => !decide (key? x = some k)).filter (fun x => key? x = none) =
        l.filter fun x => key? x = none := by
      rw [List.filter_filter]
      refine List.filter_congr fun x _ => ?_
      by_cases hx : key? x = none <;> simp [hx]
    rw [hsome, hnone] at hothers
    rw [List.flatMap_cons, List.append_assoc]
    exact (hothers.append_left _).trans (List.filter_append_perm _ l)

theorem prefix_and_getElem?_eq_none_iff {α : Type} {p q : List α} :
    p <+: q ∧ q[p.length]? = none ↔ q = p := by
  constructor
  · rintro ⟨⟨t, rfl⟩, hnone⟩
    rw [List.getElem?_eq_none_iff, List.length_append] at hnone
    have ht : t = [] := List.length_eq_zero_iff.1 (by omega)
    rw [ht, List.append_nil]
  · rintro rfl
    exact ⟨List.prefix_refl q, List.getElem?_eq_none (by omega)⟩

namespace Interface

theorem pathBelow_add (d k : Nat) (i : Interface) : i.pathBelow (d + k) = (i.pathBelow d).drop k := by
  rw [pathBelow, pathBelow, ← List.drop_drop, List.dropLast_eq_take, List.dropLast_eq_take,
    List.drop_take, List.length_drop]
  congr 1
  omega

theorem pathBelow_succ (d : Nat) (i : Interface) : i.pathBelow (d + 1) = (i.pathBelow d).tail := by
  rw [pathBelow_add, List.drop_one]

theorem head?_pathBelow_add (d k : Nat) (i : Interface) :
    (i.pathBelow (d + k)).head? = (i.pathBelow d)[k]? := by
  rw [pathBelow_add, List.head?_drop]

theorem cons_prefix_pathBelow_iff {key : String} {path : List String} {d : Nat} {i : Interface} :
    key :: path <+: i.pathBelow d ↔
      (i.pathBelow d).head? = some key ∧ path <+: i.pathBelow (d + 1) := by
  rw [pathBelow_succ]
  cases i.pathBelow d with
  | nil => simp
  | cons k rest =>
    rw [List.cons_prefix_cons, List.head?_cons, Option.some_inj, List.tail_cons, eq_comm]

end Interface

namespace Namespace

open Interface

/-- The namespace called `name` holds the interfaces `is`, each where its name says and in this order. -/
inductive Grown : QualifiedName → List Interface → Namespace → Prop
  | mk {name : QualifiedName} {is : List Interface} {children : List Namespace}
      (keys : children.map localName =
        (is.filterMap fun i => (i.pathBelow name.depth).head?).eraseDups)
      (below : ∀ c ∈ children, Grown (name.child c.localName)
        (is.filter fun i => (i.pathBelow name.depth).head? = some c.localName) c) :
      Grown name is ⟨name, children, is.filter fun i => (i.pathBelow name.depth).head? = none⟩

namespace Grown

variable {name : QualifiedName} {is : List Interface} {n : Namespace}

theorem empty (name : QualifiedName) : Grown name [] (Namespace.empty name) :=
  .mk rfl (by simp)

theorem name_eq (h : Grown name is n) : n.name = name := by
  cases h
  rfl

theorem interfaces_eq (h : Grown name is n) :
    n.interfaces = is.filter fun i => (i.pathBelow name.depth).head? = none := by
  cases h
  rfl

theorem keys_eq (h : Grown name is n) :
    n.keys = (is.filterMap fun i => (i.pathBelow name.depth).head?).eraseDups := by
  cases h with
  | mk keys _ => exact keys

theorem keys_nodup (h : Grown name is n) : n.keys.Nodup := by
  rw [h.keys_eq]
  exact nodup_eraseDups _

theorem mem_keys_iff (h : Grown name is n) {key : String} :
    key ∈ n.keys ↔ ∃ i ∈ is, (i.pathBelow name.depth).head? = some key := by
  rw [h.keys_eq, List.mem_eraseDups, List.mem_filterMap]

theorem exists_mem_segments (h : Grown name is n) {c : Namespace} (hc : c ∈ n.children) :
    ∃ i ∈ is, c.localName ∈ i.name.segments := by
  obtain ⟨i, hi, hhead⟩ := h.mem_keys_iff.1 (List.mem_map_of_mem hc)
  exact ⟨i, hi, List.mem_of_mem_drop (List.dropLast_subset _ (List.mem_of_mem_head? hhead))⟩

theorem localName_of_child? {key : String} {c : Namespace} (hc : n.child? key = some c) :
    c ∈ n.children ∧ c.localName = key := by
  refine ⟨List.mem_of_find?_eq_some hc, ?_⟩
  simpa using List.find?_some hc

theorem child (h : Grown name is n) {c : Namespace} (hc : c ∈ n.children) :
    Grown (name.child c.localName)
      (is.filter fun i => (i.pathBelow name.depth).head? = some c.localName) c := by
  cases h with
  | mk _ below => exact below c hc

theorem child? (h : Grown name is n) {key : String} {c : Namespace} (hc : n.child? key = some c) :
    Grown (name.child key) (is.filter fun i => (i.pathBelow name.depth).head? = some key) c := by
  obtain ⟨hmem, rfl⟩ := localName_of_child? hc
  exact h.child hmem

theorem child?_eq_none (h : Grown name is n) {key : String} (hc : n.child? key = none) :
    is.filter (fun i => (i.pathBelow name.depth).head? = some key) = [] := by
  rw [List.filter_eq_nil_iff]
  intro i hi hkey
  have hk : key ∈ n.keys := h.mem_keys_iff.2 ⟨i, hi, by simpa using hkey⟩
  obtain ⟨c, hcm, rfl⟩ := List.mem_map.1 hk
  have := List.find?_eq_none.1 hc c hcm
  simp at this

theorem getD_child? (h : Grown name is n) (key : String) :
    Grown (name.child key) (is.filter fun i => (i.pathBelow name.depth).head? = some key)
      ((n.child? key).getD (Namespace.empty (name.child key))) := by
  cases hc : n.child? key with
  | none =>
    rw [h.child?_eq_none hc]
    exact empty _
  | some c => exact h.child? hc

theorem attachHere (h : Grown name is n) {i : Interface} (hi : i.pathBelow name.depth = []) :
    Grown name (is ++ [i]) (n.attachAt [] i) := by
  cases h with
  | mk keys below =>
    have hhere : is.filter (fun i => (i.pathBelow name.depth).head? = none) ++ [i] =
        (is ++ [i]).filter fun i => (i.pathBelow name.depth).head? = none := by
      simp [hi]
    rw [Namespace.attachAt, hhere]
    refine .mk (by simpa [hi] using keys) fun c hc => ?_
    simpa [hi] using below c hc

/-- An interface whose way goes on is left to the child on its way, which alone changes. -/
theorem alterChild (h : Grown name is n) {i : Interface} {key : String} {path : List String}
    (hi : i.pathBelow name.depth = key :: path) {change : Namespace → Namespace}
    (hchange : Grown (name.child key)
      ((is.filter fun i => (i.pathBelow name.depth).head? = some key) ++ [i])
      (change ((n.child? key).getD (Namespace.empty (name.child key))))) :
    Grown name (is ++ [i]) (n.alterChild key change) := by
  obtain ⟨changed, hchanged⟩ :
      ∃ c, c = change ((n.child? key).getD (Namespace.empty (name.child key))) := ⟨_, rfl⟩
  rw [← hchanged] at hchange
  have hkey : changed.localName = key := by
    rw [localName, hchange.name_eq, QualifiedName.localName_child]
  have hnodup := h.keys_nodup
  cases h with
  | mk keys below =>
    have hhere : is.filter (fun i => (i.pathBelow name.depth).head? = none) =
        (is ++ [i]).filter fun i => (i.pathBelow name.depth).head? = none := by
      simp [hi]
    rw [Namespace.alterChild, hhere]
    refine .mk ?_ fun c hc => ?_
    · rw [Keyed.map_alter localName key _ _ (hchanged ▸ hkey), keys, List.filterMap_append]
      simp only [List.filterMap_cons, hi, List.head?_cons, List.filterMap_nil]
      rw [eraseDups_concat]
    · rcases Keyed.mem_alter hnodup hc with hc | ⟨hmem, hne⟩
      · obtain rfl : c = changed := hc.trans hchanged.symm
        rw [hkey]
        simpa [hi] using hchange
      · simpa [hi, Ne.symm hne] using below c hmem

/-- One more interface, put where its name says, is the last of the interfaces held. -/
theorem attachAt (h : Grown name is n) (i : Interface) :
    Grown name (is ++ [i]) (n.attachAt (i.pathBelow name.depth) i) := by
  induction hi : i.pathBelow name.depth generalizing name is n with
  | nil => exact h.attachHere hi
  | cons key path ih =>
    have hdepth : i.pathBelow (name.child key).depth = path := by
      rw [QualifiedName.depth_child, pathBelow_succ, hi, List.tail_cons]
    exact h.alterChild hi (ih (h.getD_child? key) hdepth)

theorem insert (h : Grown name is n) (i : Interface) :
    Grown name (is ++ [i].filter fun i => name.depth < i.depth) (n.insert i).2 := by
  have hdepth : n.depth = name.depth := by rw [depth, h.name_eq]
  rw [Namespace.insert, hdepth]
  split
  next hi =>
    rw [List.filter_singleton, decide_eq_true hi]
    exact h.attachAt i
  next hi =>
    rw [List.filter_singleton, decide_eq_false hi]
    simpa using h

/-- After a run of insertions, what came before is followed by all that was deep enough. -/
theorem insertAll (h : Grown name is n) (js : List Interface) :
    Grown name (is ++ js.filter fun i => name.depth < i.depth) (n.insertAll js) := by
  induction js generalizing is n with
  | nil => simpa [Namespace.insertAll] using h
  | cons j js ih =>
    have hrest := ih (h.insert j)
    rw [List.append_assoc, ← List.filter_append, List.singleton_append] at hrest
    exact hrest

/-- What stands at a path is the namespace of that name with the interfaces that lie on or beyond it. -/
theorem at? (h : Grown name is n) {path : List String} {m : Namespace} (hm : n.at? path = some m) :
    Grown (path.foldl QualifiedName.child name)
      (is.filter fun i => path <+: i.pathBelow name.depth) m := by
  induction path generalizing name is n with
  | nil =>
    obtain rfl : n = m := by simpa [Namespace.at?] using hm
    simpa using h
  | cons key path ih =>
    rw [Namespace.at?, Option.bind_eq_some_iff] at hm
    obtain ⟨c, hc, hm⟩ := hm
    have hgrown := ih (h.child? hc) hm
    have hfilter : is.filter (fun i => key :: path <+: i.pathBelow name.depth) =
        (is.filter fun i => (i.pathBelow name.depth).head? = some key).filter
          fun i => path <+: i.pathBelow (name.child key).depth := by
      rw [List.filter_filter]
      refine List.filter_congr fun i _ => ?_
      rw [decide_eq_decide.2 cons_prefix_pathBelow_iff, Bool.decide_and, Bool.and_comm,
        QualifiedName.depth_child]
    rw [hfilter]
    exact hgrown

theorem isSome_at?_iff (h : Grown name is n) (path : List String) :
    (n.at? path).isSome ↔ path = [] ∨ ∃ i ∈ is, path <+: i.pathBelow name.depth := by
  induction path generalizing name is n with
  | nil => simp [Namespace.at?]
  | cons key path ih =>
    simp only [cons_prefix_pathBelow_iff, reduceCtorEq, false_or]
    rw [Namespace.at?]
    cases hc : n.child? key with
    | none =>
      have hnone := h.child?_eq_none hc
      rw [List.filter_eq_nil_iff] at hnone
      simp only [Option.bind_none, Option.isSome_none, Bool.false_eq_true, false_iff]
      rintro ⟨i, hi, hkey, _⟩
      exact hnone i hi (decide_eq_true hkey)
    | some c =>
      rw [Option.bind_some, ih (h.child? hc), QualifiedName.depth_child]
      constructor
      · rintro (rfl | ⟨i, hi, hpath⟩)
        · -- a child is only there because some interface lies below it
          have hkey : key ∈ n.keys := List.mem_map.2 ⟨c, localName_of_child? hc⟩
          obtain ⟨i, hi, hhead⟩ := h.mem_keys_iff.1 hkey
          exact ⟨i, hi, hhead, List.nil_prefix⟩
        · rw [List.mem_filter, decide_eq_true_eq] at hi
          exact ⟨i, hi.1, hi.2, hpath⟩
      · rintro ⟨i, hi, hhead, hpath⟩
        exact Or.inr ⟨i, List.mem_filter.2 ⟨hi, decide_eq_true hhead⟩, hpath⟩

/-- Looked at as a whole, the tree holds each interface as often as it was put there. -/
theorem flatten_perm (h : Grown name is n) : n.flatten.Perm is := by
  induction h with
  | @mk name is children keys below ih =>
    have hnodup : (children.map localName).Nodup := keys ▸ nodup_eraseDups _
    have hkeys : ∀ i ∈ is, ∀ k, (i.pathBelow name.depth).head? = some k →
        k ∈ children.map localName := by
      intro i hi k hk
      rw [keys, List.mem_eraseDups, List.mem_filterMap]
      exact ⟨i, hi, hk⟩
    have hbuckets := flatMap_filter_perm (fun i => (i.pathBelow name.depth).head?) is hnodup hkeys
    rw [List.flatMap_map] at hbuckets
    rw [flatten_eq]
    exact ((List.Perm.flatMap_left children ih).append_right _).trans hbuckets

/-- An insertion is made level by level: what lies two levels down or more is inserted into the child
on its way, which is made first if it is missing, and never dropped there. -/
theorem insert_descends (h : Grown name is n) {i : Interface} {key : String} {path : List String}
    (hi : i.pathBelow n.depth = key :: path) :
    n.insert i = (.attached, n.alterChild key fun c => (c.insert i).2) ∧
      (((n.child? key).getD (Namespace.empty (n.name.child key))).insert i).1 = .attached := by
  have hlength : (i.pathBelow n.depth).length = i.depth - n.depth - 1 := by
    rw [pathBelow, List.length_dropLast, List.length_drop, Interface.depth, QualifiedName.depth]
  rw [hi, List.length_cons] at hlength
  have hchild := h.getD_child? key
  rw [← h.name_eq] at hchild
  obtain ⟨c, hc⟩ : ∃ c, c = (n.child? key).getD (Namespace.empty (n.name.child key)) := ⟨_, rfl⟩
  rw [← hc] at hchild ⊢
  have hdepth : c.depth = n.depth + 1 := by
    rw [depth, hchild.name_eq, QualifiedName.depth_child, depth]
  have hinsert : c.insert i = (.attached, c.attachAt path i) := by
    rw [Namespace.insert, if_pos (by omega), hdepth, pathBelow_succ, hi, List.tail_cons]
  refine ⟨?_, by rw [hinsert]⟩
  rw [Namespace.insert, if_pos (by omega), hi, Namespace.attachAt,
    Namespace.alterChild, Namespace.alterChild]
  rw [Keyed.alter_congr localName key (g := fun o => ((o.getD _).insert i).2)]
  change c = (Keyed.find? localName key n.children).getD (Namespace.empty (n.name.child key)) at hc
  rw [← hc, hinsert]

theorem interfaces_at? (h : Grown name is n) {path : List String} {m : Namespace}
    (hm : n.at? path = some m) :
    m.interfaces = is.filter fun i => i.pathBelow name.depth = path := by
  rw [(h.at? hm).interfaces_eq, List.filter_filter, QualifiedName.depth_foldl_child]
  refine List.filter_congr fun i _ => ?_
  rw [head?_pathBelow_add, ← Bool.decide_and, decide_eq_decide, and_comm]
  exact prefix_and_getElem?_eq_none_iff

theorem keys_at? (h : Grown name is n) {path : List String} {m : Namespace}
    (hm : n.at? path = some m) :
    m.keys = ((is.filter fun i => path <+: i.pathBelow name.depth).filterMap
      fun i => (i.pathBelow name.depth)[path.length]?).eraseDups := by
  rw [(h.at? hm).keys_eq, QualifiedName.depth_foldl_child]
  simp only [head?_pathBelow_add]

theorem interfaceCount_at? (h : Grown name is n) {path : List String} {m : Namespace}
    (hm : n.at? path = some m) :
    m.interfaceCount = (is.filter fun i => path <+: i.pathBelow name.depth).length :=
  (h.at? hm).flatten_perm.length_eq

end Grown

theorem grown_insertAll_empty (root : QualifiedName) (is : List Interface) :
    Grown root (is.filter fun i => root.depth < i.depth) ((empty root).insertAll is) := by
  simpa using (Grown.empty root).insertAll is

section

variable {p : String → Prop} {q : Interface → Prop} {motive : Namespace → Prop}
  (hmk : ∀ (name : QualifiedName) (children : List Namespace) (interfaces : List Interface),
    p name.localName → (∀ c ∈ children, motive c) → (∀ i ∈ interfaces, q i) →
      motive ⟨name, children, interfaces⟩)

include hmk

/-- What a tree has as soon as its parts have theirs, a grown one has from its root's name and from the
interfaces that it was grown from. -/
theorem Grown.of_parts {name : QualifiedName} {is : List Interface} {n : Namespace}
    (h : Grown name is n) (hname : p name.localName)
    (his : ∀ i ∈ is, q i ∧ ∀ s ∈ i.name.segments, p s) : motive n := by
  induction h with
  | @mk name is children keys below ih =>
    apply hmk name children _ hname
    · intro c hc
      obtain ⟨i, hi, hsegment⟩ := (Grown.mk keys below).exists_mem_segments hc
      apply ih c hc
      · rw [QualifiedName.localName_child]
        exact (his i hi).2 _ hsegment
      · intro j hj
        exact his j (List.mem_filter.1 hj).1
    · intro i hi
      exact (his i (List.mem_filter.1 hi).1).1

theorem insertAll_empty_of_parts {root : QualifiedName} {is : List Interface} (hroot : p root.localName)
    (his : ∀ i ∈ is, q i ∧ ∀ s ∈ i.name.segments, p s) : motive ((empty root).insertAll is) := by
  apply (grown_insertAll_empty root is).of_parts hmk hroot
  intro i hi
  exact his i (List.mem_filter.1 hi).1

end

/-- Whatever is inserted into a bare root, and in whatever order: an interface is attached exactly if it
is deeper than the root, a dropped one changes nothing, and the tree is known at each path from the
attached interfaces alone, in the order in which they came. -/
theorem insertAll_empty_determined (root : QualifiedName) (is : List Interface) :
    let tree := (empty root).insertAll is
    let attached := is.filter fun i => root.depth < i.depth
    (∀ i, ((tree.insert i).1 = .attached ↔ root.depth < i.depth) ∧
      ((tree.insert i).1 = .dropped → (tree.insert i).2 = tree)) ∧
    ∀ path,
      ((tree.at? path).isSome ↔ path = [] ∨ ∃ i ∈ attached, path <+: i.pathBelow root.depth) ∧
      ∀ n, tree.at? path = some n →
        n.name.segments = root.segments ++ path ∧
        n.interfaces = attached.filter (fun i => i.pathBelow root.depth = path) ∧
        n.keys = ((attached.filter fun i => path <+: i.pathBelow root.depth).filterMap
          fun i => (i.pathBelow root.depth)[path.length]?).eraseDups ∧
        n.interfaceCount = (attached.filter fun i => path <+: i.pathBelow root.depth).length := by
  intro tree attached
  have hgrown : Grown root attached tree := grown_insertAll_empty root is
  have hdepth : tree.depth = root.depth := by rw [depth, hgrown.name_eq]
  refine ⟨fun i => ⟨?_, insert_snd_of_dropped⟩, fun path => ⟨hgrown.isSome_at?_iff path, ?_⟩⟩
  · rw [insert_fst_eq_attached_iff, hdepth]
  · intro n hn
    refine ⟨?_, hgrown.interfaces_at? hn, hgrown.keys_at? hn, hgrown.interfaceCount_at? hn⟩
    rw [(hgrown.at? hn).name_eq, QualifiedName.segments_foldl_child]

/-- A tree of two levels, as seen from its only child; a third interface is too shallow for it. -/
theorem insertAll_empty_determined_below_child :
    let root : QualifiedName := ⟨["Root"], by decide⟩
    let deep : Interface := ⟨⟨["Root", "A", "B", "X"], by decide⟩, [], [], none⟩
    let near : Interface := ⟨⟨["Other", "A", "Y"], by decide⟩, [], [], none⟩
    let shallow : Interface := ⟨⟨["X"], by decide⟩, [], [], none⟩
    let tree := (empty root).insertAll [deep, shallow, near]
    (tree.insert shallow).1 = .dropped ∧ (tree.insert shallow).2 = tree ∧
      ∃ n, tree.at? ["A"] = some n ∧ n.name.segments = ["Root", "A"] ∧ n.interfaces = [near] ∧
        n.keys = ["B"] ∧ n.interfaceCount = 2 := by
  intro root deep near shallow tree
  have hlaw := insertAll_empty_determined root [deep, shallow, near]
  have hdropped : (tree.insert shallow).1 = .dropped := by decide +kernel
  have hsome : (tree.at? ["A"]).isSome := by decide +kernel
  obtain ⟨n, hn⟩ := Option.isSome_iff_exists.1 hsome
  obtain ⟨hname, hinterfaces, hkeys, hcount⟩ := (hlaw.2 ["A"]).2 n hn
  refine ⟨hdropped, (hlaw.1 shallow).2 hdropped, n, hn, hname, ?_, ?_, ?_⟩
  · rw [hinterfaces]
    decide +kernel
  · rw [hkeys]
    decide +kernel
  · rw [hcount]
    decide +kernel

end Namespace
end ServiceTypings
