import CssOutline.Proofs.RuleTree.Insertion
import CssOutline.RuleArena

/-!
# Arenas and the trees they hold

An arena that comes about by insertions holds a tree of rules, and the tree is the one of the same
insertions. What the maps of the arena say of a rule is what its address says in the tree: which
rule is around it, which ones are inside it, and in which order they are met. The loops along the
maps therefore end. The rules get their keys in the order of insertion, so the key of a rule is the
index of its address among all addresses that were given.

## Main definitions

* `RuleArena.WellLinked`: an arena with maps for its rules and for nothing else
* `RuleArena.Represents`: an arena that holds a tree
* `RuleArena.Built`: an arena with the insertions that led to it
* `keyed`: insertions with keys for the addresses

## Main results

* `RuleArena.Represents.insertChild?`: one insertion into the arena is one insertion into the tree
* `RuleArena.Represents.climbs`, `RuleArena.Represents.visits`: the ways up and down end
* `RuleArena.Represents.entriesOf_eq`: the listing of the arena is that of the tree
* `RuleTree.Grown.exists_built`, `RuleArena.Built.exists_grown`: trees and arenas come about by the
  same insertions
-/

namespace CssOutline

namespace RuleArena

variable {arena arena' : RuleArena} {tree tree' : RuleTree} {ids : List Address}
  {parent key : Key} {up id : Address} {rule : Rule}

/-- The maps of an arena are about its rules and nothing else. -/
structure WellLinked (arena : RuleArena) : Prop where
  mem_childKeys_iff : ∀ key, key ∈ arena.childKeys ↔ arena.contains key
  contains_of_parent? : ∀ key up, arena.parent? key = some up → arena.contains key

/-- An arena that holds a tree. The addresses are listed in the order of the keys, so the key of a
rule is the index of its address. -/
structure Represents (arena : RuleArena) (tree : RuleTree) (ids : List Address) : Prop where
  linked : arena.WellLinked
  size_eq : arena.nodes.size = ids.length
  nodup : ids.Nodup
  mem_iff : ∀ id, id ∈ ids ↔ tree.contains id
  root_eq : arena.root = ids.idxOf RuleTree.root
  get?_eq : ∀ id ∈ ids, arena.get? (ids.idxOf id) = tree.get? id
  parent?_eq : ∀ id ∈ ids, arena.parent? (ids.idxOf id) = (tree.parent? id).map ids.idxOf
  children_eq : ∀ id ∈ ids, arena.children (ids.idxOf id) = (tree.children id).map ids.idxOf

/-! ## One insertion -/

section Insert

theorem contains_iff : arena.contains key ↔ key < arena.nodes.size := by
  rw [contains, decide_eq_true_iff]

/-- What is written when a rule is put into another one. -/
theorem of_insertChild? (h : arena.insertChild? parent rule = some (arena', key)) :
    arena.contains parent ∧ key = arena.nodes.size ∧ arena'.nodes = arena.nodes.push rule ∧
      arena'.root = arena.root ∧ arena'.parentKeys = arena.parentKeys.insert key parent ∧
      arena'.childKeys = match (arena.childKeys.insert key [])[parent]? with
        | some siblings => (arena.childKeys.insert key []).insert parent (siblings ++ [key])
        | none => arena.childKeys.insert key [] := by
  rw [insertChild?] at h
  split at h
  · next hparent =>
    obtain ⟨rfl, rfl⟩ := Prod.mk.inj (Option.some.inj h)
    exact ⟨hparent, rfl, rfl, rfl, rfl, rfl⟩
  · cases h

/-- A rule can be put into every rule that an arena holds. -/
theorem isSome_insertChild?_iff :
    (arena.insertChild? parent rule).isSome ↔ arena.contains parent := by
  rw [insertChild?]
  split
  · next h => exact iff_of_true rfl h
  · next h => exact iff_of_false Bool.false_ne_true h

theorem contains_insertChild?_iff (h : arena.insertChild? parent rule = some (arena', key))
    {k : Key} : arena'.contains k ↔ k = key ∨ arena.contains k := by
  obtain ⟨-, rfl, hnodes, -⟩ := of_insertChild? h
  rw [contains_iff, contains_iff, hnodes, Array.size_push, Nat.lt_succ_iff_lt_or_eq, or_comm]

theorem get?_insertChild? (h : arena.insertChild? parent rule = some (arena', key)) (k : Key) :
    arena'.get? k = if k = key then some rule else arena.get? k := by
  obtain ⟨-, rfl, hnodes, -⟩ := of_insertChild? h
  rw [get?, hnodes, Array.getElem?_push, get?]

theorem parent?_insertChild? (h : arena.insertChild? parent rule = some (arena', key)) (k : Key) :
    arena'.parent? k = if k = key then some parent else arena.parent? k := by
  obtain ⟨-, -, -, -, hparents, -⟩ := of_insertChild? h
  rw [parent?, hparents, Std.HashMap.getElem?_insert, parent?]
  simp only [beq_iff_eq, Eq.comm (a := k)]

/-- A new rule has an empty list of children, and is the last one in the list of its parent. -/
theorem childKeys_insertChild? (hlinked : arena.WellLinked)
    (h : arena.insertChild? parent rule = some (arena', key)) (k : Key) :
    arena'.childKeys[k]? =
      if k = parent then some (arena.children parent ++ [key])
      else if k = key then some [] else arena.childKeys[k]? := by
  obtain ⟨hparent, rfl, -, -, -, hchildren⟩ := of_insertChild? h
  have hne : arena.nodes.size ≠ parent := (contains_iff.mp hparent).ne'
  obtain ⟨siblings, hsiblings⟩ := Option.isSome_iff_exists.mp
    (Std.HashMap.mem_iff_isSome_getElem?.mp ((hlinked.mem_childKeys_iff parent).mpr hparent))
  have hlist : (arena.childKeys.insert arena.nodes.size [])[parent]? = some siblings := by
    rw [Std.HashMap.getElem?_insert, if_neg (by simpa using hne), hsiblings]
  rw [hlist] at hchildren
  rw [hchildren, Std.HashMap.getElem?_insert, Std.HashMap.getElem?_insert, children,
    Std.HashMap.getD_eq_getD_getElem?, hsiblings, Option.getD_some]
  simp only [beq_iff_eq, Eq.comm (a := k)]

/-- A key that is free has no children. -/
theorem WellLinked.children_eq_nil (hlinked : arena.WellLinked) (h : ¬ arena.contains key) :
    arena.children key = [] := by
  rw [← hlinked.mem_childKeys_iff] at h
  rw [children, Std.HashMap.getD_eq_fallback h]

theorem children_insertChild? (hlinked : arena.WellLinked)
    (h : arena.insertChild? parent rule = some (arena', key)) (k : Key) :
    arena'.children k = arena.children k ++ if k = parent then [key] else [] := by
  obtain ⟨hparent, rfl, -⟩ := of_insertChild? h
  rw [children, Std.HashMap.getD_eq_getD_getElem?, childKeys_insertChild? hlinked h]
  by_cases hk : k = parent
  · rw [if_pos hk, if_pos hk, hk, Option.getD_some]
  · rw [if_neg hk, if_neg hk, List.append_nil]
    by_cases hkey : k = arena.nodes.size
    · have hfree : ¬ arena.contains k := by
        rw [contains_iff, hkey]
        exact Nat.lt_irrefl _
      rw [if_pos hkey, Option.getD_some, hlinked.children_eq_nil hfree]
    · rw [if_neg hkey, children, Std.HashMap.getD_eq_getD_getElem?]

theorem WellLinked.insertChild? (hlinked : arena.WellLinked)
    (h : arena.insertChild? parent rule = some (arena', key)) : arena'.WellLinked where
  mem_childKeys_iff k := by
    obtain ⟨hparent, -⟩ := of_insertChild? h
    rw [Std.HashMap.mem_iff_isSome_getElem?, childKeys_insertChild? hlinked h,
      contains_insertChild?_iff h, ← hlinked.mem_childKeys_iff,
      Std.HashMap.mem_iff_isSome_getElem?]
    by_cases hk : k = parent
    · rw [if_pos hk]
      refine iff_of_true rfl (Or.inr ?_)
      rw [← Std.HashMap.mem_iff_isSome_getElem?, hlinked.mem_childKeys_iff, hk]
      exact hparent
    · by_cases hkey : k = key
      · rw [if_neg hk, if_pos hkey]
        exact iff_of_true rfl (Or.inl hkey)
      · simp [hk, hkey]
  contains_of_parent? k up hup := by
    rw [contains_insertChild?_iff h]
    rw [parent?_insertChild? h] at hup
    split at hup
    · next hk => exact Or.inl hk
    · exact Or.inr (hlinked.contains_of_parent? k up hup)

end Insert

namespace Represents

theorem contains_idxOf (h : arena.Represents tree ids) (hid : id ∈ ids) :
    arena.contains (ids.idxOf id) := by
  rw [contains_iff, h.size_eq]
  exact List.idxOf_lt_length_iff.mpr hid

/-- Every key of an arena is that of an address. -/
theorem exists_idxOf_eq (h : arena.Represents tree ids) (hkey : arena.contains key) :
    ∃ id ∈ ids, ids.idxOf id = key := by
  rw [contains_iff, h.size_eq] at hkey
  exact ⟨_, List.getElem_mem hkey, h.nodup.idxOf_getElem key hkey⟩

theorem key_eq (h : arena.Represents tree ids)
    (written : arena.insertChild? parent rule = some (arena', key)) : key = ids.length := by
  obtain ⟨-, hkey, -⟩ := of_insertChild? written
  rw [hkey, h.size_eq]

theorem idxOf_ne_key (h : arena.Represents tree ids)
    (written : arena.insertChild? parent rule = some (arena', key)) (hid : id ∈ ids) :
    ids.idxOf id ≠ key := by
  rw [h.key_eq written]
  exact (List.idxOf_lt_length_iff.mpr hid).ne

/-- The children of a rule keep their keys. -/
theorem map_idxOf_children (h : arena.Represents tree ids) (new : List Address) (x : Address) :
    (tree.children x).map (ids ++ new).idxOf = (tree.children x).map ids.idxOf :=
  List.map_congr_left fun y hy => List.idxOf_append_of_mem
    ((h.mem_iff y).mpr (RuleTree.contains_of_mem_children hy))

section Placed

variable (h : arena.Represents tree ids) (placed : tree.insert? up rule = some (tree', id))

include h placed

theorem parent_mem : up ∈ ids :=
  (h.mem_iff up).mpr (RuleTree.isSome_insert?_iff.mp (Option.isSome_of_mem placed))

theorem id_not_mem : id ∉ ids := fun hid =>
  RuleTree.not_contains_of_insert? placed ((h.mem_iff id).mp hid)

theorem exists_insertChild? : ∃ written, arena.insertChild? (ids.idxOf up) rule = some written :=
  Option.isSome_iff_exists.mp
    (isSome_insertChild?_iff.mpr (h.contains_idxOf (h.parent_mem placed)))

variable (written : arena.insertChild? (ids.idxOf up) rule = some (arena', key))

include written

/-- The new rule gets the key behind all others. -/
theorem idxOf_concat_eq_key : (ids ++ [id]).idxOf id = key := by
  rw [h.key_eq written, List.idxOf_append_of_notMem (h.id_not_mem placed),
    List.idxOf_cons_self, Nat.add_zero]

theorem get?_idxOf {x : Address} (hx : x ∈ ids ++ [id]) :
    arena'.get? ((ids ++ [id]).idxOf x) = tree'.get? x := by
  rw [get?_insertChild? written, RuleTree.get?_insert? placed]
  rcases List.mem_append.mp hx with hx | hx
  · have hne := ne_of_mem_of_not_mem hx (h.id_not_mem placed)
    rw [List.idxOf_append_of_mem hx, if_neg (h.idxOf_ne_key written hx), if_neg hne, h.get?_eq x hx]
  · obtain rfl := List.mem_singleton.mp hx
    rw [h.idxOf_concat_eq_key placed written, if_pos rfl, if_pos rfl]

theorem parent?_idxOf {x : Address} (hx : x ∈ ids ++ [id]) :
    arena'.parent? ((ids ++ [id]).idxOf x) = (tree'.parent? x).map (ids ++ [id]).idxOf := by
  rw [parent?_insertChild? written, RuleTree.parent?_insert? placed]
  rcases List.mem_append.mp hx with hx | hx
  · have hne := ne_of_mem_of_not_mem hx (h.id_not_mem placed)
    rw [List.idxOf_append_of_mem hx, if_neg (h.idxOf_ne_key written hx), if_neg hne,
      h.parent?_eq x hx]
    refine Option.map_congr fun y hy => (List.idxOf_append_of_mem ?_).symm
    exact (h.mem_iff y).mpr (RuleTree.contains_of_parent? hy)
  · obtain rfl := List.mem_singleton.mp hx
    rw [h.idxOf_concat_eq_key placed written, if_pos rfl, if_pos rfl, Option.map_some,
      List.idxOf_append_of_mem (h.parent_mem placed)]

theorem children_idxOf {x : Address} (hx : x ∈ ids ++ [id]) :
    arena'.children ((ids ++ [id]).idxOf x) = (tree'.children x).map (ids ++ [id]).idxOf := by
  have hup := h.parent_mem placed
  have hnew := h.id_not_mem placed
  have hkey := h.idxOf_concat_eq_key placed written
  rw [children_insertChild? h.linked written, RuleTree.children_insert? placed, List.map_append,
    h.map_idxOf_children]
  rcases List.mem_append.mp hx with hx | hx
  · rw [List.idxOf_append_of_mem hx, h.children_eq x hx]
    by_cases hxup : x = up
    · rw [hxup, if_pos rfl, if_pos rfl, List.map_singleton, hkey]
    · have hkeys : ids.idxOf x ≠ ids.idxOf up := fun he => hxup ((List.idxOf_inj hx).mp he)
      rw [if_neg hkeys, if_neg hxup, List.map_nil]
  · obtain rfl := List.mem_singleton.mp hx
    have hfree : ¬ arena.contains key := by
      rw [contains_iff, h.key_eq written, h.size_eq]
      exact Nat.lt_irrefl _
    rw [hkey, RuleTree.children_of_not_contains (RuleTree.not_contains_of_insert? placed),
      if_neg (h.idxOf_ne_key written hup).symm, if_neg (ne_of_mem_of_not_mem hup hnew).symm,
      h.linked.children_eq_nil hfree]
    rfl

/-- **One insertion into the arena is one insertion into the tree.** -/
theorem insertChild? : arena'.Represents tree' (ids ++ [id]) := by
  obtain ⟨-, -, hnodes, hroot, -⟩ := of_insertChild? written
  constructor
  case linked => exact h.linked.insertChild? written
  case size_eq => rw [hnodes, Array.size_push, h.size_eq, List.length_append, List.length_singleton]
  case nodup =>
    rw [List.nodup_append_comm]
    exact List.nodup_cons.mpr ⟨h.id_not_mem placed, h.nodup⟩
  case mem_iff =>
    intro x
    rw [RuleTree.contains_insert?_iff placed, ← h.mem_iff, List.mem_append, List.mem_singleton,
      or_comm]
  case root_eq => rw [hroot, h.root_eq, List.idxOf_append_of_mem ((h.mem_iff _).mpr rfl)]
  case get?_eq => exact fun x hx => h.get?_idxOf placed written hx
  case parent?_eq => exact fun x hx => h.parent?_idxOf placed written hx
  case children_eq => exact fun x hx => h.children_idxOf placed written hx

end Placed

end Represents

/-! ## One change -/

theorem get?_modify (arena : RuleArena) (key : Key) (change : Rule → Rule) (k : Key) :
    (arena.modify key change).get? k =
      if key = k then (arena.get? k).map change else arena.get? k := by
  rw [get?, modify, Array.getElem?_modify, get?]

theorem contains_modify (arena : RuleArena) (key : Key) (change : Rule → Rule) (k : Key) :
    (arena.modify key change).contains k ↔ arena.contains k := by
  rw [contains_iff, contains_iff, modify, Array.size_modify]

theorem WellLinked.modify (hlinked : arena.WellLinked) (key : Key) (change : Rule → Rule) :
    (arena.modify key change).WellLinked where
  mem_childKeys_iff k := by
    rw [contains_modify]
    exact hlinked.mem_childKeys_iff k
  contains_of_parent? k up hup := by
    rw [contains_modify]
    exact hlinked.contains_of_parent? k up hup

/-- **One changed rule in the arena is one changed rule in the tree.** -/
theorem Represents.modify {change : Rule → Rule} (h : arena.Represents tree ids)
    (hid : tree.contains id) (hne : id ≠ RuleTree.root)
    (changed : tree.top.ChangedAt change id tree'.top) :
    (arena.modify (ids.idxOf id) change).Represents tree' ids := by
  have hmem := (h.mem_iff id).mpr hid
  constructor
  case linked => exact h.linked.modify _ _
  case size_eq => exact (Array.size_modify).trans h.size_eq
  case nodup => exact h.nodup
  case mem_iff =>
    intro x
    rw [h.mem_iff, RuleTree.contains_eq_of_alike changed.shape]
  case root_eq => exact h.root_eq
  case get?_eq =>
    intro x hx
    rw [get?_modify, h.get?_eq x hx]
    simp only [List.idxOf_inj hmem]
    rcases eq_or_ne x RuleTree.root with rfl | hroot
    · rw [if_neg hne]
      rfl
    · rw [RuleTree.get?, RuleTree.get?, if_neg hroot, if_neg hroot, changed.get?_eq]
      simp only [eq_comm]
  case parent?_eq =>
    intro x hx
    rw [← RuleTree.parent?_eq_of_alike changed.shape]
    exact h.parent?_eq x hx
  case children_eq =>
    intro x hx
    rw [← RuleTree.children_eq_of_alike changed.shape]
    exact h.children_eq x hx

/-! ## Ways up and down -/

/-- There is one way up. -/
theorem Climbs.unique {met met' : List Key} (h : arena.Climbs key met)
    (h' : arena.Climbs key met') : met = met' := by
  induction h generalizing met' with
  | stop last =>
    cases h' with
    | stop => rfl
    | up next => cases last.symm.trans next
  | up next _ ih =>
    cases h' with
    | stop last => cases last.symm.trans next
    | up next' more =>
      obtain rfl := Option.some.inj (next.symm.trans next')
      rw [ih more]

/-- There is one way down. -/
theorem Visits.unique {stack met met' : List Key} (h : arena.Visits stack met)
    (h' : arena.Visits stack met') : met = met' := by
  induction h generalizing met' with
  | done =>
    cases h'
    rfl
  | pass free _ ih =>
    cases h' with
    | pass _ more => exact ih more
    | meet found => exact absurd found free
  | meet found _ ih =>
    cases h' with
    | pass free => exact absurd found free
    | meet _ more => rw [ih more]

namespace Represents

/-- **The two maps agree**: a rule is in the list of another one where that is its parent. -/
theorem mem_children_iff (h : arena.Represents tree ids) {above : Key} :
    key ∈ arena.children above ↔ arena.parent? key = some above := by
  constructor
  · intro hkey
    have habove : arena.contains above := by
      by_contra hfree
      rw [h.linked.children_eq_nil hfree] at hkey
      cases hkey
    obtain ⟨up, hup, rfl⟩ := h.exists_idxOf_eq habove
    rw [h.children_eq up hup] at hkey
    obtain ⟨id, hid, rfl⟩ := List.mem_map.mp hkey
    have hmem := (h.mem_iff id).mpr (RuleTree.contains_of_mem_children hid)
    rw [h.parent?_eq id hmem, RuleTree.mem_children_iff_parent?.mp hid, Option.map_some]
  · intro hparent
    obtain ⟨id, hid, rfl⟩ := h.exists_idxOf_eq (h.linked.contains_of_parent? _ _ hparent)
    rw [h.parent?_eq id hid] at hparent
    obtain ⟨up, hup, rfl⟩ := Option.map_eq_some_iff.mp hparent
    have hmem := (h.mem_iff up).mpr (RuleTree.contains_of_parent? hup)
    rw [h.children_eq up hmem]
    exact List.mem_map_of_mem (RuleTree.mem_children_iff_parent?.mpr hup)

/-- **The way up along the map of parents ends**, and meets the rules around a rule. -/
theorem climbs (h : arena.Represents tree ids) (hid : tree.contains id) :
    arena.Climbs (ids.idxOf id) ((tree.ancestors id).map ids.idxOf) := by
  have hparent := h.parent?_eq id ((h.mem_iff id).mpr hid)
  induction id using List.reverseRecOn with
  | nil =>
    have hnone : tree.parent? [] = none := rfl
    rw [RuleTree.ancestors_of_parent?_eq_none hnone]
    exact .stop (by rw [hparent, hnone, Option.map_none])
  | append_singleton id i ih =>
    have hup : tree.parent? (id ++ [i]) = some id :=
      RuleTree.parent?_eq_some_iff.mpr ⟨hid, i, rfl⟩
    have hcontains := RuleTree.contains_of_parent? hup
    rw [RuleTree.ancestors_of_parent? hup, List.map_cons]
    refine .up (by rw [hparent, hup, Option.map_some]) (ih hcontains ?_)
    exact h.parent?_eq id ((h.mem_iff id).mpr hcontains)

theorem depthOf_eq (h : arena.Represents tree ids) (hid : tree.contains id) {met : List Key}
    (hmet : arena.Climbs (ids.idxOf id) met) : depthOf met = tree.depth id := by
  rw [hmet.unique (h.climbs hid), depthOf, List.length_map, RuleTree.depth_eq_length_ancestors]

/-- **The way down along the map of children ends**, and meets the same rules as in the tree. -/
theorem visits (h : arena.Represents tree ids) {stack : List Address}
    (hstack : ∀ id ∈ stack, tree.contains id) :
    arena.Visits (stack.map ids.idxOf) ((tree.visit stack).map ids.idxOf) := by
  fun_induction RuleTree.visit tree stack with
  | case1 => exact .done
  | case2 id stack hid ih =>
    have hmem := (h.mem_iff id).mpr hid
    have hchildren : ∀ x ∈ tree.children id ++ stack, tree.contains x := by
      intro x hx
      rcases List.mem_append.mp hx with hx | hx
      · exact RuleTree.contains_of_mem_children hx
      · exact hstack x (List.mem_cons_of_mem id hx)
    refine .meet (h.contains_idxOf hmem) ?_
    rw [h.children_eq id hmem, ← List.map_append]
    exact ih hchildren
  | case3 id stack hid ih => exact absurd (hstack id List.mem_cons_self) hid

theorem visits_walk (h : arena.Represents tree ids) (hid : tree.contains id) :
    arena.Visits [ids.idxOf id] ((tree.walk id).map ids.idxOf) := by
  have hstack : ∀ x ∈ [id], tree.contains x := by simpa using hid
  have hvisits := h.visits hstack
  rwa [tree.visit_eq, List.flatMap_singleton] at hvisits

/-- **The listing** has the same rules in the same order. -/
theorem entriesOf_eq (h : arena.Represents tree ids) {met : List Key}
    (hmet : arena.Visits [arena.root] met) :
    arena.entriesOf met = tree.rules.map fun (id, rule) => (ids.idxOf id, rule) := by
  have hroot : tree.contains RuleTree.root := rfl
  rw [h.root_eq] at hmet
  rw [hmet.unique (h.visits_walk hroot), entriesOf, RuleTree.walk_root, List.map_cons,
    List.drop_succ_cons, List.drop_zero, List.map_map, List.filterMap_map,
    ← List.filterMap_eq_map]
  refine List.filterMap_congr fun ⟨id, rule⟩ hr => ?_
  have hmem := (h.mem_iff id).mpr (RuleTree.contains_of_mem_rules hr)
  simp [h.get?_eq id hmem, (RuleTree.mem_rules_iff.mp hr).2]

/-- The addresses are the root and those that the tree lists. -/
theorem perm_walk_root (h : arena.Represents tree ids) : ids.Perm (tree.walk RuleTree.root) := by
  refine (List.perm_ext_iff_of_nodup h.nodup (tree.nodup_walk _)).mpr fun id => ?_
  rw [h.mem_iff, RuleTree.mem_walk_iff]
  exact (and_iff_left (List.nil_prefix)).symm

theorem size_eq_size (h : arena.Represents tree ids) : arena.size = tree.size := by
  rw [size, h.size_eq, h.perm_walk_root.length_eq, RuleTree.walk_root, List.length_cons,
    List.length_map, RuleTree.length_rules, Nat.add_sub_cancel]

/-- A key that is free leads nowhere. -/
theorem of_not_contains (h : arena.Represents tree ids) (hfree : ¬ arena.contains key) :
    arena.get? key = none ∧ arena.parent? key = none ∧ arena.children key = [] ∧
      arena.Climbs key [] ∧ arena.Visits [key] [] := by
  have hparent : arena.parent? key = none := by
    rw [Option.eq_none_iff_forall_ne_some]
    exact fun up hup => hfree (h.linked.contains_of_parent? key up hup)
  have hget : arena.get? key = none := by
    rw [contains_iff, Nat.not_lt] at hfree
    exact Array.getElem?_eq_none hfree
  exact ⟨hget, hparent, h.linked.children_eq_nil hfree, .stop hparent, .pass hfree .done⟩

end Represents

/-! ## All insertions -/

theorem wellLinked_empty : empty.WellLinked where
  mem_childKeys_iff key := by
    rw [contains_iff, empty, Std.HashMap.mem_insert, beq_iff_eq]
    constructor
    · rintro (rfl | h)
      · exact Nat.zero_lt_one
      · exact absurd h Std.HashMap.not_mem_empty
    · intro h
      exact Or.inl (Nat.lt_one_iff.mp h).symm
  contains_of_parent? key up h := by
    have hnone : empty.parent? key = none := Std.HashMap.getElem?_empty
    rw [hnone] at h
    cases h

theorem represents_empty : empty.Represents {} [RuleTree.root] where
  linked := wellLinked_empty
  size_eq := rfl
  nodup := List.nodup_singleton _
  mem_iff id := by
    rcases id with _ | ⟨_ | i, rest⟩
    · exact iff_of_true (List.mem_singleton_self _) rfl
    · exact iff_of_false (by simp [RuleTree.root]) Bool.false_ne_true
    · exact iff_of_false (by simp [RuleTree.root]) Bool.false_ne_true
  root_eq := rfl
  get?_eq id hid := by
    obtain rfl := List.mem_singleton.mp hid
    rfl
  parent?_eq id hid := by
    obtain rfl := List.mem_singleton.mp hid
    exact Std.HashMap.getElem?_empty
  children_eq id hid := by
    obtain rfl := List.mem_singleton.mp hid
    exact Std.HashMap.getD_insert_self

/-- An arena that came about by insertions, and these insertions, the first one first: the key of
the rule around each new rule, its own key, and the rule. -/
inductive Built : RuleArena → List (Key × Key × Rule) → Prop
  | empty : Built empty []
  | insert {arena arena' : RuleArena} {log : List (Key × Key × Rule)} {parent key : Key}
      {rule : Rule} (before : Built arena log)
      (written : arena.insertChild? parent rule = some (arena', key)) :
      Built arena' (log ++ [(parent, key, rule)])

end RuleArena

/-- The addresses that insertions gave, behind that of the root. -/
def idsOf (log : List Placement) : List Address := RuleTree.root :: log.map (·.id)

/-- Insertions with keys for the addresses. -/
def keyed (log : List Placement) : List (Key × Key × Rule) :=
  log.map fun placement =>
    ((idsOf log).idxOf placement.parent, (idsOf log).idxOf placement.id, placement.rule)

theorem idsOf_concat (log : List Placement) (placement : Placement) :
    idsOf (log ++ [placement]) = idsOf log ++ [placement.id] := by
  rw [idsOf, List.map_append, List.map_singleton]
  rfl

/-- The addresses of a tree in document order are those that the insertions in this order give. -/
theorem RuleTree.idsOf_placements (tree : RuleTree) :
    idsOf (tree.rules.map placement) = tree.walk root := by
  rw [idsOf, List.map_map, walk_root]
  rfl

section Keyed

variable {tree : RuleTree} {log : List Placement} {id : Address}

theorem RuleTree.Grown.mem_idsOf_iff (h : tree.Grown log) : id ∈ idsOf log ↔ tree.contains id := by
  rw [h.contains_iff, idsOf, List.mem_cons, List.mem_map]

/-- Rules keep the keys that they are given. -/
theorem keyed_concat (h : tree.Grown log) (placement : Placement)
    (hparent : placement.parent ∈ idsOf log) :
    keyed (log ++ [placement]) = keyed log ++
      [((idsOf log).idxOf placement.parent, (idsOf log ++ [placement.id]).idxOf placement.id,
        placement.rule)] := by
  rw [keyed, List.map_append, List.map_singleton, idsOf_concat, List.idxOf_append_of_mem hparent]
  congr 1
  refine List.map_congr_left fun earlier hearlier => ?_
  have hup : earlier.parent ∈ idsOf log :=
    h.mem_idsOf_iff.mpr (RuleTree.contains_of_parent? (h.parent?_eq hearlier))
  have hid : earlier.id ∈ idsOf log := List.mem_cons_of_mem _ (List.mem_map_of_mem hearlier)
  rw [List.idxOf_append_of_mem hup, List.idxOf_append_of_mem hid]

end Keyed

/-- **Every tree is held by the arena of the same insertions.** -/
theorem RuleTree.Grown.exists_built {tree : RuleTree} {log : List Placement} (h : tree.Grown log) :
    ∃ arena : RuleArena, arena.Built (keyed log) ∧ arena.Represents tree (idsOf log) := by
  induction h with
  | empty => exact ⟨_, .empty, RuleArena.represents_empty⟩
  | insert before placed ih =>
    obtain ⟨arena, hbuilt, hrep⟩ := ih
    obtain ⟨⟨arena', key⟩, written⟩ := hrep.exists_insertChild? placed
    refine ⟨arena', ?_, ?_⟩
    · rw [keyed_concat before _ (hrep.parent_mem placed), hrep.idxOf_concat_eq_key placed written]
      exact .insert hbuilt written
    · rw [idsOf_concat]
      exact hrep.insertChild? placed written

/-- **Every arena that comes about by insertions holds the tree of these insertions.** -/
theorem RuleArena.Built.exists_grown {arena : RuleArena} {writes : List (Key × Key × Rule)}
    (h : arena.Built writes) :
    ∃ tree log, RuleTree.Grown tree log ∧ writes = keyed log ∧
      arena.Represents tree (idsOf log) := by
  induction h with
  | empty => exact ⟨_, _, .empty, rfl, RuleArena.represents_empty⟩
  | @insert arena arena' writes parent key rule _ written ih =>
    obtain ⟨tree, log, hgrown, rfl, hrep⟩ := ih
    obtain ⟨hcontains, -⟩ := of_insertChild? written
    obtain ⟨up, hup, rfl⟩ := hrep.exists_idxOf_eq hcontains
    obtain ⟨⟨tree', id⟩, placed⟩ := Option.isSome_iff_exists.mp
      (RuleTree.isSome_insert?_iff.mpr (hgrown.mem_idsOf_iff.mp hup))
    refine ⟨tree', _, .insert hgrown placed, ?_, ?_⟩
    · rw [keyed_concat hgrown _ hup, hrep.idxOf_concat_eq_key placed written]
    · rw [idsOf_concat]
      exact hrep.insertChild? placed written

end CssOutline
