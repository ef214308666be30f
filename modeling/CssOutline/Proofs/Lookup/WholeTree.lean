import CssOutline.Proofs.Lookup
import CssOutline.Proofs.RuleTree.Walk

/-!
# Looking rules up in the whole tree

A selector is looked up right inside one rule, or in the whole tree. The whole tree is gone through
in document order, and each of its rules is right inside one other rule or the root. So what is
found in the whole tree is what is found right inside its rules, and what is found right inside one
of them is the part of it that belongs there.

## Main definitions

* `RuleTree.allNamed`: the rules of a tree that have a given selector

## Main results

* `RuleTree.mem_allNamed_iff_parent?`: a rule is found in the whole tree if it is found right inside
  its parent
* `RuleTree.named_eq_filter`: what is found right inside a rule
* `RuleTree.findAll?_agrees`: the two ways to look a selector up
-/

namespace CssOutline

namespace RuleTree

/-- The rules that have a given selector, in document order. -/
def allNamed (tree : RuleTree) (selector : Text) : List Address :=
  (tree.rules.map (·.1)).filter fun id => tree.selector? id == some selector

variable {tree : RuleTree} {id up : Address} {selector query : Text}

/-! ## The rules of a selector -/

theorem mem_allNamed_iff :
    id ∈ tree.allNamed selector ↔
      ∃ rule, (id, rule) ∈ tree.rules ∧ rule.selector = some selector := by
  rw [allNamed, List.mem_filter, beq_iff_eq]
  constructor
  · rintro ⟨hid, hselector⟩
    obtain ⟨⟨_, rule⟩, hr, rfl⟩ := List.mem_map.mp hid
    exact ⟨rule, hr, by rw [← hselector, selector?_of_mem_rules hr]⟩
  · rintro ⟨rule, hr, hselector⟩
    exact ⟨List.mem_map_of_mem hr, by rw [selector?_of_mem_rules hr, hselector]⟩

/-- **A rule is found in the whole tree if it is found right inside its parent.** -/
theorem mem_allNamed_iff_parent? :
    id ∈ tree.allNamed selector ↔
      ∃ up, tree.parent? id = some up ∧ id ∈ tree.named up selector := by
  simp only [mem_named_iff, mem_children_iff_parent?]
  constructor
  · intro h
    obtain ⟨rule, hr, hselector⟩ := mem_allNamed_iff.mp h
    have hparent := parent?_of_mem_rules hr
    exact ⟨_, hparent, hparent, by rw [selector?_of_mem_rules hr, hselector]⟩
  · rintro ⟨up, hparent, -, hselector⟩
    obtain ⟨rule, hr⟩ := exists_mem_rules_of_mem_children (mem_children_iff_parent?.mpr hparent)
    rw [selector?_of_mem_rules hr] at hselector
    exact mem_allNamed_iff.mpr ⟨rule, hr, hselector⟩

/-- **What is found right inside a rule** is what is found in the whole tree and belongs there. -/
theorem named_eq_filter (tree : RuleTree) (id : Address) (selector : Text) :
    tree.named id selector = (tree.allNamed selector).filter fun x => x ∈ tree.children id := by
  rw [allNamed, List.filter_comm, ← children_eq_filter, named]

theorem pairwise_allNamed (tree : RuleTree) (selector : Text) :
    (tree.allNamed selector).Pairwise Address.Precedes :=
  (Forest.pairwise_entries tree.top).filter _

/-- The root has no selector that could be looked up. -/
theorem root_notMem_allNamed (tree : RuleTree) (selector : Text) :
    root ∉ tree.allNamed selector := by
  intro h
  obtain ⟨rule, hr, -⟩ := mem_allNamed_iff.mp h
  exact (mem_rules_iff.mp hr).1 rfl

/-- Nothing is found in the whole tree if nothing is found right inside any of its rules. -/
theorem allNamed_eq_nil_iff :
    tree.allNamed selector = [] ↔ ∀ id, tree.contains id → tree.named id selector = [] := by
  constructor
  · intro h id _
    rw [named_eq_filter, h, List.filter_nil]
  · intro h
    refine List.eq_nil_iff_forall_not_mem.mpr fun id hid => ?_
    obtain ⟨up, hparent, hnamed⟩ := mem_allNamed_iff_parent?.mp hid
    obtain ⟨hcontains, i, rfl⟩ := parent?_eq_some_iff.mp hparent
    rw [h up (contains_of_append hcontains)] at hnamed
    exact List.not_mem_nil hnamed

/-! ## Queries -/

theorem getD_nonempty {α : Type} (found : List α) :
    (if found.isEmpty then none else some found).getD [] = found := by
  cases found <;> rfl

theorem nonempty_eq_none_iff {α : Type} {found : List α} :
    (if found.isEmpty then none else some found) = none ↔ found = [] := by
  cases found <;> simp

theorem getD_find? (tree : RuleTree) (id : Address) (query : Text) :
    (tree.find? id query).getD [] = tree.named id (Selector.normalize query) := by
  rw [find?_eq, getD_nonempty]

theorem find?_eq_none_iff :
    tree.find? id query = none ↔ tree.named id (Selector.normalize query) = [] := by
  rw [find?_eq, nonempty_eq_none_iff]

theorem findAll?_eq (tree : RuleTree) (query : Text) :
    tree.findAll? query =
      if (tree.allNamed (Selector.normalize query)).isEmpty then none
      else some (tree.allNamed (Selector.normalize query)) := by
  have hall : (tree.rules.filter fun entry =>
      entry.2.selector == some (Selector.normalize query)).map (·.1) =
        tree.allNamed (Selector.normalize query) := by
    rw [allNamed, List.filter_map]
    congr 1
    refine List.filter_congr fun entry hentry => ?_
    have hr : (entry.1, entry.2) ∈ tree.rules := hentry
    rw [Function.comp_apply, selector?_of_mem_rules hr]
  rw [← hall]
  rfl

theorem getD_findAll? (tree : RuleTree) (query : Text) :
    (tree.findAll? query).getD [] = tree.allNamed (Selector.normalize query) := by
  rw [findAll?_eq, getD_nonempty]

theorem findAll?_eq_none_iff :
    tree.findAll? query = none ↔ tree.allNamed (Selector.normalize query) = [] := by
  rw [findAll?_eq, nonempty_eq_none_iff]

/-- **The two ways to look a selector up agree.** What is found in the whole tree are the rules with
the normal form of the query as their selector; each of them is found right inside its parent, and
what is found right inside any rule is found in the whole tree. The rules found in the whole tree
are in document order, the order in which the walk with a stack meets them, and there is none twice.
What is found right inside a rule is the part of them that belongs there, in the same order. Nothing
is found in the whole tree exactly if nothing is found right inside any of its rules, and the root
is found nowhere. -/
theorem findAll?_agrees (tree : RuleTree) (query : Text) :
    let all := (tree.findAll? query).getD []
    let found := fun id => (tree.find? id query).getD []
    (∀ id, id ∈ all ↔ ∃ rule, (id, rule) ∈ tree.rules ∧
      rule.selector = some (Selector.normalize query)) ∧
    (∀ id, id ∈ all ↔ ∃ up, tree.parent? id = some up ∧ id ∈ found up) ∧
    all.Nodup ∧ all.Pairwise Address.Precedes ∧ all.Sublist (tree.visit [root]) ∧
    (∀ id, found id = all.filter fun x => x ∈ tree.children id) ∧
    (tree.findAll? query = none ↔ ∀ id, tree.contains id → tree.find? id query = none) ∧
    root ∉ all ∧ ∀ id, root ∉ found id := by
  intro all found
  have hall : all = tree.allNamed (Selector.normalize query) := tree.getD_findAll? query
  have hfound : ∀ id, found id = tree.named id (Selector.normalize query) := fun id =>
    tree.getD_find? id query
  have hpart : ∀ id, found id = all.filter fun x => x ∈ tree.children id := fun id => by
    rw [hfound, hall, named_eq_filter]
  have hroot : root ∉ all := hall ▸ tree.root_notMem_allNamed _
  have horder : all.Pairwise Address.Precedes := hall ▸ tree.pairwise_allNamed _
  refine ⟨fun id => ?_, fun id => ?_, horder.imp Address.Precedes.ne, horder, ?_, hpart, ?_, hroot,
    fun id hmem => ?_⟩
  · rw [hall, mem_allNamed_iff]
  · simp only [hall, hfound, mem_allNamed_iff_parent?]
  · rw [hall, visit_eq, List.flatMap_singleton, walk_root]
    exact List.filter_sublist.cons root
  · simp only [findAll?_eq_none_iff, find?_eq_none_iff, allNamed_eq_nil_iff]
  · rw [hpart] at hmem
    exact hroot (List.mem_of_mem_filter hmem)

/-- A rule inside a block without a selector, and another block that is not asked for. -/
theorem findAll?_agrees_inside_unnamed :
    let tree : RuleTree := ⟨.cons {} (.cons { selector := some ['a'] } .nil .nil)
      (.cons { selector := some ['b'] } .nil .nil)⟩
    tree.findAll? [' ', 'a'] = some [[0, 0]] ∧ tree.find? root [' ', 'a'] = none ∧
      ∃ up, tree.parent? [0, 0] = some up ∧ [0, 0] ∈ (tree.find? up [' ', 'a']).getD [] := by
  intro tree
  have hall : tree.findAll? [' ', 'a'] = some [[0, 0]] := by decide
  have hmem : [0, 0] ∈ (tree.findAll? [' ', 'a']).getD [] := by
    rw [hall]
    exact List.mem_singleton_self _
  exact ⟨hall, by decide, ((tree.findAll?_agrees [' ', 'a']).2.1 [0, 0]).mp hmem⟩

end RuleTree

end CssOutline
