import CssOutline.Proofs.Forest.Alike

/-!
# Forests with one node more

A node is put into a forest as the last one right below an address, and this succeeds wherever
there is something to put it below. The new node gets the next free index there. All other nodes
keep their addresses, their labels and the number of nodes right below them.

## Main definitions

* `Forest.ChangedAt`: a forest with the label at one address changed

## Main results

* `Forest.isSome_insert?_iff`: where a node can be put
* `Forest.get?_of_insert?`: the labels of the new forest
* `Forest.width_below?_of_insert?`: the number of nodes right below each address
-/

namespace CssOutline.Forest

variable {α : Type} {f f' below : Forest α} {a : α} {parent : Address}

/-! ## One tree more, one tree changed -/

theorem tree?_concat (f : Forest α) (a : α) (inner : Forest α) (i : Nat) :
    (f ++ cons a inner nil).tree? i = if i = f.width then some (a, inner) else f.tree? i := by
  induction f generalizing i with
  | nil => cases i <;> simp [tree?, width]
  | cons b below after _ ih =>
    cases i with
    | zero => rfl
    | succ i =>
      rw [cons_append, tree?, tree?, ih, width]
      simp only [Nat.add_right_cancel_iff]

theorem tree?_width (f : Forest α) : f.tree? f.width = none := tree?_eq_none_iff.mpr (Nat.le_refl _)

/-- The labels of a forest with one tree more. -/
theorem get?_concat_tree (f : Forest α) (a : α) (inner : Forest α) (i : Nat) (rest : Address) :
    (f ++ cons a inner nil).get? (i :: rest) =
      if i = f.width then (if rest = [] then some a else inner.get? rest)
      else f.get? (i :: rest) := by
  cases rest with
  | nil => by_cases hi : i = f.width <;> simp [get?, tree?_concat, hi]
  | cons k rest => by_cases hi : i = f.width <;> simp [get?, tree?_concat, hi]

/-- A change below the last tree. -/
theorem changeBelow?_concat (f : Forest α) (a : α) (inner : Forest α)
    (change : Forest α → Option (Forest α)) :
    (f ++ cons a inner nil).changeBelow? change f.width =
      (change inner).map fun inner => f ++ cons a inner nil := by
  induction f with
  | nil => rfl
  | cons b below after _ ih =>
    rw [cons_append, width, changeBelow?, ih, Option.map_map]
    rfl

/-- A change below one of the trees leaves its label and the other trees as they are. -/
theorem exists_of_changeBelow? {change : Forest α → Option (Forest α)} {i : Nat}
    (h : f.changeBelow? change i = some f') :
    ∃ b inner inner', f.tree? i = some (b, inner) ∧ change inner = some inner' ∧
      f'.width = f.width ∧
      ∀ j, f'.tree? j = if j = i then some (b, inner') else f.tree? j := by
  induction f generalizing i f' with
  | nil => cases i <;> cases h
  | cons b inner after _ ih =>
    cases i with
    | zero =>
      obtain ⟨inner', hchange, rfl⟩ := Option.map_eq_some_iff.mp h
      refine ⟨b, inner, inner', rfl, hchange, rfl, fun j => ?_⟩
      cases j <;> rfl
    | succ i =>
      obtain ⟨after', hafter, rfl⟩ := Option.map_eq_some_iff.mp h
      obtain ⟨c, below, below', htree, hchange, hwidth, htrees⟩ := ih hafter
      refine ⟨c, below, below', htree, hchange, by rw [width, hwidth, width], fun j => ?_⟩
      cases j with
      | zero => rfl
      | succ j =>
        rw [tree?, htrees, tree?]
        simp only [Nat.add_right_cancel_iff]

theorem isSome_changeBelow?_iff {change : Forest α → Option (Forest α)} {i : Nat} :
    (f.changeBelow? change i).isSome ↔ ∃ t, f.tree? i = some t ∧ (change t.2).isSome := by
  induction f generalizing i with
  | nil => cases i <;> simp [changeBelow?, tree?]
  | cons b inner after _ ih =>
    cases i with
    | zero => simp [changeBelow?, tree?]
    | succ i =>
      rw [changeBelow?, Option.isSome_map, tree?]
      exact ih

/-! ## One node more -/

/-- **A node can be put below every address in use.** -/
theorem isSome_insert?_iff : (f.insert? a parent).isSome ↔ (f.below? parent).isSome := by
  induction parent generalizing f with
  | nil => exact iff_of_true rfl rfl
  | cons i parent ih =>
    rw [insert?, isSome_changeBelow?_iff, below?]
    cases f.tree? i with
    | none => simp
    | some t => simpa using ih (f := t.2)

/-- **The labels of the new forest**: the new one at the next free index, and the old ones. -/
theorem get?_of_insert? (h : f.insert? a parent = some f') (hb : f.below? parent = some below)
    (id : Address) :
    f'.get? id = if id = parent ++ [below.width] then some a else f.get? id := by
  induction parent generalizing f f' id with
  | nil =>
    obtain rfl := Option.some.inj h
    obtain rfl := Option.some.inj hb
    rcases id with _ | ⟨i, rest⟩
    · rfl
    · rw [get?_concat_tree]
      by_cases hi : i = f.width
      · cases rest with
        | nil => simp [hi]
        | cons k rest => simp [hi, get?, tree?_width]
      · simp [hi]
  | cons j parent ih =>
    obtain ⟨b, inner, inner', htree, hinner, -, htrees⟩ := exists_of_changeBelow? h
    rw [below?, htree, Option.bind_some] at hb
    rcases id with _ | ⟨i, _ | ⟨k, rest⟩⟩
    · rfl
    · rw [get?, get?, htrees]
      by_cases hi : i = j
      · simp [hi, htree]
      · simp [hi]
    · rw [get?, get?, htrees]
      · by_cases hi : i = j
        · subst hi
          simp [htree, ih hinner hb]
        · simp [hi]
      · simp
      · simp

/-- **The number of nodes right below each address**: one more where the new node is, none below
the new node, and as many as before everywhere else. -/
theorem width_below?_of_insert? (h : f.insert? a parent = some f')
    (hb : f.below? parent = some below) (id : Address) :
    (f'.below? id).map width =
      if id = parent ++ [below.width] then some 0
      else if id = parent then some (below.width + 1)
      else (f.below? id).map width := by
  induction parent generalizing f f' id with
  | nil =>
    obtain rfl := Option.some.inj h
    obtain rfl := Option.some.inj hb
    rcases id with _ | ⟨i, rest⟩
    · simp [below?, width]
    · rw [below?, below?, tree?_concat]
      by_cases hi : i = f.width
      · cases rest with
        | nil => simp [hi, below?, width]
        | cons k rest => simp [hi, below?, tree?, tree?_width]
      · simp [hi]
  | cons j parent ih =>
    obtain ⟨b, inner, inner', htree, hinner, hwidth, htrees⟩ := exists_of_changeBelow? h
    rw [below?, htree, Option.bind_some] at hb
    rcases id with _ | ⟨i, rest⟩
    · simp [below?, hwidth]
    · rw [below?, below?, htrees]
      by_cases hi : i = j
      · subst hi
        simp [htree, ih hinner hb]
      · simp [hi]

/-! ## One label changed -/

/-- A forest in which the label at one address is changed, and nothing else. -/
structure ChangedAt (change : α → α) (id : Address) (f f' : Forest α) : Prop where
  shape : f.Alike (fun _ _ => True) f'
  get?_eq : ∀ x, f'.get? x = if x = id then (f.get? x).map change else f.get? x

/-- The label of the last tree is changed. -/
theorem changedAt_concat (change : α → α) (f : Forest α) (a : α) (inner : Forest α) :
    ChangedAt change [f.width] (f ++ cons a inner nil) (f ++ cons (change a) inner nil) where
  shape := (Alike.refl f).concat trivial (Alike.refl inner)
  get?_eq x := by
    rcases x with _ | ⟨i, rest⟩
    · rfl
    · rw [get?_concat_tree, get?_concat_tree]
      by_cases hi : i = f.width
      · cases rest with
        | nil => simp [hi]
        | cons k rest => simp [hi]
      · simp [hi]

/-- A label below the last tree is changed. -/
theorem ChangedAt.concat {change : α → α} {id : Address} {inner inner' : Forest α}
    (h : inner.ChangedAt change id inner') (hid : id ≠ []) (f : Forest α) (a : α) :
    ChangedAt change (f.width :: id) (f ++ cons a inner nil) (f ++ cons a inner' nil) where
  shape := (Alike.refl f).concat trivial h.shape
  get?_eq x := by
    rcases x with _ | ⟨i, rest⟩
    · rfl
    · rw [get?_concat_tree, get?_concat_tree]
      by_cases hi : i = f.width
      · cases rest with
        | nil => simp [hi, hid.symm]
        | cons k rest => simp [hi, h.get?_eq]
      · simp [hi]

end CssOutline.Forest
