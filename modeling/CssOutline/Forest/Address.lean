import CssOutline.Forest.Basic

/-!
# Addresses in a forest

A node is named by its address: the indices of the trees to descend into, outermost first. The
empty address stands above the whole forest. Adding a node as the last one below another leaves
every address in use valid.

## Main definitions

* `Address`: the name of a node
* `Forest.tree?`: one of the trees of a forest
* `Forest.below?`, `Forest.get?`: the forest below an address and the label at it
* `Forest.entriesFrom`, `Forest.entries`: addresses and labels in document order
* `Forest.insert?`: a forest with one node more

## Main results

* `Forest.map_snd_entries`: the listing with addresses holds the labels in document order
* `Forest.entries_map`, `Forest.below?_map`: replacing labels moves no node
-/

namespace CssOutline

/-- The tree indices that lead to a node. -/
abbrev Address := List Nat

namespace Forest

variable {α : Type}

/-- The label and the lower forest of a tree, by its index. -/
def tree? : Nat → Forest α → Option (α × Forest α)
  | _, nil => none
  | 0, cons a below _ => some (a, below)
  | i + 1, cons _ _ after => after.tree? i

/-- The forest below an address. -/
def below? (f : Forest α) : Address → Option (Forest α)
  | [] => some f
  | i :: rest => (f.tree? i).bind fun (_, below) => below.below? rest

/-- The label at an address; there is none at the empty one. -/
def get? (f : Forest α) : Address → Option α
  | [] => none
  | [i] => (f.tree? i).map (·.1)
  | i :: rest => (f.tree? i).bind fun (_, below) => below.get? rest

/-- The nodes of trees number `i` and on below the address `above`, in document order. -/
def entriesFrom (above : Address) (i : Nat) : Forest α → List (Address × α)
  | nil => []
  | cons a below after =>
    (above ++ [i], a) :: (below.entriesFrom (above ++ [i]) 0 ++ after.entriesFrom above (i + 1))

/-- Every node with its address, in document order. -/
def entries (f : Forest α) : List (Address × α) := f.entriesFrom [] 0

theorem map_snd_entriesFrom (above : Address) (i : Nat) (f : Forest α) :
    (f.entriesFrom above i).map (·.2) = f.toList := by
  induction f generalizing above i with
  | nil => rfl
  | cons a below after ih₁ ih₂ => simp [entriesFrom, ih₁, ih₂]

/-- The listing with addresses holds the labels in document order. -/
@[simp] theorem map_snd_entries (f : Forest α) : f.entries.map (·.2) = f.toList :=
  map_snd_entriesFrom [] 0 f

theorem entriesFrom_map {β : Type} (f : α → β) (above : Address) (i : Nat) (g : Forest α) :
    (g.map f).entriesFrom above i = (g.entriesFrom above i).map fun (id, a) => (id, f a) := by
  induction g generalizing above i with
  | nil => rfl
  | cons a below after ih₁ ih₂ => simp [entriesFrom, ih₁, ih₂]

/-- Replacing the labels leaves the addresses as they are. -/
theorem entries_map {β : Type} (f : α → β) (g : Forest α) :
    (g.map f).entries = g.entries.map fun (id, a) => (id, f a) :=
  entriesFrom_map f [] 0 g

theorem tree?_map {β : Type} (f : α → β) (i : Nat) (g : Forest α) :
    (g.map f).tree? i = (g.tree? i).map fun (a, below) => (f a, below.map f) := by
  induction g generalizing i with
  | nil => cases i <;> rfl
  | cons a below after _ ih => cases i with
    | zero => rfl
    | succ i => exact ih i

theorem below?_map {β : Type} (f : α → β) (id : Address) (g : Forest α) :
    (g.map f).below? id = (g.below? id).map (map f) := by
  induction id generalizing g with
  | nil => rfl
  | cons i rest ih =>
    rw [below?, below?, tree?_map]
    cases g.tree? i with
    | none => rfl
    | some t => exact ih t.2

/-- The forest with the forest below its tree number `i` changed; `none` without such a tree or
where the change fails. -/
def changeBelow? (change : Forest α → Option (Forest α)) : Nat → Forest α → Option (Forest α)
  | _, nil => none
  | 0, cons a below after => (change below).map fun below => cons a below after
  | i + 1, cons a below after => (after.changeBelow? change i).map (cons a below)

/-- The forest with a new last node right below an address. -/
def insert? (label : α) : Address → Forest α → Option (Forest α)
  | [], f => some (f ++ cons label nil nil)
  | i :: rest, f => f.changeBelow? (insert? label rest) i

end Forest

end CssOutline
