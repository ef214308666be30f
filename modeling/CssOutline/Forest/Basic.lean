/-!
# Forests

An ordered forest is a sequence of labelled trees, each over a forest of its own. Its nodes are
listed in document order: a node before those below it, and those before the next tree.

## Main definitions

* `Forest`: ordered forests of labels
* `Forest.append`, `Forest.ofNewest`: a forest from two, and from its trees listed backwards
* `Forest.map`: a forest of the same shape with other labels
* `Forest.toList`: the labels in document order
* `Forest.width`, `Forest.size`: the number of trees and of nodes

## Main results

* `Forest.toList_append`, `Forest.toList_map`, `Forest.length_toList`: listing the labels
  respects the operations
-/

namespace CssOutline

/-- An ordered forest: no tree, or a first tree, made of a label and the forest below it, and
the trees after it. -/
inductive Forest (α : Type)
  | nil
  | cons (label : α) (below after : Forest α)
  deriving DecidableEq, Repr

namespace Forest

variable {α β : Type}

/-- The trees of one forest and then those of another. -/
def append : Forest α → Forest α → Forest α
  | nil, g => g
  | cons a below after, g => cons a below (after.append g)

instance : Append (Forest α) := ⟨append⟩

@[simp] theorem nil_append (g : Forest α) : nil ++ g = g := rfl

@[simp] theorem cons_append (a : α) (below after g : Forest α) :
    cons a below after ++ g = cons a below (after ++ g) := rfl

@[simp] theorem append_nil (f : Forest α) : f ++ nil = f := by
  induction f with
  | nil => rfl
  | cons a below after _ ih => rw [cons_append, ih]

theorem append_assoc (f g h : Forest α) : f ++ g ++ h = f ++ (g ++ h) := by
  induction f with
  | nil => rfl
  | cons a below after _ ih => simp [ih]

/-- The forest of the given trees, the last one first. -/
def ofNewest (trees : List (α × Forest α)) : Forest α :=
  trees.foldl (fun after (a, below) => cons a below after) nil

@[simp] theorem ofNewest_nil : ofNewest ([] : List (α × Forest α)) = nil := rfl

theorem foldl_eq_ofNewest_append (trees : List (α × Forest α)) (f : Forest α) :
    trees.foldl (fun after (a, below) => cons a below after) f = ofNewest trees ++ f := by
  induction trees generalizing f with
  | nil => rfl
  | cons t trees ih =>
    have hone : ofNewest (t :: trees) = ofNewest trees ++ cons t.1 t.2 nil := ih _
    rw [List.foldl_cons, ih, hone, append_assoc]
    rfl

@[simp] theorem ofNewest_cons (t : α × Forest α) (trees : List (α × Forest α)) :
    ofNewest (t :: trees) = ofNewest trees ++ cons t.1 t.2 nil :=
  foldl_eq_ofNewest_append trees (cons t.1 t.2 nil)

/-- The forest with every label replaced. -/
def map (f : α → β) : Forest α → Forest β
  | nil => nil
  | cons a below after => cons (f a) (below.map f) (after.map f)

@[simp] theorem map_nil (f : α → β) : map f nil = nil := rfl

@[simp] theorem map_cons (f : α → β) (a : α) (below after : Forest α) :
    map f (cons a below after) = cons (f a) (below.map f) (after.map f) := rfl

@[simp] theorem map_append (f : α → β) (g h : Forest α) : map f (g ++ h) = map f g ++ map f h := by
  induction g with
  | nil => rfl
  | cons a below after _ ih => simp [ih]

/-- The labels in document order. -/
def toList : Forest α → List α
  | nil => []
  | cons a below after => a :: (below.toList ++ after.toList)

@[simp] theorem toList_nil : toList (nil : Forest α) = [] := rfl

@[simp] theorem toList_cons (a : α) (below after : Forest α) :
    toList (cons a below after) = a :: (below.toList ++ after.toList) := rfl

@[simp] theorem toList_append (f g : Forest α) : (f ++ g).toList = f.toList ++ g.toList := by
  induction f with
  | nil => rfl
  | cons a below after _ ih => simp [ih]

@[simp] theorem toList_map (f : α → β) (g : Forest α) : (g.map f).toList = g.toList.map f := by
  induction g with
  | nil => rfl
  | cons a below after ih₁ ih₂ => simp [ih₁, ih₂]

/-- The number of trees. -/
def width : Forest α → Nat
  | nil => 0
  | cons _ _ after => after.width + 1

@[simp] theorem width_append (f g : Forest α) : (f ++ g).width = f.width + g.width := by
  induction f with
  | nil => simp [width]
  | cons a below after _ ih => simp [width, ih]; omega

@[simp] theorem width_map (f : α → β) (g : Forest α) : (g.map f).width = g.width := by
  induction g with
  | nil => rfl
  | cons a below after _ ih => simp [width, ih]

/-- The number of nodes. -/
def size : Forest α → Nat
  | nil => 0
  | cons _ below after => below.size + after.size + 1

@[simp] theorem length_toList (f : Forest α) : f.toList.length = f.size := by
  induction f with
  | nil => rfl
  | cons a below after ih₁ ih₂ => simp [size, ih₁, ih₂]

end Forest

end CssOutline
