import CssOutline.Proofs.Forest.Entries
import CssOutline.Proofs.Outline.Pairing

/-!
# How an outline grows

Each landmark that is not a closing brace adds one rule at the end of the outline, and a closing
brace only settles where an open block stops. So the outline built from a list of landmarks can
be listed from left to right, with the place of each rule known from the builder as it stood
before it.

## Main definitions

* `placeOf`, `openPlaces`: the addresses of the open blocks
* `Builder.next`: the address of the next rule
* `openEntries`: the part of the listing that the open blocks already fix
* `ruleEntries`, `unclosedPlaces`: the rules that landmarks add, and the blocks among them that
  stay open

## Main results

* `entries_finish_foldl_read`: the listing of the outline of some landmarks
* `openPlaces_foldl_read`: the blocks that are open behind some landmarks
* `map_enclosing`: these are the ones that `enclosing` counts
-/

namespace CssOutline

/-- The address of the innermost of the given open blocks; of the root if there is none. -/
def placeOf (opened : List OpenBlock) : Address :=
  (opened.map fun block => block.before.length).reverse

theorem placeOf_cons (block : OpenBlock) (outer : List OpenBlock) :
    placeOf (block :: outer) = placeOf outer ++ [block.before.length] := by
  simp [placeOf]

@[simp] theorem length_placeOf (opened : List OpenBlock) :
    (placeOf opened).length = opened.length := by
  simp [placeOf]

/-- The address of the next rule. -/
def Builder.next (b : Builder) : Address := placeOf b.opened ++ [b.finished.length]

/-- The addresses of the open blocks, the outermost first. -/
def openPlaces : List OpenBlock → List Address
  | [] => []
  | block :: outer => openPlaces outer ++ [placeOf (block :: outer)]

@[simp] theorem length_openPlaces (opened : List OpenBlock) :
    (openPlaces opened).length = opened.length := by
  induction opened with
  | nil => rfl
  | cons block outer ih => simp [openPlaces, ih]

/-- The addresses of those open blocks that satisfy a condition on their number, counted from the
innermost. -/
def keptPlaces (kept : Nat → Bool) : List OpenBlock → List Address
  | [] => []
  | block :: outer =>
    keptPlaces (fun n => kept (n + 1)) outer ++ if kept 0 then [placeOf (block :: outer)] else []

theorem keptPlaces_true (opened : List OpenBlock) :
    keptPlaces (fun _ => true) opened = openPlaces opened := by
  induction opened with
  | nil => rfl
  | cons block outer ih => simp [keptPlaces, openPlaces, ih]

/-- The listing of the rules in the given open blocks and of these blocks, of which number `n`,
counted from the innermost, stops at `stopOf n`. -/
def openEntries (stopOf : Nat → Nat) : List OpenBlock → List (Address × Rule)
  | [] => []
  | block :: outer =>
    openEntries (fun n => stopOf (n + 1)) outer ++
      (Forest.ofNewest block.before).entriesFrom (placeOf outer) 0 ++
      [(placeOf (block :: outer),
        { start := block.start, bodyStart := block.bodyStart, stop := stopOf 0 })]

/-! ## Listing a forest from its newest trees -/

namespace Forest

variable {α : Type}

@[simp] theorem width_ofNewest (trees : List (α × Forest α)) :
    (ofNewest trees).width = trees.length := by
  induction trees with
  | nil => rfl
  | cons t trees ih => simp [width, ih]

theorem entriesFrom_append (above : Address) (i : Nat) (f g : Forest α) :
    (f ++ g).entriesFrom above i =
      f.entriesFrom above i ++ g.entriesFrom above (i + f.width) := by
  induction f generalizing i with
  | nil => simp [entriesFrom, width]
  | cons a below after _ ih =>
    rw [cons_append, entriesFrom, ih, entriesFrom, width, List.cons_append, List.append_assoc,
      Nat.add_right_comm, Nat.add_assoc]

theorem entriesFrom_ofNewest_cons (above : Address) (t : α × Forest α)
    (trees : List (α × Forest α)) :
    (ofNewest (t :: trees)).entriesFrom above 0 =
      (ofNewest trees).entriesFrom above 0 ++
        (above ++ [trees.length], t.1) :: t.2.entriesFrom (above ++ [trees.length]) 0 := by
  rw [ofNewest_cons, entriesFrom_append, width_ofNewest, Nat.zero_add]
  simp [entriesFrom]

end Forest

/-- The listing of an outline that ends here: what the open blocks fix, then the rules that are
finished in the innermost one. -/
theorem entries_finish (b : Builder) (size : Nat) :
    (b.finish size).entries =
      openEntries (fun _ => size) b.opened ++
        (Forest.ofNewest b.finished).entriesFrom (placeOf b.opened) 0 := by
  obtain ⟨pending, opened, finished⟩ := b
  simp only [Builder.finish, Forest.entries]
  induction opened generalizing finished with
  | nil => rfl
  | cons block outer ih =>
    rw [List.foldl_cons, ih, OpenBlock.close, Forest.entriesFrom_ofNewest_cons, openEntries,
      placeOf_cons]
    simp

/-! ## Reading landmarks -/

/-- The rules that landmarks add to an outline, with their addresses. Blocks that they leave open
stop at `size`. -/
def ruleEntries (size : Nat) : Builder → List Landmark → List (Address × Rule)
  | _, [] => []
  | b, .opening brace :: rest =>
    (b.next, { start := b.pending, bodyStart := brace, stop := (closer? 0 rest).getD size }) ::
      ruleEntries size (b.read (.opening brace)) rest
  | b, .closing brace :: rest => ruleEntries size (b.read (.closing brace)) rest
  | b, .statement start stop :: rest =>
    (b.next, { start, bodyStart := start + Mark.importKeyword.byteSize, stop }) ::
      ruleEntries size (b.read (.statement start stop)) rest

/-- The addresses of the blocks that landmarks open and do not close. -/
def unclosedPlaces : Builder → List Landmark → List Address
  | _, [] => []
  | b, .opening brace :: rest =>
    if ∃ stop, ClosesAt rest stop then unclosedPlaces (b.read (.opening brace)) rest
    else b.next :: unclosedPlaces (b.read (.opening brace)) rest
  | b, .closing brace :: rest => unclosedPlaces (b.read (.closing brace)) rest
  | b, .statement start stop :: rest => unclosedPlaces (b.read (.statement start stop)) rest

/-- **The listing of the outline of some landmarks.** They close open blocks, and add their own
rules behind all others. -/
theorem entries_finish_foldl_read (size : Nat) (ls : List Landmark) (b : Builder) :
    ((ls.foldl Builder.read b).finish size).entries =
      openEntries (fun n => (closer? n ls).getD size) b.opened ++
        (Forest.ofNewest b.finished).entriesFrom (placeOf b.opened) 0 ++
        ruleEntries size b ls := by
  induction ls generalizing b with
  -- the landmarks are read from the left, so the builder is general; `closer?` looks ahead for the
  -- places where its open blocks stop
  | nil => simp [entries_finish, ruleEntries]
  | cons l rest ih =>
    rw [List.foldl_cons, ih]
    cases l with
    | opening brace =>
      simp [Builder.read, Builder.openBlock, openEntries, ruleEntries, Builder.next, placeOf_cons,
        Forest.entriesFrom]
    | closing brace =>
      obtain ⟨pending, opened, finished⟩ := b
      cases opened with
      | nil => simp [Builder.read, Builder.closeBlock, openEntries, ruleEntries]
      | cons block outer =>
        simp only [Builder.read, Builder.closeBlock, openEntries, ruleEntries, OpenBlock.close,
          Forest.entriesFrom_ofNewest_cons, placeOf_cons, closer?_succ_closing,
          closer?_zero_closing, Option.getD_some]
        simp
    | statement start stop =>
      simp [Builder.read, Builder.addStatement, Forest.entriesFrom_append, ruleEntries,
        Builder.next, Forest.entriesFrom]

/-- **The blocks that are open behind some landmarks**: those that were open and are not closed,
and those that are opened and not closed. -/
theorem openPlaces_foldl_read (ls : List Landmark) (b : Builder) :
    openPlaces (ls.foldl Builder.read b).opened =
      keptPlaces (fun n => (closer? n ls).isNone) b.opened ++ unclosedPlaces b ls := by
  induction ls generalizing b with
  | nil => simp [unclosedPlaces, keptPlaces_true]
  | cons l rest ih =>
    rw [List.foldl_cons, ih]
    cases l with
    | opening brace =>
      simp only [Builder.read, Builder.openBlock, unclosedPlaces, keptPlaces, closer?_opening,
        exists_closesAt_iff, placeOf_cons, Builder.next]
      cases closer? 0 rest <;> simp
    | closing brace =>
      obtain ⟨pending, opened, finished⟩ := b
      cases opened with
      | nil => simp [Builder.read, Builder.closeBlock, unclosedPlaces, keptPlaces]
      | cons block outer =>
        simp [Builder.read, Builder.closeBlock, unclosedPlaces, keptPlaces]
    | statement start stop =>
      simp [Builder.read, Builder.addStatement, unclosedPlaces]

theorem map_fst_ruleEntries_append (size : Nat) (xs ys : List Landmark) (b : Builder) :
    (ruleEntries size b (xs ++ ys)).map (·.1) =
      (ruleEntries size b xs).map (·.1) ++
        (ruleEntries size (xs.foldl Builder.read b) ys).map (·.1) := by
  induction xs generalizing b with
  | nil => simp [ruleEntries]
  | cons l xs ih =>
    cases l <;> simp [ruleEntries, ih]

/-- The open blocks are the ones that `enclosing` counts. -/
theorem map_enclosing (size : Nat) (ls : List Landmark) (b : Builder) (known : List Address) :
    (enclosing known.length ls).map (fun k => (known ++ (ruleEntries size b ls).map (·.1))[k]?) =
      (unclosedPlaces b ls).map some := by
  induction ls generalizing b known with
  | nil => rfl
  | cons l rest ih =>
    cases l with
    | opening brace =>
      have hrest := ih (b.read (.opening brace)) (known ++ [b.next])
      rw [List.length_append, List.length_singleton, List.append_assoc] at hrest
      simp only [enclosing, unclosedPlaces, ruleEntries, List.map_cons]
      split
      · exact hrest
      · rw [List.map_cons, List.map_cons, List.getElem?_append_right le_rfl, Nat.sub_self]
        exact congrArg₂ List.cons rfl hrest
    | closing brace => exact ih (b.read (.closing brace)) known
    | statement start stop =>
      have hrest := ih (b.read (.statement start stop)) (known ++ [b.next])
      rw [List.length_append, List.length_singleton, List.append_assoc] at hrest
      simp only [enclosing, unclosedPlaces, ruleEntries, List.map_cons]
      exact hrest

end CssOutline
