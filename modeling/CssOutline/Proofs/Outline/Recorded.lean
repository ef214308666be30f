import CssOutline.Proofs.Outline.Growth
import CssOutline.Proofs.Outline.Relexed
import CssOutline.Proofs.RuleTree.Arena

/-!
# Outlines written into an arena

The landmarks of a text can be written into an arena while the text is read. A new rule goes right
inside the innermost open block at once. A block stops at the end of the text until its closing
brace is read, and then its rule is changed. So behind each landmark the arena holds the outline of
what has been read, and in the end that of the whole text. The keys of the rules are in document
order.

## Main definitions

* `Recorder`: the arena while it is written, and the open blocks
* `Recorder.read?`: writing a landmark
* `record?`: the arena of a text
* `Builder.tree`, `Builder.places`: the outline of a text that ends here, and its addresses
* `Recorder.Holds`: an arena that holds an outline under construction

## Main results

* `Builder.insert?_tree`, `Builder.changedAt_closeBlock`: what a landmark changes in an outline
* `Recorder.Holds.exists_read?`: a landmark keeps the arena in step with the outline
* `exists_record?_eq`: the arena of a text holds its outline
-/

namespace CssOutline

/-- An arena that is being written. -/
structure Recorder where
  arena : RuleArena := .empty
  /-- The open blocks, the innermost first. -/
  opened : List Key := []
  /-- The rule that the next one goes into. -/
  current : Key := RuleArena.empty.root
  /-- Where the prelude of the next rule begins. -/
  pending : Nat := 0

namespace Recorder

/-- Writes a landmark of a text that ends at offset `size`. -/
def read? (size : Nat) (r : Recorder) : Landmark → Option Recorder
  | .opening brace => do
    let (arena, key) ← r.arena.insertChild? r.current
      { start := r.pending, bodyStart := brace, stop := size }
    return { arena, opened := key :: r.opened, current := key, pending := brace + 1 }
  | .closing brace =>
    match r.opened with
    | [] => some { r with pending := brace + 1 }
    | key :: outer =>
      some {
        arena := r.arena.modify key fun rule => { rule with stop := brace }
        opened := outer
        current := (r.arena.parent? key).getD r.arena.root
        pending := brace + 1 }
  | .statement start stop => do
    let (arena, _) ← r.arena.insertChild? r.current
      { start, bodyStart := start + Mark.importKeyword.byteSize, stop }
    return { r with arena, pending := stop }

end Recorder

/-- The arena of a text, written while the text is read. -/
def record? (text : Text) : Option RuleArena :=
  ((landmarksAfter 0 0 0 text).foldlM (Recorder.read? text.byteSize) {}).map (·.arena)

/-! ## What a landmark changes in an outline -/

section Change

variable {size : Nat} {opened outer : List OpenBlock} {block : OpenBlock} {rule : Rule}

/-- The open blocks stop at `size`, from the innermost to the outermost. -/
def closeAll (size : Nat) (opened : List OpenBlock) (finished : FinishedRules) : Forest Rule :=
  Forest.ofNewest (opened.foldl (fun inside block => block.close size inside) finished)

theorem below?_closeAll (size : Nat) (opened : List OpenBlock) (finished : FinishedRules)
    (id : Address) :
    (closeAll size opened finished).below? (placeOf opened ++ id) =
      (Forest.ofNewest finished).below? id := by
  induction opened generalizing finished id with
  | nil => rfl
  | cons block outer ih =>
    rw [placeOf_cons, List.append_assoc, List.singleton_append]
    refine (ih (block.close size finished) (block.before.length :: id)).trans ?_
    rw [OpenBlock.close, Forest.ofNewest_cons, Forest.below?, Forest.tree?_concat,
      Forest.width_ofNewest, if_pos rfl, Option.bind_some]

theorem insert?_closeAll (size : Nat) (opened : List OpenBlock) (finished finished' : FinishedRules)
    (id : Address)
    (h : (Forest.ofNewest finished).insert? rule id = some (Forest.ofNewest finished')) :
    (closeAll size opened finished).insert? rule (placeOf opened ++ id) =
      some (closeAll size opened finished') := by
  induction opened generalizing finished finished' id with
  | nil => exact h
  | cons block outer ih =>
    rw [placeOf_cons, List.append_assoc, List.singleton_append]
    refine ih (block.close size finished) (block.close size finished') _ ?_
    rw [OpenBlock.close, OpenBlock.close, Forest.ofNewest_cons, Forest.ofNewest_cons,
      ← Forest.width_ofNewest, Forest.insert?, Forest.changeBelow?_concat, h, Option.map_some]

theorem changedAt_closeAll (size : Nat) (opened : List OpenBlock)
    (finished finished' : FinishedRules) {change : Rule → Rule} {id : Address} (hid : id ≠ [])
    (h : (Forest.ofNewest finished).ChangedAt change id (Forest.ofNewest finished')) :
    (closeAll size opened finished).ChangedAt change (placeOf opened ++ id)
      (closeAll size opened finished') := by
  induction opened generalizing finished finished' id with
  | nil => exact h
  | cons block outer ih =>
    rw [placeOf_cons, List.append_assoc, List.singleton_append]
    refine ih (block.close size finished) (block.close size finished') (List.cons_ne_nil _ _) ?_
    rw [OpenBlock.close, OpenBlock.close, Forest.ofNewest_cons, Forest.ofNewest_cons,
      ← Forest.width_ofNewest]
    exact h.concat hid _ _

/-- The open blocks are around the place of the next rule. -/
theorem prefix_of_mem_openPlaces {id : Address} (h : id ∈ openPlaces opened) :
    id <+: placeOf opened := by
  induction opened with
  | nil => cases h
  | cons block outer ih =>
    rcases List.mem_append.mp h with h | h
    · exact (ih h).trans (placeOf_cons block outer ▸ List.prefix_append _ _)
    · rw [List.mem_singleton.mp h]

namespace Builder

variable {b : Builder}

/-- The outline of a text that ends here. -/
def tree (size : Nat) (b : Builder) : RuleTree := ⟨b.finish size⟩

/-- An outline under construction with one rule more, which holds no other rule. -/
def add (b : Builder) (rule : Rule) : Builder := { b with finished := (rule, .nil) :: b.finished }

/-- The addresses of the root and the rules of an outline, in document order. -/
def places (size : Nat) (b : Builder) : List Address := (b.tree size).walk RuleTree.root

theorem below?_finish (size : Nat) (b : Builder) :
    (b.finish size).below? (placeOf b.opened) = some (Forest.ofNewest b.finished) := by
  have hbelow := below?_closeAll size b.opened b.finished []
  rwa [List.append_nil] at hbelow

theorem contains_placeOf (size : Nat) (b : Builder) : (b.tree size).contains (placeOf b.opened) :=
  RuleTree.contains_iff_exists_below?.mpr ⟨_, b.below?_finish size⟩

theorem contains_of_mem_openPlaces {id : Address} (h : id ∈ openPlaces b.opened) :
    (b.tree size).contains id := by
  obtain ⟨rest, hrest⟩ := prefix_of_mem_openPlaces h
  have hplace := b.contains_placeOf size
  rw [← hrest] at hplace
  exact RuleTree.contains_of_append hplace

/-- A rule is put right inside the innermost open block. -/
theorem insert?_tree (size : Nat) (b : Builder) (rule : Rule) :
    (b.tree size).insert? (placeOf b.opened) rule = some ((b.add rule).tree size, b.next) := by
  have htop : (b.finish size).insert? rule (placeOf b.opened) =
      some ((b.add rule).finish size) := by
    have hlast : (Forest.ofNewest b.finished).insert? rule [] =
        some (Forest.ofNewest ((rule, .nil) :: b.finished)) := by
      rw [Forest.insert?, Forest.ofNewest_cons]
    have hall := insert?_closeAll size b.opened _ _ [] hlast
    rwa [List.append_nil] at hall
  rw [RuleTree.insert?]
  simp only [tree, below?_finish, htop, Option.bind_eq_bind, Option.bind_some,
    Forest.width_ofNewest]
  rfl

/-- The new rule is the last one in document order. -/
theorem places_add (size : Nat) (b : Builder) (rule : Rule) :
    (b.add rule).places size = b.places size ++ [b.next] := by
  rw [places, places, RuleTree.walk_root, RuleTree.walk_root, RuleTree.rules, RuleTree.rules, tree,
    tree, entries_finish, entries_finish, add, Forest.entriesFrom_ofNewest_cons, next]
  simp [Forest.entriesFrom]

/-- A closing brace changes where the innermost open block stops. -/
theorem changedAt_closeBlock (b : Builder) (h : b.opened = block :: outer) (brace : Nat) :
    (b.finish size).ChangedAt (fun rule => { rule with stop := brace }) (placeOf b.opened)
      ((b.closeBlock brace).finish size) := by
  obtain ⟨pending, opened, finished⟩ := b
  obtain rfl : opened = block :: outer := h
  rw [placeOf_cons]
  refine changedAt_closeAll size outer (block.close size finished) (block.close brace finished)
    (List.cons_ne_nil _ _) ?_
  rw [OpenBlock.close, OpenBlock.close, Forest.ofNewest_cons, Forest.ofNewest_cons,
    ← Forest.width_ofNewest]
  exact Forest.changedAt_concat _ _ _ _

theorem places_closeBlock (size : Nat) (h : b.opened = block :: outer) (brace : Nat) :
    (b.closeBlock brace).places size = b.places size :=
  congrArg (List.cons RuleTree.root) (b.changedAt_closeBlock h brace).shape.map_fst_entries.symm

/-- The innermost open block is right inside the next one. -/
theorem parent?_placeOf (size : Nat) (h : b.opened = block :: outer) :
    (b.tree size).parent? (placeOf b.opened) = some (placeOf outer) :=
  RuleTree.parent?_eq_some_iff.mpr ⟨b.contains_placeOf size, _, h ▸ placeOf_cons block outer⟩

end Builder

end Change

namespace Recorder

variable {r : Recorder} {b : Builder} {size : Nat}

/-- An arena that holds an outline under construction as if the text ended here. -/
structure Holds (size : Nat) (r : Recorder) (b : Builder) : Prop where
  represents : r.arena.Represents (b.tree size) (b.places size)
  opened_eq : r.opened = (openPlaces b.opened).reverse.map (b.places size).idxOf
  current_eq : r.current = (b.places size).idxOf (placeOf b.opened)
  pending_eq : r.pending = b.pending

namespace Holds

/-- A rule goes into the innermost open block. -/
theorem exists_insertChild? (h : r.Holds size b) (rule : Rule) :
    ∃ arena, r.arena.insertChild? r.current rule =
        some (arena, ((b.add rule).places size).idxOf b.next) ∧
      arena.Represents ((b.add rule).tree size) ((b.add rule).places size) := by
  have placed := b.insert?_tree size rule
  obtain ⟨⟨arena, key⟩, written⟩ := h.represents.exists_insertChild? placed
  rw [h.current_eq, b.places_add, h.represents.idxOf_concat_eq_key placed written]
  exact ⟨arena, written, h.represents.insertChild? placed written⟩

/-- Open blocks keep their keys. -/
theorem map_idxOf_add (h : r.Holds size b) (rule : Rule) :
    (openPlaces b.opened).reverse.map ((b.add rule).places size).idxOf = r.opened := by
  rw [h.opened_eq, b.places_add]
  refine List.map_congr_left fun id hid => List.idxOf_append_of_mem ?_
  exact (h.represents.mem_iff id).mpr
    (Builder.contains_of_mem_openPlaces (List.mem_reverse.mp hid))

/-- The place of the next rule keeps its key. -/
theorem idxOf_add_placeOf (h : r.Holds size b) (rule : Rule) :
    ((b.add rule).places size).idxOf (placeOf b.opened) = r.current := by
  rw [h.current_eq, b.places_add]
  exact List.idxOf_append_of_mem ((h.represents.mem_iff _).mpr (b.contains_placeOf size))

theorem exists_read?_opening (h : r.Holds size b) (brace : Nat) :
    ∃ r', r.read? size (.opening brace) = some r' ∧ r'.Holds size (b.openBlock brace) := by
  let rule : Rule := { start := b.pending, bodyStart := brace, stop := size }
  obtain ⟨arena, written, hrep⟩ := h.exists_insertChild? rule
  have hplaces : (b.openBlock brace).places size = (b.add rule).places size := rfl
  have hnext : placeOf (b.openBlock brace).opened = b.next := placeOf_cons _ _
  have hopened : openPlaces (b.openBlock brace).opened = openPlaces b.opened ++ [b.next] := by
    rw [← hnext]
    rfl
  have hread : r.read? size (.opening brace) = some
      { arena
        opened := ((b.add rule).places size).idxOf b.next :: r.opened
        current := ((b.add rule).places size).idxOf b.next
        pending := brace + 1 } := by
    rw [read?, h.pending_eq, written]
    rfl
  refine ⟨_, hread, hrep, ?_, ?_, rfl⟩
  · rw [hopened, hplaces, List.reverse_concat, List.map_cons, h.map_idxOf_add]
  · rw [hnext, hplaces]

theorem parent?_placeOf (h : r.Holds size b) {block : OpenBlock} {outer : List OpenBlock}
    (hopened : b.opened = block :: outer) :
    r.arena.parent? ((b.places size).idxOf (placeOf b.opened)) =
      some ((b.places size).idxOf (placeOf outer)) := by
  rw [h.represents.parent?_eq _ ((h.represents.mem_iff _).mpr (b.contains_placeOf size)),
    b.parent?_placeOf size hopened, Option.map_some]

theorem exists_read?_closing (h : r.Holds size b) (brace : Nat) :
    ∃ r', r.read? size (.closing brace) = some r' ∧ r'.Holds size (b.closeBlock brace) := by
  obtain ⟨pending, opened, finished⟩ := b
  cases opened with
  | nil =>
    have hread : r.read? size (.closing brace) = some { r with pending := brace + 1 } := by
      rw [read?, h.opened_eq]
      rfl
    exact ⟨_, hread, h.represents, h.opened_eq, h.current_eq, rfl⟩
  | cons block outer =>
    let b : Builder := ⟨pending, block :: outer, finished⟩
    have hread : r.read? size (.closing brace) = some
        { arena := r.arena.modify ((b.places size).idxOf (placeOf b.opened)) fun rule =>
            { rule with stop := brace }
          opened := (openPlaces outer).reverse.map (b.places size).idxOf
          current := (b.places size).idxOf (placeOf outer)
          pending := brace + 1 } := by
      rw [read?, h.opened_eq, openPlaces, List.reverse_concat, List.map_cons]
      simp only [h.parent?_placeOf rfl, Option.getD_some, b]
    have hne : placeOf b.opened ≠ RuleTree.root := by
      rw [placeOf_cons]
      exact List.append_ne_nil_of_right_ne_nil _ (List.cons_ne_nil _ _)
    refine ⟨_, hread, ?_, ?_, ?_, rfl⟩
    · rw [b.places_closeBlock size rfl]
      exact h.represents.modify (b.contains_placeOf size) hne (b.changedAt_closeBlock rfl brace)
    · rw [b.places_closeBlock size rfl]
      rfl
    · rw [b.places_closeBlock size rfl]
      rfl

theorem exists_read?_statement (h : r.Holds size b) (start stop : Nat) :
    ∃ r', r.read? size (.statement start stop) = some r' ∧
      r'.Holds size (b.addStatement start (start + Mark.importKeyword.byteSize) stop) := by
  let rule : Rule := { start, bodyStart := start + Mark.importKeyword.byteSize, stop }
  obtain ⟨arena, written, hrep⟩ := h.exists_insertChild? rule
  have hread : r.read? size (.statement start stop) = some { r with arena, pending := stop } := by
    rw [read?, written]
    rfl
  exact ⟨_, hread, hrep, (h.map_idxOf_add rule).symm, (h.idxOf_add_placeOf rule).symm, rfl⟩

/-- **A landmark keeps the arena in step with the outline.** -/
theorem exists_read? (h : r.Holds size b) (l : Landmark) :
    ∃ r', r.read? size l = some r' ∧ r'.Holds size (b.read l) := by
  cases l with
  | opening brace => exact h.exists_read?_opening brace
  | closing brace => exact h.exists_read?_closing brace
  | statement start stop => exact h.exists_read?_statement start stop

/-- **Landmarks keep the arena in step with the outline.** -/
theorem exists_foldlM_read? (h : r.Holds size b) (ls : List Landmark) :
    ∃ r', ls.foldlM (read? size) r = some r' ∧ r'.Holds size (ls.foldl Builder.read b) := by
  induction ls generalizing r b with
  | nil => exact ⟨r, rfl, h⟩
  | cons l ls ih =>
    obtain ⟨r₁, hread, h₁⟩ := h.exists_read? l
    obtain ⟨r', hls, h'⟩ := ih h₁
    refine ⟨r', ?_, h'⟩
    rw [List.foldlM_cons, hread]
    exact hls

end Holds

theorem holds_start (size : Nat) : Holds size {} {} where
  represents := RuleArena.represents_empty
  opened_eq := rfl
  current_eq := rfl
  pending_eq := rfl

end Recorder

/-- **The arena of a text holds its outline**, which comes about by insertions in document order.
The keys of the rules are in this order. -/
theorem exists_record?_eq (text : Text) :
    (scan text).Grown ((scan text).rules.map RuleTree.placement) ∧
      ∃ arena, record? text = some arena ∧
        arena.Represents (scan text) (idsOf ((scan text).rules.map RuleTree.placement)) := by
  obtain ⟨r, hread, h⟩ :=
    (Recorder.holds_start text.byteSize).exists_foldlM_read? (landmarksAfter 0 0 0 text)
  refine ⟨(scan text).grown_rules, r.arena, ?_, ?_⟩
  · rw [record?, hread, Option.map_some]
  · have htree : scan text =
        ((landmarksAfter 0 0 0 text).foldl Builder.read {}).tree text.byteSize :=
      congrArg RuleTree.mk (scan_top_eq_landmarksAfter text)
    rw [RuleTree.idsOf_placements, htree]
    exact h.represents

end CssOutline
