import CssOutline.Proofs.Forest.Alike
import CssOutline.Proofs.Outline.Landmark
import Mathlib.Order.Monotone.Basic

/-!
# Outlines at other offsets

Two texts that have the same landmarks at different offsets have outlines of the same shape. What
the rules of the two outlines have to do with each other is settled where a landmark begins them:
a relation that holds for each pair of rules begun at a pair of landmarks holds throughout, as long
as it does not look at the places where blocks stop.

## Main definitions

* `Token.move`, `Landmark.move`: tokens and landmarks at other offsets
* `Landmark.MovesRule`: a landmark that begins related rules here and there
* `Builder.Alike`: outlines under construction that are related

## Main results

* `landmarksFrom_map_move`: moving the tokens of a text moves its landmarks
* `Builder.Alike.foldl_read`, `Builder.Alike.finish`: landmarks keep outlines related
-/

namespace CssOutline

/-- A token at another offset. -/
def Token.move (move : Nat → Nat) (token : Token) : Token :=
  { token with start := move token.start }

/-- A landmark at other offsets. -/
def Landmark.move (move : Nat → Nat) : Landmark → Landmark
  | opening brace => opening (move brace)
  | closing brace => closing (move brace)
  | statement start stop => statement (move start) (move stop)

/-! ## Landmarks among moved tokens -/

/-- A moved token begins the moved landmark, if an import statement ends where its end has moved
to. -/
theorem Token.landmark?_move {text text' : Text} {move : Nat → Nat} {token : Token}
    (h : token.mark = .importKeyword →
      ((text'.dropBytes? (move token.start)).bind importLength?).map (move token.start + ·) =
        ((text.dropBytes? token.start).bind importLength?).map fun length =>
          move (token.start + length)) :
    (token.move move).landmark? text' = (token.landmark? text).map (Landmark.move move) := by
  obtain ⟨mark, start⟩ := token
  cases mark with
  | importKeyword =>
    have hstatement := congrArg (Option.map (Landmark.statement (move start))) (h rfl)
    simp only [Option.map_map, Function.comp_def] at hstatement
    simp only [landmark?, Token.move, Option.map_map, Function.comp_def]
    exact hstatement
  | blockOpen | blockClose => rfl
  | commentOpen | commentClose | slash | star | atSign => rfl

/-- Moving the tokens of a text moves its landmarks. -/
theorem landmarksFrom_map_move {text text' : Text} {move : Nat → Nat} (hmove : StrictMono move)
    (depth : Nat) {read : List Token}
    (hland : ∀ t ∈ read,
      (t.move move).landmark? text' = (t.landmark? text).map (Landmark.move move))
    (hstop : ∀ t ∈ read, ∀ l ∈ t.landmark? text, (l.move move).stop = move l.stop) :
    landmarksFrom text' depth (read.map (Token.move move)) =
      (landmarksFrom text depth read).map (Landmark.move move) := by
  induction hn : read.length using Nat.strongRecOn generalizing read depth with
  | ind n ih =>
    cases read with
    | nil => simp
    | cons t rest =>
      simp only [List.length_cons] at hn
      rw [List.map_cons]
      have ht := hland t List.mem_cons_self
      by_cases hl : depth = 0 → t.landmark? text = none
      · have hl' : depth = 0 → (t.move move).landmark? text' = none := by
          intro hd
          rw [ht, hl hd, Option.map_none]
        rw [landmarksFrom_cons_of_none _ hl, landmarksFrom_cons_of_none _ hl']
        exact ih rest.length (by omega) _ (fun u hu => hland u (List.mem_cons_of_mem t hu))
          (fun u hu => hstop u (List.mem_cons_of_mem t hu)) rfl
      · obtain ⟨rfl, hsome⟩ := Classical.not_imp.mp hl
        obtain ⟨l, hl⟩ := Option.ne_none_iff_exists'.mp hsome
        rw [hl, Option.map_some] at ht
        rw [landmarksFrom_cons_of_landmark? _ hl, landmarksFrom_cons_of_landmark? _ ht,
          List.map_cons, hstop t List.mem_cons_self l hl]
        have hfilter : (rest.map (Token.move move)).filter (fun u => move l.stop ≤ u.start) =
            (rest.filter fun u => l.stop ≤ u.start).map (Token.move move) := by
          rw [List.filter_map]
          congr 1
          refine List.filter_congr fun u _ => ?_
          exact decide_eq_decide.mpr hmove.le_iff_le
        have hmem : ∀ u ∈ rest.filter (fun u => l.stop ≤ u.start), u ∈ t :: rest :=
          fun u hu => List.mem_cons_of_mem t (List.mem_of_mem_filter hu)
        have hlength := List.length_filter_le (fun u => decide (l.stop ≤ u.start)) rest
        rw [hfilter]
        congr 1
        exact ih _ (by omega) 0 (fun u hu => hland u (hmem u hu))
          (fun u hu => hstop u (hmem u hu)) rfl

/-! ## Outlines of moved landmarks -/

section Alike

variable (R : Rule → Rule → Prop) (move : Nat → Nat)

/-- A landmark that begins related rules here and at the other offsets, where the preludes begin at
the given places. The relation has to hold wherever a block stops. -/
def Landmark.MovesRule (pending pending' : Nat) : Landmark → Prop
  | opening brace => ∀ stop,
    R { start := pending, bodyStart := brace, stop }
      { start := pending', bodyStart := move brace, stop := move stop }
  | closing _ => True
  | statement start stop =>
    R { start, bodyStart := start + Mark.importKeyword.byteSize, stop }
      { start := move start, bodyStart := move start + Mark.importKeyword.byteSize,
        stop := move stop }

/-- Open blocks that become related rules. -/
structure OpenBlock.Alike (x y : OpenBlock) : Prop where
  rule : ∀ stop, R { start := x.start, bodyStart := x.bodyStart, stop }
    { start := y.start, bodyStart := y.bodyStart, stop := move stop }
  before : (Forest.ofNewest x.before).Alike R (Forest.ofNewest y.before)

/-- Outlines under construction with related rules. -/
structure Builder.Alike (b c : Builder) : Prop where
  opened : List.Forall₂ (OpenBlock.Alike R move) b.opened c.opened
  finished : (Forest.ofNewest b.finished).Alike R (Forest.ofNewest c.finished)

variable {R move}

/-- Blocks that stop at corresponding places join the rules before them. -/
theorem OpenBlock.Alike.close {x y : OpenBlock} (h : x.Alike R move y) (stop : Nat)
    {inside inside' : FinishedRules}
    (hin : (Forest.ofNewest inside).Alike R (Forest.ofNewest inside')) :
    (Forest.ofNewest (x.close stop inside)).Alike R
      (Forest.ofNewest (y.close (move stop) inside')) := by
  rw [OpenBlock.close, OpenBlock.close, Forest.ofNewest_cons, Forest.ofNewest_cons]
  exact h.before.concat (h.rule stop) hin

/-- **A landmark keeps outlines related** if the rules that it begins are. -/
theorem Builder.Alike.read {b c : Builder} (h : b.Alike R move c) {l : Landmark}
    (hl : l.MovesRule R move b.pending c.pending) :
    (b.read l).Alike R move (c.read (l.move move)) := by
  obtain ⟨pending, opened, finished⟩ := b
  obtain ⟨pending', opened', finished'⟩ := c
  obtain ⟨hopened, hfinished⟩ := h
  simp only at hopened hfinished hl
  cases l with
  | opening brace => exact ⟨.cons ⟨hl, hfinished⟩ hopened, .nil⟩
  | closing brace =>
    cases hopened with
    | nil => exact ⟨.nil, hfinished⟩
    | cons hblock houter => exact ⟨houter, hblock.close brace hfinished⟩
  | statement start stop =>
    refine ⟨hopened, ?_⟩
    simp only [Builder.read, Landmark.move, Builder.addStatement, Forest.ofNewest_cons]
    exact hfinished.concat hl .nil

/-- **Landmarks keep outlines related** if the rules that they begin are. -/
theorem Builder.Alike.foldl_read {b c : Builder} (h : b.Alike R move c) {ls : List Landmark}
    (hls : ∀ before l after, ls = before ++ l :: after →
      l.MovesRule R move (before.foldl Builder.read b).pending
        ((before.map (Landmark.move move)).foldl Builder.read c).pending) :
    (ls.foldl Builder.read b).Alike R move
      ((ls.map (Landmark.move move)).foldl Builder.read c) := by
  induction ls generalizing b c with
  | nil => exact h
  | cons l rest ih =>
    rw [List.foldl_cons, List.map_cons, List.foldl_cons]
    apply ih (h.read (hls [] l rest rfl))
    intro before m after hrest
    exact hls (l :: before) m after (by rw [hrest, List.cons_append])

/-- Related outlines are related where the two texts end. -/
theorem Builder.Alike.finish {b c : Builder} (h : b.Alike R move c) (size : Nat) :
    (b.finish size).Alike R (c.finish (move size)) := by
  obtain ⟨pending, opened, finished⟩ := b
  obtain ⟨pending', opened', finished'⟩ := c
  obtain ⟨hopened, hfinished⟩ := h
  simp only [Builder.finish] at hopened hfinished ⊢
  induction hopened generalizing finished finished' with
  | nil => exact hfinished
  | cons hblock _ ih => exact ih _ _ (hblock.close size hfinished)

end Alike

end CssOutline
