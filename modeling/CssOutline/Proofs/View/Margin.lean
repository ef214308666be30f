import CssOutline.Proofs.LineIndex.Lines
import CssOutline.Proofs.Text.Trim
import CssOutline.Proofs.View.Markers

/-!
# The margin view, row by row

Every marker has a column and every line of a text has its place in the index, so there is a margin
view of every text next to every tree. It has one row for each line: the lines hold no `\n` once
their ends are trimmed, so joining the rows by `\n` keeps them apart. A row is made of the number of
its line, the columns for the depths and the line itself. White space at its end is trimmed, but the
digits and the marks in front of it stay where they were put. So marks can be read off the view by
their positions, whether or not the tree was read from the text.

## Main definitions

* `numberWidth`, `marginOf`, `fullRow`: the width of the line numbers, the columns of a line, and a
  row before it is trimmed
* `marginRows`: the rows of the view
* `ShowsMargin`: rows that show the marks of a tree next to the lines of a text
* `IsMarked`: a mark for a line and a depth

## Main results

* `marginColumns_eq`: there is a column for each depth up to the greatest one
* `marginOf?_eq`, `lineText?_eq`: no mark is out of its columns, and no line out of the text
* `renderMargin?_eq`: there is a view of every text next to every tree
* `splitOn_renderMargin`: the rows are the lines of the view
* `renderMargin_shows`: what can be read off the view
-/

namespace CssOutline

/-- The width of the line numbers of a text. -/
def numberWidth (text : Text) : Nat := (decimal (LineIndex.ofText text).size).length

/-- The columns of a line: a mark where a rule of that depth starts, and a space elsewhere. -/
def marginOf (markers : List Marker) (columns line : Nat) : Text :=
  (List.range columns).map fun depth =>
    if ∃ marker ∈ markers, marker.line = line ∧ marker.depth = depth then '>' else ' '

/-- The row of a line before white space is trimmed at its end. -/
def fullRow (text : Text) (tree : RuleTree) (i : Nat) (line : Text) : Text :=
  (decimal (i + 1)).leftpad (numberWidth text) ' ' ++
    ' ' :: marginOf tree.markers (marginColumns tree.markers) (i + 1) ++
    ' ' :: Text.trimEnd isLineEnd line

/-- The rows of the margin view, one for each line. -/
def marginRows (text : Text) (tree : RuleTree) : List Text :=
  text.lines.mapIdx fun i line => Text.trimEnd Text.isWhiteSpace (fullRow text tree i line)

/-- Rows that show the lines of a text with their numbers, and the rules of a tree as marks. -/
structure ShowsMargin (text : Text) (tree : RuleTree) (rows : List Text) : Prop where
  /-- There is a row for each line. -/
  length_eq : rows.length = (LineIndex.ofText text).size
  /-- A row begins with the number of its line, with spaces in front of it up to the width of all
  numbers. -/
  number : ∀ (i : Nat) row, rows[i]? = some row →
    (decimal (i + 1)).length ≤ numberWidth text ∧
    row.take (numberWidth text) =
      List.replicate (numberWidth text - (decimal (i + 1)).length) ' ' ++ decimal (i + 1)
  /-- There is a column for each depth of a marker, and none behind the greatest one. -/
  columns : (tree.markers = [] ∧ marginColumns tree.markers = 0) ∨
    ∃ deepest ∈ tree.markers, marginColumns tree.markers = deepest.depth + 1 ∧
      ∀ marker ∈ tree.markers, marker.depth ≤ deepest.depth
  /-- A column has a mark exactly if a rule of that depth starts on the line. -/
  mark_iff : ∀ (i : Nat) row depth, rows[i]? = some row → depth < marginColumns tree.markers →
    (row[numberWidth text + 1 + depth]? = some '>' ↔
      ∃ entry ∈ tree.rules, entry.2.line = some (i + 1) ∧ tree.depth entry.1 = depth)
  /-- A column without a mark is blank, or trimmed away. -/
  blank : ∀ (i : Nat) row depth, rows[i]? = some row → depth < marginColumns tree.markers →
    row[numberWidth text + 1 + depth]? ≠ some '>' →
      row[numberWidth text + 1 + depth]? = some ' ' ∨ row[numberWidth text + 1 + depth]? = none
  /-- Behind the columns and a space stands the line without its end, and no white space is left at
  the end of the row. -/
  line : ∀ (i : Nat) row line, rows[i]? = some row → text.lines[i]? = some line →
    ∃ front : Text, front.length = numberWidth text + 1 + marginColumns tree.markers ∧
      row = Text.trimEnd Text.isWhiteSpace (front ++ ' ' :: Text.trimEnd isLineEnd line)

/-- Rows with a mark for a line in the column of a depth. -/
def IsMarked (text : Text) (columns : Nat) (rows : List Text) (line depth : Nat) : Prop :=
  depth < columns ∧ ∃ i row, line = i + 1 ∧ rows[i]? = some row ∧
    row[numberWidth text + 1 + depth]? = some '>'

/-! ## Columns -/

section Columns

variable {markers : List Marker} {columns depth : Nat}

/-- **There is a column for each depth** up to the greatest one, and no other. -/
theorem marginColumns_eq (markers : List Marker) :
    (markers = [] ∧ marginColumns markers = 0) ∨
      ∃ deepest ∈ markers, marginColumns markers = deepest.depth + 1 ∧
        ∀ marker ∈ markers, marker.depth ≤ deepest.depth := by
  rw [marginColumns, List.foldl_max]
  cases hmax : (markers.map fun marker => marker.depth + 1).max? with
  | none =>
    rw [List.max?_eq_none_iff, List.map_eq_nil_iff] at hmax
    exact Or.inl ⟨hmax, rfl⟩
  | some columns =>
    obtain ⟨hmem, hle⟩ := List.max?_eq_some_iff.mp hmax
    obtain ⟨deepest, hdeepest, rfl⟩ := List.mem_map.mp hmem
    refine Or.inr ⟨deepest, hdeepest, Nat.zero_max _, fun marker hmarker => ?_⟩
    exact Nat.le_of_succ_le_succ (hle _ (List.mem_map_of_mem hmarker))

/-- Every marker has a column. -/
theorem depth_lt_marginColumns {marker : Marker} (h : marker ∈ markers) :
    marker.depth < marginColumns markers := by
  rcases marginColumns_eq markers with ⟨rfl, -⟩ | ⟨deepest, -, hcolumns, hle⟩
  · cases h
  · rw [hcolumns]
    exact Nat.lt_succ_of_le (hle marker h)

/-- A column of a line has a mark where a rule of that depth starts. -/
theorem getElem?_marginOf (markers : List Marker) (line : Nat) (h : depth < columns) :
    (marginOf markers columns line)[depth]? =
      some (if ∃ marker ∈ markers, marker.line = line ∧ marker.depth = depth then '>'
        else ' ') := by
  rw [marginOf, List.getElem?_map, List.getElem?_range h, Option.map_some]

theorem length_marginOf (markers : List Marker) (columns line : Nat) :
    (marginOf markers columns line).length = columns := by
  rw [marginOf, List.length_map, List.length_range]

/-- Marks that have their columns are put there one after the other. -/
theorem exists_foldlM_markColumn? (margin : Text) (h : ∀ m ∈ markers, m.depth < margin.length) :
    ∃ marked : Text, markers.foldlM (fun margin m => markColumn? margin m.depth) margin =
        some marked ∧ marked.length = margin.length ∧
      ∀ depth < margin.length, marked[depth]? =
        if ∃ m ∈ markers, m.depth = depth then some '>' else margin[depth]? := by
  induction markers generalizing margin with
  | nil => exact ⟨margin, rfl, rfl, by simp⟩
  | cons m markers ih =>
    obtain ⟨hm, hrest⟩ := List.forall_mem_cons.mp h
    have hset : (margin.set m.depth '>').length = margin.length := List.length_set
    obtain ⟨marked, hmarked, hlength, hcolumns⟩ := ih (margin.set m.depth '>') (by rwa [hset])
    refine ⟨marked, ?_, hlength.trans hset, fun depth hdepth => ?_⟩
    · rw [List.foldlM_cons, markColumn?, if_pos hm]
      exact hmarked
    · rw [hcolumns depth (by rwa [hset]), List.getElem?_set]
      by_cases hlater : ∃ m ∈ markers, m.depth = depth
      · simp [hlater]
      · by_cases hself : m.depth = depth
        · simp [hself, hdepth]
        · simp [hlater, hself]

/-- **No mark is out of its columns.** -/
theorem marginOf?_eq (line : Nat) (h : ∀ marker ∈ markers, marker.depth < columns) :
    marginOf? markers columns line = some (marginOf markers columns line) := by
  have hhere : ∀ m ∈ markers.filter fun marker => marker.line == line,
      m.depth < (List.replicate columns ' ').length := by
    intro m hm
    rw [List.length_replicate]
    exact h m (List.mem_filter.mp hm).1
  obtain ⟨marked, hmarked, hlength, hcolumns⟩ := exists_foldlM_markColumn? _ hhere
  rw [List.length_replicate] at hlength hcolumns
  rw [marginOf?, hmarked, Option.some.injEq]
  refine List.ext_getElem? fun depth => ?_
  by_cases hdepth : depth < columns
  · rw [hcolumns depth hdepth, getElem?_marginOf markers line hdepth,
      List.getElem?_replicate_of_lt hdepth]
    simp only [List.mem_filter, beq_iff_eq, and_assoc]
    split <;> rfl
  · rw [List.getElem?_eq_none (by omega),
      List.getElem?_eq_none (by rw [length_marginOf]; omega)]

end Columns

/-! ## Rows -/

section Rows

variable {text line row : Text} {tree : RuleTree} {i : Nat}

/-- **No line is out of the text.** -/
theorem lineText?_eq (h : text.lines[i]? = some line) :
    lineText? text (LineIndex.ofText text) i = some (Text.trimEnd isLineEnd line) := by
  obtain ⟨start, hstart, hslice⟩ := LineIndex.exists_slice?_line h
  rw [lineText?, hstart, Option.bind_eq_bind, Option.bind_some, hslice]
  rfl

/-- A pass that may fail succeeds where each of its parts does. -/
theorem mapM_eq_some_of_map_eq {α β : Type} {f : α → Option β} {items : List α} {results : List β}
    (h : items.map f = results.map some) : items.mapM f = some results := by
  induction items generalizing results with
  | nil =>
    obtain rfl : results = [] := by simpa using h
    rfl
  | cons a items ih =>
    cases results with
    | nil => cases h
    | cons b results =>
      obtain ⟨ha, hitems⟩ := List.cons.inj h
      rw [List.mapM_cons, ha, ih hitems]
      rfl

/-- **There is a row for every line.** -/
theorem marginRows?_eq (text : Text) (tree : RuleTree) :
    marginRows? text tree = some (marginRows text tree) := by
  refine mapM_eq_some_of_map_eq (List.ext_getElem ?_ fun i hi _ => ?_)
  · simp [marginRows, LineIndex.size_ofText, Text.length_lines]
  · have hlines : i < text.lines.length := by
      simpa [LineIndex.size_ofText, Text.length_lines] using hi
    have hdepth : ∀ marker ∈ tree.markers, marker.depth < marginColumns tree.markers :=
      fun _ => depth_lt_marginColumns
    have hmargin := marginOf?_eq (i + 1) hdepth
    have hline := lineText?_eq (List.getElem?_eq_getElem hlines)
    rw [List.getElem_map, List.getElem_range, List.getElem_map, hmargin, Option.bind_eq_bind,
      Option.bind_some, hline]
    simp only [marginRows, List.getElem_mapIdx]
    rfl

/-- **There is a view of every text next to every tree.** -/
theorem renderMargin?_eq (text : Text) (tree : RuleTree) :
    renderMargin? text tree = some (renderMargin text tree) := by
  rw [renderMargin, renderMargin?, marginRows?_eq]
  rfl

/-- There is room for each number. -/
theorem length_decimal_le (h : i < text.lines.length) :
    (decimal (i + 1)).length ≤ numberWidth text := by
  rw [Text.length_lines, ← LineIndex.size_ofText] at h
  have hpos : 0 < numberWidth text := List.length_pos_iff.mpr (decimal_ne_nil _)
  have hsize := (Nat.length_toDigits_le_iff (by decide) hpos).mp (le_refl (numberWidth text))
  exact (Nat.length_toDigits_le_iff (by decide) hpos).mpr (lt_of_le_of_lt h hsize)

theorem length_leftpad_decimal (h : i < text.lines.length) :
    ((decimal (i + 1)).leftpad (numberWidth text) ' ').length = numberWidth text := by
  have hle := length_decimal_le h
  rw [List.leftpad, List.length_append, List.length_replicate]
  omega

theorem length_marginRows (text : Text) (tree : RuleTree) :
    (marginRows text tree).length = (LineIndex.ofText text).size := by
  rw [marginRows, List.length_mapIdx, Text.length_lines, LineIndex.size_ofText]

theorem getElem?_marginRows (tree : RuleTree) (h : text.lines[i]? = some line) :
    (marginRows text tree)[i]? =
      some (Text.trimEnd Text.isWhiteSpace (fullRow text tree i line)) := by
  rw [marginRows, List.getElem?_mapIdx, h, Option.map_some]

theorem exists_of_getElem?_marginRows (h : (marginRows text tree)[i]? = some row) :
    ∃ line, text.lines[i]? = some line ∧
      row = Text.trimEnd Text.isWhiteSpace (fullRow text tree i line) := by
  rw [marginRows, List.getElem?_mapIdx] at h
  obtain ⟨line, hline, hrow⟩ := Option.map_eq_some_iff.mp h
  exact ⟨line, hline, hrow.symm⟩

/-- A digit is no white space. -/
theorem isWhiteSpace_of_isDigit {c : Char} (h : c.isDigit) : Text.isWhiteSpace c = false := by
  have hrange : 48 ≤ c.toNat ∧ c.toNat ≤ 57 := by
    simpa [Char.isDigit, UInt32.le_iff_toNat_le] using h
  simp only [Text.isWhiteSpace, Text.whiteSpace, List.any_cons, List.any_nil, Bool.or_false,
    Bool.or_eq_false_iff, Bool.and_eq_false_iff, decide_eq_false_iff_not]
  omega

/-- **A row begins with its number**, and this is not trimmed. -/
theorem take_marginRow (h : (marginRows text tree)[i]? = some row) :
    (decimal (i + 1)).length ≤ numberWidth text ∧
      row.take (numberWidth text) =
        List.replicate (numberWidth text - (decimal (i + 1)).length) ' ' ++ decimal (i + 1) := by
  obtain ⟨line, hline, rfl⟩ := exists_of_getElem?_marginRows h
  obtain ⟨hi, -⟩ := List.getElem?_eq_some_iff.mp hline
  have hlast : ∀ c ∈ ((decimal (i + 1)).leftpad (numberWidth text) ' ').getLast?,
      Text.isWhiteSpace c = false := by
    intro c hc
    rw [List.leftpad, List.getLast?_append_of_ne_nil _ (decimal_ne_nil _)] at hc
    exact isWhiteSpace_of_isDigit (isDigit_of_mem_decimal (List.mem_of_getLast? hc))
  refine ⟨length_decimal_le hi, ?_⟩
  rw [fullRow, List.append_assoc, Text.trimEnd_append_of_getLast? hlast,
    List.take_left' (length_leftpad_decimal hi)]
  rfl

/-- What a row has in the column of a depth before it is trimmed. -/
theorem getElem?_fullRow {depth : Nat} (hline : text.lines[i]? = some line)
    (hdepth : depth < marginColumns tree.markers) :
    (fullRow text tree i line)[numberWidth text + 1 + depth]? =
      some (if ∃ entry ∈ tree.rules, entry.2.line = some (i + 1) ∧ tree.depth entry.1 = depth
        then '>' else ' ') := by
  have hmarker : (∃ marker ∈ tree.markers, marker.line = i + 1 ∧ marker.depth = depth) ↔
      ∃ entry ∈ tree.rules, entry.2.line = some (i + 1) ∧ tree.depth entry.1 = depth := by
    constructor
    · rintro ⟨marker, hm, hline, hdepth⟩
      obtain ⟨rule, hr, hrule, hd⟩ := RuleTree.mem_markers_iff.mp hm
      exact ⟨(marker.rule, rule), hr, hline ▸ hrule, hd.trans hdepth⟩
    · rintro ⟨⟨id, rule⟩, hr, hline, hd⟩
      exact ⟨⟨id, i + 1, depth⟩, RuleTree.mem_markers_iff.mpr ⟨rule, hr, hline, hd⟩, rfl, rfl⟩
  have hlength := length_leftpad_decimal (List.getElem?_eq_some_iff.mp hline).1
  have hindex : numberWidth text + 1 + depth - numberWidth text = depth + 1 := by omega
  have hcolumn := getElem?_marginOf tree.markers (i + 1) hdepth
  rw [fullRow, List.append_assoc, List.cons_append, List.getElem?_append_right (by omega), hlength,
    hindex, List.getElem?_cons_succ, List.getElem?_append_left (by rwa [length_marginOf]), hcolumn]
  simp only [hmarker]

/-- What stands in front of a line in its row is as wide for all lines. -/
theorem exists_front (tree : RuleTree) (hline : text.lines[i]? = some line) :
    ∃ front : Text, front.length = numberWidth text + 1 + marginColumns tree.markers ∧
      fullRow text tree i line = front ++ ' ' :: Text.trimEnd isLineEnd line := by
  have hlength := length_leftpad_decimal (List.getElem?_eq_some_iff.mp hline).1
  refine ⟨_, ?_, rfl⟩
  rw [List.length_append, hlength, List.length_cons, length_marginOf]
  omega

/-- The text of a line holds no `\n`: it ends where the line end begins. -/
theorem newline_notMem_trimEnd (h : text.lines[i]? = some line) :
    '\n' ∉ Text.trimEnd isLineEnd line := by
  obtain ⟨inside, ending, heq, -, hnewline, hending⟩ := Text.exists_of_getElem?_lines h
  have hclass : ∀ c ∈ ending, isLineEnd c := by
    split at hending
    · rw [hending]
      exact fun c hc => absurd hc List.not_mem_nil
    · rcases hending with rfl | rfl | rfl <;> simp [isLineEnd]
  rw [heq, Text.trimEnd_append hclass]
  exact fun hmem => hnewline (Text.mem_of_mem_trimEnd hmem)

theorem newline_notMem_marginRow (h : row ∈ marginRows text tree) : '\n' ∉ row := by
  obtain ⟨i, hrow⟩ := List.getElem?_of_mem h
  obtain ⟨line, hline, rfl⟩ := exists_of_getElem?_marginRows hrow
  have hnumber : '\n' ∉ decimal (i + 1) := fun hmem =>
    absurd (isDigit_of_mem_decimal hmem) (by decide)
  have hmargin : '\n' ∉ marginOf tree.markers (marginColumns tree.markers) (i + 1) := by
    intro hmem
    obtain ⟨depth, -, hmark⟩ := List.mem_map.mp hmem
    split at hmark
    · exact absurd hmark (by decide)
    · exact absurd hmark (by decide)
  intro hmem
  have hfull := Text.mem_of_mem_trimEnd hmem
  simp [fullRow, List.leftpad, hnumber, hmargin, newline_notMem_trimEnd hline] at hfull

/-- **The rows are the lines of the view.** -/
theorem splitOn_renderMargin (text : Text) (tree : RuleTree) :
    (renderMargin text tree).splitOn '\n' = marginRows text tree := by
  have hview : renderMargin text tree = ['\n'].intercalate (marginRows text tree) := by
    rw [renderMargin, renderMargin?, marginRows?_eq]
    rfl
  rw [hview]
  refine List.splitOn_intercalate '\n' (fun row hrow => newline_notMem_marginRow hrow) ?_
  apply List.ne_nil_of_length_pos
  rw [length_marginRows, LineIndex.size_ofText]
  exact Nat.succ_pos _

/-- The rows of the view show the lines with their numbers, and the rules as marks. -/
theorem showsMargin_marginRows (text : Text) (tree : RuleTree) :
    ShowsMargin text tree (marginRows text tree) where
  length_eq := length_marginRows text tree
  number i row hrow := take_marginRow hrow
  columns := marginColumns_eq tree.markers
  mark_iff i row depth hrow hdepth := by
    obtain ⟨line, hline, rfl⟩ := exists_of_getElem?_marginRows hrow
    rw [Text.getElem?_trimEnd_eq_some_iff (by decide), getElem?_fullRow hline hdepth,
      Option.some.injEq]
    split
    · next hrule => exact iff_of_true rfl hrule
    · next hrule => exact iff_of_false (by decide) hrule
  blank i row depth hrow hdepth hmark := by
    obtain ⟨line, hline, rfl⟩ := exists_of_getElem?_marginRows hrow
    cases hcolumn : (Text.trimEnd Text.isWhiteSpace _)[numberWidth text + 1 + depth]? with
    | none => exact Or.inr rfl
    | some c =>
      have hfull := Text.getElem?_of_getElem?_trimEnd hcolumn
      rw [getElem?_fullRow hline hdepth, Option.some.injEq] at hfull
      split at hfull
      · exact absurd (hcolumn.trans (congrArg some hfull.symm)) hmark
      · rw [hfull]
        exact Or.inl rfl
  line i row line hrow hline := by
    obtain ⟨front, hlength, hfull⟩ := exists_front tree hline
    rw [getElem?_marginRows tree hline, Option.some.injEq] at hrow
    exact ⟨front, hlength, by rw [← hrow, hfull]⟩

/-- The marks are those of the rules on the lines of the text. -/
theorem isMarked_iff (text : Text) (tree : RuleTree) (line depth : Nat) :
    IsMarked text (marginColumns tree.markers) (marginRows text tree) line depth ↔
      1 ≤ line ∧ line ≤ (LineIndex.ofText text).size ∧
        ∃ entry ∈ tree.rules, entry.2.line = some line ∧ tree.depth entry.1 = depth := by
  have hshows := showsMargin_marginRows text tree
  constructor
  · rintro ⟨hdepth, i, row, rfl, hrow, hmark⟩
    have hi : i < (LineIndex.ofText text).size := by
      rw [← length_marginRows text tree]
      exact (List.getElem?_eq_some_iff.mp hrow).1
    exact ⟨Nat.succ_pos i, hi, (hshows.mark_iff i row depth hrow hdepth).mp hmark⟩
  · rintro ⟨hpos, hle, entry, hr, hline, hdepth⟩
    obtain ⟨i, rfl⟩ := Nat.exists_eq_add_one_of_ne_zero (Nat.ne_of_gt hpos)
    have hmarker : ⟨entry.1, i + 1, depth⟩ ∈ tree.markers :=
      RuleTree.mem_markers_iff.mpr ⟨entry.2, hr, hline, hdepth⟩
    have hcolumn := depth_lt_marginColumns hmarker
    rw [← length_marginRows text tree] at hle
    have hrow := List.getElem?_eq_getElem hle
    refine ⟨hcolumn, i, _, rfl, hrow, ?_⟩
    exact (hshows.mark_iff i _ depth hrow hcolumn).mpr ⟨entry, hr, hline, hdepth⟩

/-- From each line start to the next there is a line. -/
theorem isSome_slice?_line (hi : i < (LineIndex.ofText text).size) :
    ∃ start, (LineIndex.ofText text).starts[i]? = some start ∧
      (text.slice? start ((LineIndex.ofText text).starts.getD (i + 1) text.byteSize)).isSome := by
  rw [LineIndex.size_ofText, ← Text.length_lines] at hi
  obtain ⟨start, hstart, hslice⟩ := LineIndex.exists_slice?_line (List.getElem?_eq_getElem hi)
  exact ⟨start, hstart, by rw [hslice, Option.isSome_some]⟩

/-- **Next to the outline of the text itself the marks are the lines and depths of all rules.** -/
theorem isMarked_parse_iff (text : Text) (line depth : Nat) :
    IsMarked text (marginColumns (parse text).markers) (marginRows text (parse text)) line depth ↔
      ∃ entry ∈ (parse text).rules,
        entry.2.line = some line ∧ (parse text).depth entry.1 = depth := by
  rw [isMarked_iff]
  constructor
  · exact fun h => h.2.2
  · rintro ⟨⟨id, rule⟩, hr, hline, hdepth⟩
    have hof := line_eq_lineOf_of_mem_parse hr
    rw [hline, Option.some.injEq] at hof
    refine ⟨?_, ?_, ⟨id, rule⟩, hr, hline, hdepth⟩
    · rw [hof]
      exact LineIndex.one_le_lineOf _ _
    · rw [hof]
      exact LineIndex.lineOf_le_size text _

end Rows

/-- **What can be read off the margin view** of any text next to any tree, whether or not the tree
was read from the text. There is such a view: every marker has its column, and from each line start
to the next there is a line to show. The view has a row for each line. A row begins with the number
of its line, and it has a mark in the column of a depth exactly if a rule of that depth starts
there. Next to the outline of the text itself, every rule has a line, and the marks are the lines
and depths of all rules. -/
theorem renderMargin_shows (text : Text) (tree : RuleTree) :
    (renderMargin? text tree = some (renderMargin text tree) ∧
      (∀ marker ∈ tree.markers, marker.depth < marginColumns tree.markers) ∧
      ∀ i < (LineIndex.ofText text).size, ∃ start,
        (LineIndex.ofText text).starts[i]? = some start ∧
        (text.slice? start ((LineIndex.ofText text).starts.getD (i + 1) text.byteSize)).isSome) ∧
    ShowsMargin text tree ((renderMargin text tree).splitOn '\n') ∧
    (∀ entry ∈ (parse text).rules, entry.2.line.isSome) ∧
    ∀ line depth,
      IsMarked text (marginColumns (parse text).markers)
          ((renderMargin text (parse text)).splitOn '\n') line depth ↔
        ∃ entry ∈ (parse text).rules,
          entry.2.line = some line ∧ (parse text).depth entry.1 = depth := by
  rw [splitOn_renderMargin, splitOn_renderMargin]
  refine ⟨⟨renderMargin?_eq text tree, fun marker => depth_lt_marginColumns,
    fun i => isSome_slice?_line⟩, showsMargin_marginRows text tree, fun ⟨id, rule⟩ hr => ?_,
    isMarked_parse_iff text⟩
  rw [line_eq_lineOf_of_mem_parse hr]
  rfl

end CssOutline
