import CssOutline.Proofs.ImportStatement.LoneReturns
import CssOutline.Proofs.Outline.Parts
import CssOutline.Proofs.Outline.Respelled

/-!
# Outlines of texts with lone `\r`

A text with its line ends spelled `\r` has all its characters at the same offsets, and the same
tokens. Its outline is the same as well, down to selectors and lines, as long as no import statement
has a line end in its argument. Such a statement is there in the one spelling only, or it ends at
another place, so the condition cannot be done without.

## Main definitions

* `ImportsOnOneLine`: a text that has the arguments of its import statements on one line

## Main results

* `landmarks_respell_cr`: the landmarks of a text with its line ends spelled `\r`
* `parse_respell_cr_iff`: when the outline is the same
-/

namespace CssOutline

/-- A text in which every import statement has its argument on one line. -/
def ImportsOnOneLine (text : Text) : Prop :=
  ∀ start stop, .statement start stop ∈ landmarks text →
    ∃ statement, text.slice? start stop = some statement ∧ OnOneLine statement

/-! ## Landmarks -/

section Landmarks

variable {text text' : Text}

/-- Two texts have the same landmarks if tokens without a landmark in the one have none in the
other, and the landmarks that count in the one begin in the other as well. -/
theorem landmarksFrom_congr {read : List Token} {depth : Nat}
    (hnone : ∀ t ∈ read, t.landmark? text' = none → t.landmark? text = none)
    (hsome : ∀ t ∈ read, ∀ l ∈ landmarksFrom text' depth read,
      t.landmark? text' = some l → t.landmark? text = some l) :
    landmarksFrom text' depth read = landmarksFrom text depth read := by
  -- induction on the number of tokens: behind a landmark those inside it are left out
  induction hn : read.length using Nat.strongRecOn generalizing read depth with
  | ind n ih =>
    cases read with
    | nil => rw [landmarksFrom_nil, landmarksFrom_nil]
    | cons t rest =>
      rw [List.length_cons] at hn
      have hmem : ∀ u ∈ rest, u ∈ t :: rest := fun u hu => List.mem_cons_of_mem t hu
      by_cases hl : depth = 0 → t.landmark? text' = none
      · have hl' : depth = 0 → t.landmark? text = none :=
          fun hd => hnone t List.mem_cons_self (hl hd)
        rw [landmarksFrom_cons_of_none _ hl] at hsome ⊢
        rw [landmarksFrom_cons_of_none _ hl']
        exact ih rest.length (by omega) (fun u hu => hnone u (hmem u hu))
          (fun u hu => hsome u (hmem u hu)) rfl
      · obtain ⟨rfl, hfound⟩ := Classical.not_imp.mp hl
        obtain ⟨l, hl⟩ := Option.ne_none_iff_exists'.mp hfound
        rw [landmarksFrom_cons_of_landmark? _ hl] at hsome ⊢
        rw [landmarksFrom_cons_of_landmark? _
          (hsome t List.mem_cons_self l List.mem_cons_self hl)]
        have hfilter : ∀ u ∈ rest.filter (fun u => l.stop ≤ u.start), u ∈ t :: rest :=
          fun u hu => hmem u (List.mem_of_mem_filter hu)
        have hlength := List.length_filter_le (fun u => decide (l.stop ≤ u.start)) rest
        congr 1
        exact ih _ (by omega) (fun u hu => hnone u (hfilter u hu))
          (fun u hu m hm => hsome u (hfilter u hu) m (List.mem_cons_of_mem l hm)) rfl

/-- A text with its line ends spelled `\r` has its tokens where they were. -/
theorem tokens_respell_cr (text : Text) : tokens (text.respell .cr) = tokens text := by
  have htokens : tokens (text.respell .cr) =
      (tokens text).map (Token.move (text.respelledOffset .cr)) :=
    @tokensFrom_respell text [] text rfl .cr
  have hmove : Token.move (text.respelledOffset .cr) = id := by
    funext token
    rw [Token.move, Text.respelledOffset_cr]
    rfl
  rw [htokens, hmove, List.map_id]

/-- The text behind a place is respelled. -/
theorem dropBytes?_respell_cr {start : Nat} {behind : Text}
    (h : text.dropBytes? start = some behind) :
    (text.respell .cr).dropBytes? start = some (behind.respell .cr) := by
  obtain ⟨before, rfl, rfl⟩ := Text.dropBytes?_eq_some_iff.mp h
  rw [Text.respell_append, ← Text.byteSize_respell_cr before]
  exact Text.dropBytes?_append _ _

theorem exists_dropBytes?_of_mem_tokens {token : Token} (h : token ∈ tokens text) :
    ∃ behind, text.dropBytes? token.start = some behind := by
  obtain ⟨a, b, ht, hstart⟩ := exists_eq_append_of_mem_tokens h
  refine ⟨token.mark.literal ++ b, ?_⟩
  rw [hstart, ht]
  exact Text.dropBytes?_append a _

/-- A token begins a landmark in the spelling with `\r` if it begins one in the text. -/
theorem Token.landmark?_eq_none_of_respell_cr {token : Token} (h : token ∈ tokens text)
    (hnone : token.landmark? (text.respell .cr) = none) : token.landmark? text = none := by
  obtain ⟨behind, hbehind⟩ := exists_dropBytes?_of_mem_tokens h
  obtain ⟨mark, start⟩ := token
  cases mark with
  | importKeyword =>
    simp only [landmark?, dropBytes?_respell_cr hbehind, hbehind, Option.bind_some,
      Option.map_eq_none_iff, importLength?] at hnone ⊢
    cases hfound : importStatement? behind with
    | none => rfl
    | some statement =>
      have hsome := isSome_importStatement?_respell_cr hfound
      rw [hnone] at hsome
      cases hsome
  | blockOpen | blockClose | commentOpen | commentClose | slash | star | atSign => exact hnone

/-- What begins in the spelling with `\r` begins in the text, if it is no import statement with a
line end in its argument. -/
theorem Token.landmark?_of_respell_cr {token : Token} {l : Landmark} (h : token ∈ tokens text)
    (hl : token.landmark? (text.respell .cr) = some l)
    (hline : ∀ start stop, l = .statement start stop →
      ∃ statement, (text.respell .cr).slice? start stop = some statement ∧ OnOneLine statement) :
    token.landmark? text = some l := by
  obtain ⟨behind, hbehind⟩ := exists_dropBytes?_of_mem_tokens h
  obtain ⟨mark, start⟩ := token
  cases mark with
  | importKeyword =>
    simp only [landmark?, dropBytes?_respell_cr hbehind, hbehind, Option.bind_some,
      importLength?] at hl ⊢
    obtain ⟨length, hlength, rfl⟩ := Option.map_eq_some_iff.mp hl
    obtain ⟨statement, hfound, rfl⟩ := Option.map_eq_some_iff.mp hlength
    obtain ⟨sliced, hslice, hsliced⟩ := hline _ _ rfl
    obtain ⟨after, hafter⟩ := exists_append_of_importStatement? hfound
    have hstatement := Text.slice?_of_dropBytes? (hafter ▸ dropBytes?_respell_cr hbehind)
    obtain rfl : sliced = statement := Option.some.inj (hslice.symm.trans hstatement)
    obtain ⟨original, horiginal, rfl⟩ := importStatement?_of_respell_cr hfound hsliced
    rw [horiginal, Option.map_some, Option.map_some, Text.byteSize_respell_cr]
  | blockOpen | blockClose | commentOpen | commentClose | slash | star | atSign => exact hl

/-- **The landmarks of a text with its line ends spelled `\r`**, where its import statements have
their arguments on one line, are those of the text. -/
theorem landmarks_respell_cr (h : ImportsOnOneLine (text.respell .cr)) :
    landmarks (text.respell .cr) = landmarks text := by
  rw [ImportsOnOneLine, landmarks, tokens_respell_cr] at h
  rw [landmarks, landmarks, tokens_respell_cr]
  apply landmarksFrom_congr
  · intro t ht hnone
    exact Token.landmark?_eq_none_of_respell_cr ht hnone
  · intro t ht l hl hsome
    refine Token.landmark?_of_respell_cr ht hsome ?_
    rintro start stop rfl
    exact h start stop hl

end Landmarks

/-! ## Rules -/

section Rules

variable {text : Text} {id : Address} {rule : Rule} {start stop : Nat}

/-- Line ends are spaces in a selector, in this spelling too. -/
theorem Selector.normalize_respell_cr (selector : Text) :
    normalize (selector.respell .cr) = normalize selector := by
  have hmap : (selector.respell .cr).map unbreak = selector.map unbreak := by
    induction selector with
    | nil => rfl
    | cons c rest ih =>
      by_cases hc : c = '\n'
      · subst hc
        rw [Text.respell_cons_newline, List.map_append, ih]
        rfl
      · rw [Text.respell_cons_of_ne hc, List.map_cons, ih, List.map_cons]
  rw [normalize, hmap, normalize]

/-- A rule is the same in the spelling with `\r`. -/
theorem Rule.Respelled.eq {rule' : Rule} (h : rule.Respelled .cr text rule') : rule' = rule := by
  obtain ⟨hstart, hbodyStart, hstop, hline, name, hname, hname'⟩ := h
  obtain ⟨start, bodyStart, stop, line, selector⟩ := rule
  obtain ⟨start', bodyStart', stop', line', selector'⟩ := rule'
  simp only [Text.respelledOffset_cr] at hstart hbodyStart hstop
  rw [Selector.normalize_respell_cr] at hname'
  simp only at hline hname hname'
  rw [hstart, hbodyStart, hstop, hline, hname', hname]

/-- A rule is completed to the same in the spelling with `\r`. -/
theorem complete_respell_cr (hr : '\r' ∉ text) (hrule : (id, rule) ∈ (scan text).rules) :
    rule.complete (text.respell .cr) = rule.complete text := by
  obtain ⟨before, raw, behind, ht, hstands⟩ := exists_stands_of_mem_scan hrule
  exact (hstands.respelled_complete ht hr (Text.respelledOffset_cr _ _).symm
    (Text.respelledOffset_cr _ _).symm (Text.respelledOffset_cr _ _).symm).eq

/-- **The outline of a text with its line ends spelled `\r`**, where its import statements have
their arguments on one line, is that of the text. -/
theorem parse_respell_cr (hr : '\r' ∉ text) (h : ImportsOnOneLine (text.respell .cr)) :
    parse (text.respell .cr) = parse text := by
  have hscan : (scan (text.respell .cr)).top = (scan text).top := by
    rw [scan_top_eq, scan_top_eq, landmarks_respell_cr h, Text.byteSize_respell_cr]
  have htop : (parse (text.respell .cr)).top = (parse text).top := by
    rw [parse_top_eq, parse_top_eq, hscan]
    refine Forest.map_congr fun rule hrule => ?_
    rw [← Forest.map_snd_entries] at hrule
    obtain ⟨⟨id, _⟩, hentry, rfl⟩ := List.mem_map.mp hrule
    exact complete_respell_cr hr hentry
  exact congrArg RuleTree.mk htop

/-! ## Import statements among the rules -/

/-- An import statement is a heading. -/
theorem exists_mem_headings {ls : List Landmark} (before : List Landmark)
    (h : .statement start stop ∈ ls) :
    ∃ heading ∈ headings before ls, heading.landmark = .statement start stop := by
  induction ls generalizing before with
  | nil => cases h
  | cons l rest ih =>
    rcases List.mem_cons.mp h with rfl | h
    · exact ⟨_, List.mem_cons_self, rfl⟩
    · obtain ⟨heading, hheading, hl⟩ := ih (before ++ [l]) h
      refine ⟨heading, ?_, hl⟩
      cases l with
      | closing brace => exact hheading
      | opening brace | statement start stop => exact List.mem_cons_of_mem _ hheading

/-- There is a rule for every import statement of a text. -/
theorem exists_rule_of_statement (h : .statement start stop ∈ landmarks text) :
    ∃ id rule, (id, rule) ∈ (parse text).rules ∧ rule.IsStatement text ∧ rule.start = start ∧
      rule.stop = stop := by
  obtain ⟨heading, hheading, hl⟩ := exists_mem_headings [] h
  obtain ⟨⟨id, rule⟩, hr, scanned, hbegins, hcomplete⟩ :=
    exists_mem_of_forall₂ (forall₂_headings_parse text) hheading
  have hscanned := hbegins.eq_of_statement hl
  have hstatement : scanned.IsStatement text := hscanned ▸ isStatement_of_mem_landmarks h
  have hstart : (scanned.complete text).start = scanned.start := hstatement.readPrelude_start_eq
  obtain rfl : rule = scanned.complete text := hcomplete
  refine ⟨id, _, hr, hstatement.complete, ?_, ?_⟩
  · rw [hstart, hscanned]
  · rw [hscanned]
    rfl

/-- An import statement stands between its offsets. -/
theorem Rule.IsStatement.exists_statement (h : rule.IsStatement text) :
    ∃ behind statement, text.dropBytes? rule.start = some behind ∧
      importStatement? behind = some statement ∧
      text.slice? rule.start rule.stop = some statement := by
  obtain ⟨behind, hbehind, hlength⟩ := Option.bind_eq_some_iff.mp h.1
  obtain ⟨statement, hfound, hsize⟩ := Option.map_eq_some_iff.mp hlength
  obtain ⟨after, hafter⟩ := exists_append_of_importStatement? hfound
  have hslice := Text.slice?_of_dropBytes? (hafter ▸ hbehind)
  have hpos := byteSize_of_importStatement? hfound
  rw [hsize, Nat.add_sub_cancel' (by omega)] at hslice
  exact ⟨behind, statement, hbehind, hfound, hslice⟩

/-- The body of an import statement begins with a blank or with `url(`, and not with a brace. -/
theorem Rule.IsStatement.slice?_bodyStart_ne (h : rule.IsStatement text) :
    text.slice? rule.bodyStart (rule.bodyStart + 1) ≠ some ['{'] := by
  intro hbrace
  obtain ⟨behind, statement, hbehind, hfound, -⟩ := h.exists_statement
  obtain ⟨blanks, argument, -, rfl, hblanks, -, -⟩ := importStatement?_eq_some_iff.mp hfound
  obtain ⟨before, rfl, hbefore⟩ := Text.dropBytes?_eq_some_iff.mp hbehind
  obtain ⟨after, hafter⟩ := Text.dropBytes?_of_slice? hbrace
  have hbody := Text.dropBytes?_append (before ++ Mark.importKeyword.literal)
    (blanks ++ (urlOpen ++ argument))
  rw [List.append_assoc, Text.byteSize_append, hbefore] at hbody
  rw [h.2] at hafter
  have heq := Option.some.inj (hafter.symm.trans hbody)
  cases blanks with
  | nil =>
    obtain ⟨hhead, -⟩ := List.cons.inj heq
    exact absurd hhead (by decide)
  | cons c blanks =>
    obtain ⟨rfl, -⟩ := List.cons.inj heq
    exact absurd (hblanks _ List.mem_cons_self) (by decide)

/-- An import statement that is one in both spellings has its argument on one line. -/
theorem importsOnOneLine_of_parse_eq (hr : '\r' ∉ text)
    (h : parse (text.respell .cr) = parse text) : ImportsOnOneLine (text.respell .cr) := by
  intro start stop hl
  obtain ⟨id, rule, hrule, hstatement, rfl, rfl⟩ := exists_rule_of_statement hl
  rw [h] at hrule
  rcases (fits_of_mem_parse hrule).block_or_statement with hblock | horiginal
  · have hbrace := Text.slice?_respell hblock.1 .cr
    rw [Text.respelledOffset_cr, Text.respelledOffset_cr] at hbrace
    exact absurd hbrace hstatement.slice?_bodyStart_ne
  · obtain ⟨behind, statement, hbehind, hfound, hslice⟩ := horiginal.exists_statement
    have hslice' := Text.slice?_respell hslice .cr
    rw [Text.respelledOffset_cr, Text.respelledOffset_cr] at hslice'
    obtain ⟨before, rfl, -⟩ := Text.dropBytes?_eq_some_iff.mp hbehind
    have hbehind' : '\r' ∉ behind := fun hmem => hr (List.mem_append_right before hmem)
    exact ⟨_, hslice', onOneLine_respell_cr hbehind' hfound⟩

/-- **When the outline of a text with its line ends spelled `\r` is the same.** A text without `\r`
has the same rules at the same addresses, with the same offsets, lines and selectors, exactly if
no import statement of the respelled text has a line end in its argument: a `\r` does not end the
line of an argument. -/
theorem parse_respell_cr_iff (hr : '\r' ∉ text) :
    parse (text.respell .cr) = parse text ↔ ImportsOnOneLine (text.respell .cr) :=
  ⟨importsOnOneLine_of_parse_eq hr, parse_respell_cr hr⟩

/-- A line end behind the keyword of an import statement is not in its argument. -/
theorem parse_respell_cr_iff_import :
    let text : Text := ['@', 'i', 'm', 'p', 'o', 'r', 't', '\n', 'u', 'r', 'l', '(', 'a', ')']
    '\r' ∉ text ∧ ImportsOnOneLine (text.respell .cr) := by
  intro text
  have hr : '\r' ∉ text := by decide
  exact ⟨hr, (parse_respell_cr_iff hr).mp (by decide +kernel)⟩

/-- An import statement that is one only if the line end in its argument is spelled `\r`. -/
theorem parse_respell_cr_broken_argument :
    let text : Text := ['@', 'i', 'm', 'p', 'o', 'r', 't', ' ', 'u', 'r', 'l', '(', 'a', '\n', 'b',
      ')', ';']
    '\r' ∉ text ∧ (parse text).size = 0 ∧ (parse (text.respell .cr)).size = 1 := by
  decide +kernel

end Rules

end CssOutline
