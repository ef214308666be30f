import CssOutline.Proofs.Outline.Completed
import CssOutline.Proofs.Outline.Nesting
import CssOutline.Proofs.Selector

/-!
# Import statements and the parts of blocks

The outline tells import statements from blocks when it is built, but a finished rule is taken for
an import statement by its selector. So a block whose prelude is nothing but the keyword, up to
blanks, passes for one as well. All blocks are made of their prelude, their brace and what stands
behind it, and wherever the selector does not mislead, this is what the parts of a rule give.

## Main definitions

* `Rule.HasBareKeyword`: a rule whose prelude is the keyword of import statements

## Main results

* `forall₂_headings_parse`: the rules of the full outline by the landmarks that begin them
* `isImport_iff`: which rules are taken for import statements
* `parts_of_headings`: import statements and blocks, and their parts
-/

namespace CssOutline

/-- A rule whose prelude is the keyword of import statements, with nothing but blanks behind it. -/
def Rule.HasBareKeyword (text : Text) (rule : Rule) : Prop :=
  ∃ blanks, rule.prelude text = Mark.importKeyword.literal ++ blanks ∧
    ∀ c ∈ blanks, Text.isBlank c

section Parts

variable {text : Text} {id : Address} {rule : Rule}

theorem mem_landmarks_of_mem_headings {ls : List Landmark} {heading : Heading}
    (h : heading ∈ headings [] ls) : heading.landmark ∈ ls := by
  have hls : ls = heading.before ++ heading.landmark :: heading.after := eq_of_mem_headings h
  rw [hls]
  exact List.mem_append_right _ List.mem_cons_self

/-- The rule that begins at an import statement. -/
theorem Heading.Begins.eq_of_statement {size start stop : Nat} {heading : Heading}
    (h : heading.Begins size rule) (hl : heading.landmark = .statement start stop) :
    rule = { start, bodyStart := start + Mark.importKeyword.byteSize, stop } := by
  cases h with
  | statement =>
    obtain ⟨rfl, rfl⟩ := Landmark.statement.inj hl
    rfl
  | closedBlock | openBlock => cases hl

/-- The body of a block begins at its brace. -/
theorem Heading.Begins.bodyStart_eq_of_opening {size brace : Nat} {heading : Heading}
    (h : heading.Begins size rule) (hl : heading.landmark = .opening brace) :
    rule.bodyStart = brace := by
  cases h with
  | statement => cases hl
  | closedBlock | openBlock => exact Landmark.opening.inj hl

/-- Each rule of the full outline is completed from the one that begins at its heading. -/
theorem forall₂_headings_parse (text : Text) :
    List.Forall₂
      (fun heading (entry : Address × Rule) =>
        ∃ scanned, heading.Begins text.byteSize scanned ∧ entry.2 = scanned.complete text)
      (headings [] (landmarks text)) (parse text).rules := by
  have hrules : (parse text).rules =
      (scan text).rules.map fun entry => (entry.1, entry.2.complete text) := by
    rw [RuleTree.rules, parse_top_eq]
    exact Forest.entries_map _ _
  rw [hrules, List.forall₂_map_right_iff, scan_eq_outlineOf]
  exact (forall₂_headings_rules text.byteSize (landmarks text)).imp
    fun _ entry h => ⟨entry.2, h.2, rfl⟩

/-- A word is all that trimming leaves of a stripped prelude if nothing but blanks stand behind it:
in front of it there are none. -/
theorem Prelude.trim_strip_eq_iff {raw word : Text} (hword : Text.trim Text.isBlank word = word) :
    Text.trim Text.isBlank (strip raw) = word ↔
      ∃ blanks, strip raw = word ++ blanks ∧ ∀ c ∈ blanks, Text.isBlank c := by
  constructor
  · intro htrim
    obtain ⟨front, back, hs, hfront, hback⟩ := Text.exists_trim Text.isBlank (strip raw)
    have hnil : front = [] := by
      cases front with
      | nil => rfl
      | cons c front =>
        have hc := (stops_strip raw).head c (by rw [hs]; rfl)
        rw [hfront c List.mem_cons_self] at hc
        cases hc
    rw [hnil, List.nil_append, htrim] at hs
    exact ⟨back, hs, hback⟩
  · rintro ⟨blanks, hs, hblanks⟩
    have hnone : ∀ c ∈ ([] : Text), Text.isBlank c := fun c hc => absurd hc List.not_mem_nil
    have htrim := Text.trim_append hnone hblanks word
    rwa [List.nil_append, ← hs, hword] at htrim

/-- **The rules that are taken for import statements** are those whose prelude is the keyword. -/
theorem isImport_iff (hr : (id, rule) ∈ (parse text).rules) :
    rule.isImport ↔ rule.HasBareKeyword text := by
  obtain ⟨raw, hslice, hselector⟩ := exists_prelude_of_mem_parse hr
  have hprelude : rule.prelude text = Prelude.strip raw := by
    rw [Rule.prelude, hslice, Option.getD_some]
  rw [Rule.isImport, hselector, beq_iff_eq, Option.some.injEq, Rule.HasBareKeyword, hprelude,
    Selector.normalize_eq_iff (by decide) (by decide) (by decide)]
  exact Prelude.trim_strip_eq_iff (by decide)

/-- An import statement is still one when it is completed. -/
theorem Rule.IsStatement.complete (h : rule.IsStatement text) :
    (rule.complete text).IsStatement text := by
  have hstart : (rule.complete text).start = rule.start := h.readPrelude_start_eq
  exact ⟨by rw [hstart]; exact h.1, by rw [hstart]; exact h.2⟩

/-- **A block is made of its prelude, its brace and the text behind that.** -/
theorem exists_text?_of_block (hr : (id, rule) ∈ (parse text).rules)
    (hbrace : text.slice? rule.bodyStart (rule.bodyStart + 1) = some ['{']) :
    ∃ inside, text.slice? (rule.bodyStart + 1) rule.stop = some inside ∧
      rule.text? text = some (rule.prelude text ++ '{' :: inside) := by
  have hnested := RuleTree.wellNested_of_nested (nested_parse text) fun _ => fits_of_mem_parse
  have hbehind : (text.slice? (rule.bodyStart + 1) rule.stop).isSome :=
    Text.isSome_slice?_iff.mpr ⟨(hnested.liesIn _ hr).bodyStart_lt,
      (Text.IsBoundary.of_slice? hbrace).2, (fits_of_mem_parse hr).isBoundary_stop⟩
  obtain ⟨inside, hinside⟩ := Option.isSome_iff_exists.mp hbehind
  have hprelude := (prelude_of_mem_parse hr).1
  refine ⟨inside, hinside, ?_⟩
  exact Text.slice?_append hprelude (Text.slice?_append hbrace hinside)

/-- **Import statements and blocks, and their parts.** Every import statement of a text is taken for
one and has no body. A block is taken for an import statement exactly if its prelude is the keyword,
with nothing but blanks behind it. Every block is its prelude, an opening brace and the text inside,
and this text is its body unless it is taken for an import statement. -/
theorem parts_of_headings (text : Text) :
    List.Forall₂
      (fun heading (entry : Address × Rule) =>
        (∀ start stop, heading.landmark = .statement start stop →
          entry.2.isImport ∧ entry.2.body text = []) ∧
        ∀ brace, heading.landmark = .opening brace →
          (entry.2.isImport ↔ entry.2.HasBareKeyword text) ∧
          ∃ inside, text.slice? (entry.2.bodyStart + 1) entry.2.stop = some inside ∧
            entry.2.text? text = some (entry.2.prelude text ++ '{' :: inside) ∧
            entry.2.body text = if entry.2.isImport then [] else inside)
      (headings [] (landmarks text)) (parse text).rules := by
  have hrules := forall₂_headings_parse text
  refine List.forall₂_iff_zip.mpr ⟨hrules.length_eq, fun {heading entry} hz => ?_⟩
  obtain ⟨hheading, hr⟩ := List.of_mem_zip hz
  have hland := mem_landmarks_of_mem_headings hheading
  obtain ⟨scanned, hbegins, hcomplete⟩ := List.forall₂_zip hrules hz
  constructor
  · intro start stop hl
    have hstatement : scanned.IsStatement text :=
      hbegins.eq_of_statement hl ▸ isStatement_of_mem_landmarks (hl ▸ hland)
    have himport : entry.2.isImport := by
      rw [isImport_iff hr]
      refine ⟨[], ?_, fun c hc => absurd hc List.not_mem_nil⟩
      rw [hcomplete, hstatement.complete.prelude_eq, List.append_nil]
    exact ⟨himport, by rw [Rule.body, if_pos himport]⟩
  · intro brace hl
    have hbodyStart : entry.2.bodyStart = brace := by
      rw [hcomplete]
      exact hbegins.bodyStart_eq_of_opening hl
    have hbrace : text.slice? entry.2.bodyStart (entry.2.bodyStart + 1) = some ['{'] := by
      rw [hbodyStart]
      exact slice?_of_opening (hl ▸ hland)
    obtain ⟨inside, hinside, htext⟩ := exists_text?_of_block hr hbrace
    exact ⟨isImport_iff hr, inside, hinside, htext, by rw [Rule.body, hinside, Option.getD_some]⟩

/-- A block that passes for an import statement: it has a brace and text behind it, and no import
statement starts there, but it is given no body. -/
theorem bare_keyword_block :
    let text : Text := ['@', 'i', 'm', 'p', 'o', 'r', 't', '{', 'a', '}']
    ∃ rule, (parse text).rules = [([0], rule)] ∧ rule.isImport ∧
      (text.dropBytes? rule.start).bind importLength? = none ∧
      text.slice? rule.bodyStart (rule.bodyStart + 1) = some ['{'] ∧
      rule.text? text ≠ some (rule.prelude text ++ '{' :: rule.body text) := by
  intro text
  exact ⟨⟨0, 7, 9, some 1, some Rule.importSelector⟩, by decide⟩

end Parts

end CssOutline
