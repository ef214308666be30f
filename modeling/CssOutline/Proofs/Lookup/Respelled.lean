import CssOutline.Proofs.Lookup
import CssOutline.Proofs.Outline.Respelled
import CssOutline.Proofs.Selector.LineBreaks

/-!
# Queries to a text with its line ends spelled `\r\n`

The rules of a text are on the same lines when its line ends are spelled `\r\n`, but a rule may
have another selector then: a line end inside an item of its prelude leaves two spaces in place of
one. So a query finds the same rules in both spellings exactly if those that it finds in either have
no such line end in their preludes, and then it is given the same lines.

## Main definitions

* `FindsApart`: a query for preludes with their line ends at the ends of items

## Main results

* `prelude_respell`: the prelude of a rule in another spelling
* `lineFor?_respell_crlf`: the lines for a query in both spellings
-/

namespace CssOutline

/-- In the given text, every rule in no block that a query would find in one of the two spellings of
line ends has them at the ends of the items of its prelude only. -/
def FindsApart (text query : Text) : Prop :=
  ∀ id ∈ (parse text).children RuleTree.root, ∀ rule, (parse text).get? id = some rule →
    Selector.normalize (rule.prelude text) = Selector.normalize query ∨
      Selector.normalize ((rule.prelude text).respell .crlf) = Selector.normalize query →
    Selector.BreaksApart (rule.prelude text)

section Lookup

variable {ending : LineEnding} {text : Text} {id : Address} {rule rule' : Rule}

/-- The prelude of a rule is respelled with the text. -/
theorem prelude_respell (hr : (id, rule) ∈ (parse text).rules)
    (hrule : rule.Respelled ending text rule') :
    rule'.prelude (text.respell ending) = (rule.prelude text).respell ending := by
  have hslice := Text.slice?_respell (prelude_of_mem_parse hr).1 ending
  rw [← hrule.start_eq, ← hrule.bodyStart_eq] at hslice
  rw [Rule.prelude, hslice, Option.getD_some]

theorem alike_parse_respell_crlf (hr : '\r' ∉ text) :
    (parse text).top.Alike (Rule.Respelled .crlf text) (parse (text.respell .crlf)).top :=
  alike_parse_respell hr fun _ b _ => importStatement?_respell b

/-- The rules in no block are at the same addresses, with the same lines, and named after the
respelled preludes. -/
theorem exists_rules_respell_crlf (hr : '\r' ∉ text)
    (hid : id ∈ (parse text).children RuleTree.root) :
    ∃ rule, (parse text).get? id = some rule ∧
      (parse text).selector? id = some (Selector.normalize (rule.prelude text)) ∧
      (parse (text.respell .crlf)).selector? id =
        some (Selector.normalize ((rule.prelude text).respell .crlf)) ∧
      (parse (text.respell .crlf)).line? id = (parse text).line? id := by
  obtain ⟨rule, hrule⟩ := RuleTree.exists_mem_rules_of_mem_children hid
  obtain ⟨rule', hrule', hrespelled⟩ :=
    RuleTree.exists_mem_rules_of_alike (alike_parse_respell_crlf hr) hrule
  refine ⟨rule, (RuleTree.mem_rules_iff.mp hrule).2, ?_, ?_, ?_⟩
  · rw [RuleTree.selector?_of_mem_rules hrule, (prelude_of_mem_parse hrule).2]
  · rw [RuleTree.selector?_of_mem_rules hrule', (prelude_of_mem_parse hrule').2,
      prelude_respell hrule hrespelled]
  · rw [RuleTree.line?_of_mem_rules hrule', hrespelled.line_eq, RuleTree.line?_of_mem_rules hrule]

/-- A rule has the selector of a query in both spellings or in neither, if its prelude has the same
normal form in both or another one than the query in either. -/
theorem selector?_respell_crlf_iff (hr : '\r' ∉ text)
    (hid : id ∈ (parse text).children RuleTree.root) (query : Text) :
    ((parse (text.respell .crlf)).selector? id = some (Selector.normalize query) ↔
        (parse text).selector? id = some (Selector.normalize query)) ↔
      ∀ rule, (parse text).get? id = some rule →
        Selector.normalize (rule.prelude text) = Selector.normalize query ∨
          Selector.normalize ((rule.prelude text).respell .crlf) = Selector.normalize query →
        Selector.BreaksApart (rule.prelude text) := by
  obtain ⟨rule, hrule, hselector, hselector', -⟩ := exists_rules_respell_crlf hr hid
  rw [hrule, hselector, hselector', Option.some.injEq, Option.some.injEq]
  constructor
  · rintro hiff rule' hrule' hfound
    obtain rfl := Option.some.inj hrule'
    rw [← Selector.normalize_respell_crlf_eq_iff]
    rcases hfound with hfound | hfound
    · exact (hiff.mpr hfound).trans hfound.symm
    · exact hfound.trans (hiff.mp hfound).symm
  · intro hfind
    have happart := hfind rule rfl
    rw [← Selector.normalize_respell_crlf_eq_iff] at happart
    constructor
    · intro hfound
      rw [← happart (Or.inr hfound), hfound]
    · intro hfound
      rw [happart (Or.inl hfound), hfound]

/-- A query names the same rules in both spellings exactly if those that it names in either have
their line ends between items. -/
theorem named_respell_crlf_eq_iff (hr : '\r' ∉ text) (query : Text) :
    (parse (text.respell .crlf)).named RuleTree.root (Selector.normalize query) =
        (parse text).named RuleTree.root (Selector.normalize query) ↔ FindsApart text query := by
  have hchildren := RuleTree.children_eq_of_alike (alike_parse_respell_crlf hr) RuleTree.root
  rw [FindsApart, ← forall₂_congr fun id hid => selector?_respell_crlf_iff hr hid query]
  constructor
  · intro h id hid
    have hmem : id ∈ (parse (text.respell .crlf)).named RuleTree.root (Selector.normalize query) ↔
        id ∈ (parse text).named RuleTree.root (Selector.normalize query) := by rw [h]
    rw [RuleTree.mem_named_iff, RuleTree.mem_named_iff, ← hchildren] at hmem
    simpa only [hid, true_and] using hmem
  · intro h
    rw [RuleTree.named, RuleTree.named, ← hchildren]
    refine List.filter_congr fun id hid => ?_
    rw [Bool.eq_iff_iff, beq_iff_eq, beq_iff_eq]
    exact h id hid

/-- Two stylesheets answer a query alike exactly if it names the same rules in both. -/
theorem Stylesheet.find?_eq_find?_iff (sheet sheet' : Stylesheet) (query : Text) :
    sheet.find? query = sheet'.find? query ↔
      sheet.tree.named RuleTree.root (Selector.normalize query) =
        sheet'.tree.named RuleTree.root (Selector.normalize query) := by
  rw [find?, find?, RuleTree.find?_eq, RuleTree.find?_eq]
  cases sheet.tree.named RuleTree.root (Selector.normalize query) <;>
    cases sheet'.tree.named RuleTree.root (Selector.normalize query) <;> simp

/-- **The lines for a query in both spellings of line ends.** In a text without `\r` and in the same
text with its line ends spelled `\r\n`, a query finds the same rules exactly if all rules that it
finds in either have their line ends between the items of their preludes; and then it is given
the same line for every occurrence. -/
theorem lineFor?_respell_crlf (hr : '\r' ∉ text) (query : Text) :
    ((Stylesheet.ofText (text.respell .crlf)).find? query =
        (Stylesheet.ofText text).find? query ↔ FindsApart text query) ∧
      (FindsApart text query → ∀ occurrence,
        (Stylesheet.ofText (text.respell .crlf)).lineFor? query occurrence =
          (Stylesheet.ofText text).lineFor? query occurrence) := by
  refine ⟨?_, fun h occurrence => ?_⟩
  · rw [Stylesheet.find?_eq_find?_iff]
    exact named_respell_crlf_eq_iff hr query
  · rw [Stylesheet.lineFor?_eq, Stylesheet.lineFor?_eq, Stylesheet.ofText, Stylesheet.ofText,
      (named_respell_crlf_eq_iff hr query).mpr h]
    refine Option.bind_congr fun id hid => ?_
    have hchild := (RuleTree.mem_named_iff.mp (List.mem_of_getElem? hid)).1
    obtain ⟨-, -, -, -, hline⟩ := exists_rules_respell_crlf hr hchild
    exact hline

/-- A selector list over two lines. -/
theorem lineFor?_respell_crlf_list :
    let text : Text := ['\n', 'a', ',', '\n', 'b', '\n', '{', '}']
    '\r' ∉ text ∧ FindsApart text ['a', ',', 'b'] ∧
      (Stylesheet.ofText (text.respell .crlf)).lineFor? ['a', ',', 'b'] 0 = some 2 := by
  intro text
  have hr : '\r' ∉ text := by decide
  obtain ⟨hfound, hlines⟩ := lineFor?_respell_crlf hr ['a', ',', 'b']
  have happart : FindsApart text ['a', ',', 'b'] := hfound.mp (by decide)
  exact ⟨hr, happart, (hlines happart 0).trans (by decide)⟩

/-- A selector with a line end inside an item, which is found in one spelling only. -/
theorem lineFor?_respell_crlf_inside :
    let text : Text := ['u', 'l', '\n', 'l', 'i', '{', '}']
    '\r' ∉ text ∧ (Stylesheet.ofText text).lineFor? ['u', 'l', ' ', 'l', 'i'] 0 = some 1 ∧
      (Stylesheet.ofText (text.respell .crlf)).lineFor? ['u', 'l', ' ', 'l', 'i'] 0 = none := by
  decide

end Lookup

end CssOutline
