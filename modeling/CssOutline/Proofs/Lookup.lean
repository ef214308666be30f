import CssOutline.Proofs.Selector
import CssOutline.Proofs.Outline.Lines

/-!
# Looking rules up by selector

A query finds the rules in no block whose selector is the normal form of the query. Rules are named
after their preludes, and a normal selector is its own normal form; so a selector read off a rule,
and the prelude written in the text, both lead back to the rule. The rules found are in the order of
the text, so their lines do not fall, and the last one stands in for those past the end.

## Main definitions

* `RuleTree.named`: the rules right inside a rule that have a given selector
* `RuleTree.Lists`: a list of all rules in no block that have a given selector

## Main results

* `Stylesheet.lineFor?_eq`: the line for a query is that of one of the rules found
* `lists_named_parse`: the rules found are listed in the order of the text
* `lineFor?_isSome`, `lineFor?_mono`: the lines for a query
* `lookup_round_trip`: rules are found by their selectors and their preludes
-/

namespace CssOutline

/-- An item of a list that satisfies a condition stands, among those that do, behind as many as
there are in front of it. -/
theorem getElem?_filter_countP_take {α : Type} {p : α → Bool} {l : List α} {i : Nat} {a : α}
    (h : l[i]? = some a) (hp : p a) : (l.filter p)[(l.take i).countP p]? = some a := by
  obtain ⟨hi, rfl⟩ := List.getElem?_eq_some_iff.mp h
  have hfilter : l.filter p = (l.take i).filter p ++ l[i] :: (l.drop (i + 1)).filter p := by
    rw [← List.filter_cons_of_pos hp, ← List.drop_eq_getElem_cons hi, ← List.filter_append,
      List.take_append_drop]
  rw [hfilter, List.countP_eq_length_filter, List.getElem?_append_right le_rfl, Nat.sub_self,
    List.getElem?_cons_zero]

namespace RuleTree

/-- The rules right inside a rule that have a given selector, in document order. -/
def named (tree : RuleTree) (id : Address) (selector : Text) : List Address :=
  (tree.children id).filter fun child => tree.selector? child == some selector

/-- The given rules are all those in no block that have a given selector, in the order in which
they start. -/
structure Lists (tree : RuleTree) (selector : Text) (found : List Address) : Prop where
  mem_iff : ∀ id, id ∈ found ↔ id ∈ tree.children root ∧ tree.selector? id = some selector
  increasing : found.Pairwise fun x y => ∀ earlier later,
    tree.get? x = some earlier → tree.get? y = some later → earlier.start < later.start

variable {tree : RuleTree} {id child : Address} {selector : Text}

theorem find?_eq (tree : RuleTree) (id : Address) (query : Text) :
    tree.find? id query =
      if (tree.named id (Selector.normalize query)).isEmpty then none
      else some (tree.named id (Selector.normalize query)) := rfl

theorem mem_named_iff :
    child ∈ tree.named id selector ↔
      child ∈ tree.children id ∧ tree.selector? child = some selector := by
  rw [named, List.mem_filter, beq_iff_eq]

/-- There is a rule at every address right inside another. -/
theorem mem_rules_of_mem_children {rule : Rule} (h : child ∈ tree.children id)
    (hr : tree.get? child = some rule) : (child, rule) ∈ tree.rules := by
  obtain ⟨_, hmem⟩ := exists_mem_rules_of_mem_children h
  exact mem_rules_iff.mpr ⟨(mem_rules_iff.mp hmem).1, hr⟩

theorem line?_of_mem_rules {rule : Rule} (h : (id, rule) ∈ tree.rules) :
    tree.line? id = rule.line := by
  rw [line?, (mem_rules_iff.mp h).2, Option.bind_some]

theorem selector?_of_mem_rules {rule : Rule} (h : (id, rule) ∈ tree.rules) :
    tree.selector? id = rule.selector := by
  rw [selector?, (mem_rules_iff.mp h).2, Option.bind_some]

end RuleTree

/-- A query that names a rule is answered with all rules that it names. -/
theorem Stylesheet.find?_of_mem_named {sheet : Stylesheet} {query : Text} {id : Address}
    (h : id ∈ sheet.tree.named RuleTree.root (Selector.normalize query)) :
    sheet.find? query = some (sheet.tree.named RuleTree.root (Selector.normalize query)) := by
  rw [find?, RuleTree.find?_eq, List.isEmpty_eq_false_iff.mpr (List.ne_nil_of_mem h)]
  rfl

/-- **The line for a query** is that of the rule found at the given position, or of the last rule
found. -/
theorem Stylesheet.lineFor?_eq (sheet : Stylesheet) (query : Text) (occurrence : Nat) :
    sheet.lineFor? query occurrence =
      (sheet.tree.named RuleTree.root (Selector.normalize query))[min occurrence
        ((sheet.tree.named RuleTree.root (Selector.normalize query)).length - 1)]?.bind
          sheet.tree.line? := by
  rw [lineFor?, find?, RuleTree.find?_eq]
  cases sheet.tree.named RuleTree.root (Selector.normalize query) with
  | nil => rfl
  | cons first others => rfl

/-- A query that names no rule has no line. -/
theorem Stylesheet.lineFor?_of_named_eq_nil {sheet : Stylesheet} {query : Text}
    (h : sheet.tree.named RuleTree.root (Selector.normalize query) = []) (occurrence : Nat) :
    sheet.lineFor? query occurrence = none := by
  rw [lineFor?_eq, h]
  rfl

/-- From the last rule found on the lines stay the same. -/
theorem Stylesheet.lineFor?_of_last_le {sheet : Stylesheet} {query : Text} {last occurrence : Nat}
    (h : (sheet.tree.named RuleTree.root (Selector.normalize query)).length = last + 1)
    (hlast : last ≤ occurrence) : sheet.lineFor? query occurrence = sheet.lineFor? query last := by
  rw [lineFor?_eq, lineFor?_eq, h, Nat.add_sub_cancel, Nat.min_eq_right hlast, Nat.min_self]

/-! ## The rules found in an outline -/

section Parse

variable {text query : Text} {id : Address} {rule : Rule}

/-- The rules in no block start one after another. -/
theorem pairwise_children_parse (text : Text) :
    ((parse text).children RuleTree.root).Pairwise fun x y => ∀ earlier later,
      (parse text).get? x = some earlier → (parse text).get? y = some later →
        earlier.start < later.start := by
  have hnested := RuleTree.wellNested_of_nested (nested_parse text) fun _ => fits_of_mem_parse
  refine (hnested.siblings RuleTree.root).imp_of_mem ?_
  intro x y hx hy hstop earlier later he hl
  have hx := RuleTree.mem_rules_of_mem_children hx he
  have hy := RuleTree.mem_rules_of_mem_children hy hl
  have hlies := hnested.liesIn _ hx
  exact (hlies.start_le.trans_lt hlies.bodyStart_lt).trans_le (hstop earlier later hx hy)

/-- **The rules found are listed in the order of the text.** -/
theorem lists_named_parse (text selector : Text) :
    (parse text).Lists selector ((parse text).named RuleTree.root selector) :=
  ⟨fun _ => RuleTree.mem_named_iff, (pairwise_children_parse text).filter _⟩

/-- The lines of the rules found do not fall. -/
theorem pairwise_line_named_parse (text selector : Text) :
    ((parse text).named RuleTree.root selector).Pairwise fun x y =>
      ∀ line ∈ (parse text).line? x, ∀ line' ∈ (parse text).line? y, line ≤ line' := by
  refine (lists_named_parse text selector).increasing.imp_of_mem ?_
  intro x y hx hy hstart line hline line' hline'
  obtain ⟨earlier, hx⟩ :=
    RuleTree.exists_mem_rules_of_mem_children (RuleTree.mem_named_iff.mp hx).1
  obtain ⟨later, hy⟩ := RuleTree.exists_mem_rules_of_mem_children (RuleTree.mem_named_iff.mp hy).1
  rw [RuleTree.line?_of_mem_rules hx, line_eq_lineOf_of_mem_parse hx] at hline
  rw [RuleTree.line?_of_mem_rules hy, line_eq_lineOf_of_mem_parse hy] at hline'
  obtain rfl := Option.some.inj hline
  obtain rfl := Option.some.inj hline'
  exact LineIndex.lineOf_mono text
    (hstart earlier later (RuleTree.mem_rules_iff.mp hx).2 (RuleTree.mem_rules_iff.mp hy).2).le

/-- A query that finds a rule has a line for every occurrence. -/
theorem lineFor?_isSome
    (h : (parse text).named RuleTree.root (Selector.normalize query) ≠ []) (occurrence : Nat) :
    ((Stylesheet.ofText text).lineFor? query occurrence).isSome := by
  have hpos := List.length_pos_iff.mpr h
  have hlt : min occurrence
      (((parse text).named RuleTree.root (Selector.normalize query)).length - 1) <
      ((parse text).named RuleTree.root (Selector.normalize query)).length := by omega
  rw [Stylesheet.lineFor?_eq, Stylesheet.ofText, List.getElem?_eq_getElem hlt, Option.bind_some]
  obtain ⟨rule, hr⟩ := RuleTree.exists_mem_rules_of_mem_children
    (RuleTree.mem_named_iff.mp (List.getElem_mem hlt)).1
  rw [RuleTree.line?_of_mem_rules hr, line_eq_lineOf_of_mem_parse hr, Option.isSome_some]

/-- Later occurrences are on later lines, or on the same one. -/
theorem lineFor?_mono {m n line line' : Nat} (hmn : m ≤ n)
    (hm : line ∈ (Stylesheet.ofText text).lineFor? query m)
    (hn : line' ∈ (Stylesheet.ofText text).lineFor? query n) : line ≤ line' := by
  rw [Stylesheet.lineFor?_eq, Stylesheet.ofText] at hm hn
  obtain ⟨x, hx, hline⟩ := Option.bind_eq_some_iff.mp hm
  obtain ⟨y, hy, hline'⟩ := Option.bind_eq_some_iff.mp hn
  obtain ⟨hi, rfl⟩ := List.getElem?_eq_some_iff.mp hx
  obtain ⟨hj, rfl⟩ := List.getElem?_eq_some_iff.mp hy
  have hle : min m (((parse text).named RuleTree.root (Selector.normalize query)).length - 1) ≤
      min n (((parse text).named RuleTree.root (Selector.normalize query)).length - 1) := by omega
  rcases hle.eq_or_lt with heq | hlt
  · simp only [heq] at hline
    rw [Option.some.inj (hline.symm.trans hline')]
  · exact List.pairwise_iff_getElem.mp (pairwise_line_named_parse text _) _ _ hi hj hlt
      line hline line' hline'

/-- A rule is on the line for its selector and the number of rules in front of it that have the
same one. -/
theorem lineFor?_of_ruleAt? {index : Nat} {selector : Text}
    (hid : (parse text).ruleAt? index = some id)
    (hselector : (parse text).selector? id = some selector)
    (hquery : Selector.normalize query = selector) :
    (Stylesheet.ofText text).lineFor? query
        ((((parse text).children RuleTree.root).take index).countP fun other =>
          (parse text).selector? other == some selector) =
      (parse text).line? id := by
  have hget : ((parse text).named RuleTree.root selector)[
      (((parse text).children RuleTree.root).take index).countP fun other =>
        (parse text).selector? other == some selector]? = some id :=
    getElem?_filter_countP_take hid (by simpa using hselector)
  have hlt := (List.getElem?_eq_some_iff.mp hget).1
  rw [Stylesheet.lineFor?_eq, hquery, Stylesheet.ofText,
    Nat.min_eq_left (Nat.le_sub_one_of_lt hlt), hget, Option.bind_some]

end Parse

/-- **Rules are found by their selectors and their preludes.** The selector of a rule in no block is
normal, and it is the normal form of the prelude written in the text. Every query with this normal
form finds the rule, with all others in no block that have the same selector and with no further
ones, in the order of the text. The number of those in front of the rule gives its line.

A query that matches no rule has no line. Any other query has a line for every occurrence; the lines
do not fall, and from the last rule found on they stay the same. -/
theorem lookup_round_trip (text : Text) :
    (∀ index id rule, (parse text).ruleAt? index = some id → (parse text).get? id = some rule →
      ∃ selector, rule.selector = some selector ∧ Selector.normalize selector = selector ∧
        (∃ written, text.slice? rule.start rule.bodyStart = some written ∧
          Selector.normalize written = selector) ∧
        ∀ query, Selector.normalize query = selector →
          (∃ found, (Stylesheet.ofText text).find? query = some found ∧ id ∈ found ∧
            (parse text).Lists selector found) ∧
          rule.line.isSome ∧
          (Stylesheet.ofText text).lineFor? query
              ((((parse text).children RuleTree.root).take index).countP fun other =>
                (parse text).selector? other == some selector) = rule.line) ∧
      (∀ query, (∀ id ∈ (parse text).children RuleTree.root,
          (parse text).selector? id ≠ some (Selector.normalize query)) →
        ∀ occurrence, (Stylesheet.ofText text).lineFor? query occurrence = none) ∧
      ∀ query, (∃ id ∈ (parse text).children RuleTree.root,
          (parse text).selector? id = some (Selector.normalize query)) →
        (∀ occurrence, ((Stylesheet.ofText text).lineFor? query occurrence).isSome) ∧
        (∀ m n, m ≤ n → ∀ line ∈ (Stylesheet.ofText text).lineFor? query m,
          ∀ line' ∈ (Stylesheet.ofText text).lineFor? query n, line ≤ line') ∧
        ∃ last, (((parse text).children RuleTree.root).countP fun id =>
            (parse text).selector? id == some (Selector.normalize query)) = last + 1 ∧
          ∀ occurrence, last ≤ occurrence →
            (Stylesheet.ofText text).lineFor? query occurrence =
              (Stylesheet.ofText text).lineFor? query last := by
  refine ⟨?_, ?_, ?_⟩
  · intro index id rule hid hrule
    have hchild := List.mem_of_getElem? hid
    have hr := RuleTree.mem_rules_of_mem_children hchild hrule
    obtain ⟨hslice, hselector⟩ := prelude_of_mem_parse hr
    refine ⟨_, hselector, Selector.normalize_normalize _, ⟨_, hslice, rfl⟩, ?_⟩
    intro query hquery
    have hnamed : (parse text).selector? id = some (Selector.normalize query) := by
      rw [RuleTree.selector?_of_mem_rules hr, hselector, hquery]
    have hmem := RuleTree.mem_named_iff.mpr ⟨hchild, hnamed⟩
    rw [← hquery, ← RuleTree.line?_of_mem_rules hr]
    refine ⟨⟨_, Stylesheet.find?_of_mem_named hmem, hmem, lists_named_parse text _⟩, ?_, ?_⟩
    · rw [RuleTree.line?_of_mem_rules hr, line_eq_lineOf_of_mem_parse hr, Option.isSome_some]
    · exact lineFor?_of_ruleAt? hid hnamed rfl
  · intro query hnone occurrence
    refine Stylesheet.lineFor?_of_named_eq_nil ?_ occurrence
    refine List.eq_nil_iff_forall_not_mem.mpr fun id hid => ?_
    obtain ⟨hchild, hselector⟩ := RuleTree.mem_named_iff.mp hid
    exact hnone id hchild hselector
  · rintro query ⟨id, hchild, hselector⟩
    have hmem := RuleTree.mem_named_iff.mpr ⟨hchild, hselector⟩
    have hpos := List.length_pos_of_mem hmem
    refine ⟨lineFor?_isSome (List.ne_nil_of_mem hmem),
      fun m n hmn line hm line' hn => lineFor?_mono hmn hm hn,
      ((parse text).named RuleTree.root (Selector.normalize query)).length - 1, ?_, ?_⟩
    · rw [Nat.sub_add_cancel hpos, RuleTree.named, List.countP_eq_length_filter]
    · intro occurrence hlast
      exact Stylesheet.lineFor?_of_last_le (Nat.sub_add_cancel hpos).symm hlast

/-- A selector that stands twice in a text, written in two ways. -/
theorem lookup_round_trip_repeated :
    let text : Text := ['a', ',', 'b', '{', '}', '\n', 'a', ' ', ',', '\n', 'b', '{', '}']
    (Stylesheet.ofText text).lineFor? ['a', ' ', ',', 'b'] 1 = some 2 := by
  intro text
  have hid : (parse text).ruleAt? 1 = some [1] := by decide
  have hrule : (parse text).get? [1] = some ⟨6, 11, 12, some 2, some ['a', ',', 'b']⟩ := by decide
  obtain ⟨selector, hselector, -, -, hqueries⟩ := (lookup_round_trip text).1 1 [1] _ hid hrule
  obtain rfl := Option.some.inj hselector
  have hline := (hqueries ['a', ' ', ',', 'b'] (by decide)).2.2
  have hcount : (((parse text).children RuleTree.root).take 1).countP (fun other =>
      (parse text).selector? other == some ['a', ',', 'b']) = 1 := by decide
  rw [hcount] at hline
  exact hline

end CssOutline
