import CssOutline.Proofs.Forest.Levels
import CssOutline.Proofs.Lookup
import CssOutline.Proofs.Outline.Stages
import CssOutline.Proofs.Selector.NormalForm
import CssOutline.View.Listing

/-!
# Reading a listing back

A listing is plain text: nothing in a selector is escaped, and a selector may look like the end of a
line. Still, a line can be read back from its end. The numbers there are whole runs of digits, and
what stands between them is fixed. What is left is the selector behind its indentation, and the
selectors of an outline begin with no blank. They have no line breaks either, so the listing has one
line for each rule. The depths of the rules in document order then give the shape of the outline.

## Main definitions

* `Rule.Legible`: a rule whose line can be read back
* `Rule.shown`: what the listing shows of a rule

## Main results

* `Rule.listing_injective`: a line is read back in one way
* `RuleTree.splitOn_listing`: the lines of a listing
* `RuleTree.alike_of_listing_eq`: listings that are the same come from outlines of one shape
* `listing_parse_eq_iff`: what can be read off the listing of an outline
-/

namespace CssOutline

/-- What the listing shows of a rule: all but where its body starts. -/
def Rule.shown (rule : Rule) : Rule := { rule with bodyStart := 0 }

/-- A rule whose selector and line are known, and whose selector neither begins with a space nor has
a `\n` in it. -/
def Rule.Legible (rule : Rule) : Prop :=
  ∃ selector line, rule.selector = some selector ∧ rule.line = some line ∧
    selector.head? ≠ some ' ' ∧ '\n' ∉ selector

/-- Lists that agree item by item in one respect agree in every other that it settles. -/
theorem map_eq_map_of_map_eq_map {α β γ : Type} {F : α → β} {G : α → γ} {l l' : List α}
    (h : l.map F = l'.map F) (hFG : ∀ x ∈ l, ∀ y ∈ l', F x = F y → G x = G y) :
    l.map G = l'.map G := by
  induction l generalizing l' with
  | nil =>
    rw [List.map_nil, eq_comm, List.map_eq_nil_iff] at h
    rw [h]
  | cons x l ih =>
    cases l' with
    | nil => cases h
    | cons y l' =>
      obtain ⟨hhead, htail⟩ := List.cons.inj h
      have hrest := ih htail fun a ha b hb =>
        hFG a (List.mem_cons_of_mem x ha) b (List.mem_cons_of_mem y hb)
      rw [List.map_cons, List.map_cons, hrest,
        hFG x List.mem_cons_self y List.mem_cons_self hhead]

/-! ## Reading a line back -/

/-- A number at the end of a text is a whole run of digits. -/
theorem append_decimal_injective {front front' separator : Text} {m n : Nat}
    (h : front ++ separator ++ decimal m = front' ++ separator ++ decimal n)
    (hseparator : ∃ c ∈ separator.getLast?, c.isDigit = false) : front = front' ∧ m = n := by
  obtain ⟨c, hc, hdigit⟩ := hseparator
  have hdigits : ∀ k : Nat, ∀ d ∈ (decimal k).reverse, Char.isDigit d := fun k d hd =>
    isDigit_of_mem_decimal (List.mem_reverse.mp hd)
  have hbefore : ∀ front : Text, ∀ d ∈ (front ++ separator).reverse.head?,
      d.isDigit = false := by
    intro front d hd
    rw [List.head?_reverse, List.getLast?_append, hc, Option.some_or] at hd
    obtain rfl := Option.some.inj hd
    exact hdigit
  have hreverse : (decimal m).reverse ++ (front ++ separator).reverse =
      (decimal n).reverse ++ (front' ++ separator).reverse := by
    rw [← List.reverse_append, ← List.reverse_append, h]
  obtain ⟨hnumber, hrest⟩ := append_inj_of_forall hreverse (hdigits m) (hdigits n)
    (hbefore front) (hbefore front')
  refine ⟨?_, decimal_injective (List.reverse_injective hnumber)⟩
  exact List.append_cancel_right (List.reverse_injective hrest)

/-- A selector that begins with no space is told from its indentation. -/
theorem indented_injective {selector selector' : Text} {m n : Nat}
    (h : List.replicate (2 * m) ' ' ++ selector = List.replicate (2 * n) ' ' ++ selector')
    (hselector : selector.head? ≠ some ' ') (hselector' : selector'.head? ≠ some ' ') :
    m = n ∧ selector = selector' := by
  have hspaces : ∀ k : Nat, ∀ c ∈ List.replicate k ' ', (c == ' ') := fun k c hc => by
    rw [(List.mem_replicate.mp hc).2]
    rfl
  have hrest : ∀ text : Text, text.head? ≠ some ' ' → ∀ c ∈ text.head?, (c == ' ') = false := by
    intro text htext c hc
    refine beq_false_of_ne ?_
    rintro rfl
    exact htext hc
  obtain ⟨hindent, hsame⟩ := append_inj_of_forall h (hspaces _) (hspaces _)
    (hrest selector hselector) (hrest selector' hselector')
  have hlength := congrArg List.length hindent
  rw [List.length_replicate, List.length_replicate] at hlength
  exact ⟨by omega, hsame⟩

namespace Rule

variable {rule rule' : Rule} {depth depth' : Nat}

/-- **A line is read back in one way**: it tells the depth of the rule and what it shows of it. -/
theorem listing_injective (hrule : rule.Legible) (hrule' : rule'.Legible)
    (h : rule.listing depth = rule'.listing depth') :
    depth = depth' ∧ rule.shown = rule'.shown := by
  obtain ⟨selector, line, hselector, hline, hhead, -⟩ := hrule
  obtain ⟨selector', line', hselector', hline', hhead', -⟩ := hrule'
  rw [listing, listing, hselector, hselector', hline, hline'] at h
  simp only [Option.getD_some, Option.map_some] at h
  obtain ⟨hfront, hstop⟩ :=
    append_decimal_injective (List.append_cancel_right h) ⟨'.', rfl, rfl⟩
  obtain ⟨hfront, hstart⟩ := append_decimal_injective hfront ⟨'[', rfl, rfl⟩
  obtain ⟨hindented, rfl⟩ := append_decimal_injective hfront ⟨' ', rfl, rfl⟩
  obtain ⟨rfl, rfl⟩ := indented_injective hindented hhead hhead'
  refine ⟨rfl, ?_⟩
  rw [shown, shown, hselector, hselector', hline, hline', hstart, hstop]

/-- A line is one line. -/
theorem newline_notMem_listing (h : rule.Legible) : '\n' ∉ rule.listing depth := by
  obtain ⟨selector, line, hselector, hline, -, hnewline⟩ := h
  have hdecimal : ∀ n, '\n' ∉ decimal n := fun n hmem =>
    absurd (isDigit_of_mem_decimal hmem) (by decide)
  rw [listing, hselector, hline]
  simp [hnewline, hdecimal]

theorem listing_ne_nil (depth : Nat) (rule : Rule) : rule.listing depth ≠ [] := by
  simp [listing]

end Rule

/-! ## Reading a listing back -/

namespace RuleTree

variable {tree tree' : RuleTree}

/-- The lines are those of the rules in document order, at their depths. -/
theorem listingLines_eq (tree : RuleTree) :
    tree.listingLines = (tree.top.levels 0).map fun entry => entry.2.listing entry.1 := by
  rw [← map_depth_rules, List.map_map]
  rfl

theorem length_listingLines (tree : RuleTree) : tree.listingLines.length = tree.size := by
  rw [listingLines, List.length_map, length_rules]

/-- **The lines of a listing.** A tree without rules has an empty listing. -/
theorem splitOn_listing (h : ∀ entry ∈ tree.rules, entry.2.Legible) :
    tree.listing.splitOn '\n' = if tree.isEmpty then [[]] else tree.listingLines := by
  have hlength := tree.length_listingLines
  rw [listing, isEmpty]
  split
  · next hempty =>
    rw [eq_of_beq hempty, List.length_eq_zero_iff] at hlength
    rw [hlength]
    rfl
  · next hsome =>
    refine List.splitOn_intercalate '\n' (fun line hline => ?_) fun hnil => hsome ?_
    · obtain ⟨entry, hentry, rfl⟩ := List.mem_map.mp hline
      exact Rule.newline_notMem_listing (h entry hentry)
    · rw [hnil] at hlength
      exact beq_of_eq hlength.symm

/-- Listings that are the same have the same lines. -/
theorem listingLines_eq_of_listing_eq (h : ∀ entry ∈ tree.rules, entry.2.Legible)
    (h' : ∀ entry ∈ tree'.rules, entry.2.Legible) (heq : tree.listing = tree'.listing) :
    tree.listingLines = tree'.listingLines := by
  have hnil : ∀ tree : RuleTree, tree.isEmpty → tree.listingLines = [] := by
    intro tree hempty
    rw [← List.length_eq_zero_iff, length_listingLines]
    exact eq_of_beq hempty
  have hne : ∀ tree : RuleTree, [[]] ≠ tree.listingLines := by
    intro tree hlines
    have hmem : [] ∈ tree.listingLines := hlines ▸ List.mem_cons_self
    obtain ⟨entry, -, hentry⟩ := List.mem_map.mp hmem
    exact Rule.listing_ne_nil _ _ hentry
  have hsplit := congrArg (List.splitOn '\n') heq
  rw [splitOn_listing h, splitOn_listing h'] at hsplit
  split at hsplit
  · next hempty =>
    split at hsplit
    · next hempty' => rw [hnil tree hempty, hnil tree' hempty']
    · exact absurd hsplit (hne tree')
  · split at hsplit
    · exact absurd hsplit.symm (hne tree)
    · exact hsplit

/-- **Listings that are the same come from outlines of one shape**, and show the same of the rules
at the same places. -/
theorem alike_of_listing_eq (h : ∀ entry ∈ tree.rules, entry.2.Legible)
    (h' : ∀ entry ∈ tree'.rules, entry.2.Legible) (heq : tree.listing = tree'.listing) :
    tree.top.Alike (fun rule rule' => rule.shown = rule'.shown) tree'.top := by
  have hlines := listingLines_eq_of_listing_eq h h' heq
  rw [listingLines_eq, listingLines_eq] at hlines
  have hlegible : ∀ tree : RuleTree, (∀ entry ∈ tree.rules, entry.2.Legible) →
      ∀ entry ∈ tree.top.levels 0, entry.2.Legible := by
    intro tree htree entry hentry
    rw [← map_depth_rules] at hentry
    obtain ⟨placed, hplaced, rfl⟩ := List.mem_map.mp hentry
    exact htree placed hplaced
  have hlevels : (tree.top.levels 0).map (fun entry => (entry.1, entry.2.shown)) =
      (tree'.top.levels 0).map fun entry => (entry.1, entry.2.shown) := by
    refine map_eq_map_of_map_eq_map hlines fun entry hentry entry' hentry' hline => ?_
    obtain ⟨hdepth, hshown⟩ := Rule.listing_injective (hlegible tree h entry hentry)
      (hlegible tree' h' entry' hentry') hline
    rw [hdepth, hshown]
  rw [← Forest.levels_map, ← Forest.levels_map] at hlevels
  -- the depths in document order give the shape
  exact Forest.alike_of_map_eq_map (Forest.levels_injective hlevels)

end RuleTree

/-! ## Listings of outlines -/

/-- The rules of an outline are legible: their selectors are normal. -/
theorem legible_of_mem_parse {text : Text} {id : Address} {rule : Rule}
    (hr : (id, rule) ∈ (parse text).rules) : rule.Legible := by
  refine ⟨_, _, (prelude_of_mem_parse hr).2, line_eq_lineOf_of_mem_parse hr, fun hhead => ?_,
    fun hnewline => ?_⟩
  · exact absurd ((Selector.isNormal_normalize _).head _ hhead) (by decide)
  · exact (Selector.isNormal_normalize _).unbroken.1 hnewline

/-- **What can be read off the listing of an outline.** The outlines of two texts have the same
listing exactly if they have as many rules, these are at the same places, and rule by rule in
document order they have the same depths, selectors, lines, starts and stops. The listing of an
outline with rules has one line for each of them. -/
theorem listing_parse_eq_iff :
    (∀ a b : Text, (parse a).listing = (parse b).listing ↔
      (parse a).size = (parse b).size ∧
      (parse a).SamePlaces (parse b) ∧
      List.Forall₂ (fun entry entry' => entry'.1 = entry.1 ∧
          (parse b).depth entry'.1 = (parse a).depth entry.1 ∧
          entry'.2.selector = entry.2.selector ∧ entry'.2.line = entry.2.line ∧
          entry'.2.start = entry.2.start ∧ entry'.2.stop = entry.2.stop)
        (parse a).rules (parse b).rules) ∧
    ∀ text, (parse text).isEmpty = false →
      ((parse text).listing.splitOn '\n').length = (parse text).size := by
  have hlegible : ∀ text, ∀ entry ∈ (parse text).rules, entry.2.Legible := fun _ _ hr =>
    legible_of_mem_parse hr
  refine ⟨fun a b => ⟨fun h => ?_, fun h => ?_⟩, fun text hsome => ?_⟩
  · have halike := RuleTree.alike_of_listing_eq (hlegible a) (hlegible b) h
    refine ⟨halike.size_eq, ⟨fun id => ?_, fun id => ?_, rfl⟩, halike.forall₂_entries.imp ?_⟩
    · exact (RuleTree.children_eq_of_alike halike id).symm
    · exact (RuleTree.parent?_eq_of_alike halike id).symm
    · rintro ⟨id, rule⟩ ⟨id', rule'⟩ ⟨hid, hshown⟩
      obtain rfl : id = id' := hid
      refine ⟨rfl, (RuleTree.depth_eq_of_alike halike id).symm, ?_, ?_, ?_, ?_⟩
      · exact (congrArg Rule.selector hshown).symm
      · exact (congrArg Rule.line hshown).symm
      · exact (congrArg Rule.start hshown).symm
      · exact (congrArg Rule.stop hshown).symm
  · have hlines : (parse a).listingLines = (parse b).listingLines := by
      rw [← List.forall₂_eq_eq_eq, RuleTree.listingLines, RuleTree.listingLines,
        List.forall₂_map_left_iff, List.forall₂_map_right_iff]
      refine h.2.2.imp ?_
      rintro ⟨id, rule⟩ ⟨id', rule'⟩ ⟨-, hdepth, hselector, hline, hstart, hstop⟩
      simp only [Rule.listing] at *
      rw [hdepth, hselector, hline, hstart, hstop]
    rw [RuleTree.listing, RuleTree.listing, hlines]
  · rw [RuleTree.splitOn_listing (hlegible text), hsome, if_neg Bool.false_ne_true,
      RuleTree.length_listingLines]

/-- Two texts with the same listing: where the body starts is not shown. -/
theorem listing_parse_eq_apart :
    let a : Text := ['b', ' ', '{', '}']
    let b : Text := ['b', '{', ' ', '}']
    (parse a).listing = (parse b).listing ∧ parse a ≠ parse b ∧ (parse a).SamePlaces (parse b) ∧
      ((parse a).listing.splitOn '\n').length = (parse a).size := by
  intro a b
  have hlisting : (parse a).listing = (parse b).listing := by decide
  have hsame := (listing_parse_eq_iff.1 a b).mp hlisting
  exact ⟨hlisting, by decide, hsame.2.1, listing_parse_eq_iff.2 a (by decide)⟩

end CssOutline
