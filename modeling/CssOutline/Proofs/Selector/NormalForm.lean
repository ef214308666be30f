import CssOutline.Proofs.Selector
import CssOutline.RuleTree

/-!
# Normal forms of selectors

A selector is its own normal form if it has no line breaks, and no blanks at its ends or next to a
comma. This is shown from comma to comma: a list is in normal form where the lists on both sides of
a comma are.

## Main definitions

* `Selector.IsNormal`: a selector in normal form

## Main results

* `Selector.normalize_eq_self_iff`: which selectors are their own normal forms
* `RuleTree.find?_normalize`, `RuleTree.findAll?_normalize`: a query may be normalized before it is
  asked
* `normalize_list_by_list`: normal forms of lists, and queries in normal form
-/

namespace CssOutline

namespace Selector

variable {s t : Text}

/-! ## Selectors in normal form -/

/-- A selector in normal form: it has no line breaks, and no blanks at its ends or next to a
comma. -/
structure IsNormal (selector : Text) : Prop where
  unbroken : '\n' ∉ selector ∧ '\r' ∉ selector
  head : ∀ c ∈ selector.head?, Text.isBlank c = false
  last : ∀ c ∈ selector.getLast?, Text.isBlank c = false
  commas : ∀ before after, selector = before ++ ',' :: after →
    (∀ c ∈ before.getLast?, Text.isBlank c = false) ∧ ∀ c ∈ after.head?, Text.isBlank c = false

/-- What stands in front of a comma begins where the whole selector does. -/
theorem forall_head?_append_comma_iff :
    (∀ c ∈ (s ++ ',' :: t).head?, Text.isBlank c = false) ↔
      ∀ c ∈ s.head?, Text.isBlank c = false := by
  cases s with
  | nil => simp [show Text.isBlank ',' = false by decide]
  | cons c s => exact Iff.rfl

/-- What stands behind a comma ends where the whole selector does. -/
theorem forall_getLast?_append_comma_iff :
    (∀ c ∈ (s ++ ',' :: t).getLast?, Text.isBlank c = false) ↔
      ∀ c ∈ t.getLast?, Text.isBlank c = false := by
  rw [List.getLast?_append, List.getLast?_cons]
  cases t.getLast? with
  | none => simp [show Text.isBlank ',' = false by decide]
  | some c => exact Iff.rfl

/-- **A list is in normal form where the lists on both sides of a comma are.** -/
theorem isNormal_append_comma_iff : IsNormal (s ++ ',' :: t) ↔ IsNormal s ∧ IsNormal t := by
  constructor
  · rintro ⟨⟨hn, hr⟩, hhead, hlast, hcommas⟩
    obtain ⟨hs, ht⟩ := hcommas s t rfl
    have hleft : ∀ c ∈ s, c ∈ s ++ ',' :: t := fun _ => List.mem_append_left _
    have hright : ∀ c ∈ t, c ∈ s ++ ',' :: t := fun c hc =>
      List.mem_append_right s (List.mem_cons_of_mem ',' hc)
    refine ⟨⟨⟨mt (hleft _) hn, mt (hleft _) hr⟩, forall_head?_append_comma_iff.mp hhead, hs, ?_⟩,
      ⟨⟨mt (hright _) hn, mt (hright _) hr⟩, ht, forall_getLast?_append_comma_iff.mp hlast, ?_⟩⟩
    · rintro before after rfl
      obtain ⟨hbefore, hafter⟩ := hcommas before (after ++ ',' :: t) (by simp)
      exact ⟨hbefore, forall_head?_append_comma_iff.mp hafter⟩
    · rintro before after rfl
      obtain ⟨hbefore, hafter⟩ := hcommas (s ++ ',' :: before) after (by simp)
      exact ⟨forall_getLast?_append_comma_iff.mp hbefore, hafter⟩
  · rintro ⟨hs, ht⟩
    refine ⟨⟨?_, ?_⟩, forall_head?_append_comma_iff.mpr hs.head,
      forall_getLast?_append_comma_iff.mpr ht.last, fun before after h => ?_⟩
    · simp [hs.unbroken.1, ht.unbroken.1]
    · simp [hs.unbroken.2, ht.unbroken.2]
    · rcases List.append_eq_append_iff.mp h with
        ⟨_ | ⟨_, middle⟩, rfl, hrest⟩ | ⟨_ | ⟨_, middle⟩, rfl, hrest⟩
      · obtain ⟨-, rfl⟩ := List.cons.inj hrest
        rw [List.append_nil]
        exact ⟨hs.last, ht.head⟩
      · obtain ⟨rfl, rfl⟩ := List.cons.inj hrest
        obtain ⟨hbefore, hafter⟩ := ht.commas middle after rfl
        exact ⟨forall_getLast?_append_comma_iff.mpr hbefore, hafter⟩
      · obtain ⟨-, rfl⟩ := List.cons.inj hrest
        rw [List.append_nil] at hs
        exact ⟨hs.last, ht.head⟩
      · obtain ⟨rfl, rfl⟩ := List.cons.inj hrest
        obtain ⟨hbefore, hafter⟩ := hs.commas before middle rfl
        exact ⟨hbefore, forall_head?_append_comma_iff.mpr hafter⟩

/-- Items are the selectors in normal form that have no commas. -/
theorem isItem_iff : IsItem s ↔ IsNormal s ∧ ',' ∉ s := by
  constructor
  · rintro ⟨htrim, hunbroken, hcomma⟩
    obtain ⟨hhead, hlast⟩ := Text.trim_eq_self_iff.mp htrim
    refine ⟨⟨⟨fun hn => ?_, fun hr => ?_⟩, hhead, hlast, ?_⟩, hcomma⟩
    · exact absurd (hunbroken '\n' hn) (by decide)
    · exact absurd (hunbroken '\r' hr) (by decide)
    · rintro before after rfl
      exact absurd (List.mem_append_right before List.mem_cons_self) hcomma
  · rintro ⟨hs, hcomma⟩
    refine ⟨Text.trim_eq_self_iff.mpr ⟨hs.head, hs.last⟩, fun c hc => ?_, hcomma⟩
    rw [unbreak, if_neg]
    rintro (rfl | rfl)
    · exact hs.unbroken.1 hc
    · exact hs.unbroken.2 hc

/-- A list of items is in normal form. -/
theorem isNormal_intercalate {items : List Text} (hne : items ≠ [])
    (h : ∀ item ∈ items, IsItem item) : IsNormal ([','].intercalate items) := by
  induction items with
  | nil => exact absurd rfl hne
  | cons item items ih =>
    have hitem := (isItem_iff.mp (h item List.mem_cons_self)).1
    cases items with
    | nil => rwa [List.intercalate_singleton]
    | cons next others =>
      rw [List.intercalate_cons_cons, List.append_assoc, List.singleton_append,
        isNormal_append_comma_iff]
      exact ⟨hitem, ih (List.cons_ne_nil _ _) fun item hmem =>
        h item (List.mem_cons_of_mem _ hmem)⟩

theorem isNormal_normalize (s : Text) : IsNormal (normalize s) := by
  obtain ⟨items, hs, hne, hitems⟩ := exists_items s
  rw [hs]
  exact isNormal_intercalate hne hitems

theorem IsItem.normalize_eq (h : IsItem s) : normalize s = s := by
  rw [normalize_of_comma_notMem h.comma_notMem, h.trimmed]
  exact (List.map_congr_left h.unbroken).trans (List.map_id' s)

/-- **Which selectors are their own normal forms**: those in normal form. -/
theorem normalize_eq_self_iff : normalize s = s ↔ IsNormal s := by
  constructor
  · intro h
    rw [← h]
    exact isNormal_normalize s
  · intro h
    induction s using commaInduction with
    | item s hs => exact (isItem_iff.mpr ⟨h, hs⟩).normalize_eq
    | list s t hs ih =>
      obtain ⟨hfirst, hothers⟩ := isNormal_append_comma_iff.mp h
      rw [normalize_append_comma, (isItem_iff.mpr ⟨hfirst, hs⟩).normalize_eq, ih hothers]

end Selector

/-! ## Queries -/

namespace RuleTree

/-- A query finds the same rules when it is normalized before it is asked. -/
theorem find?_normalize (tree : RuleTree) (id : Address) (query : Text) :
    tree.find? id (Selector.normalize query) = tree.find? id query := by
  rw [find?, Selector.normalize_normalize]
  rfl

theorem findAll?_normalize (tree : RuleTree) (query : Text) :
    tree.findAll? (Selector.normalize query) = tree.findAll? query := by
  rw [findAll?, Selector.normalize_normalize]
  rfl

end RuleTree

/-- **Normal forms of lists, and queries in normal form.** Normalizing twice is normalizing once,
and a list is normalized by normalizing what is on both sides of a comma, whichever comma it is.
The whole list is trimmed in front of the split, with its line breaks turned into spaces already,
and the form would be the same if it were not. The selectors that normalizing leaves alone are those
without line breaks and without blanks at their ends or next to a comma. So a query finds the same
rules right inside a rule, and in the whole tree, when it is normalized before it is asked. -/
theorem normalize_list_by_list :
    (∀ s, Selector.normalize (Selector.normalize s) = Selector.normalize s) ∧
    (∀ s t, Selector.normalize (s ++ ',' :: t) =
      Selector.normalize s ++ ',' :: Selector.normalize t) ∧
    (∀ s : Text, Selector.normalize s =
      [','].intercalate (((Text.trim Text.isBlank (s.map Selector.unbreak)).splitOn ',').map
        (Text.trim Text.isBlank))) ∧
    (∀ s : Text, Selector.normalize s =
      [','].intercalate (((s.map Selector.unbreak).splitOn ',').map (Text.trim Text.isBlank))) ∧
    (∀ s, Selector.normalize s = s ↔ Selector.IsNormal s) ∧
    ∀ (tree : RuleTree) query,
      (∀ id, tree.find? id (Selector.normalize query) = tree.find? id query) ∧
        tree.findAll? (Selector.normalize query) = tree.findAll? query := by
  exact ⟨Selector.normalize_normalize, Selector.normalize_append_comma, fun _ => rfl,
    Selector.normalize_eq_intercalate, fun _ => Selector.normalize_eq_self_iff, fun tree query =>
      ⟨fun id => tree.find?_normalize id query, tree.findAll?_normalize query⟩⟩

end CssOutline
