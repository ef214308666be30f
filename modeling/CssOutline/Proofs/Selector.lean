import CssOutline.Proofs.Text.Trim
import CssOutline.Selector

/-!
# Normal selectors

A normal selector is a list of items without blanks at their ends, and without commas and line
breaks in them. Normalizing takes every selector to such a list, and leaves these lists alone. The
ends of the whole list are ends of items, so trimming it once more in front of the split changes
nothing. A comma divides a selector list into lists that are normalized on their own, so what holds
of selectors without commas is carried over to all selectors, from comma to comma.

## Main definitions

* `Selector.trimmedItems`: the items of a selector list
* `Selector.IsItem`: an item of a normal selector

## Main results

* `Selector.trimmedItems_trim`: blanks around the whole list go with those around its items
* `Selector.normalize_eq`: a selector is normalized item by item
* `Selector.normalize_intercalate`: a list of items is normal
* `Selector.normalize_normalize`: normalizing twice is normalizing once
* `Selector.normalize_append_comma`: the lists on both sides of a comma
* `Selector.normalize_eq_iff`: the selectors that one word is left of
-/

namespace CssOutline

namespace Selector

/-- An item of a normal selector. -/
structure IsItem (item : Text) : Prop where
  trimmed : Text.trim Text.isBlank item = item
  unbroken : ∀ c ∈ item, unbreak c = c
  comma_notMem : ',' ∉ item

theorem unbreak_unbreak (c : Char) : unbreak (unbreak c) = unbreak c := by
  by_cases h : c = '\n' ∨ c = '\r'
  · rw [unbreak, unbreak, if_pos h]
    rfl
  · rw [unbreak, unbreak, if_neg h, if_neg h]

theorem isBlank_unbreak (c : Char) : Text.isBlank (unbreak c) = Text.isBlank c := by
  by_cases h : c = '\n' ∨ c = '\r'
  · rw [unbreak, if_pos h]
    rcases h with rfl | rfl <;> rfl
  · rw [unbreak, if_neg h]

/-- What a text is split into holds no separator, and nothing that is not in the text. -/
theorem of_mem_splitOn {separator : Char} {text item : Text}
    (h : item ∈ text.splitOn separator) :
    separator ∉ item ∧ ∀ c ∈ item, c ∈ text := by
  induction text generalizing item with
  | nil =>
    rw [List.splitOn_nil, List.mem_singleton] at h
    subst h
    simp
  | cons d text ih =>
    rw [List.splitOn_cons_eq_if_modifyHead] at h
    split at h
    · rcases List.mem_cons.mp h with rfl | h
      · simp
      · exact ⟨(ih h).1, fun c hc => List.mem_cons_of_mem d ((ih h).2 c hc)⟩
    · next hd =>
      obtain ⟨first, others, hsplit⟩ :=
        List.exists_cons_of_ne_nil (List.splitOn_ne_nil separator text)
      rw [hsplit] at h ih
      rcases List.mem_cons.mp h with rfl | h
      · obtain ⟨hfirst, hin⟩ := ih List.mem_cons_self
        refine ⟨?_, fun c hc => ?_⟩
        · rw [List.mem_cons, not_or]
          exact ⟨fun he => hd (by simp [he]), hfirst⟩
        · rcases List.mem_cons.mp hc with rfl | hc
          · exact List.mem_cons_self
          · exact List.mem_cons_of_mem d (hin c hc)
      · obtain ⟨hitem, hin⟩ := ih (List.mem_cons_of_mem first h)
        exact ⟨hitem, fun c hc => List.mem_cons_of_mem d (hin c hc)⟩

/-- Changing the characters of a list, but not its separators, changes its items. -/
theorem flatMap_intercalate {separator : Char} {change : Char → Text}
    (hseparator : change separator = [separator]) (items : List Text) :
    ([separator].intercalate items).flatMap change =
      [separator].intercalate (items.map (List.flatMap change)) := by
  induction items with
  | nil => rfl
  | cons item items ih =>
    cases items with
    | nil => simp
    | cons next items =>
      rw [List.intercalate_cons_cons, List.flatMap_append, List.flatMap_append, ih,
        List.flatMap_singleton, hseparator]
      exact List.intercalate_cons_cons.symm

/-- A text is split at the same places when all but its separators are changed. -/
theorem splitOn_flatMap {separator : Char} {change : Char → Text}
    (hseparator : change separator = [separator])
    (hothers : ∀ c, c ≠ separator → separator ∉ change c) (text : Text) :
    (text.flatMap change).splitOn separator =
      (text.splitOn separator).map (List.flatMap change) := by
  have hitems : ∀ item ∈ (text.splitOn separator).map (List.flatMap change),
      separator ∉ item := by
    intro item hitem hmem
    obtain ⟨part, hpart, rfl⟩ := List.mem_map.mp hitem
    obtain ⟨c, hc, hchange⟩ := List.mem_flatMap.mp hmem
    refine hothers c ?_ hchange
    rintro rfl
    exact (of_mem_splitOn hpart).1 hc
  have hne : (text.splitOn separator).map (List.flatMap change) ≠ [] := by
    simp [List.splitOn_ne_nil]
  rw [← List.splitOn_intercalate separator hitems hne, ← flatMap_intercalate hseparator,
    List.intercalate_splitOn]

theorem map_unbreak : List.map unbreak = List.flatMap fun c => [unbreak c] :=
  funext fun _ => List.map_eq_flatMap

/-! ## The items of a list -/

/-- A selector is a single item, or an item, a comma and a selector. -/
theorem commaInduction {motive : Text → Prop} (item : ∀ s, ',' ∉ s → motive s)
    (list : ∀ s t, ',' ∉ s → motive t → motive (s ++ ',' :: t)) (s : Text) : motive s := by
  induction hn : s.length using Nat.strongRecOn generalizing s with
  | ind n ih =>
    by_cases hcomma : ',' ∈ s
    · obtain ⟨first, others, rfl, hfirst⟩ := List.eq_append_cons_of_mem hcomma
      refine list first others hfirst (ih _ ?_ others rfl)
      rw [← hn, List.length_append, List.length_cons]
      omega
    · exact item s hcomma

/-- The items of a selector list, each without the blanks at its ends. -/
def trimmedItems (list : Text) : List Text := (list.splitOn ',').map (Text.trim Text.isBlank)

theorem trimmedItems_ne_nil (list : Text) : trimmedItems list ≠ [] := by
  simp [trimmedItems, List.splitOn_ne_nil]

theorem trimmedItems_of_comma_notMem {list : Text} (h : ',' ∉ list) :
    trimmedItems list = [Text.trim Text.isBlank list] := by
  rw [trimmedItems, List.splitOn_eq_singleton h, List.map_singleton]

theorem trimmedItems_append_comma (s t : Text) :
    trimmedItems (s ++ ',' :: t) = trimmedItems s ++ trimmedItems t := by
  rw [trimmedItems, List.splitOn_append_cons_self, List.map_append]
  rfl

theorem comma_notMem_of_isBlank {blanks : Text} (h : ∀ c ∈ blanks, Text.isBlank c) :
    ',' ∉ blanks :=
  fun hc => absurd (h ',' hc) (by decide)

/-- Blanks in front of a list are blanks in front of its first item. -/
theorem trimmedItems_append_left {front : Text} (h : ∀ c ∈ front, Text.isBlank c) (s : Text) :
    trimmedItems (front ++ s) = trimmedItems s := by
  have hitem : ∀ s : Text, ',' ∉ s → trimmedItems (front ++ s) = trimmedItems s := by
    intro s hs
    have hcomma : ',' ∉ front ++ s := List.not_mem_append (comma_notMem_of_isBlank h) hs
    have htrim : Text.trim Text.isBlank (front ++ s) = Text.trim Text.isBlank s := by
      rw [← Text.trim_append h (List.forall_mem_nil _) s, List.append_nil]
    rw [trimmedItems_of_comma_notMem hcomma, trimmedItems_of_comma_notMem hs, htrim]
  induction s using commaInduction with
  | item s hs => exact hitem s hs
  | list s t hs _ =>
    rw [← List.append_assoc, trimmedItems_append_comma, trimmedItems_append_comma, hitem s hs]

/-- Blanks behind a list are blanks behind its last item. -/
theorem trimmedItems_append_right {back : Text} (h : ∀ c ∈ back, Text.isBlank c) (s : Text) :
    trimmedItems (s ++ back) = trimmedItems s := by
  induction s using commaInduction with
  | item s hs =>
    have hcomma : ',' ∉ s ++ back := List.not_mem_append hs (comma_notMem_of_isBlank h)
    have htrim : Text.trim Text.isBlank (s ++ back) = Text.trim Text.isBlank s :=
      Text.trim_append (List.forall_mem_nil _) h s
    rw [trimmedItems_of_comma_notMem hcomma, trimmedItems_of_comma_notMem hs, htrim]
  | list s t _ ih =>
    rw [List.append_assoc, List.cons_append, trimmedItems_append_comma, trimmedItems_append_comma,
      ih]

/-- **Blanks around the whole list go with those around its items.** -/
theorem trimmedItems_trim (s : Text) :
    trimmedItems (Text.trim Text.isBlank s) = trimmedItems s := by
  obtain ⟨front, back, hs, hfront, hback⟩ := Text.exists_trim Text.isBlank s
  have hwhole : trimmedItems s = trimmedItems (front ++ (Text.trim Text.isBlank s ++ back)) :=
    congrArg trimmedItems hs
  rw [hwhole, trimmedItems_append_left hfront, trimmedItems_append_right hback]

/-- Normalizing need not trim the whole list. -/
theorem normalize_eq_intercalate (selector : Text) :
    normalize selector = [','].intercalate (trimmedItems (selector.map unbreak)) := by
  rw [normalize, ← trimmedItems, trimmedItems_trim]

/-! ## Normal forms -/

/-- A selector is normalized item by item: each is trimmed, and its line breaks become spaces. -/
theorem normalize_eq (selector : Text) :
    normalize selector =
      [','].intercalate ((selector.splitOn ',').map fun item =>
        (Text.trim Text.isBlank item).map unbreak) := by
  have hothers : ∀ c, c ≠ ',' → ',' ∉ [unbreak c] := by
    intro c hc hmem
    rw [List.mem_singleton, unbreak] at hmem
    split at hmem
    · exact absurd hmem (by decide)
    · exact hc hmem.symm
  have hsplit : (selector.map unbreak).splitOn ',' =
      (selector.splitOn ',').map (List.map unbreak) := by
    rw [map_unbreak]
    exact splitOn_flatMap rfl hothers selector
  rw [normalize_eq_intercalate, trimmedItems, hsplit, List.map_map]
  congr 1
  exact List.map_congr_left fun item _ => Text.trim_map isBlank_unbreak item

/-- Normalizing takes a selector to items. -/
theorem exists_items (selector : Text) :
    ∃ items, normalize selector = [','].intercalate items ∧ items ≠ [] ∧
      ∀ item ∈ items, IsItem item := by
  refine ⟨_, normalize_eq_intercalate selector, trimmedItems_ne_nil _, fun item hitem => ?_⟩
  obtain ⟨part, hpart, rfl⟩ := List.mem_map.mp hitem
  obtain ⟨hcomma, hin⟩ := of_mem_splitOn hpart
  refine ⟨Text.trim_trim _ _, fun c hc => ?_, fun hc => hcomma (Text.mem_of_mem_trim hc)⟩
  obtain ⟨d, -, rfl⟩ := List.mem_map.mp (hin c (Text.mem_of_mem_trim hc))
  exact unbreak_unbreak d

/-- Line breaks are no part of a list of items. -/
theorem map_unbreak_intercalate {items : List Text}
    (h : ∀ item ∈ items, ∀ c ∈ item, unbreak c = c) :
    ([','].intercalate items).map unbreak = [','].intercalate items := by
  have hitem : ∀ item ∈ items, item.map unbreak = item := fun item hitem =>
    (List.map_congr_left (h item hitem)).trans (List.map_id' item)
  have hitems : items.map (List.map unbreak) = items :=
    (List.map_congr_left hitem).trans (List.map_id' items)
  rw [map_unbreak, flatMap_intercalate rfl, ← map_unbreak, hitems]

/-- A list of items is normal. -/
theorem normalize_intercalate {items : List Text} (hne : items ≠ [])
    (h : ∀ item ∈ items, IsItem item) :
    normalize ([','].intercalate items) = [','].intercalate items := by
  have htrim : items.map (Text.trim Text.isBlank) = items :=
    (List.map_congr_left fun item hitem => (h item hitem).trimmed).trans (List.map_id' items)
  rw [normalize_eq_intercalate, map_unbreak_intercalate fun item hitem => (h item hitem).unbroken,
    trimmedItems, List.splitOn_intercalate ',' (fun item hitem => (h item hitem).comma_notMem) hne,
    htrim]

/-- **Normalizing twice is normalizing once.** -/
theorem normalize_normalize (selector : Text) :
    normalize (normalize selector) = normalize selector := by
  obtain ⟨items, hs, hne, hitems⟩ := exists_items selector
  rw [hs, normalize_intercalate hne hitems]

/-! ## From comma to comma -/

theorem intercalate_append {separator : Char} {items items' : List Text} (h : items ≠ [])
    (h' : items' ≠ []) :
    [separator].intercalate (items ++ items') =
      [separator].intercalate items ++ separator :: [separator].intercalate items' := by
  obtain ⟨next, others, rfl⟩ := List.exists_cons_of_ne_nil h'
  induction items with
  | nil => exact absurd rfl h
  | cons item items ih =>
    cases items with
    | nil =>
      rw [List.singleton_append, List.intercalate_cons_cons, List.intercalate_singleton,
        List.append_assoc, List.singleton_append]
    | cons second items =>
      rw [List.cons_append, List.cons_append, List.intercalate_cons_cons, ← List.cons_append,
        ih (List.cons_ne_nil _ _), List.intercalate_cons_cons, ← List.append_assoc]

/-- **The lists on both sides of a comma are normalized on their own.** -/
theorem normalize_append_comma (s t : Text) :
    normalize (s ++ ',' :: t) = normalize s ++ ',' :: normalize t := by
  have hne : ∀ u : Text, ((u.splitOn ',').map fun item =>
      (Text.trim Text.isBlank item).map unbreak) ≠ [] := by
    intro u
    simp [List.splitOn_ne_nil]
  rw [normalize_eq, normalize_eq, normalize_eq, List.splitOn_append_cons_self, List.map_append]
  exact intercalate_append (hne s) (hne t)

/-! ## Selectors of one word -/

/-- The commas of a selector stay in its normal form. -/
theorem comma_mem_normalize {selector : Text} (h : ',' ∈ selector) : ',' ∈ normalize selector := by
  obtain ⟨first, others, rfl, -⟩ := List.eq_append_cons_of_mem h
  rw [normalize_append_comma]
  exact List.mem_append_right _ List.mem_cons_self

theorem normalize_of_comma_notMem {selector : Text} (h : ',' ∉ selector) :
    normalize selector = (Text.trim Text.isBlank selector).map unbreak := by
  rw [normalize_eq, List.splitOn_eq_singleton h, List.map_singleton, List.intercalate_singleton]

/-- A character that does not become a space is kept. -/
theorem unbreak_eq_self {c : Char} (h : unbreak c ≠ ' ') : unbreak c = c := by
  rw [unbreak] at h ⊢
  split at h
  · exact absurd rfl h
  · next hc => rw [if_neg hc]

/-- Where a word of selectors is all that is left of a selector, it is all that trimming leaves. -/
theorem normalize_eq_iff {selector word : Text} (hcomma : ',' ∉ word) (hspace : ' ' ∉ word)
    (hword : word.map unbreak = word) :
    normalize selector = word ↔ Text.trim Text.isBlank selector = word := by
  constructor
  · rintro rfl
    have hsingle : ',' ∉ selector := fun h => hcomma (comma_mem_normalize h)
    rw [normalize_of_comma_notMem hsingle] at hspace ⊢
    have hkept : ∀ c ∈ Text.trim Text.isBlank selector, unbreak c = c := by
      intro c hc
      refine unbreak_eq_self fun hbreak => hspace ?_
      rw [← hbreak]
      exact List.mem_map_of_mem hc
    rw [List.map_congr_left hkept, List.map_id']
  · intro htrim
    obtain ⟨front, back, hs, hfront, hback⟩ := Text.exists_trim Text.isBlank selector
    have hblank : ∀ blanks : Text, (∀ c ∈ blanks, Text.isBlank c) → ',' ∉ blanks :=
      fun blanks h hc => absurd (h ',' hc) (by decide)
    have hsingle : ',' ∉ selector := by
      rw [hs, htrim]
      simp [hcomma, hblank front hfront, hblank back hback]
    rw [normalize_of_comma_notMem hsingle, htrim, hword]

end Selector

end CssOutline
