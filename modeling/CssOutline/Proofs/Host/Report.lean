import CssOutline.Host.Annotate
import CssOutline.Proofs.Forest.Entries
import CssOutline.Proofs.Selector

/-!
# The lines that are due to reported rules

The line of a reported rule depends on the rules reported before it only through their number: it
is the line of the occurrence of its selector that has the same number, in the stylesheet that
the cache or the loader has for its href.

## Main definitions

* `sheetFor?`: the stylesheet of an href
* `Stylesheet.lineOfOccurrence?`: the line of an occurrence of a selector
* `dueLine`: the line that is due to a reported rule behind others
* `Unmatched`: a rule with a stylesheet to which no line is due
* `linesUnder`: the lines of the rules reported for one href

## Main results

* `annotate_eq_dueLines`: reported rules get the lines that are due to them
-/

namespace CssOutline

/-- The labels of the trees of a forest, without those below them. -/
def Forest.roots {α : Type} : Forest α → List α
  | nil => []
  | cons a _ after => a :: after.roots

/-- The rules in no block, in document order. -/
def RuleTree.topRules (tree : RuleTree) : List Rule := tree.top.roots

/-- The rules in no block that have the given normal selector, in document order. -/
def Stylesheet.occurrences (sheet : Stylesheet) (selector : Text) : List Rule :=
  sheet.tree.topRules.filter fun rule => rule.selector == some selector

/-- The line of the occurrence number `nth` of a normal selector, counted from 0. The last
occurrence stands in for those past the end if reports are clamped. -/
def Stylesheet.lineOfOccurrence? (config : Config) (sheet : Stylesheet) (selector : Text)
    (nth : Nat) : Option Nat :=
  if nth < (sheet.occurrences selector).length then
    (sheet.occurrences selector)[nth]?.bind (·.line)
  else if config.clampRepeated then (sheet.occurrences selector).getLast?.bind (·.line)
  else none

/-- The stylesheet of an href: the one kept, or else the one of the loader's text. -/
def sheetFor? (loader : Loader) (cache : Cache) (href : String) : Option Stylesheet :=
  match cache.get? href with
  | some sheet => some sheet
  | none => (loader href).toOption.map .ofText

/-- The number of rules that were reported for an href with a given normal selector. -/
def reportsOf (earlier : List ReportedRule) (href : String) (selector : Text) : Nat :=
  earlier.countP fun rule => rule.href == some href && Selector.normalize rule.selector == selector

/-- The line that is due to a reported rule, with the rules reported before it. -/
def dueLine (config : Config) (loader : Loader) (cache : Cache) (earlier : List ReportedRule)
    (rule : ReportedRule) : Option Nat := do
  let href ← rule.href
  let sheet ← sheetFor? loader cache href
  let selector := Selector.normalize rule.selector
  sheet.lineOfOccurrence? config selector (reportsOf earlier href selector)

/-- Among the reported rules there is one with a stylesheet to which no line is due. -/
def Unmatched (config : Config) (loader : Loader) (cache : Cache) (rules : List ReportedRule) :
    Prop :=
  ∃ (i : Nat) (rule : ReportedRule), rules[i]? = some rule ∧ rule.href.isSome ∧
    dueLine config loader cache (rules.take i) rule = none

/-- The lines of those reported rules that have a given href. -/
def linesUnder (href : String) (rules : List ReportedRule) (lines : List (Option Nat)) :
    List (Option Nat) :=
  ((rules.zip lines).filter fun (rule, _) => rule.href == some href).map (·.2)

/-! ## Occurrences of a selector -/

section Occurrences

variable {sheet : Stylesheet} {config : Config} {selector : Text}

theorem Forest.map_get?_range {α : Type} (f : Forest α) :
    (List.range f.width).map (fun i => f.get? [i]) = f.roots.map some := by
  induction f with
  | nil => rfl
  | cons a below after _ ih =>
    rw [width, List.range_succ_eq_map, List.map_cons, List.map_map, roots, List.map_cons, ← ih]
    rfl

/-- The rules right inside the root are those in no block. -/
theorem RuleTree.map_get?_children (tree : RuleTree) :
    (tree.children root).map tree.get? = tree.topRules.map some := by
  rw [topRules, ← Forest.map_get?_range]
  exact List.map_map

/-- Finding a selector finds its occurrences. -/
theorem exists_found (sheet : Stylesheet) (selector : Text) :
    ∃ found : List Address,
      sheet.find? selector = (if found.isEmpty then none else some found) ∧
        found.map sheet.tree.get? =
          (sheet.occurrences (Selector.normalize selector)).map some := by
  refine ⟨_, rfl, ?_⟩
  calc ((sheet.tree.children RuleTree.root).filter fun child =>
          sheet.tree.selector? child == some (Selector.normalize selector)).map sheet.tree.get?
      = ((sheet.tree.children RuleTree.root).map sheet.tree.get?).filter
          fun rule => rule.bind (·.selector) == some (Selector.normalize selector) := by
        rw [List.filter_map]
        rfl
    _ = (sheet.tree.topRules.map some).filter
          fun rule => rule.bind (·.selector) == some (Selector.normalize selector) := by
        rw [RuleTree.map_get?_children]
    _ = (sheet.occurrences (Selector.normalize selector)).map some := List.filter_map

/-- The line for a report is that of the occurrence with the same number. -/
theorem lineForReport?_eq (config : Config) (sheet : Stylesheet) (selector : Text) (nth : Nat) :
    sheet.lineForReport? config selector nth =
      sheet.lineOfOccurrence? config (Selector.normalize selector) nth := by
  obtain ⟨found, hfound, hmap⟩ := exists_found sheet selector
  rw [Stylesheet.lineForReport?, Stylesheet.lineOfOccurrence?, hfound]
  generalize sheet.occurrences (Selector.normalize selector) = rules at hmap
  have hlength : found.length = rules.length := by simpa using congrArg List.length hmap
  have hline : ∀ k : Nat, found[k]?.bind sheet.tree.line? = rules[k]?.bind (·.line) := by
    intro k
    have hk : found[k]?.map sheet.tree.get? = rules[k]?.map some := by
      rw [← List.getElem?_map, hmap, List.getElem?_map]
    calc found[k]?.bind sheet.tree.line?
        = (found[k]?.map sheet.tree.get?).bind fun rule => rule.bind (·.line) := by
          rw [Option.bind_map]
          rfl
      _ = (rules[k]?.map some).bind fun rule => rule.bind (·.line) := by rw [hk]
      _ = rules[k]?.bind (·.line) := by
          rw [Option.bind_map]
          rfl
  cases found with
  | nil =>
    obtain rfl : rules = [] := List.length_eq_zero_iff.mp hlength.symm
    simp
  | cons first others =>
    rw [List.isEmpty_cons, if_neg Bool.false_ne_true, Option.bind_some, Stylesheet.lineAmong?,
      hlength]
    by_cases hn : nth < rules.length
    · rw [Nat.min_eq_left (Nat.le_sub_one_of_lt hn), hline]
      simp [hn]
    · rw [Nat.min_eq_right (by omega), hline, List.getLast?_eq_getElem?]
      simp [hn]

end Occurrences

/-! ## One report after the other -/

section Reports

variable {config : Config} {loader : Loader} {cache : Cache} {earlier : List ReportedRule}

/-- What is known of the annotator behind some reports: its counters are the numbers of reports,
loading stylesheets did not change which one an href has, and its flag tells whether a line was
missing. -/
structure Annotator.Follows (config : Config) (loader : Loader) (cache : Cache)
    (earlier : List ReportedRule) (a : Annotator) : Prop where
  seen : ∀ href selector, a.seen.getD (href, selector) 0 = reportsOf earlier href selector
  sheet : ∀ href, sheetFor? loader a.cache href = sheetFor? loader cache href
  hasUnmatched : a.hasUnmatched = true ↔ Unmatched config loader cache earlier

theorem reportsOf_concat (earlier : List ReportedRule) (rule : ReportedRule) (href : String)
    (selector : Text) :
    reportsOf (earlier ++ [rule]) href selector = reportsOf earlier href selector +
      if rule.href = some href ∧ Selector.normalize rule.selector = selector then 1 else 0 := by
  simp [reportsOf, List.countP_append, List.countP_singleton]

/-- Loading gives the stylesheet of an href, and leaves every href its stylesheet. -/
theorem load_eq (loader : Loader) (cache : Cache) (href : String) :
    (cache.load loader href).1.toOption = sheetFor? loader cache href ∧
      ∀ other, sheetFor? loader (cache.load loader href).2 other =
        sheetFor? loader cache other := by
  unfold Cache.load
  cases hc : cache.get? href with
  | some sheet => simp [sheetFor?, hc, Except.toOption]
  | none =>
    cases hl : loader href with
    | error error =>
      exact ⟨by simp [sheetFor?, hc, hl, Except.toOption], fun other => rfl⟩
    | ok source =>
      refine ⟨by simp [sheetFor?, hc, hl, Except.toOption], fun other => ?_⟩
      by_cases ho : href = other
      · subst ho
        have hkept : ((cache.record href true).insert href source).get? href =
            some (.ofText source) := by
          simp [Cache.get?, Cache.insert]
        simp [sheetFor?, hkept, hc, hl, Except.toOption]
      · have hsame : ((cache.record href true).insert href source).get? other =
            cache.get? other := by
          simp [Cache.get?, Cache.insert, Cache.record, Std.HashMap.getElem?_insert, ho]
        simp [sheetFor?, hsame]

/-- A rule more is unmatched, or an earlier one was. -/
theorem unmatched_concat_iff {rule : ReportedRule} :
    Unmatched config loader cache (earlier ++ [rule]) ↔
      Unmatched config loader cache earlier ∨
        rule.href.isSome ∧ dueLine config loader cache earlier rule = none := by
  constructor
  · rintro ⟨i, other, hi, hhref, hnone⟩
    rw [List.getElem?_append] at hi
    split at hi
    · next hlt =>
      rw [List.take_append_of_le_length hlt.le] at hnone
      exact Or.inl ⟨i, other, hi, hhref, hnone⟩
    · next hle =>
      obtain ⟨hi, rfl⟩ : i - earlier.length = 0 ∧ rule = other := by
        simpa [List.getElem?_singleton] using hi
      have hlast : i = earlier.length := by omega
      rw [hlast, List.take_left] at hnone
      exact Or.inr ⟨hhref, hnone⟩
  · rintro (⟨i, other, hi, hhref, hnone⟩ | ⟨hhref, hnone⟩)
    · have hlt := (List.getElem?_eq_some_iff.mp hi).1
      refine ⟨i, other, by rw [List.getElem?_append_left hlt, hi], hhref, ?_⟩
      rw [List.take_append_of_le_length hlt.le, hnone]
    · refine ⟨earlier.length, rule, List.getElem?_concat_length, hhref, ?_⟩
      rw [List.take_left, hnone]

/-- **A reported rule gets the line that is due to it**, and counts as reported from then on. -/
theorem Annotator.Follows.place {a : Annotator} (h : a.Follows config loader cache earlier)
    (rule : ReportedRule) :
    (a.place config loader rule).1 = dueLine config loader cache earlier rule ∧
      (a.place config loader rule).2.Follows config loader cache (earlier ++ [rule]) := by
  obtain ⟨href, selector⟩ := rule
  cases href with
  | none =>
    refine ⟨rfl, fun href selector => ?_, h.sheet, ?_⟩
    · rw [reportsOf_concat]
      simpa [Annotator.place] using h.seen href selector
    · rw [unmatched_concat_iff]
      simpa [Annotator.place] using h.hasUnmatched
  | some href =>
    obtain ⟨hsheet, hothers⟩ := load_eq loader a.cache href
    rw [h.sheet] at hsheet
    have hline : (a.place config loader ⟨some href, selector⟩).1 =
        dueLine config loader cache earlier ⟨some href, selector⟩ := by
      unfold Annotator.place dueLine
      simp only [Option.bind_eq_bind, Option.bind_some, ← hsheet]
      cases (a.cache.load loader href).1 with
      | ok sheet =>
        simp [Except.toOption, lineForReport?_eq, Selector.normalize_normalize, h.seen]
      | error error => simp [Except.toOption]
    refine ⟨hline, fun other wanted => ?_, fun other => (hothers other).trans (h.sheet other), ?_⟩
    · have hseen : (a.place config loader ⟨some href, selector⟩).2.seen =
          a.seen.insert (href, Selector.normalize selector)
            (a.seen.getD (href, Selector.normalize selector) 0 + 1) := rfl
      rw [hseen, reportsOf_concat, Std.HashMap.getD_insert, h.seen, h.seen]
      by_cases hsame : href = other ∧ Selector.normalize selector = wanted
      · obtain ⟨rfl, rfl⟩ := hsame
        simp
      · simp [hsame]
    · have hflag : (a.place config loader ⟨some href, selector⟩).2.hasUnmatched =
          (a.hasUnmatched || (a.place config loader ⟨some href, selector⟩).1.isNone) := rfl
      rw [hflag, hline, unmatched_concat_iff, Bool.or_eq_true, h.hasUnmatched,
        Option.isNone_iff_eq_none]
      simp

/-- Reported rules get the lines that are due to them, and all of them count from then on. -/
theorem Annotator.Follows.placeAll {a : Annotator} (h : a.Follows config loader cache earlier)
    (rules : List ReportedRule) :
    (a.placeAll config loader rules).1 =
        rules.mapIdx (fun i rule =>
          dueLine config loader cache (earlier ++ rules.take i) rule) ∧
      (a.placeAll config loader rules).2.Follows config loader cache (earlier ++ rules) := by
  induction rules generalizing a earlier with
  | nil =>
    rw [List.append_nil]
    exact ⟨rfl, h⟩
  | cons rule rules ih =>
    obtain ⟨hline, hnext⟩ := h.place rule
    obtain ⟨hlines, hlast⟩ := ih hnext
    have hcons : a.placeAll config loader (rule :: rules) =
        ((a.place config loader rule).1 ::
            ((a.place config loader rule).2.placeAll config loader rules).1,
          ((a.place config loader rule).2.placeAll config loader rules).2) := rfl
    rw [hcons]
    constructor
    · rw [hlines, hline, List.mapIdx_cons]
      simp
    · rwa [List.append_assoc, List.singleton_append] at hlast

theorem follows_start (config : Config) (loader : Loader) (cache : Cache) :
    Annotator.Follows config loader cache [] { cache } where
  seen _ _ := Std.HashMap.getD_empty
  sheet _ := rfl
  hasUnmatched := by simp [Unmatched]

theorem lines_annotate (config : Config) (loader : Loader) (cache : Cache)
    (rules : List ReportedRule) :
    (annotate config loader cache rules).1.lines =
      rules.mapIdx fun i rule => dueLine config loader cache (rules.take i) rule :=
  ((follows_start config loader cache).placeAll rules).1

/-- The flag is raised by the rules themselves, on the way from one to the next. -/
theorem hasUnmatched_annotate (config : Config) (loader : Loader) (cache : Cache)
    (rules : List ReportedRule) :
    (annotate config loader cache rules).1.hasUnmatched = true ↔
      ∃ (i : Nat) (rule : ReportedRule), rules[i]? = some rule ∧ rule.href.isSome ∧
        (annotate config loader cache rules).1.lines[i]? = some none := by
  have hflag := ((follows_start config loader cache).placeAll rules).2.hasUnmatched
  rw [List.nil_append] at hflag
  rw [lines_annotate]
  refine hflag.trans (exists_congr fun i => exists_congr fun rule => and_congr_right fun hi => ?_)
  simp [hi]

end Reports

/-! ## The rules of one href -/

section Alone

variable {config : Config} {loader loader' : Loader} {cache cache' : Cache} {href : String}

/-- What is due to a rule depends on its own href only. -/
theorem dueLine_filter {rule : ReportedRule} (hrule : rule.href = some href)
    (hloader : loader' href = loader href) (hcache : cache'.get? href = cache.get? href)
    (earlier : List ReportedRule) :
    dueLine config loader' cache' (earlier.filter fun rule => rule.href == some href) rule =
      dueLine config loader cache earlier rule := by
  have hsheet : sheetFor? loader' cache' href = sheetFor? loader cache href := by
    rw [sheetFor?, sheetFor?, hloader, hcache]
  have hcount : ∀ selector,
      reportsOf (earlier.filter fun rule => rule.href == some href) href selector =
        reportsOf earlier href selector := by
    intro selector
    rw [reportsOf, reportsOf, List.countP_filter]
    refine List.countP_congr fun other _ => ?_
    simp only [Bool.and_eq_true]
    exact ⟨fun h => h.1, fun h => ⟨h, h.1⟩⟩
  simp [dueLine, hrule, hsheet, hcount]

/-- The rules of an href get the same lines with and without the rules of others. -/
theorem linesUnder_mapIdx (hloader : loader' href = loader href)
    (hcache : cache'.get? href = cache.get? href) (earlier rules : List ReportedRule) :
    linesUnder href rules
        (rules.mapIdx fun i rule => dueLine config loader cache (earlier ++ rules.take i) rule) =
      (rules.filter fun rule => rule.href == some href).mapIdx fun i rule =>
        dueLine config loader' cache' ((earlier.filter fun rule => rule.href == some href) ++
          (rules.filter fun rule => rule.href == some href).take i) rule := by
  induction rules generalizing earlier with
  | nil => rfl
  | cons rule rules ih =>
    have hrest := ih (earlier ++ [rule])
    by_cases hrule : rule.href = some href
    · rw [List.filter_append, List.filter_cons_of_pos (by simpa using hrule)] at hrest
      rw [List.filter_cons_of_pos (by simpa using hrule), List.mapIdx_cons, List.mapIdx_cons]
      simp only [linesUnder, List.zip_cons_cons, List.take_zero, List.append_nil,
        List.take_succ_cons] at hrest ⊢
      rw [List.filter_cons_of_pos (by simpa using hrule), List.map_cons,
        dueLine_filter hrule hloader hcache]
      simpa using hrest
    · rw [List.filter_append, List.filter_cons_of_neg (by simpa using hrule)] at hrest
      rw [List.filter_cons_of_neg (by simpa using hrule), List.mapIdx_cons]
      simp only [linesUnder, List.zip_cons_cons, List.take_succ_cons] at hrest ⊢
      rw [List.filter_cons_of_neg (by simpa using hrule)]
      simpa using hrest

end Alone

/-! ## Stylesheets that were outlined -/

theorem Forest.roots_map {α β : Type} (change : α → β) (f : Forest α) :
    (f.map change).roots = f.roots.map change := by
  induction f with
  | nil => rfl
  | cons a below after _ ih => rw [map_cons, roots, ih, roots, List.map_cons]

/-- Every rule in no block of an outlined stylesheet has a line. -/
theorem isSome_line_of_mem_topRules {source : Text} {rule : Rule}
    (h : rule ∈ (Stylesheet.ofText source).tree.topRules) : rule.line.isSome := by
  rw [Stylesheet.ofText, parse, RuleTree.placeLines, RuleTree.map, RuleTree.topRules,
    Forest.roots_map] at h
  obtain ⟨named, -, rfl⟩ := List.mem_map.mp h
  rfl

/-- **Reported rules get the lines that are due to them**, one each and in order. The report tells
whether one with a stylesheet got none. Where the cache holds outlined stylesheets, the occurrence
that is due has a line; and the rules of one href get the lines that they get alone, whatever is
known of other hrefs. -/
theorem annotate_eq_dueLines (config : Config) (loader : Loader) (cache : Cache)
    (rules : List ReportedRule)
    (hcache : ∀ href sheet, cache.get? href = some sheet → ∃ source, sheet = .ofText source) :
    (annotate config loader cache rules).1.lines =
        rules.mapIdx (fun i rule => dueLine config loader cache (rules.take i) rule) ∧
      ((annotate config loader cache rules).1.hasUnmatched = true ↔
        ∃ (i : Nat) (rule : ReportedRule), rules[i]? = some rule ∧ rule.href.isSome ∧
          (annotate config loader cache rules).1.lines[i]? = some none) ∧
      (∀ href sheet, sheetFor? loader cache href = some sheet →
        ∀ rule ∈ sheet.tree.topRules, rule.line.isSome) ∧
      ∀ href loader' cache', loader' href = loader href → cache'.get? href = cache.get? href →
        linesUnder href rules (annotate config loader cache rules).1.lines =
          (annotate config loader' cache'
            (rules.filter fun rule => rule.href == some href)).1.lines := by
  refine ⟨lines_annotate config loader cache rules, hasUnmatched_annotate config loader cache rules,
    ?_, ?_⟩
  · intro href sheet hsheet rule hrule
    obtain ⟨source, rfl⟩ : ∃ source, sheet = .ofText source := by
      unfold sheetFor? at hsheet
      split at hsheet
      · next kept hkept =>
        obtain rfl := Option.some.inj hsheet
        exact hcache href _ hkept
      · obtain ⟨source, -, rfl⟩ := Option.map_eq_some_iff.mp hsheet
        exact ⟨source, rfl⟩
    exact isSome_line_of_mem_topRules hrule
  · intro href loader' cache' hloader hkept
    rw [lines_annotate, lines_annotate]
    exact linesUnder_mapIdx hloader hkept [] rules

/-- Two reports of a selector that a kept stylesheet has twice, with others around them. -/
theorem annotate_kept_stylesheet :
    let sheet : Text := ['.', 'a', '{', '}', '\n', '.', 'a', '{', '}']
    let cache : Cache := ({} : Cache).insert "app.css" sheet
    let loader : Loader := fun href => .error (.notFound href)
    let rules : List ReportedRule := [⟨some "app.css", ['.', 'a']⟩, ⟨none, ['.', 'a']⟩,
      ⟨some "new.css", ['.', 'a']⟩, ⟨some "app.css", [' ', '.', 'a']⟩]
    (∀ href sheet, cache.get? href = some sheet → ∃ source, sheet = .ofText source) ∧
      (annotate {} loader cache rules).1.lines = [some 1, none, none, some 2] := by
  intro sheet cache loader rules
  have hkept : ∀ href, cache.get? href =
      if "app.css" = href then some (.ofText sheet) else none := by
    intro href
    simp [cache, Cache.get?, Cache.insert, Std.HashMap.getElem?_insert]
  have hcache : ∀ href sheet, cache.get? href = some sheet → ∃ source, sheet = .ofText source := by
    intro href other h
    rw [hkept] at h
    split at h
    · exact ⟨sheet, (Option.some.inj h).symm⟩
    · cases h
  refine ⟨hcache, ?_⟩
  rw [(annotate_eq_dueLines {} loader cache rules hcache).1]
  have happ : sheetFor? loader cache "app.css" = some (.ofText sheet) := by
    simp [sheetFor?, hkept]
  have hnew : sheetFor? loader cache "new.css" = none := by
    simp [sheetFor?, hkept, loader, Except.toOption]
  simp only [rules, List.mapIdx_cons, List.mapIdx_nil, dueLine, Option.bind_eq_bind,
    Option.bind_some, Option.bind_none, happ, hnew]
  decide

end CssOutline
