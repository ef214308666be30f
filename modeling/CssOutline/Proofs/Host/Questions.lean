import CssOutline.Proofs.Host.Report

/-!
# Questions put to a cache

A question for an href gives it the stylesheet that is due to it and changes no other one. The
loader is asked where nothing is kept under the href and not otherwise, so its successful answers
are limited by what is given up by hand. Reported rules and positions of rules put their questions
one after the other.

## Main definitions

* `Cache.loadAll`: a cache behind some questions
* `Cache.allowance`: the successful questions for an href that there can be
* `Cache.Asked`: what one question does to a cache

## Main results

* `Cache.get?_loadAll`: the stylesheets behind some questions
* `Cache.allowance_loadAll_le`: successful questions use up the allowance
* `Cache.asked_load`: one question
* `Annotator.cache_placeAll`: the questions of reported rules
-/

namespace CssOutline

/-! ## One question after the other -/

namespace Cache

variable {loader : Loader} {cache : Cache} {href other : String}

/-! ### The three outcomes of a question -/

theorem load_of_kept {sheet : Stylesheet} (h : cache.get? href = some sheet) :
    cache.load loader href = (.ok sheet, cache) := by
  rw [load, h]

theorem load_of_ok {source : Text} (h : cache.get? href = none)
    (hfound : loader href = .ok source) :
    cache.load loader href =
      (.ok (.ofText source), (cache.record href true).insert href source) := by
  simp only [load, h, hfound]

theorem load_of_error {error : LoadError} (h : cache.get? href = none)
    (hfound : loader href = .error error) :
    cache.load loader href = (.error error, cache.record href false) := by
  simp only [load, h, hfound]

/-! ### Stylesheets -/

/-- The cache behind the questions for some hrefs. -/
def loadAll (loader : Loader) (cache : Cache) (hrefs : List String) : Cache :=
  hrefs.foldl (fun cache href => (cache.load loader href).2) cache

theorem loadAll_append (loader : Loader) (cache : Cache) (hrefs more : List String) :
    cache.loadAll loader (hrefs ++ more) = (cache.loadAll loader hrefs).loadAll loader more :=
  List.foldl_append

theorem get?_insert (cache : Cache) (href : String) (source : Text) (other : String) :
    (cache.insert href source).get? other =
      if href = other then some (.ofText source) else cache.get? other := by
  simp [get?, insert, Std.HashMap.getElem?_insert]

theorem get?_invalidate (cache : Cache) (href other : String) :
    (cache.invalidate href).2.get? other = if href = other then none else cache.get? other := by
  simp [get?, invalidate, Std.HashMap.getElem?_erase]

@[simp] theorem get?_record (cache : Cache) (href : String) (found : Bool) (other : String) :
    (cache.record href found).get? other = cache.get? other := rfl

/-- A question gives its href the stylesheet that is due to it, and changes no other one. -/
theorem get?_load (loader : Loader) (cache : Cache) (href other : String) :
    (cache.load loader href).2.get? other =
      if href = other then sheetFor? loader cache other else cache.get? other := by
  cases hkept : cache.get? href with
  | some sheet =>
    rw [load_of_kept hkept]
    by_cases ho : href = other
    · subst ho
      simp [sheetFor?, hkept]
    · simp [ho]
  | none =>
    cases hfound : loader href with
    | ok source =>
      rw [load_of_ok hkept hfound, get?_insert, get?_record]
      by_cases ho : href = other
      · subst ho
        simp [sheetFor?, hkept, hfound, Except.toOption]
      · simp [ho]
    | error error =>
      rw [load_of_error hkept hfound, get?_record]
      by_cases ho : href = other
      · subst ho
        simp [sheetFor?, hkept, hfound, Except.toOption]
      · simp [ho]

/-- Questions give their hrefs the stylesheets that are due to them, and change no others. -/
theorem get?_loadAll (loader : Loader) (cache : Cache) (hrefs : List String) (other : String) :
    (cache.loadAll loader hrefs).get? other =
      if other ∈ hrefs then sheetFor? loader cache other else cache.get? other := by
  induction hrefs generalizing cache with
  | nil => rfl
  | cons href hrefs ih =>
    have hsheet := (load_eq loader cache href).2 other
    rw [loadAll, List.foldl_cons, ← loadAll, ih, hsheet, get?_load]
    by_cases hrest : other ∈ hrefs
    · simp [hrest]
    · simp [hrest, eq_comm]

/-! ### Successful questions -/

/-- The number of questions for an href that a loader had a text for. -/
def found (cache : Cache) (href : String) : Nat := cache.fetches.count ⟨href, true⟩

@[simp] theorem found_insert (cache : Cache) (other : String) (source : Text) (href : String) :
    (cache.insert other source).found href = cache.found href := rfl

theorem found_record (cache : Cache) (other : String) (found : Bool) (href : String) :
    (cache.record other found).found href =
      cache.found href + if other = href ∧ found then 1 else 0 := by
  simp [Cache.found, record, List.count_cons]

/-- The successful questions for an href, with the one that may still come if nothing is kept. -/
def allowance (href : String) (cache : Cache) : Nat :=
  cache.found href + if (cache.get? href).isSome then 0 else 1

theorem found_le_allowance (href : String) (cache : Cache) :
    cache.found href ≤ cache.allowance href := Nat.le_add_right _ _

theorem allowance_le (href : String) (cache : Cache) :
    cache.allowance href ≤ cache.found href + 1 := by
  rw [allowance]
  split <;> omega

/-- A question for any href stays within the allowance: where it succeeds, something is kept. -/
theorem allowance_load_le (loader : Loader) (cache : Cache) (other href : String) :
    (cache.load loader other).2.allowance href ≤ cache.allowance href := by
  cases hkept : cache.get? other with
  | some sheet => rw [load_of_kept hkept]
  | none =>
    cases hfound : loader other with
    | ok source =>
      rw [load_of_ok hkept hfound, allowance, found_insert, found_record, get?_insert, get?_record]
      by_cases ho : other = href
      · subst ho
        simp [allowance, hkept]
      · simp [allowance, ho]
    | error error =>
      rw [load_of_error hkept hfound, allowance, found_record, get?_record, if_neg (by simp)]
      exact le_rfl

theorem allowance_loadAll_le (loader : Loader) (cache : Cache) (hrefs : List String)
    (href : String) : (cache.loadAll loader hrefs).allowance href ≤ cache.allowance href := by
  induction hrefs generalizing cache with
  | nil => exact le_rfl
  | cons other hrefs ih => exact (ih _).trans (allowance_load_le loader cache other href)

/-- What one question for an href does to a cache. -/
structure Asked (loader : Loader) (href : String) (before after : Cache) : Prop where
  /-- Where a stylesheet is kept, nothing happens. -/
  eq_of_kept : (before.get? href).isSome → after = before
  /-- Where none is kept, the loader is asked once. -/
  fetches_eq : before.get? href = none →
    after.fetches = ⟨href, (loader href).isOk⟩ :: before.fetches
  /-- A failure leaves the stylesheets as they are. -/
  sheets_eq : ∀ error, (before.load loader href).1 = .error error → after.sheets = before.sheets

theorem asked_load (loader : Loader) (cache : Cache) (href : String) :
    cache.Asked loader href (cache.load loader href).2 := by
  cases hkept : cache.get? href with
  | some sheet =>
    rw [load_of_kept hkept]
    exact ⟨fun _ => rfl, fun hnone => by simp [hkept] at hnone, fun _ _ => rfl⟩
  | none =>
    have hnone : ¬ (cache.get? href).isSome := by simp [hkept]
    cases hfound : loader href with
    | ok source =>
      rw [load_of_ok hkept hfound]
      refine ⟨fun h => absurd h hnone, fun _ => ?_, fun error herror => ?_⟩
      · rw [hfound]
        rfl
      · rw [load_of_ok hkept hfound] at herror
        cases herror
    | error error =>
      rw [load_of_error hkept hfound]
      refine ⟨fun h => absurd h hnone, fun _ => ?_, fun _ _ => rfl⟩
      rw [hfound]
      rfl

/-- The stylesheets of a cache are counted. -/
theorem exists_hrefs (cache : Cache) :
    ∃ hrefs : List String, hrefs.Nodup ∧ (∀ href, href ∈ hrefs ↔ (cache.get? href).isSome) ∧
      cache.size = hrefs.length ∧ (cache.isEmpty ↔ hrefs = []) := by
  refine ⟨cache.sheets.keys, Std.HashMap.nodup_keys, ?_, Std.HashMap.length_keys.symm, ?_⟩
  · intro href
    rw [Std.HashMap.mem_keys, get?, Std.HashMap.mem_iff_isSome_getElem?]
  · rw [isEmpty, ← Std.HashMap.isEmpty_keys, List.isEmpty_iff]

end Cache

/-! ## Questions of requests -/

namespace Annotator

variable {config : Config} {loader : Loader}

/-- Placing a rule that has a stylesheet puts one question to the cache. -/
theorem cache_place (a : Annotator) (href : String) (selector : Text) :
    (a.place config loader ⟨some href, selector⟩).2.cache = (a.cache.load loader href).2 := by
  unfold place
  cases hload : a.cache.load loader href with
  | mk result cache => cases result <;> simp only [hload]

/-- Placing reported rules puts the questions for their hrefs to the cache. -/
theorem cache_placeAll (a : Annotator) (rules : List ReportedRule) :
    (a.placeAll config loader rules).2.cache =
      a.cache.loadAll loader (rules.filterMap (·.href)) := by
  induction rules generalizing a with
  | nil => rfl
  | cons rule rules ih =>
    have hcons : (a.placeAll config loader (rule :: rules)).2 =
        ((a.place config loader rule).2.placeAll config loader rules).2 := rfl
    obtain ⟨href, selector⟩ := rule
    rw [hcons, ih]
    cases href with
    | none => rfl
    | some href =>
      rw [cache_place]
      rfl

end Annotator

/-- Asking for a line by position puts one question to the cache. -/
theorem Cache.lineForIndex?_snd (loader : Loader) (cache : Cache) (href : String) (index : Nat) :
    (cache.lineForIndex? loader href index).2 = (cache.load loader href).2 := by
  unfold lineForIndex?
  cases hload : cache.load loader href with
  | mk result cache => cases result <;> rfl

end CssOutline
