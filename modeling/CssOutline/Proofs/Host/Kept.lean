import CssOutline.Host.Session
import CssOutline.Proofs.Host.Questions
import Mathlib.Data.List.Induction

/-!
# What a session keeps

The stylesheets in the cache of a session are settled by its history. For each href only the
requests since it was last invalidated count: the last text put in by hand is the one kept, or else
the text that was on the shelf when the stylesheet was first asked for. Between two invalidations
of an href its loader is asked with success once at most.

## Main definitions

* `Request.asks`: the hrefs that a request asks for
* `Request.Fills`, `Vacant`, `Keeps`: what a history has to say about an href
* `Session.Recalls`: a session that is settled by its history

## Main results

* `Session.get?_run_eq_some_iff`: the stylesheets kept behind a history
* `Session.allowance_run_le`: the successful questions of a run
* `Session.recalls_run`: every run is settled by its history
-/

namespace CssOutline

/-! ## Histories -/

/-- The hrefs whose stylesheets a request asks for, one after the other. -/
def Request.asks : Request → List String
  | .load href => [href]
  | .lineForIndex href _ => [href]
  | .annotate rules => rules.filterMap (·.href)
  | _ => []

/-- A request that neither puts a text in under an href nor takes one out. -/
structure Request.Spares (href : String) (request : Request) : Prop where
  ne_invalidate : request ≠ .invalidate href
  ne_insert : ∀ text, request ≠ .insert href text

/-- A request that has a text for an href: it puts the text into the cache, or it asks for the
stylesheet when the text is on the shelf behind the earlier requests. -/
def Request.Fills (href : String) (earlier : List Request) (request : Request) (source : Text) :
    Prop :=
  request = .insert href source ∨
    href ∈ request.asks ∧ (Session.run {} earlier).shelf.load href = .ok source

/-- A history that has no text for an href since it was last invalidated. -/
def Vacant (href : String) (history : List Request) : Prop :=
  ∀ earlier request later source, history = earlier ++ request :: later →
    request.Fills href earlier source → .invalidate href ∈ later

/-- The text that a history keeps for an href. -/
inductive Keeps (href : String) (history : List Request) (source : Text) : Prop
  /-- The text was put in, and since then no other one and no invalidation came. -/
  | inserted {earlier later : List Request}
      (eq : history = earlier ++ .insert href source :: later)
      (spared : ∀ request ∈ later, request.Spares href)
  /-- The text was on the shelf when the stylesheet was first asked for, and since then none was
  put in and no invalidation came. -/
  | loaded {earlier later : List Request} {request : Request}
      (eq : history = earlier ++ request :: later) (vacant : Vacant href earlier)
      (asked : href ∈ request.asks)
      (found : (Session.run {} earlier).shelf.load href = .ok source)
      (spared : ∀ request ∈ later, request.Spares href)

section Histories

variable {href : String} {history : List Request} {request : Request} {source : Text}

/-- A request puts in a text under an href, invalidates it, or does neither. -/
theorem Request.insert_or_invalidate_or_spares (href : String) (request : Request) :
    (∃ text, request = .insert href text) ∨ request = .invalidate href ∨ request.Spares href := by
  by_cases hinsert : ∃ text, request = .insert href text
  · exact Or.inl hinsert
  · by_cases hinvalidate : request = .invalidate href
    · exact Or.inr (Or.inl hinvalidate)
    · exact Or.inr (Or.inr ⟨hinvalidate, fun text h => hinsert ⟨text, h⟩⟩)

/-- Where one request stands in a history with a last one. -/
theorem concat_eq_append_cons_iff {α : Type} {xs before after : List α} {x y : α} :
    xs ++ [x] = before ++ y :: after ↔
      (xs = before ∧ x = y ∧ after = []) ∨
        ∃ inside, after = inside ++ [x] ∧ xs = before ++ y :: inside := by
  constructor
  · intro h
    rcases List.eq_nil_or_concat after with rfl | ⟨inside, z, rfl⟩
    · obtain ⟨hxs, hx⟩ := List.append_inj' h rfl
      exact Or.inl ⟨hxs, List.singleton_inj.mp hx, rfl⟩
    · rw [List.concat_eq_append, ← List.cons_append, ← List.append_assoc] at h
      obtain ⟨hxs, hx⟩ := List.append_inj' h rfl
      rw [List.singleton_inj.mp hx, List.concat_eq_append]
      exact Or.inr ⟨inside, rfl, hxs⟩
  · rintro (⟨rfl, rfl, rfl⟩ | ⟨inside, rfl, rfl⟩)
    · rfl
    · rw [List.append_assoc, List.cons_append]

theorem vacant_nil (href : String) : Vacant href [] := by
  intro earlier request later source h
  simp at h

/-- One more request leaves nothing kept if it invalidates the href, or if nothing was kept and
the request has no text either. -/
theorem vacant_concat_iff : Vacant href (history ++ [request]) ↔
    request = .invalidate href ∨
      (Vacant href history ∧ ∀ source, ¬ request.Fills href history source) := by
  constructor
  · intro h
    by_cases hrequest : request = .invalidate href
    · exact Or.inl hrequest
    · refine Or.inr ⟨?_, ?_⟩
      · intro earlier other later source heq hfills
        have hmem := h earlier other (later ++ [request]) source (by simp [heq]) hfills
        rcases List.mem_append.mp hmem with hmem | hmem
        · exact hmem
        · exact absurd (List.mem_singleton.mp hmem).symm hrequest
      · intro source hfills
        exact absurd (h history request [] source rfl hfills) List.not_mem_nil
  · rintro h earlier other later source heq hfills
    rcases concat_eq_append_cons_iff.mp heq with ⟨rfl, rfl, rfl⟩ | ⟨inside, rfl, hhistory⟩
    · rcases h with rfl | ⟨-, hnone⟩
      · rcases hfills with hinsert | ⟨hasks, -⟩
        · cases hinsert
        · cases hasks
      · exact absurd hfills (hnone source)
    · rcases h with rfl | ⟨hvacant, -⟩
      · exact List.mem_append_right _ List.mem_cons_self
      · exact List.mem_append_left _ (hvacant earlier other inside source hhistory hfills)

/-- One more request keeps the text that it puts in, that it finds where nothing was kept, or that
was kept before. -/
theorem keeps_concat_iff : Keeps href (history ++ [request]) source ↔
    request = .insert href source ∨
      (Vacant href history ∧ href ∈ request.asks ∧
        (Session.run {} history).shelf.load href = .ok source) ∨
      (Keeps href history source ∧ request.Spares href) := by
  constructor
  · intro h
    cases h with
    | inserted eq spared =>
      rcases concat_eq_append_cons_iff.mp eq with ⟨-, h, -⟩ | ⟨inside, rfl, h⟩
      · exact Or.inl h
      · rw [List.forall_mem_append] at spared
        exact Or.inr (Or.inr ⟨.inserted h spared.1, spared.2 _ List.mem_cons_self⟩)
    | loaded eq vacant asked found spared =>
      rcases concat_eq_append_cons_iff.mp eq with ⟨rfl, rfl, -⟩ | ⟨inside, rfl, h⟩
      · exact Or.inr (Or.inl ⟨vacant, asked, found⟩)
      · rw [List.forall_mem_append] at spared
        exact Or.inr (Or.inr ⟨.loaded h vacant asked found spared.1, spared.2 _ List.mem_cons_self⟩)
  · rintro (rfl | ⟨vacant, asked, found⟩ | ⟨h, hrequest⟩)
    · exact .inserted rfl (by simp)
    · exact .loaded rfl vacant asked found (by simp)
    · have hmore : ∀ later : List Request, (∀ request ∈ later, request.Spares href) →
          ∀ other ∈ later ++ [request], other.Spares href := by
        intro later hlater
        rw [List.forall_mem_append]
        exact ⟨hlater, by simpa using hrequest⟩
      cases h with
      | inserted eq spared =>
        exact .inserted (by rw [eq, List.append_assoc, List.cons_append]) (hmore _ spared)
      | loaded eq vacant asked found spared =>
        exact .loaded (by rw [eq, List.append_assoc, List.cons_append]) vacant asked found
          (hmore _ spared)

end Histories

namespace Session

variable {s : Session} {request : Request} {href : String}

/-- Reported rules put the questions for their hrefs to the cache. -/
theorem cache_step_annotate (s : Session) (rules : List ReportedRule) :
    (s.step (.annotate rules)).2.cache =
      s.cache.loadAll s.shelf.load (rules.filterMap (·.href)) :=
  Annotator.cache_placeAll { cache := s.cache } rules

/-- A request that only asks puts its questions to the cache. -/
theorem cache_step (s : Session) (hinsert : ∀ href text, request ≠ .insert href text)
    (hinvalidate : ∀ href, request ≠ .invalidate href) :
    (s.step request).2.cache = s.cache.loadAll s.shelf.load request.asks := by
  cases request with
  | insert href text => exact absurd rfl (hinsert href text)
  | invalidate href => exact absurd rfl (hinvalidate href)
  | annotate rules => exact s.cache_step_annotate rules
  | lineForIndex href index => exact Cache.lineForIndex?_snd s.shelf.load s.cache href index
  | load href => rfl
  | provide | configure | get | loadText | title => rfl

/-- A request that spares an href asks for its stylesheet, or changes nothing under the href. -/
theorem get?_step_of_spares (h : request.Spares href) :
    (s.step request).2.cache.get? href =
      if href ∈ request.asks then sheetFor? s.shelf.load s.cache href
      else s.cache.get? href := by
  by_cases hinsert : ∃ other text, request = .insert other text
  · obtain ⟨other, text, rfl⟩ := hinsert
    have ho : other ≠ href := fun ho => h.ne_insert text (by rw [ho])
    exact (Cache.get?_insert _ _ _ _).trans (if_neg ho)
  · by_cases hinvalidate : ∃ other, request = .invalidate other
    · obtain ⟨other, rfl⟩ := hinvalidate
      have ho : other ≠ href := fun ho => h.ne_invalidate (by rw [ho])
      exact (Cache.get?_invalidate _ _ _).trans (if_neg ho)
    · rw [cache_step s (fun other text heq => hinsert ⟨other, text, heq⟩)
        fun other heq => hinvalidate ⟨other, heq⟩, Cache.get?_loadAll]

theorem get?_step_insert (s : Session) (href : String) (text : Text) :
    (s.step (.insert href text)).2.cache.get? href = some (.ofText text) :=
  (Cache.get?_insert _ _ _ _).trans (if_pos rfl)

theorem get?_step_invalidate (s : Session) (href : String) :
    (s.step (.invalidate href)).2.cache.get? href = none :=
  (Cache.get?_invalidate _ _ _).trans (if_pos rfl)

/-- A stylesheet that is kept stays, whatever happens to the shelf. -/
theorem get?_step_of_kept (h : request.Spares href) (hkept : (s.cache.get? href).isSome) :
    (s.step request).2.cache.get? href = s.cache.get? href := by
  obtain ⟨sheet, hsheet⟩ := Option.isSome_iff_exists.mp hkept
  rw [get?_step_of_spares h, sheetFor?, hsheet]
  split <;> rfl

/-- A request that does not invalidate an href stays within its allowance. -/
theorem allowance_step_le (h : request ≠ .invalidate href) :
    (s.step request).2.cache.allowance href ≤ s.cache.allowance href := by
  by_cases hinsert : ∃ other text, request = .insert other text
  · obtain ⟨other, text, rfl⟩ := hinsert
    show (s.cache.insert other text).allowance href ≤ s.cache.allowance href
    rw [Cache.allowance, Cache.allowance, Cache.found_insert, Cache.get?_insert]
    split <;> simp
  · by_cases hinvalidate : ∃ other, request = .invalidate other
    · obtain ⟨other, rfl⟩ := hinvalidate
      have ho : other ≠ href := fun ho => h (by rw [ho])
      show (s.cache.invalidate other).2.allowance href ≤ s.cache.allowance href
      rw [Cache.allowance, Cache.get?_invalidate, if_neg ho]
      exact le_rfl
    · rw [cache_step s (fun other text heq => hinsert ⟨other, text, heq⟩)
        fun other heq => hinvalidate ⟨other, heq⟩]
      exact Cache.allowance_loadAll_le _ _ _ _

/-! ## Runs -/

theorem run_append (s : Session) (earlier later : List Request) :
    s.run (earlier ++ later) = (s.run earlier).run later := List.foldl_append

theorem run_concat (s : Session) (history : List Request) (request : Request) :
    s.run (history ++ [request]) = ((s.run history).step request).2 :=
  run_append s history [request]

/-- **Nothing is kept under an href exactly where the history has no text for it.** -/
theorem get?_run_eq_none_iff (history : List Request) (href : String) :
    (run {} history).cache.get? href = none ↔ Vacant href history := by
  induction history using List.reverseRecOn with
  | nil =>
    have hnone : (run {} []).cache.get? href = none := Std.HashMap.getElem?_empty
    exact iff_of_true hnone (vacant_nil href)
  | append_singleton history request ih =>
    rw [run_concat, vacant_concat_iff, ← ih]
    rcases request.insert_or_invalidate_or_spares href with ⟨text, rfl⟩ | rfl | hspares
    · rw [get?_step_insert]
      refine iff_of_false (by simp) ?_
      rintro (h | ⟨-, hnone⟩)
      · cases h
      · exact hnone text (Or.inl rfl)
    · exact iff_of_true (get?_step_invalidate _ href) (Or.inl rfl)
    · have hfills : (∀ source, ¬ request.Fills href history source) ↔
          (href ∈ request.asks → ∀ source, (run {} history).shelf.load href ≠ .ok source) := by
        simp only [Request.Fills, hspares.ne_insert, false_or, not_and]
        exact forall_comm
      rw [get?_step_of_spares hspares, hfills, or_iff_right hspares.ne_invalidate]
      by_cases hasks : href ∈ request.asks
      · rw [if_pos hasks, sheetFor?]
        cases (run {} history).cache.get? href with
        | some sheet => simp
        | none => cases (run {} history).shelf.load href <;> simp [Except.toOption, hasks]
      · simp [hasks]

/-- **The stylesheets kept behind a history** are those of the texts that the history keeps. -/
theorem get?_run_eq_some_iff (history : List Request) (href : String) (sheet : Stylesheet) :
    (run {} history).cache.get? href = some sheet ↔
      ∃ source, Keeps href history source ∧ sheet = .ofText source := by
  induction history using List.reverseRecOn generalizing sheet with
  | nil =>
    have hnone : (run {} []).cache.get? href = none := Std.HashMap.getElem?_empty
    rw [hnone]
    refine iff_of_false (by simp) ?_
    rintro ⟨source, h, -⟩
    cases h with
    | inserted eq | loaded eq => simp at eq
  | append_singleton history request ih =>
    rw [run_concat]
    simp only [keeps_concat_iff, ← get?_run_eq_none_iff]
    rcases request.insert_or_invalidate_or_spares href with ⟨text, rfl⟩ | rfl | hspares
    · rw [get?_step_insert]
      constructor
      · intro h
        exact ⟨text, Or.inl rfl, (Option.some.inj h).symm⟩
      · rintro ⟨source, hinsert | ⟨-, hasks, -⟩ | ⟨-, hspares⟩, rfl⟩
        · obtain ⟨-, rfl⟩ := Request.insert.inj hinsert
          rfl
        · cases hasks
        · exact absurd rfl (hspares.ne_insert text)
    · rw [get?_step_invalidate]
      refine iff_of_false (by simp) ?_
      rintro ⟨source, hinsert | ⟨-, hasks, -⟩ | ⟨-, hspares⟩, -⟩
      · cases hinsert
      · cases hasks
      · exact hspares.ne_invalidate rfl
    · rw [get?_step_of_spares hspares]
      simp only [hspares.ne_insert, hspares, false_or, and_true]
      cases hkept : (run {} history).cache.get? href with
      | some kept =>
        have hsame := ih sheet
        rw [hkept] at hsame
        simpa [sheetFor?, hkept] using hsame
      | none =>
        have hnot : ∀ source, ¬ Keeps href history source := by
          intro source h
          have hsome := (ih (.ofText source)).mpr ⟨source, h, rfl⟩
          rw [hkept] at hsome
          cases hsome
        by_cases hasks : href ∈ request.asks
        · cases hfound : (run {} history).shelf.load href with
          | ok source => simp [hasks, sheetFor?, hkept, hfound, hnot, Except.toOption, eq_comm]
          | error error => simp [hasks, sheetFor?, hkept, hfound, hnot, Except.toOption]
        · simp [hasks, hnot]

/-- Only an invalidation makes room for another successful question. -/
theorem allowance_run_le {requests : List Request} (h : .invalidate href ∉ requests) :
    (s.run requests).cache.allowance href ≤ s.cache.allowance href := by
  induction requests generalizing s with
  | nil => exact le_rfl
  | cons request requests ih =>
    rw [List.mem_cons, not_or] at h
    exact (ih h.2).trans (allowance_step_le (Ne.symm h.1))

/-- A stylesheet that is kept stays until it is replaced or invalidated. -/
theorem get?_run_of_kept {requests : List Request} (h : ∀ request ∈ requests, request.Spares href)
    (hkept : (s.cache.get? href).isSome) :
    (s.run requests).cache.get? href = s.cache.get? href := by
  induction requests generalizing s with
  | nil => rfl
  | cons request requests ih =>
    have hstep := get?_step_of_kept (h request List.mem_cons_self) hkept
    have hrest := ih (s := (s.step request).2)
      (fun other ho => h other (List.mem_cons_of_mem request ho)) (hstep ▸ hkept)
    exact hrest.trans hstep

/-! ## What a session has to do with its history -/

/-- A session that is settled by its history. -/
structure Recalls (history : List Request) (s : Session) : Prop where
  /-- Every stylesheet is the outline of its text. -/
  outlined : ∀ href sheet, s.cache.get? href = some sheet → sheet.tree = parse sheet.source
  /-- A stylesheet is kept if since the last invalidation its text was put in, or was on the shelf
  when the stylesheet was asked for. -/
  kept_iff : ∀ href, (s.cache.get? href).isSome ↔
    ∃ earlier request later source, history = earlier ++ request :: later ∧
      request.Fills href earlier source ∧ .invalidate href ∉ later
  /-- The stylesheet is that of the text put in last, or else of the text found first. -/
  sheet_iff : ∀ href sheet, s.cache.get? href = some sheet ↔
    ∃ source, Keeps href history source ∧ sheet = .ofText source
  /-- It stays until it is replaced or invalidated, whatever is put on the shelf. -/
  stays : ∀ href requests, (∀ request ∈ requests, request.Spares href) →
    (s.cache.get? href).isSome → (s.run requests).cache.get? href = s.cache.get? href
  /-- A request for a stylesheet is one question. -/
  load_asks : ∀ href, s.cache.Asked s.shelf.load href (s.step (.load href)).2.cache
  /-- A request for the line of a rule by its position is one question. -/
  lineForIndex_asks : ∀ href index,
    s.cache.Asked s.shelf.load href (s.step (.lineForIndex href index)).2.cache
  /-- Placing a reported rule is one question if the rule has a stylesheet, and none otherwise. -/
  place_asks : ∀ (a : Annotator) href selector,
    a.cache.Asked s.shelf.load href
        (a.place s.config s.shelf.load ⟨some href, selector⟩).2.cache ∧
      (a.place s.config s.shelf.load ⟨none, selector⟩).2.cache = a.cache
  /-- So a request for lines comes to one question for each reported rule that has a stylesheet,
  in the order of the report. -/
  annotate_asks : (s.step (.annotate [])).2.cache = s.cache ∧ ∀ rules href selector,
    (s.step (.annotate rules)).2.cache.Asked s.shelf.load href
        (s.step (.annotate (rules ++ [⟨some href, selector⟩]))).2.cache ∧
      (s.step (.annotate (rules ++ [⟨none, selector⟩]))).2.cache =
        (s.step (.annotate rules)).2.cache
  /-- Requests among which an href is not invalidated have one successful question for it at
  most. -/
  found_le : ∀ href earlier requests, history = earlier ++ requests →
    .invalidate href ∉ requests → s.cache.found href ≤ (run {} earlier).cache.found href + 1
  /-- The stylesheets are counted. -/
  counted : ∃ hrefs : List String, hrefs.Nodup ∧
    (∀ href, href ∈ hrefs ↔ (s.cache.get? href).isSome) ∧ s.cache.size = hrefs.length ∧
    (s.cache.isEmpty ↔ hrefs = [])

/-- **Every run is settled by its history**, step after step. -/
theorem recalls_run (history : List Request) : (run {} history).Recalls history where
  outlined href sheet h := by
    obtain ⟨source, -, rfl⟩ := (get?_run_eq_some_iff history href sheet).mp h
    rfl
  kept_iff href := by
    rw [Option.isSome_iff_ne_none, ne_eq, get?_run_eq_none_iff, Vacant]
    push Not
    rfl
  sheet_iff href sheet := get?_run_eq_some_iff history href sheet
  stays href requests h hkept := get?_run_of_kept h hkept
  load_asks href := Cache.asked_load _ _ href
  lineForIndex_asks href index := by
    have hcache : ((run {} history).step (.lineForIndex href index)).2.cache =
        ((run {} history).cache.load (run {} history).shelf.load href).2 :=
      Cache.lineForIndex?_snd _ _ href index
    rw [hcache]
    exact Cache.asked_load _ _ href
  place_asks a href selector := by
    refine ⟨?_, rfl⟩
    rw [Annotator.cache_place]
    exact Cache.asked_load _ _ href
  annotate_asks := by
    refine ⟨rfl, fun rules href selector => ?_⟩
    rw [cache_step_annotate, cache_step_annotate, cache_step_annotate, List.filterMap_append,
      List.filterMap_append, Cache.loadAll_append, Cache.loadAll_append]
    exact ⟨Cache.asked_load _ _ href, rfl⟩
  found_le href earlier requests heq h := by
    rw [heq, run_append]
    exact (Cache.found_le_allowance href _).trans
      ((allowance_run_le h).trans (Cache.allowance_le href _))
  counted := Cache.exists_hrefs _

end Session

end CssOutline
