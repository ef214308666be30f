import CssOutline.Proofs.Outline.Growth
import Mathlib.Data.List.Forall2

/-!
# Reading the outline of a stylesheet off its landmarks

The rules of a text are its import statements and the blocks of its opening braces, in the order
of the text. A block starts where the landmark before it ends, stops at the partner of its brace,
and lies in the blocks that are open at its brace.

## Main definitions

* `Heading`: a landmark that begins a rule
* `Heading.Begins`: the rule that begins there
* `Heading.PlacedAt`: where this rule stands in a tree

## Main results

* `scan_rules_eq_reading`: the rules of a text are those that its landmarks begin
-/

namespace CssOutline

/-- A landmark that begins a rule, between the landmarks before and after it. -/
structure Heading where
  before : List Landmark
  landmark : Landmark
  after : List Landmark

/-- The headings among some landmarks behind others: all landmarks but closing braces. -/
def headings (before : List Landmark) : List Landmark → List Heading
  | [] => []
  | .opening brace :: after =>
    ⟨before, .opening brace, after⟩ :: headings (before ++ [.opening brace]) after
  | .closing brace :: after => headings (before ++ [.closing brace]) after
  | .statement start stop :: after =>
    ⟨before, .statement start stop, after⟩ :: headings (before ++ [.statement start stop]) after

/-- Where the last of some landmarks ends. -/
def lastStop (before : List Landmark) : Nat := (before.getLast?.map Landmark.stop).getD 0

/-- The rule that begins at a heading of a text that ends at offset `size`. -/
inductive Heading.Begins (size : Nat) : Heading → Rule → Prop
  | statement (before after : List Landmark) (start stop : Nat) :
      Begins size ⟨before, .statement start stop, after⟩
        { start, bodyStart := start + Mark.importKeyword.byteSize, stop }
  | closedBlock (before : List Landmark) {after : List Landmark} (brace : Nat) {stop : Nat}
      (closed : ClosesAt after stop) :
      Begins size ⟨before, .opening brace, after⟩
        { start := lastStop before, bodyStart := brace, stop }
  | openBlock (before : List Landmark) {after : List Landmark} (brace : Nat)
      (unclosed : ∀ stop, ¬ ClosesAt after stop) :
      Begins size ⟨before, .opening brace, after⟩
        { start := lastStop before, bodyStart := brace, stop := size }

/-- The rule of a heading stands at an address of a tree: in the blocks that are open there. -/
structure Heading.PlacedAt (tree : RuleTree) (heading : Heading) (id : Address) : Prop where
  depth_eq : tree.depth id = (enclosing 0 heading.before).length
  /-- Outside of all blocks the rule is right below the root. -/
  parent_of_top : enclosing 0 heading.before = [] → tree.parent? id = some RuleTree.root
  /-- Elsewhere it is right inside the innermost open block. -/
  parent_of_block : ∀ k ∈ (enclosing 0 heading.before).getLast?, ∃ up block,
    tree.rules[k]? = some (up, block) ∧ tree.parent? id = some up
  childless : ∀ start stop, heading.landmark = .statement start stop → tree.children id = []

/-! ## Headings and the rules they add -/

theorem lastStop_concat (before : List Landmark) (l : Landmark) :
    lastStop (before ++ [l]) = l.stop := by
  simp [lastStop]

/-- The next prelude begins where the last landmark ends. -/
theorem pending_foldl_read (before : List Landmark) :
    (before.foldl Builder.read {}).pending = lastStop before :=
  Builder.pending_foldl_read {} before

/-- A heading stands among the landmarks that it was found in. -/
theorem eq_of_mem_headings {before ls : List Landmark} {h : Heading} (hm : h ∈ headings before ls) :
    before ++ ls = h.before ++ h.landmark :: h.after := by
  induction ls generalizing before with
  | nil => cases hm
  | cons l rest ih =>
    have hrest : h ∈ headings (before ++ [l]) rest →
        before ++ l :: rest = h.before ++ h.landmark :: h.after := by
      intro hm
      rw [List.append_cons]
      exact ih hm
    cases l with
    | closing brace => exact hrest hm
    | opening brace | statement start stop =>
      rcases List.mem_cons.mp hm with rfl | hm
      · rfl
      · exact hrest hm

/-- The rule that is added at a heading is the one that begins there. -/
theorem forall₂_headings_ruleEntries (size : Nat) (before ls : List Landmark) :
    List.Forall₂
      (fun h (entry : Address × Rule) =>
        entry.1 = (h.before.foldl Builder.read {}).next ∧ h.Begins size entry.2)
      (headings before ls) (ruleEntries size (before.foldl Builder.read {}) ls) := by
  induction ls generalizing before with
  | nil => exact .nil
  | cons l rest ih =>
    have hrest := ih (before ++ [l])
    rw [List.foldl_concat] at hrest
    cases l with
    | opening brace =>
      refine .cons ⟨rfl, ?_⟩ hrest
      rw [pending_foldl_read]
      cases hc : closer? 0 rest with
      | some stop => exact .closedBlock before brace (closer?_zero_eq_some_iff.mp hc)
      | none =>
        refine .openBlock before brace fun stop hs => ?_
        rw [closer?_zero_eq_some_iff.mpr hs] at hc
        cases hc
    | closing brace => exact hrest
    | statement start stop => exact .cons ⟨rfl, .statement before rest start stop⟩ hrest

/-- A rule that `enclosing` counts begins with an opening brace. -/
theorem opening_of_mem_enclosing (before : List Landmark) {ls : List Landmark} {n k : Nat}
    (hk : k ∈ enclosing n ls) :
    n ≤ k ∧ ∃ brace, ((headings before ls).map (·.landmark))[k - n]? = some (.opening brace) := by
  induction ls generalizing before n with
  | nil => cases hk
  | cons l rest ih =>
    have hrest : ∀ (x : Landmark) (tail : List Landmark), k ∈ enclosing (n + 1) rest →
        tail = (headings (before ++ [l]) rest).map (·.landmark) →
        n ≤ k ∧ ∃ brace, (x :: tail)[k - n]? = some (.opening brace) := by
      rintro x tail hk rfl
      obtain ⟨hn, brace, hb⟩ := ih (before ++ [l]) hk
      refine ⟨by omega, brace, ?_⟩
      rw [← hb, show k - n = k - (n + 1) + 1 by omega, List.getElem?_cons_succ]
    cases l with
    | opening brace =>
      simp only [enclosing] at hk
      split at hk
      · exact hrest _ _ hk rfl
      · rcases List.mem_cons.mp hk with rfl | hk
        · exact ⟨le_rfl, brace, by simp [headings]⟩
        · exact hrest _ _ hk rfl
    | closing brace => exact ih (before ++ [.closing brace]) hk
    | statement start stop => exact hrest _ _ hk rfl

theorem map_landmark_headings_append (before xs ys : List Landmark) :
    (headings before (xs ++ ys)).map (·.landmark) =
      (headings before xs).map (·.landmark) ++
        (headings (before ++ xs) ys).map (·.landmark) := by
  induction xs generalizing before with
  | nil => simp [headings]
  | cons l xs ih =>
    cases l <;> simp [headings, ih]

/-- The blocks that are open at a heading are among all rules of the landmarks. -/
theorem opening_of_mem_enclosing_before {ls : List Landmark} {h : Heading}
    (hm : h ∈ headings [] ls) {k : Nat} (hk : k ∈ enclosing 0 h.before) :
    ∃ brace, ((headings [] ls).map (·.landmark))[k]? = some (.opening brace) := by
  have hls : ls = h.before ++ h.landmark :: h.after := eq_of_mem_headings hm
  obtain ⟨-, brace, hb⟩ := opening_of_mem_enclosing [] hk
  rw [Nat.sub_zero] at hb
  refine ⟨brace, ?_⟩
  rw [hls, map_landmark_headings_append,
    List.getElem?_append_left (List.getElem?_eq_some_iff.mp hb).1, hb]

/-! ## The place of a rule -/

section Place

variable {size : Nat} {ls : List Landmark}

/-- The tree of some landmarks, in a text that ends at offset `size`. -/
def outlineOf (size : Nat) (ls : List Landmark) : RuleTree :=
  ⟨(ls.foldl Builder.read {}).finish size⟩

theorem rules_outlineOf (size : Nat) (ls : List Landmark) :
    (outlineOf size ls).rules = ruleEntries size {} ls := by
  rw [RuleTree.rules, outlineOf, entries_finish_foldl_read]
  rfl

theorem forall₂_headings_rules (size : Nat) (ls : List Landmark) :
    List.Forall₂
      (fun h (entry : Address × Rule) =>
        entry.1 = (h.before.foldl Builder.read {}).next ∧ h.Begins size entry.2)
      (headings [] ls) (outlineOf size ls).rules := by
  rw [rules_outlineOf]
  exact forall₂_headings_ruleEntries size [] ls

/-- The open blocks at a heading, by their numbers and by their addresses. -/
theorem map_enclosing_before (size : Nat) {h : Heading} (hm : h ∈ headings [] ls) :
    (enclosing 0 h.before).map (fun k => (outlineOf size ls).rules[k]?.map (·.1)) =
      (openPlaces (h.before.foldl Builder.read {}).opened).map some := by
  have hls : ls = h.before ++ h.landmark :: h.after := eq_of_mem_headings hm
  have hopen : openPlaces (h.before.foldl Builder.read {}).opened = unclosedPlaces {} h.before :=
    openPlaces_foldl_read h.before {}
  rw [hopen, ← map_enclosing size h.before {} []]
  refine List.map_congr_left fun k hk => ?_
  have hlen : k < ((ruleEntries size {} h.before).map (·.1)).length := by
    obtain ⟨-, brace, hb⟩ := opening_of_mem_enclosing [] hk
    have hlt := (List.getElem?_eq_some_iff.mp hb).1
    have heq := (forall₂_headings_ruleEntries size [] h.before).length_eq
    simp only [List.length_map, List.foldl_nil] at hlt heq ⊢
    omega
  rw [← List.getElem?_map, rules_outlineOf, List.nil_append, hls, map_fst_ruleEntries_append,
    List.getElem?_append_left hlen]

theorem mem_rules_of_zip {h : Heading} {entry : Address × Rule}
    (hz : (h, entry) ∈ (headings [] ls).zip (outlineOf size ls).rules) :
    h ∈ headings [] ls ∧ (entry.1, entry.2) ∈ (outlineOf size ls).rules ∧
      entry.1 = placeOf (h.before.foldl Builder.read {}).opened ++
        [(h.before.foldl Builder.read {}).finished.length] :=
  ⟨(List.of_mem_zip hz).1, (List.of_mem_zip hz).2,
    (List.forall₂_zip (forall₂_headings_rules size ls) hz).1⟩

/-- The address of the parent of a rule is that of the innermost open block. -/
theorem parent?_of_zip {h : Heading} {entry : Address × Rule}
    (hz : (h, entry) ∈ (headings [] ls).zip (outlineOf size ls).rules) :
    (outlineOf size ls).parent? entry.1 =
      some (placeOf (h.before.foldl Builder.read {}).opened) := by
  obtain ⟨-, hr, hid⟩ := mem_rules_of_zip hz
  rw [RuleTree.parent?_of_mem_rules hr, hid, List.dropLast_concat]

theorem depth_of_zip {h : Heading} {entry : Address × Rule}
    (hz : (h, entry) ∈ (headings [] ls).zip (outlineOf size ls).rules) :
    (outlineOf size ls).depth entry.1 = (enclosing 0 h.before).length := by
  obtain ⟨hm, hr, hid⟩ := mem_rules_of_zip hz
  have hlen := congrArg List.length (map_enclosing_before size hm)
  simp only [List.length_map, length_openPlaces] at hlen
  rw [RuleTree.depth_of_mem_rules hr, hid, hlen]
  simp

/-- The innermost open block at a heading, by its number and by its address. -/
theorem rules_getElem?_of_mem_enclosing (size : Nat) {h : Heading} (hm : h ∈ headings [] ls)
    {k : Nat} (hk : k ∈ (enclosing 0 h.before).getLast?) :
    ∃ block, (outlineOf size ls).rules[k]? =
      some (placeOf (h.before.foldl Builder.read {}).opened, block) := by
  have hlast := congrArg List.getLast? (map_enclosing_before size hm)
  rw [List.getLast?_map, List.getLast?_map, Option.mem_def.mp hk, Option.map_some] at hlast
  cases ho : (h.before.foldl Builder.read {}).opened with
  | nil => simp [ho, openPlaces] at hlast
  | cons block outer =>
    rw [ho, openPlaces, List.getLast?_concat, Option.map_some, Option.some.injEq] at hlast
    obtain ⟨entry, he, hid⟩ := Option.map_eq_some_iff.mp hlast
    exact ⟨entry.2, by rw [he, ← hid]⟩

theorem placeOf_eq_root_of_enclosing {h : Heading} (hm : h ∈ headings [] ls)
    (he : enclosing 0 h.before = []) :
    placeOf (h.before.foldl Builder.read {}).opened = RuleTree.root := by
  have hopen := map_enclosing_before 0 hm
  rw [he, List.map_nil, eq_comm, List.map_eq_nil_iff] at hopen
  have hlen := congrArg List.length hopen
  rw [length_openPlaces, List.length_nil, List.length_eq_zero_iff] at hlen
  rw [hlen]
  rfl

/-- A rule and its heading have the same number. -/
theorem exists_getElem?_of_zip {h : Heading} {entry : Address × Rule}
    (hz : (h, entry) ∈ (headings [] ls).zip (outlineOf size ls).rules) :
    ∃ n : Nat, (headings [] ls)[n]? = some h ∧ (outlineOf size ls).rules[n]? = some entry := by
  obtain ⟨n, hn⟩ := List.mem_iff_getElem?.mp hz
  exact ⟨n, List.getElem?_zip_eq_some.mp hn⟩

theorem exists_zip_of_mem_rules {entry : Address × Rule}
    (hr : entry ∈ (outlineOf size ls).rules) :
    ∃ h, (h, entry) ∈ (headings [] ls).zip (outlineOf size ls).rules := by
  obtain ⟨n, hn⟩ := List.mem_iff_getElem?.mp hr
  have hlt := (List.getElem?_eq_some_iff.mp hn).1
  rw [← (forall₂_headings_rules size ls).length_eq] at hlt
  refine ⟨(headings [] ls)[n], List.mem_iff_getElem?.mpr ⟨n, ?_⟩⟩
  exact List.getElem?_zip_eq_some.mpr ⟨List.getElem?_eq_getElem hlt, hn⟩

/-- There are no rules inside an import statement. -/
theorem children_of_zip_statement {h : Heading} {entry : Address × Rule} {start stop : Nat}
    (hz : (h, entry) ∈ (headings [] ls).zip (outlineOf size ls).rules)
    (hl : h.landmark = .statement start stop) : (outlineOf size ls).children entry.1 = [] := by
  obtain ⟨-, hr, -⟩ := mem_rules_of_zip hz
  refine List.eq_nil_iff_forall_not_mem.mpr fun child hchild => ?_
  obtain ⟨i, rule, rfl, hc⟩ := RuleTree.mem_children_iff.mp hchild
  obtain ⟨h', hz'⟩ := exists_zip_of_mem_rules hc
  obtain ⟨hm', -, -⟩ := mem_rules_of_zip hz'
  have hup : entry.1 = placeOf (h'.before.foldl Builder.read {}).opened := by
    have hp := RuleTree.parent?_of_mem_rules hc
    rw [parent?_of_zip hz', List.dropLast_concat] at hp
    exact (Option.some.inj hp).symm
  cases hk : (enclosing 0 h'.before).getLast? with
  | none =>
    rw [List.getLast?_eq_none_iff] at hk
    have hroot := (RuleTree.mem_rules_iff.mp hr).1
    exact hroot (hup.trans (placeOf_eq_root_of_enclosing hm' hk))
  | some k =>
    obtain ⟨block, hblock⟩ := rules_getElem?_of_mem_enclosing size hm' hk
    obtain ⟨n, hn, hentry⟩ := exists_getElem?_of_zip hz
    obtain rfl : n = k := RuleTree.eq_of_getElem?_rules hentry hblock hup
    obtain ⟨brace, hbrace⟩ := opening_of_mem_enclosing_before hm' (List.mem_of_getLast? hk)
    rw [List.getElem?_map, hn, Option.map_some, hl] at hbrace
    cases hbrace

/-- Each rule of an outline is the one that begins at its heading, and stands where the landmarks
before the heading put it. -/
theorem forall₂_headings_outlineOf (size : Nat) (ls : List Landmark) :
    List.Forall₂
      (fun h (entry : Address × Rule) =>
        h.Begins size entry.2 ∧ h.PlacedAt (outlineOf size ls) entry.1)
      (headings [] ls) (outlineOf size ls).rules := by
  have hrules := forall₂_headings_rules size ls
  refine List.forall₂_iff_zip.mpr ⟨hrules.length_eq, fun {h entry} hz => ?_⟩
  obtain ⟨hm, -, -⟩ := mem_rules_of_zip hz
  refine ⟨(List.forall₂_zip hrules hz).2, depth_of_zip hz, ?_, ?_, ?_⟩
  · intro he
    rw [parent?_of_zip hz, placeOf_eq_root_of_enclosing hm he]
  · intro k hk
    obtain ⟨block, hblock⟩ := rules_getElem?_of_mem_enclosing size hm hk
    exact ⟨_, block, hblock, parent?_of_zip hz⟩
  · intro start stop hl
    exact children_of_zip_statement hz hl

end Place

/-- The rules of a text are the outline of its landmarks. -/
theorem scan_eq_outlineOf (text : Text) : scan text = outlineOf text.byteSize (landmarks text) :=
  congrArg RuleTree.mk (scan_top_eq text)

/-- Each rule of a text begins at one of its headings. -/
theorem exists_heading_of_mem_rules {text : Text} {entry : Address × Rule}
    (hr : entry ∈ (scan text).rules) :
    ∃ h ∈ headings [] (landmarks text), h.Begins text.byteSize entry.2 := by
  rw [scan_eq_outlineOf] at hr
  obtain ⟨h, hz⟩ := exists_zip_of_mem_rules hr
  exact ⟨h, (mem_rules_of_zip hz).1, (List.forall₂_zip (forall₂_headings_rules _ _) hz).2⟩

/-- **The rules of a text are those that its landmarks begin**, in the order of the landmarks. At
an import statement begins a rule without rules inside it, and at an opening brace a block that
starts where the landmark before it ends, stops at its partner and lies in the blocks open there. -/
theorem scan_rules_eq_reading (text : Text) :
    List.Forall₂
      (fun heading (entry : Address × Rule) =>
        heading.Begins text.byteSize entry.2 ∧ heading.PlacedAt (scan text) entry.1)
      (headings [] (landmarks text)) (scan text).rules := by
  rw [scan_eq_outlineOf]
  exact forall₂_headings_outlineOf text.byteSize (landmarks text)

end CssOutline
