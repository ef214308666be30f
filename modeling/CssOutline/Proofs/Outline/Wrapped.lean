import CssOutline.Proofs.Lookup
import CssOutline.Proofs.Outline.Framed
import CssOutline.Proofs.Outline.Joined

/-!
# Wrapping a text in a block

A text that closes its own blocks and no others can be wrapped in a block: in front of it a prelude
and an opening brace, behind it a closing one, both on lines of their own. The block is the only
rule outside of blocks then, and the rules of the text are right inside it as they were, one block
deeper and further down. So they are found inside the block by the selectors by which they were
found before.

## Main definitions

* `RuleTree.wrap`: a tree of rules inside a further rule
* `Text.Plain`: texts that may stand in front of a brace as its prelude
* `wrapped`: a text inside a block

## Main results

* `RuleTree.find?_wrap`: rules are found inside the rule around them as before
* `scan_top_wrapped`: the scan of a wrapped text
* `parse_wrapped`: the outline of a wrapped text
-/

namespace CssOutline

/-! ## Trees inside a rule -/

namespace RuleTree

/-- A tree of rules inside a further rule. -/
def wrap (rule : Rule) (tree : RuleTree) : RuleTree := ⟨.cons rule tree.top .nil⟩

variable (rule : Rule) (tree : RuleTree) (id : Address)

theorem contains_wrap : (tree.wrap rule).contains (0 :: id) = tree.contains id := rfl

/-- Rules are one block deeper inside a further rule. -/
theorem depth_wrap {rule' : Rule} (h : (id, rule') ∈ tree.rules) :
    (tree.wrap rule).depth (0 :: id) = tree.depth id + 1 := by
  have hroot : id ≠ root := (mem_rules_iff.mp h).1
  have hlength : 1 ≤ id.length := List.length_pos_iff.mpr hroot
  rw [depth, contains_wrap, if_pos (contains_of_mem_rules h), depth_of_mem_rules h,
    Nat.sub_add_cancel hlength]
  rfl

theorem children_wrap :
    (tree.wrap rule).children (0 :: id) = (tree.children id).map (0 :: ·) := by
  have hbelow : (tree.wrap rule).top.below? (0 :: id) = tree.top.below? id := rfl
  rw [children, children, hbelow]
  cases tree.top.below? id with
  | none => rfl
  | some below =>
    rw [List.map_map]
    rfl

/-- What is at an address inside the further rule was there without it. -/
theorem get?_wrap (h : id ≠ root) : (tree.wrap rule).get? (0 :: id) = tree.get? id := by
  obtain ⟨i, rest, rfl⟩ := List.exists_cons_of_ne_nil h
  rfl

theorem named_wrap (selector : Text) :
    (tree.wrap rule).named (0 :: id) selector = (tree.named id selector).map (0 :: ·) := by
  rw [named, children_wrap, List.filter_map]
  congr 1
  apply List.filter_congr
  intro child hchild
  have hroot : child ≠ root := by
    obtain ⟨i, -, rfl, -⟩ := mem_children_iff.mp hchild
    exact List.append_ne_nil_of_right_ne_nil _ (List.cons_ne_nil _ _)
  show ((tree.wrap rule).selector? (0 :: child) == some selector) = _
  rw [selector?, get?_wrap rule tree child hroot]
  rfl

/-- **Rules are found inside the rule around them as before.** -/
theorem find?_wrap (query : Text) :
    (tree.wrap rule).find? (0 :: id) query = (tree.find? id query).map (List.map (0 :: ·)) := by
  rw [find?_eq, find?_eq, named_wrap, List.isEmpty_map]
  split <;> rfl

/-- Rules are found as before where a change leaves all selectors as they are. -/
theorem find?_map {change : Rule → Rule} (h : ∀ rule, (change rule).selector = rule.selector)
    (query : Text) : (tree.map change).find? id query = tree.find? id query := by
  have hselector : ∀ child, (tree.map change).selector? child = tree.selector? child := by
    intro child
    unfold selector? get? map
    split
    · rfl
    · rw [Forest.get?_map, Option.bind_map]
      congr 1
      funext rule
      exact h rule
  have hnamed : ∀ selector, (tree.map change).named id selector = tree.named id selector := by
    intro selector
    unfold named
    rw [children_map]
    simp only [hselector]
  rw [find?_eq, find?_eq, hnamed]

end RuleTree

/-! ## The text in front -/

/-- A text without comment marks, braces and import keywords. -/
structure Text.Plain (text : Text) : Prop where
  not_mem : ∀ c ∈ text, c ∉ ['/', '*', '{', '}']
  not_import : ¬ Mark.importKeyword.literal <:+: text

/-- A text inside a block with the given prelude. -/
def wrapped (front text : Text) : Text := front ++ '{' :: '\n' :: (text ++ ['\n', '}'])

section Wrapped

variable {front text : Text}

/-- The only mark of a plain text is `@`. -/
theorem Text.Plain.mark_eq (h : front.Plain) {t : Token} (ht : t ∈ tokens front) :
    t.mark = .atSign := by
  obtain ⟨mark, start⟩ := t
  obtain ⟨a, b, hfront, -⟩ := exists_eq_append_of_mem_tokens ht
  have hmem : ∀ c ∈ mark.literal, c ∉ ['/', '*', '{', '}'] := by
    intro c hc
    apply h.not_mem
    rw [hfront]
    exact List.mem_append_right a (List.mem_append_left b hc)
  cases mark with
  | atSign => rfl
  | importKeyword =>
    refine absurd ⟨a, b, ?_⟩ h.not_import
    rw [hfront, List.append_assoc]
  | commentOpen | slash => exact absurd (hmem '/' List.mem_cons_self) (by decide)
  | commentClose | star => exact absurd (hmem '*' List.mem_cons_self) (by decide)
  | blockOpen => exact absurd (hmem '{' List.mem_cons_self) (by decide)
  | blockClose => exact absurd (hmem '}' List.mem_cons_self) (by decide)

/-- Reading a plain text changes nothing. -/
theorem Text.Plain.readTokens_eq (h : front.Plain) (text : Text) :
    Scanner.readTokens text (tokens front) = {} := by
  have hfold : ∀ (read : List Token) (s : Scanner), (∀ t ∈ read, t.mark = .atSign) →
      read.foldl (Scanner.step text) s = s := by
    intro read s hread
    induction read with
    | nil => rfl
    | cons t read ih =>
      have hstep : s.step text t = s := by
        rw [Scanner.step, hread t List.mem_cons_self]
        split <;> rfl
      rw [List.foldl_cons, hstep]
      exact ih fun u hu => hread u (List.mem_cons_of_mem t hu)
  exact hfold _ _ fun t ht => h.mark_eq ht

/-- A wrapped text, line by line. -/
theorem wrapped_eq (front text : Text) :
    wrapped front text = front ++ ['{'] ++ '\n' :: (text ++ ['\n', '}']) := by
  rw [List.append_assoc]
  rfl

theorem byteSize_opening (front : Text) : (front ++ ['{']).byteSize = front.byteSize + 1 := by
  rw [Text.byteSize_append]
  rfl

theorem byteSize_wrapped (front text : Text) :
    (wrapped front text).byteSize = text.byteSize + 1 + (front.byteSize + 2) + 1 := by
  have hclosing : Text.byteSize ['\n', '}'] = 2 := rfl
  have hnewline : '\n'.utf8Size = 1 := rfl
  rw [wrapped_eq, Text.byteSize_append, byteSize_opening, Text.byteSize_cons, Text.byteSize_append,
    hclosing, hnewline]
  omega

/-- The tokens of a wrapped text. -/
theorem tokens_wrapped (front text : Text) :
    tokens (wrapped front text) = tokens front ++ ⟨.blockOpen, front.byteSize⟩ ::
      ((tokens text).map (Token.move (· + (front.byteSize + 2))) ++
        [⟨.blockClose, text.byteSize + 1 + (front.byteSize + 2)⟩]) := by
  have hcut : Text.CleanCut front ['{'] :=
    Text.cleanCut_cons (by simp [Mark.joined_iff]) front []
  have hopening : tokens (front ++ ['{']) = tokens front ++ [⟨.blockOpen, front.byteSize⟩] := by
    rw [tokens, tokensFrom_append hcut, Nat.zero_add]
    rfl
  have hclosing : tokens (text ++ ['\n', '}']) =
      tokens text ++ [⟨.blockClose, text.byteSize + 1⟩] := by
    rw [tokens_append_newline]
    show tokens text ++ [⟨.blockClose, 0 + (text.byteSize + 1)⟩] = _
    rw [Nat.zero_add]
  rw [wrapped_eq, tokens_append_newline, hopening, hclosing, byteSize_opening, List.map_append,
    List.append_assoc]
  rfl

/-! ## The scan of the whole -/

/-- The block around the rules of a wrapped text, as it is opened. -/
def wrapper (front : Text) : OpenBlock := ⟨0, front.byteSize, []⟩

/-- The scanner behind some tokens of a text, further down in the wrapped text, if the block around
them were not open. -/
def unwrapped (front text : Text) (read : List Token) : Scanner :=
  (read.map (Token.move (· + (front.byteSize + 2)))).foldl (Scanner.step (wrapped front text))
    { outline := { pending := front.byteSize + 1 } }

/-- Without the block around, the tokens of a text are read as in the text itself. -/
theorem mirrors_unwrapped (front : Text) {read : List Token}
    (hread : ∀ t ∈ read, t ∈ tokens text) :
    Scanner.Mirrors (front.byteSize + 2) (Scanner.readTokens text read)
      (unwrapped front text read) := by
  have hstart : Scanner.Mirrors (front.byteSize + 2) {}
      { outline := { pending := front.byteSize + 1 } } :=
    ⟨rfl, fun start => by simp only [Nat.not_lt_zero], rfl⟩
  apply hstart.foldl_step
  intro t ht hmark
  have himport := importLength?_between (front ++ ['{']) importStatement?_append_closing
    (hread t ht) hmark
  rw [byteSize_opening, ← wrapped_eq] at himport
  exact himport

/-- **Inside the block the scanner reads a text as without the block.** -/
theorem readTokens_wrapped (hfront : front.Plain) (htext : Scanner.SelfContained text) :
    Scanner.readTokens (wrapped front text) (tokens front ++ ⟨.blockOpen, front.byteSize⟩ ::
        (tokens text).map (Token.move (· + (front.byteSize + 2)))) =
      (unwrapped front text (tokens text)).above [wrapper front] := by
  have hopening : Scanner.readTokens (wrapped front text)
      (tokens front ++ [⟨.blockOpen, front.byteSize⟩]) =
        Scanner.above [wrapper front] { outline := { pending := front.byteSize + 1 } } := by
    rw [Scanner.readTokens_concat, hfront.readTokens_eq]
    rfl
  rw [List.append_cons, Scanner.readTokens_append, hopening]
  apply Scanner.foldl_step_above
  intro before token after hread
  obtain ⟨read, rest, htokens, rfl, hrest⟩ := List.map_eq_append_iff.mp hread
  obtain ⟨token, after, rfl, rfl, -⟩ := List.map_eq_cons_iff.mp hrest
  have hmirrors := mirrors_unwrapped front fun t (ht : t ∈ read) => by
    rw [htokens]
    exact List.mem_append_left _ ht
  exact hmirrors.closesOwn (htext.closesOwn read token after htokens)

/-- The rules of a text, further down in the wrapped text. -/
def innerRules (front text : Text) : Builder :=
  ((landmarks text).map (Landmark.move (· + (front.byteSize + 2)))).foldl Builder.read
    { pending := front.byteSize + 1 }

/-- Without the block around, the outline holds the rules of the text. -/
theorem outline_unwrapped (front text : Text) :
    (unwrapped front text (tokens text)).outline = innerRules front text := by
  have hpairwise := pairwise_tokensFrom 0 (wrapped front text)
  rw [← tokens, tokens_wrapped] at hpairwise
  have hinner := (List.pairwise_append.mp
    (List.pairwise_cons.mp (List.pairwise_append.mp hpairwise).2.1).2).1
  have hland := landmarksFrom_between (front ++ ['{']) text ['\n', '}']
    importStatement?_append_closing
  rw [byteSize_opening, ← wrapped_eq] at hland
  have hall : ((tokens text).map (Token.move (· + (front.byteSize + 2)))).filter
      (fun t => 0 ≤ t.start) = (tokens text).map (Token.move (· + (front.byteSize + 2))) :=
    List.filter_eq_self.mpr fun t _ => decide_eq_true (Nat.zero_le _)
  unfold unwrapped innerRules
  rw [Scanner.outline_foldl_step _ hinner]
  show List.foldl Builder.read _ (landmarksFrom _ 0 (List.filter (fun t => 0 ≤ t.start) _)) = _
  rw [hall, hland]

/-- **The scan of a wrapped text**: the rules of the text in a block. -/
theorem scan_top_wrapped (hfront : front.Plain) (htext : Scanner.SelfContained text) :
    (scan (wrapped front text)).top =
      .cons { start := 0, bodyStart := front.byteSize, stop := (wrapped front text).byteSize - 1 }
        ((innerRules front text).finish (text.byteSize + (front.byteSize + 2))) .nil := by
  have hmirrors := mirrors_unwrapped front fun t (ht : t ∈ tokens text) => ht
  have hread := readTokens_wrapped hfront htext
  have houtline := outline_unwrapped front text
  set s := unwrapped front text (tokens text) with hs
  have hopened : s.outline.opened = [] := by
    apply List.length_eq_zero_iff.mp
    rw [hmirrors.length_opened_eq]
    exact congrArg List.length htext.opened_eq
  have hdepth : s.commentDepth = 0 := hmirrors.commentDepth_eq.trans htext.commentDepth_eq
  have hresume : ¬ text.byteSize + 1 + (front.byteSize + 2) < s.resume := by
    rw [hmirrors.lt_resume_iff, Nat.not_lt]
    exact (Scanner.resume_run_le text).trans (Nat.le_succ _)
  obtain ⟨brace, hbrace⟩ : ∃ brace, text.byteSize + 1 + (front.byteSize + 2) = brace := ⟨_, rfl⟩
  have hrun : Scanner.run (wrapped front text) =
      (s.above [wrapper front]).step (wrapped front text) ⟨.blockClose, brace⟩ := by
    rw [Scanner.run, tokens_wrapped, ← List.cons_append, ← List.append_assoc,
      Scanner.readTokens_concat, hread, hbrace]
  have hstep : (s.above [wrapper front]).step (wrapped front text) ⟨.blockClose, brace⟩ =
      { s with outline := (s.outline.above [wrapper front]).closeBlock brace } := by
    rw [hbrace] at hresume
    unfold Scanner.step
    show (if brace < s.resume then _ else if s.commentDepth = 0 then _ else _) = _
    rw [if_neg hresume, if_pos hdepth]
    rfl
  rw [scan, hrun, hstep, ← houtline, byteSize_wrapped, hbrace]
  obtain ⟨depth, resume, pending, opened, finished⟩ := s
  obtain rfl : opened = [] := hopened
  rfl

/-! ## The outline of the whole -/

/-- The brace of the block begins no further line. -/
theorem size_ofText_opening (front : Text) :
    (LineIndex.ofText (front ++ ['{'])).size = (LineIndex.ofText front).size := by
  have hcut : ¬ Text.SplitsLineEnd front ['{'] :=
    Text.not_splitsLineEnd_of_head? (by decide) front
  have hbrace : Text.lineEnds ['{'] = 0 := by decide
  rw [LineIndex.size_ofText, LineIndex.size_ofText, Text.lineEnds_append hcut, hbrace, Nat.add_zero]

/-- The rules of a text are completed to the shifted rules inside the block. -/
theorem map_complete_innerRules (front text : Text) :
    ((innerRules front text).finish (text.byteSize + (front.byteSize + 2))).map
        (Rule.complete (wrapped front text)) =
      (parse text).top.map (Rule.shift (front.byteSize + 2) (LineIndex.ofText front).size) := by
  have hcut : ∀ b, ¬ Text.SplitsLineEnd (front ++ ['{']) b := by
    apply Text.not_splitsLineEnd_of_getLast?
    rw [List.getLast?_concat]
    decide
  have halike : Builder.Alike (fun rule rule' => rule'.complete (wrapped front text) =
      (rule.complete text).shift (front.byteSize + 2) (LineIndex.ofText front).size)
      (· + (front.byteSize + 2)) {} { pending := front.byteSize + 1 } := ⟨.nil, .nil⟩
  have houtline := halike.foldl_read
    fun before l after (hls : landmarks text = before ++ l :: after) => by
      have hmoves := movesRule_between hcut ['\n', '}'] hls
      rw [← wrapped_eq, byteSize_opening, size_ofText_opening] at hmoves
      exact hmoves
  have hfinish := houtline.finish text.byteSize
  rw [parse_top_eq, scan_top_eq, Forest.map_map]
  exact (hfinish.map_eq_map fun _ _ hrule => hrule.symm).symm

/-- **Wrapping a text in a block.** Let the text in front hold no comment mark, no import keyword,
and no brace, and let the text inside close its own blocks and no others. Then the outline of the
whole has one rule outside of blocks, whose body is all that is inside, and right inside it the
outline of the text: its rules in the same order and the same blocks, with their offsets moved
behind the opening brace and their lines behind those of the text in front, one block deeper. So
what a selector finds in the text it finds inside the block. -/
theorem parse_wrapped (hfront : front.Plain) (htext : Scanner.SelfContained text) :
    ∃ wrap : Rule,
      parse (wrapped front text) =
        ((parse text).map (Rule.shift (front.byteSize + 2) (LineIndex.ofText front).size)).wrap
          wrap ∧
      wrap.bodyStart = front.byteSize ∧
      wrap.stop = (wrapped front text).byteSize - 1 ∧
      (∀ id rule, (id, rule) ∈ (parse text).rules →
        (parse (wrapped front text)).depth (0 :: id) = (parse text).depth id + 1) ∧
      ∀ query, (parse (wrapped front text)).find? [0] query =
        ((parse text).find? RuleTree.root query).map (List.map (0 :: ·)) := by
  obtain ⟨wrap, hwrap⟩ : ∃ wrap, Rule.complete (wrapped front text)
      { start := 0, bodyStart := front.byteSize, stop := (wrapped front text).byteSize - 1 } =
        wrap := ⟨_, rfl⟩
  have hparse : parse (wrapped front text) =
      ((parse text).map (Rule.shift (front.byteSize + 2) (LineIndex.ofText front).size)).wrap
        wrap := by
    apply congrArg RuleTree.mk
    show (parse (wrapped front text)).top = _
    rw [parse_top_eq, scan_top_wrapped hfront htext, Forest.map_cons, Forest.map_nil,
      map_complete_innerRules, hwrap]
    rfl
  refine ⟨wrap, hparse, ?_, ?_, ?_, ?_⟩
  · rw [← hwrap]
    rfl
  · rw [← hwrap]
    rfl
  · intro id rule hr
    have hmoved : (id, rule.shift (front.byteSize + 2) (LineIndex.ofText front).size) ∈
        ((parse text).map
          (Rule.shift (front.byteSize + 2) (LineIndex.ofText front).size)).rules := by
      rw [RuleTree.rules_map]
      exact List.mem_map_of_mem hr
    rw [hparse, RuleTree.depth_wrap _ _ _ hmoved, RuleTree.depth_map]
  · intro query
    have hselector : ∀ rule : Rule, (rule.shift (front.byteSize + 2)
        (LineIndex.ofText front).size).selector = rule.selector := fun _ => rfl
    rw [hparse, ← RuleTree.find?_map (parse text) RuleTree.root hselector query]
    exact RuleTree.find?_wrap wrap _ RuleTree.root query

/-- A block around a block. -/
theorem parse_wrapped_block :
    let front : Text := ['@', 'a']
    let text : Text := ['b', '{', '}']
    front.Plain ∧ Scanner.SelfContained text ∧
      (parse (wrapped front text)).find? [0] ['b'] = some [[0, 0]] := by
  intro front text
  have hfront : front.Plain := by
    constructor
    · simp [front]
    · intro hkeyword
      exact absurd hkeyword.length_le (by decide)
  have htext : Scanner.SelfContained text := by
    refine ⟨fun read token rest htokens => ?_, rfl, rfl⟩
    have hall : tokens text = [⟨.blockOpen, 1⟩, ⟨.blockClose, 2⟩] := by decide
    rw [hall] at htokens
    match read, htokens with
    | [], htokens =>
      obtain ⟨rfl, -⟩ := List.cons.inj htokens
      exact fun hmark => nomatch hmark
    | [_], htokens =>
      obtain ⟨rfl, -⟩ := List.cons.inj htokens
      exact fun _ _ _ => List.cons_ne_nil _ _
    | _ :: _ :: read, htokens => simp at htokens
  obtain ⟨-, -, -, -, -, hfind⟩ := parse_wrapped hfront htext
  refine ⟨hfront, htext, ?_⟩
  rw [hfind]
  decide

end Wrapped

end CssOutline
