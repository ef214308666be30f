import CssOutline.Proofs.Outline.Completed
import CssOutline.Proofs.Prelude.Blanked

/-!
# Outlines without comments

Comments are inert: where they stand in a stylesheet, spaces could stand as well. The braces outside
of comments are the same, so the same rules open and close at the same offsets. Stripping stops in
front of the same characters, so the rules begin at the same offsets and on the same lines. Only
what is inside the prelude of a rule shows in its selector.

This holds where no import statement is read, for that could reach into a comment, and where the
scanner sees no comment inside another, for stripping does not count comments.

## Main definitions

* `Scanner.OnlyBlocks`: texts without import statements and comments inside of comments
* `Uncommented`: the places of a text at which no comment is open
* `Rule.SameUncommented`: rules that differ in the comments of their selectors at most

## Main results

* `Scanner.OnlyBlocks.landmarks_blanked`: the landmarks of a text with its comments covered
* `complete_blanked`: what a rule is completed to there
* `parse_blanked`: the outline
-/

namespace CssOutline

/-! ## The landmarks -/

/-- Tokens, behind `depth` open comments, whose import keywords all stand inside of comments. -/
def ImportsCommented (depth : Nat) (read : List Token) : Prop :=
  ∀ before t after, read = before ++ t :: after → t.mark = .importKeyword →
    before.foldl Token.depthAfter depth ≠ 0

section Landmarks

variable {text text' : Text} {depth : Nat} {read : List Token} {t : Token}

theorem ImportsCommented.of_cons (h : ImportsCommented depth (t :: read)) :
    ImportsCommented (t.depthAfter depth) read := by
  intro before u after hread
  exact h (t :: before) u after (by rw [hread, List.cons_append])

/-- Behind a brace all other tokens are read. -/
theorem landmarksFrom_cons_of_stop {l : Landmark} (hlater : ∀ u ∈ read, t.stop ≤ u.start)
    (hl : t.landmark? text = some l) (hstop : l.stop = t.stop) :
    landmarksFrom text 0 (t :: read) = l :: landmarksFrom text 0 read := by
  have hall : read.filter (fun u => l.stop ≤ u.start) = read :=
    List.filter_eq_self.mpr fun u hu => decide_eq_true (hstop ▸ hlater u hu)
  rw [landmarksFrom_cons_of_landmark? _ hl, hall]

/-- The landmarks of a text are those among its tokens outside of comments. -/
theorem landmarksFrom_uncommented (text text' : Text)
    (hpairwise : read.Pairwise fun t u => t.stop ≤ u.start) (h : ImportsCommented depth read) :
    landmarksFrom text' 0 (uncommented depth read) = landmarksFrom text depth read := by
  induction read generalizing depth with
  | nil => rw [uncommented, landmarksFrom_nil, landmarksFrom_nil]
  | cons t read ih =>
    obtain ⟨hlater, hpairwise⟩ := List.pairwise_cons.mp hpairwise
    have hrest := ih hpairwise h.of_cons
    rw [uncommented]
    split
    · next hout =>
      obtain ⟨rfl, hopen⟩ := hout
      rw [Token.depthAfter_zero hopen] at hrest ⊢
      have hlater' : ∀ u ∈ uncommented 0 read, t.stop ≤ u.start :=
        fun u hu => hlater u (uncommented_subset 0 read hu)
      have hbrace : ∀ l : Landmark, l.stop = t.stop → (∀ text, t.landmark? text = some l) →
          landmarksFrom text' 0 (t :: uncommented 0 read) = landmarksFrom text 0 (t :: read) := by
        intro l hstop hl
        rw [landmarksFrom_cons_of_stop hlater' (hl text') hstop,
          landmarksFrom_cons_of_stop hlater (hl text) hstop, hrest]
      have hplain : (∀ text, t.landmark? text = none) → t.depthAfter 0 = 0 →
          landmarksFrom text' 0 (t :: uncommented 0 read) = landmarksFrom text 0 (t :: read) := by
        intro hnone hdepth
        rw [landmarksFrom_cons_of_none _ fun _ => hnone text',
          landmarksFrom_cons_of_none _ fun _ => hnone text, hdepth, hrest]
      obtain ⟨mark, start⟩ := t
      cases mark with
      | importKeyword => exact absurd rfl (h [] _ read rfl rfl)
      | blockOpen => exact hbrace (.opening start) rfl fun _ => rfl
      | blockClose => exact hbrace (.closing start) rfl fun _ => rfl
      | commentOpen => exact absurd rfl hopen
      | commentClose | slash | star | atSign => exact hplain (fun _ => rfl) rfl
    · next hin =>
      have hnone : depth = 0 → t.landmark? text = none := by
        intro hdepth
        have hopen : t.mark = .commentOpen := by
          by_contra hopen
          exact hin ⟨hdepth, hopen⟩
        rw [Token.landmark?, hopen]
      rw [landmarksFrom_cons_of_none _ hnone]
      exact hrest

end Landmarks

/-! ## What the scanner sees -/

section Scanner

variable {text : Text}

/-- A text whose import keywords all stand inside of comments, and in which the scanner sees no
comment inside another. -/
structure Scanner.OnlyBlocks (text : Text) : Prop where
  imports : ∀ read token rest, tokens text = read ++ token :: rest →
    token.mark = .importKeyword → (readTokens text read).commentDepth ≠ 0
  flat : ∀ read, read <+: tokens text → (readTokens text read).commentDepth ≤ 1

/-- Outside of import statements a token changes the comment depth, and nothing is skipped. -/
theorem Scanner.step_of_commented {s : Scanner} {t : Token} (hresume : s.resume = 0)
    (himport : t.mark = .importKeyword → s.commentDepth ≠ 0) :
    (s.step text t).resume = 0 ∧
      (s.step text t).commentDepth = t.depthAfter s.commentDepth := by
  obtain ⟨mark, start⟩ := t
  have hlive : ¬ start < s.resume := by
    rw [hresume]
    exact Nat.not_lt_zero start
  unfold step
  rw [if_neg hlive]
  cases mark with
  | importKeyword =>
    simp only [if_neg (himport rfl)]
    exact ⟨hresume, rfl⟩
  | blockOpen | blockClose =>
    simp only
    split <;> exact ⟨hresume, rfl⟩
  | commentOpen | commentClose | slash | star | atSign => exact ⟨hresume, rfl⟩

namespace Scanner.OnlyBlocks

/-- The scanner only counts comment marks. -/
theorem readTokens_eq (h : OnlyBlocks text) {read : List Token} (hread : read <+: tokens text) :
    (readTokens text read).resume = 0 ∧
      (readTokens text read).commentDepth = read.foldl Token.depthAfter 0 := by
  induction read using List.reverseRecOn with
  | nil => exact ⟨rfl, rfl⟩
  | append_singleton read t ih =>
    obtain ⟨hresume, hdepth⟩ := ih ((List.prefix_append read [t]).trans hread)
    obtain ⟨rest, hrest⟩ := hread
    rw [List.append_assoc, List.singleton_append] at hrest
    rw [readTokens_concat, List.foldl_concat, ← hdepth]
    exact step_of_commented hresume (h.imports read t rest hrest.symm)

theorem importsCommented (h : OnlyBlocks text) : ImportsCommented 0 (tokens text) := by
  intro before t after htokens hmark
  rw [← (h.readTokens_eq ⟨t :: after, htokens.symm⟩).2]
  exact h.imports before t after htokens hmark

theorem foldl_depthAfter_le (h : OnlyBlocks text) {read : List Token}
    (hread : read <+: tokens text) : read.foldl Token.depthAfter 0 ≤ 1 := by
  rw [← (h.readTokens_eq hread).2]
  exact h.flat read hread

/-- **The landmarks of a text with its comments covered** are those of the text. -/
theorem landmarks_blanked (h : OnlyBlocks text) : landmarks (blanked text) = landmarks text := by
  unfold landmarks
  rw [tokens_blanked]
  exact landmarksFrom_uncommented _ _ (pairwise_tokensFrom 0 text) h.importsCommented

theorem scan_top_blanked (h : OnlyBlocks text) : (scan (blanked text)).top = (scan text).top := by
  rw [scan_top_eq, scan_top_eq, h.landmarks_blanked, blanked, Text.byteSize_blankFrom]

/-- There are no import statements. -/
theorem not_mem_landmarks (h : OnlyBlocks text) (start stop : Nat) :
    .statement start stop ∉ landmarks text := by
  intro hmem
  obtain ⟨before, after, hls⟩ := List.append_of_mem hmem
  obtain ⟨pre, gap, body, rest, read, hreached, -⟩ :=
    (charted_landmarks text).exists_reached (Scanner.reaches_nil text) hls
  have htext : text = pre ++ gap ++ (body ++ rest) := by
    rw [List.append_assoc]
    exact hreached.reaches.text_eq
  obtain ⟨token, inside, htoken, -, hl, -⟩ := exists_tokens_of_spans hreached.spans htext
  have hmark : token.mark = .importKeyword := by
    obtain ⟨mark, place⟩ := token
    cases mark with
    | importKeyword => rfl
    | blockOpen | blockClose | commentOpen | commentClose | slash | star | atSign => cases hl
  have htokens : tokens text = (read ++ tokensFrom pre.byteSize gap) ++
      token :: (inside ++ tokensFrom ((pre ++ gap).byteSize + body.byteSize) rest) := by
    rw [hreached.tokens_eq, tokensFrom_append (hreached.spans.cleanCut_right rest), htoken,
      List.append_assoc, List.cons_append]
  apply h.imports _ _ _ htokens hmark
  rw [hreached.reaches.readTokens_gap hreached.quiet (List.prefix_refl _)]
  exact hreached.closed

end Scanner.OnlyBlocks

end Scanner

/-! ## Between the landmarks -/

/-- A cut of a text at which no comment is open. -/
structure Uncommented (text pre suf : Text) : Prop where
  text_eq : text = pre ++ suf
  hides : HidesComments (InComment text) 0 pre.byteSize suf
  flat : ∀ read, read <+: tokensFrom pre.byteSize suf → read.foldl Token.depthAfter 0 ≤ 1

namespace Uncommented

variable {text pre suf a b : Text}

/-- The part up to a cut where all comments are closed, and the part behind it. -/
theorem split (h : Uncommented text pre (a ++ b)) (hcut : Text.CleanCut a b)
    (hclosed : (tokensFrom pre.byteSize a).foldl Token.depthAfter 0 = 0) :
    HidesComments (InComment text) 0 pre.byteSize a ∧
      (∀ read, read <+: tokensFrom pre.byteSize a → read.foldl Token.depthAfter 0 ≤ 1) ∧
      Uncommented text (pre ++ a) b := by
  have hread : tokensFrom pre.byteSize (a ++ b) =
      tokensFrom pre.byteSize a ++ tokensFrom (pre.byteSize + a.byteSize) b :=
    tokensFrom_append hcut
  obtain ⟨hfirst, hsecond⟩ := h.hides.split hread fun t ht => stop_le_of_mem_tokensFrom ht
  rw [hclosed, ← Text.byteSize_append] at hsecond
  refine ⟨hfirst, fun read hprefix => ?_, ?_, hsecond, fun read hprefix => ?_⟩
  · apply h.flat
    rw [hread]
    exact hprefix.trans (List.prefix_append _ _)
  · rw [List.append_assoc]
    exact h.text_eq
  · have hle := h.flat (tokensFrom pre.byteSize a ++ read) (by
      rw [hread, ← Text.byteSize_append]
      exact (List.prefix_append_right_inj _).mpr hprefix)
    rw [List.foldl_append, hclosed] at hle
    exact hle

end Uncommented

/-- A brace opens and closes no comment. -/
theorem Landmark.Spans.foldl_depthAfter {start : Nat} {l : Landmark} {body rest : Text}
    (h : l.Spans start body rest) (hblock : ∀ i j, l ≠ .statement i j) :
    (tokensFrom start body).foldl Token.depthAfter 0 = 0 := by
  cases h with
  | opening | closing => rfl
  | statement found => exact absurd rfl (hblock _ _)

/-- In front of every landmark there is a cut at which no comment is open. -/
theorem Charted.exists_uncommented {text pre suf : Text} {ls : List Landmark}
    (h : Charted text pre suf ls) (hcut : Uncommented text pre suf)
    (hblocks : ∀ i j, Landmark.statement i j ∉ ls) {before after : List Landmark} {l : Landmark}
    (hls : ls = before ++ l :: after) :
    ∃ pre' gap body rest, Uncommented text pre' (gap ++ (body ++ rest)) ∧
      (tokensFrom pre'.byteSize gap).foldl Token.depthAfter 0 = 0 ∧
      l.Spans (pre' ++ gap).byteSize body rest ∧
      pre'.byteSize = (before.getLast?.map Landmark.stop).getD pre.byteSize := by
  induction h generalizing before with
  | last => simp at hls
  -- induction on the chart; the gap and the brace leave no comment open
  | @next pre gap body rest m ls quiet closed spans later ih =>
    cases before with
    | nil =>
      obtain ⟨rfl, rfl⟩ := List.cons.inj hls
      exact ⟨pre, gap, body, rest, hcut, closed, spans, rfl⟩
    | cons x before =>
      obtain ⟨rfl, hrest⟩ := List.cons.inj hls
      have hbrace : ∀ i j, m ≠ .statement i j := by
        rintro i j rfl
        exact hblocks i j List.mem_cons_self
      obtain ⟨-, -, hgap⟩ := hcut.split (spans.cleanCut_left gap) closed
      obtain ⟨-, -, hbody⟩ :=
        hgap.split (spans.cleanCut_right rest) (spans.foldl_depthAfter hbrace)
      obtain ⟨pre', gap', body', rest', hcut', hclosed, hspans, hsize⟩ :=
        ih hbody (fun i j hm => hblocks i j (List.mem_cons_of_mem m hm)) hrest
      refine ⟨pre', gap', body', rest', hcut', hclosed, hspans, hsize.trans ?_⟩
      have hstop := spans.stop_eq
      rw [← Text.byteSize_append] at hstop
      rw [List.getLast?_cons, Option.map_some, Option.getD_some, ← hstop]
      cases before.getLast? <;> rfl

/-! ## The rules -/

/-- A rule that is another one but for its selector, and that has its selector too if no byte from
its start up to its body belongs to a comment. -/
structure Rule.SameUncommented (text : Text) (rule rule' : Rule) : Prop where
  start_eq : rule'.start = rule.start
  bodyStart_eq : rule'.bodyStart = rule.bodyStart
  stop_eq : rule'.stop = rule.stop
  line_eq : rule'.line = rule.line
  selector_eq : (∀ o, rule.start ≤ o → o < rule.bodyStart → ¬ InComment text o) →
    rule'.selector = rule.selector

section Rules

variable {text : Text} {id : Address} {rule : Rule}

/-- A rule stands between the parts of a text that its offsets give. -/
theorem Rule.Stands.of_append {before raw behind a b c : Text} (h : rule.Stands before raw behind)
    (ht : before ++ (raw ++ behind) = a ++ (b ++ c)) (hstart : rule.start = a.byteSize)
    (hbody : rule.bodyStart = (a ++ b).byteSize) : rule.Stands a b c := by
  obtain ⟨rfl, hrest⟩ := Text.append_inj_of_byteSize ht (h.start_eq.symm.trans hstart)
  have hsize : raw.byteSize = b.byteSize := by
    have heq := h.bodyStart_eq.symm.trans hbody
    rw [Text.byteSize_append, Text.byteSize_append] at heq
    exact Nat.add_left_cancel heq
  obtain ⟨rfl, rfl⟩ := Text.append_inj_of_byteSize hrest hsize
  exact h

/-- A part of a text that begins at an offset, with its comments covered. -/
def covered (text : Text) (start : Nat) (part : Text) : Text :=
  Text.blankFrom (InComment text) start part

theorem byteSize_covered (text : Text) (start : Nat) (part : Text) :
    (covered text start part).byteSize = part.byteSize :=
  Text.byteSize_blankFrom start part

theorem covered_append (text : Text) (start : Nat) (a b : Text) :
    covered text start (a ++ b) = covered text start a ++ covered text (start + a.byteSize) b :=
  Text.blankFrom_append start a b

/-- The comments of the parts of a text are covered part by part. -/
theorem blanked_eq {pre gap behind : Text} (ht : text = pre ++ (gap ++ behind)) :
    blanked text = covered text 0 pre ++
      (covered text pre.byteSize gap ++ covered text (pre ++ gap).byteSize behind) := by
  have hparts : covered text 0 text = covered text 0 (pre ++ (gap ++ behind)) :=
    congrArg (covered text 0) ht
  rw [covered_append, covered_append, Nat.zero_add, ← Text.byteSize_append] at hparts
  exact hparts

/-- A rule that stands in a text, and in the text with its comments covered, is completed to the
same rule but for the comments in its selector. -/
theorem Rule.Stands.sameUncommented {pre gap behind front : Text}
    (h : rule.Stands pre gap behind) (ht : text = pre ++ (gap ++ behind))
    (h' : rule.Stands (covered text 0 pre) (covered text pre.byteSize gap)
      (covered text (pre ++ gap).byteSize behind))
    (hfront : gap = front ++ Prelude.strip gap)
    (hstrip : Prelude.strip (covered text pre.byteSize gap) =
      covered text (pre.byteSize + front.byteSize) (Prelude.strip gap)) :
    Rule.SameUncommented text (rule.complete text) (rule.complete (blanked text)) := by
  have hfront' : covered text pre.byteSize gap =
      covered text pre.byteSize front ++ Prelude.strip (covered text pre.byteSize gap) := by
    have hparts := congrArg (covered text pre.byteSize) hfront
    rw [covered_append] at hparts
    rw [hstrip]
    exact hparts
  have hplace : covered text 0 pre ++ covered text pre.byteSize front =
      covered text 0 (pre ++ front) := by
    rw [covered_append, Nat.zero_add]
  have hlines : (covered text 0 (pre ++ front)).lineEnds = (pre ++ front).lineEnds :=
    Text.lineEnds_blankFrom 0 (pre ++ front)
  rw [h.complete_eq ht hfront, h'.complete_eq (blanked_eq ht) hfront', hplace, byteSize_covered,
    hlines]
  refine ⟨rfl, rfl, rfl, rfl, fun hshown => ?_⟩
  have hself : covered text (pre.byteSize + front.byteSize) (Prelude.strip gap) =
      Prelude.strip gap := by
    apply Text.blankFrom_eq_self
    intro o hle hlt
    apply hshown o
    · show (pre ++ front).byteSize ≤ o
      rw [Text.byteSize_append]
      exact hle
    · show o < rule.bodyStart
      rw [h.bodyStart_eq, hfront, Text.byteSize_append, Text.byteSize_append, ← Nat.add_assoc]
      exact hlt
  show some (Selector.normalize (Prelude.strip (covered text pre.byteSize gap))) =
    some (Selector.normalize (Prelude.strip gap))
  rw [hstrip, hself]

/-- **A block with the comments around it covered** is completed to the same rule, but for the
comments in its selector. -/
theorem complete_blanked (h : Scanner.OnlyBlocks text) {before after : List Landmark} {brace : Nat}
    (hls : landmarks text = before ++ .opening brace :: after) (stop : Nat)
    (hrule : rule = { start := lastStop before, bodyStart := brace, stop }) :
    Rule.SameUncommented text (rule.complete text) (rule.complete (blanked text)) := by
  have hcut : Uncommented text [] text :=
    ⟨rfl, hidesComments_inComment text, fun read hread => h.foldl_depthAfter_le hread⟩
  obtain ⟨pre, gap, body, rest, hpre, hclosed, hspans, hsize⟩ :=
    (charted_landmarks text).exists_uncommented hcut h.not_mem_landmarks hls
  obtain ⟨hhides, hflat, -⟩ := hpre.split (hspans.cleanCut_left gap) hclosed
  obtain ⟨front, hfront, hstrip⟩ := Prelude.strip_blankFrom hhides hflat hclosed
  have hstart : rule.start = pre.byteSize := by
    rw [hrule]
    exact hsize.symm
  have hbrace : rule.bodyStart = (pre ++ gap).byteSize := by
    rw [hrule]
    exact hspans.start_eq
  have hstands : rule.Stands pre gap (body ++ rest) := by
    obtain ⟨pre', raw, behind, ht, hstands⟩ := exists_stands_of_opening hls stop
    rw [← hrule] at hstands
    exact hstands.of_append (ht.symm.trans hpre.text_eq) hstart hbrace
  have hstands' : rule.Stands (covered text 0 pre) (covered text pre.byteSize gap)
      (covered text (pre ++ gap).byteSize (body ++ rest)) := by
    obtain ⟨pre', raw, behind, ht, hstands'⟩ :=
      exists_stands_of_opening (h.landmarks_blanked.trans hls) stop
    rw [← hrule] at hstands'
    apply hstands'.of_append (ht.symm.trans (blanked_eq hpre.text_eq))
    · rw [hstart, byteSize_covered]
    · rw [hbrace, Text.byteSize_append, Text.byteSize_append, byteSize_covered, byteSize_covered]
  exact hstands.sameUncommented hpre.text_eq hstands' hfront hstrip

/-- The rules of a text are completed to the same rules with its comments covered. -/
theorem complete_blanked_of_mem_scan (h : Scanner.OnlyBlocks text)
    (hr : (id, rule) ∈ (scan text).rules) :
    Rule.SameUncommented text (rule.complete text) (rule.complete (blanked text)) := by
  obtain ⟨heading, hm, hbegins⟩ := exists_heading_of_mem_rules hr
  have hls : landmarks text = heading.before ++ heading.landmark :: heading.after :=
    eq_of_mem_headings hm
  cases hbegins with
  | statement before after start stop =>
    refine absurd ?_ (h.not_mem_landmarks start stop)
    rw [hls]
    exact List.mem_append_right before List.mem_cons_self
  | closedBlock before brace closed => exact complete_blanked h hls _ rfl
  | openBlock before brace unclosed => exact complete_blanked h hls _ rfl

end Rules

/-! ## The outline of the whole -/

theorem alike_parse_blanked {text : Text} (h : Scanner.OnlyBlocks text) :
    (parse text).top.Alike (Rule.SameUncommented text) (parse (blanked text)).top := by
  rw [parse_top_eq, parse_top_eq, h.scan_top_blanked]
  apply Forest.Alike.of_map
  intro rule hrule
  rw [← Forest.map_snd_entries] at hrule
  obtain ⟨⟨id, rule⟩, hentry, rfl⟩ := List.mem_map.mp hrule
  exact complete_blanked_of_mem_scan h hentry

/-- **Comments are inert.** If all import keywords of a text stand inside of comments, and the
scanner sees no comment inside another, then the text with its comments covered by spaces has the
same rules in the same blocks: they start at the same offsets, have their bodies there and stop
there, are on the same lines, and have the same selectors but for those with a comment inside. -/
theorem parse_blanked {text : Text} (h : Scanner.OnlyBlocks text) :
    (blanked text).byteSize = text.byteSize ∧
      List.Forall₂ (fun entry entry' =>
          entry.1 = entry'.1 ∧ Rule.SameUncommented text entry.2 entry'.2)
        (parse text).rules (parse (blanked text)).rules ∧
      ∀ id, (parse text).parent? id = (parse (blanked text)).parent? id ∧
        (parse text).children id = (parse (blanked text)).children id ∧
        (parse text).depth id = (parse (blanked text)).depth id := by
  have halike := alike_parse_blanked h
  refine ⟨Text.byteSize_blankFrom 0 text, halike.forall₂_entries, fun id => ⟨?_, ?_, ?_⟩⟩
  · exact RuleTree.parent?_eq_of_alike halike id
  · exact RuleTree.children_eq_of_alike halike id
  · exact RuleTree.depth_eq_of_alike halike id

/-- A keyword and a brace that stand in a comment are covered with it. -/
theorem parse_blanked_keyword :
    let text : Text := ['/', '*', '@', 'i', 'm', 'p', 'o', 'r', 't', '{', '*', '/', 'a', '{', '}']
    Scanner.OnlyBlocks text ∧
      blanked text = List.replicate 12 ' ' ++ ['a', '{', '}'] ∧
      List.Forall₂ (fun entry entry' =>
          entry.1 = entry'.1 ∧ Rule.SameUncommented text entry.2 entry'.2)
        (parse text).rules (parse (blanked text)).rules := by
  intro text
  have hinits : ∀ read ∈ (tokens text).inits,
      (Scanner.readTokens text read).commentDepth ≤ 1 := by decide
  have hplaces : ∀ n < (tokens text).length, ∀ token ∈ (tokens text)[n]?,
      token.mark = .importKeyword →
        (Scanner.readTokens text ((tokens text).take n)).commentDepth ≠ 0 := by decide
  have h : Scanner.OnlyBlocks text := by
    refine ⟨fun read token rest htokens hmark => ?_, fun read hread => ?_⟩
    · have hget : (tokens text)[read.length]? = some token := by
        rw [htokens, List.getElem?_append_right le_rfl, Nat.sub_self, List.getElem?_cons_zero]
      have hread : (tokens text).take read.length = read := by
        rw [htokens, List.take_left]
      have hlt : read.length < (tokens text).length := by
        rw [htokens, List.length_append, List.length_cons]
        omega
      exact hread ▸ hplaces read.length hlt token hget hmark
    · exact hinits read ((List.mem_inits read _).mpr hread)
  exact ⟨h, by decide, (parse_blanked h).2.1⟩

end CssOutline
