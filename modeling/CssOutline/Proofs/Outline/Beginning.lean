import CssOutline.Proofs.Outline.Approach
import CssOutline.Proofs.Outline.Extent
import CssOutline.Proofs.Prelude.Scanned

/-!
# Where rules begin

A rule begins behind the blanks and comments at the front of its prelude, with something that is
neither. If the scanner sees no comment inside another, then it is outside of comments there, and
what was stripped in front of it are the blanks and whole comments that the scanner has read.

## Main definitions

* `Scanner.depthAt`: the number of comments that are open at an offset

## Main results

* `exists_dropBytes?_of_mem_scan`: a rule begins with neither a blank nor a comment
* `exists_scanned_of_mem_scan`: what is stripped from a rule, as the scanner reads it
* `rules_begin_behind_comments`: both, for the full outline of a text
-/

namespace CssOutline

/-- The number of comments that are open when the tokens in front of an offset are read. -/
def Scanner.depthAt (text : Text) (offset : Nat) : Nat :=
  (readTokens text ((tokens text).filter fun t => t.start < offset)).commentDepth

section Beginning

variable {text : Text} {id : Address} {rule : Rule}
variable {l : Landmark} {pre gap body rest : Text} {read : List Token}

/-- A rule of a text has the gap in front of its landmark as its prelude, or starts at the landmark
itself if that is an import statement. -/
theorem exists_reached_of_mem_scan (hr : (id, rule) ∈ (scan text).rules) :
    ∃ l pre gap body rest read, Landmark.Reached text l pre gap body rest read ∧
      (l = .opening rule.bodyStart ∧ rule.start = pre.byteSize ∨
        l = .statement rule.start rule.stop ∧ rule.IsStatement text) := by
  obtain ⟨h, hm, hbegins⟩ := exists_heading_of_mem_rules hr
  have hls : landmarks text = h.before ++ h.landmark :: h.after := eq_of_mem_headings hm
  obtain ⟨pre, gap, body, rest, read, hreached, hsize⟩ :=
    (charted_landmarks text).exists_reached (Scanner.reaches_nil text) hls
  refine ⟨h.landmark, pre, gap, body, rest, read, hreached, ?_⟩
  simp only at hbegins
  cases hbegins with
  | statement before after start stop =>
    exact Or.inr ⟨rfl, isStatement_of_mem_landmarks (by simp [hls])⟩
  | closedBlock before brace closed => exact Or.inl ⟨rfl, hsize.symm⟩
  | openBlock before brace unclosed => exact Or.inl ⟨rfl, hsize.symm⟩

/-! ## The text behind the beginning -/

/-- The gap in front of a block is its prelude. -/
theorem Landmark.Reached.slice?_prelude
    (h : (Landmark.opening rule.bodyStart).Reached text pre gap body rest read)
    (hstart : rule.start = pre.byteSize) :
    text.slice? rule.start rule.bodyStart = some gap := by
  have hbrace : rule.bodyStart = (pre ++ gap).byteSize := h.spans.start_eq
  refine Text.slice?_eq_some_iff.mpr ⟨pre, body ++ rest, h.reaches.text_eq, hstart.symm, ?_⟩
  rw [hbrace, Text.byteSize_append]

/-- What is left of the prelude of a block begins with neither a blank nor a comment, and neither
does the block itself. -/
theorem Landmark.Reached.left_of_strip {brace : Nat}
    (h : (Landmark.opening brace).Reached text pre gap body rest read) :
    (∀ c ∈ (Prelude.strip gap ++ (body ++ rest)).head?, Text.isBlank c = false) ∧
      ¬ Mark.commentOpen.literal <+: Prelude.strip gap ++ (body ++ rest) := by
  obtain ⟨hreaches, -, hclosed, hspans⟩ := h
  have hcut := hspans.cleanCut_left (Prelude.strip gap)
  cases hstrip : Prelude.strip gap with
  | nil =>
    cases hspans
    refine ⟨fun c hc => ?_, by simp [Mark.literal]⟩
    obtain rfl : '{' = c := by simpa using hc
    decide
  | cons c left =>
    have hblank := (Prelude.stops_strip gap).head
    rw [hstrip] at hcut hblank
    refine ⟨by simpa using hblank, ?_⟩
    rw [hcut.literal_prefix_iff (List.cons_ne_nil c left), ← hstrip]
    exact Prelude.not_prefix_strip hclosed

/-- **A rule begins with neither a blank nor a comment.** -/
theorem exists_dropBytes?_of_mem_scan (hr : (id, rule) ∈ (scan text).rules) :
    ∃ behind, text.dropBytes? (rule.readPrelude text).start = some behind ∧
      (∀ c ∈ behind.head?, Text.isBlank c = false) ∧ ¬ Mark.commentOpen.literal <+: behind := by
  obtain ⟨l, pre, gap, body, rest, read, hreached, hrule⟩ := exists_reached_of_mem_scan hr
  rcases hrule with ⟨rfl, hstart⟩ | ⟨rfl, hstatement⟩
  · obtain ⟨front, hf, -⟩ := Prelude.exists_front gap
    refine ⟨Prelude.strip gap ++ (body ++ rest), ?_, hreached.left_of_strip⟩
    have htext : text = pre ++ front ++ (Prelude.strip gap ++ (body ++ rest)) := by
      rw [List.append_assoc, ← List.append_assoc front, ← hf]
      exact hreached.reaches.text_eq
    rw [Rule.readPrelude_start (hreached.slice?_prelude hstart) hf, hstart,
      ← Text.byteSize_append, htext]
    exact Text.dropBytes?_append _ _
  · obtain ⟨before, behind, ht, hbefore⟩ := hstatement.exists_append
    rw [hstatement.readPrelude_start_eq, ← hbefore]
    refine ⟨Mark.importKeyword.literal ++ behind, by rw [ht]; exact Text.dropBytes?_append _ _, ?_⟩
    refine ⟨fun c hc => ?_, by simp [Mark.literal]⟩
    obtain rfl : '@' = c := by simpa [Mark.literal] using hc
    decide

/-- The comment that stripping would leave in place is in no prelude. -/
theorem not_prefix_strip_prelude (hr : (id, rule) ∈ (scan text).rules) :
    ¬ Mark.commentOpen.literal <+: Prelude.strip (rule.prelude text) := by
  obtain ⟨l, pre, gap, body, rest, read, hreached, hrule⟩ := exists_reached_of_mem_scan hr
  rcases hrule with ⟨rfl, hstart⟩ | ⟨rfl, hstatement⟩
  · have hprelude : rule.prelude text = gap := by
      rw [Rule.prelude, hreached.slice?_prelude hstart, Option.getD_some]
    rw [hprelude]
    exact Prelude.not_prefix_strip hreached.closed
  · rw [hstatement.prelude_eq]
    decide

/-! ## The comments in front of the beginning -/

/-- The tokens in front of two offsets, and between them. -/
theorem filter_tokens {before inside behind : List Token} {i j : Nat}
    (ht : tokens text = before ++ (inside ++ behind)) (hbefore : ∀ t ∈ before, t.start < i)
    (hinside : ∀ t ∈ inside, i ≤ t.start ∧ t.start < j) (hbehind : ∀ t ∈ behind, j ≤ t.start)
    (hij : i ≤ j) :
    (tokens text).filter (fun t => t.start < j) = before ++ inside ∧
      (tokens text).filter (fun t => i ≤ t.start ∧ t.start < j) = inside := by
  have hnone : behind.filter (fun t => t.start < j) = [] := by
    refine List.filter_eq_nil_iff.mpr fun t htb => ?_
    simpa using hbehind t htb
  have hbetween : behind.filter (fun t => i ≤ t.start ∧ t.start < j) = [] := by
    refine List.filter_eq_nil_iff.mpr fun t htb => ?_
    have hle := hbehind t htb
    simp only [decide_eq_true_eq]
    omega
  have hearly : before.filter (fun t => i ≤ t.start ∧ t.start < j) = [] := by
    refine List.filter_eq_nil_iff.mpr fun t htb => ?_
    have hlt := hbefore t htb
    simp only [decide_eq_true_eq]
    omega
  rw [ht, List.filter_append, List.filter_append, List.filter_append, List.filter_append, hnone,
    hbetween, hearly, List.append_nil, List.append_nil, List.nil_append]
  refine ⟨congrArg₂ _ (List.filter_eq_self.mpr fun t htb => ?_)
    (List.filter_eq_self.mpr fun t hti => ?_), List.filter_eq_self.mpr fun t hti => ?_⟩
  · simpa using (hbefore t htb).trans_le hij
  · simpa using (hinside t hti).2
  · simpa using hinside t hti

/-- The tokens of a text are those in front of a gap, in it and behind it. -/
theorem Landmark.Reached.tokens_eq (h : l.Reached text pre gap body rest read) :
    tokens text = read ++ (tokensFrom pre.byteSize gap ++
      tokensFrom (pre ++ gap).byteSize (body ++ rest)) := by
  rw [h.reaches.tokens_eq, tokensFrom_append (h.spans.cleanCut_left gap), Text.byteSize_append]

/-- Behind the gap in front of a landmark no comment is open. -/
theorem Landmark.Reached.depthAt_start (h : l.Reached text pre gap body rest read) :
    Scanner.depthAt text l.start = 0 := by
  have hread : ∀ t ∈ read ++ tokensFrom pre.byteSize gap, t.start < (pre ++ gap).byteSize := by
    intro t ht
    rw [Text.byteSize_append]
    rcases List.mem_append.mp ht with ht | ht
    · exact (h.reaches.start_lt t ht).trans_le (Nat.le_add_right _ _)
    · exact (start_lt_stop t).trans_le (stop_le_of_mem_tokensFrom ht)
  have htokens : tokens text = (read ++ tokensFrom pre.byteSize gap) ++
      ([] ++ tokensFrom (pre ++ gap).byteSize (body ++ rest)) := by
    rw [h.tokens_eq, List.append_assoc, List.nil_append]
  obtain ⟨hfilter, -⟩ := filter_tokens htokens hread (by simp)
    (fun t ht => le_start_of_mem_tokensFrom ht) le_rfl
  rw [h.spans.start_eq, Scanner.depthAt, hfilter, List.append_nil,
    h.reaches.readTokens_gap h.quiet (List.prefix_refl _)]
  exact h.closed

/-- What is stripped in front of a landmark is read as blanks and whole comments, and no comment
is open behind it. -/
theorem Landmark.Reached.exists_scanned (h : l.Reached text pre gap body rest read)
    (hflat : ∀ read, read <+: tokens text → (Scanner.readTokens text read).commentDepth ≤ 1) :
    ∃ front, gap = front ++ Prelude.strip gap ∧
      Scanner.depthAt text (pre ++ front).byteSize = 0 ∧
      Prelude.Scanned pre.byteSize front ((tokens text).filter fun t =>
        pre.byteSize ≤ t.start ∧ t.start < (pre ++ front).byteSize) := by
  have hgap : ∀ more, more <+: tokensFrom pre.byteSize gap →
      more.foldl Token.depthAfter 0 ≤ 1 := by
    rintro more ⟨behind, hb⟩
    have hle := hflat (read ++ more) ⟨behind ++ tokensFrom (pre ++ gap).byteSize (body ++ rest),
      by rw [h.tokens_eq, ← hb]; simp⟩
    rwa [h.reaches.readTokens_gap h.quiet ⟨behind, hb⟩] at hle
  obtain ⟨front, inside, hf, hscan, hinside⟩ := Prelude.exists_scanned hgap
  have hpairwise := pairwise_tokensFrom pre.byteSize gap
  rw [hinside] at hpairwise
  have hlt := hscan.start_lt (List.pairwise_append.mp hpairwise).1
  have hsize : (pre ++ front).byteSize = pre.byteSize + front.byteSize := Text.byteSize_append _ _
  have htokens : tokens text = read ++ (inside ++ (tokensFrom (pre ++ front).byteSize
      (Prelude.strip gap) ++ tokensFrom (pre ++ gap).byteSize (body ++ rest))) := by
    rw [h.tokens_eq, hinside, hsize, List.append_assoc]
  have hin : ∀ t ∈ inside, pre.byteSize ≤ t.start ∧ t.start < (pre ++ front).byteSize := by
    intro t ht
    rw [hsize]
    exact ⟨le_start_of_mem_tokensFrom (hinside ▸ List.mem_append_left _ ht), hlt t ht⟩
  have hbehind : ∀ t ∈ tokensFrom (pre ++ front).byteSize (Prelude.strip gap) ++
      tokensFrom (pre ++ gap).byteSize (body ++ rest), (pre ++ front).byteSize ≤ t.start := by
    intro t ht
    rcases List.mem_append.mp ht with ht | ht
    · exact le_start_of_mem_tokensFrom ht
    · have hle := le_start_of_mem_tokensFrom ht
      have hgapsize := congrArg Text.byteSize hf
      rw [Text.byteSize_append] at hle hgapsize
      omega
  obtain ⟨hbefore, hbetween⟩ := filter_tokens htokens h.reaches.start_lt hin hbehind
    (hsize ▸ Nat.le_add_right _ _)
  refine ⟨front, hf, ?_, hbetween ▸ hscan⟩
  rw [Scanner.depthAt, hbefore, h.reaches.readTokens_gap h.quiet ⟨_, hinside.symm⟩]
  exact hscan.foldl_depthAfter

/-- **What is stripped from a rule are the blanks and whole comments that the scanner reads
there**, if it sees no comment inside another. -/
theorem exists_scanned_of_mem_scan
    (hflat : ∀ read, read <+: tokens text → (Scanner.readTokens text read).commentDepth ≤ 1)
    (hr : (id, rule) ∈ (scan text).rules) :
    Scanner.depthAt text (rule.readPrelude text).start = 0 ∧
      ∃ front, text.slice? rule.start (rule.readPrelude text).start = some front ∧
        Prelude.Scanned rule.start front ((tokens text).filter fun t =>
          rule.start ≤ t.start ∧ t.start < (rule.readPrelude text).start) := by
  obtain ⟨l, pre, gap, body, rest, read, hreached, hrule⟩ := exists_reached_of_mem_scan hr
  rcases hrule with ⟨rfl, hstart⟩ | ⟨rfl, hstatement⟩
  · obtain ⟨front, hf, hdepth, hscan⟩ := hreached.exists_scanned hflat
    have hfinal : (rule.readPrelude text).start = (pre ++ front).byteSize := by
      rw [Rule.readPrelude_start (hreached.slice?_prelude hstart) hf, hstart,
        Text.byteSize_append]
    rw [hfinal, hstart]
    refine ⟨hdepth, front, ?_, hscan⟩
    refine Text.slice?_eq_some_iff.mpr
      ⟨pre, Prelude.strip gap ++ (body ++ rest), ?_, rfl, (Text.byteSize_append _ _).symm⟩
    rw [← List.append_assoc front, ← hf]
    exact hreached.reaches.text_eq
  · rw [hstatement.readPrelude_start_eq]
    refine ⟨hreached.depthAt_start, [], ?_, ?_⟩
    · obtain ⟨before, behind, ht, hbefore⟩ := hstatement.exists_append
      exact Text.slice?_eq_some_iff.mpr ⟨before, _, ht, hbefore, hbefore⟩
    · have hnone : (tokens text).filter (fun t => rule.start ≤ t.start ∧ t.start < rule.start) =
          [] := by
        refine List.filter_eq_nil_iff.mpr fun t _ => ?_
        simp
      rw [hnone]
      exact .nil _

/-- **Rules begin behind the comments in front of them.** A rule begins with neither a blank nor
a comment, and no comment is left in front of a prelude, however comments are nested. If the
scanner sees no comment inside another, then no comment is open where a rule begins, and what was
stripped in front of it are the blanks and whole comments that the scanner has read. -/
theorem rules_begin_behind_comments (text : Text) :
    (∀ entry ∈ (parse text).rules, ∃ behind, text.dropBytes? entry.2.start = some behind ∧
        (∀ c ∈ behind.head?, Text.isBlank c = false) ∧
        ¬ Mark.commentOpen.literal <+: behind) ∧
      (∀ entry ∈ (scan text).rules,
        ¬ Mark.commentOpen.literal <+: Prelude.strip (entry.2.prelude text)) ∧
      ((∀ read, read <+: tokens text → (Scanner.readTokens text read).commentDepth ≤ 1) →
        (∀ entry ∈ (parse text).rules, Scanner.depthAt text entry.2.start = 0) ∧
        ∀ id rule final, (id, rule) ∈ (scan text).rules → (id, final) ∈ (parse text).rules →
          ∃ front, text.slice? rule.start final.start = some front ∧
            Prelude.Scanned rule.start front ((tokens text).filter fun t =>
              rule.start ≤ t.start ∧ t.start < final.start)) := by
  refine ⟨?_, fun entry he => not_prefix_strip_prelude he, fun hflat => ⟨?_, ?_⟩⟩
  · rintro ⟨id, final⟩ he
    obtain ⟨rule, hr, rfl⟩ := exists_mem_scan_of_mem_parse he
    exact exists_dropBytes?_of_mem_scan hr
  · rintro ⟨id, final⟩ he
    obtain ⟨rule, hr, rfl⟩ := exists_mem_scan_of_mem_parse he
    exact (exists_scanned_of_mem_scan hflat hr).1
  · intro id rule final hr he
    obtain ⟨rule', hr', rfl⟩ := exists_mem_scan_of_mem_parse he
    obtain rfl : rule = rule' := Option.some.inj
      ((RuleTree.mem_rules_iff.mp hr).2.symm.trans (RuleTree.mem_rules_iff.mp hr').2)
    exact (exists_scanned_of_mem_scan hflat hr).2

/-- A rule behind a comment that holds a brace. -/
theorem depthAt_behind_comment :
    let text : Text := ['/', '*', '{', '*', '/', ' ', '.', 'b', '{', '}']
    (∀ read, read <+: tokens text → (Scanner.readTokens text read).commentDepth ≤ 1) ∧
      Scanner.depthAt text 6 = 0 := by
  intro text
  have hinits : ∀ read ∈ (tokens text).inits,
      (Scanner.readTokens text read).commentDepth ≤ 1 := by decide
  have hflat : ∀ read, read <+: tokens text →
      (Scanner.readTokens text read).commentDepth ≤ 1 :=
    fun read h => hinits read ((List.mem_inits read _).mpr h)
  let rule : Rule := ⟨6, 8, 9, some 1, some ['.', 'b']⟩
  have hr : ([0], rule) ∈ (parse text).rules := by decide
  exact ⟨hflat, ((rules_begin_behind_comments text).2.2 hflat).1 _ hr⟩

end Beginning

end CssOutline
