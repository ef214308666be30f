import CssOutline.Proofs.ImportStatement.Surroundings
import CssOutline.Proofs.Outline.Completed
import CssOutline.Proofs.Outline.Moved

/-!
# Outlines of texts with other line ends

Marks, the ends of comments and the words of an import statement are written without line ends.
So a text with its line ends spelled in another way has the same tokens at the offsets to which
their places have moved, the same gaps are stripped, and no line is gained or lost. What is left to
ask of the spelling is that it keeps the import statements.

## Main definitions

* `LineEnding.KeepsImports`: a spelling under which a text keeps its import statements
* `Rule.Respelled`: a rule and what it is in the respelled text

## Main results

* `Prelude.strip_respell`: stripping a respelled prelude
* `landmarks_respell`: the landmarks of the respelled text
* `alike_parse_respell`: the outline of the respelled text
* `rules_respell_crlf`: the rules of a text with its line ends spelled `\r\n`
-/

namespace CssOutline

/-! ## Preludes -/

namespace Prelude

theorem IsComment.respell {comment : Text} (h : IsComment comment) (ending : LineEnding) :
    IsComment (comment.respell ending) := by
  obtain ⟨inside, rfl, hinside⟩ := h
  have hopen : Text.respell ending ['/', '*'] = ['/', '*'] := Text.respell_eq_self (by decide)
  have hclose : Text.respell ending closeLiteral = closeLiteral :=
    Text.respell_eq_self (by decide)
  have hstar : Text.respell ending ['*'] = ['*'] := Text.respell_eq_self (by decide)
  refine ⟨Text.respell ending inside, ?_, ?_⟩
  · show Text.respell ending (['/', '*'] ++ (inside ++ closeLiteral)) = _
    rw [Text.respell_append, Text.respell_append, hopen, hclose]
    rfl
  · rw [← hstar, ← Text.respell_append, Text.infix_respell_iff (by decide) (by decide)]
    exact hinside

/-- **Stripping a respelled prelude** leaves the respelled rest. -/
theorem strip_respell (ending : LineEnding) (text : Text) :
    strip (text.respell ending) = (strip text).respell ending := by
  induction text using strip_induction with
  | blank c rest hc hs ih =>
    have hblanks : ∀ d ∈ Text.respell ending [c], Text.isBlank d := by
      intro d hd
      by_cases hn : c = '\n'
      · subst hn
        rw [Text.respell_cons_newline, Text.respell_nil, List.append_nil] at hd
        rcases LineEnding.eq_of_mem_text hd with rfl | rfl <;> decide
      · rw [Text.respell_cons_of_ne hn, Text.respell_nil, List.mem_singleton] at hd
        rw [hd]
        exact hc
    rw [hs, ← ih, ← List.singleton_append, Text.respell_append, strip_append_of_isBlank hblanks]
  | comment comment rest hc hs ih =>
    rw [hs, Text.respell_append, (hc.respell ending).strip_append, ih]
  | stop text hs hblank hcomment =>
    rw [hs]
    cases text with
    | nil => rfl
    | cons c rest =>
      have hn : c ≠ '\n' := by
        rintro rfl
        exact absurd (hblank '\n' rfl) (by decide)
      rw [Text.respell_cons_of_ne hn]
      apply strip_of_leadingComment?_eq_none (hblank c rfl)
      rw [← Text.respell_cons_of_ne hn, leadingComment?_eq_none_iff]
      intro body hbody
      obtain ⟨inside, hinside, rfl⟩ := (Text.append_eq_respell_iff (by decide)).mp hbody
      rw [Text.infix_respell_iff (by decide) (by decide)]
      exact leadingComment?_eq_none_iff.mp hcomment inside hinside

theorem respell_eq_append {raw front : Text} (hf : raw = front ++ strip raw)
    (ending : LineEnding) :
    raw.respell ending = front.respell ending ++ strip (raw.respell ending) := by
  rw [strip_respell, ← Text.respell_append, ← hf]

end Prelude

/-! ## Tokens -/

section Tokens

variable {ending : LineEnding} {text pre suf : Text}

theorem Mark.unbroken_literal (mark : Mark) : Text.Unbroken mark.literal := by
  cases mark <;> decide

theorem Mark.respell_literal (mark : Mark) (ending : LineEnding) :
    Text.respell ending mark.literal = mark.literal :=
  Text.respell_eq_self fun hn => (mark.unbroken_literal _ hn).1 rfl

theorem Mark.leading?_respell (ending : LineEnding) (text : Text) :
    leading? (text.respell ending) = leading? text :=
  leading?_congr fun mark => Text.prefix_respell_iff mark.unbroken_literal

/-- A line end has no part in a mark. -/
theorem LineEnding.cleanCut_text (ending : LineEnding) (b : Text) :
    Text.CleanCut ending.text b := by
  intro c d hc _
  rcases eq_of_mem_text (List.mem_of_getLast? hc) with rfl | rfl <;> simp [Mark.joined_iff]

/-- The respelled text has the same tokens, each at the offset to which its place has moved. -/
theorem tokensFrom_respell (ht : text = pre ++ suf) (ending : LineEnding) :
    tokensFrom (pre.respell ending).byteSize (suf.respell ending) =
      (tokensFrom pre.byteSize suf).map (Token.move (text.respelledOffset ending)) := by
  induction suf using Text.lexicalInduction generalizing pre with
  | nil => rfl
  | mark m rest hm ih =>
    have hm' : Mark.leading? (m.literal ++ rest.respell ending) = some m := by
      rw [← m.respell_literal ending, ← Text.respell_append, Mark.leading?_respell, hm]
    have hrest := @ih (pre ++ m.literal) (by rw [ht, List.append_assoc])
    rw [Text.respell_append, m.respell_literal, Text.byteSize_append, Text.byteSize_append]
      at hrest
    have hplace : text.respelledOffset ending pre.byteSize = (pre.respell ending).byteSize := by
      rw [ht]
      exact Text.respelledOffset_append ending pre _
    rw [Text.respell_append, m.respell_literal, tokensFrom_of_leading? hm',
      tokensFrom_of_leading? hm, List.map_cons, Token.move, hplace]
    exact congrArg _ hrest
  | pass c rest hc ih =>
    have hrest := @ih (pre ++ [c]) (by rw [ht, List.append_assoc, List.singleton_append])
    rw [Text.respell_append, Text.byteSize_append, Text.byteSize_append] at hrest
    rw [tokensFrom_of_leading?_eq_none hc]
    refine Eq.trans ?_ hrest
    by_cases hn : c = '\n'
    · subst hn
      have hquiet : tokensFrom (pre.respell ending).byteSize ending.text = [] := by
        cases ending <;> rfl
      rw [Text.respell_cons_newline, Text.respell_cons_newline,
        tokensFrom_append (ending.cleanCut_text _), hquiet, Text.respell_nil, List.append_nil,
        List.nil_append]
    · have hc' : Mark.leading? (c :: rest.respell ending) = none := by
        rw [← Text.respell_cons_of_ne hn, Mark.leading?_respell, hc]
      rw [Text.respell_cons_of_ne hn, Text.respell_cons_of_ne hn,
        tokensFrom_of_leading?_eq_none hc', Text.respell_nil]
      rfl

end Tokens

/-! ## Landmarks -/

/-- A spelling under which a text keeps its import statements. -/
def LineEnding.KeepsImports (ending : LineEnding) (text : Text) : Prop :=
  ∀ a b, text = a ++ b → importStatement? (b.respell ending) =
    (importStatement? b).map (Text.respell ending)

section Landmarks

variable {ending : LineEnding} {text : Text}

/-- A landmark ends where its end has moved to. -/
theorem Landmark.Spans.stop_move {l : Landmark} {gap body rest : Text}
    (h : l.Spans gap.byteSize body rest) (ht : text = gap ++ (body ++ rest))
    (ending : LineEnding) :
    (l.move (text.respelledOffset ending)).stop = text.respelledOffset ending l.stop := by
  rw [ht]
  cases h with
  | opening =>
    have hbrace : Text.Unbroken ['{'] := by decide
    exact (Text.respelledOffset_add_of_unbroken hbrace ending gap rest).symm
  | closing =>
    have hbrace : Text.Unbroken ['}'] := by decide
    exact (Text.respelledOffset_add_of_unbroken hbrace ending gap rest).symm
  | statement => rfl

/-- A token begins a landmark of the respelled text where it begins one of the text. -/
theorem Token.landmark?_respell (hkeeps : ending.KeepsImports text) {token : Token}
    (h : token ∈ tokens text) :
    (token.move (text.respelledOffset ending)).landmark? (text.respell ending) =
      (token.landmark? text).map (Landmark.move (text.respelledOffset ending)) := by
  apply Token.landmark?_move
  intro hmark
  obtain ⟨a, b, ht, hstart⟩ := exists_eq_append_of_mem_tokens h
  rw [hmark] at ht
  have hplace : text.respelledOffset ending token.start = (a.respell ending).byteSize := by
    rw [hstart, ht]
    exact Text.respelledOffset_append ending a _
  have hdrop : text.dropBytes? token.start = some (Mark.importKeyword.literal ++ b) := by
    rw [hstart, ht]
    exact Text.dropBytes?_append a _
  have hdrop' : (text.respell ending).dropBytes? (text.respelledOffset ending token.start) =
      some (Text.respell ending (Mark.importKeyword.literal ++ b)) := by
    rw [hplace, ht, Text.respell_append]
    exact Text.dropBytes?_append _ _
  rw [hdrop, hdrop', Option.bind_some, Option.bind_some, importLength?, importLength?,
    hkeeps a _ ht]
  cases hs : importStatement? (Mark.importKeyword.literal ++ b) with
  | none => rfl
  | some statement =>
    obtain ⟨after, hafter⟩ := exists_append_of_importStatement? hs
    simp only [Option.map_some, Option.some.injEq]
    rw [hplace, ← Text.byteSize_append, ← Text.respell_append, hstart, ← Text.byteSize_append, ht,
      hafter, ← List.append_assoc]
    exact (Text.respelledOffset_append ending _ _).symm

/-- **The landmarks of the respelled text** are those of the text, moved. -/
theorem landmarks_respell (hkeeps : ending.KeepsImports text) :
    landmarks (text.respell ending) =
      (landmarks text).map (Landmark.move (text.respelledOffset ending)) := by
  have htokens : tokens (text.respell ending) =
      (tokens text).map (Token.move (text.respelledOffset ending)) :=
    @tokensFrom_respell text [] text rfl ending
  rw [landmarks, htokens, landmarks]
  refine landmarksFrom_map_move (Text.strictMono_respelledOffset ending text) 0
    (fun t ht => Token.landmark?_respell hkeeps ht) ?_
  intro t ht l hl
  obtain ⟨a, b, hab, hstart⟩ := exists_eq_append_of_mem_tokens ht
  obtain ⟨mark, start⟩ := t
  simp only at hab hstart
  subst hstart
  have hl' : (Token.mk mark a.byteSize).landmark? (a ++ (mark.literal ++ b)) = some l := hab ▸ hl
  obtain ⟨body, behind, hbody, hspans⟩ := exists_spans_of_landmark? hl'
  exact hspans.stop_move (by rw [hab, hbody]) ending

end Landmarks

/-! ## Rules -/

/-- A rule and what it is in the respelled text: its offsets have moved, its line has not, and it
has the name that its respelled prelude gives it. -/
structure Rule.Respelled (ending : LineEnding) (text : Text) (rule rule' : Rule) : Prop where
  start_eq : rule'.start = text.respelledOffset ending rule.start
  bodyStart_eq : rule'.bodyStart = text.respelledOffset ending rule.bodyStart
  stop_eq : rule'.stop = text.respelledOffset ending rule.stop
  line_eq : rule'.line = rule.line
  selector_eq : ∃ name, rule.selector = some (Selector.normalize name) ∧
    rule'.selector = some (Selector.normalize (name.respell ending))

section Rules

variable {ending : LineEnding} {text before raw behind : Text} {rule rule' : Rule}

/-- A rule stands in the respelled text where it stands in the text. -/
theorem Rule.Stands.respell (h : rule.Stands before raw behind)
    (ht : text = before ++ (raw ++ behind))
    (hstart : rule'.start = text.respelledOffset ending rule.start)
    (hbodyStart : rule'.bodyStart = text.respelledOffset ending rule.bodyStart) :
    rule'.Stands (before.respell ending) (raw.respell ending) (behind.respell ending) := by
  refine ⟨?_, ?_, ?_⟩
  · rw [hstart, h.start_eq, ht]
    exact Text.respelledOffset_append ending before _
  · rw [hbodyStart, h.bodyStart_eq, ht, ← List.append_assoc, ← Text.respell_append]
    exact Text.respelledOffset_append ending _ _
  · obtain ⟨c, hc, hblank⟩ := h.solid
    refine ⟨c, ?_, hblank⟩
    rw [Prelude.strip_respell, ← Text.respell_append]
    refine Text.head?_respell hc ?_
    rintro rfl
    exact absurd hblank (by decide)

/-- **A rule is completed alike in the respelled text.** -/
theorem Rule.Stands.respelled_complete (h : rule.Stands before raw behind)
    (ht : text = before ++ (raw ++ behind)) (hr : '\r' ∉ text)
    (hstart : rule'.start = text.respelledOffset ending rule.start)
    (hbodyStart : rule'.bodyStart = text.respelledOffset ending rule.bodyStart)
    (hstop : rule'.stop = text.respelledOffset ending rule.stop) :
    (rule.complete text).Respelled ending text (rule'.complete (text.respell ending)) := by
  obtain ⟨front, hf, -⟩ := Prelude.exists_front raw
  have ht' : text.respell ending =
      before.respell ending ++ (raw.respell ending ++ behind.respell ending) := by
    rw [ht, Text.respell_append, Text.respell_append]
  have hcut : text = (before ++ front) ++ (Prelude.strip raw ++ behind) := by
    rw [List.append_assoc, ← List.append_assoc front, ← hf, ht]
  have hplain : '\r' ∉ before ++ front := by
    rw [hcut] at hr
    exact fun hmem => hr (List.mem_append_left _ hmem)
  rw [h.complete_eq ht hf, (h.respell ht hstart hbodyStart).complete_eq ht'
    (Prelude.respell_eq_append hf ending), ← Text.respell_append]
  refine ⟨?_, hbodyStart, hstop, ?_, Prelude.strip raw, rfl, ?_⟩
  · simp only [hcut]
    exact (Text.respelledOffset_append ending _ _).symm
  · simp only [Text.lineEnds_respell ending hplain]
  · simp only [Prelude.strip_respell]

/-! ## Outlines -/

/-- The next prelude begins where its beginning has moved to. -/
theorem pending_foldl_read_move {ls : List Landmark} (hls : ∀ l ∈ ls, l ∈ landmarks text)
    (ending : LineEnding) :
    ((ls.map (Landmark.move (text.respelledOffset ending))).foldl Builder.read {}).pending =
      text.respelledOffset ending (ls.foldl Builder.read {}).pending := by
  rw [Builder.pending_foldl_read, Builder.pending_foldl_read, List.getLast?_map]
  cases hlast : ls.getLast? with
  | none => exact (Text.respelledOffset_zero ending text).symm
  | some l =>
    obtain ⟨gap, body, rest, ht, hspans⟩ :=
      exists_spans_of_mem_landmarks (hls l (List.mem_of_getLast? hlast))
    exact hspans.stop_move ht ending

/-- A landmark begins a rule in the respelled text where it begins one in the text. -/
theorem movesRule_respell (hr : '\r' ∉ text) (ending : LineEnding) {before after : List Landmark}
    {l : Landmark} (hls : landmarks text = before ++ l :: after) :
    l.MovesRule (fun rule rule' => (rule.complete text).Respelled ending text
        (rule'.complete (text.respell ending))) (text.respelledOffset ending)
      (before.foldl Builder.read {}).pending
      ((before.map (Landmark.move (text.respelledOffset ending))).foldl
        Builder.read {}).pending := by
  rw [pending_foldl_read_move (by simp +contextual [hls]) ending, pending_foldl_read]
  cases l with
  | opening brace =>
    intro stop
    obtain ⟨pre, raw, behind, ht, hstands⟩ := exists_stands_of_opening hls stop
    exact hstands.respelled_complete ht hr rfl rfl rfl
  | closing brace => trivial
  | statement start stop =>
    have hmem : .statement start stop ∈ landmarks text := by simp [hls]
    obtain ⟨pre, tail, ht, hstart⟩ := (isStatement_of_mem_landmarks hmem).exists_append
    simp only at hstart
    rw [← hstart]
    refine (Rule.stands_statement stop).respelled_complete ht hr rfl ?_ rfl
    rw [ht]
    exact (Text.respelledOffset_add_of_unbroken Mark.importKeyword.unbroken_literal ending
      pre tail).symm

/-- **The outline of the respelled text** has the shape of that of the text, and each rule has
become a respelled rule. -/
theorem alike_parse_respell (hr : '\r' ∉ text) (hkeeps : ending.KeepsImports text) :
    (parse text).top.Alike (Rule.Respelled ending text) (parse (text.respell ending)).top := by
  have hsize : (text.respell ending).byteSize = text.respelledOffset ending text.byteSize := by
    have hplace := Text.respelledOffset_append ending text []
    rw [List.append_nil] at hplace
    exact hplace.symm
  rw [parse_top_eq, parse_top_eq, scan_top_eq, scan_top_eq, landmarks_respell hkeeps, hsize]
  refine Forest.Alike.map (Builder.Alike.finish (Builder.Alike.foldl_read ⟨.nil, .nil⟩ ?_) _)
    fun _ _ h => h
  intro before l after hls
  exact movesRule_respell hr ending hls

/-- **The rules of a text with its line ends spelled `\r\n`.** A text without `\r` has as many
rules as the text with a `\r` in front of every `\n`, and they have the same parents, the same
depths and the same lines. Every offset moves by the number of `\n` in front of it. -/
theorem rules_respell_crlf (hr : '\r' ∉ text) :
    (parse (text.respell .crlf)).size = (parse text).size ∧
      List.Forall₂ (fun entry entry' => entry'.1 = entry.1 ∧
          (parse (text.respell .crlf)).parent? entry'.1 = (parse text).parent? entry.1 ∧
          (parse (text.respell .crlf)).depth entry'.1 = (parse text).depth entry.1 ∧
          entry'.2.line = entry.2.line ∧
          entry'.2.start = entry.2.start + text.newlinesBefore entry.2.start ∧
          entry'.2.bodyStart = entry.2.bodyStart + text.newlinesBefore entry.2.bodyStart ∧
          entry'.2.stop = entry.2.stop + text.newlinesBefore entry.2.stop)
        (parse text).rules (parse (text.respell .crlf)).rules := by
  have halike : (parse text).top.Alike (Rule.Respelled .crlf text)
      (parse (text.respell .crlf)).top :=
    alike_parse_respell hr fun _ b _ => importStatement?_respell b
  have hentries := halike.forall₂_entries
  have hmoved : ∀ offset, text.respelledOffset .crlf offset =
      offset + text.newlinesBefore offset := by
    intro offset
    rw [Text.respelledOffset]
    exact congrArg _ (Nat.one_mul _)
  refine ⟨?_, hentries.imp ?_⟩
  · exact halike.size_eq.symm
  · rintro ⟨id, rule⟩ ⟨id', rule'⟩ ⟨rfl, h⟩
    refine ⟨rfl, (RuleTree.parent?_eq_of_alike halike _).symm,
      (RuleTree.depth_eq_of_alike halike _).symm, h.line_eq, ?_, ?_, ?_⟩
    · rw [← hmoved]
      exact h.start_eq
    · rw [← hmoved]
      exact h.bodyStart_eq
    · rw [← hmoved]
      exact h.stop_eq

/-- An import statement and a block behind it, over six lines. -/
theorem rules_respell_crlf_import :
    let text : Text := ['@', 'i', 'm', 'p', 'o', 'r', 't', '\n', 'u', 'r', 'l', '(', 'a', ')',
      '\n', '/', '*', '\n', '*', '/', 'b', '\n', '{', '\n', '}', '\n']
    '\r' ∉ text ∧ (parse text).size = 2 ∧ (parse (text.respell .crlf)).size = 2 := by
  intro text
  have hr : '\r' ∉ text := by decide
  have hsize : (parse text).size = 2 := by decide
  exact ⟨hr, hsize, (rules_respell_crlf hr).1.trans hsize⟩

end Rules

end CssOutline
