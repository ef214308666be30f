import CssOutline.Proofs.ImportStatement.Surroundings
import CssOutline.Proofs.Outline.Completed
import CssOutline.Proofs.Outline.Moved

/-!
# Reading on behind a text

Where the scanner rests at the end of a text, with no block and no comment open and with nothing
begun, it reads on behind a `\n` as if it were at the start of a new text. What it has finished
stays as it is, for no import statement reaches over the `\n`, and what comes later is put behind.

## Main definitions

* `Builder.behind`: an outline under construction behind older rules
* `Scanner.Rests`: a text at whose end the scanner rests

## Main results

* `Builder.finish_foldl_behind`: the outline of landmarks behind older rules
* `landmarksFrom_between`: landmarks further down, with more behind them
* `Scanner.Rests.exists_concat`: the last character of such a text
* `Scanner.Rests.scan_top_append`: the scan of a text behind such a text
-/

namespace CssOutline

/-! ## Older rules -/

/-- Open blocks and the finished rules in the innermost one, with older rules in front of them. -/
def layBehind (older : FinishedRules) : List OpenBlock → FinishedRules →
    List OpenBlock × FinishedRules
  | [], finished => ([], finished ++ older)
  | block :: outer, finished =>
    let (outer, before) := layBehind older outer block.before
    ({ block with before } :: outer, finished)

theorem layBehind_cons (older : FinishedRules) (opened : List OpenBlock)
    (rule : Rule × Forest Rule) (finished : FinishedRules) :
    layBehind older opened (rule :: finished) =
      ((layBehind older opened finished).1, rule :: (layBehind older opened finished).2) := by
  cases opened <;> rfl

theorem Forest.ofNewest_append {α : Type} (trees older : List (α × Forest α)) :
    ofNewest (trees ++ older) = ofNewest older ++ ofNewest trees := by
  rw [ofNewest, List.foldl_append, foldl_eq_ofNewest_append]
  rfl

namespace Builder

/-- An outline under construction behind older rules, which are in no block. -/
def behind (older : FinishedRules) (b : Builder) : Builder where
  pending := b.pending
  opened := (layBehind older b.opened b.finished).1
  finished := (layBehind older b.opened b.finished).2

/-- Landmarks are read behind older rules as without them. -/
theorem read_behind (older : FinishedRules) (b : Builder) (l : Landmark) :
    (b.behind older).read l = (b.read l).behind older := by
  obtain ⟨pending, opened, finished⟩ := b
  cases l with
  | opening brace => rfl
  | closing brace =>
    cases opened with
    | nil => rfl
    | cons block outer =>
      simp only [behind, read, closeBlock, OpenBlock.close, layBehind_cons]
      rfl
  | statement start stop =>
    simp only [behind, read, addStatement, layBehind_cons]

theorem foldl_read_behind (older : FinishedRules) (b : Builder) (ls : List Landmark) :
    ls.foldl read (b.behind older) = (ls.foldl read b).behind older := by
  induction ls generalizing b with
  | nil => rfl
  | cons l ls ih => rw [List.foldl_cons, List.foldl_cons, read_behind, ih]

/-- The older rules come first in the outline. -/
theorem finish_behind (older : FinishedRules) (b : Builder) (size : Nat) :
    (b.behind older).finish size = Forest.ofNewest older ++ b.finish size := by
  obtain ⟨pending, opened, finished⟩ := b
  simp only [behind, finish]
  induction opened generalizing finished with
  | nil => exact Forest.ofNewest_append finished older
  | cons block outer ih =>
    have hclose := ih (block.close size finished)
    rw [OpenBlock.close, layBehind_cons] at hclose
    exact hclose

/-- **The outline of landmarks behind older rules.** -/
theorem finish_foldl_behind (pending : Nat) (older : FinishedRules) (ls : List Landmark)
    (size : Nat) :
    (ls.foldl read { pending, finished := older }).finish size =
      Forest.ofNewest older ++ (ls.foldl read { pending }).finish size := by
  have hstart : ({ pending, finished := older } : Builder) = behind older { pending } := rfl
  rw [hstart, foldl_read_behind, finish_behind]

end Builder

/-! ## Tokens behind a text -/

/-- Tokens are read alike at another place. -/
theorem tokensFrom_add (start bytes : Nat) (text : Text) :
    tokensFrom (start + bytes) text =
      (tokensFrom start text).map (Token.move (· + bytes)) := by
  induction text using Text.lexicalInduction generalizing start with
  | nil => rfl
  | mark m rest hm ih =>
    rw [tokensFrom_of_leading? hm, tokensFrom_of_leading? hm, List.map_cons, ← ih,
      Nat.add_right_comm]
    rfl
  | pass c rest hc ih =>
    rw [tokensFrom_of_leading?_eq_none hc, tokensFrom_of_leading?_eq_none hc, ← ih,
      Nat.add_right_comm]

/-- No mark reaches over a `\n`. -/
theorem tokens_append_newline (a b : Text) :
    tokens (a ++ '\n' :: b) =
      tokens a ++ (tokens b).map (Token.move (· + (a.byteSize + 1))) := by
  have hcut : Text.CleanCut a ('\n' :: b) := Text.cleanCut_cons (by simp [Mark.joined_iff]) a b
  have hpass : Mark.leading? ('\n' :: b) = none := Mark.leading?_cons_of_isBlank (by decide)
  have hsize : '\n'.utf8Size = 1 := rfl
  rw [tokens, tokensFrom_append hcut, tokensFrom_of_leading?_eq_none hpass, hsize, Nat.zero_add,
    tokens, tokens, ← tokensFrom_add, Nat.zero_add]

/-- A landmark further down ends as much further down. -/
theorem Landmark.stop_move_add (l : Landmark) (bytes : Nat) :
    (l.move (· + bytes)).stop = l.stop + bytes := by
  cases l with
  | opening | closing => exact Nat.add_right_comm _ _ _
  | statement => rfl

section Between

variable {b more : Text}

/-- An import statement is read alike further down, if it does not look at the text behind. -/
theorem importLength?_between (a : Text)
    (hmore : ∀ unread, importStatement? (Mark.importKeyword.literal ++ (unread ++ more)) =
      importStatement? (Mark.importKeyword.literal ++ unread))
    {t : Token} (ht : t ∈ tokens b) (hmark : t.mark = .importKeyword) :
    ((a ++ '\n' :: (b ++ more)).dropBytes? (t.start + (a.byteSize + 1))).bind importLength? =
      (b.dropBytes? t.start).bind importLength? := by
  obtain ⟨pre, unread, hb, hstart⟩ := exists_eq_append_of_mem_tokens ht
  rw [hmark] at hb
  have hsize : t.start + (a.byteSize + 1) = Text.byteSize (a ++ '\n' :: pre) := by
    have hnewline : '\n'.utf8Size = 1 := rfl
    rw [hstart, Text.byteSize_append, Text.byteSize_cons, hnewline]
    omega
  have hdrop : b.dropBytes? t.start = some (Mark.importKeyword.literal ++ unread) := by
    rw [hstart, hb]
    exact Text.dropBytes?_append pre _
  have hdrop' : (a ++ '\n' :: (b ++ more)).dropBytes? (t.start + (a.byteSize + 1)) =
      some (Mark.importKeyword.literal ++ (unread ++ more)) := by
    have htext : a ++ '\n' :: (b ++ more) =
        (a ++ '\n' :: pre) ++ (Mark.importKeyword.literal ++ (unread ++ more)) := by
      simp only [hb, List.append_assoc, List.cons_append]
    rw [hsize, htext]
    exact Text.dropBytes?_append _ _
  rw [hdrop, hdrop', Option.bind_some, Option.bind_some, importLength?, importLength?, hmore]

/-- The landmarks between two texts are those of the text there, further down. -/
theorem landmarksFrom_between (a b more : Text)
    (hmore : ∀ unread, importStatement? (Mark.importKeyword.literal ++ (unread ++ more)) =
      importStatement? (Mark.importKeyword.literal ++ unread)) :
    landmarksFrom (a ++ '\n' :: (b ++ more)) 0
        ((tokens b).map (Token.move (· + (a.byteSize + 1)))) =
      (landmarks b).map (Landmark.move (· + (a.byteSize + 1))) := by
  refine landmarksFrom_map_move (fun i j hij => Nat.add_lt_add_right hij _) 0 ?_ ?_
  · intro t ht
    apply Token.landmark?_move
    intro hmark
    rw [importLength?_between a hmore ht hmark]
    congr 1
    funext length
    exact Nat.add_right_comm _ _ _
  · intro t _ l _
    exact l.stop_move_add _

end Between

namespace Scanner

variable {text text' : Text}

/-! ## The scanner at the end of a text -/

/-- A token is read alike in two texts that have the same import statement there, or none. -/
theorem step_congr {token : Token}
    (h : token.mark = .importKeyword →
      (text'.dropBytes? token.start).bind importLength? =
        (text.dropBytes? token.start).bind importLength?) (s : Scanner) :
    s.step text' token = s.step text token := by
  obtain ⟨mark, start⟩ := token
  cases mark with
  | importKeyword =>
    unfold step readImport
    rw [h rfl]
  | blockOpen | blockClose => rfl
  | commentOpen | commentClose | slash | star | atSign => rfl

/-- An import statement ends in its text. -/
theorem add_importLength?_le {start length : Nat}
    (h : (text.dropBytes? start).bind importLength? = some length) :
    start + length ≤ text.byteSize := by
  obtain ⟨suf, hdrop, hlength⟩ := Option.bind_eq_some_iff.mp h
  obtain ⟨⟨before, _⟩, hsplit, rfl⟩ := Option.map_eq_some_iff.mp hdrop
  obtain ⟨rfl, rfl⟩ := Text.splitAt?_eq_some_iff.mp hsplit
  obtain ⟨statement, hs, rfl⟩ := Option.map_eq_some_iff.mp hlength
  obtain ⟨after, hafter⟩ := exists_append_of_importStatement? hs
  simp only at hafter
  rw [hafter, ← List.append_assoc, Text.byteSize_append (before ++ statement),
    Text.byteSize_append before]
  exact Nat.le_add_right _ _

theorem resume_step_le {s : Scanner} (h : s.resume ≤ text.byteSize) (token : Token) :
    (s.step text token).resume ≤ text.byteSize := by
  obtain ⟨mark, start⟩ := token
  unfold step
  split
  · exact h
  · cases mark with
    | importKeyword =>
      show (if s.commentDepth = 0 then s.readImport text start else s).resume ≤ text.byteSize
      unfold readImport
      split
      · split
        · next length hlength => exact add_importLength?_le hlength
        · exact h
      · exact h
    | blockOpen | blockClose =>
      simp only
      split <;> exact h
    | commentOpen | commentClose | slash | star | atSign => exact h

/-- What the scanner skips ends in the text. -/
theorem resume_run_le (text : Text) : (run text).resume ≤ text.byteSize := by
  have hfold : ∀ (read : List Token) (s : Scanner), s.resume ≤ text.byteSize →
      (read.foldl (step text) s).resume ≤ text.byteSize := by
    intro read
    induction read with
    | nil => exact fun _ h => h
    | cons token read ih => exact fun s h => ih _ (resume_step_le h token)
  exact hfold _ _ (Nat.zero_le _)

/-- A text at whose end the scanner rests: no block and no comment is open, and the prelude of the
next rule would begin there. -/
structure Rests (text : Text) : Prop where
  opened_eq : (run text).outline.opened = []
  commentDepth_eq : (run text).commentDepth = 0
  pending_eq : (run text).outline.pending = text.byteSize

instance (text : Text) : Decidable (Rests text) :=
  decidable_of_iff ((run text).outline.opened.isEmpty ∧ (run text).commentDepth = 0 ∧
    (run text).outline.pending = text.byteSize)
    ⟨fun h => ⟨List.isEmpty_iff.mp h.1, h.2.1, h.2.2⟩,
      fun h => ⟨List.isEmpty_iff.mpr h.1, h.2, h.3⟩⟩

end Scanner

/-- A landmark ends with a brace, a parenthesis or a semicolon. -/
theorem Landmark.Spans.exists_concat {start : Nat} {l : Landmark} {body rest : Text}
    (h : l.Spans start body rest) :
    ∃ front c, body = front ++ [c] ∧ c ∈ ['{', '}', ')', ';'] := by
  cases h with
  | opening => exact ⟨[], '{', rfl, by decide⟩
  | closing => exact ⟨[], '}', rfl, by decide⟩
  | statement found =>
    obtain ⟨blanks, line, semicolon, after, -, rfl, -, hsemicolon⟩ :=
      exists_eq_of_importStatement? found
    rcases hsemicolon with rfl | rfl
    · exact ⟨_, ')', rfl, by decide⟩
    · refine ⟨Mark.importKeyword.literal ++ blanks ++ urlOpen ++ line ++ [')'], ';', ?_, by decide⟩
      exact (List.append_assoc _ [')'] [';']).symm

namespace Scanner.Rests

variable {a : Text}

/-- **The last character of a text at whose end the scanner rests** ends a landmark. -/
theorem exists_concat (h : Rests a) :
    a = [] ∨ ∃ front c, a = front ++ [c] ∧ c ∈ ['{', '}', ')', ';'] := by
  have hpending := h.pending_eq
  rw [outline_run_eq, Builder.pending_foldl_read] at hpending
  cases hlast : (landmarks a).getLast? with
  | none =>
    rw [hlast] at hpending
    exact Or.inl (Text.byteSize_eq_zero_iff.mp hpending.symm)
  | some l =>
    obtain ⟨gap, body, rest, ht, hspans⟩ :=
      exists_spans_of_mem_landmarks (List.mem_of_getLast? hlast)
    obtain rfl : rest = [] := by
      rw [hlast, Option.map_some, Option.getD_some, hspans.stop_eq, ht, Text.byteSize_append,
        Text.byteSize_append] at hpending
      exact Text.byteSize_eq_zero_iff.mp (by omega)
    obtain ⟨front, c, rfl, hc⟩ := hspans.exists_concat
    refine Or.inr ⟨gap ++ front, c, ?_, hc⟩
    rw [ht, List.append_nil, List.append_assoc]

/-- No line end stands across the end of such a text. -/
theorem not_splitsLineEnd (h : Rests a) (b : Text) : ¬ Text.SplitsLineEnd a b := by
  apply Text.not_splitsLineEnd_of_getLast?
  intro hr
  rcases h.exists_concat with rfl | ⟨front, c, rfl, hc⟩
  · cases hr
  · rw [List.getLast?_concat] at hr
    obtain rfl := Option.some.inj hr
    exact absurd hc (by decide)

/-- Behind an import keyword of such a text there is more than blanks. -/
theorem exists_solid (h : Rests a) {pre unread : Text}
    (ha : a = pre ++ (Mark.importKeyword.literal ++ unread)) :
    ∃ c ∈ unread, Text.isWhiteSpace c = false := by
  rcases h.exists_concat with rfl | ⟨front, c, rfl, hc⟩
  · simp [Mark.literal] at ha
  · rcases List.eq_nil_or_concat unread with rfl | ⟨others, d, rfl⟩
    · have hlast := congrArg List.getLast? ha
      rw [List.getLast?_concat, List.append_nil, List.getLast?_append] at hlast
      obtain rfl : c = 't' := Option.some.inj hlast
      exact absurd hc (by decide)
    · rw [List.concat_eq_append] at ha ⊢
      have hlast := congrArg List.getLast? ha
      rw [← List.append_assoc, ← List.append_assoc, List.getLast?_concat,
        List.getLast?_concat] at hlast
      obtain rfl := Option.some.inj hlast
      have hsolid : ['{', '}', ')', ';'].all (fun c => !Text.isWhiteSpace c) := by decide
      have hblank := List.all_eq_true.mp hsolid c hc
      exact ⟨c, List.mem_append_right _ List.mem_cons_self, by simpa using hblank⟩

/-! ## Behind the text -/

/-- The tokens of the text are read as if nothing were behind it. -/
theorem readTokens_append (h : Rests a) (b : Text) :
    readTokens (a ++ '\n' :: b) (tokens a) = run a := by
  refine List.foldl_ext _ _ _ fun s t ht => ?_
  apply step_congr
  intro hmark
  obtain ⟨pre, unread, ha, hstart⟩ := exists_eq_append_of_mem_tokens ht
  rw [hmark] at ha
  have hdrop : a.dropBytes? t.start = some (Mark.importKeyword.literal ++ unread) := by
    rw [hstart, ha]
    exact Text.dropBytes?_append pre _
  have hdrop' : (a ++ '\n' :: b).dropBytes? t.start =
      some (Mark.importKeyword.literal ++ (unread ++ '\n' :: b)) := by
    rw [hstart, ha, List.append_assoc, List.append_assoc]
    exact Text.dropBytes?_append pre _
  rw [hdrop, hdrop', Option.bind_some, Option.bind_some, importLength?, importLength?,
    importStatement?_append_newline (h.exists_solid ha)]

/-- The landmarks behind the `\n` are those of the text there. -/
theorem landmarksFrom_append (a b : Text) :
    landmarksFrom (a ++ '\n' :: b) 0 ((tokens b).map (Token.move (· + (a.byteSize + 1)))) =
      (landmarks b).map (Landmark.move (· + (a.byteSize + 1))) := by
  have h := landmarksFrom_between a b [] fun unread => by rw [List.append_nil]
  rw [List.append_nil] at h
  exact h

/-- **The scan of a text behind such a text.** -/
theorem scan_top_append (h : Rests a) (b : Text) :
    (scan (a ++ '\n' :: b)).top = (scan a).top ++
      (((landmarks b).map (Landmark.move (· + (a.byteSize + 1)))).foldl Builder.read
        { pending := a.byteSize }).finish (b.byteSize + (a.byteSize + 1)) := by
  have hpairwise := pairwise_tokensFrom 0 (a ++ '\n' :: b)
  rw [← tokens, tokens_append_newline] at hpairwise
  have hresume : ((tokens b).map (Token.move (· + (a.byteSize + 1)))).filter
      (fun t => (run a).resume ≤ t.start) = (tokens b).map (Token.move (· + (a.byteSize + 1))) := by
    refine List.filter_eq_self.mpr fun t ht => ?_
    obtain ⟨u, -, rfl⟩ := List.mem_map.mp ht
    have hle := resume_run_le a
    apply decide_eq_true
    show (run a).resume ≤ u.start + (a.byteSize + 1)
    omega
  have hrun : (run (a ++ '\n' :: b)).outline =
      ((landmarks b).map (Landmark.move (· + (a.byteSize + 1)))).foldl Builder.read
        (run a).outline := by
    rw [run, tokens_append_newline, Scanner.readTokens_append, h.readTokens_append,
      outline_foldl_step _ (List.pairwise_append.mp hpairwise).2.1, hresume, h.commentDepth_eq,
      landmarksFrom_append]
  have hrest : (run a).outline =
      { pending := a.byteSize, finished := (run a).outline.finished } := by
    rw [← h.pending_eq, ← h.opened_eq]
  have hsize : (a ++ '\n' :: b).byteSize = b.byteSize + (a.byteSize + 1) := by
    have hnewline : '\n'.utf8Size = 1 := rfl
    rw [Text.byteSize_append, Text.byteSize_cons, hnewline]
    omega
  have hscan : (scan a).top = Forest.ofNewest (run a).outline.finished := by
    rw [scan, hrest]
    rfl
  rw [scan, hrun, hsize, hrest, Builder.finish_foldl_behind, hscan]

end Scanner.Rests

end CssOutline
