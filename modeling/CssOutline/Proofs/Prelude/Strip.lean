import CssOutline.Prelude
import Mathlib.Data.List.Infix

/-!
# What is stripped from a prelude

Stripping removes a front made of blanks and whole comments, and what is left begins with
neither, though it may begin with a comment that is never closed.

## Main definitions

* `Prelude.IsComment`: a whole comment, from `/*` through the first `*/` behind it
* `Prelude.IsFront`: a sequence of blanks and whole comments
* `Prelude.Stops`: a text that begins with neither
* `Prelude.Strips`: how many bytes of blanks and whole comments stand in front of which rest

## Main results

* `Prelude.exists_front`: a text is its front and the stripped text
* `Prelude.strip_induction`: a text is taken apart the way it is stripped
* `Prelude.IsFront.strip_append`: blanks and whole comments at the front are stripped
* `Prelude.stops_strip`: what is left begins with neither
* `Prelude.strips_iff`, `Prelude.front_stripped`: a text is stripped in one way
* `Prelude.commentClose?_eq_none_iff`, `Prelude.leadingComment?_eq_none_iff`: when a comment is
  never closed
-/

namespace CssOutline.Prelude

/-- The end of a comment. -/
def closeLiteral : Text := ['*', '/']

/-- A whole comment: it begins with `/*` and ends with the first `*/` behind that. -/
def IsComment (comment : Text) : Prop :=
  ∃ inside, comment = '/' :: '*' :: (inside ++ closeLiteral) ∧
    ¬ closeLiteral <:+: inside ++ ['*']

/-- A sequence of blanks and whole comments. -/
inductive IsFront : Text → Prop
  | nil : IsFront []
  | blank {c : Char} {rest : Text} (hc : Text.isBlank c) : IsFront rest → IsFront (c :: rest)
  | comment {comment rest : Text} (hc : IsComment comment) :
      IsFront rest → IsFront (comment ++ rest)

/-! ## Where a comment ends -/

theorem commentClose?_eq_none_iff {body : Text} :
    commentClose? body = none ↔ ¬ closeLiteral <:+: body := by
  fun_induction commentClose? body with
  | case1 => simp [closeLiteral]
  | case2 rest =>
    have hi : closeLiteral <:+: '*' :: '/' :: rest := ⟨[], rest, rfl⟩
    simp [hi]
  | case3 c rest hc ih =>
    have hp : ¬ closeLiteral <+: c :: rest := by
      rintro ⟨tail, ht⟩
      obtain ⟨rfl, rfl⟩ := List.cons.inj ht
      exact hc tail rfl rfl
    simp [List.infix_cons_iff, hp, ih]

/-- A comment ends with the first end behind its beginning. -/
theorem exists_eq_of_commentClose? {body : Text} {n : Nat} (h : commentClose? body = some n) :
    ∃ inside rest, body = inside ++ closeLiteral ++ rest ∧ (inside ++ closeLiteral).length = n ∧
      ¬ closeLiteral <:+: inside ++ ['*'] := by
  fun_induction commentClose? body generalizing n with
  | case1 => simp at h
  | case2 rest => exact ⟨[], rest, rfl, by simpa [closeLiteral] using h, by decide⟩
  | case3 c rest hc ih =>
    obtain ⟨m, hm, rfl⟩ := Option.map_eq_some_iff.mp h
    obtain ⟨inside, after, rfl, hl, hi⟩ := ih hm
    refine ⟨c :: inside, after, rfl, by simp [← hl], ?_⟩
    rw [List.cons_append, List.infix_cons_iff, not_or]
    refine ⟨?_, hi⟩
    rintro ⟨tail, ht⟩
    obtain ⟨rfl, hr⟩ := List.cons.inj ht
    cases inside with
    | nil => cases (List.cons.inj hr).1
    | cons d inside =>
      obtain ⟨rfl, -⟩ := List.cons.inj hr
      exact hc _ rfl rfl

/-- The first end behind the beginning of a comment closes it. -/
theorem commentClose?_append {inside : Text} (h : ¬ closeLiteral <:+: inside ++ ['*'])
    (rest : Text) :
    commentClose? (inside ++ (closeLiteral ++ rest)) = some (inside.length + 2) := by
  induction inside with
  | nil => rfl
  | cons c inside ih =>
    rw [List.cons_append, List.infix_cons_iff, not_or] at h
    rw [List.cons_append, commentClose?, ih h.2]
    · rfl
    · rintro tail rfl ht
      cases inside with
      | nil => cases (List.cons.inj ht).1
      | cons d inside =>
        obtain ⟨rfl, -⟩ := List.cons.inj ht
        exact h.1 ⟨inside ++ ['*'], rfl⟩

/-- A text begins with no whole comment if it begins with none, or with one that is never closed. -/
theorem leadingComment?_eq_none_iff {text : Text} :
    leadingComment? text = none ↔ ∀ body, ['/', '*'] ++ body = text → ¬ closeLiteral <:+: body := by
  rw [leadingComment?.eq_def]
  split
  · next body =>
    rw [Option.map_eq_none_iff, commentClose?_eq_none_iff]
    constructor
    · rintro h body' ht
      obtain rfl : body' = body :=
        List.append_cancel_left (show ['/', '*'] ++ body' = ['/', '*'] ++ body from ht)
      exact h
    · intro h
      exact h body rfl
  · next hne =>
    refine iff_of_true rfl ?_
    rintro body rfl
    exact absurd rfl (hne body)

/-! ## Stripping step by step -/

theorem stripAfter_append (read text : Text) :
    stripAfter read.length (read ++ text) = strip text := by
  induction read with
  | nil => rfl
  | cons c read ih => exact ih

@[simp] theorem strip_nil : strip [] = [] := rfl

theorem strip_cons_of_isBlank {c : Char} (hc : Text.isBlank c) (rest : Text) :
    strip (c :: rest) = strip rest := by
  simp only [strip, stripAfter, hc, if_true]

/-- A comment that is closed is a whole comment. -/
theorem exists_isComment_of_leadingComment? {text : Text} {n : Nat}
    (h : leadingComment? text = some n) :
    ∃ comment rest, text = comment ++ rest ∧ comment.length = n ∧ IsComment comment := by
  rw [leadingComment?.eq_def] at h
  split at h
  · obtain ⟨m, hm, rfl⟩ := Option.map_eq_some_iff.mp h
    obtain ⟨inside, rest, rfl, hl, hi⟩ := exists_eq_of_commentClose? hm
    exact ⟨'/' :: '*' :: (inside ++ closeLiteral), rest, by simp, by simp [← hl], inside, rfl, hi⟩
  · cases h

theorem strip_of_leadingComment? {comment rest : Text}
    (h : leadingComment? (comment ++ rest) = some comment.length) :
    strip (comment ++ rest) = strip rest := by
  cases comment with
  | nil =>
    rfl
  | cons c tail =>
    have hc : c = '/' := by
      rw [leadingComment?.eq_def] at h
      split at h
      · next ht => exact (List.cons.inj ht).1
      · cases h
    have hb : Text.isBlank c = false := by
      rw [hc]
      decide
    rw [List.cons_append] at h ⊢
    rw [strip]
    simp only [stripAfter, hb, Bool.false_eq_true, if_false, h, List.length_cons,
      Nat.add_sub_cancel]
    exact stripAfter_append tail rest

/-- Blanks at the front are stripped. -/
theorem strip_append_of_isBlank {blanks : Text} (h : ∀ c ∈ blanks, Text.isBlank c) (rest : Text) :
    strip (blanks ++ rest) = strip rest := by
  induction blanks with
  | nil => rfl
  | cons c blanks ih =>
    rw [List.cons_append, strip_cons_of_isBlank (h c List.mem_cons_self)]
    exact ih fun d hd => h d (List.mem_cons_of_mem c hd)

/-- A whole comment at the front is stripped. -/
theorem IsComment.strip_append {comment : Text} (h : IsComment comment) (rest : Text) :
    strip (comment ++ rest) = strip rest := by
  apply strip_of_leadingComment?
  obtain ⟨inside, rfl, hinside⟩ := h
  have hclose : commentClose? (inside ++ closeLiteral ++ rest) = some (inside.length + 2) := by
    rw [List.append_assoc]
    exact commentClose?_append hinside rest
  rw [List.cons_append, List.cons_append, leadingComment?, hclose, Option.map_some]
  simp [closeLiteral]

theorem strip_of_leadingComment?_eq_none {c : Char} {rest : Text}
    (hb : Text.isBlank c = false) (h : leadingComment? (c :: rest) = none) :
    strip (c :: rest) = c :: rest := by
  simp only [strip, stripAfter, hb, Bool.false_eq_true, if_false, h]

/-- A text is taken apart the way it is stripped: into blanks, whole comments and the rest. -/
theorem strip_induction {motive : Text → Prop}
    (blank : ∀ (c : Char) (rest : Text), Text.isBlank c → strip (c :: rest) = strip rest →
      motive rest → motive (c :: rest))
    (comment : ∀ comment rest : Text, IsComment comment →
      strip (comment ++ rest) = strip rest → motive rest → motive (comment ++ rest))
    (stop : ∀ text : Text, strip text = text → (∀ c ∈ text.head?, Text.isBlank c = false) →
      leadingComment? text = none → motive text) (text : Text) : motive text := by
  induction hn : text.length using Nat.strongRecOn generalizing text with
  | ind n ih =>
    cases text with
    | nil => exact stop [] rfl (by simp) rfl
    | cons c rest =>
      -- a blank or a comment at the front makes the rest shorter; anything else stops the stripping
      simp only [List.length_cons] at hn
      cases hb : Text.isBlank c with
      | true => exact blank c rest hb (strip_cons_of_isBlank hb rest) (ih _ (by omega) rest rfl)
      | false =>
        cases hc : leadingComment? (c :: rest) with
        | none =>
          exact stop _ (strip_of_leadingComment?_eq_none hb hc) (by simpa using hb) hc
        | some m =>
          obtain ⟨front, after, ht, hl, hf⟩ := exists_isComment_of_leadingComment? hc
          rw [ht] at hc ⊢
          refine comment front after hf (strip_of_leadingComment? (hl ▸ hc)) (ih _ ?_ after rfl)
          obtain ⟨inside, rfl, -⟩ := hf
          have hlen := congrArg List.length ht
          simp only [List.length_cons, List.length_append] at hlen
          omega

/-- **A text is its front and the stripped text.** -/
theorem exists_front (text : Text) : ∃ front, text = front ++ strip text ∧ IsFront front := by
  induction text using strip_induction with
  | blank c rest hc hs ih =>
    obtain ⟨front, hf, hi⟩ := ih
    exact ⟨c :: front, by rw [hs, List.cons_append, ← hf], .blank hc hi⟩
  | comment comment rest hc hs ih =>
    obtain ⟨front, hf, hi⟩ := ih
    exact ⟨comment ++ front, by rw [hs, List.append_assoc, ← hf], .comment hc hi⟩
  | stop text hs _ _ => exact ⟨[], by rw [hs, List.nil_append], .nil⟩

/-- The bytes that are stripped are those of the front. -/
theorem leadingSize_eq {text front : Text} (h : text = front ++ strip text) :
    leadingSize text = front.byteSize := by
  have hsize := congrArg Text.byteSize h
  rw [Text.byteSize_append] at hsize
  rw [leadingSize]
  omega

/-! ## What is left -/

/-- A text that begins with no blank and with no whole comment: where it begins with `/*`, there is
no `*/` behind that. -/
structure Stops (text : Text) : Prop where
  head : ∀ c ∈ text.head?, Text.isBlank c = false
  unclosed : ∀ body, ['/', '*'] ++ body = text → ¬ closeLiteral <:+: body

/-- What is left of a prelude begins with no blank and with no whole comment. -/
theorem stops_strip (text : Text) : Stops (strip text) := by
  induction text using strip_induction with
  | blank c rest hc hs ih => rwa [hs]
  | comment comment rest hc hs ih => rwa [hs]
  | stop text hs hhead hcomment =>
    rw [hs]
    exact ⟨hhead, leadingComment?_eq_none_iff.mp hcomment⟩

/-- Nothing is stripped from a text that begins with neither. -/
theorem Stops.strip_eq {text : Text} (h : Stops text) : strip text = text := by
  cases text with
  | nil => rfl
  | cons c rest =>
    have hnone := leadingComment?_eq_none_iff.mpr h.unclosed
    exact strip_of_leadingComment?_eq_none (h.head c rfl) hnone

/-- Nothing is left to strip. -/
theorem strip_strip (text : Text) : strip (strip text) = strip text := (stops_strip text).strip_eq

theorem leadingSize_strip (text : Text) : leadingSize (strip text) = 0 := by
  rw [leadingSize, strip_strip, Nat.sub_self]

/-! ## The only way to strip a text -/

/-- Blanks and whole comments at the front are stripped, however many there are. -/
theorem IsFront.strip_append {front : Text} (h : IsFront front) (rest : Text) :
    strip (front ++ rest) = strip rest := by
  induction h with
  | nil => rfl
  | blank hc _ ih => rw [List.cons_append, strip_cons_of_isBlank hc, ih]
  | comment hc _ ih => rw [List.append_assoc, hc.strip_append, ih]

theorem IsFront.leadingSize_append {front : Text} (h : IsFront front) (rest : Text) :
    leadingSize (front ++ rest) = front.byteSize + leadingSize rest := by
  obtain ⟨front', hrest, -⟩ := exists_front rest
  have hwhole : front ++ rest = (front ++ front') ++ strip (front ++ rest) := by
    rw [h.strip_append, List.append_assoc, ← hrest]
  rw [leadingSize_eq hwhole, leadingSize_eq hrest, Text.byteSize_append]

/-- The text `rest` is what is left of a text behind `n` bytes of blanks and whole comments. -/
structure Strips (text : Text) (n : Nat) (rest : Text) : Prop where
  front : ∃ front, text = front ++ rest ∧ front.byteSize = n ∧ IsFront front
  stops : Stops rest

/-- **A text is stripped in one way.** -/
theorem strips_iff {text rest : Text} {n : Nat} :
    Strips text n rest ↔ n = leadingSize text ∧ rest = strip text := by
  constructor
  · rintro ⟨⟨front, rfl, rfl, hfront⟩, hstops⟩
    have hstrip : strip (front ++ rest) = rest := by rw [hfront.strip_append, hstops.strip_eq]
    exact ⟨(leadingSize_eq (by rw [hstrip])).symm, hstrip.symm⟩
  · rintro ⟨rfl, rfl⟩
    obtain ⟨front, htext, hfront⟩ := exists_front text
    exact ⟨⟨front, htext, (leadingSize_eq htext).symm, hfront⟩, stops_strip text⟩

/-- **Stripping takes the whole front of a text and nothing else.** The bytes that are stripped and
the text that is left are the only ones for which the text is a sequence of blanks and whole
comments, that many bytes long, and a rest that begins with no blank and with no whole comment.
Nothing is left to strip from the rest. One blank or one whole comment more in front of a text is
stripped as well, and leaves the same. -/
theorem front_stripped (text : Text) :
    (∀ n rest, Strips text n rest ↔ n = leadingSize text ∧ rest = strip text) ∧
    (leadingSize (strip text) = 0 ∧ strip (strip text) = strip text) ∧
    (∀ c, Text.isBlank c → leadingSize (c :: text) = c.utf8Size + leadingSize text ∧
      strip (c :: text) = strip text) ∧
    ∀ comment, IsComment comment →
      leadingSize (comment ++ text) = comment.byteSize + leadingSize text ∧
        strip (comment ++ text) = strip text := by
  refine ⟨fun n rest => strips_iff, ⟨leadingSize_strip text, strip_strip text⟩,
    fun c hc => ⟨?_, strip_cons_of_isBlank hc text⟩, fun comment hc => ⟨?_, hc.strip_append text⟩⟩
  · exact (IsFront.blank hc .nil).leadingSize_append text
  · have hfront := IsFront.comment hc .nil
    rw [List.append_nil] at hfront
    exact hfront.leadingSize_append text

/-- A whole comment in front of one that is never closed, with marks that overlap in both. -/
theorem front_stripped_overlapping :
    let whole : Text := ['/', '*', '/', '*', '*', '/']
    let unclosed : Text := ['/', '*', '/', 'a']
    IsComment whole ∧ leadingSize (whole ++ unclosed) = 6 ∧
      strip (whole ++ unclosed) = unclosed := by
  intro whole unclosed
  have hwhole : IsComment whole := ⟨['/', '*'], rfl, by decide⟩
  obtain ⟨hsize, hstrip⟩ := (front_stripped unclosed).2.2.2 whole hwhole
  exact ⟨hwhole, hsize, hstrip⟩

end CssOutline.Prelude
