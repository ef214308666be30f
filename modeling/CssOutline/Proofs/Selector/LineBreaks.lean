import CssOutline.Proofs.Selector
import CssOutline.Proofs.Text.LineEnding

/-!
# Selectors that run over several lines

Each character of a line end becomes a space of its own, so `\r\n` inside an item of a selector list
leaves two spaces where `\n` leaves one. At the ends of items both are trimmed. A selector therefore
has one normal form in both spellings exactly if all its line ends are at the ends of its items.

## Main definitions

* `Selector.BreaksApart`: a selector with no line end inside an item

## Main results

* `Text.trim_respell`: blanks are trimmed in every spelling
* `Selector.normalize_eq_normalize_iff`: which selectors have the same normal form
* `Selector.normalize_respell_crlf_eq_iff`: when line ends spelled `\r\n` leave the normal form
  alone
-/

namespace CssOutline

namespace Text

variable {text : Text}

/-- A trimmed text is trimmed in every spelling. -/
theorem trim_respell_of_trimmed (h : trim isBlank text = text) (ending : LineEnding) :
    trim isBlank (respell ending text) = respell ending text := by
  obtain ⟨hhead, hlast⟩ := trim_eq_self_iff.mp h
  have hnewline : ∀ c, isBlank c = false → c ≠ '\n' := by
    rintro c hc rfl
    exact absurd hc (by decide)
  cases text with
  | nil => rfl
  | cons c rest =>
    have hne : c :: rest ≠ [] := List.cons_ne_nil c rest
    have hl : (c :: rest).getLast? = some ((c :: rest).getLast hne) :=
      List.getLast?_eq_some_getLast hne
    have hsolid := hhead c rfl
    have hsolid' := hlast _ hl
    refine trim_eq_self_iff.mpr ⟨?_, ?_⟩
    · rw [head?_respell rfl (hnewline c hsolid)]
      rintro d hd
      rwa [← Option.some.inj hd]
    · rw [getLast?_respell hl (hnewline _ hsolid') ending]
      rintro d hd
      rwa [← Option.some.inj hd]

/-- **Blanks are trimmed in every spelling.** -/
theorem trim_respell (ending : LineEnding) (text : Text) :
    trim isBlank (respell ending text) = respell ending (trim isBlank text) := by
  obtain ⟨front, back, ht, hfront, hback⟩ := exists_trim isBlank text
  have hblanks : ∀ blanks : Text, (∀ c ∈ blanks, isBlank c) →
      ∀ c ∈ respell ending blanks, isBlank c :=
    fun _ h => forall_mem_respell (by decide) (by decide) h ending
  have hparts : respell ending text =
      respell ending front ++ (respell ending (trim isBlank text) ++ respell ending back) := by
    rw [← respell_append, ← respell_append, ← ht]
  rw [hparts, trim_append (hblanks front hfront) (hblanks back hback),
    trim_respell_of_trimmed (trim_trim isBlank text)]

end Text

namespace Selector

/-- A selector that has its line ends at the ends of the items of its list. -/
def BreaksApart (selector : Text) : Prop :=
  ∀ item ∈ selector.splitOn ',', '\n' ∉ Text.trim Text.isBlank item

/-- What is left of an item of a selector list. -/
def cleanItem (item : Text) : Text := (Text.trim Text.isBlank item).map unbreak

theorem comma_notMem_cleanItem {item : Text} (h : ',' ∉ item) : ',' ∉ cleanItem item := by
  intro hcomma
  obtain ⟨c, hc, hbreak⟩ := List.mem_map.mp hcomma
  have hself : unbreak c = c := unbreak_eq_self (by rw [hbreak]; decide)
  rw [hself] at hbreak
  exact h (hbreak ▸ Text.mem_of_mem_trim hc)

/-- **Which selectors have the same normal form**: those that the same items are left of. -/
theorem normalize_eq_normalize_iff {selector selector' : Text} :
    normalize selector = normalize selector' ↔
      (selector.splitOn ',').map cleanItem = (selector'.splitOn ',').map cleanItem := by
  have hsplit : ∀ s : Text, (normalize s).splitOn ',' = (s.splitOn ',').map cleanItem := by
    intro s
    rw [normalize_eq]
    refine List.splitOn_intercalate ',' (fun item hitem => ?_) (by simp [List.splitOn_ne_nil])
    obtain ⟨part, hpart, rfl⟩ := List.mem_map.mp hitem
    exact comma_notMem_cleanItem (of_mem_splitOn hpart).1
  constructor
  · intro h
    rw [← hsplit, h, hsplit]
  · intro h
    rw [normalize_eq, normalize_eq]
    exact congrArg _ h

/-- Line ends have no part in the commas of a selector list. -/
theorem splitOn_respell (ending : LineEnding) (selector : Text) :
    (selector.respell ending).splitOn ',' =
      (selector.splitOn ',').map (Text.respell ending) := by
  refine splitOn_flatMap rfl (fun c hc hcomma => ?_) selector
  split at hcomma
  · rcases LineEnding.eq_of_mem_text hcomma with h | h <;> exact absurd h (by decide)
  · exact hc (List.mem_singleton.mp hcomma).symm

/-- An item is left the same by line ends spelled `\r\n` exactly if none of them is left in it. -/
theorem cleanItem_respell_crlf_eq_iff (item : Text) :
    cleanItem (item.respell .crlf) = cleanItem item ↔ '\n' ∉ Text.trim Text.isBlank item := by
  rw [cleanItem, Text.trim_respell, cleanItem]
  constructor
  · intro h hn
    have hlength := congrArg List.length h
    rw [List.length_map, Text.length_respell_crlf, List.length_map] at hlength
    have hpos := List.count_pos_iff.mpr hn
    omega
  · intro hn
    rw [Text.respell_eq_self hn]

/-- **When line ends spelled `\r\n` leave the normal form of a selector alone**: if there are none
inside its items. -/
theorem normalize_respell_crlf_eq_iff (selector : Text) :
    normalize (selector.respell .crlf) = normalize selector ↔ BreaksApart selector := by
  rw [normalize_eq_normalize_iff, splitOn_respell, List.map_map, List.map_inj_left]
  refine forall₂_congr fun item _ => ?_
  exact cleanItem_respell_crlf_eq_iff item

end Selector

end CssOutline
