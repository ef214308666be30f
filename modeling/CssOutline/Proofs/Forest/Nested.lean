import CssOutline.Proofs.Forest.Entries
import Mathlib.Order.Nat

/-!
# Nested rules

The rules of a tree are nested if the rules at one level follow one another, and those below a
rule stand inside its body. By address this says that a rule lies inside its parent and behind
its elder siblings.

## Main definitions

* `Rule.LiesIn`: a rule between two offsets
* `Forest.Nested`: nested rules between two offsets

## Main results

* `Forest.Nested.pairwise_toList`: nested rules start one after another in document order
* `Forest.Nested.liesIn_parent`: a rule lies in the body of its parent
* `Forest.Nested.stop_le_start`: a rule ends before its younger siblings start
-/

namespace CssOutline

/-- A rule that has its offsets in order and lies between two others. -/
structure Rule.LiesIn (lo hi : Nat) (rule : Rule) : Prop where
  le_start : lo ≤ rule.start
  start_le : rule.start ≤ rule.bodyStart
  bodyStart_lt : rule.bodyStart < rule.stop
  stop_le : rule.stop ≤ hi

theorem Rule.LiesIn.mono {lo hi lo' hi' : Nat} {rule : Rule} (h : rule.LiesIn lo hi)
    (hlo : lo' ≤ lo) (hhi : hi ≤ hi') : rule.LiesIn lo' hi' :=
  ⟨hlo.trans h.le_start, h.start_le, h.bodyStart_lt, h.stop_le.trans hhi⟩

namespace Forest

/-- Rules between two offsets: those at one level follow one another, and those below a rule
stand inside its body. -/
inductive Nested : (lo hi : Nat) → Forest Rule → Prop
  | nil (lo hi : Nat) : Nested lo hi nil
  | cons {lo hi : Nat} {rule : Rule} {below after : Forest Rule} (lies : rule.LiesIn lo hi)
      (inside : Nested (rule.bodyStart + 1) rule.stop below)
      (behind : Nested rule.stop hi after) : Nested lo hi (cons rule below after)

namespace Nested

variable {f g : Forest Rule} {lo mid hi : Nat} {id : Address} {rule : Rule}

/-! ## Building -/

theorem mono (h : f.Nested lo hi) {lo' hi' : Nat} (hlo : lo' ≤ lo) (hhi : hi ≤ hi') :
    f.Nested lo' hi' := by
  induction h generalizing lo' hi' with
  | nil => exact .nil _ _
  | cons lies inside _ _ ih => exact .cons (lies.mono hlo hhi) inside (ih le_rfl hhi)

/-- Nested rules behind others. -/
theorem append (hf : f.Nested lo mid) (hg : g.Nested mid hi) (hlo : lo ≤ mid) (hhi : mid ≤ hi) :
    (f ++ g).Nested lo hi := by
  induction hf with
  | nil => exact hg.mono hlo le_rfl
  | cons lies inside _ _ ih => exact .cons (lies.mono le_rfl hhi) inside (ih hg lies.stop_le hhi)

/-- Nested rules stay nested when the starts of rules move towards their bodies. -/
theorem map (h : f.Nested lo hi) {change : Rule → Rule}
    (hstart : ∀ rule, rule.start ≤ (change rule).start ∧
      (change rule).start ≤ max rule.start rule.bodyStart)
    (hbody : ∀ rule, (change rule).bodyStart = rule.bodyStart)
    (hstop : ∀ rule, (change rule).stop = rule.stop) : (f.map change).Nested lo hi := by
  induction h with
  | nil => exact .nil _ _
  | @cons lo hi rule below after lies _ _ ih₁ ih₂ =>
    obtain ⟨hge, hle⟩ := hstart rule
    rw [max_eq_right lies.start_le] at hle
    refine .cons ⟨lies.le_start.trans hge, ?_, ?_, ?_⟩ ?_ ?_
    · rwa [hbody]
    · rw [hbody, hstop]
      exact lies.bodyStart_lt
    · rw [hstop]
      exact lies.stop_le
    · rwa [hbody, hstop]
    · rwa [hstop]

/-! ## In document order -/

theorem liesIn_of_mem_toList (h : f.Nested lo hi) (hr : rule ∈ f.toList) : rule.LiesIn lo hi := by
  induction h with
  | nil => cases hr
  | cons lies _ _ ih₁ ih₂ =>
    rcases List.mem_cons.mp hr with rfl | hr
    · exact lies
    · have hstart := lies.start_le
      have hstop := lies.bodyStart_lt
      rcases List.mem_append.mp hr with hr | hr
      · exact (ih₁ hr).mono (by have := lies.le_start; omega) lies.stop_le
      · exact (ih₂ hr).mono (by have := lies.le_start; omega) le_rfl

/-- **Nested rules start one after another** in document order. -/
theorem pairwise_toList (h : f.Nested lo hi) :
    f.toList.Pairwise fun earlier later => earlier.start < later.start := by
  induction h with
  | nil => exact .nil
  | @cons lo hi rule below after lies hbelow hafter ih₁ ih₂ =>
    have hstart := lies.start_le
    have hstop := lies.bodyStart_lt
    refine List.pairwise_cons.mpr ⟨fun later hl => ?_, List.pairwise_append.mpr ⟨ih₁, ih₂, ?_⟩⟩
    · rcases List.mem_append.mp hl with hl | hl
      · have hle := (hbelow.liesIn_of_mem_toList hl).le_start
        omega
      · have hle := (hafter.liesIn_of_mem_toList hl).le_start
        omega
    · intro earlier he later hl
      have he := hbelow.liesIn_of_mem_toList he
      have hle := (hafter.liesIn_of_mem_toList hl).le_start
      have hlt := he.start_le.trans_lt (he.bodyStart_lt.trans_le he.stop_le)
      omega

/-! ## By address -/

theorem tree? (h : f.Nested lo hi) {i : Nat} {t : Rule × Forest Rule} (ht : f.tree? i = some t) :
    t.1.LiesIn lo hi ∧ t.2.Nested (t.1.bodyStart + 1) t.1.stop := by
  induction h generalizing i with
  | nil => cases i <;> cases ht
  | cons lies inside _ _ ih =>
    cases i with
    | zero =>
      obtain rfl := Option.some.inj ht
      exact ⟨lies, inside⟩
    | succ i =>
      obtain ⟨hl, hb⟩ := ih ht
      have hstop := lies.le_start.trans (lies.start_le.trans lies.bodyStart_lt.le)
      exact ⟨hl.mono hstop le_rfl, hb⟩

/-- A tree ends before the later ones start. -/
theorem tree?_stop_le (h : f.Nested lo hi) {i j : Nat} (hij : i < j) {t u : Rule × Forest Rule}
    (ht : f.tree? i = some t) (hu : f.tree? j = some u) : t.1.stop ≤ u.1.start := by
  induction h generalizing i j with
  | nil => cases i <;> cases ht
  | cons lies _ hafter _ ih =>
    obtain ⟨j, rfl⟩ := Nat.exists_eq_add_one_of_ne_zero (Nat.ne_zero_of_lt hij)
    cases i with
    | zero =>
      obtain rfl := Option.some.inj ht
      exact (hafter.tree? hu).1.le_start
    | succ i => exact ih (Nat.lt_of_succ_lt_succ hij) ht hu

/-- The rules at one level are nested too. -/
theorem below? (h : f.Nested lo hi) {below : Forest Rule} (hb : f.below? id = some below) :
    ∃ lo hi, below.Nested lo hi := by
  induction id generalizing f lo hi with
  | nil =>
    obtain rfl := Option.some.inj hb
    exact ⟨lo, hi, h⟩
  | cons i id ih =>
    obtain ⟨t, ht, hb⟩ := Option.bind_eq_some_iff.mp hb
    exact ih (h.tree? ht).2 hb

/-- The rules below a rule are nested inside its body. -/
theorem exists_below?_of_get? (h : f.Nested lo hi) (hr : f.get? id = some rule) :
    ∃ below, f.below? id = some below ∧ below.Nested (rule.bodyStart + 1) rule.stop := by
  induction id using List.reverseRecOn with
  | nil => cases hr
  | append_singleton id i _ =>
    rw [get?_concat] at hr
    obtain ⟨level, hl, ht⟩ := Option.bind_eq_some_iff.mp hr
    obtain ⟨t, htree, rfl⟩ := Option.map_eq_some_iff.mp ht
    obtain ⟨lo', hi', hlevel⟩ := h.below? hl
    refine ⟨t.2, ?_, (hlevel.tree? htree).2⟩
    rw [below?_append, hl, Option.bind_some, Forest.below?, htree]
    rfl

/-- **A rule lies in the body of its parent.** -/
theorem liesIn_parent (h : f.Nested lo hi) {i : Nat} {child : Rule} (hr : f.get? id = some rule)
    (hc : f.get? (id ++ [i]) = some child) : child.LiesIn (rule.bodyStart + 1) rule.stop := by
  obtain ⟨below, hb, hn⟩ := h.exists_below?_of_get? hr
  rw [get?_concat, hb, Option.bind_some] at hc
  obtain ⟨t, ht, rfl⟩ := Option.map_eq_some_iff.mp hc
  exact (hn.tree? ht).1

/-- **A rule ends before its younger siblings start.** -/
theorem stop_le_start (h : f.Nested lo hi) {i j : Nat} (hij : i < j) {elder younger : Rule}
    (he : f.get? (id ++ [i]) = some elder) (hy : f.get? (id ++ [j]) = some younger) :
    elder.stop ≤ younger.start := by
  rw [get?_concat] at he hy
  obtain ⟨below, hb, he⟩ := Option.bind_eq_some_iff.mp he
  rw [hb, Option.bind_some] at hy
  obtain ⟨t, ht, rfl⟩ := Option.map_eq_some_iff.mp he
  obtain ⟨u, hu, rfl⟩ := Option.map_eq_some_iff.mp hy
  obtain ⟨lo', hi', hn⟩ := h.below? hb
  exact hn.tree?_stop_le hij ht hu

end Nested

end Forest

end CssOutline
