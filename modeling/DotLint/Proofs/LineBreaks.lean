import Mathlib.Tactic.Lemma
import DotLint.Proofs.DotMoves
import DotLint.Proofs.LintFindings

/-!
# Line breaks between tokens

Stepping over text moves to a later line exactly when the text holds a line break, unless a
line feed comes right after it, which no token starts with (`line_lt_advance_iff`). So over
the tokens of cells the parser sees a line break before token `i` exactly when the gap of
cell `i` holds one (`lineBreakBefore_cellTokens`), and a dot is misplaced exactly when the
parser sees a line break on its wrong side (`misplaced_iff`).
-/

namespace DotLint

open Parse Lexical

namespace Position

lemma line_le_of_le {a b : Position} (h : a.le b = true) : a.line ≤ b.line := by
  rw [le_iff] at h
  omega

/-- Stepping over text moves to a later line exactly when the text holds a line break,
unless a line feed follows it: a carriage return right before a line feed makes one break
with it. -/
lemma line_lt_advance_iff (p : Position) {g r : List Char} (hr : r.head? ≠ some '\n') :
    p.line < (p.advance g.length (g ++ r)).line ↔ g.any isLineBreak = true := by
  induction g generalizing p with
  | nil => simp
  | cons c g ih =>
    simp only [List.length_cons, List.cons_append, advance_succ_cons, List.any_cons,
      Bool.or_eq_true]
    by_cases hbreak : isLineBreak c = true
    · simp only [hbreak, true_or, iff_true]
      by_cases hcrlf : c = '\r' ∧ (g ++ r).head? = some '\n'
      · -- a carriage return before a line feed: the line feed, which is in `g`, breaks
        obtain ⟨rfl, hnext⟩ := hcrlf
        have hg : g.any isLineBreak = true := by
          cases g with
          | nil => exact absurd hnext hr
          | cons x g =>
            simp only [List.cons_append, List.head?_cons, Option.some.injEq] at hnext
            simp [hnext, isLineBreak]
        have hs : p.step '\r' (g ++ r).head? = p := by simp [step, hnext]
        rw [hs]
        exact (ih p).2 hg
      · have hs : p.step c (g ++ r).head? = ⟨p.line + 1, 1⟩ := by
          simp only [isLineBreak, Bool.or_eq_true, decide_eq_true_eq] at hbreak
          unfold step
          split_ifs <;> simp_all
        have hle := line_le_of_le (le_advance ⟨p.line + 1, 1⟩ g.length (g ++ r))
        rw [hs]
        dsimp only at hle
        omega
    · have hs : p.step c (g ++ r).head? = ⟨p.line, p.column + 1⟩ := by
        have hc : c ≠ '\n' ∧ c ≠ '\r' := by simpa [isLineBreak] using hbreak
        simp [step, hc.1, hc.2]
      rw [hs, eq_false_of_ne_true hbreak, Bool.false_eq_true, false_or]
      exact ih ⟨p.line, p.column + 1⟩

end Position

/-- Whether the incidental text before a cell's token holds a line break. -/
def Cell.breaksLine (c : Cell) : Bool := c.gap.any isLineBreak

/-- Every cell of read cells has a token, which starts with no blank. -/
lemma Reads.word_head {cs : List Cell} {s : List Char} (h : Reads cs s) {i : Nat} {c : Cell}
    (hc : cs[i]? = some c) : c.word ≠ [] ∧ ∀ x, c.word.head? = some x → isBlank x = false := by
  induction h generalizing i with
  | nil => simp at hc
  | @cons c' cs s _ hw hr _ ih =>
    cases i with
    | zero =>
      simp only [List.getElem?_cons_zero, Option.some.injEq] at hc
      subst hc
      exact ⟨hw, hr.head_not_blank⟩
    | succ i => exact ih hc

variable {ts : Array Token} {k : Nat}

/-- Over the tokens of read cells, the parser sees a line break before token `i` exactly
when the gap of cell `i` holds one, and `i` is not the first. -/
lemma lineBreakBefore_cellTokens {cs : List Cell} {last : List Char} {off : Nat} {P : Position}
    (hr : Reads cs last) (hts : ts.toList = cellTokens last cs off P) (i : Nat) :
    lineBreakBefore ts i = (i != 0 && cs[i]?.any Cell.breaksLine) := by
  have hget : ∀ j, ts[j]? = (cellTokens last cs off P)[j]? := fun j => by
    rw [← Array.getElem?_toList, hts]
  cases i with
  | zero => simp [lineBreakBefore]
  | succ i =>
    cases hc : cs[i + 1]? with
    | none =>
      have hnone : ts[i + 1]? = none := by rw [hget, cellTokens_getElem?, hc, Option.map_none]
      simp [lineBreakBefore, hnone]
    | some c =>
      obtain ⟨b, hb⟩ : ∃ b, cs[i]? = some b :=
        ⟨_, List.getElem?_eq_getElem (by have := (List.getElem?_eq_some_iff.1 hc).1; omega)⟩
      -- the text up to cell `i + 1`, and the text from it on
      have htake : cellsText (cs.take (i + 1)) = cellsText (cs.take i) ++ b.gap ++ b.word := by
        rw [List.take_add_one, hb]
        simp
      have hdrop : cellsText (cs.drop (i + 1)) = c.gap ++ (c.word ++ cellsText (cs.drop (i + 2))) := by
        rw [List.drop_eq_getElem_cons (List.getElem?_eq_some_iff.1 hc).1]
        simp [(List.getElem?_eq_some_iff.1 hc).2]
      have htext : cellsText cs ++ last = cellsText (cs.take (i + 1)) ++
          (c.gap ++ (c.word ++ cellsText (cs.drop (i + 2)) ++ last)) := by
        rw [← List.take_append_drop (i + 1) cs, cellsText_append, List.take_append_drop, hdrop]
        simp
      obtain ⟨hw, hblank⟩ := hr.word_head hc
      have hnext : (c.word ++ cellsText (cs.drop (i + 2)) ++ last).head? ≠ some '\n' := by
        obtain ⟨x, w, hxw⟩ := List.exists_cons_of_ne_nil hw
        have := isLineBreak_of_isBlank_eq_false (hblank x (by simp [hxw]))
        simp only [hxw, List.cons_append, List.head?_cons, ne_eq, Option.some.injEq]
        rintro rfl
        simp [isLineBreak] at this
      have hlen : (cellsText (cs.take i)).length + b.gap.length + b.word.length =
          (cellsText (cs.take (i + 1))).length := by
        simp [htake, Nat.add_assoc]
      simp only [lineBreakBefore, Nat.add_one_ne_zero, if_false, Nat.add_sub_cancel, hget,
        cellTokens_getElem?, hb, hc, Option.map_some, Option.any_some, Cell.breaksLine]
      rw [Bool.eq_iff_iff, decide_eq_true_eq, hlen, Position.advance_add, htext, List.drop_left,
        Position.line_lt_advance_iff _ hnext]
      simp

/-- The token before which a line break misplaces the dot at token `k`: the dot itself for
the object position, the token after it for the property position. -/
def DotPosition.wrongSide : DotPosition → Nat → Nat
  | .object, k => k
  | .property, k => k + 1

section Misplaced

variable (hord : InTextOrder ts.toList)
include hord

/-- Over ordered tokens, tokens never go back a line, so a dot is misplaced for the object
position exactly when the parser sees a line break before it. -/
lemma misplaced_object_iff (hk : 1 ≤ k) :
    Misplaced ts k .object ↔ lineBreakBefore ts k = true := by
  obtain ⟨k, rfl⟩ : ∃ j, k = j + 1 := ⟨k - 1, by omega⟩
  simp only [Misplaced, lineBreakBefore, Nat.add_one_ne_zero, if_false, Nat.add_sub_cancel]
  cases hb : ts[k]? with
  | none => simp
  | some b =>
    cases hd : ts[k + 1]? with
    | none => simp
    | some d =>
      have := Position.line_le_of_le (hord.precedes_of_lt (Nat.lt_succ_self k) hb hd).2
      simp only [Option.some.injEq, exists_and_left, exists_eq_left', decide_eq_true_eq]
      omega

/-- A dot is misplaced for the property position exactly when the parser sees a line break
after it. -/
lemma misplaced_property_iff : Misplaced ts k .property ↔ lineBreakBefore ts (k + 1) = true := by
  simp only [Misplaced, lineBreakBefore, Nat.add_one_ne_zero, if_false, Nat.add_sub_cancel]
  cases hd : ts[k]? with
  | none => simp
  | some d =>
    cases hp : ts[k + 1]? with
    | none => simp
    | some p =>
      have := Position.line_le_of_le (hord.precedes_of_lt (Nat.lt_succ_self k) hd hp).2
      simp only [Option.some.injEq, exists_and_left, exists_eq_left', decide_eq_true_eq]
      omega

/-- A dot is misplaced exactly when the parser sees a line break on its wrong side. -/
lemma misplaced_iff {pos : DotPosition} (hk : 1 ≤ k) :
    Misplaced ts k pos ↔ lineBreakBefore ts (pos.wrongSide k) = true := by
  cases pos with
  | object => exact misplaced_object_iff hord hk
  | property => exact misplaced_property_iff hord

end Misplaced

end DotLint
