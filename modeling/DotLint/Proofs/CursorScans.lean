import Mathlib.Tactic.Lemma
import DotLint.Proofs.LintFindings

/-!
# Token lookups agree with scans

The cursor finds the tokens around a span by binary search: it asks where a predicate on the
tokens stops holding, and then looks at the token there or just before it. A scan from the
left, which tries every token, is the plain answer to the same question: the last token that
ends at or before the span starts, the first that starts at or after it ends, and the first
and last tokens that lie inside it.

The two agree for every span, empty, reversed and out of range ones included, as soon as the
tokens are in text order, as the lexer gives them. Each predicate the search asks about then
holds of a prefix of the tokens and of nothing after it (`InTextOrder.stop_le_prefix`,
`InTextOrder.start_lt_prefix`), so the search stops where a scan first finds it false
(`partitionPoint_eq_findIdx`). For the first and last tokens inside a span the cursor checks
only the one token next to that place; a token further on starts after that one ends, so it
cannot qualify either.
-/

namespace DotLint

/-! ## Scans -/

/-- The index of the last element of `l` that satisfies `p`. -/
def findLastIdx? {α : Type} (p : α → Bool) : List α → Option Nat
  | [] => none
  | a :: l =>
    match findLastIdx? p l with
    | some i => some (i + 1)
    | none => if p a then some 0 else none

section Scans

variable {α : Type} {p : α → Bool}

@[simp] lemma findLastIdx?_nil : findLastIdx? p [] = none := rfl

lemma findLastIdx?_cons_of_some {a : α} {l : List α} {i : Nat} (h : findLastIdx? p l = some i) :
    findLastIdx? p (a :: l) = some (i + 1) := by
  simp [findLastIdx?, h]

lemma findLastIdx?_cons_of_none {a : α} {l : List α} (h : findLastIdx? p l = none) :
    findLastIdx? p (a :: l) = if p a then some 0 else none := by
  simp [findLastIdx?, h]

lemma findLastIdx?_eq_none_iff {l : List α} : findLastIdx? p l = none ↔ ∀ x ∈ l, p x = false := by
  induction l with
  | nil => simp
  | cons a l ih =>
    cases h : findLastIdx? p l with
    | some i =>
      rw [findLastIdx?_cons_of_some h]
      simp only [reduceCtorEq, false_iff, List.mem_cons, forall_eq_or_imp, not_and]
      intro _
      rw [← ih, h]
      simp
    | none =>
      rw [findLastIdx?_cons_of_none h]
      cases hp : p a
      · simpa [hp] using ih.1 h
      · simp [hp]

/-- The scan finds index `i` exactly when element `i` satisfies `p` and no later one does. -/
lemma findLastIdx?_eq_some_iff {l : List α} {i : Nat} :
    findLastIdx? p l = some i ↔ ∃ h : i < l.length, p l[i] = true ∧
      ∀ j, i < j → ∀ (hj : j < l.length), p l[j] = false := by
  induction l generalizing i with
  | nil => simp
  | cons a l ih =>
    cases h : findLastIdx? p l with
    | some k =>
      rw [findLastIdx?_cons_of_some h]
      obtain ⟨hk, hpk, hlater⟩ := ih.1 h
      constructor
      · rintro ⟨⟩
        refine ⟨by simp [hk], by simpa using hpk, fun j hij hj => ?_⟩
        obtain ⟨j, rfl⟩ : ∃ j', j = j' + 1 := ⟨j - 1, by omega⟩
        rw [List.getElem_cons_succ]
        exact hlater j (by omega) (by simpa using hj)
      · rintro ⟨hi, hpi, hafter⟩
        -- element `k + 1` satisfies `p` and no element after it does: `i` is `k + 1`
        rcases Nat.lt_trichotomy i (k + 1) with hlt | heq | hgt
        · have := hafter (k + 1) hlt (by simp [hk])
          rw [List.getElem_cons_succ] at this
          simp_all
        · rw [heq]
        · obtain ⟨i, rfl⟩ : ∃ i', i = i' + 1 := ⟨i - 1, by omega⟩
          rw [List.getElem_cons_succ] at hpi
          have := hlater i (by omega) (by simpa using hi)
          simp_all
    | none =>
      rw [findLastIdx?_cons_of_none h]
      have hnone := findLastIdx?_eq_none_iff.1 h
      constructor
      · intro hi
        split at hi
        · cases hi
          refine ⟨by simp, by simpa, fun j hij hj => ?_⟩
          obtain ⟨j, rfl⟩ : ∃ j', j = j' + 1 := ⟨j - 1, by omega⟩
          rw [List.getElem_cons_succ]
          exact hnone _ (List.getElem_mem _)
        · cases hi
      · rintro ⟨hi, hpi, -⟩
        cases i with
        | zero => simp_all
        | succ i =>
          rw [List.getElem_cons_succ] at hpi
          simp [hnone _ (List.getElem_mem _)] at hpi

end Scans

/-! ## Searching a prefix -/

section Prefix

variable {α : Type} {p : α → Bool} {l : List α}

/-- When `p` holds of an element only if it holds of every earlier one, it holds exactly
before the first element where it fails. -/
lemma getElem_iff_lt_findIdx (hp : l.Pairwise fun a b => p b = true → p a = true) {i : Nat}
    (hi : i < l.length) : p l[i] = true ↔ i < l.findIdx (fun a => !p a) := by
  constructor
  · intro h
    by_contra hge
    have hm : l.findIdx (fun a => !p a) < l.length := by omega
    have hfail : p l[l.findIdx (fun a => !p a)] = false := by
      simpa using List.findIdx_getElem (w := hm)
    rcases Nat.lt_or_eq_of_le (Nat.le_of_not_lt hge) with hlt | heq
    · have := List.pairwise_iff_getElem.1 hp _ i hm hi hlt h
      simp_all
    · simp_all
  · intro h
    simpa using List.not_of_lt_findIdx h

/-- The binary search stops where a scan first finds `p` false. -/
lemma partitionPoint_eq_findIdx {a : Array α}
    (hp : a.toList.Pairwise fun x y => p y = true → p x = true) :
    partitionPoint a p = a.toList.findIdx (fun x => !p x) := by
  refine partitionPoint_eq (by rw [← Array.length_toList]; exact List.findIdx_le_length)
    fun i hi => ?_
  have := getElem_iff_lt_findIdx hp (i := i) (by simpa using hi)
  simp only [Array.getElem_toList] at this
  rw [Bool.eq_iff_iff, this, decide_eq_true_iff]

/-- The last element that satisfies a predicate of a prefix is the one before the first that
does not. -/
lemma findLastIdx?_of_pairwise (hp : l.Pairwise fun a b => p b = true → p a = true) :
    findLastIdx? p l =
      if l.findIdx (fun a => !p a) = 0 then none else some (l.findIdx (fun a => !p a) - 1) := by
  have hle : l.findIdx (fun a => !p a) ≤ l.length := List.findIdx_le_length
  split
  · refine findLastIdx?_eq_none_iff.2 fun x hx => ?_
    obtain ⟨i, hi, rfl⟩ := List.getElem_of_mem hx
    have := getElem_iff_lt_findIdx hp hi
    simp_all
  · refine findLastIdx?_eq_some_iff.2 ⟨by omega, (getElem_iff_lt_findIdx hp _).2 (by omega),
      fun j hij hj => ?_⟩
    have := getElem_iff_lt_findIdx hp hj
    exact Bool.eq_false_iff.2 fun h => by have := this.1 h; omega

end Prefix

/-! ## Tokens in text order -/

namespace InTextOrder

variable {ts : List Token}

/-- A token starts and ends before every later token starts and ends. -/
lemma pairwise_lt (h : InTextOrder ts) :
    ts.Pairwise fun a b => a.span.start < b.span.start ∧ a.span.stop < b.span.stop := by
  refine (h.precedes.imp_of_mem fun {a b} ha hb hab => ?_)
  have := (h.nonempty a ha).1
  have := (h.nonempty b hb).1
  exact ⟨by have := hab.1; omega, by have := hab.1; omega⟩

/-- Ending at or before an offset holds of a prefix of the tokens. -/
lemma stop_le_prefix (h : InTextOrder ts) (k : Nat) :
    ts.Pairwise fun a b => decide (b.span.stop ≤ k) = true → decide (a.span.stop ≤ k) = true :=
  h.pairwise_lt.imp fun hab hb => by simp only [decide_eq_true_eq] at hb ⊢; omega

/-- Starting before an offset holds of a prefix of the tokens. -/
lemma start_lt_prefix (h : InTextOrder ts) (k : Nat) :
    ts.Pairwise fun a b => decide (b.span.start < k) = true → decide (a.span.start < k) = true :=
  h.pairwise_lt.imp fun hab hb => by simp only [decide_eq_true_eq] at hb ⊢; omega

end InTextOrder

/-! ## Each lookup is a scan -/

namespace TokenCursor

variable {c : TokenCursor} (hord : InTextOrder c.tokens.toList) (span : Span)
include hord

/-- The token before a span is the last token that ends at or before the span starts. -/
theorem before?_eq_scan :
    c.before? span = findLastIdx? (·.span.stop ≤ span.start) c.tokens.toList := by
  rw [findLastIdx?_of_pairwise (hord.stop_le_prefix span.start), before?,
    partitionPoint_eq_findIdx (hord.stop_le_prefix span.start)]

/-- The search for the first token that does not start before an offset stops where a scan
finds it. -/
lemma partitionPoint_start_lt (k : Nat) :
    partitionPoint c.tokens (·.span.start < k) = c.tokens.toList.findIdx (k ≤ ·.span.start) := by
  rw [partitionPoint_eq_findIdx (hord.start_lt_prefix k)]
  congr
  funext t
  rw [← decide_not]
  exact decide_eq_decide.2 Nat.not_lt

/-- The token after a span is the first token that starts at or after the span ends. -/
theorem after?_eq_scan :
    c.after? span = c.tokens.toList.findIdx? (span.stop ≤ ·.span.start) := by
  rw [after?, partitionPoint_start_lt hord, List.findIdx?_eq_guard_findIdx_lt]
  simp [Option.guard]

/-- The first token inside a span is the first token that starts at or after the span starts
and ends at or before the span ends. -/
theorem first?_eq_scan :
    c.first? span =
      c.tokens.toList.findIdx? (fun t => span.start ≤ t.span.start ∧ t.span.stop ≤ span.stop) := by
  have hp := hord.start_lt_prefix span.start
  rw [first?, partitionPoint_eq_findIdx hp, ← Array.getElem?_toList]
  set l := c.tokens.toList
  set m := l.findIdx fun t => !decide (t.span.start < span.start)
  -- the search stops at the first token that does not start before the span
  have hbefore : ∀ i (hi : i < l.length), l[i].span.start < span.start ↔ i < m := fun i hi => by
    have := getElem_iff_lt_findIdx hp hi
    rwa [decide_eq_true_eq] at this
  cases ht : l[m]? with
  | none =>
    -- every token starts before the span
    have hm : l.length ≤ m := List.getElem?_eq_none_iff.1 ht
    refine (List.findIdx?_eq_none_iff.2 fun x hx => ?_).symm
    obtain ⟨i, hi, rfl⟩ := List.getElem_of_mem hx
    have := (hbefore i hi).2 (by omega)
    simp only [decide_eq_false_iff_not, not_and, Nat.not_le]
    omega
  | some t =>
    obtain ⟨hm, rfl⟩ := List.getElem?_eq_some_iff.1 ht
    have hstart : span.start ≤ l[m].span.start := Nat.le_of_not_lt fun h => by
      have := (hbefore m hm).1 h
      omega
    dsimp only
    split_ifs with hstop
    · refine (List.findIdx?_eq_some_iff_getElem.2 ⟨hm, by simp [hstart, hstop], fun j hj => ?_⟩).symm
      have := (hbefore j (by omega)).2 hj
      simp only [decide_eq_true_eq, not_and, Nat.not_le]
      omega
    · -- token `m` ends after the span, and every later token starts after it ends
      refine (List.findIdx?_eq_none_iff.2 fun x hx => ?_).symm
      obtain ⟨i, hi, rfl⟩ := List.getElem_of_mem hx
      simp only [decide_eq_false_iff_not, not_and, Nat.not_le]
      intro hsi
      rcases Nat.lt_trichotomy i m with hlt | rfl | hgt
      · have := (hbefore i hi).2 hlt
        omega
      · omega
      · have h1 := (List.pairwise_iff_getElem.1 hord.precedes m i hm hi hgt).1
        have h2 := (hord.nonempty _ (List.getElem_mem hi)).1
        omega

/-- The last token inside a span is the last token that starts at or after the span starts
and ends at or before the span ends. -/
theorem last?_eq_scan :
    c.last? span =
      findLastIdx? (fun t => span.start ≤ t.span.start ∧ t.span.stop ≤ span.stop) c.tokens.toList := by
  have hp := hord.stop_le_prefix span.stop
  rw [last?, partitionPoint_eq_findIdx hp, ← Array.getElem?_toList]
  set l := c.tokens.toList
  set m := l.findIdx fun t => !decide (t.span.stop ≤ span.stop)
  -- the search stops after the last token that ends within the span
  have hbefore : ∀ i (hi : i < l.length), l[i].span.stop ≤ span.stop ↔ i < m := fun i hi => by
    have := getElem_iff_lt_findIdx hp hi
    rwa [decide_eq_true_eq] at this
  have hle : m ≤ l.length := List.findIdx_le_length
  split
  · -- no token ends within the span
    refine (findLastIdx?_eq_none_iff.2 fun x hx => ?_).symm
    obtain ⟨i, hi, rfl⟩ := List.getElem_of_mem hx
    have : ¬ l[i].span.stop ≤ span.stop := fun h => by
      have := (hbefore i hi).1 h
      omega
    simp only [decide_eq_false_iff_not, not_and]
    omega
  · have hm : m - 1 < l.length := by omega
    rw [List.getElem?_eq_getElem hm]
    have hstop := (hbefore (m - 1) hm).2 (by omega)
    dsimp only
    split_ifs with hstart
    · refine (findLastIdx?_eq_some_iff.2 ⟨hm, by simp [hstart, hstop], fun j hj hjl => ?_⟩).symm
      have : ¬ l[j].span.stop ≤ span.stop := fun h => by
        have := (hbefore j hjl).1 h
        omega
      simp only [decide_eq_false_iff_not, not_and]
      omega
    · -- token `m - 1` starts before the span, and every earlier token ends before it starts
      refine (findLastIdx?_eq_none_iff.2 fun x hx => ?_).symm
      obtain ⟨i, hi, rfl⟩ := List.getElem_of_mem hx
      simp only [decide_eq_false_iff_not, not_and]
      intro hsi
      rcases Nat.lt_trichotomy i (m - 1) with hlt | rfl | hgt
      · have h1 := (List.pairwise_iff_getElem.1 hord.precedes i (m - 1) hi hm hlt).1
        have h2 := (hord.nonempty _ (List.getElem_mem hi)).1
        omega
      · omega
      · have : ¬ l[i].span.stop ≤ span.stop := fun h => by
          have := (hbefore i hi).1 h
          omega
        exact this

/-- The token the cursor finds before a span ends at or before the span starts. -/
lemma stop_le_of_before? {i : Nat} {t : Token} (hi : c.before? span = some i)
    (ht : c.tokens[i]? = some t) : t.span.stop ≤ span.start := by
  rw [before?_eq_scan hord] at hi
  obtain ⟨hil, hpi, -⟩ := findLastIdx?_eq_some_iff.1 hi
  obtain ⟨_, rfl⟩ := Array.getElem?_eq_some_iff.1 ht
  simpa using hpi

/-- The token the cursor finds after a span starts at or after the span ends. -/
lemma le_start_of_after? {j : Nat} {t : Token} (hj : c.after? span = some j)
    (ht : c.tokens[j]? = some t) : span.stop ≤ t.span.start := by
  rw [after?_eq_scan hord] at hj
  obtain ⟨hjl, hpj, -⟩ := List.findIdx?_eq_some_iff_getElem.1 hj
  obtain ⟨_, rfl⟩ := Array.getElem?_eq_some_iff.1 ht
  simpa using hpj

/-- A span is parenthesized when the token before it is an opening and the token after it a
closing parenthesis: what the cursor checks besides is true of those tokens anyway. -/
theorem isParenthesized_iff :
    c.isParenthesized span = true ↔
      (∃ i t, c.before? span = some i ∧ c.tokens[i]? = some t ∧ t.isPunct "(" = true) ∧
      (∃ j t, c.after? span = some j ∧ c.tokens[j]? = some t ∧ t.isPunct ")" = true) := by
  simp only [isParenthesized, Bool.and_eq_true]
  apply and_congr
  · cases hi : c.before? span with
    | none => simp
    | some i =>
      cases ht : c.tokens[i]? with
      | none => simp [ht]
      | some t => simp [ht, stop_le_of_before? hord span hi ht]
  · cases hj : c.after? span with
    | none => simp
    | some j =>
      cases ht : c.tokens[j]? with
      | none => simp [ht]
      | some t => simp [ht, le_start_of_after? hord span hj ht]

/-- Every lookup of the cursor at `span` returns what a scan of its tokens returns. -/
structure MatchesScans (c : TokenCursor) (span : Span) : Prop where
  before : c.before? span = findLastIdx? (·.span.stop ≤ span.start) c.tokens.toList
  after : c.after? span = c.tokens.toList.findIdx? (span.stop ≤ ·.span.start)
  first : c.first? span =
    c.tokens.toList.findIdx? (fun t => span.start ≤ t.span.start ∧ t.span.stop ≤ span.stop)
  last : c.last? span =
    findLastIdx? (fun t => span.start ≤ t.span.start ∧ t.span.stop ≤ span.stop) c.tokens.toList
  parenthesized : c.isParenthesized span = true ↔
    (∃ i t, c.before? span = some i ∧ c.tokens[i]? = some t ∧ t.isPunct "(" = true) ∧
    (∃ j t, c.after? span = some j ∧ c.tokens[j]? = some t ∧ t.isPunct ")" = true)

lemma matchesScans : c.MatchesScans span :=
  ⟨before?_eq_scan hord span, after?_eq_scan hord span, first?_eq_scan hord span,
    last?_eq_scan hord span, isParenthesized_iff hord span⟩

end TokenCursor

/-- Over the tokens of a source, every lookup of the cursor, at every span, returns what a scan
of the tokens returns. -/
theorem tokenize_lookups_match_scans {s : String} {ts : Array Token} (h : tokenize s = .ok ts)
    (span : Span) : (TokenCursor.ofSource s ts).MatchesScans span :=
  TokenCursor.matchesScans (tokenize_inTextOrder h) span

lemma tokenize_parenthesized_sum :
    tokenize "(a) + b" = .ok #[⟨.punctuator, "(", ⟨0, 1⟩, ⟨⟨1, 1⟩, ⟨1, 2⟩⟩⟩,
      ⟨.identifier, "a", ⟨1, 2⟩, ⟨⟨1, 2⟩, ⟨1, 3⟩⟩⟩, ⟨.punctuator, ")", ⟨2, 3⟩, ⟨⟨1, 3⟩, ⟨1, 4⟩⟩⟩,
      ⟨.punctuator, "+", ⟨4, 5⟩, ⟨⟨1, 5⟩, ⟨1, 6⟩⟩⟩, ⟨.identifier, "b", ⟨6, 7⟩, ⟨⟨1, 7⟩, ⟨1, 8⟩⟩⟩] := by
  simp +decide [tokenize, lexFrom, Lexeme.scan, Lexical.isWordStart, Lexical.isWordPart,
    Lexical.wordKind, Position.advance, Position.step, Lexical.punctuatorLength,
    Lexical.punctuators, Char.utf8Size]

/-- The lookups at the name inside the parentheses of `(a) + b`. -/
theorem lookups_match_scans_parenthesized :
    tokenize "(a) + b" = .ok #[⟨.punctuator, "(", ⟨0, 1⟩, ⟨⟨1, 1⟩, ⟨1, 2⟩⟩⟩,
      ⟨.identifier, "a", ⟨1, 2⟩, ⟨⟨1, 2⟩, ⟨1, 3⟩⟩⟩, ⟨.punctuator, ")", ⟨2, 3⟩, ⟨⟨1, 3⟩, ⟨1, 4⟩⟩⟩,
      ⟨.punctuator, "+", ⟨4, 5⟩, ⟨⟨1, 5⟩, ⟨1, 6⟩⟩⟩, ⟨.identifier, "b", ⟨6, 7⟩, ⟨⟨1, 7⟩, ⟨1, 8⟩⟩⟩] ∧
    (TokenCursor.ofSource "(a) + b" #[⟨.punctuator, "(", ⟨0, 1⟩, ⟨⟨1, 1⟩, ⟨1, 2⟩⟩⟩,
      ⟨.identifier, "a", ⟨1, 2⟩, ⟨⟨1, 2⟩, ⟨1, 3⟩⟩⟩, ⟨.punctuator, ")", ⟨2, 3⟩, ⟨⟨1, 3⟩, ⟨1, 4⟩⟩⟩,
      ⟨.punctuator, "+", ⟨4, 5⟩, ⟨⟨1, 5⟩, ⟨1, 6⟩⟩⟩,
      ⟨.identifier, "b", ⟨6, 7⟩, ⟨⟨1, 7⟩, ⟨1, 8⟩⟩⟩]).MatchesScans ⟨1, 2⟩ :=
  ⟨tokenize_parenthesized_sum, tokenize_lookups_match_scans tokenize_parenthesized_sum ⟨1, 2⟩⟩

end DotLint
