import Mathlib.Order.Bounds.Defs
import DotLint.Proofs.CursorScans
import DotLint.Proofs.FixedText

/-!
# The first token of a line

The cursor finds the first token of the line a span begins on by walking back over the
tokens while the text between two of them holds no line separator: a line feed, a carriage
return, or one of the Unicode line and paragraph separators. The lexer counts lines its own
way: a carriage return before a line feed makes one break with it, a lone carriage return is
a break too, and the Unicode separators are none, since the lexer reads them as word
characters.

The two agree wherever the text between two tokens holds neither Unicode separator. That
text is blanks and comments, so they agree when no comment holds one. The text between
token `i` and token `i + 1` is the gap of cell `i + 1` of the source
(`slice_between_cellTokens`), and the lexer starts the later token on a later line exactly
when that gap holds a line break (`lineBreakBefore_cellTokens`); so the cursor sees a break
between two tokens exactly when the lexer's lines differ (`breakAfter_eq_line_lt`). Walking
back then stops at the least token from which the tokens up to the starting one lie on one
line (`lineStart_isLeast`).
-/

namespace DotLint

open Parse Lexical

/-- The tokens from `j` up to `i` lie on one line by the lexer's lines: each after the first
starts on the line where the one before it ends. -/
def OnOneLine (ts : Array Token) (j i : Nat) : Prop :=
  ∀ k, j < k → k ≤ i → ∀ a b, ts[k - 1]? = some a → ts[k]? = some b →
    a.loc.stop.line = b.loc.start.line

/-! ## The text between two tokens -/

/-- Where the text of a span can be cut out of the source, the cursor's text of it is that
text, and a search of it for a character is a search of the characters. -/
lemma TokenCursor.text_any_of_slice {c : TokenCursor} {span : Span} {g : List Char}
    (h : Text.slice c.source span.start span.stop = some g) (p : Char → Bool) :
    (c.text span).any p = g.any p := by
  rw [TokenCursor.text, h, String.any, String.contains_bool_eq, String.toList_ofList]

variable {ts : Array Token}

/-- Over the tokens of read cells, the text between token `i` and token `i + 1` is the gap
of cell `i + 1`. -/
lemma slice_between_cellTokens {pre last : List Char} {cs : List Cell} {P : Position}
    (hts : ts.toList = cellTokens last cs (byteSize pre) P) {i : Nat} {a b : Token} {c : Cell}
    (ha : ts[i]? = some a) (hb : ts[i + 1]? = some b) (hc : cs[i + 1]? = some c) :
    Text.slice (pre ++ cellsText cs ++ last) a.span.stop b.span.start = some c.gap := by
  have hget : ∀ j, ts[j]? = (cellTokens last cs (byteSize pre) P)[j]? := fun j => by
    rw [← Array.getElem?_toList, hts]
  obtain ⟨d, hd⟩ : ∃ d, cs[i]? = some d :=
    ⟨_, List.getElem?_eq_getElem (by have := (List.getElem?_eq_some_iff.1 hc).1; omega)⟩
  rw [hget, cellTokens_getElem?, hd, Option.map_some, Option.some.injEq] at ha
  rw [hget, cellTokens_getElem?, hc, Option.map_some, Option.some.injEq] at hb
  subst ha hb
  -- the text up to cell `i + 1`, its gap, and the rest
  have htake : cellsText (cs.take (i + 1)) = cellsText (cs.take i) ++ d.gap ++ d.word := by
    rw [List.take_add_one, hd]
    simp
  have hdrop : cellsText (cs.drop (i + 1)) = c.gap ++ (c.word ++ cellsText (cs.drop (i + 2))) := by
    rw [List.drop_eq_getElem_cons (List.getElem?_eq_some_iff.1 hc).1]
    simp [(List.getElem?_eq_some_iff.1 hc).2]
  have htext : pre ++ cellsText cs ++ last = (pre ++ cellsText (cs.take (i + 1))) ++ c.gap ++
      (c.word ++ cellsText (cs.drop (i + 2)) ++ last) := by
    rw [← List.take_append_drop (i + 1) cs, cellsText_append, List.take_append_drop, hdrop]
    simp
  have := Text.slice_append (pre ++ cellsText (cs.take (i + 1))) c.gap
    (c.word ++ cellsText (cs.drop (i + 2)) ++ last)
  rw [← htext, byteSize_append, htake] at this
  rw [htake]
  simpa [Nat.add_assoc] using this

/-- A line separator that is neither Unicode separator is a line break. -/
lemma isLineSeparator_eq_isLineBreak {x : Char} (h2028 : x ≠ '\u2028') (h2029 : x ≠ '\u2029') :
    Text.isLineSeparator x = isLineBreak x := by
  simp [Text.isLineSeparator, isLineBreak, h2028, h2029]

/-- Between two tokens of a source whose text between them holds neither Unicode separator,
the cursor sees a line break exactly when the lexer starts the later token on a later line. -/
lemma breakAfter_eq_line_lt {s : String} (h : tokenize s = .ok ts) {i : Nat} {a b : Token}
    (ha : ts[i]? = some a) (hb : ts[i + 1]? = some b) {g : List Char}
    (hg : Text.slice s.toList a.span.stop b.span.start = some g)
    (hsep : '\u2028' ∉ g ∧ '\u2029' ∉ g) :
    (TokenCursor.ofSource s ts).breakAfter i = decide (a.loc.stop.line < b.loc.start.line) := by
  obtain ⟨pre, cs, last, hs, -, hr, -, hts⟩ := tokenize_cells h
  obtain ⟨c, hc⟩ : ∃ c, cs[i + 1]? = some c := ⟨_, List.getElem?_eq_getElem (by
    have := (Array.getElem?_eq_some_iff.1 hb).1
    rw [length_eq_size hts]
    exact this)⟩
  -- the text between the tokens is the gap of cell `i + 1`
  have hgap : g = c.gap := by
    rw [hs, slice_between_cellTokens hts ha hb hc] at hg
    exact (Option.some.inj hg).symm
  subst hgap
  have hbreak := lineBreakBefore_cellTokens hr hts (i + 1)
  simp only [lineBreakBefore, Nat.add_one_ne_zero, if_false, Nat.add_sub_cancel, ha, hb, hc,
    Option.any_some, Cell.breaksLine] at hbreak
  rw [bne_iff_ne.2 (Nat.add_one_ne_zero i), Bool.true_and] at hbreak
  rw [hbreak, TokenCursor.breakAfter]
  dsimp only [TokenCursor.ofSource]
  rw [ha, hb]
  dsimp only
  rw [TokenCursor.text_any_of_slice hg]
  -- neither Unicode separator is in the gap
  rw [Bool.eq_iff_iff, List.any_eq_true, List.any_eq_true]
  exact exists_congr fun x => and_congr_right fun hx => by
    rw [isLineSeparator_eq_isLineBreak (fun h => hsep.1 (h ▸ hx)) (fun h => hsep.2 (h ▸ hx))]

/-! ## Walking back to the start of a line -/

namespace TokenCursor

variable {c : TokenCursor} (hord : InTextOrder c.tokens.toList)
include hord

/-- The cursor's first token of a line is found from the first token that does not start
before the span. -/
lemma firstOnLine?_eq (span : Span) :
    c.firstOnLine? span =
      (c.tokens.toList.findIdx? (span.start ≤ ·.span.start)).map c.lineStart := by
  rw [firstOnLine?, partitionPoint_start_lt hord, List.findIdx?_eq_guard_findIdx_lt]
  simp only [Array.length_toList]
  split <;> simp [Option.guard, *]

variable (hagree : ∀ i a b, c.tokens[i]? = some a → c.tokens[i + 1]? = some b →
    c.breakAfter i = decide (a.loc.stop.line < b.loc.start.line))
include hagree

/-- Walking back from token `i` stops at the least token from which the tokens up to `i` lie
on one line. -/
lemma lineStart_isLeast {i : Nat} (hi : i < c.tokens.size) :
    IsLeast {j | j ≤ i ∧ OnOneLine c.tokens j i} (c.lineStart i) := by
  induction i with
  | zero =>
    refine ⟨⟨Nat.le_refl 0, fun k hk hk' => absurd hk' (by omega)⟩, fun j _ => ?_⟩
    exact Nat.zero_le j
  | succ i ih =>
    obtain ⟨a, ha⟩ : ∃ a, c.tokens[i]? = some a := ⟨_, Array.getElem?_eq_getElem (by omega)⟩
    obtain ⟨b, hb⟩ : ∃ b, c.tokens[i + 1]? = some b := ⟨_, Array.getElem?_eq_getElem hi⟩
    have hle := Position.line_le_of_le (hord.precedes_of_lt (Nat.lt_succ_self i) ha hb).2
    rw [lineStart, hagree i a b ha hb]
    by_cases hbreak : a.loc.stop.line < b.loc.start.line
    · -- a line break right before token `i + 1`: no token before it is on its line
      rw [decide_eq_true hbreak, if_pos rfl]
      refine ⟨⟨Nat.le_refl _, fun k hk hk' => absurd hk' (by omega)⟩, fun j ⟨_, hj⟩ => ?_⟩
      by_contra hlt
      have := hj (i + 1) (by omega) (Nat.le_refl _) a b ha hb
      omega
    · -- no line break: the line of token `i + 1` starts where that of token `i` does
      rw [decide_eq_false hbreak, if_neg Bool.false_ne_true]
      have hsame : a.loc.stop.line = b.loc.start.line := by omega
      obtain ⟨⟨hle_i, hline⟩, hleast⟩ := ih (by omega)
      refine ⟨⟨by omega, fun k hk hk' => ?_⟩, fun j ⟨hj, hjline⟩ => ?_⟩
      · rcases Nat.lt_or_eq_of_le hk' with hk' | rfl
        · exact hline k hk (by omega)
        · intro a' b' ha' hb'
          simp only [Nat.add_sub_cancel, ha, hb, Option.some.injEq] at ha' hb'
          subst ha' hb'
          exact hsame
      · rcases Nat.lt_or_eq_of_le hj with hj | rfl
        · exact hleast ⟨by omega, fun k hk hk' => hjline k hk (by omega)⟩
        · omega

/-- A span starts a line exactly when the first token that does not start before it starts
where it does and is the first token or starts on a later line than the token before it
ends. -/
lemma startsLine_iff (span : Span) :
    c.startsLine span = true ↔
      ∃ i0 t, c.tokens.toList.findIdx? (span.start ≤ ·.span.start) = some i0 ∧
        c.tokens[i0]? = some t ∧ t.span.start = span.start ∧
        (i0 = 0 ∨ ∃ p, c.tokens[i0 - 1]? = some p ∧ p.loc.stop.line < t.loc.start.line) := by
  rw [startsLine, firstOnLine?_eq hord]
  cases hi0 : c.tokens.toList.findIdx? (span.start ≤ ·.span.start) with
  | none => simp
  | some i0 =>
    obtain ⟨hi0l, -, hbefore⟩ := List.findIdx?_eq_some_iff_getElem.1 hi0
    rw [Array.length_toList] at hi0l
    obtain ⟨⟨hle, hline⟩, hleast⟩ := lineStart_isLeast hord hagree hi0l
    -- a token before `i0` starts before the span
    have hearly : ∀ j t, j < i0 → c.tokens[j]? = some t → t.span.start < span.start := by
      intro j t hj ht
      obtain ⟨_, rfl⟩ := Array.getElem?_eq_some_iff.1 ht
      simpa using hbefore j hj
    simp only [Option.map_some, Option.some.injEq]
    constructor
    · intro hany
      obtain ⟨t, ht, heq⟩ : ∃ t, c.tokens[c.lineStart i0]? = some t ∧ t.span.start = span.start := by
        cases ht : c.tokens[c.lineStart i0]? with
        | none => simp [ht] at hany
        | some t => simp only [ht, Option.any_some, beq_iff_eq] at hany; exact ⟨t, rfl, hany⟩
      -- the token the walk stops at starts where the span does, so it is token `i0`
      have hji : c.lineStart i0 = i0 := by
        by_contra hne
        have := hearly _ t (by omega) ht
        omega
      rw [hji] at ht
      refine ⟨i0, t, rfl, ht, heq, ?_⟩
      rcases Nat.eq_zero_or_pos i0 with h0 | hpos
      · exact .inl h0
      · -- otherwise token `i0 - 1` would be on its line and the walk would go on to it
        obtain ⟨p, hp⟩ : ∃ p, c.tokens[i0 - 1]? = some p := ⟨_, Array.getElem?_eq_getElem (by omega)⟩
        refine .inr ⟨p, hp, ?_⟩
        have hmono := Position.line_le_of_le (hord.precedes_of_lt (by omega : i0 - 1 < i0) hp ht).2
        by_contra hsame
        have hmem : i0 - 1 ∈ {j | j ≤ i0 ∧ OnOneLine c.tokens j i0} :=
          ⟨by omega, fun k hk hk' a b ha hb => by
            obtain rfl : k = i0 := by omega
            rw [hp, Option.some.injEq] at ha
            rw [ht, Option.some.injEq] at hb
            subst ha hb
            omega⟩
        have := hleast hmem
        omega
    · rintro ⟨_, t, rfl, ht, heq, hbreak⟩
      -- no token from `i0 - 1` on is on the line of token `i0`, so the walk stops at once
      have hji : c.lineStart i0 = i0 := by
        by_contra hne
        rcases hbreak with h0 | ⟨p, hp, hlt⟩
        · omega
        · have := hline i0 (by omega) (Nat.le_refl _) p t hp ht
          omega
      rw [hji, ht]
      simp [heq]

/-- What the cursor says of the line a span begins on, against the lexer's lines. `i0` is
the first token that does not start before the span: the cursor finds none if there is no
such token, and otherwise the least token from which the tokens up to `i0` lie on one line;
and the span starts a line when it starts at token `i0` and a line break comes before that
token or nothing does. -/
structure LineStartAgrees (c : TokenCursor) (span : Span) : Prop where
  none_of_none : c.tokens.toList.findIdx? (span.start ≤ ·.span.start) = none →
    c.firstOnLine? span = none
  least : ∀ i0, c.tokens.toList.findIdx? (span.start ≤ ·.span.start) = some i0 →
    ∃ j, c.firstOnLine? span = some j ∧ IsLeast {j | j ≤ i0 ∧ OnOneLine c.tokens j i0} j
  startsLine : c.startsLine span = true ↔
    ∃ i0 t, c.tokens.toList.findIdx? (span.start ≤ ·.span.start) = some i0 ∧
      c.tokens[i0]? = some t ∧ t.span.start = span.start ∧
      (i0 = 0 ∨ ∃ p, c.tokens[i0 - 1]? = some p ∧ p.loc.stop.line < t.loc.start.line)

lemma lineStartAgrees (span : Span) : c.LineStartAgrees span := by
  refine ⟨fun h => by rw [firstOnLine?_eq hord, h, Option.map_none], fun i0 hi0 => ?_,
    startsLine_iff hord hagree span⟩
  have hi0l := (List.findIdx?_eq_some_iff_getElem.1 hi0).1
  rw [Array.length_toList] at hi0l
  exact ⟨c.lineStart i0, by rw [firstOnLine?_eq hord, hi0, Option.map_some],
    lineStart_isLeast hord hagree hi0l⟩

end TokenCursor

/-- Over the tokens of a source whose text between two tokens never holds a Unicode line or
paragraph separator, the cursor's first token of a line agrees with the lexer's lines, for
every span. -/
theorem tokenize_lineStart_agrees {s : String} {ts : Array Token} (h : tokenize s = .ok ts)
    (hsep : ∀ i a b g, ts[i]? = some a → ts[i + 1]? = some b →
      Text.slice s.toList a.span.stop b.span.start = some g → '\u2028' ∉ g ∧ '\u2029' ∉ g)
    (span : Span) : (TokenCursor.ofSource s ts).LineStartAgrees span := by
  refine TokenCursor.lineStartAgrees (tokenize_inTextOrder h) (fun i a b ha hb => ?_) span
  -- the text between two tokens can always be cut out of the source
  obtain ⟨pre, cs, last, hs, -, -, -, hts⟩ := tokenize_cells h
  obtain ⟨c, hc⟩ : ∃ c, cs[i + 1]? = some c := ⟨_, List.getElem?_eq_getElem (by
    rw [length_eq_size hts]
    exact (Array.getElem?_eq_some_iff.1 hb).1)⟩
  have hg : Text.slice s.toList a.span.stop b.span.start = some c.gap := by
    rw [hs]
    exact slice_between_cellTokens hts ha hb hc
  exact breakAfter_eq_line_lt h ha hb hg (hsep i a b c.gap ha hb hg)

/-- A source that holds no Unicode line or paragraph separator holds none between two of its
tokens. -/
lemma separators_between_of_source {s : String} (h : '\u2028' ∉ s.toList ∧ '\u2029' ∉ s.toList)
    (i : Nat) (a b : Token) (g : List Char) (_ : ts[i]? = some a) (_ : ts[i + 1]? = some b)
    (hg : Text.slice s.toList a.span.stop b.span.start = some g) :
    '\u2028' ∉ g ∧ '\u2029' ∉ g := by
  obtain ⟨pre, post, hs, -, -⟩ := Text.eq_of_slice hg
  rw [hs] at h
  simp only [List.mem_append, not_or] at h
  exact ⟨h.1.1.2, h.2.1.2⟩

lemma tokenize_comment_on_line :
    tokenize "x;\n  a /* c */ + b" = .ok #[⟨.identifier, "x", ⟨0, 1⟩, ⟨⟨1, 1⟩, ⟨1, 2⟩⟩⟩,
      ⟨.punctuator, ";", ⟨1, 2⟩, ⟨⟨1, 2⟩, ⟨1, 3⟩⟩⟩, ⟨.identifier, "a", ⟨5, 6⟩, ⟨⟨2, 3⟩, ⟨2, 4⟩⟩⟩,
      ⟨.punctuator, "+", ⟨15, 16⟩, ⟨⟨2, 13⟩, ⟨2, 14⟩⟩⟩,
      ⟨.identifier, "b", ⟨17, 18⟩, ⟨⟨2, 15⟩, ⟨2, 16⟩⟩⟩] := by
  simp +decide [tokenize, lexFrom, Lexeme.scan, Lexical.isWordStart, Lexical.isWordPart,
    Lexical.wordKind, Position.advance, Position.step, Lexical.commentClose,
    Lexical.punctuatorLength, Lexical.punctuators, Char.utf8Size]

/-- A block comment between two tokens is no line break: the line of `b` in
`x;\n  a /* c */ + b` starts at `a`. -/
theorem lineStart_agrees_across_comment :
    tokenize "x;\n  a /* c */ + b" = .ok #[⟨.identifier, "x", ⟨0, 1⟩, ⟨⟨1, 1⟩, ⟨1, 2⟩⟩⟩,
      ⟨.punctuator, ";", ⟨1, 2⟩, ⟨⟨1, 2⟩, ⟨1, 3⟩⟩⟩, ⟨.identifier, "a", ⟨5, 6⟩, ⟨⟨2, 3⟩, ⟨2, 4⟩⟩⟩,
      ⟨.punctuator, "+", ⟨15, 16⟩, ⟨⟨2, 13⟩, ⟨2, 14⟩⟩⟩,
      ⟨.identifier, "b", ⟨17, 18⟩, ⟨⟨2, 15⟩, ⟨2, 16⟩⟩⟩] ∧
    (∀ i a b g, (#[⟨.identifier, "x", ⟨0, 1⟩, ⟨⟨1, 1⟩, ⟨1, 2⟩⟩⟩,
      ⟨.punctuator, ";", ⟨1, 2⟩, ⟨⟨1, 2⟩, ⟨1, 3⟩⟩⟩, ⟨.identifier, "a", ⟨5, 6⟩, ⟨⟨2, 3⟩, ⟨2, 4⟩⟩⟩,
      ⟨.punctuator, "+", ⟨15, 16⟩, ⟨⟨2, 13⟩, ⟨2, 14⟩⟩⟩,
      ⟨.identifier, "b", ⟨17, 18⟩, ⟨⟨2, 15⟩, ⟨2, 16⟩⟩⟩] : Array Token)[i]? = some a →
      (#[⟨.identifier, "x", ⟨0, 1⟩, ⟨⟨1, 1⟩, ⟨1, 2⟩⟩⟩,
      ⟨.punctuator, ";", ⟨1, 2⟩, ⟨⟨1, 2⟩, ⟨1, 3⟩⟩⟩, ⟨.identifier, "a", ⟨5, 6⟩, ⟨⟨2, 3⟩, ⟨2, 4⟩⟩⟩,
      ⟨.punctuator, "+", ⟨15, 16⟩, ⟨⟨2, 13⟩, ⟨2, 14⟩⟩⟩,
      ⟨.identifier, "b", ⟨17, 18⟩, ⟨⟨2, 15⟩, ⟨2, 16⟩⟩⟩] : Array Token)[i + 1]? = some b →
      Text.slice "x;\n  a /* c */ + b".toList a.span.stop b.span.start = some g →
      '\u2028' ∉ g ∧ '\u2029' ∉ g) ∧
    (TokenCursor.ofSource "x;\n  a /* c */ + b" #[⟨.identifier, "x", ⟨0, 1⟩, ⟨⟨1, 1⟩, ⟨1, 2⟩⟩⟩,
      ⟨.punctuator, ";", ⟨1, 2⟩, ⟨⟨1, 2⟩, ⟨1, 3⟩⟩⟩, ⟨.identifier, "a", ⟨5, 6⟩, ⟨⟨2, 3⟩, ⟨2, 4⟩⟩⟩,
      ⟨.punctuator, "+", ⟨15, 16⟩, ⟨⟨2, 13⟩, ⟨2, 14⟩⟩⟩,
      ⟨.identifier, "b", ⟨17, 18⟩, ⟨⟨2, 15⟩, ⟨2, 16⟩⟩⟩]).LineStartAgrees ⟨17, 18⟩ := by
  refine ⟨tokenize_comment_on_line, separators_between_of_source (by decide), ?_⟩
  exact tokenize_lineStart_agrees tokenize_comment_on_line
    (separators_between_of_source (by decide)) ⟨17, 18⟩

end DotLint
