import Mathlib.Tactic.Lemma
import Mathlib.Tactic.SplitIfs
import DotLint.Token.Lexer
import DotLint.Source.Text

/-!
# Tokens and incidental text tile the source

`tokenize` reads the text after an optional byte-order mark as tokens with incidental text
(blanks, line comments and block comments) between them. This module states that reading
as a relation, `Tiling`, proves that every successful run of the lexer produces one, and
reads off what it says about offsets and positions:

* every token is non-empty, and each ends at or before the next one starts;
* every token's span starts and ends on character boundaries of the source, and its text
  is the source text between them;
* the text before the first token, between two tokens, and after the last one is
  incidental text, as `Incidental` describes it without reference to the lexer;
* positions never go back: each token starts no earlier than the one before it ends.
-/

namespace DotLint

open Lexical

/-! ## Incidental text -/

/-- One piece of incidental text, followed by the character `next` (`none` at the end of
the source): a blank, a line comment that a line break or the end follows, or a block
comment that closes at the first star and slash after its opening. -/
inductive Piece : List Char → Option Char → Prop
  | blank {c : Char} {next : Option Char} : isBlank c = true → Piece [c] next
  | lineComment {body : List Char} {next : Option Char} :
      (∀ c ∈ body, isLineBreak c = false) → (∀ c, next = some c → isLineBreak c = true) →
      Piece ('/' :: '/' :: body) next
  | blockComment {body : List Char} {next : Option Char} :
      ¬ ['*', '/'] <:+: body → Piece ('/' :: '*' :: body ++ ['*', '/']) next

/-- Incidental text followed by the character `next`: pieces one after another, each
followed by the rest of the text. -/
inductive Incidental : List Char → Option Char → Prop
  | nil (next : Option Char) : Incidental [] next
  | cons {p rest : List Char} {next : Option Char} :
      Piece p (rest.head?.or next) → Incidental rest next → Incidental (p ++ rest) next

/-- The stretches of a text of `n` bytes around its tokens `ts`, from offset `start` on: the
one before each token, up to where the token starts, and the one after the last token, up
to `n`; each with the character that follows it. -/
def gaps (start n : Nat) : List Token → List (Span × Option Char)
  | [] => [(⟨start, n⟩, none)]
  | t :: ts => (⟨start, t.span.start⟩, t.text.toList.head?) :: gaps t.span.stop n ts

/-- Whether byte offset `k` of `cs` is a character boundary: where a character starts, or
the end. -/
def Text.IsBoundary (cs : List Char) (k : Nat) : Prop := (Text.splitAtByte cs k).isSome

/-! ## Positions never go back -/

namespace Position

/-- The order of `Position.le` as a proposition. -/
lemma le_iff (a b : Position) :
    a.le b = true ↔ a.line < b.line ∨ (a.line = b.line ∧ a.column ≤ b.column) := by
  simp [Position.le]

lemma le_refl (a : Position) : a.le a = true := by
  simp [le_iff]

lemma le_trans {a b c : Position} (hab : a.le b = true) (hbc : b.le c = true) :
    a.le c = true := by
  rw [le_iff] at *
  omega

lemma le_antisymm {a b : Position} (hab : a.le b = true) (hba : b.le a = true) : a = b := by
  obtain ⟨la, ca⟩ := a
  obtain ⟨lb, cb⟩ := b
  simp only [le_iff] at hab hba
  simp only [Position.mk.injEq]
  omega

/-- One step never goes back. -/
lemma le_step (p : Position) (c : Char) (next : Option Char) : p.le (p.step c next) = true := by
  unfold step
  split_ifs <;> simp [le_iff]

/-- Steps over `a` characters and then `b` more are steps over `a + b` characters. -/
lemma advance_add (p : Position) (a b : Nat) (cs : List Char) :
    p.advance (a + b) cs = (p.advance a cs).advance b (cs.drop a) := by
  induction a generalizing p cs with
  | zero => simp
  | succ a ih =>
    cases cs with
    | nil => cases b <;> simp [advance]
    | cons c rest =>
      rw [show a + 1 + b = (a + b) + 1 by omega]
      simp [ih]

lemma le_advance (p : Position) (n : Nat) (cs : List Char) : p.le (p.advance n cs) = true := by
  induction n generalizing p cs with
  | zero => exact le_refl p
  | succ n ih =>
    cases cs with
    | nil => exact le_refl p
    | cons c rest => exact le_trans (le_step p c rest.head?) (ih _ rest)

/-- Stepping over more characters of the same text never ends earlier. -/
lemma advance_le_advance (p : Position) {a b : Nat} (hab : a ≤ b) (cs : List Char) :
    (p.advance a cs).le (p.advance b cs) = true := by
  obtain ⟨k, rfl⟩ := Nat.exists_eq_add_of_le hab
  rw [advance_add]
  exact le_advance _ _ _

/-- Stepping over more characters than the text has stops at its end. -/
lemma advance_length_take (p : Position) (n : Nat) (cs : List Char) :
    p.advance (cs.take n).length cs = p.advance n cs := by
  induction n generalizing p cs with
  | zero => simp
  | succ n ih =>
    cases cs with
    | nil => simp [advance]
    | cons c rest => simpa using ih (p.step c rest.head?) rest

end Position

/-! ## Cutting at byte offsets -/

namespace Text

/-- Cutting `pre ++ post` at the byte size of `pre` gives the two parts back. -/
lemma splitAtByte_append (pre post : List Char) :
    splitAtByte (pre ++ post) (byteSize pre) = some (pre, post) := by
  induction pre with
  | nil => simp [splitAtByte]
  | cons c pre ih =>
    have hc := Char.utf8Size_pos c
    obtain ⟨k, hk⟩ : ∃ k, c.utf8Size + byteSize pre = k + 1 := ⟨_, (Nat.succ_pred_eq_of_pos
      (Nat.add_pos_left hc _)).symm⟩
    rw [List.cons_append, byteSize_cons, hk, splitAtByte, if_pos (by omega),
      show k + 1 - c.utf8Size = byteSize pre by omega, ih]
    rfl

/-- The text between the byte sizes of `pre` and `pre ++ mid` is `mid`. -/
lemma slice_append (pre mid post : List Char) :
    slice (pre ++ mid ++ post) (byteSize pre) (byteSize pre + byteSize mid) = some mid := by
  simp [slice, List.append_assoc, splitAtByte_append]

/-- The byte size of a prefix is a character boundary. -/
lemma isBoundary_append (pre post : List Char) : IsBoundary (pre ++ post) (byteSize pre) := by
  simp [IsBoundary, splitAtByte_append]

/-- A cut at byte offset `k` splits the text after a prefix of `k` bytes. -/
lemma splitAtByte_eq_some_iff {cs a b : List Char} {k : Nat} :
    splitAtByte cs k = some (a, b) ↔ cs = a ++ b ∧ byteSize a = k := by
  constructor
  · intro h
    induction cs generalizing k a with
    | nil =>
      cases k with
      | zero => simp_all [splitAtByte]
      | succ k => simp [splitAtByte] at h
    | cons c cs ih =>
      cases k with
      | zero => simp_all [splitAtByte]
      | succ k =>
        -- the first character goes to the prefix, and the cut goes on in the rest
        simp only [splitAtByte] at h
        split_ifs at h with hc
        obtain ⟨⟨a', b'⟩, hrest, hab⟩ := Option.map_eq_some_iff.1 h
        simp only [Prod.mk.injEq] at hab
        obtain ⟨rfl, rfl⟩ := hab
        obtain ⟨rfl, hsize⟩ := ih hrest
        exact ⟨rfl, by simp; omega⟩
  · rintro ⟨rfl, rfl⟩
    exact splitAtByte_append a b

/-- Byte offset `k` is a character boundary exactly when a prefix of the text takes `k`
bytes. -/
lemma isBoundary_iff {cs : List Char} {k : Nat} :
    IsBoundary cs k ↔ ∃ a b, cs = a ++ b ∧ byteSize a = k := by
  rw [IsBoundary, Option.isSome_iff_exists]
  constructor
  · rintro ⟨⟨a, b⟩, h⟩
    exact ⟨a, b, splitAtByte_eq_some_iff.1 h⟩
  · rintro ⟨a, b, h⟩
    exact ⟨(a, b), splitAtByte_eq_some_iff.2 h⟩

/-- A slice is a stretch of the text, from a prefix of `start` bytes on. -/
lemma eq_of_slice {cs mid : List Char} {start stop : Nat} (h : slice cs start stop = some mid) :
    ∃ pre post, cs = pre ++ mid ++ post ∧ byteSize pre = start ∧
      byteSize pre + byteSize mid = stop := by
  simp only [slice] at h
  split_ifs at h with hle
  obtain ⟨⟨pre, rest⟩, hpre, h⟩ := Option.bind_eq_some_iff.1 h
  obtain ⟨⟨mid', post⟩, hmid, h⟩ := Option.bind_eq_some_iff.1 h
  simp only [Option.some.injEq] at h
  subst h
  obtain ⟨rfl, rfl⟩ := splitAtByte_eq_some_iff.1 hpre
  obtain ⟨rfl, hsize⟩ := splitAtByte_eq_some_iff.1 hmid
  exact ⟨pre, post, by simp, rfl, by omega⟩

end Text

/-! ## The tiling relation -/

/-- `cs`, read from byte offset `off` and position `pos`, is incidental text and the tokens
`ts` in turn: each token's text is its stretch of `cs`, its span the byte offsets of that
stretch and its location the positions reached by stepping over `cs` up to it. -/
inductive Tiling : List Char → Nat → Position → List Token → Prop
  | done {cs : List Char} {off : Nat} {pos : Position} :
      Incidental cs none → Tiling cs off pos []
  | token {gap word rest : List Char} {off : Nat} {pos : Position} {t : Token}
      {ts : List Token} :
      Incidental gap word.head? → word ≠ [] → t.text.toList = word →
      t.span = ⟨off + byteSize gap, off + byteSize gap + byteSize word⟩ →
      t.loc = ⟨pos.advance gap.length (gap ++ word ++ rest),
        pos.advance (gap.length + word.length) (gap ++ word ++ rest)⟩ →
      Tiling rest (off + byteSize gap + byteSize word)
        (pos.advance (gap.length + word.length) (gap ++ word ++ rest)) ts →
      Tiling (gap ++ word ++ rest) off pos (t :: ts)

/-- A piece of incidental text in front of a tiling, followed by its first character,
extends the tiling. -/
lemma Tiling.prepend {p rest : List Char} {off : Nat} {pos : Position} {ts : List Token}
    (hp : Piece p rest.head?)
    (ht : Tiling rest (off + byteSize p) (pos.advance p.length (p ++ rest)) ts) :
    Tiling (p ++ rest) off pos ts := by
  generalize hoff : off + byteSize p = off' at ht
  generalize hpos : pos.advance p.length (p ++ rest) = pos' at ht
  cases ht with
  | done hg => exact .done (.cons (by simpa using hp) hg)
  | @token gap word rest' _ _ t ts hg hw htext hspan hloc hts =>
    -- the piece joins the gap in front of the first token
    have hhead : (gap ++ word ++ rest').head? = gap.head?.or word.head? := by
      cases word with
      | nil => exact absurd rfl hw
      | cons w ws => simp
    have hadv : ∀ k, pos.advance ((p ++ gap).length + k) (p ++ gap ++ word ++ rest') =
        pos'.advance (gap.length + k) (gap ++ word ++ rest') := by
      intro k
      rw [← hpos, List.length_append, Nat.add_assoc, Position.advance_add]
      simp only [List.append_assoc, List.drop_left']
    have hoff' : off + byteSize (p ++ gap) = off' + byteSize gap := by
      rw [← hoff, byteSize_append, Nat.add_assoc]
    have key : Tiling ((p ++ gap) ++ word ++ rest') off pos (t :: ts) := by
      refine Tiling.token (Incidental.cons (hhead ▸ hp) hg) hw htext ?_ ?_ ?_
      · rw [hspan, hoff']
      · rw [hloc, hadv]
        simpa using (hadv 0).symm
      · rw [hoff', hadv]
        exact hts
    simpa [List.append_assoc] using key

/-! ## What each reader takes -/

namespace Lexical

/-- Cutting a list after its longest prefix of elements that satisfy `p`. -/
lemma take_drop_length_takeWhile {α : Type} (p : α → Bool) (l : List α) :
    l.take (l.takeWhile p).length = l.takeWhile p ∧
      l.drop (l.takeWhile p).length = l.dropWhile p := by
  induction l with
  | nil => simp
  | cons a l ih => by_cases h : p a <;> simp [h, ih]

/-- A block comment closes at the first star and slash: the text before them holds no
other. -/
lemma commentClose_eq_some {cs : List Char} {n : Nat} (h : commentClose cs = some n) :
    ∃ body rest, cs = body ++ '*' :: '/' :: rest ∧ n = body.length + 2 ∧
      ¬ ['*', '/'] <:+: body := by
  fun_induction commentClose cs generalizing n with
  | case1 => simp at h
  | case2 rest => exact ⟨[], rest, rfl, by simpa using h.symm, by simp⟩
  | case3 c r hne ih =>
    obtain ⟨m, hm, rfl⟩ := Option.map_eq_some_iff.1 h
    obtain ⟨body, rest, rfl, rfl, hbody⟩ := ih hm
    refine ⟨c :: body, rest, rfl, by simp, ?_⟩
    rw [List.infix_cons_iff]
    rintro (hpre | hin)
    · -- a star and slash at the front would have closed the comment one step earlier
      cases body with
      | nil => simp at hpre
      | cons d body =>
        simp only [List.cons_prefix_cons] at hpre
        obtain ⟨rfl, rfl, -⟩ := hpre
        exact hne _ rfl rfl
    · exact hbody hin

end Lexical

/-- What `scan` takes as incidental text is one piece of it, followed by what is left. -/
lemma Lexeme.scan_incidental {c : Char} {rest : List Char} {n : Nat}
    (h : Lexeme.scan c rest = .incidental n) :
    Piece ((c :: rest).take (n + 1)) (rest.drop n).head? := by
  unfold Lexeme.scan at h
  split_ifs at h with hblank hline hblock
  · -- a blank
    cases h
    exact .blank hblank
  · -- a line comment, up to a line break or the end
    cases h
    obtain ⟨rfl, hslash⟩ : c = '/' ∧ rest.head? = some '/' := by simpa using hline
    obtain ⟨r, rfl⟩ : ∃ r, rest = '/' :: r := by
      cases rest with
      | nil => simp at hslash
      | cons d r => simp at hslash; exact ⟨r, by rw [hslash]⟩
    have hlen : lineCommentRest ('/' :: r) = (r.takeWhile fun c => !isLineBreak c).length + 1 := by
      simp [lineCommentRest, isLineBreak]
    obtain ⟨htake, hdrop⟩ := take_drop_length_takeWhile (fun c => !isLineBreak c) r
    rw [hlen, List.take_succ_cons, List.take_succ_cons, htake, List.drop_succ_cons, hdrop]
    refine .lineComment (fun d hd => by simpa using List.all_eq_true.1 List.all_takeWhile d hd) ?_
    intro d hd
    have := List.head?_dropWhile_not (fun c => !isLineBreak c) r
    rw [hd] at this
    simpa using this
  · -- a block comment, closed
    obtain ⟨rfl, hstar⟩ : c = '/' ∧ rest.head? = some '*' := by simpa using hblock
    obtain ⟨r, rfl⟩ : ∃ r, rest = '*' :: r := by
      cases rest with
      | nil => simp at hstar
      | cons d r => simp at hstar; exact ⟨r, by rw [hstar]⟩
    split at h
    · rename_i m hm
      cases h
      obtain ⟨body, rest', rfl, rfl, hbody⟩ := Lexical.commentClose_eq_some hm
      have key : (body ++ '*' :: '/' :: rest').take (body.length + 2) = body ++ ['*', '/'] := by
        simp [List.take_append, List.take_of_length_le]
      rw [List.take_succ_cons, List.take_succ_cons, key]
      exact .blockComment hbody
    · cases h
  all_goals (split at h <;> cases h)

/-! ## A run of the lexer tiles the text it reads -/

/-- A successful run of the lexer on `cs`, from offset `off` and position `pos`, adds to
what it has read tokens that tile `cs`. -/
lemma lexFrom_tiling {cs : List Char} {off : Nat} {pos : Position} {acc res : Array Token}
    (h : lexFrom cs off pos acc = .ok res) :
    ∃ ts, res.toList = acc.toList ++ ts ∧ Tiling cs off pos ts := by
  fun_induction lexFrom cs off pos acc with
  | case1 off pos acc =>
    cases h
    exact ⟨[], by simp, .done (.nil none)⟩
  | case2 off pos acc c rest n hscan ih =>
    -- incidental text: one piece in front of what the rest of the run tiles
    obtain ⟨ts, hres, hts⟩ := ih h
    refine ⟨ts, hres, ?_⟩
    have hsplit : c :: rest = (c :: rest).take (n + 1) ++ rest.drop n :=
      (List.take_append_drop (n + 1) (c :: rest)).symm
    rw [hsplit]
    apply Tiling.prepend (Lexeme.scan_incidental hscan)
    rw [← hsplit, Position.advance_length_take]
    exact hts
  | case3 off pos acc c rest kind n hscan text stop stopPos ih =>
    -- a token with no incidental text before it
    obtain ⟨ts, hres, hts⟩ := ih h
    refine ⟨_ :: ts, by simpa using hres, ?_⟩
    have hsplit : c :: rest = text ++ rest.drop n :=
      (List.take_append_drop (n + 1) (c :: rest)).symm
    have hpos : stopPos = pos.advance text.length (c :: rest) :=
      (Position.advance_length_take _ _ _).symm
    have key := @Tiling.token [] text (rest.drop n) off pos
      ⟨kind, String.ofList text, ⟨off, stop⟩, ⟨pos, stopPos⟩⟩ ts (.nil _)
      (by simp [text]) (by simp) (by simp [stop])
      (by simp [hpos, ← hsplit]) (by simpa [hpos, ← hsplit, stop] using hts)
    rw [hsplit]
    simpa using key
  | case4 => cases h

/-! ## What a tiling says -/

/-- Token `a` ends, in offsets and in positions, no later than token `b` starts. -/
def Token.Precedes (a b : Token) : Prop :=
  a.span.stop ≤ b.span.start ∧ a.loc.stop.le b.loc.start = true

/-- Tokens in text order: each takes at least one byte and ends, in positions, no earlier
than it starts; and each ends no later than any token after it starts. -/
structure InTextOrder (ts : List Token) : Prop where
  nonempty : ∀ t ∈ ts, t.span.start < t.span.stop ∧ t.loc.start.le t.loc.stop = true
  precedes : ts.Pairwise Token.Precedes

lemma byteSize_pos {cs : List Char} (h : cs ≠ []) : 0 < byteSize cs := by
  cases cs with
  | nil => exact absurd rfl h
  | cons c cs => have := Char.utf8Size_pos c; simp; omega

namespace Tiling

variable {cs : List Char} {off : Nat} {pos : Position} {ts : List Token}

/-- Every token of a tiling starts, in offsets and in positions, no earlier than the
tiling. -/
lemma le_start (h : Tiling cs off pos ts) :
    ∀ t ∈ ts, off ≤ t.span.start ∧ pos.le t.loc.start = true := by
  induction h with
  | done => simp
  | @token gap word rest off pos t ts _ _ _ hspan hloc _ ih =>
    intro u hu
    rcases List.mem_cons.1 hu with rfl | hu
    · rw [hspan, hloc]
      exact ⟨by simp, Position.le_advance _ _ _⟩
    · obtain ⟨hoff, hpos⟩ := ih u hu
      exact ⟨by omega, Position.le_trans (Position.le_advance _ _ _) hpos⟩

/-- The tokens of a tiling are in text order. -/
lemma inTextOrder (h : Tiling cs off pos ts) : InTextOrder ts := by
  induction h with
  | done => exact ⟨by simp, .nil⟩
  | @token gap word rest off pos t ts _ hw _ hspan hloc hts ih =>
    refine ⟨?_, List.pairwise_cons.2 ⟨?_, ih.precedes⟩⟩
    · intro u hu
      rcases List.mem_cons.1 hu with rfl | hu
      · rw [hspan, hloc]
        exact ⟨by have := byteSize_pos hw; simp; omega,
          Position.advance_le_advance _ (by omega) _⟩
      · exact ih.nonempty u hu
    · -- every later token starts after the stretch that `t` ends
      intro u hu
      obtain ⟨hoff, hpos⟩ := hts.le_start u hu
      exact ⟨by rw [hspan]; exact hoff, by rw [hloc]; exact hpos⟩

/-- Every token of a tiling stands on character boundaries, and its text is the text
between them; `pre` is what comes before the tiled text. -/
lemma mem_slice (h : Tiling cs off pos ts) (pre : List Char) (hpre : byteSize pre = off) :
    ∀ t ∈ ts, Text.IsBoundary (pre ++ cs) t.span.start ∧
      Text.IsBoundary (pre ++ cs) t.span.stop ∧
      Text.slice (pre ++ cs) t.span.start t.span.stop = some t.text.toList := by
  induction h generalizing pre with
  | done => simp
  | @token gap word rest off pos t ts _ _ htext hspan _ _ ih =>
    have hcs : pre ++ (gap ++ word ++ rest) = (pre ++ gap) ++ word ++ rest := by simp
    have hstart : t.span.start = byteSize (pre ++ gap) := by simp [hspan, hpre]
    have hstop : t.span.stop = byteSize (pre ++ gap) + byteSize word := by
      simp [hspan, hpre, Nat.add_assoc]
    intro u hu
    rcases List.mem_cons.1 hu with rfl | hu
    · rw [hcs, hstart, hstop, htext]
      refine ⟨?_, ?_, Text.slice_append _ _ _⟩
      · rw [List.append_assoc (pre ++ gap)]
        exact Text.isBoundary_append _ _
      · rw [← byteSize_append]
        exact Text.isBoundary_append _ _
    · have := ih (pre ++ gap ++ word) (by simp [hpre, Nat.add_assoc]) u hu
      simpa [List.append_assoc] using this

/-- The stretches of a tiling around its tokens are incidental text, each followed by the
first character of the next token or by nothing. -/
lemma gaps_incidental (h : Tiling cs off pos ts) (pre : List Char) (hpre : byteSize pre = off) :
    ∀ g ∈ gaps off (byteSize (pre ++ cs)) ts,
      ∃ text, Text.slice (pre ++ cs) g.1.start g.1.stop = some text ∧ Incidental text g.2 := by
  induction h generalizing pre with
  | @done cs off pos hcs =>
    intro g hg
    simp only [gaps, List.mem_singleton] at hg
    subst hg
    refine ⟨cs, ?_, hcs⟩
    simpa [hpre] using Text.slice_append pre cs []
  | @token gap word rest off pos t ts hgap _ htext hspan _ _ ih =>
    intro g hg
    simp only [gaps, List.mem_cons] at hg
    rcases hg with rfl | hg
    · refine ⟨gap, ?_, by simpa [htext] using hgap⟩
      have := Text.slice_append pre gap (word ++ rest)
      simpa [hspan, hpre, List.append_assoc] using this
    · have := ih (pre ++ gap ++ word) (by simp [hpre, Nat.add_assoc]) g
      simp only [List.append_assoc] at this hg ⊢
      have hstop : t.span.stop = off + byteSize gap + byteSize word := by simp [hspan]
      rw [hstop] at hg
      exact this hg

end Tiling

/-! ## The tokens of a source text -/

/-- The byte offset where `tokenize` starts reading: 3 after a leading byte-order mark
(whose UTF-8 bytes are EF BB BF), else 0. -/
def lexStart (s : String) : Nat := if s.toList.head? = some '\uFEFF' then 3 else 0

/-- `tokenize` reads what follows the first `lexStart` bytes, from the first position. -/
lemma tokenize_eq_lexFrom (s : String) :
    ∃ pre cs, s.toList = pre ++ cs ∧ byteSize pre = lexStart s ∧
      tokenize s = lexFrom cs (lexStart s) {} #[] := by
  unfold tokenize
  split
  · rename_i _ cs hs
    have hstart : lexStart s = 3 := by simp [lexStart, hs]
    exact ⟨['\uFEFF'], cs, hs, by rw [hstart]; decide, by rw [hstart]⟩
  · rename_i _ hcs
    have hstart : lexStart s = 0 := by
      unfold lexStart
      cases hl : s.toList with
      | nil => simp
      | cons d ds =>
        have hd : d ≠ '\uFEFF' := fun hd => hcs ds (by rw [hl, hd])
        simp [hd]
    exact ⟨[], s.toList, rfl, by simp [hstart], by rw [hstart]⟩

/-- A successful `tokenize` tiles the source after `lexStart`. -/
lemma tokenize_tiling {s : String} {ts : Array Token} (h : tokenize s = .ok ts) :
    ∃ pre cs, s.toList = pre ++ cs ∧ byteSize pre = lexStart s ∧
      Tiling cs (lexStart s) {} ts.toList := by
  obtain ⟨pre, cs, hs, hpre, hlex⟩ := tokenize_eq_lexFrom s
  obtain ⟨ts', hts, htiling⟩ := lexFrom_tiling (hlex ▸ h)
  simp only [List.nil_append] at hts
  exact ⟨pre, cs, hs, hpre, hts ▸ htiling⟩

/-- The tokens of a source text are in text order. -/
lemma tokenize_inTextOrder {s : String} {ts : Array Token} (h : tokenize s = .ok ts) :
    InTextOrder ts.toList := by
  obtain ⟨_, _, _, _, htiling⟩ := tokenize_tiling h
  exact htiling.inTextOrder

/-- The tokens `ts` tile the source `s`: they and the incidental text around them cover
the text after `lexStart`, one after another. -/
structure TilesSource (s : String) (ts : Array Token) : Prop where
  /-- Every token takes at least one byte. -/
  nonempty : ∀ t ∈ ts, t.span.start < t.span.stop
  /-- No token starts before the lexing start. -/
  after_start : ∀ t ∈ ts, lexStart s ≤ t.span.start
  /-- Every token starts and ends on character boundaries, and its text is the source text
  between them. -/
  slice : ∀ t ∈ ts, Text.IsBoundary s.toList t.span.start ∧
    Text.IsBoundary s.toList t.span.stop ∧
    Text.slice s.toList t.span.start t.span.stop = some t.text.toList
  /-- Each token ends at or before the next one starts. -/
  ordered : ∀ i (hi : i + 1 < ts.size), ts[i].span.stop ≤ ts[i + 1].span.start
  /-- The text before the first token, between two tokens and after the last is incidental
  text, followed by the next token or by the end. -/
  gaps : ∀ g ∈ gaps (lexStart s) (byteSize s.toList) ts.toList,
    ∃ text, Text.slice s.toList g.1.start g.1.stop = some text ∧ Incidental text g.2

/-- The tokens of a source text tile it. -/
theorem tokenize_tiles_source {s : String} {ts : Array Token} (h : tokenize s = .ok ts) :
    TilesSource s ts := by
  obtain ⟨pre, cs, hs, hpre, htiling⟩ := tokenize_tiling h
  have horder := htiling.inTextOrder
  have hmem : ∀ t ∈ ts, t ∈ ts.toList := fun t ht => Array.mem_toList_iff.2 ht
  refine ⟨fun t ht => (horder.nonempty t (hmem t ht)).1,
    fun t ht => (htiling.le_start t (hmem t ht)).1, ?_, ?_, ?_⟩
  · intro t ht
    rw [hs]
    exact htiling.mem_slice pre hpre t (hmem t ht)
  · intro i hi
    have := List.pairwise_iff_getElem.1 horder.precedes i (i + 1)
      (by simpa using (by omega : i < ts.size)) (by simpa using hi) (by omega)
    simpa using this.1
  · rw [hs]
    exact htiling.gaps_incidental pre hpre

/-- The tokens of a member access whose dot starts a new line after a block comment, with
a line comment at the end. -/
lemma tokenize_split_member :
    tokenize "a /* c */\n.b // x" = .ok #[⟨.identifier, "a", ⟨0, 1⟩, ⟨⟨1, 1⟩, ⟨1, 2⟩⟩⟩,
      ⟨.punctuator, ".", ⟨10, 11⟩, ⟨⟨2, 1⟩, ⟨2, 2⟩⟩⟩,
      ⟨.identifier, "b", ⟨11, 12⟩, ⟨⟨2, 2⟩, ⟨2, 3⟩⟩⟩] := by
  simp +decide [tokenize, lexFrom, Lexeme.scan, Lexical.isWordStart, Lexical.isWordPart,
    Lexical.wordKind, Position.advance, Position.step, Lexical.commentClose,
    Lexical.lineCommentRest, Lexical.isLineBreak, Lexical.punctuatorLength,
    Lexical.punctuators, Char.utf8Size]

/-- The tiling at a member access whose dot starts a new line after a block comment, with
a line comment at the end. -/
theorem tokenize_tiles_split_member :
    tokenize "a /* c */\n.b // x" = .ok #[⟨.identifier, "a", ⟨0, 1⟩, ⟨⟨1, 1⟩, ⟨1, 2⟩⟩⟩,
      ⟨.punctuator, ".", ⟨10, 11⟩, ⟨⟨2, 1⟩, ⟨2, 2⟩⟩⟩,
      ⟨.identifier, "b", ⟨11, 12⟩, ⟨⟨2, 2⟩, ⟨2, 3⟩⟩⟩] ∧
    TilesSource "a /* c */\n.b // x" #[⟨.identifier, "a", ⟨0, 1⟩, ⟨⟨1, 1⟩, ⟨1, 2⟩⟩⟩,
      ⟨.punctuator, ".", ⟨10, 11⟩, ⟨⟨2, 1⟩, ⟨2, 2⟩⟩⟩,
      ⟨.identifier, "b", ⟨11, 12⟩, ⟨⟨2, 2⟩, ⟨2, 3⟩⟩⟩] :=
  ⟨tokenize_split_member, tokenize_tiles_source tokenize_split_member⟩

end DotLint
