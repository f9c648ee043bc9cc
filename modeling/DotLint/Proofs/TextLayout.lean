import Mathlib.Tactic.Lemma
import DotLint.Proofs.TokenReading

/-!
# Source text as gaps and tokens

A text the lexer reads is incidental text and tokens in turn. Here such a text is a list of
cells, each the incidental text in front of a token and the token's text and kind, followed
by a last stretch of incidental text. The lexer reads cells back exactly:

* `lexFrom_cells`: when each gap is incidental text and each token is read whole before what
  follows it (`Reads`), the lexer gives the cells' tokens (`cellTokens`);
* `lexFrom_eq_cells`: every run of the lexer that succeeds reads its text that way.

So a text can be changed by rearranging its gaps, and relexed, without running the lexer:
it is enough that the new cells still read.
-/

namespace DotLint

open Lexical

/-- A token with the incidental text in front of it. -/
structure Cell where
  gap : List Char
  word : List Char
  kind : TokenKind

/-- The text of cells one after another, each gap before its token. -/
def cellsText (cs : List Cell) : List Char := cs.flatMap fun c => c.gap ++ c.word

@[simp] lemma cellsText_nil : cellsText [] = [] := rfl

@[simp] lemma cellsText_cons (c : Cell) (cs : List Cell) :
    cellsText (c :: cs) = c.gap ++ c.word ++ cellsText cs := by
  simp [cellsText]

@[simp] lemma cellsText_append (cs ds : List Cell) :
    cellsText (cs ++ ds) = cellsText cs ++ cellsText ds := by
  simp [cellsText]

/-- The cells `cs`, followed by the text `s`, read one after another: each gap as incidental
text before its token, and each token whole before what follows it. -/
inductive Reads : List Cell → List Char → Prop
  | nil (s : List Char) : Reads [] s
  | cons {c : Cell} {cs : List Cell} {s : List Char} :
      Incidental c.gap c.word.head? → c.word ≠ [] →
      ReadsWhole c.word c.kind (cellsText cs ++ s) → Reads cs s → Reads (c :: cs) s

/-- The tokens of the cells `cs` in the text `cellsText cs ++ s` read from byte offset `off`
and position `pos`: each spans its own text, and its location is found by stepping over the
text up to it. -/
def cellTokens (s : List Char) : List Cell → Nat → Position → List Token
  | [], _, _ => []
  | c :: cs, off, pos =>
    let text := c.gap ++ c.word ++ (cellsText cs ++ s)
    let stop := off + byteSize c.gap + byteSize c.word
    let stopPos := pos.advance (c.gap.length + c.word.length) text
    ⟨c.kind, String.ofList c.word, ⟨off + byteSize c.gap, stop⟩,
      ⟨pos.advance c.gap.length text, stopPos⟩⟩ :: cellTokens s cs stop stopPos

lemma Reads.append_iff {cs ds : List Cell} {s : List Char} :
    Reads (cs ++ ds) s ↔ Reads cs (cellsText ds ++ s) ∧ Reads ds s := by
  induction cs with
  | nil => exact ⟨fun h => ⟨.nil _, h⟩, fun h => h.2⟩
  | cons c cs ih =>
    rw [List.cons_append]
    constructor
    · intro h
      cases h with
      | cons hg hw hr hcs =>
        rw [cellsText_append, List.append_assoc] at hr
        exact ⟨.cons hg hw hr (ih.1 hcs).1, (ih.1 hcs).2⟩
    · rintro ⟨hc, hds⟩
      cases hc with
      | cons hg hw hr hcs =>
        refine .cons hg hw ?_ (ih.2 ⟨hcs, hds⟩)
        rwa [cellsText_append, List.append_assoc]

/-! ## The lexer on incidental text -/

namespace Lexical

/-- A block comment with no star and slash inside closes at the first one after it. -/
lemma commentClose_append {body : List Char} (h : ¬ ['*', '/'] <:+: body) (rest : List Char) :
    commentClose (body ++ '*' :: '/' :: rest) = some (body.length + 2) := by
  induction body with
  | nil => rfl
  | cons c body ih =>
    have hbody : ¬ ['*', '/'] <:+: body :=
      fun hin => h (hin.trans (List.suffix_cons c body).isInfix)
    -- no star and slash start at `c`
    have hstart : ∀ t, c = '*' → body ++ '*' :: '/' :: rest = '/' :: t → False := by
      rintro t rfl ht
      cases body with
      | nil => cases ht
      | cons d body =>
        simp only [List.cons_append, List.cons.injEq] at ht
        obtain ⟨rfl, -⟩ := ht
        exact h ⟨[], body, rfl⟩
    rw [List.cons_append, commentClose.eq_3 _ _ hstart, ih hbody]
    simp only [Option.map_some, List.length_cons]

end Lexical

/-- Where a piece of incidental text starts, `scan` reads the piece as incidental text. -/
lemma Lexeme.scan_of_piece {c : Char} {p rest : List Char} (h : Piece (c :: p) rest.head?) :
    Lexeme.scan c (p ++ rest) = .incidental p.length := by
  generalize hcp : c :: p = cp at h
  cases h with
  | blank hb =>
    simp only [List.cons.injEq] at hcp
    obtain ⟨rfl, rfl⟩ := hcp
    simp [Lexeme.scan, hb]
  | @lineComment body _ hbody hnext =>
    simp only [List.cons.injEq] at hcp
    obtain ⟨rfl, rfl⟩ := hcp
    -- the comment runs to the line break or the end that follows it
    have hstop : ((body ++ rest).takeWhile fun c => !isLineBreak c) = body := by
      rw [List.takeWhile_append_of_pos (fun x hx => by simp [hbody x hx])]
      cases rest with
      | nil => simp
      | cons x t => simp [hnext x rfl]
    have hlen : lineCommentRest ('/' :: (body ++ rest)) = body.length + 1 := by
      rw [lineCommentRest, List.takeWhile_cons_of_pos (by decide), hstop, List.length_cons]
    simp [Lexeme.scan, isBlank, hlen]
  | @blockComment body _ hbody =>
    simp only [List.cons_append, List.cons.injEq] at hcp
    obtain ⟨rfl, rfl⟩ := hcp
    simp [Lexeme.scan, isBlank, commentClose_append hbody rest]

/-- The lexer steps over incidental text, followed by what it is followed by. -/
lemma lexFrom_incidental {g rest : List Char} (h : Incidental g rest.head?) (off : Nat)
    (pos : Position) (acc : Array Token) :
    lexFrom (g ++ rest) off pos acc =
      lexFrom rest (off + byteSize g) (pos.advance g.length (g ++ rest)) acc := by
  generalize hnext : rest.head? = next at h
  induction h generalizing off pos with
  | nil => simp
  | @cons p g' nxt hp _ ih =>
    -- one piece, then the incidental text after it
    obtain ⟨c, p', rfl⟩ : ∃ c p', p = c :: p' := by
      cases hp with
      | blank => exact ⟨_, _, rfl⟩
      | lineComment => exact ⟨_, _, rfl⟩
      | blockComment => exact ⟨_, _, rfl⟩
    have hhead : (g' ++ rest).head? = g'.head?.or nxt := by
      rw [← hnext, List.head?_append]
    have hscan := @Lexeme.scan_of_piece c p' (g' ++ rest) (hhead ▸ hp)
    rw [List.append_assoc, List.cons_append, lexFrom, hscan]
    simp only [List.drop_left', List.take_succ_cons, List.take_left']
    have hpos : pos.advance (c :: p' ++ g').length (c :: (p' ++ (g' ++ rest))) =
        (pos.advance (p'.length + 1) (c :: (p' ++ (g' ++ rest)))).advance g'.length
          (g' ++ rest) := by
      rw [List.length_append, List.length_cons, Position.advance_add pos (p'.length + 1),
        List.drop_succ_cons, List.drop_left]
    rw [ih _ _ hnext, byteSize_append, Nat.add_assoc, hpos]

/-- The lexer reads a token that is read whole before what follows it. -/
lemma lexFrom_token {w rest : List Char} {kind : TokenKind} (h : ReadsWhole w kind rest)
    (off : Nat) (pos : Position) (acc : Array Token) :
    lexFrom (w ++ rest) off pos acc =
      lexFrom rest (off + byteSize w) (pos.advance w.length (w ++ rest))
        (acc.push ⟨kind, String.ofList w, ⟨off, off + byteSize w⟩,
          ⟨pos, pos.advance w.length (w ++ rest)⟩⟩) := by
  obtain ⟨c, ws, rfl, hread⟩ := h
  have hscan := Lexeme.scan_eq_token_iff.2 hread
  rw [List.cons_append, lexFrom, hscan]
  simp only [List.drop_left', List.take_succ_cons, List.take_left', List.length_cons]

/-! ## Reading cells -/

lemma push_append_toArray {α : Type} (acc : Array α) (a : α) (l : List α) :
    acc.push a ++ l.toArray = acc ++ (a :: l).toArray := by
  apply Array.ext'
  simp

/-- Read cells are lexed as their tokens. -/
theorem lexFrom_cells {cs : List Cell} {last : List Char} (h : Reads cs last)
    (hl : Incidental last none) (off : Nat) (pos : Position) (acc : Array Token) :
    lexFrom (cellsText cs ++ last) off pos acc =
      .ok (acc ++ (cellTokens last cs off pos).toArray) := by
  induction h generalizing off pos acc with
  | nil s =>
    have := @lexFrom_incidental s [] (by simpa using hl) off pos acc
    simp only [List.append_nil] at this
    simp [this, lexFrom, cellTokens]
  | @cons c cs s hg hw hr _ ih =>
    -- the gap, then the token, then the rest of the cells
    have hhead : (c.word ++ (cellsText cs ++ s)).head? = c.word.head? := by
      obtain ⟨a, w, hw'⟩ := List.exists_cons_of_ne_nil hw
      simp [hw']
    have hg' : Incidental c.gap (c.word ++ (cellsText cs ++ s)).head? := by
      rw [hhead]
      exact hg
    rw [cellsText_cons, List.append_assoc, List.append_assoc, lexFrom_incidental hg',
      lexFrom_token hr, ih hl, push_append_toArray]
    simp only [cellTokens, List.append_assoc, Position.advance_add,
      List.drop_left', Nat.add_assoc]

/-- A piece of incidental text in front of the first cell joins its gap; the tokens stay,
found from further on. -/
lemma cellTokens_prepend {p s : List Char} (c : Cell) (cs : List Cell) (off : Nat)
    (pos : Position) :
    cellTokens s (⟨p ++ c.gap, c.word, c.kind⟩ :: cs) off pos =
      cellTokens s (c :: cs) (off + byteSize p)
        (pos.advance p.length (p ++ (cellsText (c :: cs) ++ s))) := by
  simp only [cellTokens, cellsText_cons, List.append_assoc, byteSize_append, List.length_append,
    Position.advance_add, List.drop_left', Nat.add_assoc]

/-- A successful run of the lexer reads its text as cells and a last stretch of incidental
text, and gives the cells' tokens. -/
theorem lexFrom_eq_cells {text : List Char} {off : Nat} {pos : Position}
    {acc res : Array Token} (h : lexFrom text off pos acc = .ok res) :
    ∃ cs last, text = cellsText cs ++ last ∧ Reads cs last ∧ Incidental last none ∧
      res = acc ++ (cellTokens last cs off pos).toArray := by
  fun_induction lexFrom text off pos acc with
  | case1 off pos acc =>
    cases h
    exact ⟨[], [], rfl, .nil _, .nil _, by simp [cellTokens]⟩
  | case2 off pos acc c rest n hscan ih =>
    -- a piece of incidental text, in front of the first gap or of the last stretch
    obtain ⟨cs, last, htext, hreads, hlast, hres⟩ := ih h
    obtain ⟨p, hp⟩ : ∃ p, (c :: rest).take (n + 1) = p := ⟨_, rfl⟩
    have hpiece : Piece p (cellsText cs ++ last).head? := by
      rw [← hp, ← htext]
      exact Lexeme.scan_incidental hscan
    have hsplit : c :: rest = p ++ (cellsText cs ++ last) := by
      rw [← hp, ← htext, ← List.drop_succ_cons, List.take_append_drop]
    have hpos : pos.advance (n + 1) (c :: rest) =
        pos.advance p.length (p ++ (cellsText cs ++ last)) := by
      rw [← hsplit, ← hp, Position.advance_length_take]
    rw [hp, hpos] at hres
    cases cs with
    | nil =>
      refine ⟨[], p ++ last, by simpa using hsplit, .nil _, .cons (by simpa using hpiece) hlast,
        by simpa [cellTokens] using hres⟩
    | cons c₀ cs =>
      cases hreads with
      | cons hg hw hr hcs =>
        have hhead : (cellsText (c₀ :: cs) ++ last).head? = c₀.gap.head?.or c₀.word.head? := by
          obtain ⟨a, w, hw'⟩ := List.exists_cons_of_ne_nil hw
          simp [hw', List.head?_append]
        refine ⟨⟨p ++ c₀.gap, c₀.word, c₀.kind⟩ :: cs, last, ?_,
          .cons (.cons (hhead ▸ hpiece) hg) hw hr hcs, hlast, ?_⟩
        · rw [hsplit]
          simp
        · rw [cellTokens_prepend, hres]
  | case3 off pos acc c rest kind n hscan text stop stopPos ih =>
    -- a token with no incidental text in front of it
    obtain ⟨cs, last, htext, hreads, hlast, hres⟩ := ih h
    have hread := Lexeme.scan_eq_token_iff.1 hscan
    have hn : (rest.take n).length = n := by
      rw [List.length_take, Nat.min_eq_left hread.le_length]
    have hword : text = c :: rest.take n := by simp [text]
    have hsplit : c :: rest = text ++ (cellsText cs ++ last) := by
      rw [hword, ← htext, List.cons_append, List.take_append_drop]
    have hpos : stopPos = pos.advance text.length (c :: rest) := by
      rw [hword, List.length_cons, hn]
    refine ⟨⟨[], text, kind⟩ :: cs, last, by simpa using hsplit,
      .cons (.nil _) (by simp [hword]) ⟨c, rest.take n, hword, ?_⟩ hreads, hlast, ?_⟩
    · rw [← htext, List.take_append_drop, hn]
      exact hread
    · rw [hres]
      simp [cellTokens, stop, hpos, ← hsplit]
  | case4 => cases h

/-! ## Where each token lies -/

lemma cellTokens_length (s : List Char) (cs : List Cell) (off : Nat) (pos : Position) :
    (cellTokens s cs off pos).length = cs.length := by
  induction cs generalizing off pos with
  | nil => rfl
  | cons c cs ih => simp [cellTokens, ih]

/-- The tokens of cells one after another are the tokens of the first cells, then the
tokens of the others, found from where the first ones end. -/
lemma cellTokens_append (s : List Char) (cs ds : List Cell) (off : Nat) (pos : Position) :
    cellTokens s (cs ++ ds) off pos =
      cellTokens (cellsText ds ++ s) cs off pos ++
        cellTokens s ds (off + byteSize (cellsText cs))
          (pos.advance (cellsText cs).length (cellsText (cs ++ ds) ++ s)) := by
  induction cs generalizing off pos with
  | nil => simp [cellTokens]
  | cons c cs ih =>
    simp only [List.cons_append, cellTokens, cellsText_append, cellsText_cons, List.append_assoc,
      ih, byteSize_append, List.length_append, Position.advance_add, List.drop_left',
      Nat.add_assoc]

/-- Token `i` of cells spans cell `i`'s token and is located by stepping over the text up to
it. -/
lemma cellTokens_getElem? (s : List Char) (cs : List Cell) (off : Nat) (pos : Position)
    (i : Nat) :
    (cellTokens s cs off pos)[i]? = cs[i]?.map fun c =>
      ⟨c.kind, String.ofList c.word,
        ⟨off + byteSize (cellsText (cs.take i)) + byteSize c.gap,
          off + byteSize (cellsText (cs.take i)) + byteSize c.gap + byteSize c.word⟩,
        ⟨pos.advance ((cellsText (cs.take i)).length + c.gap.length) (cellsText cs ++ s),
          pos.advance ((cellsText (cs.take i)).length + c.gap.length + c.word.length)
            (cellsText cs ++ s)⟩⟩ := by
  induction cs generalizing i off pos with
  | nil => simp [cellTokens]
  | cons c cs ih =>
    cases i with
    | zero => simp [cellTokens, List.append_assoc]
    | succ i =>
      simp only [cellTokens, List.getElem?_cons_succ, ih, List.take_succ_cons, cellsText_cons,
        byteSize_append, List.length_append, List.append_assoc, Nat.add_assoc]
      congr 1
      funext c'
      simp only [Position.advance_add, List.drop_left']

end DotLint
