import Mathlib.Tactic.Lemma
import DotLint.Proofs.FixedText

/-!
# Tokens printed one space apart lex back to themselves

Print the tokens of a text as a space followed by their texts joined with single spaces:
lexing that text gives the same tokens, kind for kind and text for text
(`tokenize_spaced_texts`). So every token reads back as itself in isolation, and no two
tokens merge or split when only a blank stands between them.

The tokens of a text are its cells read whole (`tokenize_cells`); printing them gives the
same words with a single space as each gap (`Cell.spaced`). Every reader stops before a blank
and at the end of the text (`ReadsWhole.before_blank`): a string ends at its closing quote, a
number and a word at a character that does not go on with them, and a punctuator when no
longer one of the table fits. So the spaced cells read whole too (`Reads.spaced`).
-/

namespace DotLint

open Lexical

/-! ## What a blank ends -/

/-- A `?` or a slash alone is read whole before a blank or the end of the text. -/
lemma readsWhole_lone {c : Char} (hc : c = '?' ∨ c = '/') {s : List Char}
    (hs : ∀ x, s.head? = some x → isBlank x = true) : ReadsWhole [c] .punctuator s := by
  -- neither goes on into a longer punctuator with a blank, and a blank starts no comment
  have hslash : c = '/' → s.head? ≠ some '/' ∧ s.head? ≠ some '*' := by
    intro _
    constructor <;> intro hx <;> exact absurd (hs _ hx) (by decide)
  have hlen : punctuatorLength (c :: s) = some 1 := by
    have hq : String.ofList [c] ∈ punctuators := by rcases hc with rfl | rfl <;> decide
    have hend : ∀ x, s.head? = some x → ∀ p ∈ punctuators,
        ¬ (String.ofList [c]).toList ++ [x] <+: p.toList :=
      fun x hx p hp => not_continues hq hp (.inl (hs x hx))
    have := punctuatorLength_of_ends hq hend (fun h => by rcases hc with rfl | rfl <;> simp at h)
    simpa using this
  refine ⟨c, [], rfl, .punctuator ?_ (by simpa using hlen)⟩
  rcases hc with rfl | rfl
  · exact ⟨by decide, by decide, by decide, by decide, by decide, fun h => absurd h (by decide),
      fun h => absurd h (by decide)⟩
  · exact ⟨by decide, by decide, by decide, by decide, by decide, hslash,
      fun h => absurd h (by decide)⟩

/-- A token read whole before some text is read whole before a blank and before the end of
the text. -/
lemma ReadsWhole.before_blank {w r s : List Char} {kind : TokenKind} (h : ReadsWhole w kind r)
    (hs : ∀ x, s.head? = some x → isBlank x = true) : ReadsWhole w kind s := by
  by_cases hopen : kind = .punctuator ∧ String.ofList w ∈ [".", "?.", "?", "/"]
  · -- the punctuators that go on into longer ones with a point or `?` are taken one by one
    obtain ⟨rfl, hw⟩ := hopen
    have hw' : w = ['.'] ∨ w = ['?', '.'] ∨ w = ['?'] ∨ w = ['/'] := by
      simp only [List.mem_cons, List.not_mem_nil, or_false] at hw
      rcases hw with hw | hw | hw | hw <;>
        · have := congrArg String.toList hw
          simp only [String.toList_ofList] at this
          simp [this]
    have hdot : ∀ x, s.head? = some x → isBlank x = true ∨ x = '/' ∨ isWordStart x = true :=
      fun x hx => .inl (hs x hx)
    rcases hw' with rfl | rfl | rfl | rfl
    · exact readsWhole_dot (.inl rfl) hdot
    · exact readsWhole_dot (.inr rfl) hdot
    · exact readsWhole_lone (.inl rfl) hs
    · exact readsWhole_lone (.inr rfl) hs
  · exact h.before (fun hk hw => hopen ⟨hk, hw⟩) fun x hx => .inl (hs x hx)

/-! ## Cells one space apart -/

/-- A cell's token with a single space as its gap. -/
def Cell.spaced (c : Cell) : Cell := ⟨[' '], c.word, c.kind⟩

/-- Cells read whole still read whole one space apart, before a blank or the end. -/
lemma Reads.spaced {cs : List Cell} {last s : List Char} (h : Reads cs last)
    (hs : ∀ x, s.head? = some x → isBlank x = true) : Reads (cs.map Cell.spaced) s := by
  induction h with
  | nil => exact .nil s
  | @cons c cs _ _ hw hr _ ih =>
    -- what follows the token is the next space, or `s` after the last one
    have hnext : ∀ x, (cellsText (cs.map Cell.spaced) ++ s).head? = some x → isBlank x = true := by
      cases cs with
      | nil => simpa using hs
      | cons d ds =>
        intro x hx
        simp only [List.map_cons, cellsText_cons, Cell.spaced, List.cons_append, List.nil_append,
          List.head?_cons, Option.some.injEq] at hx
        rw [← hx]
        rfl
    exact .cons (.cons (.blank rfl) (.nil _)) hw (hr.before_blank hnext) ih

/-- The text of tokens printed as a space before each. -/
lemma spaced_toList (ws : List (List Char)) :
    (" " ++ " ".intercalate (ws.map String.ofList)).toList =
      ws.flatMap (' ' :: ·) ++ (if ws = [] then [' '] else []) := by
  rw [String.toList_append, String.toList_intercalate, List.map_map]
  have hid : String.toList ∘ String.ofList = id := funext fun _ => String.toList_ofList
  have hsp : " ".toList = [' '] := by decide
  rw [hid, List.map_id, hsp]
  induction ws with
  | nil => rfl
  | cons w ws ih =>
    cases ws with
    | nil => simp
    | cons w' ws' =>
      simp only [reduceCtorEq, if_false, List.append_nil] at ih ⊢
      rw [List.intercalate_cons_cons, List.flatMap_cons, ← ih]
      simp

/-- The kinds and texts of the tokens of cells are those of the cells. -/
lemma cellTokens_kinds_texts (s : List Char) (cs : List Cell) (off : Nat) (pos : Position) :
    (cellTokens s cs off pos).map (fun t => (t.kind, t.text)) =
      cs.map fun c => (c.kind, String.ofList c.word) := by
  induction cs generalizing off pos with
  | nil => rfl
  | cons c cs ih => simp [cellTokens, ih]

/-- Lexing the texts of the tokens of a text, a space before each, gives tokens of the same
kinds and texts. -/
theorem tokenize_spaced_texts {S : String} {ts : Array Token} (h : tokenize S = .ok ts) :
    ∃ ts', tokenize (" " ++ " ".intercalate (ts.toList.map Token.text)) = .ok ts' ∧
      ts'.toList.map (fun t => (t.kind, t.text)) = ts.toList.map (fun t => (t.kind, t.text)) := by
  obtain ⟨pre, cs, last, -, -, hr, -, hts⟩ := tokenize_cells h
  have htexts : ts.toList.map Token.text = (cs.map Cell.word).map String.ofList := by
    have := congrArg (List.map Prod.snd) (cellTokens_kinds_texts last cs (byteSize pre) {})
    simpa [← hts, Function.comp_def] using this
  -- the printed text is the cells one space apart, or a lone space when there are none
  let last' : List Char := if cs = [] then [' '] else []
  have hblank : ∀ x, last'.head? = some x → isBlank x = true := by
    intro x hx
    by_cases hcs : cs = [] <;> simp [last', hcs] at hx
    rw [← hx]
    rfl
  have htext : (" " ++ " ".intercalate (ts.toList.map Token.text)).toList =
      [] ++ cellsText (cs.map Cell.spaced) ++ last' := by
    rw [htexts, spaced_toList]
    simp [last', cellsText, List.flatMap_map, Cell.spaced]
  have hlead : Lead [] (cellsText (cs.map Cell.spaced) ++ last') := by
    refine .inr ⟨rfl, ?_⟩
    cases cs <;> simp [last', Cell.spaced]
  have hlast : Incidental last' none := by
    by_cases hcs : cs = []
    · simpa [last', hcs] using Incidental.cons (.blank rfl) (.nil none)
    · simpa [last', hcs] using Incidental.nil none
  refine ⟨_, tokenize_of_cells htext hlead (hr.spaced hblank) hlast, ?_⟩
  rw [List.toList_toArray, cellTokens_kinds_texts, hts, cellTokens_kinds_texts, List.map_map]
  rfl

lemma tokenize_conditional_point_number : tokenize "a?.5:b" = .ok
    #[⟨.identifier, "a", ⟨0, 1⟩, ⟨⟨1, 1⟩, ⟨1, 2⟩⟩⟩, ⟨.punctuator, "?", ⟨1, 2⟩, ⟨⟨1, 2⟩, ⟨1, 3⟩⟩⟩,
      ⟨.numeric, ".5", ⟨2, 4⟩, ⟨⟨1, 3⟩, ⟨1, 5⟩⟩⟩, ⟨.punctuator, ":", ⟨4, 5⟩, ⟨⟨1, 5⟩, ⟨1, 6⟩⟩⟩,
      ⟨.identifier, "b", ⟨5, 6⟩, ⟨⟨1, 6⟩, ⟨1, 7⟩⟩⟩] := by
  simp +decide [tokenize, lexFrom, Lexeme.scan, Position.advance, Position.step,
    Lexical.punctuatorLength, Lexical.punctuators, Char.utf8Size, Lexical.isWordStart,
    Lexical.isWordPart, Lexical.wordKind, Lexical.numberLength, Lexical.numberBodyLength,
    Lexical.decimalLength, Lexical.isDecimalDigit, bind, Except.bind, pure, Except.pure]

/-- The conditional `a?.5:b`, whose `?` stands before a number with a leading point, prints
as `a ? .5 : b` and lexes back to the same tokens. -/
theorem spaced_texts_conditional_point_number :
    tokenize "a?.5:b" = .ok
      #[⟨.identifier, "a", ⟨0, 1⟩, ⟨⟨1, 1⟩, ⟨1, 2⟩⟩⟩, ⟨.punctuator, "?", ⟨1, 2⟩, ⟨⟨1, 2⟩, ⟨1, 3⟩⟩⟩,
        ⟨.numeric, ".5", ⟨2, 4⟩, ⟨⟨1, 3⟩, ⟨1, 5⟩⟩⟩, ⟨.punctuator, ":", ⟨4, 5⟩, ⟨⟨1, 5⟩, ⟨1, 6⟩⟩⟩,
        ⟨.identifier, "b", ⟨5, 6⟩, ⟨⟨1, 6⟩, ⟨1, 7⟩⟩⟩] ∧
    ∃ ts', tokenize " a ? .5 : b" = .ok ts' ∧
      ts'.toList.map (fun t => (t.kind, t.text)) =
        [(.identifier, "a"), (.punctuator, "?"), (.numeric, ".5"), (.punctuator, ":"),
          (.identifier, "b")] :=
  ⟨tokenize_conditional_point_number, by
    simpa using tokenize_spaced_texts tokenize_conditional_point_number⟩

end DotLint
