import Mathlib.Tactic.Lemma
import Mathlib.Tactic.SplitIfs
import Mathlib.Logic.Relation
import DotLint.Proofs.TokenTiling

/-!
# Positions are the line and column of byte offsets

The lexer keeps its position as it goes, character by character. This module gives the
position of a byte offset in closed form, by stepping over the UTF-8 bytes of the text from
where lexing starts: a line feed, and a carriage return that no line feed follows, start a
new line; a carriage return before a line feed and a continuation byte (`10xxxxxx`) leave the
position as it is; every other byte moves one column on. A byte-order mark is recognised by
its three bytes EF BB BF.

Stepping over the bytes of a character is stepping over the character (`advanceBytes_encode`):
its first byte is a line break exactly when the character is one, and its other bytes are
continuation bytes. The lexer is then described by the rounds of its loop (`LexState.Step`),
each of which keeps the position equal to the closed form at the offset (`Consistent`); so do
all states it reaches. Hence

* every token starts and ends at the positions of its start and end offsets;
* an error is reported at the position of the offset where the lexer meets the string,
  comment, number or character it cannot read.
-/

namespace DotLint

/-! ## Bytes -/

/-- The bytes of a text's UTF-8 encoding. -/
def utf8Bytes (s : String) : List UInt8 := s.toUTF8.data.toList

/-- The UTF-8 encoding of a list of characters. -/
def encode (cs : List Char) : List UInt8 := cs.flatMap String.utf8EncodeChar

/-- Whether a byte continues a UTF-8 sequence: its two top bits are `10`. -/
def isContinuation (b : UInt8) : Bool := b &&& 0xC0 == 0x80

namespace Position

/-- Steps over the byte `b`, given the byte after it: a line feed, and a carriage return that
no line feed follows, start a new line; a carriage return before a line feed and a
continuation byte leave the position; any other byte moves one column on. -/
def stepByte (p : Position) (b : UInt8) (next : Option UInt8) : Position :=
  if b = 0x0A then ⟨p.line + 1, 1⟩
  else if b = 0x0D then (if next = some 0x0A then p else ⟨p.line + 1, 1⟩)
  else if isContinuation b then p
  else ⟨p.line, p.column + 1⟩

/-- Steps over the first `n` bytes of `bs`, each seeing the byte after it. -/
def advanceBytes (p : Position) : Nat → List UInt8 → Position
  | 0, _ => p
  | _ + 1, [] => p
  | n + 1, b :: rest => (p.stepByte b rest.head?).advanceBytes n rest

end Position

/-- Where lexing starts in a text of bytes `bs`: after the three bytes EF BB BF of a
byte-order mark, else at the start. -/
def byteStart (bs : List UInt8) : Nat := if bs.take 3 = [0xEF, 0xBB, 0xBF] then 3 else 0

/-- The line and column of byte offset `o` of `s`: the position reached from line 1, column 1
by stepping over the bytes of `s` from where lexing starts up to `o`. -/
def positionAt (s : String) (o : Nat) : Position :=
  let bs := utf8Bytes s
  ({} : Position).advanceBytes (o - byteStart bs) (bs.drop (byteStart bs))

/-! ## The bytes of a character -/

lemma utf8Bytes_eq (s : String) : utf8Bytes s = encode s.toList := by
  unfold utf8Bytes encode
  conv => lhs; rw [← String.ofList_toList (s := s)]
  rw [String.toUTF8_eq_toByteArray, String.toByteArray_ofList]
  exact List.toList_data_toByteArray

@[simp] lemma encode_nil : encode [] = [] := rfl

@[simp] lemma encode_cons (c : Char) (cs : List Char) :
    encode (c :: cs) = String.utf8EncodeChar c ++ encode cs := by
  simp [encode]

@[simp] lemma encode_append (a b : List Char) : encode (a ++ b) = encode a ++ encode b := by
  simp [encode]

@[simp] lemma length_encode (cs : List Char) : (encode cs).length = byteSize cs := by
  induction cs with
  | nil => rfl
  | cons c cs ih => simp [ih]

lemma isContinuation_iff (b : UInt8) :
    isContinuation b = true ↔ 128 ≤ b.toNat ∧ b.toNat < 192 := by
  have hb := b.toNat_lt
  have key : ∀ n < 256, (n &&& 192 = 128 ↔ 128 ≤ n ∧ n < 192) := by decide +kernel
  rw [isContinuation, beq_iff_eq, ← UInt8.toNat_inj, UInt8.toNat_and]
  exact key _ hb

/-- A character's encoding is a first byte, which is the character itself below 128 and at
least 192 otherwise, then continuation bytes, none below 128. -/
lemma utf8EncodeChar_bytes (c : Char) : ∃ b tail, String.utf8EncodeChar c = b :: tail ∧
    (c.toNat < 128 → b.toNat = c.toNat ∧ tail = []) ∧ (128 ≤ c.toNat → 192 ≤ b.toNat) ∧
    ∀ x ∈ tail, 128 ≤ x.toNat ∧ x.toNat < 192 := by
  have hv : c.val.toNat = c.toNat := rfl
  unfold String.utf8EncodeChar
  simp only [hv]
  split_ifs <;> refine ⟨_, _, rfl, ?_, ?_, ?_⟩ <;> simp [UInt8.toNat_ofNat'] <;> omega

/-- The first byte of an encoded text is a line feed exactly when its first character is. -/
lemma head?_encode_eq_lf (cs : List Char) :
    (encode cs).head? = some 0x0A ↔ cs.head? = some '\n' := by
  cases cs with
  | nil => simp
  | cons d ds =>
    obtain ⟨b, tail, henc, hascii, hhigh, -⟩ := utf8EncodeChar_bytes d
    simp only [encode_cons, henc, List.cons_append, List.head?_cons, Option.some.injEq]
    rw [← UInt8.toNat_inj, ← Char.toNat_inj]
    by_cases hd : d.toNat < 128
    · rw [(hascii hd).1]
      rfl
    · have := hhigh (by omega)
      constructor <;> intro h <;> simp_all

lemma advanceBytes_add (p : Position) (a b : Nat) (bs : List UInt8) :
    p.advanceBytes (a + b) bs = (p.advanceBytes a bs).advanceBytes b (bs.drop a) := by
  induction a generalizing p bs with
  | zero => simp [Position.advanceBytes]
  | succ a ih =>
    cases bs with
    | nil => cases b <;> simp [Position.advanceBytes]
    | cons x rest =>
      rw [show a + 1 + b = (a + b) + 1 by omega]
      simp [Position.advanceBytes, ih]

/-- Continuation bytes leave the position as it is. -/
lemma advanceBytes_continuation (p : Position) (tail rest : List UInt8)
    (h : ∀ x ∈ tail, 128 ≤ x.toNat ∧ x.toNat < 192) :
    p.advanceBytes tail.length (tail ++ rest) = p := by
  induction tail with
  | nil => simp [Position.advanceBytes]
  | cons x tail ih =>
    obtain ⟨hlo, hhi⟩ := h x (by simp)
    have hcont : isContinuation x = true := (isContinuation_iff x).2 ⟨hlo, hhi⟩
    have hlf : x ≠ 0x0A := fun hx => by subst hx; simp at hlo
    have hcr : x ≠ 0x0D := fun hx => by subst hx; simp at hlo
    simp only [List.length_cons, List.cons_append, Position.advanceBytes, Position.stepByte,
      hlf, hcr, hcont, ↓reduceIte]
    exact ih fun y hy => h y (by simp [hy])

/-- Stepping over the bytes of a character, before the bytes of the characters after it, is
stepping over the character. -/
lemma advanceBytes_char (p : Position) (c : Char) (cs : List Char) :
    p.advanceBytes c.utf8Size (String.utf8EncodeChar c ++ encode cs) = p.step c cs.head? := by
  obtain ⟨b, tail, henc, hascii, hhigh, htail⟩ := utf8EncodeChar_bytes c
  have hsize : c.utf8Size = tail.length + 1 := by
    rw [← String.length_utf8EncodeChar, henc]
    rfl
  rw [hsize, henc, List.cons_append, Position.advanceBytes, advanceBytes_continuation _ _ _ htail]
  by_cases hc : c.toNat < 128
  · -- one byte, the character itself
    obtain ⟨hb, rfl⟩ := hascii hc
    have hlf : b = 0x0A ↔ c = '\n' := by rw [← UInt8.toNat_inj, ← Char.toNat_inj, hb]; rfl
    have hcr : b = 0x0D ↔ c = '\r' := by rw [← UInt8.toNat_inj, ← Char.toNat_inj, hb]; rfl
    have hnc : isContinuation b = false := by
      cases h : isContinuation b
      · rfl
      · have := (isContinuation_iff b).1 h
        omega
    simp only [List.nil_append, Position.stepByte, Position.step, hlf, hcr, hnc,
      head?_encode_eq_lf, Bool.false_eq_true, ↓reduceIte]
  · -- several bytes: the first moves one column on, the others are continuation bytes
    have hb := hhigh (by omega)
    have hlf : b ≠ 0x0A := fun h => by subst h; simp at hb
    have hcr : b ≠ 0x0D := fun h => by subst h; simp at hb
    have hnc : isContinuation b = false := by
      cases h : isContinuation b
      · rfl
      · have := (isContinuation_iff b).1 h
        omega
    have hclf : c ≠ '\n' := fun h => by subst h; simp at hc
    have hccr : c ≠ '\r' := fun h => by subst h; simp at hc
    simp [Position.stepByte, Position.step, hlf, hcr, hnc, hclf, hccr]

/-- Stepping over the bytes of the first `k` characters of a text is stepping over those
characters. -/
lemma advanceBytes_encode (p : Position) (k : Nat) (cs : List Char) :
    p.advanceBytes (byteSize (cs.take k)) (encode cs) = p.advance k cs := by
  induction k generalizing p cs with
  | zero => simp [Position.advanceBytes]
  | succ k ih =>
    cases cs with
    | nil => simp [Position.advanceBytes, Position.advance]
    | cons c rest =>
      rw [List.take_succ_cons, byteSize_cons, advanceBytes_add, encode_cons, advanceBytes_char,
        ← String.length_utf8EncodeChar, List.drop_left, ih]
      rfl

/-! ## The byte-order mark -/

/-- The three bytes EF BB BF start a text exactly when its first character is the byte-order
mark. -/
lemma byteStart_eq_lexStart (s : String) : byteStart (utf8Bytes s) = lexStart s := by
  rw [utf8Bytes_eq, byteStart, lexStart]
  cases hs : s.toList with
  | nil => simp
  | cons c cs =>
    by_cases hc : c = '\uFEFF'
    · subst hc
      simp [show String.utf8EncodeChar '\uFEFF' = [0xEF, 0xBB, 0xBF] by decide]
    · simp only [encode_cons, List.head?_cons, Option.some.injEq, hc, ↓reduceIte,
        ite_eq_right_iff]
      intro h
      apply absurd hc
      -- only the character FEFF is encoded as EF BB BF
      have hv : c.val.toNat = c.toNat := rfl
      have hnat := congrArg (List.map UInt8.toNat) h
      unfold String.utf8EncodeChar at hnat
      simp only [hv] at hnat
      rw [← Char.toNat_inj, show ('\uFEFF' : Char).toNat = 65279 from rfl]
      split_ifs at hnat <;> simp [UInt8.toNat_ofNat'] at hnat <;> omega

/-- The byte offset that `positionAt` counts from, on a text that is `pre ++ cs` with `pre`
skipped by the lexer, is the byte size of `pre`. -/
lemma positionAt_eq_advance {s : String} {pre cs : List Char} (hs : s.toList = pre ++ cs)
    (hpre : byteSize pre = lexStart s) (k : Nat) :
    positionAt s (lexStart s + byteSize (cs.take k)) = ({} : Position).advance k cs := by
  have hstart := byteStart_eq_lexStart s
  have hbytes : (utf8Bytes s).drop (lexStart s) = encode cs := by
    rw [utf8Bytes_eq, hs, encode_append, ← hpre, ← length_encode, List.drop_left]
  simp only [positionAt, hstart, hbytes, Nat.add_sub_cancel_left]
  exact advanceBytes_encode _ k cs

/-! ## The rounds of the lexer -/

/-- What the lexer has still to read: the unread text, and the byte offset and the position
where it starts. -/
structure LexState where
  rest : List Char
  offset : Nat
  position : Position

namespace LexState

/-- The state `tokenize` starts in: the text after a leading byte-order mark from offset 3,
or the whole text from offset 0; at line 1, column 1. -/
def initial (s : String) : LexState :=
  match s.toList with
  | '\uFEFF' :: cs => ⟨cs, 3, {}⟩
  | cs => ⟨cs, 0, {}⟩

/-- One round of the lexer: it steps over the incidental text or the token that it scans at
the front of the unread text. -/
inductive Step : LexState → LexState → Prop
  | incidental {c : Char} {rest : List Char} {off : Nat} {pos : Position} {n : Nat} :
      Lexeme.scan c rest = .incidental n →
      Step ⟨c :: rest, off, pos⟩ ⟨rest.drop n, off + byteSize ((c :: rest).take (n + 1)),
        pos.advance (n + 1) (c :: rest)⟩
  | token {c : Char} {rest : List Char} {off : Nat} {pos : Position} {kind : TokenKind}
      {n : Nat} :
      Lexeme.scan c rest = .token kind n →
      Step ⟨c :: rest, off, pos⟩ ⟨rest.drop n, off + byteSize ((c :: rest).take (n + 1)),
        pos.advance (n + 1) (c :: rest)⟩

/-- The states the lexer reaches on `s`. -/
def Reaches (s : String) (st : LexState) : Prop := Relation.ReflTransGen Step (initial s) st

/-- A state whose offset and position are those of a prefix of the text the lexer reads: its
byte size past the start, and the position reached by stepping over it. -/
def Consistent (s : String) (st : LexState) : Prop :=
  ∃ pre, (initial s).rest = pre ++ st.rest ∧
    st.offset = (initial s).offset + byteSize pre ∧
    st.position = ({} : Position).advance pre.length (initial s).rest

/-- The lexer starts after the bytes it skips, at line 1, column 1. -/
lemma initial_eq (s : String) : ∃ pre, s.toList = pre ++ (initial s).rest ∧
    byteSize pre = lexStart s ∧ (initial s).offset = lexStart s ∧ (initial s).position = {} := by
  unfold initial lexStart
  split
  · rename_i cs hs
    have hstart : (if s.toList.head? = some '\uFEFF' then 3 else 0) = 3 := by simp [hs]
    rw [hstart]
    exact ⟨['\uFEFF'], hs, by decide, rfl, rfl⟩
  · rename_i cs hcs
    have hhead : s.toList.head? ≠ some '\uFEFF' := by
      cases hl : s.toList with
      | nil => simp
      | cons d ds =>
        simp only [List.head?_cons, ne_eq, Option.some.injEq]
        exact fun hd => hcs ds (by rw [hl, hd])
    exact ⟨[], rfl, by simp [hhead], by simp [hhead], rfl⟩

lemma consistent_initial (s : String) : Consistent s (initial s) :=
  ⟨[], rfl, rfl, by simp [(initial_eq s).choose_spec.2.2.2]⟩

/-- A consistent state is at the position of its offset. -/
lemma Consistent.position_eq {s : String} {st : LexState} (h : Consistent s st) :
    st.position = positionAt s st.offset := by
  obtain ⟨pre, hrest, hoff, hpos⟩ := h
  obtain ⟨lead, hs, hlead, hstart, -⟩ := initial_eq s
  have htake : (initial s).rest.take pre.length = pre := by simp [hrest]
  have hat := positionAt_eq_advance hs hlead pre.length
  rw [htake] at hat
  rw [hpos, hoff, hstart, hat]

/-- One round keeps a state consistent: it steps over a further stretch of the text. -/
lemma Consistent.step {s : String} {st st' : LexState} (h : Consistent s st)
    (hstep : Step st st') : Consistent s st' := by
  obtain ⟨pre, hrest, hoff, hpos⟩ := h
  cases hstep with
  | @incidental c rest off pos n _ | @token c rest off pos _ n _ =>
    -- the stretch stepped over is the first `n + 1` characters of the unread text
    simp only at hrest hoff hpos
    refine ⟨pre ++ (c :: rest).take (n + 1), ?_, ?_, ?_⟩
    · rw [hrest, List.append_assoc]
      simp
    · simp only [byteSize_append, hoff]
      omega
    · simp only
      rw [hpos, hrest, List.length_append, Position.advance_add _ pre.length, List.drop_left,
        Position.advance_length_take]

/-- Every state the lexer reaches is consistent. -/
lemma Reaches.consistent {s : String} {st : LexState} (h : Reaches s st) : Consistent s st := by
  induction h with
  | refl => exact consistent_initial s
  | tail _ hstep ih => exact ih.step hstep

end LexState

open LexState

/-- A run of the lexer from a reached state: every token it adds was read by a round between
two reached states, spanning their offsets and positions; and if it fails, it fails at a
reached state where the front of the unread text cannot be read, at that state's position. -/
lemma lexFrom_rounds {s : String} {cs : List Char} {off : Nat} {pos : Position}
    {acc : Array Token} (hr : Reaches s ⟨cs, off, pos⟩) :
    (∀ res, lexFrom cs off pos acc = .ok res → ∀ t ∈ res.toList, t ∈ acc.toList ∨
      ∃ st₁ st₂, Reaches s st₁ ∧ Step st₁ st₂ ∧ t.span = ⟨st₁.offset, st₂.offset⟩ ∧
        t.loc = ⟨st₁.position, st₂.position⟩) ∧
    (∀ e, lexFrom cs off pos acc = .error e → ∃ st, Reaches s st ∧
      (∃ c rest, st.rest = c :: rest ∧ Lexeme.scan c rest = .fault e.kind) ∧
      e.position = st.position) := by
  fun_induction lexFrom cs off pos acc with
  | case1 off pos acc =>
    refine ⟨fun res h t ht => ?_, fun e h => ?_⟩
    · cases h
      exact .inl ht
    · cases h
  | case2 off pos acc c rest n hscan ih =>
    -- incidental text: one round, then the rest of the run
    exact ih (hr.tail (.incidental hscan))
  | case3 off pos acc c rest kind n hscan text stop stopPos ih =>
    -- a token: one round reads it, then the rest of the run
    have hstep := @Step.token c rest off pos kind n hscan
    obtain ⟨ihok, iherr⟩ := ih (hr.tail hstep)
    refine ⟨fun res h t ht => ?_, iherr⟩
    rcases ihok res h t ht with ht | ht
    · rcases Array.mem_push.1 (Array.mem_toList_iff.1 ht) with ht | rfl
      · exact .inl (Array.mem_toList_iff.2 ht)
      · exact .inr ⟨_, _, hr, hstep, rfl, rfl⟩
    · exact .inr ht
  | case4 off pos acc c rest kind hscan =>
    -- a fault at the front of the unread text
    refine ⟨fun res h => ?_, fun e h => ?_⟩
    · cases h
    · cases h
      exact ⟨_, hr, ⟨c, rest, rfl, hscan⟩, rfl⟩

/-! ## Positions of tokens and errors -/

lemma tokenize_eq_initial (s : String) :
    tokenize s = lexFrom (initial s).rest (initial s).offset (initial s).position #[] := by
  unfold tokenize initial
  -- both definitions match on the same leading character
  cases hs : s.toList with
  | nil => rfl
  | cons c cs =>
    by_cases hc : c = '\uFEFF'
    · subst hc
      rfl
    · simp [hc]

/-- Every token of a text starts and ends at the line and column of its start and end
offsets; and an error is reported at the line and column of the offset where the lexer,
having read everything before it, meets a string, comment, number or character that it cannot
read. -/
theorem tokenize_positions (s : String) :
    (∀ ts, tokenize s = .ok ts → ∀ t ∈ ts,
      t.loc.start = positionAt s t.span.start ∧ t.loc.stop = positionAt s t.span.stop) ∧
    (∀ e, tokenize s = .error e → ∃ st, Relation.ReflTransGen Step (initial s) st ∧
      (∃ c rest, st.rest = c :: rest ∧ Lexeme.scan c rest = .fault e.kind) ∧
      e.position = positionAt s st.offset) := by
  have hr : Reaches s ⟨(initial s).rest, (initial s).offset, (initial s).position⟩ := .refl
  have hrounds := @lexFrom_rounds s _ _ _ #[] hr
  rw [← tokenize_eq_initial] at hrounds
  refine ⟨fun ts h t ht => ?_, fun e h => ?_⟩
  · rcases hrounds.1 ts h t (Array.mem_toList_iff.2 ht) with ht' | ⟨st₁, st₂, h₁, hstep, hspan, hloc⟩
    · simp at ht'
    · -- both ends of the round are reached states, so both are consistent
      have h₂ : Reaches s st₂ := h₁.tail hstep
      rw [hspan, hloc]
      exact ⟨h₁.consistent.position_eq, h₂.consistent.position_eq⟩
  · obtain ⟨st, hst, hfault, hpos⟩ := hrounds.2 e h
    exact ⟨st, hst, hfault, hpos.trans hst.consistent.position_eq⟩

/-- A two-byte character, a carriage return and line feed counted as one line break, and a
string left open on the second line. -/
theorem tokenize_positions_crlf :
    (tokenize "é\r\nx" = .ok #[⟨.identifier, "é", ⟨0, 2⟩, ⟨⟨1, 1⟩, ⟨1, 2⟩⟩⟩,
        ⟨.identifier, "x", ⟨4, 5⟩, ⟨⟨2, 1⟩, ⟨2, 2⟩⟩⟩] ∧
      ∀ t ∈ #[(⟨.identifier, "é", ⟨0, 2⟩, ⟨⟨1, 1⟩, ⟨1, 2⟩⟩⟩ : Token),
          ⟨.identifier, "x", ⟨4, 5⟩, ⟨⟨2, 1⟩, ⟨2, 2⟩⟩⟩],
        t.loc.start = positionAt "é\r\nx" t.span.start ∧
          t.loc.stop = positionAt "é\r\nx" t.span.stop) ∧
    (tokenize "x\r\n'y" = .error ⟨.unterminatedString, ⟨2, 1⟩⟩ ∧
      ∃ st, Relation.ReflTransGen Step (initial "x\r\n'y") st ∧
        (∃ c rest, st.rest = c :: rest ∧ Lexeme.scan c rest = .fault .unterminatedString) ∧
        (⟨2, 1⟩ : Position) = positionAt "x\r\n'y" st.offset) := by
  have hok : tokenize "é\r\nx" = .ok #[⟨.identifier, "é", ⟨0, 2⟩, ⟨⟨1, 1⟩, ⟨1, 2⟩⟩⟩,
      ⟨.identifier, "x", ⟨4, 5⟩, ⟨⟨2, 1⟩, ⟨2, 2⟩⟩⟩] := by
    simp +decide [tokenize, lexFrom, Lexeme.scan, Lexical.isWordStart, Lexical.isWordPart,
      Lexical.wordKind, Position.advance, Position.step, Char.utf8Size]
  have herr : tokenize "x\r\n'y" = .error ⟨.unterminatedString, ⟨2, 1⟩⟩ := by
    simp +decide [tokenize, lexFrom, Lexeme.scan, Lexical.isWordStart, Lexical.isWordPart,
      Lexical.wordKind, Position.advance, Position.step, Char.utf8Size, Lexical.stringRest]
  exact ⟨⟨hok, (tokenize_positions _).1 _ hok⟩, ⟨herr, (tokenize_positions _).2 _ herr⟩⟩

end DotLint
