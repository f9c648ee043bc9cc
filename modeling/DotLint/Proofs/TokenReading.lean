import Mathlib
import DotLint.Proofs.TokenTiling

/-!
# What the lexer reads as one token, and what may follow it

A fix moves a dot across blanks and comments, so the text that follows a token changes.
This module says when the lexer still reads the same token. `ReadsWhole w kind r` says that
the text `w`, followed by `r`, is read as one token of kind `kind` that takes all of `w`.

Every reader looks past the end of its token at most at the character that follows it, and
a punctuator at the two that follow it:

* `ReadsWhole.congr`: the same token is read when the next character is the same, and the
  one after it as well where it can matter (after a point, or when it is `=`);
* `ReadsWhole.before`: a token that is no dot, `?` or `/` is still read when a blank, a
  slash, `?` or a point follows it, the point not after a plain decimal integer;
* `readsWhole_dot`: a dot is read when a blank, a slash or a word character follows it.

The readers are taken one at a time: a string ends at its closing quote, a number reads
nothing that is not a word character or a point, a word stops at the first character that
is not a word character, and a punctuator is the longest one of the table at the front.
-/

namespace DotLint

open Lexical

namespace Lexical

/-! ## Character classes -/

/-- A word starts with no blank, slash, quote, digit, point or question mark. -/
lemma isWordStart_classes {c : Char} (h : isWordStart c = true) :
    isBlank c = false ∧ c ≠ '/' ∧ c ≠ '"' ∧ c ≠ '\'' ∧ c.isDigit = false ∧ c ≠ '.' ∧
      c ≠ '?' := by
  simp only [isWordStart, isBlank, Char.isDigit, Char.isAlpha, Char.isUpper, Char.isLower,
    Bool.or_eq_true, Bool.and_eq_true, decide_eq_true_eq, Bool.or_eq_false_iff,
    Bool.and_eq_false_iff, decide_eq_false_iff_not, ne_eq] at *
  simp only [Char.ext_iff, UInt32.le_iff_toNat_le, ← UInt32.toNat_inj, Char.toNat] at *
  simp at *
  omega

/-- A digit is no blank, slash or quote. -/
lemma isDigit_classes {c : Char} (h : c.isDigit = true) :
    isBlank c = false ∧ c ≠ '/' ∧ c ≠ '"' ∧ c ≠ '\'' := by
  simp only [isBlank, Char.isDigit, Bool.and_eq_true, decide_eq_true_eq,
    Bool.or_eq_false_iff, decide_eq_false_iff_not, ne_eq] at *
  simp only [Char.ext_iff, UInt32.le_iff_toNat_le, ← UInt32.toNat_inj] at *
  simp at *
  omega

lemma isWordPart_of_isDigit {c : Char} (h : c.isDigit = true) : isWordPart c = true := by
  simp [isWordPart, h]

lemma isWordPart_of_isDecimalDigit {c : Char} (h : isDecimalDigit c = true) :
    isWordPart c = true := by
  simp only [isDecimalDigit, Bool.or_eq_true, decide_eq_true_eq] at h
  rcases h with h | rfl
  · exact isWordPart_of_isDigit h
  · decide

lemma isWordPart_of_isRadixDigit {c : Char} {radix : Nat} (h : isRadixDigit radix c = true) :
    isWordPart c = true := by
  simp only [isWordPart, isWordStart, isRadixDigit, Char.isDigit, Char.isAlpha, Char.isUpper,
    Char.isLower, Bool.or_eq_true, Bool.and_eq_true, decide_eq_true_eq] at *
  by_cases hr : radix = 16 <;> simp only [hr, if_true, if_false, Bool.or_eq_true,
    Bool.and_eq_true, decide_eq_true_eq] at h <;>
  simp only [Char.ext_iff, UInt32.le_iff_toNat_le, ← UInt32.toNat_inj, Char.le_def] at * <;>
  simp at * <;>
  omega

/-- The letters that select a radix, in either case. -/
lemma eq_of_radixOf {c : Char} {radix : Nat} (h : radixOf c = some radix) :
    c = 'x' ∨ c = 'X' ∨ c = 'o' ∨ c = 'O' ∨ c = 'b' ∨ c = 'B' := by
  unfold radixOf at h
  have hl : c.toLower = 'x' ∨ c.toLower = 'o' ∨ c.toLower = 'b' := by
    split at h <;> simp_all
  -- the lower case of an upper-case letter is 32 code points above it
  simp only [Char.toLower] at hl
  split at hl <;>
  simp only [Char.ext_iff, ← UInt32.toNat_inj] at * <;>
  simp at * <;>
  simp only [UInt32.le_iff_toNat_le] at * <;>
  simp at * <;>
  omega

/-- The letters that select a radix are word characters. -/
lemma isWordPart_of_radixOf {c : Char} {radix : Nat} (h : radixOf c = some radix) :
    isWordPart c = true := by
  rcases eq_of_radixOf h with rfl | rfl | rfl | rfl | rfl | rfl <;> decide

/-- The letters that select a radix are no decimal digits. -/
lemma isDecimalDigit_of_radixOf {c : Char} {radix : Nat} (h : radixOf c = some radix) :
    isDecimalDigit c = false := by
  rcases eq_of_radixOf h with rfl | rfl | rfl | rfl | rfl | rfl <;> decide

/-- A blank is no word character, slash, point, `=` or digit. -/
lemma isBlank_classes {c : Char} (h : isBlank c = true) :
    isWordPart c = false ∧ c ≠ '/' ∧ c ≠ '.' ∧ c ≠ '=' ∧ c.isDigit = false := by
  simp only [isBlank, Bool.or_eq_true, decide_eq_true_eq] at h
  rcases h with ((((rfl | rfl) | rfl) | rfl) | rfl) | rfl <;> decide

/-! ## Readers that take at least one character -/

/-- A decimal literal that starts with a digit or a point takes at least one character. -/
lemma decimalLength_pos {c : Char} {rest : List Char} {m : Nat}
    (hc : c.isDigit = true ∨ c = '.') (h : decimalLength (c :: rest) = .ok m) : 0 < m := by
  unfold decimalLength at h
  dsimp only at h
  -- every result counts the integer digits and the fraction first
  rcases hc with hc | rfl
  · have hi : 0 < ((c :: rest).takeWhile isDecimalDigit).length := by
      simp [isDecimalDigit, hc]
    split at h <;> (try split_ifs at h) <;> cases h <;> omega
  · have hd : isDecimalDigit '.' = false := rfl
    simp only [List.takeWhile_cons, hd, Bool.false_eq_true, if_false, List.length_nil,
      List.drop_zero] at h
    split at h <;> (try split_ifs at h) <;> cases h <;> omega

/-- A number is its body when no word character follows the body. -/
lemma numberLength_eq_ok {cs : List Char} {m : Nat} :
    numberLength cs = .ok m ↔
      numberBodyLength cs = .ok m ∧ ∀ x, (cs.drop m).head? = some x → isWordPart x = false := by
  unfold numberLength
  cases hb : numberBodyLength cs with
  | error e => simp [bind, Except.bind]
  | ok n =>
    simp only [bind, Except.bind, Except.ok.injEq]
    split
    · rename_i d rest hd
      split
      · rename_i hw
        simp only [reduceCtorEq, false_iff, not_and]
        rintro rfl hx
        simp [hd, hw] at hx
      · rename_i hw
        simp only [pure, Except.pure, Except.ok.injEq]
        constructor
        · rintro rfl
          exact ⟨rfl, fun x hx => by simp_all⟩
        · rintro ⟨rfl, -⟩
          rfl
    · rename_i hd
      simp only [pure, Except.pure, Except.ok.injEq]
      constructor
      · rintro rfl
        exact ⟨rfl, fun x hx => by simp [hd] at hx⟩
      · exact fun h => h.1

/-- A number that starts with a digit or a point takes at least one character. -/
lemma numberLength_pos {c : Char} {rest : List Char} {m : Nat}
    (hc : c.isDigit = true ∨ c = '.') (h : numberLength (c :: rest) = .ok m) : 0 < m := by
  have hbody := (numberLength_eq_ok.1 h).1
  unfold numberBodyLength at hbody
  split at hbody
  · split at hbody
    · -- a radix literal takes its prefix
      dsimp only at hbody
      split_ifs at hbody
      cases hbody
      omega
    · exact decimalLength_pos hc hbody
  · exact decimalLength_pos hc hbody

/-- Every punctuator of the table takes one to three characters. -/
lemma punctuators_length : ∀ p ∈ punctuators, 0 < p.toList.length ∧ p.toList.length ≤ 3 := by
  decide

/-- A punctuator read at the front of `cs` is one of the table that fits there, read whole or,
for a `?.`, its `?` alone. -/
lemma punctuatorLength_eq_some {cs : List Char} {m : Nat} (h : punctuatorLength cs = some m) :
    ∃ p ∈ punctuators, p.toList <+: cs ∧ (m = p.length ∨ p = "?." ∧ m = 1) := by
  unfold punctuatorLength at h
  split at h
  · cases h
  · rename_i p hp
    obtain ⟨hpre, -⟩ := List.find?_eq_some_iff_append.1 hp
    refine ⟨p, List.mem_of_find?_eq_some hp, List.isPrefixOf_iff_prefix.1 hpre, ?_⟩
    split at h
    · rename_i hq
      simp only [Bool.and_eq_true, decide_eq_true_eq] at hq
      exact .inr ⟨hq.1, (Option.some.inj h).symm⟩
    · exact .inl (Option.some.inj h).symm

/-- A punctuator takes at least one character. -/
lemma punctuatorLength_pos {cs : List Char} {m : Nat} (h : punctuatorLength cs = some m) :
    0 < m := by
  obtain ⟨p, hp, -, hm⟩ := punctuatorLength_eq_some h
  rcases hm with rfl | ⟨-, rfl⟩
  · simpa [String.length_toList] using (punctuators_length p hp).1
  · omega

end Lexical

/-! ## What a reader leaves unread -/

namespace Lexical

/-- The text `s` does not go on with a word: it is empty or starts with no word character.
A word, a number and the suffixes and digits inside a number all stop before it. -/
def StopsWord (s : List Char) : Prop := ∀ x, s.head? = some x → isWordPart x = false

lemma StopsWord.decimalDigit {s : List Char} (h : StopsWord s) :
    ∀ x, s.head? = some x → isDecimalDigit x = false := by
  intro x hx
  cases hd : isDecimalDigit x
  · rfl
  · simpa [h x hx] using isWordPart_of_isDecimalDigit hd

lemma StopsWord.radixDigit {s : List Char} (h : StopsWord s) (radix : Nat) :
    ∀ x, s.head? = some x → isRadixDigit radix x = false := by
  intro x hx
  cases hd : isRadixDigit radix x
  · rfl
  · simpa [h x hx] using isWordPart_of_isRadixDigit hd

/-- A run of characters that satisfy `p` ends inside `w` when what follows `w` fails `p`. -/
lemma takeWhile_append_of_stop {p : Char → Bool} {w s : List Char}
    (hs : ∀ x, s.head? = some x → p x = false) : (w ++ s).takeWhile p = w.takeWhile p := by
  rw [List.takeWhile_append]
  split
  · rename_i hlen
    have hw : w.takeWhile p = w :=
      (List.takeWhile_prefix p).eq_of_length hlen
    have hnil : s.takeWhile p = [] := by
      cases s with
      | nil => rfl
      | cons x t => simp [hs x rfl]
    rw [hw, hnil, List.append_nil]
  · rfl

/-! ### Strings -/

lemma stringRest_pos {q : Char} {l : List Char} {n : Nat} (h : stringRest q l = some n) :
    1 ≤ n := by
  fun_induction stringRest q l generalizing n <;> simp_all <;> omega

/-- Text that starts with `p`, cut after at least `p.length` characters: the cut part
starts with `p` too. -/
lemma append_eq_append_of_length_le {α : Type} {x r p t : List α} (h : x ++ r = p ++ t)
    (hp : p.length ≤ x.length) : ∃ x', x = p ++ x' ∧ x' ++ r = t := by
  rcases List.append_eq_append_iff.1 h with ⟨a', rfl, rfl⟩ | ⟨c', rfl, rfl⟩
  · have : a' = [] := List.eq_nil_of_length_eq_zero (by rw [List.length_append] at hp; omega)
    subst this
    exact ⟨[], by simp, by simp⟩
  · exact ⟨c', rfl, rfl⟩

/-- A string literal ends at its closing quote: what follows it is never read. -/
lemma stringRest_append {q : Char} {x r : List Char} {n : Nat}
    (h : stringRest q (x ++ r) = some n) (hn : n ≤ x.length) (r' : List Char) :
    stringRest q (x ++ r') = some n := by
  generalize hl : x ++ r = l at h
  -- each step of the reader takes characters of `x` only, since it ends inside `x`
  fun_induction stringRest q l generalizing x n with
  | case1 => cases h
  | case2 => cases h
  | case3 tail hback ih =>
    -- an escaped carriage return and line feed
    obtain ⟨m, hm, rfl⟩ := Option.map_eq_some_iff.1 h
    have hm1 := stringRest_pos hm
    obtain ⟨x', rfl, hx'⟩ := append_eq_append_of_length_le (p := ['\\', '\r', '\n']) hl
      (by simp; omega)
    have := ih (by simp at hn; omega) hx' hm
    rw [List.append_assoc, stringRest.eq_def]
    simp [this]
  | case4 d tail hnot hback ih =>
    -- any other escaped character
    obtain ⟨m, hm, rfl⟩ := Option.map_eq_some_iff.1 h
    have hm1 := stringRest_pos hm
    obtain ⟨x', rfl, hx'⟩ := append_eq_append_of_length_le (p := ['\\', d]) hl
      (by simp; omega)
    have := ih (by simp at hn; omega) hx' hm
    -- the character after the escaped one is in `x` as well
    obtain ⟨e, x'', rfl⟩ : ∃ e x'', x' = e :: x'' := by
      cases x' with
      | nil => simp at hn; omega
      | cons e x'' => exact ⟨e, x'', rfl⟩
    have hcr : ¬ (d = '\r' ∧ e = '\n') := by
      rintro ⟨rfl, rfl⟩
      exact hnot (x'' ++ r) rfl (by simp [← hx'])
    simp only [List.cons_append, List.nil_append]
    rw [stringRest.eq_def]
    simp only [reduceIte, Char.reduceEq, Bool.or_false, decide_false, Bool.false_eq_true,
      if_true]
    split
    · rename_i _ _ ht
      simp only [List.cons.injEq] at ht
      exact absurd ⟨ht.1, ht.2.1⟩ hcr
    · rename_i _ _ _ _ ht
      simp only [List.cons.injEq] at ht
      obtain ⟨-, rfl⟩ := ht
      simpa using this
    · rename_i _ ht
      simp at ht
  | case5 => cases h
  | case6 tail hbreak hback =>
    cases h
    obtain ⟨x', rfl, -⟩ := append_eq_append_of_length_le (p := [q]) hl (by simpa using hn)
    rw [List.append_assoc, stringRest.eq_def]
    simp [hbreak, hback]
  | case7 c tail hbreak hback hq ih =>
    obtain ⟨m, hm, rfl⟩ := Option.map_eq_some_iff.1 h
    obtain ⟨x', rfl, hx'⟩ := append_eq_append_of_length_le (p := [c]) hl (by simp at hn ⊢; omega)
    have := ih (by simp at hn; omega) hx' hm
    rw [List.append_assoc, stringRest.eq_def]
    simp [hbreak, hback, hq, this]

/-! ### Numbers

`decimalLength` reads the integer digits, the fraction, and then an exponent or the suffix
`n`. The same reading is written here with one function per stage, so that each stage can
be shown to end inside the literal. -/

/-- The fraction of a decimal literal, at the text after its integer digits: how many
characters the point and its digits take, and whether there is none, so that the literal
is an integer. -/
def fractionLength : List Char → Nat × Bool
  | '.' :: r => (1 + (r.takeWhile isDecimalDigit).length, false)
  | _ => (0, true)

/-- The sign of an exponent: one character if it is `+` or `-`. -/
def signLength : List Char → Nat
  | '+' :: _ => 1
  | '-' :: _ => 1
  | _ => 0

/-- The end of the decimal literal of the text `cs`, `k` characters in, at the text `r2`
after its digits and fraction: an exponent, which needs digits, or the suffix `n` on an
integer. -/
def exponentLength (cs : List Char) (k : Nat) (isInteger : Bool) (r2 : List Char) :
    Except (List Char) Nat :=
  match r2 with
  | e :: r =>
    if e = 'e' || e = 'E' then
      let d := ((r.drop (signLength r)).takeWhile isDecimalDigit).length
      if d = 0 then .error (cs.take (k + 1 + signLength r))
      else .ok (k + 1 + signLength r + d)
    else .ok (k + (if isInteger then suffixLength r2 else 0))
  | [] => .ok k

/-- A decimal literal is its integer digits, its fraction and its end. -/
lemma decimalLength_eq (cs : List Char) :
    decimalLength cs =
      exponentLength cs ((cs.takeWhile isDecimalDigit).length +
          (fractionLength (cs.drop (cs.takeWhile isDecimalDigit).length)).1)
        (fractionLength (cs.drop (cs.takeWhile isDecimalDigit).length)).2
        ((cs.drop (cs.takeWhile isDecimalDigit).length).drop
          (fractionLength (cs.drop (cs.takeWhile isDecimalDigit).length)).1) :=
  rfl

lemma fractionLength_of_ne {a : Char} (t : List Char) (ha : a ≠ '.') :
    fractionLength (a :: t) = (0, true) := by
  unfold fractionLength
  split
  · rename_i _ h
    exact absurd (List.cons.inj h).1 ha
  · rfl

/-- The fraction that starts inside a text ends inside it when no digit follows it. -/
lemma fractionLength_append {u s : List Char} (hu : u ≠ [])
    (hs : ∀ x, s.head? = some x → isDecimalDigit x = false) :
    fractionLength (u ++ s) = fractionLength u ∧ (fractionLength u).1 ≤ u.length := by
  obtain ⟨a, t, rfl⟩ := List.exists_cons_of_ne_nil hu
  by_cases ha : a = '.'
  · subst ha
    have : (t.takeWhile isDecimalDigit).length ≤ t.length := (List.takeWhile_prefix _).length_le
    refine ⟨by simp only [List.cons_append, fractionLength, takeWhile_append_of_stop hs], ?_⟩
    simp only [fractionLength, List.length_cons]
    omega
  · rw [List.cons_append, fractionLength_of_ne _ ha, fractionLength_of_ne _ ha]
    exact ⟨rfl, Nat.zero_le _⟩

/-- The sign of an exponent is read at its first character. -/
lemma signLength_cons (g : Char) (t : List Char) :
    signLength (g :: t) = if g = '+' ∨ g = '-' then 1 else 0 := by
  unfold signLength
  split <;> simp_all

/-- The suffix `n` is read at its first character. -/
lemma suffixLength_cons (e : Char) (t : List Char) :
    suffixLength (e :: t) = if e = 'n' then 1 else 0 := by
  unfold suffixLength
  split <;> simp_all

/-- A decimal literal whose digits and fraction are followed by no word character has
ended. -/
lemma exponentLength_stop {cs s : List Char} {k : Nat} {b : Bool} (hs : StopsWord s) :
    exponentLength cs k b s = .ok k := by
  cases s with
  | nil => rfl
  | cons x t =>
    have hx := hs x rfl
    have he : (x = 'e' || x = 'E') = false := by
      cases hxe : (x = 'e' || x = 'E')
      · rfl
      · simp only [Bool.or_eq_true, decide_eq_true_eq] at hxe
        rcases hxe with rfl | rfl <;> exact absurd hx (by decide)
    have hn : x ≠ 'n' := by
      rintro rfl
      exact absurd hx (by decide)
    simp [exponentLength, he, suffixLength_cons, hn]

/-- The end of a decimal literal reads at least up to where it starts. -/
lemma le_of_exponentLength {cs r : List Char} {k m : Nat} {b : Bool}
    (h : exponentLength cs k b r = .ok m) : k ≤ m := by
  unfold exponentLength at h
  split at h
  · dsimp only at h
    split_ifs at h <;> cases h <;> omega
  · cases h
    omega

/-- The end of a decimal literal that reaches the end of `u` reads nothing of what follows
`u` when that is no word character. -/
lemma exponentLength_append {cs cs' u s s' : List Char} {k : Nat} {b : Bool}
    (h : exponentLength cs k b (u ++ s) = .ok (k + u.length)) (hs : StopsWord s)
    (hs' : StopsWord s') : exponentLength cs' k b (u ++ s') = .ok (k + u.length) := by
  cases u with
  | nil =>
    simpa using exponentLength_stop hs'
  | cons e u =>
    simp only [List.cons_append, exponentLength] at h ⊢
    by_cases he : (e = 'e' || e = 'E') = true
    · rw [if_pos he] at h ⊢
      cases u with
      | nil =>
        -- an exponent needs digits, and none of them is in the literal
        split_ifs at h with hd
        all_goals simp only [Except.ok.injEq, List.length_singleton] at h
        omega
      | cons g u =>
        -- the sign and the digits of the exponent lie inside the literal
        have hsl : signLength (g :: u) ≤ (g :: u).length := by
          rw [signLength_cons]; split <;> simp
        have hsg : ∀ t, signLength ((g :: u) ++ t) = signLength (g :: u) := by
          intro t; simp [signLength_cons]
        have hdrop : ∀ t, ((g :: u) ++ t).drop (signLength (g :: u)) =
            (g :: u).drop (signLength (g :: u)) ++ t := fun t =>
          List.drop_append_of_le_length hsl
        simp only [hsg, hdrop, takeWhile_append_of_stop hs.decimalDigit,
          takeWhile_append_of_stop hs'.decimalDigit] at h ⊢
        split_ifs at h ⊢
        exact h
    · -- no exponent: the suffix is read at the first character
      rw [if_neg he] at h ⊢
      simpa only [suffixLength_cons] using h

/-- A decimal literal that ends with the text `w` reads nothing of what follows it when
that is no word character, and no point after a literal of digits only. -/
lemma decimalLength_append {w s s' : List Char} (h : decimalLength (w ++ s) = .ok w.length)
    (hs : StopsWord s) (hs' : StopsWord s')
    (hpt : s'.head? = some '.' → ∃ d ∈ w, isDecimalDigit d = false) :
    decimalLength (w ++ s') = .ok w.length := by
  rw [decimalLength_eq, takeWhile_append_of_stop hs.decimalDigit] at h
  rw [decimalLength_eq, takeWhile_append_of_stop hs'.decimalDigit]
  obtain ⟨i, hi⟩ : ∃ i, (w.takeWhile isDecimalDigit).length = i := ⟨_, rfl⟩
  rw [hi] at h ⊢
  have hle : i ≤ w.length := hi ▸ (List.takeWhile_prefix _).length_le
  rw [List.drop_append_of_le_length hle] at h ⊢
  by_cases hu : w.drop i = []
  · -- `w` is all integer digits: no point follows it, and the literal has ended
    have hall : w.takeWhile isDecimalDigit = w :=
      (List.takeWhile_prefix _).eq_of_length (by have := List.drop_eq_nil_iff.1 hu; omega)
    have hnopt : ∀ x, s'.head? = some x → x ≠ '.' := by
      rintro x hx rfl
      obtain ⟨d, hd, hnd⟩ := hpt hx
      rw [← hall] at hd
      simp [List.mem_takeWhile_imp hd] at hnd
    have hf : fractionLength s' = (0, true) := by
      cases s' with
      | nil => rfl
      | cons x t => exact fractionLength_of_ne t (hnopt x rfl)
    have hiw : i = w.length := by rw [← hi, hall]
    rw [hu, List.nil_append, hf, Nat.add_zero, List.drop_zero, hiw]
    exact exponentLength_stop hs'
  · -- the literal goes on inside `w` after its integer digits
    obtain ⟨hfr, hfle⟩ := fractionLength_append hu hs.decimalDigit
    obtain ⟨hfr', -⟩ := fractionLength_append hu hs'.decimalDigit
    rw [hfr, List.drop_append_of_le_length hfle] at h
    rw [hfr', List.drop_append_of_le_length hfle]
    have hlen : w.length = i + (fractionLength (w.drop i)).1 +
        ((w.drop i).drop (fractionLength (w.drop i)).1).length := by
      simp only [List.length_drop] at hfle ⊢
      omega
    rw [hlen] at h ⊢
    exact exponentLength_append h hs hs'

/-- After a literal of decimal digits only, a point is read as its fraction. -/
lemma lt_of_decimalLength_point {w t : List Char} {m : Nat}
    (hall : ∀ d ∈ w, isDecimalDigit d = true) (h : decimalLength (w ++ '.' :: t) = .ok m) :
    w.length < m := by
  have hpt : ∀ x, ('.' :: t).head? = some x → isDecimalDigit x = false := by
    rintro x ⟨⟩
    decide
  rw [decimalLength_eq, takeWhile_append_of_stop hpt] at h
  have htake : w.takeWhile isDecimalDigit = w := List.takeWhile_eq_self_iff.2 hall
  simp only [htake, List.drop_left', fractionLength] at h
  have := le_of_exponentLength h
  omega

/-- The radix that a literal selects with `0x`, `0o` or `0b` at its front. -/
def radixPrefix : List Char → Option Nat
  | '0' :: x :: _ => radixOf x
  | _ => none

/-- A numeric literal is a radix literal or a decimal one, as its front selects. -/
lemma numberBodyLength_eq (cs : List Char) :
    numberBodyLength cs =
      match radixPrefix cs with
      | some radix =>
        if ((cs.drop 2).takeWhile (isRadixDigit radix)).length = 0 then .error (cs.take 2)
        else .ok (2 + ((cs.drop 2).takeWhile (isRadixDigit radix)).length +
          suffixLength ((cs.drop 2).drop ((cs.drop 2).takeWhile (isRadixDigit radix)).length))
      | none => decimalLength cs := by
  unfold numberBodyLength
  split
  · rfl
  · rename_i h
    have : radixPrefix cs = none := by
      unfold radixPrefix
      split
      · rename_i x r
        exact absurd rfl (h x r)
      · rfl
    rw [this]

/-- The radix a literal selects is read at its front, and none is selected by a `0` that
no word character follows. -/
lemma radixPrefix_append {w s : List Char} (hw : w ≠ []) (hs : StopsWord s) :
    radixPrefix (w ++ s) = radixPrefix w := by
  obtain ⟨c, r, rfl⟩ := List.exists_cons_of_ne_nil hw
  cases r with
  | nil =>
    cases s with
    | nil => rfl
    | cons x t =>
      -- a `0` alone, then a character that selects no radix
      have hx : radixOf x = none := by
        cases hr : radixOf x with
        | none => rfl
        | some radix => simpa [hs x rfl] using isWordPart_of_radixOf hr
      simp only [List.singleton_append, radixPrefix]
      split
      · rename_i x' r' h
        simp only [List.cons.injEq] at h
        rw [← h.2.1, hx]
      · rfl
  | cons x r =>
    simp only [List.cons_append]
    unfold radixPrefix
    split <;> split <;> simp_all

/-- A numeric literal that ends with the text `w` reads nothing of what follows it when
that is no word character, and no point after a literal of digits only. -/
lemma numberBodyLength_append {w s s' : List Char} (hw : w ≠ [])
    (h : numberBodyLength (w ++ s) = .ok w.length) (hs : StopsWord s) (hs' : StopsWord s')
    (hpt : s'.head? = some '.' → ∃ d ∈ w, isDecimalDigit d = false) :
    numberBodyLength (w ++ s') = .ok w.length := by
  rw [numberBodyLength_eq, radixPrefix_append hw hs] at h
  rw [numberBodyLength_eq, radixPrefix_append hw hs']
  cases hr : radixPrefix w with
  | none =>
    rw [hr] at h
    exact decimalLength_append h hs hs' hpt
  | some radix =>
    rw [hr] at h
    -- a radix literal: its digits and suffix lie inside `w`
    obtain ⟨x, r, rfl⟩ : ∃ x r, w = '0' :: x :: r := by
      unfold radixPrefix at hr
      split at hr
      · exact ⟨_, _, rfl⟩
      · cases hr
    simp only [List.cons_append, List.drop_succ_cons, List.drop_zero,
      takeWhile_append_of_stop (hs.radixDigit radix),
      takeWhile_append_of_stop (hs'.radixDigit radix)] at h ⊢
    have hk : (r.takeWhile (isRadixDigit radix)).length ≤ r.length :=
      (List.takeWhile_prefix _).length_le
    rw [List.drop_append_of_le_length hk] at h ⊢
    split_ifs at h ⊢ with hk0
    · -- the suffix, when the digits reach the end of `w`, is not read
      by_cases hend : r.drop (r.takeWhile (isRadixDigit radix)).length = []
      · rw [hend, List.nil_append] at h ⊢
        have hsuf : ∀ t, StopsWord t → suffixLength t = 0 := by
          intro t ht
          cases t with
          | nil => rfl
          | cons y t =>
            rw [suffixLength_cons, if_neg]
            rintro rfl
            exact absurd (ht 'n' rfl) (by decide)
        rw [hsuf s hs] at h
        rw [hsuf s' hs']
        exact h
      · obtain ⟨y, t, hyt⟩ := List.exists_cons_of_ne_nil hend
        rw [hyt, List.cons_append, suffixLength_cons] at h ⊢
        exact h

/-- What may follow the text `w` of a number without being read into it: no word character,
and no point after a literal of decimal digits only. -/
def StopsNumber (w s : List Char) : Prop :=
  StopsWord s ∧ (s.head? = some '.' → ∃ d ∈ w, isDecimalDigit d = false)

/-- A number is read whole whatever follows it, as long as that does not go on with it. -/
lemma numberLength_append {w s s' : List Char} (hw : w ≠ [])
    (h : numberLength (w ++ s) = .ok w.length) (hs' : StopsNumber w s') :
    numberLength (w ++ s') = .ok w.length := by
  obtain ⟨hbody, hnext⟩ := numberLength_eq_ok.1 h
  have hs : StopsWord s := by
    intro x hx
    exact hnext x (by simpa using hx)
  refine numberLength_eq_ok.2 ⟨numberBodyLength_append hw hbody hs hs'.1 hs'.2, ?_⟩
  intro x hx
  exact hs'.1 x (by simpa using hx)

/-- What follows a number that is read whole does not go on with it. -/
lemma stopsNumber_of_numberLength {w s : List Char} (hw : w ≠ [])
    (h : numberLength (w ++ s) = .ok w.length) : StopsNumber w s := by
  obtain ⟨hbody, hnext⟩ := numberLength_eq_ok.1 h
  have hs : StopsWord s := by
    intro x hx
    exact hnext x (by simpa using hx)
  refine ⟨hs, fun hpt => ?_⟩
  -- a point after digits only would have been read as the fraction
  by_contra hnot
  have hall : ∀ d ∈ w, isDecimalDigit d = true := by
    intro d hd
    cases hdd : isDecimalDigit d
    · exact absurd ⟨d, hd, hdd⟩ hnot
    · rfl
  obtain ⟨t, rfl⟩ : ∃ t, s = '.' :: t := by
    cases s with
    | nil => cases hpt
    | cons x t => cases hpt; exact ⟨t, rfl⟩
  rw [numberBodyLength_eq, radixPrefix_append hw hs] at hbody
  have hnone : radixPrefix w = none := by
    unfold radixPrefix
    split
    · rename_i x r
      -- a radix letter is no decimal digit
      cases hr : radixOf x with
      | none => rfl
      | some radix =>
        have hx := hall x (by simp)
        rw [isDecimalDigit_of_radixOf hr] at hx
        cases hx
    · rfl
  rw [hnone] at hbody
  exact absurd (lt_of_decimalLength_point hall hbody) (Nat.lt_irrefl _)

/-! ### No reader takes more than there is -/

lemma stringRest_le {q : Char} {l : List Char} {n : Nat} (h : stringRest q l = some n) :
    n ≤ l.length := by
  fun_induction stringRest q l generalizing n with
  | case1 | case2 | case5 => cases h
  | case3 r' _ ih =>
    obtain ⟨m, hm, rfl⟩ := Option.map_eq_some_iff.1 h
    have := ih hm
    simp only [List.length_cons]
    omega
  | case4 x r' _ _ ih =>
    obtain ⟨m, hm, rfl⟩ := Option.map_eq_some_iff.1 h
    have := ih hm
    simp only [List.length_cons]
    omega
  | case6 =>
    cases h
    simp
  | case7 c r _ _ _ ih =>
    obtain ⟨m, hm, rfl⟩ := Option.map_eq_some_iff.1 h
    have := ih hm
    simp only [List.length_cons]
    omega

lemma suffixLength_le (l : List Char) : suffixLength l ≤ l.length := by
  unfold suffixLength
  split <;> simp

lemma fractionLength_le (u : List Char) : (fractionLength u).1 ≤ u.length := by
  unfold fractionLength
  split
  · rename_i r
    have : (r.takeWhile isDecimalDigit).length ≤ r.length := (List.takeWhile_prefix _).length_le
    simp only [List.length_cons]
    omega
  · exact Nat.zero_le _

lemma exponentLength_le {cs r : List Char} {k m : Nat} {b : Bool}
    (h : exponentLength cs k b r = .ok m) : m ≤ k + r.length := by
  unfold exponentLength at h
  split at h
  · rename_i e t
    -- the sign and the digits of an exponent are characters after the `e`
    have hs : signLength t ≤ t.length := by
      cases t with
      | nil => simp [signLength]
      | cons g t => rw [signLength_cons]; split <;> simp
    have hd : ((t.drop (signLength t)).takeWhile isDecimalDigit).length ≤
        (t.drop (signLength t)).length := (List.takeWhile_prefix _).length_le
    have hsuf := suffixLength_le (e :: t)
    simp only [List.length_drop] at hd
    dsimp only at h
    split_ifs at h <;> cases h <;> simp only [List.length_cons] at hsuf ⊢ <;> omega
  · cases h
    simp

lemma decimalLength_le {cs : List Char} {m : Nat} (h : decimalLength cs = .ok m) :
    m ≤ cs.length := by
  rw [decimalLength_eq] at h
  have hi : (cs.takeWhile isDecimalDigit).length ≤ cs.length :=
    (List.takeWhile_prefix _).length_le
  have hf := fractionLength_le (cs.drop (cs.takeWhile isDecimalDigit).length)
  have he := exponentLength_le h
  simp only [List.length_drop] at hf he
  omega

lemma numberBodyLength_le {cs : List Char} {m : Nat} (h : numberBodyLength cs = .ok m) :
    m ≤ cs.length := by
  rw [numberBodyLength_eq] at h
  split at h
  · rename_i radix hr
    obtain ⟨x, r, rfl⟩ : ∃ x r, cs = '0' :: x :: r := by
      unfold radixPrefix at hr
      split at hr
      · exact ⟨_, _, rfl⟩
      · cases hr
    have hk : (r.takeWhile (isRadixDigit radix)).length ≤ r.length :=
      (List.takeWhile_prefix _).length_le
    have hsuf := suffixLength_le (r.drop (r.takeWhile (isRadixDigit radix)).length)
    simp only [List.drop_succ_cons, List.drop_zero, List.length_drop] at h hsuf
    split_ifs at h
    cases h
    simp only [List.length_cons]
    omega
  · exact decimalLength_le h

lemma numberLength_le {cs : List Char} {m : Nat} (h : numberLength cs = .ok m) :
    m ≤ cs.length :=
  numberBodyLength_le (numberLength_eq_ok.1 h).1

lemma punctuatorLength_le {cs : List Char} {m : Nat} (h : punctuatorLength cs = some m) :
    m ≤ cs.length := by
  obtain ⟨p, -, hpre, hm⟩ := punctuatorLength_eq_some h
  have hlen := hpre.length_le
  rcases hm with rfl | ⟨rfl, rfl⟩
  · rw [← String.length_toList]
    exact hlen
  · -- `?` before a point: one of the two characters that fit
    have : "?.".toList.length = 2 := rfl
    omega

/-! ### Punctuators -/

/-- The table lists no punctuator before one that it is a prefix of: the first that fits is
the longest. -/
lemma punctuators_pairwise : punctuators.Pairwise fun p q => ¬ p.toList <+: q.toList := by
  decide

/-- Every punctuator of three characters has a point second or an `=` third. -/
lemma punctuators_third : ∀ p ∈ punctuators,
    p.toList.length = 3 → p.toList[1]? = some '.' ∨ p.toList[2]? = some '=' := by
  decide

/-- No punctuator has a blank or a word character in it. -/
lemma punctuators_chars : ∀ p ∈ punctuators, ∀ c ∈ p.toList,
    isBlank c = false ∧ isWordStart c = false := by
  -- decided as one Boolean, so that no instance for a bounded quantifier is unfolded
  have h : punctuators.all (fun p => p.toList.all fun c => !isBlank c && !isWordStart c) := by
    decide
  simpa [List.all_eq_true] using h

/-- A slash only ever starts a punctuator. -/
lemma punctuators_slash : ∀ p ∈ punctuators, '/' ∉ p.toList.tail := by
  decide

/-- Only a dot, a `?` or a slash goes on into a longer punctuator with a point or a `?`. -/
lemma punctuators_open : ∀ q ∈ punctuators, ∀ p ∈ punctuators, ∀ x ∈ ['.', '?'],
    q.toList ++ [x] <+: p.toList → q ∈ [".", "?.", "?", "/"] := by
  have h : punctuators.all (fun q => punctuators.all fun p => ['.', '?'].all fun x =>
      !(q.toList ++ [x]).isPrefixOf p.toList || [".", "?.", "?", "/"].contains q) := by
    decide
  simp only [List.all_eq_true, Bool.or_eq_true, Bool.not_eq_true', List.contains_iff_mem] at h
  intro q hq p hp x hx hpre
  rcases h q hq p hp x hx with h | h
  · rw [← List.isPrefixOf_iff_prefix] at hpre
    simp [hpre] at h
  · exact h

lemma isPrefixOf_eq_decide (l cs : List Char) : l.isPrefixOf cs = decide (l <+: cs) := by
  rw [Bool.eq_iff_iff, List.isPrefixOf_iff_prefix, decide_eq_true_iff]

/-- A punctuator is read off its first three characters. -/
lemma punctuatorLength_take (cs : List Char) :
    punctuatorLength cs = punctuatorLength (cs.take 3) := by
  unfold punctuatorLength
  have hfind : punctuators.find? (fun p => p.toList.isPrefixOf cs) =
      punctuators.find? (fun p => p.toList.isPrefixOf (cs.take 3)) := by
    refine List.find?_congr fun p hp => ?_
    simp only [isPrefixOf_eq_decide, List.prefix_take_iff, (punctuators_length p hp).2, and_true]
  -- the check for a digit after `?.` looks at the third character
  have hthird : ((cs.take 3).drop 2).head? = (cs.drop 2).head? := by
    rw [List.drop_take, List.head?_take]
    simp
  rw [hfind, hthird]

/-- Past two characters with no point second, only an `=` third can make a punctuator
longer. -/
lemma punctuatorLength_pair {c x : Char} {t : List Char} (hx : x ≠ '.')
    (ht : t.head? ≠ some '=') : punctuatorLength (c :: x :: t) = punctuatorLength [c, x] := by
  unfold punctuatorLength
  have hfind : punctuators.find? (fun p => p.toList.isPrefixOf (c :: x :: t)) =
      punctuators.find? (fun p => p.toList.isPrefixOf [c, x]) := by
    refine List.find?_congr fun p hp => ?_
    simp only [isPrefixOf_eq_decide, decide_eq_decide]
    by_cases h3 : p.toList.length = 3
    · -- a punctuator of three characters has a point second or an `=` third
      have hpt := punctuators_third p hp h3
      constructor
      · intro hpre
        obtain ⟨u, hu⟩ := hpre
        obtain ⟨a, b, d, habd⟩ : ∃ a b d, p.toList = [a, b, d] := by
          match hl : p.toList, h3 with
          | [a, b, d], _ => exact ⟨a, b, d, rfl⟩
        rw [habd] at hu hpt
        simp only [List.cons_append, List.nil_append, List.cons.injEq] at hu
        obtain ⟨rfl, rfl, hd⟩ := hu
        simp only [List.getElem?_cons_succ, List.getElem?_cons_zero, Option.some.injEq] at hpt
        rcases hpt with rfl | rfl
        · exact absurd rfl hx
        · exact absurd (by rw [← hd]; rfl) ht
      · intro hpre
        have := hpre.length_le
        simp only [List.length_cons, List.length_nil] at this
        omega
    · have hle : p.toList.length ≤ 2 := by
        have := (punctuators_length p hp).2
        omega
      have htake : [c, x] = (c :: x :: t).take 2 := by simp
      rw [htake, List.prefix_take_iff]
      simp [hle]
  rw [hfind]
  split
  · rfl
  · rename_i p hp
    -- the `?.` exception needs a point second
    have hne : p ≠ "?." := by
      rintro rfl
      have hpre := (List.find?_eq_some_iff_append.1 hp).1
      simp only [isPrefixOf_eq_decide, decide_eq_true_eq] at hpre
      obtain ⟨u, hu⟩ := hpre
      have : ['?', '.'] ++ u = [c, x] := hu
      simp only [List.cons_append, List.nil_append, List.cons.injEq] at this
      exact hx this.2.1.symm
    simp [hne]

/-- What `punctuatorLength` reads whole is a punctuator of the table. -/
lemma exists_of_punctuatorLength {w r : List Char}
    (h : punctuatorLength (w ++ r) = some w.length) : ∃ q ∈ punctuators, q.toList = w := by
  obtain ⟨p, hmem, hpre, hm⟩ := punctuatorLength_eq_some h
  rcases hm with hm | ⟨rfl, hm⟩
  · have hlen : p.toList.length = w.length := by
      rw [String.length_toList]
      exact hm.symm
    exact ⟨p, hmem,
      (List.prefix_of_prefix_length_le hpre (List.prefix_append w r) hlen.le).eq_of_length hlen⟩
  · -- `?` before a point and a digit: the `?` alone
    obtain ⟨c, rfl⟩ : ∃ c, w = [c] := List.length_eq_one_iff.1 hm
    obtain ⟨u, hu⟩ := hpre
    have : ['?', '.'] ++ u = c :: r := hu
    simp only [List.cons_append, List.cons.injEq] at this
    exact ⟨"?", by decide, by rw [← this.1]; rfl⟩
/-- A punctuator of the table that no punctuator goes on from into `s` is read whole there,
a `?.` only when no digit follows it. -/
lemma punctuatorLength_of_ends {q : String} (hq : q ∈ punctuators) {s : List Char}
    (hend : ∀ x, s.head? = some x → ∀ p ∈ punctuators, ¬ q.toList ++ [x] <+: p.toList)
    (hdigit : q = "?." → (s.head?.map Char.isDigit) ≠ some true) :
    punctuatorLength (q.toList ++ s) = some q.length := by
  -- only prefixes of `q` fit
  have hfit : ∀ p ∈ punctuators, p.toList <+: q.toList ++ s → p.toList <+: q.toList := by
    intro p hp hpre
    by_contra hnot
    have hlen : q.toList.length < p.toList.length := by
      by_contra hle
      exact hnot (List.prefix_of_prefix_length_le hpre (List.prefix_append _ _) (by omega))
    obtain ⟨x, t, rfl⟩ : ∃ x t, s = x :: t := by
      cases s with
      | nil => exact absurd (by simpa using hpre) hnot
      | cons x t => exact ⟨x, t, rfl⟩
    -- then `p` goes on from `q` with the first character of `s`
    refine hend x rfl p hp ⟨p.toList.drop (q.toList.length + 1), ?_⟩
    have hp' := List.prefix_iff_eq_take.1 hpre
    have hqx : q.toList ++ [x] = p.toList.take (q.toList.length + 1) := by
      rw [hp', List.take_take, Nat.min_eq_left (by omega), List.take_append,
        List.take_of_length_le (by omega)]
      simp
    rw [hqx, List.take_append_drop]
  unfold punctuatorLength
  cases hf : punctuators.find? (fun p => p.toList.isPrefixOf (q.toList ++ s)) with
  | none =>
    have := List.find?_eq_none.1 hf q hq
    simp [isPrefixOf_eq_decide] at this
  | some p =>
    -- the first that fits is `q` itself: one before it would be a proper prefix of it
    obtain ⟨hpre, as, bs, hsplit, has⟩ := List.find?_eq_some_iff_append.1 hf
    simp only [isPrefixOf_eq_decide, decide_eq_true_eq] at hpre
    have hpq : p = q := by
      have hqmem : q ∈ as ++ p :: bs := hsplit ▸ hq
      rcases List.mem_append.1 hqmem with hqa | hqpb
      · have := has q hqa
        simp [isPrefixOf_eq_decide] at this
      · rcases List.mem_cons.1 hqpb with rfl | hqb
        · rfl
        · have hpw := punctuators_pairwise
          rw [hsplit, List.pairwise_append, List.pairwise_cons] at hpw
          exact absurd (hfit p (List.mem_of_find?_eq_some hf) hpre) (hpw.2.1.1 q hqb)
    subst hpq
    by_cases hq2 : p = "?."
    · simp [hq2, hdigit hq2]
    · simp [hq2]

/-- No punctuator goes on from another with a blank, a slash or a word character. -/
lemma not_continues {q p : String} (hq : q ∈ punctuators) (hp : p ∈ punctuators) {x : Char}
    (hx : isBlank x = true ∨ x = '/' ∨ isWordStart x = true) : ¬ q.toList ++ [x] <+: p.toList := by
  intro hpre
  have hmem : x ∈ p.toList := hpre.subset (by simp)
  rcases hx with hb | rfl | hw
  · rw [(punctuators_chars p hp x hmem).1] at hb
    cases hb
  · -- a slash after a punctuator would stand after the first character of another
    obtain ⟨u, hu⟩ := hpre
    obtain ⟨c, cs, hc⟩ := List.exists_cons_of_ne_nil
      (List.ne_nil_of_length_pos (punctuators_length q hq).1)
    apply punctuators_slash p hp
    rw [← hu, hc]
    simp
  · rw [(punctuators_chars p hp x hmem).2] at hw
    cases hw

end Lexical

/-! ## The reader the first character selects -/

/-- The first character `c` of `c :: rest` starts no blank, comment, string, number or word,
so a punctuator is read there. -/
def PunctStart (c : Char) (rest : List Char) : Prop :=
  isBlank c = false ∧ c ≠ '"' ∧ c ≠ '\'' ∧ c.isDigit = false ∧ isWordStart c = false ∧
    (c = '/' → rest.head? ≠ some '/' ∧ rest.head? ≠ some '*') ∧
    (c = '.' → (rest.head?.map Char.isDigit) ≠ some true)

/-- How the lexer reads a token at the front of `c :: rest`: the reader that `c` selects,
the kind of token it gives, and how many characters after `c` it takes. -/
inductive TokenRead : Char → List Char → TokenKind → Nat → Prop
  | string {c : Char} {rest : List Char} {n : Nat} : (c = '"' ∨ c = '\'') →
      stringRest c rest = some n → TokenRead c rest .string n
  | number {c : Char} {rest : List Char} {n : Nat} :
      (c.isDigit = true ∨ (c = '.' ∧ (rest.head?.map Char.isDigit) = some true)) →
      numberLength (c :: rest) = .ok (n + 1) → TokenRead c rest .numeric n
  | word {c : Char} {rest : List Char} : isWordStart c = true →
      TokenRead c rest (wordKind (String.ofList (c :: rest.takeWhile isWordPart)))
        (rest.takeWhile isWordPart).length
  | punctuator {c : Char} {rest : List Char} {n : Nat} : PunctStart c rest →
      punctuatorLength (c :: rest) = some (n + 1) → TokenRead c rest .punctuator n

/-- `scan` reads a token exactly as `TokenRead` describes. -/
theorem Lexeme.scan_eq_token_iff {c : Char} {rest : List Char} {kind : TokenKind} {n : Nat} :
    Lexeme.scan c rest = .token kind n ↔ TokenRead c rest kind n := by
  constructor
  · intro h
    -- the branches of the scanner in order: blank, line comment, block comment, string,
    -- number, word, punctuator
    unfold Lexeme.scan at h
    split at h
    · cases h
    rename_i hb
    split at h
    · cases h
    rename_i hl
    split at h
    · split at h <;> cases h
    rename_i hc
    split at h
    · rename_i hq
      split at h
      · cases h
        exact .string (by simpa using hq) ‹_›
      · cases h
    rename_i hq
    split at h
    · rename_i hn
      split at h
      · rename_i m hm
        cases h
        have hd : c.isDigit = true ∨ (c = '.' ∧ (rest.head?.map Char.isDigit) = some true) := by
          simpa using hn
        have hpos := numberLength_pos (hd.imp id (·.1)) hm
        refine .number hd ?_
        rwa [Nat.sub_add_cancel hpos]
      · cases h
    rename_i hn
    split at h
    · cases h
      exact .word ‹_›
    rename_i hw
    split at h
    · rename_i m hm
      cases h
      have hpos := punctuatorLength_pos hm
      refine .punctuator ?_ (by rwa [Nat.sub_add_cancel hpos])
      simp only [Bool.or_eq_true, decide_eq_true_eq, Bool.and_eq_true, not_or,
        not_and] at hb hl hc hq hn
      exact ⟨by simpa using hb, hq.1, hq.2, by simpa using hn.1, by simpa using hw,
        fun h => ⟨hl h, hc h⟩, fun h => by simpa using hn.2 h⟩
    · cases h
  · intro h
    cases h with
    | string hq hs =>
      rcases hq with rfl | rfl <;> simp [Lexeme.scan, isBlank, hs]
    | number hd hm =>
      rcases hd with hd | ⟨rfl, hd⟩
      · obtain ⟨hb, hs, hq1, hq2⟩ := isDigit_classes hd
        simp [Lexeme.scan, hb, hs, hq1, hq2, hd, hm]
      · simp [Lexeme.scan, isBlank, hd, hm]
    | word hw =>
      obtain ⟨hb, hs, hq1, hq2, hd, hp, -⟩ := isWordStart_classes hw
      simp [Lexeme.scan, hb, hs, hq1, hq2, hd, hp, hw]
    | punctuator hs hp =>
      obtain ⟨hb, hq1, hq2, hd, hw, hslash, hpoint⟩ := hs
      have hl : ¬ (c = '/' ∧ rest.head? = some '/') := fun h => (hslash h.1).1 h.2
      have hc : ¬ (c = '/' ∧ rest.head? = some '*') := fun h => (hslash h.1).2 h.2
      have hn : ¬ (c = '.' ∧ (rest.head?.map Char.isDigit) = some true) :=
        fun h => hpoint h.1 h.2
      simp only [Lexeme.scan, hb, Bool.false_eq_true, if_false, Bool.and_eq_true,
        decide_eq_true_eq, hl, hc, Bool.or_eq_true, hq1, hq2, or_self, hd, hn, hw,
        hp]
      simp

/-! ## A token read whole, and what may follow it -/

/-- The text `w` is read as one token of kind `kind` when `r` follows it. -/
def ReadsWhole (w : List Char) (kind : TokenKind) (r : List Char) : Prop :=
  ∃ c ws, w = c :: ws ∧ TokenRead c (ws ++ r) kind ws.length

/-- The second characters of two texts with the same first one agree as far as a punctuator
can see: they are equal, or the first character is no point and neither second one is an
`=`. -/
def SecondAgrees (r r' : List Char) : Prop :=
  r'.tail.head? = r.tail.head? ∨
    (r.head? ≠ some '.' ∧ r.tail.head? ≠ some '=' ∧ r'.tail.head? ≠ some '=')

lemma PunctStart.congr {c : Char} {rest rest' : List Char} (h : PunctStart c rest)
    (hh : rest'.head? = rest.head? ∨ (c ≠ '/' ∧ c ≠ '.')) : PunctStart c rest' := by
  obtain ⟨hb, hq1, hq2, hd, hw, hslash, hpoint⟩ := h
  rcases hh with hh | ⟨hs, hp⟩
  · exact ⟨hb, hq1, hq2, hd, hw, hh ▸ hslash, hh ▸ hpoint⟩
  · exact ⟨hb, hq1, hq2, hd, hw, fun h => absurd h hs, fun h => absurd h hp⟩

namespace Lexical

lemma StopsNumber.congr {w s s' : List Char} (h : StopsNumber w s) (hh : s'.head? = s.head?) :
    StopsNumber w s' := by
  unfold StopsNumber StopsWord at *
  rw [hh]
  exact h

/-- A word read whole is all word characters, and what follows it starts with none. -/
lemma takeWhile_append_length {p : Char → Bool} {ws r : List Char}
    (h : ((ws ++ r).takeWhile p).length = ws.length) :
    (ws ++ r).takeWhile p = ws ∧ r.takeWhile p = [] := by
  rw [List.takeWhile_append] at h ⊢
  split_ifs at h ⊢ with hws
  · simp only [List.length_append, Nat.add_eq_left, List.length_eq_zero_iff] at h
    simp [h]
  · exact absurd h hws

lemma takeWhile_eq_nil_of_head {p : Char → Bool} {r r' : List Char} (h : r.takeWhile p = [])
    (hh : r'.head? = r.head?) : r'.takeWhile p = [] := by
  cases r <;> cases r' <;> simp_all [List.takeWhile_cons]

lemma take_two_append {ws r r' : List Char} (hh : r'.head? = r.head?)
    (ht : ws ≠ [] ∨ r'.tail.head? = r.tail.head?) : (ws ++ r').take 2 = (ws ++ r).take 2 := by
  rcases ws with _ | ⟨a, _ | ⟨b, ws⟩⟩
  · simp only [ne_eq, not_true_eq_false, false_or] at ht
    rcases r with _ | ⟨x, _ | ⟨y, t⟩⟩ <;> rcases r' with _ | ⟨x', _ | ⟨y', t'⟩⟩ <;> simp_all
  · rcases r with _ | ⟨x, t⟩ <;> rcases r' with _ | ⟨x', t'⟩ <;> simp_all
  · simp

end Lexical

/-- Whether a token is read whole depends on what follows it only through its first
character and, for a punctuator, how its second one can go on from the first. -/
lemma ReadsWhole.congr {w r r' : List Char} {kind : TokenKind} (h : ReadsWhole w kind r)
    (hh : r'.head? = r.head?) (hs : SecondAgrees r r') : ReadsWhole w kind r' := by
  obtain ⟨c, ws, rfl, hread⟩ := h
  refine ⟨c, ws, rfl, ?_⟩
  have hhead : (ws ++ r').head? = (ws ++ r).head? := by simp [List.head?_append, hh]
  generalize hn : ws.length = n at hread ⊢
  cases hread with
  | string hq hstr =>
    subst hn
    exact .string hq (stringRest_append hstr (Nat.le_refl _) r')
  | number hd hm =>
    subst hn
    have hm' : numberLength ((c :: ws) ++ r) = .ok (c :: ws).length := hm
    refine .number (by rwa [hhead]) ?_
    exact numberLength_append (List.cons_ne_nil c ws) hm'
      ((stopsNumber_of_numberLength (List.cons_ne_nil c ws) hm').congr hh)
  | word hw =>
    obtain ⟨hws, hr⟩ := takeWhile_append_length hn.symm
    have hws' : (ws ++ r').takeWhile isWordPart = ws := by
      rw [List.takeWhile_append_of_pos, takeWhile_eq_nil_of_head hr hh, List.append_nil]
      intro x hx
      rw [← hws] at hx
      exact List.mem_takeWhile_imp hx
    have := @TokenRead.word c (ws ++ r') hw
    rw [hws'] at this
    rw [hws]
    exact this
  | punctuator hp hlen =>
    subst hn
    refine .punctuator (hp.congr (.inl hhead)) ?_
    by_cases htwo : ws ≠ [] ∨ r'.tail.head? = r.tail.head?
    · -- the punctuator sees at most two characters after its first, and they agree
      calc punctuatorLength (c :: (ws ++ r'))
          = punctuatorLength (c :: (ws ++ r').take 2) := by rw [punctuatorLength_take]; rfl
        _ = punctuatorLength (c :: (ws ++ r).take 2) := by rw [take_two_append hh htwo]
        _ = punctuatorLength (c :: (ws ++ r)) := (punctuatorLength_take (c :: (ws ++ r))).symm
        _ = some (ws.length + 1) := hlen
    · -- one character, then a shared one that is no point, and no `=` after it
      simp only [ne_eq, not_or, not_not] at htwo
      obtain ⟨rfl, htail⟩ := htwo
      rcases hs with hs | ⟨hpt, heq, heq'⟩
      · exact absurd hs htail
      obtain ⟨x, t, rfl⟩ : ∃ x t, r = x :: t := by
        cases r with
        | nil => cases r' <;> simp_all
        | cons x t => exact ⟨x, t, rfl⟩
      obtain ⟨t', rfl⟩ : ∃ t', r' = x :: t' := by
        cases r' with
        | nil => cases hh
        | cons x' t' =>
          cases hh
          exact ⟨t', rfl⟩
      have hx : x ≠ '.' := fun h => hpt (by rw [h]; rfl)
      simp only [List.nil_append, List.tail_cons] at heq heq' hlen ⊢
      rw [punctuatorLength_pair hx heq', ← punctuatorLength_pair hx heq]
      exact hlen

/-- A token that is no dot, `?` or slash is read whole before a blank, a slash and a `?`,
and before a point unless it is a number of decimal digits only. -/
lemma ReadsWhole.before {w r s : List Char} {kind : TokenKind} (h : ReadsWhole w kind r)
    (hopen : kind = .punctuator → String.ofList w ∉ [".", "?.", "?", "/"])
    (hs : ∀ x, s.head? = some x → isBlank x = true ∨ x = '/' ∨ x = '?' ∨
      (x = '.' ∧ (kind = .numeric → ∃ d ∈ w, isDecimalDigit d = false))) :
    ReadsWhole w kind s := by
  obtain ⟨c, ws, rfl, hread⟩ := h
  refine ⟨c, ws, rfl, ?_⟩
  -- none of these characters goes on with a word or a number
  have hword : StopsWord s := by
    intro x hx
    rcases hs x hx with hb | rfl | rfl | ⟨rfl, -⟩
    · exact (isBlank_classes hb).1
    all_goals decide
  generalize hn : ws.length = n at hread ⊢
  cases hread with
  | string hq hstr =>
    subst hn
    exact .string hq (stringRest_append hstr (Nat.le_refl _) s)
  | number hd hm =>
    subst hn
    have hm' : numberLength ((c :: ws) ++ r) = .ok (c :: ws).length := hm
    have hstop : StopsNumber (c :: ws) s := by
      refine ⟨hword, fun hx => ?_⟩
      rcases hs '.' hx with hb | hb | hb | ⟨-, hd⟩
      · exact absurd hb (by decide)
      · exact absurd hb (by decide)
      · exact absurd hb (by decide)
      · exact hd rfl
    refine .number ?_ (numberLength_append (List.cons_ne_nil c ws) hm' hstop)
    rcases hd with hd | ⟨rfl, hd⟩
    · exact .inl hd
    · -- a number that starts with a point has a digit after it, inside the token
      cases ws with
      | nil =>
        obtain ⟨x, hx, hxd⟩ := Option.map_eq_some_iff.1 hd
        have := (stopsNumber_of_numberLength (List.cons_ne_nil _ _) hm').1 x (by simpa using hx)
        rw [isWordPart_of_isDigit hxd] at this
        cases this
      | cons a ws => exact .inr ⟨rfl, by simpa using hd⟩
  | word hw =>
    obtain ⟨hws, -⟩ := takeWhile_append_length hn.symm
    have hstop : s.takeWhile isWordPart = [] := by
      cases s with
      | nil => rfl
      | cons x t => simp [hword x rfl]
    have hws' : (ws ++ s).takeWhile isWordPart = ws := by
      rw [List.takeWhile_append_of_pos, hstop, List.append_nil]
      intro x hx
      rw [← hws] at hx
      exact List.mem_takeWhile_imp hx
    have := @TokenRead.word c (ws ++ s) hw
    rw [hws'] at this
    rw [hws]
    exact this
  | punctuator hp hlen =>
    subst hn
    have hlen' : punctuatorLength ((c :: ws) ++ r) = some (c :: ws).length := hlen
    obtain ⟨q, hq, hqw⟩ := exists_of_punctuatorLength hlen'
    have hqo : q ∉ [".", "?.", "?", "/"] := by
      have := hopen rfl
      rwa [← hqw, String.ofList_toList] at this
    refine .punctuator (hp.congr ?_) ?_
    · cases ws with
      | nil =>
        -- a single character that is no dot and no slash
        have hqc : q = String.ofList [c] := by rw [← hqw, String.ofList_toList]
        refine .inr ⟨?_, ?_⟩ <;> rintro rfl <;> exact hqo (by rw [hqc]; decide)
      | cons a ws => exact .inl (by simp)
    · have hend : ∀ x, s.head? = some x → ∀ p ∈ punctuators, ¬ q.toList ++ [x] <+: p.toList := by
        intro x hx p hp hpre
        rcases hs x hx with hb | rfl | rfl | ⟨rfl, -⟩
        · exact not_continues hq hp (.inl hb) hpre
        · exact not_continues hq hp (.inr (.inl rfl)) hpre
        · exact hqo (punctuators_open q hq p hp '?' (by simp) hpre)
        · exact hqo (punctuators_open q hq p hp '.' (by simp) hpre)
      have := punctuatorLength_of_ends hq hend (fun h => absurd (by simp [h]) hqo)
      rw [hqw, ← String.length_toList, hqw] at this
      exact this

/-- A dot is read whole before a blank, a slash or a word character. -/
lemma readsWhole_dot {w s : List Char} (hw : w = ['.'] ∨ w = ['?', '.'])
    (hs : ∀ x, s.head? = some x → isBlank x = true ∨ x = '/' ∨ isWordStart x = true) :
    ReadsWhole w .punctuator s := by
  have hnd : (s.head?.map Char.isDigit) ≠ some true := by
    intro hd
    obtain ⟨x, hx, hxd⟩ := Option.map_eq_some_iff.1 hd
    rcases hs x hx with hb | rfl | hw
    · rw [(isBlank_classes hb).2.2.2.2] at hxd
      cases hxd
    · cases hxd
    · rw [(isWordStart_classes hw).2.2.2.2.1] at hxd
      cases hxd
  have hend : ∀ q ∈ punctuators, ∀ x, s.head? = some x →
      ∀ p ∈ punctuators, ¬ q.toList ++ [x] <+: p.toList :=
    fun q hq x hx p hp => not_continues hq hp (hs x hx)
  rcases hw with rfl | rfl
  · refine ⟨'.', [], rfl, .punctuator ⟨by decide, by decide, by decide, by decide, by decide,
      fun h => absurd h (by decide), fun _ => hnd⟩ ?_⟩
    exact punctuatorLength_of_ends (q := ".") (by decide) (hend "." (by decide))
      (fun h => absurd h (by decide))
  · refine ⟨'?', ['.'], rfl, .punctuator ⟨by decide, by decide, by decide, by decide, by decide,
      fun h => absurd h (by decide), fun h => absurd h (by decide)⟩ ?_⟩
    exact punctuatorLength_of_ends (q := "?.") (by decide) (hend "?." (by decide))
      (fun _ => hnd)

/-- A token takes no more characters than the text has. -/
lemma TokenRead.le_length {c : Char} {rest : List Char} {kind : TokenKind} {n : Nat}
    (h : TokenRead c rest kind n) : n ≤ rest.length := by
  cases h with
  | string _ hs => exact stringRest_le hs
  | number _ hm =>
    have := numberLength_le hm
    simp only [List.length_cons] at this
    omega
  | word _ => exact (List.takeWhile_prefix _).length_le
  | punctuator _ hp =>
    have := punctuatorLength_le hp
    simp only [List.length_cons] at this
    omega

end DotLint
