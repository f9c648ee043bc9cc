import Mathlib.Tactic.Lemma
import DotLint.Proofs.TextLayout
import DotLint.Rule.DotLocation

/-!
# Moving a dot across incidental text

The fix of a misplaced member-access dot moves the dot across the incidental text on one
side of it: for the object position to right after the token before it, for the property
position to right before the property. On cells, `moveDot` does this to one dot, and the gap
the dot leaves joins the gap on its other side.

The moved text reads as the same tokens (`reads_moveDot`, and for several dots
`reads_moveDots`) when the dot is a `.` or `?.`
between a token that no dot goes on with and a word (`MovableDot`), and, for the object
position, what is put between the token and the dot is nothing or one space, the space
whenever a `.` follows a number of decimal digits only.
-/

namespace DotLint

open Lexical

/-! ## Incidental text -/

/-- A piece followed by a character that is no line break is no line comment, so it is a
piece before anything. -/
lemma Piece.of_not_lineBreak {p : List Char} {x : Char} (h : Piece p (some x))
    (hx : isLineBreak x = false) (n : Option Char) : Piece p n := by
  cases h with
  | blank hb => exact .blank hb
  | lineComment _ hnext =>
    rw [hnext x rfl] at hx
    cases hx
  | blockComment hb => exact .blockComment hb

namespace Incidental

/-- Incidental text starts with a blank or a slash. -/
lemma head {g : List Char} {n : Option Char} (h : Incidental g n) :
    ∀ x, g.head? = some x → isBlank x = true ∨ x = '/' := by
  intro x hx
  cases h with
  | nil => cases hx
  | cons hp _ =>
    cases hp with
    | blank hb =>
      simp only [List.cons_append, List.nil_append, List.head?_cons, Option.some.injEq] at hx
      exact .inl (hx ▸ hb)
    | lineComment =>
      simp only [List.cons_append, List.head?_cons, Option.some.injEq] at hx
      exact .inr hx.symm
    | blockComment =>
      simp only [List.cons_append, List.head?_cons, Option.some.injEq] at hx
      exact .inr hx.symm

/-- Incidental text before a character that is no line break is incidental before
anything. -/
lemma of_not_lineBreak {g : List Char} {x : Char} (h : Incidental g (some x))
    (hx : isLineBreak x = false) (n : Option Char) : Incidental g n := by
  generalize hs : some x = n₀ at h
  induction h with
  | nil => exact .nil n
  | @cons p rest _ hp _ ih =>
    refine .cons ?_ (ih hs)
    cases rest with
    | nil =>
      simp only [List.head?_nil, Option.none_or] at hp ⊢
      exact (hs ▸ hp).of_not_lineBreak hx _
    | cons y t => simpa using hp

/-- Incidental text before a character that is no line break, then incidental text, are
incidental text together. -/
lemma append {a b : List Char} {x : Char} {n : Option Char} (ha : Incidental a (some x))
    (hx : isLineBreak x = false) (hb : Incidental b n) : Incidental (a ++ b) n := by
  generalize hs : some x = n₀ at ha
  induction ha with
  | nil => simpa using hb
  | @cons p rest _ hp _ ih =>
    rw [List.append_assoc]
    refine .cons ?_ (ih hs)
    cases rest with
    | nil =>
      simp only [List.head?_nil, Option.none_or] at hp
      exact (hs ▸ hp).of_not_lineBreak hx _
    | cons y t => simpa using hp

end Incidental

/-- What follows incidental text starts as the text does, or as what comes after it. -/
lemma head_of_incidental {g r : List Char} {n : Option Char} {P : Char → Prop}
    (hg : Incidental g n) (hgap : ∀ x, isBlank x = true ∨ x = '/' → P x)
    (hr : ∀ x, r.head? = some x → P x) : ∀ x, (g ++ r).head? = some x → P x := by
  intro x hx
  rw [List.head?_append] at hx
  cases hgh : g.head? with
  | none =>
    rw [hgh, Option.none_or] at hx
    exact hr x hx
  | some y =>
    rw [hgh, Option.some_or, Option.some.injEq] at hx
    exact hgap x (hx ▸ hg.head y hgh)

/-! ## The first character of a token -/

namespace ReadsWhole

variable {w r : List Char} {kind : TokenKind}

/-- A token of a word kind starts with a word character. -/
lemma head_wordStart (h : ReadsWhole w kind r)
    (hk : kind ≠ .punctuator ∧ kind ≠ .numeric ∧ kind ≠ .string) :
    ∀ x, w.head? = some x → isWordStart x = true := by
  obtain ⟨c, ws, rfl, hread⟩ := h
  intro x hx
  simp only [List.head?_cons, Option.some.injEq] at hx
  subst hx
  generalize ws.length = n at hread
  cases hread with
  | string => exact absurd rfl hk.2.2
  | number => exact absurd rfl hk.2.1
  | word hw => exact hw
  | punctuator => exact absurd rfl hk.1

/-- A token starts with no blank. -/
lemma head_not_blank (h : ReadsWhole w kind r) : ∀ x, w.head? = some x → isBlank x = false := by
  obtain ⟨c, ws, rfl, hread⟩ := h
  intro x hx
  simp only [List.head?_cons, Option.some.injEq] at hx
  subst hx
  generalize ws.length = n at hread
  cases hread with
  | string hq => rcases hq with rfl | rfl <;> decide
  | number hd =>
    rcases hd with hd | ⟨rfl, -⟩
    · exact (isDigit_classes hd).1
    · decide
  | word hw => exact (isWordStart_classes hw).1
  | punctuator hp => exact hp.1

/-- A point read alone is the punctuator `.`: a number with a leading point has a digit
after it. -/
lemma kind_of_point (h : ReadsWhole ['.'] kind r) : kind = .punctuator := by
  obtain ⟨c, ws, hw, hread⟩ := h
  simp only [List.cons.injEq] at hw
  obtain ⟨rfl, rfl⟩ := hw
  generalize hn : [].length = n at hread
  cases hread with
  | string hq => rcases hq with h | h <;> cases h
  | number hd hm =>
    -- the digit after the point would go on with the number
    rcases hd with hd | ⟨-, hd⟩
    · cases hd
    · obtain ⟨x, hx, hxd⟩ := Option.map_eq_some_iff.1 hd
      have hm' : numberLength (['.'] ++ r) = .ok ['.'].length := by
        subst hn
        simpa using hm
      have := (stopsNumber_of_numberLength (by simp) hm').1 x (by simpa using hx)
      rw [isWordPart_of_isDigit hxd] at this
      cases this
  | word hw => cases hw
  | punctuator => rfl

end ReadsWhole

/-! ## Reading before other text -/

lemma head?_tail_append_congr {u s s' : List Char} (hu : u ≠ []) (hh : s'.head? = s.head?) :
    (u ++ s').head? = (u ++ s).head? ∧ (u ++ s').tail.head? = (u ++ s).tail.head? := by
  obtain ⟨y, v, rfl⟩ := List.exists_cons_of_ne_nil hu
  simp [List.head?_append, hh]

lemma cellsText_ne_nil {c : Cell} {cs : List Cell} {s : List Char} (h : Reads (c :: cs) s) :
    cellsText (c :: cs) ≠ [] := by
  cases h with
  | cons _ hw _ _ => simp [hw]

/-- Read cells stay read before other text that a punctuator at their end cannot tell
apart. -/
lemma Reads.congr {cs : List Cell} {s s' : List Char} (h : Reads cs s)
    (hh : s'.head? = s.head?) (hs : SecondAgrees s s') : Reads cs s' := by
  induction h with
  | nil => exact .nil _
  | @cons c cs s hg hw hr hcs ih =>
    refine .cons hg hw ?_ (ih hh hs)
    cases cs with
    | nil => simpa using hr.congr hh hs
    | cons c' cs' =>
      -- the next cell stands between this token and the changed text
      obtain ⟨h1, h2⟩ := head?_tail_append_congr (cellsText_ne_nil hcs) hh
      exact hr.congr h1 (.inl h2)

/-- Text after a non-empty stretch that is no lone point changes as a punctuator at the
stretch's end cannot see, as long as no `=` comes next. -/
lemma secondAgrees_after {u x x' : List Char} (hu : u ≠ []) (hdot : u ≠ ['.'])
    (hx : x.head? ≠ some '=') (hx' : x'.head? ≠ some '=') :
    (u ++ x').head? = (u ++ x).head? ∧ SecondAgrees (u ++ x) (u ++ x') := by
  obtain ⟨y, v, rfl⟩ := List.exists_cons_of_ne_nil hu
  refine ⟨rfl, ?_⟩
  cases v with
  | nil =>
    -- one character, which is no point, then two texts that start with no `=`
    refine .inr ⟨?_, by simpa using hx, by simpa using hx'⟩
    intro hy
    simp only [List.cons_append, List.nil_append, List.head?_cons, Option.some.injEq] at hy
    exact hdot (by rw [hy])
  | cons z v => exact .inl (by simp)

/-- Read cells stay read when what follows a token after them changes, as long as no `=`
comes next and the token is no lone point. -/
lemma Reads.after_token {cs : List Cell} {u x x' : List Char} (h : Reads cs (u ++ x))
    (hu : u ≠ []) (hdot : u ≠ ['.']) (hx : x.head? ≠ some '=') (hx' : x'.head? ≠ some '=') :
    Reads cs (u ++ x') :=
  h.congr (secondAgrees_after hu hdot hx hx').1 (secondAgrees_after hu hdot hx hx').2

/-- A blank that is no line break, and anything that is no blank, is no line break. -/
lemma isLineBreak_of_isBlank_eq_false {x : Char} (h : isBlank x = false) :
    isLineBreak x = false := by
  cases hx : isLineBreak x
  · rfl
  · simp only [isLineBreak, Bool.or_eq_true, decide_eq_true_eq] at hx
    rcases hx with rfl | rfl <;> exact absurd h (by decide)

/-! ## Moving one dot -/

/-- The cells with the dot of cell `j` moved: for the object position to right after the
token before it, with `sp` in between, the gap it leaves joining the gap after it; for the
property position to right before the token after it, the gap after it joining the gap
before it. -/
def moveDot (pos : DotPosition) (sp : List Char) : List Cell → Nat → List Cell
  | d :: p :: rest, 0 =>
    match pos with
    | .object => ⟨sp, d.word, d.kind⟩ :: ⟨d.gap ++ p.gap, p.word, p.kind⟩ :: rest
    | .property => ⟨d.gap ++ p.gap, d.word, d.kind⟩ :: ⟨[], p.word, p.kind⟩ :: rest
  | c :: rest, j + 1 => c :: moveDot pos sp rest j
  | cs, _ => cs

lemma moveDot_append (pos : DotPosition) (sp : List Char) (pre : List Cell) (d p : Cell)
    (post : List Cell) :
    moveDot pos sp (pre ++ d :: p :: post) pre.length = pre ++ moveDot pos sp (d :: p :: post) 0 := by
  induction pre with
  | nil => rfl
  | cons c pre ih => simp [moveDot, ih]

/-- A dot that can be moved: a `.` or `?.` punctuator between a token that no dot goes on
with and a word. -/
structure MovableDot (b d p : Cell) : Prop where
  dot : d.word = ['.'] ∨ d.word = ['?', '.']
  punct : d.kind = .punctuator
  before : b.kind = .punctuator → String.ofList b.word ∉ [".", "?.", "?", "/"]
  property : p.kind ≠ .punctuator ∧ p.kind ≠ .numeric ∧ p.kind ≠ .string

namespace MovableDot

variable {b d p : Cell}

lemma dot_head (h : MovableDot b d p) : ∀ x, d.word.head? = some x → x = '.' ∨ x = '?' := by
  intro x hx
  rcases h.dot with hd | hd <;> rw [hd] at hx <;> cases hx
  · exact .inl rfl
  · exact .inr rfl

/-- The token before a movable dot is no lone point. -/
lemma word_ne_point {r : List Char} (h : MovableDot b d p) (hb : ReadsWhole b.word b.kind r) :
    b.word ≠ ['.'] := by
  intro hpt
  rw [hpt] at hb
  exact h.before hb.kind_of_point (by rw [hpt]; decide)

end MovableDot

lemma head?_append_of_ne_nil' {w r : List Char} (hw : w ≠ []) : (w ++ r).head? = w.head? := by
  obtain ⟨y, v, rfl⟩ := List.exists_cons_of_ne_nil hw
  rfl

/-- No `=` starts incidental text or a dot. -/
lemma ne_eq_of_class {x : Char} (hx : (isBlank x = true ∨ x = '/') ∨ x = '.' ∨ x = '?') :
    x ≠ '=' := by
  rintro rfl
  rcases hx with (hb | hb) | hb | hb <;> revert hb <;> decide

section Moves

variable {pre post : List Cell} {b d p : Cell} {s : List Char}

/-- After a movable dot and the incidental text around it comes a blank, a slash or a word
character. -/
lemma MovableDot.follower (hm : MovableDot b d p) {g₁ g₂ r : List Char} {n₁ n₂ : Option Char}
    (h₁ : Incidental g₁ n₁) (h₂ : Incidental g₂ n₂) (hr : ReadsWhole p.word p.kind r)
    (hwp : p.word ≠ []) : ∀ x, (g₁ ++ (g₂ ++ (p.word ++ r))).head? = some x →
      isBlank x = true ∨ x = '/' ∨ isWordStart x = true := by
  refine head_of_incidental h₁ (fun x hx => hx.elim .inl (.inr ∘ .inl)) ?_
  refine head_of_incidental h₂ (fun x hx => hx.elim .inl (.inr ∘ .inl)) ?_
  intro x hx
  rw [head?_append_of_ne_nil' hwp] at hx
  exact .inr (.inr (hr.head_wordStart hm.property x hx))

namespace MovableDot

/-- The gap before a movable dot, then incidental text, are incidental text together: the dot
starts with no line break, so the gap ends in no line comment that needs one. -/
lemma gap_append (hm : MovableDot b d p) (hgd : Incidental d.gap d.word.head?)
    {g : List Char} {n : Option Char} (hg : Incidental g n) : Incidental (d.gap ++ g) n := by
  rcases hm.dot with hd | hd <;> rw [hd] at hgd <;> exact hgd.append (by decide) hg

/-- The text from a movable dot's gap on starts with no `=`. -/
lemma gap_head_ne_eq (hm : MovableDot b d p) {n : Option Char} (hgd : Incidental d.gap n)
    (r : List Char) : (d.gap ++ (d.word ++ r)).head? ≠ some '=' := by
  intro hx
  refine head_of_incidental hgd (fun x hx => ne_eq_of_class (.inl hx)) ?_ '=' hx rfl
  intro x hx
  have hwd : d.word ≠ [] := by rcases hm.dot with hd | hd <;> simp [hd]
  rw [head?_append_of_ne_nil' hwd] at hx
  exact ne_eq_of_class (.inr (hm.dot_head x hx))

/-- The token before a movable dot, with the gap before it, is no lone point. -/
lemma gap_word_ne_point (hm : MovableDot b d p) (hwb : b.word ≠ []) {r : List Char}
    (hrb : ReadsWhole b.word b.kind r) : b.gap ++ b.word ≠ ['.'] := by
  intro hpt
  cases hgap : b.gap with
  | nil => exact hm.word_ne_point hrb (by simpa [hgap] using hpt)
  | cons y t =>
    rw [hgap, List.cons_append] at hpt
    exact hwb (List.append_eq_nil_iff.1 (List.cons.inj hpt).2).2

/-- The cells before the token before a movable dot stay read when the text from the dot's
gap on gives way to text that starts with no `=`: a punctuator ending that token sees no
difference. -/
lemma reads_before (hm : MovableDot b d p) {pre : List Cell} {r r' x : List Char}
    {n : Option Char} (hpre : Reads pre (b.gap ++ (b.word ++ (d.gap ++ (d.word ++ r)))))
    (hwb : b.word ≠ []) (hrb : ReadsWhole b.word b.kind r') (hgd : Incidental d.gap n)
    (hx : x.head? ≠ some '=') : Reads pre (b.gap ++ (b.word ++ x)) := by
  have hpre' : Reads pre ((b.gap ++ b.word) ++ (d.gap ++ (d.word ++ r))) := by
    simpa only [List.append_assoc] using hpre
  have hu : b.gap ++ b.word ≠ [] := fun h => hwb (List.append_eq_nil_iff.1 h).2
  simpa only [List.append_assoc] using
    hpre'.after_token hu (hm.gap_word_ne_point hwb hrb) (hm.gap_head_ne_eq hgd r) hx

end MovableDot

/-- Moving a dot to the object side keeps the text read as the same tokens. -/
theorem Reads.moveDot_object {sp : List Char} (h : Reads (pre ++ b :: d :: p :: post) s)
    (hm : MovableDot b d p) (hsp : sp = [] ∨ sp = [' '])
    (hnum : sp = [] → d.word = ['.'] → b.kind = .numeric →
      ∃ x ∈ b.word, isDecimalDigit x = false) :
    Reads (pre ++ b :: ⟨sp, d.word, d.kind⟩ :: ⟨d.gap ++ p.gap, p.word, p.kind⟩ :: post) s := by
  rw [Reads.append_iff] at h ⊢
  obtain ⟨hpre, hmid⟩ := h
  cases hmid with | cons hgb hwb hrb hmid =>
  cases hmid with | cons hgd hwd hrd hmid =>
  cases hmid with | cons hgp hwp hrp hpost =>
  simp only [cellsText_cons, List.append_assoc] at hpre hrb hrd hrp ⊢
  -- what now follows the token before the dot: one space, or the dot itself
  obtain ⟨r, hr⟩ : ∃ r, d.word ++ (d.gap ++ (p.gap ++ (p.word ++ (cellsText post ++ s)))) = r :=
    ⟨_, rfl⟩
  have hafter : ∀ x, (sp ++ r).head? = some x →
      (x = ' ' ∨ x = '?') ∨ (x = '.' ∧ sp = [] ∧ d.word = ['.']) := by
    intro x hx
    rcases hsp with rfl | rfl
    · rw [List.nil_append, ← hr, head?_append_of_ne_nil' hwd] at hx
      rcases hm.dot with hd | hd <;> rw [hd] at hx <;> cases hx
      · exact .inr ⟨rfl, rfl, hd⟩
      · exact .inl (.inr rfl)
    · cases hx
      exact .inl (.inl rfl)
  refine ⟨?pre, .cons hgb hwb ?before (.cons ?gap hwd ?dot (.cons ?joined hwp hrp hpost))⟩
  case pre =>
    -- only what follows the token before the dot changes
    have hnew : (sp ++ r).head? ≠ some '=' := by
      intro hx
      rcases hafter '=' hx with (h | h) | ⟨h, -⟩ <;> cases h
    rw [← hr] at hnew
    exact hm.reads_before hpre hwb hrb hgd hnew
  case before =>
    simp only [cellsText_cons, List.append_assoc]
    refine hrb.before hm.before fun x hx => ?_
    rw [hr] at hx
    rcases hafter x hx with (rfl | rfl) | ⟨rfl, hs, hd⟩
    · exact .inl (by decide)
    · exact .inr (.inr (.inl rfl))
    · exact .inr (.inr (.inr ⟨rfl, fun hk => hnum hs hd hk⟩))
  case gap =>
    rcases hsp with rfl | rfl
    · exact .nil _
    · exact .cons (.blank (by decide)) (.nil _)
  case dot =>
    simp only [cellsText_cons, List.append_assoc]
    rw [hm.punct]
    exact readsWhole_dot hm.dot (hm.follower hgd hgp hrp hwp)
  case joined => exact hm.gap_append hgd hgp

/-- Moving a dot to the property side keeps the text read as the same tokens. -/
theorem Reads.moveDot_property (h : Reads (pre ++ b :: d :: p :: post) s)
    (hm : MovableDot b d p) :
    Reads (pre ++ b :: ⟨d.gap ++ p.gap, d.word, d.kind⟩ :: ⟨[], p.word, p.kind⟩ :: post) s := by
  rw [Reads.append_iff] at h ⊢
  obtain ⟨hpre, hmid⟩ := h
  cases hmid with | cons hgb hwb hrb hmid =>
  cases hmid with | cons hgd hwd hrd hmid =>
  cases hmid with | cons hgp hwp hrp hpost =>
  simp only [cellsText_cons, List.append_assoc, List.nil_append] at hpre hrb hrd hrp ⊢
  have hword : ∀ x, (p.word ++ (cellsText post ++ s)).head? = some x → isWordStart x = true := by
    intro x hx
    rw [head?_append_of_ne_nil' hwp] at hx
    exact hrp.head_wordStart hm.property x hx
  -- the texts from the dot's new place on start with no `=`
  have hdotw : ∀ x, (d.word ++ (p.word ++ (cellsText post ++ s))).head? = some x →
      x = '.' ∨ x = '?' := by
    intro x hx
    rw [head?_append_of_ne_nil' hwd] at hx
    exact hm.dot_head x hx
  have hmoved : ∀ x, (p.gap ++ (d.word ++ (p.word ++ (cellsText post ++ s)))).head? = some x →
      x ≠ '=' :=
    head_of_incidental hgp (fun x hx => ne_eq_of_class (.inl hx))
      (fun x hx => ne_eq_of_class (.inr (hdotw x hx)))
  refine ⟨?pre, .cons hgb hwb ?before (.cons ?gap hwd ?dot (.cons (.nil _) hwp hrp hpost))⟩
  case pre =>
    -- only what follows the token before the dot changes
    refine hm.reads_before hpre hwb hrb hgd fun hx => ?_
    exact head_of_incidental hgd (fun x hx => ne_eq_of_class (.inl hx)) hmoved '=' hx rfl
  case before =>
    simp only [cellsText_cons, List.append_assoc, List.nil_append]
    by_cases hdg : d.gap = []
    · rw [hdg, List.nil_append] at hrb ⊢
      by_cases hpg : p.gap = []
      · -- nothing moved across
        rw [hpg, List.nil_append] at hrb ⊢
        exact hrb
      · -- now incidental text follows the token
        refine hrb.before hm.before fun x hx => ?_
        obtain ⟨z, t, hzt⟩ := List.exists_cons_of_ne_nil hpg
        rw [hzt, List.cons_append, List.head?_cons, Option.some.injEq] at hx
        subst hx
        rcases hgp.head _ (by rw [hzt]; rfl) with hz | hz
        · exact .inl hz
        · exact .inr (.inl hz)
    · -- the same incidental text follows the token, then something else
      have hdot : d.gap ≠ ['.'] := fun h => by
        rcases hgd.head '.' (by rw [h]; rfl) with h | h <;> revert h <;> decide
      have hx : (d.word ++ (p.gap ++ (p.word ++ (cellsText post ++ s)))).head? ≠ some '=' := by
        intro hx
        rw [head?_append_of_ne_nil' hwd] at hx
        rcases hm.dot_head '=' hx with h | h <;> cases h
      have hagree := secondAgrees_after hdg hdot hx fun hx' => hmoved '=' hx' rfl
      exact hrb.congr hagree.1 hagree.2
  case gap =>
    -- the property starts with no blank, so the gap before it holds no line comment
    obtain ⟨y₀, hy₀⟩ := Option.isSome_iff_exists.1 (List.isSome_head?.2 hwp)
    have hgp' : Incidental p.gap d.word.head? := by
      rw [hy₀] at hgp
      exact hgp.of_not_lineBreak (isLineBreak_of_isBlank_eq_false (hrp.head_not_blank y₀ hy₀)) _
    exact hm.gap_append hgd hgp'
  case dot =>
    simp only [cellsText_cons, List.nil_append, List.append_assoc]
    rw [hm.punct]
    exact readsWhole_dot hm.dot fun x hx => .inr (.inr (hword x hx))

/-- What a dot may be moved next to the token before it with: nothing or one space, and
the space whenever a `.` would otherwise follow a number of decimal digits only. -/
def SpaceFits (sp : List Char) (b d : Cell) : Prop :=
  (sp = [] ∨ sp = [' ']) ∧
    (sp = [] → d.word = ['.'] → b.kind = .numeric → ∃ x ∈ b.word, isDecimalDigit x = false)

/-- Moving a dot keeps the text read as the same tokens. -/
theorem reads_moveDot {pos : DotPosition} {sp : List Char}
    (h : Reads (pre ++ b :: d :: p :: post) s) (hm : MovableDot b d p)
    (hsp : pos = .object → SpaceFits sp b d) :
    Reads (moveDot pos sp (pre ++ b :: d :: p :: post) (pre.length + 1)) s := by
  have hsplit : pre ++ b :: d :: p :: post = (pre ++ [b]) ++ d :: p :: post := by simp
  rw [hsplit, show pre.length + 1 = (pre ++ [b]).length by simp, moveDot_append]
  cases pos with
  | object =>
    simpa only [DotLint.moveDot, List.append_assoc, List.singleton_append] using
      h.moveDot_object hm (hsp rfl).1 (hsp rfl).2
  | property =>
    simpa only [DotLint.moveDot, List.append_assoc, List.singleton_append] using
      h.moveDot_property hm

end Moves

/-! ## Moving several dots -/

/-- The tokens of cells: their texts and kinds. -/
def tokensOf (cs : List Cell) : List (List Char × TokenKind) := cs.map fun c => (c.word, c.kind)

/-- Moving a dot changes no token. -/
@[simp] lemma tokensOf_moveDot (pos : DotPosition) (sp : List Char) (cs : List Cell) (j : Nat) :
    tokensOf (moveDot pos sp cs j) = tokensOf cs := by
  induction cs generalizing j with
  | nil => cases j <;> rfl
  | cons c cs ih =>
    cases j with
    | zero =>
      cases cs with
      | nil => rfl
      | cons p rest => cases pos <;> rfl
    | succ j =>
      simp only [tokensOf] at ih ⊢
      simp [DotLint.moveDot, ih j]

/-- Cell `k` of `cs`, as far as its token goes. -/
lemma tokensOf_getElem? {cs : List Cell} {k : Nat} :
    (tokensOf cs)[k]? = cs[k]?.map fun c => (c.word, c.kind) := by
  simp [tokensOf]

/-- The dot of cell `k` can be moved, with `sp` before it for the object position. -/
structure DotMove (pos : DotPosition) (cs : List Cell) (k : Nat) (sp : List Char) : Prop where
  after_first : 1 ≤ k
  cells : ∃ b d p, cs[k - 1]? = some b ∧ cs[k]? = some d ∧ cs[k + 1]? = some p ∧
    MovableDot b d p ∧ (pos = .object → SpaceFits sp b d)

/-- Whether a dot can be moved depends on the tokens alone. -/
lemma DotMove.congr {pos : DotPosition} {cs cs' : List Cell} {k : Nat} {sp : List Char}
    (h : DotMove pos cs k sp) (ht : tokensOf cs' = tokensOf cs) : DotMove pos cs' k sp := by
  obtain ⟨hk, b, d, p, hb, hd, hp, hm, hsp⟩ := h
  have hget : ∀ (i : Nat) (c : Cell), cs[i]? = some c → ∃ c' : Cell, cs'[i]? = some c' ∧ c'.word = c.word ∧
      c'.kind = c.kind := by
    intro i c hc
    have := congrArg (·[i]?) ht
    simp only [tokensOf_getElem?, hc, Option.map_some] at this
    obtain ⟨c', hc', hcc⟩ := Option.map_eq_some_iff.1 this
    simp only [Prod.mk.injEq] at hcc
    exact ⟨c', hc', hcc⟩
  obtain ⟨b', hb', hbw, hbk⟩ := hget _ _ hb
  obtain ⟨d', hd', hdw, hdk⟩ := hget _ _ hd
  obtain ⟨p', hp', hpw, hpk⟩ := hget _ _ hp
  refine ⟨hk, b', d', p', hb', hd', hp', ?_, ?_⟩
  · obtain ⟨h1, h2, h3, h4⟩ := hm
    exact ⟨hdw ▸ h1, hdk ▸ h2, hbk ▸ hbw ▸ h3, hpk ▸ h4⟩
  · intro hpos
    obtain ⟨h1, h2⟩ := hsp hpos
    exact ⟨h1, hdw ▸ hbk ▸ hbw ▸ h2⟩

/-- A list cut around three consecutive elements. -/
lemma exists_split {α : Type} {l : List α} {k : Nat} {b d p : α} (hk : 1 ≤ k)
    (hb : l[k - 1]? = some b) (hd : l[k]? = some d) (hp : l[k + 1]? = some p) :
    ∃ pre post, l = pre ++ b :: d :: p :: post ∧ pre.length + 1 = k := by
  obtain ⟨hlt, hbe⟩ := List.getElem?_eq_some_iff.1 hp
  refine ⟨l.take (k - 1), l.drop (k + 2), ?_, ?_⟩
  · have hdrop : l.drop (k - 1) = b :: d :: p :: l.drop (k + 2) := by
      rw [List.drop_eq_getElem_cons (by omega), List.drop_eq_getElem_cons (by omega),
        List.drop_eq_getElem_cons (by omega)]
      simp only [show k - 1 + 1 = k by omega, show k + 1 + 1 = k + 2 by omega]
      rw [List.getElem?_eq_some_iff] at hb hd
      obtain ⟨_, rfl⟩ := hb
      obtain ⟨_, rfl⟩ := hd
      rw [hbe]
    rw [← hdrop, List.take_append_drop]
  · rw [List.length_take, Nat.min_eq_left (by omega)]
    omega

/-- Moving dots one after another keeps the text read as the same tokens: each move keeps
every token, so every other dot can still be moved. -/
theorem reads_moveDots {pos : DotPosition} {cs : List Cell} {s : List Char} (h : Reads cs s)
    (moves : List (Nat × List Char)) (hmv : ∀ m ∈ moves, DotMove pos cs m.1 m.2) :
    Reads (moves.foldl (fun cs m => moveDot pos m.2 cs m.1) cs) s := by
  induction moves generalizing cs with
  | nil => exact h
  | cons m moves ih =>
    rw [List.foldl_cons]
    obtain ⟨hk, b, d, p, hb, hd, hp, hm, hsp⟩ := hmv m (List.mem_cons_self)
    obtain ⟨pre, post, rfl, hlen⟩ := exists_split hk hb hd hp
    refine ih (hlen ▸ reads_moveDot h hm hsp) fun m' hm' => ?_
    rw [← hlen]
    exact (hmv m' (List.mem_cons_of_mem _ hm')).congr (tokensOf_moveDot _ _ _ _)

end DotLint
