import Mathlib.Data.List.Perm.Basic
import DotLint.Proofs.DotMoves
import DotLint.Proofs.FixApply
import DotLint.Proofs.LintFindings

/-!
# Fixing dots, as moves of cells

A text that lexes is cut into cells, each a token with the incidental text before it
(`lexFrom_eq_cells`). This module follows the fixes `check` gives for the dots of member
accesses through `applyFixes` on such a text:

* the finding `check` gives on a member access carries the fix of its dot (`check_fix`),
  which covers the bytes from the end of the token before the dot to the end of the dot, or
  from the start of the dot to the start of the token after it (`dotFix_span?`); fixes of
  dots two tokens apart or more are apart (`dotFixSpan_apart`);
* the edits of one fix, latest first, move the dot as `moveDot` does, in any text whose cells
  agree with the tokens' cells up to the token after the dot (`foldlM_dotFix`), and fixes
  applied from the last dot to the first move every dot (`foldlM_dotFixes`);
* so `applyFixes` takes the fixes of any dots two tokens apart or more, skips none, and gives
  the text of the cells with those dots moved (`applyFixes_dotFixes`).
-/

namespace DotLint

open Parse

/-! ## The fix of a dot -/

/-- The fix `check` gives for the dot at token `k`: under the object position the dot is put
at the end of the token before it, after a space where that token is a decimal integer and
the dot a `.`, and removed where it stands; under the property position it is removed and
put at the start of the token after it. -/
def dotFix (pos : DotPosition) (ts : Array Token) (k : Nat) : Fix :=
  let b := ts[k - 1]?.getD default
  let dot := ts[k]?.getD default
  match pos with
  | .object =>
    ⟨[.insert b.span.stop
        (if dot.text.startsWith "." && DotLocation.isDecimalInteger b then " " ++ dot.text
          else dot.text),
      .remove dot.span]⟩
  | .property => ⟨[.remove dot.span, .insert (ts[k + 1]?.getD default).span.start dot.text]⟩

/-- What the fix of the dot at token `k` puts between the token before it and the dot under
the object position: a space after a decimal integer when the dot is a `.`. -/
def dotSpace (ts : Array Token) (k : Nat) : List Char :=
  if (ts[k]?.getD default).text.startsWith "." &&
      DotLocation.isDecimalInteger (ts[k - 1]?.getD default) then [' '] else []

/-- The bytes the fix of the dot at token `k` covers. -/
def dotFixSpan (pos : DotPosition) (ts : Array Token) (k : Nat) : Span :=
  match pos with
  | .object => ⟨(ts[k - 1]?.getD default).span.stop, (ts[k]?.getD default).span.stop⟩
  | .property => ⟨(ts[k]?.getD default).span.start, (ts[k + 1]?.getD default).span.start⟩

variable {ts : Array Token} {k : Nat} {pos : DotPosition}

/-- The finding `check` gives on a member access by name carries the fix of its dot. -/
lemma check_fix {src : List Char} {M : Node} (hord : InTextOrder ts.toList)
    (hmd : MemberDot ts M k) (hk : 1 ≤ k) {d : Diagnostic}
    (h : DotLocation.check pos ⟨src, ts⟩ M = some d) : d.fix = dotFix pos ts k := by
  obtain ⟨hkind, hnamed, ⟨t, ht, hprop⟩, hisdot⟩ := hmd
  obtain ⟨dot, hdot⟩ := exists_of_isDotAt hisdot
  obtain ⟨b, hb⟩ : ∃ b, ts[k - 1]? = some b :=
    ⟨_, Array.getElem?_eq_getElem (by have := (Array.getElem?_eq_some_iff.1 hdot).1; omega)⟩
  have hafter : (⟨src, ts⟩ : TokenCursor).before? t.span = some k :=
    TokenCursor.before?_eq hord ht
  have hbefore : (⟨src, ts⟩ : TokenCursor).before? dot.span = some (k - 1) :=
    TokenCursor.before?_eq hord (by rw [Nat.sub_add_cancel hk]; exact hdot)
  cases pos with
  | object =>
    simp [DotLocation.check, hkind, hnamed, hprop, identifierNode, hafter, hdot, hbefore,
      hb] at h
    obtain ⟨-, -, rfl⟩ := h
    simp [dotFix, hb, hdot]
  | property =>
    simp [DotLocation.check, hkind, hnamed, hprop, identifierNode, hafter, hdot] at h
    obtain ⟨-, -, rfl⟩ := h
    simp [dotFix, hdot, ht]

section Spans

variable (hord : InTextOrder ts.toList)
include hord

/-- A fix of a dot with a token on each side covers its span. -/
lemma dotFix_span? (hk : 1 ≤ k) (hsize : k + 1 < ts.size) :
    (dotFix pos ts k).span? = some (dotFixSpan pos ts k) ∧
      (dotFixSpan pos ts k).start < (dotFixSpan pos ts k).stop := by
  have hb : ts[k - 1]? = some ts[k - 1] := Array.getElem?_eq_getElem (by omega)
  have hd : ts[k]? = some ts[k] := Array.getElem?_eq_getElem (by omega)
  have hp : ts[k + 1]? = some ts[k + 1] := Array.getElem?_eq_getElem hsize
  have hbd := hord.stop_le_start (by omega) hb hd
  have hdp := hord.stop_le_start (by omega) hd hp
  have hdot := (hord.nonempty_of_getElem? hd).1
  cases pos with
  | object =>
    simp only [dotFix, dotFixSpan, Fix.span?, hb, hd, Option.getD_some, List.map_cons,
      List.map_nil, List.foldl_cons, List.foldl_nil, Edit.span, Span.cover]
    refine ⟨?_, by omega⟩
    congr 2 <;> omega
  | property =>
    simp only [dotFix, dotFixSpan, Fix.span?, hp, hd, Option.getD_some, List.map_cons,
      List.map_nil, List.foldl_cons, List.foldl_nil, Edit.span, Span.cover]
    refine ⟨?_, by omega⟩
    congr 2 <;> omega

/-- Fixes of dots two tokens apart or more cover bytes one after the other. -/
lemma dotFixSpan_apart {k' : Nat} (hk : 1 ≤ k) (hkk : k + 2 ≤ k') (hsize : k' + 1 < ts.size) :
    (dotFixSpan pos ts k).stop ≤ (dotFixSpan pos ts k').start := by
  have hget : ∀ i (hi : i < ts.size), ts[i]? = some ts[i] := fun i hi =>
    Array.getElem?_eq_getElem hi
  cases pos with
  | object =>
    -- the dot ends before the token ahead of the later dot starts
    simp only [dotFixSpan, hget k (by omega), hget (k' - 1) (by omega), Option.getD_some]
    have h1 := hord.stop_le_start (by omega) (hget k (by omega)) (hget (k' - 1) (by omega))
    have h2 := (hord.nonempty_of_getElem? (hget (k' - 1) (by omega))).1
    omega
  | property =>
    -- the token after the dot ends before the later dot starts
    simp only [dotFixSpan, hget (k + 1) (by omega), hget k' (by omega), Option.getD_some]
    have h1 := hord.stop_le_start (by omega) (hget (k + 1) (by omega)) (hget k' (by omega))
    have h2 := (hord.nonempty_of_getElem? (hget (k + 1) (by omega))).1
    omega

end Spans

/-! ## One fix on the cells of a text -/

section Cells

variable {pre₀ last : List Char} {pre post : List Cell} {b d p : Cell} {P : Position}

/-- The tokens of the three cells around a dot. -/
lemma cellTokens_around {off : Nat}
    (hts : ts.toList = cellTokens last (pre ++ b :: d :: p :: post) off P) :
    ∃ tb td tp, ts[pre.length]? = some tb ∧ ts[pre.length + 1]? = some td ∧
      ts[pre.length + 2]? = some tp ∧
      tb.span.stop = off + byteSize (cellsText pre ++ b.gap ++ b.word) ∧
      td.span = ⟨tb.span.stop + byteSize d.gap, tb.span.stop + byteSize d.gap + byteSize d.word⟩ ∧
      td.text = String.ofList d.word ∧ tp.span.start = td.span.stop + byteSize p.gap := by
  have hget : ∀ j, ts[pre.length + j]? = (cellTokens last (b :: d :: p :: post)
      (off + byteSize (cellsText pre))
      (P.advance (cellsText pre).length (cellsText (pre ++ b :: d :: p :: post) ++ last)))[j]? := by
    intro j
    rw [← Array.getElem?_toList, hts, cellTokens_append,
      List.getElem?_append_right (by simp [cellTokens_length])]
    simp [cellTokens_length]
  have h0 := hget 0
  have h1 := hget 1
  have h2 := hget 2
  simp only [cellTokens, List.getElem?_cons_zero, List.getElem?_cons_succ, Nat.add_zero] at h0 h1 h2
  refine ⟨_, _, _, h0, h1, h2, ?_, ?_, rfl, ?_⟩
  · simp only [byteSize_append]
    omega
  · rfl
  · rfl

lemma moveDot_around (pos : DotPosition) (sp : List Char) (pre : List Cell) (b d p : Cell)
    (post : List Cell) :
    moveDot pos sp (pre ++ b :: d :: p :: post) (pre.length + 1) =
      pre ++ b :: moveDot pos sp (d :: p :: post) 0 := by
  simpa using moveDot_append pos sp (pre ++ [b]) d p post

/-- The edits of the fix of a dot, latest first, move the dot: in a text whose cells agree
with the cells of the tokens up to the token after the dot, they give the text of the same
cells with the dot moved. -/
lemma foldlM_dotFix
    (hts : ts.toList = cellTokens last (pre ++ b :: d :: p :: post) (byteSize pre₀) P)
    (post' : List Cell) (pos : DotPosition) :
    (dotFix pos ts (pre.length + 1)).edits.reverse.foldlM (fun cs e => e.applyTo cs)
        (pre₀ ++ cellsText (pre ++ b :: d :: p :: post') ++ last) =
      some (pre₀ ++ cellsText (moveDot pos (dotSpace ts (pre.length + 1))
        (pre ++ b :: d :: p :: post') (pre.length + 1)) ++ last) := by
  obtain ⟨tb, td, tp, hb, hd, hp, hbs, hds, hdt, hps⟩ := cellTokens_around hts
  -- the text up to the gap before the dot, and the text after the dot
  obtain ⟨X, hX⟩ : ∃ X, X = pre₀ ++ cellsText pre ++ b.gap ++ b.word := ⟨_, rfl⟩
  obtain ⟨R, hR⟩ : ∃ R, R = p.gap ++ p.word ++ cellsText post' ++ last := ⟨_, rfl⟩
  have hstop : tb.span.stop = byteSize X := by
    rw [hbs, hX]
    simp only [byteSize_append]
    omega
  have htext : pre₀ ++ cellsText (pre ++ b :: d :: p :: post') ++ last =
      X ++ d.gap ++ d.word ++ R := by
    simp [hX, hR]
  have hdot : td.span = ⟨byteSize (X ++ d.gap), byteSize (X ++ d.gap) + byteSize d.word⟩ := by
    rw [hds, hstop, byteSize_append]
  rw [htext, moveDot_around]
  cases pos with
  | object =>
    have hins : (if td.text.startsWith "." && DotLocation.isDecimalInteger tb then " " ++ td.text
        else td.text).toList = dotSpace ts (pre.length + 1) ++ d.word := by
      simp only [dotSpace, Nat.add_sub_cancel, hb, hd, Option.getD_some]
      split <;> simp [hdt]
    simp only [dotFix, Nat.add_sub_cancel, hb, hd, Option.getD_some, List.reverse_cons,
      List.reverse_nil, List.nil_append, List.cons_append, List.foldlM_cons, List.foldlM_nil,
      hdot, Edit.applyTo_remove, hstop]
    rw [List.append_assoc X d.gap R]
    simp only [Option.bind_eq_bind, Option.bind_some, Edit.applyTo_insert, hins]
    simp [hX, hR, DotLint.moveDot]
  | property =>
    have hins : tp.span.start = byteSize (X ++ d.gap ++ d.word ++ p.gap) := by
      rw [hps, hdot]
      simp only [byteSize_append]
    simp only [dotFix, hp, hd, Option.getD_some, List.reverse_cons, List.reverse_nil,
      List.nil_append, List.cons_append, List.foldlM_cons, List.foldlM_nil, hins]
    rw [show X ++ d.gap ++ d.word ++ R = X ++ d.gap ++ d.word ++ p.gap ++
      (p.word ++ cellsText post' ++ last) by simp [hR]]
    simp only [Option.bind_eq_bind, Option.bind_some, Edit.applyTo_insert, hdt,
      String.toList_ofList]
    rw [hdot, show X ++ d.gap ++ d.word ++ p.gap ++ d.word ++ (p.word ++ cellsText post' ++ last) =
      X ++ d.gap ++ d.word ++ (p.gap ++ d.word ++ p.word ++ cellsText post' ++ last) by simp,
      Edit.applyTo_remove]
    simp [hX, DotLint.moveDot]

/-- Moving a dot leaves every cell before it as it was. -/
lemma take_moveDot (pos : DotPosition) (sp : List Char) (cs : List Cell) {i j : Nat}
    (h : i ≤ j) : (moveDot pos sp cs j).take i = cs.take i := by
  induction cs generalizing i j with
  | nil => cases j <;> rfl
  | cons c cs ih =>
    cases i with
    | zero => simp
    | succ i =>
      obtain ⟨j, rfl⟩ : ∃ j', j = j' + 1 := ⟨j - 1, by omega⟩
      simp [DotLint.moveDot, ih (Nat.le_of_succ_le_succ h)]

/-- Fixes of dots two tokens apart or more, applied from the last dot to the first, move
every dot: each fix finds the cells up to the token after its dot as the tokens have them,
since the fixes before it moved dots further on. -/
lemma foldlM_dotFixes {cs : List Cell}
    (hts : ts.toList = cellTokens last cs (byteSize pre₀) P) (pos : DotPosition) :
    ∀ (ks : List Nat) (cur : List Cell), ks.Pairwise (fun a b => b + 2 ≤ a) →
      (∀ k ∈ ks, 1 ≤ k ∧ k + 1 < cs.length ∧ cur.take (k + 2) = cs.take (k + 2)) →
      (ks.flatMap fun k => (dotFix pos ts k).edits.reverse).foldlM (fun cs e => e.applyTo cs)
          (pre₀ ++ cellsText cur ++ last) =
        some (pre₀ ++ cellsText (ks.foldl (fun cs k => moveDot pos (dotSpace ts k) cs k) cur) ++
          last)
  | [], cur, _, _ => rfl
  | k :: ks, cur, hpair, hks => by
    obtain ⟨hk, hlen, htake⟩ := hks k List.mem_cons_self
    -- the cells around the dot, as the tokens have them and as the text has them now
    obtain ⟨b, hb⟩ : ∃ b, cs[k - 1]? = some b := ⟨_, List.getElem?_eq_getElem (by omega)⟩
    obtain ⟨d, hd⟩ : ∃ d, cs[k]? = some d := ⟨_, List.getElem?_eq_getElem (by omega)⟩
    obtain ⟨p, hp⟩ : ∃ p, cs[k + 1]? = some p := ⟨_, List.getElem?_eq_getElem hlen⟩
    obtain ⟨pre, post, rfl, rfl⟩ := exists_split hk hb hd hp
    have hcur : cur = pre ++ b :: d :: p :: cur.drop (pre.length + 1 + 2) := by
      conv_lhs => rw [← List.take_append_drop (pre.length + 1 + 2) cur, htake]
      simp [List.take_append, show pre.length + 1 + 2 - pre.length = 3 by omega,
        List.take_of_length_le (show pre.length ≤ pre.length + 1 + 2 by omega)]
    have hstep := foldlM_dotFix hts (cur.drop (pre.length + 1 + 2)) pos
    rw [← hcur] at hstep
    rw [List.flatMap_cons, List.foldlM_append, hstep, List.foldl_cons]
    refine foldlM_dotFixes hts pos ks _ (List.pairwise_cons.1 hpair).2 fun k' hk' => ?_
    obtain ⟨hk'1, hk'len, htake'⟩ := hks k' (List.mem_cons_of_mem _ hk')
    have hapart := (List.pairwise_cons.1 hpair).1 k' hk'
    exact ⟨hk'1, hk'len, (take_moveDot pos _ cur (by omega)).trans htake'⟩

end Cells

/-! ## Moving dots in any order -/

/-- Moves of dots two cells apart or more touch different cells, so they commute. -/
lemma moveDot_comm (pos : DotPosition) (sp sp' : List Char) (cs : List Cell) {i j : Nat}
    (h : i + 2 ≤ j) :
    moveDot pos sp (moveDot pos sp' cs j) i = moveDot pos sp' (moveDot pos sp cs i) j := by
  induction i generalizing cs j with
  | zero =>
    obtain ⟨j, rfl⟩ : ∃ j', j = j' + 2 := ⟨j - 2, by omega⟩
    match cs with
    | [] => rfl
    | [c] => rfl
    | d :: p :: rest => cases pos <;> simp [DotLint.moveDot]
  | succ i ih =>
    obtain ⟨j, rfl⟩ : ∃ j', j = j' + 1 := ⟨j - 1, by omega⟩
    cases cs with
    | nil => rfl
    | cons c cs => simp only [DotLint.moveDot, @ih cs j (by omega)]

/-- The cells with the dot of each cell in `ks` moved, with the space the fix of the token's
dot puts before it. -/
def moveDots (pos : DotPosition) (ts : Array Token) (ks : List Nat) (cs : List Cell) :
    List Cell :=
  ks.foldl (fun cs k => moveDot pos (dotSpace ts k) cs k) cs

@[simp] lemma moveDots_nil (cs : List Cell) : moveDots pos ts [] cs = cs := rfl

@[simp] lemma moveDots_cons (k : Nat) (ks : List Nat) (cs : List Cell) :
    moveDots pos ts (k :: ks) cs = moveDots pos ts ks (moveDot pos (dotSpace ts k) cs k) := rfl

/-- Two different members of a list of numbers pairwise two apart or more are two apart. -/
lemma apart_of_mem {ks : List Nat} (hapart : ks.Pairwise fun a b => a + 2 ≤ b ∨ b + 2 ≤ a)
    {x y : Nat} (hx : x ∈ ks) (hy : y ∈ ks) (hxy : x ≠ y) : x + 2 ≤ y ∨ y + 2 ≤ x := by
  obtain ⟨i, hi, rfl⟩ := List.getElem_of_mem hx
  obtain ⟨j, hj, rfl⟩ := List.getElem_of_mem hy
  have hpw := List.pairwise_iff_getElem.1 hapart
  rcases Nat.lt_trichotomy i j with hij | rfl | hij
  · exact hpw i j hi hj hij
  · exact absurd rfl hxy
  · exact (hpw j i hj hi hij).symm

/-- Dots two cells apart or more are moved to the same cells in any order. -/
lemma moveDots_perm {ks ks' : List Nat} (h : ks.Perm ks')
    (hapart : ks.Pairwise fun a b => a + 2 ≤ b ∨ b + 2 ≤ a) (cs : List Cell) :
    moveDots pos ts ks cs = moveDots pos ts ks' cs := by
  refine h.foldl_eq' (fun x hx y hy cs => ?_) cs
  by_cases hxy : x = y
  · rw [hxy]
  · rcases apart_of_mem hapart hx hy hxy with hle | hle
    · exact (moveDot_comm pos _ _ _ hle).symm
    · exact moveDot_comm pos _ _ _ hle

/-! ## Applying the fixes of dots -/

section Apply

variable (hord : InTextOrder ts.toList)
include hord

/-- The edits of the fix of a dot, latest first, each go strictly before the next. -/
lemma dotFix_edits_reverse (hk : 1 ≤ k) (hsize : k + 1 < ts.size) :
    (dotFix pos ts k).edits.reverse.Pairwise fun a b => Edit.appliesBefore b a = false := by
  have hb : ts[k - 1]? = some ts[k - 1] := Array.getElem?_eq_getElem (by omega)
  have hd : ts[k]? = some ts[k] := Array.getElem?_eq_getElem (by omega)
  have hp : ts[k + 1]? = some ts[k + 1] := Array.getElem?_eq_getElem hsize
  have hbd := hord.stop_le_start (by omega) hb hd
  have hdp := hord.stop_le_start (by omega) hd hp
  have hdot := (hord.nonempty_of_getElem? hd).1
  cases pos with
  | object =>
    simp [dotFix, hb, hd, Edit.appliesBefore, Edit.span, Edit.isInsert]
    exact decide_eq_false (by omega)
  | property =>
    simp [dotFix, hd, hp, Edit.appliesBefore, Edit.span, Edit.isInsert]
    exact ⟨decide_eq_false (by omega), by omega⟩

/-- The edits of the fix of a dot all start after those of the fix of a dot two tokens or
more before it. -/
lemma dotFix_edits_after {k' : Nat} (hk' : 1 ≤ k') (hkk : k' + 2 ≤ k) (hsize : k + 1 < ts.size) :
    ∀ x ∈ (dotFix pos ts k).edits, ∀ y ∈ (dotFix pos ts k').edits, y.span.start < x.span.start := by
  have hget : ∀ i (hi : i < ts.size), ts[i]? = some ts[i] := fun i hi =>
    Array.getElem?_eq_getElem hi
  -- the earlier fix acts before the end of the token after its dot, the later one after the
  -- end of the token before its dot
  have h1 := hord.stop_le_start (by omega) (hget (k' - 1) (by omega)) (hget k' (by omega))
  have h2 := hord.stop_le_start (by omega) (hget k' (by omega)) (hget (k' + 1) (by omega))
  have h3 := (hord.nonempty_of_getElem? (hget (k' + 1) (by omega))).1
  have h4 := hord.stop_le_stop (by omega) (hget (k' + 1) (by omega)) (hget (k - 1) (by omega))
  have h5 := hord.stop_le_start (by omega) (hget (k - 1) (by omega)) (hget k (by omega))
  have h6 := hord.stop_le_start (by omega) (hget k (by omega)) (hget (k + 1) (by omega))
  have h7 := (hord.nonempty_of_getElem? (hget k (by omega))).1
  have h8 := (hord.nonempty_of_getElem? (hget k' (by omega))).1
  cases pos with
  | object =>
    simp only [dotFix, hget (k - 1) (by omega), hget k (by omega), hget (k' - 1) (by omega),
      hget k' (by omega), Option.getD_some, List.mem_cons, List.not_mem_nil, or_false]
    rintro x (rfl | rfl) y (rfl | rfl) <;> simp only [Edit.span] <;> omega
  | property =>
    simp only [dotFix, hget k (by omega), hget (k + 1) (by omega), hget k' (by omega),
      hget (k' + 1) (by omega), Option.getD_some, List.mem_cons, List.not_mem_nil, or_false]
    rintro x (rfl | rfl) y (rfl | rfl) <;> simp only [Edit.span] <;> omega

/-- The fixes of dots two tokens apart or more are all taken, none is skipped, and together
they give the text of the cells with every one of those dots moved. -/
theorem applyFixes_dotFixes {src : String} {pre₀ last : List Char} {cs : List Cell}
    {P : Position} (hsrc : src.toList = pre₀ ++ cellsText cs ++ last)
    (hts : ts.toList = cellTokens last cs (byteSize pre₀) P) {ks : List Nat}
    (hks : ∀ k ∈ ks, 1 ≤ k ∧ k + 1 < ts.size)
    (hapart : ks.Pairwise fun a b => a + 2 ≤ b ∨ b + 2 ≤ a) (pos : DotPosition) :
    applyFixes src (ks.map (dotFix pos ts)) =
      some ⟨String.ofList (pre₀ ++ cellsText (moveDots pos ts ks cs) ++ last), ks.length, 0⟩ := by
  have hlen : cs.length = ts.size := by
    rw [← Array.length_toList, hts, cellTokens_length]
  -- every fix covers a span of its own, and the spans are apart
  have hspan : ∀ f ∈ ks.map (dotFix pos ts), ∃ sp, f.span? = some sp ∧ sp.start < sp.stop := by
    intro f hf
    obtain ⟨k, hk, rfl⟩ := List.mem_map.1 hf
    exact ⟨_, dotFix_span? hord (hks k hk).1 (hks k hk).2⟩
  have hfixes : (ks.map (dotFix pos ts)).Pairwise fun f g => ∀ a b, f.span? = some a →
      g.span? = some b → a.stop ≤ b.start ∨ b.stop ≤ a.start := by
    rw [List.pairwise_map]
    refine hapart.imp_of_mem fun {k k'} hk hk' hkk a b ha hb => ?_
    rw [(dotFix_span? hord (hks k hk).1 (hks k hk).2).1, Option.some.injEq] at ha
    rw [(dotFix_span? hord (hks k' hk').1 (hks k' hk').2).1, Option.some.injEq] at hb
    subst ha hb
    rcases hkk with hkk | hkk
    · exact .inl (dotFixSpan_apart hord (hks k hk).1 hkk (hks k' hk').2)
    · exact .inr (dotFixSpan_apart hord (hks k' hk').1 hkk (hks k hk).2)
  obtain ⟨fixes', hperm, heq⟩ := applyFixes_eq hspan hfixes
  rw [heq, List.length_map]
  -- the dots from the last to the first, and their edits in that order
  obtain ⟨kd, hkd⟩ : ∃ kd, ks.mergeSort (fun a b => decide (b ≤ a)) = kd := ⟨_, rfl⟩
  have hkdperm : kd.Perm ks := hkd ▸ List.mergeSort_perm _ _
  have hkddesc : kd.Pairwise fun a b => b + 2 ≤ a := by
    have hsorted := hkd ▸ @List.pairwise_mergeSort _ (fun a b : Nat => decide (b ≤ a))
      (fun a b c hab hbc => by simp only [decide_eq_true_eq] at hab hbc ⊢; omega)
      (fun a b => by simp only [Bool.or_eq_true, decide_eq_true_eq]; omega) ks
    have happ := (hkdperm.pairwise_iff fun h => h.symm).2 hapart
    exact (hsorted.and happ).imp fun ⟨hle, hne⟩ => by simp only [decide_eq_true_eq] at hle; omega
  have hkdmem : ∀ k ∈ kd, 1 ≤ k ∧ k + 1 < ts.size := fun k hk => hks k (hkdperm.subset hk)
  have htarget : (kd.flatMap fun k => (dotFix pos ts k).edits.reverse).Perm
      (fixes'.flatMap Fix.edits) := by
    refine .trans ?_ (hperm.symm.flatMap_right Fix.edits)
    rw [List.flatMap_map]
    exact hkdperm.flatMap fun k _ => List.reverse_perm _
  have hstrict : (kd.flatMap fun k => (dotFix pos ts k).edits.reverse).Pairwise
      fun a b => Edit.appliesBefore b a = false := by
    rw [List.pairwise_flatMap]
    refine ⟨fun k hk => dotFix_edits_reverse hord (hkdmem k hk).1 (hkdmem k hk).2,
      hkddesc.imp_of_mem fun {k k'} hk hk' hkk x hx y hy => ?_⟩
    have := dotFix_edits_after hord (hkdmem k' hk').1 hkk (hkdmem k hk).2 x
      (List.mem_reverse.1 hx) y (List.mem_reverse.1 hy)
    simp [Edit.appliesBefore, Nat.ne_of_lt this, decide_eq_false (Nat.not_lt.2 this.le)]
  rw [applyEdits, Edit.mergeSort_appliesBefore htarget hstrict, hsrc,
    foldlM_dotFixes hts pos kd cs hkddesc fun k hk =>
      ⟨(hkdmem k hk).1, hlen ▸ (hkdmem k hk).2, rfl⟩]
  simp only [Option.map_some]
  rw [show kd.foldl (fun cs k => moveDot pos (dotSpace ts k) cs k) cs = moveDots pos ts ks cs from
    moveDots_perm hkdperm ((hkdperm.pairwise_iff fun h => h.symm).2 hapart) cs]

end Apply

end DotLint
