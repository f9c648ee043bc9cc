import Mathlib.Tactic.Lemma
import DotLint.Proofs.DotFixes
import DotLint.Proofs.LineBreaks

/-!
# The text the fixes of dots give

The dot of a member access by name stands at a dot site: a `.` or `?.` after a token that
no construct ends with and before a name (`MemberDot.site`). Dot sites are two tokens apart
or more, and the dot of a site can be moved in the cells of a text (`DotSite.dotMove`).

Fixing the dots of some sites gives the text of the cells with those dots moved
(`applyFixes_dotFixes`); this module shows what that text lexes to. Its tokens have the
same kinds and texts, and the parser sees the same line breaks except right before a moved
dot or the token after it (`fixedText_agrees`); and a dot is misplaced in it exactly when it
was misplaced before and not moved (`fixedText_misplaced_iff`).
-/

namespace DotLint

open Parse Lexical

/-! ## Dot sites -/

/-- The tokens around the dot of a member access by name: a `.` or `?.` after a token that
no construct ends with, and before a name. -/
structure DotSite (ts : Array Token) (k : Nat) : Prop where
  after_first : 1 ≤ k
  dot : isDotAt ts k = true
  before : isOpenAt ts (k - 1) = false
  property : ∃ t, ts[k + 1]? = some t ∧ t.kind ≠ .punctuator ∧ t.kind ≠ .numeric ∧
    t.kind ≠ .string

variable {ts : Array Token} {k : Nat} {pos : DotPosition}

/-- The dot of a member access by name with the dot facts stands at a dot site. -/
lemma MemberDot.site (hord : InTextOrder ts.toList) {M : Node} (hM : M.DotFacts ts)
    (h : MemberDot ts M k) : DotSite ts k := by
  obtain ⟨k', t, o, optional, hk', ht, hkind, hfields, hdot, hopen⟩ := hM.2.1 h.member h.named
  -- the property of the access is token `k'`, so its dot is token `k' - 1`
  obtain ⟨t₁, ht₁, hp₁⟩ := h.property
  have hprop : identifierNode t = identifierNode t₁ := by
    simpa [Node.child?, Node.field?, hfields] using hp₁
  have hspan : t.span = t₁.span := by
    simp only [identifierNode, Node.mk.injEq] at hprop
    exact hprop.2.1
  obtain rfl : k' = k + 1 := hord.index_eq ht ht₁ (by rw [hspan])
  simp only [bne_iff_ne, ne_eq, Bool.and_eq_true] at hkind
  exact ⟨by omega, h.dot, by simpa using hopen, t, ht, hkind.1.1, hkind.1.2, hkind.2⟩

namespace DotSite

lemma size_lt (h : DotSite ts k) : k + 1 < ts.size := by
  obtain ⟨t, ht, -⟩ := h.property
  exact (Array.getElem?_eq_some_iff.1 ht).1

/-- The token after a dot site is no dot. -/
lemma next_not_dot (h : DotSite ts k) : isDotAt ts (k + 1) = false := by
  obtain ⟨t, ht, hpunct, -⟩ := h.property
  exact isDotAt_of_kind ht hpunct

/-- Different dot sites are two tokens apart or more. -/
lemma apart {k' : Nat} (h : DotSite ts k) (h' : DotSite ts k') (hne : k ≠ k') :
    k + 2 ≤ k' ∨ k' + 2 ≤ k := by
  have h1 : k' ≠ k + 1 := fun he => by simpa [he, h.next_not_dot] using h'.dot
  have h2 : k ≠ k' + 1 := fun he => by simpa [he, h'.next_not_dot] using h.dot
  omega

end DotSite

/-- Distinct dot sites, listed, are pairwise two tokens apart or more. -/
lemma pairwise_apart {ks : List Nat} (hks : ∀ k ∈ ks, DotSite ts k) (hnd : ks.Nodup) :
    ks.Pairwise fun a b => a + 2 ≤ b ∨ b + 2 ≤ a :=
  List.Pairwise.imp_of_mem (fun {a b} ha hb hab => (hks a ha).apart (hks b hb) hab) hnd

/-! ## Dot sites in cells -/

/-- A number read from text starts with a digit or a point. -/
lemma ReadsWhole.numeric_head {w r : List Char} {kind : TokenKind} (h : ReadsWhole w kind r)
    (hk : kind = .numeric) : ∃ c ws, w = c :: ws ∧ (c.isDigit = true ∨ c = '.') := by
  obtain ⟨c, ws, rfl, hread⟩ := h
  generalize ws.length = n at hread
  cases hread with
  | string => cases hk
  | number hd => exact ⟨_, _, rfl, hd.imp id And.left⟩
  | word =>
    unfold wordKind at hk
    split_ifs at hk
  | punctuator => cases hk

/-- Every cell of read cells holds a token read whole from the text. -/
lemma Reads.readsWhole {cs : List Cell} {s : List Char} (h : Reads cs s) {i : Nat} {c : Cell}
    (hc : cs[i]? = some c) : ∃ r, ReadsWhole c.word c.kind r := by
  induction h generalizing i with
  | nil => simp at hc
  | @cons c' cs s _ _ hr _ ih =>
    cases i with
    | zero =>
      simp only [List.getElem?_cons_zero, Option.some.injEq] at hc
      exact hc ▸ ⟨_, hr⟩
    | succ i => exact ih hc

section Cells

variable {cs : List Cell} {last : List Char} {off : Nat} {P : Position}

/-- The token of a cell has the cell's kind and text. -/
lemma cellTokens_getElem?_some (hts : ts.toList = cellTokens last cs off P) {i : Nat} {c : Cell}
    (hc : cs[i]? = some c) : ∃ t, ts[i]? = some t ∧ t.kind = c.kind ∧ t.text = String.ofList c.word := by
  rw [← Array.getElem?_toList, hts, cellTokens_getElem?, hc]
  exact ⟨_, rfl, rfl, rfl⟩

lemma length_eq_size (hts : ts.toList = cellTokens last cs off P) : cs.length = ts.size := by
  rw [← Array.length_toList, hts, cellTokens_length]

/-- The dot of a dot site can be moved in the cells its tokens were read from, with the
space its fix puts before it. -/
lemma DotSite.dotMove (hr : Reads cs last) (hts : ts.toList = cellTokens last cs off P)
    (h : DotSite ts k) : DotMove pos cs k (dotSpace ts k) := by
  have hlen := length_eq_size hts
  have hsize := h.size_lt
  have hk := h.after_first
  obtain ⟨b, hb⟩ : ∃ b, cs[k - 1]? = some b := ⟨_, List.getElem?_eq_getElem (by omega)⟩
  obtain ⟨d, hd⟩ : ∃ d, cs[k]? = some d := ⟨_, List.getElem?_eq_getElem (by omega)⟩
  obtain ⟨p, hp⟩ : ∃ p, cs[k + 1]? = some p := ⟨_, List.getElem?_eq_getElem (by omega)⟩
  obtain ⟨tb, htb, hbk, hbt⟩ := cellTokens_getElem?_some hts hb
  obtain ⟨td, htd, hdk, hdt⟩ := cellTokens_getElem?_some hts hd
  obtain ⟨tp, htp, hpk, -⟩ := cellTokens_getElem?_some hts hp
  have hdot : d.kind = .punctuator ∧ (d.word = ['.'] ∨ d.word = ['?', '.']) := by
    have := h.dot
    simp only [isDotAt, htd, Option.any_some, Token.isPunct, Bool.or_eq_true, Bool.and_eq_true,
      beq_iff_eq, hdk, hdt] at this
    rcases this with ⟨hk, hw⟩ | ⟨hk, hw⟩
    · exact ⟨hk, .inl (by simpa using congrArg String.toList hw)⟩
    · exact ⟨hk, .inr (by simpa using congrArg String.toList hw)⟩
  have hmove : MovableDot b d p := by
    refine ⟨hdot.2, hdot.1, fun hpunct hmem => ?_, ?_⟩
    · have := h.before
      simp only [isOpenAt, htb, Option.any_some, Token.isOpen, Token.isPunct, hbk, hbt, hpunct,
        beq_self_eq_true, Bool.true_and, Bool.or_eq_false_iff, beq_eq_false_iff_ne] at this
      simp only [List.mem_cons, List.not_mem_nil, or_false] at hmem
      obtain ⟨⟨⟨h1, h2⟩, h3⟩, h4⟩ := this
      rcases hmem with h | h | h | h <;> contradiction
    · obtain ⟨t, ht, h1, h2, h3⟩ := h.property
      rw [htp, Option.some.injEq] at ht
      subst ht
      exact ⟨hpk ▸ h1, hpk ▸ h2, hpk ▸ h3⟩
  refine ⟨hk, b, d, p, hb, hd, hp, hmove, fun _ => ⟨?_, ?_⟩⟩
  · unfold dotSpace
    split <;> simp
  · -- with no space, the token before a `.` is no decimal integer
    intro hsp hpoint hnum
    obtain ⟨r, hrb⟩ := hr.readsWhole hb
    obtain ⟨c, ws, hw, hc⟩ := hrb.numeric_head hnum
    have hstart : (String.ofList ['.']).startsWith "." = true := by simp
    simp only [dotSpace, htd, htb, Option.getD_some, hdt, hpoint, DotLocation.isDecimalInteger,
      hbk, hnum, hbt, hw, hstart, String.toList_ofList, beq_self_eq_true, Bool.true_and,
      ite_eq_right_iff, List.cons_ne_nil, imp_false, Bool.and_eq_true, List.all_eq_true,
      Bool.or_eq_true, decide_eq_true_eq, not_and, not_forall] at hsp
    rcases hc with hdig | rfl
    · obtain ⟨x, hx, hnot⟩ := hsp hdig
      exact ⟨x, by simp [hw, hx], by simpa [isDecimalDigit] using hnot⟩
    · exact ⟨'.', by simp [hw], by decide⟩

end Cells

/-! ## Gaps after moves -/

/-- Moving a dot changes the cells of the dot and of the token after it only. -/
lemma getElem?_moveDot_of_ne (pos : DotPosition) (sp : List Char) (cs : List Cell) {i j : Nat}
    (h₁ : i ≠ j) (h₂ : i ≠ j + 1) : (moveDot pos sp cs j)[i]? = cs[i]? := by
  induction cs generalizing i j with
  | nil => cases j <;> rfl
  | cons c cs ih =>
    cases j with
    | zero =>
      obtain ⟨i, rfl⟩ : ∃ i', i = i' + 2 := ⟨i - 2, by omega⟩
      cases cs with
      | nil => rfl
      | cons p rest => cases pos <;> simp [DotLint.moveDot]
    | succ j =>
      cases i with
      | zero => simp [DotLint.moveDot]
      | succ i => simpa [DotLint.moveDot] using @ih i j (by omega) (by omega)

/-- After a move, the gap on the dot's wrong side is the space put before the dot, or
nothing: no line break. -/
lemma breaksLine_moveDot {sp : List Char} (hsp : sp.any isLineBreak = false) {cs : List Cell}
    {j : Nat} (h : j + 1 < cs.length) :
    (moveDot pos sp cs j)[pos.wrongSide j]?.any Cell.breaksLine = false := by
  induction cs generalizing j with
  | nil => simp at h
  | cons c cs ih =>
    cases j with
    | zero =>
      cases cs with
      | nil => simp at h
      | cons p rest =>
        cases pos <;> simp [DotLint.moveDot, DotPosition.wrongSide, Cell.breaksLine, hsp]
    | succ j =>
      have := @ih j (by simp at h; omega)
      cases pos <;> simpa [DotLint.moveDot, DotPosition.wrongSide] using this

/-- The space a fix puts before a dot holds no line break. -/
lemma dotSpace_breaks (ts : Array Token) (k : Nat) : (dotSpace ts k).any isLineBreak = false := by
  unfold dotSpace
  split <;> rfl

section Moves

variable {ks : List Nat} {cs : List Cell}

@[simp] lemma tokensOf_moveDots : tokensOf (moveDots pos ts ks cs) = tokensOf cs := by
  induction ks generalizing cs with
  | nil => rfl
  | cons k ks ih => simp [ih]

lemma length_moveDots : (moveDots pos ts ks cs).length = cs.length := by
  have h : tokensOf (moveDots pos ts ks cs) = tokensOf cs := tokensOf_moveDots
  simpa [tokensOf] using congrArg List.length h

/-- Moving dots leaves every cell that is neither a moved dot nor right after one. -/
lemma getElem?_moveDots_of_ne {i : Nat} (h : ∀ j ∈ ks, i ≠ j ∧ i ≠ j + 1) :
    (moveDots pos ts ks cs)[i]? = cs[i]? := by
  induction ks generalizing cs with
  | nil => rfl
  | cons k ks ih =>
    obtain ⟨h₁, h₂⟩ := h k List.mem_cons_self
    rw [moveDots_cons, ih fun j hj => h j (List.mem_cons_of_mem _ hj),
      getElem?_moveDot_of_ne pos _ cs h₁ h₂]

/-- After moving dots two cells apart or more, the gap on each moved dot's wrong side holds
no line break. -/
lemma breaksLine_moveDots (hapart : ks.Pairwise fun a b => a + 2 ≤ b ∨ b + 2 ≤ a)
    (hlen : ∀ j ∈ ks, j + 1 < cs.length) {k : Nat} (hk : k ∈ ks) :
    (moveDots pos ts ks cs)[pos.wrongSide k]?.any Cell.breaksLine = false := by
  have hnd : ks.Nodup := hapart.imp fun h => by omega
  -- move the dot `k` first; the other moves leave its cells
  rw [moveDots_perm (List.perm_cons_erase hk) hapart, moveDots_cons,
    getElem?_moveDots_of_ne fun j hj => ?_]
  · exact breaksLine_moveDot (dotSpace_breaks ts k) (hlen k hk)
  · obtain ⟨hjk, hj⟩ := (hnd.mem_erase_iff).1 hj
    have := apart_of_mem hapart hj hk hjk
    cases pos <;> simp only [DotPosition.wrongSide] <;> omega

end Moves

/-! ## Lexing the fixed text -/

/-- What `tokenize` passes over before lexing `text`: a byte-order mark, or nothing when
`text` starts with none. -/
def Lead (pre text : List Char) : Prop :=
  pre = ['\uFEFF'] ∨ (pre = [] ∧ text.head? ≠ some '\uFEFF')

/-- A text is lexed after what leads it. -/
lemma tokenize_of_lead {s : String} {pre text : List Char} (hs : s.toList = pre ++ text)
    (hl : Lead pre text) : tokenize s = lexFrom text (byteSize pre) {} #[] := by
  unfold tokenize
  rcases hl with rfl | ⟨rfl, hhead⟩
  · rw [hs]
    rfl
  · rw [hs, List.nil_append]
    split
    · simp_all
    · rfl

/-- A source that tokenizes is cut into cells after what leads it. -/
lemma tokenize_cells {src : String} (h : tokenize src = .ok ts) :
    ∃ pre cs last, src.toList = pre ++ cellsText cs ++ last ∧ Lead pre (cellsText cs ++ last) ∧
      Reads cs last ∧ Incidental last none ∧ ts.toList = cellTokens last cs (byteSize pre) {} := by
  obtain ⟨pre, text, hs, hl⟩ : ∃ pre text, src.toList = pre ++ text ∧ Lead pre text := by
    cases hs : src.toList with
    | nil => exact ⟨[], [], rfl, .inr ⟨rfl, by simp⟩⟩
    | cons c rest =>
      by_cases hc : c = '\uFEFF'
      · exact ⟨[c], rest, rfl, .inl (by rw [hc])⟩
      · exact ⟨[], c :: rest, rfl, .inr ⟨rfl, by simpa using hc⟩⟩
  rw [tokenize_of_lead hs hl] at h
  obtain ⟨cs, last, rfl, hr, hlast, hres⟩ := lexFrom_eq_cells h
  refine ⟨pre, cs, last, by rw [hs, List.append_assoc], hl, hr, hlast, ?_⟩
  simp [hres]

/-- Cells read whole after what leads them lex to their tokens. -/
lemma tokenize_of_cells {s : String} {pre last : List Char} {cs : List Cell}
    (hs : s.toList = pre ++ cellsText cs ++ last) (hl : Lead pre (cellsText cs ++ last))
    (hr : Reads cs last) (hlast : Incidental last none) :
    tokenize s = .ok (cellTokens last cs (byteSize pre) {}).toArray := by
  rw [tokenize_of_lead (by rw [hs, List.append_assoc]) hl, lexFrom_cells hr hlast]
  simp

/-- Text that starts with the same cell starts with the same character. -/
lemma head?_cellsText_congr {cs cs' : List Cell} {last : List Char} (h0 : cs'[0]? = cs[0]?)
    (hlen : cs'.length = cs.length) (hw : ∀ c ∈ cs.head?, c.word ≠ []) :
    (cellsText cs' ++ last).head? = (cellsText cs ++ last).head? := by
  match cs, cs' with
  | [], [] => rfl
  | [], _ :: _ => simp at hlen
  | _ :: _, [] => simp at hlen
  | c :: r, c' :: r' =>
    simp only [List.getElem?_cons_zero, Option.some.injEq] at h0
    subst h0
    obtain ⟨x, w, hx⟩ := List.exists_cons_of_ne_nil (hw c' rfl)
    cases hg : c'.gap <;> simp [hg, hx]

/-! ## What the fixed text lexes to -/

section Fixed

variable {ks : List Nat} {cs : List Cell} {last : List Char} {off : Nat} {P : Position}
  {ts' : Array Token}

/-- Views of the tokens of cells are the kinds and texts of the cells. -/
lemma cellTokens_view (s : List Char) (cs : List Cell) (off : Nat) (P : Position) (i : Nat) :
    (cellTokens s cs off P)[i]?.map Token.view =
      (tokensOf cs)[i]?.map fun w => (w.2, String.ofList w.1) := by
  rw [cellTokens_getElem?, tokensOf_getElem?]
  cases cs[i]? <;> rfl

/-- Moving the dots of dot sites keeps the text read as the same tokens. -/
lemma reads_moveDots_of_sites (hr : Reads cs last) (hts : ts.toList = cellTokens last cs off P)
    (hks : ∀ k ∈ ks, DotSite ts k) : Reads (moveDots pos ts ks cs) last := by
  have h : Reads ((ks.map fun k => (k, dotSpace ts k)).foldl
      (fun cs m => moveDot pos m.2 cs m.1) cs) last :=
    reads_moveDots hr (ks.map fun k => (k, dotSpace ts k)) fun m hm => by
      obtain ⟨k, hk, rfl⟩ := List.mem_map.1 hm
      exact (hks k hk).dotMove hr hts
  rwa [List.foldl_map] at h

variable (hr : Reads cs last) (hts : ts.toList = cellTokens last cs off P)
  (hts' : ts'.toList = cellTokens last (moveDots pos ts ks cs) off P)
  (hks : ∀ k ∈ ks, DotSite ts k)
include hr hts hts' hks

/-- The tokens of the text with the dots of dot sites moved agree with the tokens before:
the same kinds and texts, and the same line breaks except right before a moved dot or the
token after it. -/
lemma tokensAgree_moveDots (hord : InTextOrder ts.toList) (hord' : InTextOrder ts'.toList) :
    TokensAgree ts ts' := by
  have hr' : Reads (moveDots pos ts ks cs) last := reads_moveDots_of_sites hr hts hks
  refine ⟨hord, hord', fun i => ?_, fun i hi => ?_⟩
  · rw [← Array.getElem?_toList, ← Array.getElem?_toList, hts, hts', cellTokens_view,
      cellTokens_view, tokensOf_moveDots]
  · rw [lineBreakBefore_cellTokens hr' hts', lineBreakBefore_cellTokens hr hts] at hi
    by_cases hmoved : ∃ j ∈ ks, i = j ∨ i = j + 1
    · obtain ⟨j, hj, h | h⟩ := hmoved
      · exact .inl (h ▸ (hks j hj).dot)
      · exact .inr ⟨by omega, by rw [h, Nat.add_sub_cancel]; exact (hks j hj).dot⟩
    · rw [getElem?_moveDots_of_ne fun j hj =>
        ⟨fun h => hmoved ⟨j, hj, .inl h⟩, fun h => hmoved ⟨j, hj, .inr h⟩⟩] at hi
      exact absurd rfl hi

/-- In the text with the dots of dot sites moved, a dot is misplaced exactly when it was
misplaced before and not moved: a moved dot has no line break on its wrong side, and the
gap on the wrong side of any other dot is as it was. -/
lemma misplaced_moveDots_iff (hnd : ks.Nodup) (hord : InTextOrder ts.toList)
    (hord' : InTextOrder ts'.toList) {k : Nat} (hk : DotSite ts k) :
    Misplaced ts' k pos ↔ Misplaced ts k pos ∧ k ∉ ks := by
  have hr' : Reads (moveDots pos ts ks cs) last := reads_moveDots_of_sites hr hts hks
  have hlen := length_eq_size hts
  have hside : pos.wrongSide k ≠ 0 := by
    have := hk.after_first
    cases pos <;> simp only [DotPosition.wrongSide] <;> omega
  rw [misplaced_iff hord' hk.after_first, misplaced_iff hord hk.after_first,
    lineBreakBefore_cellTokens hr' hts', lineBreakBefore_cellTokens hr hts]
  by_cases hmem : k ∈ ks
  · have hbreaks : (moveDots pos ts ks cs)[pos.wrongSide k]?.any Cell.breaksLine = false :=
      breaksLine_moveDots (pairwise_apart hks hnd)
        (fun j hj => by have := (hks j hj).size_lt; omega) hmem
    simp [hmem, hbreaks]
  · rw [getElem?_moveDots_of_ne fun j hj => ?_]
    · simp [hmem]
    -- the dot at `k` is neither a moved dot nor the token after one, and neither is the
    -- token after it
    have hjk : j ≠ k := fun h => hmem (h ▸ hj)
    have hnext := (hks j hj).next_not_dot
    have hdot := hk.dot
    have hknext := hk.next_not_dot
    have hjdot := (hks j hj).dot
    cases pos with
    | object =>
      refine ⟨Ne.symm hjk, fun h => ?_⟩
      simp only [DotPosition.wrongSide] at h
      rw [h, hnext] at hdot
      cases hdot
    | property =>
      refine ⟨fun h => ?_, fun h => hjk (by simp only [DotPosition.wrongSide] at h; omega)⟩
      simp only [DotPosition.wrongSide] at h
      rw [h, hjdot] at hknext
      cases hknext

end Fixed

/-- Fixing the dots of distinct dot sites of a source takes every fix and gives the text of
its cells with those dots moved. That text lexes to tokens that agree with the source's, and
in it a dot is misplaced exactly when it was misplaced before and not moved. -/
theorem fixedText {src : String} (hts : tokenize src = .ok ts) {ks : List Nat}
    (hks : ∀ k ∈ ks, DotSite ts k) (hnd : ks.Nodup) (pos : DotPosition) :
    ∃ pre cs last ts', src.toList = pre ++ cellsText cs ++ last ∧ Reads cs last ∧
      ts.toList = cellTokens last cs (byteSize pre) {} ∧
      applyFixes src (ks.map (dotFix pos ts)) =
        some ⟨String.ofList (pre ++ cellsText (moveDots pos ts ks cs) ++ last), ks.length, 0⟩ ∧
      tokenize (String.ofList (pre ++ cellsText (moveDots pos ts ks cs) ++ last)) = .ok ts' ∧
      TokensAgree ts ts' ∧
      ∀ k, DotSite ts k → (Misplaced ts' k pos ↔ Misplaced ts k pos ∧ k ∉ ks) := by
  obtain ⟨pre, cs, last, hsrc, hlead, hr, hlast, hcells⟩ := tokenize_cells hts
  have hord := tokenize_inTextOrder hts
  have hr' : Reads (moveDots pos ts ks cs) last := reads_moveDots_of_sites hr hcells hks
  -- the first cell stays, so the fixed text is led as the source is
  have hlead' : Lead pre (cellsText (moveDots pos ts ks cs) ++ last) := by
    rcases hlead with h | ⟨h, hhead⟩
    · exact .inl h
    · refine .inr ⟨h, ?_⟩
      have h0 : (moveDots pos ts ks cs)[0]? = cs[0]? := getElem?_moveDots_of_ne fun j hj => by
        have := (hks j hj).after_first
        omega
      rw [head?_cellsText_congr h0 length_moveDots fun c hc =>
        (hr.word_head (show cs[0]? = some c by rw [← List.head?_eq_getElem?]; exact hc)).1]
      exact hhead
  have hout : tokenize (String.ofList (pre ++ cellsText (moveDots pos ts ks cs) ++ last)) =
      .ok (cellTokens last (moveDots pos ts ks cs) (byteSize pre) {}).toArray :=
    tokenize_of_cells (by simp) hlead' hr' hlast
  have hord' := tokenize_inTextOrder hout
  have hts' : (cellTokens last (moveDots pos ts ks cs) (byteSize pre) {}).toArray.toList =
      cellTokens last (moveDots pos ts ks cs) (byteSize pre) {} := by simp
  refine ⟨pre, cs, last, _, hsrc, hr, hcells,
    applyFixes_dotFixes hord hsrc hcells (fun k hk => ⟨(hks k hk).after_first, (hks k hk).size_lt⟩)
      (pairwise_apart hks hnd) pos, hout, ?_, fun k hk => ?_⟩
  · exact tokensAgree_moveDots hr hcells hts' hks hord hord'
  · exact misplaced_moveDots_iff hr hcells hts' hks hnd hord hord' hk

end DotLint
