import Mathlib.Data.List.Perm.Subperm
import Mathlib.Data.List.Nodup
import DotLint.Proofs.FixedText

/-!
# The findings of a fixed text

A finding is known by the token it is reported at, its dot (`Diagnostic.dotIndex`). The
findings of a parsed source are at the misplaced dots of the member accesses by name of its
tree, one finding at each (`mem_findings_dotIndex_iff`, `nodup_findings_dotIndex`), and each
carries the fix of its dot.

Fixing some of them takes every fix and moves those dots in the cells of the source
(`fixedText`). The tree of the fixed text is the source's moved onto the new tokens, with each
member access by name at the same dot (`misplacedDot_move_iff`), so the findings of the fixed
text are at the dots of the findings not fixed, one at each (`fixChosen`).
-/

namespace DotLint

open Parse

/-- The token a finding is reported at: the first token whose location is the finding's. -/
def Diagnostic.dotIndex (ts : Array Token) (d : Diagnostic) : Nat :=
  ts.toList.findIdx fun t => decide (t.loc = d.location)

/-- The dot at token `k` is that of a member access by name in the tree of `root`, and is
misplaced for `pos`. -/
def MisplacedDot (ts : Array Token) (root : Node) (pos : DotPosition) (k : Nat) : Prop :=
  ∃ M, M.InTree root ∧ MemberDot ts M k ∧ Misplaced ts k pos

variable {src : String} {ts : Array Token} {root : Node} {pos : DotPosition}

/-- Over the tokens of a source no two tokens share a location, so a finding reported at the
location of token `k` is reported at token `k`. -/
lemma dotIndex_eq (hts : tokenize src = .ok ts) {d : Diagnostic} {k : Nat} {dot : Token}
    (hdot : ts[k]? = some dot) (hloc : d.location = dot.loc) : d.dotIndex ts = k := by
  have hk : k < ts.toList.length := by simpa using (Array.getElem?_eq_some_iff.1 hdot).1
  have hget : ts.toList[k] = dot := by
    simpa [← Array.getElem?_toList, List.getElem?_eq_getElem hk] using hdot
  rw [Diagnostic.dotIndex, List.findIdx_eq hk]
  refine ⟨by simp [hget, hloc], fun j hj => ?_⟩
  -- an earlier token starts elsewhere
  have hne := tokenize_loc_start_ne hts (Nat.ne_of_lt hj)
    (by rw [← Array.getElem?_toList, List.getElem?_eq_getElem (by omega)]) hdot
  simp only [decide_eq_false_iff_not, hloc]
  exact fun h => hne (by rw [h])

/-! ## The findings of a parsed source -/

section Findings

variable (hts : tokenize src = .ok ts) (hp : parse ts = .ok root)
include hts hp

/-- Every finding of a parsed source is reported at the misplaced dot of a member access by
name of its tree, and carries the fix of that dot. -/
lemma mem_findings {d : Diagnostic} (hd : d ∈ lintProgram src ts root pos) :
    ∃ M k dot, M.InTree root ∧ MemberDot ts M k ∧ ts[k]? = some dot ∧ Misplaced ts k pos ∧
      d.location = dot.loc ∧ d.fix = dotFix pos ts k := by
  have hord := tokenize_inTextOrder hts
  have hfacts := parse_facts hord hp
  rw [lintProgram_eq, List.mem_mergeSort] at hd
  obtain ⟨M, hM, hcheck⟩ := List.mem_filterMap.1 hd
  have hin := Node.inTree_of_mem_order hM
  obtain ⟨k, dot, hmd, hdot, hmis, hloc, -⟩ := check_eq_some hord (hfacts M hin) hcheck
  have hk := (hmd.site hord (hfacts M hin)).after_first
  exact ⟨M, k, dot, hin, hmd, hdot, hmis, hloc, check_fix hord hmd hk hcheck⟩

/-- The findings of a parsed source are at exactly the misplaced dots of the member accesses
by name of its tree. -/
lemma mem_findings_dotIndex_iff {k : Nat} :
    k ∈ (lintProgram src ts root pos).map (·.dotIndex ts) ↔ MisplacedDot ts root pos k := by
  have hord := tokenize_inTextOrder hts
  have hfacts := parse_facts hord hp
  constructor
  · rintro hk
    obtain ⟨d, hd, rfl⟩ := List.mem_map.1 hk
    obtain ⟨M, k, dot, hin, hmd, hdot, hmis, hloc, -⟩ := mem_findings hts hp hd
    rw [dotIndex_eq hts hdot hloc]
    exact ⟨M, hin, hmd, hmis⟩
  · rintro ⟨M, hin, hmd, hmis⟩
    obtain ⟨dot, hdot⟩ := exists_of_isDotAt hmd.dot
    obtain ⟨d, hcheck, hloc, -⟩ := check_of_misplaced src.toList hord (hfacts M hin) hmd hdot hmis
    have hmem : d ∈ lintProgram src ts root pos := by
      rw [lintProgram_eq, List.mem_mergeSort]
      exact List.mem_filterMap.2 ⟨M, hfacts.mem_order_iff.2 hin, hcheck⟩
    exact List.mem_map.2 ⟨d, hmem, dotIndex_eq hts hdot hloc⟩

/-- The findings of a parsed source are at different dots. -/
lemma nodup_findings_dotIndex : ((lintProgram src ts root pos).map (·.dotIndex ts)).Nodup := by
  have hstart : ((ChildKeys.standard.order root).filterMap
      (DotLocation.check pos (TokenCursor.ofSource src ts))).Pairwise
        fun a b => a.location.start ≠ b.location.start := findings_start_ne hts hp
  rw [← (List.mergeSort_perm _ Diagnostic.le).pairwise_iff fun h => Ne.symm h,
    ← lintProgram_eq] at hstart
  rw [List.nodup_iff_pairwise_ne, List.pairwise_map]
  refine hstart.imp_of_mem fun {d₁ d₂} hd₁ hd₂ hne heq => hne ?_
  -- findings at one dot are reported at its location
  obtain ⟨-, k₁, dot₁, -, -, hdot₁, -, hloc₁, -⟩ := mem_findings hts hp hd₁
  obtain ⟨-, k₂, dot₂, -, -, hdot₂, -, hloc₂, -⟩ := mem_findings hts hp hd₂
  rw [dotIndex_eq hts hdot₁ hloc₁, dotIndex_eq hts hdot₂ hloc₂] at heq
  subst heq
  rw [hloc₁, hloc₂, Option.some.inj (hdot₁.symm.trans hdot₂)]

/-- The findings chosen from those of a parsed source are at distinct dot sites, and their
fixes are the fixes of their dots. -/
lemma chosen_dotSites {chosen : List Diagnostic}
    (hsub : chosen.Subperm (lintProgram src ts root pos)) :
    (∀ k ∈ chosen.map (·.dotIndex ts), DotSite ts k) ∧ (chosen.map (·.dotIndex ts)).Nodup ∧
      chosen.map (·.fix) = (chosen.map (·.dotIndex ts)).map (dotFix pos ts) := by
  have hord := tokenize_inTextOrder hts
  have hfacts := parse_facts hord hp
  have hmem : ∀ d ∈ chosen, d ∈ lintProgram src ts root pos := fun d hd => hsub.subset hd
  refine ⟨fun k hk => ?_, ?_, ?_⟩
  · obtain ⟨d, hd, rfl⟩ := List.mem_map.1 hk
    obtain ⟨M, k, dot, hin, hmd, hdot, -, hloc, -⟩ := mem_findings hts hp (hmem d hd)
    rw [dotIndex_eq hts hdot hloc]
    exact hmd.site hord (hfacts M hin)
  · obtain ⟨l, hperm, hsl⟩ := hsub
    exact (hperm.map _).nodup_iff.1 ((hsl.map _).nodup (nodup_findings_dotIndex hts hp))
  · rw [List.map_map]
    refine List.map_congr_left fun d hd => ?_
    obtain ⟨-, k, dot, -, -, hdot, -, hloc, hfix⟩ := mem_findings hts hp (hmem d hd)
    rw [Function.comp_apply, dotIndex_eq hts hdot hloc, hfix]

end Findings

/-! ## The findings of the fixed text -/

/-- A node of a moved tree is a node of the tree, moved. -/
lemma Node.exists_of_inTree_respan {g : Span → Location → Span × Location} {r N : Node}
    (h : N.InTree (r.respan g)) : ∃ M : Node, M.InTree r ∧ N = M.respan g := by
  generalize hr : r.respan g = r' at h
  induction h generalizing r with
  | self => exact ⟨r, .self r, hr.symm⟩
  | child hc _ ih =>
    subst hr
    rw [Node.children_respan] at hc
    obtain ⟨c, hc', rfl⟩ := List.mem_map.1 hc
    obtain ⟨M, hM, rfl⟩ := ih rfl
    exact ⟨M, .child hc' hM, rfl⟩

lemma Node.InTree.respan {g : Span → Location → Span × Location} {r M : Node}
    (h : M.InTree r) : (M.respan g).InTree (r.respan g) := by
  induction h with
  | self => exact .self _
  | child hc _ ih => exact .child (by rw [Node.children_respan]; exact List.mem_map_of_mem hc) ih

section Moved

variable {ts' : Array Token} (h : TokensAgree ts ts')
include h

/-- Moving a tree onto tokens that agree keeps the dot of each member access by name. -/
lemma MemberDot.moved {M : Node} {k : Nat} (hM : MemberDot ts M k) :
    MemberDot ts' (move ts ts' M) k := by
  obtain ⟨t, ht, hprop⟩ := hM.property
  obtain ⟨t', ht', -, htext⟩ := h.same.getElem? ht
  refine ⟨by simp [move_def, hM.member], by simp [move_def, hM.named], ⟨t', ht', ?_⟩, ?_⟩
  · rw [move_def, Node.child?_respan, hprop, Option.map_some, ← move_def,
      h.context.move_identifierNode ht ht' htext]
  · rw [← hM.dot]
    exact h.same.any fun t t' hk ht => by simp [isPunct_congr t t' hk ht]

/-- A member access of the tree, moved, has its dot where it had it. -/
lemma MemberDot.of_moved {M : Node} {k : Nat} (hfacts : M.DotFacts ts)
    (hM : MemberDot ts' (move ts ts' M) k) : MemberDot ts M k := by
  obtain ⟨k₀, -, h₀⟩ := hfacts.memberDot (by simpa [move_def] using hM.member)
    (by simpa [move_def] using hM.named)
  rwa [MemberDot.unique h.ordered' (h₀.moved h) hM] at h₀

/-- Over the tree moved onto the tokens of the fixed text, a dot is that of a misplaced member
access exactly when it was before and was not moved. -/
lemma misplacedDot_move_iff {ks : List Nat} (hfacts : root.Facts ts)
    (hmis : ∀ k, DotSite ts k → (Misplaced ts' k pos ↔ Misplaced ts k pos ∧ k ∉ ks)) {k : Nat} :
    MisplacedDot ts' (move ts ts' root) pos k ↔ MisplacedDot ts root pos k ∧ k ∉ ks := by
  constructor
  · rintro ⟨N, hN, hmd', hmis'⟩
    obtain ⟨M, hM, rfl⟩ := Node.exists_of_inTree_respan hN
    have hmd := MemberDot.of_moved h (hfacts M hM) hmd'
    obtain ⟨hmisk, hk⟩ := (hmis k (hmd.site h.ordered (hfacts M hM))).1 hmis'
    exact ⟨⟨M, hM, hmd, hmisk⟩, hk⟩
  · rintro ⟨⟨M, hM, hmd, hmisk⟩, hk⟩
    exact ⟨move ts ts' M, hM.respan, hmd.moved h,
      (hmis k (hmd.site h.ordered (hfacts M hM))).2 ⟨hmisk, hk⟩⟩

end Moved

/-- Fixing some of the findings of a parsed source takes every fix chosen and gives the text
of its cells with their dots moved. That text lexes to tokens that agree with the source's,
parses to the source's tree moved onto them, and its findings are at the dots of the findings
not chosen, one at each. -/
lemma fixChosen (hts : tokenize src = .ok ts) (hp : parse ts = .ok root) {chosen : List Diagnostic}
    (hsub : chosen.Subperm (lintProgram src ts root pos)) :
    ∃ pre cs last ts', src.toList = pre ++ cellsText cs ++ last ∧ Reads cs last ∧
      ts.toList = cellTokens last cs (byteSize pre) {} ∧
      applyFixes src (chosen.map (·.fix)) = some
        ⟨String.ofList (pre ++ cellsText (moveDots pos ts (chosen.map (·.dotIndex ts)) cs) ++ last),
          chosen.length, 0⟩ ∧
      tokenize (String.ofList
        (pre ++ cellsText (moveDots pos ts (chosen.map (·.dotIndex ts)) cs) ++ last)) = .ok ts' ∧
      TokensAgree ts ts' ∧ parse ts' = .ok (move ts ts' root) ∧
      ((lintProgram (String.ofList
          (pre ++ cellsText (moveDots pos ts (chosen.map (·.dotIndex ts)) cs) ++ last))
          ts' (move ts ts' root) pos).map (·.dotIndex ts')).Perm
        (((lintProgram src ts root pos).filter (· ∉ chosen)).map (·.dotIndex ts)) := by
  obtain ⟨hsites, hnd, hfixes⟩ := chosen_dotSites hts hp hsub
  obtain ⟨pre, cs, last, ts', hsrc, hr, hcells, happly, hout, hagree, hmis⟩ :=
    fixedText hts hsites hnd pos
  obtain ⟨hmoved, hfacts'⟩ := parse_moved hagree hp
  have hfacts := parse_facts (tokenize_inTextOrder hts) hp
  rw [List.length_map] at happly
  refine ⟨pre, cs, last, ts', hsrc, hr, hcells, by rw [hfixes]; exact happly, hout, hagree, hmoved,
    ?_⟩
  have hall : ((lintProgram src ts root pos).map (·.dotIndex ts)).Nodup :=
    nodup_findings_dotIndex hts hp
  refine (List.perm_ext_iff_of_nodup (nodup_findings_dotIndex hout hmoved)
    ((List.filter_sublist.map _).nodup hall)).2 fun k => ?_
  rw [mem_findings_dotIndex_iff hout hmoved, misplacedDot_move_iff hagree hfacts hmis,
    ← mem_findings_dotIndex_iff hts hp]
  -- the findings are told apart by their dots
  constructor
  · rintro ⟨hk, hnot⟩
    obtain ⟨d, hd, rfl⟩ := List.mem_map.1 hk
    have hdc : d ∉ chosen := fun hc => hnot (List.mem_map_of_mem hc)
    exact List.mem_map_of_mem (List.mem_filter.2 ⟨hd, by simpa using hdc⟩)
  · intro hk
    obtain ⟨d, hd, rfl⟩ := List.mem_map.1 hk
    obtain ⟨hd, hnot⟩ := List.mem_filter.1 hd
    refine ⟨List.mem_map_of_mem hd, fun hc => ?_⟩
    obtain ⟨d', hd', heq⟩ := List.mem_map.1 hc
    have := List.inj_on_of_nodup_map hall (hsub.subset hd') hd heq
    subst this
    simp [hd'] at hnot

end DotLint
