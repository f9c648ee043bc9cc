import Mathlib.Tactic.Lemma
import Mathlib.Data.List.Pairwise
import DotLint.Proofs.FixApply

/-!
# Which fixes are applied together

`applyFixes` takes the fixes that have edits, each with its covering span, sorts them by span
(start, then end) keeping their given order among equal spans, and scans them greedily: a fix
is accepted when nothing is accepted yet or it starts at or after the end of the fix accepted
last, and skipped otherwise. The edits of the accepted fixes are then applied together.

* `GreedyScan` states the scan as two rules, one for an accepted and one for a skipped fix; on
  fixes sorted by start, a fix that is not accepted starts inside the span of the fix accepted
  last;
* `foldl_selectStep_scan`: the selection of `applyFixes` is that scan;
* `GreedyScan.accepted_pairwise`: the spans accepted follow one another;
* `filter_mergeSort_span`: among fixes with one covering span, the sort keeps their order.
-/

namespace DotLint

/-- The greedy scan over fixes sorted by covering span, from the span of the fix accepted last
(`none` before the first): it accepts the fixes `A` and skips the fixes `S`. A fix is accepted
when nothing is accepted yet or it starts at or after the end of the fix accepted last; it is
skipped when it starts inside that fix's span. -/
inductive GreedyScan : Option Span → List (Span × Fix) → List (Span × Fix) →
    List (Span × Fix) → Prop
  | nil (last : Option Span) : GreedyScan last [] [] []
  | accept {last : Option Span} {q : Span × Fix} {l A S : List (Span × Fix)} :
      (∀ p, last = some p → p.stop ≤ q.1.start) →
      GreedyScan (some q.1) l A S → GreedyScan last (q :: l) (q :: A) S
  | skip {p : Span} {q : Span × Fix} {l A S : List (Span × Fix)} :
      p.start ≤ q.1.start → q.1.start < p.stop →
      GreedyScan (some p) l A S → GreedyScan (some p) (q :: l) A (q :: S)

namespace GreedyScan

variable {last : Option Span} {l A S : List (Span × Fix)}

/-- Every fix scanned is accepted or skipped. -/
lemma length_add (h : GreedyScan last l A S) : A.length + S.length = l.length := by
  induction h with
  | nil => rfl
  | accept _ _ ih => simp only [List.length_cons]; omega
  | skip _ _ _ ih => simp only [List.length_cons]; omega

/-- The fixes accepted come in the order they were scanned. -/
lemma accepted_sublist (h : GreedyScan last l A S) : A.Sublist l := by
  induction h with
  | nil => exact .slnil
  | accept _ _ ih => exact ih.cons_cons _
  | skip _ _ _ ih => exact ih.cons _

/-- On fixes sorted by start, every fix accepted starts at or after the end of the fix
accepted before the scan. -/
lemma stop_le_accepted (h : GreedyScan last l A S)
    (hl : l.Pairwise fun a b => a.1.start ≤ b.1.start) :
    ∀ p, last = some p → ∀ b ∈ A, p.stop ≤ b.1.start := by
  induction h with
  | nil => simp
  | @accept last q l A S hq hscan ih =>
    intro p hp b hb
    rcases List.mem_cons.1 hb with rfl | hb
    · exact hq p hp
    · -- `b` is accepted after `q`, which starts no later than it
      have hqb := List.rel_of_pairwise_cons hl (hscan.accepted_sublist.subset hb)
      have := hq p hp
      omega
  | skip _ _ hscan ih =>
    intro p hp b hb
    exact ih (List.pairwise_cons.1 hl).2 p hp b hb

/-- On fixes sorted by start, the spans accepted follow one another: each ends no later than
the next one starts. -/
lemma accepted_pairwise (h : GreedyScan last l A S)
    (hl : l.Pairwise fun a b => a.1.start ≤ b.1.start) :
    A.Pairwise fun a b => a.1.stop ≤ b.1.start := by
  induction h with
  | nil => exact .nil
  | accept _ hscan ih =>
    have hl' := (List.pairwise_cons.1 hl).2
    exact List.pairwise_cons.2 ⟨hscan.stop_le_accepted hl' _ rfl, ih hl'⟩
  | skip _ _ _ ih => exact ih (List.pairwise_cons.1 hl).2

end GreedyScan

/-- Selection from fixes sorted by start is the greedy scan from the fix accepted last: the
fixes it takes are those the scan accepts, and it counts those the scan skips. -/
lemma foldl_selectStep_scan {l : List (Span × Fix)}
    (hl : l.Pairwise fun a b => a.1.start ≤ b.1.start) (taken : Array Fix) (skipped : Nat)
    (last : Option Span) (hlast : ∀ p, last = some p → ∀ q ∈ l, p.start ≤ q.1.start) :
    ∃ A S, GreedyScan last l A S ∧
      (l.foldl selectStep (taken, skipped, last.map Span.stop)).1 =
        taken ++ (A.map (·.2)).toArray ∧
      (l.foldl selectStep (taken, skipped, last.map Span.stop)).2.1 = skipped + S.length := by
  induction l generalizing taken skipped last with
  | nil => exact ⟨[], [], .nil last, by simp, by simp⟩
  | cons q l ih =>
    obtain ⟨hq, hl'⟩ := List.pairwise_cons.1 hl
    rw [List.foldl_cons]
    by_cases hskip : (last.map Span.stop).any (q.1.start < ·) = true
    · -- skipped: it starts inside the span of the fix accepted last
      obtain ⟨p, rfl, hlt⟩ : ∃ p, last = some p ∧ q.1.start < p.stop := by
        cases last <;> simp_all
      obtain ⟨A, S, hscan, h1, h2⟩ := ih hl' taken (skipped + 1) (some p)
        fun p' hp' q' hq' => hlast p' hp' q' (List.mem_cons_of_mem q hq')
      have hstep : selectStep (taken, skipped, (some p).map Span.stop) q =
          (taken, skipped + 1, (some p).map Span.stop) := by
        simp only [selectStep, if_pos hskip]
      refine ⟨A, q :: S, .skip (hlast p rfl q List.mem_cons_self) hlt hscan, ?_, ?_⟩
      · rw [hstep, h1]
      · rw [hstep, h2, List.length_cons]
        omega
    · -- accepted: it starts at or after the end of the fix accepted last
      have hafter : ∀ p, last = some p → p.stop ≤ q.1.start := by
        intro p hp
        subst hp
        simp only [Option.map_some, Option.any_some, decide_eq_true_eq] at hskip
        omega
      obtain ⟨A, S, hscan, h1, h2⟩ := ih hl' (taken.push q.2) skipped (some q.1)
        fun p hp q' hq' => by
          cases hp
          exact hq q' hq'
      have hstep : selectStep (taken, skipped, last.map Span.stop) q =
          (taken.push q.2, skipped, (some q.1).map Span.stop) := by
        simp only [selectStep, if_neg hskip, Option.map_some]
      refine ⟨q :: A, S, .accept hafter hscan, ?_, ?_⟩
      · rw [hstep, h1]
        simp
      · rw [hstep, h2]

/-! ## The fixes with edits, sorted by covering span -/

lemma Fix.span?_eq_none_iff (f : Fix) : f.span? = none ↔ f.edits = [] := by
  cases h : f.edits <;> simp [Fix.span?, h]

/-- The fixes that carry a covering span are those with edits. -/
lemma map_snd_spanned (fixes : List Fix) :
    (fixes.filterMap fun f => f.span?.map (·, f)).map (·.2) =
      fixes.filter fun f => !f.edits.isEmpty := by
  induction fixes with
  | nil => rfl
  | cons f fixes ih =>
    cases h : f.span? with
    | none =>
      have he := (Fix.span?_eq_none_iff f).1 h
      simp [h, he, ih]
    | some sp =>
      have he : f.edits ≠ [] := fun he => by simp [(Fix.span?_eq_none_iff f).2 he] at h
      simp [h, he, ih]

/-- Among the fixes with one covering span, those carrying it come in the given order. -/
lemma map_snd_filter_spanned (fixes : List Fix) (sp : Span) :
    ((fixes.filterMap fun f => f.span?.map (·, f)).filter (·.1 = sp)).map (·.2) =
      fixes.filter (·.span? = some sp) := by
  induction fixes with
  | nil => rfl
  | cons f fixes ih =>
    cases h : f.span? with
    | none => simp [h, ih]
    | some sp' => by_cases hsp : sp' = sp <;> simp [h, hsp, ih]

/-- The sort by covering span is stable: the fixes of one span keep their order. -/
lemma filter_mergeSort_span (l : List (Span × Fix)) (sp : Span) :
    (l.mergeSort fun a b => a.1.le b.1).filter (·.1 = sp) = l.filter (·.1 = sp) := by
  have hrefl : (l.filter (·.1 = sp)).Pairwise fun a b => a.1.le b.1 = true := by
    refine List.pairwise_of_forall_mem_list fun a ha b hb => ?_
    have ha' : a.1 = sp := by simpa using (List.mem_filter.1 ha).2
    have hb' : b.1 = sp := by simpa using (List.mem_filter.1 hb).2
    simp [ha', hb', Span.le]
  have hsub := List.sublist_mergeSort (fun a b c => Span.le_trans a.1 b.1 c.1)
    (fun a b => Span.le_total a.1 b.1) hrefl (List.filter_sublist (l := l))
  -- the filtered sort holds the filtered list, and is as long
  have hsub' : (l.filter (·.1 = sp)).Sublist
      ((l.mergeSort fun a b => a.1.le b.1).filter (·.1 = sp)) := by
    have := hsub.filter (fun a => decide (a.1 = sp))
    rwa [List.filter_filter, List.filter_congr (fun a _ => Bool.and_self _)] at this
  have hlen := ((List.mergeSort_perm l fun a b => a.1.le b.1).filter
    (fun a => decide (a.1 = sp))).length_eq
  exact (hsub'.eq_of_length hlen.symm).symm

/-- Fixes are applied together by a greedy scan. `applyFixes` takes the fixes that have at
least one edit, each with its covering span, sorted by span (start, then end) and, among
equal spans, in the given order. It accepts exactly the fixes the greedy scan accepts: each
fix is accepted, or skipped because it starts inside the span of the fix accepted last. So
the fixes accepted and skipped together are the fixes with edits, the spans accepted follow
one another, and the text is the edits of the accepted fixes, in that order, applied
together. -/
theorem applyFixes_selects_greedily (src : String) (fixes : List Fix) :
    ∃ sorted accepted skipped : List (Span × Fix),
      (sorted.map (·.2)).Perm (fixes.filter fun f => !f.edits.isEmpty) ∧
      (∀ q ∈ sorted, q.2.span? = some q.1) ∧
      sorted.Pairwise (fun a b => a.1.le b.1) ∧
      (∀ sp, (sorted.filter (·.1 = sp)).map (·.2) = fixes.filter (·.span? = some sp)) ∧
      GreedyScan none sorted accepted skipped ∧
      accepted.length + skipped.length = (fixes.filter fun f => !f.edits.isEmpty).length ∧
      accepted.Pairwise (fun a b => a.1.stop ≤ b.1.start) ∧
      applyFixes src fixes = (applyEdits src (accepted.flatMap (·.2.edits))).map
        fun out => ⟨out, accepted.length, skipped.length⟩ := by
  let spanned := fixes.filterMap fun f => f.span?.map (·, f)
  let sorted := spanned.mergeSort fun a b => a.1.le b.1
  have hperm : sorted.Perm spanned := List.mergeSort_perm _ _
  have hle : sorted.Pairwise fun a b => a.1.le b.1 = true :=
    List.pairwise_mergeSort (fun a b c => Span.le_trans a.1 b.1 c.1)
      (fun a b => Span.le_total a.1 b.1) spanned
  have hstart : sorted.Pairwise fun a b => a.1.start ≤ b.1.start := hle.imp fun {a b} h => by
    simp only [Span.le, Bool.or_eq_true, decide_eq_true_eq, Bool.and_eq_true, beq_iff_eq] at h
    omega
  obtain ⟨A, S, hscan, h1, h2⟩ := foldl_selectStep_scan hstart #[] 0 none (by simp)
  simp only [Option.map_none] at h1 h2
  have hfilter : (sorted.map (·.2)).Perm (fixes.filter fun f => !f.edits.isEmpty) :=
    map_snd_spanned fixes ▸ hperm.map _
  refine ⟨sorted, A, S, hfilter, fun q hq => ?_, hle, fun sp => ?_, hscan, ?_,
    hscan.accepted_pairwise hstart, ?_⟩
  · obtain ⟨f, -, hfq⟩ := List.mem_filterMap.1 (hperm.subset hq)
    obtain ⟨sp, hsp, rfl⟩ := Option.map_eq_some_iff.1 hfq
    exact hsp
  · rw [filter_mergeSort_span, map_snd_filter_spanned]
  · rw [hscan.length_add, ← hfilter.length_eq, List.length_map]
  · have hsel : selectFixes sorted = (A.map (·.2), S.length) := by
      rw [selectFixes_eq, h1, h2]
      simp
    simp only [applyFixes]
    rw [show (spanned.mergeSort fun a b => a.1.le b.1) = sorted from rfl, hsel]
    simp [List.flatMap_map]

end DotLint
