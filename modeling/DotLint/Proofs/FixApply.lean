import Mathlib.Tactic.Lemma
import DotLint.Proofs.TokenTiling
import DotLint.Fix.Edit

/-!
# Applying fixes whose spans do not overlap

`applyFixes` sorts fixes by covering span, skips each that starts inside one taken before
it, and applies the edits of the rest from the back of the text to the front. This module
describes what it does to fixes whose spans are pairwise apart:

* every fix is taken and none skipped (`selectFixes_of_pairwise`, `applyFixes_eq`);
* edits listed so that none goes before an earlier one are applied in that order, whatever
  order they come in (`mergeSort_appliesBefore`);
* an edit at the byte size of a prefix of the text acts right there (`applyTo_insert`,
  `applyTo_remove`).
-/

namespace DotLint

namespace Edit

lemma appliesBefore_trans (a b c : Edit) (hab : appliesBefore a b = true)
    (hbc : appliesBefore b c = true) : appliesBefore a c = true := by
  simp only [appliesBefore, Bool.or_eq_true, decide_eq_true_eq, Bool.and_eq_true, beq_iff_eq,
    Bool.not_eq_true', Bool.or_eq_true] at hab hbc ⊢
  -- a later start first; at the same start a removal first
  rcases hab with hab | ⟨hab, hab'⟩ <;> rcases hbc with hbc | ⟨hbc, hbc'⟩
  · exact .inl (by omega)
  · exact .inl (by omega)
  · exact .inl (by omega)
  · refine .inr ⟨by omega, ?_⟩
    cases ha : a.isInsert <;> cases hb : b.isInsert <;> cases hc : c.isInsert <;> simp_all

lemma appliesBefore_total (a b : Edit) : (appliesBefore a b || appliesBefore b a) = true := by
  simp only [appliesBefore, Bool.or_eq_true, decide_eq_true_eq, Bool.and_eq_true, beq_iff_eq]
  rcases Nat.lt_trichotomy a.span.start b.span.start with h | h | h
  · exact .inr (.inl h)
  · cases ha : a.isInsert <;> cases hb : b.isInsert <;> simp [h]
  · exact .inl (.inl h)

/-- Edits listed so that none is applied before an earlier one are sorted into that list. -/
lemma mergeSort_appliesBefore {es target : List Edit} (hperm : target.Perm es)
    (hstrict : target.Pairwise fun a b => appliesBefore b a = false) :
    es.mergeSort appliesBefore = target := by
  have hsorted := List.pairwise_mergeSort appliesBefore_trans appliesBefore_total es
  have htotal : target.Pairwise fun a b => appliesBefore a b = true := hstrict.imp fun {a b} h => by
    simpa [h] using appliesBefore_total a b
  refine List.Perm.eq_of_pairwise ?_ hsorted htotal ((List.mergeSort_perm es _).trans hperm.symm)
  intro a b ha hb hab hba
  -- two edits of the list that may come in either order are one
  refine Classical.byContradiction fun hne => ?_
  obtain ⟨i, hi, rfl⟩ := List.getElem_of_mem (hperm.mem_iff.2 ((List.mergeSort_perm es _).mem_iff.1 ha))
  obtain ⟨j, hj, rfl⟩ := List.getElem_of_mem hb
  have h := List.pairwise_iff_getElem.1 hstrict
  rcases Nat.lt_trichotomy i j with hij | rfl | hij
  · simp [h i j hi hj hij] at hba
  · exact hne rfl
  · simp [h j i hj hi hij] at hab

end Edit

/-! ## Edits at the end of a prefix -/

lemma Edit.applyTo_insert (pre post : List Char) (text : String) :
    (Edit.insert (byteSize pre) text).applyTo (pre ++ post) =
      some (pre ++ text.toList ++ post) := by
  simp [Edit.applyTo, Text.splitAtByte_append]

lemma Edit.applyTo_remove (pre mid post : List Char) :
    (Edit.remove ⟨byteSize pre, byteSize pre + byteSize mid⟩).applyTo (pre ++ mid ++ post) =
      some (pre ++ post) := by
  simp [Edit.applyTo, List.append_assoc, Text.splitAtByte_append]

/-! ## Selecting fixes -/

/-- The step of `selectFixes`. -/
def selectStep (acc : Array Fix × Nat × Option Nat) (p : Span × Fix) :
    Array Fix × Nat × Option Nat :=
  if acc.2.2.any (p.1.start < ·) then (acc.1, acc.2.1 + 1, acc.2.2)
  else (acc.1.push p.2, acc.2.1, some p.1.stop)

lemma selectFixes_eq (sorted : List (Span × Fix)) :
    selectFixes sorted =
      ((sorted.foldl selectStep (#[], 0, none)).1.toList,
        (sorted.foldl selectStep (#[], 0, none)).2.1) := rfl

/-- Fixes sorted so that each ends before the next one starts are all taken. -/
lemma foldl_selectStep {l : List (Span × Fix)} (h : l.Pairwise fun a b => a.1.stop ≤ b.1.start)
    (taken : Array Fix) (skipped : Nat) (lastEnd : Option Nat)
    (hlast : ∀ e, lastEnd = some e → ∀ q ∈ l, e ≤ q.1.start) :
    (l.foldl selectStep (taken, skipped, lastEnd)).1 = taken ++ (l.map (·.2)).toArray ∧
      (l.foldl selectStep (taken, skipped, lastEnd)).2.1 = skipped := by
  induction l generalizing taken lastEnd with
  | nil => simp
  | cons q l ih =>
    have htake : ¬ (lastEnd.any (q.1.start < ·)) = true := by
      cases lastEnd with
      | none => simp
      | some e =>
        have := hlast e rfl q List.mem_cons_self
        simp only [Option.any_some, decide_eq_true_eq]
        omega
    rw [List.foldl_cons, selectStep, if_neg htake]
    obtain ⟨h1, h2⟩ := ih (List.pairwise_cons.1 h).2 (taken.push q.2) (some q.1.stop)
      fun e he q' hq' => by
        cases he
        exact (List.pairwise_cons.1 h).1 q' hq'
    refine ⟨?_, h2⟩
    rw [h1]
    simp

lemma selectFixes_of_pairwise {sorted : List (Span × Fix)}
    (h : sorted.Pairwise fun a b => a.1.stop ≤ b.1.start) :
    selectFixes sorted = (sorted.map (·.2), 0) := by
  obtain ⟨h1, h2⟩ := foldl_selectStep h #[] 0 none (fun e he => by cases he)
  rw [selectFixes_eq, h1, h2]
  simp

namespace Span

lemma le_trans (a b c : Span) (hab : a.le b = true) (hbc : b.le c = true) : a.le c = true := by
  simp only [Span.le, Bool.or_eq_true, decide_eq_true_eq, Bool.and_eq_true, beq_iff_eq]
    at hab hbc ⊢
  omega

lemma le_total (a b : Span) : (a.le b || b.le a) = true := by
  simp only [Span.le, Bool.or_eq_true, decide_eq_true_eq, Bool.and_eq_true, beq_iff_eq]
  omega

end Span

/-- Fixes whose covering spans are non-empty and pairwise apart are all applied: their
edits together, in some order of the fixes. -/
lemma applyFixes_eq {src : String} {fixes : List Fix}
    (hspan : ∀ f ∈ fixes, ∃ sp, f.span? = some sp ∧ sp.start < sp.stop)
    (hapart : fixes.Pairwise fun f g => ∀ a b, f.span? = some a → g.span? = some b →
      a.stop ≤ b.start ∨ b.stop ≤ a.start) :
    ∃ fixes' : List Fix, fixes'.Perm fixes ∧
      applyFixes src fixes = (applyEdits src (fixes'.flatMap Fix.edits)).map
        fun out => ⟨out, fixes.length, 0⟩ := by
  let spanOf := fun f : Fix => f.span?.map (·, f)
  -- every fix comes with its covering span
  have hsnd : ∀ l : List Fix, (∀ f ∈ l, ∃ sp, f.span? = some sp ∧ sp.start < sp.stop) →
      (l.filterMap spanOf).map (·.2) = l := by
    intro l hl
    induction l with
    | nil => rfl
    | cons f l ih =>
      obtain ⟨sp, hsp, -⟩ := hl f List.mem_cons_self
      rw [List.filterMap_cons, show spanOf f = some (sp, f) by simp [spanOf, hsp]]
      simp [ih fun g hg => hl g (List.mem_cons_of_mem f hg)]
  have hmem : ∀ q ∈ fixes.filterMap spanOf, q.1.start < q.1.stop := by
    intro q hq
    obtain ⟨f, hf, hq⟩ := List.mem_filterMap.1 hq
    obtain ⟨sp, hsp, hlt⟩ := hspan f hf
    simp only [spanOf, hsp, Option.map_some, Option.some.injEq] at hq
    rw [← hq]
    exact hlt
  have hap : (fixes.filterMap spanOf).Pairwise fun a b =>
      a.1.stop ≤ b.1.start ∨ b.1.stop ≤ a.1.start := by
    rw [List.pairwise_filterMap]
    refine hapart.imp fun {f g} h qa hqa qb hqb => ?_
    obtain ⟨a, ha, rfl⟩ := Option.map_eq_some_iff.1 hqa
    obtain ⟨b, hb, rfl⟩ := Option.map_eq_some_iff.1 hqb
    exact h a b ha hb
  -- sorted by span, each fix ends before the next one starts
  obtain ⟨sorted, hsorted⟩ : ∃ sorted, (fixes.filterMap spanOf).mergeSort
      (fun a b => a.1.le b.1) = sorted := ⟨_, rfl⟩
  have hperm : sorted.Perm (fixes.filterMap spanOf) := hsorted ▸ List.mergeSort_perm _ _
  have hle : sorted.Pairwise fun a b => a.1.le b.1 = true := hsorted ▸
    List.pairwise_mergeSort (fun a b c => Span.le_trans a.1 b.1 c.1)
      (fun a b => Span.le_total a.1 b.1) _
  have hap' := (hperm.pairwise_iff fun h => h.symm).2 hap
  have hchain : sorted.Pairwise fun a b => a.1.stop ≤ b.1.start := by
    refine List.Pairwise.imp_of_mem ?_ (hle.and hap')
    intro a b ha _ ⟨hab, hapart⟩
    have hb := hmem b (hperm.subset ‹b ∈ sorted›)
    simp only [Span.le, Bool.or_eq_true, decide_eq_true_eq, Bool.and_eq_true, beq_iff_eq]
      at hab
    omega
  refine ⟨sorted.map (·.2), ?_, ?_⟩
  · rw [← hsnd fixes hspan]
    exact hperm.map _
  · have hlen : (sorted.map (·.2)).length = fixes.length := by
      rw [← hsnd fixes hspan, List.length_map, List.length_map, hperm.length_eq]
    simp only [applyFixes]
    rw [hsorted, selectFixes_of_pairwise hchain, hlen]

end DotLint
