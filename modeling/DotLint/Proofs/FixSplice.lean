import Mathlib.Tactic.Lemma
import DotLint.Proofs.EditSplice

/-!
# Fixes applied as a splice

`Fix.apply` hands the edits of one fix to `applyEdits`, and `applyFixes` hands it the edits
of all the fixes it takes, one after another. Both come to a splice (`DotLint.splice`) when
each fix's own edits lie apart and fall on character boundaries: the fixes taken follow one
another by covering span (`exists_chosen_takenFixes`), and every edit lies within the
covering span of its fix (`Fix.encloses_span`), so the edits of different fixes taken lie
apart as well (`editsApart_flatMap`).

Several insertions at one offset come out in the reverse of the order they are listed in
(`insertions_at_one_offset_reversed`): the sort that orders the edits is stable, and each
insertion is put in front of the text inserted there before it.
-/

namespace DotLint

/-! ## Covering spans -/

namespace Span

/-- The span `r` reaches at least as far as `s` on both sides. -/
def Encloses (r s : Span) : Prop := r.start ≤ s.start ∧ s.stop ≤ r.stop

lemma Encloses.refl (s : Span) : s.Encloses s := ⟨Nat.le_refl _, Nat.le_refl _⟩

lemma Encloses.trans {r s t : Span} (hrs : r.Encloses s) (hst : s.Encloses t) : r.Encloses t :=
  ⟨Nat.le_trans hrs.1 hst.1, Nat.le_trans hst.2 hrs.2⟩

lemma encloses_cover_left (a b : Span) : (a.cover b).Encloses a :=
  ⟨Nat.min_le_left _ _, Nat.le_max_left _ _⟩

lemma encloses_cover_right (a b : Span) : (a.cover b).Encloses b :=
  ⟨Nat.min_le_right _ _, Nat.le_max_right _ _⟩

/-- A fold of covers encloses where it started and every span it took in. -/
lemma foldl_cover_encloses (l : List Span) (acc : Span) :
    (l.foldl cover acc).Encloses acc ∧ ∀ s ∈ l, (l.foldl cover acc).Encloses s := by
  induction l generalizing acc with
  | nil => exact ⟨Encloses.refl acc, by simp⟩
  | cons s l ih =>
    obtain ⟨hacc, hl⟩ := ih (acc.cover s)
    refine ⟨hacc.trans (encloses_cover_left acc s), fun s' hs' => ?_⟩
    rcases List.mem_cons.1 hs' with rfl | hs'
    · exact hacc.trans (encloses_cover_right acc s')
    · exact hl s' hs'

end Span

/-- Every edit of a fix lies within its covering span. -/
lemma Fix.encloses_span {f : Fix} {sp : Span} (h : f.span? = some sp) {e : Edit}
    (he : e ∈ f.edits) : sp.Encloses e.span := by
  unfold Fix.span? at h
  split at h
  · cases h
  · next e0 es hedits =>
    cases h
    rw [hedits] at he
    obtain ⟨h0, hes⟩ := Span.foldl_cover_encloses (es.map Edit.span) e0.span
    rcases List.mem_cons.1 he with rfl | he
    · exact h0
    · exact hes _ (List.mem_map_of_mem he)

/-! ## Edits of fixes that follow one another -/

lemma EditsApart.nil : EditsApart [] := ⟨by simp, .nil⟩

/-- Edits that end by an offset and edits that start from it lie apart together when each
list does. -/
lemma EditsApart.append {A B : List Edit} {c : Nat} (hA : EditsApart A) (hB : EditsApart B)
    (hAc : ∀ e ∈ A, e.span.stop ≤ c) (hBc : ∀ e ∈ B, c ≤ e.span.start) :
    EditsApart (A ++ B) := by
  -- every edit of `A` ends where every edit of `B` may start
  have hsep : ∀ a ∈ A, ∀ b ∈ B, a.span.stop ≤ b.span.start := fun a ha b hb =>
    Nat.le_trans (hAc a ha) (hBc b hb)
  refine ⟨fun o t sp hi hr hlt => ?_, List.pairwise_append.2 ⟨hA.2, hB.2, ?_⟩⟩
  · rcases List.mem_append.1 hi with hi | hi <;> rcases List.mem_append.1 hr with hr | hr
    · exact hA.insert_outside o t sp hi hr hlt
    · have := hsep _ hi _ hr
      simp only [Edit.span] at this
      omega
    · have := hsep _ hr _ hi
      simp only [Edit.span] at this
      omega
    · exact hB.insert_outside o t sp hi hr hlt
  · rintro a ha b hb sa sb rfl rfl ⟨q, -, hqa, hqb, -⟩
    have := hsep _ ha _ hb
    simp only [Edit.span] at this
    omega

/-- The edits of fixes whose covering spans follow one another lie apart when each fix's
own edits do. -/
lemma editsApart_flatMap {chosen : List (Span × Fix)}
    (hchain : chosen.Pairwise fun a b => a.1.stop ≤ b.1.start)
    (hspan : ∀ q ∈ chosen, q.2.span? = some q.1) (hown : ∀ q ∈ chosen, EditsApart q.2.edits) :
    EditsApart ((chosen.map (·.2)).flatMap Fix.edits) := by
  induction chosen with
  | nil => exact EditsApart.nil
  | cons q rest ih =>
    obtain ⟨hq, hrest⟩ := List.pairwise_cons.1 hchain
    rw [List.map_cons, List.flatMap_cons]
    refine EditsApart.append (c := q.1.stop) (hown q List.mem_cons_self)
      (ih hrest (fun q' hq' => hspan q' (List.mem_cons_of_mem q hq'))
        fun q' hq' => hown q' (List.mem_cons_of_mem q hq'))
      (fun e he => (Fix.encloses_span (hspan q List.mem_cons_self) he).2) fun e he => ?_
    -- an edit of a later fix starts no earlier than that fix's span
    obtain ⟨f, hf, he⟩ := List.mem_flatMap.1 he
    obtain ⟨q', hq', rfl⟩ := List.mem_map.1 hf
    exact Nat.le_trans (hq q' hq')
      (Fix.encloses_span (hspan q' (List.mem_cons_of_mem q hq')) he).1

/-! ## The fixes taken -/

/-- The fixes `applyFixes` takes: those with edits, sorted by covering span, less each that
starts inside the span of one taken before it. -/
def takenFixes (fixes : List Fix) : List Fix :=
  (selectFixes ((fixes.filterMap fun f => f.span?.map (·, f)).mergeSort
    fun a b => a.1.le b.1)).1

lemma applyFixes_output (src : String) (fixes : List Fix) :
    (applyFixes src fixes).map FixOutcome.output =
      applyEdits src ((takenFixes fixes).flatMap Fix.edits) := by
  simp only [applyFixes, takenFixes, Option.map_map]
  exact Option.map_id'

/-- Selection from fixes sorted by start takes a sublist whose spans follow one another,
each starting no earlier than where the fix taken last ended. -/
lemma foldl_selectStep_chosen {l : List (Span × Fix)}
    (hl : l.Pairwise fun a b => a.1.start ≤ b.1.start) (taken : Array Fix) (skipped : Nat)
    (lastEnd : Option Nat) :
    ∃ chosen : List (Span × Fix), chosen.Sublist l ∧
      chosen.Pairwise (fun a b => a.1.stop ≤ b.1.start) ∧
      (∀ e, lastEnd = some e → ∀ q ∈ chosen, e ≤ q.1.start) ∧
      (l.foldl selectStep (taken, skipped, lastEnd)).1 = taken ++ (chosen.map (·.2)).toArray := by
  induction l generalizing taken skipped lastEnd with
  | nil => exact ⟨[], .slnil, .nil, by simp, by simp⟩
  | cons q l ih =>
    obtain ⟨hq, hl⟩ := List.pairwise_cons.1 hl
    rw [List.foldl_cons, selectStep]
    split_ifs with hskip
    · -- skipped: it starts inside the span of the fix taken last
      obtain ⟨c, hsub, hpair, hlast, heq⟩ := ih hl taken (skipped + 1) lastEnd
      exact ⟨c, hsub.cons q, hpair, fun e he q' hq' => hlast e he q' hq', heq⟩
    · -- taken: every fix taken after it starts no earlier than it ends
      obtain ⟨c, hsub, hpair, hlast, heq⟩ := ih hl (taken.push q.2) skipped (some q.1.stop)
      refine ⟨q :: c, hsub.cons_cons q, List.pairwise_cons.2 ⟨hlast _ rfl, hpair⟩, ?_, ?_⟩
      · intro e he q' hq'
        have hle : e ≤ q.1.start := by
          subst he
          simp only [Option.any_some, decide_eq_true_eq] at hskip
          omega
        rcases List.mem_cons.1 hq' with rfl | hq'
        · exact hle
        · exact Nat.le_trans hle (hq q' (hsub.subset hq'))
      · rw [heq]
        simp

/-- The fixes taken are fixes given, each with its covering span, and the spans follow one
another. -/
lemma exists_chosen_takenFixes (fixes : List Fix) :
    ∃ chosen : List (Span × Fix), takenFixes fixes = chosen.map (·.2) ∧
      chosen.Pairwise (fun a b => a.1.stop ≤ b.1.start) ∧
      ∀ q ∈ chosen, q.2.span? = some q.1 ∧ q.2 ∈ fixes := by
  let spanned := fixes.filterMap fun f => f.span?.map (·, f)
  have hperm := List.mergeSort_perm spanned fun a b => a.1.le b.1
  have hsorted : (spanned.mergeSort fun a b => a.1.le b.1).Pairwise
      fun a b => a.1.start ≤ b.1.start :=
    (List.pairwise_mergeSort (fun a b c => Span.le_trans a.1 b.1 c.1)
      (fun a b => Span.le_total a.1 b.1) spanned).imp fun {a b} h => by
        simp only [Span.le, Bool.or_eq_true, decide_eq_true_eq, Bool.and_eq_true, beq_iff_eq]
          at h
        omega
  obtain ⟨chosen, hsub, hchain, -, heq⟩ := foldl_selectStep_chosen hsorted #[] 0 none
  refine ⟨chosen, ?_, hchain, fun q hq => ?_⟩
  · rw [takenFixes, selectFixes_eq, heq]
    simp
  · obtain ⟨f, hf, hfq⟩ := List.mem_filterMap.1 (hperm.subset (hsub.subset hq))
    obtain ⟨sp, hsp, rfl⟩ := Option.map_eq_some_iff.1 hfq
    exact ⟨hsp, hf⟩

lemma mem_fixes_of_mem_takenFixes {fixes : List Fix} {f : Fix} (hf : f ∈ takenFixes fixes) :
    f ∈ fixes := by
  obtain ⟨chosen, htaken, -, hmem⟩ := exists_chosen_takenFixes fixes
  rw [htaken] at hf
  obtain ⟨q, hq, rfl⟩ := List.mem_map.1 hf
  exact (hmem q hq).2

/-! ## Fixes as a splice -/

section Splice

variable {src : String}

/-- The edits of one fix apart and on boundaries give the splice. -/
lemma Fix.apply_eq_splice {f : Fix} (ha : EditsApart f.edits)
    (hb : ∀ e ∈ f.edits, e.OnBoundaries src.toList) : f.apply src = some (splice src f.edits) :=
  applyEdits_eq_splice hb ha

/-- When the fixes taken each have their edits apart and on boundaries, all of their edits
together lie apart, and `applyFixes` puts out their splice. -/
lemma applyFixes_output_eq_splice {fixes : List Fix}
    (h : ∀ f ∈ takenFixes fixes, EditsApart f.edits ∧ ∀ e ∈ f.edits, e.OnBoundaries src.toList) :
    (applyFixes src fixes).map FixOutcome.output =
      some (splice src ((takenFixes fixes).flatMap Fix.edits)) := by
  obtain ⟨chosen, htaken, hchain, hmem⟩ := exists_chosen_takenFixes fixes
  have hown : ∀ q ∈ chosen, EditsApart q.2.edits := fun q hq =>
    (h q.2 (htaken ▸ List.mem_map_of_mem hq)).1
  have hapart := editsApart_flatMap hchain (fun q hq => (hmem q hq).1) hown
  rw [← htaken] at hapart
  rw [applyFixes_output]
  refine applyEdits_eq_splice (fun e he => ?_) hapart
  obtain ⟨f, hf, he⟩ := List.mem_flatMap.1 he
  exact (h f hf).2 e he

/-- Applying fixes as one fix and as several, the edits of each apart and on boundaries,
splices the text: removed bytes of the original go, and each inserted text goes at its
original offset, after those inserted there by edits listed later. -/
theorem fixes_apply_as_splice :
    (∀ f : Fix, EditsApart f.edits → (∀ e ∈ f.edits, e.OnBoundaries src.toList) →
      f.apply src = some (splice src f.edits)) ∧
    ∀ fixes : List Fix,
      (∀ f ∈ takenFixes fixes, EditsApart f.edits ∧ ∀ e ∈ f.edits, e.OnBoundaries src.toList) →
      (applyFixes src fixes).map FixOutcome.output =
        some (splice src ((takenFixes fixes).flatMap Fix.edits)) :=
  ⟨fun _ ha hb => Fix.apply_eq_splice ha hb, fun _ h => applyFixes_output_eq_splice h⟩

/-- Moving a dot to the next line: a removal and an insertion after it, apart and on
boundaries, applied alone and among fixes. -/
theorem move_dot_forward_as_splice :
    EditsApart [.remove ⟨1, 2⟩, .insert 3 "."] ∧
    (∀ e ∈ [Edit.remove ⟨1, 2⟩, .insert 3 "."], e.OnBoundaries "a.\nb".toList) ∧
    Fix.apply ⟨[.remove ⟨1, 2⟩, .insert 3 "."]⟩ "a.\nb" =
      some (splice "a.\nb" [.remove ⟨1, 2⟩, .insert 3 "."]) ∧
    (applyFixes "a.\nb" [⟨[.remove ⟨1, 2⟩, .insert 3 "."]⟩]).map FixOutcome.output =
      some (splice "a.\nb"
        ((takenFixes [⟨[.remove ⟨1, 2⟩, .insert 3 "."]⟩]).flatMap Fix.edits)) := by
  have ha : EditsApart [.remove ⟨1, 2⟩, .insert 3 "."] :=
    ⟨fun o t sp hi hr _ => by
      simp only [List.mem_cons, reduceCtorEq, Edit.insert.injEq, Edit.remove.injEq,
        List.not_mem_nil, or_false, false_or] at hi hr
      obtain ⟨rfl, -⟩ := hi
      subst hr
      decide, by simp⟩
  have hb : ∀ e ∈ [Edit.remove ⟨1, 2⟩, .insert 3 "."], e.OnBoundaries "a.\nb".toList := by
    decide
  refine ⟨ha, hb, fixes_apply_as_splice.1 ⟨_⟩ ha hb, fixes_apply_as_splice.2 _ fun f hf => ?_⟩
  have hf := mem_fixes_of_mem_takenFixes hf
  rw [List.mem_singleton] at hf
  subst hf
  exact ⟨ha, hb⟩

/-- Two insertions at one offset come out in the reverse of the order they are listed in,
not in that order. -/
theorem insertions_at_one_offset_reversed :
    Fix.apply ⟨[.insert 1 "a", .insert 1 "b"]⟩ "xy" ≠ some "xaby" := by
  have hsort : [Edit.insert 1 "a", .insert 1 "b"].mergeSort Edit.appliesBefore =
      [.insert 1 "a", .insert 1 "b"] :=
    List.mergeSort_of_pairwise (by decide)
  rw [Fix.apply, applyEdits, hsort]
  decide

/-- Fixes whose edits each lie apart and fall on character boundaries apply without fault,
one at a time and all together. -/
theorem fixes_apply_without_fault :
    (∀ f : Fix, EditsApart f.edits → (∀ e ∈ f.edits, e.OnBoundaries src.toList) →
      (f.apply src).isSome) ∧
    ∀ fixes : List Fix,
      (∀ f ∈ fixes, EditsApart f.edits ∧ ∀ e ∈ f.edits, e.OnBoundaries src.toList) →
      (applyFixes src fixes).isSome := by
  refine ⟨fun f ha hb => by rw [Fix.apply_eq_splice ha hb]; rfl, fun fixes h => ?_⟩
  have hout : (applyFixes src fixes).map FixOutcome.output = some _ :=
    applyFixes_output_eq_splice fun f hf => h f (mem_fixes_of_mem_takenFixes hf)
  rw [← Option.isSome_map (f := FixOutcome.output), hout]
  rfl

/-- A multibyte insertion where a removal starts, alone and among fixes: the removal is
applied first, so the insertion cannot move its end into a character. -/
theorem multibyte_insert_at_removal_applies :
    EditsApart [.insert 1 "é", .remove ⟨1, 2⟩] ∧
    (∀ e ∈ [Edit.insert 1 "é", .remove ⟨1, 2⟩], e.OnBoundaries "abc".toList) ∧
    (Fix.apply ⟨[.insert 1 "é", .remove ⟨1, 2⟩]⟩ "abc").isSome ∧
    (applyFixes "abc" [⟨[.insert 1 "é", .remove ⟨1, 2⟩]⟩]).isSome := by
  have ha : EditsApart [.insert 1 "é", .remove ⟨1, 2⟩] :=
    ⟨fun o t sp hi hr hlt => by
      simp only [List.mem_cons, reduceCtorEq, Edit.insert.injEq, Edit.remove.injEq,
        List.not_mem_nil, or_false, false_or] at hi hr
      obtain ⟨rfl, -⟩ := hi
      subst hr
      simp at hlt, by simp⟩
  have hb : ∀ e ∈ [Edit.insert 1 "é", .remove ⟨1, 2⟩], e.OnBoundaries "abc".toList := by decide
  refine ⟨ha, hb, fixes_apply_without_fault.1 ⟨_⟩ ha hb, fixes_apply_without_fault.2 _ ?_⟩
  intro f hf
  rw [List.mem_singleton] at hf
  subst hf
  exact ⟨ha, hb⟩

/- When the insertion lies inside the removal, the insertion is applied first and moves the
end of the removal into the middle of the inserted character. -/
example : Fix.apply ⟨[.insert 1 "é", .remove ⟨0, 2⟩]⟩ "abc" = none := by
  have hsort : [Edit.insert 1 "é", .remove ⟨0, 2⟩].mergeSort Edit.appliesBefore =
      [.insert 1 "é", .remove ⟨0, 2⟩] :=
    Edit.mergeSort_appliesBefore (List.Perm.refl _) (by decide)
  rw [Fix.apply, applyEdits, hsort]
  decide

end Splice

end DotLint
