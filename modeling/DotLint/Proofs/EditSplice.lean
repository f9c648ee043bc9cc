import Mathlib.Tactic.Lemma
import Mathlib.Data.List.Induction
import DotLint.Proofs.FixApply

/-!
# Edits applied back to front are a splice

`applyEdits` applies edits to a text from the back to the front: it sorts them by start,
latest first and a removal before an insertion at the same start, and then changes one
string in turn, checking each offset against the length of the string as it is by then.
This module says what that comes to, in offsets of the text the edits were made for.

The *splice* of a text reads it once from left to right (`spliceText`): in front of each
character, and at the end, it puts what is inserted at that offset, and it keeps the
character unless a removal covers it. An insertion past the end, and a removal that is
reversed or runs past the end, do nothing. Several insertions at one offset come in the
reverse of the order they are listed in: the sort keeps their order, and each is put in
front of those applied before it.

When no insertion lies strictly inside a removal, no two removals share a byte, and every
offset within the text is a character boundary, applying the edits gives their splice
(`applyEdits_eq_splice`). The proof follows the applied edits one at a time
(`foldlM_eq_spliceText`): after some of them the string is the splice by those alone, since
every edit still to come starts no later than those applied, and the applied ones act only
from where the next one ends (`ActsFrom`).
-/

namespace DotLint

/-! ## The splice -/

namespace Edit

/-- The text the edit puts at byte offset `p`: that of an insertion there. -/
def insertsAt (p : Nat) : Edit → Option String
  | .insert o t => if o = p then some t else none
  | .remove _ => none

/-- Whether the edit deletes the byte at offset `p` of a text of `n` bytes: a removal that
is neither reversed nor past the end, and covers `p`. -/
def removesAt (n p : Nat) : Edit → Bool
  | .insert .. => false
  | .remove sp => decide (sp.stop ≤ n) && decide (sp.start ≤ p) && decide (p < sp.stop)

/-- The offsets of an edit within the text `cs` are character boundaries: the offset of an
insertion, and both ends of a removal that is neither reversed nor past the end. -/
def OnBoundaries (cs : List Char) : Edit → Prop
  | .insert o _ => o ≤ byteSize cs → Text.IsBoundary cs o
  | .remove sp => sp.start ≤ sp.stop → sp.stop ≤ byteSize cs →
      Text.IsBoundary cs sp.start ∧ Text.IsBoundary cs sp.stop

end Edit

instance (cs : List Char) (k : Nat) : Decidable (Text.IsBoundary cs k) :=
  inferInstanceAs (Decidable ((Text.splitAtByte cs k).isSome = true))

instance (cs : List Char) : DecidablePred (Edit.OnBoundaries cs)
  | .insert o _ => inferInstanceAs (Decidable (o ≤ byteSize cs → Text.IsBoundary cs o))
  | .remove sp => inferInstanceAs (Decidable (sp.start ≤ sp.stop → sp.stop ≤ byteSize cs →
      Text.IsBoundary cs sp.start ∧ Text.IsBoundary cs sp.stop))

/-- Whether two byte ranges share a byte. -/
def Span.Overlaps (a b : Span) : Prop :=
  ∃ q, a.start ≤ q ∧ q < a.stop ∧ b.start ≤ q ∧ q < b.stop

/-- Edits that lie apart: no insertion lies strictly inside a removal, and no two removals
share a byte. Touching is allowed. -/
structure EditsApart (es : List Edit) : Prop where
  insert_outside : ∀ o t sp, Edit.insert o t ∈ es → Edit.remove sp ∈ es →
    sp.start < o → sp.stop ≤ o
  removals_disjoint : es.Pairwise fun a b => ∀ sa sb, a = .remove sa → b = .remove sb →
    ¬ sa.Overlaps sb

/-- What the edits insert at byte offset `p`: the texts of the insertions there, the one
listed last first. -/
def insertedAt (es : List Edit) (p : Nat) : List Char :=
  ((es.filterMap (Edit.insertsAt p)).reverse.map String.toList).flatten

/-- Whether an edit deletes the byte at offset `p` of a text of `n` bytes. -/
def removedAt (es : List Edit) (n p : Nat) : Bool := es.any (Edit.removesAt n p)

/-- The characters `cs`, the first at byte offset `p` of a text of `n` bytes, spliced: each
comes after what is inserted at its offset, and stays unless it is removed. -/
def spliceChars (es : List Edit) (n : Nat) : Nat → List Char → List Char
  | _, [] => []
  | p, c :: cs =>
    insertedAt es p ++ (if removedAt es n p then [] else [c]) ++
      spliceChars es n (p + c.utf8Size) cs

/-- The splice of the text `cs` by the edits, from left to right in offsets of `cs`. -/
def spliceText (es : List Edit) (cs : List Char) : List Char :=
  spliceChars es (byteSize cs) 0 cs ++ insertedAt es (byteSize cs)

/-- The splice of a source text by edits. -/
def splice (src : String) (es : List Edit) : String := String.ofList (spliceText es src.toList)

section Splice

variable {es es' : List Edit} {n p q : Nat}

@[simp] lemma spliceChars_nil : spliceChars es n p [] = [] := rfl

@[simp] lemma spliceChars_cons (c : Char) (cs : List Char) :
    spliceChars es n p (c :: cs) = insertedAt es p ++ (if removedAt es n p then [] else [c]) ++
      spliceChars es n (p + c.utf8Size) cs := rfl

@[simp] lemma insertedAt_nil : insertedAt [] p = [] := rfl

@[simp] lemma removedAt_nil : removedAt [] n p = false := rfl

/-- A splice of two stretches of text is the splice of the first and that of the second. -/
lemma spliceChars_append (a b : List Char) :
    spliceChars es n p (a ++ b) = spliceChars es n p a ++ spliceChars es n (p + byteSize a) b := by
  induction a generalizing p with
  | nil => simp
  | cons c a ih => simp [ih, Nat.add_assoc]

/-- A range hypothesis over the offsets of a stretch holds at its first offset and over the
offsets of the rest. -/
lemma forall_offsets_cons {P : Nat → Prop} {c : Char} {cs : List Char}
    (h : ∀ q, p ≤ q → q < p + byteSize (c :: cs) → P q) :
    P p ∧ ∀ q, p + c.utf8Size ≤ q → q < p + c.utf8Size + byteSize cs → P q := by
  have hc := Char.utf8Size_pos c
  rw [byteSize_cons] at h
  exact ⟨h p (Nat.le_refl p) (by omega), fun q hq hq' => h q (by omega) (by omega)⟩

@[simp] lemma spliceChars_of_nil (cs : List Char) : spliceChars [] n p cs = cs := by
  induction cs generalizing p with
  | nil => rfl
  | cons c cs ih => simp [ih]

/-- Characters at whose offsets the edits of `es` and `es'` do the same are spliced alike. -/
lemma spliceChars_congr (es' : List Edit) {cs : List Char}
    (h : ∀ q, p ≤ q → q < p + byteSize cs →
      insertedAt es q = insertedAt es' q ∧ removedAt es n q = removedAt es' n q) :
    spliceChars es n p cs = spliceChars es' n p cs := by
  induction cs generalizing p with
  | nil => rfl
  | cons c cs ih =>
    obtain ⟨⟨hins, hrem⟩, hrest⟩ := forall_offsets_cons h
    rw [spliceChars_cons, spliceChars_cons, hins, hrem, ih hrest]

/-- Characters where no edit acts come through unchanged. -/
lemma spliceChars_of_untouched {cs : List Char}
    (h : ∀ q, p ≤ q → q < p + byteSize cs → insertedAt es q = [] ∧ removedAt es n q = false) :
    spliceChars es n p cs = cs := by
  rw [spliceChars_congr [] fun q hq hq' => by simpa using h q hq hq', spliceChars_of_nil]

/-- Characters that are all removed, with nothing inserted among them, are gone. -/
lemma spliceChars_of_removed {cs : List Char}
    (h : ∀ q, p ≤ q → q < p + byteSize cs → insertedAt es q = [] ∧ removedAt es n q = true) :
    spliceChars es n p cs = [] := by
  induction cs generalizing p with
  | nil => rfl
  | cons c cs ih =>
    obtain ⟨⟨hins, hrem⟩, hrest⟩ := forall_offsets_cons h
    rw [spliceChars_cons, hins, hrem, ih hrest]
    simp

/-- With nothing inserted among them, spliced characters take no more bytes than before. -/
lemma byteSize_spliceChars_le {cs : List Char}
    (h : ∀ q, p ≤ q → q < p + byteSize cs → insertedAt es q = []) :
    byteSize (spliceChars es n p cs) ≤ byteSize cs := by
  induction cs generalizing p with
  | nil => simp
  | cons c cs ih =>
    obtain ⟨hins, hrest⟩ := forall_offsets_cons h
    have hle := ih hrest
    rw [spliceChars_cons, hins]
    split <;> simp <;> omega

/-! ## One more edit -/

/-- An insertion listed last puts its text before those listed earlier at its offset. -/
lemma insertedAt_append_insert (o : Nat) (t : String) :
    insertedAt (es ++ [.insert o t]) q = (if o = q then t.toList else []) ++ insertedAt es q := by
  by_cases h : o = q <;> simp [insertedAt, Edit.insertsAt, h]

lemma insertedAt_append_remove (sp : Span) :
    insertedAt (es ++ [.remove sp]) q = insertedAt es q := by
  simp [insertedAt, Edit.insertsAt]

lemma removedAt_append (e : Edit) :
    removedAt (es ++ [e]) n q = (removedAt es n q || e.removesAt n q) := by
  simp [removedAt]

lemma removedAt_append_insert (o : Nat) (t : String) :
    removedAt (es ++ [.insert o t]) n q = removedAt es n q := by
  simp [removedAt_append, Edit.removesAt]

/-- With nothing inserted at an offset, nothing is inserted there. -/
lemma insertedAt_eq_nil (h : ∀ o t, Edit.insert o t ∈ es → o ≠ q) : insertedAt es q = [] := by
  have : es.filterMap (Edit.insertsAt q) = [] := by
    refine List.filterMap_eq_nil_iff.2 fun e he => ?_
    cases e with
    | insert o t => simp [Edit.insertsAt, h o t he]
    | remove sp => rfl
  simp [insertedAt, this]

/-- With no removal covering an offset, nothing is removed there. -/
lemma removedAt_eq_false
    (h : ∀ sp, Edit.remove sp ∈ es → sp.stop ≤ n → sp.start ≤ q → sp.stop ≤ q) :
    removedAt es n q = false := by
  rw [removedAt, List.any_eq_false]
  intro e he
  cases e with
  | insert o t => simp [Edit.removesAt]
  | remove sp =>
    have := h sp he
    simp only [Edit.removesAt, Bool.and_eq_true, decide_eq_true_eq, not_and, Nat.not_lt]
    omega

/-! ## What the applied edits leave alone -/

/-- The edits act on a text of `n` bytes only from byte offset `k` on: they insert nothing
before `k` and remove no byte before it. -/
def ActsFrom (es : List Edit) (n k : Nat) : Prop :=
  ∀ q, q < k → insertedAt es q = [] ∧ removedAt es n q = false

lemma ActsFrom.mono {k k' : Nat} (h : ActsFrom es n k) (hk : k' ≤ k) : ActsFrom es n k' :=
  fun q hq => h q (by omega)

/-- The splice by edits that act only from the end of a prefix keeps the prefix. -/
lemma spliceText_of_actsFrom {a b : List Char} (h : ActsFrom es (byteSize (a ++ b)) (byteSize a)) :
    spliceText es (a ++ b) =
      a ++ (spliceChars es (byteSize (a ++ b)) (byteSize a) b ++
        insertedAt es (byteSize (a ++ b))) := by
  rw [spliceText, spliceChars_append, spliceChars_of_untouched fun q _ hq => h q (by omega),
    Nat.zero_add, List.append_assoc]

/-- The splice by edits that act on no byte of the text, nor at its end, is the text. -/
lemma spliceText_of_actsFrom_end {cs : List Char}
    (h : ActsFrom es (byteSize cs) (byteSize cs + 1)) :
    spliceText es cs = cs := by
  rw [spliceText, spliceChars_of_untouched fun q _ hq => h q (by omega),
    (h _ (Nat.lt_succ_self _)).1, List.append_nil]

@[simp] lemma spliceText_nil (cs : List Char) : spliceText [] cs = cs :=
  spliceText_of_actsFrom_end fun _ _ => ⟨rfl, rfl⟩

/-- Edits that start at or after an offset act only from there. -/
lemma actsFrom_of_le_start {k : Nat} (h : ∀ e ∈ es, k ≤ e.span.start) : ActsFrom es n k :=
  fun q hq =>
    ⟨insertedAt_eq_nil fun o t ho => by
      have := h _ ho
      simp only [Edit.span] at this
      omega,
    removedAt_eq_false fun sp hsp _ hle => by
      have := h _ hsp
      simp only [Edit.span] at this
      omega⟩

end Splice

namespace Text

/-- Two character boundaries cut a text into three. -/
lemma exists_cut {cs : List Char} {s t : Nat} (hs : IsBoundary cs s) (ht : IsBoundary cs t)
    (hst : s ≤ t) : ∃ a m b, cs = a ++ m ++ b ∧ byteSize a = s ∧ byteSize a + byteSize m = t := by
  obtain ⟨a, r, rfl, rfl⟩ := isBoundary_iff.1 hs
  obtain ⟨a', b, hcs, rfl⟩ := isBoundary_iff.1 ht
  rcases List.append_eq_append_iff.1 hcs with ⟨m, rfl, rfl⟩ | ⟨c, rfl, rfl⟩
  · exact ⟨a, m, b, by simp, rfl, by simp⟩
  · -- the first cut lies no earlier than the second, so they are the same cut
    have hc : c = [] := by
      by_contra hc
      have := byteSize_pos hc
      simp only [byteSize_append] at hst
      omega
    subst hc
    exact ⟨a', [], r, by simp, by simp, by simp⟩

end Text

/-! ## Edits still to come -/

namespace Edit

/-- An edit applied no later than another starts no earlier. -/
lemma start_le_of_appliesBefore {p e : Edit} (h : p.appliesBefore e = true) :
    e.span.start ≤ p.span.start := by
  simp only [appliesBefore, Bool.or_eq_true, decide_eq_true_eq, Bool.and_eq_true, beq_iff_eq] at h
  rcases h with h | ⟨h, _⟩ <;> omega

/-- An insertion applied no later than a removal starts strictly after it. -/
lemma start_lt_of_insert_appliesBefore {o : Nat} {t : String} {sp : Span}
    (h : (Edit.insert o t).appliesBefore (.remove sp) = true) : sp.start < o := by
  simp only [appliesBefore, span, isInsert] at h
  simp at h
  exact of_decide_eq_true h

end Edit

lemma EditsApart.sublist {l l' : List Edit} (h : EditsApart l) (hs : l'.Sublist l) :
    EditsApart l' :=
  ⟨fun o t sp hi hr => h.insert_outside o t sp (hs.subset hi) (hs.subset hr),
    h.removals_disjoint.sublist hs⟩

/-- The edits applied before a removal that lies apart from them act only from where it
ends: an insertion after its start is at or after its end, and a removal after its start
shares no byte with it. -/
lemma actsFrom_stop {P : List Edit} {sp : Span} {n : Nat} (ha : EditsApart (P ++ [.remove sp]))
    (hP : ∀ p ∈ P, p.appliesBefore (.remove sp) = true) : ActsFrom P n sp.stop := fun q hq =>
  ⟨insertedAt_eq_nil fun o t ho => by
    have := ha.insert_outside o t sp (List.mem_append_left _ ho) (by simp)
      (Edit.start_lt_of_insert_appliesBefore (hP _ ho))
    omega,
  removedAt_eq_false fun sp' hsp' _ hle => by
    have hstart := Edit.start_le_of_appliesBefore (hP _ hsp')
    have hdisj := (List.pairwise_append.1 ha.removals_disjoint).2.2 _ hsp' _
      (List.mem_singleton_self _) sp' sp rfl rfl
    simp only [Edit.span] at hstart
    by_contra hlt
    exact hdisj ⟨q, hle, by omega, by omega, hq⟩⟩

/-! ## One edit at a time -/

section Step

variable {P : List Edit}

/-- From its own offset on, the splice by one more insertion is its text, then the splice
by the edits before it. -/
lemma spliceRest_append_insert {b : List Char} (t : String) (hn : n = p + byteSize b) :
    spliceChars (P ++ [.insert p t]) n p b ++ insertedAt (P ++ [.insert p t]) n =
      t.toList ++ (spliceChars P n p b ++ insertedAt P n) := by
  cases b with
  | nil =>
    subst hn
    simp [insertedAt_append_insert]
  | cons c b =>
    have hc := Char.utf8Size_pos c
    simp only [byteSize_cons] at hn
    -- past the first character the insertion is out of reach
    have hrest : spliceChars (P ++ [.insert p t]) n (p + c.utf8Size) b =
        spliceChars P n (p + c.utf8Size) b :=
      spliceChars_congr _ fun q hq _ => by
        rw [insertedAt_append_insert, if_neg (by omega), removedAt_append_insert]
        exact ⟨rfl, rfl⟩
    have hpn : p ≠ n := by omega
    simp [insertedAt_append_insert, removedAt_append_insert, hrest, hpn]

/-- An insertion at an offset before which the applied edits act on nothing gives the splice
by all of them. -/
lemma applyTo_insert_spliceText {a b : List Char}
    (hP : ActsFrom P (byteSize (a ++ b)) (byteSize a)) (t : String) :
    (Edit.insert (byteSize a) t).applyTo (spliceText P (a ++ b)) =
      some (spliceText (P ++ [.insert (byteSize a) t]) (a ++ b)) := by
  have hP' : ActsFrom (P ++ [.insert (byteSize a) t]) (byteSize (a ++ b)) (byteSize a) :=
    fun q hq => by
      rw [insertedAt_append_insert, removedAt_append_insert, if_neg (by omega)]
      exact hP q hq
  rw [spliceText_of_actsFrom hP, spliceText_of_actsFrom hP',
    spliceRest_append_insert t (byteSize_append a b), Edit.applyTo_insert, List.append_assoc]

/-- A removal of a stretch before whose end the applied edits act on nothing gives the
splice by all of them. -/
lemma applyTo_remove_spliceText {a m b : List Char}
    (hP : ActsFrom P (byteSize (a ++ m ++ b)) (byteSize a + byteSize m)) :
    (Edit.remove ⟨byteSize a, byteSize a + byteSize m⟩).applyTo (spliceText P (a ++ m ++ b)) =
      some (spliceText (P ++ [.remove ⟨byteSize a, byteSize a + byteSize m⟩]) (a ++ m ++ b)) := by
  have hn : byteSize a + byteSize m ≤ byteSize (a ++ m ++ b) := by simp
  have hP' : ActsFrom P (byteSize (a ++ m ++ b)) (byteSize (a ++ m)) :=
    hP.mono (Nat.le_of_eq (byteSize_append a m))
  -- the removal acts exactly on the bytes of `m`
  have hrem : ∀ q, (Edit.remove ⟨byteSize a, byteSize a + byteSize m⟩).removesAt
      (byteSize (a ++ m ++ b)) q =
        (decide (byteSize a ≤ q) && decide (q < byteSize a + byteSize m)) := by
    intro q
    simp [Edit.removesAt]
  -- the splice by all of them keeps `a`, drops `m`, and splices the rest as before
  have hall : spliceText (P ++ [.remove ⟨byteSize a, byteSize a + byteSize m⟩]) (a ++ m ++ b) =
      a ++ (spliceChars P (byteSize (a ++ m ++ b)) (byteSize (a ++ m)) b ++
        insertedAt P (byteSize (a ++ m ++ b))) := by
    rw [spliceText, spliceChars_append, spliceChars_append, Nat.zero_add, Nat.zero_add,
      spliceChars_of_untouched fun q _ hq => by
        rw [insertedAt_append_remove, removedAt_append, hrem, (hP q (by omega)).1,
          (hP q (by omega)).2]
        simp only [Nat.zero_add] at hq
        simp
        omega,
      spliceChars_of_removed fun q hq hq' => by
        rw [insertedAt_append_remove, removedAt_append, hrem, (hP q (by omega)).1]
        simp [hq, hq'],
      spliceChars_congr P fun q hq _ => by
        rw [insertedAt_append_remove, removedAt_append, hrem, byteSize_append] at *
        simp only [true_and]
        simp [show ¬ q < byteSize a + byteSize m by omega],
      insertedAt_append_remove]
    simp
  rw [hall, spliceText, List.append_assoc a m b, ← List.append_assoc a m b, spliceChars_append,
    spliceChars_of_untouched fun q _ hq => hP' q (by omega), Nat.zero_add, List.append_assoc,
    Edit.applyTo_remove]

/-- An insertion past the end of the text, after edits that act on nothing there, changes
nothing, and is left out of the splice. -/
lemma applyTo_insert_past_end {cs : List Char} {o : Nat} (ho : byteSize cs < o)
    (hP : ActsFrom P (byteSize cs) (byteSize cs + 1)) (t : String) :
    (Edit.insert o t).applyTo (spliceText P cs) = some (spliceText (P ++ [.insert o t]) cs) := by
  have hP' : ActsFrom (P ++ [.insert o t]) (byteSize cs) (byteSize cs + 1) := fun q hq => by
    rw [insertedAt_append_insert, removedAt_append_insert, if_neg (by omega)]
    exact hP q hq
  rw [spliceText_of_actsFrom_end hP, spliceText_of_actsFrom_end hP', Edit.applyTo,
    if_neg (by omega)]

/-- A removal that is reversed or runs past the end of the text is left out of the splice. -/
lemma spliceText_append_remove_of_outside {cs : List Char} {sp : Span}
    (hsp : sp.stop < sp.start ∨ byteSize cs < sp.stop) :
    spliceText (P ++ [.remove sp]) cs = spliceText P cs := by
  rw [spliceText, spliceText, insertedAt_append_remove,
    spliceChars_congr P fun q _ _ => ⟨insertedAt_append_remove _, by
      rw [removedAt_append]
      simp [Edit.removesAt]
      omega⟩]

/-- A removal that is reversed changes nothing, and is left out of the splice. -/
lemma applyTo_remove_reversed {cs : List Char} {sp : Span} (hsp : sp.stop < sp.start) :
    (Edit.remove sp).applyTo (spliceText P cs) = some (spliceText (P ++ [.remove sp]) cs) := by
  rw [spliceText_append_remove_of_outside (.inl hsp), Edit.applyTo, if_neg (by simp; omega)]

/-- A removal past the end of the text, after edits that insert nothing there, changes
nothing, and is left out of the splice: the text has not grown to reach it. -/
lemma applyTo_remove_past_end {cs : List Char} {sp : Span} (hsp : byteSize cs < sp.stop)
    (hP : ∀ q, q ≤ byteSize cs → insertedAt P q = []) :
    (Edit.remove sp).applyTo (spliceText P cs) = some (spliceText (P ++ [.remove sp]) cs) := by
  have hsize : byteSize (spliceText P cs) ≤ byteSize cs := by
    have hle : byteSize (spliceChars P (byteSize cs) 0 cs) ≤ byteSize cs :=
      byteSize_spliceChars_le fun q _ hq => hP q (by omega)
    rw [spliceText, byteSize_append, hP _ (Nat.le_refl _)]
    simpa using hle
  rw [spliceText_append_remove_of_outside (.inr hsp), Edit.applyTo, if_neg (by simp; omega)]

/-- One edit, applied after edits it applies no later than and lies apart from, takes the
splice by those to the splice by all of them. -/
lemma applyTo_spliceText {cs : List Char} {e : Edit} (hP : ∀ p ∈ P, p.appliesBefore e = true)
    (ha : EditsApart (P ++ [e])) (hb : e.OnBoundaries cs) :
    e.applyTo (spliceText P cs) = some (spliceText (P ++ [e]) cs) := by
  cases e with
  | insert o t =>
    have hle : ∀ p ∈ P, o ≤ p.span.start := fun p hp => Edit.start_le_of_appliesBefore (hP p hp)
    by_cases ho : o ≤ byteSize cs
    · obtain ⟨a, b, rfl, rfl⟩ := Text.isBoundary_iff.1 (hb ho)
      exact applyTo_insert_spliceText (actsFrom_of_le_start hle) t
    · exact applyTo_insert_past_end (by omega)
        (actsFrom_of_le_start fun p hp => by have := hle p hp; omega) t
  | remove sp =>
    have hP' : ActsFrom P (byteSize cs) sp.stop := actsFrom_stop ha hP
    by_cases hrev : sp.stop < sp.start
    · exact applyTo_remove_reversed hrev
    by_cases hend : byteSize cs < sp.stop
    · exact applyTo_remove_past_end hend fun q hq => (hP' q (by omega)).1
    obtain ⟨hs, ht⟩ := hb (by omega) (by omega)
    obtain ⟨a, m, b, rfl, hstart, hstop⟩ := Text.exists_cut hs ht (by omega)
    have hsp : sp = ⟨byteSize a, byteSize a + byteSize m⟩ := by
      cases sp
      simp_all
    subst hsp
    exact applyTo_remove_spliceText hP'

end Step

/-! ## All the edits -/

/-- Edits in the order they are applied, apart and on boundaries, turn the text into its
splice by all of them. The induction adds the edit applied last; what it finds was made by
edits it applies no later than. -/
lemma foldlM_applyTo_eq_spliceText {cs : List Char} {L : List Edit}
    (hsorted : L.Pairwise fun a b => a.appliesBefore b = true) (ha : EditsApart L)
    (hb : ∀ e ∈ L, e.OnBoundaries cs) :
    L.foldlM (fun acc (e : Edit) => e.applyTo acc) cs = some (spliceText L cs) := by
  induction L using List.reverseRecOn with
  | nil => simp
  | append_singleton P e ih =>
    obtain ⟨hsortedP, -, hbefore⟩ := List.pairwise_append.1 hsorted
    have hP := ih hsortedP (ha.sublist (List.sublist_append_left _ _))
      fun p hp => hb p (List.mem_append_left _ hp)
    rw [List.foldlM_append, hP]
    simpa using applyTo_spliceText (fun p hp => hbefore p hp e (List.mem_singleton_self e)) ha
      (hb e (by simp))

/-! ## The sort -/

lemma Edit.insertsAt_isSome {q : Nat} {e : Edit} :
    (e.insertsAt q).isSome = true ↔ ∃ t, e = .insert q t := by
  cases e with
  | insert o t => by_cases h : o = q <;> simp [Edit.insertsAt, h]
  | remove sp => simp [Edit.insertsAt]

/-- The sort keeps the insertions at one offset in the order they are listed: they are all
applied no later than each other, and the sort is stable. -/
lemma filterMap_insertsAt_mergeSort (es : List Edit) (q : Nat) :
    (es.mergeSort Edit.appliesBefore).filterMap (Edit.insertsAt q) =
      es.filterMap (Edit.insertsAt q) := by
  let g := fun e : Edit => (e.insertsAt q).isSome
  have hpair : (es.filter g).Pairwise fun a b => a.appliesBefore b = true :=
    List.pairwise_of_forall_mem_list fun a ha b hb => by
      obtain ⟨s, rfl⟩ := Edit.insertsAt_isSome.1 (List.mem_filter.1 ha).2
      obtain ⟨t, rfl⟩ := Edit.insertsAt_isSome.1 (List.mem_filter.1 hb).2
      simp [Edit.appliesBefore, Edit.span, Edit.isInsert]
  have hsub : (es.filter g).Sublist ((es.mergeSort Edit.appliesBefore).filter g) := by
    have := (List.sublist_mergeSort Edit.appliesBefore_trans Edit.appliesBefore_total hpair
      List.filter_sublist).filter g
    rwa [List.filter_filter, show (fun a => g a && g a) = g from funext fun a => Bool.and_self _]
      at this
  have heq := hsub.eq_of_length ((List.mergeSort_perm es _).filter g).length_eq.symm
  -- the insertions at `q` are what `insertsAt q` keeps
  have hkeep : ∀ l : List Edit, (l.filter g).filterMap (Edit.insertsAt q) =
      l.filterMap (Edit.insertsAt q) := fun l => by
    rw [List.filterMap_filter]
    congr 1
    funext e
    cases h : e.insertsAt q <;> simp [g, h]
  rw [← hkeep, ← heq, hkeep]

lemma insertedAt_mergeSort (es : List Edit) (q : Nat) :
    insertedAt (es.mergeSort Edit.appliesBefore) q = insertedAt es q := by
  rw [insertedAt, filterMap_insertsAt_mergeSort, insertedAt]

lemma spliceText_mergeSort (es : List Edit) (cs : List Char) :
    spliceText (es.mergeSort Edit.appliesBefore) cs = spliceText es cs := by
  rw [spliceText, spliceText, insertedAt_mergeSort,
    spliceChars_congr es fun q _ _ =>
      ⟨insertedAt_mergeSort es q, (List.mergeSort_perm es _).any_eq⟩]

lemma Span.Overlaps.symm {a b : Span} (h : a.Overlaps b) : b.Overlaps a := by
  obtain ⟨q, h1, h2, h3, h4⟩ := h
  exact ⟨q, h3, h4, h1, h2⟩

lemma EditsApart.perm {l l' : List Edit} (h : EditsApart l) (hp : l'.Perm l) : EditsApart l' :=
  ⟨fun o t sp hi hr => h.insert_outside o t sp (hp.subset hi) (hp.subset hr),
    (hp.pairwise_iff fun hab sa sb ha hb hov => hab sb sa hb ha hov.symm).2 h.removals_disjoint⟩

/-- Edits that lie apart and fall on character boundaries of the text give its splice. -/
theorem applyEdits_eq_splice {src : String} {es : List Edit}
    (hb : ∀ e ∈ es, e.OnBoundaries src.toList) (ha : EditsApart es) :
    applyEdits src es = some (splice src es) := by
  have hperm := List.mergeSort_perm es Edit.appliesBefore
  rw [applyEdits, foldlM_applyTo_eq_spliceText
    (List.pairwise_mergeSort Edit.appliesBefore_trans Edit.appliesBefore_total es)
    (ha.perm hperm) fun e he => hb e (hperm.subset he), Option.map_some, splice,
    spliceText_mergeSort]

end DotLint
