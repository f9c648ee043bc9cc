import Mathlib.Algebra.BigOperators.Intervals
import Mathlib.Order.Interval.Finset.Nat
import Mathlib.Order.Bounds.Basic
import Mathlib.Order.Lattice.Nat
import Mathlib.Tactic.Lemma
import DotLint.Syntax.Brackets

/-!
# Brackets pair by depth

`matchBrackets` pairs brackets with a stack of the openers still open: a closer of any shape
ends the most recent one, and a closer with none open is passed over. This module shows that
the stack computes the depth-count pairing. Counting an opener as one up and a closer as one
down, whatever their shapes, the opener at `i` is paired with the first `j > i` at which the
depth counted over `ts[i..=j]` is back at zero; it is unpaired when there is no such `j`, and
every other token is unpaired too (`matchBrackets_pairs_by_depth`).

The scan keeps `ScanInv`: when it has read `ts[0..n)`, the stack holds exactly the openers
whose depth has stayed above zero, the one `r` places below the top at depth `r + 1`, and the
pairs recorded are those closed before `n`. An opener, a closer with an opener pending, a
closer with none and any other token each keep it (`ScanInv.push`, `ScanInv.pop`,
`ScanInv.stray`, `ScanInv.skip`), so the whole scan does (`ScanInv.pairFrom`).
-/

namespace DotLint

namespace Brackets

/-! ## Depth -/

/-- How a token moves the depth: an opener one up, a closer one down, whatever the shape. -/
def weight (t : Token) : Int := if isOpener t then 1 else if isCloser t then -1 else 0

/-- The weight of the token at index `k`, and nothing past the end. -/
def weightAt (ts : Array Token) (k : Nat) : Int := (ts[k]?.map weight).getD 0

/-- The running depth over `ts[i..=j]`: its openers less its closers. -/
def depth (ts : Array Token) (i j : Nat) : Int := ∑ k ∈ Finset.Icc i j, weightAt ts k

/-- The depth over `ts[i..n)`, as the scan has it before it reads index `n`. -/
def depthBefore (ts : Array Token) (i n : Nat) : Int := ∑ k ∈ Finset.Ico i n, weightAt ts k

variable {ts : Array Token} {i j k n p : Nat}

lemma depth_eq_depthBefore (ts : Array Token) (i j : Nat) :
    depth ts i j = depthBefore ts i (j + 1) := by
  rw [depth, depthBefore, Finset.Ico_add_one_right_eq_Icc]

@[simp] lemma depthBefore_self : depthBefore ts i i = 0 := by
  simp [depthBefore]

lemma depthBefore_succ (h : i ≤ n) :
    depthBefore ts i (n + 1) = depthBefore ts i n + weightAt ts n :=
  Finset.sum_Ico_succ_top h _

lemma weightAt_of_lt (hn : n < ts.size) : weightAt ts n = weight ts[n] := by
  simp [weightAt, hn]

lemma weightAt_opener (hn : n < ts.size) (ho : isOpener ts[n] = true) : weightAt ts n = 1 := by
  simp [weightAt_of_lt hn, weight, ho]

lemma weightAt_closer (hn : n < ts.size) (ho : isOpener ts[n] = false)
    (hc : isCloser ts[n] = true) : weightAt ts n = -1 := by
  simp [weightAt_of_lt hn, weight, ho, hc]

lemma weightAt_other (hn : n < ts.size) (ho : isOpener ts[n] = false)
    (hc : isCloser ts[n] = false) : weightAt ts n = 0 := by
  simp [weightAt_of_lt hn, weight, ho, hc]

/-- No token takes the depth down by more than one. -/
lemma neg_one_le_weightAt (ts : Array Token) (n : Nat) : -1 ≤ weightAt ts n := by
  unfold weightAt weight
  cases ts[n]? with
  | none => simp
  | some t =>
    simp only [Option.map_some, Option.getD_some]
    split_ifs <;> omega

/-! ## Open and closed openers -/

/-- The opener at `p` is still open when the scan reaches `n`: the depth from it has stayed
above zero over every stretch `ts[p..k)` with `p < k ≤ n`. -/
def Open (ts : Array Token) (p n : Nat) : Prop :=
  (∃ h : p < ts.size, isOpener ts[p] = true) ∧ p < n ∧
    ∀ k, p < k → k ≤ n → 0 < depthBefore ts p k

/-- The opener at `p` is closed at `j`: it is open up to `j`, and the depth over `ts[p..=j]`
is zero. -/
def ClosesAt (ts : Array Token) (p j : Nat) : Prop :=
  Open ts p j ∧ j < ts.size ∧ depthBefore ts p (j + 1) = 0

lemma Open.depth_pos (h : Open ts p n) : 0 < depthBefore ts p n :=
  h.2.2 n h.2.1 le_rfl

lemma Open.succ (h : Open ts p n) (hd : 0 < depthBefore ts p (n + 1)) : Open ts p (n + 1) := by
  refine ⟨h.1, Nat.lt_succ_of_lt h.2.1, fun k hpk hk => ?_⟩
  rcases Nat.lt_or_eq_of_le hk with hk | rfl
  · exact h.2.2 k hpk (by omega)
  · exact hd

/-- An opener still open at `n + 1` was open at `n`, unless it is the token at `n`. -/
lemma Open.of_succ (h : Open ts p (n + 1)) (hpn : p ≠ n) : Open ts p n :=
  ⟨h.1, by have := h.2.1; omega, fun k hpk hk => h.2.2 k hpk (by omega)⟩

/-- A token that opens nothing is no open opener. -/
lemma Open.ne (h : Open ts p k) (hn : n < ts.size) (ho : isOpener ts[n] = false) : p ≠ n := by
  obtain ⟨⟨hp, hop⟩, -⟩ := h
  rintro rfl
  rw [hop] at ho
  cases ho

/-- An opener closes only where the depth goes down: at a closer. -/
lemma ClosesAt.weightAt_neg (h : ClosesAt ts p j) : weightAt ts j < 0 := by
  have hpos := h.1.depth_pos
  have hz := h.2.2
  rw [depthBefore_succ h.1.2.1.le] at hz
  omega

/-- An opener is open right after itself, at depth one. -/
lemma open_self (hn : n < ts.size) (ho : isOpener ts[n] = true) : Open ts n (n + 1) := by
  refine ⟨⟨hn, ho⟩, by omega, fun k hnk hk => ?_⟩
  obtain rfl : k = n + 1 := by omega
  simp [depthBefore_succ le_rfl, weightAt_opener hn ho]

/-- An opener open at `n` is closed nowhere before `n`. -/
lemma Open.le_of_closesAt (h : Open ts p n) (hc : ClosesAt ts p j) : n ≤ j := by
  by_contra hlt
  have hpos := h.2.2 (j + 1) (by have := hc.1.2.1; omega) (by omega)
  rw [hc.2.2] at hpos
  exact lt_irrefl 0 hpos

/-- The depth from an opener stays above zero up to the first index where it is zero. -/
lemma open_of_isLeast (ho : ∃ h : i < ts.size, isOpener ts[i] = true)
    (hl : IsLeast {k | i < k ∧ k < ts.size ∧ depth ts i k = 0} j) : Open ts i j := by
  obtain ⟨⟨hij, hjs, -⟩, hleast⟩ := hl
  refine ⟨ho, hij, ?_⟩
  -- by induction from `i + 1`: each step goes down by at most one and never reaches zero
  intro k hik hkj
  induction k, hik using Nat.le_induction with
  | base =>
    obtain ⟨hi, hop⟩ := ho
    simp [depthBefore_succ le_rfl, weightAt_opener hi hop]
  | succ k hik ih =>
    have hprev := ih (by omega)
    have hstep := neg_one_le_weightAt ts k
    have hne : depthBefore ts i (k + 1) ≠ 0 := by
      intro hz
      have hk : j ≤ k := hleast ⟨by omega, by omega, by
        rw [depth_eq_depthBefore]; exact hz⟩
      omega
    rw [depthBefore_succ (by omega)] at hne ⊢
    omega

/-- An opener is closed at `j` exactly when `j` is the first index after it at which the
depth is back at zero. -/
lemma closesAt_iff_isLeast (ho : ∃ h : i < ts.size, isOpener ts[i] = true) :
    ClosesAt ts i j ↔ IsLeast {k | i < k ∧ k < ts.size ∧ depth ts i k = 0} j := by
  constructor
  · rintro ⟨hopen, hjs, hz⟩
    refine ⟨⟨hopen.2.1, hjs, by rw [depth_eq_depthBefore]; exact hz⟩, ?_⟩
    rintro k ⟨hik, -, hk⟩
    by_contra hkj
    have hpos := hopen.2.2 (k + 1) (by omega) (by omega)
    rw [← depth_eq_depthBefore, hk] at hpos
    exact lt_irrefl 0 hpos
  · intro hl
    exact ⟨open_of_isLeast ho hl, hl.1.2.1, by rw [← depth_eq_depthBefore]; exact hl.1.2.2⟩

/-! ## The scan -/

/-- What the scan knows when it has read `ts[0..n)` with the openers `pending` on its stack
and the pairs `acc` recorded. -/
structure ScanInv (ts : Array Token) (n : Nat) (pending : List Nat)
    (acc : Array (Option Nat)) : Prop where
  /-- One entry per token. -/
  size_eq : acc.size = ts.size
  /-- Each opener on the stack is open, the one `r` places below the top at depth `r + 1`. -/
  stack : ∀ r (h : r < pending.length),
    Open ts pending[r] n ∧ depthBefore ts pending[r] n = r + 1
  /-- Every open opener is on the stack. -/
  complete : ∀ p, Open ts p n → p ∈ pending
  /-- The pairs recorded are those closed before `n`. -/
  recorded : ∀ p j, acc[p]? = some (some j) ↔ ClosesAt ts p j ∧ j < n

variable {pending : List Nat} {acc : Array (Option Nat)}

lemma ScanInv.init : ScanInv ts 0 [] (Array.replicate ts.size none) where
  size_eq := Array.size_replicate
  stack r h := absurd h (Nat.not_lt_zero r)
  complete p h := absurd h.2.1 (Nat.not_lt_zero p)
  recorded p j := by
    simp only [Array.getElem?_replicate, Nat.not_lt_zero, and_false, iff_false]
    split <;> simp

/-- An opener that does not close at `n` has the same pair recorded before `n + 1` as before
`n`. -/
lemma recorded_succ (hrec : ∀ j, acc[p]? = some (some j) ↔ ClosesAt ts p j ∧ j < n)
    (hnone : ¬ ClosesAt ts p n) :
    ∀ j, acc[p]? = some (some j) ↔ ClosesAt ts p j ∧ j < n + 1 := by
  intro j
  rw [hrec]
  constructor
  · rintro ⟨h, hj⟩
    exact ⟨h, by omega⟩
  · rintro ⟨h, hj⟩
    refine ⟨h, lt_of_le_of_ne (Nat.lt_succ_iff.1 hj) ?_⟩
    rintro rfl
    exact hnone h

/-- An opener goes on the stack, at depth one; the others go one deeper. -/
lemma ScanInv.push (hI : ScanInv ts n pending acc) (hn : n < ts.size)
    (ho : isOpener ts[n] = true) : ScanInv ts (n + 1) (n :: pending) acc where
  size_eq := hI.size_eq
  stack r hr := by
    have hw := weightAt_opener hn ho
    cases r with
    | zero => exact ⟨open_self hn ho, by simp [depthBefore_succ le_rfl, hw]⟩
    | succ r =>
      have hr' : r < pending.length := by simpa using hr
      obtain ⟨hopen, hd⟩ := hI.stack r hr'
      have hd' : depthBefore ts pending[r] (n + 1) = r + 2 := by
        rw [depthBefore_succ hopen.2.1.le, hd, hw]
        omega
      simp only [List.getElem_cons_succ]
      exact ⟨hopen.succ (by omega), by rw [hd']; omega⟩
  complete q hq := by
    by_cases hqn : q = n
    · exact hqn ▸ List.mem_cons_self
    · exact List.mem_cons_of_mem _ (hI.complete q (hq.of_succ hqn))
  recorded q := recorded_succ (hI.recorded q) fun hc => by
    have hneg := hc.weightAt_neg
    rw [weightAt_opener hn ho] at hneg
    omega

/-- A closer closes the opener on top of the stack: that one is at depth one. -/
lemma ScanInv.closesAt_top {top : Nat} (hI : ScanInv ts n (top :: pending) acc)
    (hn : n < ts.size) (ho : isOpener ts[n] = false) (hc : isCloser ts[n] = true) :
    ClosesAt ts top n := by
  obtain ⟨htop, hd⟩ := hI.stack 0 (by simp)
  simp only [List.getElem_cons_zero] at htop hd
  refine ⟨htop, hn, ?_⟩
  rw [depthBefore_succ htop.2.1.le, hd, weightAt_closer hn ho hc]
  omega

/-- A closer with an opener pending closes the top one, whose depth falls to zero; the
others go one shallower. -/
lemma ScanInv.pop {top : Nat} (hI : ScanInv ts n (top :: pending) acc) (hn : n < ts.size)
    (ho : isOpener ts[n] = false) (hc : isCloser ts[n] = true) :
    ScanInv ts (n + 1) pending (acc.setIfInBounds top (some n)) where
  size_eq := by rw [Array.size_setIfInBounds, hI.size_eq]
  stack r hr := by
    obtain ⟨hopen, hd⟩ := hI.stack (r + 1) (by simpa using hr)
    simp only [List.getElem_cons_succ] at hopen hd
    have hd' : depthBefore ts pending[r] (n + 1) = r + 1 := by
      rw [depthBefore_succ hopen.2.1.le, hd, weightAt_closer hn ho hc]
      omega
    exact ⟨hopen.succ (by omega), hd'⟩
  complete q hq := by
    rcases List.mem_cons.1 (hI.complete q (hq.of_succ (hq.ne hn ho))) with rfl | hmem
    · -- the top's depth is zero after `n`
      have hz := (hI.closesAt_top hn ho hc).2.2
      have hpos := hq.depth_pos
      omega
    · exact hmem
  recorded q j := by
    have hclose := hI.closesAt_top hn ho hc
    rw [Array.getElem?_setIfInBounds]
    by_cases hq : top = q
    · subst hq
      have htop_lt : top < acc.size := hI.size_eq ▸ hclose.1.1.1
      simp only [htop_lt, if_true, Option.some.injEq]
      constructor
      · rintro rfl
        exact ⟨hclose, Nat.lt_succ_self n⟩
      · rintro ⟨hcl, hj⟩
        have := (hI.stack 0 (by simp)).1.le_of_closesAt hcl
        omega
    · rw [if_neg hq]
      refine recorded_succ (hI.recorded q) (fun hcl => ?_) j
      -- only the top closes at `n`: any other opener open at `n` is deeper in the stack
      obtain ⟨r, hr, rfl⟩ := List.mem_iff_getElem.1
        ((List.mem_cons.1 (hI.complete _ hcl.1)).resolve_left (Ne.symm hq))
      have hd' := (hI.stack (r + 1) (by simpa using hr)).2
      have hz := hcl.2.2
      simp only [List.getElem_cons_succ] at hd'
      rw [depthBefore_succ hcl.1.2.1.le, hd', weightAt_closer hn ho hc] at hz
      omega

/-- A closer with no opener pending is passed over: nothing is open before it or after it. -/
lemma ScanInv.stray (hI : ScanInv ts n [] acc) (hn : n < ts.size)
    (ho : isOpener ts[n] = false) : ScanInv ts (n + 1) [] acc where
  size_eq := hI.size_eq
  stack r h := absurd h (Nat.not_lt_zero r)
  complete q hq := hI.complete q (hq.of_succ (hq.ne hn ho))
  recorded q := recorded_succ (hI.recorded q) fun hc =>
    List.not_mem_nil (hI.complete q hc.1)

/-- A token that is no bracket leaves every depth as it is. -/
lemma ScanInv.skip (hI : ScanInv ts n pending acc) (hn : n < ts.size)
    (ho : isOpener ts[n] = false) (hc : isCloser ts[n] = false) :
    ScanInv ts (n + 1) pending acc where
  size_eq := hI.size_eq
  stack r hr := by
    obtain ⟨hopen, hd⟩ := hI.stack r hr
    have hd' : depthBefore ts pending[r] (n + 1) = r + 1 := by
      rw [depthBefore_succ hopen.2.1.le, hd, weightAt_other hn ho hc, add_zero]
    exact ⟨hopen.succ (by omega), hd'⟩
  complete q hq := hI.complete q (hq.of_succ (hq.ne hn ho))
  recorded q := recorded_succ (hI.recorded q) fun hcl => by
    have hneg := hcl.weightAt_neg
    rw [weightAt_other hn ho hc] at hneg
    omega

/-- When the scan has read every token, the pairs it recorded are all the closed openers. -/
lemma ScanInv.recorded_iff (hI : ScanInv ts n pending acc) (hn : ts.size ≤ n) (p j : Nat) :
    acc[p]? = some (some j) ↔ ClosesAt ts p j :=
  (hI.recorded p j).trans ⟨And.left, fun h => ⟨h, by have := h.2.1; omega⟩⟩

/-- The run of the scan: from a state that keeps the invariant, reading the rest of the tokens
records every closed opener. -/
theorem ScanInv.pairFrom {l : List Token} (hl : l = ts.toList.drop n)
    (hI : ScanInv ts n pending acc) :
    (Brackets.pairFrom l n pending acc).size = ts.size ∧
      ∀ p j, (Brackets.pairFrom l n pending acc)[p]? = some (some j) ↔ ClosesAt ts p j := by
  induction l generalizing n pending acc with
  | nil =>
    have hn : ts.size ≤ n := by simpa using List.drop_eq_nil_iff.1 hl.symm
    exact ⟨hI.size_eq, hI.recorded_iff hn⟩
  | cons t l ih =>
    -- the token read is `ts[n]`, and the rest is what follows it
    have hn : n < ts.size := by
      by_contra hge
      rw [List.drop_eq_nil_of_le (by simpa using hge)] at hl
      cases hl
    rw [List.drop_eq_getElem_cons (by simpa using hn), List.cons.injEq,
      Array.getElem_toList] at hl
    obtain ⟨rfl, hl⟩ := hl
    rw [Brackets.pairFrom.eq_def]
    dsimp only
    by_cases ho : isOpener ts[n] = true
    · rw [if_pos ho]
      exact ih hl (hI.push hn ho)
    rw [if_neg ho]
    rw [Bool.not_eq_true] at ho
    by_cases hc : isCloser ts[n] = true
    · rw [if_pos hc]
      cases pending with
      | nil => exact ih hl (hI.stray hn ho)
      | cons top pending => exact ih hl (hI.pop hn ho hc)
    · rw [if_neg hc]
      exact ih hl (hI.skip hn ho (by simpa using hc))

end Brackets

/-- The scan from the first token with nothing pending: one entry per token, and the pairs
recorded are the closed openers. -/
lemma matchBrackets_scan (ts : Array Token) :
    (matchBrackets ts).size = ts.size ∧
      ∀ p j, (matchBrackets ts)[p]? = some (some j) ↔ Brackets.ClosesAt ts p j :=
  (@Brackets.ScanInv.init ts).pairFrom List.drop_zero.symm

/-- The opener at `i` is paired with the first index after it at which the depth is zero. -/
lemma matchBrackets_eq_some_some_iff (ts : Array Token) (i j : Nat) :
    (matchBrackets ts)[i]? = some (some j) ↔
      (∃ h : i < ts.size, Brackets.isOpener ts[i] = true) ∧
        IsLeast {k | i < k ∧ k < ts.size ∧ Brackets.depth ts i k = 0} j := by
  rw [(matchBrackets_scan ts).2]
  constructor
  · intro h
    exact ⟨h.1.1, (Brackets.closesAt_iff_isLeast h.1.1).1 h⟩
  · rintro ⟨ho, hl⟩
    exact (Brackets.closesAt_iff_isLeast ho).2 hl

/-- A token is unpaired when it opens nothing or its depth never comes back to zero. -/
lemma matchBrackets_eq_some_none_iff (ts : Array Token) (i : Nat) :
    (matchBrackets ts)[i]? = some none ↔
      ∃ h : i < ts.size, Brackets.isOpener ts[i] = false ∨
        {k | i < k ∧ k < ts.size ∧ Brackets.depth ts i k = 0} = ∅ := by
  have hsize := (matchBrackets_scan ts).1
  constructor
  · intro hnone
    have hi : i < ts.size := hsize ▸ (Array.getElem?_eq_some_iff.1 hnone).1
    refine ⟨hi, ?_⟩
    -- an opener whose depth comes back to zero has a first such index, and is paired there
    by_contra hpaired
    simp only [Bool.not_eq_false, not_or, ← Set.nonempty_iff_ne_empty] at hpaired
    obtain ⟨ho, hne⟩ := hpaired
    have := (matchBrackets_eq_some_some_iff ts i _).2
      ⟨⟨hi, ho⟩, Nat.sInf_mem hne, fun k hk => Nat.sInf_le hk⟩
    rw [hnone] at this
    cases this
  · rintro ⟨hi, hunpaired⟩
    obtain ⟨x, hx⟩ : ∃ x, (matchBrackets ts)[i]? = some x :=
      ⟨_, Array.getElem?_eq_getElem (hsize ▸ hi)⟩
    cases x with
    | none => exact hx
    | some j =>
      obtain ⟨⟨_, ho⟩, hj, -⟩ := (matchBrackets_eq_some_some_iff ts i j).1 hx
      rcases hunpaired with hno | hempty
      · rw [ho] at hno
        cases hno
      · rw [hempty] at hj
        cases hj

/-- Brackets pair by depth: `matchBrackets` has one entry per token, and pairs the opener at
`i` with `j` exactly when `j` is the first index after `i` at which the depth counted over
`ts[i..=j]`, with openers one up and closers one down whatever their shapes, is back at zero.
Every other token is unpaired: one that opens nothing, and an opener whose depth never comes
back to zero. -/
theorem matchBrackets_pairs_by_depth (ts : Array Token) :
    (matchBrackets ts).size = ts.size ∧
    (∀ i j, (matchBrackets ts)[i]? = some (some j) ↔
      (∃ h : i < ts.size, Brackets.isOpener ts[i] = true) ∧
        IsLeast {k | i < k ∧ k < ts.size ∧ Brackets.depth ts i k = 0} j) ∧
    (∀ i, (matchBrackets ts)[i]? = some none ↔
      ∃ h : i < ts.size, Brackets.isOpener ts[i] = false ∨
        {k | i < k ∧ k < ts.size ∧ Brackets.depth ts i k = 0} = ∅) :=
  ⟨(matchBrackets_scan ts).1, matchBrackets_eq_some_some_iff ts,
    matchBrackets_eq_some_none_iff ts⟩

-- `) ( [ a ) ]`: the stray closer is passed over, and each closer ends the latest opener
example : matchBrackets #[⟨.punctuator, ")", default, default⟩,
    ⟨.punctuator, "(", default, default⟩, ⟨.punctuator, "[", default, default⟩,
    ⟨.identifier, "a", default, default⟩, ⟨.punctuator, ")", default, default⟩,
    ⟨.punctuator, "]", default, default⟩] = #[none, some 5, some 4, none, none, none] := by
  decide

end DotLint
