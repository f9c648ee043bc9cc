import Mathlib.Tactic.Lemma
import Mathlib.Tactic.SplitIfs
import DotLint.Lint
import DotLint.Proofs.ParsedTree

/-!
# The rule reports exactly the misplaced dots

A member access by name, `a.b` or `a?.b`, has its dot right before its property: the parser
reads the dot and then the name. `MemberDot ts M k` says that token `k` is the dot of `M`,
and `Misplaced ts k pos` that it stands on the wrong side of a line break for the position
`pos`. Linting a source that tokenizes and parses reports one finding for each member access
of the tree whose dot is misplaced, at the dot and with the access's span, and nothing else,
in strictly increasing position (`lintSource_reports_misplaced_dots`). It rests on:

* the walk by the standard child keys enters every node of a parsed tree
  (`Node.Facts.mem_order_iff`), so linting checks each node once (`lintProgram_eq`);
* over tokens in text order the binary search of the cursor finds the token right before a
  span (`TokenCursor.before?_eq`), so `check` finds the dot before the property and the
  token before the dot (`check_memberDot`);
* two member accesses entered at different times have different dots, since their
  properties lie in different parts of the tree (`order_memberDots_ne`), and different
  tokens start at different lines or columns (`tokenize_loc_start_ne`), so the sorted
  findings come in strictly increasing position.
-/

namespace DotLint

open Parse

/-! ## Looking up the token before a span -/

/-- The search finds where `p` stops holding, when it holds of a prefix of `a` and of
nothing after it. -/
lemma partitionPoint_eq {α : Type} {a : Array α} {p : α → Bool} {m : Nat} (hm : m ≤ a.size)
    (hp : ∀ i (hi : i < a.size), p a[i] = decide (i < m)) : partitionPoint a p = m := by
  -- each halving keeps `m` between the bounds of the search
  have key : ∀ lo hi (h : hi ≤ a.size), lo ≤ m → m ≤ hi → partitionPoint.go a p lo hi h = m := by
    intro lo hi h
    fun_induction partitionPoint.go a p lo hi h with
    | case1 lo hi h hlt mid hmid hpm ih =>
      intro hlo hhi
      have hlt' : mid < m := by simpa [hp mid hmid] using hpm
      exact ih (by omega) hhi
    | case2 lo hi h hlt mid hmid hpm ih =>
      intro hlo hhi
      have hge : m ≤ mid := by simpa [hp mid hmid] using hpm
      exact ih hlo hge
    | case3 lo hi h hge =>
      intro hlo hhi
      omega
  exact key 0 a.size (Nat.le_refl _) (Nat.zero_le _) hm

/-- Over tokens in text order, the last token that ends where or before token `k + 1` starts
is token `k`. -/
lemma TokenCursor.before?_eq {src : List Char} {ts : Array Token} {k : Nat} {t : Token}
    (hord : InTextOrder ts.toList) (ht : ts[k + 1]? = some t) :
    (⟨src, ts⟩ : TokenCursor).before? t.span = some k := by
  have hsize : k + 1 < ts.size := (Array.getElem?_eq_some_iff.1 ht).1
  have hpoint : partitionPoint ts (·.span.stop ≤ t.span.start) = k + 1 := by
    refine partitionPoint_eq (by omega) fun i hi => ?_
    have hti : ts[i]? = some ts[i] := Array.getElem?_eq_getElem hi
    by_cases hik : i < k + 1
    · have := hord.stop_le_start hik hti ht
      simp [hik, this]
    · -- token `k + 1` and every later one end after token `k + 1` starts
      have h1 := hord.stop_le_stop (by omega : k + 1 ≤ i) ht hti
      have h2 := (hord.nonempty_of_getElem? ht).1
      simp only [hik, decide_false, decide_eq_false_iff_not, Nat.not_le]
      omega
  simp [TokenCursor.before?, hpoint]

/-! ## Tokens start at different positions -/

/-- A character that is no blank moves the position one column on. -/
lemma Position.step_of_not_blank {c : Char} (h : Lexical.isBlank c = false) (p : Position)
    (next : Option Char) : p.step c next = ⟨p.line, p.column + 1⟩ := by
  have hlf : c ≠ '\n' := by
    rintro rfl
    simp [Lexical.isBlank] at h
  have hcr : c ≠ '\r' := by
    rintro rfl
    simp [Lexical.isBlank] at h
  simp [Position.step, hlf, hcr]

/-- `scan` reads a token only from a character that is no blank. -/
lemma Lexeme.not_blank_of_scan {c : Char} {rest : List Char} {kind : TokenKind} {n : Nat}
    (h : Lexeme.scan c rest = .token kind n) : Lexical.isBlank c = false := by
  unfold Lexeme.scan at h
  cases hb : Lexical.isBlank c with
  | false => rfl
  | true => simp [hb] at h

/-- Every token the lexer reads ends, in lines and columns, after it starts. -/
lemma lexFrom_loc_ne {cs : List Char} {off : Nat} {pos : Position} {acc res : Array Token}
    (hacc : ∀ t ∈ acc.toList, t.loc.start ≠ t.loc.stop) (h : lexFrom cs off pos acc = .ok res) :
    ∀ t ∈ res.toList, t.loc.start ≠ t.loc.stop := by
  fun_induction lexFrom cs off pos acc with
  | case1 off pos acc =>
    cases h
    exact hacc
  | case2 off pos acc c rest n hscan ih => exact ih hacc h
  | case3 off pos acc c rest kind n hscan text stop stopPos ih =>
    refine ih (fun t ht => ?_) h
    rcases Array.mem_push.1 (Array.mem_toList_iff.1 ht) with ht | rfl
    · exact hacc t (Array.mem_toList_iff.2 ht)
    · -- the first character of the token is no blank: one column on, and never back
      have hstep := Position.step_of_not_blank (Lexeme.not_blank_of_scan hscan) pos rest.head?
      have hle := Position.le_advance (pos.step c rest.head?) n rest
      simp only [stopPos, Position.advance_succ_cons, hstep] at hle ⊢
      intro heq
      rw [← heq, Position.le_iff] at hle
      dsimp only at hle
      omega
  | case4 off pos acc c rest kind hscan => cases h

variable {s : String} {ts : Array Token}

/-- Two tokens of a source at different indices start at different lines or columns. -/
lemma tokenize_loc_start_ne (h : tokenize s = .ok ts) {i j : Nat} {ti tj : Token}
    (hij : i ≠ j) (hi : ts[i]? = some ti) (hj : ts[j]? = some tj) :
    ti.loc.start ≠ tj.loc.start := by
  have hord := tokenize_inTextOrder h
  obtain ⟨_, _, _, _, hlex⟩ := tokenize_eq_lexFrom s
  have hne := lexFrom_loc_ne (by simp) (hlex ▸ h)
  -- the earlier token ends no earlier than it starts, and no later than the other starts
  have key : ∀ {a b : Nat} {ta tb : Token}, a < b → ts[a]? = some ta → ts[b]? = some tb →
      ta.loc.start ≠ tb.loc.start := by
    intro a b ta tb hab ha hb heq
    have hle := (hord.nonempty_of_getElem? ha).2
    have hpre := (hord.precedes_of_lt hab ha hb).2
    rw [← heq] at hpre
    exact hne ta (Array.mem_toList_iff.2 (Array.mem_of_getElem? ha))
      (Position.le_antisymm hle hpre)
  rcases Nat.lt_or_gt_of_ne hij with hlt | hgt
  · exact key hlt hi hj
  · exact (key hgt hj hi).symm

/-- Over tokens in text order, tokens that start at the same offset are at the same
index. -/
lemma InTextOrder.index_eq (hord : InTextOrder ts.toList) {i j : Nat} {ti tj : Token}
    (hi : ts[i]? = some ti) (hj : ts[j]? = some tj) (h : ti.span.start = tj.span.start) :
    i = j := by
  rcases Nat.lt_trichotomy i j with hij | rfl | hij
  · have h1 := hord.stop_le_start hij hi hj
    have h2 := (hord.nonempty_of_getElem? hi).1
    omega
  · rfl
  · have h1 := hord.stop_le_start hij hj hi
    have h2 := (hord.nonempty_of_getElem? hj).1
    omega

/-! ## The dot of a member access -/

/-- `M` is a member access by name whose dot is token `k`: its property is the name at token
`k + 1`, and token `k`, right before it, is a `.` or `?.`. -/
structure MemberDot (ts : Array Token) (M : Node) (k : Nat) : Prop where
  member : M.kind = .memberExpression
  named : M.flag "computed" = false
  property : ∃ t, ts[k + 1]? = some t ∧ M.child? "property" = some (identifierNode t)
  dot : isDotAt ts k = true

/-- Whether the dot at token `k` stands on the wrong side of a line break for `pos`: for the
object position, the token before the dot ends on another line than the dot starts; for the
property position, the dot ends on another line than the property starts. -/
def Misplaced (ts : Array Token) (k : Nat) : DotPosition → Prop
  | .object => ∃ b d, ts[k - 1]? = some b ∧ ts[k]? = some d ∧ b.loc.stop.line ≠ d.loc.start.line
  | .property => ∃ d p, ts[k]? = some d ∧ ts[k + 1]? = some p ∧ d.loc.stop.line ≠ p.loc.start.line

variable {M : Node} {k : Nat} {pos : DotPosition}

lemma exists_of_isDotAt (h : isDotAt ts k = true) : ∃ dot, ts[k]? = some dot := by
  cases hd : ts[k]? with
  | none => simp [isDotAt, hd] at h
  | some dot => exact ⟨dot, rfl⟩

/-- A member access by name has one dot. -/
lemma MemberDot.unique (hord : InTextOrder ts.toList) {k₁ k₂ : Nat} (h₁ : MemberDot ts M k₁)
    (h₂ : MemberDot ts M k₂) : k₁ = k₂ := by
  obtain ⟨t₁, ht₁, hp₁⟩ := h₁.property
  obtain ⟨t₂, ht₂, hp₂⟩ := h₂.property
  rw [hp₁, Option.some.injEq] at hp₂
  have hspan : t₁.span = t₂.span := by
    simp only [identifierNode, Node.mk.injEq] at hp₂
    exact hp₂.2.1
  have := hord.index_eq ht₁ ht₂ (by rw [hspan])
  omega

/-- A member access by name with the dot facts has its dot right before its property, and
at least one token before the dot. -/
lemma Node.DotFacts.memberDot (hM : M.DotFacts ts) (hkind : M.kind = .memberExpression)
    (hnamed : M.flag "computed" = false) : ∃ k, 1 ≤ k ∧ MemberDot ts M k := by
  obtain ⟨k, t, o, optional, hk, ht, -, hf, hdot, -⟩ := hM.2.1 hkind hnamed
  refine ⟨k - 1, by omega, hkind, hnamed, ⟨t, ?_, ?_⟩, hdot⟩
  · rw [Nat.sub_add_cancel (by omega)]
    exact ht
  · simp [Node.child?, Node.field?, hf]

/-! ## What `check` reports -/

namespace DotLocation

variable {c : TokenCursor}

lemma check_of_kind (h : M.kind ≠ .memberExpression) : check pos c M = none := by
  simp [check, h]

lemma check_of_computed (h : M.flag "computed" = true) : check pos c M = none := by
  simp [check, h]

end DotLocation

variable {src : List Char}

/-- On a member access by name whose dot is token `k`, after at least one token, `check`
reports at the dot and with the access's span, and does so exactly when the dot is
misplaced. -/
lemma check_memberDot (src : List Char) (pos : DotPosition) (hord : InTextOrder ts.toList)
    (h : MemberDot ts M k) (hk : 1 ≤ k) {dot : Token} (hdot : ts[k]? = some dot) :
    (∀ d, DotLocation.check pos ⟨src, ts⟩ M = some d → d.location = dot.loc ∧ d.node = M.span) ∧
    ((DotLocation.check pos ⟨src, ts⟩ M).isSome = true ↔ Misplaced ts k pos) := by
  obtain ⟨hkind, hnamed, ⟨t, ht, hprop⟩, hisdot⟩ := h
  -- the cursor finds the dot right before the property, and the token right before the dot
  have hafter : (⟨src, ts⟩ : TokenCursor).before? t.span = some k := TokenCursor.before?_eq hord ht
  have hbefore : (⟨src, ts⟩ : TokenCursor).before? dot.span = some (k - 1) :=
    TokenCursor.before?_eq hord (by rw [Nat.sub_add_cancel hk]; exact hdot)
  obtain ⟨b, hb⟩ : ∃ b, ts[k - 1]? = some b :=
    ⟨_, Array.getElem?_eq_getElem (by have := (Array.getElem?_eq_some_iff.1 hdot).1; omega)⟩
  have hpunct : dot.isPunct "." = false → dot.isPunct "?." = true := fun h => by
    simpa [isDotAt, hdot, h] using hisdot
  cases pos with
  | object =>
    by_cases hsame : b.loc.sameLine dot.loc = true
    · have hnot : ¬ Misplaced ts k .object := by
        simpa [Misplaced, hb, hdot, Location.sameLine] using hsame
      simp [DotLocation.check, hkind, hnamed, hprop, identifierNode, hafter, hdot, hbefore, hb,
        hsame, hnot]
    · have hmis : Misplaced ts k .object := by
        simpa [Misplaced, hb, hdot, Location.sameLine] using hsame
      simp [DotLocation.check, hkind, hnamed, hprop, identifierNode, hafter, hdot, hbefore, hb,
        hsame, hmis]
      exact hpunct
  | property =>
    by_cases hsame : dot.loc.sameLine t.loc = true
    · have hnot : ¬ Misplaced ts k .property := by
        simpa [Misplaced, ht, hdot, Location.sameLine] using hsame
      simp [DotLocation.check, hkind, hnamed, hprop, identifierNode, hafter, hdot, hsame, hnot]
    · have hmis : Misplaced ts k .property := by
        simpa [Misplaced, ht, hdot, Location.sameLine] using hsame
      simp [DotLocation.check, hkind, hnamed, hprop, identifierNode, hafter, hdot, hsame, hmis]
      exact hpunct

/-- What `check` reports on a node with the dot facts is a finding at the misplaced dot of a
member access by name, with the access's span. -/
lemma check_eq_some (hord : InTextOrder ts.toList) (hM : M.DotFacts ts) {d : Diagnostic}
    (h : DotLocation.check pos ⟨src, ts⟩ M = some d) :
    ∃ k dot, MemberDot ts M k ∧ ts[k]? = some dot ∧ Misplaced ts k pos ∧
      d.location = dot.loc ∧ d.node = M.span := by
  have hkind : M.kind = .memberExpression := by
    by_contra hk
    rw [DotLocation.check_of_kind hk] at h
    cases h
  have hnamed : M.flag "computed" = false := by
    cases hc : M.flag "computed" with
    | false => rfl
    | true =>
      rw [DotLocation.check_of_computed hc] at h
      cases h
  obtain ⟨k, hk, hmd⟩ := hM.memberDot hkind hnamed
  obtain ⟨dot, hdot⟩ := exists_of_isDotAt hmd.dot
  obtain ⟨hsound, hiff⟩ := check_memberDot src pos hord hmd hk hdot
  obtain ⟨hloc, hnode⟩ := hsound d h
  exact ⟨k, dot, hmd, hdot, hiff.1 (by simp [h]), hloc, hnode⟩

/-- `check` reports every member access by name with the dot facts whose dot is
misplaced. -/
lemma check_of_misplaced (src : List Char) (hord : InTextOrder ts.toList) (hM : M.DotFacts ts)
    (hmd : MemberDot ts M k) {dot : Token} (hdot : ts[k]? = some dot)
    (hmis : Misplaced ts k pos) :
    ∃ d, DotLocation.check pos ⟨src, ts⟩ M = some d ∧ d.location = dot.loc ∧ d.node = M.span := by
  obtain ⟨k', hk', hmd'⟩ := hM.memberDot hmd.member hmd.named
  obtain rfl := hmd'.unique hord hmd
  obtain ⟨hsound, hiff⟩ := check_memberDot src pos hord hmd hk' hdot
  obtain ⟨d, hd⟩ := Option.isSome_iff_exists.1 (hiff.2 hmis)
  exact ⟨d, hd, hsound d hd⟩

/-! ## Linting checks every node the walk enters -/

/-- A fold whose every step appends what `f` gives of the element appends all of it, in
order. -/
lemma foldl_eq_filterMap {α β : Type} (f : α → Option β) {step : Array β → α → Array β}
    (hstep : ∀ acc x, step acc x = acc ++ (f x).toList.toArray) (l : List α) (acc : Array β) :
    l.foldl step acc = acc ++ (l.filterMap f).toArray := by
  induction l generalizing acc with
  | nil => simp
  | cons x l ih =>
    rw [List.foldl_cons, ih, hstep]
    cases hx : f x <;> simp [hx]

/-- Linting a parsed source checks the nodes in the order the walk enters them and sorts
what the checks report. -/
lemma lintProgram_eq (src : String) (ts : Array Token) (root : Node) (pos : DotPosition) :
    lintProgram src ts root pos =
      ((ChildKeys.standard.order root).filterMap
        (DotLocation.check pos (TokenCursor.ofSource src ts))).mergeSort Diagnostic.le := by
  unfold lintProgram
  dsimp only
  rw [ChildKeys.walk_descending,
    foldl_eq_filterMap (DotLocation.check pos (TokenCursor.ofSource src ts))]
  · simp
  · -- a node of another kind reports nothing, so every node goes through `check`
    intro acc n
    by_cases hn : n.kind = .memberExpression
    · cases hc : DotLocation.check pos (TokenCursor.ofSource src ts) n <;> simp [hn]
    · simp [hn, DotLocation.check_of_kind hn]

/-! ## The order of findings -/

lemma MessageId.rank_inj {a b : MessageId} (h : a.rank = b.rank) : a = b := by
  cases a <;> cases b <;> simp_all [MessageId.rank]

namespace Diagnostic

/-- Findings are compared by where they are reported, then by message, then by the span of
their member access, each in one direction: the order is transitive. -/
lemma le_trans {a b c : Diagnostic} (hab : a.le b = true) (hbc : b.le c = true) :
    a.le c = true := by
  obtain ⟨ma, ⟨sa, ea⟩, ⟨⟨la, ca⟩, qa⟩, fa⟩ := a
  obtain ⟨mb, ⟨sb, eb⟩, ⟨⟨lb, cb⟩, qb⟩, fb⟩ := b
  obtain ⟨mc, ⟨sc, ec⟩, ⟨⟨lc, cc⟩, qc⟩, fc⟩ := c
  have hr : ∀ m m' : MessageId, m = m' ↔ m.rank = m'.rank := fun m m' =>
    ⟨fun h => h ▸ rfl, MessageId.rank_inj⟩
  simp only [le, Position.le, Span.le, bne_iff_ne, ne_eq, Position.mk.injEq, hr] at *
  split_ifs at * <;> simp_all <;> omega

/-- Any two findings are ordered one way or the other. -/
lemma le_total (a b : Diagnostic) : (a.le b || b.le a) = true := by
  obtain ⟨ma, ⟨sa, ea⟩, ⟨⟨la, ca⟩, qa⟩, fa⟩ := a
  obtain ⟨mb, ⟨sb, eb⟩, ⟨⟨lb, cb⟩, qb⟩, fb⟩ := b
  have hr : ∀ m m' : MessageId, m = m' ↔ m.rank = m'.rank := fun m m' =>
    ⟨fun h => h ▸ rfl, MessageId.rank_inj⟩
  simp only [le, Position.le, Span.le, bne_iff_ne, ne_eq, Position.mk.injEq, hr]
  split_ifs <;> simp_all <;> omega

/-- Of two findings reported at different positions, the one ordered first is reported
first. -/
lemma start_le_of_le {a b : Diagnostic} (h : a.le b = true)
    (hne : a.location.start ≠ b.location.start) : a.location.start.le b.location.start = true := by
  simpa [le, hne] using h

end Diagnostic

/-! ## Different member accesses have different dots -/

/-- Over tokens in text order, a token that ends where or before another starts is at
another index. -/
lemma InTextOrder.ne_of_stop_le (hord : InTextOrder ts.toList) {i j : Nat} {ti tj : Token}
    (hi : ts[i]? = some ti) (hj : ts[j]? = some tj) (h : ti.span.stop ≤ tj.span.start) :
    i ≠ j := by
  rintro rfl
  rw [hi, Option.some.injEq] at hj
  subst hj
  have := (hord.nonempty_of_getElem? hi).1
  omega

/-- A name is no member access. -/
@[simp] lemma memberDot_identifierNode {t : Token} : MemberDot ts (identifierNode t) k ↔ False :=
  ⟨fun h => by simpa [identifierNode] using h.member, False.elim⟩

lemma order_identifierNode (t : Token) :
    ChildKeys.standard.order (identifierNode t) = [identifierNode t] := by
  rw [ChildKeys.order_eq, ChildKeys.children_eq_nil (by simp [identifierNode, Node.children])]
  rfl

/-- The property of a member access by name that a walk from `c` enters lies inside `c`. -/
lemma MemberDot.inside {c : Node} {t : Token} (hw : c.WellSpanned ts)
    (hM : M ∈ ChildKeys.standard.order c) (h : MemberDot ts M k) (ht : ts[k + 1]? = some t) :
    c.span.start ≤ t.span.start ∧ t.span.stop ≤ c.span.stop := by
  obtain ⟨t', ht', hp⟩ := h.property
  rw [ht, Option.some.injEq] at ht'
  subst ht'
  have hin : (identifierNode t).InTree c :=
    (Node.InTree.child (Node.mem_children_of_child? hp) (.self _)).trans (Node.inTree_of_mem_order hM)
  simpa [identifierNode] using hw.inside hin

/-- In a well-spanned tree with the dot facts, member accesses by name that the walk enters
at different times have different dots: the properties under two children lie in parts of
the text one after the other, and those under a member access lie in its object, which ends
before its own property starts. -/
lemma order_memberDots_ne (hord : InTextOrder ts.toList) (n : Node) (hw : n.WellSpanned ts)
    (hf : n.Facts ts) :
    (ChildKeys.standard.order n).Pairwise fun M₁ M₂ =>
      ∀ k₁ k₂, MemberDot ts M₁ k₁ → MemberDot ts M₂ k₂ → k₁ ≠ k₂ := by
  induction n using ChildKeys.order.induct ChildKeys.standard with
  | case1 n ih =>
    have hchildren : ChildKeys.standard.children n = n.children := (hf n (.self n)).1
    have hwc : ∀ c ∈ n.children, c.WellSpanned ts := fun c hc =>
      hw.of_inTree (.child hc (.self c))
    have hfc : ∀ c ∈ n.children, c.Facts ts := fun c hc => hf.of_inTree (.child hc (.self c))
    rw [hf.order_eq, List.pairwise_cons, List.pairwise_flatMap]
    refine ⟨?root, fun c hc => ih ⟨c, hchildren ▸ hc⟩ (hwc c hc) (hfc c hc), ?siblings⟩
    case root =>
      -- a member access by name: its children are its object and its property, a name
      intro M₂ hM₂ k₁ k₂ h₁ h₂
      obtain ⟨k, t, o, optional, -, -, -, hfields, -⟩ := (hf n (.self n)).2.1 h₁.member h₁.named
      have hch : n.children = [o, identifierNode t] := by simp [Node.children, hfields]
      obtain ⟨c, hc, hM₂c⟩ := List.mem_flatMap.1 hM₂
      have hwc' := hwc c hc
      rw [hch, List.mem_cons, List.mem_singleton] at hc
      rcases hc with rfl | rfl
      · -- under the object, which ends before the property starts
        obtain ⟨t₁, ht₁, hp₁⟩ := h₁.property
        obtain ⟨t₂, ht₂, -⟩ := h₂.property
        have hspan : t.span = t₁.span := by
          have hprop : identifierNode t = identifierNode t₁ := by
            simpa [Node.child?, Node.field?, hfields] using hp₁
          simp only [identifierNode, Node.mk.injEq] at hprop
          exact hprop.2.1
        have horder : c.span.stop ≤ t.span.start := by
          rcases (hw n (.self n)).inOrder with hchain | ⟨hk, -⟩
          · rw [hch] at hchain
            simpa [identifierNode] using List.rel_of_isChain_cons_cons hchain
          · rw [h₁.member] at hk
            cases hk
        have hin := h₂.inside hwc' hM₂c ht₂
        rw [hspan] at horder
        have := hord.ne_of_stop_le ht₂ ht₁ (by omega)
        omega
      · -- the property is a name, and no member access
        rw [order_identifierNode, List.mem_singleton] at hM₂c
        subst hM₂c
        simp at h₂
    case siblings =>
      rcases (hw n (.self n)).inOrder with hchain | ⟨hkind, hshort, -⟩
      · -- children one after another hold their properties one after another
        have hpair := pairwise_of_isChain hchain fun c hc => by
          obtain ⟨a, b, hcov⟩ := (hwc c hc c (.self c)).covers
          exact hcov.start_lt_stop hord
        refine hpair.imp_of_mem fun {c₁ c₂} hc₁ hc₂ h12 => ?_
        intro M₁ hM₁ M₂ hM₂ k₁ k₂ h₁ h₂
        obtain ⟨t₁, ht₁, -⟩ := h₁.property
        obtain ⟨t₂, ht₂, -⟩ := h₂.property
        have hin₁ := h₁.inside (hwc c₁ hc₁) hM₁ ht₁
        have hin₂ := h₂.inside (hwc c₂ hc₂) hM₂ ht₂
        have := hord.ne_of_stop_le ht₁ ht₂ (by omega)
        omega
      · -- a shorthand property: its two children are one name
        obtain ⟨t, ht⟩ := (hf n (.self n)).2.2 hkind hshort
        rw [ht]
        simp [order_identifierNode]

/-! ## Linting a source -/

variable {root : Node}

/-- The findings of a parsed source, before sorting, are reported at pairwise different
positions. -/
lemma findings_start_ne (hts : tokenize s = .ok ts) (hp : parse ts = .ok root) :
    ((ChildKeys.standard.order root).filterMap
      (DotLocation.check pos (TokenCursor.ofSource s ts))).Pairwise
        fun a b => a.location.start ≠ b.location.start := by
  have hord := tokenize_inTextOrder hts
  have hfacts := parse_facts hord hp
  rw [List.pairwise_filterMap]
  by_cases hsize : 0 < ts.size
  · -- two findings come from member accesses with different dots
    have hw := parse_wellSpanned hord hp hsize
    refine (order_memberDots_ne hord root hw hfacts).imp_of_mem fun {M₁ M₂} hM₁ hM₂ hne => ?_
    intro d₁ hd₁ d₂ hd₂
    obtain ⟨k₁, dot₁, h₁, hdot₁, -, hloc₁, -⟩ :=
      check_eq_some hord (hfacts M₁ (Node.inTree_of_mem_order hM₁)) hd₁
    obtain ⟨k₂, dot₂, h₂, hdot₂, -, hloc₂, -⟩ :=
      check_eq_some hord (hfacts M₂ (Node.inTree_of_mem_order hM₂)) hd₂
    rw [hloc₁, hloc₂]
    exact tokenize_loc_start_ne hts (hne k₁ k₂ h₁ h₂) hdot₁ hdot₂
  · -- over no tokens the walk enters the empty program alone
    have hchildren := parse_children_eq_nil hord hp (by omega)
    rw [ChildKeys.order_eq, (hfacts root (.self root)).1, hchildren]
    exact List.pairwise_singleton _ _

/-- In a source that tokenizes and parses, every member access by name has a dot right
before its property, which the cursor finds as the token before the property. Linting it
succeeds and reports exactly the member accesses by name whose dot is misplaced: each finding
is at the dot of such an access and carries the access's span, every such access has a
finding, and the findings come in strictly increasing position, so each access has only
one. -/
theorem lintSource_reports_misplaced_dots {src : String} {ts : Array Token} {root : Node}
    (hts : tokenize src = .ok ts) (hp : parse ts = .ok root) (pos : DotPosition) :
    (∀ M, M.InTree root → M.kind = .memberExpression → M.flag "computed" = false →
      ∃ k t, MemberDot ts M k ∧ ts[k + 1]? = some t ∧
        (TokenCursor.ofSource src ts).before? t.span = some k) ∧
    ∃ ds, lintSource src pos = .ok ds ∧
      (∀ d ∈ ds, ∃ M k dot, M.InTree root ∧ MemberDot ts M k ∧ ts[k]? = some dot ∧
        Misplaced ts k pos ∧ d.location = dot.loc ∧ d.node = M.span) ∧
      (∀ M k dot, M.InTree root → MemberDot ts M k → ts[k]? = some dot → Misplaced ts k pos →
        ∃ d ∈ ds, d.location = dot.loc ∧ d.node = M.span) ∧
      ds.Pairwise fun a b =>
        a.location.start.le b.location.start = true ∧ a.location.start ≠ b.location.start := by
  have hord := tokenize_inTextOrder hts
  have hfacts := parse_facts hord hp
  -- the findings in walk order, before sorting
  obtain ⟨found, hfound⟩ : ∃ found, (ChildKeys.standard.order root).filterMap
      (DotLocation.check pos (TokenCursor.ofSource src ts)) = found := ⟨_, rfl⟩
  have hperm := List.mergeSort_perm found Diagnostic.le
  refine ⟨fun M hin hkind hnamed => ?dot, found.mergeSort Diagnostic.le,
    by simp [lintSource, hts, hp, lintProgram_eq, hfound], ?sound, ?complete, ?sorted⟩
  case dot =>
    obtain ⟨k, -, hmd⟩ := (hfacts M hin).memberDot hkind hnamed
    obtain ⟨t, ht, -⟩ := hmd.property
    exact ⟨k, t, hmd, ht, TokenCursor.before?_eq hord ht⟩
  case sound =>
    intro d hd
    obtain ⟨M, hM, hcheck⟩ := List.mem_filterMap.1 (hfound ▸ hperm.mem_iff.1 hd)
    have hin := Node.inTree_of_mem_order hM
    obtain ⟨k, dot, hmd, hdot, hmis, hloc, hnode⟩ := check_eq_some hord (hfacts M hin) hcheck
    exact ⟨M, k, dot, hin, hmd, hdot, hmis, hloc, hnode⟩
  case complete =>
    intro M k dot hin hmd hdot hmis
    obtain ⟨d, hcheck, hloc, hnode⟩ :=
      check_of_misplaced src.toList hord (hfacts M hin) hmd hdot hmis
    have hmem : M ∈ ChildKeys.standard.order root := hfacts.mem_order_iff.2 hin
    exact ⟨d, hperm.mem_iff.2 (hfound ▸ List.mem_filterMap.2 ⟨M, hmem, hcheck⟩), hloc, hnode⟩
  case sorted =>
    have hsorted := List.pairwise_mergeSort (fun a b c => @Diagnostic.le_trans a b c)
      Diagnostic.le_total found
    have hne := (hperm.pairwise_iff fun h => Ne.symm h).2 (hfound ▸ findings_start_ne hts hp)
    exact (hsorted.and hne).imp fun ⟨hle, hne⟩ => ⟨Diagnostic.start_le_of_le hle hne, hne⟩

/-- A dot at the start of the property's line, reported for the object position. -/
theorem lintSource_reports_split_member :
    let ta : Token := ⟨.identifier, "a", ⟨0, 1⟩, ⟨⟨1, 1⟩, ⟨1, 2⟩⟩⟩
    let tdot : Token := ⟨.punctuator, ".", ⟨2, 3⟩, ⟨⟨2, 1⟩, ⟨2, 2⟩⟩⟩
    let tb : Token := ⟨.identifier, "b", ⟨3, 4⟩, ⟨⟨2, 2⟩, ⟨2, 3⟩⟩⟩
    let member : Node := ⟨.memberExpression, ⟨0, 4⟩, ⟨⟨1, 1⟩, ⟨2, 3⟩⟩,
      [("object", .node (identifierNode ta)), ("property", .node (identifierNode tb)),
        ("computed", .flag false), ("optional", .flag false)]⟩
    let root : Node := ⟨.program, ⟨0, 4⟩, ⟨⟨1, 1⟩, ⟨2, 3⟩⟩, [("body", .list
      [⟨.expressionStatement, ⟨0, 4⟩, ⟨⟨1, 1⟩, ⟨2, 3⟩⟩, [("expression", .node member)]⟩])]⟩
    tokenize "a\n.b" = .ok #[ta, tdot, tb] ∧ parse #[ta, tdot, tb] = .ok root ∧
      (∀ M, M.InTree root → M.kind = .memberExpression → M.flag "computed" = false →
        ∃ k t, MemberDot #[ta, tdot, tb] M k ∧ #[ta, tdot, tb][k + 1]? = some t ∧
          (TokenCursor.ofSource "a\n.b" #[ta, tdot, tb]).before? t.span = some k) ∧
      ∃ ds, lintSource "a\n.b" .object = .ok ds ∧
        (∀ d ∈ ds, ∃ M k dot, M.InTree root ∧ MemberDot #[ta, tdot, tb] M k ∧
          #[ta, tdot, tb][k]? = some dot ∧ Misplaced #[ta, tdot, tb] k .object ∧
          d.location = dot.loc ∧ d.node = M.span) ∧
        (∀ M k dot, M.InTree root → MemberDot #[ta, tdot, tb] M k →
          #[ta, tdot, tb][k]? = some dot → Misplaced #[ta, tdot, tb] k .object →
          ∃ d ∈ ds, d.location = dot.loc ∧ d.node = M.span) ∧
        ds.Pairwise fun a b =>
          a.location.start.le b.location.start = true ∧ a.location.start ≠ b.location.start := by
  intro ta tdot tb member root
  refine ⟨?hts, ?hp, lintSource_reports_misplaced_dots ?hts ?hp .object⟩
  case hts =>
    simp +decide [ta, tdot, tb, tokenize, lexFrom, Lexeme.scan, Lexical.isWordStart,
      Lexical.isWordPart, Lexical.wordKind, Position.advance, Position.step,
      Lexical.punctuatorLength, Lexical.punctuators, Char.utf8Size]
  case hp => rfl

end DotLint
