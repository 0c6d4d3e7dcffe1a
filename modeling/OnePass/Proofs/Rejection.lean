import Mathlib
import OnePass.Proofs.Depth

namespace OnePass

/-- One reduction, as the stack shows it. -/
inductive Reduction : List Directive → List Directive → Prop where
  | unary {rhs op value : Directive} {below : List Directive} (hr : rhs.kind = .value)
      (hop : op.kind.isUnary) (hv : value.kind = .value) :
      Reduction (rhs :: op :: below) (value :: below)
  | assign {rhs op lhs : Directive} {rest : List Directive} (hr : rhs.kind = .value)
      (hop : op.kind = .assign) (hl : lhs.kind.isOperator = false)
      (hg : lhs.kind.opensGroup = false) : Reduction (rhs :: op :: lhs :: rest) rest
  | binary {rhs op lhs value : Directive} {rest : List Directive} (hr : rhs.kind = .value)
      (hop : op.kind.alu?.isSome) (hl : lhs.kind.isOperator = false)
      (hg : lhs.kind.opensGroup = false) (hd : lhs.kind ≠ .declaration)
      (hv : value.kind = .value) : Reduction (rhs :: op :: lhs :: rest) (value :: rest)

namespace Build

variable {α β : Type} {s t : Session} {rhs op : Directive} {above below : List Directive}

/-- A step that gives no result. -/
def Fails (r : EStateM.Result Stop Session α) : Prop := ∀ a t, r ≠ .ok a t

theorem fails_error (e : Stop) (t : Session) : Fails (.error e t : EStateM.Result Stop Session α) :=
  fun _ _ h => by simp at h

theorem Fails.bind {m : Build α} (h : Fails (m.run s)) (f : α → Build β) :
    Fails ((m >>= f).run s) := by
  rw [EStateM.run_bind]
  cases hr : m.run s with
  | ok a t => exact absurd hr (h a t)
  | error e t => exact fails_error e t

theorem run_bind_eq_ok {m : Build α} {f : α → Build β} {b : β} :
    (m >>= f).run s = .ok b t ↔ ∃ a u, m.run s = .ok a u ∧ (f a).run u = .ok b t := by
  rw [EStateM.run_bind]
  cases m.run s with
  | ok a u => simp
  | error e u => simp

theorem kind_combine {kind : DirectiveKind} {tok : Token} {lhs value : Directive}
    (h : (combine kind tok lhs rhs).run s = .ok value t) : value.kind = .value := by
  simp only [combine_eq, run_bind_eq_ok, EStateM.run_pure, EStateM.Result.ok.injEq] at h
  obtain ⟨_, _, _, _, _, _, _, _, _, _, _, _, rfl, _⟩ := h
  rfl

theorem kind_takeAddress {tok : Token} {value : Directive}
    (h : (takeAddress tok rhs).run s = .ok value t) : value.kind = .value := by
  unfold takeAddress at h
  dsimp only at h
  split at h
  · simp only [run_bind_eq_ok, EStateM.run_pure, EStateM.Result.ok.injEq] at h
    obtain ⟨_, _, _, _, _, _, rfl, _⟩ := h
    rfl
  · simp at h

theorem kind_dereference {tok : Token} {value : Directive}
    (h : (dereference tok rhs).run s = .ok value t) : value.kind = rhs.kind := by
  unfold dereference at h
  dsimp only at h
  split at h
  · simp at h
  · simp only [EStateM.run_pure, EStateM.Result.ok.injEq] at h
    rw [← h.1]

theorem reduction_reduceBinary {tok : Token}
    {r : { stack : List Directive // stack.length ≤ below.length }} (hk : rhs.kind = .value)
    (h : (reduceBinary op tok rhs below).run s = .ok r t) : Reduction (rhs :: op :: below) r.1 := by
  cases below with
  | nil => simp [reduceBinary] at h
  | cons lhs rest =>
    simp only [reduceBinary] at h
    split at h
    · simp at h
    · rename_i hl
      simp only [Bool.or_eq_true, not_or, Bool.not_eq_true] at hl
      split at h
      · rename_i hop
        have hrest : r.1 = rest := by
          split at h <;>
          · obtain ⟨_, u, -, heq⟩ := run_bind_eq_ok.1 h
            simp only [EStateM.run_pure, EStateM.Result.ok.injEq] at heq
            rw [← heq.1]
        rw [hrest]
        exact .assign hk hop hl.1 hl.2
      iterate 3
        rename_i hop
        split at h
        · simp at h
        · rename_i hd
          obtain ⟨value, u, hv, heq⟩ := run_bind_eq_ok.1 h
          simp only [EStateM.run_pure, EStateM.Result.ok.injEq] at heq
          rw [← heq.1]
          exact .binary hk (by simp [hop, DirectiveKind.alu?]) hl.1 hl.2 hd (kind_combine hv)
      · simp at h

theorem reduction_reduceOver {tok : Token}
    {r : { stack : List Directive // stack.length ≤ below.length + 1 }}
    (h : (reduceOver op tok rhs below).run s = .ok r t) : Reduction (rhs :: op :: below) r.1 := by
  unfold reduceOver at h
  split at h
  · rename_i hk
    split at h
    · rename_i hop
      obtain ⟨value, u, hv, heq⟩ := run_bind_eq_ok.1 h
      simp only [EStateM.run_pure, EStateM.Result.ok.injEq] at heq
      rw [← heq.1]
      exact .unary hk (by simp [hop, DirectiveKind.isUnary]) ((kind_dereference hv).trans hk)
    · rename_i hop
      obtain ⟨value, u, hv, heq⟩ := run_bind_eq_ok.1 h
      simp only [EStateM.run_pure, EStateM.Result.ok.injEq] at heq
      rw [← heq.1]
      exact .unary hk (by simp [hop, DirectiveKind.isUnary]) (kind_takeAddress hv)
    · obtain ⟨reduced, u, hrun, heq⟩ := run_bind_eq_ok.1 h
      simp only [EStateM.run_pure, EStateM.Result.ok.injEq] at heq
      rw [← heq.1]
      exact reduction_reduceBinary hk hrun
  · simp at h
  · simp at h

theorem reduction_reduceSplit
    {r : { stack : List Directive // stack.length < (above ++ op :: below).length }}
    (h : (reduceSplit above op below).run s = .ok r t) : Reduction (above ++ op :: below) r.1 := by
  unfold reduceSplit at h
  split at h
  · rw [run_bind_ok (run_tokenAt _)] at h
    obtain ⟨reduced, u, hrun, heq⟩ := run_bind_eq_ok.1 h
    simp only [EStateM.run_pure, EStateM.Result.ok.injEq] at heq
    rw [← heq.1]
    exact reduction_reduceOver hrun
  · rw [run_bind_ok (run_tokenAt _)] at h
    simp at h

theorem reductions_reduceStack {q : Int} {stack : List Directive} (hs : s.stack = stack)
    (h : (reduceStack q stack).run s = .ok () t) :
    Relation.ReflTransGen Reduction stack t.stack ∧ (q ≤ 0 → splitOperator t.stack = none) := by
  induction hn : stack.length using Nat.strong_induction_on generalizing s stack with
  | _ n ih =>
    rw [reduceStack] at h
    split at h
    · rename_i hnone
      simp only [EStateM.run_pure, EStateM.Result.ok.injEq, true_and] at h
      subst h
      rw [hs]
      exact ⟨.refl, fun _ => hnone⟩
    · rename_i above op below hsplit
      split at h
      · rename_i hprec
        have hnonneg := precedence_nonneg op.kind
        simp only [EStateM.run_pure, EStateM.Result.ok.injEq, true_and] at h
        subst h
        rw [hs]
        exact ⟨.refl, fun hq => by omega⟩
      · -- one reduction, and then those of a shorter stack
        rw [run_bind_ok (run_note _)] at h
        obtain ⟨r, u, hred, h⟩ := run_bind_eq_ok.1 h
        rw [run_bind_ok (run_setStack _)] at h
        have hstack := splitTop_eq hsplit
        have hlt : r.1.length < n := by
          rw [← hn, hstack]
          exact r.2
        obtain ⟨hsteps, hnone⟩ := ih _ hlt (s := { u with stack := r.1 }) rfl h rfl
        refine ⟨.head ?_ hsteps, hnone⟩
        rw [hstack]
        exact reduction_reduceSplit hred

end Build

/-- A binary operator that has no left side, or one that may not stand there. An assignment inside
a group leaves nothing for the group. -/
inductive Hopeless (op : Directive) : List Directive → Prop where
  | nothing : Hopeless op []
  | operator {lhs : Directive} {rest : List Directive} (hl : lhs.kind.isOperator) :
      Hopeless op (lhs :: rest)
  | group {lhs : Directive} {rest : List Directive} (hl : lhs.kind.opensGroup) :
      Hopeless op (lhs :: rest)
  | declaration {lhs : Directive} {rest : List Directive} (hl : lhs.kind = .declaration)
      (hop : op.kind ≠ .assign) : Hopeless op (lhs :: rest)
  | inside {lhs g : Directive} {rest : List Directive} (hop : op.kind = .assign)
      (hg : g.kind.opensGroup) : Hopeless op (lhs :: g :: rest)

/-- A stack with a hopeless operator in it. -/
inductive Doomed : List Directive → Prop where
  | here {op : Directive} {below : List Directive} (hop : op.kind.isOperator)
      (hu : op.kind.isUnary = false) (h : Hopeless op below) : Doomed (op :: below)
  | under {d : Directive} {rest : List Directive} (h : Doomed rest) : Doomed (d :: rest)

def Exposed (stack : List Directive) : Prop := ∃ g ∈ stack.head?, g.kind.opensGroup

theorem Doomed.of_cons {d : Directive} {rest : List Directive} (h : Doomed (d :: rest))
    (hd : d.kind.isOperator = false) : Doomed rest := by
  cases h with
  | here hop => simp [hop] at hd
  | under h => exact h

theorem Doomed.of_append {above : List Directive} (rest : List Directive)
    (h : Doomed (above ++ rest)) (ho : ∀ d ∈ above, d.kind.isOperator = false) : Doomed rest := by
  induction above with
  | nil => exact h
  | cons d above ih =>
    exact ih (h.of_cons (ho d (by simp))) fun d hd => ho d (by simp [hd])

theorem Reduction.doomed {stack stack' : List Directive} (hr : Reduction stack stack')
    (h : Doomed stack) : Doomed stack' ∨ Exposed stack' := by
  cases hr with
  | unary hk hop hv =>
    cases h.of_cons (by simp [hk, DirectiveKind.isOperator]) with
    | here _ hu => simp [hop] at hu
    | under h => exact .inl (.under h)
  | assign hk hop hl hg =>
    cases h.of_cons (by simp [hk, DirectiveKind.isOperator]) with
    | here _ _ h =>
      cases h with
      -- what a reduction takes as its left side is neither an operator nor a marker
      | operator h => simp [h] at hl
      | group h => simp [h] at hg
      | declaration _ h => exact absurd hop h
      | inside _ hg' => exact .inr ⟨_, rfl, hg'⟩
    | under h => exact .inl (h.of_cons hl)
  | binary hk hop hl hg hd hv =>
    cases h.of_cons (by simp [hk, DirectiveKind.isOperator]) with
    | here _ _ h =>
      cases h with
      | operator h => simp [h] at hl
      | group h => simp [h] at hg
      | declaration h _ => exact absurd h hd
      | inside hassign _ =>
        rw [hassign] at hop
        simp [DirectiveKind.alu?] at hop
    | under h => exact .inl (.under (h.of_cons hl))

theorem Reduction.ungrouped {stack stack' : List Directive} (hr : Reduction stack stack')
    (h : ∀ d ∈ stack, d.kind.opensGroup = false) : ∀ d ∈ stack', d.kind.opensGroup = false := by
  cases hr <;> simp_all [DirectiveKind.opensGroup]

theorem ungrouped_reductions {stack stack' : List Directive}
    (hr : Relation.ReflTransGen Reduction stack stack')
    (h : ∀ d ∈ stack, d.kind.opensGroup = false) : ∀ d ∈ stack', d.kind.opensGroup = false := by
  induction hr with
  | refl => exact h
  | tail _ hstep ih => exact hstep.ungrouped ih

theorem Reduction.not_exposed {stack stack' : List Directive} (hr : Reduction stack stack') :
    ¬Exposed stack := by
  rintro ⟨g, hhead, hg⟩
  cases hr <;> simp_all [DirectiveKind.opensGroup]

theorem doomed_reductions {stack stack' : List Directive}
    (hr : Relation.ReflTransGen Reduction stack stack') (h : Doomed stack) :
    Doomed stack' ∨ Exposed stack' := by
  induction hr with
  | refl => exact .inl h
  | tail _ hstep ih =>
    rcases ih with h | h
    · exact hstep.doomed h
    · exact absurd h hstep.not_exposed

namespace Build

variable {s t : Session} {i : Nat} {tok : Token}

theorem doomed_reduce {q : Int} (hd : Doomed s.stack) (h : (reduce q).run s = .ok () t) :
    (Doomed t.stack ∨ Exposed t.stack) ∧ (q ≤ 0 → splitOperator t.stack = none) := by
  unfold reduce at h
  rw [EStateM.run_bind, EStateM.run_get] at h
  obtain ⟨hsteps, hnone⟩ := reductions_reduceStack rfl h
  exact ⟨doomed_reductions hsteps hd, hnone⟩

theorem stack_pushEntry {d : Directive} (h : (pushEntry d tok).run s = .ok () t) :
    t.stack = d :: s.stack := by
  unfold pushEntry at h
  rw [EStateM.run_bind, EStateM.run_get] at h
  dsimp only at h
  split at h
  · rw [EStateM.run_bind, EStateM.run_get] at h
    simp only [run_setStack, EStateM.Result.ok.injEq, true_and] at h
    rw [← h]
  · simp at h

theorem stack_pushTerm {d : Directive} (h : (pushTerm d tok).run s = .ok () t) :
    t.stack = d :: s.stack := by
  obtain ⟨_, u, hpush, h⟩ := run_bind_eq_ok.1 h
  simp only [run_setExpectOperand, EStateM.Result.ok.injEq, true_and] at h
  have hstack := stack_pushEntry hpush
  rw [← h]
  exact hstack

theorem doomed_pushOperator {kind : DirectiveKind} (hop : kind.isOperator)
    (hu : kind.isUnary = false) (hd : Doomed s.stack)
    (h : (pushOperator kind i tok).run s = .ok () t) : Doomed t.stack := by
  unfold pushOperator at h
  rw [EStateM.run_bind, EStateM.run_get] at h
  dsimp only at h
  split at h
  · simp at h
  · obtain ⟨_, u, hreduce, h⟩ := run_bind_eq_ok.1 h
    rw [EStateM.run_bind, EStateM.run_get] at h
    simp only [EStateM.run_bind, run_setStack, run_setExpectOperand, EStateM.Result.ok.injEq,
      true_and] at h
    rw [← h]
    rcases (doomed_reduce hd hreduce).1 with hd | ⟨g, hhead, hg⟩
    · exact .under hd
    · obtain ⟨rest, hstack⟩ := List.head?_eq_some_iff.1 hhead
      rw [hstack]
      exact .here hop hu (.group hg)

theorem stack_finishCall {marker : Directive} {args : Int} {below : List Directive}
    (h : (finishCall marker args below).run s = .ok () t) :
    t.stack = result marker.tok .untyped :: below := by
  unfold finishCall at h
  rw [run_bind_ok (run_tokenAt _)] at h
  obtain ⟨_, u, -, h⟩ := run_bind_eq_ok.1 h
  simp only [EStateM.run_bind, run_note, run_setStack, run_setExpectOperand,
    EStateM.Result.ok.injEq, true_and] at h
  rw [← h]

theorem splitGroup_eq_none {stack : List Directive} :
    splitGroup stack = none ↔ ∀ d ∈ stack, d.kind.opensGroup = false := by
  induction stack with
  | nil => simp [splitGroup, splitTop]
  | cons d rest ih =>
    simp only [splitGroup, splitTop] at ih ⊢
    split <;> simp_all

theorem splitOperator_none {above : List Directive} (rest : List Directive)
    (h : splitOperator (above ++ rest) = none) (hg : ∀ d ∈ above, d.kind.opensGroup = false) :
    ∀ d ∈ above, d.kind.isOperator = false := by
  induction above with
  | nil => simp
  | cons d above ih =>
    simp only [splitOperator, List.cons_append, splitTop] at h ih
    split at h
    · simp at h
    · simp_all

theorem doomed_splitGroup {above below : List Directive} {marker : Directive}
    (hd : Doomed s.stack ∨ Exposed s.stack) (hnone : splitOperator s.stack = none)
    (hsplit : splitGroup s.stack = some (above, marker, below)) (habove : above ≠ []) :
    Doomed below := by
  obtain ⟨hmarker, hgroup⟩ := splitTop_wanted hsplit
  rw [splitTop_eq hsplit] at hd hnone
  rcases hd with hd | ⟨g, hhead, hg⟩
  · have := Doomed.of_append _ hd (splitOperator_none _ hnone hgroup)
    refine this.of_cons ?_
    unfold DirectiveKind.opensGroup at hmarker
    split at hmarker <;> simp_all [DirectiveKind.isOperator]
  · obtain ⟨d, above, rfl⟩ := List.exists_cons_of_ne_nil habove
    obtain rfl : d = g := by simpa using hhead
    simp [hgroup d (by simp)] at hg

theorem doomed_closeGroup (hd : Doomed s.stack) (h : (closeGroup tok).run s = .ok () t) :
    Doomed t.stack := by
  unfold closeGroup at h
  rw [EStateM.run_bind, EStateM.run_get] at h
  dsimp only at h
  split at h
  · cases hstack : s.stack with
    | nil => simp [hstack] at h
    | cons marker below =>
      simp only [hstack] at h
      split at h
      · rename_i args hk
        split at h
        · simp at h
        · rw [stack_finishCall h]
          rw [hstack] at hd
          exact .under (hd.of_cons (by simp [hk, DirectiveKind.isOperator]))
      · simp at h
  · obtain ⟨_, u, hreduce, h⟩ := run_bind_eq_ok.1 h
    obtain ⟨hd, hnone⟩ := doomed_reduce hd hreduce
    have hnone := hnone le_rfl
    rw [EStateM.run_bind, EStateM.run_get] at h
    dsimp only at h
    split at h
    · simp at h
    · rename_i arg marker below hsplit
      -- the group holds one entry, so what dooms the stack lies under its marker
      have hbelow := doomed_splitGroup hd hnone hsplit (by simp)
      split at h
      · obtain ⟨_, v, -, h⟩ := run_bind_eq_ok.1 h
        rw [stack_finishCall h]
        exact .under hbelow
      · simp only [run_setStack, EStateM.Result.ok.injEq, true_and] at h
        rw [← h]
        exact .under hbelow
    · simp at h

theorem doomed_nextArgument (hd : Doomed s.stack) (h : (nextArgument tok).run s = .ok () t) :
    Doomed t.stack := by
  unfold nextArgument at h
  rw [EStateM.run_bind, EStateM.run_get] at h
  dsimp only at h
  split at h
  · simp at h
  · obtain ⟨_, u, hreduce, h⟩ := run_bind_eq_ok.1 h
    obtain ⟨hd, hnone⟩ := doomed_reduce hd hreduce
    have hnone := hnone le_rfl
    rw [EStateM.run_bind, EStateM.run_get] at h
    dsimp only at h
    split at h
    · simp at h
    · rename_i above marker below hsplit
      split at h
      · split at h
        · rename_i arg
          have hbelow := doomed_splitGroup hd hnone hsplit (by simp)
          obtain ⟨_, v, hpass, h⟩ := run_bind_eq_ok.1 h
          obtain ⟨_, w, -, hpass⟩ := run_bind_eq_ok.1 hpass
          obtain ⟨_, x, -, hpass⟩ := run_bind_eq_ok.1 hpass
          simp only [run_setStack, run_setExpectOperand, EStateM.Result.ok.injEq,
            true_and] at hpass h
          rw [← h, ← hpass]
          exact .under hbelow
        · simp at h
      · simp at h

theorem fails_conclude (hd : Doomed s.stack) : Fails ((conclude tok).run s) := by
  intro _ t h
  unfold conclude at h
  rw [EStateM.run_bind, EStateM.run_get] at h
  dsimp only at h
  split at h
  · simp at h
  · obtain ⟨_, u, hreduce, h⟩ := run_bind_eq_ok.1 h
    obtain ⟨hd, hnone⟩ := doomed_reduce hd hreduce
    rw [EStateM.run_bind, EStateM.run_get] at h
    dsimp only at h
    split at h
    · rw [run_bind_ok (run_tokenAt _)] at h
      simp at h
    · rename_i hgroup
      have hgroup : ∀ d ∈ u.stack, d.kind.opensGroup = false := by
        refine splitGroup_eq_none.1 ?_
        cases hs : splitGroup u.stack with
        | none => rfl
        | some p => exact absurd hs (hgroup p.1 p.2.1 p.2.2)
      -- no operator and no marker is left, and each case of `Doomed` needs one of them
      have hop : ∀ d ∈ u.stack, d.kind.isOperator = false :=
        splitOperator_none [] (by simpa using hnone le_rfl) hgroup
      rcases hd with hd | ⟨g, hhead, hg⟩
      · cases Doomed.of_append [] (by simpa using hd) hop
      · simp [hgroup g (List.mem_of_mem_head? hhead)] at hg

theorem doomed_shift (hd : Doomed s.stack) (h : (shift i tok).run s = .ok () t) :
    Doomed t.stack := by
  have hterm {d : Directive} (h : (pushTerm d tok).run s = .ok () t) : Doomed t.stack := by
    rw [stack_pushTerm h]
    exact .under hd
  have hentry {d : Directive} (h : (pushEntry d tok).run s = .ok () t) : Doomed t.stack := by
    rw [stack_pushEntry h]
    exact .under hd
  unfold shift at h
  split at h
  · simp at h
  · simp at h
  · unfold useLiteral at h
    split at h
    · simp at h
    · exact hterm h
  · unfold useVariable at h
    rw [EStateM.run_bind, EStateM.run_get] at h
    dsimp only at h
    split at h
    · simp at h
    · exact hterm h
  · exact hentry h
  · exact doomed_closeGroup hd h
  · exact doomed_nextArgument hd h
  · exact doomed_pushOperator rfl rfl hd h
  · exact doomed_pushOperator rfl rfl hd h
  · exact doomed_pushOperator rfl rfl hd h
  · unfold pushStar at h
    rw [EStateM.run_bind, EStateM.run_get] at h
    dsimp only at h
    split at h
    · exact hentry h
    · exact doomed_pushOperator rfl rfl hd h
  · exact hentry h
  · simp at h

/-- No statement comes back from a doomed stack. -/
theorem fails_terms (i : Nat) (ts : List Token) (hd : Doomed s.stack) :
    Fails ((terms i ts).run s) := by
  induction hn : ts.length using Nat.strong_induction_on generalizing s i ts with
  | _ n ih =>
    cases ts with
    | nil =>
      rw [terms, EStateM.run_bind, EStateM.run_get]
      exact fails_error _ _
    | cons tok rest =>
      have hnext {m : Build Unit} {rest' : List Token} {j : Nat} (hlt : rest'.length < n)
          (hm : ∀ t, m.run s = .ok () t → Doomed t.stack) :
          Fails ((m >>= fun _ => terms j rest').run s) := by
        intro _ t h
        obtain ⟨_, u, hu, h⟩ := run_bind_eq_ok.1 h
        exact ih _ hlt j rest' (hm u hu) rfl _ _ h
      obtain ⟨-, hterms⟩ | ⟨o, rest, rfl, -, -, hterms⟩ | ⟨-, -, hterms⟩ :=
          terms_cons i tok rest <;>
        rw [hterms]
      · exact fails_conclude hd
      · refine hnext (by simp [← hn]) fun t ht => ?_
        rw [stack_pushEntry ht]
        exact .under hd
      · exact hnext (by simp [← hn]) fun t ht => doomed_shift hd ht

end Build

end OnePass
