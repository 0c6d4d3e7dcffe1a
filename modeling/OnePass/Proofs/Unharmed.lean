import Mathlib
import OnePass.Proofs.Footprint
import OnePass.Proofs.StackShape

namespace OnePass

namespace Session

/-- The operator that is reduced next where those that bind at least as tightly as `q` are, with its
index from the bottom. -/
def selected (q : Int) (s : Session) : Option (Directive × Nat) :=
  match Build.splitOperator s.stack with
  | none => none
  | some (_, op, below) =>
    if op.kind.precedence < q ∧ !op.kind.isUnary then none else some (op, below.length)

/-- The session once the selection of an operator has been noted. -/
def selecting (q : Int) (op : Directive) (k : Nat) (s : Session) : Session :=
  { s with trace := s.trace.push (.reduce op.kind k s.stack.length q) }

end Session

/-- The reductions of `reduce q`, run in a session: the sessions in which it is about to reduce an
entry, with the index of the entry. -/
inductive Selects (q : Int) : Session → Session → Nat → Prop where
  | here {s : Session} {op : Directive} {k : Nat} (h : s.selected q = some (op, k)) :
      Selects q s (s.selecting q op k) k
  | later {s t u : Session} {op : Directive} {j k : Nat} (h : s.selected q = some (op, j))
      (hrun : (Build.reduceEntry j).run (s.selecting q op j) = .ok () t) (ht : Selects q t u k) :
      Selects q s u k

namespace Build

open Session

variable {s : Session} {q : Int} {k : Nat} {above below : List Directive} {op : Directive}

theorem run_reduceEntry (hs : s.stack = above ++ op :: below) :
    (reduceEntry below.length).run s =
      (reduceSplit above op below >>= fun r => setStack r.1).run s := by
  have hlen : s.stack.length - 1 - (below.length : Int).toNat = above.length := by
    rw [hs, Int.toNat_natCast]
    simp
  have htake : s.stack.take above.length = above := by rw [hs, List.take_left]
  have hdrop : s.stack.drop above.length = op :: below := by rw [hs, List.drop_left]
  have hbound : ¬((below.length : Int) < 0 ∨ (s.stack.length : Int) ≤ below.length) := by
    simp only [hs, List.length_append, List.length_cons]
    omega
  unfold reduceEntry
  rw [EStateM.run_bind, EStateM.run_get]
  dsimp only
  rw [hlen, htake, hdrop]
  dsimp only
  rw [if_neg hbound]

theorem run_reduce_selected (h : s.selected q = some (op, k)) :
    (reduce q).run s = (reduceEntry k >>= fun _ => reduce q).run (s.selecting q op k) := by
  unfold selected at h
  split at h
  · cases h
  rename_i above op' below hsplit
  split at h
  · cases h
  rename_i hgo
  cases h
  have hstack : (s.selecting q op below.length).stack = above ++ op :: below := splitTop_eq hsplit
  rw [EStateM.run_bind, run_reduceEntry hstack, ← EStateM.run_bind]
  unfold reduce
  rw [EStateM.run_bind, EStateM.run_get]
  dsimp only
  rw [reduceStack_of_some hsplit, if_neg hgo, run_bind_ok (run_note _), bind_assoc]
  rfl

theorem run_reduce_unselected (h : s.selected q = none) : (reduce q).run s = .ok () s := by
  unfold reduce
  rw [EStateM.run_bind, EStateM.run_get]
  dsimp only
  unfold selected at h
  split at h
  · rename_i hnone
    rw [reduceStack_of_none hnone]
    rfl
  · rename_i hsome
    split at h
    · rename_i hstop
      rw [reduceStack_of_some hsome, if_pos hstop]
      rfl
    · cases h

end Build

theorem Selects.run_eq {q : Int} {s t : Session} {k : Nat} (h : Selects q s t k) :
    (Build.reduce q).run s = (Build.reduceEntry k >>= fun _ => Build.reduce q).run t := by
  induction h with
  | here h => exact Build.run_reduce_selected h
  | later h hrun _ ih => rw [Build.run_reduce_selected h, Build.run_bind_ok hrun, ih]

namespace Build

variable {α β : Type} {s : Session} {below : List Directive} {op : Directive}

/-- Where it rejects the source, the session is still `s`. -/
def Unharmed (s : Session) (r : EStateM.Result Stop Session α) : Prop :=
  ∀ d t, r = .error (.reject d) t → t = s

theorem unharmed_ok (a : α) (t : Session) : Unharmed s (.ok a t) := by
  intro d u h
  cases h

theorem Leaves.unharmed {m : Build α} {f : α → Build β} (hm : Leaves Eq m)
    (hf : ∀ a, Unharmed s ((f a).run s)) : Unharmed s ((m >>= f).run s) := by
  have h := hm s
  unfold Session.run at h
  rw [EStateM.run_bind]
  cases hr : m.run s with
  | ok a t =>
    rw [hr] at h
    cases h
    exact hf a
  | error e t =>
    rw [hr] at h
    cases h
    intro d u hu
    cases hu
    rfl

theorem Emits.unharmed {m : Build α} {n : Int} (hm : Emits n m) : Unharmed s (m.run s) := by
  intro d t h
  obtain ⟨code, depth, hout⟩ := hm s
  rw [h] at hout
  exact hout.elim

theorem unharmed_reject (line : Int) (problem : Problem) :
    Unharmed s ((reject line problem : Build α).run s) := by
  intro d t h
  cases h
  rfl

theorem unharmed_store (tok : Token) (lhs rhs : Directive) :
    Unharmed s ((store tok lhs rhs).run s) := by
  rw [store_eq]
  exact (leaves_checkStore tok lhs rhs).unharmed fun _ => (emits_emitStore _ _).unharmed

theorem unharmed_combine (kind : DirectiveKind) (tok : Token) (lhs rhs : Directive) :
    Unharmed s ((combine kind tok lhs rhs).run s) := by
  rw [combine_eq]
  apply (leaves_requireScalar lhs).unharmed
  intro _
  apply (leaves_requireScalar rhs).unharmed
  intro _
  apply (leaves_adopt kind tok lhs rhs).unharmed
  intro like
  exact ((emits_emitCombine kind _ _).bind fun _ => emits_pure _).unharmed

theorem unharmed_takeAddress (tok : Token) (d : Directive) :
    Unharmed s ((takeAddress tok d).run s) := by
  unfold takeAddress
  dsimp only
  split
  · exact ((emits_locate _).bind fun _ => (emits_push .r0).bind fun _ => emits_pure _).unharmed
  · exact unharmed_reject _ _

theorem Unharmed.bind {m : Build α} {f : α → Build β} (hm : Unharmed s (m.run s))
    (hf : ∀ a t, ∃ b u, (f a).run t = .ok b u) : Unharmed s ((m >>= f).run s) := by
  intro d t h
  rw [EStateM.run_bind] at h
  cases hr : m.run s with
  | ok a u =>
    obtain ⟨b, v, hb⟩ := hf a u
    rw [hr] at h
    dsimp only at h
    rw [hb] at h
    cases h
  | error e u =>
    rw [hr] at h
    cases h
    exact hm d t hr

theorem unharmed_passArgument (arg marker : Directive) (args : Int) (below : List Directive) :
    Unharmed s ((passArgument arg marker args below).run s) := by
  unfold passArgument
  apply (leaves_requireScalar arg).unharmed
  intro _
  exact (emits_spill arg.operand).unharmed.bind fun _ _ => ⟨_, _, rfl⟩

/-- A declaration is rejected before its value is spilled: the value becomes the first word above
the variables, where no other can be. -/
theorem unharmed_define {lhs rhs : Directive} (h : s.Orderly rhs.operand.held) :
    Unharmed s ((define lhs rhs).run s) := by
  unfold define
  rw [run_bind_ok (run_tokenAt lhs.tok)]
  apply (leaves_requireScalar rhs).unharmed
  intro _
  apply (leaves_initialType _ _ _).unharmed
  intro type
  apply (leaves_requireRange _ _ _).unharmed
  intro _ d t hrun
  have hspill := (emits_spill rhs.operand).proper h
  cases hr : (spill rhs.operand).run s with
  | ok o u =>
    rw [hr] at hspill
    obtain ⟨-, hu⟩ := hspill
    -- the depth is one word more than the variables take, so the new one goes right above
    have haddress : wrap (u.frame.depth - 1) = wrap (totalWords u.frame.visible) := by
      rw [hu.depth, wrap_wrap_sub]
      congr 1
      ring
    rw [run_bind_ok hr, EStateM.run_bind, EStateM.run_get] at hrun
    dsimp only at hrun
    rw [haddress, run_declare_above _ _ hu.tiled] at hrun
    cases hrun
  | error e u =>
    rw [EStateM.run_bind, hr] at hrun
    cases hrun
    exact (emits_spill rhs.operand).unharmed d t hr

theorem unharmed_reduceArithmetic (kind : DirectiveKind) (tok : Token) (lhs rhs : Directive)
    (rest : List Directive) : Unharmed s ((reduceArithmetic kind tok lhs rhs rest).run s) := by
  unfold reduceArithmetic
  split
  · exact unharmed_reject _ _
  · exact (unharmed_combine kind tok lhs rhs).bind fun _ _ => ⟨_, _, rfl⟩

theorem unharmed_reduceBinary {rhs : Directive} (tok : Token)
    (hdefine : ∀ decl rest, below = decl :: rest → op.kind = .assign → decl.kind = .declaration →
      Unharmed s ((define decl rhs).run s)) :
    Unharmed s ((reduceBinary op tok rhs below).run s) := by
  cases below with
  | nil => exact unharmed_reject _ _
  | cons lhs rest =>
    simp only [reduceBinary]
    split
    · exact unharmed_reject _ _
    cases hop : op.kind with
    | assign =>
      dsimp only
      split
      · rename_i hdecl
        exact (hdefine lhs rest rfl hop hdecl).bind fun _ _ => ⟨_, _, rfl⟩
      · exact (unharmed_store tok lhs rhs).bind fun _ _ => ⟨_, _, rfl⟩
    | add => exact unharmed_reduceArithmetic .add tok lhs rhs rest
    | sub => exact unharmed_reduceArithmetic .sub tok lhs rhs rest
    | mul => exact unharmed_reduceArithmetic .mul tok lhs rhs rest
    | _ => exact unharmed_reject _ _

theorem unharmed_reduceSplit (above : List Directive)
    (hdefine : ∀ rhs decl rest, above = [rhs] → rhs.kind = .value → below = decl :: rest →
      op.kind = .assign → decl.kind = .declaration → Unharmed s ((define decl rhs).run s)) :
    Unharmed s ((reduceSplit above op below).run s) := by
  unfold reduceSplit
  split
  · rename_i rhs
    apply (leaves_tokenAt op.tok).unharmed
    intro tok
    refine Unharmed.bind ?_ fun _ _ => ⟨_, _, rfl⟩
    unfold reduceOver
    split
    · rename_i hvalue
      split
      · exact (leaves_dereference tok rhs).unharmed fun _ => unharmed_ok _ _
      · exact (unharmed_takeAddress tok rhs).bind fun _ _ => ⟨_, _, rfl⟩
      · refine Unharmed.bind (unharmed_reduceBinary tok ?_) fun _ _ => ⟨_, _, rfl⟩
        intro decl rest
        exact hdefine rhs decl rest rfl hvalue
    · exact unharmed_reject _ _
    · exact unharmed_reject _ _
  · apply (leaves_tokenAt op.tok).unharmed
    intro tok
    exact unharmed_reject _ _

end Build

theorem splitOperator_top {op : Directive} (h : op.kind.isOperator) (below : List Directive) :
    Build.splitOperator (op :: below) = some ([], op, below) := by
  simp [Build.splitOperator, Build.splitTop, h]

theorem Awaits.top {q : Int} {bare : Bool} {stack : List Directive} (h : Awaits q bare stack) :
    Build.splitOperator stack = none ∨ ∃ op below, stack = op :: below ∧ op.kind.isOperator := by
  cases h with
  | bottom => exact .inl rfl
  | group _ hg => exact .inl (splitOperator_group hg _)
  | unary _ hop => exact .inr ⟨_, _, rfl, isOperator_of_isUnary hop⟩
  | binary _ _ hop => exact .inr ⟨_, _, rfl, isOperator_of_isBinary hop⟩
  | orphan _ hop => exact .inr ⟨_, _, rfl, by rw [hop]; rfl⟩

namespace Session

variable {s t : Session} {q : Int} {k : Nat} {above below : List Directive} {op : Directive}

theorem selected_eq_some (h : s.selected q = some (op, k)) :
    ∃ above below, Build.splitOperator s.stack = some (above, op, below) ∧ k = below.length := by
  unfold selected at h
  split at h
  · cases h
  · rename_i above op' below hsplit
    split at h
    · cases h
    · cases h
      exact ⟨above, below, hsplit, rfl⟩

/-- A session while operators are reduced: between two tokens, or between two reductions. -/
structure Reducible (s : Session) : Prop where
  holds : s.Holds s.stack
  shape : (∃ q bare, Awaits q bare s.stack) ∨
    ∃ d below q bare, s.stack = d :: below ∧ IsOperand d below ∧ Awaits q bare below

theorem Reading.reducible (h : s.Reading) : s.Reducible := by
  refine ⟨h.holds, ?_⟩
  have hshape := h.shape
  split at hshape
  · exact .inl hshape
  · exact .inr hshape

theorem Reducible.selecting (h : s.Reducible) (q : Int) (op : Directive) (k : Nat) :
    (s.selecting q op k).Reducible :=
  ⟨h.holds.congr rfl rfl, h.shape⟩

theorem Reducible.split (h : s.Reducible)
    (hsplit : Build.splitOperator s.stack = some (above, op, below)) :
    above = [] ∨ ∃ rhs q bare, above = [rhs] ∧ rhs.kind = .value ∧ op.kind.isOperator ∧
      Awaits q bare (op :: below) := by
  rcases h.shape with ⟨q, bare, hawaits⟩ | ⟨d, rest, q, bare, hs, hd, hawaits⟩
  · rcases hawaits.top with hnone | ⟨op', rest, hs, hop⟩
    · rw [hnone] at hsplit
      cases hsplit
    · rw [hs, splitOperator_top hop rest] at hsplit
      cases hsplit
      exact .inl rfl
  · rw [hs] at hsplit
    rcases hawaits.top with hnone | ⟨op', rest, rfl, hop⟩
    · rw [splitOperator_operand hd hnone] at hsplit
      cases hsplit
    · rw [splitOperator_operator hd hop] at hsplit
      cases hsplit
      exact .inr ⟨d, q, bare, rfl, hd.resolve_right (by simp), hop, hawaits⟩

theorem Reducible.unharmed (h : s.Reducible)
    (hsplit : Build.splitOperator s.stack = some (above, op, below)) :
    Build.Unharmed s ((Build.reduceEntry below.length).run s) := by
  have hstack := Build.splitTop_eq hsplit
  rw [Build.run_reduceEntry hstack]
  refine Build.Unharmed.bind (Build.unharmed_reduceSplit above ?_) fun _ _ => ⟨_, _, rfl⟩
  rintro rhs decl rest rfl hvalue rfl hop hdecl
  rcases h.split hsplit with hnil | ⟨_, q, bare, -, -, -, hawaits⟩
  · cases hnil
  · obtain rfl := hawaits.declaration_last (by rw [hop]; rfl) hdecl
    have horderly := h.holds.orderly
    rw [hstack] at horderly
    apply Build.unharmed_define
    apply horderly.cast
    simp [Directive.held, hvalue, hop, hdecl]

theorem length_reduceEntry (h : s.selected q = some (op, k))
    (hrun : (Build.reduceEntry k).run (s.selecting q op k) = .ok () t) :
    t.stack.length < s.stack.length := by
  obtain ⟨above, below, hsplit, rfl⟩ := selected_eq_some h
  have hstack : (s.selecting q op below.length).stack = above ++ op :: below :=
    Build.splitTop_eq hsplit
  rw [Build.run_reduceEntry hstack] at hrun
  obtain ⟨r, u, -, hset⟩ := Build.run_bind_eq_ok.1 hrun
  cases hset
  have hlen : s.stack.length = (above ++ op :: below).length := congrArg List.length hstack
  rw [hlen]
  exact r.2

/-- A reduction leads to the next. -/
theorem Reducible.step (h : s.Reducible)
    (hsplit : Build.splitOperator s.stack = some (above, op, below))
    (hrun : (Build.reduceEntry below.length).run s = .ok () t) : t.Reducible := by
  have hstack := Build.splitTop_eq hsplit
  rw [Build.run_reduceEntry hstack] at hrun
  obtain ⟨r, u, hr, hset⟩ := Build.run_bind_eq_ok.1 hrun
  cases hset
  rcases h.split hsplit with rfl | ⟨rhs, q, bare, rfl, hk, hop, hawaits⟩
  · cases hr
  · have hholds := h.holds
    rw [hstack] at hholds
    have hproper := Build.proper_reduceSplit hawaits hop hk hholds
    rw [hr] at hproper
    refine ⟨hproper.2.congr rfl rfl, ?_⟩
    rcases hawaits.reduction (Build.reduction_reduceSplit hr) with
      ⟨v, rest, p, bare', hv, hkind, hrest⟩ | ⟨-, hbase⟩
    · exact .inr ⟨v, rest, p, bare', hv, .inl hkind, hrest⟩
    · exact .inl ⟨0, true, hbase⟩

end Session

/-- Wherever an entry is about to be reduced, it is an operator and the stack is in order. -/
theorem Selects.reducible {q : Int} {s t : Session} {k : Nat} (hs : s.Reducible)
    (h : Selects q s t k) :
    t.Reducible ∧ ∃ above op below,
      Build.splitOperator t.stack = some (above, op, below) ∧ k = below.length := by
  induction h with
  | here h =>
    obtain ⟨above, below, hsplit, rfl⟩ := Session.selected_eq_some h
    exact ⟨hs.selecting q _ _, above, _, below, hsplit, rfl⟩
  | later h hrun _ ih =>
    obtain ⟨above, below, hsplit, rfl⟩ := Session.selected_eq_some h
    exact ih ((hs.selecting q _ _).step hsplit hrun)

/-- Where `reduce` is rejected, it is at the reduction of an entry. -/
theorem Selects.exists_of_reject {q : Int} {s v : Session} {d : Diagnostic}
    (h : (Build.reduce q).run s = .error (.reject d) v) :
    ∃ t k, Selects q s t k ∧ (Build.reduceEntry k).run t = .error (.reject d) v := by
  -- each reduction leaves a shorter stack
  induction hn : s.stack.length using Nat.strong_induction_on generalizing s with
  | _ n ih =>
    cases hsel : s.selected q with
    | none =>
      rw [Build.run_reduce_unselected hsel] at h
      cases h
    | some p =>
      obtain ⟨op, k⟩ := p
      rw [Build.run_reduce_selected hsel] at h
      cases hrun : (Build.reduceEntry k).run (s.selecting q op k) with
      | ok _ t =>
        rw [Build.run_bind_ok hrun] at h
        obtain ⟨u, j, hu, hreject⟩ := ih _ (hn ▸ Session.length_reduceEntry hsel hrun) h rfl
        exact ⟨u, j, .later hsel hrun hu, hreject⟩
      | error e t =>
        rw [EStateM.run_bind, hrun] at h
        cases h
        exact ⟨_, k, .here hsel, hrun⟩

/-- A rejected reduction has no effect. Between any two tokens of a statement, whatever is to be
reduced: an operator that `reduce` comes to and that is rejected leaves the session as it was, so
`reduce` has done the reductions before that one and nothing else. An argument of a call that is
rejected leaves the session, too. -/
theorem rejected_reduction_unharmed {ids : IdSupply} {sources : List (List Token)}
    {s₀ s t : Session} {i j : Nat} {ts rest next : List Token}
    (hs : (Session.fresh ids).acceptAll sources = some s₀)
    (h : Reaches s₀ ts s i rest) (hb : Between s i rest t j next) (q : Int) :
    (∀ u k, Selects q t u k →
      (Build.reduce q).run t = (Build.reduceEntry k >>= fun _ => Build.reduce q).run u ∧
      ∀ d v, (Build.reduceEntry k).run u = .error (.reject d) v → v = u) ∧
    (∀ d v, (Build.reduce q).run t = .error (.reject d) v →
      ∃ k, Selects q t v k ∧ (Build.reduceEntry k).run v = .error (.reject d) v) ∧
    ∀ (u : Session) arg marker args below d v,
      (Build.passArgument arg marker args below).run u = .error (.reject d) v → v = u := by
  obtain ⟨horderly, -⟩ := h.orderly (Session.orderly_fresh.acceptAll hs)
  have hreducible := (hb.reading horderly).2.reducible
  have hentry (u : Session) (k : Nat) (hu : Selects q t u k) :
      Build.Unharmed u ((Build.reduceEntry k).run u) := by
    obtain ⟨hred, above, op, below, hsplit, rfl⟩ := hu.reducible hreducible
    exact hred.unharmed hsplit
  refine ⟨fun u k hu => ?_, fun d v hreject => ?_, fun u arg marker args below => ?_⟩
  · exact ⟨hu.run_eq, hentry u k hu⟩
  · obtain ⟨u, k, hu, hrun⟩ := Selects.exists_of_reject hreject
    obtain rfl := hentry u k hu d v hrun
    exact ⟨k, hu, hrun⟩
  · exact Build.unharmed_passArgument arg marker args below

theorem Session.run_eq_error {α : Type} {m : Build α} {s : Session} {e : Stop}
    (h : (s.run m).1 = .error e) : EStateM.run m s = .error e (s.run m).2 := by
  unfold Session.run at h ⊢
  cases hr : EStateM.run m s with
  | ok a t =>
    rw [hr] at h
    cases h
  | error e' t =>
    rw [hr] at h
    cases h
    rfl

/-- A pointer is added to an integer. -/
def mixedSum : List Token := tokensOf "x + &x;"

def beforeSum : Session × Nat × List Token :=
  (Build.termsTaken 4 (Build.begun { defined with tokens := mixedSum.toArray }, 0,
    mixedSum)).getD ({}, 0, [])

theorem rejected_reduction_unharmed_mixedSum :
    let t := beforeSum.1
    let v := (t.run (Build.reduce 0)).2
    t.stack.map (·.kind) = [.value, .addressOf, .add, .value] ∧
      (t.run (Build.reduce 0)).1 = .error (.reject ⟨1, .operandsMismatched .add ⟨some .u16, 0⟩
        ⟨some .u16, 1⟩⟩) ∧
      v.stack.map (·.kind) = [.value, .add, .value] ∧
      ∃ k, Selects 0 t v k ∧ ∃ d, (Build.reduceEntry k).run v = .error (.reject d) v := by
  have hstart : Between { defined with tokens := mixedSum.toArray } 0 mixedSum
      (Build.begun { defined with tokens := mixedSum.toArray }) 0 mixedSum :=
    .start (by decide +kernel)
  have hb := Between.termsTaken 4 (p := (_, _, _)) hstart (q := beforeSum)
    (eq_some_getD (by decide +kernel) _)
  have hreject : (beforeSum.1.run (Build.reduce 0)).1 =
      .error (.reject ⟨1, .operandsMismatched .add ⟨some .u16, 0⟩ ⟨some .u16, 1⟩⟩) := by
    decide +kernel
  refine ⟨by decide +kernel, hreject, by decide +kernel, ?_⟩
  obtain ⟨-, hrun, -⟩ := rejected_reduction_unharmed acceptAll_defining .start hb 0
  obtain ⟨k, hk, hv⟩ := hrun _ _ (Session.run_eq_error hreject)
  exact ⟨k, hk, _, hv⟩

end OnePass
