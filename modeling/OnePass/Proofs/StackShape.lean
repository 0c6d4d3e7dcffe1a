import Mathlib
import OnePass.Proofs.Boundaries

namespace OnePass

def DirectiveKind.isOperand (k : DirectiveKind) : Bool := k = .value || k = .declaration

/-- The order of a directive stack, top first. Groups split it into regions. -/
structure Ranked (stack : List Directive) : Prop where
  /-- Exactly one operand stands under a binary operator, or the start of its region where an
  assignment has been reduced. -/
  left : ∀ above op below, stack = above ++ op :: below → op.kind.isBinary →
    (∃ d rest, below = d :: rest ∧ d.kind.isOperand ∧
      ∀ e ∈ rest.head?, e.kind.isOperand = false) ∨
    op.kind = .assign ∧ ∀ g ∈ below.head?, g.kind.opensGroup
  /-- Within a region the upper of two binary operators binds more tightly. -/
  increasing : ∀ above upper between lower below,
    stack = above ++ upper :: (between ++ lower :: below) → upper.kind.isBinary →
    lower.kind.isBinary → (∀ d ∈ between, d.kind.opensGroup = false) →
    lower.kind.precedence < upper.kind.precedence
  /-- What stands on a prefix operator is an operand, a group or a prefix operator. -/
  prefixes : ∀ above d op below, stack = above ++ d :: op :: below → op.kind.isUnary →
    d.kind.isOperand ∨ d.kind.opensGroup ∨ d.kind.isUnary
  declaration : ∀ above d below, stack = above ++ d :: below → d.kind = .declaration → below = []

/-- The ways in which an entry may stand on others. -/
inductive Stands : Directive → List Directive → Prop where
  | group {q : Int} {bare : Bool} {d : Directive} {below : List Directive}
      (h : Awaits q bare below) (hd : d.kind.opensGroup) : Stands d below
  | unary {q : Int} {bare : Bool} {d : Directive} {below : List Directive}
      (h : Awaits q bare below) (hd : d.kind.isUnary) : Stands d below
  | operand {q : Int} {bare : Bool} {d : Directive} {below : List Directive}
      (h : Awaits q bare below) (hd : IsOperand d below) : Stands d below
  | binary {q : Int} {op d : Directive} {below : List Directive} (h : Awaits q true below)
      (hd : IsOperand d below) (hop : op.kind.isBinary) (hq : q < op.kind.precedence) :
      Stands op (d :: below)
  | orphan {op : Directive} {below : List Directive} (h : Awaits 0 true below)
      (hop : op.kind = .assign) : Stands op below

section

variable {q : Int} {bare : Bool} {stack above below between : List Directive} {d op : Directive}

theorem isOperand_of_isBinary {k : DirectiveKind} (h : k.isBinary) : k.isOperand = false := by
  rcases (isBinary_iff k).1 h with rfl | rfl | rfl | rfl <;> rfl

theorem isOperand_of_isUnary {k : DirectiveKind} (h : k.isUnary) : k.isOperand = false := by
  cases k <;> simp_all [DirectiveKind.isUnary, DirectiveKind.isOperand]

theorem isOperand_of_opensGroup {k : DirectiveKind} (h : k.opensGroup) : k.isOperand = false := by
  cases k <;> simp_all [DirectiveKind.opensGroup, DirectiveKind.isOperand]

theorem isUnary_of_isBinary {k : DirectiveKind} (h : k.isBinary) : k.isUnary = false := by
  rcases (isBinary_iff k).1 h with rfl | rfl | rfl | rfl <;> rfl

theorem isBinary_of_opensGroup {k : DirectiveKind} (h : k.opensGroup) :
    k.isBinary = false ∧ k.isUnary = false := by
  cases k <;> simp_all [DirectiveKind.opensGroup, DirectiveKind.isBinary, DirectiveKind.alu?,
    DirectiveKind.isUnary]

theorem IsOperand.isOperand (h : IsOperand d below) :
    d.kind.isOperand ∧ d.kind.isBinary = false ∧ d.kind.isUnary = false := by
  rcases h with h | ⟨h, -⟩ <;>
    simp [h, DirectiveKind.isOperand, DirectiveKind.isBinary, DirectiveKind.alu?,
      DirectiveKind.isUnary]

theorem Awaits.head (h : Awaits q bare stack) : ∀ d ∈ stack.head?, d.kind.isOperand = false := by
  cases h with
  | bottom => simp
  | group h hg => simpa using isOperand_of_opensGroup hg
  | unary h hop => simpa using isOperand_of_isUnary hop
  | binary h hd hop hq => simpa using isOperand_of_isBinary hop
  | orphan h hop => simp [hop, DirectiveKind.isOperand]

theorem Awaits.head_bare (h : Awaits q true stack) : ∀ d ∈ stack.head?, d.kind.isUnary = false := by
  cases h with
  | bottom => simp
  | group h hg => simpa using (isBinary_of_opensGroup hg).2
  | binary h hd hop hq => simpa using isUnary_of_isBinary hop
  | orphan h hop => simp [hop, DirectiveKind.isUnary]

theorem Awaits.stands (h : Awaits q bare stack) (hs : stack = above ++ d :: below) :
    Stands d below := by
  induction h generalizing above with
  | bottom => simp at hs
  -- each constructor puts on one entry, `binary` two: the entry is one of these or under them
  | group h hg ih =>
    obtain ⟨-, heq⟩ | ⟨above', -, heq⟩ := List.cons_eq_append_iff.1 hs
    · obtain ⟨rfl, rfl⟩ := List.cons.inj heq
      exact .group h hg
    · exact ih heq
  | unary h hop ih =>
    obtain ⟨-, heq⟩ | ⟨above', -, heq⟩ := List.cons_eq_append_iff.1 hs
    · obtain ⟨rfl, rfl⟩ := List.cons.inj heq
      exact .unary h hop
    · exact ih heq
  | binary h hd hop hq ih =>
    obtain ⟨-, heq⟩ | ⟨above', -, heq⟩ := List.cons_eq_append_iff.1 hs
    · obtain ⟨rfl, rfl⟩ := List.cons.inj heq
      exact .binary h hd hop hq
    · obtain ⟨-, hd'⟩ | ⟨above'', -, hbelow⟩ := List.cons_eq_append_iff.1 heq
      · obtain ⟨rfl, rfl⟩ := List.cons.inj hd'
        exact .operand h hd
      · exact ih hbelow
  | orphan h hop ih =>
    obtain ⟨-, heq⟩ | ⟨above', -, heq⟩ := List.cons_eq_append_iff.1 hs
    · obtain ⟨rfl, rfl⟩ := List.cons.inj heq
      exact .orphan h hop
    · exact ih heq

/-- The topmost binary operator of a region binds the most tightly. -/
theorem Awaits.precedence_le (h : Awaits q bare stack) (hs : stack = between ++ op :: below)
    (hb : ∀ d ∈ between, d.kind.opensGroup = false) (hop : op.kind.isBinary) :
    op.kind.precedence ≤ q := by
  induction h generalizing between with
  | bottom => simp at hs
  | group h hg ih =>
    obtain ⟨-, heq⟩ | ⟨between', rfl, -⟩ := List.cons_eq_append_iff.1 hs
    · obtain ⟨rfl, rfl⟩ := List.cons.inj heq
      simp [(isBinary_of_opensGroup hg).1] at hop
    -- the marker would lie between, which `hb` excludes
    · simp [hg] at hb
  | unary h hu ih =>
    obtain ⟨-, heq⟩ | ⟨between', rfl, heq⟩ := List.cons_eq_append_iff.1 hs
    · obtain ⟨rfl, rfl⟩ := List.cons.inj heq
      simp [isUnary_of_isBinary hop] at hu
    · exact ih heq (List.forall_mem_cons.1 hb).2
  | binary h hd hop' hq ih =>
    obtain ⟨-, heq⟩ | ⟨between', rfl, heq⟩ := List.cons_eq_append_iff.1 hs
    · obtain ⟨rfl, rfl⟩ := List.cons.inj heq
      exact le_rfl
    · obtain ⟨-, hd'⟩ | ⟨between'', rfl, hbelow⟩ := List.cons_eq_append_iff.1 heq
      · obtain ⟨rfl, rfl⟩ := List.cons.inj hd'
        simp [hd.isOperand.2.1] at hop
      · have hle := ih hbelow (List.forall_mem_cons.1 (List.forall_mem_cons.1 hb).2).2
        omega
  | orphan h hop' ih =>
    obtain ⟨-, heq⟩ | ⟨between', rfl, heq⟩ := List.cons_eq_append_iff.1 hs
    · obtain ⟨rfl, rfl⟩ := List.cons.inj heq
      exact le_rfl
    · have hle := ih heq (List.forall_mem_cons.1 hb).2
      have hpos := precedence_pos hop
      omega

theorem ranked_of_stands (h : ∀ above d below, stack = above ++ d :: below → Stands d below) :
    Ranked stack where
  left above op below hs hop := by
    cases h above op below hs with
    | group _ hg => simp [(isBinary_of_opensGroup hg).1] at hop
    | unary _ hu => simp [isUnary_of_isBinary hop] at hu
    | operand _ hd => simp [hd.isOperand.2.1] at hop
    | binary h hd _ _ => exact .inl ⟨_, _, rfl, hd.isOperand.1, h.head⟩
    | orphan h hassign =>
      refine .inr ⟨hassign, ?_⟩
      rcases h.base with rfl | ⟨g, rest, _, _, rfl, hg, -⟩
      · simp
      · simpa using hg
  increasing above upper between lower below hs hu hl hb := by
    -- what is under the upper operator awaits at a lower precedence
    generalize heq : between ++ lower :: below = under at hs
    cases h above upper under hs with
    | group _ hg => simp [(isBinary_of_opensGroup hg).1] at hu
    | unary _ hop => simp [isUnary_of_isBinary hu] at hop
    | operand _ hd => simp [hd.isOperand.2.1] at hu
    | binary h hd _ hq =>
      obtain ⟨-, hd'⟩ | ⟨between', rfl, hbelow⟩ := List.cons_eq_append_iff.1 heq.symm
      · obtain ⟨rfl, rfl⟩ := List.cons.inj hd'
        simp [hd.isOperand.2.1] at hl
      · have hle := h.precedence_le hbelow (List.forall_mem_cons.1 hb).2 hl
        omega
    | orphan h _ =>
      have hle := h.precedence_le heq.symm hb hl
      have hpos := precedence_pos hl
      omega
  prefixes above d op below hs hop := by
    generalize heq : op :: below = under at hs
    cases h above d under hs with
    | group _ hg => exact .inr (.inl hg)
    | unary _ hu => exact .inr (.inr hu)
    | operand _ hd => exact .inl hd.isOperand.1
    | binary _ hd _ _ =>
      obtain ⟨rfl, -⟩ := List.cons.inj heq
      simp [hd.isOperand.2.2] at hop
    | orphan h _ =>
      have hbare := h.head_bare op (by simp [← heq])
      simp [hop] at hbare
  declaration above d below hs hk := by
    cases h above d below hs with
    | group _ hg => simp [hk, DirectiveKind.opensGroup] at hg
    | unary _ hu => simp [hk, DirectiveKind.isUnary] at hu
    | operand _ hd => exact (hd.resolve_left (by simp [hk])).2
    | binary _ _ hop _ => simp [hk, DirectiveKind.isBinary, DirectiveKind.alu?] at hop
    | orphan _ hop => simp [hk] at hop

end

namespace Session.Reading

variable {s : Session}

theorem ranked (h : s.Reading) : Ranked s.stack := by
  have hshape := h.shape
  split at hshape
  · obtain ⟨q, bare, hawaits⟩ := hshape
    exact ranked_of_stands fun above d below hs => hawaits.stands hs
  · obtain ⟨top, rest, q, bare, hstack, htop, hawaits⟩ := hshape
    refine ranked_of_stands fun above d below hs => ?_
    rw [hstack] at hs
    obtain ⟨-, heq⟩ | ⟨above', -, heq⟩ := List.cons_eq_append_iff.1 hs
    · obtain ⟨rfl, rfl⟩ := List.cons.inj heq
      exact .operand hawaits htop
    · exact hawaits.stands heq

/-- An operand is due unless one is on top. -/
theorem expect_iff (h : s.Reading) :
    s.expectOperand = false ↔ ∃ d ∈ s.stack.head?, d.kind.isOperand := by
  have hshape := h.shape
  cases hexpect : s.expectOperand <;> rw [hexpect] at hshape
  · obtain ⟨top, rest, q, bare, hstack, htop, -⟩ := hshape
    simp [hstack, htop.isOperand.1]
  · obtain ⟨q, bare, hawaits⟩ := hshape
    simpa using hawaits.head

end Session.Reading

/-- An entry's share of the words above the variables, at most. -/
def Directive.share (d : Directive) : Int :=
  match d.kind with
  | .value => 1
  | .call args => args
  | _ => 0

/-- The entries of a stack hold at most `n` words. -/
structure Light (n : Int) (stack : List Directive) : Prop where
  nonneg : ∀ d ∈ stack, 0 ≤ d.share
  sum_le : (stack.map Directive.share).sum ≤ n

namespace Light

variable {n : Int} {d e : Directive} {stack stack' : List Directive}

theorem mono {m : Int} (h : Light m stack) (hle : m ≤ n) : Light n stack :=
  ⟨h.nonneg, h.sum_le.trans hle⟩

theorem cons_iff : Light n (d :: stack) ↔ 0 ≤ d.share ∧ Light (n - d.share) stack := by
  constructor
  · intro h
    have := h.sum_le
    simp only [List.map_cons, List.sum_cons] at this
    exact ⟨h.nonneg d (by simp), fun e he => h.nonneg e (by simp [he]), by omega⟩
  · intro ⟨hd, h⟩
    have := h.sum_le
    refine ⟨List.forall_mem_cons.2 ⟨hd, h.nonneg⟩, ?_⟩
    simp only [List.map_cons, List.sum_cons]
    omega

theorem tail (h : Light n (d :: stack)) : Light n stack := by
  obtain ⟨hd, h⟩ := cons_iff.1 h
  exact h.mono (by omega)

theorem replace (h : Light n (d :: stack)) (he : e.share = d.share) : Light n (e :: stack) := by
  rw [cons_iff] at h ⊢
  rwa [he]

theorem reduction (h : Light n stack) (hr : Reduction stack stack') : Light n stack' := by
  cases hr with
  | @unary rhs op value below hk hop hv =>
    have hz : op.share = 0 := by
      cases hkind : op.kind <;> simp_all [Directive.share, DirectiveKind.isUnary]
    rw [cons_iff, cons_iff, hz, sub_zero] at h
    exact (cons_iff.2 ⟨h.1, h.2.2⟩).replace (by simp [Directive.share, hk, hv])
  | assign => exact h.tail.tail.tail
  | @binary rhs op lhs value rest hk hop hl hg hd hv =>
    have hrest := (cons_iff.1 h).2.tail.tail
    exact (cons_iff.2 ⟨(cons_iff.1 h).1, hrest⟩).replace (by simp [Directive.share, hk, hv])

theorem held (h : Light n stack) :
    0 ≤ (stack.map Directive.held).sum ∧ (stack.map Directive.held).sum ≤ n := by
  have hle : ∀ d ∈ stack, 0 ≤ d.held ∧ d.held ≤ d.share := by
    intro d hd
    have hnonneg := h.nonneg d hd
    unfold Directive.share at hnonneg ⊢
    unfold Directive.held Operand.held
    cases hk : d.kind <;> simp only [hk] at hnonneg ⊢ <;> omega
  constructor
  · refine List.sum_nonneg fun x hx => ?_
    obtain ⟨d, hd, rfl⟩ := List.mem_map.1 hx
    exact (hle d hd).1
  · exact (List.sum_le_sum fun d hd => (hle d hd).2).trans h.sum_le

variable {s t : Session} {tok : Token}

theorem reduce {q : Int} (h : Light n s.stack) (hr : (Build.reduce q).run s = .ok () t) :
    Light n t.stack := by
  unfold Build.reduce at hr
  rw [EStateM.run_bind, EStateM.run_get] at hr
  have hsteps := (Build.reductions_reduceStack rfl hr).1
  generalize t.stack = stack at hsteps
  induction hsteps with
  | refl => exact h
  | tail _ hstep ih => exact ih.reduction hstep

theorem push (h : Light n stack) (hd : 0 ≤ d.share ∧ d.share ≤ 1) : Light (n + 1) (d :: stack) :=
  cons_iff.2 ⟨hd.1, h.mono (by omega)⟩

theorem pushOperator {kind : DirectiveKind} {i : Nat} (hk : kind.isBinary) (h : Light n s.stack)
    (hr : (Build.pushOperator kind i tok).run s = .ok () t) : Light (n + 1) t.stack := by
  unfold Build.pushOperator at hr
  rw [EStateM.run_bind, EStateM.run_get] at hr
  dsimp only at hr
  split at hr
  · simp at hr
  · obtain ⟨_, u, hreduce, hr⟩ := Build.run_bind_eq_ok.1 hr
    rw [EStateM.run_bind, EStateM.run_get] at hr
    simp only [EStateM.run_bind, Build.run_setStack, Build.run_setExpectOperand,
      EStateM.Result.ok.injEq, true_and] at hr
    rw [← hr]
    refine (h.reduce hreduce).push ?_
    rcases (isBinary_iff kind).1 hk with rfl | rfl | rfl | rfl <;> simp [Directive.share]

theorem finishCall {marker : Directive} {args : Int} (h : Light n stack)
    (hr : (Build.finishCall marker args stack).run s = .ok () t) : Light (n + 1) t.stack := by
  rw [Build.stack_finishCall hr]
  exact h.push (by simp [Directive.share, Build.result])

theorem of_splitGroup {arg marker : Directive} {below : List Directive} (h : Light n stack)
    (hs : Build.splitGroup stack = some ([arg], marker, below)) :
    Light n (arg :: marker :: below) := by
  have heq := Build.splitTop_eq hs
  rwa [heq] at h

theorem closeGroup (h : Light n s.stack) (hr : (Build.closeGroup tok).run s = .ok () t) :
    Light (n + 1) t.stack := by
  unfold Build.closeGroup at hr
  rw [EStateM.run_bind, EStateM.run_get] at hr
  dsimp only at hr
  split at hr
  · cases hstack : s.stack with
    | nil => simp [hstack] at hr
    | cons marker below =>
      simp only [hstack] at hr h
      split at hr
      · split at hr
        · simp at hr
        · exact h.tail.finishCall hr
      · simp at hr
  · obtain ⟨_, u, hreduce, hr⟩ := Build.run_bind_eq_ok.1 hr
    rw [EStateM.run_bind, EStateM.run_get] at hr
    dsimp only at hr
    split at hr
    · simp at hr
    · rename_i arg marker below hsplit
      -- the argument and its marker hold one word each at most, and the result holds one
      have hlight := (h.reduce hreduce).of_splitGroup hsplit
      split at hr
      · obtain ⟨_, v, -, hr⟩ := Build.run_bind_eq_ok.1 hr
        exact hlight.tail.tail.finishCall hr
      · simp only [Build.run_setStack, EStateM.Result.ok.injEq, true_and] at hr
        rw [← hr]
        obtain ⟨harg, hrest⟩ := cons_iff.1 hlight
        exact (cons_iff.2 ⟨harg, hrest.tail⟩).mono (by omega)
    · simp at hr

theorem nextArgument (hn : n + 1 < 2 ^ 63) (h : Light n s.stack)
    (hr : (Build.nextArgument tok).run s = .ok () t) : Light (n + 1) t.stack := by
  unfold Build.nextArgument at hr
  rw [EStateM.run_bind, EStateM.run_get] at hr
  dsimp only at hr
  split at hr
  · simp at hr
  · obtain ⟨_, u, hreduce, hr⟩ := Build.run_bind_eq_ok.1 hr
    rw [EStateM.run_bind, EStateM.run_get] at hr
    dsimp only at hr
    split at hr
    · simp at hr
    · rename_i above marker below hsplit
      split at hr
      · rename_i args hk
        split at hr
        · rename_i arg
          obtain ⟨_, v, hpass, hr⟩ := Build.run_bind_eq_ok.1 hr
          obtain ⟨_, w, -, hpass⟩ := Build.run_bind_eq_ok.1 hpass
          obtain ⟨_, x, -, hpass⟩ := Build.run_bind_eq_ok.1 hpass
          simp only [Build.run_setStack, Build.run_setExpectOperand, EStateM.Result.ok.injEq,
            true_and] at hpass hr
          rw [← hr, ← hpass]
          -- the marker counts one argument more, and the count stays in range
          obtain ⟨hargs, hbelow⟩ := cons_iff.1 ((h.reduce hreduce).of_splitGroup hsplit).tail
          have hsum : 0 ≤ (below.map Directive.share).sum :=
            List.sum_nonneg fun x hx => by
              obtain ⟨e, he, rfl⟩ := List.mem_map.1 hx
              exact hbelow.nonneg e he
          have hle := hbelow.sum_le
          simp only [Directive.share, hk] at hargs hbelow hle
          have hwrap : wrap (args + 1) = args + 1 := wrap_eq_self (by omega) (by omega)
          refine cons_iff.2 ?_
          simp only [Directive.share, hwrap]
          exact ⟨by omega, hbelow.mono (by omega)⟩
        · simp at hr
      · simp at hr

theorem pushEntry (h : Light n s.stack) (hd : 0 ≤ d.share ∧ d.share ≤ 1)
    (hr : (Build.pushEntry d tok).run s = .ok () t) : Light (n + 1) t.stack := by
  rw [Build.stack_pushEntry hr]
  exact h.push hd

theorem pushTerm (h : Light n s.stack) (hd : 0 ≤ d.share ∧ d.share ≤ 1)
    (hr : (Build.pushTerm d tok).run s = .ok () t) : Light (n + 1) t.stack := by
  rw [Build.stack_pushTerm hr]
  exact h.push hd

/-- No token adds more than one word. -/
theorem shift {i : Nat} (hn : n + 1 < 2 ^ 63) (h : Light n s.stack)
    (hr : (Build.shift i tok).run s = .ok () t) : Light (n + 1) t.stack := by
  unfold Build.shift at hr
  split at hr
  · simp at hr
  · simp at hr
  · unfold Build.useLiteral at hr
    split at hr
    · simp at hr
    · exact h.pushTerm (by simp [Directive.share]) hr
  · unfold Build.useVariable at hr
    rw [EStateM.run_bind, EStateM.run_get] at hr
    dsimp only at hr
    split at hr
    · simp at hr
    · exact h.pushTerm (by simp [Directive.share]) hr
  · exact h.pushEntry (by simp [Directive.share]) hr
  · exact h.closeGroup hr
  · exact h.nextArgument hn hr
  · exact h.pushOperator rfl hr
  · exact h.pushOperator rfl hr
  · exact h.pushOperator rfl hr
  · unfold Build.pushStar at hr
    rw [EStateM.run_bind, EStateM.run_get] at hr
    dsimp only at hr
    split at hr
    · exact h.pushEntry (by simp [Directive.share]) hr
    · exact h.pushOperator rfl hr
  · exact h.pushEntry (by simp [Directive.share]) hr
  · simp at hr

end Light

namespace Build

theorem stack_openDeclaration {i n : Nat} {ts : List Token} {s t : Session} (h₀ : s.Orderly 0)
    (h : (openDeclaration i ts).run (begun s) = .ok n t) :
    ∃ d, d.kind = .declaration ∧ t.stack = [d] := by
  have hsome : ∀ e ∈ s.types.entries, e.2.isSome := fun e he => by
    obtain ⟨b, hb, -⟩ := h₀.types.named e he
    simp [hb]
  have hopen := run_openDeclaration hsome i ts
  split at hopen
  · exact absurd h (hopen _ _)
  · split at hopen
    · exact absurd h (hopen _ _)
    · obtain ⟨k, name, hrun, -⟩ := hopen
      obtain ⟨-, rfl⟩ := EStateM.Result.ok.inj (h.symm.trans hrun)
      exact ⟨_, rfl, rfl⟩

/-- Takes a token of a statement other than its semicolon, together with the parenthesis where it is
the name of a call. Gives what follows, with its index. -/
def term (i : Nat) (tok : Token) (rest : List Token) : Build (Nat × List Token) :=
  match rest with
  | paren :: rest' =>
    if tok.type = .identifier ∧ paren.type = .lparen then do
      pushEntry { kind := .call 0, tok := i } tok
      return (i + 2, rest')
    else do
      shift i tok
      return (i + 1, rest)
  | [] => do
    shift i tok
    return (i + 1, rest)

theorem term_call (i : Nat) {tok paren : Token} (rest : List Token) (ht : tok.type = .identifier)
    (hp : paren.type = .lparen) : term i tok (paren :: rest) =
      pushEntry { kind := .call 0, tok := i } tok >>= fun _ => pure (i + 2, rest) := by
  simp [term, ht, hp]

theorem term_shift (i : Nat) {tok : Token} {rest : List Token}
    (h : tok.type = .identifier → EndsName rest) :
    term i tok rest = shift i tok >>= fun _ => pure (i + 1, rest) := by
  cases rest with
  | nil => rfl
  | cons paren rest =>
    have hne : ¬(tok.type = .identifier ∧ paren.type = .lparen) := fun ⟨ht, hp⟩ =>
      h ht paren (by simp) hp
    simp only [term, if_neg hne]

theorem terms_term (i : Nat) {tok : Token} (rest : List Token) (h : tok.type ≠ .semicolon) :
    terms i (tok :: rest) = term i tok rest >>= fun p => terms p.1 p.2 := by
  obtain ⟨hsemi, -⟩ | ⟨o, rest, rfl, ht, ho, hterms⟩ | ⟨-, hname, hterms⟩ := terms_cons i tok rest
  · exact absurd hsemi h
  · rw [hterms, term_call i rest ht ho, bind_assoc]
    simp only [pure_bind]
  · rw [hterms, term_shift i hname, bind_assoc]
    simp only [pure_bind]

end Build

/-- The places between two tokens of the statement that starts with the `i₀`-th token, in the
session `s₀`: the session there, and the tokens left with their index. -/
inductive Between (s₀ : Session) (i₀ : Nat) (ts : List Token) :
    Session → Nat → List Token → Prop where
  | start (h : ∀ tok ∈ ts.head?, tok.type ≠ .var) : Between s₀ i₀ ts (Build.begun s₀) i₀ ts
  | declare {tok : Token} {rest : List Token} {n : Nat} {t : Session} (hts : ts = tok :: rest)
      (hvar : tok.type = .var)
      (hrun : (Build.openDeclaration (i₀ + 1) rest).run (Build.begun s₀) = .ok n t) :
      Between s₀ i₀ ts t (i₀ + 1 + n) (rest.drop n)
  | term {s t : Session} {i j : Nat} {tok : Token} {rest next : List Token}
      (h : Between s₀ i₀ ts s i (tok :: rest)) (htok : tok.type ≠ .semicolon)
      (hrun : (Build.term i tok rest).run s = .ok (j, next) t) : Between s₀ i₀ ts t j next

namespace Between

variable {s₀ s : Session} {i₀ i : Nat} {ts rest : List Token}

theorem reading (h₀ : s₀.Orderly 0) (h : Between s₀ i₀ ts s i rest) :
    s₀.Later s ∧ s.Reading := by
  induction h with
  | start hvar => exact ⟨⟨rfl, le_rfl⟩, Build.reading_begun h₀⟩
  | @declare _ rest _ _ hts hvar hrun =>
    have hproper := Build.proper_openDeclaration (i₀ + 1) rest h₀
    rwa [hrun] at hproper
  | @term s t i j tok rest next h htok hrun ih =>
    obtain ⟨hlater, hs⟩ := ih
    have hproper : Build.Proper (fun _ t => s.Later t ∧ t.Reading)
        ((Build.term i tok rest).run s) := by
      obtain ⟨hsemi, -⟩ | ⟨o, rest, rfl, ht, ho, -⟩ | ⟨-, hname, -⟩ := Build.terms_cons i tok rest
      · exact absurd hsemi htok
      · rw [Build.term_call i rest ht ho]
        exact (Build.proper_pushEntry (.inl rfl) rfl rfl hs).bind fun _ t ht => ht
      · rw [Build.term_shift i hname]
        exact (Build.proper_shift i tok hs).bind fun _ t ht => ht
    rw [hrun] at hproper
    exact ⟨hlater.trans hproper.1, hproper.2⟩

/-- The entries hold no more words than tokens have been taken. -/
theorem light (h₀ : s₀.Orderly 0) (hn : ts.length < 2 ^ 63) (h : Between s₀ i₀ ts s i rest) :
    rest.length ≤ ts.length ∧ Light (ts.length - rest.length) s.stack := by
  induction h with
  | start hvar => exact ⟨le_rfl, by simp [Build.begun], by simp [Build.begun]⟩
  | @declare tok rest n t hts hvar hrun =>
    obtain ⟨d, hd, hstack⟩ := Build.stack_openDeclaration h₀ hrun
    have hle : (rest.drop n).length ≤ ts.length := by
      simp only [hts, List.length_drop, List.length_cons]
      omega
    refine ⟨hle, ?_, ?_⟩ <;> simp only [hstack, Directive.share, hd, List.mem_singleton,
      forall_eq, List.map_cons, List.map_nil, List.sum_cons, List.sum_nil] <;> omega
  | @term s t i j tok rest next h htok hrun ih =>
    obtain ⟨hle, hlight⟩ := ih
    simp only [List.length_cons, Nat.cast_add, Nat.cast_one] at hle hlight
    obtain ⟨hsemi, -⟩ | ⟨o, rest, rfl, ht, ho, -⟩ | ⟨-, hname, -⟩ := Build.terms_cons i tok rest
    · exact absurd hsemi htok
    -- a call takes two tokens and adds no word
    · rw [Build.term_call i rest ht ho] at hrun
      obtain ⟨_, u, hpush, hrun⟩ := Build.run_bind_eq_ok.1 hrun
      simp only [EStateM.run_pure, EStateM.Result.ok.injEq, Prod.mk.injEq] at hrun
      obtain ⟨⟨-, rfl⟩, rfl⟩ := hrun
      simp only [List.length_cons] at hle hlight
      exact ⟨by omega,
        (hlight.pushEntry (by simp [Directive.share]) hpush).mono (by push_cast; omega)⟩
    · rw [Build.term_shift i hname] at hrun
      obtain ⟨_, u, hshift, hrun⟩ := Build.run_bind_eq_ok.1 hrun
      simp only [EStateM.run_pure, EStateM.Result.ok.injEq, Prod.mk.injEq] at hrun
      obtain ⟨⟨-, rfl⟩, rfl⟩ := hrun
      exact ⟨by omega, (hlight.shift (by omega) hshift).mono (by omega)⟩

end Between

/-- The place after `n` more tokens, where the name of a call and its parenthesis count as one. -/
def Build.termsTaken : Nat → Session × Nat × List Token → Option (Session × Nat × List Token)
  | 0, p => some p
  | n + 1, (s, i, tok :: rest) =>
    if tok.type = .semicolon then none
    else
      match (term i tok rest).run s with
      | .ok (j, next) t => termsTaken n (t, j, next)
      | .error _ _ => none
  | _ + 1, (_, _, []) => none

theorem Between.termsTaken {s₀ : Session} {i₀ : Nat} {ts : List Token}
    {p q : Session × Nat × List Token} (n : Nat) (h : Between s₀ i₀ ts p.1 p.2.1 p.2.2)
    (hn : Build.termsTaken n p = some q) : Between s₀ i₀ ts q.1 q.2.1 q.2.2 := by
  fun_induction Build.termsTaken n p with
  | case1 => exact Option.some.inj hn ▸ h
  | case3 n s i tok rest htok j next t hrun ih => exact ih (h.term htok hrun) hn
  | _ => cases hn

/-- Values that are on the evaluation stack. -/
def stackValues (stack : List Directive) : Nat :=
  stack.countP fun d => d.kind = .value && d.operand.place = .stack

/-- Arguments that have been passed to open calls. -/
def passedArgs (stack : List Directive) : Int :=
  (stack.map fun d => match d.kind with | .call args => args | _ => 0).sum

theorem sum_held (stack : List Directive) :
    (stack.map Directive.held).sum = stackValues stack + passedArgs stack := by
  induction stack with
  | nil => rfl
  | cons d stack ih =>
    have hheld : d.held = (if d.kind = .value && d.operand.place = .stack then 1 else 0) +
        match d.kind with | .call args => args | _ => 0 := by
      unfold Directive.held Operand.held
      cases d.kind <;> simp
    simp only [List.map_cons, List.sum_cons, ih, stackValues, passedArgs, List.countP_cons, hheld]
    split <;> push_cast <;> ring

/-- Between any two tokens of a statement the directive stack is ranked, an operand is due unless
one is on top, no operand is in a register, a value without a type of its own has nothing left to
follow, and the words above the variables are the values on the evaluation stack and the arguments
passed. -/
theorem directive_stack_invariant {ids : IdSupply} {sources : List (List Token)}
    {s₀ s t : Session} {i j : Nat} {ts rest next : List Token}
    (hs : (Session.fresh ids).acceptAll sources = some s₀)
    (h : Reaches s₀ ts s i rest) (hb : Between s i rest t j next) :
    Ranked t.stack ∧
      (t.expectOperand = false ↔ ∃ d ∈ t.stack.head?, d.kind.isOperand) ∧
      (∀ d ∈ t.stack, (∀ r, d.operand.place ≠ .register r) ∧
        (d.kind = .value → ∃ b, d.operand.type.base = some b ∧
          (b.prim = .untyped → d.operand.type.depth = 0 ∧ d.operand.derefs = 0))) ∧
      Build.temporaries t.frame = .ok (wrap (stackValues t.stack + passedArgs t.stack)) ∧
      (t.tokens.size < 2 ^ 63 →
        Build.temporaries t.frame = .ok (stackValues t.stack + passedArgs t.stack)) := by
  obtain ⟨horderly, htokens, -, hlen⟩ := h.orderly (Session.orderly_fresh.acceptAll hs)
  obtain ⟨hlater, hreading⟩ := hb.reading horderly
  have htemps := hreading.holds.orderly.temporaries
  rw [sum_held] at htemps
  refine ⟨hreading.ranked, hreading.expect_iff, fun d hd => ⟨fun r hr => ?_, fun hk => ?_⟩,
    htemps, fun hsize => ?_⟩
  · have hsettled := (hreading.holds.entries d hd).settled
    simp [Operand.settled, hr] at hsettled
  · obtain ⟨b, hbase, hnamed | ⟨-, hdepth, hderefs, -⟩⟩ :=
      ((hreading.holds.entries d hd).value hk).base
    · exact ⟨b, hbase, fun huntyped => absurd huntyped hnamed.typed⟩
    · exact ⟨b, hbase, fun _ => ⟨hdepth, hderefs⟩⟩
  · have hshort : rest.length < 2 ^ 63 := by
      rw [hlater.tokens, htokens, List.size_toArray] at hsize
      omega
    obtain ⟨hle, hlight⟩ := hb.light horderly hshort
    obtain ⟨hlo, hhi⟩ := hlight.held
    rw [sum_held] at hlo hhi
    rw [htemps, wrap_eq_self (by omega) (by omega)]

/-- A call within the argument of a call, on the right of a store. -/
def nestedCalls : List Token := tokensOf "x = f(x + 1, x - g(3, x * 2));"

def beforeOperand : Session × Nat × List Token :=
  (Build.termsTaken 14 (Build.begun { defined with tokens := nestedCalls.toArray }, 0,
    nestedCalls)).getD ({}, 0, [])

theorem directive_stack_invariant_nestedCalls :
    let t := beforeOperand.1
    Between { defined with tokens := nestedCalls.toArray } 0 nestedCalls t beforeOperand.2.1
        beforeOperand.2.2 ∧
      t.stack.map (·.kind) =
        [.mul, .value, .call 1, .sub, .value, .call 1, .assign, .value] ∧
      Ranked t.stack ∧
      (t.expectOperand = false ↔ ∃ d ∈ t.stack.head?, d.kind.isOperand) ∧
      (∀ d ∈ t.stack, (∀ r, d.operand.place ≠ .register r) ∧
        (d.kind = .value → ∃ b, d.operand.type.base = some b ∧
          (b.prim = .untyped → d.operand.type.depth = 0 ∧ d.operand.derefs = 0))) ∧
      Build.temporaries t.frame = .ok (wrap (stackValues t.stack + passedArgs t.stack)) ∧
      (t.tokens.size < 2 ^ 63 →
        Build.temporaries t.frame = .ok (stackValues t.stack + passedArgs t.stack)) := by
  have hstart : Between { defined with tokens := nestedCalls.toArray } 0 nestedCalls
      (Build.begun { defined with tokens := nestedCalls.toArray }) 0 nestedCalls :=
    .start (by decide +kernel)
  have hb := Between.termsTaken 14 (p := (_, _, _)) hstart (q := beforeOperand)
    (eq_some_getD (by decide +kernel) _)
  exact ⟨hb, by decide +kernel, directive_stack_invariant acceptAll_defining .start hb⟩

end OnePass
