import Mathlib
import OnePass.Proofs.Generation
import OnePass.Proofs.Rejection

namespace OnePass

def Alu.kind : Alu → DirectiveKind
  | .add => .add
  | .sub => .sub
  | .mul => .mul

theorem Alu.precedence_kind (op : Alu) : op.kind.precedence = op.precedence := by
  cases op <;> rfl

/-- What an entry of the directive stack stands for. -/
inductive Entry where
  | value (e : Expr)
  | decl (d : Decl)
  | group (g : Group)
  | operator (kind : DirectiveKind)

namespace Entry

/-- Words of the evaluation stack that an entry holds. -/
def held (f : Frame) : Entry → Int
  | value e => (e.result f).held
  | group (.call _ args) => args.length
  | _ => 0

/-- No entry holds more words than this, nor does anything that it is reduced to. -/
def weight : Entry → Nat
  | group (.call _ args) => args.length + 1
  | _ => 1

def code (f : Frame) (depth : Int) : Entry → List Instr
  | value e => e.code f depth
  | group (.call _ args) => Expr.argsCode f depth args
  | _ => []

/-- The depth above a list of entries, innermost first. -/
def top (f : Frame) : List Entry → Int
  | [] => f.depth
  | x :: xs => top f xs + x.held f

def codes (f : Frame) : List Entry → List Instr
  | [] => []
  | x :: xs => codes f xs ++ x.code f (top f xs)

theorem held_nonneg (f : Frame) (x : Entry) : 0 ≤ x.held f := by
  unfold held
  split
  · exact Operand.held_nonneg _
  · omega
  · rfl

theorem held_le_weight (f : Frame) (x : Entry) : x.held f ≤ x.weight := by
  unfold held weight
  split
  · unfold Operand.held
    split <;> simp
  · push_cast
    omega
  · exact Int.natCast_nonneg _

def weights (xs : List Entry) : Nat := (xs.map weight).sum

theorem depth_le_top (f : Frame) (xs : List Entry) : f.depth ≤ top f xs := by
  induction xs with
  | nil => rfl
  | cons x xs ih =>
    have := x.held_nonneg f
    simp only [top]
    omega

theorem top_le_weights (f : Frame) (xs : List Entry) : top f xs ≤ f.depth + weights xs := by
  induction xs with
  | nil => simp [top, weights]
  | cons x xs ih =>
    have := x.held_le_weight f
    simp only [top, weights, List.map_cons, List.sum_cons] at ih ⊢
    push_cast at ih ⊢
    omega

/-- Whether a directive is how the stack shows an entry. -/
def Shows (s : Session) : Entry → Directive → Prop
  | value e, d => d.kind = .value ∧ e.operand s.frame = some d.operand
  | decl δ, d => d.kind = .declaration ∧ δ.declared s.types = some d.operand.type ∧
      (s.token d.tok).name = δ.name ∧ (s.token d.tok).line = δ.line
  | group .paren, d => d.kind = .openParen
  | group (.call g args), d => d.kind = .call args.length ∧ (s.token d.tok).name = g ∧
      Expr.scalars s.frame args
  | operator k, d => d.kind = k

end Entry

def Pending.entries : Pending → List Entry
  | .deref => [.operator .deref]
  | .addressOf => [.operator .addressOf]
  | .binary op l => [.operator op.kind, .value l]

def Target.entries : Target → List Entry
  | .expr l => [.operator .assign, .value l]
  | .decl d => [.operator .assign, .decl d]

namespace Parse

def regionEntries (region : List Pending) : List Entry := region.flatMap Pending.entries

def baseEntries (p : Parse) : List Entry :=
  (p.outer.flatMap fun g => .group g.1 :: regionEntries g.2) ++
    (p.target.map Target.entries).getD []

/-- The entries of a statement read in part, innermost first. -/
def entries (p : Parse) : List Entry :=
  p.top.toList.map .value ++ regionEntries p.region ++ p.baseEntries

end Parse

/-- A session that has compiled the part of a statement that `xs` stands for, from `s₀` on, with
`stack` for its entries. -/
structure Tracks (s₀ : Session) (xs : List Entry) (stack : List Directive) (expect : Bool)
    (s : Session) : Prop where
  code : s.code = s₀.code ++ Entry.codes s₀.frame xs
  frame : s.frame = { s₀.frame with depth := Entry.top s₀.frame xs }
  types : s.types = s₀.types
  tokens : s.tokens = s₀.tokens
  expect : s.expectOperand = expect
  shows : List.Forall₂ (Entry.Shows s₀) xs stack

/-- A session where a statement may start: no type is missing, integers take one word, and there
is room for `n` words more. -/
structure Ready (n : Nat) (s : Session) : Prop where
  vars : ∀ v ∈ s.frame.vars, v.type.base.isSome
  types : ∀ e ∈ s.types.entries, e.2.isSome
  regularVars : ∀ v ∈ s.frame.vars, ∀ b ∈ v.type.base, b.Regular
  regularTypes : ∀ e ∈ s.types.entries, ∀ b ∈ e.2, b.Regular
  nonneg : 0 ≤ s.frame.depth
  room : s.frame.depth + n < 2 ^ 62

namespace Tracks

open Build

variable {s₀ s : Session} {xs ys : List Entry} {stack stack' : List Directive} {b : Bool} {n : Nat}

theorem token (h : Tracks s₀ xs stack b s) (i : Int) : s.token i = s₀.token i := by
  simp [Session.token, h.tokens]

theorem depth (h : Tracks s₀ xs stack b s) : s.frame.depth = Entry.top s₀.frame xs := by
  rw [h.frame]

theorem emitted {code : List Instr} {depth : Int} (h : Tracks s₀ xs stack b s)
    (hcode : Entry.codes s₀.frame xs ++ code = Entry.codes s₀.frame ys)
    (hdepth : depth = Entry.top s₀.frame ys) (hshows : List.Forall₂ (Entry.Shows s₀) ys stack') :
    Tracks s₀ ys stack' b (s.emitted code depth) where
  code := by
    rw [← hcode]
    simp only [Session.emitted_code, h.code]
    apply Array.toList_inj.1
    simp
  frame := by simp [h.frame, hdepth]
  types := h.types
  tokens := h.tokens
  expect := h.expect
  shows := hshows

theorem restack (h : Tracks s₀ xs stack b s)
    (hcode : Entry.codes s₀.frame xs = Entry.codes s₀.frame ys)
    (htop : Entry.top s₀.frame xs = Entry.top s₀.frame ys)
    (hshows : List.Forall₂ (Entry.Shows s₀) ys stack') : Tracks s₀ ys stack' b s :=
  ⟨hcode ▸ h.code, htop ▸ h.frame, h.types, h.tokens, h.expect, hshows⟩

theorem noted (h : Tracks s₀ xs stack b s) (trace : Array Event) :
    Tracks s₀ xs stack b { s with trace } :=
  ⟨h.code, h.frame, h.types, h.tokens, h.expect, h.shows⟩

theorem inRange (h : Tracks s₀ xs stack b s) (hr : Ready n s₀) (hn : Entry.weights xs ≤ n) :
    InRange s.frame.depth := by
  have h₀ := hr.nonneg
  have h₁ := hr.room
  have h₂ := Entry.depth_le_top s₀.frame xs
  have h₃ := Entry.top_le_weights s₀.frame xs
  rw [h.depth]
  exact ⟨by omega, by omega⟩

end Tracks

namespace Build

variable {s₀ s : Session} {xs : List Entry} {b : Bool} {n : Nat} {lhs rhs op : Directive}
  {below : List Directive} {tok : Token} {e l r : Expr}

/-- Whether an expression keeps the typing rules where a statement starts. -/
def typeable (s : Session) (e : Expr) : Bool := (e.operand s.frame).isSome

theorem over_deref (h : Tracks s₀ (.value e :: .operator .deref :: xs) (rhs :: op :: below) b s) :
    if typeable s₀ (.deref e) then ∃ r t, (reduceOver op tok rhs below).run s = .ok r t ∧
      Tracks s₀ (.value (.deref e) :: xs) r.1 b t
    else Fails ((reduceOver op tok rhs below).run s) := by
  obtain ⟨⟨hk, ho⟩, hrest⟩ := List.forall₂_cons.1 h.shows
  obtain ⟨hop, hbelow⟩ := List.forall₂_cons.1 hrest
  have hop : op.kind = .deref := hop
  have hcheck := checks_dereference (s := s) tok rhs
  have hover : reduceOver op tok rhs below = dereference tok rhs >>= fun value =>
      pure ⟨value :: below, by simp⟩ := by
    simp [reduceOver, hk, hop]
  rw [hover]
  cases hp : rhs.operand.pointee with
  | none =>
    rw [hp] at hcheck
    obtain ⟨d, hd⟩ := hcheck
    rw [if_neg (by simp [typeable, Expr.operand, ho, hp])]
    exact Fails.bind (by rw [hd]; exact fails_error _ _) _
  | some o =>
    rw [hp] at hcheck
    have hderef : (Expr.deref e).operand s₀.frame = some o := by simp [Expr.operand, ho, hp]
    rw [if_pos (by simp [typeable, hderef])]
    -- a dereference only changes the type, so the same words are held
    have hheld : ((Expr.deref e).result s₀.frame).held = (e.result s₀.frame).held := by
      simp only [Operand.pointee, Option.ite_none_left_eq_some, Option.some.injEq] at hp
      rw [Expr.result_eq hderef, Expr.result_eq ho, ← hp.2]
      rfl
    refine ⟨_, _, run_bind_ok hcheck, h.restack ?_ ?_ (.cons ⟨hk, hderef⟩ hbelow)⟩
    · simp [Entry.codes, Entry.code, Entry.top, Entry.held, Expr.code]
    · simp only [Entry.top, Entry.held, hheld, Int.add_zero]

theorem over_addressOf
    (h : Tracks s₀ (.value e :: .operator .addressOf :: xs) (rhs :: op :: below) b s)
    (hr : Ready n s₀) (hn : Entry.weights (.value e :: .operator .addressOf :: xs) ≤ n) :
    if typeable s₀ (.addressOf e) then ∃ r t, (reduceOver op tok rhs below).run s = .ok r t ∧
      Tracks s₀ (.value (.addressOf e) :: xs) r.1 b t
    else Fails ((reduceOver op tok rhs below).run s) := by
  obtain ⟨⟨hk, ho⟩, hrest⟩ := List.forall₂_cons.1 h.shows
  obtain ⟨hop, hbelow⟩ := List.forall₂_cons.1 hrest
  have hop : op.kind = .addressOf := hop
  have hresult := Expr.result_eq ho
  have hdepth : s.frame.depth = Entry.top s₀.frame xs + rhs.operand.held := by
    simp [h.depth, Entry.top, Entry.held, hresult]
  have hpos : 0 ≤ Entry.top s₀.frame xs := hr.nonneg.trans (Entry.depth_le_top _ _)
  have htake := run_takeAddress tok hk (h.inRange hr hn) (by omega)
    (Expr.typed_operand hr.vars e ho)
  have hover : reduceOver op tok rhs below = takeAddress tok rhs >>= fun value =>
      pure ⟨value :: below, by simp⟩ := by
    simp [reduceOver, hk, hop]
  rw [hover]
  cases ha : rhs.operand.addressable with
  | false =>
    rw [if_neg (by simp [ha])] at htake
    obtain ⟨d, hd⟩ := htake
    rw [if_neg (by simp [typeable, Expr.operand, ho, ha])]
    exact Fails.bind (by rw [hd]; exact fails_error _ _) _
  | true =>
    rw [if_pos ha] at htake
    have haddr : (Expr.addressOf e).operand s₀.frame = some (result rhs.tok
        { rhs.operand.type with depth := wrap (rhs.operand.type.depth + 1) }).operand := by
      simp [Expr.operand, ho, ha, result]
    rw [if_pos (by simp [typeable, haddr])]
    refine ⟨_, _, run_bind_ok htake, h.emitted ?_ ?_ (.cons ⟨rfl, haddr⟩ hbelow)⟩
    · simp [Entry.codes, Entry.code, Entry.top, Entry.held, Expr.code, hresult, hdepth]
    · simp [Entry.top, Entry.held, Expr.result_eq haddr, hdepth, result, Operand.held]

theorem over_binary {alu : Alu}
    (h : Tracks s₀ (.value r :: .operator alu.kind :: .value l :: xs) (rhs :: op :: lhs :: below)
      b s)
    (hr : Ready n s₀)
    (hn : Entry.weights (.value r :: .operator alu.kind :: .value l :: xs) ≤ n) :
    if typeable s₀ (.binary alu l r) then
      ∃ u t, (reduceOver op tok rhs (lhs :: below)).run s = .ok u t ∧
        Tracks s₀ (.value (.binary alu l r) :: xs) u.1 b t
    else Fails ((reduceOver op tok rhs (lhs :: below)).run s) := by
  obtain ⟨⟨hkr, hor⟩, hrest⟩ := List.forall₂_cons.1 h.shows
  obtain ⟨hop, hrest⟩ := List.forall₂_cons.1 hrest
  obtain ⟨⟨hkl, hol⟩, hbelow⟩ := List.forall₂_cons.1 hrest
  have hresr := Expr.result_eq hor
  have hresl := Expr.result_eq hol
  have hdepth : s.frame.depth =
      Entry.top s₀.frame xs + lhs.operand.held + rhs.operand.held := by
    simp [h.depth, Entry.top, Entry.held, hresr, hresl]
  have hpos : 0 ≤ Entry.top s₀.frame xs := hr.nonneg.trans (Entry.depth_le_top _ _)
  have halu : op.kind.alu? = some alu := by
    rw [show op.kind = alu.kind from hop]
    cases alu <;> rfl
  have hcombine := run_combine tok halu (h.inRange hr hn) (Expr.typed_operand hr.vars l hol)
    (Expr.typed_operand hr.vars r hor) (by omega)
  have hover : reduceOver op tok rhs (lhs :: below) = combine op.kind tok lhs rhs >>= fun value =>
      pure ⟨value :: below, by simp⟩ := by
    have hkind : op.kind = alu.kind := hop
    cases alu <;> simp [reduceOver, reduceBinary, hkr, hkl, hkind, Alu.kind,
      DirectiveKind.isOperator, DirectiveKind.opensGroup]
  rw [hover]
  cases hc : lhs.operand.combined rhs.operand with
  | none =>
    rw [hc] at hcombine
    obtain ⟨d, hd⟩ := hcombine
    rw [if_neg (by simp [typeable, Expr.operand, hol, hor, hc])]
    exact Fails.bind (by rw [hd]; exact fails_error _ _) _
  | some t =>
    rw [hc] at hcombine
    obtain ⟨i, hrun⟩ := hcombine
    have hbinary : (Expr.binary alu l r).operand s₀.frame = some (result i t).operand := by
      simp [Expr.operand, hol, hor, hc, result]
    rw [if_pos (by simp [typeable, hbinary])]
    refine ⟨_, _, run_bind_ok hrun, h.emitted ?_ ?_ (.cons ⟨rfl, hbinary⟩ hbelow)⟩
    · simp [Entry.codes, Entry.code, Entry.top, Entry.held, Expr.code, hresl, hresr, hdepth]
    · simp [Entry.top, Entry.held, Expr.result_eq hbinary, hdepth, result, Operand.held]

theorem run_reduceStack {q : Int} (below : List Directive) (hk : rhs.kind = .value)
    (hop : op.kind.isOperator)
    (hq : ¬(op.kind.precedence < q ∧ !op.kind.isUnary)) :
    ∃ e, (reduceStack q (rhs :: op :: below)).run s =
      (reduceOver op (s.token op.tok) rhs below >>= fun r => setStack r.1 >>= fun _ =>
        reduceStack q r.1).run { s with trace := s.trace.push e } := by
  have hsplit : splitOperator (rhs :: op :: below) = some ([rhs], op, below) := by
    have hvalue : DirectiveKind.isOperator .value = false := rfl
    have hgroup : DirectiveKind.opensGroup .value = false := rfl
    simp [splitOperator, splitTop, hk, hop, hvalue, hgroup]
  refine ⟨.reduce op.kind below.length (rhs :: op :: below).length q, ?_⟩
  rw [reduceStack]
  split
  · simp_all
  · rename_i above op' below' heq
    obtain ⟨rfl, rfl, rfl⟩ : [rhs] = above ∧ op = op' ∧ below = below' := by simp_all
    rw [if_neg hq, run_bind_ok (run_note _)]
    simp only [reduceSplit, bind_assoc, pure_bind]
    rw [run_bind_ok (run_tokenAt _)]
    rfl

/-- The reductions of a stack come down to those of the stack that shows `xs`. -/
def ReducesTo (s₀ : Session) (q : Int) (stack : List Directive) (b : Bool) (s : Session)
    (xs : List Entry) : Prop :=
  ∃ stack' s', (reduceStack q stack).run s = (reduceStack q stack').run s' ∧ s'.stack = stack' ∧
    Tracks s₀ xs stack' b s'

theorem reducesTo_of_over {c : Bool} {q : Int} {ys : List Entry}
    (h : Tracks s₀ xs (rhs :: op :: below) b s) (hk : rhs.kind = .value) (hop : op.kind.isOperator)
    (hq : ¬(op.kind.precedence < q ∧ !op.kind.isUnary))
    (hover : ∀ tok {s}, Tracks s₀ xs (rhs :: op :: below) b s →
      if c then ∃ r t, (reduceOver op tok rhs below).run s = .ok r t ∧ Tracks s₀ ys r.1 b t
      else Fails ((reduceOver op tok rhs below).run s)) :
    if c then ReducesTo s₀ q (rhs :: op :: below) b s ys
    else Fails ((reduceStack q (rhs :: op :: below)).run s) := by
  obtain ⟨e, he⟩ := run_reduceStack (s := s) below hk hop hq
  have hnext := hover (s.token op.tok) (h.noted (s.trace.push e))
  cases c with
  | false =>
    rw [if_neg (by simp)] at hnext ⊢
    rw [he]
    exact hnext.bind _
  | true =>
    obtain ⟨r, t, hrun, ht⟩ := hnext
    refine ⟨r.1, { t with stack := r.1 }, ?_, rfl, ⟨ht.code, ht.frame, ht.types, ht.tokens,
      ht.expect, ht.shows⟩⟩
    rw [he, run_bind_ok hrun, run_bind_ok (run_setStack _)]

/-- The parser and the directive stack make the same reductions. -/
theorem reduce_lockstep {q : Nat} {region : List Pending} {base : List Entry}
    {stack : List Directive} (hr : Ready n s₀)
    (h : Tracks s₀ (.value e :: Parse.regionEntries region ++ base) stack b s)
    (hs : s.stack = stack)
    (hn : Entry.weights (.value e :: Parse.regionEntries region ++ base) ≤ n) :
    match Parse.reduce (typeable s₀) q region e with
    | some (region', e') =>
      ReducesTo s₀ q stack b s (.value e' :: Parse.regionEntries region' ++ base)
    | none => Fails ((reduceStack q stack).run s) := by
  induction region generalizing e stack s with
  | nil => exact ⟨stack, s, rfl, hs, h⟩
  | cons op region ih =>
    -- once the topmost operator is reduced, the rest follows by induction
    have hstep {e₁ : Expr}
        (hw : Entry.weights (.value e₁ :: Parse.regionEntries region ++ base) ≤ n)
        (h₁ : if typeable s₀ e₁ then
            ReducesTo s₀ q stack b s (.value e₁ :: Parse.regionEntries region ++ base)
          else Fails ((reduceStack q stack).run s)) :
        match (if typeable s₀ e₁ then Parse.reduce (typeable s₀) q region e₁ else none) with
        | some (region', e') =>
          ReducesTo s₀ q stack b s (.value e' :: Parse.regionEntries region' ++ base)
        | none => Fails ((reduceStack q stack).run s) := by
      by_cases ht : typeable s₀ e₁
      · rw [if_pos ht] at h₁ ⊢
        obtain ⟨stack₁, s₁, hrun, hs₁, h₁⟩ := h₁
        have := ih h₁ hs₁ hw
        unfold ReducesTo at this ⊢
        rwa [hrun]
      · rw [if_neg ht] at h₁ ⊢
        exact h₁
    obtain ⟨rhs, stack, ⟨hk, -⟩, hrest, rfl⟩ := List.forall₂_cons_left_iff.1 h.shows
    have hweight {e₁ : Expr} (pending : List Entry)
        (hn : Entry.weights (.value e :: pending ++ (Parse.regionEntries region ++ base)) ≤ n) :
        Entry.weights (.value e₁ :: Parse.regionEntries region ++ base) ≤ n := by
      refine le_trans ?_ hn
      simp only [Entry.weights, Entry.weight, List.cons_append, List.map_cons, List.map_append,
        List.sum_cons, List.sum_append]
      omega
    cases op with
    | deref =>
      obtain ⟨op, below, hop, -, rfl⟩ := List.forall₂_cons_left_iff.1 hrest
      have hop : op.kind = .deref := hop
      exact hstep (hweight [.operator .deref] hn) (reducesTo_of_over h hk
        (by rw [hop]; rfl) (by simp [hop, DirectiveKind.isUnary]) fun _ _ h => over_deref h)
    | addressOf =>
      obtain ⟨op, below, hop, -, rfl⟩ := List.forall₂_cons_left_iff.1 hrest
      have hop : op.kind = .addressOf := hop
      exact hstep (hweight [.operator .addressOf] hn) (reducesTo_of_over h hk
        (by rw [hop]; rfl) (by simp [hop, DirectiveKind.isUnary])
        fun _ _ h => over_addressOf h hr hn)
    | binary alu l =>
      obtain ⟨op, rest, hop, hlhs, rfl⟩ := List.forall₂_cons_left_iff.1 hrest
      obtain ⟨lhs, below, -, -, rfl⟩ := List.forall₂_cons_left_iff.1 hlhs
      have hop : op.kind = alu.kind := hop
      have hprec : op.kind.precedence = alu.precedence := hop ▸ alu.precedence_kind
      by_cases hq : alu.precedence < q
      · simp only [Parse.reduce, if_pos hq]
        exact ⟨_, s, rfl, hs, h⟩
      · simp only [Parse.reduce, if_neg hq]
        exact hstep (hweight [.operator alu.kind, .value l] hn) (reducesTo_of_over h hk
          (by rw [hop]; cases alu <;> rfl) (fun hc => hq (by omega))
          fun _ _ h => over_binary h hr hn)

end Build

end OnePass
