import Mathlib
import OnePass.Proofs.Conclusion

namespace OnePass

def Problem.isEnd : Problem → Bool
  | .statementUnterminated | .blockUnterminated | .structUnterminated _ => true
  | .expected _ got => got.type = .eof
  | _ => false

def tokenIn (src : Array Token) (i : Int) : Token := Session.token { tokens := src } i

/-- The report is at the line of one of the tokens `seen`, and not about the end of the source. -/
def Diagnostic.Cites (seen : List Token) (d : Diagnostic) : Prop :=
  (∃ tok ∈ seen, tok.line = d.line) ∧ d.problem.isEnd = false

/-- The entry stands for one of the tokens `seen` of `src`. -/
def Directive.Stands (src : Array Token) (seen : List Token) (d : Directive) : Prop :=
  tokenIn src d.tok ∈ seen

/-- All entries of the directive stack do. -/
structure Session.Recalls (src : Array Token) (seen : List Token) (s : Session) : Prop where
  tokens : s.tokens = src
  stack : ∀ d ∈ s.stack, d.Stands src seen

namespace Build

variable {α β : Type} {src : Array Token} {seen : List Token}

/-- A step that cites one of the tokens `seen` where it rejects, and keeps the entries of the stack
to these tokens. Its result has the property `P`. -/
def Cited (src : Array Token) (seen : List Token) (P : α → Prop) (m : Build α) : Prop :=
  ∀ s : Session, s.Recalls src seen → match m.run s with
    | .ok a t => t.Recalls src seen ∧ P a
    | .error (.reject d) _ => d.Cites seen
    | .error (.crash _) _ => True

section Steps

variable {P : α → Prop} {Q : β → Prop} {m : Build α}

theorem Cited.bind {f : α → Build β} (hm : Cited src seen P m)
    (hf : ∀ a, P a → Cited src seen Q (f a)) : Cited src seen Q (m >>= f) := by
  intro s hs
  have h := hm s hs
  rw [EStateM.run_bind]
  cases hr : m.run s with
  | ok a t =>
    rw [hr] at h
    exact hf a h.2 t h.1
  | error e t =>
    rw [hr] at h
    cases e <;> exact h

theorem Cited.andThen {f : α → Build β} (hm : Cited src seen P m)
    (hf : ∀ a, Cited src seen Q (f a)) : Cited src seen Q (m >>= f) :=
  hm.bind fun a _ => hf a

theorem cited_pure {a : α} (h : P a) : Cited src seen P (pure a : Build α) := fun _ hs => ⟨hs, h⟩

theorem cited_reject {tok : Token} {problem : Problem} (h : tok ∈ seen)
    (hp : problem.isEnd = false) : Cited src seen P (reject tok.line problem : Build α) :=
  fun _ _ => ⟨⟨tok, h, rfl⟩, hp⟩

theorem cited_reject_bind {tok : Token} {problem : Problem} {f : β → Build α} (h : tok ∈ seen)
    (hp : problem.isEnd = false) : Cited src seen P (reject tok.line problem >>= f) :=
  (cited_reject (P := fun _ => False) h hp).bind fun _ hfalse => hfalse.elim

/-- A check that rejects leaves the rest to the sources that pass it. -/
theorem cited_guard {tok : Token} {problem : Problem} {c : Prop} [Decidable c] {f : Build α}
    (h : tok ∈ seen) (hp : problem.isEnd = false) (hf : Cited src seen P f) :
    Cited src seen P (do
      unless c do reject tok.line problem
      f) := by
  split
  · exact hf
  · exact cited_reject_bind h hp

theorem cited_crash (f : Fault) : Cited src seen P (throw (.crash f) : Build α) :=
  fun _ _ => trivial

theorem cited_sound (r : Except Fault α) : Cited src seen (fun a => r = .ok a) (sound r) := by
  cases r with
  | ok a => exact cited_pure rfl
  | error f => exact cited_crash f

theorem cited_get : Cited src seen (fun s => s.Recalls src seen) (get : Build Session) :=
  fun _ hs => ⟨hs, hs⟩

theorem cited_tokenAt (i : Int) : Cited src seen (· = tokenIn src i) (tokenAt i) := by
  intro s hs
  refine ⟨hs, ?_⟩
  rw [← hs.tokens]
  rfl

theorem cited_setStack {stack : List Directive} (h : ∀ d ∈ stack, d.Stands src seen) :
    Cited src seen (fun _ => True) (setStack stack) :=
  fun _ hs => ⟨⟨hs.tokens, h⟩, trivial⟩

theorem cited_setExpectOperand (b : Bool) :
    Cited src seen (fun _ => True) (setExpectOperand b) :=
  fun _ hs => ⟨⟨hs.tokens, hs.stack⟩, trivial⟩

theorem cited_note (e : Event) : Cited src seen (fun _ => True) (note e) :=
  fun _ hs => ⟨⟨hs.tokens, hs.stack⟩, trivial⟩

theorem cited_setFrame (frame : Frame) :
    Cited src seen (fun _ => True) (modify fun s : Session => { s with frame }) :=
  fun _ hs => ⟨⟨hs.tokens, hs.stack⟩, trivial⟩

theorem Emits.cited {n : Int} (h : Emits n m) : Cited src seen (fun _ => True) m := by
  intro s hs
  obtain ⟨code, depth, hrun⟩ := h s
  cases hr : m.run s with
  | ok a t =>
    rw [hr] at hrun
    rw [hrun.1]
    exact ⟨⟨hs.tokens, hs.stack⟩, trivial⟩
  | error e t =>
    rw [hr] at hrun
    cases e with
    | reject d => exact hrun.elim
    | crash f => trivial

end Steps

section Reductions

variable {d lhs rhs decl : Directive} {tok : Token}

theorem cited_requireScalar (h : d.Stands src seen) :
    Cited src seen (fun _ => True) (requireScalar d) := by
  unfold requireScalar
  refine (cited_sound _).andThen fun scalar => ?_
  split
  · exact cited_pure trivial
  · refine (cited_tokenAt d.tok).bind fun tok htok => (cited_sound _).andThen fun b => ?_
    subst htok
    split <;> exact cited_reject h rfl

theorem cited_requireRange (t : Ty) (o : Operand) (h : tok ∈ seen) :
    Cited src seen (fun _ => True) (requireRange tok.line t o) := by
  unfold requireRange
  refine (cited_sound _).andThen fun fits => ?_
  split
  · exact cited_pure trivial
  · split
    · exact (cited_sound _).andThen fun b => cited_reject h rfl
    · exact cited_pure trivial

theorem cited_dereference (htok : tok ∈ seen) (h : d.Stands src seen) :
    Cited src seen (Directive.Stands src seen) (dereference tok d) := by
  unfold dereference
  dsimp only
  split
  · exact cited_reject htok rfl
  · exact cited_pure h

theorem cited_takeAddress (htok : tok ∈ seen) (h : d.Stands src seen) :
    Cited src seen (Directive.Stands src seen) (takeAddress tok d) := by
  unfold takeAddress
  dsimp only
  split
  · refine (emits_locate _).cited.andThen fun _ => (emits_push _).cited.andThen fun _ => ?_
    exact cited_pure h
  · exact cited_reject htok rfl

theorem cited_declare (type : Ty) (address : Int) (h : tok ∈ seen) :
    Cited src seen (fun _ => True) (declare tok type address) := by
  unfold declare
  refine cited_get.andThen fun s => (cited_sound _).andThen fun declared => ?_
  split
  · exact cited_reject h rfl
  · exact (cited_setFrame _).andThen fun _ => cited_note _

theorem cited_initialType (declared given : Ty) (h : tok ∈ seen) :
    Cited src seen (fun _ => True) (initialType tok declared given) := by
  unfold initialType
  split
  · refine (cited_sound _).andThen fun untyped => ?_
    split <;> exact cited_pure trivial
  · refine (cited_sound _).andThen fun accepted => ?_
    split
    · exact cited_pure trivial
    · exact cited_reject h rfl

theorem cited_define (hd : decl.Stands src seen) (h : d.Stands src seen) :
    Cited src seen (fun _ => True) (define decl d) := by
  unfold define
  refine (cited_tokenAt decl.tok).bind fun name hname => ?_
  subst hname
  apply (cited_requireScalar h).andThen
  intro _
  apply (cited_initialType _ _ hd).andThen
  intro type
  apply (cited_requireRange _ _ hd).andThen
  intro _
  apply (emits_spill _).cited.andThen
  intro _
  exact cited_get.andThen fun s => cited_declare _ _ hd

theorem cited_store (htok : tok ∈ seen) (hl : lhs.Stands src seen)
    (hr : rhs.Stands src seen) : Cited src seen (fun _ => True) (store tok lhs rhs) := by
  have hcheck : Cited src seen (fun _ => True) (checkStore tok lhs rhs) := by
    apply cited_guard htok rfl
    apply (cited_requireScalar hl).andThen
    intro _
    apply (cited_requireScalar hr).andThen
    intro _
    refine (cited_sound _).andThen fun accepted => ?_
    exact cited_guard htok rfl (cited_requireRange _ _ htok)
  rw [store_eq]
  exact hcheck.andThen fun _ => (emits_emitStore _ _).cited

/-- The result of an arithmetic operator takes after one of its operands. -/
theorem cited_adopt (kind : DirectiveKind) (htok : tok ∈ seen) :
    Cited src seen (fun like => like = lhs ∨ like = rhs) (adopt kind tok lhs rhs) := by
  have hrange (t : Ty) (o : Operand) {like : Directive} (hlike : like = lhs ∨ like = rhs)
      (accepted : Except Fault Bool) :
      Cited src seen (fun like => like = lhs ∨ like = rhs) (do
        unless ← sound accepted do
          reject tok.line (.operandsMismatched kind lhs.operand.type rhs.operand.type)
        requireRange tok.line t o
        return like) := by
    refine (cited_sound _).andThen fun accepted => ?_
    exact cited_guard htok rfl ((cited_requireRange _ _ htok).andThen fun _ => cited_pure hlike)
  unfold adopt
  refine (cited_sound _).andThen fun l => (cited_sound _).andThen fun r => ?_
  split
  · exact cited_pure (.inl rfl)
  · exact hrange _ _ (.inr rfl) _
  · exact hrange _ _ (.inl rfl) _
  · split
    · exact cited_pure (.inl rfl)
    · exact cited_reject htok rfl

theorem cited_combine (kind : DirectiveKind) (htok : tok ∈ seen) (hl : lhs.Stands src seen)
    (hr : rhs.Stands src seen) :
    Cited src seen (Directive.Stands src seen) (combine kind tok lhs rhs) := by
  rw [combine_eq]
  apply (cited_requireScalar hl).andThen
  intro _
  apply (cited_requireScalar hr).andThen
  intro _
  refine (cited_adopt kind htok).bind fun like hlike => ?_
  apply (emits_emitCombine _ _ _).cited.andThen
  intro _
  apply cited_pure
  rcases hlike with rfl | rfl
  · exact hl
  · exact hr

variable {op : Directive} {above below : List Directive}

theorem cited_reduceArithmetic (kind : DirectiveKind) {rest : List Directive} (htok : tok ∈ seen)
    (hl : lhs.Stands src seen) (hr : rhs.Stands src seen) (hrest : ∀ e ∈ rest, e.Stands src seen) :
    Cited src seen (fun reduced => ∀ e ∈ reduced.1, e.Stands src seen)
      (reduceArithmetic kind tok lhs rhs rest) := by
  unfold reduceArithmetic
  split
  · exact cited_reject htok rfl
  · refine (cited_combine kind htok hl hr).bind fun value hvalue => cited_pure ?_
    exact List.forall_mem_cons.2 ⟨hvalue, hrest⟩

theorem cited_reduceBinary (op : Directive) (htok : tok ∈ seen) (hr : rhs.Stands src seen)
    (hbelow : ∀ e ∈ below, e.Stands src seen) :
    Cited src seen (fun reduced => ∀ e ∈ reduced.1, e.Stands src seen)
      (reduceBinary op tok rhs below) := by
  unfold reduceBinary
  split
  · exact cited_reject htok rfl
  rename_i lhs rest
  obtain ⟨hl, hrest⟩ := List.forall_mem_cons.1 hbelow
  split
  · exact cited_reject htok rfl
  split
  · split
    · exact (cited_define hl hr).andThen fun _ => cited_pure hrest
    · exact (cited_store htok hl hr).andThen fun _ => cited_pure hrest
  · exact cited_reduceArithmetic _ htok hl hr hrest
  · exact cited_reduceArithmetic _ htok hl hr hrest
  · exact cited_reduceArithmetic _ htok hl hr hrest
  · exact cited_reject htok rfl

theorem cited_reduceOver (op : Directive) (htok : tok ∈ seen) (hr : rhs.Stands src seen)
    (hbelow : ∀ e ∈ below, e.Stands src seen) :
    Cited src seen (fun reduced => ∀ e ∈ reduced.1, e.Stands src seen)
      (reduceOver op tok rhs below) := by
  unfold reduceOver
  split
  · split
    · refine (cited_dereference htok hr).bind fun value hvalue => cited_pure ?_
      exact List.forall_mem_cons.2 ⟨hvalue, hbelow⟩
    · refine (cited_takeAddress htok hr).bind fun value hvalue => cited_pure ?_
      exact List.forall_mem_cons.2 ⟨hvalue, hbelow⟩
    · exact (cited_reduceBinary op htok hr hbelow).bind fun reduced hreduced => cited_pure hreduced
  · exact cited_reject htok rfl
  · exact cited_reject htok rfl

theorem cited_reduceSplit (h : ∀ e ∈ above ++ op :: below, e.Stands src seen) :
    Cited src seen (fun reduced => ∀ e ∈ reduced.1, e.Stands src seen)
      (reduceSplit above op below) := by
  have hop : op.Stands src seen := h op (by simp)
  unfold reduceSplit
  split
  · rename_i rhs
    refine (cited_tokenAt op.tok).bind fun tok htok => ?_
    subst htok
    have hr : rhs.Stands src seen := h rhs (by simp)
    have hbelow : ∀ e ∈ below, e.Stands src seen := fun e he => h e (by simp [he])
    exact (cited_reduceOver op hop hr hbelow).bind fun reduced hreduced => cited_pure hreduced
  · refine (cited_tokenAt _).bind fun tok htok => ?_
    subst htok
    exact cited_reject hop rfl

theorem cited_reduceStack (threshold : Int) {stack : List Directive}
    (h : ∀ e ∈ stack, e.Stands src seen) :
    Cited src seen (fun _ => True) (reduceStack threshold stack) := by
  fun_induction reduceStack threshold stack with
  | case1 => exact cited_pure trivial
  | case2 => exact cited_pure trivial
  | case3 stack above op below hsplit _ ih =>
    have hstack := splitTop_eq hsplit
    apply (cited_note _).andThen
    intro _
    refine (cited_reduceSplit (hstack ▸ h)).bind fun reduced hreduced => ?_
    exact (cited_setStack hreduced).andThen fun _ => ih reduced hreduced

theorem cited_reduce (threshold : Int) : Cited src seen (fun _ => True) (reduce threshold) :=
  cited_get.bind fun _ hs => cited_reduceStack threshold hs.stack

end Reductions

section Statements

variable {d marker arg : Directive} {tok : Token} {below : List Directive} {i : Nat}

theorem cited_pushEntry (htok : tok ∈ seen) (h : d.Stands src seen) :
    Cited src seen (fun _ => True) (pushEntry d tok) := by
  unfold pushEntry
  refine cited_get.andThen fun s => ?_
  split
  · refine cited_get.bind fun t ht => cited_setStack ?_
    exact List.forall_mem_cons.2 ⟨h, ht.stack⟩
  · exact cited_reject htok rfl

theorem cited_pushTerm (htok : tok ∈ seen) (h : d.Stands src seen) :
    Cited src seen (fun _ => True) (pushTerm d tok) :=
  (cited_pushEntry htok h).andThen fun _ => cited_setExpectOperand false

theorem cited_pushOperator (kind : DirectiveKind) (htok : tok ∈ seen) (h : tokenIn src i ∈ seen) :
    Cited src seen (fun _ => True) (pushOperator kind i tok) := by
  unfold pushOperator
  refine cited_get.andThen fun s => ?_
  split
  · exact cited_reject htok rfl
  · apply (cited_reduce _).andThen
    intro _
    refine cited_get.bind fun t ht => ?_
    refine (cited_setStack ?_).andThen fun _ => cited_setExpectOperand true
    exact List.forall_mem_cons.2 ⟨h, ht.stack⟩

theorem cited_passArgument (args : Int) (h : arg.Stands src seen)
    (hm : marker.Stands src seen) (hbelow : ∀ e ∈ below, e.Stands src seen) :
    Cited src seen (fun _ => True) (passArgument arg marker args below) := by
  apply (cited_requireScalar h).andThen
  intro _
  apply (emits_spill _).cited.andThen
  intro _
  exact cited_setStack (List.forall_mem_cons.2 ⟨hm, hbelow⟩)

theorem cited_finishCall (args : Int) (hm : marker.Stands src seen)
    (hbelow : ∀ e ∈ below, e.Stands src seen) :
    Cited src seen (fun _ => True) (finishCall marker args below) := by
  refine (cited_tokenAt _).andThen fun name => (emits_call _ _).cited.andThen fun _ => ?_
  refine (cited_note _).andThen fun _ => (cited_setStack ?_).andThen fun _ => ?_
  · exact List.forall_mem_cons.2 ⟨hm, hbelow⟩
  · exact cited_setExpectOperand false

theorem forall_of_splitGroup {stack above : List Directive} (h : ∀ e ∈ stack, e.Stands src seen)
    (hsplit : splitGroup stack = some (above, marker, below)) :
    (∀ e ∈ above, e.Stands src seen) ∧ marker.Stands src seen ∧
      ∀ e ∈ below, e.Stands src seen := by
  rw [splitTop_eq hsplit] at h
  exact ⟨fun e he => h e (by simp [he]), h marker (by simp), fun e he => h e (by simp [he])⟩

theorem cited_closeGroup (htok : tok ∈ seen) : Cited src seen (fun _ => True) (closeGroup tok) := by
  unfold closeGroup
  refine cited_get.bind fun s hs => ?_
  split
  · split
    · rename_i marker below hstack
      have hentries := hs.stack
      rw [hstack] at hentries
      obtain ⟨hm, hbelow⟩ := List.forall_mem_cons.1 hentries
      split
      · split
        · exact cited_reject htok rfl
        · exact cited_finishCall _ hm hbelow
      · exact cited_reject htok rfl
    · exact cited_reject htok rfl
  · apply (cited_reduce 0).andThen
    intro _
    refine cited_get.bind fun t ht => ?_
    split
    · exact cited_reject htok rfl
    · rename_i arg marker below hsplit
      obtain ⟨harg, hm, hbelow⟩ := forall_of_splitGroup ht.stack hsplit
      rw [List.forall_mem_singleton] at harg
      split
      · exact (cited_passArgument _ harg hm hbelow).andThen fun _ => cited_finishCall _ hm hbelow
      · exact cited_setStack (List.forall_mem_cons.2 ⟨harg, hbelow⟩)
    · exact cited_reject htok rfl

theorem cited_nextArgument (htok : tok ∈ seen) :
    Cited src seen (fun _ => True) (nextArgument tok) := by
  unfold nextArgument
  refine cited_get.andThen fun s => ?_
  split
  · exact cited_reject htok rfl
  · apply (cited_reduce 0).andThen
    intro _
    refine cited_get.bind fun t ht => ?_
    split
    · exact cited_reject htok rfl
    · rename_i above marker below hsplit
      obtain ⟨habove, hm, hbelow⟩ := forall_of_splitGroup ht.stack hsplit
      split
      · split
        · rw [List.forall_mem_singleton] at habove
          exact (cited_passArgument _ habove hm hbelow).andThen fun _ => cited_setExpectOperand true
        · exact cited_reject htok rfl
      · exact cited_reject htok rfl

/-- A token that is taken is cited, or one taken before. -/
theorem cited_shift (htok : tok ∈ seen) (h : tokenIn src i ∈ seen) (hend : tok.type ≠ .eof) :
    Cited src seen (fun _ => True) (shift i tok) := by
  unfold shift useLiteral useVariable pushStar
  split
  · contradiction
  · exact cited_reject htok rfl
  · split
    · exact cited_reject htok rfl
    · exact cited_pushTerm htok h
  · refine cited_get.andThen fun s => ?_
    split
    · exact cited_reject htok rfl
    · exact cited_pushTerm htok h
  · exact cited_pushEntry htok h
  · exact cited_closeGroup htok
  · exact cited_nextArgument htok
  · exact cited_pushOperator _ htok h
  · exact cited_pushOperator _ htok h
  · exact cited_pushOperator _ htok h
  · refine cited_get.andThen fun s => ?_
    split
    · exact cited_pushEntry htok h
    · exact cited_pushOperator _ htok h
  · exact cited_pushEntry htok h
  · exact cited_reject htok rfl

theorem cited_settle (h : d.Stands src seen) : Cited src seen (fun _ => True) (settle d) := by
  unfold settle
  refine (cited_tokenAt d.tok).bind fun name hname => ?_
  subst hname
  dsimp only
  split
  · split
    · exact cited_reject h rfl
    · refine (cited_sound _).andThen fun size => cited_get.andThen fun s => ?_
      have hzeros : Emits size.toNat (zeros size) :=
        ((emits_emit _).bind fun _ => emits_grow _).cast (zero_add _)
      exact hzeros.cited.andThen fun _ => cited_declare _ _ h
  · refine (cited_sound _).andThen fun scalar => ?_
    split
    · exact (emits_load _ _).cited.andThen fun _ => cited_pure trivial
    · refine (cited_sound _).andThen fun b => ?_
      split
      · exact cited_requireScalar h
      · split
        · exact (emits_pop _).cited
        · exact cited_pure trivial
  · exact cited_reject h rfl

theorem cited_checkWords (htok : tok ∈ seen) : Cited src seen (fun _ => True) (checkWords tok) := by
  refine cited_get.andThen fun s => (cited_sound _).andThen fun words => ?_
  split
  · exact cited_pure trivial
  · exact cited_reject htok rfl

theorem cited_settleStack (htok : tok ∈ seen) :
    Cited src seen (fun _ => True) (settleStack tok) := by
  unfold settleStack
  refine cited_get.bind fun s hs => ?_
  dsimp only
  split
  · rename_i marker _ hsplit
    obtain ⟨-, hm, -⟩ := forall_of_splitGroup hs.stack hsplit
    refine (cited_tokenAt _).bind fun tok htok => ?_
    subst htok
    exact cited_reject_bind hm rfl
  · split
    · exact cited_checkWords htok
    · rename_i d hstack
      apply (cited_setStack (by simp)).andThen
      intro _
      apply (cited_settle (hs.stack d (by simp [hstack]))).andThen
      intro _
      exact cited_checkWords htok
    · exact cited_reject_bind htok rfl

theorem cited_conclude (htok : tok ∈ seen) : Cited src seen (fun _ => True) (conclude tok) := by
  refine cited_get.andThen fun s => ?_
  dsimp only
  split
  · exact cited_reject_bind htok rfl
  · exact (cited_reduce 0).andThen fun _ => cited_settleStack htok

end Statements

end Build

end OnePass
