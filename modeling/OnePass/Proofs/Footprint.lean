import Mathlib
import OnePass.Proofs.Correspondence
import OnePass.Proofs.Conclusion

namespace OnePass.Build

variable {α β : Type} {R : Session → Session → Prop}

/-- However a step ends, the session after it stands in `R` to the one before. -/
def Leaves (R : Session → Session → Prop) (m : Build α) : Prop := ∀ s : Session, R s (s.run m).2

/-- The named types are the same. -/
def SameTypes (s t : Session) : Prop := t.types = s.types

instance : IsPreorder Session SameTypes where
  refl _ := rfl
  trans _ _ _ h h' := Eq.trans h' h

section Checks

variable [IsPreorder Session R]

@[grind ←]
theorem Leaves.bind {m : Build α} {f : α → Build β} (hm : Leaves R m) (hf : ∀ a, Leaves R (f a)) :
    Leaves R (m >>= f) := by
  intro s
  have h := hm s
  unfold Session.run at h ⊢
  rw [EStateM.run_bind]
  cases hr : EStateM.run m s with
  | ok a t =>
    rw [hr] at h
    exact Trans.trans h (hf a t)
  | error e t =>
    rw [hr] at h
    exact h

@[grind ←]
theorem leaves_pure (a : α) : Leaves R (pure a : Build α) := fun s => refl s

@[grind ←]
theorem leaves_get : Leaves R (get : Build Session) := fun s => refl s

@[grind ←]
theorem leaves_throw (e : Stop) : Leaves R (throw e : Build α) := fun s => refl s

@[grind ←]
theorem leaves_reject (line : Int) (problem : Problem) : Leaves R (reject line problem : Build α) :=
  leaves_throw _

@[grind ←]
theorem leaves_sound (r : Except Fault α) : Leaves R (sound r) := by
  cases r with
  | ok a => exact leaves_pure a
  | error f => exact leaves_throw _

@[grind ←]
theorem leaves_tokenAt (i : Int) : Leaves R (tokenAt i) := fun s => refl s

@[grind ←]
theorem leaves_requireScalar (d : Directive) : Leaves R (requireScalar d) := by
  unfold requireScalar
  grind

@[grind ←]
theorem leaves_requireRange (line : Int) (t : Ty) (o : Operand) :
    Leaves R (requireRange line t o) := by
  unfold requireRange
  grind

@[grind ←]
theorem leaves_dereference (op : Token) (d : Directive) : Leaves R (dereference op d) := by
  unfold dereference
  grind

@[grind ←]
theorem leaves_initialType (name : Token) (declared given : Ty) :
    Leaves R (initialType name declared given) := by
  unfold initialType
  grind

@[grind ←]
theorem leaves_adopt (kind : DirectiveKind) (op : Token) (lhs rhs : Directive) :
    Leaves R (adopt kind op lhs rhs) := by
  unfold adopt
  grind

@[grind ←]
theorem leaves_checkStore (op : Token) (lhs rhs : Directive) :
    Leaves R (checkStore op lhs rhs) := by
  unfold checkStore
  grind

@[grind ←]
theorem leaves_declaredType (ts : List Token) : Leaves R (declaredType ts) := by
  unfold declaredType
  grind

end Checks

section Code

theorem leaves_setFrame (frame : Frame) :
    Leaves SameTypes (modify fun s : Session => { s with frame }) := fun _ => rfl

@[grind ←]
theorem leaves_note (e : Event) : Leaves SameTypes (note e) := fun _ => rfl

@[grind ←]
theorem leaves_setStack (stack : List Directive) : Leaves SameTypes (setStack stack) := fun _ => rfl

@[grind ←]
theorem leaves_setExpectOperand (b : Bool) : Leaves SameTypes (setExpectOperand b) := fun _ => rfl

@[grind ←]
theorem leaves_emit (code : List Instr) : Leaves SameTypes (emit code) := fun _ => rfl

@[grind ←]
theorem leaves_grow (n : Int) : Leaves SameTypes (grow n) := fun _ => rfl

@[grind ←]
theorem leaves_shrink (n : Int) : Leaves SameTypes (shrink n) := by
  unfold shrink
  exact leaves_get.bind fun _ => (leaves_sound _).bind leaves_setFrame

@[grind ←]
theorem leaves_push (r : Reg) : Leaves SameTypes (push r) := fun _ => rfl

@[grind ←]
theorem leaves_pop (r : Reg) : Leaves SameTypes (pop r) := by
  unfold pop
  grind

@[grind ←]
theorem leaves_reach (slot : Int) : Leaves SameTypes (reach slot) := fun _ => rfl

@[grind ←]
theorem leaves_follow (r : Reg) (n : Int) : Leaves SameTypes (follow r n) := fun _ => rfl

@[grind ←]
theorem leaves_zeros (n : Int) : Leaves SameTypes (zeros n) := fun _ => rfl

@[grind ←]
theorem leaves_call (name : String) (args : Int) : Leaves SameTypes (call name args) := by
  unfold call
  grind

@[grind ←]
theorem leaves_load (o : Operand) (r : Reg) : Leaves SameTypes (load o r) := by
  unfold load
  grind

@[grind ←]
theorem leaves_locate (o : Operand) : Leaves SameTypes (locate o) := by
  unfold locate
  grind

@[grind ←]
theorem leaves_spill (o : Operand) : Leaves SameTypes (spill o) := by
  unfold spill
  grind

@[grind ←]
theorem leaves_declare (name : Token) (type : Ty) (address : Int) :
    Leaves SameTypes (declare name type address) := by
  unfold declare
  refine leaves_get.bind fun s => (leaves_sound _).bind fun declared => ?_
  split
  · grind
  · exact (leaves_setFrame _).bind fun _ => leaves_note _

end Code

section Reductions

@[grind ←]
theorem leaves_takeAddress (op : Token) (d : Directive) : Leaves SameTypes (takeAddress op d) := by
  unfold takeAddress
  grind

@[grind ←]
theorem leaves_define (decl value : Directive) : Leaves SameTypes (define decl value) := by
  unfold define
  grind

@[grind ←]
theorem leaves_store (op : Token) (lhs rhs : Directive) : Leaves SameTypes (store op lhs rhs) := by
  rw [store_eq]
  unfold emitStore
  grind

@[grind ←]
theorem leaves_popOperand (o : Operand) (r : Reg) : Leaves SameTypes (popOperand o r) := by
  unfold popOperand
  grind

@[grind ←]
theorem leaves_emitCombine (kind : DirectiveKind) (l r : Operand) :
    Leaves SameTypes (emitCombine kind l r) := by
  unfold emitCombine
  grind

@[grind ←]
theorem leaves_combine (kind : DirectiveKind) (op : Token) (lhs rhs : Directive) :
    Leaves SameTypes (combine kind op lhs rhs) := by
  rw [combine_eq]
  grind

@[grind ←]
theorem leaves_reduceBinary (op : Directive) (tok : Token) (rhs : Directive)
    (below : List Directive) : Leaves SameTypes (reduceBinary op tok rhs below) := by
  unfold reduceBinary
  split
  · grind
  · split
    · grind
    · split <;> grind

@[grind ←]
theorem leaves_reduceOver (op : Directive) (tok : Token) (rhs : Directive)
    (below : List Directive) : Leaves SameTypes (reduceOver op tok rhs below) := by
  unfold reduceOver
  grind

@[grind ←]
theorem leaves_reduceSplit (above : List Directive) (op : Directive) (below : List Directive) :
    Leaves SameTypes (reduceSplit above op below) := by
  unfold reduceSplit
  split
  · grind
  · grind

@[grind ←]
theorem leaves_reduceStack (threshold : Int) (stack : List Directive) :
    Leaves SameTypes (reduceStack threshold stack) := by
  fun_induction reduceStack threshold stack with
  | case1 => exact (leaves_pure _)
  | case2 => exact (leaves_pure _)
  | case3 stack above op below _ _ ih =>
    apply (leaves_note _).bind
    intro _
    apply (leaves_reduceSplit _ _ _).bind
    intro reduced
    apply (leaves_setStack _).bind
    intro _
    exact ih reduced

@[grind ←]
theorem leaves_reduce (threshold : Int) : Leaves SameTypes (reduce threshold) := by
  unfold reduce
  grind

end Reductions

section Statements

@[grind ←]
theorem leaves_pushEntry (d : Directive) (tok : Token) : Leaves SameTypes (pushEntry d tok) := by
  unfold pushEntry
  grind

@[grind ←]
theorem leaves_pushTerm (d : Directive) (tok : Token) : Leaves SameTypes (pushTerm d tok) := by
  unfold pushTerm
  grind

@[grind ←]
theorem leaves_pushOperator (kind : DirectiveKind) (i : Nat) (tok : Token) :
    Leaves SameTypes (pushOperator kind i tok) := by
  unfold pushOperator
  grind

@[grind ←]
theorem leaves_passArgument (arg marker : Directive) (args : Int) (below : List Directive) :
    Leaves SameTypes (passArgument arg marker args below) := by
  unfold passArgument
  grind

@[grind ←]
theorem leaves_finishCall (marker : Directive) (args : Int) (below : List Directive) :
    Leaves SameTypes (finishCall marker args below) := by
  unfold finishCall
  grind

@[grind ←]
theorem leaves_closeGroup (tok : Token) : Leaves SameTypes (closeGroup tok) := by
  unfold closeGroup
  refine leaves_get.bind fun s => ?_
  split
  · grind
  · grind

@[grind ←]
theorem leaves_nextArgument (tok : Token) : Leaves SameTypes (nextArgument tok) := by
  unfold nextArgument
  refine leaves_get.bind fun s => ?_
  split
  · grind
  · refine (leaves_reduce 0).bind fun _ => leaves_get.bind fun t => ?_
    grind

@[grind ←]
theorem leaves_shift (i : Nat) (tok : Token) : Leaves SameTypes (shift i tok) := by
  unfold shift useLiteral useVariable pushStar
  grind

@[grind ←]
theorem leaves_settle (d : Directive) : Leaves SameTypes (settle d) := by
  unfold settle
  grind

@[grind ←]
theorem leaves_checkWords (tok : Token) : Leaves SameTypes (checkWords tok) := by
  unfold checkWords
  grind

@[grind ←]
theorem leaves_settleStack (tok : Token) : Leaves SameTypes (settleStack tok) := by
  unfold settleStack
  refine leaves_get.bind fun s => ?_
  dsimp only
  split
  · refine (leaves_tokenAt _).bind fun _ => (leaves_reject _ _).bind fun _ => ?_
    split <;> grind
  · split <;> grind

theorem leaves_conclude (tok : Token) : Leaves SameTypes (conclude tok) := by
  refine leaves_get.bind fun s => ?_
  dsimp only
  split
  · exact (leaves_reject _ _).bind fun _ => (leaves_reduce 0).bind fun _ => leaves_settleStack tok
  · exact (leaves_reduce 0).bind fun _ => leaves_settleStack tok

theorem leaves_terms (i : Nat) (ts : List Token) : Leaves SameTypes (terms i ts) := by
  induction hn : ts.length using Nat.strong_induction_on generalizing i ts with
  | _ n ih =>
    cases ts with
    | nil => exact (leaves_get.bind fun _ => leaves_reject _ _)
    | cons tok rest =>
      obtain ⟨-, hterms⟩ | ⟨o, rest, rfl, -, -, hterms⟩ | ⟨-, -, hterms⟩ := terms_cons i tok rest
      · rw [hterms]
        exact leaves_conclude tok
      · rw [hterms]
        apply (leaves_pushEntry _ _).bind
        intro _
        exact ih rest.length (by simp at hn; omega) _ rest rfl
      · rw [hterms]
        apply (leaves_shift _ _).bind
        intro _
        exact ih rest.length (by simp at hn; omega) _ rest rfl

theorem leaves_openDeclaration (i : Nat) (ts : List Token) :
    Leaves SameTypes (openDeclaration i ts) := by
  unfold openDeclaration
  grind

theorem leaves_statement (i : Nat) (ts : List Token) : Leaves SameTypes (statement i ts) := by
  unfold statement
  grind [leaves_terms, leaves_openDeclaration]

theorem leaves_openBlock : Leaves SameTypes openBlock := fun _ => rfl

theorem leaves_closeBlock (tok : Token) : Leaves SameTypes (closeBlock tok) := by
  unfold closeBlock drop
  refine leaves_get.bind fun s => ?_
  split
  · refine leaves_get.bind fun t => (leaves_sound _).bind fun closed => ?_
    refine (leaves_setFrame closed.2).bind fun _ => ?_
    grind
  · grind

theorem leaves_endSource (tok : Token) : Leaves SameTypes (endSource tok) := by
  unfold endSource
  grind

end Statements

end OnePass.Build
