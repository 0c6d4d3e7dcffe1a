import Mathlib
import OnePass.Proofs.Rules

namespace OnePass

namespace Operand

/-- The type of an arithmetic result, where both operands are scalar and agree. -/
def combined (l r : Operand) : Option Ty := if l.scalar && r.scalar then l.joined r else none

def addressable (o : Operand) : Bool :=
  match o.place with
  | .frame _ => true
  | .stack => 0 < o.derefs
  | _ => false

/-- Whether the value of `r` may be stored in `l`. -/
def assignable (l r : Operand) : Bool :=
  l.addressable && l.scalar && r.scalar && r.suits l.type

/-- The type of a variable declared as `declared` with `o` as its value. -/
def initializes (o : Operand) (declared : Ty) : Option Ty :=
  if o.scalar then (declared.initial o.type).filter fun t => holds (o.fits t) else none

/-- Code that stores the value of `r` in `l`. -/
def storeCode (depth : Int) (l r : Operand) : List Instr :=
  r.loadCode depth .r1 ++ l.locateCode (depth - r.held) ++ [.str .r0 .r1]

/-- An operand on the evaluation stack, once it has been popped to `r`. -/
def popped (o : Operand) (r : Reg) : Operand :=
  if o.place = .stack then { o with derefs := 0, place := .register r } else o

theorem held_nonneg (o : Operand) : 0 ≤ o.held := by
  unfold held
  split <;> decide

theorem held_popped (o : Operand) (r : Reg) : (o.popped r).held = 0 := by
  unfold popped held
  by_cases h : o.place = .stack <;> simp [h]

theorem loadCode_popped (o : Operand) (depth : Int) (r : Reg) :
    (o.popped r).loadCode depth r = if o.place = .stack then [] else o.loadCode depth r := by
  by_cases h : o.place = .stack <;> simp [h, popped, loadCode, followCode]

end Operand

def zerosCode (n : Int) : List Instr := .movi 0 :: List.replicate n.toNat (.push .r0)

/-- Whether `address` lies before the end of the last visible variable. -/
def Frame.covers (f : Frame) (address : Int) : Bool :=
  match f.visible with
  | [] => false
  | last :: _ => address < wrap (last.address + last.type.words)

theorem Frame.liveWords_eq {f : Frame} (h : ∀ v ∈ f.vars, v.type.base.isSome) :
    f.liveWords = .ok (wrap (f.live.map (·.type.words)).sum) := by
  have hsizes (vs : List Variable) (hvs : ∀ v ∈ vs, v.type.base.isSome) :
      vs.mapM Variable.size = .ok (vs.map (·.type.words)) := by
    induction vs with
    | nil => rfl
    | cons v vs ih =>
      rw [List.mapM_cons, Variable.size, Ty.size_eq (hvs v (by simp)),
        ih fun u hu => hvs u (by simp [hu])]
      rfl
  rw [liveWords, hsizes]
  · rfl
  · intro v hv
    exact h v (List.mem_filter.1 (List.mem_reverse.1 hv)).1

def Session.declared (s : Session) (name : Token) (type : Ty) (address : Int) : Session :=
  { s with
    frame := (s.frame.add name.name name.line type address).2
    trace := s.trace.push (.declare type name.name address) }

namespace Build

variable {s : Session}

def popOperand (o : Operand) (r : Reg) : Build Operand :=
  if o.place = .stack then load o r else pure o

def emitCombine (kind : DirectiveKind) (l r : Operand) : Build Unit := do
  let right ← popOperand r .r2
  let left ← popOperand l .r1
  let _ ← load right .r2
  let _ ← load left .r1
  emit [arithmetic kind]
  push .r1

theorem combine_eq (kind : DirectiveKind) (op : Token) (lhs rhs : Directive) :
    combine kind op lhs rhs = do
      requireScalar lhs
      requireScalar rhs
      let like ← adopt kind op lhs rhs
      emitCombine kind lhs.operand rhs.operand
      return result like.tok like.operand.type := by
  unfold combine emitCombine popOperand
  by_cases hl : lhs.operand.place = .stack <;> by_cases hr : rhs.operand.place = .stack <;>
    simp [hl, hr]

theorem run_popOperand {o : Operand} (r : Reg) (hi : o.held ≤ s.frame.depth)
    (hlt : s.frame.depth < 2 ^ 63) :
    (popOperand o r).run s = .ok (o.popped r)
      (s.emitted (if o.place = .stack then o.loadCode s.frame.depth r else [])
        (s.frame.depth - o.held)) := by
  by_cases hs : o.place = .stack
  · simp [popOperand, hs, run_load_of_lt r hi hlt, Operand.popped]
  · simp [popOperand, hs, Operand.popped, Operand.held]

theorem run_load_popped {o : Operand} (r : Reg) (hi : 0 ≤ s.frame.depth)
    (hlt : s.frame.depth < 2 ^ 63) :
    (load (o.popped r) r).run s = .ok { o with derefs := 0, place := .register r }
      (s.emitted (if o.place = .stack then [] else o.loadCode s.frame.depth r)
        s.frame.depth) := by
  have hheld := o.held_popped r
  rw [run_load_of_lt r (hheld ▸ hi) hlt, hheld, Operand.loadCode_popped, Int.sub_zero]
  congr 1
  unfold Operand.popped
  split <;> rfl

theorem run_emitCombine_of_lt {kind : DirectiveKind} {alu : Alu} {l r : Operand}
    (hk : kind.alu? = some alu) (hi : r.held + l.held ≤ s.frame.depth)
    (hlt : s.frame.depth < 2 ^ 63) :
    (emitCombine kind l r).run s = .ok () (s.emitted (combineCode s.frame.depth alu l r)
      (wrap (s.frame.depth - r.held - l.held + 1))) := by
  have hl := l.held_nonneg
  have hr := r.held_nonneg
  have hinstr : arithmetic kind = .alu alu .r1 .r2 := by simp [arithmetic, hk]
  have hlt₁ : s.frame.depth - r.held < 2 ^ 63 := by omega
  have hlt₂ : s.frame.depth - r.held - l.held < 2 ^ 63 := by omega
  have hi₂ : 0 ≤ s.frame.depth - r.held - l.held := by omega
  unfold emitCombine
  rw [run_bind_ok (run_popOperand .r2 (by omega) hlt),
    run_bind_ok (run_popOperand (s := s.emitted _ _) .r1 (by simp; omega) hlt₁)]
  simp only [Session.emitted_emitted, Session.emitted_frame]
  rw [run_bind_ok (run_load_popped (s := s.emitted _ _) .r2 hi₂ hlt₂)]
  simp only [Session.emitted_emitted, Session.emitted_frame]
  rw [run_bind_ok (run_load_popped (s := s.emitted _ _) .r1 hi₂ hlt₂), run_bind_ok (run_emit _)]
  simp only [Session.emitted_emitted, Session.emitted_frame]
  rw [run_push_wrap]
  simp [combineCode, hinstr]

theorem run_emitCombine {kind : DirectiveKind} {alu : Alu} {l r : Operand}
    (hk : kind.alu? = some alu) (h : InRange s.frame.depth)
    (hi : r.held + l.held ≤ s.frame.depth) :
    (emitCombine kind l r).run s = .ok () (s.emitted (combineCode s.frame.depth alu l r)
      (s.frame.depth - r.held - l.held + 1)) := by
  have hl := l.held_nonneg
  have hrange : InRange (s.frame.depth - r.held - l.held) :=
    (h.sub_held (by omega)).sub_held (by omega)
  rw [run_emitCombine_of_lt hk hi h.lt, hrange.wrap_eq (by omega) (by omega)]

theorem length_top_replaced (d e : Directive) (rest : List Directive) :
    (d :: rest).length ≤ (e :: rest).length := le_rfl

/-- The branch of a reduction that the arithmetic operators share. -/
def reduceArithmetic (kind : DirectiveKind) (tok : Token) (lhs rhs : Directive)
    (rest : List Directive) :
    Build { stack : List Directive // stack.length ≤ (lhs :: rest).length } :=
  if lhs.kind = .declaration then reject tok.line (.declarationAsOperand kind)
  else do
    let value ← combine kind tok lhs rhs
    return ⟨value :: rest, length_top_replaced value lhs rest⟩

theorem run_combine_of_lt {kind : DirectiveKind} {alu : Alu} {lhs rhs : Directive} (op : Token)
    (hk : kind.alu? = some alu) (hl : lhs.operand.type.base.isSome)
    (hr : rhs.operand.type.base.isSome)
    (hi : rhs.operand.held + lhs.operand.held ≤ s.frame.depth) (hlt : s.frame.depth < 2 ^ 63) :
    match lhs.operand.combined rhs.operand with
    | some t => ∃ tok, (combine kind op lhs rhs).run s = .ok (result tok t)
        (s.emitted (combineCode s.frame.depth alu lhs.operand rhs.operand)
          (wrap (s.frame.depth - rhs.operand.held - lhs.operand.held + 1)))
    | none => ∃ d, (combine kind op lhs rhs).run s = .error (.reject d) s := by
  have hsl := checks_requireScalar (s := s) hl
  have hsr := checks_requireScalar (s := s) hr
  have hadopt := run_adopt (s := s) kind op hl hr
  rw [combine_eq, Operand.combined]
  -- the checks in the order in which they are made: left, right, then both
  cases hcl : lhs.operand.scalar <;> rw [hcl] at hsl
  · obtain ⟨d, hd⟩ := hsl
    exact ⟨d, by rw [EStateM.run_bind, hd]⟩
  cases hcr : rhs.operand.scalar <;> rw [hcr] at hsr
  · obtain ⟨d, hd⟩ := hsr
    exact ⟨d, by rw [run_bind_ok hsl, EStateM.run_bind, hd]⟩
  rw [run_bind_ok hsl, run_bind_ok hsr]
  simp only [Bool.and_self, if_true]
  cases hj : lhs.operand.joined rhs.operand with
  | none =>
    rw [hj] at hadopt
    obtain ⟨d, hd⟩ := hadopt
    exact ⟨d, by rw [EStateM.run_bind, hd]⟩
  | some t =>
    rw [hj] at hadopt
    obtain ⟨like, hlike, rfl⟩ := hadopt
    exact ⟨like.tok, by rw [run_bind_ok hlike, run_bind_ok (run_emitCombine_of_lt hk hi hlt)]; rfl⟩

theorem run_combine {kind : DirectiveKind} {alu : Alu} {lhs rhs : Directive} (op : Token)
    (hk : kind.alu? = some alu) (h : InRange s.frame.depth) (hl : lhs.operand.type.base.isSome)
    (hr : rhs.operand.type.base.isSome)
    (hi : rhs.operand.held + lhs.operand.held ≤ s.frame.depth) :
    match lhs.operand.combined rhs.operand with
    | some t => ∃ tok, (combine kind op lhs rhs).run s = .ok (result tok t)
        (s.emitted (combineCode s.frame.depth alu lhs.operand rhs.operand)
          (s.frame.depth - rhs.operand.held - lhs.operand.held + 1))
    | none => ∃ d, (combine kind op lhs rhs).run s = .error (.reject d) s := by
  have hheld := lhs.operand.held_nonneg
  have hrange : InRange (s.frame.depth - rhs.operand.held - lhs.operand.held) :=
    (h.sub_held (by omega)).sub_held (by omega)
  have hrun := run_combine_of_lt op hk hl hr hi h.lt
  rwa [hrange.wrap_eq (by omega) (by omega)] at hrun

theorem hasAddress_eq {d : Directive} (h : d.kind = .value) :
    d.hasAddress = d.operand.addressable := by
  unfold Directive.hasAddress Operand.addressable
  rw [h]
  cases d.operand.place <;> rfl

/-- The address of an operand takes its place on the evaluation stack. -/
theorem run_takeAddress {d : Directive} (op : Token) (hk : d.kind = .value)
    (h : InRange s.frame.depth) (hi : d.operand.held ≤ s.frame.depth)
    (ht : d.operand.type.base.isSome) :
    if d.operand.addressable then
      (takeAddress op d).run s = .ok
        (result d.tok { d.operand.type with depth := wrap (d.operand.type.depth + 1) })
        (s.emitted (d.operand.locateCode s.frame.depth ++ [.push .r0])
          (s.frame.depth - d.operand.held + 1))
    else ∃ r, (takeAddress op d).run s = .error (.reject r) s := by
  unfold takeAddress
  rw [hasAddress_eq hk]
  cases d.operand.addressable with
  | false => exact ⟨_, rfl⟩
  | true =>
    simp only [if_true]
    rw [run_bind_ok (run_locate h hi ht),
      run_bind_ok (run_push (s := s.emitted _ _) .r0 (h.sub_held hi))]
    simp

def checkStore (op : Token) (lhs rhs : Directive) : Build Unit := do
  unless lhs.hasAddress do reject op.line .notAssignable
  requireScalar lhs
  requireScalar rhs
  unless ← sound (lhs.operand.type.accepts rhs.operand.type) do
    reject op.line (.cannotAssign lhs.operand.type rhs.operand.type)
  requireRange op.line lhs.operand.type rhs.operand

def emitStore (l r : Operand) : Build Unit := do
  let _ ← load r .r1
  locate l
  emit [.str .r0 .r1]

theorem store_eq (op : Token) (lhs rhs : Directive) :
    store op lhs rhs = checkStore op lhs rhs >>= fun _ => emitStore lhs.operand rhs.operand := by
  unfold store checkStore emitStore
  cases lhs.hasAddress with
  | false => rfl
  | true =>
    simp only [if_true, bind_assoc]
    congr; funext _; congr; funext _; congr; funext accepted
    cases accepted <;> rfl

theorem checks_checkStore {lhs rhs : Directive} (op : Token) (hk : lhs.kind = .value)
    (hl : lhs.operand.type.base.isSome) (hr : rhs.operand.type.base.isSome) :
    Checks (checkStore op lhs rhs) s (rule (lhs.operand.assignable rhs.operand)) := by
  have hsuits : Checks (do
      unless ← sound (lhs.operand.type.accepts rhs.operand.type) do
        reject op.line (.cannotAssign lhs.operand.type rhs.operand.type)
      requireRange op.line lhs.operand.type rhs.operand) s
      (rule (rhs.operand.suits lhs.operand.type)) := by
    have := checks_suits (s := s) op.line (.cannotAssign lhs.operand.type rhs.operand.type) () hr hl
    simpa [rule] using this
  have h := (checks_unless (s := s) lhs.hasAddress op.line .notAssignable).bind fun _ =>
    (checks_requireScalar hl).bind fun _ => (checks_requireScalar hr).bind fun _ => hsuits
  simp only [rule_bind, hasAddress_eq hk, ← Bool.and_assoc] at h
  unfold checkStore
  rw [hasAddress_eq hk]
  cases ha : lhs.operand.addressable <;> rw [ha] at h <;> simp only [Operand.assignable, ha] <;>
    exact h

theorem run_emitStore {l r : Operand} (h : InRange s.frame.depth) (hl : l.type.base.isSome)
    (hi : r.held + l.held ≤ s.frame.depth) :
    (emitStore l r).run s = .ok () (s.emitted (Operand.storeCode s.frame.depth l r)
      (s.frame.depth - r.held - l.held)) := by
  have hheld := l.held_nonneg
  have hrange : InRange (s.frame.depth - r.held) := h.sub_held (by omega)
  unfold emitStore
  rw [run_bind_ok (run_load .r1 h (by omega)),
    run_bind_ok (run_locate (s := s.emitted _ _) hrange (by simp; omega) hl)]
  simp [Operand.storeCode]

/-- A store leaves neither operand on the evaluation stack. -/
theorem run_store {lhs rhs : Directive} (op : Token) (hk : lhs.kind = .value)
    (h : InRange s.frame.depth) (hl : lhs.operand.type.base.isSome)
    (hr : rhs.operand.type.base.isSome)
    (hi : rhs.operand.held + lhs.operand.held ≤ s.frame.depth) :
    if lhs.operand.assignable rhs.operand then
      (store op lhs rhs).run s = .ok ()
        (s.emitted (Operand.storeCode s.frame.depth lhs.operand rhs.operand)
          (s.frame.depth - rhs.operand.held - lhs.operand.held))
    else ∃ d, (store op lhs rhs).run s = .error (.reject d) s := by
  rw [store_eq, ← run_emitStore h hl hi]
  exact (checks_checkStore op hk hl hr).run_bind _

theorem run_declare (hv : ∀ v ∈ s.frame.vars, v.type.base.isSome) (name : Token) (type : Ty)
    (address : Int) :
    if s.frame.covers address then ∃ d, (declare name type address).run s = .error (.reject d) s
    else (declare name type address).run s = .ok () (s.declared name type address) := by
  unfold declare Frame.declare Frame.overlap? Frame.covers
  cases hvis : s.frame.visible with
  | nil => simp [EStateM.run_bind, hvis, Except.map, Frame.add, note, Session.declared]
  | cons last rest =>
    have hlast : last ∈ s.frame.vars := by
      have : last ∈ s.frame.visible := by simp [hvis]
      exact (List.mem_filter.1 this).1
    by_cases ha : address < wrap (last.address + last.type.words)
    · simp [EStateM.run_bind, hvis, Variable.size, Ty.size_eq (hv last hlast), Except.map, ha,
        reject]
    · simp [EStateM.run_bind, hvis, Variable.size, Ty.size_eq (hv last hlast), Except.map, ha,
        Frame.add, note, Session.declared]

/-- A declaration with a value leaves the value's word where the variable is then declared. -/
theorem run_define {value : Directive} (decl : Directive) (h : InRange s.frame.depth)
    (hv : value.operand.type.base.isSome) (hi : value.operand.held ≤ s.frame.depth) :
    match value.operand.initializes decl.operand.type with
    | some t => (define decl value).run s =
        (declare (s.token decl.tok) t (s.frame.depth - value.operand.held)).run
          (s.emitted (value.operand.spillCode s.frame.depth)
            (s.frame.depth - value.operand.held + 1))
    | none => ∃ d, (define decl value).run s = .error (.reject d) s := by
  have hscalar := checks_requireScalar (s := s) hv
  have hinit := checks_initialType (s := s) (s.token decl.tok) decl.operand.type hv
  unfold define Operand.initializes
  rw [run_bind_ok (run_tokenAt decl.tok)]
  cases hs : value.operand.scalar <;> rw [hs] at hscalar
  · obtain ⟨d, hd⟩ := hscalar
    exact ⟨d, by rw [EStateM.run_bind, hd]⟩
  rw [run_bind_ok hscalar, if_pos rfl]
  cases ht : decl.operand.type.initial value.operand.type with
  | none =>
    rw [ht] at hinit
    obtain ⟨d, hd⟩ := hinit
    exact ⟨d, by rw [EStateM.run_bind, hd]⟩
  | some t =>
    rw [ht] at hinit
    have hfit := checks_requireRange (s := s) (s.token decl.tok).line hv (Ty.initial_base hv ht)
    rw [run_bind_ok hinit]
    cases hf : holds (value.operand.fits t) <;> rw [hf] at hfit
    · obtain ⟨d, hd⟩ := hfit
      simp only [Option.filter, hf]
      exact ⟨d, by rw [EStateM.run_bind, hd]⟩
    · obtain ⟨h₀, h₁⟩ := h.sub_held hi
      have hw : wrap (s.frame.depth - value.operand.held) = s.frame.depth - value.operand.held :=
        wrap_eq_self (by omega) (by omega)
      -- only the depth is left to compute: it does not wrap, as the value was on the stack
      simp only [Option.filter, hf, if_true]
      rw [run_bind_ok hfit, run_bind_ok (run_spill h hi), EStateM.run_bind, EStateM.run_get]
      simp [hw]

theorem run_zeros (n : Int) :
    (zeros n).run s = .ok () (s.emitted (zerosCode n) (wrap (s.frame.depth + n.toNat))) := by
  simp [zeros, EStateM.run_bind, grow, Frame.push, Session.emitted, zerosCode]

theorem run_call (name : String) (args : Int) (h : InRange s.frame.depth) (lo : 0 ≤ args)
    (hi : args ≤ s.frame.depth) :
    (call name args).run s = .ok () (s.emitted [.call name] (s.frame.depth - args + 1)) := by
  have hrange : InRange (s.frame.depth - args) := by
    obtain ⟨h₀, h₁⟩ := h
    exact ⟨by omega, by omega⟩
  unfold call
  rw [run_bind_ok (run_emit _), run_bind_ok (run_shrink (s := s.emitted _ _) h lo hi)]
  simp only [Session.emitted_emitted, Session.emitted_frame]
  rw [run_grow (s := s.emitted _ _) hrange (by omega) (by omega)]
  simp

end Build

end OnePass
