import Mathlib
import OnePass.Proofs.Preservation

namespace OnePass

/-- The words that an instruction pushes, less those that it pops. -/
def Instr.pushes (hosts : HostTable) : Instr → Int
  | .push _ => 1
  | .pop _ => -1
  | .call f => 1 - (hosts.lookup f).elim 0 (·.arity)
  | _ => 0

/-- The words that code leaves on the stack. -/
def height (hosts : HostTable) (code : List Instr) : Int := (code.map (·.pushes hosts)).sum

/-- From `depth` words on, the stack never has more words than there are addresses. -/
def Shallow (hosts : HostTable) (depth : Int) (code : List Instr) : Prop :=
  ∀ part, part <+: code → depth + height hosts part ≤ 65536

variable {hosts : HostTable} {depth : Int} {code code' : List Instr}

@[simp] theorem height_nil : height hosts [] = 0 := rfl

@[simp] theorem height_cons (i : Instr) :
    height hosts (i :: code) = i.pushes hosts + height hosts code := by
  simp [height]

@[simp] theorem height_append :
    height hosts (code ++ code') = height hosts code + height hosts code' := by
  simp [height]

@[simp] theorem height_replicate (n : Nat) (i : Instr) :
    height hosts (List.replicate n i) = n * i.pushes hosts := by
  simp [height]

namespace Shallow

theorem le (h : Shallow hosts depth code) : depth + height hosts code ≤ 65536 :=
  h code (List.prefix_refl _)

theorem left (h : Shallow hosts depth (code ++ code')) : Shallow hosts depth code :=
  fun part hpart => h part (hpart.trans (List.prefix_append _ _))

theorem right (h : Shallow hosts depth (code ++ code')) :
    Shallow hosts (depth + height hosts code) code' := by
  intro part hpart
  have := h (code ++ part) ((List.prefix_append_right_inj code).2 hpart)
  rw [height_append] at this
  omega

end Shallow

namespace Operand

variable (o : Operand)

theorem height_loadCode (depth : Int) (r : Reg) :
    height hosts (o.loadCode depth r) = -o.held := by
  cases hp : o.place with
  | immediate n => by_cases hr : r = .r0 <;> simp [loadCode, followCode, held, hp, hr, Instr.pushes]
  | register q => by_cases hr : q = r <;> simp [loadCode, followCode, held, hp, hr, Instr.pushes]
  | _ => simp [loadCode, reachCode, followCode, held, hp, Instr.pushes]

theorem height_locateCode (depth : Int) : height hosts (o.locateCode depth) = -o.held := by
  cases hp : o.place with
  | frame slot =>
    by_cases hd : o.derefs = 0 <;>
      simp [locateCode, reachCode, followCode, held, hp, hd, Instr.pushes]
  | _ => simp [locateCode, followCode, held, hp, Instr.pushes]

theorem height_spillCode (depth : Int) : height hosts (o.spillCode depth) = 1 - o.held := by
  have hpush : height hosts (o.loadCode depth .r1 ++ [.push .r1]) = 1 - o.held := by
    simp only [height_append, height_loadCode, height_cons, Instr.pushes, height_nil]
    omega
  cases hp : o.place with
  | stack =>
    by_cases hd : o.derefs = 0
    · simp [spillCode, held, hp, hd]
    · rw [spillCode, hp]
      exact (congrArg _ (if_neg hd)).trans hpush
  | immediate n => simp [spillCode, held, hp, Instr.pushes]
  | _ =>
    rw [spillCode, hp]
    exact hpush

theorem height_combineCode (depth : Int) (op : Alu) (l r : Operand) :
    height hosts (combineCode depth op l r) = 1 - l.held - r.held := by
  by_cases hl : l.place = .stack <;> by_cases hr : r.place = .stack <;>
    simp [combineCode, hl, hr, height_loadCode, Instr.pushes] <;> omega

end Operand

namespace Expr

variable {f : Frame}

mutual

/-- The code of an expression leaves what its operand holds. -/
theorem height_code : ∀ (e : Expr) {o : Operand} (depth : Int), e.operand f = some o →
    e.callable hosts → height hosts (e.code f depth) = o.held
  | .literal n, o, depth, ho, _ => by
    simp only [operand, Option.ite_none_right_eq_some, Option.some.injEq] at ho
    obtain ⟨-, rfl⟩ := ho
    simp [code, Operand.held]
  | .name x, o, depth, ho, _ => by
    simp only [operand, Option.map_eq_some_iff] at ho
    obtain ⟨v, -, rfl⟩ := ho
    simp [code, Operand.held]
  | .call g args, o, depth, ho, hcalls => by
    simp only [operand, Option.ite_none_right_eq_some, Option.some.injEq] at ho
    obtain ⟨hscalars, rfl⟩ := ho
    simp only [callable, Bool.and_eq_true, Option.any_eq_true, decide_eq_true_eq] at hcalls
    obtain ⟨⟨h, hname, harity⟩, hargs⟩ := hcalls
    simp [code, height_argsCode args depth hscalars hargs, Instr.pushes, hname, harity,
      Operand.held]
  | .binary op l r, o, depth, ho, hcalls => by
    simp only [operand, Option.bind_eq_some_iff, Option.map_eq_some_iff] at ho
    obtain ⟨lo, hlo, ro, hro, type, -, rfl⟩ := ho
    simp only [callable, Bool.and_eq_true] at hcalls
    have hone : Operand.held { type, place := .stack } = 1 := rfl
    -- what the operands hold is used up, and one word is left
    simp only [code, height_append, height_code l depth hlo hcalls.1, height_code r _ hro hcalls.2,
      result_eq hlo, result_eq hro, Operand.height_combineCode, hone]
    ring
  | .deref e, o, depth, ho, hcalls => by
    simp only [operand, Option.bind_eq_some_iff] at ho
    obtain ⟨o', ho', hp⟩ := ho
    simp only [callable] at hcalls
    simp only [Operand.pointee, Option.ite_none_left_eq_some, Option.some.injEq] at hp
    rw [code, height_code e depth ho' hcalls, ← hp.2]
    rfl
  | .addressOf e, o, depth, ho, hcalls => by
    simp only [operand, Option.bind_eq_some_iff, Option.ite_none_right_eq_some,
      Option.some.injEq] at ho
    obtain ⟨o', ho', -, rfl⟩ := ho
    simp only [callable] at hcalls
    simp [code, height_code e depth ho' hcalls, result_eq ho', Operand.height_locateCode,
      Instr.pushes, Operand.held]

theorem height_argsCode : ∀ (args : List Expr) (depth : Int), scalars f args →
    callableArgs hosts args → height hosts (argsCode f depth args) = args.length
  | [], depth, _, _ => by simp [argsCode]
  | e :: args, depth, hscalars, hcalls => by
    simp only [scalars, Bool.and_eq_true] at hscalars
    simp only [callableArgs, Bool.and_eq_true] at hcalls
    cases ho : e.operand f with
    | none => simp [ho] at hscalars
    | some o =>
      simp only [argsCode, height_append, height_code e depth ho hcalls.1, result_eq ho,
        Operand.height_spillCode, height_argsCode args (depth + 1) hscalars.2 hcalls.2,
        List.length_cons]
      push_cast
      ring

end

end Expr

/-- A statement leaves on the stack the words of the variable that it declares. -/
theorem Stmt.height_code {s : Session} {g : Frame} {stmt : Stmt} (hs : s.Roomy)
    (h : stmt.frame s.types s.frame = some g) (hcalls : ∀ e ∈ stmt.exprs, e.callable hosts) :
    totalWords g.visible =
      totalWords s.frame.visible + height hosts (stmt.code s.types s.frame) := by
  have htiled := hs.orderly.tiled
  have hextend (d : Decl) (t : Ty) :
      totalWords (s.frame.extend d t).visible = totalWords s.frame.visible + t.words := by
    rw [Frame.visible_extend htiled.scope_open, totalWords_cons, add_comm]
  cases Stmt.keeps_of_frame h with
  | empty => simp [Stmt.code]
  | @expr e o ho hd =>
    simp only [Stmt.exprs, List.forall_mem_singleton] at hcalls
    -- what the operand holds is taken off again
    have hdiscard : height hosts (o.discardCode (s.frame.depth + o.held)) = -o.held := by
      unfold Operand.discardCode
      split
      · exact o.height_loadCode _ _
      · by_cases hstack : o.place = .stack <;> simp [hstack, Operand.held, Instr.pushes]
    rw [Stmt.code, Expr.result_eq ho, height_append, Expr.height_code e _ ho hcalls, hdiscard]
    ring
  | @assign l r lo ro hlo hro ha =>
    simp only [Stmt.exprs, List.forall_mem_cons, List.not_mem_nil, false_implies, implies_true,
      and_true] at hcalls
    simp only [Stmt.code, Operand.storeCode, Expr.result_eq hlo, Expr.result_eq hro, height_append,
      Expr.height_code l _ hlo hcalls.1, Expr.height_code r _ hro hcalls.2, Operand.height_loadCode,
      Operand.height_locateCode, height_cons, Instr.pushes, height_nil]
    ring
  | @var d t hd hpos =>
    rw [hextend, Stmt.code, hd, Option.getD_some, zerosCode, height_cons, height_replicate,
      Int.toNat_of_nonneg hpos.le]
    simp [Instr.pushes]
  | @varValue d e o t t' hd ho hinit =>
    simp only [Stmt.exprs, List.forall_mem_singleton] at hcalls
    rw [hextend, Decl.words_initialized hs.orderly.types htiled hd ho hinit, Stmt.code,
      Expr.result_eq ho, height_append, Expr.height_code e _ ho hcalls, Operand.height_spillCode]
    ring

end OnePass
