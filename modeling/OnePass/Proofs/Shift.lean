import Mathlib
import OnePass.Proofs.Execution
import OnePass.Proofs.Reductions

namespace OnePass

/-- From every core the code runs to its end and pushes `n` words more than it pops. -/
def Shifts (hosts : HostTable) (code : List Instr) (n : Int) : Prop :=
  ∀ c : Core, ∃ d : Core, (execute hosts code).run c = .ok () d ∧ d.sp = c.sp - word n

def Reg.scratch : Reg → Bool
  | .r0 | .r1 | .r2 => true
  | _ => false

@[simp] theorem Reg.scratch_r0 : Reg.r0.scratch = true := rfl

@[simp] theorem Reg.scratch_r1 : Reg.r1.scratch = true := rfl

@[simp] theorem Reg.scratch_r2 : Reg.r2.scratch = true := rfl

/-- Instructions that neither move `sp` nor trap. -/
def Instr.quiet : Instr → Bool
  | .movi _ | .addi _ | .subi _ => true
  | .mov dst src => dst.scratch && (src.scratch || src = .sp)
  | .alu _ dst src | .ldr dst src | .str dst src => dst.scratch && src.scratch
  | _ => false

/-- Operands of a statement are literals, in the frame, or on the evaluation stack. -/
def Operand.settled (o : Operand) : Bool :=
  match o.place with
  | .immediate _ | .frame _ | .stack => true
  | .register _ | .unknown _ => false

namespace Exec

variable {c : Core}

theorem run_getReg {r : Reg} (h : r.scratch ∨ r = .sp) : ∃ v, (getReg r).run c = .ok v c := by
  cases r <;> simp [Reg.scratch] at h <;> exact ⟨_, rfl⟩

theorem run_setReg {r : Reg} (h : r.scratch) (v : UInt16) :
    ∃ d : Core, (setReg r v).run c = .ok () d ∧ d.sp = c.sp := by
  cases r <;> simp [Reg.scratch] at h <;> exact ⟨_, rfl, rfl⟩

end Exec

section

variable {hosts : HostTable} {code code' : List Instr} {m n : Int}

theorem shifts_nil : Shifts hosts [] 0 := fun c => ⟨c, rfl, by simp [word]⟩

theorem Shifts.cast (h : Shifts hosts code m) (e : m = n) : Shifts hosts code n := e ▸ h

theorem Shifts.append (h : Shifts hosts code m) (h' : Shifts hosts code' n) :
    Shifts hosts (code ++ code') (m + n) := by
  intro c
  obtain ⟨d, hd, hsp⟩ := h c
  obtain ⟨e, he, hsp'⟩ := h' d
  refine ⟨e, execute_append_ok hd he, ?_⟩
  rw [hsp', hsp, word_add, sub_sub]

theorem Shifts.cons {i : Instr} (h : Shifts hosts [i] m) (h' : Shifts hosts code n) :
    Shifts hosts (i :: code) (m + n) :=
  h.append h'

theorem shifts_single {i : Instr}
    (h : ∀ c, ∃ d, (Exec.instr hosts i).run c = .ok () d ∧ d.sp = c.sp - word n) :
    Shifts hosts [i] n := by
  intro c
  obtain ⟨d, hd, hsp⟩ := h c
  exact ⟨d, execute_cons_ok hd rfl, hsp⟩

theorem shifts_quiet {i : Instr} (h : i.quiet) : Shifts hosts [i] 0 := by
  apply shifts_single
  intro c
  have hzero : c.sp - word 0 = c.sp := by simp [word]
  rw [hzero]
  -- every other instruction is not quiet
  cases i <;> simp only [Instr.quiet, Bool.and_eq_true, Bool.or_eq_true, decide_eq_true_eq,
    Bool.false_eq_true] at h
  case movi => exact ⟨_, rfl, rfl⟩
  case addi => exact ⟨_, rfl, rfl⟩
  case subi => exact ⟨_, rfl, rfl⟩
  case mov dst src =>
    obtain ⟨v, hv⟩ := Exec.run_getReg (c := c) h.2
    obtain ⟨d, hd, hsp⟩ := Exec.run_setReg (c := c) h.1 v
    exact ⟨d, by simp [Exec.instr, EStateM.run_bind, hv, hd], hsp⟩
  case alu op dst src =>
    obtain ⟨v, hv⟩ := Exec.run_getReg (c := c) (.inl h.1)
    obtain ⟨w, hw⟩ := Exec.run_getReg (c := c) (.inl h.2)
    obtain ⟨d, hd, hsp⟩ := Exec.run_setReg (c := c) h.1 (op.apply v w)
    exact ⟨d, by simp [Exec.instr, EStateM.run_bind, hv, hw, hd], hsp⟩
  case ldr dst addr =>
    obtain ⟨v, hv⟩ := Exec.run_getReg (c := c) (.inl h.2)
    obtain ⟨d, hd, hsp⟩ := Exec.run_setReg (c := c) h.1 (c.memory.read v)
    exact ⟨d, by simp [Exec.instr, EStateM.run_bind, hv, Exec.read, hd], hsp⟩
  case str addr src =>
    obtain ⟨v, hv⟩ := Exec.run_getReg (c := c) (.inl h.1)
    obtain ⟨w, hw⟩ := Exec.run_getReg (c := c) (.inl h.2)
    exact ⟨{ c with memory := c.memory.write v w },
      by simp [Exec.instr, EStateM.run_bind, hv, hw], rfl⟩

theorem shifts_of_quiet (h : ∀ i ∈ code, i.quiet) : Shifts hosts code 0 := by
  induction code with
  | nil => exact shifts_nil
  | cons i code ih =>
    have htail : Shifts hosts code 0 := ih fun j hj => h j (by simp [hj])
    exact ((shifts_quiet (h i (by simp))).cons htail).cast (zero_add 0)

theorem shifts_push {r : Reg} (h : r.scratch) : Shifts hosts [.push r] 1 := by
  apply shifts_single
  intro c
  obtain ⟨v, hv⟩ := Exec.run_getReg (c := c) (.inl h)
  exact ⟨{ c with sp := c.sp - 1, memory := c.memory.write (c.sp - 1) v },
    by simp [Exec.instr, EStateM.run_bind, hv], rfl⟩

theorem shifts_pop {r : Reg} (h : r.scratch) : Shifts hosts [.pop r] (-1) := by
  apply shifts_single
  intro c
  obtain ⟨d, hd, hsp⟩ := Exec.run_setReg (c := { c with sp := c.sp + 1 }) h (c.memory.read c.sp)
  refine ⟨d, by simp [Exec.instr, EStateM.run_bind, hd], ?_⟩
  rw [hsp, word_neg, sub_neg_eq_add]
  rfl

theorem shifts_drop (n : Int) : Shifts hosts [.mov .r0 .sp, .addi n, .mov .sp .r0] (-n) := by
  intro c
  refine ⟨_, rfl, ?_⟩
  rw [word_neg, sub_neg_eq_add]

theorem shifts_zeros (n : Int) : Shifts hosts (zerosCode n) n.toNat := by
  have hpush : ∀ k : Nat, Shifts hosts (List.replicate k (.push .r0)) k := by
    intro k
    induction k with
    | zero => exact shifts_nil
    | succ k ih =>
      have := (shifts_push (r := .r0) rfl).cons ih
      rwa [add_comm, ← Nat.cast_succ] at this
  have := (shifts_quiet (i := .movi 0) rfl).cons (hpush n.toNat)
  rwa [zero_add] at this

theorem shifts_call {name : String} {h : Host} (hname : hosts.lookup name = some h)
    (hfits : fitsInMemory 2 h.arity) : Shifts hosts [.call name] (1 - h.arity) := by
  apply shifts_single
  intro c
  have harity : UInt16.ofNat h.arity.toNat = word h.arity := by
    have hpos : 0 ≤ h.arity := by simp [fitsInMemory] at hfits; omega
    rw [← UInt16.toNat_inj]
    simp [word]
    omega
  refine ⟨_, Exec.run_call hname hfits, ?_⟩
  rw [word_sub, harity]
  exact (sub_sub_eq_add_sub c.sp 1 (word h.arity)).symm

theorem quiet_followCode {r : Reg} (hr : r.scratch) (n : Int) : ∀ i ∈ followCode r n, i.quiet := by
  intro i hi
  rw [List.eq_of_mem_replicate hi]
  simp [Instr.quiet, hr]

theorem quiet_reachCode (depth slot : Int) : ∀ i ∈ reachCode depth slot, i.quiet := by
  intro i hi
  simp only [reachCode, List.mem_cons, List.not_mem_nil, or_false] at hi
  rcases hi with rfl | rfl <;> rfl

theorem shifts_loadCode {o : Operand} {r : Reg} (ho : o.settled) (hr : r.scratch) (depth : Int) :
    Shifts hosts (o.loadCode depth r) (-o.held) := by
  have hfollow : Shifts hosts (followCode r o.derefs) 0 := shifts_of_quiet (quiet_followCode hr _)
  unfold Operand.loadCode Operand.held
  cases hp : o.place with
  | immediate n =>
    have hmov : ∀ i ∈ Instr.movi n :: (if r = .r0 then [] else [.mov r .r0]), i.quiet := by
      by_cases h : r = .r0 <;> simp [h, Instr.quiet, hr]
    exact ((shifts_of_quiet hmov).append hfollow).cast (by simp)
  | frame slot =>
    have hldr : Shifts hosts [.ldr r .r0] 0 := shifts_quiet (by simp [Instr.quiet, hr])
    exact (((shifts_of_quiet (quiet_reachCode depth slot)).append hldr).append hfollow).cast
      (by simp)
  | stack => exact ((shifts_pop hr).append hfollow).cast (by simp)
  | register q => simp [Operand.settled, hp] at ho
  | unknown n => simp [Operand.settled, hp] at ho

theorem shifts_locateCode {o : Operand} (ho : o.settled) (depth : Int) :
    Shifts hosts (o.locateCode depth) (-o.held) := by
  have hfollow (n : Int) : Shifts hosts (followCode .r0 n) 0 :=
    shifts_of_quiet (quiet_followCode rfl n)
  have hreach (slot : Int) : Shifts hosts (reachCode depth slot) 0 :=
    shifts_of_quiet (quiet_reachCode depth slot)
  unfold Operand.locateCode Operand.held
  cases hp : o.place with
  | immediate n => exact shifts_nil.cast (by simp)
  | frame slot =>
    dsimp only
    split
    · exact (hreach _).cast (by simp)
    · exact ((hreach _).append (hfollow _)).cast (by simp)
  | stack => exact ((shifts_pop rfl).cons (hfollow _)).cast (by simp)
  | register q => simp [Operand.settled, hp] at ho
  | unknown n => simp [Operand.settled, hp] at ho

theorem shifts_spillCode {o : Operand} (ho : o.settled) (depth : Int) :
    Shifts hosts (o.spillCode depth) (1 - o.held) := by
  have hpush : Shifts hosts (o.loadCode depth .r1 ++ [.push .r1]) (1 - o.held) :=
    ((shifts_loadCode ho rfl depth).append (shifts_push (r := .r1) rfl)).cast (neg_add_eq_sub _ _)
  unfold Operand.spillCode
  cases hp : o.place with
  | immediate n =>
    exact ((shifts_quiet rfl).cons (shifts_push (r := .r0) rfl)).cast (by simp [Operand.held, hp])
  | frame slot => exact hpush
  | stack =>
    dsimp only
    split
    · exact shifts_nil.cast (by simp [Operand.held, hp])
    · exact hpush
  | register q => simp [Operand.settled, hp] at ho
  | unknown n => simp [Operand.settled, hp] at ho

theorem shifts_combineCode {op : Alu} {l r : Operand} (hl : l.settled) (hr : r.settled)
    (depth : Int) : Shifts hosts (combineCode depth op l r) (1 - r.held - l.held) := by
  have hsplit {o : Operand} {q : Reg} (ho : o.settled) (hq : q.scratch) (d d' : Int) :
      Shifts hosts (if o.place = .stack then o.loadCode d q else []) (-o.held) ∧
        Shifts hosts (if o.place = .stack then [] else o.loadCode d' q) 0 := by
    by_cases hp : o.place = .stack
    · simp only [hp, if_true]
      exact ⟨shifts_loadCode ho hq d, shifts_nil⟩
    · simp only [hp, if_false]
      have hheld : o.held = 0 := by simp [Operand.held, hp]
      exact ⟨shifts_nil.cast (by simp [hheld]), (shifts_loadCode ho hq d').cast (by simp [hheld])⟩
  have hop : Shifts hosts [.alu op .r1 .r2] 0 := shifts_quiet rfl
  obtain ⟨hr₁, hr₂⟩ := hsplit (q := .r2) hr rfl depth (depth - r.held - l.held)
  obtain ⟨hl₁, hl₂⟩ := hsplit (q := .r1) hl rfl (depth - r.held) (depth - r.held - l.held)
  exact ((((hr₁.append hl₁).append hr₂).append hl₂).append
    (hop.cons (shifts_push (r := .r1) rfl))).cast (by ring)

theorem shifts_storeCode {l r : Operand} (hl : l.settled) (hr : r.settled) (depth : Int) :
    Shifts hosts (Operand.storeCode depth l r) (-r.held - l.held) :=
  (((shifts_loadCode (r := .r1) hr rfl depth).append (shifts_locateCode hl (depth - r.held))).append
    (shifts_quiet (i := .str .r0 .r1) rfl)).cast (by ring)

end

end OnePass
