import Mathlib
import OnePass.Machine.Cpu

namespace OnePass

/-- Carries out a list of instructions in order. -/
def execute (hosts : HostTable) : List Instr → Exec Unit
  | [] => pure ()
  | i :: code => do
    Exec.instr hosts i
    execute hosts code

theorem word_add (m n : Int) : word (m + n) = word m + word n := by
  unfold word
  rw [← UInt16.toNat_inj]
  simp only [UInt16.toNat_add, UInt16.toNat_ofNat']
  omega

theorem word_neg (n : Int) : word (-n) = -word n := by
  have h := word_add (-n) n
  rw [neg_add_cancel] at h
  exact eq_neg_of_add_eq_zero_left h.symm

theorem word_sub (m n : Int) : word (m - n) = word m - word n := by
  rw [sub_eq_add_neg, word_add, word_neg, sub_eq_add_neg]

variable {hosts : HostTable} {code : List Instr} {c d e : Core}

theorem execute_append (code code' : List Instr) :
    execute hosts (code ++ code') = execute hosts code >>= fun _ => execute hosts code' := by
  induction code with
  | nil => rfl
  | cons i code ih => simp [execute, ih]

theorem execute_append_ok {code' : List Instr} (h : (execute hosts code).run c = .ok () d)
    (h' : (execute hosts code').run d = .ok () e) :
    (execute hosts (code ++ code')).run c = .ok () e := by
  rw [execute_append, EStateM.run_bind, h]
  exact h'

theorem execute_cons_ok {i : Instr} (h : (Exec.instr hosts i).run c = .ok () d)
    (h' : (execute hosts code).run d = .ok () e) :
    (execute hosts (i :: code)).run c = .ok () e := by
  rw [execute, EStateM.run_bind, h]
  exact h'

namespace Exec

@[simp] theorem run_write (a v : UInt16) :
    (write a v).run c = .ok () { c with memory := c.memory.write a v } := rfl

@[simp] theorem run_push (v : UInt16) :
    (push v).run c =
      .ok () { c with sp := c.sp - 1, memory := c.memory.write (c.sp - 1) v } := rfl

@[simp] theorem run_pop :
    pop.run c = .ok (c.memory.read c.sp) { c with sp := c.sp + 1 } := rfl

theorem run_popArgs (k : Nat) (above : List UInt16) (c : Core) :
    (popArgs k above).run c =
      .ok ((List.range k).reverse.map (fun i => c.memory.read (c.sp + UInt16.ofNat i)) ++ above)
        { c with sp := c.sp + UInt16.ofNat k } := by
  induction k generalizing above c with
  | zero => simp [popArgs]
  | succ k ih =>
    have hword (i : Nat) : c.sp + 1 + UInt16.ofNat i = c.sp + UInt16.ofNat (i + 1) := by
      simp [add_assoc, add_comm]
    rw [popArgs, EStateM.run_bind, run_pop]
    simp only [ih, hword, List.range_succ_eq_map]
    simp [Function.comp_def]

theorem run_call {name : String} {h : Host} (hname : hosts.lookup name = some h)
    (hfits : fitsInMemory 2 h.arity) :
    let args := (List.range h.arity.toNat).reverse.map fun i =>
      c.memory.read (c.sp + UInt16.ofNat i)
    let sp := c.sp + UInt16.ofNat h.arity.toNat - 1
    (call hosts name).run c = .ok () { c with
      sp
      memory := c.memory.write sp (h.apply args)
      calls := c.calls.push ⟨name, args⟩ } := by
  simp [call, hname, hfits, EStateM.run_bind, run_popArgs]

end Exec

namespace Cpu

variable {max : Int} {cpu next : Cpu}

theorem run_of_step (hrun : cpu.halted = false) (hmax : cpu.steps < max)
    (h : cpu.step = .ok () next) : cpu.run max = next.run max := by
  rw [run, dif_neg (by simp [hrun]), if_neg (by omega)]
  split
  · rename_i d hd
    rw [h] at hd
    simp only [EStateM.Result.ok.injEq, true_and] at hd
    rw [hd]
  · rename_i hd
    rw [h] at hd
    cases hd

theorem step_of_instr {k : Nat} {line : ProgramLine} (hrun : cpu.halted = false) (hpc : cpu.pc = k)
    (hline : cpu.program[k]? = some line)
    (h : (Exec.instr cpu.hosts line.instr).run cpu.core = .ok () c) :
    cpu.step = .ok () { cpu with core := c, pc := (k + 1 : Nat), steps := cpu.steps + 1 } := by
  obtain ⟨core, pc, steps, halted, program, hosts⟩ := cpu
  obtain ⟨instr, number, text⟩ := line
  simp only at hrun hpc hline h
  subst hrun hpc
  have hlt : k < program.size := (Array.getElem?_eq_some_iff.1 hline).1
  have hle : ¬ (program.size : Int) ≤ k := by omega
  have hpos : decide ((k : Int) < 0) = false := by simp
  rw [EStateM.run] at h
  simp only [step, Bool.false_eq_true, if_false, hle, Int.toNat_natCast, hline, hpos, h]
  simp

/-- Within the budget the first instructions of what is left of a program are carried out as a list,
and the run goes on behind them. -/
theorem run_ahead (cpu : Cpu) {k : Nat} (hrun : cpu.halted = false) (hpc : cpu.pc = k)
    (hcode : code <+: (cpu.program.toList.drop k).map (·.instr))
    (hmax : cpu.steps + code.length ≤ max)
    (h : (execute cpu.hosts code).run cpu.core = .ok () d) :
    cpu.run max = Cpu.run max { cpu with
      core := d, pc := k + code.length, steps := cpu.steps + code.length } := by
  induction code generalizing cpu k with
  | nil =>
    cases h
    simp [← hpc]
  | cons i code ih =>
    -- the first instruction stands at `k`, so `k` is inside the program
    have hlt : k < cpu.program.size := by
      by_contra hge
      rw [List.drop_eq_nil_of_le (by simpa using hge)] at hcode
      simp at hcode
    have hdrop : cpu.program.toList.drop k =
        cpu.program[k] :: cpu.program.toList.drop (k + 1) := by
      rw [List.drop_eq_getElem_cons (by simpa using hlt)]
      simp
    rw [hdrop, List.map_cons, List.cons_prefix_cons] at hcode
    obtain ⟨hi, hcode⟩ := hcode
    rw [execute, EStateM.run_bind] at h
    cases hinstr : (Exec.instr cpu.hosts i).run cpu.core with
    | error trap c => simp [hinstr] at h
    | ok u c =>
      have hstep := step_of_instr hrun hpc (Array.getElem?_eq_getElem hlt) (hi ▸ hinstr)
      simp only [hinstr] at h
      simp only [List.length_cons, Nat.cast_add, Nat.cast_one] at hmax ⊢
      rw [run_of_step hrun (by omega) hstep]
      rw [ih { cpu with core := c, pc := (k + 1 : Nat), steps := cpu.steps + 1 } hrun rfl hcode
        (by simp only; omega) h]
      congr 2 <;> push_cast <;> ring

theorem run_of_end (hrun : cpu.halted = false) (hend : cpu.program.size ≤ cpu.pc)
    (hmax : cpu.steps < max) : cpu.run max = .ok () { cpu with halted := true } := by
  have hstep : cpu.step = .ok () { cpu with halted := true } := by
    obtain ⟨core, pc, steps, halted, program, hosts⟩ := cpu
    simp only at hrun hend
    subst hrun
    simp [step, hend]
  rw [run_of_step hrun hmax hstep, run, dif_pos rfl]

/-- What is left of a program is carried out as a list of instructions. -/
theorem run_eq_execute (cpu : Cpu) {k : Nat} (hrun : cpu.halted = false) (hpc : cpu.pc = k)
    (hcode : (cpu.program.toList.drop k).map (·.instr) = code)
    (hmax : cpu.steps + code.length < max)
    (h : (execute cpu.hosts code).run cpu.core = .ok () d) :
    cpu.run max = .ok () { cpu with
      core := d, pc := k + code.length, steps := cpu.steps + code.length, halted := true } := by
  have hlen : cpu.program.size ≤ k + code.length := by
    rw [← hcode, List.length_map, List.length_drop, Array.length_toList]
    omega
  rw [run_ahead cpu hrun hpc (hcode ▸ List.prefix_rfl) hmax.le h]
  exact run_of_end hrun (by dsimp only; omega) hmax

theorem run_load {program : Array ProgramLine} (cpu : Cpu)
    (hcode : program.toList.map (·.instr) = code) (hmax : code.length < max)
    (h : (execute cpu.hosts code).run cpu.core = .ok () d) :
    (cpu.load program).run max = .ok () { cpu with
      core := d, program, pc := code.length, steps := code.length, halted := true } := by
  cases hempty : program.isEmpty with
  | true =>
    have hnil : program = #[] := Array.isEmpty_iff.1 hempty
    subst hnil hcode
    cases h
    rw [run, dif_pos (show (cpu.load #[]).halted = true from rfl)]
    rfl
  | false =>
    have hsteps : (cpu.load program).steps + code.length < max := by simpa [load] using hmax
    rw [run_eq_execute (cpu.load program) (k := 0) hempty rfl hcode hsteps h]
    simp [load]

end Cpu

end OnePass
