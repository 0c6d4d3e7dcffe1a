import Mathlib
import OnePass.Proofs.Acceptance

namespace OnePass

@[simp] theorem Reg.real_r0 : Reg.r0.real = true := rfl

namespace Instr

/-- Whether the opcode is in the set, and the function that is called is registered. -/
def known (hosts : HostTable) : Instr → Bool
  | unknown .. => false
  | call f => (hosts.lookup f).isSome
  | _ => true

/-- Whether the registers exist, and there is room for the arguments of the function called. -/
def feasible (hosts : HostTable) (i : Instr) : Bool :=
  i.registers.1.real && i.registers.2.real &&
    match i with
    | call f => (hosts.lookup f).all fun h => fitsInMemory 2 h.arity
    | _ => true

end Instr

namespace Exec

variable {hosts : HostTable} {c : Core} {ok ok' : Bool}

/-- A step goes through where `ok` holds, and crashes otherwise. -/
def Carries (ok : Bool) (r : EStateM.Result Trap Core Unit) : Prop :=
  if ok then ∃ d, r = .ok () d else ∃ f d, r = .error (.fault f) d

theorem Carries.cast {r : EStateM.Result Trap Core Unit} (h : Carries ok r) (e : ok = ok') :
    Carries ok' r := e ▸ h

theorem carries_getReg {r : Reg} {g : UInt16 → Exec Unit} (h : ∀ v, Carries ok ((g v).run c)) :
    Carries (r.real && ok) ((getReg r >>= g).run c) := by
  cases r with
  | other => exact ⟨_, _, rfl⟩
  | _ => exact h _

theorem carries_setReg (r : Reg) (v : UInt16) (c : Core) : Carries r.real ((setReg r v).run c) := by
  cases r with
  | other => exact ⟨_, _, rfl⟩
  | _ => exact ⟨_, rfl⟩

theorem carries_call {f : String} (h : (hosts.lookup f).isSome) (c : Core) :
    Carries ((hosts.lookup f).all fun h => fitsInMemory 2 h.arity) ((call hosts f).run c) := by
  obtain ⟨host, hlookup⟩ := Option.isSome_iff_exists.1 h
  rw [hlookup, Option.all_some]
  cases hroom : fitsInMemory 2 host.arity with
  | true => exact ⟨_, run_call hlookup hroom⟩
  | false => exact ⟨.countOutOfRange, c, by simp [call, hlookup, hroom]⟩

/-- Whether an instruction goes through does not depend on the core. -/
theorem carries_instr {i : Instr} (h : i.known hosts) (c : Core) :
    Carries (i.feasible hosts) ((instr hosts i).run c) := by
  cases i with
  | movi n => exact ⟨_, rfl⟩
  | addi n => exact ⟨_, rfl⟩
  | subi n => exact ⟨_, rfl⟩
  | mov a b =>
    apply (carries_getReg fun v => carries_setReg a v c).cast
    simp [Instr.feasible, Instr.registers, Bool.and_comm]
  | alu op a b =>
    apply (carries_getReg fun v => carries_getReg fun w => carries_setReg a (op.apply v w) c).cast
    cases ha : a.real <;> simp [Instr.feasible, Instr.registers, ha]
  | push r =>
    apply (carries_getReg fun v => (show Carries true _ from ⟨_, run_push v⟩)).cast
    simp [Instr.feasible, Instr.registers]
  | pop r =>
    apply (carries_setReg r (c.memory.read c.sp) { c with sp := c.sp + 1 }).cast
    simp [Instr.feasible, Instr.registers]
  | ldr a b =>
    apply (carries_getReg (g := fun v => read v >>= setReg a) fun v =>
      carries_setReg a (c.memory.read v) c).cast
    simp [Instr.feasible, Instr.registers, Bool.and_comm]
  | str a b =>
    apply (carries_getReg fun v => carries_getReg fun w =>
      (show Carries true _ from ⟨_, run_write v w⟩)).cast
    simp [Instr.feasible, Instr.registers]
  | call f =>
    apply (carries_call h c).cast
    simp [Instr.feasible, Instr.registers]
  | unknown => contradiction

theorem execute_feasible {code : List Instr} (hk : ∀ i ∈ code, i.known hosts)
    (hf : ∀ i ∈ code, i.feasible hosts) (c : Core) :
    ∃ d, (execute hosts code).run c = .ok () d := by
  induction code generalizing c with
  | nil => exact ⟨c, rfl⟩
  | cons i code ih =>
    rw [List.forall_mem_cons] at hk hf
    have hi := carries_instr hk.1 c
    rw [hf.1] at hi
    obtain ⟨d, hd⟩ := hi
    obtain ⟨e, he⟩ := ih hk.2 hf.2 d
    exact ⟨e, execute_cons_ok hd he⟩

end Exec

namespace Cpu

variable {program : Array ProgramLine} {max : Int} {cpu : Cpu}

theorem step_of_trap (cpu : Cpu) {k : Nat} {line : ProgramLine} {trap : Trap} {c : Core}
    (hrun : cpu.halted = false) (hpc : cpu.pc = k) (hline : cpu.program[k]? = some line)
    (h : (Exec.instr cpu.hosts line.instr).run cpu.core = .error trap c) :
    cpu.step = .error (Halt.ofTrap line.line trap)
      { cpu with core := c, pc := k + 1, steps := cpu.steps + 1, halted := true } := by
  obtain ⟨core, pc, steps, halted, lines, hosts⟩ := cpu
  simp only at hrun hpc hline h
  subst hrun hpc
  have hlt : k < lines.size := (Array.getElem?_eq_some_iff.1 hline).1
  have hle : ¬ (lines.size : Int) ≤ k := by omega
  have hpos : decide ((k : Int) < 0) = false := by simp
  rw [EStateM.run] at h
  simp only [step, Bool.false_eq_true, if_false, hle, Int.toNat_natCast, hline, hpos, h]

def ahead (cpu : Cpu) (program : Array ProgramLine) (n : Nat) (core : Core) : Cpu :=
  { cpu with core, program, pc := n, steps := n, halted := false }

/-- Within the budget the first instructions of a program are carried out one after another. -/
theorem run_load_ahead {lines : List ProgramLine} {core : Core} (cpu : Cpu)
    (hne : program ≠ #[]) (hlines : lines <+: program.toList) (hmax : lines.length ≤ max)
    (h : (execute cpu.hosts (lines.map (·.instr))).run cpu.core = .ok () core) :
    (cpu.load program).run max = (cpu.ahead program lines.length core).run max := by
  have hempty : program.isEmpty = false := by simpa using hne
  have hrun : (cpu.load program).halted = false := hempty
  have hcode : lines.map (·.instr) <+: ((cpu.load program).program.toList.drop 0).map (·.instr) :=
    hlines.map _
  rw [run_ahead (cpu.load program) hrun rfl hcode (by simpa [load] using hmax) h]
  simp [ahead, load, hempty]

theorem execute_lines {lines : List ProgramLine} (hk : ∀ l ∈ program, l.instr.known cpu.hosts)
    (hlines : lines <+: program.toList) (hf : ∀ l ∈ lines, l.instr.feasible cpu.hosts) :
    ∃ core, (execute cpu.hosts (lines.map (·.instr))).run cpu.core = .ok () core := by
  apply Exec.execute_feasible
  · intro i hi
    obtain ⟨l, hl, rfl⟩ := List.mem_map.1 hi
    exact hk l (Array.mem_toList_iff.1 (hlines.subset hl))
  · intro i hi
    obtain ⟨l, hl, rfl⟩ := List.mem_map.1 hi
    exact hf l hl

/-- A program that is empty or shorter than the budget ends of itself. -/
theorem run_load_whole (cpu : Cpu) {core : Core} {max : Nat}
    (hend : program = #[] ∨ program.size < max)
    (h : (execute cpu.hosts (program.toList.map (·.instr))).run cpu.core = .ok () core) :
    (cpu.load program).run max = .ok () { cpu with
      core, program, pc := program.size, steps := program.size, halted := true } := by
  rcases hend with rfl | hlt
  · cases h
    rw [run, dif_pos (show (cpu.load #[]).halted = true from rfl)]
    rfl
  · simpa using run_load cpu rfl (by simpa using hlt) h

/-- Any other is given up once the budget is spent. -/
theorem run_load_stepLimit (cpu : Cpu) {core : Core} {max : Nat} (hne : program ≠ #[])
    (hmax : max ≤ program.size)
    (h : (execute cpu.hosts ((program.toList.take max).map (·.instr))).run cpu.core = .ok () core) :
    (cpu.load program).run max = .error (.stepLimit max) { cpu with
      core, program, pc := max, steps := max, halted := false } := by
  have hlen : (program.toList.take max).length = max := by simpa using hmax
  rw [run_load_ahead cpu hne (List.take_prefix _ _) (by omega) h, hlen]
  -- the budget is looked at before the end of the program is
  rw [run, dif_neg (by simp [ahead]), if_pos (by simp [ahead])]
  rfl

theorem run_load_crash (cpu : Cpu) {core : Core} {max : Nat} {done rest : List ProgramLine}
    {l : ProgramLine} (htake : program.toList.take max = done ++ l :: rest)
    (hknown : l.instr.known cpu.hosts) (hl : l.instr.feasible cpu.hosts = false)
    (h : (execute cpu.hosts (done.map (·.instr))).run cpu.core = .ok () core) :
    ∃ f d, (cpu.load program).run max = .error (.crash f) d ∧ d.steps = done.length + 1 := by
  have hdone : done <+: program.toList :=
    (htake ▸ List.prefix_append _ _).trans (List.take_prefix max _)
  have hline : program[done.length]? = some l := by
    obtain ⟨tail, htail⟩ := List.take_prefix max program.toList
    rw [htake] at htail
    simp [← Array.getElem?_toList, ← htail]
  have hlen : done.length < max := by
    have := congrArg List.length htake
    simp only [List.length_take, List.length_append, List.length_cons] at this
    omega
  have hne : program ≠ #[] := by
    rintro rfl
    simp at htake
  -- the lines before are carried out as a run of their own, and the next step is the trap
  have hcarries := Exec.carries_instr hknown core
  rw [hl] at hcarries
  obtain ⟨f, d, hd⟩ := hcarries
  have hstep := step_of_trap (cpu.ahead program done.length core) rfl rfl hline hd
  rw [run_load_ahead cpu hne hdone (by omega) h]
  exact ⟨f, _, run_of_trap rfl (by simpa [ahead] using hlen) hstep, rfl⟩

/-- A program is carried out whole exactly where it is empty or shorter than the budget. Otherwise
as many instructions are carried out as the budget allows, and the run is given up. An instruction
within the budget for which something is missing crashes the machine. -/
theorem run_load_budget (cpu : Cpu) (program : Array ProgramLine) (max : Nat)
    (hknown : ∀ l ∈ program, l.instr.known cpu.hosts) :
    ((∀ l ∈ program.toList.take max, l.instr.feasible cpu.hosts) →
      if program = #[] ∨ program.size < max then
        ∃ core, (execute cpu.hosts (program.toList.map (·.instr))).run cpu.core = .ok () core ∧
          (cpu.load program).run max = .ok () { cpu with
            core, program, pc := program.size, steps := program.size, halted := true }
      else
        ∃ core, (execute cpu.hosts ((program.toList.take max).map (·.instr))).run cpu.core =
            .ok () core ∧
          (cpu.load program).run max = .error (.stepLimit max) { cpu with
            core, program, pc := max, steps := max, halted := false }) ∧
    ∀ done l rest, program.toList.take max = done ++ l :: rest →
      (∀ k ∈ done, k.instr.feasible cpu.hosts) → l.instr.feasible cpu.hosts = false →
      ∃ f d, (cpu.load program).run max = .error (.crash f) d ∧ d.steps = done.length + 1 := by
  have hprefix : program.toList.take max <+: program.toList := List.take_prefix _ _
  constructor
  · intro hf
    obtain ⟨core, hcore⟩ := execute_lines hknown hprefix hf
    by_cases hend : program = #[] ∨ program.size < max
    · have htake : program.toList.take max = program.toList := by
        rcases hend with rfl | hlt
        · simp
        · exact List.take_of_length_le (by simpa using hlt.le)
      rw [htake] at hcore
      rw [if_pos hend]
      exact ⟨core, hcore, run_load_whole cpu hend hcore⟩
    · rw [if_neg hend]
      rw [not_or, not_lt] at hend
      exact ⟨core, hcore, run_load_stepLimit cpu hend.1 hend.2 hcore⟩
  · intro done l rest htake hdone hl
    have hmem : l ∈ program.toList := hprefix.subset (by simp [htake])
    have hdone' : done <+: program.toList := (htake ▸ List.prefix_append _ _).trans hprefix
    obtain ⟨core, hcore⟩ := execute_lines hknown hdone' hdone
    exact run_load_crash cpu htake (hknown l (Array.mem_toList_iff.1 hmem)) hl hcore

def doubling : Array ProgramLine :=
  #[⟨.call "seven", 1, "call seven"⟩, ⟨.pop .r1, 2, "pop r1"⟩, ⟨.alu .add .r1 .r1, 3, "add r1, r1"⟩]

theorem run_load_budget_doubling :
    let cpu := ({} : Cpu).register "seven" ⟨0, fun _ => 7⟩
    (∀ l ∈ doubling, l.instr.known cpu.hosts) ∧
      (∀ l ∈ doubling.toList.take 4, l.instr.feasible cpu.hosts) ∧
      ∃ core, (execute cpu.hosts (doubling.toList.map (·.instr))).run cpu.core = .ok () core ∧
        (cpu.load doubling).run (4 : Nat) = .ok () { cpu with
          core, program := doubling, pc := 3, steps := 3, halted := true } := by
  intro cpu
  have hknown : ∀ l ∈ doubling, l.instr.known cpu.hosts := by decide
  have hfeasible : ∀ l ∈ doubling.toList.take 4, l.instr.feasible cpu.hosts := by decide
  exact ⟨hknown, hfeasible, (run_load_budget cpu doubling 4 hknown).1 hfeasible⟩

/-- A program that is no longer than the budget is carried out, and yet the run is given up. -/
theorem budget_spent_at_end :
    let program : Array ProgramLine := #[⟨.movi 1, 1, "movi #1"⟩]
    (∀ l ∈ program, l.instr.known [] ∧ l.instr.feasible []) ∧ program.size ≤ 1 ∧
      ∃ d, (({} : Cpu).load program).run 1 = .error (.stepLimit 1) d ∧
        d.steps = 1 ∧ d.pc = program.size := by
  intro program
  refine ⟨by decide, by decide, ?_⟩
  exact ⟨_, run_load_stepLimit {} (by simp [program]) (by simp [program]) rfl, rfl, rfl⟩

end Cpu

end OnePass
