import Mathlib
import OnePass.Proofs.Simulation

namespace OnePass

open Meaning

namespace Operand

/-- The word that an operand starts from. One on the evaluation stack is at `top`. -/
def origin (base top : UInt16) (m : Memory) (o : Operand) : UInt16 :=
  match o.place with
  | .immediate n => word n
  | .frame slot => m.read (slotAddress base slot)
  | .stack => m.read top
  | _ => 0

/-- The word of an operand, all its dereferences applied. -/
def value (base top : UInt16) (m : Memory) (o : Operand) : UInt16 :=
  follow m o.derefs.toNat (o.origin base top m)

/-- The address of that word, where it has one. -/
def target (base top : UInt16) (m : Memory) (o : Operand) : UInt16 :=
  match o.place with
  | .frame slot => follow m o.derefs.toNat (slotAddress base slot)
  | .stack => follow m (o.derefs - 1).toNat (m.read top)
  | _ => 0

theorem value_of_ne_stack {o : Operand} (h : o.place ≠ .stack) (base top top' : UInt16)
    (m : Memory) : o.value base top m = o.value base top' m := by
  unfold value origin
  split <;> first | rfl | contradiction

end Operand

theorem Meaning.follow_succ (m : Memory) (n : Nat) (a : UInt16) :
    follow m (n + 1) a = m.read (follow m n a) := by
  induction n generalizing a with
  | zero => rfl
  | succ n ih => exact ih (m.read a)

/-- What is read from an operand's address is its word. -/
theorem Operand.read_target {o : Operand} (h : o.addressable) (base top : UInt16) (m : Memory) :
    m.read (o.target base top m) = o.value base top m := by
  obtain ⟨type, derefs, place⟩ := o
  cases place with
  | frame slot => exact (follow_succ m derefs.toNat (slotAddress base slot)).symm
  | stack =>
    have hpos : 0 < derefs := of_decide_eq_true h
    have hderefs : derefs.toNat = (derefs - 1).toNat + 1 := by omega
    rw [value, hderefs]
    exact (follow_succ m (derefs - 1).toNat (m.read top)).symm
  | _ => contradiction

variable {hosts : HostTable} {base : UInt16} {depth : Int} {c d : Core} {o l r : Operand} {q : Reg}

def Core.dropped (c : Core) (n : Int) : Core := { c with sp := c.sp + word n }

@[simp] theorem Core.dropped_zero (c : Core) : c.dropped 0 = c := by simp [dropped, word]

theorem Core.at_self (h : c.sp = base - word depth) : c.At base depth ⟨c.memory, c.calls⟩ :=
  ⟨rfl, rfl, h⟩

theorem followCode_toNat (q : Reg) (k : Int) : followCode q k.toNat = followCode q k := by
  unfold followCode
  congr 1

theorem Sets.sp {v : UInt16} {c₀ : Core} (hq : q = .r1 ∨ q = .r2) (h : Sets c₀ q v d) :
    d.sp = c₀.sp :=
  h.others .sp (by rcases hq with rfl | rfl <;> simp) (by simp)

theorem execute_followCode {code : List Instr} {v : UInt16} {c₀ : Core} (k : Int) (hq : q.scratch)
    (h : (execute hosts code).run c = .ok () d) (hset : Sets c₀ q v d) :
    ∃ e, (execute hosts (code ++ followCode q k)).run c = .ok () e ∧
      Sets c₀ q (follow c₀.memory k.toNat v) e := by
  obtain ⟨e, he, hset'⟩ := runs_followCode hq k.toNat d
  rw [followCode_toNat] at he
  rw [hset.value, hset.memory] at hset'
  exact ⟨e, execute_append_ok h he.ok, hset.trans hset'⟩

theorem execute_ldr {code : List Instr} {a : UInt16} {c₀ : Core} (hq : q.scratch)
    (h : (execute hosts code).run c = .ok () d) (hset : Sets c₀ .r0 a d) :
    ∃ e, (execute hosts (code ++ [.ldr q .r0])).run c = .ok () e ∧
      Sets c₀ q (c₀.memory.read a) e := by
  obtain ⟨e, he, hset'⟩ := run_ldr (q := .r0) hq rfl d
  rw [hset.value, hset.memory] at hset'
  refine ⟨e, execute_append_ok h (execute_cons_ok he rfl), hset'.value, ?_,
    hset'.memory.trans hset.memory, hset'.calls.trans hset.calls⟩
  intro p hp hp'
  rw [hset'.others p hp hp', hset.others p hp' hp']

/-- The address of a slot is reached from `sp`. -/
theorem execute_reachCode (slot : Int) (hsp : c.sp = base - word depth) :
    ∃ d, (execute hosts (reachCode depth slot)).run c = .ok () d ∧
      Sets c .r0 (slotAddress base slot) d := by
  refine ⟨_, (runs_reachCode slot (Core.at_self hsp)).ok, rfl, ?_, rfl, rfl⟩
  intro p hp _
  cases p <;> first | rfl | contradiction

theorem execute_pop (hq : q.scratch) :
    ∃ d, (execute hosts [.pop q]).run c = .ok () d ∧
      Sets (c.dropped 1) q (c.memory.read c.sp) d := by
  cases q <;> simp [Reg.scratch] at hq <;>
    exact ⟨_, rfl, rfl, fun p hp hp' => by cases p <;> first | rfl | contradiction, rfl, rfl⟩

namespace Operand

/-- Loading an operand leaves its word in a register, and drops it where it was on the stack. -/
theorem execute_loadCode (ho : o.settled) (hq : q = .r1 ∨ q = .r2)
    (hsp : c.sp = base - word depth) :
    ∃ d, (execute hosts (o.loadCode depth q)).run c = .ok () d ∧
      Sets (c.dropped o.held) q (o.value base c.sp c.memory) d := by
  have hscratch : q.scratch := by rcases hq with rfl | rfl <;> rfl
  obtain ⟨type, derefs, place⟩ := o
  -- the place decides how the first word is fetched; following the pointers is the same for all
  cases place with
  | immediate n =>
    have hset : ∃ d, (execute hosts (.movi n :: if q = .r0 then [] else [.mov q .r0])).run c =
        .ok () d ∧ Sets (c.dropped 0) q (word n) d := by
      rw [Core.dropped_zero]
      rcases hq with rfl | rfl <;>
        exact ⟨_, rfl, rfl, fun p hp hp' => by cases p <;> first | rfl | contradiction, rfl, rfl⟩
    obtain ⟨d, hd, hset⟩ := hset
    exact execute_followCode derefs hscratch hd hset
  | frame slot =>
    obtain ⟨d, hd, hset⟩ := execute_reachCode slot hsp
    rw [← c.dropped_zero] at hset
    obtain ⟨e, he, hset'⟩ := execute_ldr hscratch hd hset
    exact execute_followCode derefs hscratch he hset'
  | stack =>
    obtain ⟨d, hd, hset⟩ := execute_pop (c := c) hscratch
    exact execute_followCode derefs hscratch hd hset
  | register p => contradiction
  | unknown n => contradiction

theorem execute_locateCode (ha : o.addressable) (hwords : o.type.words = 1)
    (hsp : c.sp = base - word depth) :
    ∃ d, (execute hosts (o.locateCode depth)).run c = .ok () d ∧
      Sets (c.dropped o.held) .r0 (o.target base c.sp c.memory) d := by
  obtain ⟨type, derefs, place⟩ := o
  cases place with
  | frame slot =>
    obtain ⟨d, hd, hset⟩ := execute_reachCode slot hsp
    rw [← c.dropped_zero] at hset
    obtain ⟨e, he, hset'⟩ := execute_followCode derefs rfl hd hset
    refine ⟨e, ?_, hset'⟩
    unfold locateCode
    dsimp only
    split
    · rename_i hzero
      rw [hwords, add_sub_cancel_right]
      simpa [hzero, followCode] using he
    · exact he
  | stack =>
    obtain ⟨d, hd, hset⟩ := execute_pop (c := c) (q := .r0) rfl
    exact execute_followCode (derefs - 1) rfl hd hset
  | _ => contradiction

theorem spillCode_of_addressable (ha : o.addressable) (depth : Int) :
    o.spillCode depth = o.loadCode depth .r1 ++ [.push .r1] := by
  obtain ⟨type, derefs, place⟩ := o
  cases place with
  | stack =>
    have hpos : 0 < derefs := of_decide_eq_true ha
    exact if_neg (by dsimp only; omega)
  | frame slot => rfl
  | _ => contradiction

theorem settled_of_addressable (ha : o.addressable) : o.settled := by
  obtain ⟨type, derefs, place⟩ := o
  cases place <;> first | rfl | contradiction

theorem execute_spillCode (ha : o.addressable) (hsp : c.sp = base - word depth) :
    ∃ d, (execute hosts (o.spillCode depth)).run c = .ok () d ∧
      d.sp = (c.dropped o.held).sp - 1 ∧
      d.memory = c.memory.write d.sp (o.value base c.sp c.memory) := by
  obtain ⟨d, hd, hset⟩ :=
    execute_loadCode (settled_of_addressable ha) (.inl rfl) hsp
  rw [spillCode_of_addressable ha]
  refine ⟨_, execute_append_ok hd rfl, ?_, ?_⟩
  · rw [← hset.sp (.inl rfl)]
  · rw [← hset.value]
    exact congrArg (Memory.write · _ _) hset.memory

end Operand

/-- The operands of an arithmetic operator are loaded one after the other, the left one first only
where it is the one of them on the stack. -/
theorem combineCode_eq (depth : Int) (op : Alu) (l r : Operand) :
    combineCode depth op l r =
      (if l.place = .stack ∧ r.place ≠ .stack then
        l.loadCode depth .r1 ++ r.loadCode (depth - l.held) .r2
      else r.loadCode depth .r2 ++ l.loadCode (depth - r.held) .r1) ++
        [.alu op .r1 .r2, .push .r1] := by
  unfold combineCode Operand.held
  by_cases hl : l.place = .stack <;> by_cases hr : r.place = .stack <;> simp [hl, hr]

theorem Core.dropped_sp (hsp : c.sp = base - word depth) (n : Int) :
    (c.dropped n).sp = base - word (depth - n) := by
  show c.sp + word n = _
  rw [hsp, word_sub]
  abel

theorem execute_loads {a b : Operand} {p : Reg} (ha : a.settled) (hb : b.settled)
    (hq : q = .r1 ∨ q = .r2) (hp : p = .r1 ∨ p = .r2) (hne : q ≠ p)
    (hsp : c.sp = base - word depth) :
    ∃ d, (execute hosts (a.loadCode depth q ++ b.loadCode (depth - a.held) p)).run c = .ok () d ∧
      d.reg q = a.value base c.sp c.memory ∧
      d.reg p = b.value base (c.sp + word a.held) c.memory ∧
      d.sp = c.sp + word (a.held + b.held) ∧ d.memory = c.memory ∧ d.calls = c.calls := by
  have hkeep : q ≠ .r0 := by rcases hq with rfl | rfl <;> simp
  obtain ⟨d, hd, hset⟩ := a.execute_loadCode ha hq hsp
  have hsp' : d.sp = base - word (depth - a.held) := (hset.sp hq).trans (Core.dropped_sp hsp a.held)
  obtain ⟨e, he, hset'⟩ := b.execute_loadCode hb hp hsp'
  refine ⟨e, execute_append_ok hd he, ?_, ?_, ?_, ?_, ?_⟩
  · rw [hset'.others q hne hkeep, ← hset.value]
    rcases hq with rfl | rfl <;> rfl
  · rw [hset'.value, hset.sp hq, hset.memory]
    rfl
  · rw [hset'.sp hp]
    show d.sp + _ = _
    rw [hset.sp hq, word_add, ← add_assoc]
    rfl
  · exact hset'.memory.trans hset.memory
  · exact hset'.calls.trans hset.calls

/-- The code of an arithmetic operator drops the words of its operands and pushes the result. -/
theorem execute_combineCode (op : Alu) (hl : l.settled) (hr : r.settled)
    (hsp : c.sp = base - word depth) :
    ∃ d, (execute hosts (combineCode depth op l r)).run c = .ok () d ∧
      d.sp = c.sp + word (r.held + l.held) - 1 ∧
      d.memory = c.memory.write d.sp (op.apply (l.value base (c.sp + word r.held) c.memory)
        (r.value base c.sp c.memory)) ∧ d.calls = c.calls := by
  -- whichever operand comes first, the left one ends in `r1` and the right one in `r2`
  have hlast {code : List Instr} {e : Core} (he : (execute hosts code).run c = .ok () e)
      (h₁ : e.reg .r1 = l.value base (c.sp + word r.held) c.memory)
      (h₂ : e.reg .r2 = r.value base c.sp c.memory)
      (hsp' : e.sp = c.sp + word (r.held + l.held)) (hm : e.memory = c.memory)
      (hc : e.calls = c.calls) :
      ∃ d, (execute hosts (code ++ [.alu op .r1 .r2, .push .r1])).run c = .ok () d ∧
        d.sp = c.sp + word (r.held + l.held) - 1 ∧
        d.memory = c.memory.write d.sp (op.apply (l.value base (c.sp + word r.held) c.memory)
          (r.value base c.sp c.memory)) ∧ d.calls = c.calls := by
    refine ⟨_, execute_append_ok he rfl, ?_, ?_, hc⟩
    · show e.sp - 1 = _
      rw [hsp']
    · rw [← h₁, ← h₂, ← hm]
      rfl
  rw [combineCode_eq]
  split
  · rename_i hplaces
    obtain ⟨-, hstack⟩ := hplaces
    have hzero : r.held = 0 := by simp [Operand.held, hstack]
    have hword : c.sp + word 0 = c.sp := by simp [word]
    obtain ⟨e, he, h₁, h₂, hsp', hm, hc⟩ :=
      execute_loads hl hr (.inl rfl) (.inr rfl) (by simp) hsp
    apply hlast he
    · rw [h₁, hzero, hword]
    · rw [h₂, r.value_of_ne_stack hstack]
    · rw [hsp', add_comm l.held]
    · exact hm
    · exact hc
  · obtain ⟨e, he, h₂, h₁, hsp', hm, hc⟩ :=
      execute_loads hr hl (.inr rfl) (.inl rfl) (by simp) hsp
    exact hlast he h₁ h₂ hsp' hm hc

/-- A step of the compiler goes through, does nothing but emit code and move the depth, and its code
takes one core to another. -/
structure Performs {α : Type} (hosts : HostTable) (m : Build α) (s : Session) (c : Core) (a : α)
    (t : Session) (d : Core) : Prop where
  step : m.run s = .ok a t
  code : ∃ code, t = s.emitted code t.frame.depth ∧ (execute hosts code).run c = .ok () d

theorem performs_of_run {α : Type} {m : Build α} {s : Session} {a : α} {code : List Instr}
    (hrun : m.run s = .ok a (s.emitted code depth))
    (hcode : (execute hosts code).run c = .ok () d) :
    Performs hosts m s c a (s.emitted code depth) d :=
  ⟨hrun, code, rfl, hcode⟩

theorem Ty.size_of_scalar {t : Ty} (h : holds t.isScalar) : t.size = .ok t.words := by
  cases hb : t.base with
  | some b => exact size_eq (by simp [hb])
  | none =>
    have hpos : 0 < t.depth := by
      by_contra hd
      simp [isScalar, hd, info, hb, Except.map, holds] at h
    simp [size, words, hpos]

namespace Build

variable {s : Session}

/-- An arithmetic operator takes the words that its operands have on the stack and pushes what they
give, wherever they are; `sp` stays as far below the base as the frame is deep. -/
theorem combine_computes {kind : DirectiveKind} {op : Alu} {lhs rhs : Directive} {t : Ty}
    (hkind : kind.alu? = some op) (hl : lhs.operand.type.base.isSome)
    (hr : rhs.operand.type.base.isSome) (htype : lhs.operand.combined rhs.operand = some t)
    (hls : lhs.operand.settled) (hrs : rhs.operand.settled)
    (hheld : rhs.operand.held + lhs.operand.held ≤ s.frame.depth) (hlt : s.frame.depth < 2 ^ 63)
    (hsp : c.sp = base - word s.frame.depth) (tok : Token) :
    ∃ i s' d, Performs hosts (combine kind tok lhs rhs) s c (result i t) s' d ∧
      d.sp = c.sp + word (rhs.operand.held + lhs.operand.held) - 1 ∧
      d.memory = c.memory.write d.sp
        (op.apply (lhs.operand.value base (c.sp + word rhs.operand.held) c.memory)
          (rhs.operand.value base c.sp c.memory)) ∧
      d.calls = c.calls ∧ d.sp = base - word s'.frame.depth ∧
      s'.frame.depth = wrap (s.frame.depth - (rhs.operand.held + lhs.operand.held) + 1) := by
  have hrun := run_combine_of_lt tok hkind hl hr hheld hlt
  rw [htype] at hrun
  obtain ⟨i, hi⟩ := hrun
  obtain ⟨d, hd, hdsp, hmemory, hcalls⟩ := execute_combineCode op hls hrs hsp
  refine ⟨i, _, d, performs_of_run hi hd, hdsp, hmemory, hcalls, ?_, ?_⟩
  · simp only [Session.emitted_frame]
    rw [hdsp, hsp, word_wrap, ← show word 1 = 1 from rfl]
    simp only [word_add, word_sub]
    abel
  · simp only [Session.emitted_frame, sub_sub]

/-- Below an empty stack the words 7 and 9, and on top of them the address of the first. -/
def threeWords : Core where
  sp := 65533
  memory := ((Memory.zero.write 65535 7).write 65534 9).write 65533 65535

theorem threeWords_read :
    threeWords.memory.read 65535 = 7 ∧ threeWords.memory.read 65534 = 9 ∧
      threeWords.memory.read 65533 = 65535 := by
  unfold threeWords
  refine ⟨?_, ?_, Memory.read_write_self _ _ _⟩
  · rw [Memory.read_write_of_ne _ _ (by decide), Memory.read_write_of_ne _ _ (by decide),
      Memory.read_write_self]
  · rw [Memory.read_write_of_ne _ _ (by decide), Memory.read_write_self]

theorem combine_computes_threeWords :
    let u16 : Ty := ⟨some .u16, 0⟩
    let lhs : Directive := ⟨.value, 0, { type := u16, derefs := 1, place := .stack }⟩
    let rhs : Directive := ⟨.value, 1, { type := u16, place := .frame 1 }⟩
    let s : Session := { frame := { depth := 3 } }
    let minus : Token := { type := .minus, line := 1 }
    lhs.operand.combined rhs.operand = some u16 ∧ threeWords.sp = 0 - word s.frame.depth ∧
      ∃ i s' d, Performs [] (combine .sub minus lhs rhs) s threeWords (result i u16) s' d ∧
        d.sp = 65533 ∧ d.memory = threeWords.memory.write 65533 65534 ∧ s'.frame.depth = 3 := by
  intro u16 lhs rhs s minus
  have halu : DirectiveKind.sub.alu? = some .sub := rfl
  have htype : lhs.operand.combined rhs.operand = some u16 := by decide
  have hsp : threeWords.sp = 0 - word s.frame.depth := by decide
  obtain ⟨i, s', d, hperforms, hdsp, hmemory, -, -, hdepth⟩ :=
    combine_computes (s := s) halu rfl rfl htype rfl rfl (by decide) (by decide) hsp minus
  have hl : lhs.operand.value 0 (threeWords.sp + word rhs.operand.held) threeWords.memory = 7 := by
    show threeWords.memory.read (threeWords.memory.read 65533) = 7
    rw [threeWords_read.2.2, threeWords_read.1]
  have hr : rhs.operand.value 0 threeWords.sp threeWords.memory = 9 := threeWords_read.2.1
  have hsp' : d.sp = 65533 := hdsp.trans (by decide)
  rw [hl, hr, hsp'] at hmemory
  exact ⟨htype, hsp, i, s', d, hperforms, hsp', hmemory, hdepth⟩

/-- An operand with an address is loaded from it: the word, the stack and the memory that `load`
leaves are those of reading the address, and what is spilled is that word. -/
theorem load_eq_read_locate {dir : Directive} (ha : dir.hasAddress) (hs : dir.operand.scalar)
    (hregular : ∀ b ∈ dir.operand.type.base, b.Regular) (hheld : dir.operand.held ≤ s.frame.depth)
    (hlt : s.frame.depth < 2 ^ 63) (hq : q = .r1 ∨ q = .r2)
    (hsp : c.sp = base - word s.frame.depth) :
    ∃ o t d, Performs hosts (load dir.operand q) s c o t d ∧
      d.reg q = dir.operand.value base c.sp c.memory ∧
      (∃ t' d', Performs hosts (do locate dir.operand; emit [.ldr q .r0]) s c () t' d' ∧
        d'.reg q = d.reg q ∧ d'.sp = d.sp ∧ d'.memory = d.memory ∧ t'.frame = t.frame) ∧
      ∃ o' t' d', Performs hosts (spill dir.operand) s c o' t' d' ∧
        d'.sp = d.sp - 1 ∧ d'.memory = d.memory.write d'.sp (d.reg q) ∧
        t'.frame = t.frame.push 1 := by
  have hkind : dir.kind = .value := by
    by_contra h
    simp [Directive.hasAddress, h] at ha
  rw [hasAddress_eq hkind] at ha
  have hwords := Ty.words_of_scalar hregular hs
  have hscratch : q.scratch := by rcases hq with rfl | rfl <;> rfl
  obtain ⟨d, hd, hset⟩ :=
    Operand.execute_loadCode (Operand.settled_of_addressable ha) hq hsp
  refine ⟨_, _, d, performs_of_run (run_load_of_lt q hheld hlt) hd, hset.value, ?_, ?_⟩
  · obtain ⟨e, he, hlocate⟩ := Operand.execute_locateCode ha hwords hsp
    obtain ⟨e', he', hread⟩ := execute_ldr hscratch he hlocate
    have hrun : (do locate dir.operand; emit [.ldr q .r0]).run s = .ok ()
        (s.emitted (dir.operand.locateCode s.frame.depth ++ [.ldr q .r0])
          (s.frame.depth - dir.operand.held)) := by
      rw [run_bind_ok (run_locate_of_lt hheld hlt (Ty.size_of_scalar hs)), run_emit]
      simp
    refine ⟨_, e', performs_of_run hrun he', ?_, ?_, ?_, rfl⟩
    · rw [hread.value, hset.value]
      exact Operand.read_target ha base c.sp c.memory
    · rw [hread.sp hq, hset.sp hq]
    · rw [hread.memory, hset.memory]
  · obtain ⟨e, he, hesp, hmemory⟩ := Operand.execute_spillCode ha hsp
    refine ⟨_, _, e, performs_of_run (run_spill_of_lt hheld hlt) he, ?_, ?_, rfl⟩
    · rw [hesp, hset.sp hq]
    · rw [hmemory, hset.memory, hset.value]
      rfl

theorem load_eq_read_locate_threeWords :
    let dir : Directive := ⟨.value, 0, { type := ⟨some .u16, 0⟩, derefs := 1, place := .frame 2 }⟩
    let s : Session := { frame := { depth := 3 } }
    dir.hasAddress ∧ dir.operand.scalar ∧ threeWords.sp = 0 - word s.frame.depth ∧
      ∃ o t d, Performs [] (load dir.operand .r2) s threeWords o t d ∧ d.reg .r2 = 7 ∧
        (∃ t' d', Performs [] (do locate dir.operand; emit [.ldr .r2 .r0]) s threeWords () t' d' ∧
          d'.reg .r2 = d.reg .r2 ∧ d'.sp = d.sp ∧ d'.memory = d.memory ∧ t'.frame = t.frame) ∧
        ∃ o' t' d', Performs [] (spill dir.operand) s threeWords o' t' d' ∧
          d'.sp = d.sp - 1 ∧ d'.memory = d.memory.write d'.sp (d.reg .r2) ∧
          t'.frame = t.frame.push 1 := by
  intro dir s
  have hsp : threeWords.sp = 0 - word s.frame.depth := by decide
  have hregular : ∀ b ∈ dir.operand.type.base, b.Regular := by
    intro b hb
    exact TypeInfo.regular_builtin b (by simp [← Option.some.inj hb])
  obtain ⟨o, t, d, hload, hvalue, hagree⟩ :=
    load_eq_read_locate (s := s) (show dir.hasAddress from rfl) rfl hregular (by decide) (by decide)
      (.inr rfl) hsp
  refine ⟨rfl, rfl, hsp, o, t, d, hload, ?_, hagree⟩
  rw [hvalue]
  show threeWords.memory.read (threeWords.memory.read 65533) = 7
  rw [threeWords_read.2.2, threeWords_read.1]

end Build

end OnePass
