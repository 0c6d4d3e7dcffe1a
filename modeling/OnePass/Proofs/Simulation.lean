import Mathlib
import OnePass.Proofs.Meaning

namespace OnePass

open Meaning

theorem word_wrap (n : Int) : word (wrap n) = word n := by
  have hmod : wrap n % 65536 = n % 65536 := by
    unfold wrap Int.bmod
    dsimp only
    split <;> omega
  rw [word, hmod, word]

theorem Memory.write_read (m : Memory) (a : UInt16) : m.write a (m.read a) = m := by
  simp [write, read]

namespace Core

def reg (c : Core) : Reg → UInt16
  | .r0 => c.r0
  | .r1 => c.r1
  | .r2 => c.r2
  | .sp => c.sp
  | .other _ => 0

/-- The core holds a store, with `depth` words on its stack. -/
structure At (base : UInt16) (depth : Int) (s : Store) (c : Core) : Prop where
  memory : c.memory = s.memory
  calls : c.calls = s.calls
  sp : c.sp = base - word depth

variable {base : UInt16} {depth : Int} {s : Store} {c d : Core}

theorem At.slotAddress_top (h : c.At base (depth + 1) s) : c.sp = slotAddress base depth := by
  rw [h.sp, word_add, slotAddress, show word 1 = 1 from rfl, sub_sub, add_comm]

theorem At.sp_add_one (h : c.At base (depth + 1) s) : c.sp + 1 = base - word depth := by
  rw [h.sp, word_add, show word 1 = 1 from rfl]
  abel

theorem At.cast {depth' : Int} (h : c.At base depth s) (e : depth = depth') : c.At base depth' s :=
  e ▸ h

end Core

/-- The address that an instruction loads from or stores to, if it does. -/
def Instr.accesses (c : Core) : Instr → List UInt16
  | .ldr _ q | .str q _ => [c.reg q]
  | _ => []

/-- The addresses that code loads from and stores to, in order. -/
def accessed (hosts : HostTable) : List Instr → Core → List UInt16
  | [], _ => []
  | i :: code, c =>
    i.accesses c ++
      match (Exec.instr hosts i).run c with
      | .ok _ d => accessed hosts code d
      | .error _ _ => []

/-- Code takes a core to another, and accesses no address but those listed. -/
structure Runs (hosts : HostTable) (code : List Instr) (c d : Core) (as : List UInt16) : Prop where
  ok : (execute hosts code).run c = .ok () d
  accesses : accessed hosts code c ⊆ as

variable {hosts : HostTable} {base : UInt16} {depth : Int} {s : Store} {c : Core}

section

variable {code code' : List Instr} {d e : Core} {as bs : List UInt16} {i : Instr}

theorem accessed_append (h : (execute hosts code).run c = .ok () d) :
    accessed hosts (code ++ code') c = accessed hosts code c ++ accessed hosts code' d := by
  induction code generalizing c with
  | nil =>
    cases h
    rfl
  | cons i code ih =>
    rw [execute, EStateM.run_bind] at h
    cases hi : (Exec.instr hosts i).run c with
    | ok a u =>
      rw [hi] at h
      simp only [List.cons_append, accessed, hi, ih h, List.append_assoc]
    | error a u =>
      rw [hi] at h
      cases h

namespace Runs

theorem nil : Runs hosts [] c c as := ⟨rfl, List.nil_subset _⟩

theorem mono (h : Runs hosts code c d as) (hsub : as ⊆ bs) : Runs hosts code c d bs :=
  ⟨h.ok, List.Subset.trans h.accesses hsub⟩

theorem append (h : Runs hosts code c d as) (h' : Runs hosts code' d e bs) :
    Runs hosts (code ++ code') c e (as ++ bs) := by
  refine ⟨execute_append_ok h.ok h'.ok, ?_⟩
  rw [accessed_append h.ok]
  exact List.append_subset.2 ⟨List.subset_append_of_subset_left _ h.accesses,
    List.subset_append_of_subset_right _ h'.accesses⟩

theorem single (h : (Exec.instr hosts i).run c = .ok () d) : Runs hosts [i] c d (i.accesses c) := by
  refine ⟨execute_cons_ok h rfl, ?_⟩
  simp [accessed, h]

theorem cons (h : (Exec.instr hosts i).run c = .ok () d) (h' : Runs hosts code d e bs) :
    Runs hosts (i :: code) c e (i.accesses c ++ bs) :=
  (single h).append h'

end Runs

end

/-- The core differs in the registers `r0` and `r` only, and holds `v` in `r`. -/
structure Sets (c : Core) (r : Reg) (v : UInt16) (d : Core) : Prop where
  value : d.reg r = v
  others : ∀ q, q ≠ r → q ≠ .r0 → d.reg q = c.reg q
  memory : d.memory = c.memory
  calls : d.calls = c.calls

theorem runs_reachCode (slot : Int) (h : c.At base depth s) :
    Runs hosts (reachCode depth slot) c { c with r0 := slotAddress base slot } [] := by
  have haddress : c.sp + word (slotOffset depth slot) = slotAddress base slot := by
    rw [h.sp, slotOffset, word_wrap, word_sub, word_sub, slotAddress, show word 1 = 1 from rfl]
    abel
  rw [← haddress]
  exact ⟨rfl, List.Subset.refl _⟩

theorem run_ldr {r q : Reg} (hr : r.scratch) (hq : q.scratch) (c : Core) :
    ∃ d, (Exec.instr hosts (.ldr r q)).run c = .ok () d ∧ Sets c r (c.memory.read (c.reg q)) d := by
  cases r <;> simp [Reg.scratch] at hr <;> cases q <;> simp [Reg.scratch] at hq <;>
    exact ⟨_, rfl, rfl, fun p hp hp' => by cases p <;> first | rfl | contradiction, rfl, rfl⟩

theorem Sets.trans {c d e : Core} {r : Reg} {v w : UInt16} (h : Sets c r v d) (h' : Sets d r w e) :
    Sets c r w e :=
  ⟨h'.value, fun q hq hq' => (h'.others q hq hq').trans (h.others q hq hq'),
    h'.memory.trans h.memory, h'.calls.trans h.calls⟩

theorem Sets.at {d : Core} {r : Reg} {v : UInt16} (hr : r ≠ .sp) (h : Sets c r v d)
    (hc : c.At base depth s) : d.At base depth s :=
  ⟨h.memory.trans hc.memory, h.calls.trans hc.calls,
    (h.others .sp (by simpa using hr.symm) (by simp)).trans hc.sp⟩

theorem runs_followCode {r : Reg} (hr : r.scratch) (n : Nat) (c : Core) :
    ∃ d, Runs hosts (followCode r n) c d (path c.memory n (c.reg r)) ∧
      Sets c r (follow c.memory n (c.reg r)) d := by
  unfold followCode
  rw [Int.toNat_natCast]
  induction n generalizing c with
  | zero => exact ⟨c, .nil, rfl, fun _ _ _ => rfl, rfl, rfl⟩
  | succ n ih =>
    obtain ⟨d, hd, hset⟩ := run_ldr hr hr c
    obtain ⟨e, he, hset'⟩ := ih d
    rw [follow, path, ← hset.value, ← hset.memory]
    exact ⟨e, .cons hd he, hset.trans hset'⟩

/-- An operand of the compiler stands for a value; a result lies on top of `depth` words. -/
def Denotes (depth : Int) (o : Operand) : Value → Prop
  | .literal n => o.place = .immediate n ∧ o.derefs = 0 ∧ o.type.depth = 0
  | .named x n => o.place = .frame x.slot ∧ o.derefs = n ∧ (n = 0 → o.type.words = x.words)
  | .result slot n => o.place = .stack ∧ o.derefs = n ∧ depth = slot + 1

namespace Denotes

variable {o : Operand} {v : Value}

theorem held (h : Denotes depth o v) : v.held = o.held := by
  unfold Denotes at h
  cases v <;> simp [Value.held, Operand.held, h.1]

theorem of_ne_stack (h : Denotes depth o v) (ho : o.place ≠ .stack) (depth' : Int) :
    Denotes depth' o v := by
  cases v with
  | result => exact absurd h.1 ho
  | _ => exact h

/-- Loading an operand leaves its word in a register. -/
theorem runs_loadCode {r : Reg} (hr : r = .r1 ∨ r = .r2) (h : Denotes depth o v)
    (hc : c.At base depth s) :
    ∃ d, Runs hosts (o.loadCode depth r) c d (v.reads base s.memory) ∧
      d.At base (depth - o.held) s ∧ d.reg r = v.word base s.memory ∧
      ∀ q, q = .r1 ∨ q = .r2 → q ≠ r → d.reg q = c.reg q := by
  have hscratch : r.scratch := by rcases hr with rfl | rfl <;> rfl
  have hsp : r ≠ .sp := by rcases hr with rfl | rfl <;> simp
  have hne : ∀ q, q = .r1 ∨ q = .r2 → q ≠ Reg.r0 := by rintro q (rfl | rfl) <;> simp
  cases v with
  | literal n =>
    obtain ⟨hplace, hderefs, -⟩ := h
    have hheld : o.held = 0 := by simp [Operand.held, hplace]
    rw [Operand.loadCode, hplace, hderefs, hheld, sub_zero]
    rcases hr with rfl | rfl <;>
      exact ⟨_, ⟨rfl, List.Subset.refl _⟩, ⟨hc.memory, hc.calls, hc.sp⟩, rfl, by
        rintro q (rfl | rfl) hq <;> first | rfl | contradiction⟩
  | named x n =>
    obtain ⟨hplace, hderefs, -⟩ := h
    have hheld : o.held = 0 := by simp [Operand.held, hplace]
    -- the slot is reached in `r0`, read, and its pointers are followed
    obtain ⟨d, hd, hset⟩ := run_ldr (q := .r0) hscratch rfl { c with r0 := slotAddress base x.slot }
    obtain ⟨e, he, hset'⟩ := runs_followCode hscratch n d
    have hat : d.At base depth s := hset.at hsp ⟨hc.memory, hc.calls, hc.sp⟩
    have hvalue : d.reg r = s.memory.read (slotAddress base x.slot) := by
      rw [hset.value, ← hc.memory]
      rfl
    rw [hat.memory, hvalue] at he hset'
    rw [Operand.loadCode, hplace, hderefs, hheld, sub_zero]
    refine ⟨e, ((runs_reachCode x.slot hc).append (.single hd)).append he, hset'.at hsp hat,
      hset'.value, fun q hq hqr => ?_⟩
    rw [hset'.others q hqr (hne q hq), hset.others q hqr (hne q hq)]
    rcases hq with rfl | rfl <;> rfl
  | result slot n =>
    obtain ⟨hplace, hderefs, rfl⟩ := h
    have hheld : o.held = 1 := by simp [Operand.held, hplace]
    obtain ⟨d, hd, hset⟩ : ∃ d, (Exec.instr hosts (.pop r)).run c = .ok () d ∧
        Sets { c with sp := c.sp + 1 } r (c.memory.read c.sp) d := by
      rcases hr with rfl | rfl <;>
        exact ⟨_, rfl, rfl, fun q hq hq' => by cases q <;> first | rfl | contradiction, rfl, rfl⟩
    obtain ⟨e, he, hset'⟩ := runs_followCode hscratch n d
    have hat : d.At base slot s := hset.at hsp ⟨hc.memory, hc.calls, hc.sp_add_one⟩
    rw [hat.memory, hset.value, hc.memory, hc.slotAddress_top] at he hset'
    rw [Operand.loadCode, hplace, hderefs, hheld, add_sub_cancel_right]
    refine ⟨e, .cons hd he, hset'.at hsp hat, hset'.value, fun q hq hqr => ?_⟩
    rw [hset'.others q hqr (hne q hq), hset.others q hqr (hne q hq)]
    rcases hq with rfl | rfl <;> rfl

theorem runs_locateCode (ha : o.addressable) (h : Denotes depth o v) (hc : c.At base depth s) :
    ∃ d, Runs hosts (o.locateCode depth) c d (v.route base s.memory) ∧
      d.At base (depth - o.held) s ∧ d.r0 = v.address base s.memory ∧ d.r1 = c.r1 := by
  cases v with
  | literal n => simp [Operand.addressable, h.1] at ha
  | named x n =>
    obtain ⟨hplace, hderefs, hwords⟩ := h
    have hheld : o.held = 0 := by simp [Operand.held, hplace]
    rw [Operand.locateCode, hplace, hheld, sub_zero]
    dsimp only
    cases n with
    | zero =>
      rw [if_pos (by simpa using hderefs), hwords rfl]
      exact ⟨_, runs_reachCode _ hc, ⟨hc.memory, hc.calls, hc.sp⟩, rfl, rfl⟩
    | succ n =>
      obtain ⟨d, hd, hset⟩ := runs_followCode (r := .r0) rfl (n + 1)
        { c with r0 := slotAddress base x.slot }
      rw [if_neg (by rw [hderefs]; omega), hderefs, ← hc.memory]
      exact ⟨d, (runs_reachCode x.slot hc).append hd,
        hset.at (by simp) ⟨hc.memory, hc.calls, hc.sp⟩, hset.value,
        hset.others .r1 (by simp) (by simp)⟩
  | result slot n =>
    obtain ⟨hplace, hderefs, rfl⟩ := h
    have hheld : o.held = 1 := by simp [Operand.held, hplace]
    cases n with
    -- a result that is not dereferenced has no address
    | zero => simp [Operand.addressable, hplace, hderefs] at ha
    | succ n =>
      have hat : Core.At base slot s { c with sp := c.sp + 1, r0 := c.memory.read c.sp } :=
        ⟨hc.memory, hc.calls, hc.sp_add_one⟩
      obtain ⟨d, hd, hset⟩ := runs_followCode (r := .r0) rfl n
        { c with sp := c.sp + 1, r0 := c.memory.read c.sp }
      rw [← hc.memory, Value.route, Value.address, ← hc.slotAddress_top]
      rw [Operand.locateCode, hplace, hderefs, hheld, add_sub_cancel_right,
        show ((n + 1 : Nat) : Int) - 1 = n by omega]
      exact ⟨d, .cons rfl hd, hset.at (by simp) hat, hset.value,
        hset.others .r1 (by simp) (by simp)⟩

end Denotes

theorem Core.At.pushed (hc : c.At base depth s) (v : UInt16) :
    Core.At base (depth + 1) (s.put base depth v)
      { c with sp := c.sp - 1, memory := c.memory.write (c.sp - 1) v } := by
  have haddress : c.sp - 1 = slotAddress base depth := by
    rw [hc.sp, slotAddress]
    abel
  refine ⟨?_, hc.calls, ?_⟩
  · rw [haddress, hc.memory]
    rfl
  · show c.sp - 1 = _
    rw [hc.sp, word_add, show word 1 = 1 from rfl, sub_sub]

theorem run_push_at {r : Reg} (hr : r.scratch) (hc : c.At base depth s) :
    ∃ d, (Exec.instr hosts (.push r)).run c = .ok () d ∧
      d.At base (depth + 1) (s.put base depth (c.reg r)) :=
  ⟨_, by cases r <;> simp [Reg.scratch] at hr <;> rfl, hc.pushed (c.reg r)⟩

namespace Denotes

variable {o l r : Operand} {v a b : Value}

/-- Spilling an operand puts its word in the first slot that is not used by anything else. -/
theorem runs_spillCode (h : Denotes depth o v) (hc : c.At base depth s) :
    ∃ d, Runs hosts (o.spillCode depth) c d (v.reads base s.memory) ∧
      d.At base (depth - o.held + 1) (s.put base (depth - o.held) (v.word base s.memory)) := by
  have hpush (hcode : o.spillCode depth = o.loadCode depth .r1 ++ [.push .r1]) :
      ∃ d, Runs hosts (o.spillCode depth) c d (v.reads base s.memory) ∧
        d.At base (depth - o.held + 1) (s.put base (depth - o.held) (v.word base s.memory)) := by
    obtain ⟨d, hd, hat, hvalue, -⟩ := h.runs_loadCode (.inl rfl) hc
    obtain ⟨e, he, hat'⟩ := run_push_at (r := .r1) rfl hat
    rw [hcode]
    exact ⟨e, (hd.append (.single he)).mono (by simp [Instr.accesses]), hvalue ▸ hat'⟩
  cases v with
  | literal n =>
    have hheld : o.held = 0 := by simp [Operand.held, h.1]
    have hc' : Core.At base depth s { c with r0 := word n } := ⟨hc.memory, hc.calls, hc.sp⟩
    obtain ⟨e, he, hat⟩ := run_push_at (r := .r0) rfl hc'
    rw [Operand.spillCode, h.1, hheld, sub_zero]
    exact ⟨e, .cons rfl (.single he), hat⟩
  | named x n => exact hpush (by rw [Operand.spillCode, h.1])
  | result slot n =>
    cases n with
    | zero =>
      obtain ⟨hplace, hderefs, rfl⟩ := h
      have hheld : o.held = 1 := by simp [Operand.held, hplace]
      rw [Operand.spillCode, hplace, hheld, add_sub_cancel_right]
      dsimp only
      -- nothing is emitted: the word is in its slot already
      rw [if_pos (by simpa using hderefs)]
      refine ⟨c, .nil, ?_, hc.calls, hc.sp⟩
      rw [hc.memory]
      exact (Memory.write_read _ _).symm
    | succ n =>
      refine hpush ?_
      rw [Operand.spillCode, h.1]
      exact if_neg (by rw [h.2.1]; omega)

/-- Combining two operands puts the result in the slot of the first of them, or the first free
one. -/
theorem runs_combineCode (op : Alu) (hl : Denotes depth l a) (hr : Denotes (depth + r.held) r b)
    (hc : c.At base (depth + r.held) s) :
    ∃ d, Runs hosts (combineCode (depth + r.held) op l r) c d
        (a.reads base s.memory ++ b.reads base s.memory) ∧
      d.At base (depth - l.held + 1) (s.put base (depth - l.held)
        (op.apply (a.word base s.memory) (b.word base s.memory))) := by
  -- whichever way the registers were loaded, the same two instructions follow
  have hlast {e : Core} (he : e.At base (depth - l.held) s) (h₁ : e.reg .r1 = a.word base s.memory)
      (h₂ : e.reg .r2 = b.word base s.memory) : ∃ d,
      Runs hosts [.alu op .r1 .r2, .push .r1] e d [] ∧
        d.At base (depth - l.held + 1) (s.put base (depth - l.held)
          (op.apply (a.word base s.memory) (b.word base s.memory))) := by
    obtain ⟨d, hd, hat⟩ :=
      run_push_at (r := .r1) (c := { e with r1 := op.apply e.r1 e.r2 }) (s := s)
      rfl ⟨he.memory, he.calls, he.sp⟩
    refine ⟨d, .cons rfl (.single hd), ?_⟩
    rw [← h₁, ← h₂]
    exact hat
  unfold combineCode
  by_cases hrs : r.place = .stack
  · -- the right operand is on top, and the left one is loaded from what lies under it
    obtain ⟨d, hd, hat, hv, -⟩ := hr.runs_loadCode (.inr rfl) hc
    rw [add_sub_cancel_right] at hat
    obtain ⟨e, he, hat', hv', hkeep⟩ := hl.runs_loadCode (.inl rfl) hat
    obtain ⟨t, ht, hat''⟩ := hlast hat' hv' (by rw [hkeep .r2 (.inr rfl) (by simp), hv])
    refine ⟨t, ?_, hat''⟩
    by_cases hls : l.place = .stack
    · simp only [hrs, hls, if_true, List.append_nil, add_sub_cancel_right]
      exact ((hd.append he).append ht).mono (by simp)
    · have hzero : l.held = 0 := by simp [Operand.held, hls]
      simp only [hrs, hls, if_true, if_false, List.append_nil, add_sub_cancel_right, hzero,
        sub_zero]
      exact ((hd.append he).append ht).mono (by simp)
  · have hzero : r.held = 0 := by simp [Operand.held, hrs]
    rw [hzero, add_zero] at hc ⊢
    by_cases hls : l.place = .stack
    · obtain ⟨d, hd, hat, hv, -⟩ := hl.runs_loadCode (.inl rfl) hc
      have hr := hr.of_ne_stack hrs (depth - l.held)
      obtain ⟨e, he, hat', hv', hkeep⟩ := hr.runs_loadCode (.inr rfl) hat
      rw [hzero, sub_zero] at hat'
      obtain ⟨t, ht, hat''⟩ := hlast hat' (by rw [hkeep .r1 (.inl rfl) (by simp), hv]) hv'
      refine ⟨t, ?_, hat''⟩
      simp only [hrs, hls, if_true, if_false, List.append_nil, List.nil_append, sub_zero]
      exact ((hd.append he).append ht).mono (by simp)
    · have hzero' : l.held = 0 := by simp [Operand.held, hls]
      have hr := hr.of_ne_stack hrs depth
      obtain ⟨d, hd, hat, hv, -⟩ := hr.runs_loadCode (.inr rfl) hc
      rw [hzero, sub_zero] at hat
      obtain ⟨e, he, hat', hv', hkeep⟩ := hl.runs_loadCode (.inl rfl) hat
      obtain ⟨t, ht, hat''⟩ := hlast hat' hv' (by rw [hkeep .r2 (.inr rfl) (by simp), hv])
      refine ⟨t, ?_, hat''⟩
      simp only [hrs, hls, if_false, List.nil_append, hzero', sub_zero]
      exact ((hd.append he).append ht).mono (by simp)

end Denotes

namespace Expr

mutual

/-- Whether every function that is called takes as many arguments as it is called with. -/
def callable (hosts : HostTable) : Expr → Bool
  | .literal _ | .name _ => true
  | .call f args => (hosts.lookup f).any (·.arity = (args.length : Int)) && callableArgs hosts args
  | .binary _ l r => l.callable hosts && r.callable hosts
  | .deref e | .addressOf e => e.callable hosts

def callableArgs (hosts : HostTable) : List Expr → Bool
  | [] => true
  | e :: args => e.callable hosts && callableArgs hosts args

end

mutual

def size : Expr → Nat
  | .literal _ | .name _ => 1
  | .call _ args => sizes args + 1
  | .binary _ l r => l.size + r.size + 1
  | .deref e | .addressOf e => e.size + 1

def sizes : List Expr → Nat
  | [] => 0
  | e :: args => e.size + sizes args

end

theorem sizes_append (args : List Expr) (e : Expr) : sizes (args ++ [e]) = sizes args + e.size := by
  induction args with
  | nil => simp [sizes]
  | cons a args ih => simp [sizes, ih, Nat.add_assoc]

end Expr

theorem Derives.size_le {level : Level} {ts : List Token} {e : Expr} (h : Derives level ts e) :
    e.size ≤ ts.length := by
  induction h with
  | argument => simp only [Expr.size, Expr.sizes, List.length_cons]; omega
  | nextArgument h hc hu ih ih' =>
    simp only [Expr.size, Expr.sizes_append, List.length_append, List.length_cons] at ih ⊢
    omega
  | _ => simp_all [Expr.size, Expr.sizes] <;> omega

def Variable.toLocal (v : Variable) : Local := ⟨v.name, v.address, v.type.words⟩

def Frame.locals (f : Frame) : List Local := f.visible.map Variable.toLocal

theorem Frame.find_locals (f : Frame) (x : String) :
    find f.locals x = (f.lookup x).map Variable.toLocal := by
  unfold find locals lookup
  rw [List.find?_map]
  rfl

def Meaning.Value.derefs : Value → Nat
  | .literal _ => 0
  | .named _ n | .result _ n => n

/-- A dereference is put off. -/
theorem Denotes.pointee {o o' : Operand} {v : Value} (h : Denotes depth o v)
    (hp : o.pointee = some o') (hlt : v.derefs + 1 < 2 ^ 63) :
    o.held = o'.held ∧ Denotes depth o' v.deref := by
  simp only [Operand.pointee, Option.ite_none_left_eq_some, Option.some.injEq] at hp
  obtain ⟨hdepth, rfl⟩ := hp
  have hderefs (n : Nat) (hn : o.derefs = n) (hlt : n + 1 < 2 ^ 63) :
      wrap (o.derefs + 1) = (n + 1 : Nat) := by
    rw [hn, wrap_eq_self (by omega) (by omega)]
    push_cast
    rfl
  refine ⟨rfl, ?_⟩
  cases v with
  | literal n => exact absurd h.2.2 hdepth
  | named x n => exact ⟨h.1, hderefs n h.2.1 hlt, by simp⟩
  | result slot n => exact ⟨h.1, hderefs n h.2.1 hlt, h.2.2⟩

theorem Expr.derefs_eval_lt (hosts : HostTable) (base : UInt16) (scope : List Local) (top : Int)
    (s : Store) : ∀ e : Expr, (eval hosts base scope top e s).1.derefs < e.size
  | .literal n => by simp [eval, Value.derefs, size]
  | .name x => by cases hx : find scope x <;> simp [eval, Value.derefs, size, hx]
  | .call f args => by simp [eval, Value.derefs, size]
  | .binary op l r => by simp [eval, Value.derefs, size]
  | .addressOf e => by simp [eval, Value.derefs, size]
  | .deref e => by
    have ih := derefs_eval_lt hosts base scope top s e
    simp only [eval, size]
    cases hv : (eval hosts base scope top e s).1 <;> rw [hv] at ih <;>
      simp_all [Value.derefs, Value.deref]

theorem word_natCast (n : Nat) : word n = UInt16.ofNat n := by
  unfold word
  rw [← UInt16.toNat_inj]
  simp only [UInt16.toNat_ofNat']
  omega

/-- A call takes its arguments from the slots on top and leaves its result in the first of them. -/
theorem run_call_at {name : String} {h : Host} {n : Nat} (hname : hosts.lookup name = some h)
    (harity : h.arity = n) (hfits : n ≤ 2 ^ 47) (hc : c.At base (depth + n) s) :
    ∃ d, (Exec.instr hosts (.call name)).run c = .ok () d ∧
      d.At base (depth + 1) (s.call hosts base name depth n) := by
  have hrun := Exec.run_call (c := c) hname (by simp [fitsInMemory, harity]; omega)
  -- the last argument is on top, so the arguments are read from the slots in reverse
  have hargs : (List.range n).reverse.map (fun i => c.memory.read (c.sp + UInt16.ofNat i)) =
      s.words base depth n := by
    have hrange : (List.range n).reverse = (List.range n).map fun i => n - 1 - i := by
      rw [List.range_eq_range', List.reverse_range', List.range_eq_range', Nat.zero_add]
    rw [Store.words, hrange, List.map_map]
    refine List.map_congr_left fun i hi => ?_
    have hi := List.mem_range.1 hi
    have haddress : c.sp + UInt16.ofNat (n - 1 - i) = slotAddress base (depth + i) := by
      rw [← word_natCast, hc.sp, slotAddress, Nat.cast_sub (by omega), Nat.cast_sub (by omega),
        word_sub, word_sub, word_add, word_add, show word (1 : Nat) = 1 from rfl]
      abel
    simp only [Function.comp_apply, haddress, hc.memory]
  have hsp : c.sp + UInt16.ofNat n - 1 = slotAddress base depth := by
    rw [← word_natCast, hc.sp, slotAddress, word_add]
    abel
  simp only [harity, Int.toNat_natCast, hargs, hsp] at hrun
  refine ⟨_, hrun, ?_, ?_, ?_⟩
  · simp [Store.call, hname, Store.put, hc.memory]
  · simp [Store.call, hname, Store.put, hc.calls]
  · show slotAddress base depth = _
    rw [slotAddress, word_add, show word 1 = 1 from rfl]
    abel

namespace Expr

variable {f : Frame}

theorem denotes_result (depth : Int) (type : Ty) :
    Denotes (depth + 1) { type, place := .stack } (.result depth 0) := ⟨rfl, rfl, rfl⟩

theorem length_argsCode (depth : Int) (args : List Expr) :
    args.length ≤ (argsCode f depth args).length := by
  induction args generalizing depth with
  | nil => simp
  | cons e args ih =>
    have hheld := e.held_le_length (f := f) depth
    have hspill : 1 - (e.result f).held ≤
        ((e.result f).spillCode (depth + (e.result f).held)).length :=
      (e.result f).length_spillCode
    have hargs := ih (depth + 1)
    simp only [argsCode, List.length_append, List.length_cons]
    omega

mutual

/-- The code of an expression does what the expression means. -/
theorem runs_code : ∀ (e : Expr) {o : Operand} {depth : Int} {s : Store} {c : Core},
    e.operand f = some o → e.callable hosts → e.size < 2 ^ 63 →
    (e.code f depth).length ≤ 2 ^ 47 → c.At base depth s →
    ∃ d, Runs hosts (e.code f depth) c d (reads hosts base f.locals depth e s) ∧
      d.At base (depth + o.held) (eval hosts base f.locals depth e s).2 ∧
      Denotes (depth + o.held) o (eval hosts base f.locals depth e s).1
  | .literal n, o, depth, s, c, ho, _, _, _, hc => by
    simp only [operand, Option.ite_none_right_eq_some, Option.some.injEq] at ho
    obtain ⟨-, rfl⟩ := ho
    exact ⟨c, .nil, hc.cast (by simp [Operand.held]), rfl, rfl, rfl⟩
  | .name x, o, depth, s, c, ho, _, _, _, hc => by
    simp only [operand, Option.map_eq_some_iff] at ho
    obtain ⟨v, hv, rfl⟩ := ho
    refine ⟨c, .nil, hc.cast (by simp [Operand.held]), ?_⟩
    rw [eval, Frame.find_locals, hv]
    exact ⟨rfl, rfl, fun _ => rfl⟩
  | .call g args, o, depth, s, c, ho, hcalls, hsize, hlen, hc => by
    simp only [operand, Option.ite_none_right_eq_some, Option.some.injEq] at ho
    obtain ⟨hscalars, rfl⟩ := ho
    simp only [callable, Bool.and_eq_true, Option.any_eq_true, decide_eq_true_eq] at hcalls
    obtain ⟨⟨h, hname, harity⟩, hargs⟩ := hcalls
    simp only [code, List.length_append, List.length_singleton] at hlen
    simp only [size] at hsize
    have hle := length_argsCode (f := f) depth args
    obtain ⟨d, hd, hat⟩ := runs_argsCode args hscalars hargs (by omega) (by omega) hc
    obtain ⟨e, he, hat'⟩ := run_call_at hname harity (by omega) hat
    exact ⟨e, (hd.append (.single he)).mono (by simp [Instr.accesses, reads]), hat',
      denotes_result depth _⟩
  | .binary op l r, o, depth, s, c, ho, hcalls, hsize, hlen, hc => by
    simp only [operand, Option.bind_eq_some_iff, Option.map_eq_some_iff] at ho
    obtain ⟨lo, hlo, ro, hro, type, -, rfl⟩ := ho
    simp only [callable, Bool.and_eq_true] at hcalls
    simp only [size] at hsize
    simp only [code, result_eq hlo, result_eq hro, List.length_append] at hlen ⊢
    obtain ⟨d, hd, hat, hl⟩ := runs_code l hlo hcalls.1 (by omega) (by omega) hc
    obtain ⟨e, he, hat', hr⟩ := runs_code r hro hcalls.2 (by omega) (by omega) hat
    obtain ⟨t, ht, hat''⟩ := hl.runs_combineCode op hr hat'
    rw [add_sub_cancel_right] at hat''
    rw [eval, reads, hl.held]
    exact ⟨t, (hd.append he).append ht, hat'', denotes_result depth type⟩
  | .deref e, o, depth, s, c, ho, hcalls, hsize, hlen, hc => by
    simp only [operand, Option.bind_eq_some_iff] at ho
    obtain ⟨o', ho', hp⟩ := ho
    simp only [callable] at hcalls
    simp only [size] at hsize
    simp only [code] at hlen ⊢
    obtain ⟨d, hd, hat, hv⟩ := runs_code e ho' hcalls (by omega) hlen hc
    -- no more pointers are followed than the tree has nodes, so their number does not wrap
    have hlt := derefs_eval_lt hosts base f.locals depth s e
    obtain ⟨hheld, hv'⟩ := hv.pointee hp (by omega)
    exact ⟨d, hd, hheld ▸ hat, hheld ▸ hv'⟩
  | .addressOf e, o, depth, s, c, ho, hcalls, hsize, hlen, hc => by
    simp only [operand, Option.bind_eq_some_iff, Option.ite_none_right_eq_some,
      Option.some.injEq] at ho
    obtain ⟨o', ho', ha, rfl⟩ := ho
    simp only [callable] at hcalls
    simp only [size] at hsize
    simp only [code, result_eq ho', List.length_append] at hlen ⊢
    obtain ⟨d, hd, hat, hv⟩ := runs_code e ho' hcalls (by omega) (by omega) hc
    obtain ⟨t, ht, hat', haddress, -⟩ := hv.runs_locateCode ha hat
    rw [add_sub_cancel_right] at hat'
    obtain ⟨u, hu, hat''⟩ := run_push_at (r := .r0) rfl hat'
    refine ⟨u, ((hd.append ht).append (.single hu)).mono (by simp [Instr.accesses, reads]), ?_,
      denotes_result depth _⟩
    rw [eval, ← haddress]
    exact hat''

theorem runs_argsCode : ∀ (args : List Expr) {depth : Int} {s : Store} {c : Core},
    scalars f args → callableArgs hosts args → sizes args < 2 ^ 63 →
    (argsCode f depth args).length ≤ 2 ^ 47 → c.At base depth s →
    ∃ d, Runs hosts (argsCode f depth args) c d (readsArgs hosts base f.locals depth args s) ∧
      d.At base (depth + args.length) (evalArgs hosts base f.locals depth args s)
  | [], depth, s, c, _, _, _, _, hc => ⟨c, .nil, hc.cast (by simp)⟩
  | e :: args, depth, s, c, hscalars, hcalls, hsize, hlen, hc => by
    simp only [scalars, Bool.and_eq_true] at hscalars
    obtain ⟨hscalar, hscalars⟩ := hscalars
    simp only [callableArgs, Bool.and_eq_true] at hcalls
    simp only [sizes] at hsize
    cases ho : e.operand f with
    | none => simp [ho] at hscalar
    | some o =>
      simp only [argsCode, result_eq ho, List.length_append] at hlen ⊢
      obtain ⟨d, hd, hat, hv⟩ := runs_code e ho hcalls.1 (by omega) (by omega) hc
      obtain ⟨t, ht, hat'⟩ := hv.runs_spillCode hat
      rw [add_sub_cancel_right] at hat'
      obtain ⟨u, hu, hat''⟩ := runs_argsCode args hscalars hcalls.2 (by omega) (by omega) hat'
      refine ⟨u, (hd.append ht).append hu, hat''.cast ?_⟩
      simp only [List.length_cons]
      push_cast
      ring

end

end Expr

end OnePass
