import Mathlib
import OnePass.Session.Reduce

namespace OnePass

section

variable (m n : Int)

@[simp] theorem wrap_add_wrap : wrap (m + wrap n) = wrap (m + n) := Int.add_bmod_bmod

@[simp] theorem wrap_wrap_add : wrap (wrap m + n) = wrap (m + n) := Int.bmod_add_bmod

@[simp] theorem wrap_sub_wrap : wrap (m - wrap n) = wrap (m - n) := Int.sub_bmod_bmod

@[simp] theorem wrap_wrap_sub : wrap (wrap m - n) = wrap (m - n) := Int.bmod_sub_bmod

@[simp] theorem wrap_wrap : wrap (wrap n) = wrap n := Int.bmod_bmod

theorem wrap_eq_zero_iff : wrap n = 0 ↔ 2 ^ 64 ∣ n := Int.dvd_iff_bmod_eq_zero.symm

end

/-- The session with `code` appended and its frame at `depth`. -/
def Session.emitted (s : Session) (code : List Instr) (depth : Int) : Session :=
  { s with code := s.code ++ code, frame := { s.frame with depth } }

/-- How far above `sp` a slot lies in a frame of that depth, a distance that wraps at 64 bits. -/
def slotOffset (depth slot : Int) : Int := wrap (depth - 1 - slot)

def reachCode (depth slot : Int) : List Instr := [.mov .r0 .sp, .addi (slotOffset depth slot)]

def followCode (r : Reg) (n : Int) : List Instr := List.replicate n.toNat (.ldr r r)

/-- A type's size in words; zero where the type is missing. -/
def Ty.words (t : Ty) : Int := if 0 < t.depth then 1 else (t.base.map (·.size)).getD 0

theorem Ty.size_eq {t : Ty} (h : t.base.isSome) : t.size = .ok t.words := by
  obtain ⟨b, hb⟩ := Option.isSome_iff_exists.1 h
  unfold size words info
  simp only [hb, Option.map_some, Option.getD_some]
  split <;> rfl

namespace Operand

/-- Words of the evaluation stack that an operand holds. -/
def held (o : Operand) : Int := if o.place = .stack then 1 else 0

/-- Code that leaves the value of an operand in `r`. -/
def loadCode (depth : Int) (r : Reg) (o : Operand) : List Instr :=
  (match o.place with
    | .immediate n => .movi n :: if r = .r0 then [] else [.mov r .r0]
    | .frame slot => reachCode depth slot ++ [.ldr r .r0]
    | .stack => [.pop r]
    | .register q => if q = r then [] else [.mov r q]
    | .unknown _ => []) ++ followCode r o.derefs

/-- Code that leaves the address of an operand in `r0`. -/
def locateCode (depth : Int) (o : Operand) : List Instr :=
  match o.place with
  | .frame slot =>
    if o.derefs = 0 then reachCode depth (slot + o.type.words - 1)
    else reachCode depth slot ++ followCode .r0 o.derefs
  | .stack => .pop .r0 :: followCode .r0 (o.derefs - 1)
  | _ => []

/-- Code that leaves the value of an operand on top of the evaluation stack. -/
def spillCode (depth : Int) (o : Operand) : List Instr :=
  match o.place with
  | .stack => if o.derefs = 0 then [] else o.loadCode depth .r1 ++ [.push .r1]
  | .immediate n => [.movi n, .push .r0]
  | _ => o.loadCode depth .r1 ++ [.push .r1]

end Operand

/-- Code that replaces two operands by the result of an operator. Operands on the evaluation stack
are popped before any slot is reached. -/
def combineCode (depth : Int) (op : Alu) (l r : Operand) : List Instr :=
  let final := depth - r.held - l.held
  (if r.place = .stack then r.loadCode depth .r2 else []) ++
  (if l.place = .stack then l.loadCode (depth - r.held) .r1 else []) ++
  (if r.place = .stack then [] else r.loadCode final .r2) ++
  (if l.place = .stack then [] else l.loadCode final .r1) ++
  [.alu op .r1 .r2, .push .r1]

/-- A depth that leaves room for the words of one more statement. -/
def InRange (depth : Int) : Prop := 0 ≤ depth ∧ depth < 2 ^ 62

theorem InRange.wrap_eq {depth n : Int} (h : InRange depth) (lo : -2 ^ 62 ≤ n) (hi : n ≤ 2 ^ 62) :
    wrap (depth + n) = depth + n := by
  obtain ⟨h₀, h₁⟩ := h
  exact wrap_eq_self (by omega) (by omega)

theorem InRange.lt {depth : Int} (h : InRange depth) : depth < 2 ^ 63 := by
  have := h.2
  omega

theorem InRange.sub_held {depth : Int} {o : Operand} (h : InRange depth) (hi : o.held ≤ depth) :
    InRange (depth - o.held) := by
  have : 0 ≤ o.held := by
    unfold Operand.held
    split <;> decide
  obtain ⟨h₀, h₁⟩ := h
  exact ⟨by omega, by omega⟩

namespace Session

@[simp] theorem emitted_code (s : Session) (code : List Instr) (depth : Int) :
    (s.emitted code depth).code = s.code ++ code := rfl

theorem emitted_size (s : Session) (code : List Instr) (depth : Int) :
    (s.emitted code depth).code.size = s.code.size + code.length := by
  rw [← Array.length_toList]
  simp

@[simp] theorem emitted_frame (s : Session) (code : List Instr) (depth : Int) :
    (s.emitted code depth).frame = { s.frame with depth } := rfl

@[simp] theorem emitted_emitted (s : Session) (code code' : List Instr) (depth depth' : Int) :
    (s.emitted code depth).emitted code' depth' = s.emitted (code ++ code') depth' := by
  have : s.code ++ code ++ code' = s.code ++ (code ++ code') := by
    apply Array.toList_inj.1
    simp
  simp [emitted, this]

@[simp] theorem emitted_nil (s : Session) : s.emitted [] s.frame.depth = s := by
  simp [emitted]

end Session

namespace Build

variable {s : Session}

theorem run_bind_ok {α β : Type} {m : Build α} {f : α → Build β} {t : Session} {a : α}
    (h : m.run s = .ok a t) : (m >>= f).run s = (f a).run t := by
  rw [EStateM.run_bind, h]

@[simp] theorem run_sound {α : Type} (a : α) : (sound (.ok a)).run s = .ok a s := rfl

@[simp] theorem run_sound_error {α : Type} (f : Fault) :
    (sound (.error f) : Build α).run s = .error (.crash f) s := rfl

@[simp] theorem run_reject {α : Type} (line : Int) (problem : Problem) :
    (reject line problem : Build α).run s = .error (.reject ⟨line, problem⟩) s := rfl

@[simp] theorem run_note (e : Event) :
    (note e).run s = .ok () { s with trace := s.trace.push e } := rfl

@[simp] theorem run_tokenAt (i : Int) : (tokenAt i).run s = .ok (s.token i) s := rfl

@[simp] theorem run_setStack (stack : List Directive) :
    (setStack stack).run s = .ok () { s with stack } := rfl

@[simp] theorem run_setExpectOperand (expectOperand : Bool) :
    (setExpectOperand expectOperand).run s = .ok () { s with expectOperand } := rfl

@[simp] theorem run_emit (code : List Instr) :
    (emit code).run s = .ok () (s.emitted code s.frame.depth) := rfl

@[simp] theorem run_reach (slot : Int) :
    (reach slot).run s = .ok () (s.emitted (reachCode s.frame.depth slot) s.frame.depth) := rfl

@[simp] theorem run_follow (r : Reg) (n : Int) :
    (follow r n).run s = .ok () (s.emitted (followCode r n) s.frame.depth) := rfl

theorem run_grow {n : Int} (h : InRange s.frame.depth) (lo : -2 ^ 62 ≤ n) (hi : n ≤ 2 ^ 62) :
    (grow n).run s = .ok () (s.emitted [] (s.frame.depth + n)) := by
  simp [grow, Frame.push, h.wrap_eq lo hi, Session.emitted]

theorem run_push_wrap (r : Reg) :
    (push r).run s = .ok () (s.emitted [.push r] (wrap (s.frame.depth + 1))) := by
  simp [push, EStateM.run_bind, grow, Frame.push, Session.emitted]

theorem run_shrink_of_lt {n : Int} (lo : 0 ≤ n) (hi : n ≤ s.frame.depth)
    (hlt : s.frame.depth < 2 ^ 63) :
    (shrink n).run s = .ok () (s.emitted [] (s.frame.depth - n)) := by
  have hw : wrap (s.frame.depth - n) = s.frame.depth - n := wrap_eq_self (by omega) (by omega)
  have hpop : s.frame.pop n = .ok { s.frame with depth := s.frame.depth - n } := by
    rw [Frame.pop, hw, if_neg (by omega)]
  simp [shrink, EStateM.run_bind, hpop, Session.emitted]

theorem run_pop_of_lt (r : Reg) (hi : 1 ≤ s.frame.depth) (hlt : s.frame.depth < 2 ^ 63) :
    (pop r).run s = .ok () (s.emitted [.pop r] (s.frame.depth - 1)) := by
  unfold pop
  rw [run_bind_ok (run_emit _), run_shrink_of_lt (s := s.emitted _ _) (by omega) hi hlt]
  simp

theorem run_load_of_lt {o : Operand} (r : Reg) (hi : o.held ≤ s.frame.depth)
    (hlt : s.frame.depth < 2 ^ 63) :
    (load o r).run s = .ok { o with derefs := 0, place := .register r }
      (s.emitted (o.loadCode s.frame.depth r) (s.frame.depth - o.held)) := by
  obtain ⟨type, derefs, place⟩ := o
  cases place with
  | stack => simp [load, EStateM.run_bind, Operand.held, Operand.loadCode, run_pop_of_lt r hi hlt]
  | _ => simp [load, EStateM.run_bind, Operand.held, Operand.loadCode]

theorem run_locate_of_lt {o : Operand} (hi : o.held ≤ s.frame.depth)
    (hlt : s.frame.depth < 2 ^ 63) (ht : o.type.size = .ok o.type.words) :
    (locate o).run s =
      .ok () (s.emitted (o.locateCode s.frame.depth) (s.frame.depth - o.held)) := by
  obtain ⟨type, derefs, place⟩ := o
  cases place with
  | stack =>
    simp [locate, EStateM.run_bind, Operand.held, Operand.locateCode, run_pop_of_lt .r0 hi hlt]
  | frame slot =>
    by_cases hd : derefs = 0 <;>
      simp [locate, EStateM.run_bind, Operand.held, Operand.locateCode, hd, ht]
  | _ => simp [locate, Operand.held, Operand.locateCode]

theorem run_spill_of_lt {o : Operand} (hi : o.held ≤ s.frame.depth)
    (hlt : s.frame.depth < 2 ^ 63) :
    (spill o).run s = .ok { o with derefs := 0, place := .stack }
      (s.emitted (o.spillCode s.frame.depth) (wrap (s.frame.depth - o.held + 1))) := by
  have hpush (o : Operand) :
      (push .r1).run (s.emitted (o.loadCode s.frame.depth .r1) (s.frame.depth - o.held)) = .ok ()
        (s.emitted (o.loadCode s.frame.depth .r1 ++ [.push .r1])
          (wrap (s.frame.depth - o.held + 1))) := by
    rw [run_push_wrap]
    simp
  obtain ⟨type, derefs, place⟩ := o
  cases place with
  | stack =>
    by_cases hd : derefs = 0
    · -- the word is on top already, and what it is counts for one
      have hpos : 1 ≤ s.frame.depth := by simpa [Operand.held] using hi
      have hw : wrap s.frame.depth = s.frame.depth := wrap_eq_self (by omega) (by omega)
      simp [spill, hd, Operand.held, Operand.spillCode, hw]
    · simp [spill, EStateM.run_bind, run_load_of_lt .r1 hi hlt, hd, hpush, Operand.spillCode]
  | immediate n => simp [spill, EStateM.run_bind, Operand.held, Operand.spillCode, run_push_wrap]
  | _ => simp [spill, EStateM.run_bind, run_load_of_lt .r1 hi hlt, hpush, Operand.spillCode]

theorem run_push (r : Reg) (h : InRange s.frame.depth) :
    (push r).run s = .ok () (s.emitted [.push r] (s.frame.depth + 1)) := by
  rw [run_push_wrap, h.wrap_eq (by omega) (by omega)]

theorem run_shrink {n : Int} (h : InRange s.frame.depth) (lo : 0 ≤ n) (hi : n ≤ s.frame.depth) :
    (shrink n).run s = .ok () (s.emitted [] (s.frame.depth - n)) :=
  run_shrink_of_lt lo hi h.lt

theorem run_pop (r : Reg) (h : InRange s.frame.depth) (hi : 1 ≤ s.frame.depth) :
    (pop r).run s = .ok () (s.emitted [.pop r] (s.frame.depth - 1)) :=
  run_pop_of_lt r hi h.lt

theorem run_load {o : Operand} (r : Reg) (h : InRange s.frame.depth)
    (hi : o.held ≤ s.frame.depth) :
    (load o r).run s = .ok { o with derefs := 0, place := .register r }
      (s.emitted (o.loadCode s.frame.depth r) (s.frame.depth - o.held)) :=
  run_load_of_lt r hi h.lt

theorem run_locate {o : Operand} (h : InRange s.frame.depth) (hi : o.held ≤ s.frame.depth)
    (ht : o.type.base.isSome) :
    (locate o).run s =
      .ok () (s.emitted (o.locateCode s.frame.depth) (s.frame.depth - o.held)) :=
  run_locate_of_lt hi h.lt (Ty.size_eq ht)

theorem run_spill {o : Operand} (h : InRange s.frame.depth) (hi : o.held ≤ s.frame.depth) :
    (spill o).run s = .ok { o with derefs := 0, place := .stack }
      (s.emitted (o.spillCode s.frame.depth) (s.frame.depth - o.held + 1)) := by
  rw [run_spill_of_lt hi h.lt, (h.sub_held hi).wrap_eq (by omega) (by omega)]

end Build

end OnePass
