import Mathlib
import OnePass.Proofs.Shift

namespace OnePass

/-- The marks of the open scopes, innermost first, go down to zero from `depth`. -/
def Nested : List Scope → Int → Prop
  | [], depth => 0 ≤ depth
  | m :: outer, depth => m.depth ≤ depth ∧ Nested outer m.depth

theorem Nested.mono {marks : List Scope} {d e : Int} (h : Nested marks d) (hle : d ≤ e) :
    Nested marks e := by
  cases marks with
  | nil => exact Int.le_trans h hle
  | cons m outer => exact ⟨Int.le_trans h.1 hle, h.2⟩

theorem Nested.nonneg {marks : List Scope} {d : Int} (h : Nested marks d) : 0 ≤ d := by
  induction marks generalizing d with
  | nil => exact h
  | cons m outer ih => exact Int.le_trans (ih h.2) h.1

theorem Operand.length_spillCode (o : Operand) {depth : Int} :
    1 - o.held ≤ (o.spillCode depth).length := by
  unfold held spillCode
  cases o.place <;> simp

/-- Every call that a trace notes has a function that takes as many arguments. -/
def Registered (hosts : HostTable) (trace : Array Event) : Prop :=
  ∀ name args, Event.call name args ∈ trace →
    ∃ h : Host, hosts.lookup name = some h ∧ h.arity = args

namespace Session

/-- The code written so far can be held in memory: the text of every instruction takes up six bytes
or more. -/
def InMemory (s : Session) : Prop := fitsInMemory 6 s.code.size

/-- The words above the marks that no variable owns are held as `held` says, and `sp` is where the
depth says. -/
structure Balanced (held : List Int) (s : Session) : Prop where
  held_nonneg : ∀ n ∈ held, 0 ≤ n
  marks : Nested s.frame.scopes (s.frame.depth - held.sum)
  depth_le : s.frame.depth ≤ s.code.size
  shifts : ∀ hosts, Registered hosts s.trace → Shifts hosts s.code.toList s.frame.depth

/-- No type is missing, and the accounts are in order as long as the code fits in memory. -/
structure Within (held : List Int) (s : Session) : Prop where
  vars : ∀ v ∈ s.frame.vars, v.type.base.isSome
  types : ∀ e ∈ s.types.entries, e.2.isSome
  balanced : s.InMemory → s.Balanced held

variable {s : Session} {held held' : List Int}

theorem InMemory.size_le (h : s.InMemory) : 6 * s.code.size ≤ 2 ^ 48 := by
  have : (6 : Int) * s.code.size ≤ 2 ^ 48 := by
    simp only [InMemory, fitsInMemory, Bool.and_eq_true, decide_eq_true_eq] at h
    exact h.2
  exact_mod_cast this

theorem InMemory.of_emitted {code : List Instr} {depth : Int}
    (h : (s.emitted code depth).InMemory) : s.InMemory := by
  simp only [InMemory, fitsInMemory, Bool.and_eq_true, decide_eq_true_eq, emitted_size] at h ⊢
  push_cast at h
  omega

theorem Balanced.sum_nonneg (h : s.Balanced held) : 0 ≤ held.sum := List.sum_nonneg h.held_nonneg

theorem Balanced.sum_le (h : s.Balanced held) : held.sum ≤ s.frame.depth := by
  have := h.marks.nonneg
  omega

theorem Balanced.inRange (h : s.Balanced held) (hm : s.InMemory) : InRange s.frame.depth := by
  have h₀ := h.sum_nonneg
  have h₁ := h.sum_le
  have h₂ := h.depth_le
  have h₃ := hm.size_le
  exact ⟨by omega, by omega⟩

/-- Code keeps the accounts when it moves `sp` by what is held more after it. -/
theorem Balanced.emitted {n : Int} {code : List Instr} (h : s.Balanced held)
    (hheld : ∀ n ∈ held', 0 ≤ n) (hsum : held'.sum = held.sum + n) (hlen : n ≤ code.length)
    (hcode : ∀ hosts, Shifts hosts code n) :
    (s.emitted code (s.frame.depth + n)).Balanced held' where
  held_nonneg := hheld
  marks := by
    have : s.frame.depth + n - held'.sum = s.frame.depth - held.sum := by omega
    exact this ▸ h.marks
  depth_le := by
    have := h.depth_le
    rw [emitted_frame, emitted_size]
    push_cast
    omega
  shifts := fun hosts hr => by
    have := (h.shifts hosts hr).append (hcode hosts)
    simpa using this

/-- The accounts do not depend on the variables, the types, the tokens or the directive stack. -/
theorem Balanced.congr {t : Session} (h : s.Balanced held)
    (hscopes : t.frame.scopes = s.frame.scopes)
    (hdepth : t.frame.depth = s.frame.depth) (hcode : t.code = s.code)
    (htrace : ∀ e ∈ s.trace, e ∈ t.trace) : t.Balanced held where
  held_nonneg := h.held_nonneg
  marks := by rw [hscopes, hdepth]; exact h.marks
  depth_le := by rw [hdepth, hcode]; exact h.depth_le
  shifts := fun hosts hr => by
    rw [hdepth, hcode]
    exact h.shifts hosts fun name args hcall => hr name args (htrace _ hcall)

theorem Within.congr {t : Session} (h : s.Within held) (htypes : t.types = s.types)
    (hframe : t.frame = s.frame) (hcode : t.code = s.code) (htrace : ∀ e ∈ s.trace, e ∈ t.trace) :
    t.Within held where
  vars := by rw [hframe]; exact h.vars
  types := by rw [htypes]; exact h.types
  balanced := fun hm => by
    have hm : s.InMemory := by rwa [InMemory, hcode] at hm
    exact (h.balanced hm).congr (by rw [hframe]) (by rw [hframe]) hcode htrace

/-- Words may be handed over to a variable. -/
theorem Balanced.release (h : s.Balanced held) (hheld : ∀ n ∈ held', 0 ≤ n)
    (hsum : held'.sum ≤ held.sum) : s.Balanced held' where
  held_nonneg := hheld
  marks := h.marks.mono (by omega)
  depth_le := h.depth_le
  shifts := h.shifts

theorem Within.release (h : s.Within held)
    (hheld : (∀ n ∈ held, 0 ≤ n) → (∀ n ∈ held', 0 ≤ n) ∧ held'.sum ≤ held.sum) :
    s.Within held' where
  vars := h.vars
  types := h.types
  balanced := fun hm =>
    have hb := h.balanced hm
    hb.release (hheld hb.held_nonneg).1 (hheld hb.held_nonneg).2

theorem Within.rest (h : s.Within held) : s.Within [] :=
  h.release fun hn => ⟨by simp, by simpa using List.sum_nonneg hn⟩

theorem Within.tail {n : Int} (h : s.Within (n :: held)) : s.Within held :=
  h.release fun hn => ⟨fun m hm => hn m (by simp [hm]), by
    have := hn n (by simp)
    simp only [List.sum_cons]
    omega⟩

theorem within_zero_cons : s.Within (0 :: held) ↔ s.Within held :=
  ⟨Within.tail, fun h => h.release fun hn => ⟨by simpa using hn, by simp⟩⟩

end Session

namespace Build

variable {α β : Type} {s : Session} {held held' : List Int}

/-- How a step may end: in a result that `Q` describes, or stopped with the accounts in order. It
crashes only where the code does not fit in memory. -/
def Ends (Q : α → Session → Prop) : EStateM.Result Stop Session α → Prop
  | .ok a t => Q a t
  | .error (.reject _) t => t.Within []
  | .error (.crash _) t => t.Within [] ∧ ¬ t.InMemory

theorem Ends.bind {m : Build α} {f : α → Build β} {Q : α → Session → Prop}
    {R : β → Session → Prop} (hm : Ends Q (m.run s)) (hf : ∀ a t, Q a t → Ends R ((f a).run t)) :
    Ends R ((m >>= f).run s) := by
  rw [EStateM.run_bind]
  cases hr : m.run s with
  | ok a t =>
    rw [hr] at hm
    exact hf a t hm
  | error e t =>
    rw [hr] at hm
    cases e <;> exact hm

theorem Ends.mono {r : EStateM.Result Stop Session α} {Q R : α → Session → Prop} (h : Ends Q r)
    (hQ : ∀ a t, Q a t → R a t) : Ends R r := by
  cases r with
  | ok a t => exact hQ a t h
  | error e t => cases e <;> exact h

theorem ends_reject {line : Int} {problem : Problem} {Q : α → Session → Prop}
    (h : s.Within held) : Ends Q ((reject line problem : Build α).run s) := h.rest

theorem Checks.ends {m : Build α} {r : Option α} (hm : Checks m s r) (h : s.Within held) :
    Ends (fun a t => t = s ∧ r = some a) (m.run s) := by
  cases r with
  | none =>
    obtain ⟨d, hd⟩ := hm
    rw [hd]
    exact h.rest
  | some a =>
    rw [show m.run s = .ok a s from hm]
    exact ⟨rfl, rfl⟩

/-- A step that does nothing but emit code and move the depth, by `n` words where it goes
through. -/
def Emits (n : Int) (m : Build α) : Prop :=
  ∀ s : Session, ∃ code depth, match m.run s with
    | .ok _ t => t = s.emitted code depth ∧
        (wrap s.frame.depth = s.frame.depth → depth = wrap (s.frame.depth + n))
    | .error (.reject _) _ => False
    | .error (.crash _) t => t = s.emitted code depth

section

variable {m n : Int}

theorem Emits.cast {f : Build α} (h : Emits m f) (e : m = n) : Emits n f := e ▸ h

theorem Emits.bind_value {f : Build α} {g : α → Build β} (v : α) (hf : Emits m f)
    (hv : ∀ s a t, f.run s = .ok a t → a = v) (hg : Emits n (g v)) : Emits (m + n) (f >>= g) := by
  intro s
  obtain ⟨code, depth, h⟩ := hf s
  rw [EStateM.run_bind]
  cases hr : f.run s with
  | ok a t =>
    rw [hr] at h
    obtain ⟨rfl, hdepth⟩ := h
    obtain rfl := hv s a _ hr
    obtain ⟨code', depth', h'⟩ := hg (s.emitted code depth)
    refine ⟨code ++ code', depth', ?_⟩
    rw [Session.emitted_emitted] at h'
    dsimp only
    cases hr' : (g a).run (s.emitted code depth) with
    | ok b u =>
      rw [hr'] at h'
      refine ⟨h'.1, fun hw => ?_⟩
      obtain rfl := hdepth hw
      rw [h'.2 (wrap_wrap _)]
      simp [add_assoc]
    | error e u =>
      rw [hr'] at h'
      cases e <;> exact h'
  | error e t =>
    rw [hr] at h
    cases e <;> exact ⟨code, depth, h⟩

theorem Emits.bind {f : Build Unit} {g : Unit → Build β} (hf : Emits m f)
    (hg : ∀ u, Emits n (g u)) : Emits (m + n) (f >>= g) :=
  hf.bind_value () (fun _ _ _ _ => rfl) (hg ())

theorem emits_pure (a : α) : Emits 0 (pure a : Build α) :=
  fun s => ⟨[], s.frame.depth, by simp, fun h => by simp [h]⟩

theorem emits_emit (code : List Instr) : Emits 0 (emit code) :=
  fun s => ⟨code, s.frame.depth, rfl, fun h => by simp [h]⟩

theorem emits_grow (n : Int) : Emits n (grow n) :=
  fun s => ⟨[], wrap (s.frame.depth + n), by simp [Frame.push, Session.emitted], fun _ => rfl⟩

theorem emits_shrink (n : Int) : Emits (-n) (shrink n) := by
  intro s
  unfold shrink Frame.pop
  by_cases h : wrap (s.frame.depth - n) < 0
  · exact ⟨[], s.frame.depth, by simp [EStateM.run_bind, h]⟩
  · refine ⟨[], wrap (s.frame.depth + -n), ?_⟩
    rw [← sub_eq_add_neg]
    simp [EStateM.run_bind, h, Session.emitted]

theorem emits_push (r : Reg) : Emits 1 (push r) :=
  ((emits_emit _).bind fun _ => emits_grow 1).cast (zero_add _)

theorem emits_pop (r : Reg) : Emits (-1) (pop r) :=
  ((emits_emit _).bind fun _ => emits_shrink 1).cast (zero_add _)

theorem emits_call (name : String) (args : Int) : Emits (1 - args) (call name args) :=
  ((emits_emit _).bind fun _ => (emits_shrink args).bind fun _ => emits_grow 1).cast (by ring)

theorem emits_reach (slot : Int) : Emits 0 (reach slot) :=
  fun s => ⟨_, s.frame.depth, rfl, fun h => by simp [h]⟩

end

theorem load_eq {o : Operand} {r : Reg} (s : Session) (a : Operand) (t : Session)
    (h : (load o r).run s = .ok a t) : a = { o with derefs := 0, place := .register r } := by
  obtain ⟨type, derefs, place⟩ := o
  cases place with
  | stack =>
    simp only [load, EStateM.run_bind] at h
    split at h <;> cases h
    rfl
  | _ =>
    cases h
    rfl

theorem emits_load (o : Operand) (r : Reg) : Emits (-o.held) (load o r) := by
  have hrest : Emits 0 (follow r o.derefs >>= fun _ =>
      pure ({ o with derefs := 0, place := .register r } : Operand)) :=
    (emits_emit _).bind fun _ => emits_pure _
  unfold load
  cases hp : o.place with
  | immediate n => exact ((emits_emit _).bind fun _ => hrest).cast (by simp [Operand.held, hp])
  | frame slot =>
    exact ((emits_reach slot).bind fun _ => (emits_emit _).bind fun _ => hrest).cast
      (by simp [Operand.held, hp])
  | stack => exact ((emits_pop r).bind fun _ => hrest).cast (by simp [Operand.held, hp])
  | register q => exact ((emits_emit _).bind fun _ => hrest).cast (by simp [Operand.held, hp])
  | unknown n => exact hrest.cast (by simp [Operand.held, hp])

theorem emits_locate (o : Operand) : Emits (-o.held) (locate o) := by
  unfold locate
  cases hp : o.place with
  | frame slot =>
    have hzero : 0 = -o.held := by simp [Operand.held, hp]
    by_cases h : o.derefs = 0
    · simp only [h, if_true]
      cases o.type.size with
      | ok size => exact (emits_reach _).cast hzero
      | error f => exact fun s => ⟨[], s.frame.depth, s.emitted_nil.symm⟩
    · simp only [h, if_false]
      exact ((emits_reach slot).bind fun _ => emits_emit _).cast hzero
  | stack =>
    exact ((emits_pop _).bind fun _ => emits_emit _).cast (by simp [Operand.held, hp])
  | _ => exact (emits_pure ()).cast (by simp [Operand.held, hp])

theorem emits_spill (o : Operand) : Emits (1 - o.held) (spill o) := by
  have hpush : Emits (1 - o.held) (load o .r1 >>= fun _ => push .r1 >>= fun _ =>
      pure ({ o with derefs := 0, place := .stack } : Operand)) :=
    ((emits_load o .r1).bind_value _ load_eq
      ((emits_push .r1).bind fun _ => emits_pure _)).cast (by ring)
  unfold spill
  cases hp : o.place with
  | stack =>
    by_cases h : o.derefs = 0
    · simp only [h, ne_eq, not_true_eq_false, if_false]
      exact (emits_pure _).cast (by simp [Operand.held, hp])
    · simp only [ne_eq, h, not_false_eq_true, if_true]
      exact hpush
  | immediate n =>
    exact ((emits_emit _).bind fun _ => (emits_push _).bind fun _ => emits_pure _).cast
      (by simp [Operand.held, hp])
  | _ => exact hpush

theorem popOperand_eq {o : Operand} {r : Reg} (s : Session) (a : Operand) (t : Session)
    (h : (popOperand o r).run s = .ok a t) : a = o.popped r := by
  unfold popOperand at h
  unfold Operand.popped
  by_cases hp : o.place = .stack
  · rw [if_pos hp] at h ⊢
    exact load_eq s a t h
  · rw [if_neg hp] at h ⊢
    cases h
    rfl

theorem emits_popOperand (o : Operand) (r : Reg) : Emits (-o.held) (popOperand o r) := by
  unfold popOperand
  split
  · exact emits_load o r
  · exact (emits_pure o).cast (by simp [Operand.held, *])

theorem emits_emitCombine (kind : DirectiveKind) (l r : Operand) :
    Emits (1 - r.held - l.held) (emitCombine kind l r) := by
  have hload (o : Operand) (q : Reg) : Emits 0 (load (o.popped q) q) :=
    (emits_load _ q).cast (by simp [Operand.held_popped])
  exact ((emits_popOperand r .r2).bind_value _ popOperand_eq
    ((emits_popOperand l .r1).bind_value _ popOperand_eq
      ((hload r .r2).bind_value _ load_eq ((hload l .r1).bind_value _ load_eq
        ((emits_emit _).bind fun _ => emits_push .r1))))).cast (by ring)

theorem emits_emitStore (l r : Operand) : Emits (-r.held - l.held) (emitStore l r) :=
  ((emits_load r .r1).bind_value _ load_eq
    ((emits_locate l).bind fun _ => emits_emit _)).cast (by ring)

/-- A step that emits code keeps the accounts when the code moves `sp` by as many words as the
step holds more than it gives up. -/
theorem Emits.ends {m : Build α} {code : List Instr} {n : Int} {ws : List Int} {k : Int}
    (he : Emits k m)
    (front back : List Int) (h : s.Within (front ++ ws)) (hback : ∀ n ∈ back, 0 ≤ n)
    (hn : n = back.sum - front.sum) (hlen : n ≤ code.length) (hcode : ∀ hosts, Shifts hosts code n)
    (hrun : InRange s.frame.depth → front.sum ≤ s.frame.depth →
      ∃ a, m.run s = .ok a (s.emitted code (s.frame.depth + n))) :
    Ends (fun _ t => t.Within (back ++ ws)) (m.run s) := by
  by_cases hm : s.InMemory
  · have hb := h.balanced hm
    have hws : ∀ n ∈ ws, 0 ≤ n := fun n hw => hb.held_nonneg n (by simp [hw])
    have hsum := hb.sum_le
    have hpos := List.sum_nonneg hws
    rw [List.sum_append] at hsum
    obtain ⟨a, ha⟩ := hrun (hb.inRange hm) (by omega)
    rw [ha]
    refine ⟨h.vars, h.types, fun _ => hb.emitted ?_ ?_ hlen hcode⟩
    · intro n hmem
      exact (List.mem_append.1 hmem).elim (hback n) (hws n)
    · rw [List.sum_append, List.sum_append, hn]
      ring
  -- code that is too long only gets longer, and then nothing is promised of the stack
  · have hgrow (code : List Instr) (depth : Int) : ¬ (s.emitted code depth).InMemory :=
      fun hm' => hm hm'.of_emitted
    obtain ⟨code, depth, hout⟩ := he s
    cases hr : m.run s with
    | ok a t =>
      rw [hr] at hout
      obtain ⟨rfl, -⟩ := hout
      exact ⟨h.vars, h.types, fun hm' => absurd hm' (hgrow _ _)⟩
    | error e t =>
      rw [hr] at hout
      cases e with
      | reject d => exact hout.elim
      | crash f =>
        subst hout
        exact ⟨⟨h.vars, h.types, fun hm' => absurd hm' (hgrow _ _)⟩, hgrow _ _⟩

variable {o l r : Operand} {ws : List Int}

theorem ends_load {q : Reg} (hq : q.scratch) (ho : o.settled) (h : s.Within (o.held :: ws)) :
    Ends (fun _ t => t.Within ws) ((load o q).run s) := by
  have hpos := o.held_nonneg
  exact (emits_load o q).ends [o.held] [] h (by simp) (by simp) (by omega)
    (fun _ => shifts_loadCode ho hq s.frame.depth)
    fun hrange hle => ⟨_, run_load q hrange (by simpa using hle)⟩

theorem ends_locate (ho : o.settled) (ht : o.type.base.isSome) (h : s.Within (o.held :: ws)) :
    Ends (fun _ t => t.Within ws) ((locate o).run s) := by
  have hpos := o.held_nonneg
  exact (emits_locate o).ends [o.held] [] h (by simp) (by simp) (by omega)
    (fun _ => shifts_locateCode ho s.frame.depth)
    fun hrange hle => ⟨_, run_locate hrange (by simpa using hle) ht⟩

theorem ends_push {q : Reg} (hq : q.scratch) (h : s.Within ws) :
    Ends (fun _ t => t.Within (1 :: ws)) ((push q).run s) :=
  (emits_push q).ends [] [1] h (by simp) (by simp) (by simp) (fun _ => shifts_push hq)
    fun hrange _ => ⟨_, run_push q hrange⟩

theorem ends_pop {q : Reg} (hq : q.scratch) (h : s.Within (1 :: ws)) :
    Ends (fun _ t => t.Within ws) ((pop q).run s) :=
  (emits_pop q).ends [1] [] h (by simp) (by simp) (by simp) (fun _ => shifts_pop hq)
    fun hrange hle => ⟨_, run_pop q hrange (by simpa using hle)⟩

theorem ends_spill (ho : o.settled) (h : s.Within (o.held :: ws)) :
    Ends (fun _ t => t.Within (1 :: ws)) ((spill o).run s) := by
  have hdepth : s.frame.depth - o.held + 1 = s.frame.depth + (1 - o.held) := by ring
  exact (emits_spill o).ends [o.held] [1] h (by simp) (by simp) o.length_spillCode
    (fun _ => shifts_spillCode ho s.frame.depth)
    fun hrange hle => ⟨_, hdepth ▸ run_spill hrange (by simpa using hle)⟩

theorem ends_emitCombine {kind : DirectiveKind} {alu : Alu} (hk : kind.alu? = some alu)
    (hl : l.settled) (hr : r.settled) (h : s.Within (r.held :: l.held :: ws)) :
    Ends (fun _ t => t.Within (1 :: ws)) ((emitCombine kind l r).run s) := by
  have hdepth : s.frame.depth - r.held - l.held + 1 = s.frame.depth + (1 - r.held - l.held) := by
    ring
  have hpos := l.held_nonneg
  have hpos' := r.held_nonneg
  exact (emits_emitCombine kind l r).ends [r.held, l.held] [1] h (by simp) (by simp; ring)
    (by simp [combineCode]; omega) (fun _ => shifts_combineCode hl hr s.frame.depth)
    fun hrange hle => ⟨_, hdepth ▸ run_emitCombine hk hrange (by simpa using hle)⟩

theorem ends_emitStore (ht : l.type.base.isSome) (hl : l.settled) (hr : r.settled)
    (h : s.Within (r.held :: l.held :: ws)) :
    Ends (fun _ t => t.Within ws) ((emitStore l r).run s) := by
  have hdepth : s.frame.depth - r.held - l.held = s.frame.depth + (-r.held - l.held) := by
    ring
  have hpos := l.held_nonneg
  have hpos' := r.held_nonneg
  exact (emits_emitStore l r).ends [r.held, l.held] [] h (by simp) (by simp; ring) (by omega)
    (fun _ => shifts_storeCode hl hr s.frame.depth)
    fun hrange hle => ⟨_, hdepth ▸ run_emitStore hrange ht (by simpa using hle)⟩

theorem ends_declare {type : Ty} (ht : type.base.isSome) (name : Token) (address : Int)
    (h : s.Within ws) :
    Ends (fun _ t => t.Within ws) ((declare name type address).run s) := by
  have hrun := run_declare h.vars name type address
  split at hrun
  · obtain ⟨d, hd⟩ := hrun
    rw [hd]
    exact h.rest
  · rw [hrun]
    refine ⟨?_, h.types, fun hm => (h.balanced hm).congr rfl rfl rfl ?_⟩
    · intro v hv
      rcases List.mem_cons.1 hv with rfl | hv
      · exact ht
      · exact h.vars v hv
    · intro e he
      exact Array.mem_push_of_mem _ he

theorem ends_zeros (n : Int) (h : s.Within ws) :
    Ends (fun _ t => t.Within ((n.toNat : Int) :: ws)) ((zeros n).run s) := by
  rw [run_zeros]
  refine ⟨h.vars, h.types, fun hm => ?_⟩
  have hb := h.balanced hm.of_emitted
  have hsize := hm.size_le
  rw [Session.emitted_size] at hsize
  have hlen : n.toNat < (zerosCode n).length := by simp [zerosCode]
  rw [(hb.inRange hm.of_emitted).wrap_eq (by omega) (by omega)]
  refine hb.emitted ?_ (by simp [add_comm]) (by omega) fun _ => shifts_zeros n
  intro m hmem
  rcases List.mem_cons.1 hmem with rfl | hmem
  · exact Int.natCast_nonneg _
  · exact hb.held_nonneg m hmem

/-- A call takes its arguments and leaves a word, once the trace tells how many there were. -/
theorem balanced_call {name : String} {args : Int} (h : s.Balanced (args :: ws))
    (hm : s.InMemory) :
    Session.Balanced (1 :: ws)
      { s.emitted [.call name] (s.frame.depth - args + 1) with
        trace := s.trace.push (.call name args) } where
  held_nonneg := by
    intro n hn
    rcases List.mem_cons.1 hn with rfl | hn
    · decide
    · exact h.held_nonneg n (by simp [hn])
  marks := by
    have hsum : s.frame.depth - args + 1 - (1 :: ws).sum = s.frame.depth - (args :: ws).sum := by
      simp only [List.sum_cons]
      ring
    exact hsum ▸ h.marks
  depth_le := by
    have hargs := h.held_nonneg args (by simp)
    have hle := h.depth_le
    have hsize := s.emitted_size [.call name] (s.frame.depth - args + 1)
    simp only [List.length_singleton] at hsize
    show s.frame.depth - args + 1 ≤ (s.emitted [.call name] (s.frame.depth - args + 1)).code.size
    omega
  shifts := fun hosts hr => by
    obtain ⟨host, hname, harity⟩ := hr name args (Array.mem_push_self)
    have hold := h.shifts hosts fun name args hcall => hr name args (Array.mem_push_of_mem _ hcall)
    -- the arguments are among the words of the stack, and those fit in memory
    have hfits : fitsInMemory 2 host.arity := by
      have hargs := h.held_nonneg args (by simp)
      have hpos := List.sum_nonneg fun n hn => h.held_nonneg n (List.mem_cons_of_mem args hn)
      have hle := h.sum_le
      have hdepth := h.depth_le
      have hsize := hm.size_le
      rw [List.sum_cons] at hle
      simp only [fitsInMemory, harity, Bool.and_eq_true, decide_eq_true_eq]
      omega
    have := (hold.append (shifts_call hname hfits)).cast
      (show _ = s.frame.depth - args + 1 by rw [harity]; ring)
    simpa using this

theorem ends_call (name : String) {args : Int} (h : s.Within (args :: ws)) :
    Ends (fun _ t => t.Within (1 :: ws))
      ((do call name args; note (.call name args)).run s) := by
  by_cases hm : s.InMemory
  · have hb := h.balanced hm
    have hpos := List.sum_nonneg fun n hn => hb.held_nonneg n (List.mem_cons_of_mem args hn)
    have hle := hb.sum_le
    rw [List.sum_cons] at hle
    rw [run_bind_ok (run_call name args (hb.inRange hm) (hb.held_nonneg args (by simp)) (by omega))]
    exact ⟨h.vars, h.types, fun _ => balanced_call hb hm⟩
  -- as before, nothing is promised of code that is too long
  · obtain ⟨code, depth, hout⟩ := emits_call name args s
    rw [EStateM.run_bind]
    cases hr : (call name args).run s with
    | ok a t =>
      rw [hr] at hout
      obtain ⟨rfl, -⟩ := hout
      exact ⟨h.vars, h.types,
        fun hm' => absurd (show (s.emitted code depth).InMemory from hm').of_emitted hm⟩
    | error e t =>
      rw [hr] at hout
      cases e with
      | reject d => exact hout.elim
      | crash f =>
        subst hout
        exact ⟨⟨h.vars, h.types, fun hm' => absurd hm'.of_emitted hm⟩, fun hm' => hm hm'.of_emitted⟩

end Build

end OnePass
