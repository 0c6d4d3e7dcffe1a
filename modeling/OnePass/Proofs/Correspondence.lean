import Mathlib
import OnePass.Proofs.Depth
import OnePass.Proofs.Renaming

namespace OnePass

/-- Instructions of registers that exist, with immediates that fit in 64 bits; what a literal or a
callee stands in is left out. -/
def Instr.plain : Instr → Bool
  | .movi n => n = 0
  | .addi n => wrap n = n
  | .mov dst src => (dst.scratch || dst = .sp) && (src.scratch || src = .sp)
  | .alu _ a b | .ldr a b | .str a b => a.scratch && b.scratch
  | .push r | .pop r => r.scratch
  | _ => false

/-- How a second source relates to a first one: its tokens stand `shift` places later and its names
are given by `rename`. Plain instructions are `allowed`; others are where their tokens are. -/
structure Link where
  source : Array Token
  target : Array Token
  shift : Nat
  rename : String → String
  allowed : Instr → Prop
  injective : Function.Injective rename
  plain : ∀ i : Instr, i.plain → allowed i

/-- What is shown of the reason for a stop. -/
def Stop.shown : Stop → Except Fault Report
  | .reject d => .ok d.report
  | .crash f => .error f

/-- The types, the frame and the code of two sessions are the same. -/
structure Session.Alike (s t : Session) : Prop where
  types : t.types = s.types
  frame : t.frame = s.frame
  code : t.code = s.code

namespace Link

variable (L : Link)

def here (i : Int) : Token := ({ tokens := L.source } : Session).token i

/-- The token of the second source that stands for the `i`-th one of the first. -/
def there (i : Int) : Token := ({ tokens := L.target } : Session).token (i + L.shift)

def directive (d : Directive) : Directive :=
  { d with tok := d.tok + L.shift, operand := d.operand.renamed L.rename }

/-- Operands that can be loaded by allowed instructions. -/
structure Holds (o : Operand) : Prop where
  literal : ∀ n, o.place = .immediate n → L.allowed (.movi n)
  register : ∀ q, o.place = .register q → q.scratch

structure Fits (d : Directive) : Prop where
  holds : L.Holds d.operand
  line : (L.there d.tok).line = (L.here d.tok).line
  name : d.kind = .declaration → (L.there d.tok).name = L.rename (L.here d.tok).name
  callee : ∀ n, d.kind = .call n →
    (L.there d.tok).name = (L.here d.tok).name ∧ L.allowed (.call (L.here d.tok).name)

/-- Sessions between two items. -/
structure Between (s t : Session) : Prop where
  source : s.tokens = L.source
  target : t.tokens = L.target
  types : t.types = s.types.renamed L.rename
  frame : t.frame = s.frame.renamed L.rename
  code : t.code = s.code
  allowed : ∀ i ∈ s.code, L.allowed i

/-- Sessions inside a statement. -/
structure Linked (s t : Session) : Prop extends L.Between s t where
  stack : t.stack = s.stack.map L.directive
  fits : ∀ d ∈ s.stack, L.Fits d
  expect : t.expectOperand = s.expectOperand

section

variable {α β γ δ : Type}

/-- Both steps end well and the ends are related by `Q`, or both stop. Without new names they stop
for the same reason in the same place. -/
def Ends (Q : α → Session → β → Session → Prop) :
    EStateM.Result Stop Session α → EStateM.Result Stop Session β → Prop
  | .ok a s, .ok b t => Q a s b t
  | .error e s, .error e' t => L.rename = id → e'.shown = e.shown ∧ s.Alike t
  | _, _ => False

/-- Steps inside a statement that correspond, with results related by `R`. -/
def Sim (R : α → β → Prop) (m : Build α) (m' : Build β) : Prop :=
  ∀ s t, L.Linked s t → L.Ends (fun a s b t => R a b ∧ L.Linked s t) (m.run s) (m'.run t)

variable {L} {R : α → β → Prop} {S : γ → δ → Prop} {m : Build α} {m' : Build β} {s t : Session}

theorem Between.alike (h : L.Between s t) (hid : L.rename = id) : s.Alike t where
  types := by rw [h.types, hid, Registry.renamed_id]
  frame := by rw [h.frame, hid, Frame.renamed_id]
  code := h.code

theorem Ends.bind {Q : α → Session → β → Session → Prop} {Q' : γ → Session → δ → Session → Prop}
    {f : α → Build γ} {f' : β → Build δ} (h : L.Ends Q (m.run s) (m'.run t))
    (hf : ∀ a s b t, Q a s b t → L.Ends Q' ((f a).run s) ((f' b).run t)) :
    L.Ends Q' ((m >>= f).run s) ((m' >>= f').run t) := by
  rw [EStateM.run_bind, EStateM.run_bind]
  cases hm : m.run s <;> cases hm' : m'.run t <;> rw [hm, hm'] at h
  · exact hf _ _ _ _ h
  · exact h.elim
  · exact h.elim
  · exact h

theorem Ends.mono {Q Q' : α → Session → β → Session → Prop} (h : L.Ends Q (m.run s) (m'.run t))
    (hQ : ∀ a s b t, Q a s b t → Q' a s b t) : L.Ends Q' (m.run s) (m'.run t) := by
  cases hm : m.run s <;> cases hm' : m'.run t <;> rw [hm, hm'] at h
  · exact hQ _ _ _ _ h
  · exact h.elim
  · exact h.elim
  · exact h

theorem Ends.exists_ok {Q : α → Session → β → Session → Prop} {a : α}
    {r : EStateM.Result Stop Session β} (h : L.Ends Q (.ok a s) r) :
    ∃ b t, r = .ok b t ∧ Q a s b t := by
  cases r with
  | ok b t => exact ⟨b, t, rfl, h⟩
  | error e t => exact h.elim

theorem Sim.bind {f : α → Build γ} {f' : β → Build δ} (h : L.Sim R m m')
    (hf : ∀ a b, R a b → L.Sim S (f a) (f' b)) : L.Sim S (m >>= f) (m' >>= f') := by
  intro s t hst
  apply (h s t hst).bind
  rintro a s b t ⟨hab, hst⟩
  exact hf a b hab s t hst

theorem Sim.pure {a : α} {b : β} (h : R a b) : L.Sim R (pure a) (pure b) := by
  intro s t hst
  exact ⟨h, hst⟩

theorem Sim.get : L.Sim L.Linked get get := by
  intro s t hst
  exact ⟨hst, hst⟩

theorem Sim.modify {f g : Session → Session} (h : ∀ s t, L.Linked s t → L.Linked (f s) (g t)) :
    L.Sim Eq (modify f : Build Unit) (modify g) := by
  intro s t hst
  exact ⟨rfl, h s t hst⟩

theorem Sim.throw {e e' : Stop} (h : L.rename = id → e'.shown = e.shown) :
    L.Sim R (throw e) (throw e') := by
  intro s t hst hid
  exact ⟨h hid, hst.alike hid⟩

theorem Sim.reject {line line' : Int} {p p' : Problem} (hline : line' = line)
    (hp : L.rename = id → p' = p) : L.Sim R (Build.reject line p) (Build.reject line' p') := by
  apply Sim.throw
  intro hid
  rw [hline, hp hid]

/-- The texts of two problems can agree where the problems differ in the places of tokens. -/
theorem Sim.rejectShown {line line' : Int} {p p' : Problem} (hline : line' = line)
    (hkind : p'.kind = p.kind) (hcause : p'.cause = p.cause)
    (htext : L.rename = id → p'.text = p.text) :
    L.Sim R (Build.reject line p) (Build.reject line' p') := by
  apply Sim.throw
  intro hid
  simp [Stop.shown, Diagnostic.report, hline, hkind, hcause, htext hid]

theorem Sim.sound {g : α → β} {e : Except Fault α} {e' : Except Fault β} (h : e' = e.map g) :
    L.Sim (fun a b => b = g a) (Build.sound e) (Build.sound e') := by
  subst h
  cases e with
  | error f => exact Sim.throw fun _ => rfl
  | ok a => exact Sim.pure rfl

theorem Sim.sound_eq {e e' : Except Fault α} (h : e' = e) :
    L.Sim Eq (Build.sound e) (Build.sound e') := by
  subst h
  cases e' with
  | error f => exact Sim.throw fun _ => rfl
  | ok a => exact Sim.pure rfl

theorem Sim.ite {p q : Prop} [Decidable p] [Decidable q] {n : Build α} {n' : Build β} (h : q ↔ p)
    (hm : p → L.Sim R m m') (hn : ¬p → L.Sim R n n') :
    L.Sim R (if p then m else n) (if q then m' else n') := by
  by_cases hp : p
  · rw [if_pos hp, if_pos (h.2 hp)]
    exact hm hp
  · rw [if_neg hp, if_neg (mt h.1 hp)]
    exact hn hp

theorem Sim.unless {e e' : Except Fault Bool} {line line' : Int} {p p' : Problem} (h : e' = e)
    (hline : line' = line) (hp : L.rename = id → p' = p) (hm : L.Sim R m m') :
    L.Sim R
      (do
        unless ← Build.sound e do Build.reject line p
        m)
      (do
        unless ← Build.sound e' do Build.reject line' p'
        m') := by
  refine (Sim.sound_eq h).bind ?_
  rintro b _ rfl
  refine Sim.ite Iff.rfl (fun _ => hm) fun _ => ?_
  exact (Sim.reject (R := Eq) hline hp).bind fun _ _ _ => hm

end

end Link

namespace Build

theorem reduceStack_of_some {threshold : Int} {stack above below : List Directive} {op : Directive}
    (h : splitOperator stack = some (above, op, below)) :
    reduceStack threshold stack =
      (if op.kind.precedence < threshold ∧ !op.kind.isUnary then pure ()
      else do
        note (.reduce op.kind below.length stack.length threshold)
        let reduced ← reduceSplit above op below
        setStack reduced.1
        reduceStack threshold reduced.1) := by
  rw [reduceStack]
  split
  · rename_i hnone
    simp [h] at hnone
  · rename_i hsome
    rw [h, Option.some.injEq] at hsome
    cases hsome
    rfl

end Build

namespace Link

open Build

variable {L : Link}

section

variable {s t : Session}

theorem Between.token (h : L.Between s t) (i : Int) :
    s.token i = L.here i ∧ t.token (i + L.shift) = L.there i := by
  unfold here there Session.token
  rw [h.source, h.target]
  exact ⟨rfl, rfl⟩

theorem Between.allowed_append (hst : L.Between s t) {code : List Instr}
    (h : ∀ i ∈ code, L.allowed i) : ∀ i ∈ s.code ++ code, L.allowed i := by
  intro i hi
  have hi' : i ∈ (s.code ++ code).toList := Array.mem_toList_iff.2 hi
  rw [Array.toList_appendList] at hi'
  rcases List.mem_append.1 hi' with hi | hi
  · exact hst.allowed i (Array.mem_toList_iff.1 hi)
  · exact h i hi

theorem Linked.withStack (h : L.Linked s t) {stack stack' : List Directive}
    (heq : stack' = stack.map L.directive) (hfits : ∀ d ∈ stack, L.Fits d) :
    L.Linked { s with stack } { t with stack := stack' } :=
  { h with stack := heq, fits := hfits }

theorem Linked.withFrame (h : L.Linked s t) {f f' : Frame} (heq : f' = f.renamed L.rename) :
    L.Linked { s with frame := f } { t with frame := f' } :=
  { h with frame := heq }

end

section

variable {o : Operand} {n : Int} {r : Reg}

theorem sim_tokenAt (i : Int) :
    L.Sim (fun a b => a = L.here i ∧ b = L.there i) (tokenAt i) (tokenAt (i + L.shift)) := by
  unfold tokenAt
  exact Sim.get.bind fun s t hst => Sim.pure (hst.token i)

theorem sim_note (e e' : Event) : L.Sim Eq (note e) (note e') := by
  apply Sim.modify
  intro s t hst
  exact { hst with }

theorem sim_setStack {stack stack' : List Directive} (heq : stack' = stack.map L.directive)
    (hfits : ∀ d ∈ stack, L.Fits d) : L.Sim Eq (setStack stack) (setStack stack') := by
  apply Sim.modify
  intro s t hst
  exact hst.withStack heq hfits

theorem sim_setExpectOperand (b : Bool) :
    L.Sim Eq (setExpectOperand b) (setExpectOperand b) := by
  apply Sim.modify
  intro s t hst
  exact { hst with expect := rfl }

theorem sim_emit {code : List Instr} (h : ∀ i ∈ code, L.allowed i) :
    L.Sim Eq (emit code) (emit code) := by
  apply Sim.modify
  intro s t hst
  exact { hst with code := by simp only [hst.code], allowed := hst.allowed_append h }

theorem sim_emit_plain {code : List Instr} (h : ∀ i ∈ code, i.plain) :
    L.Sim Eq (emit code) (emit code) :=
  sim_emit fun i hi => L.plain i (h i hi)

theorem sim_grow (n : Int) : L.Sim Eq (grow n) (grow n) := by
  apply Sim.modify
  intro s t hst
  exact hst.withFrame (by rw [hst.frame]; rfl)

theorem sim_shrink (n : Int) : L.Sim Eq (shrink n) (shrink n) := by
  unfold shrink
  refine Sim.get.bind fun s t hst => ?_
  refine (Sim.sound (g := Frame.renamed L.rename) (by rw [hst.frame, Frame.pop_renamed])).bind ?_
  intro f f' hf
  exact Sim.modify fun s t hst => hst.withFrame hf

theorem sim_push (hr : r.scratch) : L.Sim Eq (push r) (push r) := by
  unfold push
  exact (sim_emit_plain (by simpa [Instr.plain] using hr)).bind fun _ _ _ => sim_grow 1

theorem sim_pop (hr : r.scratch) : L.Sim Eq (pop r) (pop r) := by
  unfold pop
  exact (sim_emit_plain (by simpa [Instr.plain] using hr)).bind fun _ _ _ => sim_shrink 1

theorem sim_call {name : String} (h : L.allowed (.call name)) (args : Int) :
    L.Sim Eq (call name args) (call name args) := by
  unfold call
  refine (sim_emit (by simpa using h)).bind fun _ _ _ => ?_
  exact (sim_shrink args).bind fun _ _ _ => sim_grow 1

theorem sim_reach (slot : Int) : L.Sim Eq (reach slot) (reach slot) := by
  unfold reach
  refine Sim.get.bind fun s t hst => ?_
  rw [hst.frame]
  exact sim_emit_plain (by simp [Instr.plain])

theorem sim_zeros (n : Int) : L.Sim Eq (zeros n) (zeros n) := by
  unfold zeros
  refine (sim_emit_plain ?_).bind fun _ _ _ => sim_grow _
  intro i hi
  rcases List.mem_cons.1 hi with rfl | hi
  · simp [Instr.plain]
  · rw [List.eq_of_mem_replicate hi]
    rfl

theorem sim_follow (hr : r.scratch) (n : Int) : L.Sim Eq (follow r n) (follow r n) := by
  apply sim_emit_plain
  intro i hi
  rw [List.eq_of_mem_replicate hi]
  simp [Instr.plain, hr]

theorem holds_register (hr : r.scratch) (type : Ty) (n : Int) :
    L.Holds { type, derefs := n, place := .register r } where
  literal := by simp
  register := by simpa using hr

theorem holds_stack (type : Ty) (n : Int) : L.Holds { type, derefs := n, place := .stack } where
  literal := by simp
  register := by simp

def Counterpart (L : Link) (o o' : Operand) : Prop := o' = o.renamed L.rename ∧ L.Holds o

theorem sim_load (h : L.Holds o) (hr : r.scratch) :
    L.Sim L.Counterpart (load o r) (load (o.renamed L.rename) r) := by
  -- wherever the operand was, its pointers are followed in the register
  have hrest : L.Sim L.Counterpart
      (follow r o.derefs >>= fun _ =>
        pure ({ o with derefs := 0, place := .register r } : Operand))
      (follow r o.derefs >>= fun _ =>
        pure ({ o.renamed L.rename with derefs := 0, place := .register r } : Operand)) :=
    (sim_follow hr _).bind fun _ _ _ => Sim.pure ⟨rfl, holds_register hr _ _⟩
  unfold load
  rw [show (o.renamed L.rename).place = o.place from rfl]
  cases ho : o.place with
  | immediate n =>
    refine (sim_emit ?_).bind fun _ _ _ => hrest
    intro i hi
    rcases List.mem_cons.1 hi with rfl | hi
    · exact h.literal n ho
    · apply L.plain
      by_cases h0 : r = .r0
      · simp [h0] at hi
      · simp only [h0, if_false, List.mem_singleton] at hi
        simp [hi, Instr.plain, hr]
  | frame slot =>
    refine (sim_reach slot).bind fun _ _ _ => ?_
    exact (sim_emit_plain (by simpa [Instr.plain] using hr)).bind fun _ _ _ => hrest
  | stack => exact (sim_pop hr).bind fun _ _ _ => hrest
  | register q =>
    have hq := h.register q ho
    refine (sim_emit_plain ?_).bind fun _ _ _ => hrest
    by_cases h0 : q = r
    · simp [h0]
    · simp [h0, Instr.plain, hr, hq]
  | unknown n => exact hrest

theorem sim_locate : L.Sim Eq (locate o) (locate (o.renamed L.rename)) := by
  obtain ⟨type, derefs, place⟩ := o
  unfold locate Operand.renamed
  cases place with
  | frame slot =>
    dsimp only
    by_cases h : derefs = 0
    · rw [if_pos h, if_pos h]
      refine (Sim.sound_eq (Ty.size_renamed type)).bind ?_
      rintro a _ rfl
      exact sim_reach _
    · rw [if_neg h, if_neg h]
      exact (sim_reach slot).bind fun _ _ _ => sim_follow rfl _
  | stack => exact (sim_pop rfl).bind fun _ _ _ => sim_follow rfl _
  | immediate n => exact Sim.pure rfl
  | register q => exact Sim.pure rfl
  | unknown n => exact Sim.pure rfl

theorem sim_spill (h : L.Holds o) :
    L.Sim L.Counterpart (spill o) (spill (o.renamed L.rename)) := by
  have hdone : L.Sim L.Counterpart
      (pure { o with derefs := 0, place := .stack } : Build Operand)
      (pure { o.renamed L.rename with derefs := 0, place := .stack }) :=
    Sim.pure ⟨rfl, holds_stack _ _⟩
  have hload : L.Sim L.Counterpart
      (load o .r1 >>= fun _ => push .r1 >>= fun _ =>
        pure ({ o with derefs := 0, place := .stack } : Operand))
      (load (o.renamed L.rename) .r1 >>= fun _ => push .r1 >>= fun _ =>
        pure ({ o.renamed L.rename with derefs := 0, place := .stack } : Operand)) :=
    (sim_load h rfl).bind fun _ _ _ => (sim_push rfl).bind fun _ _ _ => hdone
  unfold spill
  rw [show (o.renamed L.rename).place = o.place from rfl]
  cases ho : o.place with
  | stack => exact Sim.ite Iff.rfl (fun _ => hload) fun _ => hdone
  | immediate n =>
    refine (sim_emit (by simpa using h.literal n ho)).bind fun _ _ _ => ?_
    exact (sim_push rfl).bind fun _ _ _ => hdone
  | frame slot => exact hload
  | register q => exact hload
  | unknown n => exact hload

end

def Twin (L : Link) (d d' : Directive) : Prop := d' = L.directive d ∧ L.Fits d

section

variable {d lhs rhs : Directive} {op op' : Token}

theorem sim_requireScalar (h : L.Fits d) :
    L.Sim Eq (requireScalar d) (requireScalar (L.directive d)) := by
  unfold requireScalar
  refine (Sim.sound_eq (Ty.isScalar_renamed _)).bind ?_
  rintro scalar _ rfl
  refine Sim.ite Iff.rfl (fun _ => Sim.pure rfl) fun _ => ?_
  refine (sim_tokenAt d.tok).bind ?_
  rintro _ _ ⟨rfl, rfl⟩
  refine (Sim.sound (Ty.info_renamed _)).bind ?_
  rintro b _ rfl
  refine Sim.ite (by simp [TypeInfo.renamed]) (fun _ => Sim.reject h.line fun _ => rfl) fun _ => ?_
  exact Sim.reject h.line fun hid => by simp [directive, hid]

theorem sim_requireRange {line line' : Int} {type : Ty} {o : Operand} (hline : line' = line) :
    L.Sim Eq (requireRange line type o)
      (requireRange line' (type.renamed L.rename) (o.renamed L.rename)) := by
  subst hline
  unfold requireRange
  refine (Sim.sound_eq (Operand.fits_renamed o type)).bind ?_
  rintro fits _ rfl
  refine Sim.ite Iff.rfl (fun _ => Sim.pure rfl) fun _ => ?_
  rw [show (o.renamed L.rename).place = o.place from rfl]
  cases o.place with
  | immediate n =>
    refine (Sim.sound (Ty.info_renamed _)).bind ?_
    rintro b _ rfl
    exact Sim.reject rfl fun hid => by rw [hid, TypeInfo.renamed_id]
  | _ => exact Sim.pure rfl

theorem sim_dereference (h : L.Fits d) (hop : op'.line = op.line) :
    L.Sim L.Twin (dereference op d) (dereference op' (L.directive d)) := by
  unfold dereference
  refine Sim.ite Iff.rfl (fun _ => ?_) fun _ => ?_
  · exact Sim.reject hop fun hid => by simp [directive, Operand.renamed, hid]
  · exact Sim.pure ⟨rfl, { h with holds := ⟨h.holds.literal, h.holds.register⟩ }⟩

theorem fits_result (tok : Int) (type : Ty) (h : (L.there tok).line = (L.here tok).line) :
    L.Fits (result tok type) where
  holds := holds_stack _ _
  line := h
  name := by simp [result]
  callee := by simp [result]

theorem sim_takeAddress (h : L.Fits d) (hop : op'.line = op.line) :
    L.Sim L.Twin (takeAddress op d) (takeAddress op' (L.directive d)) := by
  unfold takeAddress
  refine Sim.ite Iff.rfl (fun _ => ?_) fun _ => ?_
  · refine sim_locate.bind fun _ _ _ => (sim_push rfl).bind fun _ _ _ => ?_
    exact Sim.pure ⟨rfl, fits_result _ _ h.line⟩
  · exact Sim.reject hop fun hid => rfl

theorem sim_declare {name name' : Token} {type : Ty} {address : Int}
    (hname : name'.name = L.rename name.name) (hline : name'.line = name.line) :
    L.Sim Eq (declare name type address) (declare name' (type.renamed L.rename) address) := by
  unfold declare Frame.declare
  refine Sim.get.bind fun s t hst => ?_
  refine (Sim.sound (g := fun r => (r.map (Prod.map (·.renamed L.rename)
    (·.renamed L.rename))).mapError (·.renamed L.rename)) ?_).bind ?_
  · rw [hst.frame, hname, hline, Frame.overlap?_renamed, Frame.add_renamed]
    cases s.frame.overlap? name.name address with
    | error f => rfl
    | ok o => cases o <;> rfl
  · rintro (o | ⟨v, f⟩) _ rfl
    · exact Sim.reject hline fun hid => by simp [Overlap.renamed, hid]
    · refine (Sim.modify fun s t hst => hst.withFrame rfl).bind fun _ _ _ => ?_
      exact sim_note _ _

theorem sim_initialType {name name' : Token} {declared given : Ty}
    (hname : name'.name = L.rename name.name) (hline : name'.line = name.line) :
    L.Sim (fun a b => b = a.renamed L.rename) (initialType name declared given)
      (initialType name' (declared.renamed L.rename) (given.renamed L.rename)) := by
  unfold initialType
  refine Sim.ite (by simp) (fun _ => ?_) fun _ => ?_
  · refine (Sim.sound_eq (Ty.isUntyped_renamed given)).bind ?_
    rintro untyped _ rfl
    exact Sim.ite Iff.rfl (fun _ => Sim.pure rfl) fun _ => Sim.pure rfl
  · refine (Sim.sound_eq (Ty.accepts_renamed declared given)).bind ?_
    rintro accepts _ rfl
    refine Sim.ite Iff.rfl (fun _ => Sim.pure rfl) fun _ => ?_
    exact Sim.reject hline fun hid => by simp [hname, hid]

theorem sim_define {decl value : Directive} (hdecl : L.Fits decl) (hk : decl.kind = .declaration)
    (hvalue : L.Fits value) :
    L.Sim Eq (define decl value) (define (L.directive decl) (L.directive value)) := by
  unfold define
  refine (sim_tokenAt decl.tok).bind ?_
  rintro _ _ ⟨rfl, rfl⟩
  refine (sim_requireScalar hvalue).bind fun _ _ _ => ?_
  refine (sim_initialType (hdecl.name hk) hdecl.line).bind ?_
  rintro type _ rfl
  refine (sim_requireRange hdecl.line).bind fun _ _ _ => ?_
  refine (sim_spill hvalue.holds).bind fun _ _ _ => ?_
  refine Sim.get.bind fun s t hst => ?_
  rw [hst.frame]
  exact sim_declare (hdecl.name hk) hdecl.line

theorem sim_checkStore (hl : L.Fits lhs) (hr : L.Fits rhs) (hop : op'.line = op.line) :
    L.Sim Eq (checkStore op lhs rhs) (checkStore op' (L.directive lhs) (L.directive rhs)) := by
  have hrest : L.Sim Eq
      (do
        requireScalar lhs
        requireScalar rhs
        unless ← sound (lhs.operand.type.accepts rhs.operand.type) do
          reject op.line (.cannotAssign lhs.operand.type rhs.operand.type)
        requireRange op.line lhs.operand.type rhs.operand)
      (do
        requireScalar (L.directive lhs)
        requireScalar (L.directive rhs)
        unless ← sound ((L.directive lhs).operand.type.accepts (L.directive rhs).operand.type) do
          reject op'.line (.cannotAssign (L.directive lhs).operand.type
            (L.directive rhs).operand.type)
        requireRange op'.line (L.directive lhs).operand.type (L.directive rhs).operand) := by
    refine (sim_requireScalar hl).bind fun _ _ _ => (sim_requireScalar hr).bind fun _ _ _ => ?_
    refine Sim.unless (Ty.accepts_renamed _ _) hop ?_ (sim_requireRange hop)
    intro hid
    simp [directive, Operand.renamed, hid]
  unfold checkStore
  refine Sim.ite Iff.rfl (fun _ => hrest) fun _ => ?_
  exact (Sim.reject (R := Eq) hop fun _ => rfl).bind fun _ _ _ => hrest

theorem sim_store (hl : L.Fits lhs) (hr : L.Fits rhs) (hop : op'.line = op.line) :
    L.Sim Eq (store op lhs rhs) (store op' (L.directive lhs) (L.directive rhs)) := by
  have hemit : L.Sim Eq (emitStore lhs.operand rhs.operand)
      (emitStore (L.directive lhs).operand (L.directive rhs).operand) := by
    unfold emitStore
    refine (sim_load hr.holds rfl).bind fun _ _ _ => sim_locate.bind fun _ _ _ => ?_
    exact sim_emit_plain (by simp [Instr.plain])
  rw [store_eq, store_eq]
  exact (sim_checkStore hl hr hop).bind fun _ _ _ => hemit

theorem sim_adopt {kind : DirectiveKind} (hl : L.Fits lhs) (hr : L.Fits rhs)
    (hop : op'.line = op.line) :
    L.Sim L.Twin (adopt kind op lhs rhs)
      (adopt kind op' (L.directive lhs) (L.directive rhs)) := by
  have hproblem (hid : L.rename = id) :
      Problem.operandsMismatched kind (L.directive lhs).operand.type
          (L.directive rhs).operand.type =
        .operandsMismatched kind lhs.operand.type rhs.operand.type := by
    simp [directive, Operand.renamed, hid]
  unfold adopt
  refine (Sim.sound_eq (Ty.isUntyped_renamed _)).bind ?_
  rintro l _ rfl
  refine (Sim.sound_eq (Ty.isUntyped_renamed _)).bind ?_
  rintro r _ rfl
  cases l <;> cases r
  · refine Sim.ite (by simp [directive, Operand.renamed]) (fun _ => Sim.pure ⟨rfl, hl⟩) fun _ => ?_
    exact Sim.reject hop hproblem
  · refine Sim.unless (Ty.accepts_renamed _ _) hop hproblem ?_
    exact (sim_requireRange hop).bind fun _ _ _ => Sim.pure ⟨rfl, hl⟩
  · refine Sim.unless (Ty.accepts_renamed _ _) hop hproblem ?_
    exact (sim_requireRange hop).bind fun _ _ _ => Sim.pure ⟨rfl, hr⟩
  · exact Sim.pure ⟨rfl, hl⟩

theorem sim_emitCombine {kind : DirectiveKind} {l r : Operand} (hk : kind.alu?.isSome)
    (hl : L.Holds l) (hr : L.Holds r) :
    L.Sim Eq (emitCombine kind l r)
      (emitCombine kind (l.renamed L.rename) (r.renamed L.rename)) := by
  have hpop {o : Operand} {q : Reg} (ho : L.Holds o) (hq : q.scratch) :
      L.Sim L.Counterpart (popOperand o q) (popOperand (o.renamed L.rename) q) :=
    Sim.ite Iff.rfl (fun _ => sim_load ho hq) fun _ => Sim.pure ⟨rfl, ho⟩
  unfold emitCombine
  refine (hpop hr rfl).bind ?_
  rintro right _ ⟨rfl, hright⟩
  refine (hpop hl rfl).bind ?_
  rintro left _ ⟨rfl, hleft⟩
  refine (sim_load hright rfl).bind fun _ _ _ => (sim_load hleft rfl).bind fun _ _ _ => ?_
  refine (sim_emit_plain ?_).bind fun _ _ _ => sim_push rfl
  obtain ⟨alu, halu⟩ := Option.isSome_iff_exists.1 hk
  simp [arithmetic, halu, Instr.plain]

theorem sim_combine {kind : DirectiveKind} (hk : kind.alu?.isSome) (hl : L.Fits lhs)
    (hr : L.Fits rhs) (hop : op'.line = op.line) :
    L.Sim L.Twin (combine kind op lhs rhs)
      (combine kind op' (L.directive lhs) (L.directive rhs)) := by
  rw [combine_eq, combine_eq]
  refine (sim_requireScalar hl).bind fun _ _ _ => (sim_requireScalar hr).bind fun _ _ _ => ?_
  refine (sim_adopt hl hr hop).bind ?_
  rintro like _ ⟨rfl, hlike⟩
  refine (sim_emitCombine hk hl.holds hr.holds).bind fun _ _ _ => ?_
  exact Sim.pure ⟨rfl, fits_result _ _ hlike.line⟩

def Stacks (L : Link) (ds ds' : List Directive) : Prop :=
  ds' = ds.map L.directive ∧ ∀ d ∈ ds, L.Fits d

theorem Stacks.cons {ds ds' : List Directive} {d d' : Directive} (hd : L.Twin d d')
    (h : L.Stacks ds ds') : L.Stacks (d :: ds) (d' :: ds') := by
  obtain ⟨rfl, hd⟩ := hd
  obtain ⟨rfl, h⟩ := h
  exact ⟨rfl, List.forall_mem_cons.2 ⟨hd, h⟩⟩

theorem text_directive (hid : L.rename = id) (d : Directive) : (L.directive d).text = d.text := by
  unfold Directive.text directive
  rw [hid, Operand.renamed_id]

theorem sim_noReduction {α β : Type} {R : α → β → Prop} {d d' : Directive} {line line' : Int}
    (hline : line' = line) (hd : L.rename = id → d'.text = d.text) :
    L.Sim R (reject line (.noReduction d)) (reject line' (.noReduction d')) := by
  have htext (d : Directive) :
      (Problem.noReduction d).text = "no reduction for directive " ++ d.text := by
    unfold Problem.text
    rfl
  exact Sim.rejectShown hline rfl rfl fun hid => by rw [htext, htext, hd hid]

theorem sim_reduceArithmetic {kind : DirectiveKind} {rest : List Directive}
    (hk : kind.alu?.isSome) (htok : op'.line = op.line) (hlhs : L.Fits lhs) (hrhs : L.Fits rhs)
    (hrest : ∀ d ∈ rest, L.Fits d) :
    L.Sim (fun a b => L.Stacks a.1 b.1) (reduceArithmetic kind op lhs rhs rest)
      (reduceArithmetic kind op' (L.directive lhs) (L.directive rhs) (rest.map L.directive)) := by
  refine Sim.ite Iff.rfl (fun _ => Sim.reject htok fun _ => rfl) fun _ => ?_
  refine (sim_combine hk hlhs hrhs htok).bind ?_
  intro value value' hvalue
  exact Sim.pure (Stacks.cons hvalue ⟨rfl, hrest⟩)

theorem sim_reduceBinary {below : List Directive} (htok : op'.line = op.line)
    (hrhs : L.Fits rhs) (hbelow : ∀ d ∈ below, L.Fits d) :
    L.Sim (fun a b => L.Stacks a.1 b.1) (reduceBinary d op rhs below)
      (reduceBinary (L.directive d) op' (L.directive rhs) (below.map L.directive)) := by
  obtain ⟨kind, tok, operand⟩ := d
  cases below with
  | nil => exact Sim.reject htok fun _ => rfl
  | cons lhs rest =>
    obtain ⟨hl, hrest⟩ := List.forall_mem_cons.1 hbelow
    rw [List.map_cons]
    unfold reduceBinary
    refine Sim.ite Iff.rfl (fun _ => Sim.reject htok fun _ => rfl) fun _ => ?_
    cases kind with
    | assign =>
      have hdone : L.Sim (fun a b => L.Stacks a.1 b.1)
          (pure ⟨rest, by simp⟩ :
            Build { stack : List Directive // stack.length ≤ (lhs :: rest).length })
          (pure ⟨rest.map L.directive, by simp⟩ : Build { stack : List Directive //
            stack.length ≤ (L.directive lhs :: rest.map L.directive).length }) :=
        Sim.pure ⟨rfl, hrest⟩
      refine Sim.ite Iff.rfl (fun hk => ?_) fun _ => ?_
      · exact (sim_define hl hk hrhs).bind fun _ _ _ => hdone
      · exact (sim_store hl hrhs htok).bind fun _ _ _ => hdone
    | add => exact sim_reduceArithmetic rfl htok hl hrhs hrest
    | sub => exact sim_reduceArithmetic rfl htok hl hrhs hrest
    | mul => exact sim_reduceArithmetic rfl htok hl hrhs hrest
    | _ => exact sim_noReduction htok fun hid => text_directive hid _

theorem sim_reduceOver {below : List Directive} (htok : op'.line = op.line)
    (hrhs : L.Fits rhs) (hbelow : ∀ d ∈ below, L.Fits d) :
    L.Sim (fun a b => L.Stacks a.1 b.1) (reduceOver d op rhs below)
      (reduceOver (L.directive d) op' (L.directive rhs) (below.map L.directive)) := by
  obtain ⟨kind, tok, operand⟩ := d
  obtain ⟨kind', tok', operand'⟩ := rhs
  unfold reduceOver
  cases kind' with
  | value =>
    have hbinary : L.Sim (fun a b => L.Stacks a.1 b.1)
        (do
          let reduced ← reduceBinary ⟨kind, tok, operand⟩ op ⟨.value, tok', operand'⟩ below
          return ⟨reduced.1, Nat.le_succ_of_le reduced.2⟩ :
            Build { stack : List Directive // stack.length ≤ below.length + 1 })
        (do
          let reduced ← reduceBinary (L.directive ⟨kind, tok, operand⟩) op'
            (L.directive ⟨.value, tok', operand'⟩) (below.map L.directive)
          return ⟨reduced.1, Nat.le_succ_of_le reduced.2⟩ :
            Build { stack : List Directive //
              stack.length ≤ (below.map L.directive).length + 1 }) :=
      (sim_reduceBinary htok hrhs hbelow).bind fun a b hab => Sim.pure hab
    cases kind with
    | deref =>
      refine (sim_dereference hrhs htok).bind fun value value' hvalue => ?_
      exact Sim.pure (Stacks.cons hvalue ⟨rfl, hbelow⟩)
    | addressOf =>
      refine (sim_takeAddress hrhs htok).bind fun value value' hvalue => ?_
      exact Sim.pure (Stacks.cons hvalue ⟨rfl, hbelow⟩)
    | _ => exact hbinary
  | declaration => exact Sim.reject htok fun _ => rfl
  | _ => exact Sim.reject htok fun _ => by simp [directive]

theorem sim_reduceSplit {above below : List Directive} (hd : L.Fits d)
    (habove : ∀ d ∈ above, L.Fits d) (hbelow : ∀ d ∈ below, L.Fits d) :
    L.Sim (fun a b => L.Stacks a.1 b.1) (reduceSplit above d below)
      (reduceSplit (above.map L.directive) (L.directive d) (below.map L.directive)) := by
  have hmissing {α β : Type} {R : α → β → Prop} {n n' : Nat} (hn : n' = n) : L.Sim R
      (do reject (← tokenAt d.tok).line (.operandMissing d.kind below.length n))
      (do reject (← tokenAt (L.directive d).tok).line
            (.operandMissing (L.directive d).kind (below.map L.directive).length n')) := by
    refine (sim_tokenAt d.tok).bind ?_
    rintro _ _ ⟨rfl, rfl⟩
    exact Sim.reject hd.line fun _ => by rw [List.length_map, hn]; rfl
  unfold reduceSplit
  match above with
  | [] => exact hmissing (by simp)
  | [rhs] =>
    refine (sim_tokenAt d.tok).bind ?_
    rintro _ _ ⟨rfl, rfl⟩
    refine (sim_reduceOver hd.line (habove rhs List.mem_cons_self) hbelow).bind fun a b hab => ?_
    exact Sim.pure hab
  | rhs :: next :: above => exact hmissing (by simp)

end

section

variable {stack stack' : List Directive}

theorem splitTop_directive (wanted blocks : DirectiveKind → Bool) (stack : List Directive) :
    splitTop wanted blocks (stack.map L.directive) = (splitTop wanted blocks stack).map
      fun p => (p.1.map L.directive, L.directive p.2.1, p.2.2.map L.directive) := by
  induction stack with
  | nil => rfl
  | cons d rest ih =>
    simp only [List.map_cons, splitTop, ih, show (L.directive d).kind = d.kind from rfl]
    split
    · rfl
    · split
      · rfl
      · cases splitTop wanted blocks rest <;> rfl

theorem sim_reduceStack (threshold : Int) (h : ∀ d ∈ stack, L.Fits d) :
    L.Sim Eq (reduceStack threshold stack) (reduceStack threshold (stack.map L.directive)) := by
  -- each reduction leaves a shorter stack
  induction hn : stack.length using Nat.strong_induction_on generalizing stack with
  | _ n ih =>
    cases hsplit : splitOperator stack with
    | none =>
      have hsplit' : splitOperator (stack.map L.directive) = none := by
        rw [splitOperator, splitTop_directive]
        exact congrArg (Option.map _) hsplit
      rw [reduceStack_of_none hsplit, reduceStack_of_none hsplit']
      exact Sim.pure rfl
    | some p =>
      obtain ⟨above, op, below⟩ := p
      have hsplit' : splitOperator (stack.map L.directive) =
          some (above.map L.directive, L.directive op, below.map L.directive) := by
        rw [splitOperator, splitTop_directive]
        exact congrArg (Option.map _) hsplit
      have hstack := splitTop_eq hsplit
      obtain ⟨habove, hrest⟩ := List.forall_mem_append.1 (hstack ▸ h)
      obtain ⟨hop, hbelow⟩ := List.forall_mem_cons.1 hrest
      rw [reduceStack_of_some hsplit, reduceStack_of_some hsplit']
      refine Sim.ite Iff.rfl (fun _ => Sim.pure rfl) fun _ => ?_
      refine (sim_note _ _).bind fun _ _ _ => ?_
      refine (sim_reduceSplit hop habove hbelow).bind ?_
      rintro ⟨reduced, hlt⟩ ⟨_, _⟩ ⟨rfl, hfits⟩
      refine (sim_setStack rfl hfits).bind fun _ _ _ => ?_
      exact ih _ (hn ▸ hstack ▸ hlt) hfits rfl

theorem sim_reduce (threshold : Int) : L.Sim Eq (reduce threshold) (reduce threshold) := by
  unfold reduce
  refine Sim.get.bind fun s t hst => ?_
  rw [hst.stack]
  exact sim_reduceStack threshold hst.fits

end

end Link

end OnePass
