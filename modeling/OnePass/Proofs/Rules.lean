import Mathlib
import OnePass.Proofs.Emission

namespace OnePass

def holds : Except Fault Bool → Bool
  | .ok b => b
  | .error _ => false

namespace Ty

variable {t u : Ty}

theorem info_eq (h : t.base.isSome) : ∃ b, t.info = .ok b := by
  obtain ⟨b, hb⟩ := Option.isSome_iff_exists.1 h
  exact ⟨b, by simp [info, hb]⟩

theorem isScalar_eq (h : t.base.isSome) : t.isScalar = .ok (holds t.isScalar) := by
  obtain ⟨b, hb⟩ := info_eq h
  unfold isScalar
  split <;> simp [hb, holds, Except.map]

theorem isUntyped_eq (h : t.base.isSome) : t.isUntyped = .ok (holds t.isUntyped) := by
  obtain ⟨b, hb⟩ := info_eq h
  unfold isUntyped
  split <;> simp [hb, holds, Except.map]

theorem accepts_eq (ht : t.base.isSome) (hu : u.base.isSome) :
    t.accepts u = .ok (holds (t.accepts u)) := by
  obtain ⟨b, hb⟩ := info_eq ht
  unfold accepts
  rw [isUntyped_eq hu]
  simp only [hb, bind, Except.bind, pure, Except.pure]
  split <;> (try split) <;> rfl

/-- The type of a variable that is declared as `declared` with a value of type `given`. -/
def initial (declared given : Ty) : Option Ty :=
  if declared.base.isNone then
    some (if holds given.isUntyped then { given with base := some .u16 } else given)
  else if holds (declared.accepts given) then some declared
  else none

theorem initial_base {t : Ty} {declared given : Ty} (hg : given.base.isSome)
    (h : declared.initial given = some t) : t.base.isSome := by
  unfold initial at h
  split at h
  · simp only [Option.some.injEq] at h
    subst h
    split
    · rfl
    · exact hg
  · rename_i hd
    split at h
    · simp only [Option.some.injEq] at h
      subst h
      simpa [Option.isSome_iff_ne_none] using hd
    · simp at h

end Ty

namespace Operand

variable {o l r : Operand} {t : Ty}

def scalar (o : Operand) : Bool := holds o.type.isScalar

theorem fits_eq (ho : o.type.base.isSome) (ht : t.base.isSome) :
    o.fits t = .ok (holds (o.fits t)) := by
  obtain ⟨b, hb⟩ := Ty.info_eq ht
  unfold fits
  rw [Ty.isUntyped_eq ho]
  simp only [hb, bind, Except.bind, pure, Except.pure]
  split <;> (try split) <;> rfl

/-- Whether a value may be put in a slot of type `t`. -/
def suits (o : Operand) (t : Ty) : Bool := holds (t.accepts o.type) && holds (o.fits t)

/-- The type of the result of an arithmetic operator: an untyped operand adopts the type of the
other. -/
def joined (l r : Operand) : Option Ty :=
  match holds l.type.isUntyped, holds r.type.isUntyped with
  | true, true => some l.type
  | true, false => if l.suits r.type then some r.type else none
  | false, true => if r.suits l.type then some l.type else none
  | false, false => if l.type.same r.type then some l.type else none

theorem joined_eq (h : l.joined r = some t) : t = l.type ∨ t = r.type := by
  unfold joined at h
  split at h <;> (try split at h) <;> simp_all

/-- The operand that a pointer leads to. -/
def pointee (o : Operand) : Option Operand :=
  if o.type.depth = 0 then none
  else some { o with
    type := { o.type with depth := wrap (o.type.depth - 1) }
    derefs := wrap (o.derefs + 1) }

end Operand

/-- A rule that gives nothing but whether it holds. -/
def rule (b : Bool) : Option Unit := if b then some () else none

theorem rule_bind (a b : Bool) : ((rule a).bind fun _ => rule b) = rule (a && b) := by
  cases a <;> rfl

namespace Build

variable {α β : Type} {s : Session}

/-- A step that only checks: it gives `r`, or rejects where that is missing, and leaves the
session. -/
def Checks (m : Build α) (s : Session) : Option α → Prop
  | some a => m.run s = .ok a s
  | none => ∃ d, m.run s = .error (.reject d) s

theorem Checks.bind {m : Build α} {f : α → Build β} {r : Option α} {g : α → Option β}
    (hm : Checks m s r) (hf : ∀ a, Checks (f a) s (g a)) : Checks (m >>= f) s (r.bind g) := by
  cases r with
  | none =>
    obtain ⟨d, hd⟩ := hm
    exact ⟨d, by rw [EStateM.run_bind, hd]⟩
  | some a =>
    have := hf a
    rw [Option.bind_some]
    cases hg : g a with
    | none =>
      rw [hg] at this
      obtain ⟨d, hd⟩ := this
      exact ⟨d, by rw [run_bind_ok hm, hd]⟩
    | some b =>
      rw [hg] at this
      exact (run_bind_ok hm).trans this

theorem checks_pure (a : α) : Checks (pure a) s (some a) := rfl

theorem checks_reject (line : Int) (problem : Problem) :
    Checks (reject line problem : Build α) s none := ⟨_, rfl⟩

theorem checks_unless (b : Bool) (line : Int) (problem : Problem) :
    Checks (unless b do reject line problem) s (rule b) := by
  cases b with
  | true => exact checks_pure ()
  | false => exact checks_reject line problem

/-- What follows a check runs in the same session, where the rule holds. -/
theorem Checks.run_bind {m : Build Unit} {b : Bool} (hm : Checks m s (rule b)) (f : Build α) :
    if b then (m >>= fun _ => f).run s = f.run s
    else ∃ d, (m >>= fun _ => f).run s = .error (.reject d) s := by
  cases b with
  | true => exact run_bind_ok hm
  | false =>
    obtain ⟨d, hd⟩ := hm
    exact ⟨d, by rw [EStateM.run_bind, hd]⟩

theorem checks_requireScalar {d : Directive} (h : d.operand.type.base.isSome) :
    Checks (requireScalar d) s (rule d.operand.scalar) := by
  obtain ⟨b, hb⟩ := Ty.info_eq h
  unfold requireScalar Operand.scalar
  rw [Ty.isScalar_eq h, hb]
  cases holds d.operand.type.isScalar with
  | true => exact checks_pure ()
  | false =>
    by_cases hv : b.prim = .void
    · exact ⟨⟨_, .voidValue⟩, by simp [EStateM.run_bind, tokenAt, hv, reject]; rfl⟩
    · exact ⟨⟨_, .aggregateValue d.operand.type⟩,
        by simp [EStateM.run_bind, tokenAt, hv, reject]; rfl⟩

theorem checks_requireRange {t : Ty} {o : Operand} (line : Int) (ho : o.type.base.isSome)
    (ht : t.base.isSome) :
    Checks (requireRange line t o) s (rule (holds (o.fits t))) := by
  obtain ⟨b, hb⟩ := Ty.info_eq ht
  have hfits := Operand.fits_eq ho ht
  unfold requireRange
  cases hf : holds (o.fits t) with
  | true =>
    rw [hfits, hf]
    exact checks_pure ()
  | false =>
    cases hp : o.place with
    | immediate n =>
      rw [hfits, hf, hb]
      exact ⟨⟨line, .literalOutOfType n b.name⟩, rfl⟩
    | _ =>
      -- only a literal can be out of range
      rw [Operand.fits, hp, Ty.isUntyped_eq ho] at hf
      simp [bind, Except.bind, pure, Except.pure, holds] at hf

theorem checks_initialType {given : Ty} (name : Token) (declared : Ty) (hg : given.base.isSome) :
    Checks (initialType name declared given) s (declared.initial given) := by
  unfold initialType Ty.initial
  by_cases hd : declared.base.isNone
  · rw [if_pos hd, if_pos hd, Ty.isUntyped_eq hg]
    cases holds given.isUntyped <;> exact checks_pure _
  · have hsome : declared.base.isSome := by simpa [Option.isSome_iff_ne_none] using hd
    rw [if_neg hd, if_neg hd, Ty.accepts_eq hsome hg]
    cases holds (declared.accepts given) with
    | true => exact checks_pure _
    | false => exact checks_reject _ _

theorem checks_dereference (op : Token) (d : Directive) :
    Checks (dereference op d) s (d.operand.pointee.map fun o => { d with operand := o }) := by
  unfold dereference Operand.pointee
  dsimp only
  split
  · exact checks_reject _ _
  · exact checks_pure _

theorem checks_suits {t : Ty} {o : Operand} (line : Int) (problem : Problem) (a : α)
    (ho : o.type.base.isSome) (ht : t.base.isSome) :
    Checks (do
      unless ← sound (t.accepts o.type) do reject line problem
      requireRange line t o
      return a) s (if o.suits t then some a else none) := by
  unfold Operand.suits
  rw [Ty.accepts_eq ht ho]
  cases holds (t.accepts o.type) with
  | false => exact ⟨⟨line, problem⟩, rfl⟩
  | true =>
    have h := (checks_requireRange (s := s) line ho ht).bind fun _ => checks_pure a
    cases hf : holds (o.fits t) <;> rw [hf] at h <;> exact h

theorem run_adopt {lhs rhs : Directive} (kind : DirectiveKind) (op : Token)
    (hl : lhs.operand.type.base.isSome) (hr : rhs.operand.type.base.isSome) :
    match lhs.operand.joined rhs.operand with
    | some t => ∃ like : Directive, (adopt kind op lhs rhs).run s = .ok like s ∧
        like.operand.type = t
    | none => ∃ d, (adopt kind op lhs rhs).run s = .error (.reject d) s := by
  unfold adopt Operand.joined
  dsimp only
  rw [Ty.isUntyped_eq hl, Ty.isUntyped_eq hr]
  -- an untyped side has to suit the other one; two typed sides have to be the same
  cases holds lhs.operand.type.isUntyped <;> cases holds rhs.operand.type.isUntyped <;>
    simp only [holds]
  · by_cases h : lhs.operand.type.same rhs.operand.type
    · rw [if_pos h]
      exact ⟨lhs, by simp [EStateM.run_bind, h], rfl⟩
    · rw [if_neg h]
      exact ⟨_, by simp [EStateM.run_bind, h, reject]; rfl⟩
  · have h := checks_suits (s := s) op.line
      (.operandsMismatched kind lhs.operand.type rhs.operand.type) lhs hr hl
    cases hs : rhs.operand.suits lhs.operand.type <;> rw [hs] at h
    · exact h
    · exact ⟨lhs, h, rfl⟩
  · have h := checks_suits (s := s) op.line
      (.operandsMismatched kind lhs.operand.type rhs.operand.type) rhs hl hr
    cases hs : lhs.operand.suits rhs.operand.type <;> rw [hs] at h
    · exact h
    · exact ⟨rhs, h, rfl⟩
  · exact ⟨lhs, rfl, rfl⟩

end Build

end OnePass
