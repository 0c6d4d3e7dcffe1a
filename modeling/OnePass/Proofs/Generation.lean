import Mathlib
import OnePass.Proofs.Depth
import OnePass.Proofs.ShiftReduce

namespace OnePass

namespace Expr

mutual

/-- What an expression comes down to; nothing where it breaks a typing rule. -/
def operand (f : Frame) : Expr → Option Operand
  | .literal n => if n ≤ 65535 then some { type := .untyped, place := .immediate n } else none
  | .name x => (f.lookup x).map fun v => { type := v.type, place := .frame v.address }
  | .call _ args => if scalars f args then some { type := .untyped, place := .stack } else none
  | .binary _ l r =>
    (l.operand f).bind fun l => (r.operand f).bind fun r =>
      (l.combined r).map fun type => { type, place := .stack }
  | .deref e => (e.operand f).bind Operand.pointee
  | .addressOf e =>
    (e.operand f).bind fun o =>
      if o.addressable then
        some { type := { o.type with depth := wrap (o.type.depth + 1) }, place := .stack }
      else none

/-- Whether every argument fits in a register. -/
def scalars (f : Frame) : List Expr → Bool
  | [] => true
  | e :: args => (e.operand f).any Operand.scalar && scalars f args

end

/-- The operand of an expression that keeps the typing rules. -/
def result (f : Frame) (e : Expr) : Operand := (e.operand f).getD {}

mutual

/-- Code that leaves the operand of an expression where it says it is. -/
def code (f : Frame) (depth : Int) : Expr → List Instr
  | .literal _ | .name _ => []
  | .call g args => argsCode f depth args ++ [.call g]
  | .binary op l r =>
    l.code f depth ++ r.code f (depth + (l.result f).held) ++
      combineCode (depth + (l.result f).held + (r.result f).held) op (l.result f) (r.result f)
  | .deref e => e.code f depth
  | .addressOf e =>
    e.code f depth ++ (e.result f).locateCode (depth + (e.result f).held) ++ [.push .r0]

def argsCode (f : Frame) (depth : Int) : List Expr → List Instr
  | [] => []
  | e :: args =>
    e.code f depth ++ (e.result f).spillCode (depth + (e.result f).held) ++
      argsCode f (depth + 1) args

end

variable {f : Frame}

theorem scalars_append (args : List Expr) (e : Expr) :
    scalars f (args ++ [e]) = (scalars f args && (e.operand f).any Operand.scalar) := by
  induction args with
  | nil => simp [scalars]
  | cons a args ih => simp [scalars, ih, Bool.and_assoc]

theorem argsCode_append (depth : Int) (args : List Expr) (e : Expr) :
    argsCode f depth (args ++ [e]) = argsCode f depth args ++
      (e.code f (depth + args.length) ++
        (e.result f).spillCode (depth + args.length + (e.result f).held)) := by
  induction args generalizing depth with
  | nil => simp [argsCode]
  | cons a args ih =>
    have hlen : depth + 1 + (args.length : Int) = depth + ((a :: args).length : Int) := by
      simp only [List.length_cons]
      push_cast
      ring
    simp only [List.cons_append, argsCode, ih, hlen, List.append_assoc]

theorem result_eq {e : Expr} {o : Operand} (h : e.operand f = some o) : e.result f = o := by
  simp [result, h]

/-- What holds of the types of variables and of untyped integers holds of every operand's type. -/
theorem base_operand {P : Option TypeInfo → Prop} (hP : P (some .untyped))
    (hv : ∀ v ∈ f.vars, P v.type.base) :
    ∀ (e : Expr) {o : Operand}, e.operand f = some o → P o.type.base
  | .literal n, o, h => by
    simp only [operand, Option.ite_none_right_eq_some, Option.some.injEq] at h
    exact h.2 ▸ hP
  | .name x, o, h => by
    simp only [operand, Option.map_eq_some_iff] at h
    obtain ⟨v, hfind, rfl⟩ := h
    exact hv v (List.mem_filter.1 (List.mem_of_find?_eq_some hfind)).1
  | .call g args, o, h => by
    simp only [operand, Option.ite_none_right_eq_some, Option.some.injEq] at h
    exact h.2 ▸ hP
  | .binary op l r, o, h => by
    simp only [operand, Option.bind_eq_some_iff, Option.map_eq_some_iff] at h
    obtain ⟨a, ha, b, hb, t, ht, rfl⟩ := h
    simp only [Operand.combined, Option.ite_none_right_eq_some] at ht
    have hl := base_operand hP hv l ha
    have hr := base_operand hP hv r hb
    rcases Operand.joined_eq ht.2 with rfl | rfl
    exacts [hl, hr]
  | .deref e, o, h => by
    simp only [operand, Option.bind_eq_some_iff] at h
    obtain ⟨a, ha, hp⟩ := h
    simp only [Operand.pointee, Option.ite_none_left_eq_some, Option.some.injEq] at hp
    have := base_operand hP hv e ha
    exact hp.2 ▸ this
  | .addressOf e, o, h => by
    simp only [operand, Option.bind_eq_some_iff, Option.ite_none_right_eq_some,
      Option.some.injEq] at h
    obtain ⟨a, ha, -, rfl⟩ := h
    have := base_operand hP hv e ha
    exact this

theorem typed_operand (hv : ∀ v ∈ f.vars, v.type.base.isSome) (e : Expr) {o : Operand}
    (h : e.operand f = some o) : o.type.base.isSome :=
  base_operand (P := fun base => base.isSome) rfl hv e h

/-- A part of an expression that keeps the typing rules keeps them too. -/
theorem hereditary_operand : Parse.Hereditary fun e => (e.operand f).isSome where
  deref {e} h := by
    cases he : e.operand f <;> simp_all [operand]
  addressOf {e} h := by
    cases he : e.operand f <;> simp_all [operand]
  left {op l r} h := by
    cases hl : l.operand f <;> simp_all [operand]
  right {op l r} h := by
    cases hl : l.operand f <;> cases hr : r.operand f <;> simp_all [operand]
  args {g args e} h := by
    cases hargs : scalars f args <;> simp_all [operand, scalars_append]
  arg {g args e} h := by
    cases he : e.operand f <;> simp_all [operand, scalars_append]

end Expr

/-- A type whose size is kept in 64 bits, and is one word for an integer type. -/
structure TypeInfo.Regular (b : TypeInfo) : Prop where
  word : b.prim = .u16 ∨ b.prim = .i16 ∨ b.prim = .untyped → b.size = 1
  range : -2 ^ 63 ≤ b.size ∧ b.size < 2 ^ 63

theorem TypeInfo.regular_builtin : ∀ b ∈ [TypeInfo.void, .u16, .i16, .untyped], b.Regular := by
  intro b hb
  simp only [List.mem_cons, List.not_mem_nil, or_false] at hb
  rcases hb with rfl | rfl | rfl | rfl <;> exact ⟨by decide, by decide⟩

theorem Ty.words_of_scalar {t : Ty} (h : ∀ b ∈ t.base, b.Regular) (hs : holds t.isScalar) :
    t.words = 1 := by
  unfold words
  split
  · rfl
  · rename_i hd
    cases hb : t.base with
    | none => simp [isScalar, hd, info, hb, Except.map, holds] at hs
    | some b =>
      simp only [isScalar, hd, if_false, info, hb, Except.map, holds, Bool.or_eq_true,
        decide_eq_true_eq, or_assoc] at hs
      simpa using (h b hb).word hs

theorem Ty.same_iff {t u : Ty} : t.same u ↔ t.sameBase u ∧ t.depth = u.depth := by
  simp [same]

theorem Ty.isScalar_of_same {t u : Ty} (h : t.same u) (hu : holds u.isScalar) :
    holds t.isScalar := by
  obtain ⟨hbase, hdepth⟩ := same_iff.1 h
  unfold isScalar at hu ⊢
  rw [hdepth]
  by_cases hd : 0 < u.depth
  · simp [hd, holds]
  · rw [if_neg hd] at hu ⊢
    unfold sameBase at hbase
    cases ht : t.base <;> cases hb : u.base <;>
      simp_all [info, Except.map, holds, TypeInfo.same]

theorem Ty.isScalar_of_accepts {t v : Ty} (hv : holds v.isScalar) (h : holds (t.accepts v)) :
    holds t.isScalar := by
  unfold accepts at h
  cases hu : v.isUntyped with
  | error f => simp [hu, bind, Except.bind, holds] at h
  | ok u =>
    simp only [hu, bind, Except.bind, pure, Except.pure] at h
    cases u with
    | true =>
      -- an untyped value is taken at depth 0 only
      by_cases hd : t.depth = 0
      · cases hb : t.base with
        | none => simp [hd, info, hb, holds] at h
        | some b =>
          simp [hd, info, hb, holds] at h
          rcases h with h | h <;> simp [isScalar, hd, info, hb, Except.map, holds, h]
      · simp [hd, holds] at h
    | false =>
      -- any other value has the very type of the slot
      exact isScalar_of_same (by simpa [holds] using h) hv

theorem Operand.words_initializes {o : Operand} {declared t : Ty}
    (ho : ∀ b ∈ o.type.base, b.Regular) (hd : ∀ b ∈ declared.base, b.Regular)
    (h : o.initializes declared = some t) : t.words = 1 := by
  simp only [initializes, Option.ite_none_right_eq_some, Option.filter_eq_some_iff] at h
  obtain ⟨hs, ht, -⟩ := h
  unfold Ty.initial at ht
  split at ht
  · split at ht <;> obtain rfl := Option.some.inj ht
    · unfold Ty.words
      split <;> rfl
    · exact Ty.words_of_scalar ho hs
  · simp only [Option.ite_none_right_eq_some, Option.some.injEq] at ht
    obtain ⟨ha, rfl⟩ := ht
    exact Ty.words_of_scalar hd (Ty.isScalar_of_accepts hs ha)

/-- The type that a declaration gives, if any. There is no variable without a size. -/
def Decl.declared (types : Registry) (d : Decl) : Option Ty :=
  match d.type with
  | none => some {}
  | some (tok, stars) =>
    (types.resolve tok).bind fun base =>
      let type : Ty := ⟨base, stars⟩
      if type.words = 0 then none else some type

theorem Decl.regular_declared {types : Registry} {d : Decl} {t : Ty}
    (h : ∀ e ∈ types.entries, ∀ b ∈ e.2, b.Regular) (hd : d.declared types = some t) :
    ∀ b ∈ t.base, b.Regular := by
  unfold declared at hd
  split at hd
  · obtain rfl := Option.some.inj hd
    simp
  · simp only [Option.bind_eq_some_iff, Option.ite_none_left_eq_some, Option.some.injEq] at hd
    obtain ⟨base, hbase, -, rfl⟩ := hd
    refine Registry.of_resolve (P := fun base => ∀ b ∈ base, b.Regular) ?_ h hbase
    intro b hb c hc
    obtain rfl := Option.some.inj hc
    exact TypeInfo.regular_builtin _ (List.mem_of_mem_take (i := 3) hb)

/-- Whether a statement may come down to an operand: there is no value of type `void`. -/
def Operand.discards (o : Operand) : Bool :=
  o.scalar || (o.type.base.map (·.prim)) ≠ some .void

/-- Code that ends a statement that comes down to an operand: a scalar is left in `r1`. -/
def Operand.discardCode (depth : Int) (o : Operand) : List Instr :=
  if o.scalar then o.loadCode depth .r1 else if o.place = .stack then [.pop .r1] else []

def Frame.extend (f : Frame) (d : Decl) (type : Ty) : Frame :=
  ({ f with depth := wrap (f.depth + type.words) }.add d.name d.line type f.depth).2

namespace Stmt

/-- The frame after a statement; nothing where the statement breaks a typing rule. -/
def frame (types : Registry) (f : Frame) : Stmt → Option Frame
  | .empty => some f
  | .expr e => (e.operand f).bind fun o => if o.discards then some f else none
  | .assign l r =>
    (l.operand f).bind fun l => (r.operand f).bind fun r => if l.assignable r then some f else none
  | .var d none =>
    (d.declared types).bind fun t => if 0 < t.words then some (f.extend d t) else none
  | .var d (some e) =>
    (d.declared types).bind fun t => (e.operand f).bind fun o =>
      (o.initializes t).map fun t => f.extend d t

def code (types : Registry) (f : Frame) : Stmt → List Instr
  | .empty => []
  | .expr e => e.code f f.depth ++ (e.result f).discardCode (f.depth + (e.result f).held)
  | .assign l r =>
    l.code f f.depth ++ r.code f (f.depth + (l.result f).held) ++
      Operand.storeCode (f.depth + (l.result f).held + (r.result f).held) (l.result f) (r.result f)
  | .var d none => zerosCode ((d.declared types).getD {}).words
  | .var _ (some e) => e.code f f.depth ++ (e.result f).spillCode (f.depth + (e.result f).held)

end Stmt

end OnePass
