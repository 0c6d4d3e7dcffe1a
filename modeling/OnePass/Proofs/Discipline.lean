import Mathlib
import OnePass.Proofs.Statements
import OnePass.Proofs.Tiling

namespace OnePass

/-- An operand is where code can reach it. Its type can be named, or it is a literal or the result
of a call, with nothing left to follow. -/
structure Operand.Ordinary (o : Operand) : Prop where
  settled : o.settled
  base : ∃ b, o.type.base = some b ∧ (b.Named ∨
    b = .untyped ∧ o.type.depth = 0 ∧ o.derefs = 0 ∧ ∀ a, o.place ≠ .frame a)

/-- An entry of a statement. A declaration's type can be named and is not without size. -/
structure Directive.Ordinary (types : Registry) (d : Directive) : Prop where
  known : ∀ n, d.kind ≠ .unknown n
  settled : d.operand.settled
  value : d.kind = .value → d.operand.Ordinary
  declaration : d.kind = .declaration → ∀ b ∈ d.operand.type.base, b.Named ∧
    d.operand.type.words ≠ 0 ∧ (types.Fits → 0 < d.operand.type.words)

/-- The variables tile the frame, and `held` words lie above them. -/
structure Session.Orderly (held : Int) (s : Session) : Prop where
  types : Built s.types.entries
  tiled : s.frame.Tiled
  depth : s.frame.depth = wrap (totalWords s.frame.visible + held)

/-- The words above the variables belong to the entries of a directive stack. -/
structure Session.Holds (stack : List Directive) (s : Session) : Prop where
  entries : ∀ d ∈ stack, d.Ordinary s.types
  orderly : s.Orderly (stack.map Directive.held).sum

def DirectiveKind.isBinary (k : DirectiveKind) : Bool := k = .assign || k.alu?.isSome

/-- An operand that stands on `below`. A declaration stands on nothing. -/
def IsOperand (d : Directive) (below : List Directive) : Prop :=
  d.kind = .value ∨ d.kind = .declaration ∧ below = []

/-- A stack on which an operand is due. Since the last open group, the topmost binary operator has
the precedence `q`, or there is none and `q` is zero; where `bare`, no prefix operator stands on
it. An assignment that has been reduced leaves nothing, so that another may stand in its place. -/
inductive Awaits : (q : Int) → (bare : Bool) → List Directive → Prop where
  | bottom : Awaits 0 true []
  | group {q : Int} {bare : Bool} {g : Directive} {below : List Directive}
      (h : Awaits q bare below) (hg : g.kind.opensGroup) : Awaits 0 true (g :: below)
  | unary {q : Int} {bare : Bool} {op : Directive} {below : List Directive}
      (h : Awaits q bare below) (hop : op.kind.isUnary) : Awaits q false (op :: below)
  | binary {q : Int} {op d : Directive} {below : List Directive} (h : Awaits q true below)
      (hd : IsOperand d below) (hop : op.kind.isBinary) (hq : q < op.kind.precedence) :
      Awaits op.kind.precedence true (op :: d :: below)
  | orphan {op : Directive} {below : List Directive} (h : Awaits 0 true below)
      (hop : op.kind = .assign) : Awaits op.kind.precedence true (op :: below)

/-- What is left of a stack once its operators down to the precedence `q` are reduced. -/
def Lowered (q : Int) (stack : List Directive) : Prop :=
  (∃ d below p, stack = d :: below ∧ IsOperand d below ∧ Awaits p true below ∧ (p < q ∨ p = 0)) ∨
    q ≤ 1 ∧ Awaits 0 true stack

/-- A session between two tokens of a statement. -/
structure Session.Reading (s : Session) : Prop where
  holds : s.Holds s.stack
  shape : if s.expectOperand then ∃ q bare, Awaits q bare s.stack
    else ∃ d below q bare, s.stack = d :: below ∧ IsOperand d below ∧ Awaits q bare below

section Shape

variable {q p : Int} {bare : Bool} {d op : Directive} {below stack : List Directive}

theorem isBinary_iff (k : DirectiveKind) :
    k.isBinary ↔ k = .assign ∨ k = .add ∨ k = .sub ∨ k = .mul := by
  cases k <;> simp [DirectiveKind.isBinary, DirectiveKind.alu?]

theorem precedence_pos {k : DirectiveKind} (h : k.isBinary) : 0 < k.precedence := by
  rcases (isBinary_iff k).1 h with rfl | rfl | rfl | rfl <;> decide

theorem Awaits.nonneg (h : Awaits q bare stack) : 0 ≤ q := by
  induction h with
  | bottom => exact le_rfl
  | group => exact le_rfl
  | unary h hop ih => exact ih
  | binary h hd hop hq ih => exact (precedence_pos hop).le
  | orphan h hop ih => exact Build.precedence_nonneg _

theorem Awaits.base (h : Awaits 0 true stack) :
    stack = [] ∨
      ∃ g below q bare, stack = g :: below ∧ g.kind.opensGroup ∧ Awaits q bare below := by
  generalize hq : (0 : Int) = q at h
  generalize hb : true = bare at h
  cases h with
  | bottom => exact .inl rfl
  | group h hg => exact .inr ⟨_, _, _, _, rfl, hg, h⟩
  | unary h hop => cases hb
  | binary h hd hop hlt =>
    have := precedence_pos hop
    omega
  | orphan h hop =>
    rw [hop] at hq
    cases hq

theorem IsOperand.kind (h : IsOperand d below) :
    d.kind.isOperator = false ∧ d.kind.opensGroup = false := by
  rcases h with h | ⟨h, -⟩ <;> simp [h, DirectiveKind.isOperator, DirectiveKind.opensGroup]

theorem splitOperator_group (h : d.kind.opensGroup) (below : List Directive) :
    Build.splitOperator (d :: below) = none := by
  have hop : d.kind.isOperator = false := by
    cases hk : d.kind <;> simp_all [DirectiveKind.opensGroup, DirectiveKind.isOperator]
  simp [Build.splitOperator, Build.splitTop, h, hop]

theorem splitOperator_base (h : Awaits 0 true stack) : Build.splitOperator stack = none := by
  rcases h.base with rfl | ⟨g, below, -, -, rfl, hg, -⟩
  · rfl
  · exact splitOperator_group hg below

theorem splitOperator_operand (hd : IsOperand d below) (h : Build.splitOperator below = none) :
    Build.splitOperator (d :: below) = none := by
  obtain ⟨h₁, h₂⟩ := hd.kind
  unfold Build.splitOperator at h ⊢
  simp [Build.splitTop, h₁, h₂, h]

theorem splitOperator_operator (hd : IsOperand d (op :: below)) (hop : op.kind.isOperator) :
    Build.splitOperator (d :: op :: below) = some ([d], op, below) := by
  obtain ⟨h₁, h₂⟩ := hd.kind
  simp [Build.splitOperator, Build.splitTop, h₁, h₂, hop]

theorem isOperator_of_isUnary {k : DirectiveKind} (h : k.isUnary) : k.isOperator := by
  cases k <;> simp_all [DirectiveKind.isUnary, DirectiveKind.isOperator]

theorem isOperator_of_isBinary {k : DirectiveKind} (h : k.isBinary) : k.isOperator := by
  rcases (isBinary_iff k).1 h with rfl | rfl | rfl | rfl <;> rfl

theorem Awaits.declaration_last (h : Awaits q bare (op :: d :: below)) (hop : op.kind.isBinary)
    (hd : d.kind = .declaration) : below = [] := by
  cases h with
  | group _ hg =>
    rcases (isBinary_iff op.kind).1 hop with hk | hk | hk | hk <;>
      simp [hk, DirectiveKind.opensGroup] at hg
  | unary _ hu =>
    rcases (isBinary_iff op.kind).1 hop with hk | hk | hk | hk <;>
      simp [hk, DirectiveKind.isUnary] at hu
  | binary _ hoperand => exact (hoperand.resolve_left (by simp [hd])).2
  | orphan hb =>
    rcases hb.base with hb | ⟨g, _, _, _, heq, hg, -⟩
    · cases hb
    · cases heq
      simp [hd, DirectiveKind.opensGroup] at hg

/-- A reduction leaves a value in the place of what it took, or nothing where it was an
assignment. -/
theorem Awaits.reduction (h : Awaits q bare (op :: below))
    (hr : Reduction (d :: op :: below) stack) :
    (∃ v rest p bare, stack = v :: rest ∧ v.kind = .value ∧ Awaits p bare rest) ∨
      op.kind = .assign ∧ Awaits 0 true stack := by
  cases hr with
  | unary hrv hop hv =>
    cases h with
    | group h hg =>
      cases hk : op.kind <;> simp_all [DirectiveKind.opensGroup, DirectiveKind.isUnary]
    | unary h _ => exact .inl ⟨_, _, _, _, rfl, hv, h⟩
    | binary h hd hb hq =>
      rcases (isBinary_iff op.kind).1 hb with hk | hk | hk | hk <;>
        simp [hk, DirectiveKind.isUnary] at hop
    | orphan h hk => simp [hk, DirectiveKind.isUnary] at hop
  | assign hrv hop hl hg =>
    cases h with
    | group h hg => simp [hop, DirectiveKind.opensGroup] at hg
    | unary h hu => simp [hop, DirectiveKind.isUnary] at hu
    | binary h hd hb hq =>
      rw [hop] at hq
      have hzero := h.nonneg
      -- an assignment has the lowest precedence, so what is under it awaits at none
      obtain rfl := Int.le_antisymm (Int.lt_add_one_iff.1 hq) hzero
      exact .inr ⟨hop, h⟩
    | orphan h hk =>
      rcases h.base with h | ⟨g, _, _, _, heq, hgroup, -⟩
      · cases h
      · cases heq
        simp [hgroup] at hg
  | binary hrv hop hl hg hdecl hv =>
    cases h with
    | group h hg => cases hk : op.kind <;> simp_all [DirectiveKind.opensGroup, DirectiveKind.alu?]
    | unary h hu => cases hk : op.kind <;> simp_all [DirectiveKind.isUnary, DirectiveKind.alu?]
    | binary h hd hb hq => exact .inl ⟨_, _, _, _, rfl, hv, h⟩
    | orphan h hk => simp [hk, DirectiveKind.alu?] at hop

end Shape

namespace Operand

variable {o l r : Operand} {t : Ty}

theorem Ordinary.typed (h : o.Ordinary) : o.type.base.isSome := by
  obtain ⟨b, hb, -⟩ := h.base
  simp [hb]

theorem Ordinary.regular (h : o.Ordinary) : ∀ b ∈ o.type.base, b.Regular := by
  obtain ⟨b, hb, hnamed⟩ := h.base
  intro c hc
  obtain rfl : b = c := by simpa [hb] using hc
  rcases hnamed with hnamed | ⟨rfl, -⟩
  · exact hnamed.regular
  · exact TypeInfo.regular_builtin _ (by simp)

/-- What is not a plain untyped integer has a type that can be named. -/
theorem Ordinary.named (h : o.Ordinary)
    (hn : o.type.depth ≠ 0 ∨ o.derefs ≠ 0 ∨ (∃ a, o.place = .frame a) ∨
      holds o.type.isUntyped = false) : ∃ b, o.type.base = some b ∧ b.Named := by
  obtain ⟨b, hb, hnamed | ⟨rfl, hdepth, hderefs, hplace⟩⟩ := h.base
  · exact ⟨b, hb, hnamed⟩
  · rcases hn with hn | hn | ⟨a, hn⟩ | hn
    · exact absurd hdepth hn
    · exact absurd hderefs hn
    · exact absurd hn (hplace a)
    · simp [Ty.isUntyped, hdepth, Ty.info, hb, Except.map, holds, TypeInfo.untyped] at hn

theorem ordinary_of_named (hs : o.settled) (h : ∃ b, o.type.base = some b ∧ b.Named) :
    o.Ordinary :=
  ⟨hs, h.imp fun _ hb => ⟨hb.1, .inl hb.2⟩⟩

theorem ordinary_untyped {n : Int} {p : Place} (hs : p = .stack ∨ p = .immediate n) :
    Operand.Ordinary { type := .untyped, place := p } := by
  rcases hs with rfl | rfl <;>
    exact ⟨rfl, .untyped, rfl, .inr ⟨rfl, rfl, rfl, by simp⟩⟩

theorem Ordinary.result (h : o.Ordinary) (ht : t = o.type) :
    Operand.Ordinary { type := t, place := .stack } := by
  obtain ⟨b, hb, hnamed | ⟨rfl, hdepth, -⟩⟩ := h.base
  · exact ordinary_of_named rfl ⟨b, ht ▸ hb, hnamed⟩
  · exact ⟨rfl, _, ht ▸ hb, .inr ⟨rfl, ht ▸ hdepth, rfl, by simp⟩⟩

theorem Ordinary.pointee {o' : Operand} (h : o.Ordinary) (hp : o.pointee = some o') :
    o'.Ordinary := by
  simp only [Operand.pointee, Option.ite_none_left_eq_some, Option.some.injEq] at hp
  obtain ⟨hdepth, rfl⟩ := hp
  obtain ⟨b, hb, hnamed⟩ := h.named (.inl hdepth)
  exact ordinary_of_named h.settled ⟨b, hb, hnamed⟩

theorem Ordinary.addressable (h : o.Ordinary) (ha : o.addressable) :
    ∃ b, o.type.base = some b ∧ b.Named := by
  unfold Operand.addressable at ha
  split at ha
  · exact h.named (.inr (.inr (.inl ⟨_, ‹_›⟩)))
  · simp only [decide_eq_true_eq] at ha
    exact h.named (.inr (.inl (by omega)))
  · cases ha

theorem Ordinary.named_initial {declared : Ty} (h : o.Ordinary)
    (hd : ∀ b ∈ declared.base, b.Named) (ht : declared.initial o.type = some t) :
    ∃ b, t.base = some b ∧ b.Named := by
  unfold Ty.initial at ht
  cases hbase : declared.base with
  | none =>
    rw [hbase] at ht
    simp only [Option.isNone_none, if_true, Option.some.injEq] at ht
    cases hu : holds o.type.isUntyped <;> rw [hu] at ht <;> rw [← ht]
    · exact h.named (.inr (.inr (.inr hu)))
    · exact ⟨.u16, rfl, TypeInfo.named_builtin _ (by simp)⟩
  | some b =>
    rw [hbase] at ht hd
    simp only [Option.isNone_some, Bool.false_eq_true, if_false, Option.ite_none_right_eq_some,
      Option.some.injEq] at ht
    exact ⟨b, ht.2 ▸ hbase, hd b rfl⟩

end Operand

namespace Session

variable {s t : Session} {stack : List Directive} {m n : Int}

theorem Orderly.congr (h : s.Orderly n) (htypes : t.types = s.types) (hframe : t.frame = s.frame) :
    t.Orderly n :=
  ⟨htypes ▸ h.types, hframe ▸ h.tiled, hframe ▸ h.depth⟩

theorem Orderly.cast (h : s.Orderly m) (e : m = n) : s.Orderly n := e ▸ h

theorem Orderly.wrapped (h : s.Orderly m) (e : wrap m = wrap n) : s.Orderly n :=
  ⟨h.types, h.tiled, by rw [h.depth, ← wrap_add_wrap, e, wrap_add_wrap]⟩

theorem Holds.congr (h : s.Holds stack) (htypes : t.types = s.types)
    (hframe : t.frame = s.frame) : t.Holds stack :=
  ⟨htypes ▸ h.entries, h.orderly.congr htypes hframe⟩

theorem Holds.cons {d : Directive} (h : s.Holds stack) (hd : d.Ordinary s.types)
    (hz : d.held = 0) : s.Holds (d :: stack) :=
  ⟨List.forall_mem_cons.2 ⟨hd, h.entries⟩, h.orderly.cast (by simp [hz])⟩

/-- A session later in the same source, with no code taken back. -/
structure Later (s t : Session) : Prop where
  tokens : t.tokens = s.tokens
  code : s.code.size ≤ t.code.size

theorem Later.refl (s : Session) : Later s s := ⟨rfl, le_rfl⟩

theorem Later.trans {u : Session} (h : Later s t) (h' : Later t u) : Later s u :=
  ⟨h'.tokens.trans h.tokens, h.code.trans h'.code⟩

theorem later_emitted (s : Session) (code : List Instr) (depth : Int) :
    Later s (s.emitted code depth) :=
  ⟨rfl, by rw [emitted_size]; omega⟩

/-- What a step within a statement leaves as it was. -/
structure Keeps (s t : Session) : Prop extends Later s t where
  types : t.types = s.types
  expect : t.expectOperand = s.expectOperand

theorem Keeps.refl (s : Session) : Keeps s s := ⟨.refl s, rfl, rfl⟩

theorem Keeps.trans {u : Session} (h : Keeps s t) (h' : Keeps t u) : Keeps s u :=
  ⟨h.toLater.trans h'.toLater, h'.types.trans h.types, h'.expect.trans h.expect⟩

end Session

namespace Build

open Session

variable {α β : Type} {s : Session} {n : Int} {lhs rhs : Directive}

/-- How a step may end: in a result that `Q` describes, or rejected. Only a struct whose size wraps
can be the reason for an internal error. -/
def Proper (Q : α → Session → Prop) : EStateM.Result Stop Session α → Prop
  | .ok a t => Q a t
  | .error (.reject d) t => t.types.Fits → d.problem.kind ≠ .internal
  | .error (.crash _) _ => True

theorem Proper.bind {m : Build α} {f : α → Build β} {Q : α → Session → Prop}
    {R : β → Session → Prop} (hm : Proper Q (m.run s))
    (hf : ∀ a t, Q a t → Proper R ((f a).run t)) : Proper R ((m >>= f).run s) := by
  rw [EStateM.run_bind]
  cases hr : m.run s with
  | ok a t =>
    rw [hr] at hm
    exact hf a t hm
  | error e t =>
    rw [hr] at hm
    cases e <;> exact hm

theorem Proper.mono {r : EStateM.Result Stop Session α} {Q R : α → Session → Prop}
    (h : Proper Q r) (hQ : ∀ a t, r = .ok a t → Q a t → R a t) : Proper R r := by
  cases r with
  | ok a t => exact hQ a t rfl h
  | error e t => cases e <;> exact h

theorem proper_reject {line : Int} {problem : Problem} {Q : α → Session → Prop}
    (h : (problem.kind == .internal) = false) : Proper Q ((reject line problem : Build α).run s) :=
  fun _ => ne_of_beq_false h

/-- A step that never gives an internal error. -/
def Blameless (m : Build α) : Prop :=
  ∀ s d t, m.run s = .error (.reject d) t → d.problem.kind ≠ .internal

theorem Blameless.bind {m : Build α} {f : α → Build β} (hm : Blameless m)
    (hf : ∀ a, Blameless (f a)) : Blameless (m >>= f) := by
  intro s d t h
  rw [EStateM.run_bind] at h
  cases hr : m.run s with
  | ok a u =>
    rw [hr] at h
    exact hf a u d t h
  | error e u =>
    rw [hr] at h
    cases h
    exact hm s d t hr

theorem blameless_pure (a : α) : Blameless (pure a : Build α) := fun _ _ _ h => by simp at h

theorem blameless_sound (r : Except Fault α) : Blameless (sound r) := by
  intro s d t h
  cases r <;> simp at h

theorem blameless_tokenAt (i : Int) : Blameless (tokenAt i) := fun _ _ _ h => by simp at h

theorem blameless_reject {line : Int} {problem : Problem}
    (h : (problem.kind == .internal) = false) : Blameless (reject line problem : Build α) := by
  intro s d t hr
  cases hr
  exact ne_of_beq_false h

theorem blameless_unless (b : Bool) {m : Build PUnit} (h : Blameless m) :
    Blameless (unless b do m) := by
  cases b
  · exact h
  · exact blameless_pure _

theorem blameless_requireScalar (d : Directive) : Blameless (requireScalar d) := by
  refine (blameless_sound _).bind fun b => blameless_unless b ?_
  refine (blameless_tokenAt _).bind fun _ => (blameless_sound _).bind fun _ => ?_
  split <;> exact blameless_reject rfl

theorem blameless_requireRange (line : Int) (t : Ty) (o : Operand) :
    Blameless (requireRange line t o) := by
  refine (blameless_sound _).bind fun b => blameless_unless b ?_
  split
  · exact (blameless_sound _).bind fun _ => blameless_reject rfl
  · exact blameless_pure _

theorem blameless_initialType (name : Token) (declared given : Ty) :
    Blameless (initialType name declared given) := by
  unfold initialType
  split
  · refine (blameless_sound _).bind fun b => ?_
    split <;> exact blameless_pure _
  · refine (blameless_sound _).bind fun b => ?_
    split
    · exact blameless_pure _
    · exact blameless_reject rfl

theorem blameless_adopt (kind : DirectiveKind) (op : Token) (lhs rhs : Directive) :
    Blameless (adopt kind op lhs rhs) := by
  have hmismatch {γ : Type} : Blameless (reject op.line
      (.operandsMismatched kind lhs.operand.type rhs.operand.type) : Build γ) :=
    blameless_reject rfl
  refine (blameless_sound _).bind fun a => (blameless_sound _).bind fun b => ?_
  cases a <;> cases b
  · dsimp only
    split
    · exact blameless_pure _
    · exact hmismatch
  · refine (blameless_sound _).bind fun _ => ?_
    split
    · exact (blameless_requireRange _ _ _).bind fun _ => blameless_pure _
    · exact hmismatch.bind fun _ => (blameless_requireRange _ _ _).bind fun _ => blameless_pure _
  · refine (blameless_sound _).bind fun _ => ?_
    split
    · exact (blameless_requireRange _ _ _).bind fun _ => blameless_pure _
    · exact hmismatch.bind fun _ => (blameless_requireRange _ _ _).bind fun _ => blameless_pure _
  · exact blameless_pure _

theorem blameless_checkStore (op : Token) (lhs rhs : Directive) :
    Blameless (checkStore op lhs rhs) := by
  have hrest : Blameless (do
      requireScalar lhs
      requireScalar rhs
      unless ← sound (lhs.operand.type.accepts rhs.operand.type) do
        reject op.line (.cannotAssign lhs.operand.type rhs.operand.type)
      requireRange op.line lhs.operand.type rhs.operand) := by
    refine (blameless_requireScalar _).bind fun _ => (blameless_requireScalar _).bind fun _ =>
      (blameless_sound _).bind fun b => ?_
    cases b
    · exact Blameless.bind (blameless_reject rfl) fun _ => blameless_requireRange _ _ _
    · exact blameless_requireRange _ _ _
  unfold checkStore
  cases lhs.hasAddress
  · exact Blameless.bind (blameless_reject rfl) fun _ => hrest
  · exact hrest

theorem Checks.proper {m : Build α} {r : Option α} (hm : Checks m s r) (hb : Blameless m) :
    Proper (fun a t => t = s ∧ r = some a) (m.run s) := by
  cases r with
  | none =>
    obtain ⟨d, hd⟩ := hm
    rw [hd]
    exact fun _ => hb s d s hd
  | some a =>
    rw [show m.run s = .ok a s from hm]
    exact ⟨rfl, rfl⟩

/-- A step that emits code moves the words held by as much as the depth. -/
theorem Emits.proper {m : Build α} {k : Int} (he : Emits k m) (h : s.Orderly n) :
    Proper (fun _ t => Keeps s t ∧ t.Orderly (n + k)) (m.run s) := by
  obtain ⟨code, depth, hout⟩ := he s
  cases hr : m.run s with
  | ok a t =>
    rw [hr] at hout
    obtain ⟨rfl, hdepth⟩ := hout
    refine ⟨⟨later_emitted s code depth, rfl, rfl⟩, h.types, h.tiled.depth depth, ?_⟩
    show depth = wrap (totalWords s.frame.visible + (n + k))
    rw [hdepth (by rw [h.depth, wrap_wrap]), h.depth, wrap_wrap_add, add_assoc]
  | error e t =>
    rw [hr] at hout
    cases e with
    | reject d => exact hout.elim
    | crash f => trivial

end Build

end OnePass
