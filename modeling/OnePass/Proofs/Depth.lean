import Mathlib
import OnePass.Compile
import OnePass.Proofs.Balance
import OnePass.Proofs.Syntax

namespace OnePass

theorem DirectiveKind.eq_value {k : DirectiveKind} (hknown : ∀ n, k ≠ .unknown n)
    (hk : k.isOperator = false ∧ k.opensGroup = false) (hdecl : k ≠ .declaration) :
    k = .value := by
  cases k <;> simp_all [isOperator, opensGroup]

namespace Directive

/-- Words of the evaluation stack that an entry holds: the value of an operand, or the arguments of
a call. -/
def held (d : Directive) : Int :=
  match d.kind with
  | .value => d.operand.held
  | .call args => args
  | _ => 0

/-- What the entries of a statement are like. -/
structure Sound (d : Directive) : Prop where
  known : ∀ n, d.kind ≠ .unknown n
  typed : d.kind = .value → d.operand.type.base.isSome
  settled : d.kind = .value → d.operand.settled

theorem held_value {d : Directive} (h : d.kind = .value) : d.held = d.operand.held := by
  simp [held, h]

theorem sound_of_kind {d : Directive} (hv : d.kind ≠ .value) (hk : ∀ n, d.kind ≠ .unknown n) :
    d.Sound := ⟨hk, fun h => absurd h hv, fun h => absurd h hv⟩

end Directive

/-- Code that drops the words of a block. -/
def dropCode (words : Int) : List Instr :=
  if 0 < words then [.mov .r0 .sp, .addi words, .mov .sp .r0] else []

/-- The frame once its innermost scope, opened at `m`, is closed. -/
def Frame.closing (f : Frame) (m : Scope) (outer : List Scope) : Frame :=
  { f with scopes := outer, closed := m.id :: f.closed, depth := m.depth }

theorem Registry.of_resolve {r : Registry} {P : Option TypeInfo → Prop}
    (hb : ∀ b ∈ [TypeInfo.void, .u16, .i16], P (some b)) (h : ∀ e ∈ r.entries, P e.2) {tok : Token}
    {t : Option TypeInfo} (ht : r.resolve tok = some t) : P t := by
  unfold Registry.resolve at ht
  split at ht
  · exact Option.some.inj ht ▸ hb .void (by simp)
  · exact Option.some.inj ht ▸ hb .u16 (by simp)
  · exact Option.some.inj ht ▸ hb .i16 (by simp)
  · obtain ⟨l₁, l₂, heq, -⟩ := List.lookup_eq_some_iff.1 ht
    exact h (tok.name, t) (by simp [heq])
  · cases ht

/-- A declaration has nothing below it. -/
def Grounded : List Directive → Prop
  | [] => True
  | d :: rest => (d.kind = .declaration → rest = []) ∧ Grounded rest

theorem Grounded.cons {d : Directive} {rest : List Directive} (h : Grounded rest)
    (hd : d.kind ≠ .declaration) : Grounded (d :: rest) :=
  ⟨fun hk => absurd hk hd, h⟩

/-- The words above the marks belong to the entries of a directive stack. -/
structure Session.Carries (stack : List Directive) (s : Session) : Prop where
  sound : ∀ d ∈ stack, d.Sound
  grounded : Grounded stack
  within : s.Within (stack.map Directive.held)

theorem Session.Carries.congr {s t : Session} {stack : List Directive} (h : s.Carries stack)
    (htypes : t.types = s.types) (hframe : t.frame = s.frame) (hcode : t.code = s.code)
    (htrace : ∀ e ∈ s.trace, e ∈ t.trace) : t.Carries stack :=
  ⟨h.sound, h.grounded, h.within.congr htypes hframe hcode htrace⟩

theorem Session.Carries.value {s : Session} {rest : List Directive} {d : Directive}
    (hd : d.kind = .value ∧ d.Sound ∧ s.Within (d.held :: rest.map Directive.held))
    (hsound : ∀ d ∈ rest, d.Sound) (hgrounded : Grounded rest) : s.Carries (d :: rest) :=
  ⟨List.forall_mem_cons.2 ⟨hd.2.1, hsound⟩, hgrounded.cons (by simp [hd.1]), hd.2.2⟩

/-- The directive stack accounts for the words above the marks. -/
def Session.Open (s : Session) : Prop := s.Carries s.stack

namespace Build

variable {s : Session} {ws : List Int} {lhs rhs : Directive}

theorem sound_result {type : Ty} (ht : type.base.isSome) (tok : Int) :
    (result tok type).Sound :=
  ⟨by simp [result], fun _ => ht, fun _ => rfl⟩

theorem ends_define {decl : Directive} (hk : rhs.kind = .value) (hr : rhs.Sound)
    (h : s.Within (rhs.operand.held :: ws)) :
    Ends (fun _ t => t.Within ws) ((define decl rhs).run s) := by
  unfold define
  rw [run_bind_ok (run_tokenAt decl.tok)]
  refine ((checks_requireScalar (hr.typed hk)).ends h).bind fun _ t ht => ?_
  obtain ⟨rfl, -⟩ := ht
  refine ((checks_initialType _ _ (hr.typed hk)).ends h).bind fun type t ht => ?_
  obtain ⟨rfl, htype⟩ := ht
  have hbase := Ty.initial_base (hr.typed hk) htype
  refine ((checks_requireRange _ (hr.typed hk) hbase).ends h).bind fun _ t ht => ?_
  obtain ⟨rfl, -⟩ := ht
  refine (ends_spill (hr.settled hk) h).bind fun _ t ht => ?_
  rw [EStateM.run_bind, EStateM.run_get]
  exact ends_declare hbase _ _ ht.tail

theorem ends_store {op : Token} (hkl : lhs.kind = .value) (hk : rhs.kind = .value)
    (hl : lhs.Sound) (hr : rhs.Sound) (h : s.Within (rhs.operand.held :: lhs.operand.held :: ws)) :
    Ends (fun _ t => t.Within ws) ((store op lhs rhs).run s) := by
  rw [store_eq]
  refine ((checks_checkStore op hkl (hl.typed hkl) (hr.typed hk)).ends h).bind fun _ t ht => ?_
  obtain ⟨rfl, -⟩ := ht
  exact ends_emitStore (hl.typed hkl) (hl.settled hkl) (hr.settled hk) h

theorem ends_combine {kind : DirectiveKind} {alu : Alu} {op : Token} (halu : kind.alu? = some alu)
    (hkl : lhs.kind = .value) (hk : rhs.kind = .value) (hl : lhs.Sound) (hr : rhs.Sound)
    (h : s.Within (rhs.operand.held :: lhs.operand.held :: ws)) :
    Ends (fun d t => d.kind = .value ∧ d.Sound ∧ t.Within (d.held :: ws))
      ((combine kind op lhs rhs).run s) := by
  rw [combine_eq]
  refine ((checks_requireScalar (hl.typed hkl)).ends h).bind fun _ t ht => ?_
  obtain ⟨rfl, -⟩ := ht
  refine ((checks_requireScalar (hr.typed hk)).ends h).bind fun _ t ht => ?_
  obtain ⟨rfl, -⟩ := ht
  -- the operand that is adopted is one of the two, so it has a type
  have hadopt : Ends (fun like u => u = t ∧ like.operand.type.base.isSome)
      ((adopt kind op lhs rhs).run t) := by
    have := run_adopt (s := t) kind op (hl.typed hkl) (hr.typed hk)
    cases hj : lhs.operand.joined rhs.operand <;> rw [hj] at this
    · obtain ⟨d, hd⟩ := this
      rw [hd]
      exact h.rest
    · obtain ⟨like, hlike, htype⟩ := this
      rw [hlike]
      refine ⟨rfl, ?_⟩
      rcases Operand.joined_eq hj with ht | ht <;> rw [htype, ht]
      exacts [hl.typed hkl, hr.typed hk]
  refine hadopt.bind fun like t ht => ?_
  obtain ⟨rfl, hbase⟩ := ht
  refine (ends_emitCombine halu (hl.settled hkl) (hr.settled hk) h).bind fun _ t ht => ?_
  exact ⟨rfl, sound_result hbase _, ht⟩

theorem ends_takeAddress {op : Token} (hk : rhs.kind = .value) (hr : rhs.Sound)
    (h : s.Within (rhs.operand.held :: ws)) :
    Ends (fun d t => d.kind = .value ∧ d.Sound ∧ t.Within (d.held :: ws))
      ((takeAddress op rhs).run s) := by
  unfold takeAddress
  dsimp only
  split
  · refine (ends_locate (hr.settled hk) (hr.typed hk) h).bind fun _ t ht => ?_
    refine (ends_push (q := .r0) rfl ht).bind fun _ u hu => ?_
    exact ⟨rfl, sound_result (by exact hr.typed hk) _, hu⟩
  · exact ends_reject h

theorem ends_dereference {op : Token} (hk : rhs.kind = .value) (hr : rhs.Sound)
    (h : s.Within (rhs.operand.held :: ws)) :
    Ends (fun d t => d.kind = .value ∧ d.Sound ∧ t.Within (d.held :: ws))
      ((dereference op rhs).run s) := by
  unfold dereference
  dsimp only
  split
  · exact ends_reject h
  · refine ⟨hk, ⟨by simp [hk], fun _ => hr.typed hk, fun _ => hr.settled hk⟩, ?_⟩
    rw [Directive.held_value (by exact hk)]
    exact h

theorem ends_reduceArithmetic {kind : DirectiveKind} {alu : Alu} {tok : Token}
    {rest : List Directive} (halu : kind.alu? = some alu)
    (hvalue : lhs.kind ≠ .declaration → lhs.kind = .value) (hk : rhs.kind = .value)
    (h : s.Carries (rhs :: lhs :: rest)) :
    Ends (fun r t => t.Carries r.1) ((reduceArithmetic kind tok lhs rhs rest).run s) := by
  unfold reduceArithmetic
  split
  · exact ends_reject h.within
  · rename_i hdecl
    have hkl := hvalue hdecl
    have hw := h.within
    rw [List.map_cons, List.map_cons, Directive.held_value hk, Directive.held_value hkl] at hw
    refine (ends_combine halu hkl hk (h.sound lhs (by simp)) (h.sound rhs (by simp)) hw).bind
      fun value t ht => ?_
    exact .value ht (fun d hd => h.sound d (by simp [hd])) h.grounded.2.2

theorem ends_reduceBinary {op : Directive} {tok : Token} {below : List Directive}
    (hk : rhs.kind = .value) (h : s.Carries (rhs :: below)) :
    Ends (fun r t => t.Carries r.1) ((reduceBinary op tok rhs below).run s) := by
  have hr := h.sound rhs (by simp)
  cases below with
  | nil => exact ends_reject h.within
  | cons lhs rest =>
    have hl := h.sound lhs (by simp)
    have hrest : ∀ d ∈ rest, d.Sound := fun d hd => h.sound d (by simp [hd])
    have hw : s.Within (rhs.operand.held :: lhs.held :: rest.map Directive.held) := by
      rw [← Directive.held_value hk]
      exact h.within
    simp only [reduceBinary]
    split
    · exact ends_reject h.within
    rename_i hlhs
    have hvalue := DirectiveKind.eq_value hl.known (by simpa using hlhs)
    split
    · split
      · have hzero : lhs.held = 0 := by simp_all [Directive.held]
        rw [hzero] at hw
        refine (ends_define hk hr hw).bind fun _ t ht => ?_
        exact ⟨hrest, h.grounded.2.2, ht.tail⟩
      · rename_i hdecl
        have hkl := hvalue hdecl
        rw [Directive.held_value hkl] at hw
        refine (ends_store hkl hk hl hr hw).bind fun _ t ht => ?_
        exact ⟨hrest, h.grounded.2.2, ht⟩
    · rename_i hop
      exact ends_reduceArithmetic (show op.kind.alu? = some .add by rw [hop]; rfl) hvalue hk h
    · rename_i hop
      exact ends_reduceArithmetic (show op.kind.alu? = some .sub by rw [hop]; rfl) hvalue hk h
    · rename_i hop
      exact ends_reduceArithmetic (show op.kind.alu? = some .mul by rw [hop]; rfl) hvalue hk h
    · exact ends_reject h.within

theorem ends_reduceOver {op : Directive} {tok : Token} {below : List Directive}
    (h : s.Carries (rhs :: below)) :
    Ends (fun r t => t.Carries r.1) ((reduceOver op tok rhs below).run s) := by
  have hr := h.sound rhs (by simp)
  have hbelow : ∀ d ∈ below, d.Sound := fun d hd => h.sound d (by simp [hd])
  unfold reduceOver
  split
  · rename_i hk
    have hw : s.Within (rhs.operand.held :: below.map Directive.held) := by
      rw [← Directive.held_value hk]
      exact h.within
    split
    · refine (ends_dereference hk hr hw).bind fun value t ht => ?_
      exact .value ht hbelow h.grounded.2
    · refine (ends_takeAddress hk hr hw).bind fun value t ht => ?_
      exact .value ht hbelow h.grounded.2
    · exact (ends_reduceBinary hk h).bind fun r t ht => ht
  · exact ends_reject h.within
  · exact ends_reject h.within

theorem ends_reduceSplit {above below : List Directive} {op : Directive}
    (hop : op.kind.isOperator) (h : s.Carries (above ++ op :: below)) :
    Ends (fun r t => t.Carries r.1) ((reduceSplit above op below).run s) := by
  have hzero : op.held = 0 := by
    unfold Directive.held
    split <;> simp_all [DirectiveKind.isOperator]
  unfold reduceSplit
  split
  · rename_i rhs
    have hover : s.Carries (rhs :: below) := by
      refine ⟨fun d hd => h.sound d ?_, h.grounded.2.2.cons fun hk => ?_, ?_⟩
      · rcases List.mem_cons.1 hd with rfl | hd <;> simp [*]
      · cases h.grounded.1 hk
      · refine h.within.release fun hn => ⟨fun n hmem => hn n ?_, ?_⟩
        · simp only [List.map_cons, List.mem_cons, List.cons_append, List.nil_append] at hmem ⊢
          exact hmem.imp_right .inr
        · simp [hzero]
    exact (ends_reduceOver hover).bind fun r t ht => ht
  · exact ends_reject h.within

theorem splitTop_wanted {wanted blocks : DirectiveKind → Bool}
    {stack above below : List Directive} {d : Directive}
    (h : splitTop wanted blocks stack = some (above, d, below)) :
    wanted d.kind ∧ ∀ e ∈ above, wanted e.kind = false := by
  induction stack generalizing above with
  | nil => simp [splitTop] at h
  | cons e rest ih =>
    simp only [splitTop] at h
    split at h
    · simp_all
    · split at h
      · simp at h
      · obtain ⟨⟨a, d', b⟩, hs, heq⟩ := Option.map_eq_some_iff.1 h
        simp only [Prod.mk.injEq] at heq
        obtain ⟨rfl, rfl, rfl⟩ := heq
        obtain ⟨hd, ha⟩ := ih hs
        refine ⟨hd, List.forall_mem_cons.2 ⟨?_, ha⟩⟩
        simpa using ‹¬ wanted e.kind = true›

theorem precedence_nonneg (k : DirectiveKind) : 0 ≤ k.precedence := by
  cases k <;> simp [DirectiveKind.precedence]

theorem reduceStack_of_none {threshold : Int} {stack : List Directive}
    (h : splitOperator stack = none) : reduceStack threshold stack = pure () := by
  rw [reduceStack]
  split <;> simp_all

theorem ends_reduceStack (threshold : Int) (stack : List Directive) (hs : s.stack = stack)
    (h : s.Carries stack) :
    Ends (fun _ t => t.Open ∧ (threshold ≤ 0 → splitOperator t.stack = none))
      ((reduceStack threshold stack).run s) := by
  have hopen : s.Open := by rwa [Session.Open, hs]
  -- each reduction leaves a shorter stack
  induction hn : stack.length using Nat.strong_induction_on generalizing s stack with
  | _ n ih =>
    unfold reduceStack
    split
    · rename_i hnone
      exact ⟨hopen, fun _ => hs ▸ hnone⟩
    rename_i above op below hsplit
    have hstack := splitTop_eq hsplit
    split
    · rename_i hlow
      have := precedence_nonneg op.kind
      exact ⟨hopen, fun hle => by omega⟩
    rw [run_bind_ok (run_note _)]
    have hnoted (e : Event) := h.congr (t := { s with trace := s.trace.push e }) rfl rfl rfl
      fun _ he => Array.mem_push_of_mem _ he
    refine (ends_reduceSplit (splitTop_wanted hsplit).1 (hstack ▸ hnoted _)).bind
      fun reduced t ht => ?_
    have ht' := ht.congr (t := { t with stack := reduced.1 }) rfl rfl rfl fun _ he => he
    rw [run_bind_ok (run_setStack reduced.1)]
    exact ih _ (hn ▸ hstack ▸ reduced.2) reduced.1 rfl ht' ht' rfl

theorem ends_reduce (threshold : Int) (h : s.Open) :
    Ends (fun _ t => t.Open ∧ (threshold ≤ 0 → splitOperator t.stack = none))
      ((reduce threshold).run s) := by
  unfold reduce
  rw [EStateM.run_bind, EStateM.run_get]
  exact ends_reduceStack threshold s.stack rfl h

theorem kind_eq_value {arg marker : Directive} {below : List Directive} (h : s.Open)
    (hop : splitOperator s.stack = none)
    (hsplit : splitGroup s.stack = some ([arg], marker, below)) :
    arg.kind = .value := by
  have hstack := splitTop_eq hsplit
  have hgroup := (splitTop_wanted hsplit).2 arg (by simp)
  unfold Session.Open at h
  rw [hstack] at h hop
  have hknown := (h.sound arg (by simp)).known
  have hground := h.grounded.1
  cases hk : arg.kind <;>
    simp_all [DirectiveKind.opensGroup, splitOperator, splitTop, DirectiveKind.isOperator]

theorem ends_pushEntry {d : Directive} {tok : Token} (hd : d.Sound) (hz : d.held = 0)
    (hk : d.kind = .declaration → s.stack = []) (h : s.Open) :
    Ends (fun _ t => t.Open) ((pushEntry d tok).run s) := by
  unfold pushEntry
  rw [EStateM.run_bind, EStateM.run_get]
  dsimp only
  split
  · rw [EStateM.run_bind, EStateM.run_get]
    refine ⟨List.forall_mem_cons.2 ⟨hd, h.sound⟩, ⟨hk, h.grounded⟩, ?_⟩
    rw [List.map_cons, hz]
    exact Session.within_zero_cons.2 (h.within.congr rfl rfl rfl fun _ he => he)
  · exact ends_reject h.within

theorem ends_pushTerm {d : Directive} {tok : Token} (hd : d.Sound) (hz : d.held = 0)
    (hk : d.kind = .declaration → s.stack = []) (h : s.Open) :
    Ends (fun _ t => t.Open) ((pushTerm d tok).run s) :=
  (ends_pushEntry hd hz hk h).bind fun _ _ ht => ht.congr rfl rfl rfl fun _ he => he

theorem ends_pushOperator {kind : DirectiveKind} {i : Nat} {tok : Token} (hk : kind.isOperator)
    (hknown : ∀ n, kind ≠ .unknown n) (h : s.Open) :
    Ends (fun _ t => t.Open) ((pushOperator kind i tok).run s) := by
  unfold pushOperator
  rw [EStateM.run_bind, EStateM.run_get]
  dsimp only
  split
  · exact ends_reject h.within
  · refine (ends_reduce _ h).bind fun _ t ht => ?_
    obtain ⟨ht, -⟩ := ht
    have hkind : kind ≠ .value ∧ kind ≠ .declaration := by
      cases kind <;> simp_all [DirectiveKind.isOperator]
    have hz : ({ kind, tok := i } : Directive).held = 0 := by
      cases kind <;> simp_all [DirectiveKind.isOperator, Directive.held]
    refine ⟨List.forall_mem_cons.2 ⟨Directive.sound_of_kind hkind.1 hknown, ht.sound⟩,
      ht.grounded.cons hkind.2, ?_⟩
    rw [List.map_cons, hz]
    exact Session.within_zero_cons.2 (ht.within.congr rfl rfl rfl fun _ he => he)

theorem ends_useLiteral {i : Nat} {tok : Token} (h : s.Open) :
    Ends (fun _ t => t.Open) ((useLiteral i tok).run s) := by
  unfold useLiteral
  split
  · exact ends_reject h.within
  · exact ends_pushTerm ⟨by simp, fun _ => rfl, fun _ => rfl⟩ rfl (by simp) h

theorem ends_useVariable {i : Nat} {tok : Token} (h : s.Open) :
    Ends (fun _ t => t.Open) ((useVariable i tok).run s) := by
  unfold useVariable
  rw [EStateM.run_bind, EStateM.run_get]
  dsimp only
  split
  · exact ends_reject h.within
  · rename_i v hv
    have hmem : v ∈ s.frame.vars :=
      (List.mem_filter.1 (List.mem_of_find?_eq_some hv)).1
    exact ends_pushTerm ⟨by simp, fun _ => h.within.vars v hmem, fun _ => rfl⟩ rfl (by simp) h

theorem ends_pushStar {i : Nat} {tok : Token} (h : s.Open) :
    Ends (fun _ t => t.Open) ((pushStar i tok).run s) := by
  unfold pushStar
  rw [EStateM.run_bind, EStateM.run_get]
  dsimp only
  split
  · exact ends_pushEntry (Directive.sound_of_kind (by simp) (by simp)) rfl (by simp) h
  · exact ends_pushOperator rfl (by simp) h

/-- An argument becomes one of the words that its call holds. -/
theorem ends_passArgument {arg marker : Directive} {args : Int} {below : List Directive}
    (hk : arg.kind = .value) (hm : marker.kind = .call args)
    (h : s.Carries (arg :: marker :: below)) :
    Ends (fun _ t => t.Open ∧ t.stack = { marker with kind := .call (wrap (args + 1)) } :: below)
      ((passArgument arg marker args below).run s) := by
  have harg := h.sound arg (by simp)
  have hw : s.Within (arg.operand.held :: args :: below.map Directive.held) := by
    have hheld : marker.held = args := by simp [Directive.held, hm]
    rw [← Directive.held_value hk, ← hheld]
    exact h.within
  unfold passArgument
  refine ((checks_requireScalar (harg.typed hk)).ends h.within).bind fun _ t ht => ?_
  obtain ⟨rfl, -⟩ := ht
  refine (ends_spill (harg.settled hk) hw).bind fun _ t ht => ?_
  refine ⟨⟨List.forall_mem_cons.2 ⟨Directive.sound_of_kind (by simp) (by simp), fun d hd =>
    h.sound d (by simp [hd])⟩, h.grounded.2.2.cons (by simp), ?_⟩, rfl⟩
  refine ⟨ht.vars, ht.types, fun hmem => ?_⟩
  have hb := ht.balanced hmem
  have hargs : 0 ≤ args := hb.held_nonneg args (by simp)
  -- each argument is a word of the stack, so their number is in range
  have hwrap : wrap (args + 1) = args + 1 := by
    have hrange := hb.inRange hmem
    have hle := hb.sum_le
    have hpos : ∀ n ∈ below.map Directive.held, 0 ≤ n := fun n hn =>
      hb.held_nonneg n (List.mem_cons_of_mem _ (List.mem_cons_of_mem _ hn))
    have hpos := List.sum_nonneg hpos
    simp only [List.sum_cons] at hle
    obtain ⟨h₀, h₁⟩ := hrange
    exact wrap_eq_self (by omega) (by omega)
  have hheld : ({ marker with kind := .call (wrap (args + 1)) } : Directive).held = args + 1 := by
    simp [Directive.held, hwrap]
  refine (hb.release ?_ ?_).congr rfl rfl rfl fun _ he => he
  · intro n hn
    rw [List.map_cons, hheld] at hn
    rcases List.mem_cons.1 hn with rfl | hn
    · omega
    · exact hb.held_nonneg n (List.mem_cons_of_mem _ (List.mem_cons_of_mem _ hn))
  · simp only [List.map_cons, hheld, List.sum_cons]
    omega

theorem ends_finishCall {marker : Directive} {args : Int} {below : List Directive}
    (h : s.Carries ({ marker with kind := .call args } :: below)) :
    Ends (fun _ t => t.Open) ((finishCall marker args below).run s) := by
  have hcall := ends_call (s.token marker.tok).name h.within
  have heq : (finishCall marker args below).run s = ((do
      call (s.token marker.tok).name args
      note (.call (s.token marker.tok).name args)) >>= fun _ => do
        setStack (result marker.tok .untyped :: below)
        setExpectOperand false).run s := by
    unfold finishCall
    rw [run_bind_ok (run_tokenAt marker.tok)]
    simp
  rw [heq]
  refine hcall.bind fun _ t ht => ?_
  refine ⟨List.forall_mem_cons.2 ⟨sound_result rfl _, fun d hd => h.sound d (by simp [hd])⟩,
    h.grounded.2.cons (by simp [result]), ?_⟩
  exact ht.congr rfl rfl rfl fun _ he => he

theorem ends_closeGroup {tok : Token} (h : s.Open) :
    Ends (fun _ t => t.Open) ((closeGroup tok).run s) := by
  unfold closeGroup
  rw [EStateM.run_bind, EStateM.run_get]
  dsimp only
  split
  · split
    · rename_i marker below hstack
      split
      · rename_i args hm
        split
        · exact ends_reject h.within
        · have hmarker : ({ marker with kind := .call args } : Directive) = marker := by rw [← hm]
          unfold Session.Open at h
          rw [hstack, ← hmarker] at h
          exact ends_finishCall h
      · exact ends_reject h.within
    · exact ends_reject h.within
  -- an operand came last, so the group holds one entry once its operators are reduced
  · refine (ends_reduce 0 h).bind fun _ t ht => ?_
    obtain ⟨ht, hnone⟩ := ht
    rw [EStateM.run_bind, EStateM.run_get]
    dsimp only
    split
    · exact ends_reject ht.within
    · rename_i arg marker below hsplit
      have hvalue := kind_eq_value ht (hnone le_rfl) hsplit
      have hcarries : t.Carries (arg :: marker :: below) := by
        have hstack := splitTop_eq hsplit
        unfold Session.Open at ht
        rwa [hstack] at ht
      split
      · rename_i args hm
        refine (ends_passArgument hvalue hm hcarries).bind fun _ u hu => ?_
        obtain ⟨hu, hstack⟩ := hu
        unfold Session.Open at hu
        rw [hstack] at hu
        exact ends_finishCall hu
      -- the value stands in place of the parenthesis, which held nothing
      · refine ⟨fun d hd => hcarries.sound d ?_, hcarries.grounded.2.2.cons (by simp [hvalue]), ?_⟩
        · rcases List.mem_cons.1 hd with rfl | hd <;> simp [*]
        · refine (hcarries.within.release fun hn => ⟨fun n hmem => hn n ?_, ?_⟩).congr rfl rfl rfl
            fun _ he => he
          · simp only [List.map_cons, List.mem_cons] at hmem ⊢
            exact hmem.imp_right .inr
          · have := hn marker.held (by simp)
            simp only [List.map_cons, List.sum_cons]
            omega
    · exact ends_reject ht.within

theorem ends_nextArgument {tok : Token} (h : s.Open) :
    Ends (fun _ t => t.Open) ((nextArgument tok).run s) := by
  unfold nextArgument
  rw [EStateM.run_bind, EStateM.run_get]
  dsimp only
  split
  · exact ends_reject h.within
  · refine (ends_reduce 0 h).bind fun _ t ht => ?_
    obtain ⟨ht, hnone⟩ := ht
    rw [EStateM.run_bind, EStateM.run_get]
    dsimp only
    split
    · exact ends_reject ht.within
    · rename_i above marker below hsplit
      split
      · rename_i args hm
        split
        · rename_i arg
          have hvalue := kind_eq_value ht (hnone le_rfl) hsplit
          have hcarries : t.Carries (arg :: marker :: below) := by
            have hstack := splitTop_eq hsplit
            unfold Session.Open at ht
            rwa [hstack] at ht
          refine (ends_passArgument hvalue hm hcarries).bind fun _ u hu => ?_
          exact hu.1.congr rfl rfl rfl fun _ he => he
        · exact ends_reject ht.within
      · exact ends_reject ht.within

theorem ends_settle {d : Directive} (h : s.Carries [d]) :
    Ends (fun _ t => t.Within []) ((settle d).run s) := by
  have hd := h.sound d (by simp)
  unfold settle
  rw [run_bind_ok (run_tokenAt d.tok)]
  dsimp only
  split
  · split
    · exact ends_reject h.within
    · rename_i hbase
      have hbase : d.operand.type.base.isSome := by simpa [Option.isSome_iff_ne_none] using hbase
      rw [Ty.size_eq hbase, run_bind_ok (run_sound _), EStateM.run_bind, EStateM.run_get]
      refine (ends_zeros _ h.within.rest).bind fun _ t ht => ?_
      exact ends_declare hbase _ _ ht.rest
  · rename_i hk
    have htyped := hd.typed hk
    have hw : s.Within [d.operand.held] := by
      rw [← Directive.held_value hk]
      exact h.within
    obtain ⟨b, hb⟩ := Ty.info_eq htyped
    rw [Ty.isScalar_eq htyped, run_bind_ok (run_sound _), hb]
    split
    · exact (ends_load (q := .r1) rfl (hd.settled hk) hw).bind fun _ t ht => ht
    · rw [run_bind_ok (run_sound _)]
      split
      · exact ((checks_requireScalar htyped).ends hw).mono fun _ t ht => ht.1 ▸ hw.rest
      · split
        · rename_i hplace
          have hone : d.operand.held = 1 := by simp [Operand.held, hplace]
          rw [hone] at hw
          exact ends_pop rfl hw
        · exact hw.rest
  · exact ends_reject h.within

/-- Rejects words that no variable owns. -/
def checkWords (tok : Token) : Build Unit := do
  let words ← sound (temporaries (← get).frame)
  unless words = 0 do reject tok.line (.wordsLeft words)

def settleStack (tok : Token) : Build Unit := do
  let stack := (← get).stack
  if let some (_, marker, _) := splitGroup stack then
    reject (← tokenAt marker.tok).line .parenUnclosed
  match stack with
  | [] => pure ()
  | [d] => do
    setStack []
    settle d
  | _ => reject tok.line (.entriesLeft stack.length)
  checkWords tok

def settleEntries (tok : Token) (stack : List Directive) : Build Unit := do
  match stack with
  | [] => pure ()
  | [d] => do
    setStack []
    settle d
  | _ => reject tok.line (.entriesLeft stack.length)
  checkWords tok

theorem ends_checkWords (tok : Token) (h : s.Within []) :
    Ends (fun _ t => t.Within []) ((checkWords tok).run s) := by
  unfold checkWords
  rw [EStateM.run_bind, EStateM.run_get]
  dsimp only
  rw [temporaries, Frame.liveWords_eq h.vars, Except.map, run_bind_ok (run_sound _)]
  split
  · exact h
  · exact ends_reject h

theorem ends_settleStack (tok : Token) (h : s.Open) :
    Ends (fun _ t => t.Within []) ((settleStack tok).run s) := by
  unfold settleStack
  rw [EStateM.run_bind, EStateM.run_get]
  dsimp only
  split
  · rw [run_bind_ok (run_tokenAt _)]
    exact ends_reject h.within
  · split
    · exact ends_checkWords tok h.within.rest
    · rename_i d hstack
      unfold Session.Open at h
      rw [hstack] at h
      have hcarries : Session.Carries [d] { s with stack := [] } :=
        h.congr rfl rfl rfl fun _ he => he
      rw [run_bind_ok (run_setStack [])]
      exact (ends_settle hcarries).bind fun _ u hu => ends_checkWords tok hu
    · exact ends_reject h.within

theorem ends_conclude {tok : Token} (h : s.Open) :
    Ends (fun _ t => t.Within []) ((conclude tok).run s) := by
  unfold conclude
  rw [EStateM.run_bind, EStateM.run_get]
  dsimp only
  split
  · exact ends_reject h.within
  · exact (ends_reduce 0 h).bind fun _ t ht => ends_settleStack tok ht.1

/-- Takes a token that is neither the semicolon nor the name of a call. -/
def shift (i : Nat) (tok : Token) : Build Unit :=
  match tok.type with
  | .eof => reject tok.line .statementUnterminated
  | .var => reject tok.line .varInside
  | .integer => useLiteral i tok
  | .identifier => useVariable i tok
  | .lparen => pushEntry { kind := .openParen, tok := i } tok
  | .rparen => closeGroup tok
  | .comma => nextArgument tok
  | .assign => pushOperator .assign i tok
  | .plus => pushOperator .add i tok
  | .minus => pushOperator .sub i tok
  | .star => pushStar i tok
  | .amp => pushEntry { kind := .addressOf, tok := i } tok
  | _ => reject tok.line (.unexpectedInStatement tok)

/-- The first token of a statement's rest ends it, starts a call, or is taken by itself. -/
theorem terms_cons (i : Nat) (tok : Token) (rest : List Token) :
    (tok.type = .semicolon ∧ terms i (tok :: rest) = conclude tok) ∨
    (∃ o rest', rest = o :: rest' ∧ tok.type = .identifier ∧ o.type = .lparen ∧
      terms i (tok :: rest) =
        pushEntry { kind := .call 0, tok := i } tok >>= fun _ => terms (i + 2) rest') ∨
    (tok.type ≠ .semicolon ∧ (tok.type = .identifier → EndsName rest) ∧
      terms i (tok :: rest) = shift i tok >>= fun _ => terms (i + 1) rest) := by
  by_cases hid : tok.type = .identifier
  · cases rest with
    | nil =>
      exact .inr (.inr ⟨by simp [hid], fun _ => by simp [EndsName], by simp [terms, shift, hid]⟩)
    | cons o rest =>
      by_cases ho : o.type = .lparen
      · exact .inr (.inl ⟨o, rest, rfl, hid, ho, by simp [terms, hid, ho]⟩)
      · refine .inr (.inr ⟨by simp [hid], fun _ => ?_, by simp [terms, shift, hid, ho]⟩)
        simpa [EndsName] using ho
  · by_cases hsemi : tok.type = .semicolon
    · exact .inl ⟨hsemi, by cases rest <;> simp [terms, hsemi]⟩
    · refine .inr (.inr ⟨hsemi, fun h => absurd h hid, ?_⟩)
      rw [terms.eq_def, shift]
      dsimp only
      cases htype : tok.type <;> first | rfl | contradiction

theorem ends_shift (i : Nat) (tok : Token) (h : s.Open) :
    Ends (fun _ t => t.Open) ((shift i tok).run s) := by
  have hentry {d : Directive} (hd : d.kind = .openParen ∨ d.kind = .addressOf) :
      Ends (fun _ t => t.Open) ((pushEntry d tok).run s) := by
    refine ends_pushEntry (Directive.sound_of_kind ?_ ?_) ?_ ?_ h <;>
      rcases hd with hd | hd <;> simp [Directive.held, hd]
  unfold shift
  split
  · exact ends_reject h.within
  · exact ends_reject h.within
  · exact ends_useLiteral h
  · exact ends_useVariable h
  · exact hentry (.inl rfl)
  · exact ends_closeGroup h
  · exact ends_nextArgument h
  · exact ends_pushOperator rfl (by simp) h
  · exact ends_pushOperator rfl (by simp) h
  · exact ends_pushOperator rfl (by simp) h
  · exact ends_pushStar h
  · exact hentry (.inr rfl)
  · exact ends_reject h.within

theorem ends_terms (i : Nat) (ts : List Token) (h : s.Open) :
    Ends (fun _ t => t.Within []) ((terms i ts).run s) := by
  induction hn : ts.length using Nat.strong_induction_on generalizing s i ts with
  | _ n ih =>
    cases ts with
    | nil =>
      rw [terms, EStateM.run_bind, EStateM.run_get]
      exact ends_reject h.within
    | cons tok rest =>
      obtain ⟨-, hterms⟩ | ⟨o, rest, rfl, -, -, hterms⟩ | ⟨-, -, hterms⟩ :=
          terms_cons i tok rest <;>
        rw [hterms]
      · exact ends_conclude h
      · refine (ends_pushEntry (Directive.sound_of_kind ?_ ?_) rfl ?_ h).bind fun _ t ht =>
          ih _ (by simp [← hn]) _ rest ht rfl
        all_goals simp
      · exact (ends_shift i tok h).bind fun _ t ht => ih _ (by simp [← hn]) _ rest ht rfl

theorem resolve_isSome {r : Registry} (h : ∀ e ∈ r.entries, e.2.isSome) {tok : Token}
    {t : Option TypeInfo} (ht : r.resolve tok = some t) : t.isSome :=
  Registry.of_resolve (P := fun t => t.isSome) (by simp) h ht

theorem ends_declaredType (ts : List Token) (h : s.Within ws) :
    Ends (fun p t => t = s ∧ (isTyped ts → p.1.base.isSome)) ((declaredType ts).run s) := by
  unfold declaredType
  split
  · split
    · rw [EStateM.run_bind, EStateM.run_get]
      dsimp only
      split
      · exact ends_reject h
      · rename_i base hbase
        exact ⟨rfl, fun _ => resolve_isSome h.types hbase⟩
    · rename_i htyped
      exact ⟨rfl, fun h => absurd h htyped⟩
  · exact ⟨rfl, by simp [isTyped]⟩

theorem ends_openDeclaration (i : Nat) (ts : List Token) (hstack : s.stack = []) (h : s.Open) :
    Ends (fun _ t => t.Open) ((openDeclaration i ts).run s) := by
  unfold openDeclaration
  refine (ends_declaredType ts h.within).bind fun p t ht => ?_
  obtain ⟨type, n⟩ := p
  obtain ⟨rfl, hbase⟩ := ht
  have hpush (d : Directive) (hd : d.kind = .declaration) (name : Token) :
      Ends (fun _ t => t.Open) ((pushTerm d name >>= fun _ => pure (n + 1)).run t) :=
    (ends_pushTerm (Directive.sound_of_kind (by simp [hd]) (by simp [hd]))
      (by simp [Directive.held, hd]) (fun _ => hstack) h).bind fun _ _ hu => hu
  dsimp only at hbase ⊢
  rw [EStateM.run_bind, EStateM.run_get]
  dsimp only
  split
  · split
    · rename_i htyped
      rw [Ty.size_eq (hbase htyped), run_bind_ok (run_sound _)]
      split
      · exact ends_reject h.within
      · exact hpush _ rfl _
    · exact hpush _ rfl _
  · exact ends_reject h.within

theorem ends_statement (i : Nat) (ts : List Token) (h : s.Within []) :
    Ends (fun _ t => t.Within []) ((statement i ts).run s) := by
  unfold statement
  rw [run_bind_ok (run_setStack []), run_bind_ok (run_setExpectOperand true)]
  have hopen : Session.Open { s with stack := [], expectOperand := true } :=
    ⟨by simp, trivial, h.congr rfl rfl rfl fun _ he => he⟩
  split
  · split
    · exact (ends_openDeclaration _ _ rfl hopen).bind fun n t ht => ends_terms _ _ ht
    · exact ends_terms _ _ hopen
  · exact ends_terms _ _ hopen

end Build

namespace StructDef

variable {d : StructDef}

theorem addField_ne_crash {l : Layout} {type : Ty} {isSelf : Bool} {name : Token} {f : Fault}
    (h : type.base.isSome) : d.addField l type isSelf name ≠ .error (.crash f) := by
  unfold addField
  rw [Ty.size_eq h]
  simp only [stop, Except.mapError, bind, Except.bind, pure, Except.pure]
  split_ifs <;> simp

theorem body_ne_crash {l : Layout} {ts : List Token} {f : Fault}
    (h : ∀ e ∈ d.types.entries, e.2.isSome) : d.body l ts ≠ .error (.crash f) := by
  have hresolve {tok : Token} {base : Option TypeInfo} (hb : d.resolve tok = some base) :
      base.isSome := by
    unfold resolve at hb
    split at hb
    · cases hb; rfl
    · exact Build.resolve_isSome h hb
  fun_induction body d l ts with
  | case7 l tok rest base hbase name rest' hdrop hname type e hadd =>
    intro heq
    cases heq
    exact addField_ne_crash (by exact hresolve hbase) hadd
  | case10 => assumption
  | _ => simp [stop]

theorem parse_ne_crash {types : Registry} {atEnd : Token} {ts : List Token} {f : Fault}
    (h : ∀ e ∈ types.entries, e.2.isSome) : parse types atEnd ts ≠ .error (.crash f) := by
  unfold parse
  split
  · simp [stop]
  split
  · simp [stop]
  split
  · simp [stop]
  split
  · simp [stop]
  split
  · simp [stop]
  dsimp only
  split
  · rename_i heq
    intro hcrash
    cases hcrash
    exact body_ne_crash h heq
  · split <;> simp [stop]

end StructDef

namespace Build

variable {s : Session}

theorem ends_readStruct (ts : List Token) (h : s.Within []) :
    Ends (fun _ t => t = s) ((readStruct ts).run s) := by
  unfold readStruct EStateM.run
  dsimp only
  split
  · rfl
  · rename_i e he
    cases e with
    | reject d => exact h
    | crash f => exact absurd he (StructDef.parse_ne_crash h.types)

theorem ends_registerStruct (t : TypeInfo) (h : s.Within []) :
    Ends (fun _ t => t.Within []) ((registerStruct t).run s) := by
  refine ⟨h.vars, ?_, fun hm => (h.balanced hm).congr rfl rfl rfl ?_⟩
  · intro e he
    rcases List.mem_cons.1 he with rfl | he
    · rfl
    · exact h.types e he
  · exact fun e he => Array.mem_push_of_mem _ he

theorem ends_openBlock (h : s.Within []) :
    Ends (fun _ t => t.Within []) (openBlock.run s) := by
  refine ⟨h.vars, h.types, fun hm => ?_⟩
  have hb := h.balanced hm
  refine ⟨by simp, ⟨by simp, ?_⟩, hb.depth_le, fun hosts hr => hb.shifts hosts fun name args hc =>
    hr name args (Array.mem_push_of_mem _ hc)⟩
  simpa using hb.marks

theorem run_closeBlock {tok : Token} {m : Scope} {outer : List Scope}
    (hscopes : s.frame.scopes = m :: outer) :
    (closeBlock tok).run s = .ok () { s with
      frame := s.frame.closing m outer
      code := s.code ++ dropCode (wrap (s.frame.depth - m.depth)) } := by
  have hexit : s.frame.exit =
      .ok (wrap (s.frame.depth - m.depth), s.frame.closing m outer) := by
    simp [Frame.exit, hscopes, Frame.closing]
  have hnested : s.frame.nested = true := by simp [Frame.nested, hscopes]
  unfold closeBlock
  rw [EStateM.run_bind, EStateM.run_get]
  dsimp only
  rw [if_pos hnested, EStateM.run_bind, EStateM.run_get]
  dsimp only
  rw [hexit, run_bind_ok (run_sound _)]
  dsimp only
  rw [EStateM.run_bind, EStateM.run_modify]
  dsimp only [dropCode]
  split
  · rfl
  · simp

theorem ends_closeBlock (tok : Token) (h : s.Within []) :
    Ends (fun _ t => t.Within []) ((closeBlock tok).run s) := by
  cases hscopes : s.frame.scopes with
  | nil =>
    unfold closeBlock
    rw [EStateM.run_bind, EStateM.run_get]
    dsimp only
    rw [if_neg (by simp [Frame.nested, hscopes])]
    exact ends_reject h
  | cons m outer =>
    rw [run_closeBlock hscopes]
    refine ⟨h.vars, h.types, fun hm => ?_⟩
    have hm' : s.InMemory := (show (s.emitted _ 0).InMemory from hm).of_emitted
    have hb := h.balanced hm'
    have hmarks := hb.marks
    rw [hscopes, List.sum_nil, sub_zero] at hmarks
    obtain ⟨hle, houter⟩ := hmarks
    have hpos := houter.nonneg
    -- the mark of the block lies between 0 and the depth
    have hwords : wrap (s.frame.depth - m.depth) = s.frame.depth - m.depth := by
      obtain ⟨h₀, h₁⟩ := hb.inRange hm'
      exact wrap_eq_self (by omega) (by omega)
    refine ⟨by simp, by simpa [Frame.closing] using houter, ?_, fun hosts hr => ?_⟩
    · have hdepth := hb.depth_le
      have hsize := s.emitted_size (dropCode (wrap (s.frame.depth - m.depth))) 0
      show m.depth ≤ (s.emitted (dropCode (wrap (s.frame.depth - m.depth))) 0).code.size
      omega
    · have hdrop : Shifts hosts (dropCode (wrap (s.frame.depth - m.depth)))
          (-(s.frame.depth - m.depth)) := by
        rw [hwords]
        unfold dropCode
        split
        · exact shifts_drop _
        · exact shifts_nil.cast (by omega)
      have := ((hb.shifts hosts hr).append hdrop).cast (show _ = m.depth by ring)
      simpa [Frame.closing] using this

theorem ends_endSource (tok : Token) (h : s.Within []) :
    Ends (fun _ t => t.Within []) ((endSource tok).run s) := by
  unfold endSource
  rw [EStateM.run_bind, EStateM.run_get]
  dsimp only
  split
  · exact ends_reject h
  · exact h

theorem ends_items (i : Nat) (ts : List Token) (h : s.Within []) :
    Ends (fun _ t => t.Within []) ((items i ts).run s) := by
  induction hn : ts.length using Nat.strong_induction_on generalizing s i ts with
  | _ n ih =>
    have hnext {t : Session} (j : Nat) (rest : List Token) (hlt : rest.length < n)
        (ht : t.Within []) : Ends (fun _ t => t.Within []) ((items j rest).run t) :=
      ih _ hlt j rest ht rfl
    unfold items
    split
    · rw [EStateM.run_bind, EStateM.run_get]
      exact ends_endSource _ h
    · rename_i tok rest
      have hrest : rest.length < n := by simp [← hn]
      split
      · exact ends_endSource tok h
      · refine (ends_readStruct rest h).bind fun read t ht => ?_
        subst ht
        refine (ends_registerStruct _ h).bind fun _ u hu => hnext _ _ ?_ hu
        exact Nat.lt_of_le_of_lt read.2 hrest
      · exact (ends_openBlock h).bind fun _ t ht => hnext _ _ hrest ht
      · exact (ends_closeBlock tok h).bind fun _ t ht => hnext _ _ hrest ht
      · refine (ends_statement i (tok :: rest) h).bind fun _ t ht => hnext _ _ ?_ ht
        exact hn ▸ length_afterSemicolon_lt tok rest

theorem ends_compile (ts : List Token) (h : s.Within []) :
    Ends (fun _ t => t.Within []) ((compile ts).run s) := by
  unfold compile
  rw [EStateM.run_bind, EStateM.run_modify]
  exact ends_items 0 ts (h.congr rfl rfl rfl fun _ he => he)

end Build

/-- The session after sources have been compiled in it one after another, each whether or not the
ones before it were accepted. -/
def Session.afterAll (s : Session) (sources : List (List Token)) : Session :=
  sources.foldl (fun s ts => (s.run (Build.compile ts)).2) s

theorem Session.run_compile {s : Session} (ts : List Token) (h : s.Within []) :
    (s.run (Build.compile ts)).2.Within [] ∧ ((s.run (Build.compile ts)).2.InMemory →
      ∀ f, (s.run (Build.compile ts)).1 ≠ .error (.crash f)) := by
  have hends := Build.ends_compile ts h
  unfold run
  cases hr : EStateM.run (Build.compile ts) s with
  | ok a t =>
    rw [hr] at hends
    exact ⟨hends, fun _ => by simp⟩
  | error e t =>
    rw [hr] at hends
    cases e with
    | reject d => exact ⟨hends, fun _ => by simp⟩
    | crash f => exact ⟨hends.1, fun hm => absurd hm hends.2⟩

theorem Session.within_fresh (ids : IdSupply) : (fresh ids).Within [] where
  vars := by simp [fresh]
  types := by simp [fresh]
  balanced := fun _ => ⟨by simp, by simp [fresh, Nested], by simp [fresh], fun _ _ => shifts_nil⟩

theorem Session.within_afterAll (ids : IdSupply) (sources : List (List Token)) :
    ((fresh ids).afterAll sources).Within [] := by
  have hstep (s : Session) (h : s.Within []) : (s.afterAll sources).Within [] := by
    induction sources generalizing s with
    | nil => exact h
    | cons ts rest ih => exact ih _ (run_compile ts h).1
  exact hstep _ (within_fresh ids)

/-- However many sources have been compiled in a session, accepted or not, the next one does not
crash, and the code emitted so far leaves `sp` as many words below its start as the frame is
deep. -/
theorem depth_eq_sp (ids : IdSupply) (sources : List (List Token)) (ts : List Token)
    (hm : ((Session.fresh ids).afterAll (sources ++ [ts])).InMemory) :
    (∀ f, (((Session.fresh ids).afterAll sources).run (Build.compile ts)).1 ≠ .error (.crash f)) ∧
      ∀ (cpu : Cpu) (program : Array ProgramLine) (max : Int),
        let s := (Session.fresh ids).afterAll (sources ++ [ts])
        Registered cpu.hosts s.trace →
        program.toList.map (·.instr) = s.code.toList → s.code.size < max →
        ∃ done, (cpu.load program).run max = .ok () done ∧
          done.core.sp = cpu.core.sp - word s.frame.depth := by
  have hlast : (Session.fresh ids).afterAll (sources ++ [ts]) =
      (((Session.fresh ids).afterAll sources).run (Build.compile ts)).2 := by
    simp [Session.afterAll]
  constructor
  · rw [hlast] at hm
    exact (Session.run_compile ts (Session.within_afterAll ids sources)).2 hm
  · intro cpu program max s hr hcode hmax
    have hb := (Session.within_afterAll ids (sources ++ [ts])).balanced hm
    obtain ⟨core, hrun, hsp⟩ := hb.shifts cpu.hosts hr cpu.core
    exact ⟨_, Cpu.run_load cpu hcode (by simpa using hmax) hrun, hsp⟩

/-- A block is opened and a call given up after its first argument. -/
def givenUp : List Token :=
  [{ type := .lbrace }, { type := .identifier, name := "f" }, { type := .lparen },
    { type := .integer, value := 1 }, { type := .comma }, { type := .semicolon }]

/-- The block is closed, and another function is called. -/
def goneOn : List Token :=
  [{ type := .rbrace }, { type := .identifier, name := "g" }, { type := .lparen },
    { type := .integer, value := 2 }, { type := .rparen }, { type := .semicolon }]

theorem code_goneOn : ((Session.fresh .serial).afterAll ([givenUp] ++ [goneOn])).code =
    #[.movi 1, .push .r0, .mov .r0 .sp, .addi 1, .mov .sp .r0, .movi 2, .push .r0, .call "g",
      .pop .r1] := by
  decide +kernel

theorem depth_eq_sp_goneOn :
    ((Session.fresh .serial).afterAll ([givenUp] ++ [goneOn])).InMemory ∧
      (∀ f, (((Session.fresh .serial).afterAll [givenUp]).run (Build.compile goneOn)).1 ≠
        .error (.crash f)) ∧
      ∀ (cpu : Cpu) (program : Array ProgramLine) (max : Int),
        let s := (Session.fresh .serial).afterAll ([givenUp] ++ [goneOn])
        Registered cpu.hosts s.trace →
        program.toList.map (·.instr) = s.code.toList → s.code.size < max →
        ∃ done, (cpu.load program).run max = .ok () done ∧
          done.core.sp = cpu.core.sp - word s.frame.depth := by
  have hm : ((Session.fresh .serial).afterAll ([givenUp] ++ [goneOn])).InMemory := by
    rw [Session.InMemory, code_goneOn]
    decide
  exact ⟨hm, depth_eq_sp .serial [givenUp] goneOn hm⟩

end OnePass
