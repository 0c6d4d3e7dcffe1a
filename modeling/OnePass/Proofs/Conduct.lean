import Mathlib
import OnePass.Proofs.Discipline

namespace OnePass

theorem Session.Orderly.temporaries {s : Session} {n : Int} (h : s.Orderly n) :
    Build.temporaries s.frame = .ok (wrap n) := by
  rw [Build.temporaries, Frame.liveWords_eq_wrap h.tiled.typed, Except.map, h.depth, wrap_sub_wrap,
    wrap_wrap_sub, add_sub_cancel_left]

namespace Directive

variable {d : Directive} {types : Registry}

theorem ordinary_of_kind (hv : d.kind ≠ .value) (hd : d.kind ≠ .declaration)
    (hk : ∀ n, d.kind ≠ .unknown n) (hs : d.operand.settled) : d.Ordinary types :=
  ⟨hk, hs, fun h => absurd h hv, fun h => absurd h hd⟩

theorem ordinary_value (hk : d.kind = .value) (h : d.operand.Ordinary) : d.Ordinary types :=
  ⟨by simp [hk], h.settled, fun _ => h, by simp [hk]⟩

theorem held_operator (h : d.kind.isOperator) : d.held = 0 := by
  unfold held
  split <;> simp_all [DirectiveKind.isOperator]

end Directive

namespace Build

open Session

variable {s : Session} {n : Int} {lhs rhs op : Directive} {tok : Token} {below : List Directive}

/-- No variable is where the words above them start. -/
theorem run_declare_above (name : Token) (type : Ty) (h : s.frame.Tiled) :
    (declare name type (wrap (totalWords s.frame.visible))).run s =
      .ok () (s.declared name type (wrap (totalWords s.frame.visible))) := by
  have hrun := run_declare h.typed name type (wrap (totalWords s.frame.visible))
  rw [h.covers] at hrun
  simpa only [Bool.false_eq_true, if_false] using hrun

/-- A variable takes over the words that lie above the others. -/
theorem proper_declare {type : Ty} (name : Token) (htype : ∃ b, type.base = some b ∧ b.Named)
    (hwords : 1 ≤ type.words) (h : s.Orderly type.words) :
    Proper (fun _ t => Keeps s t ∧ t.Orderly 0)
      ((declare name type (wrap (totalWords s.frame.visible))).run s) := by
  rw [run_declare_above name type h.tiled]
  refine ⟨⟨⟨rfl, le_rfl⟩, rfl, rfl⟩, h.types, h.tiled.add _ _ htype hwords, ?_⟩
  rw [declared, Frame.visible_add h.tiled.scope_open, totalWords_cons, add_zero, add_comm]
  exact h.depth

theorem proper_define (hk : lhs.kind = .declaration) (hl : lhs.Ordinary s.types)
    (hr : rhs.operand.Ordinary) (h : s.Orderly rhs.operand.held) :
    Proper (fun _ t => Keeps s t ∧ t.Orderly 0) ((define lhs rhs).run s) := by
  unfold define
  rw [run_bind_ok (run_tokenAt lhs.tok)]
  refine ((checks_requireScalar hr.typed).proper (blameless_requireScalar _)).bind fun _ t ht => ?_
  obtain ⟨rfl, hscalar⟩ := ht
  refine ((checks_initialType _ _ hr.typed).proper (blameless_initialType _ _ _)).bind
    fun type t ht => ?_
  obtain ⟨rfl, htype⟩ := ht
  refine ((checks_requireRange _ hr.typed (Ty.initial_base hr.typed htype)).proper
    (blameless_requireRange _ _ _)).bind fun _ t ht => ?_
  obtain ⟨rfl, hfits⟩ := ht
  have hdecl (b : TypeInfo) (hb : b ∈ lhs.operand.type.base) := (hl.declaration hk b hb).1
  have hinit : rhs.operand.initializes lhs.operand.type = some type := by
    simp only [rule, Option.ite_none_right_eq_some, and_true] at hscalar hfits
    simp [Operand.initializes, hscalar, htype, hfits]
  have hwords := Operand.words_initializes hr.regular (fun b hb => (hdecl b hb).regular) hinit
  refine ((emits_spill rhs.operand).proper h).bind fun _ u hu => ?_
  obtain ⟨hkeeps, hu⟩ := hu
  rw [EStateM.run_bind, EStateM.run_get]
  dsimp only
  have hone : u.Orderly type.words := hu.cast (by omega)
  -- the value is one word above the variables, where the new one is declared
  have haddress : wrap (u.frame.depth - 1) = wrap (totalWords u.frame.visible) := by
    rw [hone.depth, wrap_wrap_sub, hwords, add_sub_cancel_right]
  rw [haddress]
  refine (proper_declare _ (hr.named_initial hdecl htype) (by omega) hone).mono fun _ t _ ht => ?_
  exact ⟨hkeeps.trans ht.1, ht.2⟩

theorem proper_store (hk : lhs.kind = .value) (hl : lhs.operand.Ordinary)
    (hr : rhs.operand.Ordinary) (h : s.Orderly n) :
    Proper (fun _ t => Keeps s t ∧ t.Orderly (n + (-rhs.operand.held - lhs.operand.held)))
      ((store tok lhs rhs).run s) := by
  rw [store_eq]
  refine ((checks_checkStore tok hk hl.typed hr.typed).proper
    (blameless_checkStore _ _ _)).bind fun _ t ht => ?_
  obtain ⟨rfl, -⟩ := ht
  exact (emits_emitStore _ _).proper h

theorem proper_combine {kind : DirectiveKind} (hl : lhs.operand.Ordinary)
    (hr : rhs.operand.Ordinary) (h : s.Orderly n) :
    Proper (fun d t => Keeps s t ∧ d.kind = .value ∧ d.operand.Ordinary ∧ d.held = 1 ∧
        t.Orderly (n + (1 - rhs.operand.held - lhs.operand.held)))
      ((combine kind tok lhs rhs).run s) := by
  rw [combine_eq]
  refine ((checks_requireScalar hl.typed).proper (blameless_requireScalar _)).bind fun _ t ht => ?_
  obtain ⟨rfl, -⟩ := ht
  refine ((checks_requireScalar hr.typed).proper (blameless_requireScalar _)).bind fun _ t ht => ?_
  obtain ⟨rfl, -⟩ := ht
  have hadopt : Proper (fun like u => u = t ∧
      (like.operand.type = lhs.operand.type ∨ like.operand.type = rhs.operand.type))
      ((adopt kind tok lhs rhs).run t) := by
    have hrun := run_adopt (s := t) kind tok hl.typed hr.typed
    cases hj : lhs.operand.joined rhs.operand <;> rw [hj] at hrun
    · obtain ⟨d, hd⟩ := hrun
      rw [hd]
      exact fun _ => blameless_adopt kind tok lhs rhs t d t hd
    · obtain ⟨like, hlike, rfl⟩ := hrun
      rw [hlike]
      exact ⟨rfl, Operand.joined_eq hj⟩
  refine hadopt.bind fun like t ht => ?_
  obtain ⟨rfl, htype⟩ := ht
  refine ((emits_emitCombine kind _ _).proper h).bind fun _ u hu => ?_
  exact ⟨hu.1, rfl, htype.elim hl.result hr.result, rfl, hu.2⟩

theorem proper_takeAddress (hk : rhs.kind = .value) (hr : rhs.operand.Ordinary)
    (h : s.Orderly n) :
    Proper (fun d t => Keeps s t ∧ d.kind = .value ∧ d.operand.Ordinary ∧ d.held = 1 ∧
        t.Orderly (n + (1 - rhs.operand.held)))
      ((takeAddress tok rhs).run s) := by
  unfold takeAddress
  dsimp only
  split
  · rename_i ha
    rw [hasAddress_eq hk] at ha
    refine ((emits_locate _).proper h).bind fun _ t ht => ?_
    refine ((emits_push .r0).proper ht.2).bind fun _ u hu => ?_
    obtain ⟨b, hb, hnamed⟩ := hr.addressable ha
    exact ⟨ht.1.trans hu.1, rfl, Operand.ordinary_of_named rfl ⟨b, hb, hnamed⟩, rfl,
      hu.2.cast (by ring)⟩
  · exact proper_reject rfl

theorem proper_dereference (hk : rhs.kind = .value) (hr : rhs.operand.Ordinary) :
    Proper (fun d t => t = s ∧ d.kind = .value ∧ d.operand.Ordinary ∧ d.held = rhs.held)
      ((dereference tok rhs).run s) := by
  have hb : Blameless (dereference tok rhs) := by
    unfold dereference
    dsimp only
    split
    · exact blameless_reject rfl
    · exact blameless_pure _
  refine ((checks_dereference tok rhs).proper hb).mono fun d t _ ht => ?_
  obtain ⟨rfl, hd⟩ := ht
  obtain ⟨o, ho, rfl⟩ := Option.map_eq_some_iff.1 hd
  have hplace : o.place = rhs.operand.place := by
    simp only [Operand.pointee, Option.ite_none_left_eq_some, Option.some.injEq] at ho
    rw [← ho.2]
  exact ⟨rfl, hk, hr.pointee ho, by simp [Directive.held, hk, Operand.held, hplace]⟩

theorem proper_reduceArithmetic (kind : DirectiveKind) (tok : Token) {rest : List Directive}
    (hvalue : lhs.kind ≠ .declaration → lhs.kind = .value) (hk : rhs.kind = .value)
    (h : ∀ d ∈ rhs :: lhs :: rest, d.Ordinary s.types)
    (ho : s.Orderly (rhs.operand.held + (lhs.held + (rest.map Directive.held).sum))) :
    Proper (fun r t => Keeps s t ∧ t.Holds r.1)
      ((reduceArithmetic kind tok lhs rhs rest).run s) := by
  obtain ⟨hr, hl, hrest⟩ : _ ∧ _ ∧ _ := by simpa using h
  unfold reduceArithmetic
  split
  · exact proper_reject rfl
  · rename_i hdecl
    have hkl := hvalue hdecl
    refine (proper_combine (hl.value hkl) (hr.value hk) ho).bind fun value t ht => ?_
    obtain ⟨hkeeps, hkv, hv, hone, ht⟩ := ht
    refine ⟨hkeeps, List.forall_mem_cons.2 ⟨Directive.ordinary_value hkv hv, ?_⟩, ht.cast ?_⟩
    · exact hkeeps.types ▸ hrest
    · simp only [List.map_cons, List.sum_cons, hone, Directive.held_value hkl]
      ring

theorem proper_reduceBinary {q : Int} {bare : Bool} (hshape : Awaits q bare (op :: below))
    (hop : op.kind.isBinary) (hk : rhs.kind = .value) (h : s.Holds (rhs :: op :: below)) :
    Proper (fun r t => Keeps s t ∧ t.Holds r.1) ((reduceBinary op tok rhs below).run s) := by
  have hr := (h.entries rhs (by simp)).value hk
  have hz := Directive.held_operator (isOperator_of_isBinary hop)
  cases below with
  | nil => exact proper_reject rfl
  | cons lhs rest =>
    have hl := h.entries lhs (by simp)
    have hrest : ∀ d ∈ rest, d.Ordinary s.types := fun d hd => h.entries d (by simp [hd])
    have ho : s.Orderly (rhs.operand.held + (lhs.held + (rest.map Directive.held).sum)) := by
      refine h.orderly.cast ?_
      simp [hz, Directive.held_value hk]
    simp only [reduceBinary]
    split
    · exact proper_reject rfl
    rename_i hlhs
    have hvalue := DirectiveKind.eq_value hl.known (by simpa using hlhs)
    have harithmetic := proper_reduceArithmetic op.kind tok hvalue hk
      (List.forall_mem_cons.2 ⟨h.entries rhs (by simp), List.forall_mem_cons.2 ⟨hl, hrest⟩⟩) ho
    rcases (isBinary_iff op.kind).1 hop with hkind | hkind | hkind | hkind <;>
      rw [hkind] at harithmetic ⊢
    · dsimp only
      split
      · rename_i hdecl
        -- a declaration is the first entry of its statement
        obtain rfl := hshape.declaration_last hop hdecl
        have hz : lhs.held = 0 := by simp [Directive.held, hdecl]
        refine (proper_define hdecl hl hr (ho.cast (by simp [hz]))).bind fun _ t ht => ?_
        exact ⟨ht.1, by simp, ht.2⟩
      · rename_i hdecl
        have hkl := hvalue hdecl
        refine (proper_store hkl (hl.value hkl) hr ho).bind fun _ t ht => ?_
        refine ⟨ht.1, ht.1.types ▸ hrest, ht.2.cast ?_⟩
        rw [Directive.held_value hkl]
        ring
    · exact harithmetic
    · exact harithmetic
    · exact harithmetic

theorem proper_reduceSplit {q : Int} {bare : Bool} (hshape : Awaits q bare (op :: below))
    (hop : op.kind.isOperator) (hk : rhs.kind = .value) (h : s.Holds (rhs :: op :: below)) :
    Proper (fun r t => Keeps s t ∧ t.Holds r.1) ((reduceSplit [rhs] op below).run s) := by
  have hr := (h.entries rhs (by simp)).value hk
  have hz := Directive.held_operator hop
  have hbelow : ∀ d ∈ below, d.Ordinary s.types := fun d hd => h.entries d (by simp [hd])
  have ho : s.Orderly (rhs.operand.held + (below.map Directive.held).sum) := by
    refine h.orderly.cast ?_
    simp [hz, Directive.held_value hk]
  have hover : Proper (fun r t => Keeps s t ∧ t.Holds r.1)
      ((reduceOver op (s.token op.tok) rhs below).run s) := by
    unfold reduceOver
    rw [hk]
    dsimp only
    split
    · refine (proper_dereference hk hr).bind fun value t ht => ?_
      obtain ⟨rfl, hkv, hv, hheld⟩ := ht
      refine ⟨.refl _, List.forall_mem_cons.2 ⟨Directive.ordinary_value hkv hv, hbelow⟩, ho.cast ?_⟩
      simp [hheld, Directive.held_value hk]
    · refine (proper_takeAddress hk hr ho).bind fun value t ht => ?_
      obtain ⟨hkeeps, hkv, hv, hone, ht⟩ := ht
      refine ⟨hkeeps, List.forall_mem_cons.2 ⟨Directive.ordinary_value hkv hv, ?_⟩, ht.cast ?_⟩
      · exact hkeeps.types ▸ hbelow
      · simp only [List.map_cons, List.sum_cons, hone]
        ring
    · rename_i hderef haddr
      have hbin : op.kind.isBinary := by
        have hknown := (h.entries op (by simp)).known
        cases hkind : op.kind <;>
          simp_all [DirectiveKind.isOperator, DirectiveKind.isBinary, DirectiveKind.alu?]
      exact (proper_reduceBinary hshape hbin hk h).bind fun r t ht => ht
  unfold reduceSplit
  rw [run_bind_ok (run_tokenAt _)]
  exact hover.bind fun r t ht => ht

theorem proper_reduceStack (q : Int) {d : Directive} {p : Int} {bare : Bool}
    (hs : s.stack = d :: below) (hd : IsOperand d below) (hshape : Awaits p bare below)
    (h : s.Holds (d :: below)) :
    Proper (fun _ t => Keeps s t ∧ t.Holds t.stack ∧ Lowered q t.stack)
      ((reduceStack q (d :: below)).run s) := by
  -- each reduction leaves a shorter stack
  induction hn : below.length using Nat.strong_induction_on generalizing s d below p bare with
  | _ n ih =>
    have hstep {op : Directive} {rest : List Directive} (hbelow : below = op :: rest)
        (hop : op.kind.isOperator)
        (hlow : op.kind.precedence < q → !op.kind.isUnary → Lowered q (d :: below)) :
        Proper (fun _ t => Keeps s t ∧ t.Holds t.stack ∧ Lowered q t.stack)
          ((reduceStack q (d :: below)).run s) := by
      subst hbelow
      have hk : d.kind = .value := hd.resolve_right (by simp)
      unfold reduceStack
      split
      · rename_i hnone
        rw [splitOperator_operator hd hop] at hnone
        cases hnone
      · rename_i hsplit
        rw [splitOperator_operator hd hop] at hsplit
        cases hsplit
        split
        · rename_i hstop
          exact ⟨.refl s, hs ▸ h, hs ▸ hlow hstop.1 hstop.2⟩
        · rename_i hgo
          rw [run_bind_ok (run_note _)]
          have hnoted (e : Event) : Holds (d :: op :: rest) { s with trace := s.trace.push e } :=
            h.congr rfl rfl
          refine ((proper_reduceSplit hshape hop hk (hnoted _)).mono fun r t hr ht =>
            (⟨ht, reduction_reduceSplit hr⟩ : _ ∧ _)).bind fun r t ht => ?_
          obtain ⟨⟨hkeeps, ht⟩, hred⟩ := ht
          have hkeeps : Keeps s { t with stack := r.1 } :=
            ⟨⟨hkeeps.tokens, hkeeps.code⟩, hkeeps.types, hkeeps.expect⟩
          rw [run_bind_ok (run_setStack r.1)]
          rcases hshape.reduction hred with
            ⟨v, rest', p', bare', hstack, hv, hawaits⟩ | ⟨hassign, hbase⟩
          · have hlt := r.2
            rw [hstack] at hkeeps ht hlt ⊢
            have hshort : rest'.length < n := by
              simp only [List.length_cons, List.cons_append, List.nil_append] at hlt hn
              omega
            refine (ih _ hshort (s := { t with stack := v :: rest' }) rfl (.inl hv) hawaits
              (ht.congr rfl rfl) rfl).mono fun _ u _ hu => ?_
            exact ⟨hkeeps.trans hu.1, hu.2⟩
          · rw [reduceStack_of_none (splitOperator_base hbase)]
            refine ⟨hkeeps, ht.congr rfl rfl, .inr ⟨?_, hbase⟩⟩
            by_contra hq
            exact hgo (by simp [hassign, DirectiveKind.precedence, DirectiveKind.isUnary]; omega)
    have hstop (hnone : splitOperator below = none) (hbare : Awaits 0 true below) :
        Proper (fun _ t => Keeps s t ∧ t.Holds t.stack ∧ Lowered q t.stack)
          ((reduceStack q (d :: below)).run s) := by
      rw [reduceStack_of_none (splitOperator_operand hd hnone)]
      exact ⟨.refl s, hs ▸ h, .inl ⟨d, below, 0, hs, hd, hbare, .inr rfl⟩⟩
    cases hshape with
    | bottom => exact hstop rfl .bottom
    | group hbelow hg => exact hstop (splitOperator_group hg _) (.group hbelow hg)
    | unary hbelow hu =>
      exact hstep rfl (isOperator_of_isUnary hu) fun _ hnot => by simp [hu] at hnot
    | binary hbelow hl hb hp =>
      exact hstep rfl (isOperator_of_isBinary hb) fun hlt _ =>
        .inl ⟨d, _, _, rfl, hd, .binary hbelow hl hb hp, .inl hlt⟩
    | orphan hbelow ha =>
      exact hstep rfl (by rw [ha]; rfl) fun hlt _ =>
        .inl ⟨d, _, _, rfl, hd, .orphan hbelow ha, .inl hlt⟩

theorem proper_reduce (q : Int) (hexpect : s.expectOperand = false) (h : s.Reading) :
    Proper (fun _ t => Keeps s t ∧ t.Holds t.stack ∧ Lowered q t.stack) ((reduce q).run s) := by
  have hshape := h.shape
  rw [hexpect] at hshape
  obtain ⟨d, below, p, bare, hs, hd, hawaits⟩ := hshape
  unfold reduce
  rw [EStateM.run_bind, EStateM.run_get]
  dsimp only
  rw [hs]
  exact proper_reduceStack q hs hd hawaits (hs ▸ h.holds)

theorem proper_pushEntry {d : Directive} (hk : d.kind.opensGroup ∨ d.kind.isUnary)
    (hz : d.held = 0) (hs : d.operand.settled) (h : s.Reading) :
    Proper (fun _ t => Later s t ∧ t.Reading) ((pushEntry d tok).run s) := by
  have hd : d.Ordinary s.types := by
    refine Directive.ordinary_of_kind ?_ ?_ ?_ hs <;>
      cases hkind : d.kind <;> simp_all [DirectiveKind.opensGroup, DirectiveKind.isUnary]
  have hshape := h.shape
  unfold pushEntry
  rw [EStateM.run_bind, EStateM.run_get]
  dsimp only
  split
  · rename_i hexpect
    rw [if_pos hexpect] at hshape
    obtain ⟨q, bare, hawaits⟩ := hshape
    rw [EStateM.run_bind, EStateM.run_get]
    refine ⟨⟨rfl, le_rfl⟩, (h.holds.cons hd hz).congr rfl rfl, ?_⟩
    rw [if_pos (by exact hexpect)]
    rcases hk with hk | hk
    · exact ⟨_, _, .group hawaits hk⟩
    · exact ⟨_, _, .unary hawaits hk⟩
  · exact proper_reject rfl

theorem proper_pushTerm {d : Directive} (hd : d.Ordinary s.types) (hz : d.held = 0)
    (hop : IsOperand d s.stack) (h : s.Reading) :
    Proper (fun _ t => Later s t ∧ t.Reading) ((pushTerm d tok).run s) := by
  have hshape := h.shape
  have hentry : Proper (fun _ t => t = { s with stack := d :: s.stack } ∧ s.expectOperand = true)
      ((pushEntry d tok).run s) := by
    unfold pushEntry
    rw [EStateM.run_bind, EStateM.run_get]
    dsimp only
    split
    · exact ⟨rfl, ‹_›⟩
    · exact proper_reject rfl
  refine hentry.bind fun _ t ht => ?_
  obtain ⟨rfl, hexpect⟩ := ht
  rw [if_pos hexpect] at hshape
  obtain ⟨q, bare, hawaits⟩ := hshape
  exact ⟨⟨rfl, le_rfl⟩, (h.holds.cons hd hz).congr rfl rfl, d, s.stack, q, bare, rfl, hop, hawaits⟩

theorem proper_pushOperator {kind : DirectiveKind} {i : Nat} (hk : kind.isBinary)
    (h : s.Reading) :
    Proper (fun _ t => Later s t ∧ t.Reading) ((pushOperator kind i tok).run s) := by
  unfold pushOperator
  rw [EStateM.run_bind, EStateM.run_get]
  dsimp only
  split
  · exact proper_reject rfl
  · rename_i hexpect
    refine (proper_reduce kind.precedence (by simpa using hexpect) h).bind fun _ t ht => ?_
    obtain ⟨hkeeps, ht, hlow⟩ := ht
    have hz : ({ kind, tok := i } : Directive).held = 0 :=
      Directive.held_operator (isOperator_of_isBinary hk)
    have hd : Directive.Ordinary t.types { kind, tok := i } := by
      refine Directive.ordinary_of_kind ?_ ?_ ?_ rfl <;>
        rcases (isBinary_iff kind).1 hk with rfl | rfl | rfl | rfl <;> simp
    refine ⟨⟨hkeeps.tokens, hkeeps.code⟩, (ht.cons hd hz).congr rfl rfl, ?_⟩
    show ∃ q bare, Awaits q bare ({ kind, tok := i } :: t.stack)
    have hpos := precedence_pos hk
    -- behind an operand, or behind an assignment that left none
    rcases hlow with ⟨d, below, p, hs, hop, hawaits, hp⟩ | ⟨hq, hawaits⟩
    · rw [hs]
      exact ⟨_, _, .binary hawaits hop hk (hp.elim id (by rintro rfl; exact hpos))⟩
    · have hassign : kind = .assign := by
        rcases (isBinary_iff kind).1 hk with rfl | rfl | rfl | rfl <;>
          simp [DirectiveKind.precedence] at hq ⊢
      exact ⟨_, _, .orphan hawaits hassign⟩

theorem proper_useLiteral {i : Nat} (h : s.Reading) :
    Proper (fun _ t => Later s t ∧ t.Reading) ((useLiteral i tok).run s) := by
  unfold useLiteral
  split
  · exact proper_reject rfl
  · exact proper_pushTerm (Directive.ordinary_value rfl (Operand.ordinary_untyped (.inr rfl))) rfl
      (.inl rfl) h

theorem proper_useVariable {i : Nat} (h : s.Reading) :
    Proper (fun _ t => Later s t ∧ t.Reading) ((useVariable i tok).run s) := by
  unfold useVariable
  rw [EStateM.run_bind, EStateM.run_get]
  dsimp only
  split
  · exact proper_reject rfl
  · rename_i v hv
    have hmem : v ∈ s.frame.vars := (List.mem_filter.1 (List.mem_of_find?_eq_some hv)).1
    have hnamed := (h.holds.orderly.tiled.placed v hmem).named
    exact proper_pushTerm (Directive.ordinary_value rfl (Operand.ordinary_of_named rfl hnamed)) rfl
      (.inl rfl) h

theorem proper_pushStar {i : Nat} (h : s.Reading) :
    Proper (fun _ t => Later s t ∧ t.Reading) ((pushStar i tok).run s) := by
  unfold pushStar
  rw [EStateM.run_bind, EStateM.run_get]
  dsimp only
  split
  · exact proper_pushEntry (.inr rfl) rfl rfl h
  · exact proper_pushOperator rfl h

/-- An argument becomes one of the words that its call holds. -/
theorem proper_passArgument {arg marker : Directive} {args : Int} (hk : arg.kind = .value)
    (hm : marker.kind = .call args) (h : s.Holds (arg :: marker :: below)) :
    Proper (fun _ t => Keeps s t ∧
        t.Holds ({ marker with kind := .call (wrap (args + 1)) } :: below) ∧
        t.stack = { marker with kind := .call (wrap (args + 1)) } :: below)
      ((passArgument arg marker args below).run s) := by
  have harg := (h.entries arg (by simp)).value hk
  unfold passArgument
  refine ((checks_requireScalar harg.typed).proper (blameless_requireScalar _)).bind
    fun _ t ht => ?_
  obtain ⟨rfl, -⟩ := ht
  refine ((emits_spill arg.operand).proper h.orderly).bind fun _ u hu => ?_
  obtain ⟨hkeeps, hu⟩ := hu
  refine ⟨⟨⟨hkeeps.tokens, hkeeps.code⟩, hkeeps.types, hkeeps.expect⟩, ⟨?_, ?_⟩, rfl⟩
  · refine List.forall_mem_cons.2 ⟨Directive.ordinary_of_kind (by simp) (by simp) (by simp)
      (h.entries marker (by simp)).settled, ?_⟩
    exact fun d hd => hkeeps.types ▸ h.entries d (by simp [hd])
  · refine (hu.wrapped ?_).congr rfl rfl
    simp only [List.map_cons, List.sum_cons, Directive.held_value hk]
    rw [show marker.held = args by simp [Directive.held, hm],
      show ({ marker with kind := .call (wrap (args + 1)) } : Directive).held = wrap (args + 1)
        from rfl,
      wrap_wrap_add]
    congr 1
    ring

theorem proper_finishCall {marker : Directive} {args q : Int} {bare : Bool}
    (hshape : Awaits q bare below) (h : s.Holds ({ marker with kind := .call args } :: below)) :
    Proper (fun _ t => Later s t ∧ t.Reading) ((finishCall marker args below).run s) := by
  unfold finishCall
  rw [run_bind_ok (run_tokenAt marker.tok)]
  refine ((emits_call _ args).proper h.orderly).bind fun _ t ht => ?_
  obtain ⟨hkeeps, ht⟩ := ht
  have hentries : ∀ d ∈ below, d.Ordinary t.types :=
    fun d hd => hkeeps.types ▸ h.entries d (by simp [hd])
  refine ⟨⟨hkeeps.tokens, hkeeps.code⟩,
    ⟨List.forall_mem_cons.2 ⟨?_, hentries⟩, (ht.cast ?_).congr rfl rfl⟩, ?_⟩
  · exact Directive.ordinary_value rfl (Operand.ordinary_untyped (n := 0) (.inl rfl))
  · simp only [List.map_cons, List.sum_cons]
    rw [show ({ marker with kind := .call args } : Directive).held = args from rfl,
      show (result marker.tok .untyped).held = 1 from rfl]
    ring
  · exact ⟨_, below, q, bare, rfl, .inl rfl, hshape⟩

theorem Awaits.of_group {q : Int} {bare : Bool} {g : Directive} (h : Awaits q bare (g :: below))
    (hg : g.kind.opensGroup) : ∃ q bare, Awaits q bare below := by
  cases h with
  | group h _ => exact ⟨_, _, h⟩
  | unary h hu => cases hk : g.kind <;> simp_all [DirectiveKind.opensGroup, DirectiveKind.isUnary]
  | binary h hd hb hq =>
    rcases (isBinary_iff g.kind).1 hb with hk | hk | hk | hk <;>
      simp [hk, DirectiveKind.opensGroup] at hg
  | orphan h ha => simp [ha, DirectiveKind.opensGroup] at hg

/-- What lies above the nearest group once every operator is reduced: a value, or nothing. -/
inductive Grouped : List Directive → Option (List Directive × Directive × List Directive) → Prop
  | empty : Grouped [] none
  | single {d : Directive} (hd : IsOperand d []) : Grouped [d] none
  | value {d g : Directive} {below : List Directive} {q : Int} {bare : Bool}
      (hd : d.kind = .value) (hg : g.kind.opensGroup) (hbelow : Awaits q bare below) :
      Grouped (d :: g :: below) (some ([d], g, below))
  | nothing {g : Directive} {below : List Directive} (hg : g.kind.opensGroup) :
      Grouped (g :: below) (some ([], g, below))

theorem Lowered.grouped {stack : List Directive} (h : Lowered 0 stack) :
    Grouped stack (splitGroup stack) := by
  rcases h with ⟨d, below, p, rfl, hd, hawaits, hp⟩ | ⟨-, hawaits⟩
  · have hzero : p = 0 := by
      have := hawaits.nonneg
      omega
    subst hzero
    rcases hawaits.base with rfl | ⟨g, rest, q, bare, rfl, hg, hrest⟩
    · have hsplit : splitGroup [d] = none := by simp [splitGroup, splitTop, hd.kind.2]
      rw [hsplit]
      exact .single hd
    · have hsplit : splitGroup (d :: g :: rest) = some ([d], g, rest) := by
        simp [splitGroup, splitTop, hd.kind.2, hg]
      rw [hsplit]
      exact .value (hd.resolve_right (by simp)) hg hrest
  · rcases hawaits.base with rfl | ⟨g, rest, q, bare, rfl, hg, hrest⟩
    · exact .empty
    · have hsplit : splitGroup (g :: rest) = some ([], g, rest) := by
        simp [splitGroup, splitTop, hg]
      rw [hsplit]
      exact .nothing hg

theorem proper_closeGroup (h : s.Reading) :
    Proper (fun _ t => Later s t ∧ t.Reading) ((closeGroup tok).run s) := by
  have hshape := h.shape
  unfold closeGroup
  rw [EStateM.run_bind, EStateM.run_get]
  dsimp only
  split
  · rename_i hexpect
    rw [if_pos hexpect] at hshape
    obtain ⟨q, bare, hawaits⟩ := hshape
    split
    · rename_i marker below hstack
      split
      · rename_i args hm
        split
        · exact proper_reject rfl
        · have hmarker : ({ marker with kind := .call args } : Directive) = marker := by rw [← hm]
          rw [hstack] at hawaits
          obtain ⟨q, bare, hbelow⟩ :=
            Awaits.of_group hawaits (by simp [hm, DirectiveKind.opensGroup])
          refine proper_finishCall hbelow ?_
          rw [hmarker, ← hstack]
          exact h.holds
      · exact proper_reject rfl
    · exact proper_reject rfl
  · rename_i hexpect
    have hexpect : s.expectOperand = false := by simpa using hexpect
    refine (proper_reduce 0 hexpect h).bind fun _ t ht => ?_
    obtain ⟨hkeeps, ht, hlow⟩ := ht
    rw [EStateM.run_bind, EStateM.run_get]
    dsimp only
    have hgroup := Lowered.grouped hlow
    generalize splitGroup t.stack = r at hgroup ⊢
    generalize t.stack = stack at hgroup ht
    cases hgroup with
    | empty => exact proper_reject rfl
    | single => exact proper_reject rfl
    | nothing => exact proper_reject rfl
    | @value d g below q bare hk hg hbelow =>
      dsimp only
      split
      · rename_i args hm
        refine (proper_passArgument hk hm ht).bind fun _ u hu => ?_
        obtain ⟨hkeeps', hu, -⟩ := hu
        refine (proper_finishCall hbelow hu).mono fun _ v _ hv => ?_
        exact ⟨(hkeeps.trans hkeeps').toLater.trans hv.1, hv.2⟩
      · rename_i hcall
        -- a parenthesis, which holds nothing itself
        have hz : g.held = 0 := by
          cases hkind : g.kind <;> simp_all [Directive.held, DirectiveKind.opensGroup]
        refine ⟨⟨hkeeps.tokens, hkeeps.code⟩,
          ⟨fun e he => ht.entries e ?_, (ht.orderly.cast ?_).congr rfl rfl⟩, ?_⟩
        · rcases List.mem_cons.1 he with rfl | he <;> simp [*]
        · simp [hz]
        · rw [if_neg (by simp [hkeeps.expect, hexpect])]
          exact ⟨d, below, q, bare, rfl, .inl hk, hbelow⟩

theorem proper_nextArgument (h : s.Reading) :
    Proper (fun _ t => Later s t ∧ t.Reading) ((nextArgument tok).run s) := by
  unfold nextArgument
  rw [EStateM.run_bind, EStateM.run_get]
  dsimp only
  split
  · exact proper_reject rfl
  · rename_i hexpect
    refine (proper_reduce 0 (by simpa using hexpect) h).bind fun _ t ht => ?_
    obtain ⟨hkeeps, ht, hlow⟩ := ht
    rw [EStateM.run_bind, EStateM.run_get]
    dsimp only
    have hgroup := Lowered.grouped hlow
    generalize splitGroup t.stack = r at hgroup ⊢
    generalize t.stack = stack at hgroup ht
    cases hgroup with
    | empty => exact proper_reject rfl
    | single => exact proper_reject rfl
    | nothing =>
      dsimp only
      split <;> exact proper_reject rfl
    | @value d g below q bare hk hg hbelow =>
      dsimp only
      split
      · rename_i args hm
        refine (proper_passArgument hk hm ht).bind fun _ u hu => ?_
        obtain ⟨hkeeps', hu, hstack⟩ := hu
        have hlater := (hkeeps.trans hkeeps').toLater
        refine ⟨⟨hlater.tokens, hlater.code⟩, (hstack ▸ hu).congr rfl rfl, ?_⟩
        show ∃ q bare, Awaits q bare u.stack
        rw [hstack]
        exact ⟨_, _, .group hbelow rfl⟩
      · exact proper_reject rfl

theorem proper_settle_declaration {d : Directive} (hk : d.kind = .declaration)
    (h : s.Holds [d]) :
    Proper (fun _ t => Later s t ∧
        (t.Orderly 0 ∨ ¬ t.types.Fits ∧ ∃ k, temporaries t.frame = .ok k ∧ k ≠ 0))
      ((settle d).run s) := by
  have hz : d.held = 0 := by simp [Directive.held, hk]
  have ho : s.Orderly 0 := h.orderly.cast (by simp [hz])
  unfold settle
  rw [run_bind_ok (run_tokenAt d.tok)]
  dsimp only
  rw [hk]
  cases hbase : d.operand.type.base with
  | none => exact proper_reject rfl
  | some b =>
    obtain ⟨hnamed, hne, hfits⟩ := (h.entries d (by simp)).declaration hk b hbase
    simp only [Option.isNone_some, Bool.false_eq_true, if_false]
    rw [Ty.size_eq (by simp [hbase]), run_bind_ok (run_sound _), EStateM.run_bind, EStateM.run_get]
    dsimp only
    rw [run_bind_ok (run_zeros _), ho.depth, add_zero]
    set u := s.emitted (zerosCode d.operand.type.words)
      (wrap (wrap (totalWords s.frame.visible) + d.operand.type.words.toNat)) with hu
    have htiled : u.frame.Tiled := ho.tiled.depth _
    have hdepth : u.frame.depth = wrap (totalWords u.frame.visible + d.operand.type.words.toNat) :=
      wrap_wrap_add _ _
    have hlater : Later s u := later_emitted s _ _
    -- a size that has wrapped is not positive: no zeros are pushed, and words are missing
    by_cases hpos : 0 < d.operand.type.words
    · have hou : u.Orderly d.operand.type.words :=
        ⟨ho.types, htiled, by rw [hdepth]; congr 2; omega⟩
      refine (proper_declare _ ⟨b, hbase, hnamed⟩ hpos hou).mono fun _ t _ ht => ?_
      exact ⟨hlater.trans ht.1.toLater, .inl ht.2⟩
    · have hrun := run_declare htiled.typed (s.token d.tok) d.operand.type
        (wrap (totalWords u.frame.visible))
      rw [htiled.covers] at hrun
      simp only [Bool.false_eq_true, if_false] at hrun
      rw [show totalWords s.frame.visible = totalWords u.frame.visible from rfl, hrun]
      have htyped : ∀ v ∈ (u.declared (s.token d.tok) d.operand.type
          (wrap (totalWords u.frame.visible))).frame.vars, v.type.base.isSome :=
        List.forall_mem_cons.2 ⟨by simp [hbase], htiled.typed⟩
      refine ⟨⟨hlater.tokens, hlater.code⟩, .inr ⟨fun hs => hpos (hfits hs),
        wrap (-d.operand.type.words), ?_, ?_⟩⟩
      · rw [temporaries, Frame.liveWords_eq_wrap htyped, declared,
          Frame.visible_add htiled.scope_open, totalWords_cons, Except.map, wrap_sub_wrap]
        show Except.ok (wrap (u.frame.depth - _)) = _
        rw [hdepth, wrap_wrap_sub]
        congr 2
        simp only [Frame.add]
        omega
      · have hrange := hnamed.regular.range
        have hwords : d.operand.type.words = b.size := by
          unfold Ty.words at hpos ⊢
          split at hpos
          · omega
          · rw [if_neg ‹_›, hbase]
            rfl
        rw [Ne, wrap_eq_zero_iff]
        omega

theorem proper_settle_value {d : Directive} (hk : d.kind = .value) (h : s.Holds [d]) :
    Proper (fun _ t => Later s t ∧ t.Orderly 0) ((settle d).run s) := by
  have hd := (h.entries d (by simp)).value hk
  have ho : s.Orderly d.operand.held := h.orderly.cast (by simp [Directive.held_value hk])
  obtain ⟨b, hb⟩ := Ty.info_eq hd.typed
  unfold settle
  rw [run_bind_ok (run_tokenAt d.tok)]
  dsimp only
  rw [hk]
  dsimp only
  rw [Ty.isScalar_eq hd.typed, run_bind_ok (run_sound _), hb]
  split
  · refine ((emits_load d.operand .r1).proper ho).bind fun _ t ht => ?_
    exact ⟨ht.1.toLater, ht.2.cast (by ring)⟩
  · rename_i hscalar
    rw [run_bind_ok (run_sound _)]
    split
    · refine ((checks_requireScalar hd.typed).proper (blameless_requireScalar _)).mono
        fun _ t _ ht => ?_
      obtain ⟨-, hrule⟩ := ht
      simp [rule, Operand.scalar, hscalar] at hrule
    · split
      · rename_i hplace
        refine ((emits_pop .r1).proper ho).mono fun _ t _ ht => ?_
        exact ⟨ht.1.toLater, ht.2.cast (by simp [Operand.held, hplace])⟩
      · rename_i hplace
        exact ⟨.refl s, ho.cast (by simp [Operand.held, hplace])⟩

theorem proper_checkWords (tok : Token)
    (h : s.Orderly 0 ∨ ¬ s.types.Fits ∧ ∃ k, temporaries s.frame = .ok k ∧ k ≠ 0) :
    Proper (fun _ t => t = s ∧ t.Orderly 0) ((checkWords tok).run s) := by
  unfold checkWords
  rw [EStateM.run_bind, EStateM.run_get]
  dsimp only
  rcases h with h | ⟨hfits, k, hk, hne⟩
  · rw [h.temporaries, run_bind_ok (run_sound _), if_pos (by rfl)]
    exact ⟨rfl, h⟩
  · rw [hk, run_bind_ok (run_sound _), if_neg hne]
    exact fun hs => absurd hs hfits

theorem proper_settleStack (tok : Token) (h : s.Holds s.stack) (hlow : Lowered 0 s.stack) :
    Proper (fun _ t => Later s t ∧ t.Orderly 0) ((settleStack tok).run s) := by
  have hgroup := Lowered.grouped hlow
  unfold settleStack
  rw [EStateM.run_bind, EStateM.run_get]
  dsimp only
  generalize splitGroup s.stack = r at hgroup ⊢
  generalize s.stack = stack at hgroup h ⊢
  cases hgroup with
  | value =>
    rw [run_bind_ok (run_tokenAt _)]
    exact proper_reject rfl
  | nothing =>
    rw [run_bind_ok (run_tokenAt _)]
    exact proper_reject rfl
  | empty =>
    refine (proper_checkWords tok (.inl h.orderly)).mono fun _ t _ ht => ?_
    exact ⟨ht.1 ▸ .refl s, ht.2⟩
  | @single d hd =>
    have hholds : Holds [d] { s with stack := [] } := h.congr rfl rfl
    dsimp only
    rw [run_bind_ok (run_setStack [])]
    have hsettle : Proper (fun _ t => Later s t ∧
        (t.Orderly 0 ∨ ¬ t.types.Fits ∧ ∃ k, temporaries t.frame = .ok k ∧ k ≠ 0))
        ((settle d).run { s with stack := [] }) := by
      rcases hd with hk | ⟨hk, -⟩
      · exact (proper_settle_value hk hholds).mono fun _ t _ ht =>
          ⟨⟨ht.1.tokens, ht.1.code⟩, .inl ht.2⟩
      · exact (proper_settle_declaration hk hholds).mono fun _ t _ ht =>
          ⟨⟨ht.1.tokens, ht.1.code⟩, ht.2⟩
    refine hsettle.bind fun _ t ht => ?_
    refine (proper_checkWords tok ht.2).mono fun _ u _ hu => ?_
    exact ⟨hu.1 ▸ ht.1, hu.2⟩

theorem proper_conclude (h : s.Reading) :
    Proper (fun _ t => Later s t ∧ t.Orderly 0) ((conclude tok).run s) := by
  -- an empty statement has nothing to reduce
  have hreduce (hgo : ¬ (s.expectOperand && !s.stack.isEmpty) = true) :
      Proper (fun _ t => Later s t ∧ t.Holds t.stack ∧ Lowered 0 t.stack)
        ((reduce 0).run s) := by
    cases hexpect : s.expectOperand with
    | false => exact (proper_reduce 0 hexpect h).mono fun _ t _ ht => ⟨ht.1.toLater, ht.2⟩
    | true =>
      have hnil : s.stack = [] := by simpa [hexpect] using hgo
      unfold reduce
      rw [EStateM.run_bind, EStateM.run_get]
      dsimp only
      rw [hnil, reduceStack_nil]
      refine ⟨.refl s, h.holds, .inr ⟨by decide, ?_⟩⟩
      rw [hnil]
      exact .bottom
  unfold conclude
  rw [EStateM.run_bind, EStateM.run_get]
  dsimp only
  split
  · exact proper_reject rfl
  · rename_i hgo
    refine (hreduce hgo).bind fun _ t ht => ?_
    obtain ⟨hlater, ht, hlow⟩ := ht
    exact (proper_settleStack tok ht hlow).mono fun _ u _ hu => ⟨hlater.trans hu.1, hu.2⟩

theorem proper_shift (i : Nat) (tok : Token) (h : s.Reading) :
    Proper (fun _ t => Later s t ∧ t.Reading) ((shift i tok).run s) := by
  unfold shift
  split
  · exact proper_reject rfl
  · exact proper_reject rfl
  · exact proper_useLiteral h
  · exact proper_useVariable h
  · exact proper_pushEntry (.inl rfl) rfl rfl h
  · exact proper_closeGroup h
  · exact proper_nextArgument h
  · exact proper_pushOperator rfl h
  · exact proper_pushOperator rfl h
  · exact proper_pushOperator rfl h
  · exact proper_pushStar h
  · exact proper_pushEntry (.inr rfl) rfl rfl h
  · exact proper_reject rfl

theorem proper_terms (i : Nat) (ts : List Token) (h : s.Reading) :
    Proper (fun _ t => Later s t ∧ t.Orderly 0) ((terms i ts).run s) := by
  induction hn : ts.length using Nat.strong_induction_on generalizing s i ts with
  | _ n ih =>
    have hnext {t : Session} (j : Nat) (rest : List Token) (hlt : rest.length < n)
        (ht : Later s t ∧ t.Reading) :
        Proper (fun _ u => Later s u ∧ u.Orderly 0) ((terms j rest).run t) :=
      (ih _ hlt j rest ht.2 rfl).mono fun _ u _ hu => ⟨ht.1.trans hu.1, hu.2⟩
    cases ts with
    | nil =>
      rw [terms, EStateM.run_bind, EStateM.run_get]
      exact proper_reject rfl
    | cons tok rest =>
      obtain ⟨-, hterms⟩ | ⟨o, rest, rfl, -, -, hterms⟩ | ⟨-, -, hterms⟩ :=
          terms_cons i tok rest <;>
        rw [hterms]
      · exact proper_conclude h
      · exact (proper_pushEntry (.inl rfl) rfl rfl h).bind
          fun _ t ht => hnext _ rest (by simp [← hn]) ht
      · exact (proper_shift i tok h).bind fun _ t ht => hnext _ rest (by simp [← hn]) ht

/-- A session where a statement starts. -/
theorem reading_begun (h : s.Orderly 0) : (begun s).Reading :=
  ⟨⟨by simp [begun], h.congr rfl rfl⟩, 0, true, .bottom⟩

theorem Later.of_begun {t : Session} (h : Later (begun s) t) : Later s t := ⟨h.tokens, h.code⟩

theorem proper_declaredType (ts : List Token) (h : Built s.types.entries) :
    Proper (fun p t => t = s ∧ (isTyped ts → p.1.base.isSome) ∧ ∀ b ∈ p.1.base, isTyped ts ∧
        b.Named ∧ (p.1.words ≠ 0 → s.types.Fits → 0 < p.1.words))
      ((declaredType ts).run s) := by
  unfold declaredType
  split
  · split
    · rename_i tok rest htyped
      rw [EStateM.run_bind, EStateM.run_get]
      dsimp only
      split
      · exact proper_reject rfl
      · rename_i base hbase
        obtain ⟨b, rfl, hnamed⟩ := h.named_resolve hbase
        refine ⟨rfl, fun _ => rfl, fun c hc => ?_⟩
        obtain rfl := Option.some.inj hc
        refine ⟨htyped, hnamed, fun hne hfits => ?_⟩
        -- a pointer takes one word whatever it points to
        by_cases hpos : 0 < ((rest.takeWhile Token.isStar).length : Int)
        · simp only [Ty.words, hpos, if_true]
          decide
        · rcases StructDef.fitting_resolve h hpos hne hbase with hone | ⟨e, he, c, hc, hsize⟩
          · rw [hone]
            decide
          · rw [hsize]
            exact h.size_pos hfits e he c hc
    · rename_i htyped
      exact ⟨rfl, fun ht => absurd ht htyped, by simp⟩
  · exact ⟨rfl, by simp [isTyped], by simp⟩

theorem proper_openDeclaration (i : Nat) (ts : List Token) (h : s.Orderly 0) :
    Proper (fun _ t => Later s t ∧ t.Reading) ((openDeclaration i ts).run (begun s)) := by
  unfold openDeclaration
  refine (proper_declaredType (s := begun s) ts h.types).bind fun p t ht => ?_
  obtain ⟨type, n⟩ := p
  obtain ⟨rfl, hbase, hnamed⟩ := ht
  dsimp only at hbase hnamed ⊢
  have hpush (hwords : isTyped ts → type.words ≠ 0) (name : Token) :
      Proper (fun _ t => Later s t ∧ t.Reading)
        ((pushTerm ⟨.declaration, (i + n : Nat), { type }⟩ name >>= fun _ => pure (n + 1)).run
          (begun s)) := by
    refine (proper_pushTerm ⟨by simp, rfl, by simp, fun _ b hb => ?_⟩ rfl (.inr ⟨rfl, rfl⟩)
      (reading_begun h)).bind fun _ u hu => ⟨Later.of_begun hu.1, hu.2⟩
    obtain ⟨htyped, hb, hfits⟩ := hnamed b hb
    exact ⟨hb, hwords htyped, hfits (hwords htyped)⟩
  rw [EStateM.run_bind, EStateM.run_get]
  dsimp only
  split
  · split
    · rename_i htyped
      rw [Ty.size_eq (hbase htyped), run_bind_ok (run_sound _)]
      split
      · exact proper_reject rfl
      · rename_i hne
        exact hpush (fun _ => hne) _
    · rename_i htyped
      exact hpush (fun ht => absurd ht htyped) _
  · exact proper_reject rfl

/-- A statement leaves the frame tiled, with nothing above the variables. -/
theorem proper_statement (i : Nat) (ts : List Token) (h : s.Orderly 0) :
    Proper (fun _ t => Later s t ∧ t.Orderly 0) ((statement i ts).run s) := by
  have hterms (i : Nat) (ts : List Token) :
      Proper (fun _ t => Later s t ∧ t.Orderly 0) ((terms i ts).run (begun s)) :=
    (proper_terms i ts (reading_begun h)).mono fun _ u _ hu => ⟨Later.of_begun hu.1, hu.2⟩
  unfold statement
  rw [run_bind_ok (run_setStack []), run_bind_ok (run_setExpectOperand true)]
  change Proper _ (EStateM.run _ (begun s))
  split
  · split
    · refine (proper_openDeclaration _ _ h).bind fun n t ht => ?_
      exact (proper_terms _ _ ht.2).mono fun _ u _ hu => ⟨ht.1.trans hu.1, hu.2⟩
    · exact hterms _ _
  · exact hterms _ _

end Build

end OnePass
