import Mathlib
import OnePass.Proofs.Parsing

namespace OnePass

/-- A frame between statements: every word belongs to a visible variable, the last one ends at the
depth, and the innermost scope is open. -/
structure Frame.Tidy (f : Frame) : Prop where
  words : (f.visible.map (·.type.words)).sum = f.depth
  last : ∀ v ∈ f.visible.head?, v.address + v.type.words = f.depth
  scope : f.closed.contains f.scope = false

namespace Frame

variable {f : Frame}

theorem Tidy.covers (h : f.Tidy) (hr : InRange f.depth) (depth : Int) :
    covers { f with depth } f.depth = false := by
  have hlast := h.last
  unfold Frame.covers
  rw [show visible { f with depth } = f.visible from rfl]
  cases hvis : f.visible with
  | nil => rfl
  | cons last rest =>
    have hend := hlast last (by simp [hvis])
    obtain ⟨h₀, h₁⟩ := hr
    dsimp only
    rw [hend, wrap_eq_self (by omega) (by omega)]
    simp

theorem visible_add (h : f.closed.contains f.scope = false) (name : String) (line : Int) (type : Ty)
    (address : Int) :
    (f.add name line type address).2.visible =
      (f.add name line type address).1 :: f.visible := by
  have hlive : (f.add name line type address).2.isLive (f.add name line type address).1 := by
    simpa [isLive, add] using h
  exact List.filter_cons_of_pos hlive

theorem Tidy.words_add (h : f.Tidy) (name : String) (line : Int) (type : Ty) (depth : Int) :
    ((add { f with depth } name line type f.depth).2.visible.map (·.type.words)).sum =
      f.depth + type.words := by
  rw [visible_add (f := { f with depth }) h.scope, List.map_cons, List.sum_cons,
    show visible { f with depth } = f.visible from rfl, h.words, Int.add_comm]
  rfl

end Frame

namespace Build

variable {s₀ s t : Session} {tok : Token} {n : Nat} {p : Parse}

/-- What a statement leaves behind, or that it fails. -/
def Compiles (s₀ : Session) (stmt : Stmt) (result : EStateM.Result Stop Session Unit) : Prop :=
  match stmt.frame s₀.types s₀.frame with
  | some f => ∃ t, result = .ok () t ∧ t.code = s₀.code ++ stmt.code s₀.types s₀.frame ∧
      t.frame = f ∧ t.types = s₀.types ∧ t.tokens = s₀.tokens
  | none => Fails result

theorem run_conclude (tok : Token) (s : Session) :
    if s.expectOperand && !s.stack.isEmpty then Fails ((conclude tok).run s)
    else (conclude tok).run s = (reduce 0 >>= fun _ => settleStack tok).run s := by
  unfold conclude
  rw [EStateM.run_bind, EStateM.run_get]
  dsimp only
  split
  · exact fails_error _ _
  · rfl

theorem run_checkWords (tok : Token) (hv : ∀ v ∈ s.frame.vars, v.type.base.isSome) :
    if wrap (s.frame.depth - wrap (s.frame.visible.map (·.type.words)).sum) = 0 then
      (checkWords tok).run s = .ok () s
    else Fails ((checkWords tok).run s) := by
  have hlive : (s.frame.live.map (·.type.words)).sum =
      (s.frame.visible.map (·.type.words)).sum := by
    rw [Frame.live, List.map_reverse, List.sum_reverse]
  unfold checkWords
  rw [EStateM.run_bind, EStateM.run_get]
  dsimp only
  rw [temporaries, Frame.liveWords_eq hv, Except.map, hlive, run_bind_ok (run_sound _)]
  split
  · rfl
  · exact fails_error _ _

theorem settleStack_nil (hs : s.stack = []) :
    (settleStack tok).run s = (checkWords tok).run s := by
  unfold settleStack
  rw [EStateM.run_bind, EStateM.run_get]
  dsimp only
  rw [hs]
  rfl

theorem settleStack_single {d : Directive} (hs : s.stack = [d]) (hd : d.kind.opensGroup = false) :
    (settleStack tok).run s =
      (settle d >>= fun _ => checkWords tok).run { s with stack := [] } := by
  have hsplit : splitGroup [d] = none := splitGroup_eq_none.2 (by simpa using hd)
  unfold settleStack
  rw [EStateM.run_bind, EStateM.run_get]
  dsimp only
  rw [hs, hsplit]
  rfl

/-- An open group is not closed by the end of the statement. -/
theorem fails_settleStack {r : List Directive × Directive × List Directive}
    (hs : splitGroup s.stack = some r) : Fails ((settleStack tok).run s) := by
  unfold settleStack
  rw [EStateM.run_bind, EStateM.run_get]
  dsimp only
  rw [hs]
  exact fails_error _ _

variable {e l r : Expr} {d lhs rhs op : Directive} {stack : List Directive} {xs : List Entry}
  {b : Bool}

theorem run_completed {m : Build Unit} {code : List Instr} (tok : Token) (hr : Ready n s₀)
    (hf : s₀.frame.Tidy)
    (h : Tracks s₀ xs stack b s) (hm : m.run s = .ok () t) (hcode : t.code = s.code ++ code)
    (hframe : t.frame = { s.frame with depth := s₀.frame.depth }) (htypes : t.types = s.types)
    (htokens : t.tokens = s.tokens) :
    ∃ t, (m >>= fun _ => checkWords tok).run s = .ok () t ∧
      t.code = s₀.code ++ (Entry.codes s₀.frame xs ++ code) ∧ t.frame = s₀.frame ∧
      t.types = s₀.types ∧ t.tokens = s₀.tokens := by
  have hframe' : t.frame = s₀.frame := by rw [hframe, h.frame]
  have hwords : wrap s₀.frame.depth = s₀.frame.depth := by
    have h₀ := hr.nonneg
    have h₁ := hr.room
    exact wrap_eq_self (by omega) (by omega)
  refine ⟨t, ?_, ?_, hframe', htypes.trans h.types, htokens.trans h.tokens⟩
  · have hcheck := run_checkWords (s := t) tok (by rw [hframe']; exact hr.vars)
    rw [hframe', hf.words, hwords, Int.sub_self] at hcheck
    rw [run_bind_ok hm]
    exact hcheck
  · rw [hcode, h.code]
    apply Array.toList_inj.1
    simp

/-- What a value comes to at the end of a statement. -/
theorem run_settle (hk : d.kind = .value) (hbase : d.operand.type.base.isSome)
    (hrange : InRange s.frame.depth) (hheld : d.operand.held ≤ s.frame.depth) :
    if d.operand.discards then
      (settle d).run s = .ok () (s.emitted (d.operand.discardCode s.frame.depth)
        (s.frame.depth - d.operand.held))
    else Fails ((settle d).run s) := by
  obtain ⟨base, hinfo⟩ := Option.isSome_iff_exists.1 hbase
  have hscalar : d.operand.type.isScalar = .ok d.operand.scalar := Ty.isScalar_eq hbase
  have hcheck := checks_requireScalar (s := s) hbase
  unfold settle Operand.discards Operand.discardCode
  rw [run_bind_ok (run_tokenAt _)]
  simp only [hk, hscalar, Ty.info, hinfo, Option.map_some]
  rw [run_bind_ok (run_sound _)]
  cases hs : d.operand.scalar with
  | true =>
    simp only [if_true, Bool.true_or]
    rw [run_bind_ok (run_load .r1 hrange hheld)]
    rfl
  | false =>
    rw [hs] at hcheck
    simp only [Bool.false_eq_true, if_false, Bool.false_or]
    rw [run_bind_ok (run_sound _)]
    by_cases hv : base.prim = .void
    · obtain ⟨r, hreject⟩ := hcheck
      simp only [hv, ne_eq, not_true_eq_false, decide_false, Bool.false_eq_true, if_false, if_true]
      rw [hreject]
      exact fails_error _ _
    · by_cases hp : d.operand.place = .stack
      · have hone : d.operand.held = 1 := by simp [Operand.held, hp]
        simp [hv, hp, hone, run_pop .r1 hrange (hone ▸ hheld)]
      · have hzero : d.operand.held = 0 := by simp [Operand.held, hp]
        simp [hv, hp, hzero]

theorem compiles_expr (hr : Ready n s₀) (hf : s₀.frame.Tidy) (hn : 1 ≤ n)
    (h : Tracks s₀ [.value e] [d] b s) :
    Compiles s₀ (.expr e) ((settle d >>= fun _ => checkWords tok).run s) := by
  obtain ⟨hk, ho⟩ := (List.forall₂_cons.1 h.shows).1
  have hresult := Expr.result_eq ho
  have hdepth : s.frame.depth = s₀.frame.depth + d.operand.held := by
    simp [h.depth, Entry.top, Entry.held, hresult]
  have hsettle := run_settle hk (Expr.typed_operand hr.vars e ho)
    (h.inRange hr (by simpa [Entry.weights, Entry.weight] using hn))
    (by have := hr.nonneg; omega)
  simp only [Compiles, Stmt.frame, ho, Option.bind_some]
  cases hd : d.operand.discards with
  | false =>
    rw [hd] at hsettle
    exact Fails.bind hsettle _
  | true =>
    rw [hd] at hsettle
    obtain ⟨t, hrun, hcode, hrest⟩ := run_completed tok hr hf h hsettle rfl
      (by simp [hdepth]) rfl rfl
    refine ⟨t, hrun, ?_, hrest⟩
    rw [hcode]
    simp [Stmt.code, Entry.codes, Entry.code, Entry.top, hresult, hdepth]

theorem reduceStack_nil (q : Int) : reduceStack q [] = pure () := reduceStack_of_none rfl

/-- Once its assignment has been made, a statement has nothing left to settle. -/
theorem run_assignment {m : Build Unit} {tok' : Token}
    (hover : reduceOver op tok' rhs [lhs] = m >>= fun _ => pure ⟨[], by simp⟩) :
    ((reduceOver op tok' rhs [lhs] >>= fun r => setStack r.1 >>= fun _ => reduceStack 0 r.1) >>=
      fun _ => settleStack tok).run s =
    ((m >>= fun _ => setStack []) >>= fun _ => checkWords tok).run s := by
  rw [hover]
  simp only [bind_assoc, pure_bind, reduceStack_nil]
  rw [EStateM.run_bind, EStateM.run_bind]
  cases m.run s with
  | error e t => rfl
  | ok a t =>
    dsimp only
    rw [run_bind_ok (run_setStack _), run_bind_ok (run_setStack _)]
    exact settleStack_nil rfl

theorem compiles_assign {tok' : Token} (hr : Ready n s₀) (hf : s₀.frame.Tidy) (hn : 3 ≤ n)
    (h : Tracks s₀ (.value r :: Target.entries (.expr l)) [rhs, op, lhs] b s) :
    Compiles s₀ (.assign l r) (((reduceOver op tok' rhs [lhs] >>= fun r => setStack r.1 >>= fun _ =>
      reduceStack 0 r.1) >>= fun _ => settleStack tok).run s) := by
  obtain ⟨⟨hkr, hor⟩, hrest⟩ := List.forall₂_cons.1 h.shows
  obtain ⟨hop, hlast⟩ := List.forall₂_cons.1 hrest
  obtain ⟨⟨hkl, hol⟩, -⟩ := List.forall₂_cons.1 hlast
  have hop : op.kind = .assign := hop
  have hresr := Expr.result_eq hor
  have hresl := Expr.result_eq hol
  have hdepth : s.frame.depth = s₀.frame.depth + lhs.operand.held + rhs.operand.held := by
    simp [h.depth, Target.entries, Entry.top, Entry.held, hresr, hresl]
  have hover : reduceOver op tok' rhs [lhs] =
      store tok' lhs rhs >>= fun _ => pure ⟨[], by simp⟩ := by
    simp [reduceOver, reduceBinary, hkr, hkl, hop, DirectiveKind.isOperator,
      DirectiveKind.opensGroup]
  have hstore := run_store tok' hkl
    (h.inRange hr (by simpa [Target.entries, Entry.weights, Entry.weight] using hn))
    (Expr.typed_operand hr.vars l hol) (Expr.typed_operand hr.vars r hor)
    (by have := hr.nonneg; omega)
  rw [run_assignment hover]
  simp only [Compiles, Stmt.frame, hol, hor, Option.bind_some]
  cases ha : lhs.operand.assignable rhs.operand with
  | false =>
    rw [ha] at hstore
    obtain ⟨d, hd⟩ := hstore
    exact Fails.bind (Fails.bind (by rw [hd]; exact fails_error _ _) _) _
  | true =>
    rw [ha] at hstore
    have hm : (store tok' lhs rhs >>= fun _ => setStack []).run s = .ok ()
        { s.emitted (Operand.storeCode s.frame.depth lhs.operand rhs.operand)
          (s.frame.depth - rhs.operand.held - lhs.operand.held) with stack := [] } :=
      run_bind_ok hstore
    obtain ⟨t, hrun, hcode, hrest⟩ := run_completed tok hr hf h hm rfl (by simp [hdepth])
      rfl rfl
    refine ⟨t, hrun, ?_, hrest⟩
    rw [hcode]
    simp [Stmt.code, Target.entries, Entry.codes, Entry.code, Entry.top, Entry.held, hresl, hresr,
      hdepth]

theorem run_checkWords_add {δ : Decl} {type : Ty} {depth : Int} (tok : Token) (hr : Ready n s₀)
    (hf : s₀.frame.Tidy) (hbase : type.base.isSome)
    (hframe : s.frame =
      (Frame.add { s₀.frame with depth } δ.name δ.line type s₀.frame.depth).2) :
    if wrap (depth - wrap (s₀.frame.depth + type.words)) = 0 then
      (checkWords tok).run s = .ok () s
    else Fails ((checkWords tok).run s) := by
  have hvars : ∀ v ∈ s.frame.vars, v.type.base.isSome := by
    rw [hframe]
    exact List.forall_mem_cons.2 ⟨hbase, hr.vars⟩
  have hcheck := run_checkWords tok hvars
  rwa [hframe, hf.words_add] at hcheck

theorem run_declare_tidy {δ : Decl} {name : Token} (code : List Instr) (depth : Int) (type : Ty)
    (hr : Ready n s₀) (hf : s₀.frame.Tidy) (h : Tracks s₀ xs stack b s)
    (hname : name.name = δ.name) (hline : name.line = δ.line) :
    ∃ t, (declare name type s₀.frame.depth).run (s.emitted code depth) = .ok () t ∧
      t.code = s₀.code ++ (Entry.codes s₀.frame xs ++ code) ∧
      t.frame = (Frame.add { s₀.frame with depth } δ.name δ.line type s₀.frame.depth).2 ∧
      t.types = s₀.types ∧ t.tokens = s₀.tokens := by
  have hrange : InRange s₀.frame.depth := by
    have h₀ := hr.nonneg
    have h₁ := hr.room
    exact ⟨h₀, by omega⟩
  have hframe : (s.emitted code depth).frame = { s₀.frame with depth } := by simp [h.frame]
  have hdeclare := run_declare (s := s.emitted code depth) (by rw [hframe]; exact hr.vars) name
    type s₀.frame.depth
  rw [hframe, hf.covers hrange, if_neg (by simp)] at hdeclare
  refine ⟨_, hdeclare, ?_, ?_, h.types, h.tokens⟩
  · simp only [Session.declared, Session.emitted_code, h.code]
    apply Array.toList_inj.1
    simp
  · simp only [Session.declared, hframe, hname, hline]

theorem compiles_varValue {tok' : Token} {δ : Decl} (hr : Ready n s₀) (hf : s₀.frame.Tidy)
    (hn : 3 ≤ n) (h : Tracks s₀ (.value e :: Target.entries (.decl δ)) [rhs, op, lhs] b s) :
    Compiles s₀ (.var δ (some e)) (((reduceOver op tok' rhs [lhs] >>= fun r => setStack r.1 >>=
      fun _ => reduceStack 0 r.1) >>= fun _ => settleStack tok).run s) := by
  obtain ⟨⟨hkr, hor⟩, hrest⟩ := List.forall₂_cons.1 h.shows
  obtain ⟨hop, hlast⟩ := List.forall₂_cons.1 hrest
  obtain ⟨⟨hkl, hdecl, hname, hline⟩, -⟩ := List.forall₂_cons.1 hlast
  have hop : op.kind = .assign := hop
  have hresr := Expr.result_eq hor
  have htyped := Expr.typed_operand hr.vars e hor
  have hdepth : s.frame.depth = s₀.frame.depth + rhs.operand.held := by
    simp [h.depth, Target.entries, Entry.top, Entry.held, hresr]
  have hover : reduceOver op tok' rhs [lhs] =
      define lhs rhs >>= fun _ => pure ⟨[], by simp⟩ := by
    simp [reduceOver, reduceBinary, hkr, hkl, hop, DirectiveKind.isOperator,
      DirectiveKind.opensGroup]
  have hdefine := run_define lhs
    (h.inRange hr (by simpa [Target.entries, Entry.weights, Entry.weight] using hn)) htyped
    (by have := hr.nonneg; omega)
  rw [run_assignment hover]
  simp only [Compiles, Stmt.frame, hdecl, hor, Option.bind_some]
  cases hi : rhs.operand.initializes lhs.operand.type with
  | none =>
    rw [hi] at hdefine
    obtain ⟨d, hd⟩ := hdefine
    exact Fails.bind (Fails.bind (by rw [hd]; exact fails_error _ _) _) _
  | some type =>
    rw [hi] at hdefine
    -- both the value and the declared type are scalars, which take one word
    have hone : type.words = 1 := Operand.words_initializes
      (Expr.base_operand (P := fun base => ∀ b ∈ base, b.Regular)
        (by simpa using TypeInfo.regular_builtin .untyped (by simp)) hr.regularVars e hor)
      (δ.regular_declared hr.regularTypes hdecl) hi
    have hbase : type.base.isSome := by
      simp only [Operand.initializes, Option.ite_none_right_eq_some,
        Option.filter_eq_some_iff] at hi
      exact Ty.initial_base htyped hi.2.1
    have hwrap : wrap (s₀.frame.depth + 1) = s₀.frame.depth + 1 := by
      have h₀ := hr.nonneg
      have h₁ := hr.room
      exact wrap_eq_self (by omega) (by omega)
    obtain ⟨t, hrun, hcode, hframe, htypes, htokens⟩ := run_declare_tidy
      (rhs.operand.spillCode s.frame.depth) (s₀.frame.depth + 1) type hr hf h
      ((congrArg Token.name (h.token lhs.tok)).trans hname)
      ((congrArg Token.line (h.token lhs.tok)).trans hline)
    simp only [hdepth, Int.add_sub_cancel] at hdefine hrun
    rw [hrun] at hdefine
    have hcheck := run_checkWords_add (s := { t with stack := [] }) tok hr hf hbase hframe
    rw [hone, hwrap, Int.sub_self] at hcheck
    have hm : (define lhs rhs >>= fun _ => setStack []).run s = .ok () { t with stack := [] } :=
      run_bind_ok hdefine
    rw [Option.map_some]
    refine ⟨{ t with stack := [] }, ?_, ?_, ?_, htypes, htokens⟩
    · rw [run_bind_ok hm]
      exact hcheck
    · rw [hcode]
      simp [Stmt.code, Target.entries, Entry.codes, Entry.code, Entry.top, Entry.held, hresr,
        hdepth]
    · simp [hframe, Frame.extend, hone, hwrap]

/-- A declaration gives a type that is not missing, or none at all. -/
theorem declared_base {types : Registry} {δ : Decl} {type : Ty}
    (ht : ∀ e ∈ types.entries, e.2.isSome) (h : δ.declared types = some type) :
    type = {} ∨ type.base.isSome := by
  unfold Decl.declared at h
  split at h
  · exact .inl (Option.some.inj h).symm
  · simp only [Option.bind_eq_some_iff, Option.ite_none_left_eq_some, Option.some.injEq] at h
    obtain ⟨base, hbase, -, rfl⟩ := h
    exact .inr (resolve_isSome ht hbase)

theorem words_declared {types : Registry} {δ : Decl} {type : Ty}
    (ht : ∀ e ∈ types.entries, ∀ b ∈ e.2, b.Regular) (h : δ.declared types = some type)
    (hbase : type.base.isSome) : -2 ^ 63 ≤ type.words ∧ type.words ≠ 0 := by
  have hregular := δ.regular_declared ht h
  obtain ⟨b, hb⟩ := Option.isSome_iff_exists.1 hbase
  constructor
  · have := (hregular b hb).range.1
    unfold Ty.words
    rw [hb]
    split
    · decide
    · exact this
  · unfold Decl.declared at h
    split at h
    · obtain rfl := Option.some.inj h
      simp at hbase
    · simp only [Option.bind_eq_some_iff, Option.ite_none_left_eq_some, Option.some.injEq] at h
      obtain ⟨_, -, hne, rfl⟩ := h
      exact hne

theorem compiles_var {δ : Decl} (hr : Ready n s₀) (hf : s₀.frame.Tidy)
    (h : Tracks s₀ [.decl δ] [d] b s) :
    Compiles s₀ (.var δ none) ((settle d >>= fun _ => checkWords tok).run s) := by
  obtain ⟨hk, hdecl, hname, hline⟩ := (List.forall₂_cons.1 h.shows).1
  have hdepth : s.frame.depth = s₀.frame.depth := by simp [h.depth, Entry.top, Entry.held]
  simp only [Compiles, Stmt.frame, hdecl, Option.bind_some]
  unfold settle
  rw [bind_assoc, run_bind_ok (run_tokenAt _)]
  simp only [hk]
  -- without a type there must be a value, so the statement fails
  obtain hnone | hbase := declared_base hr.types hdecl
  · rw [if_neg (by simp [hnone, Ty.words]), if_pos (by simp [hnone])]
    exact Fails.bind (fails_error _ _) _
  have hsome : ¬d.operand.type.base.isNone := by
    cases hb : d.operand.type.base <;> simp_all
  obtain ⟨t, hrun, hcode, hframe, htypes, htokens⟩ := run_declare_tidy
    (zerosCode d.operand.type.words) (wrap (s₀.frame.depth + d.operand.type.words.toNat))
    d.operand.type hr hf h ((congrArg Token.name (h.token d.tok)).trans hname)
    ((congrArg Token.line (h.token d.tok)).trans hline)
  have hcheck := run_checkWords_add tok hr hf hbase hframe
  have hsettle : ((do
      let size ← sound d.operand.type.size
      let address := (← get).frame.depth
      zeros size
      declare (s.token d.tok) d.operand.type address : Build Unit).run s) = .ok () t := by
    rw [Ty.size_eq hbase, run_bind_ok (run_sound _), EStateM.run_bind, EStateM.run_get]
    dsimp only
    rw [run_bind_ok (run_zeros _), hdepth, hrun]
  rw [if_neg hsome, run_bind_ok hsettle]
  by_cases hpos : 0 < d.operand.type.words
  · have hnat : (d.operand.type.words.toNat : Int) = d.operand.type.words := by omega
    rw [hnat, Int.sub_self] at hcheck
    rw [if_pos hpos]
    refine ⟨t, hcheck, ?_, ?_, htypes, htokens⟩
    · simp [hcode, Stmt.code, hdecl, Entry.codes, Entry.code]
    · simp [hframe, Frame.extend, hnat]
  · -- a size that has wrapped asks for words that were not pushed
    obtain ⟨hlo, hne⟩ := words_declared hr.regularTypes hdecl hbase
    rw [if_neg] at hcheck
    · rw [if_neg hpos]
      exact hcheck
    · rw [wrap_sub_wrap, wrap_wrap_sub, wrap_eq_zero_iff]
      omega

theorem compiles_empty (hr : Ready n s₀) (hf : s₀.frame.Tidy) (h : Tracks s₀ [] [] b s) :
    Compiles s₀ .empty ((checkWords tok).run s) := by
  have hnil : s.code = s.code ++ ([] : List Instr) := by simp
  obtain ⟨t, hrun, hcode, hrest⟩ := run_completed (m := pure ()) tok hr hf h rfl hnil
    (by simp [h.frame, Entry.top]) rfl rfl
  exact ⟨t, hrun, by simpa [Stmt.code, Entry.codes] using hcode, hrest⟩

/-- A statement that has been read compiles, and one that has not fails. -/
def Completes (s₀ : Session) (result : EStateM.Result Stop Session Unit) : Option Stmt → Prop
  | some stmt => Compiles s₀ stmt result
  | none => Fails result

theorem run_bind_congr {α β : Type} {m m' : Build α} (f : α → Build β) (h : m.run s = m'.run t) :
    (m >>= f).run s = (m' >>= f).run t := by
  rw [EStateM.run_bind, EStateM.run_bind, h]

theorem entries_eq_nil (h : p.entries = []) : p = {} := by
  obtain ⟨target, outer, region, top⟩ := p
  simp only [Parse.entries, Parse.baseEntries, Parse.regionEntries, List.append_eq_nil_iff,
    List.map_eq_nil_iff, Option.toList_eq_nil_iff] at h
  obtain ⟨⟨rfl, hregion⟩, houter, htarget⟩ := h
  have hregion : region = [] := by
    cases region with
    | nil => rfl
    | cons op region => cases op <;> simp [Pending.entries] at hregion
  have houter : outer = [] := by
    cases outer with
    | nil => rfl
    | cons g outer => simp at houter
  have htarget : target = none := by
    cases target with
    | none => rfl
    | some target => cases target <;> simp [Target.entries] at htarget
  rw [hregion, houter, htarget]

theorem completes_due (tok : Token) (hr : Ready n s₀) (hf : s₀.frame.Tidy) (h : Follows s₀ p s)
    (htop : p.top = none) :
    Completes s₀ ((conclude tok).run s) (p.finish (typeable s₀)) := by
  have hconclude := run_conclude tok s
  have hexpect : s.expectOperand = true := by simpa [htop] using h.expect
  cases hstack : s.stack with
  | nil =>
    unfold Follows at h
    rw [hstack] at h
    obtain rfl : p = {} := entries_eq_nil (List.forall₂_nil_right_iff.1 h.shows)
    rw [if_neg (by simp [hstack])] at hconclude
    rw [hconclude, reduce, EStateM.run_bind, EStateM.run_bind, EStateM.run_get]
    dsimp only
    rw [hstack, reduceStack_nil]
    dsimp only [EStateM.run_pure]
    rw [settleStack_nil hstack]
    exact compiles_empty hr hf h
  | cons d rest =>
    -- an operand is missing, which the parser and the session find out alike
    have hwhole : p.whole (typeable s₀) = none := by simp [Parse.whole, htop]
    have hfinish : p.finish (typeable s₀) = none := by
      unfold Parse.finish
      split
      · rfl
      · split
        · rw [if_neg, hwhole]
          · rfl
          · intro hempty
            simp only [Bool.and_eq_true, List.isEmpty_iff] at hempty
            have := h.shows
            simp_all [Parse.entries, Parse.baseEntries, Parse.regionEntries]
        · rw [hwhole]
          rfl
        · rw [hwhole]
          rfl
    rw [hfinish]
    rw [if_pos (by simp [hstack, hexpect])] at hconclude
    exact hconclude

theorem completes_grouped {g : Group} {region : List Pending}
    {outer : List (Group × List Pending)} (tok : Token) (hr : Ready n s₀) (h : Follows s₀ p s)
    (hn : Entry.weights p.entries ≤ n) (htop : p.top.isSome)
    (houter : p.outer = (g, region) :: outer) :
    Completes s₀ ((reduce 0 >>= fun _ => settleStack tok).run s) (p.finish (typeable s₀)) := by
  have hfinish : p.finish (typeable s₀) = none := by simp [Parse.finish, houter]
  have hred := run_reduce_group hr h hn htop houter
  rw [hfinish]
  cases hwhole : p.whole (typeable s₀) with
  | none =>
    rw [hwhole] at hred
    exact hred.bind _
  | some e' =>
    rw [hwhole] at hred
    obtain ⟨t, arg, marker, below, hrun, hsplit, -, -⟩ := hred
    rw [run_bind_ok hrun]
    exact fails_settleStack hsplit

theorem completes_expr (tok : Token) (hr : Ready n s₀) (hf : s₀.frame.Tidy) (h : Follows s₀ p s)
    (hn : Entry.weights p.entries ≤ n) (htop : p.top = some e) (houter : p.outer = [])
    (htarget : p.target = none) :
    Completes s₀ ((reduce 0 >>= fun _ => settleStack tok).run s) (p.finish (typeable s₀)) := by
  have hbase : p.baseEntries = [] := by simp [Parse.baseEntries, houter, htarget]
  have hred := run_reduce (q := 0) hr h hn htop (by rw [hbase]; simp [Entry.Halts])
  have hone : 1 ≤ n := by
    rw [Parse.entries_some htop, List.cons_append, weights_cons rfl] at hn
    omega
  have hfinish : p.finish (typeable s₀) = (p.whole (typeable s₀)).map .expr := by
    simp [Parse.finish, houter, htarget, htop]
  rw [Parse.reduce_low (by omega), Nat.cast_zero] at hred
  rw [hfinish]
  simp only [Parse.whole, htop, Option.bind_eq_bind, Option.bind_some]
  cases hp : Parse.reduce (typeable s₀) 0 p.region e with
  | none =>
    rw [hp] at hred
    exact Fails.bind hred _
  | some r =>
    rw [hp] at hred
    obtain ⟨t, hrun, ht⟩ := hred
    rw [hbase] at ht
    obtain ⟨d, rest, hd, hnil, hstack⟩ := List.forall₂_cons_left_iff.1 ht.shows
    obtain rfl := List.forall₂_nil_left_iff.1 hnil
    rw [hstack] at ht
    rw [run_bind_ok hrun, settleStack_single hstack (by rw [hd.1]; rfl)]
    exact compiles_expr hr hf hone (s := { t with stack := [] })
      ⟨ht.code, ht.frame, ht.types, ht.tokens, ht.expect, ht.shows⟩

theorem completes_target {target : Target} (tok : Token) (hr : Ready n s₀) (hf : s₀.frame.Tidy)
    (h : Follows s₀ p s) (hn : Entry.weights p.entries ≤ n) (htop : p.top = some e)
    (houter : p.outer = []) (htarget : p.target = some target) :
    Completes s₀ ((reduce 0 >>= fun _ => settleStack tok).run s) (p.finish (typeable s₀)) := by
  have hred := run_reduce_target (q := 0) (by omega) hr h hn htop houter htarget
  have hthree : 3 ≤ n := by
    have hbase : p.baseEntries = target.entries := by simp [Parse.baseEntries, houter, htarget]
    rw [Parse.entries_some htop, hbase] at hn
    cases target <;> simp [Entry.weights, Entry.weight, Target.entries] at hn <;> omega
  rw [Nat.cast_zero] at hred
  simp only [Parse.finish, houter, htarget, Parse.whole, htop, Option.bind_eq_bind,
    Option.bind_some]
  cases hp : Parse.reduce (typeable s₀) 0 p.region e with
  | none =>
    rw [hp] at hred
    cases target <;> exact Fails.bind hred _
  | some r =>
    rw [hp] at hred
    obtain ⟨t, rhs, op, lhs, ht, hrun⟩ := hred
    rw [run_bind_congr _ hrun]
    cases target with
    | expr l => exact compiles_assign hr hf hthree ht
    | decl δ => exact compiles_varValue hr hf hthree ht

/-- The semicolon completes what the parser has read. -/
theorem completes_conclude (tok : Token) (hr : Ready n s₀) (hf : s₀.frame.Tidy)
    (h : Follows s₀ p s) (hn : Entry.weights p.entries ≤ n) :
    Completes s₀ ((conclude tok).run s) (p.finish (typeable s₀)) := by
  cases htop : p.top with
  | none => exact completes_due tok hr hf h htop
  | some e =>
    have hconclude := run_conclude tok s
    rw [if_neg (by simp [h.expect, htop])] at hconclude
    rw [hconclude]
    cases houter : p.outer with
    | cons head outer => exact completes_grouped tok hr h hn (by simp [htop]) houter
    | nil =>
      cases htarget : p.target with
      | none => exact completes_expr tok hr hf h hn htop houter htarget
      | some target => exact completes_target tok hr hf h hn htop houter htarget

theorem token_of_drop {i : Nat} {rest : List Token} (h : s.tokens.toList.drop i = tok :: rest) :
    s.token i = tok := by
  have hget : s.tokens.toList[i]? = some tok := by
    rw [← List.head?_drop, h]
    rfl
  have hsize : s.tokens[i]? = some tok := by simpa using hget
  unfold Session.token
  rw [if_neg (by omega), Int.toNat_natCast, Array.getD_eq_getD_getElem?, hsize]
  rfl

/-- The rest of a statement completes as the parser reads it. -/
theorem completes_terms {i : Nat} {ts : List Token} (hr : Ready n s₀) (hf : s₀.frame.Tidy)
    (hts : s₀.tokens.toList.drop i = ts) (h : Follows s₀ p s)
    (hn : Entry.weights p.entries + ts.length ≤ n) :
    Completes s₀ ((terms i ts).run s) (p.run (typeable s₀) ts) := by
  induction hlen : ts.length using Nat.strong_induction_on generalizing i ts p s with
  | _ k ih =>
    cases ts with
    | nil =>
      rw [terms, EStateM.run_bind, EStateM.run_get]
      exact fails_error _ _
    | cons tok rest =>
      -- after a token that both have taken, the rest follows by induction
      have hnext {j : Nat} {rest' : List Token} {m : Build Unit} {p' : Option Parse}
          (hagrees : Agrees s₀ (Entry.weights p.entries + 1) (m.run s) p')
          (hdrop : s₀.tokens.toList.drop j = rest') (hlt : rest'.length < (tok :: rest).length) :
          Completes s₀ ((m >>= fun _ => terms j rest').run s)
            (p'.bind fun p => p.run (typeable s₀) rest') := by
        cases p' with
        | none =>
          intro _ t ht
          obtain ⟨_, u, hu, ht⟩ := run_bind_eq_ok.1 ht
          exact fails_terms j rest' (hagrees u hu) () t ht
        | some p' =>
          obtain ⟨t, hrun, ht, hw⟩ := hagrees
          rw [run_bind_ok hrun]
          exact ih _ (hlen ▸ hlt) hdrop ht (by simp only [List.length_cons] at hn hlt; omega) rfl
      have hdrop : s₀.tokens.toList.drop (i + 1) = rest := by
        rw [← List.drop_drop, hts]
        rfl
      obtain ⟨htype, hterms⟩ | ⟨o, rest', rfl, hname, ho, hterms⟩ | ⟨htype, hname, hterms⟩ :=
        terms_cons i tok rest <;> rw [hterms]
      · rw [Parse.run_semicolon htype]
        exact completes_conclude tok hr hf h (by omega)
      · rw [Parse.run_call hname ho]
        refine hnext (agrees_call h (token_of_drop hts)) ?_ (by simp)
        rw [← List.drop_drop, hts]
        rfl
      · rw [Parse.run_shift htype hname]
        exact hnext (agrees_shift hr h (by omega)) hdrop (by simp)

end Build

end OnePass
