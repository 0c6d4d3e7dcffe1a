import Mathlib
import OnePass.Proofs.Conclusion

namespace OnePass.Build

variable {s₀ s : Session} {i n : Nat} {ts rest : List Token} {δ : Decl} {type : Ty} {tok : Token}

/-- A session at the start of a statement. -/
def begun (s : Session) : Session := { s with stack := [], expectOperand := true }

/-- The session once the start of a declaration has been read. -/
def declaring (s : Session) (d : Directive) : Session :=
  { s with stack := [d], expectOperand := false }

theorem drop_stars (ts : List Token) :
    ts.drop (ts.takeWhile Token.isStar).length = ts.dropWhile Token.isStar :=
  calc ts.drop (ts.takeWhile Token.isStar).length
    _ = (ts.takeWhile Token.isStar ++ ts.dropWhile Token.isStar).drop
          (ts.takeWhile Token.isStar).length := by rw [List.takeWhile_append_dropWhile]
    _ = ts.dropWhile Token.isStar := List.drop_left

theorem run_pushTerm (d : Directive) (tok : Token) (h : s.expectOperand = true) :
    (pushTerm d tok).run s = .ok () { s with stack := d :: s.stack, expectOperand := false } := by
  simp [pushTerm, pushEntry, EStateM.run_bind, h]

theorem run_declaredType (ts : List Token) :
    match ts with
    | [] => (declaredType ts).run s = .ok ({}, 0) s
    | tok :: rest =>
      if isTyped ts then
        match s.types.resolve tok with
        | none => Fails ((declaredType ts).run s)
        | some base => (declaredType ts).run s = .ok
            (⟨base, (rest.takeWhile Token.isStar).length⟩,
              (rest.takeWhile Token.isStar).length + 1) s
      else (declaredType ts).run s = .ok ({}, 0) s := by
  cases ts with
  | nil => rfl
  | cons tok rest =>
    unfold declaredType
    dsimp only
    split
    · rw [EStateM.run_bind, EStateM.run_get]
      dsimp only
      cases s.types.resolve tok with
      | none => exact fails_error _ _
      | some base => rfl
    · rfl

def nameDeclaration (i : Nat) (ts : List Token) (type : Ty) (n : Nat) : Build Nat := do
  let name := (ts.drop n).headD (← get).endToken
  unless name.type = .identifier do reject name.line (.expected .variableName name)
  if isTyped ts then
    if (← sound type.size) = 0 then reject name.line (.variableWithoutSize name.name type)
  pushTerm ⟨.declaration, (i + n : Nat), { type }⟩ name
  return n + 1

theorem fails_nameDeclaration (h : ∀ name ∈ (ts.drop n).head?, name.type ≠ .identifier) :
    Fails ((nameDeclaration i ts type n).run s) := by
  unfold nameDeclaration
  rw [EStateM.run_bind, EStateM.run_get]
  dsimp only
  rw [if_neg]
  · exact fails_error _ _
  · cases hdrop : ts.drop n with
    | nil => simp [Session.endToken]
    | cons name rest => exact h name (by simp [hdrop])

theorem run_nameDeclaration {name : Token} (i : Nat) (type : Ty) (hdrop : ts.drop n = name :: rest)
    (hname : name.type = .identifier) (htyped : isTyped ts → type.base.isSome) :
    if isTyped ts && type.words = 0 then Fails ((nameDeclaration i ts type n).run (begun s))
    else (nameDeclaration i ts type n).run (begun s) =
      .ok (n + 1) (declaring s ⟨.declaration, (i + n : Nat), { type }⟩) := by
  have hpush := run_pushTerm (s := begun s) ⟨.declaration, (i + n : Nat), { type }⟩ name rfl
  unfold nameDeclaration
  rw [EStateM.run_bind, EStateM.run_get]
  simp only [hdrop, List.headD_cons, hname, if_true]
  cases ht : isTyped ts with
  | false =>
    simp only [Bool.false_and, Bool.false_eq_true, if_false]
    rw [run_bind_ok hpush]
    rfl
  | true =>
    simp only [if_true, Bool.true_and, decide_eq_true_eq]
    rw [Ty.size_eq (htyped ht), run_bind_ok (run_sound _)]
    by_cases hw : type.words = 0
    · rw [if_pos hw, if_pos hw]
      exact fails_error _ _
    · rw [if_neg hw, if_neg hw, run_bind_ok hpush]
      rfl

/-- What is read before a declaration's value: a name with a type that the rules allow. -/
theorem run_openDeclaration (ht : ∀ e ∈ s.types.entries, e.2.isSome) (i : Nat) (ts : List Token) :
    match Parse.readDecl ts with
    | none => Fails ((openDeclaration i ts).run (begun s))
    | some (δ, rest) =>
      match δ.declared s.types with
      | none => Fails ((openDeclaration i ts).run (begun s))
      | some type => ∃ k name, (openDeclaration i ts).run (begun s) =
          .ok (k + 1) (declaring s ⟨.declaration, (i + k : Nat), { type }⟩) ∧
          ts.drop k = name :: rest ∧ name.name = δ.name ∧ name.line = δ.line := by
  have hread := run_declaredType (s := begun s) ts
  have hopen : openDeclaration i ts =
      declaredType ts >>= fun p => nameDeclaration i ts p.1 p.2 := rfl
  rw [hopen]
  unfold Parse.readDecl
  cases ts with
  | nil =>
    rw [run_bind_ok hread]
    exact fails_nameDeclaration (by simp)
  | cons tok rest =>
    dsimp only at hread ⊢
    by_cases htyped : isTyped (tok :: rest)
    · rw [if_pos htyped] at hread ⊢
      have hstars : (tok :: rest).drop ((rest.takeWhile Token.isStar).length + 1) =
          rest.dropWhile Token.isStar := drop_stars rest
      have hresolve : (begun s).types.resolve tok = s.types.resolve tok := rfl
      rw [hresolve] at hread
      -- the type is looked up before the name is read
      cases hbase : s.types.resolve tok with
      | none =>
        rw [hbase] at hread
        split
        · exact hread.bind _
        · rename_i δ rest' heq
          have hδ : δ.declared s.types = none := by
            split at heq
            · simp only [Option.ite_none_right_eq_some, Option.some.injEq, Prod.mk.injEq] at heq
              simp [← heq.2.1, Decl.declared, hbase]
            · simp at heq
          rw [hδ]
          exact hread.bind _
      | some base =>
        rw [hbase] at hread
        rw [run_bind_ok hread]
        dsimp only
        cases hdrop : rest.dropWhile Token.isStar with
        | nil => exact fails_nameDeclaration (by simp [hstars, hdrop])
        | cons name rest' =>
          rw [hdrop] at hstars
          by_cases hname : name.type = .identifier
          · have hrun := run_nameDeclaration (s := s) i
              ⟨base, (rest.takeWhile Token.isStar).length⟩ hstars hname
              fun _ => resolve_isSome ht hbase
            simp only [htyped, Bool.true_and, decide_eq_true_eq] at hrun
            simp only [hname, if_true, Decl.declared, hbase, Option.bind_some]
            split at hrun
            · rename_i hw
              rw [if_pos hw]
              exact hrun
            · rename_i hw
              rw [if_neg hw]
              exact ⟨_, name, hrun, hstars, rfl, rfl⟩
          · simp only [hname, if_false]
            exact fails_nameDeclaration (by simpa [hstars] using hname)
    -- no type: the name comes first, and no size is checked
    · rw [if_neg htyped] at hread ⊢
      rw [run_bind_ok hread]
      dsimp only
      by_cases hname : tok.type = .identifier
      · have hdrop : (tok :: rest).drop 0 = tok :: rest := rfl
        have hrun := run_nameDeclaration (s := s) i {} hdrop hname fun h => absurd h htyped
        rw [if_neg (by simp [htyped])] at hrun
        rw [if_pos hname]
        exact ⟨0, tok, hrun, rfl, rfl, rfl⟩
      · rw [if_neg hname]
        exact fails_nameDeclaration (by simpa using hname)

section

variable {d : Directive}

theorem run_reduce_declaring (hd : d.kind = .declaration) (q : Int) :
    (reduce q).run (declaring s d) = .ok () (declaring s d) := by
  have hnone : splitOperator [d] = none := by
    simp [splitOperator, splitTop, hd, DirectiveKind.isOperator, DirectiveKind.opensGroup]
  unfold reduce
  rw [EStateM.run_bind, EStateM.run_get]
  dsimp only [declaring]
  rw [reduceStack_of_none hnone]
  rfl

theorem run_pushOperator_declaring (hd : d.kind = .declaration) (kind : DirectiveKind) :
    (pushOperator kind i tok).run (declaring s d) =
      .ok () { s with stack := [{ kind, tok := i }, d], expectOperand := true } := by
  unfold pushOperator
  rw [EStateM.run_bind, EStateM.run_get]
  dsimp only
  rw [if_neg (by simp [declaring]), run_bind_ok (run_reduce_declaring hd _)]
  rfl

/-- No token but an assignment may follow a declaration. -/
theorem doomed_shift_declaring (hd : d.kind = .declaration) (hassign : tok.type ≠ .assign)
    {t : Session} (ht : (shift i tok).run (declaring s d) = .ok () t) : Doomed t.stack := by
  have hentry (e : Directive) : Fails ((pushEntry e tok).run (declaring s d)) := fails_error _ _
  have hgroup : splitGroup [d] = none :=
    splitGroup_eq_none.2 (by simp [hd, DirectiveKind.opensGroup])
  -- an operator is pushed, but a declaration may not stand on its left side
  have hoperator {kind : DirectiveKind} (hop : kind.isOperator) (hu : kind.isUnary = false)
      (hne : kind ≠ .assign) (ht : (pushOperator kind i tok).run (declaring s d) = .ok () t) :
      Doomed t.stack := by
    rw [run_pushOperator_declaring hd] at ht
    simp only [EStateM.Result.ok.injEq, true_and] at ht
    rw [← ht]
    exact .here hop hu (.declaration hd hne)
  unfold shift at ht
  split at ht
  · simp at ht
  · simp at ht
  · unfold useLiteral at ht
    split at ht
    · simp at ht
    · exact absurd ht ((hentry _).bind _ () t)
  · unfold useVariable at ht
    rw [EStateM.run_bind, EStateM.run_get] at ht
    dsimp only at ht
    split at ht
    · simp at ht
    · exact absurd ht ((hentry _).bind _ () t)
  · exact absurd ht (hentry _ () t)
  · unfold closeGroup at ht
    rw [EStateM.run_bind, EStateM.run_get] at ht
    dsimp only [declaring] at ht
    rw [if_neg (by simp)] at ht
    rw [show ({ s with stack := [d], expectOperand := false } : Session) = declaring s d from rfl,
      run_bind_ok (run_reduce_declaring hd 0), EStateM.run_bind, EStateM.run_get] at ht
    dsimp only [declaring] at ht
    rw [hgroup] at ht
    simp at ht
  · unfold nextArgument at ht
    rw [EStateM.run_bind, EStateM.run_get] at ht
    dsimp only [declaring] at ht
    rw [if_neg (by simp)] at ht
    rw [show ({ s with stack := [d], expectOperand := false } : Session) = declaring s d from rfl,
      run_bind_ok (run_reduce_declaring hd 0), EStateM.run_bind, EStateM.run_get] at ht
    dsimp only [declaring] at ht
    rw [hgroup] at ht
    simp at ht
  · contradiction
  · exact hoperator rfl rfl (by simp) ht
  · exact hoperator rfl rfl (by simp) ht
  · exact hoperator rfl rfl (by simp) ht
  · exact absurd ht (hentry _ () t)
  · simp at ht

/-- After a declaration only a value or the end of the statement may follow. -/
theorem fails_declaring (hd : d.kind = .declaration) (hsemi : tok.type ≠ .semicolon)
    (hassign : tok.type ≠ .assign) : Fails ((terms i (tok :: rest)).run (declaring s d)) := by
  intro _ t h
  obtain ⟨htype, -⟩ | ⟨o, rest', rfl, -, -, hterms⟩ | ⟨-, -, hterms⟩ := terms_cons i tok rest
  · exact hsemi htype
  · rw [hterms] at h
    obtain ⟨_, u, hu, -⟩ := run_bind_eq_ok.1 h
    exact fails_error _ _ () u hu
  · rw [hterms] at h
    obtain ⟨_, u, hu, h⟩ := run_bind_eq_ok.1 h
    exact fails_terms _ _ (doomed_shift_declaring hd hassign hu) () t h

end

/-- A left side stays as it is: there is no second assignment. -/
theorem target_shift {ok : Expr → Bool} {p p' : Parse} {target : Target}
    (hp : p.target = some target) (h : p.shift ok tok = some p') : p'.target = some target := by
  have hite {c : Bool} {q : Parse} (h : (if c then some q else none) = some p')
      (hq : q.target = some target) : p'.target = some target := by
    simp only [Option.ite_none_right_eq_some, Option.some.injEq] at h
    rw [← h.2, hq]
  have hmap {α : Type} {o : Option α} {f : α → Parse} (h : o.map f = some p')
      (hf : ∀ a, (f a).target = some target) : p'.target = some target := by
    obtain ⟨a, -, rfl⟩ := Option.map_eq_some_iff.1 h
    exact hf a
  have hbinary (op : Alu) (h : p.binary ok op = some p') : p'.target = some target := by
    simp only [Parse.binary, Option.bind_eq_bind, Option.bind_eq_some_iff, Option.pure_def,
      Option.some.injEq] at h
    obtain ⟨_, _, _, _, rfl⟩ := h
    exact hp
  -- one case for each type of token that may be shifted
  unfold Parse.shift at h
  split at h
  · exact hite h hp
  · exact hite h hp
  · exact hite h hp
  · unfold Parse.close at h
    split at h
    · simp at h
    · exact hmap h fun _ => hp
    · split at h
      · rw [← Option.some.inj h, hp]
      · exact hmap h fun _ => hp
  · unfold Parse.comma at h
    split at h
    · exact hmap h fun _ => hp
    · simp at h
  · simp [Parse.assign, hp] at h
  · exact hbinary .add h
  · exact hbinary .sub h
  · split at h
    · exact hite h hp
    · exact hbinary .mul h
  · exact hite h hp
  · simp at h

/-- With a declaration on its left side, a statement declares a variable with a value. -/
theorem run_decl {ok : Expr → Bool} {p : Parse} {stmt : Stmt} (hp : p.target = some (.decl δ))
    (h : p.run ok ts = some stmt) : ∃ e, stmt = .var δ (some e) := by
  induction hlen : ts.length using Nat.strong_induction_on generalizing ts p with
  | _ k ih =>
    cases ts with
    | nil => simp [Parse.run] at h
    | cons tok rest =>
      by_cases hsemi : tok.type = .semicolon
      · rw [Parse.run_semicolon hsemi] at h
        unfold Parse.finish at h
        split at h
        · simp at h
        · rw [hp] at h
          obtain ⟨e, -, rfl⟩ := Option.map_eq_some_iff.1 h
          exact ⟨e, rfl⟩
      by_cases hend : tok.type = .identifier → EndsName rest
      · rw [Parse.run_shift hsemi hend] at h
        obtain ⟨p', hshift, h⟩ := Option.bind_eq_some_iff.1 h
        exact ih _ (by simp [← hlen]) (target_shift hp hshift) h rfl
      -- the name of a call is read with its parenthesis
      · simp only [EndsName, Classical.not_imp, not_forall, not_not] at hend
        obtain ⟨hname, o, ho, hparen⟩ := hend
        obtain ⟨rest', rfl⟩ := List.head?_eq_some_iff.1 ho
        rw [Parse.run_call hname hparen] at h
        obtain ⟨p', hgroup, h⟩ := Option.bind_eq_some_iff.1 h
        refine ih _ (by simp [← hlen]) ?_ h rfl
        simp only [Parse.openGroup, Option.ite_none_right_eq_some, Option.some.injEq] at hgroup
        rw [← hgroup.2, hp]

theorem completes_of_undeclared {result : EStateM.Result Stop Session Unit} {stmt : Option Stmt}
    (hδ : δ.declared s.types = none) (hstmt : ∀ t ∈ stmt, ∃ value, t = .var δ value)
    (h : Fails result) : Completes s result stmt := by
  cases stmt with
  | none => exact h
  | some t =>
    obtain ⟨value, rfl⟩ := hstmt t rfl
    unfold Completes Compiles
    cases value <;> simpa [Stmt.frame, hδ] using h

/-- What follows the start of a declaration: the end of the statement, or a value. -/
def parseValue (ok : Expr → Bool) (δ : Decl) : List Token → Option Stmt
  | [] => none
  | t :: rest =>
    if t.type = .semicolon then some (.var δ none)
    else if t.type = .assign then Parse.run ok { target := some (.decl δ) } rest
    else none

theorem parse_var {ok : Expr → Bool} (hvar : tok.type = .var) :
    Parse.parse ok (tok :: rest) =
      (Parse.readDecl rest).bind fun p => parseValue ok p.1 p.2 := by
  rw [Parse.parse, if_pos hvar]
  cases Parse.readDecl rest with
  | none => rfl
  | some p =>
    obtain ⟨δ, rest'⟩ := p
    cases rest' <;> rfl

theorem parseValue_decl {ok : Expr → Bool} {stmt : Stmt} (h : parseValue ok δ ts = some stmt) :
    ∃ value, stmt = .var δ value := by
  unfold parseValue at h
  split at h
  · simp at h
  · split at h
    · exact ⟨none, (Option.some.inj h).symm⟩
    · split at h
      · obtain ⟨e, rfl⟩ := run_decl rfl h
        exact ⟨some e, rfl⟩
      · simp at h

theorem completes_declaring {d : Directive} (hr : Ready n s) (hf : s.frame.Tidy)
    (hts : s.tokens.toList.drop i = ts) (hn : ts.length + 1 ≤ n)
    (h : Tracks s [.decl δ] [d] false (declaring s d)) :
    Completes s ((terms i ts).run (declaring s d)) (parseValue (typeable s) δ ts) := by
  have hd : d.kind = .declaration := (List.forall₂_cons.1 h.shows).1.1
  cases ts with
  | nil =>
    rw [terms, EStateM.run_bind, EStateM.run_get]
    exact fails_error _ _
  | cons tok rest =>
    rw [parseValue]
    by_cases hsemi : tok.type = .semicolon
    · have hconclude := run_conclude tok (declaring s d)
      rw [if_neg (by simp [declaring])] at hconclude
      have hterms : terms i (tok :: rest) = conclude tok := by
        cases rest <;> simp [terms, hsemi]
      rw [if_pos hsemi, hterms, hconclude, run_bind_ok (run_reduce_declaring hd 0),
        settleStack_single rfl (by rw [hd]; rfl)]
      exact compiles_var (s := { declaring s d with stack := [] }) hr hf
        ⟨h.code, h.frame, h.types, h.tokens, h.expect, h.shows⟩
    · rw [if_neg hsemi]
      by_cases hassign : tok.type = .assign
      · have hterms : terms i (tok :: rest) =
            pushOperator .assign i tok >>= fun _ => terms (i + 1) rest := by
          cases rest <;> simp [terms, hassign]
        have hdrop : s.tokens.toList.drop (i + 1) = rest := by
          rw [← List.drop_drop, hts]
          rfl
        rw [if_pos hassign, hterms, run_bind_ok (run_pushOperator_declaring hd _)]
        refine completes_terms hr hf hdrop (p := { target := some (.decl δ) }) ?_ ?_
        · have := tracks_push (x := .operator .assign) (d := { kind := .assign, tok := i }) h rfl
            rfl fun _ => rfl
          exact ⟨this.code, this.frame, this.types, this.tokens, rfl, this.shows⟩
        · simp [Parse.entries, Parse.baseEntries, Parse.regionEntries, Target.entries,
            Entry.weights, Entry.weight] at hn ⊢
          omega
      · rw [if_neg hassign]
        exact fails_declaring hd hsemi hassign

/-- A statement is compiled as it is read. -/
theorem completes_statement (hr : Ready n s) (hf : s.frame.Tidy)
    (hts : s.tokens.toList.drop i = ts) (hn : ts.length ≤ n) :
    Completes s ((statement i ts).run s) (Parse.parse (typeable s) ts) := by
  have hstart : Follows s {} (begun s) :=
    ⟨by simp [begun, Parse.entries, Parse.baseEntries, Parse.regionEntries, Entry.codes], rfl, rfl,
      rfl, rfl, .nil⟩
  have hzero : Entry.weights (Parse.entries {}) = 0 := rfl
  unfold statement
  rw [run_bind_ok (run_setStack []), run_bind_ok (run_setExpectOperand true)]
  change Completes s (EStateM.run _ (begun s)) _
  cases ts with
  | nil => exact completes_terms hr hf hts hstart (by omega)
  | cons tok rest =>
    dsimp only
    by_cases hvar : tok.type = .var
    · have hdrop : s.tokens.toList.drop (i + 1) = rest := by
        rw [← List.drop_drop, hts]
        rfl
      have hopen := run_openDeclaration hr.types (i + 1) rest
      rw [if_pos hvar, parse_var hvar]
      cases hread : Parse.readDecl rest with
      | none =>
        rw [hread] at hopen
        exact hopen.bind _
      | some p =>
        obtain ⟨δ, rest'⟩ := p
        rw [hread] at hopen
        rw [Option.bind_some]
        dsimp only at hopen ⊢
        cases hδ : δ.declared s.types with
        | none =>
          rw [hδ] at hopen
          exact completes_of_undeclared hδ (fun t ht => parseValue_decl ht) (hopen.bind _)
        | some type =>
          rw [hδ] at hopen
          obtain ⟨k, name, hrun, hname, hn', hline⟩ := hopen
          have hat : s.tokens.toList.drop (i + 1 + k) = name :: rest' := by
            rw [← List.drop_drop, hdrop, hname]
          -- the tokens up to the name are taken at once
          have hlater : rest.drop (k + 1) = rest' := by
            rw [← List.drop_drop, hname]
            rfl
          have hlen : rest'.length + 1 ≤ rest.length := by
            have := congrArg List.length hname
            simp only [List.length_drop, List.length_cons] at this
            omega
          have hdecl : Tracks s [.decl δ] [⟨.declaration, (i + 1 + k : Nat), { type }⟩] false
              (declaring s ⟨.declaration, (i + 1 + k : Nat), { type }⟩) := by
            refine ⟨by simp [declaring, Entry.codes, Entry.code],
              by simp [declaring, Entry.top, Entry.held], rfl, rfl, rfl,
              .cons ⟨rfl, hδ, ?_, ?_⟩ .nil⟩ <;> rw [token_of_drop hat]
            exacts [hn', hline]
          rw [run_bind_ok hrun, hlater]
          refine completes_declaring hr hf ?_ (by simp at hn; omega) hdecl
          rw [← Nat.add_assoc, ← List.drop_drop, hat]
          rfl
    · rw [if_neg hvar, Parse.parse, if_neg hvar]
      exact completes_terms hr hf hts hstart (by omega)

end OnePass.Build
