import Mathlib
import OnePass.Proofs.Syntax
import OnePass.Session.Statement

namespace OnePass

def Alu.precedence : Alu → Nat
  | .add | .sub => 2
  | .mul => 3

/-- An operator that waits for its right operand. -/
inductive Pending where
  | deref
  | addressOf
  | binary (op : Alu) (l : Expr)

/-- What is closed by a parenthesis. A call has read some arguments. -/
inductive Group where
  | paren
  | call (f : String) (args : List Expr)

/-- The left side of an assignment or of a declaration with a value. -/
inductive Target where
  | expr (l : Expr)
  | decl (d : Decl)

/-- A statement read in part, innermost first: the operators since the last open group, and each
open group with the operators before it. `top` is missing where an operand is due. -/
structure Parse where
  target : Option Target := none
  outer : List (Group × List Pending) := []
  region : List Pending := []
  top : Option Expr := none

namespace Parse

variable (ok : Expr → Bool)

/-- Builds trees from the pending operators that bind at least as tightly as `q`. Prefix operators
always take their operand. -/
def reduce (q : Nat) : List Pending → Expr → Option (List Pending × Expr)
  | [], e => some ([], e)
  | .deref :: region, e => if ok (.deref e) then reduce q region (.deref e) else none
  | .addressOf :: region, e => if ok (.addressOf e) then reduce q region (.addressOf e) else none
  | .binary op l :: region, e =>
    if op.precedence < q then some (.binary op l :: region, e)
    else if ok (.binary op l e) then reduce q region (.binary op l e)
    else none

/-- The tree of everything since the last open group. -/
def whole (p : Parse) : Option Expr := do
  let (_, e) ← reduce ok 0 p.region (← p.top)
  return e

def operand (p : Parse) (e : Expr) : Option Parse :=
  if p.top.isNone && ok e then some { p with top := some e } else none

def unary (p : Parse) (op : Pending) : Option Parse :=
  if p.top.isNone then some { p with region := op :: p.region } else none

def openGroup (p : Parse) (g : Group) : Option Parse :=
  if p.top.isNone then some { p with outer := (g, p.region) :: p.outer, region := [] } else none

def binary (p : Parse) (op : Alu) : Option Parse := do
  let (region, l) ← reduce ok op.precedence p.region (← p.top)
  return { p with region := .binary op l :: region, top := none }

/-- There is one assignment in a statement, outside of every group. -/
def assign (p : Parse) : Option Parse :=
  match p.target, p.outer with
  | none, [] => (p.whole ok).map fun l => { target := some (.expr l) }
  | _, _ => none

/-- A call with one more argument. -/
def pass (f : String) (args : List Expr) (p : Parse) : Option (List Expr) :=
  (p.whole ok).bind fun e => if ok (.call f (args ++ [e])) then some (args ++ [e]) else none

def comma (p : Parse) : Option Parse :=
  match p.outer with
  | (.call f args, region) :: outer => (p.pass ok f args).map fun args =>
      { p with outer := (.call f args, region) :: outer, region := [], top := none }
  | _ => none

def close (p : Parse) : Option Parse :=
  match p.outer with
  | [] => none
  | (.paren, region) :: outer =>
    (p.whole ok).map fun e => { p with outer, region, top := some e }
  | (.call f args, region) :: outer =>
    if args.isEmpty && p.region.isEmpty && p.top.isNone && ok (.call f []) then
      some { p with outer, region, top := some (.call f []) }
    else (p.pass ok f args).map fun args => { p with outer, region, top := some (.call f args) }

def finish (p : Parse) : Option Stmt :=
  match p.outer with
  | _ :: _ => none
  | [] =>
    match p.target with
    | none =>
      if p.region.isEmpty && p.top.isNone then some .empty else (p.whole ok).map .expr
    | some (.expr l) => (p.whole ok).map (.assign l)
    | some (.decl d) => (p.whole ok).map fun e => .var d (some e)

/-- Reads a token that is neither the semicolon nor the name of a call. -/
def shift (p : Parse) (tok : Token) : Option Parse :=
  match tok.type with
  | .integer => p.operand ok (.literal tok.value)
  | .identifier => p.operand ok (.name tok.name)
  | .lparen => p.openGroup .paren
  | .rparen => p.close ok
  | .comma => p.comma ok
  | .assign => p.assign ok
  | .plus => p.binary ok .add
  | .minus => p.binary ok .sub
  | .star => if p.top.isNone then p.unary .deref else p.binary ok .mul
  | .amp => p.unary .addressOf
  | _ => none

/-- Reads the rest of a statement, up to its semicolon. -/
def run (p : Parse) : List Token → Option Stmt
  | [] => none
  | tok :: rest =>
    if tok.type = .semicolon then p.finish ok
    else
      match rest with
      | paren :: rest' =>
        if tok.type = .identifier ∧ paren.type = .lparen then
          (p.openGroup (.call tok.name [])).bind fun p => run p rest'
        else (p.shift ok tok).bind fun p => run p (paren :: rest')
      | [] => none

section Completeness

variable {ok} {p : Parse} {t : Token} {rest : List Token}

theorem run_semicolon (ht : t.type = .semicolon) : run ok p (t :: rest) = p.finish ok := by
  cases rest <;> simp [run, ht]

theorem run_shift (ht : t.type ≠ .semicolon) (hrest : t.type = .identifier → EndsName rest) :
    run ok p (t :: rest) = (p.shift ok t).bind fun p => run ok p rest := by
  cases rest with
  | nil => cases p.shift ok t <;> simp [run, ht]
  | cons u rest =>
    have hu : ¬(t.type = .identifier ∧ u.type = .lparen) := fun h => hrest h.1 u rfl h.2
    simp [run, ht, hu]

theorem run_call {o : Token} (ht : t.type = .identifier) (ho : o.type = .lparen) :
    run ok p (t :: o :: rest) = (p.openGroup (.call t.name [])).bind fun p => run ok p rest := by
  simp [run, ht, ho]

/-- The test fails no part of a tree that passes it. -/
structure Hereditary (ok : Expr → Bool) : Prop where
  deref : ∀ {e}, ok (.deref e) → ok e
  addressOf : ∀ {e}, ok (.addressOf e) → ok e
  left : ∀ {op l r}, ok (.binary op l r) → ok l
  right : ∀ {op l r}, ok (.binary op l r) → ok r
  args : ∀ {f args e}, ok (.call f (args ++ [e])) → ok (.call f args)
  arg : ∀ {f args e}, ok (.call f (args ++ [e])) → ok e

/-- Nothing pending takes an operand of this level before it is whole. -/
def Settled (ok : Expr → Bool) : Level → List Pending → Prop
  | .sum, region => region = []
  | .product, region => ∀ e, reduce ok 3 region e = some (region, e)
  | _, _ => True

def tightest : Level → Nat
  | .sum => 2
  | _ => 3

/-- Reading the tokens of a tree comes down to the tree, once what follows takes it as its left
side. -/
def Reads (ok : Expr → Bool) (level : Level) (ts : List Token) (e : Expr) : Prop :=
  ∀ (p : Parse) (rest : List Token), p.top = none → EndsName rest → Settled ok level p.region →
    match level with
    | .openCall => ∃ f args last region top, e = .call f (args ++ [last]) ∧
        run ok p (ts ++ rest) = run ok { p with
          outer := (.call f args, p.region) :: p.outer, region, top := some top } rest ∧
        reduce ok 0 region top = some ([], last)
    | level => ∃ region top,
        run ok p (ts ++ rest) = run ok { p with region, top := some top } rest ∧
        ∀ q ≤ tightest level, reduce ok q region top = reduce ok q p.region e

theorem endsName_cons (h : t.type ≠ .lparen) : EndsName (t :: rest) := by
  intro u hu
  simp only [List.head?_cons, Option.mem_def, Option.some.injEq] at hu
  exact hu ▸ h

theorem run_binary {region : List Pending} {top l : Expr} (op : Alu) (ht : t.type ≠ .semicolon)
    (hname : t.type ≠ .identifier) (hs : ∀ p : Parse, p.top ≠ none → p.shift ok t = p.binary ok op)
    (hl : reduce ok op.precedence region top = some (p.region, l)) :
    run ok { p with region, top := some top } (t :: rest) =
      run ok { p with region := .binary op l :: p.region, top := none } rest := by
  rw [run_shift ht fun h => absurd h hname, hs _ (by simp)]
  simp [binary, hl]

theorem reads_iff {level : Level} {ts : List Token} {e : Expr} (h : level ≠ .openCall) :
    Reads ok level ts e ↔ ∀ (p : Parse) (rest : List Token), p.top = none → EndsName rest →
      Settled ok level p.region → ∃ region top,
        run ok p (ts ++ rest) = run ok { p with region, top := some top } rest ∧
        ∀ q ≤ tightest level, reduce ok q region top = reduce ok q p.region e := by
  cases level with
  | openCall => exact absurd rfl h
  | _ => exact Iff.rfl

theorem reads_prefix (op : Pending) {ts : List Token} {e e' : Expr} (h : Reads ok .unary ts e)
    (ht : t.type = .star ∨ t.type = .amp)
    (hs : ∀ p : Parse, p.top = none → p.shift ok t = p.unary op)
    (hop : ∀ q region, reduce ok q (op :: region) e = reduce ok q region e') :
    Reads ok .unary (t :: ts) e' := by
  intro p rest hp hrest _
  obtain ⟨region, top, hrun, hreduce⟩ := h { p with region := op :: p.region } rest hp hrest trivial
  refine ⟨region, top, ?_, fun q hq => ?_⟩
  · rw [List.cons_append, run_shift (by rcases ht with ht | ht <;> simp [ht])
      (by rcases ht with ht | ht <;> simp [ht]), hs p hp]
    simpa [unary, hp] using hrun
  · rw [hreduce q hq, hop]

/-- A binary operator takes what is before it, as far as nothing pending claims it first, and waits
for what follows. -/
theorem reads_binary {op : Alu} {level next : Level} {ts us : List Token} {l r : Expr}
    (hl : Reads ok level ts l) (hr : Reads ok next us r) (hlevel : level ≠ .openCall)
    (hnext : next ≠ .openCall) (hop : op.precedence = tightest level)
    (htight : tightest level ≤ tightest next)
    (hleft : ∀ region, Settled ok level region →
      reduce ok op.precedence region l = some (region, l))
    (hright : ∀ region, Settled ok next (.binary op l :: region)) (he : ok (.binary op l r))
    (ht : t.type = .plus ∨ t.type = .minus ∨ t.type = .star)
    (hs : ∀ p : Parse, p.top ≠ none → p.shift ok t = p.binary ok op) :
    Reads ok level (ts ++ t :: us) (.binary op l r) := by
  have hother : t.type ≠ .semicolon ∧ t.type ≠ .identifier ∧ t.type ≠ .lparen := by
    rcases ht with ht | ht | ht <;> simp [ht]
  rw [reads_iff hlevel] at hl ⊢
  rw [reads_iff hnext] at hr
  intro p rest hp hrest hregion
  obtain ⟨region, top, hrun, hreduce⟩ := hl p (t :: (us ++ rest)) hp (endsName_cons hother.2.2)
    hregion
  obtain ⟨region', top', hrun', hreduce'⟩ := hr
    { p with region := .binary op l :: p.region, top := none } rest rfl hrest (hright p.region)
  refine ⟨region', top', ?_, fun q hq => ?_⟩
  · rw [List.append_assoc, List.cons_append, hrun, run_binary op hother.1 hother.2.1 hs
      ((hreduce _ hop.le).trans (hleft p.region hregion)), hrun']
  · have hnot : ¬op.precedence < q := by omega
    simp [hreduce' q (hq.trans htight), reduce, hnot, he]

theorem reads_sum {op : Alu} {ts us : List Token} {l r : Expr} (hl : Reads ok .sum ts l)
    (hr : Reads ok .product us r) (hop : op.precedence = 2) (he : ok (.binary op l r))
    (ht : t.type = .plus ∨ t.type = .minus)
    (hs : ∀ p : Parse, p.top ≠ none → p.shift ok t = p.binary ok op) :
    Reads ok .sum (ts ++ t :: us) (.binary op l r) := by
  refine reads_binary hl hr (by simp) (by simp) hop (by decide) ?_ ?_ he
    (ht.imp_right .inl) hs
  · rintro region rfl
    rfl
  · intro region e
    simp [reduce, hop]

theorem derives_reads (hok : Hereditary ok) {level : Level} {ts : List Token} {e : Expr}
    (h : Derives level ts e) (he : ok e) : Reads ok level ts e := by
  induction h with
  | literal ht =>
    intro p rest hp _ _
    refine ⟨p.region, _, ?_, fun q _ => rfl⟩
    rw [List.singleton_append, run_shift (by simp [ht]) (by simp [ht])]
    simp [shift, ht, operand, hp, he]
  | name ht =>
    intro p rest hp hrest _
    refine ⟨p.region, _, ?_, fun q _ => rfl⟩
    rw [List.singleton_append, run_shift (by simp [ht]) fun _ => hrest]
    simp [shift, ht, operand, hp, he]
  | @group o c ts e ho h hc ih =>
    intro p rest hp hrest _
    -- inside the parentheses the region starts out empty, so the tree is all of it
    obtain ⟨region, top, hrun, hwhole⟩ := ih he
      { p with outer := (.paren, p.region) :: p.outer, region := [] } (c :: rest) hp
      (endsName_cons (by simp [hc])) rfl
    refine ⟨p.region, e, ?_, fun q _ => rfl⟩
    have hopen : run ok p (o :: ts ++ [c] ++ rest) = run ok
        { p with outer := (.paren, p.region) :: p.outer, region := [] } (ts ++ c :: rest) := by
      simp only [List.cons_append, List.append_assoc, List.nil_append]
      rw [run_shift (by simp [ho]) (by simp [ho])]
      simp [shift, ho, openGroup, hp]
    rw [hopen, hrun, run_shift (by simp [hc]) (by simp [hc])]
    simp [shift, hc, close, whole, hwhole, reduce]
  | callNone hf ho hc =>
    intro p rest hp hrest _
    refine ⟨p.region, _, ?_, fun q _ => rfl⟩
    simp only [List.cons_append, List.nil_append]
    rw [run_call hf ho]
    simp only [openGroup, hp, Option.isNone_none, if_true, Option.bind_some]
    rw [run_shift (by simp [hc]) (by simp [hc])]
    simp [shift, hc, close, he]
  | @call ts c e h hc ih =>
    intro p rest hp hrest _
    obtain ⟨f, args, last, region, top, rfl, hrun, hwhole⟩ := ih he p (c :: rest) hp
      (endsName_cons (by simp [hc])) trivial
    refine ⟨p.region, _, ?_, fun q _ => rfl⟩
    rw [List.append_assoc, List.singleton_append, hrun, run_shift (by simp [hc]) (by simp [hc])]
    simp [shift, hc, close, pass, whole, hwhole, he]
  | @argument f o ts e hf ho h ih =>
    intro p rest hp hrest _
    have hopen : run ok p (f :: o :: ts ++ rest) = run ok
        { p with outer := (.call f.name [], p.region) :: p.outer, region := [] } (ts ++ rest) := by
      simp only [List.cons_append]
      rw [run_call hf ho]
      simp [openGroup, hp]
    obtain ⟨region, top, hrun, hwhole⟩ := ih (hok.arg (show ok (.call f.name ([] ++ [e])) from he))
      { p with outer := (.call f.name [], p.region) :: p.outer, region := [] } rest hp hrest rfl
    exact ⟨f.name, [], e, region, top, rfl, hopen.trans hrun, hwhole 0 (by simp)⟩
  | @nextArgument ts us c f args e h hc hu ih ihu =>
    intro p rest hp hrest _
    obtain ⟨f', args', last, region, top, heq, hrun, hwhole⟩ := ih (hok.args he) p
      (c :: (us ++ rest)) hp (endsName_cons (by simp [hc])) trivial
    -- the arguments read so far are those of the smaller call
    obtain ⟨rfl, rfl⟩ := Expr.call.injEq .. ▸ heq
    have hargs := hok.args he
    obtain ⟨region', top', hrun', hwhole'⟩ := ihu (hok.arg he)
      { p with outer := (.call f (args' ++ [last]), p.region) :: p.outer, region := [] } rest hp
      hrest rfl
    refine ⟨f, args' ++ [last], e, region', top', rfl, ?_, hwhole' 0 (by simp)⟩
    rw [List.append_assoc, List.cons_append, hrun, run_shift (by simp [hc]) (by simp [hc])]
    simpa [shift, hc, comma, pass, whole, hwhole, hargs, hp] using hrun'
  | ofOperand h ih => exact ih he
  | deref ht h ih =>
    refine reads_prefix .deref (ih (hok.deref he)) (.inl ht) ?_ (by simp [reduce, he])
    intro p hp
    simp [shift, ht, hp]
  | addressOf ht h ih =>
    refine reads_prefix .addressOf (ih (hok.addressOf he)) (.inr ht) ?_ (by simp [reduce, he])
    intro p _
    simp [shift, ht]
  | ofUnary h ih =>
    intro p rest hp hrest _
    exact ih he p rest hp hrest trivial
  | mul hl ht hr ihl ihr =>
    refine reads_binary (ihl (hok.left he)) (ihr (hok.right he)) (by simp) (by simp) rfl le_rfl
      (fun _ h => h _) (fun _ => trivial) he (.inr (.inr ht)) ?_
    intro p hp
    simp [shift, ht, hp]
  | ofProduct h ih =>
    intro p rest hp hrest hregion
    obtain ⟨region, top, hrun, hreduce⟩ := ih he p rest hp hrest
      (fun e => by rw [show p.region = [] from hregion]; rfl)
    exact ⟨region, top, hrun, fun q hq => hreduce q (Nat.le_succ_of_le hq)⟩
  | add hl ht hr ihl ihr =>
    exact reads_sum (ihl (hok.left he)) (ihr (hok.right he)) rfl he (.inl ht)
      fun p _ => by simp [shift, ht]
  | sub hl ht hr ihl ihr =>
    exact reads_sum (ihl (hok.left he)) (ihr (hok.right he)) rfl he (.inr ht)
      fun p _ => by simp [shift, ht]

end Completeness

/-- The tokens of the pending operators, and the level of the tree that is read next. -/
inductive Opens : Level → List Token → List Pending → Prop where
  | nil : Opens .sum [] []
  | deref {t : Token} {level : Level} {ts : List Token} {region : List Pending}
      (h : Opens level ts region) (ht : t.type = .star) :
      Opens .unary (ts ++ [t]) (.deref :: region)
  | addressOf {t : Token} {level : Level} {ts : List Token} {region : List Pending}
      (h : Opens level ts region) (ht : t.type = .amp) :
      Opens .unary (ts ++ [t]) (.addressOf :: region)
  | mul {t : Token} {level : Level} {ts us : List Token} {region : List Pending} {l : Expr}
      (h : Opens level ts region) (hlevel : level ≠ .unary) (hl : Derives .product us l)
      (ht : t.type = .star) : Opens .unary (ts ++ us ++ [t]) (.binary .mul l :: region)
  | sum {t : Token} {op : Alu} {us : List Token} {l : Expr} (hop : op.precedence = 2)
      (hl : ∀ {vs : List Token} {r : Expr}, Derives .product vs r →
        Derives .sum (us ++ t :: vs) (.binary op l r)) : Opens .product (us ++ [t]) [.binary op l]

/-- The tokens before the innermost open group's expression. -/
inductive Encloses : List Token → List (Group × List Pending) → Prop where
  | nil : Encloses [] []
  | paren {t : Token} {level : Level} {ts us : List Token} {outer : List (Group × List Pending)}
      {region : List Pending} (h : Encloses ts outer) (hr : Opens level us region)
      (ht : t.type = .lparen) : Encloses (ts ++ us ++ [t]) ((.paren, region) :: outer)
  | call {f o : Token} {level : Level} {ts us : List Token}
      {outer : List (Group × List Pending)} {region : List Pending} (h : Encloses ts outer)
      (hr : Opens level us region) (hf : f.type = .identifier) (ho : o.type = .lparen) :
      Encloses (ts ++ us ++ [f, o]) ((.call f.name [], region) :: outer)
  | argument {t : Token} {level : Level} {ts us vs : List Token}
      {outer : List (Group × List Pending)} {region : List Pending} {f : String}
      {args : List Expr} (h : Encloses ts outer)
      (hr : Opens level us region) (ha : Derives .openCall vs (.call f args))
      (ht : t.type = .comma) :
      Encloses (ts ++ us ++ vs ++ [t]) ((.call f args, region) :: outer)

inductive Targets (ok : Expr → Bool) : List Token → Option Target → Prop where
  | none : Targets ok [] none
  | expr {t : Token} {ts : List Token} {l : Expr} (hl : Derives .sum ts l) (hok : ok l)
      (ht : t.type = .assign) : Targets ok (ts ++ [t]) (some (.expr l))
  | decl {v t : Token} {ts : List Token} {d : Decl} (hv : v.type = .var) (hd : DerivesDecl ts d)
      (ht : t.type = .assign) : Targets ok (v :: ts ++ [t]) (some (.decl d))

inductive Tops (ok : Expr → Bool) : List Token → Option Expr → Prop where
  | none : Tops ok [] none
  | some {ts : List Token} {e : Expr} (h : Derives .operand ts e) (hok : ok e) :
      Tops ok ts (some e)

/-- The tokens that a statement read in part is made of. -/
inductive Consumed (ok : Expr → Bool) : List Token → Parse → Prop where
  | mk {level : Level} {ts us vs ws : List Token} {target : Option Target}
      {outer : List (Group × List Pending)} {region : List Pending} {top : Option Expr}
      (htarget : Targets ok ts target) (houter : Encloses us outer)
      (hregion : Opens level vs region) (htop : Tops ok ws top) :
      Consumed ok (ts ++ us ++ vs ++ ws) ⟨target, outer, region, top⟩

variable {ok}

theorem Opens.ofUnary {level : Level} {ts us : List Token} {region : List Pending} {e : Expr}
    (h : Opens level ts region) (he : Derives .unary us e) : Derives level us e := by
  cases h with
  | nil => exact .ofProduct (.ofUnary he)
  | sum => exact .ofUnary he
  | _ => exact he

theorem Opens.ofProduct {level : Level} {ts us : List Token} {region : List Pending} {e : Expr}
    (h : Opens level ts region) (hlevel : level ≠ .unary) (he : Derives .product us e) :
    Derives level us e := by
  cases h with
  | nil => exact .ofProduct he
  | sum => exact he
  | _ => exact absurd rfl hlevel

/-- A tree that no operator of a sum may break up is everything since the last open group. -/
theorem reduce_sum {level : Level} {ts us : List Token} {region region' : List Pending}
    {e e' : Expr} {q : Nat} (hq : q ≤ 2) (h : Opens level ts region) (he : Derives level us e)
    (hr : reduce ok q region e = some (region', e')) :
    region' = [] ∧ Derives .sum (ts ++ us) e' := by
  induction h generalizing us e with
  | nil =>
    simp only [reduce, Option.some.injEq, Prod.mk.injEq] at hr
    exact ⟨hr.1.symm, hr.2 ▸ he⟩
  | deref h ht ih =>
    simp only [reduce, Option.ite_none_right_eq_some] at hr
    simpa using ih (h.ofUnary (.deref ht he)) hr.2
  | addressOf h ht ih =>
    simp only [reduce, Option.ite_none_right_eq_some] at hr
    simpa using ih (h.ofUnary (.addressOf ht he)) hr.2
  | mul h hlevel hl ht ih =>
    have hnot : ¬Alu.mul.precedence < q := by simp [Alu.precedence]; omega
    simp only [reduce, if_neg hnot, Option.ite_none_right_eq_some] at hr
    simpa using ih (h.ofProduct hlevel (.mul hl ht he)) hr.2
  | @sum t op us' l hop hl =>
    have hnot : ¬op.precedence < q := by omega
    simp only [reduce, if_neg hnot, Option.ite_none_right_eq_some, Option.some.injEq,
      Prod.mk.injEq] at hr
    obtain ⟨_, rfl, rfl⟩ := hr
    exact ⟨rfl, by simpa using hl he⟩

/-- A tree before a product's operator is a product of its own, with the rest still pending. -/
theorem reduce_product {level : Level} {ts us : List Token} {region region' : List Pending}
    {e e' : Expr} (h : Opens level ts region)
    (he : Derives (if level = .unary then .unary else .product) us e)
    (hr : reduce ok 3 region e = some (region', e')) :
    ∃ level' ts' us', ts ++ us = ts' ++ us' ∧ level' ≠ .unary ∧ Opens level' ts' region' ∧
      Derives .product us' e' := by
  -- a tree under a prefix operator counts as a unary one, whatever the level around it
  have hunary {level : Level} {us : List Token} {e : Expr} (he : Derives .unary us e) :
      Derives (if level = .unary then .unary else .product) us e := by
    split
    · exact he
    · exact .ofUnary he
  induction h generalizing us e with
  | nil =>
    simp only [reduce, Option.some.injEq, Prod.mk.injEq] at hr
    obtain ⟨rfl, rfl⟩ := hr
    exact ⟨_, _, us, rfl, by simp, .nil, he⟩
  | deref h ht ih =>
    simp only [reduce, Option.ite_none_right_eq_some] at hr
    simpa using ih (hunary (.deref ht he)) hr.2
  | addressOf h ht ih =>
    simp only [reduce, Option.ite_none_right_eq_some] at hr
    simpa using ih (hunary (.addressOf ht he)) hr.2
  | mul h hlevel hl ht ih =>
    simp only [reduce, if_neg (show ¬Alu.mul.precedence < 3 by decide),
      Option.ite_none_right_eq_some] at hr
    rw [if_neg hlevel] at ih
    simpa using ih (.mul hl ht he) hr.2
  | @sum t op us' l hop hl =>
    simp only [reduce, if_pos (show op.precedence < 3 by omega), Option.some.injEq,
      Prod.mk.injEq] at hr
    obtain ⟨rfl, rfl⟩ := hr
    exact ⟨_, _, us, rfl, by simp, .sum hop hl, he⟩

theorem reduce_ok {q : Nat} {region region' : List Pending} {e e' : Expr} (he : ok e)
    (hr : reduce ok q region e = some (region', e')) : ok e' := by
  fun_induction reduce ok q region e <;> simp_all

theorem whole_derives {level : Level} {ts us : List Token} {p : Parse} {e : Expr}
    (hregion : Opens level ts p.region) (htop : Tops ok us p.top) (h : p.whole ok = some e) :
    Derives .sum (ts ++ us) e ∧ ok e := by
  obtain ⟨target, outer, region, top⟩ := p
  cases htop with
  | none => simp [whole] at h
  | some hd hok =>
    simp only [whole, Option.bind_eq_bind, Option.bind_some, Option.bind_eq_some_iff] at h
    obtain ⟨⟨region', e'⟩, hr, heq⟩ := h
    obtain rfl : e' = e := by simpa using heq
    exact ⟨(reduce_sum (by omega) hregion (hregion.ofUnary (.ofOperand hd)) hr).2,
      reduce_ok hok hr⟩

section Steps

variable {pre ts : List Token} {p p' : Parse} {t : Token}

theorem Consumed.operand {e : Expr} (h : Consumed ok pre p) (hd : Derives .operand ts e)
    (hs : p.operand ok e = some p') : Consumed ok (pre ++ ts) p' := by
  obtain ⟨htarget, houter, hregion, htop⟩ := h
  cases htop with
  | some => simp [Parse.operand] at hs
  | none =>
    simp only [Parse.operand, Option.isNone_none, Bool.true_and,
      Option.ite_none_right_eq_some, Option.some.injEq] at hs
    obtain ⟨hok, rfl⟩ := hs
    simpa using Consumed.mk htarget houter hregion (.some hd hok)

theorem Consumed.unary {op : Pending} (h : Consumed ok pre p)
    (hop : ∀ {level us region}, Opens level us region → Opens .unary (us ++ [t]) (op :: region))
    (hs : p.unary op = some p') : Consumed ok (pre ++ [t]) p' := by
  obtain ⟨htarget, houter, hregion, htop⟩ := h
  cases htop with
  | some => simp [Parse.unary] at hs
  | none =>
    simp only [Parse.unary, Option.isNone_none, if_true, Option.some.injEq] at hs
    subst hs
    simpa using Consumed.mk htarget houter (hop hregion) .none

theorem Consumed.openGroup {g : Group} (h : Consumed ok pre p)
    (hg : ∀ {level us vs outer region}, Encloses us outer → Opens level vs region →
      Encloses (us ++ vs ++ ts) ((g, region) :: outer))
    (hs : p.openGroup g = some p') : Consumed ok (pre ++ ts) p' := by
  obtain ⟨htarget, houter, hregion, htop⟩ := h
  cases htop with
  | some => simp [Parse.openGroup] at hs
  | none =>
    simp only [Parse.openGroup, Option.isNone_none, if_true, Option.some.injEq] at hs
    subst hs
    simpa using Consumed.mk htarget (hg houter hregion) .nil .none

theorem Consumed.sum {op : Alu} (h : Consumed ok pre p) (hop : op.precedence = 2)
    (hd : ∀ {us vs : List Token} {l r : Expr}, Derives .sum us l → Derives .product vs r →
      Derives .sum (us ++ t :: vs) (.binary op l r))
    (hs : p.binary ok op = some p') : Consumed ok (pre ++ [t]) p' := by
  obtain ⟨htarget, houter, hregion, htop⟩ := h
  cases htop with
  | none => simp [Parse.binary] at hs
  | some he hok =>
    simp only [Parse.binary, Option.bind_eq_bind, Option.bind_some, hop,
      Option.bind_eq_some_iff] at hs
    obtain ⟨⟨region, l⟩, hr, heq⟩ := hs
    obtain ⟨rfl, hl⟩ := reduce_sum le_rfl hregion (hregion.ofUnary (.ofOperand he)) hr
    obtain rfl : _ = p' := by simpa using heq
    simpa using Consumed.mk htarget houter (.sum hop (hd hl)) .none

theorem Consumed.mul (h : Consumed ok pre p) (ht : t.type = .star)
    (hs : p.binary ok .mul = some p') : Consumed ok (pre ++ [t]) p' := by
  obtain ⟨htarget, houter, hregion, htop⟩ := h
  cases htop with
  | none => simp [Parse.binary] at hs
  | some he hok =>
    simp only [Parse.binary, Option.bind_eq_bind, Option.bind_some, Option.bind_eq_some_iff] at hs
    obtain ⟨⟨region, l⟩, hr, heq⟩ := hs
    have hunary := Derives.ofOperand he
    obtain ⟨level, vs, us, hts, hlevel, hopens, hl⟩ := reduce_product hregion
      (by split; exacts [hunary, .ofUnary hunary]) hr
    obtain rfl : _ = p' := by simpa using heq
    have := Consumed.mk htarget houter (hopens.mul hlevel hl ht) .none
    simpa [← hts] using this

theorem Consumed.assign (h : Consumed ok pre p) (ht : t.type = .assign)
    (hs : p.assign ok = some p') : Consumed ok (pre ++ [t]) p' := by
  obtain ⟨htarget, houter, hregion, htop⟩ := h
  cases htarget <;> cases houter <;>
    simp only [Parse.assign, Option.map_eq_some_iff, reduceCtorEq] at hs
  obtain ⟨l, hl, rfl⟩ := hs
  obtain ⟨hl, hok⟩ := whole_derives hregion htop hl
  simpa using Consumed.mk (.expr hl hok ht) .nil .nil .none

theorem Encloses.openCall {us : List Token} {outer : List (Group × List Pending)}
    {region : List Pending} {f : String} {args : List Expr}
    (h : Encloses us ((.call f args, region) :: outer)) :
    ∃ level ts vs ws, us = ts ++ vs ++ ws ∧ Encloses ts outer ∧ Opens level vs region ∧
      ∀ {xs e}, Derives .sum xs e → Derives .openCall (ws ++ xs) (.call f (args ++ [e])) := by
  cases h with
  | call h hr hf ho => exact ⟨_, _, _, _, rfl, h, hr, fun he => .argument hf ho he⟩
  | argument h hr ha ht =>
    refine ⟨_, _, _, _, List.append_assoc .., h, hr, fun he => ?_⟩
    simpa using Derives.nextArgument ha ht he

theorem pass_eq_some {f : String} {args args' : List Expr} :
    p.pass ok f args = some args' ↔
      ∃ e, p.whole ok = some e ∧ ok (.call f (args ++ [e])) ∧ args' = args ++ [e] := by
  simp only [pass, Option.bind_eq_some_iff, Option.ite_none_right_eq_some, Option.some.injEq]
  grind

theorem Consumed.comma (h : Consumed ok pre p) (ht : t.type = .comma)
    (hs : p.comma ok = some p') : Consumed ok (pre ++ [t]) p' := by
  obtain ⟨htarget, houter, hregion, htop⟩ := h
  simp only [Parse.comma] at hs
  split at hs
  · obtain ⟨args', hpass, rfl⟩ := Option.map_eq_some_iff.1 hs
    obtain ⟨e, he, -, rfl⟩ := pass_eq_some.1 hpass
    obtain ⟨level, ts, vs, ws, rfl, h, hr, hcall⟩ := houter.openCall
    have hargs := hcall (whole_derives hregion htop he).1
    simpa using Consumed.mk htarget (.argument h hr hargs ht) .nil .none
  · simp at hs

theorem Consumed.close (h : Consumed ok pre p) (ht : t.type = .rparen)
    (hs : p.close ok = some p') : Consumed ok (pre ++ [t]) p' := by
  obtain ⟨htarget, houter, hregion, htop⟩ := h
  simp only [Parse.close] at hs
  split at hs
  · simp at hs
  · obtain ⟨e, he, rfl⟩ := Option.map_eq_some_iff.1 hs
    cases houter with
    | paren h hr ho =>
      obtain ⟨he, hok⟩ := whole_derives hregion htop he
      simpa using Consumed.mk htarget h hr (.some (.group ho he ht) hok)
  · split at hs
    · rename_i hempty
      simp only [Bool.and_eq_true, List.isEmpty_iff, Option.isNone_iff_eq_none] at hempty
      obtain ⟨⟨⟨rfl, rfl⟩, rfl⟩, hok⟩ := hempty
      obtain rfl : _ = p' := by simpa using hs
      cases hregion
      cases htop
      cases houter with
      | call h hr hf ho => simpa using Consumed.mk htarget h hr (.some (.callNone hf ho ht) hok)
      | argument h hr ha _ =>
        -- after a comma there are arguments, so this was no empty pair
        obtain ⟨_, _, _, heq⟩ := ha.openCall_args
        simp at heq
    · obtain ⟨args', hpass, rfl⟩ := Option.map_eq_some_iff.1 hs
      obtain ⟨e, he, hok, rfl⟩ := pass_eq_some.1 hpass
      obtain ⟨level, ts, vs, ws, rfl, h, hr, hcall⟩ := houter.openCall
      have hargs := hcall (whole_derives hregion htop he).1
      simpa using Consumed.mk htarget h hr (.some (.call hargs ht) hok)

theorem Consumed.shift (h : Consumed ok pre p) (hs : p.shift ok t = some p') :
    Consumed ok (pre ++ [t]) p' := by
  unfold Parse.shift at hs
  split at hs
  · exact h.operand (.literal ‹_›) hs
  · exact h.operand (.name ‹_›) hs
  · exact h.openGroup (fun ho hr => ho.paren hr ‹_›) hs
  · exact h.close ‹_› hs
  · exact h.comma ‹_› hs
  · exact h.assign ‹_› hs
  · exact h.sum rfl (fun hl hr => .add hl ‹_› hr) hs
  · exact h.sum rfl (fun hl hr => .sub hl ‹_› hr) hs
  · split at hs
    · exact h.unary (fun hr => hr.deref ‹_›) hs
    · exact h.mul ‹_› hs
  · exact h.unary (fun hr => hr.addressOf ‹_›) hs
  · simp at hs

def passes (ok : Expr → Bool) : Stmt → Bool
  | .empty => true
  | .expr e => ok e
  | .assign l r => ok l && ok r
  | .var _ value => value.all ok

theorem Consumed.finish {stmt : Stmt} (h : Consumed ok pre p) (ht : t.type = .semicolon)
    (hs : p.finish ok = some stmt) : DerivesStmt (pre ++ [t]) stmt ∧ passes ok stmt := by
  obtain ⟨htarget, houter, hregion, htop⟩ := h
  cases houter with
  | nil =>
    cases htarget with
    | none =>
      simp only [Parse.finish] at hs
      split at hs
      · rename_i hempty
        simp only [Bool.and_eq_true, List.isEmpty_iff, Option.isNone_iff_eq_none] at hempty
        obtain ⟨rfl, rfl⟩ := hempty
        obtain rfl : _ = stmt := by simpa using hs
        cases hregion
        cases htop
        exact ⟨.empty ht, rfl⟩
      · obtain ⟨e, he, rfl⟩ := Option.map_eq_some_iff.1 hs
        obtain ⟨he, hok⟩ := whole_derives hregion htop he
        exact ⟨by simpa using DerivesStmt.expr he ht, hok⟩
    | expr hl hok ha =>
      obtain ⟨e, he, rfl⟩ := Option.map_eq_some_iff.1 hs
      obtain ⟨he, hok'⟩ := whole_derives hregion htop he
      exact ⟨by simpa using DerivesStmt.assign hl ha he ht, by simp [passes, hok, hok']⟩
    | decl hv hd ha =>
      obtain ⟨e, he, rfl⟩ := Option.map_eq_some_iff.1 hs
      obtain ⟨he, hok⟩ := whole_derives hregion htop he
      exact ⟨by simpa using DerivesStmt.varValue hv hd ha he ht, hok⟩
  | _ => simp [Parse.finish] at hs

/-- What is read derives from the grammar. -/
theorem run_derives (ts : List Token) {semi : Token} {post : List Token} {stmt : Stmt}
    (h : Consumed ok pre p) (hts : ∀ t ∈ ts, t.type ≠ .semicolon) (hsemi : semi.type = .semicolon)
    (hr : run ok p (ts ++ semi :: post) = some stmt) :
    DerivesStmt (pre ++ ts ++ [semi]) stmt ∧ passes ok stmt := by
  induction hn : ts.length using Nat.strong_induction_on generalizing pre p ts with
  | _ n ih =>
  cases ts with
  | nil => simpa using h.finish hsemi (by rwa [List.nil_append, run_semicolon hsemi] at hr)
  | cons t ts =>
    have ht : t.type ≠ .semicolon := hts t (by simp)
    have hrest : ∀ u ∈ ts, u.type ≠ .semicolon := fun u hu => hts u (by simp [hu])
    by_cases hend : t.type = .identifier → EndsName (ts ++ semi :: post)
    · rw [List.cons_append, run_shift ht hend, Option.bind_eq_some_iff] at hr
      obtain ⟨p', hs, hr⟩ := hr
      simpa using ih ts.length (by simp [← hn]) ts (h.shift hs) hrest hr rfl
    · -- a name before a parenthesis is read together with it
      simp only [EndsName, Classical.not_imp, not_forall, not_not] at hend
      obtain ⟨hname, o, ho, hparen⟩ := hend
      cases ts with
      | nil =>
        obtain rfl : semi = o := by simpa using ho
        simp [hparen] at hsemi
      | cons u ts =>
        obtain rfl : u = o := by simpa using ho
        rw [List.cons_append, List.cons_append, run_call hname hparen,
          Option.bind_eq_some_iff] at hr
        obtain ⟨p', hs, hr⟩ := hr
        have hcall := h.openGroup (fun ho hr => ho.call hr hname hparen) hs
        simpa using ih ts.length (by simp [← hn]) ts hcall (fun v hv => hrest v (by simp [hv]))
          hr rfl

end Steps

section Statements

def readDecl : List Token → Option (Decl × List Token)
  | [] => none
  | tok :: rest =>
    if Build.isTyped (tok :: rest) then
      match rest.dropWhile Token.isStar with
      | name :: rest' =>
        if name.type = .identifier then
          some (⟨name.name, name.line, some (tok, (rest.takeWhile Token.isStar).length)⟩, rest')
        else none
      | [] => none
    else if tok.type = .identifier then some (⟨tok.name, tok.line, none⟩, rest)
    else none

/-- Reads a statement; only its first token may be `var`. -/
def parse (ok : Expr → Bool) : List Token → Option Stmt
  | [] => none
  | tok :: rest =>
    if tok.type = .var then
      (readDecl rest).bind fun (d, rest') =>
        match rest' with
        | [] => none
        | t :: rest'' =>
          if t.type = .semicolon then some (.var d none)
          else if t.type = .assign then run ok { target := some (.decl d) } rest''
          else none
    else run ok {} (tok :: rest)

variable {ts rest : List Token} {d : Decl}

theorem isTyped_type {t : Token} (h : Build.isTyped (t :: ts)) :
    t.type ∈ [.u16, .i16, .void, .identifier] := by
  cases htype : t.type <;> simp_all [Build.isTyped]

theorem readDecl_derives (h : readDecl ts = some (d, rest)) :
    ∃ us, ts = us ++ rest ∧ DerivesDecl us d := by
  unfold readDecl at h
  split at h
  · simp at h
  · rename_i tok ts
    split at h
    · rename_i htyped
      split at h
      · rename_i name rest' hdrop
        simp only [Option.ite_none_right_eq_some, Option.some.injEq, Prod.mk.injEq] at h
        obtain ⟨hname, rfl, rfl⟩ := h
        refine ⟨tok :: ts.takeWhile Token.isStar ++ [name], ?_, ?_⟩
        · rw [List.append_assoc, List.singleton_append, ← hdrop, List.cons_append,
            List.takeWhile_append_dropWhile]
        · refine .typed (isTyped_type htyped) (fun t ht => ?_) hname
          simpa [Token.isStar] using List.mem_takeWhile_imp ht
      · simp at h
    · simp only [Option.ite_none_right_eq_some, Option.some.injEq, Prod.mk.injEq] at h
      obtain ⟨hname, rfl, rfl⟩ := h
      exact ⟨[tok], rfl, .untyped hname⟩

theorem readDecl_append {t : Token} (h : DerivesDecl ts d)
    (ht : t.type = .semicolon ∨ t.type = .assign) :
    readDecl (ts ++ t :: rest) = some (d, t :: rest) := by
  cases h with
  | @untyped name hn =>
    have : Build.isTyped (name :: t :: rest) = false := by
      rcases ht with ht | ht <;> simp [Build.isTyped, hn, ht]
    simp [readDecl, this, hn]
  | @typed type name stars htype hs hn =>
    have hstars : ∀ u ∈ stars, u.isStar := fun u hu => by simp [Token.isStar, hs u hu]
    have hname : name.isStar = false := by simp [Token.isStar, hn]
    have htyped : Build.isTyped (type :: (stars ++ name :: t :: rest)) := by
      cases stars with
      | nil => grind [Build.isTyped]
      | cons u stars =>
        have := hs u (by simp)
        grind [Build.isTyped]
    have htake : (stars ++ name :: t :: rest).takeWhile Token.isStar = stars := by
      rw [List.takeWhile_append_of_pos hstars, List.takeWhile_cons, hname]
      simp
    have hdrop : (stars ++ name :: t :: rest).dropWhile Token.isStar = name :: t :: rest := by
      rw [List.dropWhile_append_of_pos hstars, List.dropWhile_cons, hname]
      simp
    simp [readDecl, htyped, htake, hdrop, hn]

variable {ok : Expr → Bool} {semi : Token} {post : List Token} {stmt : Stmt}

theorem parse_derives (hts : ∀ t ∈ ts, t.type ≠ .semicolon) (hsemi : semi.type = .semicolon)
    (h : parse ok (ts ++ semi :: post) = some stmt) :
    DerivesStmt (ts ++ [semi]) stmt ∧ passes ok stmt := by
  have hstart : Consumed ok [] {} := .mk .none .nil .nil .none
  cases ts with
  | nil =>
    simp only [List.nil_append, parse, if_neg (show semi.type ≠ .var by simp [hsemi])] at h
    exact run_derives [] hstart (by simp) hsemi h
  | cons v ts =>
    simp only [List.cons_append, parse] at h
    split at h
    · rename_i hv
      obtain ⟨⟨d, rest⟩, hread, h⟩ := Option.bind_eq_some_iff.1 h
      obtain ⟨us, heq, hd⟩ := readDecl_derives hread
      -- the declaration ends before the semicolon
      obtain ⟨vs, rfl, rfl⟩ : ∃ vs, ts = us ++ vs ∧ rest = vs ++ semi :: post := by
        rcases List.append_eq_append_iff.1 heq with ⟨vs, rfl, hrest⟩ | ⟨vs, rfl, rfl⟩
        · cases vs with
          | nil => exact ⟨[], by simp, by simpa using hrest.symm⟩
          | cons u vs =>
            obtain rfl : semi = u := by simpa using (List.cons.inj hrest).1
            exact absurd hsemi (hd.ne_semicolon semi (by simp))
        · exact ⟨vs, rfl, rfl⟩
      cases vs with
      | nil =>
        simp only [List.nil_append, if_pos hsemi, Option.some.injEq] at h
        subst h
        exact ⟨by simpa using DerivesStmt.var hv hd hsemi, rfl⟩
      | cons t vs =>
        simp only [List.cons_append, if_neg (hts t (by simp)),
          Option.ite_none_right_eq_some] at h
        simpa using run_derives vs (Consumed.mk (.decl hv hd h.1) .nil .nil .none)
          (fun u hu => hts u (by simp [hu])) hsemi h.2
    · exact run_derives _ hstart hts hsemi h

theorem run_last (hok : Hereditary ok) {e : Expr} {target : Option Target}
    (h : Derives .sum ts e) (he : ok e) (hsemi : semi.type = .semicolon) :
    run ok { target } (ts ++ semi :: post) = some (match target with
      | none => .expr e
      | some (.expr l) => .assign l e
      | some (.decl d) => .var d (some e)) := by
  obtain ⟨region, top, hrun, hreduce⟩ := derives_reads hok h he { target } (semi :: post) rfl
    (endsName_cons (by simp [hsemi])) rfl
  have hwhole : whole ok { target, region, top := some top } = some e := by
    simp [whole, hreduce 0 (by simp), reduce]
  rw [hrun, run_semicolon hsemi]
  unfold finish
  dsimp only
  rcases target with _ | ⟨l⟩ | ⟨d⟩ <;> simp [hwhole]

theorem parse_append (hok : Hereditary ok) (h : DerivesStmt (ts ++ [semi]) stmt)
    (hpass : passes ok stmt) : parse ok (ts ++ semi :: post) = some stmt := by
  have hrun (hts : ∀ t ∈ ts, t.type ≠ .var) (hsemi : semi.type = .semicolon) :
      parse ok (ts ++ semi :: post) = run ok {} (ts ++ semi :: post) := by
    cases ts with
    | nil => simp [parse, hsemi]
    | cons t ts => simp [parse, hts t (by simp)]
  generalize hend : ts ++ [semi] = us at h
  cases h with
  | empty hs =>
    obtain ⟨rfl, rfl⟩ := List.append_singleton_inj.1 (show ts ++ [semi] = [] ++ [_] from hend)
    rw [hrun (by simp) hs, List.nil_append, run_semicolon hs]
    rfl
  | expr he hs =>
    obtain ⟨rfl, rfl⟩ := List.append_singleton_inj.1 hend
    rw [hrun he.ne_var hs, run_last hok he hpass hs]
  | @assign ts us t _ l r hl ht hr hs =>
    obtain ⟨rfl, rfl⟩ := List.append_singleton_inj.1 hend
    obtain ⟨hokl, hokr⟩ : ok l ∧ ok r := by simpa [passes] using hpass
    obtain ⟨region, top, hl', hreduce⟩ := derives_reads hok hl hokl {} (t :: (us ++ semi :: post))
      rfl (endsName_cons (by simp [ht])) rfl
    -- all that is read before the sign is the target
    have hassign : assign ok { region, top := some top } = some { target := some (.expr l) } := by
      simp [assign, whole, hreduce 0 (by simp), reduce]
    have hvar : ∀ u ∈ ts ++ t :: us, u.type ≠ .var := by
      have := hl.ne_var
      have := hr.ne_var
      grind
    rw [hrun hvar hs, List.append_assoc, List.cons_append, hl',
      run_shift (by simp [ht]) (by simp [ht])]
    simp only [shift, ht, hassign, Option.bind_some]
    exact run_last hok hr hokr hs
  | var hv hd hs =>
    obtain ⟨rfl, rfl⟩ := List.append_singleton_inj.1 hend
    simp [parse, hv, readDecl_append hd (.inl hs), hs]
  | varValue hv hd ht he hs =>
    obtain ⟨rfl, rfl⟩ := List.append_singleton_inj.1 hend
    simp [parse, hv, readDecl_append hd (.inr ht), ht, run_last hok he hpass hs]

/-- The parser reads the statements of the grammar whose expressions pass the test. -/
theorem parse_eq_some_iff (hok : Hereditary ok) (hts : ∀ t ∈ ts, t.type ≠ .semicolon)
    (hsemi : semi.type = .semicolon) :
    parse ok (ts ++ semi :: post) = some stmt ↔
      DerivesStmt (ts ++ [semi]) stmt ∧ passes ok stmt :=
  ⟨parse_derives hts hsemi, fun h => parse_append hok h.1 h.2⟩

end Statements

end Parse

end OnePass
