import Mathlib
import OnePass.Machine.Instr
import OnePass.Token.Basic

namespace OnePass

/-- The arguments of a call are in order. -/
inductive Expr where
  | literal (n : Int)
  | name (x : String)
  | call (f : String) (args : List Expr)
  | binary (op : Alu) (l r : Expr)
  | deref (e : Expr)
  | addressOf (e : Expr)

/-- What a declaration says before its value: the name, the line it is on, and a type with its
stars. -/
structure Decl where
  name : String
  line : Int
  type : Option (Token × Nat)

inductive Stmt where
  | empty
  | expr (e : Expr)
  | assign (l r : Expr)
  | var (d : Decl) (value : Option Expr)

/-- How tightly the parts of an expression hold together. An open call has read some arguments and
waits for a comma or a parenthesis. -/
inductive Level where
  | sum
  | product
  | unary
  | operand
  | openCall
deriving DecidableEq

/-- What follows does not turn a name into a call. -/
def EndsName (rest : List Token) : Prop := ∀ t ∈ rest.head?, t.type ≠ .lparen

/-- The tokens of an expression. A sum is made of products, a product of operands with any number
of stars and ampersands before them, and an operand is a literal, a name, a call or a sum in
parentheses. -/
inductive Derives : Level → List Token → Expr → Prop where
  | literal {t : Token} (ht : t.type = .integer) : Derives .operand [t] (.literal t.value)
  | name {t : Token} (ht : t.type = .identifier) : Derives .operand [t] (.name t.name)
  | group {o c : Token} {ts : List Token} {e : Expr} (ho : o.type = .lparen)
      (h : Derives .sum ts e) (hc : c.type = .rparen) : Derives .operand (o :: ts ++ [c]) e
  | callNone {f o c : Token} (hf : f.type = .identifier) (ho : o.type = .lparen)
      (hc : c.type = .rparen) : Derives .operand [f, o, c] (.call f.name [])
  | call {ts : List Token} {c : Token} {e : Expr} (h : Derives .openCall ts e)
      (hc : c.type = .rparen) : Derives .operand (ts ++ [c]) e
  | argument {f o : Token} {ts : List Token} {e : Expr} (hf : f.type = .identifier)
      (ho : o.type = .lparen) (h : Derives .sum ts e) :
      Derives .openCall (f :: o :: ts) (.call f.name [e])
  | nextArgument {ts us : List Token} {c : Token} {f : String} {args : List Expr} {e : Expr}
      (h : Derives .openCall ts (.call f args)) (hc : c.type = .comma) (hu : Derives .sum us e) :
      Derives .openCall (ts ++ c :: us) (.call f (args ++ [e]))
  | ofOperand {ts : List Token} {e : Expr} (h : Derives .operand ts e) : Derives .unary ts e
  | deref {t : Token} {ts : List Token} {e : Expr} (ht : t.type = .star)
      (h : Derives .unary ts e) : Derives .unary (t :: ts) (.deref e)
  | addressOf {t : Token} {ts : List Token} {e : Expr} (ht : t.type = .amp)
      (h : Derives .unary ts e) : Derives .unary (t :: ts) (.addressOf e)
  | ofUnary {ts : List Token} {e : Expr} (h : Derives .unary ts e) : Derives .product ts e
  | mul {ts us : List Token} {t : Token} {l r : Expr} (hl : Derives .product ts l)
      (ht : t.type = .star) (hr : Derives .unary us r) :
      Derives .product (ts ++ t :: us) (.binary .mul l r)
  | ofProduct {ts : List Token} {e : Expr} (h : Derives .product ts e) : Derives .sum ts e
  | add {ts us : List Token} {t : Token} {l r : Expr} (hl : Derives .sum ts l)
      (ht : t.type = .plus) (hr : Derives .product us r) :
      Derives .sum (ts ++ t :: us) (.binary .add l r)
  | sub {ts us : List Token} {t : Token} {l r : Expr} (hl : Derives .sum ts l)
      (ht : t.type = .minus) (hr : Derives .product us r) :
      Derives .sum (ts ++ t :: us) (.binary .sub l r)

theorem Derives.openCall_args {ts : List Token} {e : Expr} (h : Derives .openCall ts e) :
    ∃ f args last, e = .call f (args ++ [last]) := by
  cases h with
  | argument => exact ⟨_, [], _, rfl⟩
  | nextArgument => exact ⟨_, _, _, rfl⟩

theorem Derives.ne_var {level : Level} {ts : List Token} {e : Expr} (h : Derives level ts e) :
    ∀ t ∈ ts, t.type ≠ .var := by
  induction h <;> grind

/-- The tokens between `var` and the value: a type with its stars where there is one, and the
name. -/
inductive DerivesDecl : List Token → Decl → Prop where
  | untyped {name : Token} (hn : name.type = .identifier) :
      DerivesDecl [name] ⟨name.name, name.line, none⟩
  | typed {type name : Token} {stars : List Token}
      (ht : type.type ∈ [.u16, .i16, .void, .identifier]) (hs : ∀ t ∈ stars, t.type = .star)
      (hn : name.type = .identifier) :
      DerivesDecl (type :: stars ++ [name]) ⟨name.name, name.line, some (type, stars.length)⟩

theorem DerivesDecl.ne_semicolon {ts : List Token} {d : Decl} (h : DerivesDecl ts d) :
    ∀ t ∈ ts, t.type ≠ .semicolon := by
  cases h <;> grind

/-- The tokens of a statement, with its semicolon. -/
inductive DerivesStmt : List Token → Stmt → Prop where
  | empty {semi : Token} (hs : semi.type = .semicolon) : DerivesStmt [semi] .empty
  | expr {ts : List Token} {semi : Token} {e : Expr} (h : Derives .sum ts e)
      (hs : semi.type = .semicolon) : DerivesStmt (ts ++ [semi]) (.expr e)
  | assign {ts us : List Token} {t semi : Token} {l r : Expr} (hl : Derives .sum ts l)
      (ht : t.type = .assign) (hr : Derives .sum us r) (hs : semi.type = .semicolon) :
      DerivesStmt (ts ++ t :: us ++ [semi]) (.assign l r)
  | var {v semi : Token} {ts : List Token} {d : Decl} (hv : v.type = .var)
      (hd : DerivesDecl ts d) (hs : semi.type = .semicolon) :
      DerivesStmt (v :: ts ++ [semi]) (.var d none)
  | varValue {v t semi : Token} {ts us : List Token} {d : Decl} {e : Expr} (hv : v.type = .var)
      (hd : DerivesDecl ts d) (ht : t.type = .assign) (he : Derives .sum us e)
      (hs : semi.type = .semicolon) :
      DerivesStmt (v :: ts ++ t :: us ++ [semi]) (.var d (some e))

end OnePass
