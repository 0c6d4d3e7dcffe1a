import OnePass.Assembly.Lexeme

namespace OnePass.Assembly

inductive Argument where
  | immediate (n : Int)
  | name (s : String)
deriving DecidableEq, Repr

/-- A mnemonic with its operands, as written. -/
structure Line where
  mnemonic : String
  args : List Argument
  line : Nat
deriving DecidableEq, Repr

def isPunct (l : Lexeme) (s : String) : Bool := l.kind = .punct && l.text = s

def refuse {α : Type} (wanted : Option Wanted) : List Lexeme → Except Error α
  | l :: _ => .error (.unexpected l wanted)
  | [] => .error (.unexpected ⟨.eof, "<EOF>", 0, 0⟩ wanted)

def integer : List Lexeme → Except Error (Int × List Lexeme)
  | l :: rest =>
    if l.kind = .int then
      match Text.readLiteral l.text with
      | .ok n => .ok (n, rest)
      | .error why => .error (.immediate l.text why)
    else refuse (some .int) (l :: rest)
  | [] => refuse (some .int) []

def argument? : List Lexeme → Except Error (Option (Argument × List Lexeme))
  | l :: rest =>
    if isPunct l "#" then (integer rest).map fun (n, rest) => some (.immediate n, rest)
    else if l.kind = .ident then .ok (some (.name l.text, rest))
    else .ok none
  | [] => .ok none

theorem length_integer {ts rest : List Lexeme} {n : Int} (h : integer ts = .ok (n, rest)) :
    rest.length ≤ ts.length := by
  unfold integer at h
  split at h
  · split at h
    · split at h <;> simp_all
    · simp [refuse] at h
  · simp [refuse] at h

theorem length_argument? {ts rest : List Lexeme} {a : Argument}
    (h : argument? ts = .ok (some (a, rest))) : rest.length < ts.length := by
  unfold argument? at h
  split at h
  · split at h
    · rename_i l ts' _
      cases hi : integer ts' with
      | error e => simp [hi, Except.map] at h
      | ok p =>
        have := length_integer hi
        simp only [hi, Except.map, Except.ok.injEq, Option.some.injEq, Prod.mk.injEq] at h
        simp only [← h.2, List.length_cons]
        omega
    · split at h
      · simp only [Except.ok.injEq, Option.some.injEq, Prod.mk.injEq] at h
        simp [← h.2]
      · simp at h
  · simp at h

def moreArguments (ts : List Lexeme) : Except Error (List Argument × List Lexeme) :=
  match ts with
  | l :: rest =>
    if isPunct l "," then
      match _h : argument? rest with
      | .error e => .error e
      | .ok none => refuse (some .operand) rest
      | .ok (some (a, rest')) =>
        (moreArguments rest').map fun (as, rest) => (a :: as, rest)
    else .ok ([], l :: rest)
  | [] => .ok ([], [])
termination_by ts.length
decreasing_by
  have := length_argument? _h
  simp only [List.length_cons]
  omega

def arguments (ts : List Lexeme) : Except Error (List Argument × List Lexeme) :=
  match argument? ts with
  | .error e => .error e
  | .ok none => .ok ([], ts)
  | .ok (some (a, rest)) => (moreArguments rest).map fun (as, rest) => (a :: as, rest)

theorem length_moreArguments {ts rest : List Lexeme} {as : List Argument}
    (h : moreArguments ts = .ok (as, rest)) : rest.length ≤ ts.length := by
  fun_induction moreArguments ts generalizing as with
  | case1 => simp at h
  | case2 => simp [refuse] at h; split at h <;> simp at h
  | case3 l ts' _ a rest' h' ih =>
    cases hm : moreArguments rest' with
    | error e => simp [hm, Except.map] at h
    | ok p =>
      simp only [hm, Except.map, Except.ok.injEq, Prod.mk.injEq] at h
      have := length_argument? h'
      have hp : moreArguments rest' = .ok (p.1, rest) := by rw [hm, ← h.2]
      have := ih hp
      simp only [List.length_cons]
      omega
  | case4 => simp_all
  | case5 => simp_all

theorem length_arguments {ts rest : List Lexeme} {as : List Argument}
    (h : arguments ts = .ok (as, rest)) : rest.length ≤ ts.length := by
  unfold arguments at h
  split at h
  · simp at h
  · simp_all
  · rename_i a rest' ha
    cases hm : moreArguments rest' with
    | error e => simp [hm, Except.map] at h
    | ok p =>
      simp only [hm, Except.map, Except.ok.injEq, Prod.mk.injEq] at h
      have := length_argument? ha
      have hp : moreArguments rest' = .ok (p.1, rest) := by rw [hm, ← h.2]
      have := length_moreArguments hp
      omega

/-- All instructions of a text. An operand list goes on only after a comma, so a line may hold
several of them. -/
def lines (ts : List Lexeme) : Except Error (List Line) :=
  match ts with
  | [] => .ok []
  | l :: rest =>
    match l.kind with
    | .eof => .ok []
    | .eol => lines rest
    | .ident =>
      match _h : arguments rest with
      | .error e => .error e
      | .ok (args, rest') => (lines rest').map (⟨l.text, args, l.line⟩ :: ·)
    | _ => .error (.unexpected l none)
termination_by ts.length
decreasing_by
  · simp
  · have := length_arguments _h
    simp only [List.length_cons]
    omega

end OnePass.Assembly
