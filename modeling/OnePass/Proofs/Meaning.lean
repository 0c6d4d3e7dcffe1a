import Mathlib
import OnePass.Machine.Core
import OnePass.Proofs.Programs

namespace OnePass.Meaning

/-- A variable in scope, with its first slot. -/
structure Local where
  name : String
  slot : Int
  words : Int

/-- What evaluation changes: memory, and the calls made. Variables and intermediate results live in
the slots of a frame, one word each, which lie downward from a base in memory. -/
structure Store where
  memory : Memory
  calls : Array HostCall

/-- What an expression stands for: a literal, or the word in a slot, followed through pointers where
it is used. -/
inductive Value where
  | literal (n : Int)
  | named (x : Local) (derefs : Nat)
  | result (slot : Int) (derefs : Nat)

/-- Follows a pointer `n` times. -/
def follow (m : Memory) : Nat → UInt16 → UInt16
  | 0, a => a
  | n + 1, a => follow m n (m.read a)

/-- The words that are read on the way. -/
def path (m : Memory) : Nat → UInt16 → List UInt16
  | 0, _ => []
  | n + 1, a => a :: path m n (m.read a)

def slotAddress (base : UInt16) (slot : Int) : UInt16 := base - 1 - word slot

namespace Value

def deref : Value → Value
  | literal n => literal n
  | named x n => named x (n + 1)
  | result slot n => result slot (n + 1)

/-- Slots that the value of an expression takes up. -/
def held : Value → Int
  | result _ _ => 1
  | _ => 0

/-- The word that an expression stands for. -/
def word (base : UInt16) (m : Memory) : Value → UInt16
  | literal n => OnePass.word n
  | named x n => follow m n (m.read (slotAddress base x.slot))
  | result slot n => follow m n (m.read (slotAddress base slot))

/-- Where that word is. A variable of several words is where its last slot is, the lowest of its
addresses. -/
def address (base : UInt16) (m : Memory) : Value → UInt16
  | literal _ => 0
  | named x 0 => slotAddress base (x.slot + x.words - 1)
  | named x (n + 1) => follow m n (m.read (slotAddress base x.slot))
  | result slot 0 => slotAddress base slot
  | result slot (n + 1) => follow m n (m.read (slotAddress base slot))

/-- The addresses that are read to get the word, from the slot of a variable on. -/
def reads (base : UInt16) (m : Memory) : Value → List UInt16
  | literal _ => []
  | named x n => path m (n + 1) (slotAddress base x.slot)
  | result slot n => path m n (m.read (slotAddress base slot))

/-- The addresses that are read to get where the word is. -/
def route (base : UInt16) (m : Memory) : Value → List UInt16
  | literal _ => []
  | named x n => path m n (slotAddress base x.slot)
  | result slot n => path m (n - 1) (m.read (slotAddress base slot))

end Value

namespace Store

def put (base : UInt16) (s : Store) (slot : Int) (v : UInt16) : Store :=
  { s with memory := s.memory.write (slotAddress base slot) v }

def clear (base : UInt16) (s : Store) (slot : Int) : Nat → Store
  | 0 => s
  | n + 1 => (s.put base slot 0).clear base (slot + 1) n

def words (base : UInt16) (s : Store) (slot : Int) (n : Nat) : List UInt16 :=
  (List.range n).map fun i : Nat => s.memory.read (slotAddress base (slot + i))

/-- Calls a function with the words of the slots from `slot` on, and puts its result in the first
of them. -/
def call (hosts : HostTable) (base : UInt16) (s : Store) (name : String) (slot : Int) (n : Nat) :
    Store :=
  match hosts.lookup name with
  | none => s
  | some h =>
    let args := s.words base slot n
    { s with calls := s.calls.push ⟨name, args⟩ }.put base slot (h.apply args)

end Store

def find (scope : List Local) (name : String) : Option Local := scope.find? (·.name = name)

section

variable (hosts : HostTable) (base : UInt16) (scope : List Local)

mutual

/-- Evaluates an expression. Results are put in the slots from `top` on. -/
def eval (top : Int) : Expr → Store → Value × Store
  | .literal n, s => (.literal n, s)
  | .name x, s => ((find scope x).elim (.literal 0) (.named · 0), s)
  | .call f args, s =>
    (.result top 0, (evalArgs top args s).call hosts base f top args.length)
  | .binary op l r, s =>
    let a := eval top l s
    let b := eval (top + a.1.held) r a.2
    (.result top 0,
      b.2.put base top (op.apply (a.1.word base b.2.memory) (b.1.word base b.2.memory)))
  | .deref e, s =>
    let a := eval top e s
    (a.1.deref, a.2)
  | .addressOf e, s =>
    let a := eval top e s
    (.result top 0, a.2.put base top (a.1.address base a.2.memory))

/-- Evaluates arguments from left to right and puts their words in the slots from `top` on. -/
def evalArgs (top : Int) : List Expr → Store → Store
  | [], s => s
  | e :: args, s =>
    let a := eval top e s
    evalArgs (top + 1) args (a.2.put base top (a.1.word base a.2.memory))

end

mutual

/-- The addresses that are read while an expression is evaluated. -/
def reads (top : Int) : Expr → Store → List UInt16
  | .literal _, _ | .name _, _ => []
  | .call _ args, s => readsArgs top args s
  | .binary _ l r, s =>
    let a := eval hosts base scope top l s
    let b := eval hosts base scope (top + a.1.held) r a.2
    reads top l s ++ reads (top + a.1.held) r a.2 ++
      (a.1.reads base b.2.memory ++ b.1.reads base b.2.memory)
  | .deref e, s => reads top e s
  | .addressOf e, s =>
    let a := eval hosts base scope top e s
    reads top e s ++ a.1.route base a.2.memory

def readsArgs (top : Int) : List Expr → Store → List UInt16
  | [], _ => []
  | e :: args, s =>
    let a := eval hosts base scope top e s
    reads top e s ++ a.1.reads base a.2.memory ++
      readsArgs (top + 1) args (a.2.put base top (a.1.word base a.2.memory))

end

end

/-- What a source has come to: the structs it has defined, the variables of the open blocks,
innermost block and latest variable first, and the value of a statement that is an expression. -/
structure State where
  sizes : Sizes := []
  blocks : List (List Local) := [[]]
  store : Store
  value : Option UInt16 := none

namespace State

def scope (st : State) : List Local := st.blocks.flatten

def top (st : State) : Int := (st.scope.map (·.words)).sum

/-- Declares a variable on the first free slots. -/
def declare (st : State) (name : String) (words : Int) : List (List Local) :=
  match st.blocks with
  | [] => [[⟨name, st.top, words⟩]]
  | block :: outer => (⟨name, st.top, words⟩ :: block) :: outer

end State

def declWords (sizes : Sizes) (d : Decl) : Int :=
  d.type.elim 0 fun t => sizes.words t.1 t.2

variable (hosts : HostTable) (base : UInt16)

def stmt (s : Stmt) (st : State) : State :=
  match s with
  | .empty => { st with value := none }
  | .expr e =>
    let a := eval hosts base st.scope st.top e st.store
    { st with store := a.2, value := some (a.1.word base a.2.memory) }
  | .assign l r =>
    let a := eval hosts base st.scope st.top l st.store
    let b := eval hosts base st.scope (st.top + a.1.held) r a.2
    let memory := b.2.memory.write (a.1.address base b.2.memory) (b.1.word base b.2.memory)
    { st with store := { b.2 with memory }, value := none }
  | .var d none =>
    let words := declWords st.sizes d
    { st with
      blocks := st.declare d.name words
      store := st.store.clear base st.top words.toNat
      value := none }
  | .var d (some e) =>
    let a := eval hosts base st.scope st.top e st.store
    { st with
      blocks := st.declare d.name 1
      store := a.2.put base st.top (a.1.word base a.2.memory)
      value := none }

def item (i : Item) (st : State) : State :=
  match i with
  | .struct name fields =>
    { st with sizes := (name, st.sizes.structWords fields) :: st.sizes, value := none }
  | .openBlock => { st with blocks := [] :: st.blocks, value := none }
  | .closeBlock => { st with blocks := st.blocks.tail, value := none }
  | .stmt s => stmt hosts base s st

/-- The meaning of a source. -/
def program (items : List Item) (st : State) : State :=
  items.foldl (fun st i => item hosts base i st) st

end OnePass.Meaning
