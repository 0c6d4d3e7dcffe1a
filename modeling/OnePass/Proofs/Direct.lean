import Mathlib
import OnePass.Proofs.Preservation

namespace OnePass

open Meaning

section Addresses

variable {base : UInt16} {i j : Int}

theorem slotAddress_injective (hi : 0 ≤ i ∧ i < 65536) (hj : 0 ≤ j ∧ j < 65536)
    (h : slotAddress base i = slotAddress base j) : i = j := by
  have hword : word i = word j := by
    simpa [slotAddress] using h
  unfold word at hword
  rw [← UInt16.toNat_inj] at hword
  simp only [UInt16.toNat_ofNat'] at hword
  omega

theorem follow_succ (m : Memory) (n : Nat) (a : UInt16) :
    follow m (n + 1) a = m.read (follow m n a) := by
  induction n generalizing a with
  | zero => rfl
  | succ n ih => exact ih (m.read a)

end Addresses

/-- What the slots below `top` hold has not changed. -/
def Agrees (base : UInt16) (top : Int) (m m' : Memory) : Prop :=
  ∀ slot, 0 ≤ slot → slot < top → m'.read (slotAddress base slot) = m.read (slotAddress base slot)

namespace Agrees

variable {base : UInt16} {top top' : Int} {m m' m'' : Memory}

theorem refl : Agrees base top m m := fun _ _ _ => rfl

theorem trans (h : Agrees base top m m') (h' : Agrees base top m' m'') : Agrees base top m m'' :=
  fun slot h₀ h₁ => (h' slot h₀ h₁).trans (h slot h₀ h₁)

theorem mono (h : Agrees base top m m') (hle : top' ≤ top) : Agrees base top' m m' :=
  fun slot h₀ h₁ => h slot h₀ (by omega)

theorem put {slot : Int} {s : Store} (hle : top ≤ slot) (hnonneg : 0 ≤ top) (hlt : slot < 65536)
    (v : UInt16) : Agrees base top s.memory (s.put base slot v).memory := by
  intro i h₀ h₁
  refine Memory.read_write_of_ne _ v fun heq => ?_
  have := slotAddress_injective ⟨by omega, hlt⟩ ⟨h₀, by omega⟩ heq
  omega

theorem read_put {s : Store} {v : UInt16} (h : Agrees base (top + 1) (s.put base top v).memory m)
    (hnonneg : 0 ≤ top) : m.read (slotAddress base top) = v := by
  rw [h top hnonneg (by omega)]
  exact Memory.read_write_self _ _ _

theorem write (h : Agrees base top m m') (a v : UInt16) :
    Agrees base top (m.write a v) (m'.write a v) := by
  intro slot h₀ h₁
  by_cases heq : a = slotAddress base slot
  · rw [heq, Memory.read_write_self, Memory.read_write_self]
  · rw [Memory.read_write_of_ne _ _ heq, Memory.read_write_of_ne _ _ heq]
    exact h slot h₀ h₁

theorem put_next {s s' : Store} (h : Agrees base top s.memory s'.memory) (v : UInt16) :
    Agrees base (top + 1) (s.put base top v).memory (s'.put base top v).memory := by
  intro slot h₀ h₁
  by_cases heq : slot = top
  · rw [heq]
    exact (Memory.read_write_self _ _ _).trans (Memory.read_write_self _ _ _).symm
  · exact h.write _ v slot h₀ (by omega)

theorem clear_next {s s' : Store} (h : Agrees base top s.memory s'.memory) (n : Nat) :
    Agrees base (top + n) (s.clear base top n).memory (s'.clear base top n).memory := by
  induction n generalizing top s s' with
  | zero => simpa [Store.clear] using h
  | succ n ih =>
    have := ih (h.put_next 0)
    rwa [add_assoc, add_comm 1, ← Nat.cast_succ] at this

end Agrees

namespace Expr

/-- The slots that the value of an expression takes up: what is computed takes one. -/
def held : Expr → Int
  | .literal _ | .name _ => 0
  | .call _ _ | .binary _ _ _ | .addressOf _ => 1
  | .deref e => e.held

mutual

/-- The most slots that are taken up while an expression is evaluated. -/
def slots : Expr → Int
  | .literal _ | .name _ => 0
  | .call _ args => max 1 (slotsArgs args)
  | .binary _ l r => max 1 (max l.slots (l.held + r.slots))
  | .deref e => e.slots
  | .addressOf e => max 1 e.slots

def slotsArgs : List Expr → Int
  | [] => 0
  | e :: args => max (max 1 e.slots) (1 + slotsArgs args)

end

end Expr

def Stmt.slots : Stmt → Int
  | .empty | .var _ none => 0
  | .expr e | .var _ (some e) => e.slots
  | .assign l r => max l.slots (l.held + r.slots)

def Item.slots : Item → Int
  | .stmt s => s.slots
  | _ => 0

namespace Direct

section

variable (hosts : HostTable) (base : UInt16) (scope : List Local) (m : Memory)

mutual

/-- The word that an expression stands for. Evaluation leaves memory as it is. -/
def word : Expr → UInt16
  | .literal n => OnePass.word n
  | .name x => (find scope x).elim 0 fun x => m.read (slotAddress base x.slot)
  | .call f args => (hosts.lookup f).elim 0 (·.apply (words args))
  | .binary op l r => op.apply (word l) (word r)
  | .deref e => m.read (word e)
  | .addressOf e => place e

/-- Where that word is, for a variable and for what a pointer leads to. -/
def place : Expr → UInt16
  | .name x => (find scope x).elim 0 fun x => slotAddress base (x.slot + x.words - 1)
  | .deref e => word e
  | _ => 0

def words : List Expr → List UInt16
  | [] => []
  | e :: args => word e :: words args

end

mutual

/-- The calls that an expression makes, in order. -/
def calls : Expr → List HostCall
  | .literal _ | .name _ => []
  | .call f args => callsArgs args ++ [⟨f, words hosts base scope m args⟩]
  | .binary _ l r => calls l ++ calls r
  | .deref e | .addressOf e => calls e

def callsArgs : List Expr → List HostCall
  | [] => []
  | e :: args => calls e ++ callsArgs args

end

/-- The address that is read last, where an expression is looked up in memory. -/
def final : Expr → List UInt16
  | .name x => ((find scope x).map fun x => slotAddress base x.slot).toList
  | .deref e => [word hosts base scope m e]
  | _ => []

mutual

/-- The addresses that are read before that. -/
def route : Expr → List UInt16
  | .literal _ | .name _ => []
  | .call _ args => routeArgs args
  | .binary _ l r =>
    (route l ++ final hosts base scope m l) ++ (route r ++ final hosts base scope m r)
  | .deref e => route e ++ final hosts base scope m e
  | .addressOf e => route e

def routeArgs : List Expr → List UInt16
  | [] => []
  | e :: args => (route e ++ final hosts base scope m e) ++ routeArgs args

end

end

end Direct

section Expressions

variable {hosts : HostTable} {base : UInt16} {scope : List Local} {depth top : Int}
  {m m' : Memory} {s : Store} {a : UInt16}

/-- The address of a slot below `depth`. -/
def Cell (base : UInt16) (depth : Int) (a : UInt16) : Prop :=
  ∃ slot, 0 ≤ slot ∧ slot < depth ∧ a = slotAddress base slot

theorem Cell.read_eq (h : Cell base depth a) (hm : Agrees base depth m m') :
    m'.read a = m.read a := by
  obtain ⟨slot, h₀, h₁, rfl⟩ := h
  exact hm slot h₀ h₁

theorem Meaning.Value.held_deref (v : Value) : v.deref.held = v.held := by cases v <;> rfl

theorem held_eval (top : Int) (e : Expr) (s : Store) :
    (eval hosts base scope top e s).1.held = e.held := by
  match e with
  | .literal _ => rfl
  | .name x => cases h : find scope x <;> simp [eval, h, Value.held, Expr.held]
  | .call _ _ | .binary _ _ _ | .addressOf _ => rfl
  | .deref e => exact (Value.held_deref _).trans (held_eval top e s)

/-- Following a pointer once more reads the word that it stands for. -/
theorem word_deref {v : Value} (hv : ∀ n, v ≠ .literal n) :
    v.deref.word base m = m.read (v.word base m) ∧ v.deref.address base m = v.word base m := by
  cases v with
  | literal n => exact absurd rfl (hv n)
  | named x n => exact ⟨follow_succ m n _, rfl⟩
  | result slot n => exact ⟨follow_succ m n _, rfl⟩

/-- Evaluating `e` in the slots from `top` on changes none below, and gives what `e` stands for in
the memory `m`, where no result has been put. What is put in further slots later does not matter. -/
structure Evaluates (hosts : HostTable) (base : UInt16) (scope : List Local) (depth top : Int)
    (m : Memory) (o : Operand) (e : Expr) (s : Store) : Prop where
  agrees : Agrees base top s.memory (eval hosts base scope top e s).2.memory
  calls : (eval hosts base scope top e s).2.calls.toList =
    s.calls.toList ++ Direct.calls hosts base scope m e
  pointer : o.type.depth ≠ 0 → ∀ n, (eval hosts base scope top e s).1 ≠ .literal n
  word : (∀ a ∈ Direct.final hosts base scope m e, Cell base depth a) →
    ∀ m', Agrees base (top + e.held) (eval hosts base scope top e s).2.memory m' →
      (eval hosts base scope top e s).1.word base m' = Direct.word hosts base scope m e
  place : o.addressable →
    ∀ m', Agrees base (top + e.held) (eval hosts base scope top e s).2.memory m' →
      (eval hosts base scope top e s).1.address base m' = Direct.place hosts base scope m e

structure EvaluatesArgs (hosts : HostTable) (base : UInt16) (scope : List Local) (top : Int)
    (m : Memory) (args : List Expr) (s : Store) : Prop where
  agrees : Agrees base top s.memory (evalArgs hosts base scope top args s).memory
  calls : (evalArgs hosts base scope top args s).calls.toList =
    s.calls.toList ++ Direct.callsArgs hosts base scope m args
  words : (evalArgs hosts base scope top args s).words base top args.length =
    Direct.words hosts base scope m args

namespace Evaluates

variable {o : Operand} {e l r : Expr} {args : List Expr}

theorem literal (n : Int) (htype : o.type.depth = 0) (hplace : o.addressable = false) :
    Evaluates hosts base scope depth top m o (.literal n) s where
  agrees := .refl
  calls := by simp [eval, Direct.calls]
  pointer hd := absurd htype hd
  word _ _ _ := rfl
  place ha := absurd ha (by simp [hplace])

theorem name {x : String} {v : Local} (hfind : find scope x = some v) (hle : depth ≤ top)
    (hm : Agrees base depth m s.memory) : Evaluates hosts base scope depth top m o (.name x) s where
  agrees := .refl
  calls := by simp [eval, Direct.calls]
  pointer _ n := by simp [eval, hfind]
  word hfinal m' h := by
    simp only [Expr.held, add_zero] at h
    simp only [Direct.final, hfind, Option.map_some, Option.toList_some, List.mem_singleton,
      forall_eq] at hfinal
    simp only [eval, hfind, Option.elim_some, Direct.word]
    exact hfinal.read_eq (hm.trans (h.mono hle))
  place _ _ _ := by
    simp only [eval, hfind, Option.elim_some, Direct.place]
    rfl

theorem computed {t : Store} (hnonneg : 0 ≤ top) (hlt : top < 65536)
    (hplace : o.addressable = false) (hheld : e.held = 1)
    (heval : eval hosts base scope top e s =
      (.result top 0, t.put base top (Direct.word hosts base scope m e)))
    (hagrees : Agrees base top s.memory t.memory)
    (hcalls : t.calls.toList = s.calls.toList ++ Direct.calls hosts base scope m e) :
    Evaluates hosts base scope depth top m o e s where
  agrees := by
    rw [heval]
    exact hagrees.trans (.put le_rfl hnonneg hlt _)
  calls := by
    rw [heval]
    exact hcalls
  pointer _ n := by simp [heval]
  word _ m' h := by
    rw [heval, hheld] at h
    rw [heval]
    exact h.read_put hnonneg
  place ha := absurd ha (by simp [hplace])

theorem call {f : String} {h : Host} {type : Ty} (hname : hosts.lookup f = some h)
    (hnonneg : 0 ≤ top) (hlt : top < 65536)
    (hargs : EvaluatesArgs hosts base scope top m args s) :
    Evaluates hosts base scope depth top m { type, place := .stack } (.call f args) s := by
  refine computed hnonneg hlt rfl rfl
    (t := { evalArgs hosts base scope top args s with
      calls := (evalArgs hosts base scope top args s).calls.push
        ⟨f, Direct.words hosts base scope m args⟩ }) ?_ hargs.agrees ?_
  · simp only [eval, Store.call, hname, hargs.words, Direct.word, Option.elim_some]
  · simp [hargs.calls, Direct.calls]

theorem binary {op : Alu} {lo ro : Operand} {type : Ty} (hnonneg : 0 ≤ top) (hlt : top < 65536)
    (hheld : 0 ≤ l.held) (hl : Evaluates hosts base scope depth top m lo l s)
    (hr : Evaluates hosts base scope depth (top + l.held) m ro r (eval hosts base scope top l s).2)
    (hroute : ∀ a ∈ Direct.route hosts base scope m (.binary op l r), Cell base depth a) :
    Evaluates hosts base scope depth top m { type, place := .stack } (.binary op l r) s := by
  simp only [Direct.route, List.forall_mem_append] at hroute
  refine computed hnonneg hlt rfl rfl (t := (eval hosts base scope (top + l.held) r
    (eval hosts base scope top l s).2).2) ?_ (hl.agrees.trans (hr.agrees.mono (by omega))) ?_
  · -- the left value is read after the right one has been put above it
    simp only [eval, held_eval, hl.word hroute.1.2 _ hr.agrees, hr.word hroute.2.2 _ .refl,
      Direct.word]
  · rw [hr.calls, hl.calls, List.append_assoc, Direct.calls]

theorem deref {o' : Operand} (hp : o.pointee = some o')
    (he : Evaluates hosts base scope depth top m o e s) (hm : Agrees base depth m s.memory)
    (hle : depth ≤ top) (hheld : 0 ≤ e.held)
    (hroute : ∀ a ∈ Direct.route hosts base scope m (.deref e), Cell base depth a) :
    Evaluates hosts base scope depth top m o' (.deref e) s := by
  simp only [Direct.route, List.forall_mem_append] at hroute
  simp only [Operand.pointee, Option.ite_none_left_eq_some, Option.some.injEq] at hp
  have hpointer := he.pointer hp.1
  refine ⟨he.agrees, he.calls, fun _ n => ?_, fun hfinal m' h => ?_, fun _ m' h => ?_⟩
  · rw [eval]
    cases hv : (eval hosts base scope top e s).1 with
    | literal n => exact absurd hv (hpointer n)
    | named x n => simp [Value.deref]
    | result slot n => simp [Value.deref]
  · have hcell : Cell base depth (Direct.word hosts base scope m e) :=
      hfinal _ (by simp [Direct.final])
    rw [eval, (word_deref hpointer).1, he.word hroute.2 m' h, Direct.word]
    have hafter : Agrees base top s.memory m' :=
      he.agrees.trans (h.mono (by simp [Expr.held]; omega))
    exact hcell.read_eq (hm.trans (hafter.mono hle))
  · rw [eval, (word_deref hpointer).2, he.word hroute.2 m' h, Direct.place]

theorem addressOf {type : Ty} (ha : o.addressable) (hnonneg : 0 ≤ top) (hlt : top < 65536)
    (he : Evaluates hosts base scope depth top m o e s) :
    Evaluates hosts base scope depth top m { type, place := .stack } (.addressOf e) s := by
  refine computed hnonneg hlt rfl rfl (t := (eval hosts base scope top e s).2) ?_ he.agrees he.calls
  rw [eval, he.place ha _ .refl, Direct.word]

end Evaluates

theorem Meaning.Store.words_succ (base : UInt16) (s : Store) (slot : Int) (n : Nat) :
    s.words base slot (n + 1) =
      s.memory.read (slotAddress base slot) :: s.words base (slot + 1) n := by
  simp only [Store.words, List.range_succ_eq_map, List.map_cons, List.map_map, Nat.cast_zero,
    add_zero]
  refine congrArg _ (List.map_congr_left fun k _ => ?_)
  rw [Function.comp_apply, Nat.cast_succ, add_assoc, add_comm 1]

theorem EvaluatesArgs.cons {e : Expr} {args : List Expr} {o : Operand} (hnonneg : 0 ≤ top)
    (hlt : top < 65536) (he : Evaluates hosts base scope depth top m o e s)
    (hfinal : ∀ a ∈ Direct.final hosts base scope m e, Cell base depth a)
    (hargs : EvaluatesArgs hosts base scope (top + 1) m args
      ((eval hosts base scope top e s).2.put base top (Direct.word hosts base scope m e))) :
    EvaluatesArgs hosts base scope top m (e :: args) s := by
  have heval : evalArgs hosts base scope top (e :: args) s = evalArgs hosts base scope (top + 1)
      args ((eval hosts base scope top e s).2.put base top
        (Direct.word hosts base scope m e)) := by
    simp only [evalArgs, he.word hfinal _ .refl]
  constructor
  · rw [heval]
    exact (he.agrees.trans (.put le_rfl hnonneg hlt _)).trans (hargs.agrees.mono (by omega))
  · rw [heval, hargs.calls]
    exact (congrArg (· ++ _) he.calls).trans (by rw [List.append_assoc, Direct.callsArgs])
  · rw [heval, List.length_cons, Store.words_succ, hargs.agrees.read_put hnonneg, hargs.words,
      Direct.words]

theorem Expr.held_nonneg (e : Expr) : 0 ≤ e.held := by
  fun_induction Expr.held e <;> omega

mutual

/-- Where all reads are of slots below `depth`, an expression that keeps the typing rules evaluates
to what it stands for. -/
theorem Expr.evaluates {f : Frame} (hnonneg : 0 ≤ depth) :
    ∀ (e : Expr) {o : Operand} {top : Int} {s : Store}, e.operand f = some o → e.callable hosts →
      (∀ a ∈ Direct.route hosts base f.locals m e, Cell base depth a) → depth ≤ top →
      top + e.slots ≤ 65536 → Agrees base depth m s.memory →
      Evaluates hosts base f.locals depth top m o e s
  | .literal n, o, top, s, ho, _, _, _, _, _ => by
    simp only [operand, Option.ite_none_right_eq_some, Option.some.injEq] at ho
    exact .literal n (ho.2 ▸ rfl) (ho.2 ▸ rfl)
  | .name x, o, top, s, ho, _, _, hle, _, hm => by
    simp only [operand, Option.map_eq_some_iff] at ho
    obtain ⟨v, hv, -⟩ := ho
    exact .name (by rw [Frame.find_locals, hv, Option.map_some]) hle hm
  | .call g args, o, top, s, ho, hcalls, hroute, hle, hslots, hm => by
    simp only [operand, Option.ite_none_right_eq_some, Option.some.injEq] at ho
    obtain ⟨hscalars, rfl⟩ := ho
    simp only [callable, Bool.and_eq_true, Option.any_eq_true] at hcalls
    obtain ⟨⟨h, hname, -⟩, hargs⟩ := hcalls
    simp only [slots] at hslots
    exact .call hname (by omega) (by omega)
      (Expr.evaluatesArgs hnonneg args hscalars hargs hroute hle (by omega) hm)
  | .binary op l r, o, top, s, ho, hcalls, hroute, hle, hslots, hm => by
    simp only [operand, Option.bind_eq_some_iff, Option.map_eq_some_iff] at ho
    obtain ⟨lo, hlo, ro, hro, type, -, rfl⟩ := ho
    simp only [callable, Bool.and_eq_true] at hcalls
    simp only [slots] at hslots
    have hheld := l.held_nonneg
    have hparts := hroute
    simp only [Direct.route, List.forall_mem_append] at hparts
    have hl := Expr.evaluates hnonneg l hlo hcalls.1 hparts.1.1 hle (by omega) hm
    have hr : Evaluates hosts base f.locals depth (top + l.held) m ro r _ :=
      Expr.evaluates hnonneg r hro hcalls.2 hparts.2.1 (by omega) (by omega)
        (hm.trans (hl.agrees.mono hle))
    exact .binary (by omega) (by omega) hheld hl hr hroute
  | .deref e, o, top, s, ho, hcalls, hroute, hle, hslots, hm => by
    simp only [operand, Option.bind_eq_some_iff] at ho
    obtain ⟨o', ho', hp⟩ := ho
    have hparts := hroute
    simp only [Direct.route, List.forall_mem_append] at hparts
    exact .deref hp (Expr.evaluates hnonneg e ho' hcalls hparts.1 hle hslots hm) hm hle
      e.held_nonneg hroute
  | .addressOf e, o, top, s, ho, hcalls, hroute, hle, hslots, hm => by
    simp only [operand, Option.bind_eq_some_iff, Option.ite_none_right_eq_some,
      Option.some.injEq] at ho
    obtain ⟨o', ho', haddressable, rfl⟩ := ho
    simp only [slots] at hslots
    exact .addressOf haddressable (by omega) (by omega)
      (Expr.evaluates hnonneg e ho' hcalls hroute hle (by omega) hm)

theorem Expr.evaluatesArgs {f : Frame} (hnonneg : 0 ≤ depth) :
    ∀ (args : List Expr) {top : Int} {s : Store}, scalars f args → callableArgs hosts args →
      (∀ a ∈ Direct.routeArgs hosts base f.locals m args, Cell base depth a) → depth ≤ top →
      top + slotsArgs args ≤ 65536 → Agrees base depth m s.memory →
      EvaluatesArgs hosts base f.locals top m args s
  | [], top, s, _, _, _, _, _, _ =>
    ⟨.refl, by simp [evalArgs, Direct.callsArgs], by simp [Store.words, Direct.words]⟩
  | e :: args, top, s, hscalars, hcalls, hroute, hle, hslots, hm => by
    simp only [scalars, Bool.and_eq_true] at hscalars
    simp only [callableArgs, Bool.and_eq_true] at hcalls
    simp only [slotsArgs] at hslots
    simp only [Direct.routeArgs, List.forall_mem_append] at hroute
    obtain ⟨o, ho⟩ := Option.isSome_iff_exists.1 (Option.isSome_of_any hscalars.1)
    have he := Expr.evaluates hnonneg e ho hcalls.1 hroute.1.1 hle (by omega) hm
    have hput := he.agrees.trans
      (.put le_rfl (by omega) (by omega) (Direct.word hosts base f.locals m e))
    exact .cons (by omega) (by omega) he hroute.1.2 (Expr.evaluatesArgs hnonneg args hscalars.2
      hcalls.2 hroute.2 (by omega) (by omega) (hm.trans (hput.mono hle)))

end

end Expressions

/-- The addresses of the words of the variables in scope. -/
def Meaning.State.cells (base : UInt16) (st : State) : List UInt16 :=
  st.scope.flatMap fun x => (List.range x.words.toNat).map fun k : Nat =>
    slotAddress base (x.slot + k)

namespace Direct

variable (hosts : HostTable) (base : UInt16)

/-- What a statement does. Only variables and what an assignment stores are written to memory. -/
def stmt (s : Stmt) (st : State) : State :=
  let m := st.store.memory
  match s with
  | .empty => { st with value := none }
  | .expr e =>
    { st with
      store := ⟨m, st.store.calls ++ (calls hosts base st.scope m e).toArray⟩
      value := some (word hosts base st.scope m e) }
  | .assign l r =>
    { st with
      store := ⟨m.write (place hosts base st.scope m l) (word hosts base st.scope m r),
        st.store.calls ++ (calls hosts base st.scope m l ++ calls hosts base st.scope m r).toArray⟩
      value := none }
  | .var d none =>
    { st with
      blocks := st.declare d.name (declWords st.sizes d)
      store := st.store.clear base st.top (declWords st.sizes d).toNat
      value := none }
  | .var d (some e) =>
    { st with
      blocks := st.declare d.name 1
      store := Store.put base ⟨m, st.store.calls ++ (calls hosts base st.scope m e).toArray⟩ st.top
        (word hosts base st.scope m e)
      value := none }

def reads (s : Stmt) (st : State) : List UInt16 :=
  let route := route hosts base st.scope st.store.memory
  let final := final hosts base st.scope st.store.memory
  match s with
  | .empty | .var _ none => []
  | .expr e | .var _ (some e) => route e ++ final e
  | .assign l r => route l ++ (route r ++ final r)

def item (i : Item) (st : State) : State :=
  match i with
  | .stmt s => stmt hosts base s st
  | i => Meaning.item hosts base i st

def itemReads : Item → State → List UInt16
  | .stmt s, st => reads hosts base s st
  | _, _ => []

def program (items : List Item) (st : State) : State :=
  items.foldl (fun st i => item hosts base i st) st

/-- Whether all that an item reads is variables in scope, and there are slots for what it
computes. -/
def safeItem (i : Item) (st : State) : Bool :=
  (itemReads hosts base i st).all (· ∈ st.cells base) && st.top + i.slots ≤ 65536

def safe : List Item → State → Bool
  | [], _ => true
  | i :: items, st => safeItem hosts base i st && safe items (item hosts base i st)

variable {hosts base}

theorem safe_append (items : List Item) (i : Item) (st : State) :
    safe hosts base (items ++ [i]) st =
      (safe hosts base items st && safeItem hosts base i (program hosts base items st)) := by
  induction items generalizing st with
  | nil => simp [safe, program]
  | cons j items ih =>
    rw [List.cons_append, safe, ih, safe, Bool.and_assoc]
    rfl

/-- What both evaluations have come to: they differ above the variables only. -/
structure Matches (base : UInt16) (st st' : State) : Prop where
  sizes : st'.sizes = st.sizes
  blocks : st'.blocks = st.blocks
  calls : st'.store.calls = st.store.calls
  value : st'.value = st.value
  memory : Agrees base st.top st.store.memory st'.store.memory

end Direct

/-- The live variables have slots of their own below the depth, and every type has its size. -/
structure Frame.Packed (f : Frame) : Prop where
  regular : ∀ v ∈ f.visible, ∀ b ∈ v.type.base, b.Regular
  words : ∀ v ∈ f.visible, 1 ≤ v.type.words
  bounds : ∀ v ∈ f.visible, 0 ≤ v.address ∧ v.address + v.type.words ≤ f.depth
  distinct : ∀ v ∈ f.visible, ∀ w ∈ f.visible, v.address = w.address → v = w
  nonneg : 0 ≤ f.depth

theorem Session.Roomy.packed {s : Session} (h : s.Roomy) : s.frame.Packed := by
  have htiled := h.orderly.tiled
  obtain ⟨hnonneg, hdepth⟩ := h.words
  have hroom := h.room
  have hlt : totalWords s.frame.visible < 2 ^ 63 := by omega
  refine ⟨fun v hv b hb => ?_, fun v hv => (htiled.visible v hv).words, ?_,
    htiled.tiles.distinct htiled.visible hlt, by omega⟩
  · obtain ⟨c, hc, hnamed⟩ := (htiled.visible v hv).named
    rw [hc, Option.mem_some_iff] at hb
    exact hb ▸ hnamed.regular
  · rw [hdepth]
    exact htiled.tiles.bounds htiled.visible hlt

/-- The variables of a state are those of a frame. -/
structure Spans (f : Frame) (st : State) : Prop where
  scope : st.scope = f.locals
  top : st.top = f.depth
  nonneg : 0 ≤ f.depth

theorem Spans.of_shows {s : Session} {st : State} (hs : s.Roomy) (hst : st.Shows s.types s.frame) :
    Spans s.frame st where
  scope := hst.scope hs.orderly.tiled
  top := (hst.top hs.orderly.tiled).trans hs.words.2.symm
  nonneg := hs.packed.nonneg

theorem Meaning.State.top_declare {st t : State} {name : String} {words : Int}
    (h : t.blocks = st.declare name words) : t.top = st.top + words := by
  unfold State.declare at h
  cases hblocks : st.blocks <;> simp [State.top, State.scope, hblocks, h, add_comm]

theorem Meaning.State.top_tail {st t : State} (h : t.blocks = st.blocks.tail)
    (hwords : ∀ x ∈ st.scope, 0 ≤ x.words) : t.top ≤ st.top := by
  cases hblocks : st.blocks with
  | nil => simp [State.top, State.scope, h, hblocks]
  | cons block outer =>
    have hblock : 0 ≤ (block.map (·.words)).sum := by
      refine List.sum_nonneg fun n hn => ?_
      obtain ⟨x, hx, rfl⟩ := List.mem_map.1 hn
      exact hwords x (by simp [State.scope, hblocks, hx])
    simpa [State.top, State.scope, h, hblocks] using hblock

theorem Meaning.Store.calls_clear (base : UInt16) (s : Store) (slot : Int) (n : Nat) :
    (s.clear base slot n).calls = s.calls := by
  induction n generalizing s slot with
  | zero => rfl
  | succ n ih => exact ih _ _

namespace Direct

section

variable {hosts : HostTable} {base : UInt16} {f : Frame} {st st' : State}

theorem Matches.scope (h : Matches base st st') : st'.scope = st.scope :=
  congrArg List.flatten h.blocks

theorem Matches.top (h : Matches base st st') : st'.top = st.top := by
  rw [State.top, h.scope, State.top]

theorem Matches.declare (h : Matches base st st') (name : String) (words : Int) :
    st'.declare name words = st.declare name words := by
  simp only [State.declare, h.blocks, h.top]

theorem Matches.spans (h : Matches base st st') (hl : Spans f st') : Spans f st :=
  ⟨h.scope.symm.trans hl.scope, h.top.symm.trans hl.top, hl.nonneg⟩

theorem Matches.agrees (h : Matches base st st') (hl : Spans f st) :
    Agrees base f.depth st.store.memory st'.store.memory := hl.top ▸ h.memory

theorem cell_of_mem (hf : f.Packed) (hscope : st.scope = f.locals) {a : UInt16}
    (ha : a ∈ st.cells base) : Cell base f.depth a := by
  simp only [State.cells, hscope, Frame.locals, List.flatMap_map, List.mem_flatMap, List.mem_map,
    List.mem_range] at ha
  obtain ⟨v, hv, k, hk, rfl⟩ := ha
  obtain ⟨hlo, hhi⟩ := hf.bounds v hv
  refine ⟨v.address + k, by omega, ?_, rfl⟩
  simp only [Variable.toLocal] at hk
  omega

variable {e l r : Expr} {o lo ro : Operand}

theorem evaluates_of_spans (h : Spans f st) (ho : e.operand f = some o) (hcalls : e.callable hosts)
    {top : Int} {t : Store} (hle : f.depth ≤ top) (hslots : top + e.slots ≤ 65536)
    (hroute : ∀ a ∈ route hosts base st.scope st.store.memory e, Cell base f.depth a)
    (hm : Agrees base f.depth st.store.memory t.memory) :
    Evaluates hosts base st.scope f.depth top st.store.memory o e t := by
  rw [h.scope] at hroute ⊢
  exact e.evaluates h.nonneg ho hcalls hroute hle hslots hm

theorem Matches.expr (h : Matches base st st') (hl : Spans f st) (ho : e.operand f = some o)
    (hcalls : e.callable hosts) (hroom : f.depth + e.slots ≤ 65536)
    (hreads : ∀ a ∈ reads hosts base (.expr e) st, Cell base f.depth a) :
    Matches base (stmt hosts base (.expr e) st) (Meaning.stmt hosts base (.expr e) st') := by
  simp only [reads, List.forall_mem_append] at hreads
  have he := evaluates_of_spans hl ho hcalls le_rfl hroom hreads.1 (h.agrees hl)
  simp only [Meaning.stmt, h.scope, h.top, hl.top]
  refine ⟨h.sizes, h.blocks, ?_, ?_, h.memory.trans (hl.top ▸ he.agrees)⟩
  · rw [← Array.toList_inj]
    simp [stmt, he.calls, h.calls]
  · simp [stmt, he.word hreads.2 _ .refl]

theorem Matches.assign (h : Matches base st st') (hl : Spans f st) (hlo : l.operand f = some lo)
    (hro : r.operand f = some ro) (ha : lo.addressable) (hcallsl : l.callable hosts)
    (hcallsr : r.callable hosts) (hroom : f.depth + max l.slots (l.held + r.slots) ≤ 65536)
    (hreads : ∀ a ∈ reads hosts base (.assign l r) st, Cell base f.depth a) :
    Matches base (stmt hosts base (.assign l r) st)
      (Meaning.stmt hosts base (.assign l r) st') := by
  simp only [reads, List.forall_mem_append] at hreads
  have hheld := l.held_nonneg
  have hleft := evaluates_of_spans hl hlo hcallsl le_rfl (by omega) hreads.1 (h.agrees hl)
  have hright : Evaluates hosts base st.scope f.depth (f.depth + l.held) st.store.memory ro r _ :=
    evaluates_of_spans hl hro hcallsr (by omega) (by omega) hreads.2.1
      ((h.agrees hl).trans hleft.agrees)
  simp only [Meaning.stmt, h.scope, h.top, hl.top, held_eval, hleft.place ha _ hright.agrees,
    hright.word hreads.2.2 _ .refl]
  refine ⟨h.sizes, h.blocks, ?_, rfl, ?_⟩
  · rw [← Array.toList_inj]
    simp [stmt, hright.calls, hleft.calls, h.calls]
  · refine Agrees.write (h.memory.trans ?_) _ _
    rw [hl.top]
    exact hleft.agrees.trans (hright.agrees.mono (by omega))

theorem Matches.var (h : Matches base st st') (d : Decl) (hpos : 0 ≤ declWords st.sizes d) :
    Matches base (stmt hosts base (.var d none) st)
      (Meaning.stmt hosts base (.var d none) st') := by
  have hcleared := h.memory.clear_next (declWords st.sizes d).toNat
  have hnext : (stmt hosts base (.var d none) st).top = st.top + declWords st.sizes d :=
    State.top_declare rfl
  simp only [Meaning.stmt, h.sizes, h.top]
  refine ⟨rfl, h.declare _ _, ?_, rfl, ?_⟩
  · simp [stmt, Store.calls_clear, h.calls]
  · rw [hnext, ← Int.toNat_of_nonneg hpos]
    exact hcleared

theorem Matches.varValue (h : Matches base st st') (hl : Spans f st) (ho : e.operand f = some o)
    (d : Decl) (hcalls : e.callable hosts) (hroom : f.depth + e.slots ≤ 65536)
    (hreads : ∀ a ∈ reads hosts base (.var d (some e)) st, Cell base f.depth a) :
    Matches base (stmt hosts base (.var d (some e)) st)
      (Meaning.stmt hosts base (.var d (some e)) st') := by
  simp only [reads, List.forall_mem_append] at hreads
  have he := evaluates_of_spans hl ho hcalls le_rfl hroom hreads.1 (h.agrees hl)
  have hnext : (stmt hosts base (.var d (some e)) st).top = st.top + 1 := State.top_declare rfl
  simp only [Meaning.stmt, h.scope, h.top, hl.top, he.word hreads.2 _ .refl]
  refine ⟨h.sizes, h.declare _ _, ?_, rfl, ?_⟩
  · rw [← Array.toList_inj]
    simp [stmt, Store.put, he.calls, h.calls]
  · rw [hnext, stmt, hl.top]
    exact ((h.agrees hl).trans he.agrees).put_next _

theorem Matches.stmt {s : Session} {g : Frame} {i : Stmt} (h : Matches base st st') (hs : s.Roomy)
    (hst : st'.Shows s.types s.frame) (hi : i.frame s.types s.frame = some g)
    (hcalls : ∀ e ∈ i.exprs, e.callable hosts) (hroom : s.frame.depth + i.slots ≤ 65536)
    (hreads : ∀ a ∈ reads hosts base i st, Cell base s.frame.depth a) :
    Matches base (Direct.stmt hosts base i st) (Meaning.stmt hosts base i st') := by
  have hl := h.spans (Spans.of_shows hs hst)
  cases Stmt.keeps_of_frame hi with
  | empty => exact ⟨h.sizes, h.blocks, h.calls, rfl, h.memory⟩
  | expr ho hd => exact h.expr hl ho (hcalls _ (by simp [Stmt.exprs])) hroom hreads
  | assign hlo hro hassign =>
    simp only [Operand.assignable, Bool.and_eq_true] at hassign
    exact h.assign hl hlo hro hassign.1.1.1 (hcalls _ (by simp [Stmt.exprs]))
      (hcalls _ (by simp [Stmt.exprs])) hroom hreads
  | var hdecl hpos =>
    have hwords := Decl.words_declared hdecl
    rw [← hst.sizes, h.sizes] at hwords
    exact h.var _ (hwords ▸ hpos.le)
  | varValue hdecl ho hinit =>
    exact h.varValue hl ho _ (hcalls _ (by simp [Stmt.exprs])) hroom hreads

theorem Matches.item {s t : Session} {i : Item} (h : Matches base st st') (hs : s.Roomy)
    (hst : st'.Shows s.types s.frame) (hd : s.Does i t)
    (hcalls : ∀ e ∈ i.exprs, e.callable hosts) (hsafe : safeItem hosts base i st) :
    Matches base (Direct.item hosts base i st) (Meaning.item hosts base i st') := by
  have hl := h.spans (Spans.of_shows hs hst)
  cases i with
  | struct name fields =>
    refine ⟨?_, h.blocks, h.calls, rfl, h.memory⟩
    simp only [Meaning.item, Direct.item, h.sizes]
  | openBlock =>
    exact ⟨h.sizes, congrArg ([] :: ·) h.blocks, h.calls, rfl, h.memory⟩
  | closeBlock =>
    refine ⟨h.sizes, congrArg List.tail h.blocks, h.calls, rfl, h.memory.mono ?_⟩
    refine State.top_tail rfl fun x hx => ?_
    rw [hl.scope] at hx
    obtain ⟨v, hv, rfl⟩ := List.mem_map.1 hx
    exact (hs.packed.words v hv).trans' zero_le_one
  | stmt i =>
    simp only [safeItem, Bool.and_eq_true, List.all_eq_true, decide_eq_true_eq] at hsafe
    exact h.stmt hs hst hd.1 hcalls (hl.top ▸ hsafe.2)
      fun a ha => cell_of_mem hs.packed hl.scope (hsafe.1 a ha)

end

end Direct

namespace Session

variable {hosts : HostTable} {base : UInt16} {s₀ s : Session} {items : List Item} {st : State}
  {c : Core}

/-- Along a whole source: where all reads are of variables in scope, the meaning is what the
expressions stand for, whatever is put above the variables in between. -/
theorem DoesAll.direct (h : DoesAll s₀ items s)
    (hcalls : ∀ item ∈ items, ∀ e ∈ item.exprs, e.callable hosts)
    (hst : st.Shows s₀.types s₀.frame) (hc : c.At base s₀.frame.depth st.store)
    (hsafe : Direct.safe hosts base items st) :
    Direct.Matches base (Direct.program hosts base items st)
      (Meaning.program hosts base items st) := by
  induction h with
  | nil => exact ⟨rfl, rfl, rfl, rfl, .refl⟩
  | @snoc items item s t h hs hd hm hsize ih =>
    simp only [List.forall_mem_append, List.forall_mem_singleton] at hcalls
    rw [Direct.safe_append, Bool.and_eq_true] at hsafe
    obtain ⟨-, -, -, -, -, hshows, -⟩ := h.runs hcalls.1 hst hc
    have hnext := (ih hcalls.1 hsafe.1).item hs hshows hd hcalls.2 hsafe.2
    simpa only [Direct.program, Meaning.program, List.foldl_append, List.foldl_cons,
      List.foldl_nil] using hnext

end Session

/-- Where all that a source reads is variables in scope, and the slots are not used up, a
processor does what the expressions stand for: the calls made, the variables in scope and the value
in `r1` are those of an evaluation that keeps no intermediate result in memory. -/
theorem compile_preserves_direct (ids : IdSupply) {ts rest : List Token} {s : Session} {i : Nat}
    (hts : fitsInMemory 1 ts.length) (h : Reaches (.fresh ids) ts s i rest) (hm : s.InMemory) :
    ∃ us program, ts = us ++ rest ∧ DerivesProgram us program ∧
      ∀ (cpu : Cpu) (lines : Array ProgramLine) (max : Int),
        (∀ item ∈ program, ∀ e ∈ item.exprs, e.callable cpu.hosts) →
        lines.toList.map (·.instr) = s.code.toList → s.code.size < max →
        let start : State := { store := ⟨cpu.core.memory, cpu.core.calls⟩ }
        Direct.safe cpu.hosts cpu.core.sp program start →
        let r := Direct.program cpu.hosts cpu.core.sp program start
        ∃ done, (cpu.load lines).run max = .ok () done ∧ done.core.calls = r.store.calls ∧
          r.scope = s.frame.locals ∧
          (∀ a ∈ r.cells cpu.core.sp, done.core.memory.read a = r.store.memory.read a) ∧
          ∀ before e, program = before ++ [.stmt (.expr e)] → (e.result s.frame).scalar →
            r.value = some done.core.r1 := by
  have hroomy := (h.roomy Session.orderly_fresh le_rfl hts hm).1
  obtain ⟨us, program, heq, hderives, hall⟩ := h.doesAll Session.orderly_fresh le_rfl hts hm
  refine ⟨us, program, heq, hderives, ?_⟩
  intro cpu lines max hcalls hlines hmax start hsafe r
  obtain ⟨done, hrun, hat, hshows, hvalue⟩ := hall.run_load cpu hcalls hlines hmax
  have hmatch := hall.direct hcalls (State.shows_fresh _ ids) cpu.core.at_start hsafe
  have hspans := hmatch.spans (Spans.of_shows hroomy hshows)
  refine ⟨done, hrun, hat.calls.trans hmatch.calls, hspans.scope, fun a ha => ?_,
    fun before e hprogram hscalar => ?_⟩
  · have hcell := Direct.cell_of_mem hroomy.packed hspans.scope ha
    rw [hat.memory]
    exact hcell.read_eq (hmatch.agrees hspans)
  · rw [← hmatch.value]
    exact hvalue before e hprogram hscalar

example : Direct.safe [("f", ⟨2, List.sum⟩)] 100
    ((Item.readAll (tokensOf ("var x = 3; var p = &x; \x7b var q = &p; " ++
      "**q = f(*p * 2, x) - 1; \x7d x + *p;"))).getD []) { store := ⟨.zero, #[]⟩ } := by
  decide +kernel

end OnePass
