import Mathlib
import OnePass.Proofs.Direct
import OnePass.Proofs.Height

namespace OnePass

open Meaning

namespace TypeInfo

theorem same_refl (a : TypeInfo) : a.same a := by simp [same]

theorem same_symm {a b : TypeInfo} (h : a.same b) : b.same a := by
  simp only [same, Bool.and_eq_true, Bool.or_eq_true, decide_eq_true_eq] at h ⊢
  exact ⟨h.1.symm, h.1 ▸ h.2.imp id Eq.symm⟩

theorem same_trans {a b c : TypeInfo} (h : a.same b) (h' : b.same c) : a.same c := by
  simp only [same, Bool.and_eq_true, Bool.or_eq_true, decide_eq_true_eq] at h h' ⊢
  grind

end TypeInfo

namespace Ty

variable {t u v : Ty}

theorem sameBase_refl (t : Ty) : t.sameBase t := by
  unfold sameBase
  cases t.base with
  | none => rfl
  | some a => exact a.same_refl

theorem sameBase_symm (h : t.sameBase u) : u.sameBase t := by
  unfold sameBase at h ⊢
  cases ht : t.base <;> cases hu : u.base <;> simp only [ht, hu] at h ⊢
  · cases h
  · cases h
  · exact TypeInfo.same_symm h

theorem sameBase_trans (h : t.sameBase u) (h' : u.sameBase v) : t.sameBase v := by
  unfold sameBase at h h' ⊢
  cases ht : t.base <;> cases hu : u.base <;> cases hv : v.base <;> simp only [ht, hu, hv] at h h' ⊢
  · cases h'
  · cases h
  · cases h
  · cases h
  · cases h'
  · exact TypeInfo.same_trans h h'

theorem same_refl (t : Ty) : t.same t := same_iff.2 ⟨t.sameBase_refl, rfl⟩

theorem same_symm (h : t.same u) : u.same t :=
  same_iff.2 ⟨sameBase_symm (same_iff.1 h).1, (same_iff.1 h).2.symm⟩

theorem same_trans (h : t.same u) (h' : u.same v) : t.same v :=
  same_iff.2 ⟨sameBase_trans (same_iff.1 h).1 (same_iff.1 h').1,
    (same_iff.1 h).2.trans (same_iff.1 h').2⟩

/-- The type that a pointer of type `t` leads to. -/
def pointee (t : Ty) : Ty := { t with depth := wrap (t.depth - 1) }

theorem same_pointee (h : t.same u) : t.pointee.same u.pointee := by
  obtain ⟨hbase, hdepth⟩ := same_iff.1 h
  exact same_iff.2 ⟨hbase, by simp [pointee, hdepth]⟩

/-- A pointer is stored in a slot of its own type only. -/
theorem same_of_accepts (h : holds (t.accepts u)) (ht : t.depth ≠ 0) : t.same u := by
  unfold accepts at h
  cases hu : u.isUntyped with
  | error e => simp [hu, bind, Except.bind, holds] at h
  | ok untyped =>
    cases untyped with
    | true => simp [hu, bind, Except.bind, pure, Except.pure, ht, holds] at h
    | false => simpa [hu, bind, Except.bind, pure, Except.pure, holds] using h

theorem same_of_initial (h : t.initial u = some v) (hv : v.depth ≠ 0) : v.same u := by
  unfold initial at h
  split at h
  · split at h
    · rename_i hu
      obtain rfl := Option.some.inj h
      simp [isUntyped, show u.depth ≠ 0 from hv, holds] at hu
    · exact Option.some.inj h ▸ same_refl u
  · split at h
    · rename_i haccepts
      obtain rfl := Option.some.inj h
      exact same_of_accepts haccepts hv
    · cases h

theorem wrap_depth_initial (h : t.initial u = some v) (hu : wrap u.depth = u.depth) :
    wrap v.depth = v.depth := by
  by_cases hv : v.depth = 0
  · rw [hv]
    rfl
  · rw [(same_iff.1 (same_of_initial h hv)).2, hu]

end Ty

section Addresses

variable {m m' : Memory}

theorem path_succ (m : Memory) (n : Nat) (a : UInt16) :
    path m (n + 1) a = path m n a ++ [follow m n a] := by
  induction n generalizing a with
  | zero => rfl
  | succ n ih =>
    rw [path, ih (m.read a)]
    rfl

theorem path_congr {n : Nat} {a : UInt16} (h : ∀ b ∈ path m n a, m'.read b = m.read b) :
    path m' n a = path m n a ∧ follow m' n a = follow m n a := by
  induction n generalizing a with
  | zero => exact ⟨rfl, rfl⟩
  | succ n ih =>
    obtain ⟨ha, h⟩ := List.forall_mem_cons.1 h
    obtain ⟨hpath, hfollow⟩ := ih h
    rw [path, path, follow, follow, ha, hpath, hfollow]
    exact ⟨rfl, rfl⟩

end Addresses

namespace Frame

variable (f : Frame) (base : UInt16)

/-- The address is that of a live variable of type `t`: of its last slot, the lowest address. -/
def HasAt (t : Ty) (a : UInt16) : Prop :=
  ∃ w ∈ f.visible, w.type.same t ∧ a = slotAddress base (w.address + w.type.words - 1)

/-- The address is that of a word of a live variable. -/
def Owns (a : UInt16) : Prop :=
  ∃ w ∈ f.visible, ∃ k, 0 ≤ k ∧ k < w.type.words ∧ a = slotAddress base (w.address + k)

/-- Every pointer takes one word, and holds the address of a live variable of the type that it
points to. -/
structure Sound (m : Memory) : Prop where
  range : ∀ v ∈ f.visible, wrap v.type.depth = v.type.depth
  pointers : ∀ v ∈ f.visible, v.type.depth ≠ 0 → v.type.words = 1 ∧
    f.HasAt base v.type.pointee (m.read (slotAddress base v.address))

variable {f base} {m m' : Memory} {t u : Ty} {a : UInt16} {v : Variable}

theorem HasAt.congr (h : f.HasAt base t a) (htu : t.same u) : f.HasAt base u a := by
  obtain ⟨w, hw, htype, ha⟩ := h
  exact ⟨w, hw, Ty.same_trans htype htu, ha⟩

theorem Packed.owns_first (hf : f.Packed) (hv : v ∈ f.visible) :
    f.Owns base (slotAddress base v.address) :=
  ⟨v, hv, 0, le_rfl, hf.words v hv, by rw [add_zero]⟩

theorem HasAt.first (h : f.HasAt base t a)
    (hone : ∀ w ∈ f.visible, w.type.same t → w.type.words = 1) :
    ∃ w ∈ f.visible, w.type.same t ∧ a = slotAddress base w.address := by
  obtain ⟨w, hw, htype, rfl⟩ := h
  exact ⟨w, hw, htype, by rw [hone w hw htype, add_sub_cancel_right]⟩

theorem HasAt.owns (h : f.HasAt base t a) (hf : f.Packed)
    (hone : ∀ w ∈ f.visible, w.type.same t → w.type.words = 1) : f.Owns base a := by
  obtain ⟨w, hw, -, rfl⟩ := h.first hone
  exact hf.owns_first hw

theorem Packed.words_of_scalar (hf : f.Packed) {w : Variable} (hw : w ∈ f.visible)
    (h : w.type.same t) (ht : holds t.isScalar) : w.type.words = 1 :=
  Ty.words_of_scalar (hf.regular w hw) (Ty.isScalar_of_same h ht)

theorem Sound.words (h : f.Sound base m) (ht : t.depth ≠ 0) :
    ∀ w ∈ f.visible, w.type.same t → w.type.words = 1 :=
  fun w hw htype => (h.pointers w hw ((Ty.same_iff.1 htype).2 ▸ ht)).1

/-- What a pointer in memory leads to. -/
theorem Sound.read (h : f.Sound base m) (ha : f.HasAt base t a) (ht : t.depth ≠ 0) :
    f.HasAt base t.pointee (m.read a) := by
  obtain ⟨w, hw, htype, rfl⟩ := ha.first (h.words ht)
  exact (h.pointers w hw ((Ty.same_iff.1 htype).2 ▸ ht)).2.congr (Ty.same_pointee htype)

theorem Packed.sound_write (hf : f.Packed) (h : f.Sound base m) (hdepth : f.depth ≤ 65536)
    (ha : f.HasAt base t a) (hone : ∀ w ∈ f.visible, w.type.same t → w.type.words = 1)
    {x : UInt16} (hx : t.depth ≠ 0 → f.HasAt base t.pointee x) : f.Sound base (m.write a x) := by
  refine ⟨h.range, fun v hv hd => ?_⟩
  obtain ⟨hwords, hpoints⟩ := h.pointers v hv hd
  refine ⟨hwords, ?_⟩
  obtain ⟨w, hw, htype, rfl⟩ := ha.first hone
  by_cases heq : slotAddress base w.address = slotAddress base v.address
  · -- the variable written to is the pointer itself
    have hbound {u : Variable} (hu : u ∈ f.visible) : 0 ≤ u.address ∧ u.address < 65536 := by
      obtain ⟨hlo, hhi⟩ := hf.bounds u hu
      have := hf.words u hu
      exact ⟨hlo, by omega⟩
    obtain rfl := hf.distinct w hw v hv (slotAddress_injective (hbound hw) (hbound hv) heq)
    rw [Memory.read_write_self]
    exact (hx ((Ty.same_iff.1 htype).2 ▸ hd)).congr (Ty.same_symm (Ty.same_pointee htype))
  · rw [Memory.read_write_of_ne _ _ heq]
    exact hpoints

theorem Sound.extend (h : f.Sound base m) (hopen : f.closed.contains f.scope = false) (d : Decl)
    (hrange : wrap t.depth = t.depth) (ht : t.depth ≠ 0 → t.words = 1 ∧
      f.HasAt base t.pointee (m.read (slotAddress base f.depth))) :
    (f.extend d t).Sound base m := by
  have hvisible := visible_extend hopen d t
  have hmono {u : Ty} {a : UInt16} (ha : f.HasAt base u a) : (f.extend d t).HasAt base u a := by
    obtain ⟨w, hw, hrest⟩ := ha
    exact ⟨w, by rw [hvisible]; exact List.mem_cons_of_mem _ hw, hrest⟩
  refine ⟨fun v hv => ?_, fun v hv hd => ?_⟩ <;> rw [hvisible] at hv <;>
    rcases List.mem_cons.1 hv with rfl | hv
  · exact hrange
  · exact h.range v hv
  · exact ⟨(ht hd).1, hmono (ht hd).2⟩
  · exact ⟨(h.pointers v hv hd).1, hmono (h.pointers v hv hd).2⟩

end Frame

namespace Agrees

variable {base : UInt16} {top : Int} {m m' : Memory} {f : Frame}

theorem owned (h : Agrees base top m m') (hf : f.Packed) (htop : f.depth ≤ top) {a : UInt16}
    (ha : f.Owns base a) : m'.read a = m.read a := by
  obtain ⟨w, hw, k, h₀, h₁, rfl⟩ := ha
  obtain ⟨hlo, hhi⟩ := hf.bounds w hw
  exact h _ (by omega) (by omega)

theorem sound (h : Agrees base top m m') (hf : f.Packed) (htop : f.depth ≤ top)
    (hs : f.Sound base m) : f.Sound base m' := by
  refine ⟨hs.range, fun v hv hdepth => ?_⟩
  rw [h.owned hf htop (hf.owns_first hv)]
  exact hs.pointers v hv hdepth

end Agrees

/-- What an expression of a sound program stands for. A pointer that is a result holds the address
of a live variable; what is reached through a pointer is one. -/
inductive Typed (f : Frame) (base : UInt16) (m : Memory) (o : Operand) : Value → Prop where
  | literal (n : Int) (ht : o.type.depth = 0) (ha : o.addressable = false) :
    Typed f base m o (.literal n)
  | named {v : Variable} (hv : v ∈ f.visible) (ht : o.type = v.type) :
      Typed f base m o (.named v.toLocal 0)
  | result (slot : Int) (ha : o.addressable = false)
      (ht : o.type.depth ≠ 0 → f.HasAt base o.type.pointee (m.read (slotAddress base slot))) :
      Typed f base m o (.result slot 0)
  | pointed {v : Value} (hv : 0 < v.derefs) (ht : f.HasAt base o.type (v.address base m))
      (hroute : ∀ a ∈ v.route base m, f.Owns base a) : Typed f base m o v

def Meaning.Value.Below (top : Int) : Value → Prop
  | .result slot _ => 0 ≤ slot ∧ slot < top
  | _ => True

namespace Typed

variable {f : Frame} {base : UInt16} {m m' : Memory} {o o' : Operand} {v : Value}

theorem located (h : Typed f base m o v) (ha : o.addressable) :
    f.HasAt base o.type (v.address base m) ∧ ∀ a ∈ v.route base m, f.Owns base a := by
  cases h with
  | literal n ht hna => simp [ha] at hna
  | named hv ht => exact ⟨⟨_, hv, ht ▸ Ty.same_refl _, rfl⟩, by simp [Value.route, path]⟩
  | result slot hna ht => simp [ha] at hna
  | pointed hv ht hroute => exact ⟨ht, hroute⟩

theorem reads_eq (base : UInt16) (m : Memory) (hv : 0 < v.derefs) :
    v.reads base m = v.route base m ++ [v.address base m] ∧
      v.word base m = m.read (v.address base m) := by
  cases v with
  | literal n => simp [Value.derefs] at hv
  | named x n =>
    cases n with
    | zero => simp [Value.derefs] at hv
    | succ n => exact ⟨path_succ m (n + 1) _, follow_succ m n _⟩
  | result slot n =>
    cases n with
    | zero => simp [Value.derefs] at hv
    | succ n => exact ⟨path_succ m n _, follow_succ m n _⟩

theorem deref_eq (base : UInt16) (m : Memory) (hv : 0 < v.derefs) :
    v.deref.route base m = v.reads base m ∧ v.deref.address base m = v.word base m := by
  cases v with
  | literal n => simp [Value.derefs] at hv
  | named x n => exact ⟨rfl, rfl⟩
  | result slot n => exact ⟨rfl, rfl⟩

/-- Reading a scalar reads words of live variables only, and gives the address of one where it is a
pointer. -/
theorem loaded (h : Typed f base m o v) (hf : f.Packed) (hm : f.Sound base m) (hs : o.scalar) :
    (∀ a ∈ v.reads base m, f.Owns base a) ∧
      (o.type.depth ≠ 0 → f.HasAt base o.type.pointee (v.word base m)) := by
  cases h with
  | literal n ht hna => exact ⟨by simp [Value.reads], fun hd => absurd ht hd⟩
  | named hv ht =>
    refine ⟨by simpa [Value.reads, path, Variable.toLocal] using hf.owns_first hv, fun hd => ?_⟩
    rw [ht] at hd ⊢
    exact (hm.pointers _ hv hd).2
  | result slot hna ht => exact ⟨by simp [Value.reads, path], ht⟩
  | pointed hv ht hroute =>
    obtain ⟨hreads, hword⟩ := reads_eq base m hv
    rw [hreads, hword]
    refine ⟨fun a ha => ?_, hm.read ht⟩
    rcases List.mem_append.1 ha with ha | ha
    · exact hroute a ha
    · rw [List.mem_singleton.1 ha]
      exact ht.owns hf fun w hw htype => hf.words_of_scalar hw htype hs

theorem pointee (h : Typed f base m o v) (hf : f.Packed) (hm : f.Sound base m)
    (hp : o.pointee = some o') : Typed f base m o' v.deref := by
  simp only [Operand.pointee, Option.ite_none_left_eq_some, Option.some.injEq] at hp
  obtain ⟨hd, rfl⟩ := hp
  cases h with
  | literal n ht hna => exact absurd ht hd
  -- the pointer is a variable itself, so its own word is the route
  | @named u hv ht =>
    rw [ht] at hd
    refine .pointed (by simp [Value.deref, Value.derefs]) ?_ ?_
    · show f.HasAt base o.type.pointee _
      rw [ht]
      exact (hm.pointers u hv hd).2
    · simpa [Value.deref, Value.route, path, Variable.toLocal] using hf.owns_first hv
  | result slot hna ht =>
    exact .pointed (by simp [Value.deref, Value.derefs]) (ht hd)
      (by simp [Value.deref, Value.route, path])
  | pointed hv ht hroute =>
    obtain ⟨hroute', haddress⟩ := deref_eq base m hv
    obtain ⟨hreads, hword⟩ := reads_eq base m hv
    rw [hreads] at hroute'
    rw [hword] at haddress
    refine .pointed (by cases v <;> simp_all [Value.deref, Value.derefs]) ?_ fun a ha => ?_
    · rw [haddress]
      exact hm.read ht hd
    · rw [hroute'] at ha
      rcases List.mem_append.1 ha with ha | ha
      · exact hroute a ha
      · rw [List.mem_singleton.1 ha]
        exact ht.owns hf (hm.words hd)

theorem agrees {top : Int} (h : Typed f base m o v) (hb : v.Below top) (hm : Agrees base top m m')
    (hf : f.Packed) (htop : f.depth ≤ top) : Typed f base m' o v := by
  cases h with
  | literal n ht hna => exact .literal n ht hna
  | named hv ht => exact .named hv ht
  | result slot hna ht =>
    refine .result slot hna fun hd => ?_
    rw [hm slot hb.1 hb.2]
    exact ht hd
  | pointed hv ht hroute =>
    -- every word on the way belongs to a variable, and those lie below `top`
    have hsame : v.address base m' = v.address base m ∧ v.route base m' = v.route base m := by
      cases v with
      | literal n => exact ⟨rfl, rfl⟩
      | named x n =>
        obtain ⟨hpath, hfollow⟩ := path_congr fun a ha => hm.owned hf htop (hroute a ha)
        cases n with
        | zero => exact ⟨rfl, hpath⟩
        | succ n => exact ⟨hfollow, hpath⟩
      | result slot n =>
        have hstart := hm slot hb.1 hb.2
        obtain ⟨hpath, hfollow⟩ := path_congr fun a ha => hm.owned hf htop (hroute a ha)
        cases n with
        | zero => simp [Value.derefs] at hv
        | succ n =>
          rw [Value.address, Value.address, Value.route, Value.route, hstart]
          exact ⟨hfollow, hpath⟩
    exact .pointed hv (hsame.1 ▸ ht) (hsame.2 ▸ hroute)

end Typed

/-- What the evaluation of an expression at `top` does: it leaves the slots below, and its value is
what its operand says. -/
structure Evaluated (f : Frame) (base : UInt16) (top : Int) (m : Memory) (o : Operand) (v : Value)
    (m' : Memory) : Prop where
  agrees : Agrees base top m m'
  typed : Typed f base m' o v
  below : v.Below (top + v.held)
  held : v.held = o.held
  range : wrap o.type.depth = o.type.depth

/-- What is evaluated next, in the slots above, leaves the first value and its pointers as they
are. -/
theorem Evaluated.next {f : Frame} {base : UInt16} {top : Int} {m m₁ m₂ : Memory} {l r : Operand}
    {a b : Value} (ha : Evaluated f base top m l a m₁)
    (hb : Evaluated f base (top + l.held) m₁ r b m₂) (hf : f.Packed) (htop : f.depth ≤ top)
    (hm : f.Sound base m) : Agrees base top m m₂ ∧ f.Sound base m₂ ∧ Typed f base m₂ l a := by
  have hheld := l.held_nonneg
  have hml := ha.agrees.sound hf htop hm
  exact ⟨ha.agrees.trans (hb.agrees.mono (by omega)), hb.agrees.sound hf (by omega) hml,
    ha.typed.agrees (ha.held ▸ ha.below) hb.agrees hf (by omega)⟩

theorem Evaluated.computed {f : Frame} {base : UInt16} {top : Int} {m : Memory} {t : Store}
    {type : Ty} {w : UInt16} (hnonneg : 0 ≤ top) (hlt : top < 65536)
    (hagrees : Agrees base top m t.memory) (hrange : wrap type.depth = type.depth)
    (hw : type.depth ≠ 0 → f.HasAt base type.pointee w) :
    Evaluated f base top m { type, place := .stack } (.result top 0) (t.put base top w).memory where
  agrees := hagrees.trans (.put le_rfl hnonneg hlt w)
  typed := .result top rfl fun hd => by
    rw [Store.put, Memory.read_write_self]
    exact hw hd
  below := ⟨hnonneg, by simp [Value.held]⟩
  held := rfl
  range := hrange

namespace Expr

mutual

/-- Whether arithmetic is done on no pointer. -/
def plain (f : Frame) : Expr → Bool
  | .literal _ | .name _ => true
  | .call _ args => plainArgs f args
  | .binary _ l r =>
    l.plain f && r.plain f && (l.result f).type.depth = 0 && (r.result f).type.depth = 0
  | .deref e | .addressOf e => e.plain f

def plainArgs (f : Frame) : List Expr → Bool
  | [] => true
  | e :: args => e.plain f && plainArgs f args

end

/-- Evaluation keeps the pointers sound, and reads words of live variables only. -/
def Careful (hosts : HostTable) (base : UInt16) (f : Frame) (top : Int) (o : Operand) (e : Expr)
    (s : Store) : Prop :=
  let r := eval hosts base f.locals top e s
  Evaluated f base top s.memory o r.1 r.2.memory ∧
    ∀ a ∈ reads hosts base f.locals top e s, f.Owns base a

def CarefulArgs (hosts : HostTable) (base : UInt16) (f : Frame) (top : Int) (args : List Expr)
    (s : Store) : Prop :=
  Agrees base top s.memory (evalArgs hosts base f.locals top args s).memory ∧
    ∀ a ∈ readsArgs hosts base f.locals top args s, f.Owns base a

section Cases

variable {hosts : HostTable} {base : UInt16} {f : Frame} {top : Int} {s : Store} {e l r : Expr}
  {args : List Expr} {o lo ro : Operand} {type : Ty}

theorem careful_literal {n : Int} (ho : (Expr.literal n).operand f = some o) :
    Careful hosts base f top o (.literal n) s := by
  simp only [operand, Option.ite_none_right_eq_some, Option.some.injEq] at ho
  obtain ⟨-, rfl⟩ := ho
  exact ⟨⟨.refl, .literal n rfl rfl, trivial, rfl, rfl⟩, by simp [reads]⟩

theorem careful_name {x : String} (ho : (Expr.name x).operand f = some o)
    (hm : f.Sound base s.memory) : Careful hosts base f top o (.name x) s := by
  simp only [operand, Option.map_eq_some_iff] at ho
  obtain ⟨v, hv, rfl⟩ := ho
  have hmem : v ∈ f.visible := List.mem_of_find?_eq_some hv
  simp only [Careful, eval, Frame.find_locals, hv, Option.map_some, Option.elim_some]
  exact ⟨⟨.refl, .named hmem rfl, trivial, rfl, hm.range v hmem⟩, by simp [reads]⟩

theorem careful_call {g : String} {h : Host} (hname : hosts.lookup g = some h) (hnonneg : 0 ≤ top)
    (hlt : top < 65536) (hargs : CarefulArgs hosts base f top args s) :
    Careful hosts base f top { type := .untyped, place := .stack } (.call g args) s := by
  simp only [Careful, eval, reads, Store.call, hname]
  exact ⟨.computed hnonneg hlt hargs.1 rfl fun hd => absurd rfl hd, hargs.2⟩

theorem careful_binary {op : Alu} (hf : f.Packed) (hm : f.Sound base s.memory)
    (htop : f.depth ≤ top) (hlt : top < 65536) (hcombined : lo.combined ro = some type)
    (hdl : lo.type.depth = 0) (hdr : ro.type.depth = 0) (hl : Careful hosts base f top lo l s)
    (hr : Careful hosts base f (top + lo.held) ro r (eval hosts base f.locals top l s).2) :
    Careful hosts base f top { type, place := .stack } (.binary op l r) s := by
  simp only [Operand.combined, Option.ite_none_right_eq_some, Bool.and_eq_true] at hcombined
  obtain ⟨⟨hsl, hsr⟩, hjoined⟩ := hcombined
  -- the result takes after an operand, and neither is a pointer
  have hzero : type.depth = 0 := by
    rcases Operand.joined_eq hjoined with rfl | rfl
    exacts [hdl, hdr]
  have hnonneg := hf.nonneg
  obtain ⟨hagrees, hmr, hal⟩ := hl.1.next hr.1 hf htop hm
  simp only [Careful, eval, reads, hl.1.held, List.forall_mem_append]
  refine ⟨.computed (by omega) hlt hagrees (by rw [hzero]; rfl) fun hd => absurd hzero hd,
    ⟨hl.2, hr.2⟩, (hal.loaded hf hmr hsl).1, (hr.1.typed.loaded hf hmr hsr).1⟩

/-- Following a pointer reads nothing yet: only the type and the way change. -/
theorem careful_deref {o' : Operand} (hf : f.Packed) (hm : f.Sound base s.memory)
    (htop : f.depth ≤ top) (hp : o.pointee = some o') (he : Careful hosts base f top o e s) :
    Careful hosts base f top o' (.deref e) s := by
  have htyped := he.1.typed.pointee hf (he.1.agrees.sound hf htop hm) hp
  simp only [Operand.pointee, Option.ite_none_left_eq_some, Option.some.injEq] at hp
  obtain ⟨-, rfl⟩ := hp
  have hbelow {v : Value} {n : Int} (h : v.Below n) : v.deref.Below n := by cases v <;> exact h
  simp only [Careful, eval, reads]
  exact ⟨⟨he.1.agrees, htyped, by rw [Value.held_deref]; exact hbelow he.1.below,
    (Value.held_deref _).trans he.1.held, by simp⟩, he.2⟩

theorem careful_addressOf (ha : o.addressable) (hnonneg : 0 ≤ top) (hlt : top < 65536)
    (he : Careful hosts base f top o e s) :
    Careful hosts base f top
      { type := { o.type with depth := wrap (o.type.depth + 1) }, place := .stack }
      (.addressOf e) s := by
  obtain ⟨hat, hroute⟩ := he.1.typed.located ha
  -- the address that is pushed leads back to the operand
  have htype : Ty.pointee { o.type with depth := wrap (o.type.depth + 1) } = o.type := by
    simp [Ty.pointee, he.1.range]
  simp only [Careful, eval, reads, List.forall_mem_append]
  refine ⟨.computed hnonneg hlt he.1.agrees (by simp) fun _ => ?_, he.2, hroute⟩
  rw [htype]
  exact hat

theorem careful_cons (hf : f.Packed) (hm : f.Sound base s.memory) (htop : f.depth ≤ top)
    (hlt : top < 65536) (hscalar : o.scalar) (he : Careful hosts base f top o e s)
    (hargs : ∀ t : Store, Agrees base top s.memory t.memory →
      CarefulArgs hosts base f (top + 1) args t) :
    CarefulArgs hosts base f top (e :: args) s := by
  have hnonneg := hf.nonneg
  have hma := he.1.agrees.sound hf htop hm
  -- each argument is put above the ones before it
  have hput (v : UInt16) := he.1.agrees.trans
    (.put (s := (eval hosts base f.locals top e s).2) le_rfl (by omega) hlt v)
  obtain ⟨hagrees, hrest⟩ := hargs _ (hput _)
  simp only [CarefulArgs, evalArgs, readsArgs, List.forall_mem_append]
  exact ⟨(hput _).trans (hagrees.mono (by omega)), ⟨he.2, (he.1.typed.loaded hf hma hscalar).1⟩,
    hrest⟩

end Cases

variable {hosts : HostTable} {base : UInt16} {f : Frame}

mutual

theorem careful (hf : f.Packed) :
    ∀ (e : Expr) {o : Operand} {top : Int} {s : Store}, e.operand f = some o → e.callable hosts →
      e.plain f → Shallow hosts top (e.code f top) → f.depth ≤ top → f.Sound base s.memory →
      Careful hosts base f top o e s
  | .literal n, o, top, s, ho, _, _, _, _, _ => careful_literal ho
  | .name x, o, top, s, ho, _, _, _, _, hm => careful_name ho hm
  | .call g args, o, top, s, ho, hcalls, hplain, hshallow, htop, hm => by
    have hle := hshallow.le
    rw [height_code _ _ ho hcalls] at hle
    have hnonneg := hf.nonneg
    simp only [operand, Option.ite_none_right_eq_some, Option.some.injEq] at ho
    obtain ⟨hscalars, rfl⟩ := ho
    simp only [callable, Bool.and_eq_true, Option.any_eq_true] at hcalls
    obtain ⟨⟨h, hname, -⟩, hargs⟩ := hcalls
    rw [code] at hshallow
    simp only [Operand.held, if_true] at hle
    exact careful_call hname (by omega) (by omega)
      (carefulArgs hf args hscalars hargs hplain hshallow.left htop hm)
  | .binary op l r, o, top, s, ho, hcalls, hplain, hshallow, htop, hm => by
    have hle := hshallow.le
    rw [height_code _ _ ho hcalls] at hle
    simp only [operand, Option.bind_eq_some_iff, Option.map_eq_some_iff] at ho
    obtain ⟨lo, hlo, ro, hro, type, htype, rfl⟩ := ho
    simp only [callable, Bool.and_eq_true] at hcalls
    simp only [plain, Bool.and_eq_true, decide_eq_true_eq, result_eq hlo, result_eq hro] at hplain
    obtain ⟨⟨⟨hl, hr⟩, hdl⟩, hdr⟩ := hplain
    simp only [code, result_eq hlo, result_eq hro] at hshallow
    have hright := hshallow.left.right
    rw [height_code l top hlo hcalls.1] at hright
    have hheld := lo.held_nonneg
    simp only [Operand.held, if_true] at hle
    have ha := careful hf l (s := s) hlo hcalls.1 hl hshallow.left.left htop hm
    have hb := careful hf r hro hcalls.2 hr hright (by omega) (ha.1.agrees.sound hf htop hm)
    exact careful_binary hf hm htop (by omega) htype hdl hdr ha hb
  | .deref e, o, top, s, ho, hcalls, hplain, hshallow, htop, hm => by
    simp only [operand, Option.bind_eq_some_iff] at ho
    obtain ⟨o', ho', hp⟩ := ho
    rw [code] at hshallow
    exact careful_deref hf hm htop hp (careful hf e ho' hcalls hplain hshallow htop hm)
  | .addressOf e, o, top, s, ho, hcalls, hplain, hshallow, htop, hm => by
    have hle := hshallow.le
    rw [height_code _ _ ho hcalls] at hle
    have hnonneg := hf.nonneg
    simp only [operand, Option.bind_eq_some_iff, Option.ite_none_right_eq_some,
      Option.some.injEq] at ho
    obtain ⟨o', ho', haddressable, rfl⟩ := ho
    simp only [code, result_eq ho'] at hshallow
    simp only [Operand.held, if_true] at hle
    exact careful_addressOf haddressable (by omega) (by omega)
      (careful hf e ho' hcalls hplain hshallow.left.left htop hm)

theorem carefulArgs (hf : f.Packed) :
    ∀ (args : List Expr) {top : Int} {s : Store}, scalars f args → callableArgs hosts args →
      plainArgs f args → Shallow hosts top (argsCode f top args) → f.depth ≤ top →
      f.Sound base s.memory → CarefulArgs hosts base f top args s
  | [], top, s, _, _, _, _, _, _ => ⟨.refl, by simp [readsArgs]⟩
  | e :: args, top, s, hscalars, hcalls, hplain, hshallow, htop, hm => by
    simp only [scalars, Bool.and_eq_true] at hscalars
    simp only [callableArgs, Bool.and_eq_true] at hcalls
    simp only [plainArgs, Bool.and_eq_true] at hplain
    obtain ⟨o, ho, hscalar⟩ := (Option.any_eq_true _ _).1 hscalars.1
    simp only [argsCode, result_eq ho] at hshallow
    have hone : height hosts (e.code f top ++ o.spillCode (top + o.held)) = 1 := by
      rw [height_append, height_code e top ho hcalls.1, Operand.height_spillCode]
      ring
    have hle := hshallow.left.le
    have hright := hshallow.right
    rw [hone] at hle hright
    exact careful_cons hf hm htop (by omega) hscalar
      (careful hf e ho hcalls.1 hplain.1 hshallow.left.left htop hm)
      fun t ht => carefulArgs hf args hscalars.2 hcalls.2 hplain.2 hright (by omega)
        (ht.sound hf htop hm)

end

end Expr

theorem Agrees.clear {base : UInt16} {top : Int} (hnonneg : 0 ≤ top) (n : Nat) {slot : Int}
    {s : Store} (hle : top ≤ slot) (hlt : slot + n ≤ 65536) :
    Agrees base top s.memory (s.clear base slot n).memory := by
  induction n generalizing slot s with
  | zero => exact .refl
  | succ n ih =>
    push_cast at hlt
    exact (Agrees.put hle hnonneg (by omega) 0).trans (ih (by omega) (by omega))

/-- Whether a pointer is declared with its value, and arithmetic is done on no pointer. -/
def Stmt.tame (f : Frame) : Stmt → Bool
  | .empty => true
  | .expr e | .var _ (some e) => e.plain f
  | .assign l r => l.plain f && r.plain f
  | .var d none => d.type.all fun t => t.2 = 0

theorem Decl.depth_declared {types : Registry} {d : Decl} {t : Ty} {f : Frame}
    (h : d.declared types = some t) (htame : (Stmt.var d none).tame f) : t.depth = 0 := by
  unfold Decl.declared at h
  simp only [Stmt.tame] at htame
  split at h
  · exact Option.some.inj h ▸ rfl
  · rename_i htype
    simp only [Option.bind_eq_some_iff, Option.ite_none_left_eq_some, Option.some.injEq] at h
    obtain ⟨b, -, -, rfl⟩ := h
    simpa [htype] using htame

/-- Whether an item opens and closes no block, and is tame. -/
def Item.tame (f : Frame) : Item → Bool
  | .struct _ _ => true
  | .openBlock | .closeBlock => false
  | .stmt s => s.tame f

section Statements

variable {hosts : HostTable} {base : UInt16} {s : Session} {st : State}

/-- A statement that is carried out in a sound frame leaves `g` sound, and accesses words of live
variables only. -/
def Stmt.Careful (hosts : HostTable) (base : UInt16) (f g : Frame) (stmt : Stmt) (st : State) :
    Prop :=
  g.Sound base (Meaning.stmt hosts base stmt st).store.memory ∧
    ∀ a ∈ stmt.accesses hosts base f st.store, f.Owns base a

variable {f : Frame} {e l r : Expr} {o lo ro : Operand}

theorem Stmt.careful_expr (hf : f.Packed) (hl : Spans f st) (hm : f.Sound base st.store.memory)
    (ho : e.operand f = some o) (he : e.Careful hosts base f f.depth o st.store) :
    Careful hosts base f f (.expr e) st := by
  have hma := he.1.agrees.sound hf le_rfl hm
  simp only [Careful, Meaning.stmt, hl.scope, hl.top, Stmt.accesses, Expr.result_eq ho,
    List.forall_mem_append]
  refine ⟨hma, he.2, fun a hmem => ?_⟩
  split at hmem
  · rename_i hscalar
    exact (he.1.typed.loaded hf hma hscalar).1 a hmem
  · cases hmem

theorem Stmt.careful_assign (hf : f.Packed) (hl : Spans f st) (hm : f.Sound base st.store.memory)
    (hdeep : f.depth ≤ 65536) (hassign : lo.assignable ro)
    (ha : l.Careful hosts base f f.depth lo st.store)
    (hb : r.Careful hosts base f (f.depth + lo.held) ro
      (eval hosts base f.locals f.depth l st.store).2) :
    Careful hosts base f f (.assign l r) st := by
  simp only [Operand.assignable, Bool.and_eq_true, Operand.suits] at hassign
  obtain ⟨⟨⟨haddressable, hsl⟩, hsr⟩, haccepts, -⟩ := hassign
  obtain ⟨-, hmr, hal⟩ := ha.1.next hb.1 hf le_rfl hm
  obtain ⟨hat, hroute⟩ := hal.located haddressable
  obtain ⟨hreads, hpointer⟩ := hb.1.typed.loaded hf hmr hsr
  have hone : ∀ w ∈ f.visible, w.type.same lo.type → w.type.words = 1 :=
    fun w hw htype => hf.words_of_scalar hw htype hsl
  simp only [Careful, Meaning.stmt, hl.scope, hl.top, Stmt.accesses, ha.1.held,
    List.forall_mem_append, List.forall_mem_singleton]
  refine ⟨hf.sound_write hmr hdeep hat hone fun hd => ?_, ⟨ha.2, hb.2⟩, ⟨hreads, hroute⟩,
    hat.owns hf hone⟩
  -- a pointer is overwritten by one to the same type
  have hsame := Ty.same_of_accepts haccepts hd
  exact (hpointer ((Ty.same_iff.1 hsame).2 ▸ hd)).congr (Ty.same_symm (Ty.same_pointee hsame))

theorem Stmt.careful_var {d : Decl} {t : Ty} (hf : f.Packed) (hl : Spans f st)
    (hopen : f.closed.contains f.scope = false) (hm : f.Sound base st.store.memory)
    (hwords : declWords st.sizes d = t.words) (hzero : t.depth = 0)
    (hle : f.depth + t.words.toNat ≤ 65536) :
    Careful hosts base f (f.extend d t) (.var d none) st := by
  simp only [Careful, Meaning.stmt, hwords, hl.top]
  refine ⟨Frame.Sound.extend ?_ hopen d (by rw [hzero]; rfl) fun hd => absurd hzero hd,
    by simp [Stmt.accesses]⟩
  exact (Agrees.clear hf.nonneg t.words.toNat le_rfl hle).sound hf le_rfl hm

theorem Stmt.careful_varValue {d : Decl} {t t' : Ty} (hf : f.Packed) (hl : Spans f st)
    (hopen : f.closed.contains f.scope = false) (hm : f.Sound base st.store.memory)
    (hone : t'.words = 1) (hinit : o.initializes t = some t') (hlt : f.depth < 65536)
    (he : e.Careful hosts base f f.depth o st.store) :
    Careful hosts base f (f.extend d t') (.var d (some e)) st := by
  simp only [Operand.initializes, Option.ite_none_right_eq_some,
    Option.filter_eq_some_iff] at hinit
  obtain ⟨hscalar, hinit, -⟩ := hinit
  have hma := he.1.agrees.sound hf le_rfl hm
  obtain ⟨hread, hpointer⟩ := he.1.typed.loaded hf hma hscalar
  have hsame (hd : t'.depth ≠ 0) := Ty.same_of_initial hinit hd
  simp only [Careful, Meaning.stmt, hl.scope, hl.top, Stmt.accesses, List.forall_mem_append]
  refine ⟨Frame.Sound.extend ?_ hopen d (Ty.wrap_depth_initial hinit he.1.range)
    fun hd => ⟨hone, ?_⟩, he.2, hread⟩
  · exact (Agrees.put le_rfl hf.nonneg hlt _).sound hf le_rfl hma
  · rw [Store.put, Memory.read_write_self]
    exact (hpointer ((Ty.same_iff.1 (hsame hd)).2 ▸ hd)).congr
      (Ty.same_symm (Ty.same_pointee (hsame hd)))

theorem Stmt.careful {g : Frame} {stmt : Stmt} (hs : s.Roomy) (hst : st.Shows s.types s.frame)
    (h : stmt.frame s.types s.frame = some g) (hcalls : ∀ e ∈ stmt.exprs, e.callable hosts)
    (htame : stmt.tame s.frame)
    (hshallow : Shallow hosts s.frame.depth (stmt.code s.types s.frame))
    (hm : s.frame.Sound base st.store.memory) : stmt.Careful hosts base s.frame g st := by
  have htiled := hs.orderly.tiled
  have hf := hs.packed
  have hl := Spans.of_shows hs hst
  have hle := hshallow.le
  cases Stmt.keeps_of_frame h with
  | empty => exact ⟨hm, by simp [Stmt.accesses]⟩
  | @expr e o ho hd =>
    simp only [Stmt.exprs, List.forall_mem_singleton] at hcalls
    exact careful_expr hf hl hm ho (e.careful hf ho hcalls htame hshallow.left le_rfl hm)
  | @assign l r lo ro hlo hro hassign =>
    simp only [Stmt.exprs, List.forall_mem_cons, List.not_mem_nil, false_implies, implies_true,
      and_true] at hcalls
    simp only [Stmt.tame, Bool.and_eq_true] at htame
    simp only [Stmt.code, Expr.result_eq hlo, Expr.result_eq hro] at hshallow
    have hright := hshallow.left.right
    rw [Expr.height_code l _ hlo hcalls.1] at hright
    have hheld := lo.held_nonneg
    have hdeep := hshallow [] List.nil_prefix
    simp only [height_nil, add_zero] at hdeep
    have ha := l.careful hf (s := st.store) hlo hcalls.1 htame.1 hshallow.left.left le_rfl hm
    have hb := r.careful hf hro hcalls.2 htame.2 hright (by omega) (ha.1.agrees.sound hf le_rfl hm)
    exact careful_assign hf hl hm hdeep hassign ha hb
  | @var d t hdecl hpos =>
    have hwords := Decl.words_declared hdecl
    rw [← hst.sizes] at hwords
    simp only [Stmt.code, hdecl, Option.getD_some, zerosCode, height_cons, height_replicate,
      Instr.pushes] at hle
    -- a tame declaration without a value declares no pointer
    exact careful_var hf hl htiled.scope_open hm hwords (Decl.depth_declared hdecl htame) (by omega)
  | @varValue d e o t t' hdecl ho hinit =>
    have hone := Decl.words_initialized hs.orderly.types htiled hdecl ho hinit
    simp only [Stmt.exprs, List.forall_mem_singleton] at hcalls
    simp only [Stmt.code, Expr.result_eq ho] at hshallow hle
    rw [height_append, Expr.height_code e _ ho hcalls, Operand.height_spillCode] at hle
    exact careful_varValue hf hl htiled.scope_open hm hone hinit (by omega)
      (e.careful hf ho hcalls htame hshallow.left le_rfl hm)

theorem Session.Does.sound {t : Session} {item : Item} {code : List Instr} (hd : s.Does item t)
    (hs : s.Roomy) (hst : st.Shows s.types s.frame) (hcalls : ∀ e ∈ item.exprs, e.callable hosts)
    (htame : item.tame s.frame) (hcode : t.code = s.code ++ code)
    (hshallow : Shallow hosts s.frame.depth code) (hm : s.frame.Sound base st.store.memory) :
    t.frame.Sound base (Meaning.item hosts base item st).store.memory ∧
      (∀ a ∈ item.accesses hosts base s.frame st.store, s.frame.Owns base a) ∧
      totalWords t.frame.visible = totalWords s.frame.visible + height hosts code ∧
      s.frame.visible ⊆ t.frame.visible := by
  have hcancel {code' : List Instr} (hcode' : t.code = s.code ++ code') : code = code' := by
    rw [hcode', ← Array.toList_inj] at hcode
    simpa using hcode.symm
  cases item with
  | struct name fields =>
    obtain ⟨hframe, hcode', -⟩ := hd
    obtain rfl : code = [] := hcancel (by simpa using hcode')
    rw [hframe]
    exact ⟨hm, by simp [Item.accesses], by simp, List.Subset.refl _⟩
  | openBlock => cases htame
  | closeBlock => cases htame
  | stmt i =>
    obtain ⟨hframe, hcode', -⟩ := hd
    obtain rfl := hcancel hcode'
    obtain ⟨hsound, howns⟩ := Stmt.careful hs hst hframe hcalls htame hshallow hm
    refine ⟨hsound, howns, Stmt.height_code hs hframe hcalls, ?_⟩
    -- declarations only add variables
    have hkeeps := Stmt.keeps_of_frame hframe
    generalize t.frame = g at hkeeps ⊢
    cases hkeeps with
    | empty | expr | assign => exact List.Subset.refl _
    | var | varValue =>
      rw [Frame.visible_extend hs.orderly.tiled.scope_open]
      exact List.subset_cons_self _ _

end Statements

theorem mem_accessed {hosts : HostTable} {before after : List Instr} {i : Instr} {c d : Core}
    {a : UInt16} (h : (execute hosts before).run c = .ok () d) (ha : a ∈ i.accesses d) :
    a ∈ accessed hosts (before ++ i :: after) c := by
  rw [accessed_append h, accessed]
  exact List.mem_append_right _ (List.mem_append_left _ ha)

section Places

variable {hosts : HostTable} {ids : IdSupply} {ts rest : List Token} {s : Session} {i : Nat}
  {c₀ : Core}

/-- Between items the pointers are sound, and every instruction of the code so far has accessed no
words but those of variables that were live before it. -/
theorem Reaches.sound (hts : fitsInMemory 1 ts.length)
    (hitems : ∀ s i us item post, Reaches (.fresh ids) ts s i (us ++ post) → DerivesItem us item →
      item.tame s.frame ∧ ∀ e ∈ item.exprs, e.callable hosts)
    (h : Reaches (.fresh ids) ts s i rest) (hm : s.InMemory)
    (hshallow : Shallow hosts 0 s.code.toList) :
    ∃ (st : State) (c : Core), (execute hosts s.code.toList).run c₀ = .ok () c ∧
      c.At c₀.sp s.frame.depth st.store ∧ st.Shows s.types s.frame ∧
      height hosts s.code.toList = s.frame.depth ∧ s.frame.Sound c₀.sp st.store.memory ∧
      ∀ before instr after d, s.code.toList = before ++ instr :: after →
        (execute hosts before).run c₀ = .ok () d → ∀ a ∈ instr.accesses d,
        ∃ s' i' rest', Reaches (.fresh ids) ts s' i' rest' ∧ s'.code.size ≤ before.length ∧
          s'.frame.visible ⊆ s.frame.visible ∧ s'.frame.Owns c₀.sp a := by
  induction h with
  | start =>
    refine ⟨{ store := ⟨c₀.memory, c₀.calls⟩ }, c₀, rfl, c₀.at_start,
      State.shows_fresh _ ids, rfl, ⟨?_, ?_⟩, ?_⟩ <;> simp [Session.fresh, Frame.visible]
  | @item s t i j tok rest next h htok hrun ih =>
    obtain ⟨hms, hroomy, hroomy', us, item, hus, hitem, hdoes, hsize⟩ :=
      h.exists_item Session.orderly_fresh le_rfl hts htok hrun hm
    obtain ⟨htame, hcalls⟩ : item.tame s.frame ∧ ∀ e ∈ item.exprs, e.callable hosts := by
      rcases hus with hus | ⟨semi, -, hus⟩ <;> exact hitems _ _ us item _ (hus ▸ h) hitem
    obtain ⟨code, hcode⟩ := hdoes.exists_code
    have hlist : t.code.toList = s.code.toList ++ code := by
      rw [hcode]
      simp
    rw [hlist] at hshallow
    obtain ⟨st, c, hc, hat, hshows, hheight, hsound, haccesses⟩ := ih hms hshallow.left
    have hshallow' := hshallow.right
    rw [hheight, zero_add] at hshallow'
    obtain ⟨code', d, hcode', hruns, hat', hshows', -⟩ :=
      hdoes.runs hroomy hm hcalls hsize hshows hat
    obtain rfl : code = code' := by
      rw [hcode', ← Array.toList_inj] at hcode
      simpa using hcode.symm
    obtain ⟨hsound', howns, hwords, hkept⟩ :=
      hdoes.sound hroomy hshows hcalls htame hcode hshallow' hsound
    refine ⟨_, d, hlist ▸ execute_append_ok hc hruns.ok, hat', hshows', ?_, hsound', ?_⟩
    · rw [hlist, height_append, hheight, hroomy.words.2, hroomy'.words.2, hwords]
    · intro before instr after u heq hu a ha
      -- an instruction of the item, after `part` of its code
      have hnew (part : List Instr) (hbefore : before = s.code.toList ++ part)
          (hpart : code = part ++ instr :: after) : ∃ s' i' rest',
            Reaches (.fresh ids) ts s' i' rest' ∧ s'.code.size ≤ before.length ∧
            s'.frame.visible ⊆ t.frame.visible ∧ s'.frame.Owns c₀.sp a := by
        rw [hbefore, execute_append, EStateM.run_bind, hc] at hu
        refine ⟨s, i, tok :: rest, h, by simp [hbefore], hkept, howns a (hruns.accesses ?_)⟩
        rw [hpart]
        exact mem_accessed hu ha
      rw [hlist] at heq
      rcases List.append_eq_append_iff.1 heq with ⟨part, hbefore, hpart⟩ | ⟨part, hold, hafter⟩
      · exact hnew part hbefore hpart
      · cases part with
        | nil => exact hnew [] (by simpa using hold.symm) (by simpa using hafter.symm)
        | cons instr' part =>
          obtain ⟨rfl, -⟩ := List.cons.inj hafter
          obtain ⟨s', i', rest', hreaches, hle, hsub, hold⟩ :=
            haccesses before instr part u hold hu a ha
          exact ⟨s', i', rest', hreaches, hle, List.Subset.trans hsub hkept, hold⟩

theorem Ty.depth_pointee {t : Ty} (h : wrap t.depth = t.depth) (hpos : 1 ≤ t.depth) :
    t.pointee.depth = t.depth - 1 := by
  have hlt := (wrap_range t.depth).2
  exact wrap_eq_self (by omega) (by omega)

/-- Where a source opens no block, declares every pointer with its value and does arithmetic on no
pointer, and the stack has no more words than there are addresses: at every place between items each
live pointer holds the address of a live variable of the type that it points to, at its lowest word,
and every instruction before that place that loads or stores accesses a word of a variable that was
live before the instruction, and still is. -/
theorem pointers_sound (cpu : Cpu) (lines : Array ProgramLine) (max : Int)
    (hts : fitsInMemory 1 ts.length)
    (hitems : ∀ s i us item post, Reaches (.fresh ids) ts s i (us ++ post) → DerivesItem us item →
      item.tame s.frame ∧ ∀ e ∈ item.exprs, e.callable cpu.hosts)
    (h : Reaches (.fresh ids) ts s i rest) (hm : s.InMemory)
    (hshallow : Shallow cpu.hosts 0 s.code.toList)
    (hlines : lines.toList.map (·.instr) = s.code.toList) (hmax : s.code.size < max) :
    ∃ done, (cpu.load lines).run max = .ok () done ∧
      (∀ v ∈ s.frame.live, 1 ≤ v.type.depth → ∃ w ∈ s.frame.live,
        w.type.sameBase v.type ∧ w.type.depth = v.type.depth - 1 ∧
        done.core.memory.read (slotAddress cpu.core.sp v.address) =
          slotAddress cpu.core.sp (w.address + w.type.words - 1)) ∧
      ∀ before instr after c, s.code.toList = before ++ instr :: after →
        (execute cpu.hosts before).run cpu.core = .ok () c → ∀ a ∈ instr.accesses c,
        ∃ s' i' rest', Reaches (.fresh ids) ts s' i' rest' ∧ s'.code.size ≤ before.length ∧
          ∃ w ∈ s'.frame.live, w ∈ s.frame.live ∧ ∃ k, 0 ≤ k ∧ k < w.type.words ∧
            a = slotAddress cpu.core.sp (w.address + k) := by
  obtain ⟨st, c, hrun, hat, -, -, hsound, haccesses⟩ := h.sound hts hitems hm hshallow
  refine ⟨_, Cpu.run_load cpu hlines (by simpa using hmax) hrun, fun v hv hd => ?_, ?_⟩
  · have hv := List.mem_reverse.1 hv
    obtain ⟨-, w, hw, htype, haddress⟩ := hsound.pointers v hv (by omega)
    obtain ⟨hbase, hdepth⟩ := Ty.same_iff.1 htype
    refine ⟨w, List.mem_reverse.2 hw, hbase, ?_, ?_⟩
    · rw [hdepth, Ty.depth_pointee (hsound.range v hv) hd]
    · rw [← haddress, ← hat.memory]
  · intro before instr after d heq hd a ha
    obtain ⟨s', i', rest', hreaches, hle, hsub, w, hw, howns⟩ :=
      haccesses before instr after d heq hd a ha
    exact ⟨s', i', rest', hreaches, hle, w, List.mem_reverse.2 hw, List.mem_reverse.2 (hsub hw),
      howns⟩

/-- Pointers to a struct, to a variable and to a pointer, and stores through them. -/
def pointing : List Token :=
  tokensOf ("struct pair \x7b u16 a; u16 b; \x7d var pair y; var h = &y; var x = 5; var p = &x; " ++
    "var u16 **q = &p; *q = &**q; **q = f(*p + 1, x); x + **q;")

def pointingAfter (n : Nat) : Option (Session × Nat × List Token) :=
  Build.itemsTaken n ({ Session.fresh .serial with tokens := pointing.toArray }, 0, pointing)

def placeTame (hosts : HostTable) (p : Session × Nat × List Token) : Bool :=
  (Item.read p.2.2).all fun q => q.1.tame p.1.frame && q.1.exprs.all (·.callable hosts)

theorem pointers_sound_pointing :
    let s := ((pointingAfter 9).getD ({}, 0, [])).1
    let cpu : Cpu := { core := { sp := 3 }, hosts := [("f", ⟨2, List.sum⟩)] }
    let lines := s.code.map fun i => (⟨i, 0, ""⟩ : ProgramLine)
    fitsInMemory 1 pointing.length ∧
      (∀ s i us item post, Reaches (.fresh .serial) pointing s i (us ++ post) →
        DerivesItem us item → item.tame s.frame ∧ ∀ e ∈ item.exprs, e.callable cpu.hosts) ∧
      (∃ i, Reaches (.fresh .serial) pointing s i []) ∧ s.InMemory ∧
      Shallow cpu.hosts 0 s.code.toList ∧
      s.frame.live.map (fun v => (v.name, v.type.depth, v.address)) =
        [("y", 0, 0), ("h", 1, 2), ("x", 0, 3), ("p", 1, 4), ("q", 2, 5)] ∧
      ∃ done, (cpu.load lines).run 1000 = .ok () done ∧
        (∀ v ∈ s.frame.live, 1 ≤ v.type.depth → ∃ w ∈ s.frame.live,
          w.type.sameBase v.type ∧ w.type.depth = v.type.depth - 1 ∧
          done.core.memory.read (slotAddress 3 v.address) =
            slotAddress 3 (w.address + w.type.words - 1)) ∧
        ∀ before instr after c, s.code.toList = before ++ instr :: after →
          (execute cpu.hosts before).run cpu.core = .ok () c → ∀ a ∈ instr.accesses c,
          ∃ s' i' rest', Reaches (.fresh .serial) pointing s' i' rest' ∧
            s'.code.size ≤ before.length ∧ ∃ w ∈ s'.frame.live, w ∈ s.frame.live ∧ ∃ k, 0 ≤ k ∧ k < w.type.words ∧
              a = slotAddress 3 (w.address + k) := by
  intro s cpu lines
  have htaken : (pointingAfter 9).isSome ∧ ((pointingAfter 9).getD ({}, 0, [])).2.2 = [] ∧
      (pointingAfter 10).isNone ∧ ∀ n < 10, (pointingAfter n).all (placeTame cpu.hosts) := by
    decide +kernel
  obtain ⟨hsome, hend, hnone, htame⟩ := htaken
  obtain ⟨hfits, hm, hsize, hparts, hlive⟩ : fitsInMemory 1 pointing.length ∧
      fitsInMemory 6 s.code.size ∧ (s.code.size : Int) < 1000 ∧
      (∀ part ∈ s.code.toList.inits, 0 + height cpu.hosts part ≤ 65536) ∧
      s.frame.live.map (fun v => (v.name, v.type.depth, v.address)) =
        [("y", 0, 0), ("h", 1, 2), ("x", 0, 3), ("p", 1, 4), ("q", 2, 5)] := by
    decide +kernel
  have hitems : ∀ s i us item post, Reaches (.fresh .serial) pointing s i (us ++ post) →
      DerivesItem us item → item.tame s.frame ∧ ∀ e ∈ item.exprs, e.callable cpu.hosts := by
    intro s i us item post h hitem
    obtain ⟨n, hn⟩ := h.exists_taken
    have hlt : n < 10 := by
      by_contra hge
      obtain ⟨k, rfl⟩ := Nat.exists_eq_add_of_le (Nat.le_of_not_lt hge)
      rw [Build.itemsTaken_add,
        show Build.itemsTaken 10 _ = none from Option.isNone_iff_eq_none.1 hnone] at hn
      cases hn
    have hplace := htame n hlt
    rw [show pointingAfter n = some (s, i, us ++ post) from hn] at hplace
    simpa [placeTame, hitem.read] using hplace
  have hreaches : Reaches (.fresh .serial) pointing s _ _ :=
    Reaches.itemsTaken 9 (p := (_, 0, pointing)) .start
      (eq_some_getD hsome ({}, 0, []))
  have hshallow : Shallow cpu.hosts 0 s.code.toList :=
    fun part hpart => hparts part ((List.mem_inits part _).2 hpart)
  have hlines : lines.toList.map (·.instr) = s.code.toList := by
    simp [lines, Function.comp_def]
  rw [show ((pointingAfter 9).getD ({}, 0, [])).2.2 = [] from hend] at hreaches
  exact ⟨hfits, hitems, ⟨_, hreaches⟩, hm, hshallow, hlive,
    pointers_sound cpu lines 1000 hfits hitems hreaches hm hshallow hlines hsize⟩

end Places

end OnePass
