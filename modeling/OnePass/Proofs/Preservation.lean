import Mathlib
import OnePass.Proofs.Reading
import OnePass.Proofs.Simulation

namespace OnePass

open Meaning

/-- The ids of the scopes that are open; the outermost always is. -/
def openIds (scopes : List Scope) : List Int := scopes.map (·.id) ++ [0]

/-- The variables that are visible in each open block, innermost block first. -/
def Frame.blocks (f : Frame) : List (List Local) :=
  (openIds f.scopes).map fun id => (f.visible.filter (·.scope = id)).map Variable.toLocal

theorem Marked.flatten {scopes : List Scope} {vs : List Variable} (h : Marked scopes vs)
    (hid : (scopes.map (·.id)).Nodup) (hpos : ∀ m ∈ scopes, 0 < m.id) :
    ((openIds scopes).map fun id => vs.filter (·.scope = id)).flatten = vs := by
  induction scopes generalizing vs with
  | nil =>
    have hall : vs.filter (·.scope = 0) = vs := List.filter_eq_self.2 (by simpa [Marked] using h)
    simp [openIds, hall]
  | cons m outer ih =>
    obtain ⟨inner, rest, rfl, hinner, -, hrest⟩ := h
    obtain ⟨hm, hid⟩ := List.nodup_cons.1 hid
    obtain ⟨hpos, hpos'⟩ := List.forall_mem_cons.1 hpos
    -- the ids are distinct, so each scope has its own stretch of the list
    have hfirst : (inner ++ rest).filter (·.scope = m.id) = inner := by
      rw [List.filter_append, List.filter_eq_self.2 (by simpa using hinner),
        List.filter_eq_nil_iff.2, List.append_nil]
      intro v hv heq
      rw [decide_eq_true_eq] at heq
      rcases hrest.scope_mem v hv with h | h
      · omega
      · exact hm (show m.id ∈ _ from heq ▸ h)
    have hothers : (openIds outer).map (fun id => (inner ++ rest).filter (·.scope = id)) =
        (openIds outer).map fun id => rest.filter (·.scope = id) := by
      refine List.map_congr_left fun id hmem => ?_
      rw [List.filter_append, List.filter_eq_nil_iff.2, List.nil_append]
      intro v hv heq
      rw [decide_eq_true_eq, hinner v hv] at heq
      subst heq
      rcases List.mem_append.1 hmem with h | h
      · exact hm h
      · simp at h
        omega
    rw [show openIds (m :: outer) = m.id :: openIds outer from rfl, List.map_cons,
      List.flatten_cons, hfirst, hothers, ih hrest hid hpos']

namespace Frame

variable {f : Frame}

theorem Tiled.flatten_blocks (h : f.Tiled) : f.blocks.flatten = f.locals := by
  have hflatten := h.marks.flatten h.distinct fun m hm => (h.opened m hm).1
  rw [locals, ← hflatten, List.map_flatten, List.map_map]
  rfl

theorem blocks_eq_cons {m : Scope} {outer : List Scope} (hscopes : f.scopes = m :: outer) :
    f.blocks = (f.visible.filter (·.scope = m.id)).map Variable.toLocal ::
      (openIds outer).map fun id => (f.visible.filter (·.scope = id)).map Variable.toLocal := by
  rw [blocks, hscopes]
  rfl

theorem Tiled.ne_innermost (h : f.Tiled) {m : Scope} {outer : List Scope}
    (hscopes : f.scopes = m :: outer) : ∀ id ∈ openIds outer, id ≠ m.id := by
  rintro id hid rfl
  have hdistinct := h.distinct
  rw [hscopes] at hdistinct
  have hpos := (h.opened m (by simp [hscopes])).1
  rcases List.mem_append.1 hid with hid | hid
  · exact (List.nodup_cons.1 hdistinct).1 hid
  · simp at hid
    omega

theorem Tiled.blocks_extend (h : f.Tiled) (d : Decl) (type : Ty) :
    ∃ block outer, f.blocks = block :: outer ∧
      (f.extend d type).blocks = (⟨d.name, f.depth, type.words⟩ :: block) :: outer := by
  have hvisible := visible_extend h.scope_open d type
  cases hscopes : f.scopes with
  | nil =>
    have hscope : f.scope = 0 := by simp [scope, hscopes]
    have hscopes' : (f.extend d type).scopes = [] := hscopes
    refine ⟨(f.visible.filter (·.scope = 0)).map Variable.toLocal, [],
      by simp [blocks, openIds, hscopes], ?_⟩
    simp [blocks, openIds, hscopes', hvisible, hscope, Variable.toLocal]
  | cons m outer =>
    have hscope : f.scope = m.id := by simp [scope, hscopes]
    have hscopes' : (f.extend d type).scopes = m :: outer := hscopes
    refine ⟨_, _, blocks_eq_cons hscopes, ?_⟩
    rw [blocks_eq_cons hscopes', hvisible, List.filter_cons_of_pos (by simpa using hscope)]
    refine congrArg₂ _ rfl (List.map_congr_left fun id hid => ?_)
    rw [List.filter_cons_of_neg]
    simpa [hscope] using (h.ne_innermost hscopes id hid).symm

theorem Tiled.blocks_enter (h : f.Tiled) : f.enter.2.blocks = [] :: f.blocks := by
  have hnone : f.visible.filter (·.scope = f.next) = [] := by
    refine List.filter_eq_nil_iff.2 fun v hv heq => ?_
    rw [decide_eq_true_eq] at heq
    have hnext := h.next
    rcases h.marks.scope_mem v hv with hz | hmem
    · omega
    · obtain ⟨m, hm, hid⟩ := List.mem_map.1 hmem
      have := (h.opened m hm).2.1
      omega
  have hblocks := blocks_eq_cons (f := f.enter.2) rfl
  rw [hblocks]
  exact congrArg₂ _ (congrArg _ hnone) rfl

theorem Tiled.blocks_closing (h : f.Tiled) {m : Scope} {outer : List Scope}
    (hscopes : f.scopes = m :: outer) : (f.closing m outer).blocks = f.blocks.tail := by
  rw [blocks_eq_cons hscopes, List.tail_cons, blocks, visible_closing]
  refine List.map_congr_left fun id hid => ?_
  rw [List.filter_filter]
  refine congrArg _ (List.filter_congr fun v _ => ?_)
  have := h.ne_innermost hscopes id hid
  by_cases hv : v.scope = id <;> simp [hv, this]

end Frame

/-- The state has the structs that are defined and the variables that are visible. -/
structure Meaning.State.Shows (st : State) (types : Registry) (f : Frame) : Prop where
  sizes : st.sizes = types.sizes
  blocks : st.blocks = f.blocks

namespace Meaning.State.Shows

variable {st : State} {types : Registry} {f : Frame}

theorem scope (h : st.Shows types f) (hf : f.Tiled) : st.scope = f.locals := by
  rw [State.scope, h.blocks, hf.flatten_blocks]

theorem top (h : st.Shows types f) (hf : f.Tiled) : st.top = totalWords f.visible := by
  rw [State.top, h.scope hf, Frame.locals, List.map_map]
  rfl

theorem declare (h : st.Shows types f) (hf : f.Tiled) (hdepth : f.depth = totalWords f.visible)
    (d : Decl) (type : Ty) : st.declare d.name type.words = (f.extend d type).blocks := by
  obtain ⟨block, outer, hblocks, hextend⟩ := hf.blocks_extend d type
  rw [State.declare, h.blocks, h.top hf, hblocks, hextend, hdepth]

end Meaning.State.Shows

theorem Meaning.State.shows_fresh (store : Store) (ids : IdSupply) :
    State.Shows { store } { ids } {} :=
  ⟨rfl, rfl⟩

theorem Core.at_start (c : Core) : c.At c.sp 0 ⟨c.memory, c.calls⟩ :=
  ⟨rfl, rfl, (sub_zero _).symm⟩

theorem Core.At.wrapped {base : UInt16} {depth : Int} {s : Store} {c : Core}
    (h : c.At base depth s) : c.At base (wrap depth) s :=
  ⟨h.memory, h.calls, by rw [h.sp, word_wrap]⟩

theorem Decl.words_declared {types : Registry} {d : Decl} {t : Ty}
    (h : d.declared types = some t) : declWords types.sizes d = t.words := by
  unfold Decl.declared at h
  unfold declWords
  cases hd : d.type with
  | none =>
    rw [hd] at h
    cases h
    rfl
  | some p =>
    obtain ⟨tok, stars⟩ := p
    rw [hd] at h
    simp only [Option.bind_eq_some_iff, Option.ite_none_left_eq_some, Option.some.injEq] at h
    obtain ⟨b, hb, -, rfl⟩ := h
    exact (Registry.words_resolve hb stars).symm

def Stmt.exprs : Stmt → List Expr
  | .empty | .var _ none => []
  | .expr e | .var _ (some e) => [e]
  | .assign l r => [l, r]

def Item.exprs : Item → List Expr
  | .stmt s => s.exprs
  | _ => []

/-- The addresses that a statement reads and writes through. -/
def Stmt.accesses (hosts : HostTable) (base : UInt16) (f : Frame) (s : Store) : Stmt → List UInt16
  | .empty | .var _ none => []
  | .expr e =>
    let a := eval hosts base f.locals f.depth e s
    reads hosts base f.locals f.depth e s ++
      if (e.result f).scalar then a.1.reads base a.2.memory else []
  | .assign l r =>
    let a := eval hosts base f.locals f.depth l s
    let b := eval hosts base f.locals (f.depth + a.1.held) r a.2
    reads hosts base f.locals f.depth l s ++
      reads hosts base f.locals (f.depth + a.1.held) r a.2 ++
      (b.1.reads base b.2.memory ++ a.1.route base b.2.memory ++ [a.1.address base b.2.memory])
  | .var _ (some e) =>
    let a := eval hosts base f.locals f.depth e s
    reads hosts base f.locals f.depth e s ++ a.1.reads base a.2.memory

section

variable {hosts : HostTable} {base : UInt16} {depth : Int} {s : Store} {c : Core}

theorem runs_zerosCode (n : Int) (hc : c.At base depth s) :
    ∃ d, Runs hosts (zerosCode n) c d [] ∧
      d.At base (depth + n.toNat) (s.clear base depth n.toNat) := by
  have hpush (k : Nat) {depth : Int} {s : Store} {c : Core} (hzero : c.r0 = 0)
      (hc : c.At base depth s) : ∃ d, Runs hosts (List.replicate k (.push .r0)) c d [] ∧
        d.At base (depth + k) (s.clear base depth k) := by
    induction k generalizing depth s c with
    | zero => exact ⟨c, .nil, hc.cast (by simp)⟩
    | succ k ih =>
      obtain ⟨e, he, hat⟩ := ih (c := { c with
        sp := c.sp - 1
        memory := c.memory.write (c.sp - 1) c.r0 }) hzero (hc.pushed c.r0)
      refine ⟨e, .cons rfl he, ?_⟩
      rw [hzero] at hat
      exact hat.cast (by push_cast; ring)
  obtain ⟨d, hd, hat⟩ := hpush n.toNat (c := { c with r0 := 0 }) rfl ⟨hc.memory, hc.calls, hc.sp⟩
  exact ⟨d, .cons rfl hd, hat⟩

theorem runs_dropCode {words : Int} (hwords : 0 ≤ words) (hc : c.At base depth s) :
    ∃ d, Runs hosts (dropCode words) c d [] ∧ d.At base (depth - words) s := by
  unfold dropCode
  split
  · refine ⟨_, ⟨rfl, List.Subset.refl _⟩, hc.memory, hc.calls, ?_⟩
    show c.sp + word words = _
    rw [hc.sp, word_sub]
    abel
  · exact ⟨c, .nil, hc.cast (by omega)⟩

theorem runs_pop_at (hc : c.At base (depth + 1) s) :
    ∃ d, Runs hosts [.pop .r1] c d [] ∧ d.At base depth s :=
  ⟨_, .single rfl, hc.memory, hc.calls, hc.sp_add_one⟩

/-- At the end of a statement a scalar is left in `r1`, and any other value is dropped. -/
theorem Denotes.runs_discardCode {o : Operand} {v : Value} (h : Denotes (depth + o.held) o v)
    (hc : c.At base (depth + o.held) s) :
    ∃ d, Runs hosts (o.discardCode (depth + o.held)) c d
        (if o.scalar then v.reads base s.memory else []) ∧
      d.At base depth s ∧ (o.scalar → d.r1 = v.word base s.memory) := by
  unfold Operand.discardCode
  by_cases hscalar : o.scalar
  · obtain ⟨d, hd, hat, hvalue, -⟩ := h.runs_loadCode (.inl rfl) hc
    rw [add_sub_cancel_right] at hat
    rw [if_pos hscalar, if_pos hscalar]
    exact ⟨d, hd, hat, fun _ => hvalue⟩
  · rw [if_neg hscalar, if_neg hscalar]
    by_cases hstack : o.place = .stack
    · rw [show o.held = 1 by simp [Operand.held, hstack]] at hc
      obtain ⟨d, hd, hat⟩ := runs_pop_at hc
      rw [if_pos hstack]
      exact ⟨d, hd, hat, fun hs => absurd hs hscalar⟩
    · rw [show o.held = 0 by simp [Operand.held, hstack], add_zero] at hc
      rw [if_neg hstack]
      exact ⟨c, .nil, hc, fun hs => absurd hs hscalar⟩

/-- An assignment writes the word of its right side to the address of its left side. -/
theorem Denotes.runs_storeCode {l r : Operand} {a b : Value} (ha : l.addressable)
    (hl : Denotes depth l a) (hr : Denotes (depth + r.held) r b)
    (hc : c.At base (depth + r.held) s) :
    ∃ d, Runs hosts (Operand.storeCode (depth + r.held) l r) c d
        (b.reads base s.memory ++ a.route base s.memory ++ [a.address base s.memory]) ∧
      d.At base (depth - l.held)
        { s with memory := s.memory.write (a.address base s.memory) (b.word base s.memory) } := by
  obtain ⟨d, hd, hat, hvalue, -⟩ := hr.runs_loadCode (.inl rfl) hc
  rw [add_sub_cancel_right] at hat
  obtain ⟨e, he, hat', haddress, hkeep⟩ := hl.runs_locateCode ha hat
  have hstore : Runs hosts [.str .r0 .r1] e { e with memory := e.memory.write e.r0 e.r1 } [e.r0] :=
    .single rfl
  rw [haddress] at hstore
  rw [Operand.storeCode, add_sub_cancel_right]
  refine ⟨_, (hd.append he).append hstore, ?_, hat'.calls, hat'.sp⟩
  -- locating leaves `r1` alone
  have hr1 : e.r1 = _ := hkeep.trans hvalue
  rw [hat'.memory, hr1]

/-- The code of a statement does what the statement means, and leaves in `r1` the value of one that
is an expression. -/
theorem Stmt.runs_code {s : Session} {st : State} {g : Frame} {stmt : Stmt} (hs : s.Roomy)
    (hst : st.Shows s.types s.frame) (h : stmt.frame s.types s.frame = some g)
    (hcalls : ∀ e ∈ stmt.exprs, e.callable hosts) (hsize : ∀ e ∈ stmt.exprs, e.size < 2 ^ 63)
    (hlen : (stmt.code s.types s.frame).length ≤ 2 ^ 47) (hc : c.At base s.frame.depth st.store) :
    ∃ d, Runs hosts (stmt.code s.types s.frame) c d
        (stmt.accesses hosts base s.frame st.store) ∧
      d.At base g.depth (Meaning.stmt hosts base stmt st).store ∧
      (Meaning.stmt hosts base stmt st).Shows s.types g ∧
      ∀ e, stmt = .expr e → (e.result s.frame).scalar →
        (Meaning.stmt hosts base stmt st).value = some d.r1 := by
  have htiled := hs.orderly.tiled
  have hdepth := hs.words.2
  have hscope := hst.scope htiled
  have htop : st.top = s.frame.depth := (hst.top htiled).trans hdepth.symm
  cases Stmt.keeps_of_frame h with
  | empty => exact ⟨c, .nil, hc, ⟨hst.sizes, hst.blocks⟩, by simp⟩
  | @expr e o ho hd =>
    simp only [Stmt.exprs, List.forall_mem_singleton] at hcalls hsize
    simp only [Stmt.code, Stmt.accesses, Expr.result_eq ho, List.length_append] at hlen ⊢
    obtain ⟨d, hd, hat, hv⟩ := e.runs_code ho hcalls hsize (by omega) hc
    obtain ⟨u, hu, hat', hvalue⟩ := hv.runs_discardCode hat
    simp only [Meaning.stmt, hscope, htop]
    refine ⟨u, hd.append hu, hat', ⟨hst.sizes, hst.blocks⟩, ?_⟩
    rintro e' ⟨⟩ hs
    exact congrArg _ (hvalue (Expr.result_eq ho ▸ hs)).symm
  | @assign l r lo ro hlo hro hassign =>
    have haddressable : lo.addressable := by
      simp only [Operand.assignable, Bool.and_eq_true] at hassign
      exact hassign.1.1.1
    simp only [Stmt.exprs, List.forall_mem_cons, List.not_mem_nil, false_implies, implies_true,
      and_true] at hcalls hsize
    simp only [Stmt.code, Stmt.accesses, Expr.result_eq hlo, Expr.result_eq hro,
      List.length_append] at hlen ⊢
    obtain ⟨d, hd, hat, hl⟩ := l.runs_code hlo hcalls.1 hsize.1 (by omega) hc
    obtain ⟨e, he, hat', hr⟩ := r.runs_code hro hcalls.2 hsize.2 (by omega) hat
    obtain ⟨u, hu, hatu⟩ := hl.runs_storeCode haddressable hr hat'
    rw [add_sub_cancel_right] at hatu
    simp only [Meaning.stmt, hscope, htop, hl.held]
    exact ⟨u, (hd.append he).append hu, hatu, ⟨hst.sizes, hst.blocks⟩, by simp⟩
  | @var d t hdecl hpos =>
    have hwords := Decl.words_declared hdecl
    rw [← hst.sizes] at hwords
    simp only [Stmt.code, hdecl, Option.getD_some, Meaning.stmt, hwords, htop]
    obtain ⟨u, hu, hat⟩ := runs_zerosCode t.words hc
    rw [Int.toNat_of_nonneg hpos.le] at hat
    exact ⟨u, hu, hat.wrapped, ⟨hst.sizes, hst.declare htiled hdepth d t⟩, by simp⟩
  | @varValue d e o t t' hdecl ho hinit =>
    have hone := Decl.words_initialized hs.orderly.types htiled hdecl ho hinit
    simp only [Stmt.exprs, List.forall_mem_singleton] at hcalls hsize
    simp only [Stmt.code, Stmt.accesses, Expr.result_eq ho, List.length_append] at hlen ⊢
    obtain ⟨u, hu, hat, hv⟩ := e.runs_code ho hcalls hsize (by omega) hc
    obtain ⟨w, hw, hat'⟩ := hv.runs_spillCode hat
    rw [add_sub_cancel_right] at hat'
    simp only [Meaning.stmt, hscope, htop]
    refine ⟨w, hu.append hw, ?_, ⟨hst.sizes, hone ▸ hst.declare htiled hdepth d t'⟩, by simp⟩
    have hextend : (s.frame.extend d t').depth = wrap (s.frame.depth + 1) := by
      rw [← hone]
      rfl
    rw [hextend]
    exact hat'.wrapped

end

/-- The addresses that an item reads and writes through. -/
def Item.accesses (hosts : HostTable) (base : UInt16) (f : Frame) (s : Store) : Item → List UInt16
  | .stmt i => i.accesses hosts base f s
  | _ => []

namespace Session

variable {hosts : HostTable} {base : UInt16} {s t : Session} {st : State} {c : Core} {item : Item}

theorem Does.runs (hd : s.Does item t) (hs : s.Roomy) (hm : t.InMemory)
    (hcalls : ∀ e ∈ item.exprs, e.callable hosts) (hsize : ∀ e ∈ item.exprs, e.size < 2 ^ 63)
    (hst : st.Shows s.types s.frame) (hc : c.At base s.frame.depth st.store) :
    ∃ (code : List Instr) (d : Core), t.code = s.code ++ code ∧
      Runs hosts code c d (item.accesses hosts base s.frame st.store) ∧
      d.At base t.frame.depth (Meaning.item hosts base item st).store ∧
      (Meaning.item hosts base item st).Shows t.types t.frame ∧
      ∀ e, item = .stmt (.expr e) → (e.result s.frame).scalar →
        (Meaning.item hosts base item st).value = some d.r1 := by
  have htiled := hs.orderly.tiled
  cases item with
  | struct name fields =>
    obtain ⟨hframe, hcode, htypes⟩ := hd
    refine ⟨[], c, by simpa using hcode, .nil, ?_, ⟨?_, ?_⟩, nofun⟩
    · rw [hframe]
      exact hc
    · rw [htypes, ← hst.sizes]
      rfl
    · rw [hframe]
      exact hst.blocks
  | openBlock =>
    obtain ⟨hframe, hcode, htypes⟩ := hd
    refine ⟨[], c, by simpa using hcode, .nil, ?_, ⟨?_, ?_⟩, nofun⟩
    · rw [hframe]
      exact hc
    · rw [htypes]
      exact hst.sizes
    · rw [hframe, htiled.blocks_enter, ← hst.blocks]
      rfl
  | closeBlock =>
    obtain ⟨m, outer, hscopes, hframe, hcode, htypes⟩ := hd
    obtain ⟨hclosing, hmark, inner, hvisible, -⟩ := htiled.closing hscopes
    obtain ⟨hnonneg, hdepth⟩ := hs.words
    have hroom := hs.room
    have hinner : 0 ≤ totalWords inner := totalWords_nonneg fun v hv =>
      htiled.visible v (by rw [hvisible]; exact List.mem_append_left _ hv)
    have houter := totalWords_nonneg hclosing.visible
    rw [hvisible, totalWords_append] at hdepth hroom
    rw [wrap_eq_self (by omega) (by omega)] at hmark
    -- the words of the scope fit in memory, so their number does not wrap
    have hwords : wrap (s.frame.depth - m.depth) = totalWords inner := by
      rw [hdepth, hmark, add_sub_cancel_right, wrap_eq_self (by omega) (by omega)]
    obtain ⟨d, hrun, hat⟩ : ∃ d, Runs hosts (dropCode (totalWords inner)) c d [] ∧ _ :=
      runs_dropCode hinner hc
    refine ⟨_, d, hcode, hwords ▸ hrun, ?_, ⟨?_, ?_⟩, nofun⟩
    · rw [hframe]
      refine hat.cast ?_
      rw [hdepth, add_sub_cancel_left, ← hmark]
      rfl
    · rw [htypes]
      exact hst.sizes
    · rw [hframe, htiled.blocks_closing hscopes, ← hst.blocks]
      rfl
  | stmt i =>
    obtain ⟨hframe, hcode, htypes⟩ := hd
    have hlen : (i.code s.types s.frame).length ≤ 2 ^ 47 := by
      have hsize := hm.size_le
      have hemitted := emitted_size s (i.code s.types s.frame) 0
      rw [emitted_code, ← hcode] at hemitted
      omega
    obtain ⟨d, hd, hat, hshows, hvalue⟩ := Stmt.runs_code hs hst hframe hcalls hsize hlen hc
    exact ⟨_, d, hcode, hd, hat, htypes ▸ hshows, fun e he => hvalue e (by simpa using he)⟩

/-- The items of a source, done one after another. -/
inductive DoesAll (s₀ : Session) : List Item → Session → Prop where
  | nil : DoesAll s₀ [] s₀
  | snoc {items : List Item} {item : Item} {s t : Session} (h : DoesAll s₀ items s) (hs : s.Roomy)
      (hd : s.Does item t) (hm : t.InMemory) (hsize : ∀ e ∈ item.exprs, e.size < 2 ^ 63) :
      DoesAll s₀ (items ++ [item]) t

/-- The code of a whole source does what the source means. -/
theorem DoesAll.runs {s₀ : Session} {items : List Item} (h : DoesAll s₀ items s)
    (hcalls : ∀ item ∈ items, ∀ e ∈ item.exprs, e.callable hosts)
    (hst : st.Shows s₀.types s₀.frame) (hc : c.At base s₀.frame.depth st.store) :
    ∃ (code : List Instr) (d : Core), s.code = s₀.code ++ code ∧
      (execute hosts code).run c = .ok () d ∧
      d.At base s.frame.depth (Meaning.program hosts base items st).store ∧
      (Meaning.program hosts base items st).Shows s.types s.frame ∧
      ∀ before e, items = before ++ [.stmt (.expr e)] → (e.result s.frame).scalar →
        (Meaning.program hosts base items st).value = some d.r1 := by
  induction h with
  | nil => exact ⟨[], c, by simp, rfl, hc, hst, by simp⟩
  | @snoc items item s t h hs hd hm hsize ih =>
    simp only [List.forall_mem_append, List.forall_mem_singleton] at hcalls
    obtain ⟨code, d, hcode, hrun, hat, hshows, -⟩ := ih hcalls.1
    obtain ⟨code', e, hcode', hrun', hat', hshows', hvalue⟩ :=
      hd.runs hs hm hcalls.2 hsize hshows hat
    have hprogram : Meaning.program hosts base (items ++ [item]) st =
        Meaning.item hosts base item (Meaning.program hosts base items st) := by
      rw [Meaning.program, List.foldl_append]
      rfl
    rw [hprogram]
    refine ⟨code ++ code', e, ?_, execute_append_ok hrun hrun'.ok, hat', hshows',
      fun before x heq hscalar => ?_⟩
    · rw [hcode', hcode, ← Array.toList_inj]
      simp
    · obtain ⟨-, hitem⟩ := List.append_inj' heq rfl
      obtain rfl := (List.cons.inj hitem).1
      -- an expression declares nothing
      have hframe : t.frame = s.frame := by
        have hkeeps := Stmt.keeps_of_frame hd.1
        generalize t.frame = g at hkeeps ⊢
        cases hkeeps
        rfl
      exact hvalue x rfl (hframe ▸ hscalar)

end Session

theorem DerivesItem.size_le {ts : List Token} {item : Item} (h : DerivesItem ts item) :
    ∀ e ∈ item.exprs, e.size ≤ ts.length := by
  cases h with
  | stmt h =>
    cases h with
    | expr h hs =>
      have := h.size_le
      simp only [Item.exprs, Stmt.exprs, List.forall_mem_singleton, List.length_append]
      omega
    | assign hl ht hr hs =>
      have hl := hl.size_le
      have hr := hr.size_le
      simp only [Item.exprs, Stmt.exprs, List.forall_mem_cons, List.length_append, List.length_cons]
      exact ⟨by omega, by omega, by simp⟩
    | varValue hv hd ht he hs =>
      have := he.size_le
      simp only [Item.exprs, Stmt.exprs, List.forall_mem_singleton, List.length_append,
        List.length_cons]
      omega
    | _ => simp [Item.exprs, Stmt.exprs]
  | _ => simp [Item.exprs]

theorem DerivesItem.size_lt {ts us : List Token} {item : Item} (h : DerivesItem us item)
    (hts : fitsInMemory 1 ts.length) (hle : us.length ≤ ts.length) :
    ∀ e ∈ item.exprs, e.size < 2 ^ 63 := by
  intro e he
  have := h.size_le e he
  simp only [fitsInMemory, Bool.and_eq_true, decide_eq_true_eq] at hts
  omega

section

variable {s₀ s : Session} {ts rest : List Token} {i : Nat}

/-- The item after a place derives from the grammar and does what its tree says. -/
theorem Reaches.exists_item {t : Session} {j : Nat} {tok : Token} {next : List Token}
    (h₀ : s₀.Orderly 0) (hw : totalWords s₀.frame.visible ≤ s₀.code.size)
    (hts : fitsInMemory 1 ts.length) (h : Reaches s₀ ts s i (tok :: rest)) (htok : tok.type ≠ .eof)
    (hrun : (Build.item i tok rest).run s = .ok (j, next) t) (hm : t.InMemory) :
    s.InMemory ∧ s.Roomy ∧ t.Roomy ∧ ∃ us item, (tok :: rest = us ++ next ∨
        ∃ semi, semi.type = .semicolon ∧ tok :: rest = us ++ semi :: next) ∧
      DerivesItem us item ∧ s.Does item t ∧ ∀ e ∈ item.exprs, e.size < 2 ^ 63 := by
  obtain ⟨horderly, htokens, hdrop, hlen⟩ := h.orderly h₀
  have hproper := Build.proper_item i tok rest horderly
  rw [hrun] at hproper
  have hms := hm.of_le hproper.1.code
  have hroomy := (h.roomy h₀ hw hts hms).1
  obtain ⟨us, item, hus, hitem, hdoes⟩ := hroomy.does_item (by simpa [htokens] using hdrop) hrun
  refine ⟨hms, hroomy, ((h.item htok hrun).roomy h₀ hw hts hm).1, us, item, hus, hitem, hdoes,
    hitem.size_lt hts ?_⟩
  rw [← hlen]
  rcases hus with hus | ⟨semi, -, hus⟩ <;> rw [hus] <;> simp <;> omega

/-- What is compiled is made of items that derive from the grammar, and does what they say. -/
theorem Reaches.doesAll (h₀ : s₀.Orderly 0) (hw : totalWords s₀.frame.visible ≤ s₀.code.size)
    (hts : fitsInMemory 1 ts.length) (h : Reaches s₀ ts s i rest) (hm : s.InMemory) :
    ∃ us items, ts = us ++ rest ∧ DerivesProgram us items ∧
      Session.DoesAll { s₀ with tokens := ts.toArray } items s := by
  induction h with
  | start => exact ⟨[], [], rfl, .nil, .nil⟩
  | @item s t i j tok rest next h htok hrun ih =>
    obtain ⟨hms, hroomy, hroomy', vs, item, hvs, hitem, hdoes, hsize⟩ :=
      h.exists_item h₀ hw hts htok hrun hm
    obtain ⟨us, items, heq, hderives, hall⟩ := ih hms
    have hall' := hall.snoc hroomy hdoes hm hsize
    have hderives' := hderives.snoc hitem
    rcases hvs with hvs | ⟨semi, hsemi, hvs⟩
    · exact ⟨us ++ vs, items ++ [item], by rw [heq, hvs, List.append_assoc], hderives', hall'⟩
    · have hempty : t.Does (.stmt .empty) t := ⟨rfl, by simp [Stmt.code], rfl⟩
      exact ⟨us ++ vs ++ [semi], _, by rw [heq, hvs]; simp, hderives'.snoc (.stmt (.empty hsemi)),
        hall'.snoc hroomy' hempty hm (by simp [Item.exprs, Stmt.exprs])⟩

theorem Session.DoesAll.run_load {ids : IdSupply} {program : List Item}
    (h : DoesAll { Session.fresh ids with tokens := ts.toArray } program s) (cpu : Cpu)
    {lines : Array ProgramLine} {max : Int}
    (hcalls : ∀ item ∈ program, ∀ e ∈ item.exprs, e.callable cpu.hosts)
    (hlines : lines.toList.map (·.instr) = s.code.toList) (hmax : s.code.size < max) :
    let r := Meaning.program cpu.hosts cpu.core.sp program
      { store := ⟨cpu.core.memory, cpu.core.calls⟩ }
    ∃ done, (cpu.load lines).run max = .ok () done ∧
      done.core.At cpu.core.sp s.frame.depth r.store ∧ r.Shows s.types s.frame ∧
      ∀ before e, program = before ++ [.stmt (.expr e)] → (e.result s.frame).scalar →
        r.value = some done.core.r1 := by
  obtain ⟨code, d, hcode, hrun, hat, hshows, hvalue⟩ :=
    h.runs hcalls (State.shows_fresh _ ids) cpu.core.at_start
  have hcode' : lines.toList.map (·.instr) = code := by
    rw [hlines, hcode]
    simp
  have hlen : (code.length : Int) < max := by
    rw [hcode] at hmax
    simpa using hmax
  exact ⟨_, Cpu.run_load cpu hcode' hlen hrun, hat, hshows, hvalue⟩

/-- Where a source is compiled in a fresh session, the code up to any place between items does on
every processor what the items before that place mean, and the source is read in one way only:
memory and the calls made are those of the meaning, the variables in scope are in the slots that the
meaning gives them, and `r1` holds the value of an expression. Such a place is where an accepted
source ends. The processor has to know the functions that are called. -/
theorem compile_preserves_meaning (ids : IdSupply) (ts : List Token)
    (hts : fitsInMemory 1 ts.length) :
    (∀ t, (Build.compile ts).run (.fresh ids) = .ok () t →
      ∃ i rest, Reaches (.fresh ids) ts t i rest ∧ ∀ tok ∈ rest.head?, tok.type = .eof) ∧
    ∀ s i rest, Reaches (.fresh ids) ts s i rest → s.InMemory →
      ∃ us program, ts = us ++ rest ∧ DerivesProgram us program ∧
        (∀ items, DerivesProgram us items → items = program) ∧
        ∀ (cpu : Cpu) (lines : Array ProgramLine) (max : Int),
          (∀ item ∈ program, ∀ e ∈ item.exprs, e.callable cpu.hosts) →
          lines.toList.map (·.instr) = s.code.toList → s.code.size < max →
          let r := Meaning.program cpu.hosts cpu.core.sp program
            { store := ⟨cpu.core.memory, cpu.core.calls⟩ }
          ∃ done, (cpu.load lines).run max = .ok () done ∧
            done.core.memory = r.store.memory ∧ done.core.calls = r.store.calls ∧
            done.core.sp = cpu.core.sp - word r.top ∧ r.scope = s.frame.locals ∧
            ∀ before e, program = before ++ [.stmt (.expr e)] → (e.result s.frame).scalar →
              r.value = some done.core.r1 := by
  refine ⟨fun t ht => Reaches.of_items Session.orderly_fresh .start ht, fun s i rest h hm => ?_⟩
  have hroomy := (h.roomy Session.orderly_fresh le_rfl hts hm).1
  obtain ⟨us, program, heq, hderives, hall⟩ := h.doesAll Session.orderly_fresh le_rfl hts hm
  refine ⟨us, program, heq, hderives, fun items hitems => ?_,
    fun cpu lines max hcalls hlines hmax => ?_⟩
  · exact Option.some.inj (hitems.readAll.symm.trans hderives.readAll)
  · intro r
    obtain ⟨done, hrun, hat, hshows, hvalue⟩ := hall.run_load cpu hcalls hlines hmax
    refine ⟨done, hrun, hat.memory, hat.calls, ?_, hshows.scope hroomy.orderly.tiled, hvalue⟩
    rw [hshows.top hroomy.orderly.tiled, ← hroomy.words.2]
    exact hat.sp

/-- A pointer to a pointer, a struct that hides the variable pointed to, and nested calls. -/
def mixed : List Token :=
  tokensOf ("struct pair \x7b u16 a; pair *b; \x7d; var x = 3; var p = &x; \x7b var pair x; " ++
    "var q = &p; **q = f(*p * 2, g(h())) - 1; \x7d x + *p;")

def mixedEnd : Session × Nat × List Token :=
  (Build.itemsTaken 9 ({ tokens := mixed.toArray }, 0, mixed)).getD ({}, 0, [])

theorem compile_preserves_meaning_mixed :
    let s := mixedEnd.1
    let program := (Item.readAll mixed).getD []
    let sum : List UInt16 → UInt16 := List.sum
    let cpu : Cpu :=
      { core := { sp := 100 }, hosts := [("f", ⟨2, sum⟩), ("g", ⟨1, sum⟩), ("h", ⟨0, sum⟩)] }
    let r := Meaning.program cpu.hosts 100 program { store := ⟨.zero, #[]⟩ }
    fitsInMemory 1 mixed.length ∧ Reaches (.fresh .serial) mixed s mixedEnd.2.1 [] ∧ s.InMemory ∧
      program.length = 10 ∧ (∀ item ∈ program, ∀ e ∈ item.exprs, e.callable cpu.hosts) ∧
      ∃ done, (cpu.load (s.code.map fun i => ⟨i, 0, ""⟩)).run 1000 = .ok () done ∧
        done.core.memory = r.store.memory ∧ done.core.calls = r.store.calls ∧
        done.core.sp = 100 - word r.top ∧ r.scope = s.frame.locals ∧
        ∀ before e, program = before ++ [.stmt (.expr e)] → (e.result s.frame).scalar →
          r.value = some done.core.r1 := by
  intro s program sum cpu r
  have htaken : (Build.itemsTaken 9 ({ tokens := mixed.toArray }, 0, mixed)).isSome ∧
      mixedEnd.2.2 = [] := by decide +kernel
  obtain ⟨hfits, hm, hsize, hlen, hcalls⟩ : fitsInMemory 1 mixed.length ∧
      fitsInMemory 6 s.code.size ∧ (s.code.size : Int) < 1000 ∧ program.length = 10 ∧
      ∀ item ∈ program, ∀ e ∈ item.exprs, e.callable cpu.hosts := by decide +kernel
  have hreaches : Reaches (.fresh .serial) mixed s mixedEnd.2.1 [] :=
    htaken.2 ▸ Reaches.itemsTaken 9 (p := ({ tokens := mixed.toArray }, 0, mixed)) .start
      (eq_some_getD htaken.1 _)
  obtain ⟨us, items, hus, hderives, -, hruns⟩ :=
    (compile_preserves_meaning .serial mixed hfits).2 s mixedEnd.2.1 [] hreaches hm
  have hitems : program = items := by
    rw [List.append_nil] at hus
    show (Item.readAll mixed).getD [] = items
    rw [hus, hderives.readAll]
    rfl
  refine ⟨hfits, hreaches, hm, hlen, hcalls, ?_⟩
  have hlines : ((s.code.map fun i => (⟨i, 0, ""⟩ : ProgramLine)).toList.map (·.instr)) =
      s.code.toList := by
    simp [Function.comp_def]
  have hrun := hruns cpu _ 1000 (hitems ▸ hcalls) hlines hsize
  rw [← hitems] at hrun
  exact hrun

end

end OnePass
