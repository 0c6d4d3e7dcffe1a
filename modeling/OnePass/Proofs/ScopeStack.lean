import Mathlib
import OnePass.Proofs.Tiling

namespace OnePass

/-- What can be asked of a frame. -/
inductive FrameOp where
  | push (n : Int)
  | pop (n : Int)
  | enter
  | exit
  | declare (name : String) (line : Int) (type : Ty) (address : Int)
deriving DecidableEq

/-- What comes back. -/
inductive FrameAnswer where
  | done
  | opened (id : Int)
  | closed (words : Int)
  | declared (v : Variable)
  | refused
deriving DecidableEq

def FrameAnswer.id? : FrameAnswer → Option Int
  | opened id => some id
  | _ => none

namespace Frame

/-- A declaration that is refused leaves the frame. -/
def apply (f : Frame) : FrameOp → Except Fault (FrameAnswer × Frame)
  | .push n => .ok (.done, f.push n)
  | .pop n => (f.pop n).map fun g => (.done, g)
  | .enter => .ok (.opened f.enter.1, f.enter.2)
  | .exit => f.exit.map fun (words, g) => (.closed words, g)
  | .declare name line type address =>
    (f.declare name line type address).map fun
      | .error _ => (.refused, f)
      | .ok (v, g) => (.declared v, g)

def applyAll (f : Frame) : List FrameOp → Except Fault (List FrameAnswer × Frame)
  | [] => .ok ([], f)
  | op :: ops => do
    let (a, g) ← f.apply op
    let (as, h) ← g.applyAll ops
    return (a :: as, h)

end Frame

/-- An open scope: the depth at which it was opened, and its variables in declaration order. -/
structure Block where
  id : Int
  depth : Int
  vars : List Variable

/-- The open scopes, innermost first, over the variables of the outermost one. -/
structure ScopeStack where
  depth : Int := 0
  opened : Int := 0
  inner : List Block := []
  outermost : List Variable := []

namespace ScopeStack

/-- The variables of all open scopes, from the outermost to the innermost. -/
def live (s : ScopeStack) : List Variable :=
  s.outermost ++ (s.inner.reverse.map Block.vars).flatten

def lookup (s : ScopeStack) (name : String) : Option Variable :=
  (s.live.filter (·.name = name)).getLast?

def scope (s : ScopeStack) : Int := (s.inner.head?.map Block.id).getD 0

/-- Whether a slot lies at or past the end of the last variable. -/
def free (s : ScopeStack) (address : Int) : Bool :=
  s.live.getLast?.all fun v => v.address + v.type.words ≤ address

def add (s : ScopeStack) (v : Variable) : ScopeStack :=
  match s.inner with
  | [] => { s with outermost := s.outermost ++ [v] }
  | b :: rest => { s with inner := { b with vars := b.vars ++ [v] } :: rest }

/-- Scopes are numbered as they are opened. -/
def apply (s : ScopeStack) : FrameOp → Option (FrameAnswer × ScopeStack)
  | .push n => some (.done, { s with depth := wrap (s.depth + n) })
  | .pop n =>
    let depth := wrap (s.depth - n)
    if depth < 0 then none else some (.done, { s with depth })
  | .enter =>
    let id := s.opened + 1
    some (.opened id, { s with opened := id, inner := ⟨id, s.depth, []⟩ :: s.inner })
  | .exit =>
    match s.inner with
    | [] => none
    | b :: rest =>
      some (.closed (wrap (s.depth - b.depth)), { s with depth := b.depth, inner := rest })
  | .declare name line type address =>
    let v : Variable := { name, line, type, address, scope := s.scope }
    if s.free address then some (.declared v, s.add v) else some (.refused, s)

def applyAll (s : ScopeStack) : List FrameOp → Option (List FrameAnswer × ScopeStack)
  | [] => some ([], s)
  | op :: ops => do
    let (a, t) ← s.apply op
    let (as, u) ← t.applyAll ops
    return (a :: as, u)

theorem live_add (s : ScopeStack) (v : Variable) : (s.add v).live = s.live ++ [v] := by
  unfold add live
  split <;> simp_all

end ScopeStack

/-- A variable whose slots, also the one past its last, are numbers of 64 bits. -/
structure Variable.Bounded (v : Variable) : Prop where
  typed : v.type.base.isSome
  words : 0 ≤ v.type.words
  lower : -2 ^ 63 ≤ v.address
  upper : v.address + v.type.words < 2 ^ 63

def Variable.slots (v : Variable) : Set Int := Set.Ico v.address (v.address + v.type.words)

/-- A frame that shows a stack of scopes: every open scope has an id of its own, which its
variables bear, and no id of a closed scope is among them. -/
structure Frame.Shows (f : Frame) (s : ScopeStack) : Prop where
  depth : f.depth = s.depth
  next : f.next = s.opened + 1
  opened : 0 ≤ s.opened
  scopes : f.scopes = s.inner.map fun b => ⟨b.id, b.depth⟩
  live : f.live = s.live
  bottom : ∀ v ∈ s.outermost, v.scope = 0
  blocks : ∀ b ∈ s.inner, (∀ v ∈ b.vars, v.scope = b.id) ∧ 0 < b.id ∧ b.id ≤ s.opened ∧
    b.id ∉ f.closed
  distinct : (s.inner.map Block.id).Nodup
  closed : ∀ id ∈ f.closed, 0 < id ∧ id ≤ s.opened

namespace Frame

variable {f g : Frame} {s : ScopeStack}

theorem shows_fresh : ({} : Frame).Shows {} :=
  ⟨rfl, rfl, le_rfl, rfl, rfl, by simp, by simp, by simp, by simp⟩

theorem Shows.scope (h : f.Shows s) : f.scope = s.scope := by
  unfold Frame.scope ScopeStack.scope
  rw [h.scopes]
  cases s.inner <;> rfl

theorem Shows.scope_open (h : f.Shows s) : f.closed.contains f.scope = false := by
  have hmem : f.scope ∉ f.closed := by
    rw [h.scope, ScopeStack.scope]
    cases hinner : s.inner with
    | nil =>
      intro hc
      have := (h.closed 0 hc).1
      omega
    | cons b rest => exact (h.blocks b (by simp [hinner])).2.2.2
  simpa using hmem

theorem Shows.lookup (h : f.Shows s) (name : String) : f.lookup name = s.lookup name := by
  rw [Frame.lookup, ScopeStack.lookup, ← h.live, Frame.live, List.filter_reverse,
    List.getLast?_reverse, List.head?_filter]

theorem Shows.withDepth (h : f.Shows s) (depth : Int) :
    Shows { f with depth } { s with depth } :=
  ⟨rfl, h.next, h.opened, h.scopes, h.live, h.bottom, h.blocks, h.distinct, h.closed⟩

theorem Shows.enter (h : f.Shows s) :
    f.enter.2.Shows
      { s with opened := s.opened + 1, inner := ⟨s.opened + 1, s.depth, []⟩ :: s.inner } where
  depth := h.depth
  next := by simp [Frame.enter, h.next]
  opened := Int.le_trans h.opened (by simp)
  scopes := by simp [Frame.enter, h.scopes, h.next, h.depth]
  live := by
    refine (show f.enter.2.live = f.live from rfl).trans (h.live.trans ?_)
    simp [ScopeStack.live]
  bottom := h.bottom
  blocks := by
    -- the new id is above every id given so far
    have hfresh : s.opened + 1 ∉ f.closed := fun hc => by
      have := (h.closed _ hc).2
      omega
    refine List.forall_mem_cons.2 ⟨⟨by simp, Int.lt_add_one_of_le h.opened, le_rfl, hfresh⟩, ?_⟩
    intro b hb
    obtain ⟨hvars, hpos, hle, hopen⟩ := h.blocks b hb
    exact ⟨hvars, hpos, Int.le_trans hle (by simp), hopen⟩
  distinct := by
    refine List.nodup_cons.2 ⟨fun hmem => ?_, h.distinct⟩
    obtain ⟨b, hb, hid⟩ := List.mem_map.1 hmem
    have hle := (h.blocks b hb).2.2.1
    dsimp only at hid
    omega
  closed := fun id hid => by
    obtain ⟨hpos, hle⟩ := h.closed id hid
    exact ⟨hpos, Int.le_trans hle (by simp)⟩

/-- Closing the innermost scope hides its variables and no others. -/
theorem Shows.closing (h : f.Shows s) {b : Block} {rest : List Block}
    (hinner : s.inner = b :: rest) :
    (f.closing ⟨b.id, b.depth⟩ (rest.map fun b => ⟨b.id, b.depth⟩)).Shows
      { s with depth := b.depth, inner := rest } := by
  obtain ⟨⟨hvars, hpos, hle, hopen⟩, hrest⟩ := List.forall_mem_cons.1 (hinner ▸ h.blocks)
  have hdistinct := h.distinct
  rw [hinner, List.map_cons, List.nodup_cons] at hdistinct
  have hother : ∀ c ∈ rest, c.id ≠ b.id := by
    intro c hc heq
    exact hdistinct.1 (heq ▸ List.mem_map_of_mem hc)
  have hlive : s.live = ScopeStack.live { s with depth := b.depth, inner := rest } ++ b.vars := by
    simp [ScopeStack.live, hinner]
  -- what lies outside the block bears the id of another scope
  have hkeep : ∀ v ∈ ScopeStack.live { s with depth := b.depth, inner := rest },
      v.scope ≠ b.id := by
    intro v hv
    simp only [ScopeStack.live, List.mem_append, List.mem_flatten, List.mem_map,
      List.mem_reverse] at hv
    rcases hv with hv | ⟨_, ⟨c, hc, rfl⟩, hv⟩
    · rw [h.bottom v hv]
      omega
    · rw [(hrest c hc).1 v hv]
      exact hother c hc
  refine ⟨rfl, h.next, h.opened, rfl, ?_, h.bottom, ?_, hdistinct.2, ?_⟩
  · rw [live_closing, h.live, hlive, List.filter_append, List.filter_eq_self.2,
      List.filter_eq_nil_iff.2, List.append_nil]
    · simpa using hvars
    · simpa using hkeep
  · intro c hc
    obtain ⟨hvars', hpos', hle', hopen'⟩ := hrest c hc
    refine ⟨hvars', hpos', hle', fun hmem => ?_⟩
    rcases List.mem_cons.1 hmem with heq | hmem
    · exact hother c hc heq
    · exact hopen' hmem
  · exact List.forall_mem_cons.2 ⟨⟨hpos, hle⟩, h.closed⟩

theorem Shows.add (h : f.Shows s) (name : String) (line : Int) (type : Ty) (address : Int) :
    (f.add name line type address).2.Shows (s.add (f.add name line type address).1) := by
  have hlive : (f.add name line type address).2.live =
      (s.add (f.add name line type address).1).live := by
    rw [ScopeStack.live_add, ← h.live, Frame.live, visible_add h.scope_open, List.reverse_cons]
    rfl
  have hscope : (f.add name line type address).1.scope = s.scope := h.scope
  rw [ScopeStack.scope] at hscope
  -- the variable goes to the innermost block, or to the bottom where none is open
  cases hinner : s.inner with
  | nil =>
    rw [hinner] at hscope
    simp only [ScopeStack.add, hinner] at hlive ⊢
    refine ⟨h.depth, h.next, h.opened, ?_, hlive, ?_, ?_, ?_, h.closed⟩
    · exact h.scopes.trans (by rw [hinner])
    · intro v hv
      rcases List.mem_append.1 hv with hv | hv
      · exact h.bottom v hv
      · rw [List.mem_singleton.1 hv, hscope]
        rfl
    · simp
    · simp
  | cons b rest =>
    rw [hinner] at hscope
    simp only [ScopeStack.add, hinner] at hlive ⊢
    obtain ⟨⟨hvars, hb⟩, hrest⟩ := List.forall_mem_cons.1 (hinner ▸ h.blocks)
    refine ⟨h.depth, h.next, h.opened, ?_, hlive, h.bottom, ?_, ?_, h.closed⟩
    · exact h.scopes.trans (by rw [hinner]; rfl)
    · refine List.forall_mem_cons.2 ⟨⟨fun v hv => ?_, hb⟩, hrest⟩
      rcases List.mem_append.1 hv with hv | hv
      · exact hvars v hv
      · rw [List.mem_singleton.1 hv, hscope]
        rfl
    · have := h.distinct
      rwa [hinner] at this

/-- The check against the last visible variable tells whether a slot is free. -/
theorem Shows.overlap? (h : f.Shows s) (hb : ∀ v ∈ f.vars, v.Bounded) (name : String)
    (address : Int) :
    ∃ o, f.overlap? name address = .ok o ∧ (o = none ↔ s.free address) := by
  have hlast : s.live.getLast? = f.visible.head? := by
    rw [← h.live, Frame.live, List.getLast?_reverse]
  unfold Frame.overlap? ScopeStack.free
  rw [hlast]
  cases hvisible : f.visible with
  | nil => exact ⟨none, rfl, by simp⟩
  | cons last rest =>
    have hmem : last ∈ f.visible := by simp [hvisible]
    have hbound := hb last (List.mem_filter.1 hmem).1
    have hwords := hbound.words
    have hlower := hbound.lower
    have hend : wrap (last.address + last.type.words) = last.address + last.type.words :=
      wrap_eq_self (by omega) hbound.upper
    have hsize : last.size = .ok last.type.words := Ty.size_eq hbound.typed
    simp [hsize, hend, Except.map]

/-- Whatever is asked, the stack gives the answer of the frame and stays shown by it. -/
theorem Shows.apply {op : FrameOp} {a : FrameAnswer} (h : f.Shows s) (hb : ∀ v ∈ f.vars, v.Bounded)
    (happly : f.apply op = .ok (a, g)) : ∃ t, s.apply op = some (a, t) ∧ g.Shows t := by
  cases op with
  | push n =>
    cases happly
    exact ⟨_, rfl, by simpa [Frame.push, h.depth] using h.withDepth (wrap (s.depth + n))⟩
  | pop n =>
    unfold Frame.apply Frame.pop at happly
    rw [h.depth] at happly
    by_cases hneg : wrap (s.depth - n) < 0
    · simp [hneg, Except.map] at happly
    · simp only [hneg, if_false, Except.map, Except.ok.injEq, Prod.mk.injEq] at happly
      obtain ⟨rfl, rfl⟩ := happly
      exact ⟨_, by simp only [ScopeStack.apply, hneg, if_false], h.withDepth _⟩
  | enter =>
    cases happly
    refine ⟨_, ?_, h.enter⟩
    simp [ScopeStack.apply, Frame.enter, h.next]
  | exit =>
    unfold Frame.apply at happly
    cases hinner : s.inner with
    | nil =>
      rw [Frame.exit, h.scopes, hinner] at happly
      cases happly
    | cons b rest =>
      have hscopes : f.scopes = ⟨b.id, b.depth⟩ :: rest.map fun b => ⟨b.id, b.depth⟩ := by
        rw [h.scopes, hinner]
        rfl
      rw [exit_eq hscopes, h.depth] at happly
      cases happly
      exact ⟨_, by simp only [ScopeStack.apply, hinner], h.closing hinner⟩
  | declare name line type address =>
    obtain ⟨o, ho, hfree⟩ := h.overlap? hb name address
    simp only [Frame.apply, Frame.declare, ho] at happly
    simp only [ScopeStack.apply]
    cases o with
    | some o =>
      have hnot : s.free address = false := by simpa using hfree
      cases happly
      exact ⟨s, by simp [hnot], h⟩
    | none =>
      have hyes : s.free address = true := by simpa using hfree
      cases happly
      refine ⟨_, ?_, h.add name line type address⟩
      simp [hyes, Frame.add, h.scope]

/-- Variables are added and scopes closed for good. -/
structure Extends (f g : Frame) : Prop where
  vars : f.vars ⊆ g.vars
  closed : f.closed ⊆ g.closed

theorem extends_apply {op : FrameOp} {a : FrameAnswer} (h : f.apply op = .ok (a, g)) :
    f.Extends g := by
  cases op with
  | push n =>
    cases h
    exact ⟨List.Subset.refl _, List.Subset.refl _⟩
  | pop n =>
    simp only [Frame.apply, Frame.pop] at h
    split at h
    · cases h
    · cases h
      exact ⟨List.Subset.refl _, List.Subset.refl _⟩
  | enter =>
    cases h
    exact ⟨List.Subset.refl _, List.Subset.refl _⟩
  | exit =>
    simp only [Frame.apply, Frame.exit] at h
    split at h
    · cases h
    · cases h
      exact ⟨List.Subset.refl _, List.subset_cons_self _ _⟩
  | declare name line type address =>
    simp only [Frame.apply, Frame.declare] at h
    cases ho : f.overlap? name address with
    | error e =>
      rw [ho] at h
      cases h
    | ok o =>
      rw [ho] at h
      cases o <;> cases h
      · exact ⟨List.subset_cons_self _ _, List.Subset.refl _⟩
      · exact ⟨List.Subset.refl _, List.Subset.refl _⟩

theorem applyAll_cons {op : FrameOp} {ops : List FrameOp} {as : List FrameAnswer}
    (h : f.applyAll (op :: ops) = .ok (as, g)) :
    ∃ a rest m, f.apply op = .ok (a, m) ∧ m.applyAll ops = .ok (rest, g) ∧ as = a :: rest := by
  unfold applyAll at h
  cases hop : f.apply op with
  | error e =>
    rw [hop] at h
    cases h
  | ok p =>
    rw [hop] at h
    cases hops : p.2.applyAll ops with
    | error e => simp [hops, bind, Except.bind] at h
    | ok q =>
      simp only [hops, bind, Except.bind, pure, Except.pure, Except.ok.injEq, Prod.mk.injEq] at h
      exact ⟨p.1, q.1, p.2, rfl, by rw [hops, ← h.2], h.1.symm⟩

theorem extends_applyAll {ops : List FrameOp} {as : List FrameAnswer}
    (h : f.applyAll ops = .ok (as, g)) : f.Extends g := by
  induction ops generalizing f as with
  | nil =>
    cases h
    exact ⟨List.Subset.refl _, List.Subset.refl _⟩
  | cons op ops ih =>
    obtain ⟨a, rest, m, hop, hops, -⟩ := applyAll_cons h
    have hfirst := extends_apply hop
    have hlater := ih hops
    exact ⟨List.Subset.trans hfirst.vars hlater.vars, List.Subset.trans hfirst.closed hlater.closed⟩

theorem Extends.hidden (h : f.Extends g) {v : Variable} (hv : v ∈ f.vars) (hlive : v ∉ f.live) :
    v ∉ g.live := by
  have hclosed : v.scope ∈ f.closed := by
    by_contra hopen
    exact hlive (List.mem_reverse.2 (List.mem_filter.2 ⟨hv, by simpa [isLive] using hopen⟩))
  intro hmem
  have hopen := (List.mem_filter.1 (List.mem_reverse.1 hmem)).2
  simp [isLive, h.closed hclosed] at hopen

end Frame

namespace ScopeStack

variable {s t : ScopeStack}

/-- Every variable starts at or past the end of those before it. -/
def Ascending (s : ScopeStack) : Prop :=
  s.live.Pairwise fun v w => v.address + v.type.words ≤ w.address

theorem Ascending.add {v : Variable} (h : s.Ascending) (hwords : ∀ v ∈ s.live, 0 ≤ v.type.words)
    (hfree : s.free v.address) : (s.add v).Ascending := by
  unfold Ascending at *
  rw [live_add]
  unfold free at hfree
  cases hlast : s.live.getLast? with
  | none =>
    rw [List.getLast?_eq_none_iff] at hlast
    simp [hlast]
  | some last =>
    rw [hlast] at hfree
    have hend : last.address + last.type.words ≤ v.address := by simpa using hfree
    obtain ⟨front, hfront⟩ := List.getLast?_eq_some_iff.1 hlast
    rw [hfront] at h hwords ⊢
    have hpos := hwords last (by simp)
    rw [List.pairwise_append] at h ⊢
    refine ⟨List.pairwise_append.2 h, List.pairwise_singleton _ _, ?_⟩
    intro u hu w hw
    rw [List.mem_singleton.1 hw]
    rcases List.mem_append.1 hu with hu | hu
    · -- through the last one: it is past `u`, and the new one is past it
      have := h.2.2 u hu last (by simp)
      omega
    · rw [List.mem_singleton.1 hu]
      exact hend

theorem ascending_apply {op : FrameOp} {a : FrameAnswer} (h : s.Ascending)
    (hwords : ∀ v ∈ s.live, 0 ≤ v.type.words) (happly : s.apply op = some (a, t)) :
    t.Ascending := by
  cases op with
  | push n =>
    cases happly
    exact h
  | pop n =>
    simp only [apply] at happly
    split at happly <;> cases happly
    exact h
  | enter =>
    cases happly
    simpa [Ascending, live] using h
  | exit =>
    simp only [apply] at happly
    split at happly <;> cases happly
    rename_i b rest hinner
    unfold Ascending live at h ⊢
    rw [hinner] at h
    simp only [List.reverse_cons, List.map_append, List.flatten_append, ← List.append_assoc] at h
    exact (List.pairwise_append.1 h).1
  | declare name line type address =>
    simp only [apply] at happly
    split at happly <;> cases happly
    · exact h.add hwords ‹_›
    · exact h

theorem ids_apply {op : FrameOp} {a : FrameAnswer} (happly : s.apply op = some (a, t)) :
    s.opened ≤ t.opened ∧ ∀ id ∈ a.id?, s.opened < id ∧ id ≤ t.opened := by
  cases op with
  | push n =>
    cases happly
    exact ⟨le_rfl, nofun⟩
  | pop n =>
    simp only [apply] at happly
    split at happly <;> cases happly
    exact ⟨le_rfl, nofun⟩
  | enter =>
    cases happly
    simp [FrameAnswer.id?]
  | exit =>
    simp only [apply] at happly
    split at happly <;> cases happly
    exact ⟨le_rfl, nofun⟩
  | declare name line type address =>
    simp only [apply] at happly
    split at happly <;> cases happly
    · refine ⟨?_, nofun⟩
      unfold add
      split <;> exact le_rfl
    · exact ⟨le_rfl, nofun⟩

theorem applyAll_cons {op : FrameOp} {ops : List FrameOp} {as : List FrameAnswer}
    (h : s.applyAll (op :: ops) = some (as, t)) :
    ∃ a rest m, s.apply op = some (a, m) ∧ m.applyAll ops = some (rest, t) ∧ as = a :: rest := by
  unfold applyAll at h
  simp only [Option.bind_eq_bind, Option.bind_eq_some_iff, Option.pure_def, Option.some.injEq,
    Prod.mk.injEq] at h
  obtain ⟨⟨a, m⟩, hop, ⟨rest, u⟩, hops, rfl, rfl⟩ := h
  exact ⟨a, rest, m, hop, hops, rfl⟩

theorem ids_applyAll {ops : List FrameOp} {as : List FrameAnswer}
    (h : s.applyAll ops = some (as, t)) :
    (∀ id ∈ as.filterMap FrameAnswer.id?, s.opened < id) ∧
      (as.filterMap FrameAnswer.id?).Pairwise (· < ·) := by
  induction ops generalizing s as with
  | nil =>
    cases h
    exact ⟨by simp, .nil⟩
  | cons op ops ih =>
    obtain ⟨a, rest, m, hop, hops, rfl⟩ := applyAll_cons h
    obtain ⟨hle, hid⟩ := ids_apply hop
    obtain ⟨habove, hsorted⟩ := ih hops
    have hrest : ∀ id ∈ rest.filterMap FrameAnswer.id?, s.opened < id := fun id hmem =>
      Int.lt_of_le_of_lt hle (habove id hmem)
    -- an id that is given now is below those to come, which are above all that were opened
    cases ha : a.id? with
    | none =>
      rw [List.filterMap_cons_none ha]
      exact ⟨hrest, hsorted⟩
    | some id =>
      rw [List.filterMap_cons_some ha]
      obtain ⟨hlow, hhigh⟩ := hid id (by simp [ha])
      refine ⟨List.forall_mem_cons.2 ⟨hlow, hrest⟩, List.pairwise_cons.2 ⟨?_, hsorted⟩⟩
      intro later hmem
      exact Int.lt_of_le_of_lt hhigh (habove later hmem)

end ScopeStack

namespace Frame

variable {f g : Frame} {s : ScopeStack}

/-- Variables are only added, so those bounded in the end were bounded all along. -/
theorem Shows.applyAll {ops : List FrameOp} {as : List FrameAnswer} (h : f.Shows s)
    (hasc : s.Ascending) (hrun : f.applyAll ops = .ok (as, g)) (hb : ∀ v ∈ g.vars, v.Bounded) :
    ∃ t, s.applyAll ops = some (as, t) ∧ g.Shows t ∧ t.Ascending := by
  induction ops generalizing f s as with
  | nil =>
    cases hrun
    exact ⟨s, rfl, h, hasc⟩
  | cons op ops ih =>
    obtain ⟨a, rest, m, hop, hops, rfl⟩ := applyAll_cons hrun
    have hbefore : ∀ v ∈ f.vars, v.Bounded := fun v hv =>
      hb v ((extends_applyAll hops).vars ((extends_apply hop).vars hv))
    have hwords : ∀ v ∈ s.live, 0 ≤ v.type.words := by
      intro v hv
      rw [← h.live] at hv
      exact (hbefore v (List.mem_filter.1 (List.mem_reverse.1 hv)).1).words
    obtain ⟨t, ht, hshows⟩ := h.apply hbefore hop
    obtain ⟨u, hu, hshows', hasc'⟩ := ih hshows (ScopeStack.ascending_apply hasc hwords ht) hops
    exact ⟨u, by simp [ScopeStack.applyAll, ht, hu], hshows', hasc'⟩

theorem applyAll_append {before after : List FrameOp} {as bs : List FrameAnswer} {m : Frame}
    (h : f.applyAll (before ++ after) = .ok (as, g)) (hfirst : f.applyAll before = .ok (bs, m)) :
    ∃ cs, m.applyAll after = .ok (cs, g) := by
  induction before generalizing f as bs with
  | nil =>
    cases hfirst
    exact ⟨as, h⟩
  | cons op ops ih =>
    obtain ⟨a, rest, k, hop, hops, -⟩ := applyAll_cons h
    obtain ⟨a', rest', k', hop', hops', -⟩ := applyAll_cons hfirst
    rw [hop] at hop'
    cases hop'
    exact ih hops hops'

end Frame

theorem Variable.disjoint_slots {v w : Variable} (h : v.address + v.type.words ≤ w.address) :
    Disjoint v.slots w.slots :=
  Set.disjoint_left.2 fun _ hv hw => absurd (Int.lt_of_lt_of_le hv.2 h) (Int.not_lt.2 hw.1)

/-- A frame answers everything that is asked of it as the stack of scopes does, and shows the same
variables, as long as the slots of its variables are numbers of 64 bits. No id is given twice, what
a closed scope hid stays hidden, and the live variables lie one after another. -/
theorem frame_refines_scopeStack {ops : List FrameOp} {answers : List FrameAnswer} {f : Frame}
    (h : ({} : Frame).applyAll ops = .ok (answers, f)) (hb : ∀ v ∈ f.vars, v.Bounded) :
    ∃ s, ({} : ScopeStack).applyAll ops = some (answers, s) ∧ f.depth = s.depth ∧
      f.live = s.live ∧ (∀ name, f.lookup name = s.lookup name) ∧
      (answers.filterMap FrameAnswer.id?).Nodup ∧
      (∀ before after as g, ops = before ++ after → ({} : Frame).applyAll before = .ok (as, g) →
        ∀ v ∈ g.vars, v ∉ g.live → v ∉ f.live) ∧
      f.live.Pairwise fun v w =>
        v.address + v.type.words ≤ w.address ∧ Disjoint v.slots w.slots := by
  obtain ⟨s, hs, hshows, hasc⟩ := Frame.shows_fresh.applyAll .nil h hb
  refine ⟨s, hs, hshows.depth, hshows.live, hshows.lookup, ?_, ?_, ?_⟩
  · exact (ScopeStack.ids_applyAll hs).2.imp Int.ne_of_lt
  · rintro before after as g rfl hg v hv hhidden
    obtain ⟨bs, hafter⟩ := Frame.applyAll_append h hg
    exact (Frame.extends_applyAll hafter).hidden hv hhidden
  · rw [hshows.live]
    exact hasc.imp fun hle => ⟨hle, Variable.disjoint_slots hle⟩

/-- A block whose variable hides one outside it, and a slot used again after it. -/
def shadowing : List FrameOp :=
  [.push 1, .declare "a" 1 ⟨some .u16, 0⟩ 0, .enter, .push 1, .declare "a" 2 ⟨some .i16, 1⟩ 1,
    .declare "b" 2 ⟨some .u16, 0⟩ 1, .exit, .declare "b" 3 ⟨some .u16, 0⟩ 1]

theorem frame_refines_scopeStack_shadowing :
    let a : Variable := ⟨"a", 1, ⟨some .u16, 0⟩, 0, 0⟩
    let a' : Variable := ⟨"a", 2, ⟨some .i16, 1⟩, 1, 1⟩
    let b : Variable := ⟨"b", 3, ⟨some .u16, 0⟩, 1, 0⟩
    let answers : List FrameAnswer :=
      [.done, .declared a, .opened 1, .done, .declared a', .refused, .closed 1, .declared b]
    ∃ f, ({} : Frame).applyAll shadowing = .ok (answers, f) ∧ (∀ v ∈ f.vars, v.Bounded) ∧
      f.live = [a, b] ∧ ∃ s, ({} : ScopeStack).applyAll shadowing = some (answers, s) ∧
        f.live = s.live ∧ f.lookup "a" = s.lookup "a" := by
  intro a a' b answers
  have hrun : ({} : Frame).applyAll shadowing =
      .ok (answers, { vars := [b, a', a], closed := [1], next := 2, depth := 1 }) := rfl
  have hb : ∀ v ∈ [b, a', a], v.Bounded := by
    simp only [List.forall_mem_cons, List.not_mem_nil, false_implies, implies_true, and_true]
    exact ⟨⟨rfl, by decide, by decide, by decide⟩, ⟨rfl, by decide, by decide, by decide⟩,
      ⟨rfl, by decide, by decide, by decide⟩⟩
  obtain ⟨s, hs, -, hlive, hlookup, -⟩ := frame_refines_scopeStack hrun hb
  exact ⟨_, hrun, hb, rfl, s, hs, hlive, hlookup "a"⟩

/-- The end of a variable in the last slot of 64 bits wraps around, and another is let in there. -/
theorem frame_shares_last_slot :
    let v (name : String) : Variable := ⟨name, 1, ⟨some .u16, 0⟩, 2 ^ 63 - 1, 0⟩
    ∃ f, ({} : Frame).applyAll
        [.declare "a" 1 ⟨some .u16, 0⟩ (2 ^ 63 - 1), .declare "b" 1 ⟨some .u16, 0⟩ (2 ^ 63 - 1)] =
          .ok ([.declared (v "a"), .declared (v "b")], f) ∧
      f.live = [v "a", v "b"] ∧ (v "b").address < (v "a").address + (v "a").type.words ∧
      ¬ f.live.Pairwise fun v w => Disjoint v.slots w.slots := by
  intro v
  refine ⟨{ vars := [v "b", v "a"] }, rfl, rfl, by decide, fun h => ?_⟩
  replace h : [v "a", v "b"].Pairwise fun v w => Disjoint v.slots w.slots := h
  have hdisjoint : Disjoint (v "a").slots (v "b").slots := by simpa using h
  have hmem (name : String) : (2 ^ 63 - 1 : Int) ∈ (v name).slots := by
    refine ⟨le_rfl, ?_⟩
    show (2 ^ 63 - 1 : Int) < 2 ^ 63 - 1 + 1
    omega
  exact Set.disjoint_left.1 hdisjoint (hmem "a") (hmem "b")

end OnePass
