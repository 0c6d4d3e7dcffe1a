import Mathlib
import OnePass.Proofs.Lockstep

namespace OnePass

namespace Entry

def opens : Entry → Bool
  | group _ => true
  | operator k => k.opensGroup
  | _ => false

theorem opensGroup_eq {s : Session} {x : Entry} {d : Directive} (h : x.Shows s d) :
    d.kind.opensGroup = x.opens := by
  cases x with
  | value e =>
    rw [h.1]
    rfl
  | decl δ =>
    rw [h.1]
    rfl
  | operator k =>
    rw [show d.kind = k from h]
    rfl
  | group g =>
    cases g with
    | paren =>
      rw [show d.kind = .openParen from h]
      rfl
    | call g args =>
      rw [h.1]
      rfl

theorem ungrouped_of_shows {s : Session} {xs : List Entry} {stack : List Directive}
    (h : List.Forall₂ (Shows s) xs stack) (hxs : ∀ x ∈ xs, x.opens = false) :
    ∀ d ∈ stack, d.kind.opensGroup = false := by
  induction h with
  | nil => simp
  | cons hd _ ih =>
    simp only [List.forall_mem_cons] at hxs ⊢
    exact ⟨(opensGroup_eq hd).trans hxs.1, ih hxs.2⟩

/-- Reductions with threshold `q` stop before these entries. -/
def Halts (q : Int) (xs : List Entry) : Prop :=
  ∀ x ∈ xs.head?, (∃ g, x = group g) ∨
    ∃ k, x = operator k ∧ k.isOperator ∧ k.precedence < q ∧ k.isUnary = false

end Entry

namespace Parse

variable {p : Parse} {ok : Expr → Bool}

theorem entries_some {e : Expr} (h : p.top = some e) :
    p.entries = .value e :: regionEntries p.region ++ p.baseEntries := by
  simp [entries, h]

theorem entries_none (h : p.top = none) :
    p.entries = regionEntries p.region ++ p.baseEntries := by
  simp [entries, h]

/-- Where an operand is due, the topmost entry is a pending operator or the innermost open group. -/
theorem entries_due (h : p.top = none) :
    ((p.region ≠ [] ∨ p.outer = []) ∧ ∀ x ∈ p.entries.head?, ∃ k, x = .operator k ∧
      ∀ args, k ≠ .call args) ∨
    ∃ g region outer, p.region = [] ∧ p.outer = (g, region) :: outer ∧
      p.entries = .group g :: entries { p with outer, region, top := none } := by
  rw [entries_none h]
  cases hregion : p.region with
  | cons op region =>
    refine .inl ⟨.inl (by simp), ?_⟩
    cases op with
    | binary op l => cases op <;> simp [regionEntries, Pending.entries, Alu.kind]
    | _ => simp [regionEntries, Pending.entries]
  | nil =>
    cases houter : p.outer with
    | nil =>
      refine .inl ⟨.inr rfl, ?_⟩
      cases htarget : p.target with
      | none => simp [regionEntries, baseEntries, houter, htarget]
      | some target =>
        cases target <;> simp [regionEntries, baseEntries, houter, htarget, Target.entries]
    | cons head outer =>
      refine .inr ⟨head.1, head.2, outer, rfl, rfl, ?_⟩
      simp [regionEntries, entries, baseEntries, houter]

theorem opens_entries (houter : p.outer = []) : ∀ x ∈ p.entries, x.opens = false := by
  have hregion : ∀ x ∈ regionEntries p.region, x.opens = false := by
    simp only [regionEntries, List.mem_flatMap]
    rintro x ⟨op, -, hx⟩
    cases op with
    | deref => exact List.mem_singleton.1 hx ▸ rfl
    | addressOf => exact List.mem_singleton.1 hx ▸ rfl
    | binary op l =>
      rcases List.mem_cons.1 hx with rfl | hx
      · cases op <;> rfl
      · exact List.mem_singleton.1 hx ▸ rfl
  have htarget : ∀ x ∈ (p.target.map Target.entries).getD [], x.opens = false := by
    cases p.target with
    | none => simp
    | some target => cases target <;> simp [Target.entries, Entry.opens, DirectiveKind.opensGroup]
  have htop : ∀ x ∈ p.top.toList.map Entry.value, x.opens = false := by
    simp [Entry.opens]
  simp only [entries, baseEntries, houter, List.flatMap_nil, List.nil_append,
    List.forall_mem_append]
  exact ⟨⟨htop, hregion⟩, htarget⟩

theorem halts_baseEntries (q : Int) (h : 1 < q ∨ p.target = none ∨ p.outer ≠ []) :
    Entry.Halts q p.baseEntries := by
  intro x hx
  cases houter : p.outer with
  | cons g outer =>
    rw [baseEntries, houter] at hx
    obtain rfl : _ = x := by simpa using hx
    exact .inl ⟨_, rfl⟩
  | nil =>
    simp only [baseEntries, houter, List.flatMap_nil, List.nil_append] at hx
    cases htarget : p.target with
    | none => simp [htarget] at hx
    | some target =>
      have hq : 1 < q := by simpa [htarget, houter] using h
      rw [htarget] at hx
      cases target <;>
      · obtain rfl : _ = x := by simpa [Target.entries] using hx
        exact .inr ⟨_, rfl, rfl, hq, rfl⟩

theorem halts_reduce {q : Nat} {region region' : List Pending} {e e' : Expr} {base : List Entry}
    (h : reduce ok q region e = some (region', e')) (hbase : Entry.Halts q base) :
    Entry.Halts q (regionEntries region' ++ base) := by
  fun_induction reduce ok q region e with
  | case1 e =>
    obtain ⟨rfl, rfl⟩ : region' = [] ∧ e' = e := by simpa [eq_comm] using h
    exact hbase
  | case2 _ _ _ ih | case4 _ _ _ ih | case7 _ _ _ _ _ _ ih => exact ih h
  | case6 op l region e hq =>
    obtain ⟨rfl, rfl⟩ : region' = .binary op l :: region ∧ e' = e := by simpa [eq_comm] using h
    intro x hx
    obtain rfl : .operator op.kind = x := by simpa [regionEntries, Pending.entries] using hx
    refine .inr ⟨_, rfl, by cases op <;> rfl, ?_, by cases op <;> rfl⟩
    rw [op.precedence_kind]
    exact_mod_cast hq
  | _ => simp at h

theorem two_le_precedence (op : Alu) : 2 ≤ op.precedence := by cases op <;> decide

theorem reduce_low {q : Nat} {region : List Pending} {e : Expr} (hq : q ≤ 2) :
    reduce ok q region e = (reduce ok 0 region e).map fun r => ([], r.2) := by
  induction region generalizing e with
  | nil => rfl
  | cons op region ih =>
    cases op with
    | binary op l =>
      have hop := two_le_precedence op
      simp only [reduce, if_neg (show ¬op.precedence < q by omega), Nat.not_lt_zero, if_false, ih]
      split <;> rfl
    | _ =>
      simp only [reduce, ih]
      split <;> rfl

theorem weights_reduce {q : Nat} {region region' : List Pending} {e e' : Expr}
    (base : List Entry) (h : reduce ok q region e = some (region', e')) :
    Entry.weights (.value e' :: regionEntries region' ++ base) ≤
      Entry.weights (.value e :: regionEntries region ++ base) := by
  fun_induction reduce ok q region e with
  | case1 e | case6 e =>
    simp only [Option.some.injEq, Prod.mk.injEq] at h
    rw [← h.1, ← h.2]
  | case2 _ _ _ ih | case4 _ _ _ ih =>
    refine (ih h).trans ?_
    simp [Entry.weights, Entry.weight, regionEntries, Pending.entries]
  | case7 _ _ _ _ _ _ ih =>
    refine (ih h).trans ?_
    simp [Entry.weights, Entry.weight, regionEntries, Pending.entries]
    omega
  | _ => simp at h

end Parse

namespace Build

variable {s₀ s : Session} {xs : List Entry} {stack : List Directive} {b : Bool} {n : Nat}
  {p : Parse} {e : Expr} {i : Nat} {tok : Token}

/-- The session has compiled what the parser has read. -/
def Follows (s₀ : Session) (p : Parse) (s : Session) : Prop :=
  Tracks s₀ p.entries s.stack p.top.isNone s

/-- A step of the session agrees with a step of the parser: they end up alike, with at most `w`
words held, or the statement is lost. -/
def Agrees (s₀ : Session) (w : Nat) (result : EStateM.Result Stop Session Unit) :
    Option Parse → Prop
  | some p => ∃ t, result = .ok () t ∧ Follows s₀ p t ∧ Entry.weights p.entries ≤ w
  | none => ∀ t, result = .ok () t → Doomed t.stack

theorem Fails.agrees {w : Nat} {result : EStateM.Result Stop Session Unit} (h : Fails result) :
    Agrees s₀ w result none := fun t ht => absurd ht (h () t)

theorem reduceStack_halts {q : Int} (h : Tracks s₀ (.value e :: xs) stack b s)
    (hq : Entry.Halts q xs) : reduceStack q stack = pure () := by
  obtain ⟨d, rest, ⟨hk, -⟩, hrest, rfl⟩ := List.forall₂_cons_left_iff.1 h.shows
  have hvalue : DirectiveKind.isOperator .value = false := rfl
  have hgroup : DirectiveKind.opensGroup .value = false := rfl
  cases hrest with
  | nil => exact reduceStack_of_none (by simp [splitOperator, splitTop, hk, hvalue, hgroup])
  | @cons x op xs below hop hbelow =>
    obtain ⟨g, rfl⟩ | ⟨k, rfl, hk', hprec, hunary⟩ := hq x rfl
    · have hopen : op.kind.opensGroup := Entry.opensGroup_eq hop
      have hop : op.kind.isOperator = false := by
        cases hk : op.kind <;> simp_all [DirectiveKind.opensGroup, DirectiveKind.isOperator]
      exact reduceStack_of_none (by simp [splitOperator, splitTop, hk, hvalue, hgroup, hop, hopen])
    · obtain rfl : op.kind = k := hop
      have hsplit : splitOperator (d :: op :: below) = some ([d], op, below) := by
        simp [splitOperator, splitTop, hk, hk', hvalue, hgroup]
      rw [reduceStack]
      split
      · simp_all
      · rename_i heq
        obtain ⟨rfl, rfl, rfl⟩ : _ ∧ _ ∧ _ := by simpa [hsplit] using heq
        rw [if_pos ⟨hprec, by simp [hunary]⟩]

/-- Reductions before a token agree with those of the parser. -/
theorem run_reduce {q : Nat} (hr : Ready n s₀) (h : Follows s₀ p s)
    (hn : Entry.weights p.entries ≤ n) (htop : p.top = some e)
    (hbase : Entry.Halts q p.baseEntries) :
    match Parse.reduce (typeable s₀) q p.region e with
    | some (region, e') => ∃ t, (reduce q).run s = .ok () t ∧
        Tracks s₀ (.value e' :: Parse.regionEntries region ++ p.baseEntries) t.stack false t
    | none => Fails ((reduce q).run s) := by
  unfold Follows at h
  rw [Parse.entries_some htop] at h hn
  have hred := reduce_lockstep (q := q) hr h rfl hn
  unfold reduce
  rw [EStateM.run_bind, EStateM.run_get]
  cases hp : Parse.reduce (typeable s₀) q p.region e with
  | none => rwa [hp] at hred
  | some r =>
    rw [hp] at hred
    obtain ⟨stack, t, hrun, rfl, ht⟩ := hred
    refine ⟨t, ?_, by simpa [htop] using ht⟩
    dsimp only
    rw [hrun, reduceStack_halts ht (Parse.halts_reduce hp hbase)]
    rfl

theorem tracks_push {d : Directive} {x : Entry} (h : Tracks s₀ xs stack b s) (hx : x.Shows s₀ d)
    (hheld : x.held s₀.frame = 0) (hcode : ∀ depth, x.code s₀.frame depth = []) :
    Tracks s₀ (x :: xs) (d :: stack) b s :=
  h.restack (by simp [Entry.codes, hcode]) (by simp [Entry.top, hheld]) (.cons hx h.shows)

theorem weights_cons {x : Entry} (hw : x.weight = 1) :
    Entry.weights (x :: xs) = Entry.weights xs + 1 := by
  simp [Entry.weights, hw, Nat.add_comm]

theorem run_pushEntry (d : Directive) (tok : Token) (h : Follows s₀ p s) :
    if p.top.isNone then (pushEntry d tok).run s = .ok () { s with stack := d :: s.stack }
    else Fails ((pushEntry d tok).run s) := by
  have hexpect := h.expect
  unfold pushEntry
  rw [EStateM.run_bind, EStateM.run_get]
  dsimp only
  cases htop : p.top.isNone with
  | true =>
    rw [htop] at hexpect
    rw [if_pos rfl, if_pos hexpect]
    rfl
  | false =>
    rw [htop] at hexpect
    rw [if_neg (by simp), if_neg (by simp [hexpect])]
    exact fails_error _ _

theorem agrees_pushEntry {d : Directive} {x : Entry} {p' : Parse} (h : Follows s₀ p s)
    (hx : x.Shows s₀ d) (hheld : x.held s₀.frame = 0) (hcode : ∀ depth, x.code s₀.frame depth = [])
    (hw : x.weight = 1) (hp : p.top = none → p'.entries = x :: p.entries ∧ p'.top = none) :
    Agrees s₀ (Entry.weights p.entries + 1) ((pushEntry d tok).run s)
      (if p.top.isNone then some p' else none) := by
  have hpush := run_pushEntry d tok h
  cases htop : p.top with
  | some e =>
    rw [htop] at hpush
    exact Fails.agrees hpush
  | none =>
    rw [htop] at hpush
    obtain ⟨hentries, htop'⟩ := hp htop
    have ht := tracks_push h hx hheld hcode
    refine ⟨_, hpush, ?_, by rw [hentries, weights_cons hw]⟩
    unfold Follows
    rw [hentries, htop', ← htop]
    exact ⟨ht.code, ht.frame, ht.types, ht.tokens, ht.expect, ht.shows⟩

theorem agrees_pushTerm {d : Directive} (h : Follows s₀ p s)
    (ho : e.operand s₀.frame = some d.operand) (hk : d.kind = .value) (hheld : d.operand.held = 0)
    (hcode : ∀ depth, e.code s₀.frame depth = []) :
    Agrees s₀ (Entry.weights p.entries + 1) ((pushTerm d tok).run s)
      (p.operand (typeable s₀) e) := by
  have hpush := run_pushEntry d tok h
  unfold pushTerm Parse.operand
  cases htop : p.top with
  | some e' =>
    rw [htop] at hpush
    exact Fails.agrees (hpush.bind _)
  | none =>
    rw [htop] at hpush
    have hentries : Parse.entries { p with top := some e } = .value e :: p.entries := by
      simp [Parse.entries, Parse.baseEntries, htop]
    have ht : Tracks s₀ (.value e :: p.entries) (d :: s.stack) _ s := tracks_push h ⟨hk, ho⟩
      (by simp [Entry.held, Expr.result_eq ho, hheld]) hcode
    rw [if_pos (by simp [typeable, ho]), run_bind_ok hpush]
    refine ⟨_, rfl, ?_, by rw [hentries, weights_cons rfl]⟩
    unfold Follows
    rw [hentries]
    exact ⟨ht.code, ht.frame, ht.types, ht.tokens, rfl, ht.shows⟩

theorem agrees_useLiteral (h : Follows s₀ p s) :
    Agrees s₀ (Entry.weights p.entries + 1) ((useLiteral i tok).run s)
      (p.operand (typeable s₀) (.literal tok.value)) := by
  unfold useLiteral
  split
  · rename_i hlarge
    have : typeable s₀ (.literal tok.value) = false := by simp [typeable, Expr.operand]; omega
    rw [Parse.operand, this, Bool.and_false, if_neg (by simp)]
    exact Fails.agrees (fails_error _ _)
  · rename_i hsmall
    exact agrees_pushTerm h (by simp [Expr.operand]; omega) rfl rfl fun _ => rfl

theorem agrees_useVariable (h : Follows s₀ p s) :
    Agrees s₀ (Entry.weights p.entries + 1) ((useVariable i tok).run s)
      (p.operand (typeable s₀) (.name tok.name)) := by
  have hlookup : s.frame.lookup tok.name = s₀.frame.lookup tok.name := by
    rw [h.frame]
    rfl
  unfold useVariable
  rw [EStateM.run_bind, EStateM.run_get]
  dsimp only
  rw [hlookup]
  cases hv : s₀.frame.lookup tok.name with
  | none =>
    have : typeable s₀ (.name tok.name) = false := by simp [typeable, Expr.operand, hv]
    rw [Parse.operand, this, Bool.and_false, if_neg (by simp)]
    exact Fails.agrees (fails_error _ _)
  | some v => exact agrees_pushTerm h (by simp [Expr.operand, hv]) rfl rfl fun _ => rfl

/-- An operator is pushed once what binds at least as tightly has been reduced. -/
theorem run_pushOperator {kind : DirectiveKind} {q : Nat} (i : Nat) (tok : Token)
    (hq : kind.precedence = q) (hr : Ready n s₀) (h : Follows s₀ p s)
    (hn : Entry.weights p.entries ≤ n) (hbase : Entry.Halts q p.baseEntries) :
    match p.top.bind (Parse.reduce (typeable s₀) q p.region) with
    | some (region, l) => ∃ t, (pushOperator kind i tok).run s = .ok () t ∧
        Tracks s₀ (.operator kind :: .value l :: Parse.regionEntries region ++ p.baseEntries)
          t.stack true t
    | none => Fails ((pushOperator kind i tok).run s) := by
  have hexpect := h.expect
  unfold pushOperator
  rw [EStateM.run_bind, EStateM.run_get]
  dsimp only
  cases htop : p.top with
  | none =>
    rw [htop] at hexpect
    rw [if_pos (by simpa using hexpect)]
    exact fails_error _ _
  | some e =>
    rw [htop] at hexpect
    have hred := run_reduce hr h hn htop hbase
    rw [if_neg (by simp [hexpect]), hq, Option.bind_some]
    cases hp : Parse.reduce (typeable s₀) q p.region e with
    | none =>
      rw [hp] at hred
      exact hred.bind _
    | some r =>
      rw [hp] at hred
      obtain ⟨t, hrun, ht⟩ := hred
      have htracks : Tracks s₀ (.operator kind :: .value r.2 :: Parse.regionEntries r.1 ++
          p.baseEntries) ({ kind, tok := i } :: t.stack) false t :=
        tracks_push ht rfl rfl fun _ => rfl
      rw [run_bind_ok hrun]
      exact ⟨_, rfl, htracks.code, htracks.frame, htracks.types, htracks.tokens, rfl,
        htracks.shows⟩

theorem agrees_binary (op : Alu) (hr : Ready n s₀) (h : Follows s₀ p s)
    (hn : Entry.weights p.entries ≤ n) :
    Agrees s₀ (Entry.weights p.entries + 1) ((pushOperator op.kind i tok).run s)
      (p.binary (typeable s₀) op) := by
  have hq : 1 < (op.precedence : Int) := by cases op <;> decide
  have hpush := run_pushOperator i tok op.precedence_kind hr h hn
    (Parse.halts_baseEntries _ (.inl hq))
  unfold Parse.binary
  cases htop : p.top with
  | none =>
    rw [htop] at hpush
    exact Fails.agrees hpush
  | some e =>
    rw [htop, Option.bind_some] at hpush
    simp only [Option.bind_eq_bind, Option.bind_some]
    cases hp : Parse.reduce (typeable s₀) op.precedence p.region e with
    | none =>
      rw [hp] at hpush
      exact Fails.agrees hpush
    | some r =>
      rw [hp] at hpush
      obtain ⟨t, hrun, ht⟩ := hpush
      refine ⟨t, hrun, ht, ?_⟩
      have hweights := Parse.weights_reduce p.baseEntries hp
      rw [← Parse.entries_some htop] at hweights
      exact (weights_cons rfl).trans_le (Nat.succ_le_succ hweights)

theorem run_reduce_target {q : Nat} {target : Target} (hq : q ≤ 1) (hr : Ready n s₀)
    (h : Follows s₀ p s) (hn : Entry.weights p.entries ≤ n) (htop : p.top = some e)
    (houter : p.outer = []) (htarget : p.target = some target) :
    match Parse.reduce (typeable s₀) 0 p.region e with
    | some (_, e') => ∃ t rhs op lhs,
        Tracks s₀ (.value e' :: target.entries) [rhs, op, lhs] false t ∧
        (reduce q).run s = (reduceOver op (t.token op.tok) rhs [lhs] >>= fun r =>
          setStack r.1 >>= fun _ => reduceStack q r.1).run t
    | none => Fails ((reduce q).run s) := by
  have hbase : p.baseEntries = target.entries := by simp [Parse.baseEntries, houter, htarget]
  unfold Follows at h
  rw [Parse.entries_some htop, hbase] at h
  rw [Parse.entries_some htop, hbase] at hn
  have hred := reduce_lockstep (q := q) hr h rfl hn
  unfold reduce
  rw [EStateM.run_bind, EStateM.run_get]
  rw [Parse.reduce_low (by omega)] at hred
  cases hp : Parse.reduce (typeable s₀) 0 p.region e with
  | none => rwa [hp] at hred
  | some r =>
    rw [hp] at hred
    obtain ⟨stack, t, hrun, -, ht⟩ := hred
    obtain ⟨x, hx⟩ : ∃ x, target.entries = [.operator .assign, x] := by
      cases target <;> exact ⟨_, rfl⟩
    have hshows : List.Forall₂ (Entry.Shows s₀) [.value r.2, .operator .assign, x] stack := by
      simpa [Parse.regionEntries, hx] using ht.shows
    obtain ⟨rhs, rest, ⟨hk, -⟩, hrest, rfl⟩ := List.forall₂_cons_left_iff.1 hshows
    obtain ⟨op, rest, hop, hlast, rfl⟩ := List.forall₂_cons_left_iff.1 hrest
    obtain ⟨lhs, rest, -, hnil, rfl⟩ := List.forall₂_cons_left_iff.1 hlast
    obtain rfl := List.forall₂_nil_left_iff.1 hnil
    have hop : op.kind = .assign := hop
    -- three entries are left, and the assignment among them is reduced next
    obtain ⟨ev, hev⟩ := run_reduceStack (s := t) (q := q) [lhs] hk (by rw [hop]; rfl)
      (by simp only [hop, DirectiveKind.precedence]; omega)
    refine ⟨{ t with trace := t.trace.push ev }, rhs, op, lhs, ?_, hrun.trans hev⟩
    simpa [htop, Parse.regionEntries] using ht.noted (t.trace.push ev)

theorem stack_reduce_target {q : Nat} {target : Target} {t : Session} (hq : q ≤ 1)
    (hr : Ready n s₀) (h : Follows s₀ p s) (hn : Entry.weights p.entries ≤ n)
    (htop : p.top = some e)
    (houter : p.outer = []) (htarget : p.target = some target)
    (hrun : (reduce q).run s = .ok () t) : t.stack = [] := by
  have hred := run_reduce_target hq hr h hn htop houter htarget
  cases hp : Parse.reduce (typeable s₀) 0 p.region e with
  | none =>
    rw [hp] at hred
    exact absurd hrun (hred () t)
  | some r =>
    rw [hp] at hred
    obtain ⟨u, rhs, op, lhs, hu, heq⟩ := hred
    have hop : op.kind = .assign := by
      have := hu.shows
      cases target <;> exact (List.forall₂_cons.1 (List.forall₂_cons.1 this).2).1
    rw [heq] at hrun
    obtain ⟨stack, v, hover, hrun⟩ := run_bind_eq_ok.1 hrun
    have hstack : stack.1 = [] := by
      cases hs : stack.1 with
      | nil => rfl
      | cons d rest =>
        have := reduction_reduceOver hover
        rw [hs] at this
        cases this with
        | unary _ h => simp [hop, DirectiveKind.isUnary] at h
        | binary _ h =>
          rw [hop] at h
          simp [DirectiveKind.alu?] at h
    rw [hstack, run_bind_ok (run_setStack _), reduceStack_of_none rfl] at hrun
    simp only [EStateM.run_pure, EStateM.Result.ok.injEq, true_and] at hrun
    rw [← hrun]

theorem precedence_assign : DirectiveKind.assign.precedence = (1 : Nat) := rfl

/-- An assignment inside a group leaves the group without a value. -/
theorem doomed_assign_inside {t : Session} (hr : Ready n s₀) (h : Follows s₀ p s)
    (hn : Entry.weights p.entries ≤ n) (houter : p.outer ≠ [])
    (ht : (pushOperator .assign i tok).run s = .ok () t) : Doomed t.stack := by
  have hpush := run_pushOperator i tok precedence_assign hr h hn
    (Parse.halts_baseEntries _ (.inr (.inr houter)))
  cases hp : p.top.bind (Parse.reduce (typeable s₀) 1 p.region) with
  | none =>
    rw [hp] at hpush
    exact absurd ht (hpush () t)
  | some r =>
    rw [hp] at hpush
    obtain ⟨u, hrun, hu⟩ := hpush
    obtain rfl : u = t := by simpa [hrun] using ht
    obtain ⟨e, -, hreduce⟩ := Option.bind_eq_some_iff.1 hp
    -- what is pending binds more tightly, so only the left side is left above the group
    obtain ⟨l, rfl⟩ : ∃ l, r = ([], l) := by
      rw [Parse.reduce_low (by omega)] at hreduce
      obtain ⟨r', -, rfl⟩ := Option.map_eq_some_iff.1 hreduce
      exact ⟨_, rfl⟩
    obtain ⟨g, outer, houter⟩ := List.exists_cons_of_ne_nil houter
    have hshows := hu.shows
    rw [Parse.baseEntries, houter] at hshows
    obtain ⟨op, rest, hop, hlhs, hstack⟩ := List.forall₂_cons_left_iff.1 hshows
    obtain ⟨lhs, rest, -, hgroup, rfl⟩ := List.forall₂_cons_left_iff.1 hlhs
    obtain ⟨d, rest, hd, -, rfl⟩ := List.forall₂_cons_left_iff.1 hgroup
    have hop : op.kind = .assign := hop
    rw [hstack]
    exact .here (by rw [hop]; rfl) (by rw [hop]; rfl) (.inside hop (Entry.opensGroup_eq hd))

/-- A second assignment has nothing on its left side. -/
theorem doomed_assign_again {target : Target} {t : Session} (hr : Ready n s₀) (h : Follows s₀ p s)
    (hn : Entry.weights p.entries ≤ n) (houter : p.outer = []) (htarget : p.target = some target)
    (ht : (pushOperator .assign i tok).run s = .ok () t) : Doomed t.stack := by
  unfold pushOperator at ht
  rw [EStateM.run_bind, EStateM.run_get] at ht
  dsimp only at ht
  split at ht
  · simp at ht
  · rename_i hexpect
    rw [h.expect] at hexpect
    obtain ⟨e, htop⟩ : ∃ e, p.top = some e := by
      cases htop : p.top with
      | none => simp [htop] at hexpect
      | some e => exact ⟨e, rfl⟩
    obtain ⟨_, u, hreduce, ht⟩ := run_bind_eq_ok.1 ht
    have hstack := stack_reduce_target le_rfl hr h hn htop houter htarget hreduce
    rw [EStateM.run_bind, EStateM.run_get] at ht
    simp only [EStateM.run_bind, run_setStack, run_setExpectOperand, EStateM.Result.ok.injEq,
      true_and, hstack] at ht
    rw [← ht]
    exact .here rfl rfl .nothing

/-- An assignment starts the right side, unless there is one already or a group is open. -/
theorem agrees_assign (hr : Ready n s₀) (h : Follows s₀ p s) (hn : Entry.weights p.entries ≤ n) :
    Agrees s₀ (Entry.weights p.entries + 1) ((pushOperator .assign i tok).run s)
      (p.assign (typeable s₀)) := by
  cases houter : p.outer with
  | cons g outer =>
    have hassign : p.assign (typeable s₀) = none := by
      unfold Parse.assign
      rw [houter]
      cases p.target <;> rfl
    rw [hassign]
    exact fun t ht => doomed_assign_inside hr h hn (by simp [houter]) ht
  | nil =>
    cases htarget : p.target with
    | some target =>
      have hassign : p.assign (typeable s₀) = none := by simp [Parse.assign, htarget]
      rw [hassign]
      exact fun t ht => doomed_assign_again hr h hn houter htarget ht
    | none =>
      have hpush := run_pushOperator i tok precedence_assign hr h hn
        (Parse.halts_baseEntries _ (.inr (.inl htarget)))
      unfold Parse.assign Parse.whole
      rw [houter, htarget]
      cases htop : p.top with
      | none =>
        rw [htop] at hpush
        exact Fails.agrees hpush
      | some e =>
        rw [htop, Option.bind_some, Parse.reduce_low (by omega)] at hpush
        simp only [Option.bind_eq_bind, Option.bind_some]
        cases hp : Parse.reduce (typeable s₀) 0 p.region e with
        | none =>
          rw [hp] at hpush
          exact Fails.agrees hpush
        | some r =>
          rw [hp] at hpush
          obtain ⟨t, hrun, ht⟩ := hpush
          have hbase : p.baseEntries = [] := by simp [Parse.baseEntries, houter, htarget]
          rw [hbase] at ht
          refine ⟨t, hrun, ht, ?_⟩
          rw [Parse.entries_some htop, List.cons_append, weights_cons rfl]
          simp [Entry.weights, Parse.entries, Parse.baseEntries, Parse.regionEntries,
            Target.entries, Entry.weight]

section Groups

variable {f : String} {args : List Expr} {arg marker : Directive} {below : List Directive}

theorem wrap_length (hr : Ready n s₀)
    (hn : Entry.weights (.value e :: .group (.call f args) :: xs) ≤ n) :
    wrap ((args.length : Int) + 1) = (args ++ [e]).length := by
  have h₀ := hr.nonneg
  have h₁ := hr.room
  have hlen : args.length ≤ Entry.weights (.value e :: .group (.call f args) :: xs) := by
    simp [Entry.weights, Entry.weight]
    omega
  rw [wrap_eq_self (by omega) (by omega)]
  simp

theorem run_passArgument (hr : Ready n s₀)
    (h : Tracks s₀ (.value e :: .group (.call f args) :: xs) (arg :: marker :: below) b s)
    (hn : Entry.weights (.value e :: .group (.call f args) :: xs) ≤ n) :
    if typeable s₀ (.call f (args ++ [e])) then
      ∃ t, (passArgument arg marker args.length below).run s = .ok () t ∧
        t.stack = { marker with kind := .call (args ++ [e]).length } :: below ∧
        Tracks s₀ (.group (.call f (args ++ [e])) :: xs) t.stack b t
    else Fails ((passArgument arg marker args.length below).run s) := by
  obtain ⟨⟨hk, ho⟩, hrest⟩ := List.forall₂_cons.1 h.shows
  obtain ⟨⟨hmarker, hname, hscalars⟩, hbelow⟩ := List.forall₂_cons.1 hrest
  have hresult := Expr.result_eq ho
  have hpos : 0 ≤ Entry.top s₀.frame xs := hr.nonneg.trans (Entry.depth_le_top _ _)
  have hdepth : s.frame.depth = Entry.top s₀.frame xs + args.length + arg.operand.held := by
    rw [h.depth, Entry.top, Entry.top, Entry.held, Entry.held, hresult]
  have hrange := h.inRange hr hn
  have hcheck := checks_requireScalar (s := s) (Expr.typed_operand hr.vars e ho)
  have htype : typeable s₀ (.call f (args ++ [e])) = arg.operand.scalar := by
    simp only [typeable, Expr.operand, Expr.scalars_append, hscalars, ho, Option.any_some,
      Bool.true_and]
    cases arg.operand.scalar <;> rfl
  rw [htype]
  unfold passArgument
  cases hs : arg.operand.scalar with
  | false =>
    rw [hs] at hcheck
    obtain ⟨d, hd⟩ := hcheck
    exact Fails.bind (by rw [hd]; exact fails_error _ _) _
  | true =>
    rw [hs] at hcheck
    have hspill := run_spill (o := arg.operand) hrange (by omega)
    have htracks : Tracks s₀ (.group (.call f (args ++ [e])) :: xs)
        ({ marker with kind := .call (args ++ [e]).length } :: below) b
        (s.emitted (arg.operand.spillCode s.frame.depth)
          (s.frame.depth - arg.operand.held + 1)) := by
      refine h.emitted ?_ ?_ (.cons ⟨rfl, hname, ?_⟩ hbelow)
      · simp [Entry.codes, Entry.code, Entry.top, Entry.held, Expr.argsCode_append, hresult, hdepth]
      · simp [Entry.top, Entry.held, hdepth]
        ring
      · simp [Expr.scalars_append, hscalars, ho, hs]
    rw [if_pos rfl, run_bind_ok hcheck, run_bind_ok hspill, wrap_length hr hn]
    exact ⟨_, rfl, rfl, htracks.code, htracks.frame, htracks.types, htracks.tokens, htracks.expect,
      htracks.shows⟩

/-- A call takes its arguments off the evaluation stack and leaves its result. -/
theorem run_finishCall (hr : Ready n s₀)
    (h : Tracks s₀ (.group (.call f args) :: xs)
      ({ marker with kind := .call args.length } :: below) b s)
    (hn : Entry.weights (.group (.call f args) :: xs) ≤ n) :
    ∃ t, (finishCall marker args.length below).run s = .ok () t ∧
      Tracks s₀ (.value (.call f args) :: xs) t.stack false t := by
  obtain ⟨⟨-, hname, hscalars⟩, hbelow⟩ := List.forall₂_cons.1 h.shows
  have hpos : 0 ≤ Entry.top s₀.frame xs := hr.nonneg.trans (Entry.depth_le_top _ _)
  have hdepth : s.frame.depth = Entry.top s₀.frame xs + args.length := h.depth
  have hcall := run_call (s.token marker.tok).name args.length (h.inRange hr hn)
    (by omega) (by omega)
  have hoperand :
      (Expr.call f args).operand s₀.frame = some (result marker.tok .untyped).operand := by
    simp [Expr.operand, hscalars, result]
  unfold finishCall
  rw [run_bind_ok (run_tokenAt _), run_bind_ok hcall]
  have htracks : Tracks s₀ (.value (.call f args) :: xs) (result marker.tok .untyped :: below) b
      (s.emitted [.call (s.token marker.tok).name] (s.frame.depth - args.length + 1)) := by
    refine h.emitted ?_ ?_ (.cons ⟨rfl, hoperand⟩ hbelow)
    · rw [h.token, hname]
      simp [Entry.codes, Entry.code, Expr.code]
    · simp [Entry.top, Entry.held, Expr.result_eq hoperand, hdepth, result, Operand.held]
  exact ⟨_, rfl, htracks.code, htracks.frame, htracks.types, htracks.tokens, rfl, htracks.shows⟩

theorem run_reduce_group {g : Group} {region : List Pending} {outer : List (Group × List Pending)}
    (hr : Ready n s₀) (h : Follows s₀ p s) (hn : Entry.weights p.entries ≤ n)
    (htop : p.top.isSome) (houter : p.outer = (g, region) :: outer) :
    match p.whole (typeable s₀) with
    | some e => ∃ t arg marker below, (reduce 0).run s = .ok () t ∧
        splitGroup t.stack = some ([arg], marker, below) ∧
        Tracks s₀ (.value e :: .group g :: Parse.entries { p with outer, region, top := none })
          (arg :: marker :: below) false t ∧
        Entry.weights
            (.value e :: .group g :: Parse.entries { p with outer, region, top := none }) ≤
          Entry.weights p.entries
    | none => Fails ((reduce 0).run s) := by
  obtain ⟨e, htop⟩ := Option.isSome_iff_exists.1 htop
  have hred := run_reduce (q := 0) hr h hn htop
    (Parse.halts_baseEntries _ (.inr (.inr (by simp [houter]))))
  have hbase : p.baseEntries = .group g :: Parse.entries { p with outer, region, top := none } := by
    simp [Parse.baseEntries, Parse.entries, houter]
  rw [Parse.reduce_low (by omega)] at hred
  simp only [Parse.whole, htop, Option.bind_eq_bind, Option.bind_some]
  cases hp : Parse.reduce (typeable s₀) 0 p.region e with
  | none =>
    rw [hp] at hred
    exact hred
  | some r =>
    rw [hp] at hred
    obtain ⟨t, hrun, ht⟩ := hred
    have hlow : Parse.reduce (typeable s₀) 0 p.region e = some ([], r.2) := by
      rw [Parse.reduce_low (by omega), hp]
      rfl
    have hweights := Parse.weights_reduce p.baseEntries hlow
    rw [← Parse.entries_some htop] at hweights
    rw [hbase] at ht hweights
    obtain ⟨arg, rest, harg, hrest, hstack⟩ := List.forall₂_cons_left_iff.1 ht.shows
    obtain ⟨marker, below, hmarker, -, rfl⟩ := List.forall₂_cons_left_iff.1 hrest
    have hgroup : DirectiveKind.opensGroup .value = false := rfl
    refine ⟨t, arg, marker, below, hrun, ?_, hstack ▸ ht, hweights⟩
    simp [hstack, splitGroup, splitTop, harg.1, hgroup, Entry.opensGroup_eq hmarker, Entry.opens]

theorem splitGroup_reduce {q : Int} {t : Session} (houter : p.outer = []) (h : Follows s₀ p s)
    (hrun : (reduce q).run s = .ok () t) : splitGroup t.stack = none := by
  have hstack := Entry.ungrouped_of_shows h.shows (Parse.opens_entries houter)
  unfold reduce at hrun
  rw [EStateM.run_bind, EStateM.run_get] at hrun
  exact splitGroup_eq_none.2 (ungrouped_reductions (reductions_reduceStack rfl hrun).1 hstack)

/-- Behind an operand, the end of an argument or of a group first reduces the group to one value;
`k` is what is done with it. -/
theorem agrees_reduced {k : Build Unit} {next : Option Parse} (hr : Ready n s₀)
    (h : Follows s₀ p s) (hn : Entry.weights p.entries ≤ n) (htop : p.top = some e)
    (hloose : p.outer = [] → next = none) (hbroken : p.whole (typeable s₀) = none → next = none)
    (hfails : ∀ t, splitGroup t.stack = none → Fails (k.run t))
    (hk : ∀ {g region outer e' t arg marker below}, p.outer = (g, region) :: outer →
      p.whole (typeable s₀) = some e' → splitGroup t.stack = some ([arg], marker, below) →
      Tracks s₀ (.value e' :: .group g :: Parse.entries { p with outer, region, top := none })
        (arg :: marker :: below) false t →
      Entry.weights (.value e' :: .group g :: Parse.entries { p with outer, region, top := none }) ≤
        Entry.weights p.entries →
      Agrees s₀ (Entry.weights p.entries + 1) (k.run t) next) :
    Agrees s₀ (Entry.weights p.entries + 1) ((reduce 0 >>= fun _ => k).run s) next := by
  -- no open group, a group that is no expression, or one value above the marker
  cases houter : p.outer with
  | nil =>
    rw [hloose houter]
    intro t ht
    obtain ⟨_, u, hreduce, ht⟩ := run_bind_eq_ok.1 ht
    exact absurd ht (hfails u (splitGroup_reduce houter h hreduce) () t)
  | cons head outer =>
    have hred := run_reduce_group hr h hn (by simp [htop]) houter
    cases hwhole : p.whole (typeable s₀) with
    | none =>
      rw [hwhole] at hred
      rw [hbroken hwhole]
      exact Fails.agrees (hred.bind _)
    | some e' =>
      rw [hwhole] at hred
      obtain ⟨t, arg, marker, below, hrun, hsplit, ht, hweights⟩ := hred
      rw [run_bind_ok hrun]
      exact hk houter hwhole hsplit ht hweights

theorem agrees_close_empty (hr : Ready n s₀) (h : Follows s₀ p s) (hn : Entry.weights p.entries ≤ n)
    (htop : p.top = none) :
    Agrees s₀ (Entry.weights p.entries + 1) ((closeGroup tok).run s)
      (p.close (typeable s₀)) := by
  have hexpect := h.expect
  have hshows := h.shows
  have hwhole : p.whole (typeable s₀) = none := by simp [Parse.whole, htop]
  have hpass (f : String) (args : List Expr) : p.pass (typeable s₀) f args = none := by
    simp [Parse.pass, hwhole]
  rw [htop] at hexpect
  unfold closeGroup
  rw [EStateM.run_bind, EStateM.run_get]
  dsimp only
  rw [if_pos (by simpa using hexpect)]
  obtain ⟨hplace, hoperator⟩ | ⟨g, region, outer, hregion, houter, hentries⟩ :=
    Parse.entries_due htop
  -- an operator is on top, which no parenthesis can follow
  · have hclose : p.close (typeable s₀) = none := by
      unfold Parse.close
      split
      · rfl
      · simp [hwhole]
      · rcases hplace with hplace | hplace <;> simp_all
    rw [hclose]
    cases hstack : s.stack with
    | nil => exact Fails.agrees (fails_error _ _)
    | cons d below =>
      rw [hstack] at hshows
      obtain ⟨x, xs, hd, -, hxs⟩ := List.forall₂_cons_right_iff.1 hshows
      obtain ⟨k, rfl, hk⟩ := hoperator x (by simp [hxs])
      obtain rfl : d.kind = k := hd
      dsimp only
      split
      · exact absurd ‹_› (hk _)
      · exact Fails.agrees (fails_error _ _)
  -- a group is on top, and it is empty only if it is a call without arguments
  · rw [hentries] at hshows
    obtain ⟨marker, below, hmarker, hbelow, hstack⟩ := List.forall₂_cons_left_iff.1 hshows
    rw [hstack]
    dsimp only
    cases g with
    | paren =>
      have hclose : p.close (typeable s₀) = none := by simp [Parse.close, houter, hwhole]
      rw [hclose, show marker.kind = .openParen from hmarker]
      exact Fails.agrees (fails_error _ _)
    | call f args =>
      rw [hmarker.1]
      dsimp only
      cases args with
      | cons a args =>
        have hclose : p.close (typeable s₀) = none := by simp [Parse.close, houter, hpass]
        rw [hclose, if_pos (by simp)]
        exact Fails.agrees (fails_error _ _)
      | nil =>
        have hclose : p.close (typeable s₀) =
            some { p with outer, region, top := some (.call f []) } := by
          simp [Parse.close, houter, hregion, htop, typeable, Expr.operand, Expr.scalars]
        have htracks : Tracks s₀ (.group (.call f []) ::
            Parse.entries { p with outer, region, top := none })
            ({ marker with kind := .call ([] : List Expr).length } :: below) true s := by
          have := h
          unfold Follows at this
          rw [hentries, htop] at this
          exact this.restack rfl rfl (.cons ⟨rfl, hmarker.2⟩ hbelow)
        obtain ⟨t, ht, htt⟩ := run_finishCall hr htracks (hentries ▸ hn)
        rw [hclose, if_neg (by simp)]
        refine ⟨t, ht, htt, ?_⟩
        rw [hentries]
        show Entry.weights (.value _ :: Parse.entries { p with outer, region, top := none }) ≤ _
        rw [weights_cons rfl, weights_cons rfl]
        omega

theorem follows_paren {region : List Pending} {outer : List (Group × List Pending)}
    (h : Tracks s₀
      (.value e :: .group .paren :: Parse.entries { p with outer, region, top := none })
      (arg :: marker :: below) false s) :
    Follows s₀ { p with outer, region, top := some e } { s with stack := arg :: below } := by
  obtain ⟨harg, hrest⟩ := List.forall₂_cons.1 h.shows
  obtain ⟨-, hbelow⟩ := List.forall₂_cons.1 hrest
  have htracks : Tracks s₀ (.value e :: Parse.entries { p with outer, region, top := none })
      (arg :: below) false s :=
    h.restack (by simp [Entry.codes, Entry.code, Entry.top, Entry.held])
      (by simp [Entry.top, Entry.held]) (.cons harg hbelow)
  exact ⟨htracks.code, htracks.frame, htracks.types, htracks.tokens, htracks.expect, htracks.shows⟩

theorem weights_pass :
    Entry.weights (.group (.call f (args ++ [e])) :: xs) ≤
      Entry.weights (.value e :: .group (.call f args) :: xs) := by
  simp only [Entry.weights, Entry.weight, List.map_cons, List.sum_cons, List.length_append,
    List.length_singleton]
  omega

theorem agrees_close (hr : Ready n s₀) (h : Follows s₀ p s) (hn : Entry.weights p.entries ≤ n) :
    Agrees s₀ (Entry.weights p.entries + 1) ((closeGroup tok).run s)
      (p.close (typeable s₀)) := by
  cases htop : p.top with
  | none => exact agrees_close_empty hr h hn htop
  | some e =>
    have hexpect := h.expect
    rw [htop] at hexpect
    unfold closeGroup
    rw [EStateM.run_bind, EStateM.run_get]
    dsimp only
    rw [if_neg (by simp [hexpect])]
    refine agrees_reduced hr h hn htop (fun houter => by simp [Parse.close, houter]) ?_ ?_ ?_
    · intro hwhole
      unfold Parse.close
      split <;> simp [hwhole, Parse.pass, htop]
    · intro t hsplit
      rw [EStateM.run_bind, EStateM.run_get]
      dsimp only
      rw [hsplit]
      exact fails_error _ _
    · intro g region outer e' t arg marker below houter hwhole hsplit ht hweights
      have hvalue {x : Expr} :
          Entry.weights (Parse.entries { p with outer, region, top := some x }) ≤
          Entry.weights p.entries + 1 := by
        refine le_trans ?_ (hweights.trans (Nat.le_succ _))
        show Entry.weights (.value x :: Parse.entries { p with outer, region, top := none }) ≤ _
        rw [weights_cons rfl, weights_cons rfl]
        simp [Entry.weights]
      rw [EStateM.run_bind, EStateM.run_get]
      dsimp only
      rw [hsplit]
      dsimp only
      have hmarker := (List.forall₂_cons.1 (List.forall₂_cons.1 ht.shows).2).1
      cases g with
      | paren =>
        have hclose : p.close (typeable s₀) = some { p with outer, region, top := some e' } := by
          simp [Parse.close, houter, hwhole]
        rw [hclose, show marker.kind = .openParen from hmarker]
        exact ⟨_, rfl, follows_paren ht, hvalue⟩
      | call f args =>
        have hpass := run_passArgument hr ht (by omega)
        have hclose : p.close (typeable s₀) =
            if typeable s₀ (.call f (args ++ [e'])) then
              some { p with outer, region, top := some (.call f (args ++ [e'])) }
            else none := by
          simp only [Parse.close, houter, htop, Parse.pass, hwhole, Option.isNone_some,
            Bool.and_false, Bool.false_and, Bool.false_eq_true, if_false, Option.bind_some]
          split <;> rfl
        rw [hclose, hmarker.1]
        dsimp only
        by_cases htype : typeable s₀ (.call f (args ++ [e']))
        · rw [if_pos htype] at hpass ⊢
          obtain ⟨u, hu, hustack, hutracks⟩ := hpass
          rw [hustack] at hutracks
          obtain ⟨v, hv, hvtracks⟩ :=
            run_finishCall hr hutracks (weights_pass.trans (hweights.trans hn))
          rw [run_bind_ok hu, wrap_length hr (hweights.trans hn)]
          exact ⟨v, hv, hvtracks, hvalue⟩
        · rw [if_neg htype] at hpass ⊢
          exact Fails.agrees (hpass.bind _)

/-- A comma ends an argument of the innermost group, if that is a call. -/
theorem agrees_comma (hr : Ready n s₀) (h : Follows s₀ p s) (hn : Entry.weights p.entries ≤ n) :
    Agrees s₀ (Entry.weights p.entries + 1) ((nextArgument tok).run s)
      (p.comma (typeable s₀)) := by
  have hexpect := h.expect
  unfold nextArgument
  rw [EStateM.run_bind, EStateM.run_get]
  dsimp only
  cases htop : p.top with
  | none =>
    have hcomma : p.comma (typeable s₀) = none := by
      unfold Parse.comma
      split <;> simp [Parse.pass, Parse.whole, htop]
    rw [htop] at hexpect
    rw [hcomma, if_pos (by simpa using hexpect)]
    exact Fails.agrees (fails_error _ _)
  | some e =>
    rw [htop] at hexpect
    rw [if_neg (by simp [hexpect])]
    refine agrees_reduced hr h hn htop (fun houter => by simp [Parse.comma, houter]) ?_ ?_ ?_
    · intro hwhole
      unfold Parse.comma
      split <;> simp [hwhole, Parse.pass]
    · intro t hsplit
      rw [EStateM.run_bind, EStateM.run_get]
      dsimp only
      rw [hsplit]
      exact fails_error _ _
    · intro g region outer e' t arg marker below houter hwhole hsplit ht hweights
      rw [EStateM.run_bind, EStateM.run_get]
      dsimp only
      rw [hsplit]
      dsimp only
      have hmarker := (List.forall₂_cons.1 (List.forall₂_cons.1 ht.shows).2).1
      cases g with
      | paren =>
        have hcomma : p.comma (typeable s₀) = none := by simp [Parse.comma, houter]
        rw [hcomma, show marker.kind = .openParen from hmarker]
        exact Fails.agrees (fails_error _ _)
      | call f args =>
        have hpass := run_passArgument hr ht (by omega)
        have hcomma : p.comma (typeable s₀) =
            if typeable s₀ (.call f (args ++ [e'])) then
              some { p with
                outer := (.call f (args ++ [e']), region) :: outer, region := [], top := none }
            else none := by
          simp only [Parse.comma, houter, Parse.pass, hwhole, Option.bind_some]
          split <;> rfl
        rw [hcomma, hmarker.1]
        dsimp only
        by_cases htype : typeable s₀ (.call f (args ++ [e']))
        · rw [if_pos htype] at hpass ⊢
          obtain ⟨u, hu, -, hutracks⟩ := hpass
          rw [run_bind_ok hu]
          have hentries : Parse.entries { p with
              outer := (.call f (args ++ [e']), region) :: outer, region := [], top := none } =
              .group (.call f (args ++ [e'])) ::
                Parse.entries { p with outer, region, top := none } := by
            simp [Parse.entries, Parse.baseEntries, Parse.regionEntries]
          refine ⟨_, rfl, ?_, ?_⟩
          · unfold Follows
            rw [hentries]
            exact ⟨hutracks.code, hutracks.frame, hutracks.types, hutracks.tokens, rfl,
              hutracks.shows⟩
          · rw [hentries]
            exact weights_pass.trans (hweights.trans (Nat.le_succ _))
        · rw [if_neg htype] at hpass ⊢
          exact Fails.agrees (hpass.bind _)

end Groups

/-- Every token but the semicolon has the same effect on both. -/
theorem agrees_shift (hr : Ready n s₀) (h : Follows s₀ p s) (hn : Entry.weights p.entries ≤ n) :
    Agrees s₀ (Entry.weights p.entries + 1) ((shift i tok).run s) (p.shift (typeable s₀) tok) := by
  have hunary {op : Pending} {k : DirectiveKind} (hop : op.entries = [.operator k]) :
      Agrees s₀ (Entry.weights p.entries + 1) ((pushEntry { kind := k, tok := i } tok).run s)
        (p.unary op) := by
    refine agrees_pushEntry (x := .operator k) h rfl rfl (fun _ => rfl) rfl fun htop => ?_
    simp [Parse.entries, Parse.baseEntries, Parse.regionEntries, htop, hop]
  unfold shift Parse.shift
  cases htype : tok.type with
  | integer => exact agrees_useLiteral h
  | identifier => exact agrees_useVariable h
  | lparen =>
    refine agrees_pushEntry (x := .group .paren) h rfl rfl (fun _ => rfl) rfl fun htop => ?_
    simp [Parse.entries, Parse.baseEntries, Parse.regionEntries, htop]
  | rparen => exact agrees_close hr h hn
  | comma => exact agrees_comma hr h hn
  | assign => exact agrees_assign hr h hn
  | plus => exact agrees_binary .add hr h hn
  | minus => exact agrees_binary .sub hr h hn
  | star =>
    have hexpect := h.expect
    unfold pushStar
    rw [EStateM.run_bind, EStateM.run_get]
    dsimp only
    rw [hexpect]
    cases p.top.isNone with
    | true => exact hunary rfl
    | false => exact agrees_binary .mul hr h hn
  | amp => exact hunary rfl
  | _ => exact Fails.agrees (fails_error _ _)

theorem agrees_call (h : Follows s₀ p s) (htok : s₀.token i = tok) :
    Agrees s₀ (Entry.weights p.entries + 1)
      ((pushEntry { kind := .call 0, tok := i } tok).run s) (p.openGroup (.call tok.name [])) := by
  refine agrees_pushEntry (x := .group (.call tok.name [])) h ⟨rfl, by rw [htok], rfl⟩ rfl
    (fun _ => rfl) rfl fun htop => ?_
  simp [Parse.entries, Parse.baseEntries, Parse.regionEntries, htop]

end Build

end OnePass
