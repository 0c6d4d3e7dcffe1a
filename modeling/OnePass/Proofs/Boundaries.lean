import Mathlib
import OnePass.Proofs.Conduct
import OnePass.Proofs.Munch

namespace OnePass

namespace Build

/-- Compiles what starts with the `i`-th token: a struct definition, a brace or a statement. Gives
what follows it, with its index. -/
def item (i : Nat) (tok : Token) (rest : List Token) : Build (Nat × List Token) :=
  match tok.type with
  | .struct => do
    let read ← readStruct rest
    registerStruct read.1.1
    return (i + (rest.length + 1 - read.1.2.length), read.1.2)
  | .lbrace => do
    openBlock
    return (i + 1, rest)
  | .rbrace => do
    closeBlock tok
    return (i + 1, rest)
  | _ => do
    statement i (tok :: rest)
    let next := afterSemicolon (tok :: rest)
    return (i + (rest.length + 1 - next.length), next)

theorem items_cons (i : Nat) {tok : Token} (rest : List Token) (h : tok.type ≠ .eof) :
    items i (tok :: rest) = item i tok rest >>= fun p => items p.1 p.2 := by
  rw [items]
  unfold item
  cases htype : tok.type <;> first | contradiction | simp

variable {s t : Session} {i j : Nat} {tok : Token} {rest next : List Token} {e : Stop}

theorem run_readStruct_eq_ok {p : { p : TypeInfo × List Token // p.2.length ≤ rest.length }} :
    (readStruct rest).run s = .ok p t ↔
      StructDef.parse s.types s.endToken rest = .ok p.1 ∧ t = s := by
  unfold readStruct EStateM.run
  dsimp only
  constructor
  · intro h
    split at h
    · cases h
      exact ⟨‹_›, rfl⟩
    · cases h
  · rintro ⟨hparse, rfl⟩
    split <;> rename_i h <;> rw [hparse] at h <;> cases h
    rfl

theorem run_readStruct_error (h : (readStruct rest).run s = .error e t) :
    StructDef.parse s.types s.endToken rest = .error e ∧ t = s := by
  unfold readStruct EStateM.run at h
  dsimp only at h
  split at h
  · cases h
  · cases h
    exact ⟨‹_›, rfl⟩

theorem run_item_struct (htok : tok.type = .struct) :
    (item i tok rest).run s = .ok (j, next) t ↔
      ∃ b, StructDef.parse s.types s.endToken rest = .ok (b, next) ∧
        j = i + (rest.length + 1 - next.length) ∧
        t = { s with
          types := s.types.insert b.name b
          trace := s.trace.push (.struct b.name b.size b.fields.length) } := by
  unfold item
  rw [htok]
  constructor
  · intro h
    obtain ⟨⟨⟨b, after⟩, hlen⟩, u, hread, hrun⟩ := run_bind_eq_ok.1 h
    obtain ⟨hparse, rfl⟩ := run_readStruct_eq_ok.1 hread
    cases hrun
    exact ⟨b, hparse, rfl, rfl⟩
  · rintro ⟨b, hparse, rfl, rfl⟩
    have hread : (readStruct rest).run s = .ok ⟨(b, next), StructDef.length_parse hparse⟩ s :=
      run_readStruct_eq_ok.2 ⟨hparse, rfl⟩
    rw [run_bind_ok hread]
    rfl

theorem run_item_struct_error (htok : tok.type = .struct)
    (h : (item i tok rest).run s = .error e t) :
    StructDef.parse s.types s.endToken rest = .error e ∧ t = s := by
  unfold item at h
  rw [htok] at h
  cases hread : (readStruct rest).run s with
  | ok read u =>
    rw [run_bind_ok hread] at h
    cases h
  | error e' u =>
    rw [EStateM.run_bind, hread] at h
    cases h
    exact run_readStruct_error hread

end Build

/-- Accepts a source in a session; nothing where it is rejected. -/
def Session.accept (s : Session) (ts : List Token) : Option Session :=
  match (Build.compile ts).run s with
  | .ok _ t => some t
  | .error _ _ => none

/-- Accepts sources one after another. -/
def Session.acceptAll (s : Session) (sources : List (List Token)) : Option Session :=
  sources.foldlM Session.accept s

/-- The places between struct definitions, braces and statements that the compilation of `ts` in
the session `s₀` reaches: the session there, and the tokens left with their index. -/
inductive Reaches (s₀ : Session) (ts : List Token) : Session → Nat → List Token → Prop where
  | start : Reaches s₀ ts { s₀ with tokens := ts.toArray } 0 ts
  | item {s t : Session} {i j : Nat} {tok : Token} {rest next : List Token}
      (h : Reaches s₀ ts s i (tok :: rest)) (htok : tok.type ≠ .eof)
      (hrun : (Build.item i tok rest).run s = .ok (j, next) t) : Reaches s₀ ts t j next

/-- What is left to compile at such a place is the rest of the whole compilation. -/
theorem Reaches.run_eq {s₀ s : Session} {ts rest : List Token} {i : Nat}
    (h : Reaches s₀ ts s i rest) : (Build.compile ts).run s₀ = (Build.items i rest).run s := by
  induction h with
  | start => rfl
  | item h htok hrun ih => rw [ih, Build.items_cons _ _ htok, Build.run_bind_ok hrun]

/-- The place after `n` more definitions, braces and statements. -/
def Build.itemsTaken : Nat → Session × Nat × List Token → Option (Session × Nat × List Token)
  | 0, p => some p
  | n + 1, (s, i, tok :: rest) =>
    if tok.type = .eof then none
    else
      match (item i tok rest).run s with
      | .ok (j, next) t => itemsTaken n (t, j, next)
      | .error _ _ => none
  | _ + 1, (_, _, []) => none

theorem Reaches.itemsTaken {s₀ : Session} {ts : List Token} {p q : Session × Nat × List Token}
    (n : Nat) (h : Reaches s₀ ts p.1 p.2.1 p.2.2) (hn : Build.itemsTaken n p = some q) :
    Reaches s₀ ts q.1 q.2.1 q.2.2 := by
  fun_induction Build.itemsTaken n p with
  | case1 => exact Option.some.inj hn ▸ h
  | case3 n s i tok rest htok j next t hrun ih => exact ih (h.item htok hrun) hn
  | _ => cases hn

theorem Build.itemsTaken_add (m n : Nat) (p : Session × Nat × List Token) :
    itemsTaken (m + n) p = (itemsTaken m p).bind (itemsTaken n) := by
  fun_induction itemsTaken m p with
  | case1 p => rw [Nat.zero_add, Option.bind_some]
  | case2 m s i tok rest htok => rw [Nat.succ_add, itemsTaken, if_pos htok, Option.bind_none]
  | case3 m s i tok rest htok j next t hrun ih =>
    rw [Nat.succ_add, itemsTaken, if_neg htok, hrun]
    exact ih
  | case4 m s i tok rest htok e t hrun =>
    rw [Nat.succ_add, itemsTaken, if_neg htok, hrun]
    rfl
  | case5 m s i => rw [Nat.succ_add, itemsTaken, Option.bind_none]

theorem Reaches.exists_taken {s₀ s : Session} {ts rest : List Token} {i : Nat}
    (h : Reaches s₀ ts s i rest) :
    ∃ n, Build.itemsTaken n ({ s₀ with tokens := ts.toArray }, 0, ts) = some (s, i, rest) := by
  induction h with
  | start => exact ⟨0, rfl⟩
  | @item s t i j tok rest next h htok hrun ih =>
    obtain ⟨n, hn⟩ := ih
    refine ⟨n + 1, ?_⟩
    rw [Build.itemsTaken_add, hn, Option.bind_some, Build.itemsTaken, if_neg htok, hrun]
    rfl

namespace StructDef

variable {d : StructDef} {l l' : Layout} {ts rest : List Token}

theorem suffix_body (h : d.body l ts = .ok (l', rest)) : rest <:+ ts := by
  fun_induction body d l ts with
  | case2 l tok rest' =>
    cases h
    exact List.suffix_cons _ _
  | case10 l tok rest' base hbase name _ type l'' hadd semi rest'' hdrop =>
    rename_i ih
    have hname : name :: semi :: rest'' <:+ rest' := hdrop ▸ List.dropWhile_suffix _
    calc rest
      _ <:+ rest'' := ih h
      _ <:+ semi :: rest'' := List.suffix_cons _ _
      _ <:+ name :: semi :: rest'' := List.suffix_cons _ _
      _ <:+ rest' := hname
      _ <:+ tok :: rest' := List.suffix_cons _ _
  | _ => simp_all [stop]

theorem suffix_skipSemicolon (ts : List Token) : skipSemicolon ts <:+ ts := by
  unfold skipSemicolon
  split
  · split
    · exact List.suffix_cons _ _
    · exact List.suffix_rfl
  · exact List.suffix_rfl

theorem kind_addField {type : Ty} {isSelf : Bool} {name : Token} {p : Diagnostic}
    (h : d.addField l type isSelf name = .error (.reject p)) : p.problem.kind ≠ .internal := by
  unfold addField at h
  cases hsize : type.size <;> rw [hsize] at h <;>
    simp only [stop, Except.mapError, bind, Except.bind, pure, Except.pure] at h <;>
    split_ifs at h <;> cases h <;> rintro ⟨⟩

theorem kind_body {p : Diagnostic} (h : d.body l ts = .error (.reject p)) :
    p.problem.kind ≠ .internal := by
  fun_induction body d l ts with
  | case2 => cases h
  | case7 l tok rest base hbase name rest' hdrop hname type e hadd =>
    cases h
    exact kind_addField hadd
  | case10 =>
    rename_i ih
    exact ih h
  | _ => cases h; rintro ⟨⟩

theorem suffix_parse {types : Registry} {atEnd : Token} {b : TypeInfo}
    (h : parse types atEnd ts = .ok (b, rest)) : rest <:+ ts := by
  obtain ⟨name, brace, tail, l, left, rfl, -, -, -, hbody, -, -, rfl⟩ := parse_eq_ok_iff.1 h
  calc skipSemicolon left
    _ <:+ left := suffix_skipSemicolon left
    _ <:+ tail := suffix_body hbody
    _ <:+ brace :: tail := List.suffix_cons _ _
    _ <:+ name :: brace :: tail := List.suffix_cons _ _

theorem kind_parse {types : Registry} {atEnd : Token} {p : Diagnostic}
    (h : parse types atEnd ts = .error (.reject p)) : p.problem.kind ≠ .internal := by
  unfold parse at h
  split at h
  · cases h; rintro ⟨⟩
  split at h
  · cases h; rintro ⟨⟩
  split at h
  · cases h; rintro ⟨⟩
  split at h
  · cases h; rintro ⟨⟩
  split at h
  · cases h; rintro ⟨⟩
  dsimp only at h
  split at h
  · rename_i hbody
    cases h
    exact kind_body hbody
  · split at h
    · cases h; rintro ⟨⟩
    · cases h

end StructDef

theorem drop_of_suffix {all ts rest : List Token} {i : Nat} (h : all.drop i = ts)
    (hs : rest <:+ ts) : all.drop (i + (ts.length - rest.length)) = rest := by
  rw [← List.drop_drop, h]
  obtain ⟨pre, rfl⟩ := hs
  rw [List.length_append, Nat.add_sub_cancel]
  exact List.drop_left

namespace Build

open Session

variable {s : Session}

theorem suffix_afterSemicolon (ts : List Token) : afterSemicolon ts <:+ ts :=
  (List.tail_suffix _).trans (List.dropWhile_suffix _)

/-- A definition, a brace or a statement leaves the frame tiled, and goes on with what follows. -/
theorem proper_item (i : Nat) (tok : Token) (rest : List Token) (h : s.Orderly 0) :
    Proper (fun p t => Later s t ∧ t.Orderly 0 ∧ p.2 <:+ tok :: rest ∧
        p.2.length < (tok :: rest).length ∧ p.1 = i + ((tok :: rest).length - p.2.length))
      ((item i tok rest).run s) := by
  have hone : i + 1 = i + ((tok :: rest).length - rest.length) := by simp
  -- a definition touches the types only
  by_cases htok : tok.type = .struct
  · cases hrun : (item i tok rest).run s with
    | ok p t =>
      obtain ⟨b, hparse, hj, rfl⟩ := (run_item_struct htok).1 hrun
      have hlen := StructDef.length_parse hparse
      exact ⟨⟨rfl, le_rfl⟩,
        ⟨⟨⟨b, rfl, StructDef.built_parse h.types hparse⟩, h.types⟩, h.tiled, h.depth⟩,
        (StructDef.suffix_parse hparse).trans (List.suffix_cons _ _), Nat.lt_succ_of_le hlen, hj⟩
    | error e t =>
      obtain ⟨hparse, -⟩ := run_item_struct_error htok hrun
      cases e with
      | reject d => exact fun _ => StructDef.kind_parse hparse
      | crash f => trivial
  unfold item
  split
  · contradiction
  · refine ⟨⟨rfl, le_rfl⟩, ⟨h.types, h.tiled.enter (h.depth.trans (by rw [add_zero])), h.depth⟩,
      List.suffix_cons _ _, by simp, hone⟩
  · cases hscopes : s.frame.scopes with
    | nil =>
      unfold closeBlock
      rw [EStateM.run_bind, EStateM.run_bind, EStateM.run_get]
      dsimp only
      rw [if_neg (by simp [Frame.nested, hscopes])]
      exact fun _ => ne_of_beq_false rfl
    | cons m outer =>
      rw [run_bind_ok (run_closeBlock hscopes)]
      obtain ⟨htiled, hdepth, -⟩ := h.tiled.closing hscopes
      exact ⟨⟨rfl, (later_emitted s _ 0).code⟩, ⟨h.types, htiled, hdepth.trans (by rw [add_zero])⟩,
        List.suffix_cons _ _, by simp, hone⟩
  · refine (proper_statement i (tok :: rest) h).bind fun _ t ht => ?_
    exact ⟨ht.1, ht.2, suffix_afterSemicolon _, length_afterSemicolon_lt tok rest, rfl⟩

theorem proper_endSource (tok : Token) (h : s.Orderly 0) :
    Proper (fun _ t => t.Orderly 0) ((endSource tok).run s) := by
  unfold endSource
  rw [EStateM.run_bind, EStateM.run_get]
  dsimp only
  split
  · exact proper_reject rfl
  · exact h

theorem proper_items (i : Nat) (ts : List Token) (h : s.Orderly 0) :
    Proper (fun _ t => t.Orderly 0) ((items i ts).run s) := by
  induction hn : ts.length using Nat.strong_induction_on generalizing s i ts with
  | _ n ih =>
    cases ts with
    | nil =>
      rw [items, EStateM.run_bind, EStateM.run_get]
      exact proper_endSource _ h
    | cons tok rest =>
      by_cases htok : tok.type = .eof
      · rw [items, htok]
        exact proper_endSource tok h
      · rw [items_cons _ _ htok]
        refine (proper_item i tok rest h).bind fun p t ht => ?_
        obtain ⟨-, ht, -, hlt, -⟩ := ht
        exact ih _ (hn ▸ hlt) p.1 p.2 ht rfl

theorem proper_compile (ts : List Token) (h : s.Orderly 0) :
    Proper (fun _ t => t.Orderly 0) ((compile ts).run s) := by
  unfold compile
  rw [EStateM.run_bind, EStateM.run_modify]
  exact proper_items 0 ts (h.congr rfl rfl)

end Build

namespace Session

@[simp] theorem code_fresh (ids : IdSupply) : (fresh ids).code = #[] := rfl

theorem orderly_fresh {ids : IdSupply} : (fresh ids).Orderly 0 := ⟨trivial, Frame.tiled_fresh, rfl⟩

theorem Orderly.accept {s t : Session} {ts : List Token} (hs : s.Orderly 0)
    (h : s.accept ts = some t) : t.Orderly 0 := by
  have hproper := Build.proper_compile ts hs
  unfold Session.accept at h
  split at h
  · rename_i hr
    rw [hr] at hproper
    exact Option.some.inj h ▸ hproper
  · cases h

theorem Orderly.acceptAll {sources : List (List Token)} {s t : Session} (hs : s.Orderly 0)
    (h : s.acceptAll sources = some t) : t.Orderly 0 := by
  induction sources generalizing s with
  | nil => exact Option.some.inj h ▸ hs
  | cons ts sources ih =>
    simp only [Session.acceptAll, List.foldlM_cons, Option.bind_eq_bind,
      Option.bind_eq_some_iff] at h
    obtain ⟨u, hu, ht⟩ := h
    exact ih (hs.accept hu) ht

end Session

/-- Between definitions, braces and statements the frame is tiled, and the tokens left are those
from the index on. -/
theorem Reaches.orderly {s₀ s : Session} {ts rest : List Token} {i : Nat} (h₀ : s₀.Orderly 0)
    (h : Reaches s₀ ts s i rest) :
    s.Orderly 0 ∧ s.tokens = ts.toArray ∧ ts.drop i = rest ∧ i + rest.length = ts.length := by
  induction h with
  | start => exact ⟨h₀.congr rfl rfl, rfl, rfl, by simp⟩
  | @item s t i j tok rest next h htok hrun ih =>
    obtain ⟨hs, htokens, hdrop, hlen⟩ := ih
    have hproper := Build.proper_item i tok rest hs
    rw [hrun] at hproper
    obtain ⟨hlater, ht, hsuffix, hlt, hj⟩ := hproper
    dsimp only at hsuffix hlt hj
    refine ⟨ht, hlater.tokens.trans htokens, ?_, by omega⟩
    rw [hj]
    exact drop_of_suffix hdrop hsuffix

theorem Reaches.of_items {s₀ s t : Session} {ts rest : List Token} {i : Nat} (h₀ : s₀.Orderly 0)
    (h : Reaches s₀ ts s i rest) (hrun : (Build.items i rest).run s = .ok () t) :
    ∃ j next, Reaches s₀ ts t j next ∧ ∀ tok ∈ next.head?, tok.type = .eof := by
  -- whether the tokens run out or the end token comes, the source ends here
  have hend {s : Session} {i : Nat} {rest : List Token} {tok : Token}
      (h : Reaches s₀ ts s i rest) (hrest : ∀ tok ∈ rest.head?, tok.type = .eof)
      (hrun : (Build.endSource tok).run s = .ok () t) :
      ∃ j next, Reaches s₀ ts t j next ∧ ∀ tok ∈ next.head?, tok.type = .eof := by
    unfold Build.endSource at hrun
    rw [EStateM.run_bind, EStateM.run_get] at hrun
    dsimp only at hrun
    split at hrun
    · cases hrun
    · cases hrun
      exact ⟨i, rest, h, hrest⟩
  induction hn : rest.length using Nat.strong_induction_on generalizing s i rest with
  | _ n ih =>
    cases rest with
    | nil =>
      rw [Build.items, EStateM.run_bind, EStateM.run_get] at hrun
      exact hend h (by simp) hrun
    | cons tok rest =>
      by_cases htok : tok.type = .eof
      · rw [Build.items, htok] at hrun
        exact hend h (by simpa using htok) hrun
      · rw [Build.items_cons _ _ htok] at hrun
        obtain ⟨⟨j, next⟩, u, hitem, hrun⟩ := Build.run_bind_eq_ok.1 hrun
        have hproper := Build.proper_item i tok rest (h.orderly h₀).1
        rw [hitem] at hproper
        exact ih next.length (hn ▸ hproper.2.2.2.1) (h.item htok hitem) hrun rfl

theorem Reaches.code_le {s₀ s : Session} {ts rest : List Token} {i : Nat} (h₀ : s₀.Orderly 0)
    (h : Reaches s₀ ts s i rest) : s₀.code.size ≤ s.code.size := by
  induction h with
  | start => exact le_rfl
  | @item s t i j tok rest next h htok hrun ih =>
    have hproper := Build.proper_item i tok rest (h.orderly h₀).1
    rw [hrun] at hproper
    exact ih.trans hproper.1.code

/-- A source that is accepted has been compiled to its end. -/
theorem Session.reaches_accept {s t : Session} {ts : List Token} (hs : s.Orderly 0)
    (h : s.accept ts = some t) : ∃ i rest, Reaches s ts t i rest := by
  unfold Session.accept at h
  split at h
  · rename_i hr
    cases h
    obtain ⟨i, rest, hreaches, -⟩ := Reaches.of_items hs .start (Reaches.start.run_eq ▸ hr)
    exact ⟨i, rest, hreaches⟩
  · cases h

/-- No source is rejected with an internal error in a session that has accepted every source before
it, unless the fields of a struct take up 63 bits of words or more. -/
theorem compile_not_internal {ids : IdSupply} {sources : List (List Token)} {s : Session}
    (ts : List Token) (hs : (Session.fresh ids).acceptAll sources = some s)
    (hfits : ∀ e ∈ (s.run (Build.compile ts)).2.types.entries, ∀ b ∈ e.2, b.span < 2 ^ 63)
    (d : Diagnostic) (hd : (s.run (Build.compile ts)).1 = .error (.reject d)) :
    d.problem.kind ≠ .internal := by
  have hproper := Build.proper_compile ts (Session.orderly_fresh.acceptAll hs)
  unfold Session.run at hd hfits
  cases hr : EStateM.run (Build.compile ts) s with
  | ok a t =>
    rw [hr] at hd
    cases hd
  | error e t =>
    rw [hr] at hproper hd hfits
    cases hd
    exact hproper hfits

def tokensOf (text : String) : List Token := (Munch.lex 4096 [] text.toUTF8.toList).1

/-- A struct that points to itself, and a variable. -/
def defining : List Token := tokensOf "struct pair \x7b u16 a; pair *b; \x7d var u16 x;"

def defined : Session := ((Session.fresh .serial).acceptAll [defining]).getD {}

theorem eq_some_getD {α : Type} {o : Option α} (h : o.isSome) (a : α) : o = some (o.getD a) := by
  obtain ⟨b, rfl⟩ := Option.isSome_iff_exists.1 h
  rfl

theorem acceptAll_defining : (Session.fresh .serial).acceptAll [defining] = some defined :=
  eq_some_getD (by decide +kernel) _

/-- The second assignment has nothing to store in. -/
def chained : List Token := tokensOf "x = x = 1;"

theorem compile_not_internal_chained :
    (∀ e ∈ (defined.run (Build.compile chained)).2.types.entries, ∀ b ∈ e.2, b.span < 2 ^ 63) ∧
      (defined.run (Build.compile chained)).1 =
        .error (.reject ⟨1, .leftOperandMissing .assign⟩) ∧
      (Problem.leftOperandMissing .assign).kind ≠ .internal := by
  have hfits : ∀ e ∈ (defined.run (Build.compile chained)).2.types.entries,
      ∀ b ∈ e.2, b.span < 2 ^ 63 := by decide +kernel
  have hd : (defined.run (Build.compile chained)).1 =
      .error (.reject ⟨1, .leftOperandMissing .assign⟩) := by decide +kernel
  exact ⟨hfits, hd, compile_not_internal chained acceptAll_defining hfits _ hd⟩

end OnePass
