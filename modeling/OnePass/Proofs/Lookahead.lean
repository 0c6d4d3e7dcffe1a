import Mathlib
import OnePass.Proofs.Alignment
import OnePass.Proofs.Citations
import OnePass.Proofs.StackShape

namespace OnePass

def endOf (ts : List Token) : Token := Session.endToken { tokens := ts.toArray }

/-- The report is at the line of one of the first `n` tokens, or at the line of `atEnd`: then it is
about the end of the source, and there are no more than `n` tokens. -/
structure Diagnostic.Within (atEnd : Token) (ts : List Token) (n : Nat) (d : Diagnostic) :
    Prop where
  le : n ≤ ts.length
  line : (∃ tok ∈ ts.take n, tok.line = d.line ∧ (d.problem.isEnd → tok.type = .eof)) ∨
    n = ts.length ∧ d.problem.isEnd ∧ d.line = atEnd.line

section Lists

variable {ts rest : List Token} {tok : Token} {k n : Nat}

theorem mem_take_of_drop (h : ts.drop k = tok :: rest) (hk : k < n) : tok ∈ ts.take n := by
  rw [List.mem_iff_getElem?]
  refine ⟨k, ?_⟩
  rw [List.getElem?_take_of_lt hk, ← List.head?_drop, h]
  rfl

theorem lt_length_of_drop (h : ts.drop k = tok :: rest) : k < ts.length := by
  by_contra hle
  rw [List.drop_eq_nil_of_le (by omega)] at h
  contradiction

theorem length_of_drop (h : ts.drop k = rest) (hk : k ≤ ts.length) :
    ts.length = k + rest.length := by
  have := congrArg List.length h
  rw [List.length_drop] at this
  omega

theorem drop_past_stars (tok : Token) (rest : List Token) :
    (tok :: rest).drop ((rest.takeWhile Token.isStar).length + 1) = rest.dropWhile Token.isStar ∧
      (tok :: rest).length =
        (rest.takeWhile Token.isStar).length + 1 + (rest.dropWhile Token.isStar).length := by
  constructor
  · rw [List.drop_succ_cons, Build.drop_stars]
  · have := congrArg List.length (List.takeWhile_append_dropWhile (p := Token.isStar) (l := rest))
    rw [List.length_append] at this
    rw [List.length_cons]
    omega

theorem line_le_last {last : Token} (h : ts.Pairwise (·.line ≤ ·.line)) (htok : tok ∈ ts)
    (hlast : last ∈ ts.getLast?) : tok.line ≤ last.line := by
  obtain ⟨before, rfl⟩ := List.getLast?_eq_some_iff.1 hlast
  rcases List.mem_append.1 htok with hbefore | hsame
  · exact (List.pairwise_append.1 h).2.2 tok hbefore last (by simp)
  · rw [List.mem_singleton.1 hsame]

theorem line_endOf (ts : List Token) : (endOf ts).line = (ts.getLast?.map (·.line)).getD 1 := by
  simp [endOf, Session.endToken]

end Lists

namespace Diagnostic

variable {atEnd tok : Token} {ts rest : List Token} {k n : Nat} {d : Diagnostic}

theorem within_token (hdrop : ts.drop k = tok :: rest) (hline : tok.line = d.line)
    (hp : d.problem.isEnd → tok.type = .eof) : d.Within atEnd ts (k + 1) :=
  ⟨lt_length_of_drop hdrop, .inl ⟨tok, mem_take_of_drop hdrop (by omega), hline, hp⟩⟩

theorem within_end (hn : n = ts.length) (hp : d.problem.isEnd) (hline : d.line = atEnd.line) :
    d.Within atEnd ts n :=
  ⟨hn.le, .inr ⟨hn, hp, hline⟩⟩

theorem Within.shift (h : d.Within atEnd rest n) (hdrop : ts.drop k = rest) (hk : k ≤ ts.length) :
    d.Within atEnd ts (k + n) := by
  have hlen := length_of_drop hdrop hk
  have hle := h.le
  refine ⟨by omega, ?_⟩
  rcases h.line with ⟨tok, hmem, hline⟩ | ⟨rfl, hline⟩
  · rw [List.take_add, hdrop]
    exact .inl ⟨tok, List.mem_append_right _ hmem, hline⟩
  · exact .inr ⟨hlen.symm, hline⟩

theorem Within.mono {m : Nat} (h : d.Within atEnd ts n) (hn : n ≤ m) (hm : m ≤ ts.length) :
    d.Within atEnd ts m := by
  refine ⟨hm, ?_⟩
  rcases h.line with ⟨tok, hmem, hline⟩ | ⟨rfl, hline⟩
  · exact .inl ⟨tok, List.take_subset_take_left ts hn hmem, hline⟩
  · exact .inr ⟨by omega, hline⟩

theorem Cites.within (h : d.Cites (ts.take n)) (hn : n ≤ ts.length) : d.Within atEnd ts n := by
  obtain ⟨⟨tok, hmem, hline⟩, hp⟩ := h
  exact ⟨hn, .inl ⟨tok, hmem, hline, by simp [hp]⟩⟩

end Diagnostic

namespace StructDef

/-- How many tokens of a field are looked at, and the layout with the field where it is accepted. -/
def fieldLooked (d : StructDef) (l : Layout) (tok : Token) (rest : List Token) :
    Nat × Option Layout :=
  match d.resolve tok with
  | none => (1, none)
  | some base =>
    let stars := (rest.takeWhile Token.isStar).length
    match rest.dropWhile Token.isStar with
    | [] => (stars + 1, none)
    | name :: after =>
      if name.type ≠ .identifier then (stars + 2, none)
      else
        match d.addField l ⟨base, stars⟩ (d.isSelf tok) name with
        | .error _ => (stars + 2, none)
        | .ok l' =>
          match after with
          | [] => (stars + 2, none)
          | semi :: _ => (stars + 3, if semi.type ≠ .semicolon then none else some l')

/-- How many tokens of its fields a definition has looked at when one of them is rejected. -/
def fieldsLooked (d : StructDef) (l : Layout) : List Token → Nat
  | [] => 0
  | tok :: rest =>
    match d.fieldLooked l tok rest with
    | (n, none) => n
    | (n, some l') => n + fieldsLooked d l' (rest.drop (n - 1))
termination_by ts => ts.length
decreasing_by
  simp only [List.length_drop, List.length_cons]
  omega

/-- How many tokens after `struct` have been looked at when a definition is rejected. One without
fields is rejected once the token after it has been asked for. -/
def looked (types : Registry) (atEnd : Token) : List Token → Nat
  | [] => 0
  | name :: rest =>
    if name.type ≠ .identifier ∨ (types.lookup name.name).isSome then 1
    else
      match rest with
      | [] => 1
      | brace :: fields =>
        if brace.type ≠ .lbrace then 2
        else
          match body ⟨types, name.name, atEnd⟩ {} fields with
          | .error _ => 2 + fieldsLooked ⟨types, name.name, atEnd⟩ {} fields
          | .ok (_, left) => 2 + (fields.length - left.length) + (left.take 1).length

variable {d : StructDef} {l : Layout} {tok : Token} {ts rest : List Token} {e : Diagnostic}

theorem addField_reject {type : Ty} {isSelf : Bool} {name : Token}
    (h : d.addField l type isSelf name = .error (.reject e)) :
    name.line = e.line ∧ e.problem.isEnd = false := by
  unfold addField at h
  cases hsize : type.size <;> rw [hsize] at h <;>
    simp only [stop, Except.mapError, bind, Except.bind, pure, Except.pure] at h <;>
    split_ifs at h <;> cases h <;> exact ⟨rfl, rfl⟩

theorem field_looked (hend : d.atEnd.type = .eof) (l : Layout) (tok : Token) (rest : List Token) :
    (∃ n l', d.fieldLooked l tok rest = (n + 1, some l') ∧ n ≤ rest.length ∧
      d.field l tok rest = d.body l' (rest.drop n)) ∨
    ∃ n, d.fieldLooked l tok rest = (n, none) ∧
      ∀ e, d.field l tok rest = .error (.reject e) → e.Within d.atEnd (tok :: rest) n := by
  have hend' (what : Expected) : (Problem.expected what d.atEnd).isEnd := by
    simpa [Problem.isEnd] using hend
  -- token by token, as a field is read: its type, its stars, its name and its semicolon
  unfold fieldLooked field
  cases hbase : d.resolve tok with
  | none =>
    refine .inr ⟨1, rfl, fun e h => ?_⟩
    cases h
    exact Diagnostic.within_token (k := 0) rfl rfl (by simp [Problem.isEnd])
  | some base =>
    obtain ⟨hdrop, hlen⟩ := drop_past_stars tok rest
    dsimp only
    generalize (rest.takeWhile Token.isStar).length = stars at *
    generalize rest.dropWhile Token.isStar = fields at *
    unfold fieldEnd
    cases fields with
    | nil =>
      refine .inr ⟨stars + 1, rfl, fun e h => ?_⟩
      cases h
      exact Diagnostic.within_end hlen.symm (hend' _) rfl
    | cons name after =>
      by_cases hname : name.type ≠ .identifier
      · simp only [if_pos hname]
        refine .inr ⟨stars + 2, rfl, fun e h => ?_⟩
        cases h
        exact Diagnostic.within_token hdrop rfl (by simp [Problem.isEnd])
      simp only [if_neg hname]
      cases hadd : d.addField l ⟨base, stars⟩ (d.isSelf tok) name with
      | error stop =>
        refine .inr ⟨stars + 2, rfl, fun e h => ?_⟩
        cases h
        obtain ⟨hline, hp⟩ := addField_reject hadd
        exact Diagnostic.within_token hdrop hline (by simp [hp])
      | ok l' =>
        have hafter : (tok :: rest).drop (stars + 2) = after := by
          rw [← List.tail_drop, hdrop]
          rfl
        cases after with
        | nil =>
          refine .inr ⟨stars + 2, rfl, fun e h => ?_⟩
          cases h
          exact Diagnostic.within_end hlen.symm (hend' _) rfl
        | cons semi next =>
          by_cases hsemi : semi.type ≠ .semicolon
          · simp only [if_pos hsemi]
            refine .inr ⟨stars + 3, rfl, fun e h => ?_⟩
            cases h
            exact Diagnostic.within_token hafter rfl (by simp [Problem.isEnd])
          · simp only [if_neg hsemi]
            have hnext : rest.drop (stars + 2) = next := by
              rw [← List.drop_succ_cons (a := tok), ← List.tail_drop, hafter]
              rfl
            refine .inl ⟨stars + 2, l', rfl, ?_, by rw [hnext]⟩
            simp only [List.length_cons] at hlen
            omega

theorem within_body (hend : d.atEnd.type = .eof) (h : d.body l ts = .error (.reject e)) :
    e.Within d.atEnd ts (d.fieldsLooked l ts) := by
  -- every field that is accepted leaves a shorter rest
  induction hn : ts.length using Nat.strong_induction_on generalizing l ts with
  | _ n ih =>
    cases ts with
    | nil =>
      rw [body] at h
      cases h
      exact Diagnostic.within_end (by simp [fieldsLooked]) rfl rfl
    | cons tok rest =>
      rw [fieldsLooked]
      by_cases heof : tok.type = .eof
      · have hnone : d.resolve tok = none := by simp [resolve, isSelf, Registry.resolve, heof]
        rw [body_cons, heof] at h
        cases h
        rw [fieldLooked, hnone]
        exact Diagnostic.within_token (k := 0) rfl rfl fun _ => heof
      have hfield : d.field l tok rest = .error (.reject e) := by
        rw [body_cons] at h
        split at h
        · cases h
        · contradiction
        · exact h
      rcases field_looked hend l tok rest with ⟨k, l', hlooked, hk, hbody⟩ | ⟨k, hlooked, hstop⟩
      · rw [hlooked]
        rw [hbody] at hfield
        refine (ih _ ?_ hfield rfl).shift ?_ ?_
        · simp only [← hn, List.length_drop, List.length_cons]
          omega
        · simp
        · simp [hk]
      · rw [hlooked]
        exact hstop e hfield

theorem within_parse {types : Registry} {atEnd : Token} (hend : atEnd.type = .eof)
    (h : parse types atEnd ts = .error (.reject e)) :
    e.Within atEnd ts (looked types atEnd ts) := by
  have hend' (what : Expected) : (Problem.expected what atEnd).isEnd := by
    simpa [Problem.isEnd] using hend
  unfold parse at h
  unfold looked
  cases ts with
  | nil =>
    cases h
    exact Diagnostic.within_end rfl (hend' _) rfl
  | cons name rest =>
    dsimp only at h ⊢
    by_cases hid : name.type ≠ .identifier
    · rw [if_pos hid] at h
      rw [if_pos (.inl hid)]
      cases h
      exact Diagnostic.within_token (k := 0) rfl rfl (by simp [Problem.isEnd])
    rw [if_neg hid] at h
    by_cases htaken : (types.lookup name.name).isSome
    · rw [if_pos htaken] at h
      rw [if_pos (.inr htaken)]
      cases h
      exact Diagnostic.within_token (k := 0) rfl rfl (by simp [Problem.isEnd])
    rw [if_neg htaken] at h
    rw [if_neg (not_or_intro hid htaken)]
    cases rest with
    | nil =>
      cases h
      exact Diagnostic.within_end rfl (hend' _) rfl
    | cons brace fields =>
      dsimp only at h ⊢
      by_cases hbrace : brace.type ≠ .lbrace
      · rw [if_pos hbrace] at h ⊢
        cases h
        exact Diagnostic.within_token (k := 1) rfl rfl (by simp [Problem.isEnd])
      rw [if_neg hbrace] at h ⊢
      cases hbody : body ⟨types, name.name, atEnd⟩ {} fields with
      | error stop =>
        rw [hbody] at h
        cases h
        exact (within_body hend hbody).shift rfl (by simp)
      | ok p =>
        obtain ⟨l, left⟩ := p
        rw [hbody] at h
        dsimp only at h ⊢
        split at h
        · cases h
          -- a body without fields is reported at the name, the first token that was looked at
          have hlt := length_body hbody
          have hle : (left.take 1).length ≤ left.length := by simp
          refine (Diagnostic.within_token (k := 0) rfl rfl (by simp [Problem.isEnd])).mono ?_ ?_
          · omega
          · simp only [List.length_cons]
            omega
        · cases h

end StructDef

namespace Build

/-- How many tokens are looked at to take one: after a name also the one that may open a call. -/
def termLooked (tok : Token) (rest : List Token) : Nat :=
  if tok.type = .identifier then 1 + (rest.take 1).length else 1

theorem length_term {i : Nat} {tok : Token} {rest : List Token} {s t : Session}
    {p : Nat × List Token} (h : (term i tok rest).run s = .ok p t) : p.2.length ≤ rest.length := by
  unfold term at h
  split at h
  · split at h <;> obtain ⟨_, u, -, hp⟩ := run_bind_eq_ok.1 h <;> cases hp <;> simp
  · obtain ⟨_, u, -, hp⟩ := run_bind_eq_ok.1 h
    cases hp
    rfl

/-- How many tokens of the source have been looked at when a statement stops. What is left of the
statement is `ts`, from the `i`-th token on. -/
def termsLooked (i : Nat) (s : Session) (ts : List Token) : Nat :=
  match ts with
  | [] => i
  | tok :: rest =>
    if tok.type = .semicolon then i + 1
    else
      match _h : (term i tok rest).run s with
      | .ok p t => termsLooked p.1 t p.2
      | .error _ _ => i + termLooked tok rest
termination_by ts.length
decreasing_by exact Nat.lt_succ_of_le (length_term _h)

/-- How many tokens after `var` have been looked at when a declaration is rejected before its name
is taken. A name is known to be a type by the token after it. -/
def declarationLooked (types : Registry) : List Token → Nat
  | [] => 0
  | tok :: rest =>
    if isTyped (tok :: rest) then
      if (types.resolve tok).isNone then 2
      else min ((rest.takeWhile Token.isStar).length + 2) (rest.length + 1)
    else 1

/-- The same for a statement that starts with the `i`-th token. -/
def statementLooked (i : Nat) (s : Session) (tok : Token) (rest : List Token) : Nat :=
  if tok.type = .var then
    match (openDeclaration (i + 1) rest).run (begun s) with
    | .ok n t => termsLooked (i + 1 + n) t (rest.drop n)
    | .error _ _ => i + 1 + declarationLooked s.types rest
  else termsLooked i (begun s) (tok :: rest)

def itemLooked (i : Nat) (s : Session) (tok : Token) (rest : List Token) : Nat :=
  match tok.type with
  | .struct => i + 1 + StructDef.looked s.types s.endToken rest
  | .lbrace | .rbrace => i + 1
  | _ => statementLooked i s tok rest

theorem length_item {i : Nat} {tok : Token} {rest : List Token} {s t : Session}
    {p : Nat × List Token} (h : (item i tok rest).run s = .ok p t) : p.2.length ≤ rest.length := by
  unfold item at h
  split at h
  · obtain ⟨read, u, -, hread⟩ := run_bind_eq_ok.1 h
    obtain ⟨_, v, -, hp⟩ := run_bind_eq_ok.1 hread
    cases hp
    exact read.2
  · obtain ⟨_, u, -, hp⟩ := run_bind_eq_ok.1 h
    cases hp
    rfl
  · obtain ⟨_, u, -, hp⟩ := run_bind_eq_ok.1 h
    cases hp
    rfl
  · obtain ⟨_, u, -, hp⟩ := run_bind_eq_ok.1 h
    cases hp
    exact Nat.le_of_lt_succ (length_afterSemicolon_lt tok rest)

/-- How many tokens have been looked at when the compilation stops that has `ts` left, from the
`i`-th token on. -/
def itemsLooked (i : Nat) (s : Session) (ts : List Token) : Nat :=
  match ts with
  | [] => i
  | tok :: rest =>
    if tok.type = .eof then i + 1
    else
      match _h : (item i tok rest).run s with
      | .ok p t => itemsLooked p.1 t p.2
      | .error _ _ => itemLooked i s tok rest
termination_by ts.length
decreasing_by exact Nat.lt_succ_of_le (length_item _h)

/-- How many tokens of a source have been looked at when its compilation stops. -/
def looked (s : Session) (ts : List Token) : Nat := itemsLooked 0 { s with tokens := ts.toArray } ts

/-- How a step ends that has looked at `n` tokens of a source: where it rejects, it does so within
these tokens. -/
def Located {α : Type} (ts : List Token) (n : Nat) (Q : α → Session → Prop) :
    EStateM.Result Stop Session α → Prop
  | .ok a t => Q a t
  | .error (.reject d) _ => d.Within (endOf ts) ts n
  | .error (.crash _) _ => True

section Located

variable {α β : Type} {ts rest : List Token} {i m n : Nat} {tok : Token} {s : Session}

theorem Located.imp {Q R : α → Session → Prop} {r : EStateM.Result Stop Session α}
    (h : Located ts n Q r) (hQ : ∀ a t, Q a t → R a t) : Located ts n R r := by
  cases r with
  | ok a t => exact hQ a t h
  | error e t => cases e <;> exact h

theorem Located.mono {Q : α → Session → Prop} {r : EStateM.Result Stop Session α}
    (h : Located ts n Q r) (hn : n ≤ m) (hm : m ≤ ts.length) : Located ts m Q r := by
  cases r with
  | ok a t => exact h
  | error e t =>
    cases e with
    | reject d => exact Diagnostic.Within.mono h hn hm
    | crash f => trivial

theorem Located.bind {Q : α → Session → Prop} {R : β → Session → Prop} {f : Build α}
    {g : α → Build β} (h : Located ts n Q (f.run s))
    (hg : ∀ a t, Q a t → Located ts n R ((g a).run t)) : Located ts n R ((f >>= g).run s) := by
  rw [EStateM.run_bind]
  cases hr : f.run s with
  | ok a t =>
    rw [hr] at h
    exact hg a t h
  | error e t =>
    rw [hr] at h
    cases e <;> exact h

theorem Cited.located {P : α → Prop} {f : Build α} (h : Cited ts.toArray (ts.take n) P f)
    (hs : s.Recalls ts.toArray (ts.take i)) (hi : i ≤ n) (hn : n ≤ ts.length) :
    Located ts n (fun a t => t.Recalls ts.toArray (ts.take n) ∧ P a) (f.run s) := by
  have hrun := h s ⟨hs.tokens, fun d hd => List.take_subset_take_left ts hi (hs.stack d hd)⟩
  cases hr : f.run s with
  | ok a t =>
    rw [hr] at hrun
    exact hrun
  | error e t =>
    rw [hr] at hrun
    cases e with
    | reject d => exact Diagnostic.Cites.within hrun hn
    | crash f => trivial

theorem tokenIn_of_drop (h : ts.drop i = tok :: rest) : tokenIn ts.toArray i = tok := by
  have hget : ts[i]? = some tok := by rw [← List.head?_drop, h]; rfl
  simp [tokenIn, Session.token, hget]

theorem endToken_eq (h : s.tokens = ts.toArray) : s.endToken = endOf ts := by
  unfold endOf Session.endToken
  rw [h]

theorem drop_succ (h : ts.drop i = tok :: rest) : ts.drop (i + 1) = rest := by
  rw [← List.tail_drop, h]
  rfl

theorem located_term (hdrop : ts.drop i = tok :: rest) (hs : s.Recalls ts.toArray (ts.take i)) :
    Located ts (i + termLooked tok rest)
      (fun p t => t.Recalls ts.toArray (ts.take p.1) ∧ ts.drop p.1 = p.2 ∧ p.1 ≤ ts.length)
      ((term i tok rest).run s) := by
  have hlt := lt_length_of_drop hdrop
  have hmem {n : Nat} (hn : i < n) : tok ∈ ts.take n := mem_take_of_drop hdrop hn
  have hstands {n : Nat} (hn : i < n) : tokenIn ts.toArray i ∈ ts.take n := by
    rw [tokenIn_of_drop hdrop]
    exact hmem hn
  -- a name is taken together with the parenthesis behind it, any other token alone
  by_cases hcall : ∃ paren rest', rest = paren :: rest' ∧ tok.type = .identifier ∧
      paren.type = .lparen
  · obtain ⟨paren, rest', rfl, hid, hparen⟩ := hcall
    have hnext := drop_succ hdrop
    have hcited : Cited ts.toArray (ts.take (i + 2)) (· = (i + 2, rest'))
        (pushEntry { kind := .call 0, tok := i } tok >>= fun _ => pure (i + 2, rest')) := by
      refine (cited_pushEntry (hmem (by omega)) ?_).andThen fun _ => cited_pure rfl
      exact hstands (by omega)
    have hlooked : termLooked tok (paren :: rest') = 2 := by simp [termLooked, hid]
    rw [term_call i rest' hid hparen, hlooked]
    refine (hcited.located hs (by omega) (lt_length_of_drop hnext)).imp ?_
    rintro p t ⟨ht, rfl⟩
    exact ⟨ht, drop_succ hnext, lt_length_of_drop hnext⟩
  have hname : tok.type = .identifier → EndsName rest := by
    intro hid paren hparen htype
    obtain ⟨rest', rfl⟩ := List.head?_eq_some_iff.1 hparen
    exact hcall ⟨paren, rest', rfl, hid, htype⟩
  rw [term_shift i hname]
  by_cases heof : tok.type = .eof
  · have hlooked : termLooked tok rest = 1 := by simp [termLooked, heof]
    have hrun : (shift i tok).run s = .error (.reject ⟨tok.line, .statementUnterminated⟩) s := by
      simp only [shift, heof]
      rfl
    rw [hlooked, EStateM.run_bind, hrun]
    exact Diagnostic.within_token hdrop rfl fun _ => heof
  · have hcited : Cited ts.toArray (ts.take (i + 1)) (· = (i + 1, rest))
        (shift i tok >>= fun _ => pure (i + 1, rest)) :=
      (cited_shift (hmem (by omega)) (hstands (by omega)) heof).andThen fun _ => cited_pure rfl
    refine ((hcited.located hs (by omega) hlt).mono ?_ ?_).imp ?_
    · unfold termLooked
      split <;> omega
    · have hlen := length_of_drop hdrop hlt.le
      rw [List.length_cons] at hlen
      unfold termLooked
      split
      · rw [List.length_take]
        omega
      · omega
    · rintro p t ⟨ht, rfl⟩
      exact ⟨ht, drop_succ hdrop, hlt⟩

/-- A statement is rejected within what it has looked at. -/
theorem located_terms (hdrop : ts.drop i = rest) (hi : i ≤ ts.length)
    (hs : s.Recalls ts.toArray (ts.take i)) :
    Located ts (termsLooked i s rest) (fun _ t => t.tokens = ts.toArray)
      ((terms i rest).run s) := by
  -- on the recursion of `termsLooked`, which takes the session along from token to token
  fun_induction termsLooked i s rest with
  | case1 i s =>
    rw [terms, EStateM.run_bind, EStateM.run_get]
    dsimp only
    rw [endToken_eq hs.tokens]
    refine Diagnostic.within_end ?_ rfl rfl
    have := List.drop_eq_nil_iff.1 hdrop
    omega
  | case2 i s tok rest hsemi =>
    rw [terms_semicolon i rest hsemi]
    have hcited : Cited ts.toArray (ts.take (i + 1)) (fun _ => True) (conclude tok) :=
      cited_conclude (mem_take_of_drop hdrop (by omega))
    exact (hcited.located hs (by omega) (lt_length_of_drop hdrop)).imp fun _ t ht => ht.1.tokens
  | case3 i s tok rest hsemi p t hrun ih =>
    have hterm := located_term hdrop hs
    rw [hrun] at hterm
    obtain ⟨ht, hdrop', hle⟩ := hterm
    rw [terms_term i rest hsemi, run_bind_ok hrun]
    exact ih hdrop' hle ht
  | case4 i s tok rest hsemi e t hrun =>
    have hterm := located_term hdrop hs
    rw [hrun] at hterm
    rw [terms_term i rest hsemi, EStateM.run_bind, hrun]
    cases e <;> exact hterm

theorem located_nameDeclaration {us : List Token} {k : Nat} (type : Ty) (hdrop : ts.drop i = us)
    (hk : k ≤ us.length) (hi : i ≤ ts.length) (hs : s.Recalls ts.toArray (ts.take i)) :
    Located ts (i + min (k + 1) us.length)
      (fun m t => t.Recalls ts.toArray (ts.take (i + m)) ∧ i + m ≤ ts.length)
      ((nameDeclaration i us type k).run s) := by
  have hlen := length_of_drop hdrop hi
  unfold nameDeclaration
  rw [EStateM.run_bind, EStateM.run_get]
  dsimp only
  cases hname : us.drop k with
  | nil =>
    have hge := List.drop_eq_nil_iff.1 hname
    rw [List.headD_nil, endToken_eq hs.tokens]
    exact Diagnostic.within_end (by omega) rfl rfl
  | cons name after =>
    have hlt := lt_length_of_drop hname
    have hdrop' : ts.drop (i + k) = name :: after := by rw [← List.drop_drop, hdrop, hname]
    have hmin : i + min (k + 1) us.length = i + k + 1 := by omega
    rw [List.headD_cons, hmin]
    by_cases hid : name.type = .identifier
    · have hmem : name ∈ ts.take (i + k + 1) := mem_take_of_drop hdrop' (by omega)
      -- with or without a check of the size, the entry that is put down is this one
      have hpush : Cited ts.toArray (ts.take (i + k + 1)) (· = k + 1) (do
          pushTerm ⟨.declaration, (i + k : Nat), { type }⟩ name
          return k + 1) := by
        refine (cited_pushTerm hmem ?_).andThen fun _ => cited_pure rfl
        show tokenIn _ (i + k : Nat) ∈ _
        rwa [tokenIn_of_drop hdrop']
      rw [if_pos hid]
      refine (Cited.located (P := (· = k + 1)) ?_ hs (by omega) (by omega)).imp ?_
      · split
        · refine (cited_sound _).andThen fun size => ?_
          split
          · exact cited_reject_bind hmem rfl
          · exact hpush
        · exact hpush
      · rintro m t ⟨ht, rfl⟩
        exact ⟨ht, by omega⟩
    · rw [if_neg hid]
      exact Diagnostic.within_token hdrop' rfl (by simp [Problem.isEnd])

theorem located_openDeclaration {us : List Token} (hdrop : ts.drop i = us) (hi : i ≤ ts.length)
    (hs : s.Recalls ts.toArray (ts.take i)) :
    Located ts (i + declarationLooked s.types us)
      (fun m t => t.Recalls ts.toArray (ts.take (i + m)) ∧ i + m ≤ ts.length)
      ((openDeclaration i us).run s) := by
  have hopen : openDeclaration i us =
      declaredType us >>= fun p => nameDeclaration i us p.1 p.2 := rfl
  have hread := run_declaredType (s := s) us
  rw [hopen]
  cases us with
  | nil =>
    rw [run_bind_ok hread]
    exact located_nameDeclaration _ hdrop (by simp) hi hs
  | cons tok rest =>
    dsimp only at hread
    rw [declarationLooked]
    by_cases ht : isTyped (tok :: rest)
    · rw [if_pos ht] at hread ⊢
      cases hbase : s.types.resolve tok with
      | none =>
        have hrun : (declaredType (tok :: rest)).run s =
            .error (.reject ⟨tok.line, .typeUnknown tok⟩) s := by
          simp only [declaredType, ht, if_true, EStateM.run_bind, EStateM.run_get, hbase]
          rfl
        -- a keyword is always a type, and after a name another token has been seen
        have hlen : 2 ≤ (tok :: rest).length := by
          cases rest with
          | nil => cases htype : tok.type <;> simp [isTyped, Registry.resolve, htype] at ht hbase
          | cons next rest => simp
        rw [EStateM.run_bind, hrun]
        have hwithin : Diagnostic.Within (endOf ts) (tok :: rest) 1 ⟨tok.line, .typeUnknown tok⟩ :=
          Diagnostic.within_token (k := 0) rfl rfl (by simp [Problem.isEnd])
        exact (hwithin.mono (by omega) hlen).shift hdrop hi
      | some base =>
        rw [hbase] at hread
        rw [run_bind_ok hread]
        refine located_nameDeclaration _ hdrop ?_ hi hs
        have := (List.takeWhile_sublist (l := rest) Token.isStar).length_le
        simpa using this
    · rw [if_neg ht] at hread ⊢
      rw [run_bind_ok hread]
      have hname := located_nameDeclaration {} hdrop (Nat.zero_le _) hi hs
      simpa using hname

theorem located_statement (hdrop : ts.drop i = tok :: rest) (hs : s.tokens = ts.toArray) :
    Located ts (statementLooked i s tok rest) (fun _ t => t.tokens = ts.toArray)
      ((statement i (tok :: rest)).run s) := by
  have hlt := lt_length_of_drop hdrop
  have hbegun (n : Nat) : (begun s).Recalls ts.toArray (ts.take n) :=
    ⟨hs, fun d hd => absurd hd List.not_mem_nil⟩
  rw [run_statement_cons, statementLooked]
  by_cases hvar : tok.type = .var
  · rw [if_pos hvar, if_pos hvar, declared, EStateM.run_bind]
    have hopen := located_openDeclaration (drop_succ hdrop) hlt (hbegun (i + 1))
    cases hrun : (openDeclaration (i + 1) rest).run (begun s) with
    | ok n t =>
      rw [hrun] at hopen
      obtain ⟨ht, hle⟩ := hopen
      refine located_terms ?_ hle ht
      rw [← List.drop_drop, drop_succ hdrop]
    | error e t =>
      rw [hrun] at hopen
      cases e <;> exact hopen
  · rw [if_neg hvar, if_neg hvar]
    exact located_terms hdrop hlt.le (hbegun i)

theorem located_closeBlock (hdrop : ts.drop i = tok :: rest) (hs : s.tokens = ts.toArray) :
    Located ts (i + 1) (fun _ t => t.tokens = ts.toArray) ((closeBlock tok).run s) := by
  unfold closeBlock
  rw [EStateM.run_bind, EStateM.run_get]
  dsimp only
  split
  · rw [EStateM.run_bind, EStateM.run_get]
    dsimp only
    cases s.frame.exit with
    | error f => trivial
    | ok p =>
      rw [run_bind_ok (run_sound p), EStateM.run_bind, EStateM.run_modify]
      dsimp only
      split <;> exact hs
  · exact Diagnostic.within_token hdrop rfl (by simp [Problem.isEnd])

theorem located_item (hdrop : ts.drop i = tok :: rest) (hs : s.tokens = ts.toArray) :
    Located ts (itemLooked i s tok rest)
      (fun p t => t.tokens = ts.toArray ∧ ts.drop p.1 = p.2 ∧ p.1 ≤ ts.length)
      ((item i tok rest).run s) := by
  have hlt := lt_length_of_drop hdrop
  have hlen : ts.length = i + (rest.length + 1) := length_of_drop hdrop hlt.le
  -- what follows an item is left of the source from the index that the item gives
  have hnext {next : List Token} (h : next <:+ tok :: rest) :
      ts.drop (i + (rest.length + 1 - next.length)) = next ∧
        i + (rest.length + 1 - next.length) ≤ ts.length :=
    ⟨drop_of_suffix hdrop h, by omega⟩
  by_cases hstruct : tok.type = .struct
  · cases hrun : (item i tok rest).run s with
    | ok p t =>
      obtain ⟨b, hparse, hj, rfl⟩ := (run_item_struct hstruct).1 hrun
      have hsuffix := (StructDef.suffix_parse hparse).trans (List.suffix_cons tok rest)
      refine ⟨hs, ?_⟩
      rw [hj]
      exact hnext hsuffix
    | error e t =>
      obtain ⟨hparse, -⟩ := run_item_struct_error hstruct hrun
      cases e with
      | crash f => trivial
      | reject d =>
        rw [itemLooked, hstruct]
        have hwithin := StructDef.within_parse rfl hparse
        rw [endToken_eq hs] at hwithin ⊢
        exact hwithin.shift (drop_succ hdrop) hlt
  by_cases hlbrace : tok.type = .lbrace
  · rw [item, itemLooked, hlbrace]
    exact ⟨hs, drop_succ hdrop, hlt⟩
  by_cases hrbrace : tok.type = .rbrace
  · rw [item, itemLooked, hrbrace]
    refine (located_closeBlock hdrop hs).bind fun _ t ht => ?_
    exact ⟨ht, drop_succ hdrop, hlt⟩
  have hlooked : itemLooked i s tok rest = statementLooked i s tok rest := by
    unfold itemLooked
    split <;> first | contradiction | rfl
  rw [hlooked]
  unfold item
  split
  · contradiction
  · contradiction
  · contradiction
  · refine (located_statement hdrop hs).bind fun _ t ht => ?_
    exact ⟨ht, hnext (suffix_afterSemicolon _)⟩

theorem located_items (hdrop : ts.drop i = rest) (hi : i ≤ ts.length) (hs : s.tokens = ts.toArray) :
    Located ts (itemsLooked i s rest) (fun _ _ => True) ((items i rest).run s) := by
  have hendSource {s : Session} {tok : Token} {n : Nat}
      (h : Diagnostic.Within (endOf ts) ts n ⟨tok.line, .blockUnterminated⟩) :
      Located ts n (fun _ _ => True) ((endSource tok).run s) := by
    unfold endSource
    rw [EStateM.run_bind, EStateM.run_get]
    dsimp only
    split
    · exact h
    · trivial
  -- as in `located_terms`, with the items of a source in place of the tokens of a statement
  fun_induction itemsLooked i s rest with
  | case1 i s =>
    rw [items, EStateM.run_bind, EStateM.run_get]
    dsimp only
    rw [endToken_eq hs]
    refine hendSource (Diagnostic.within_end ?_ rfl rfl)
    have := List.drop_eq_nil_iff.1 hdrop
    omega
  | case2 i s tok rest heof =>
    rw [items, heof]
    exact hendSource (Diagnostic.within_token hdrop rfl fun _ => heof)
  | case3 i s tok rest heof p t hrun ih =>
    have hitem := located_item hdrop hs
    rw [hrun] at hitem
    obtain ⟨ht, hdrop', hle⟩ := hitem
    rw [items_cons i rest heof, run_bind_ok hrun]
    exact ih hdrop' hle ht
  | case4 i s tok rest heof e t hrun =>
    have hitem := located_item hdrop hs
    rw [hrun] at hitem
    rw [items_cons i rest heof, EStateM.run_bind, hrun]
    cases e <;> exact hitem

end Located

theorem within_of_run {s : Session} {ts : List Token} {d : Diagnostic}
    (h : (s.run (compile ts)).1 = .error (.reject d)) : d.Within (endOf ts) ts (looked s ts) := by
  have hitems : Located ts (looked s ts) (fun _ _ => True) ((compile ts).run s) :=
    located_items List.drop_zero (Nat.zero_le _) rfl
  unfold Session.run at h
  cases hrun : (compile ts).run s with
  | ok a t =>
    rw [hrun] at h
    cases h
  | error e t =>
    rw [hrun] at h hitems
    cases h
    exact hitems

/-- A source is rejected at the line of one of the tokens that have been looked at when its
compilation stops, where it ends too early at the line of the last of all. No line is 0, and none is
past the last token that has been looked at. -/
theorem rejected_line_looked {s : Session} {ts : List Token} {d : Diagnostic}
    (hlines : ∀ tok ∈ ts, 1 ≤ tok.line) (hsorted : ts.Pairwise (·.line ≤ ·.line))
    (h : (s.run (compile ts)).1 = .error (.reject d)) :
    looked s ts ≤ ts.length ∧
      ((∃ tok ∈ ts.take (looked s ts), tok.line = d.line) ∨ ts = [] ∧ d.line = 1) ∧
      (d.problem.isEnd →
        (∃ tok ∈ ts.take (looked s ts), tok.type = .eof ∧ tok.line = d.line) ∨
          looked s ts = ts.length ∧ d.line = (ts.getLast?.map (·.line)).getD 1) ∧
      1 ≤ d.line ∧ ∀ last ∈ (ts.take (looked s ts)).getLast?, d.line ≤ last.line := by
  obtain ⟨hle, hline⟩ := within_of_run h
  rw [line_endOf] at hline
  have hcited : (∃ tok ∈ ts.take (looked s ts), tok.line = d.line) ∨ ts = [] ∧ d.line = 1 := by
    rcases hline with ⟨tok, hmem, heq, -⟩ | ⟨hn, -, heq⟩
    · exact .inl ⟨tok, hmem, heq⟩
    · cases hlast : ts.getLast? with
      | none =>
        rw [hlast] at heq
        exact .inr ⟨List.getLast?_eq_none_iff.1 hlast, heq⟩
      | some last =>
        rw [hlast] at heq
        refine .inl ⟨last, ?_, heq.symm⟩
        rw [show looked s ts = ts.length from hn, List.take_length]
        exact List.mem_of_getLast? hlast
  refine ⟨hle, hcited, ?_, ?_, ?_⟩
  · intro hp
    rcases hline with ⟨tok, hmem, heq, heof⟩ | ⟨hn, -, heq⟩
    · exact .inl ⟨tok, hmem, heof hp, heq⟩
    · exact .inr ⟨hn, heq⟩
  · rcases hcited with ⟨tok, hmem, heq⟩ | ⟨-, heq⟩
    · rw [← heq]
      exact hlines tok (List.mem_of_mem_take hmem)
    · exact heq.ge
  · intro last hlast
    rcases hcited with ⟨tok, hmem, heq⟩ | ⟨rfl, -⟩
    · rw [← heq]
      exact line_le_last (hsorted.sublist (List.take_sublist _ _)) hmem hlast
    · simp at hlast

/-- A sum of a number and an address over two lines, and a statement after it. -/
def addingAddress : List Token := tokensOf "var u16 x = 1;\nx = x +\n  &x;\nx = 2;"

theorem rejected_line_looked_address :
    let d : Diagnostic := ⟨2, .operandsMismatched .add ⟨some .u16, 0⟩ ⟨some .u16, 1⟩⟩
    (Session.run {} (compile addingAddress)).1 = .error (.reject d) ∧
      looked {} addingAddress = 13 ∧ addingAddress.length = 17 ∧
      (∃ tok ∈ addingAddress.take (looked {} addingAddress), tok.line = d.line) ∧
      ∀ last ∈ (addingAddress.take (looked {} addingAddress)).getLast?, d.line ≤ last.line := by
  intro d
  have hrun : (Session.run {} (compile addingAddress)).1 = .error (.reject d) := by decide +kernel
  have hlines : ∀ tok ∈ addingAddress, 1 ≤ tok.line := by decide +kernel
  have hsorted : addingAddress.Pairwise (·.line ≤ ·.line) := by decide +kernel
  obtain ⟨-, hcited, -, -, hlast⟩ := rejected_line_looked hlines hsorted hrun
  refine ⟨hrun, by decide +kernel, by decide +kernel, ?_, hlast⟩
  exact hcited.resolve_right fun hempty => absurd hempty.2 (by decide)

end Build

end OnePass
