import Mathlib
import OnePass.Proofs.Alignment

namespace OnePass

section

variable (ρ : String → String)

def Layout.renamed (l : Layout) : Layout := { l with fields := l.fields.map (·.renamed ρ) }

def StructDef.renamed (d : StructDef) : StructDef :=
  { d with types := d.types.renamed ρ, name := ρ d.name }

end

def Mirrors {α β : Type} (R : α → β → Prop) : Except Stop α → Except Stop β → Prop
  | .ok a, .ok b => R a b
  | .error _, .error _ => True
  | _, _ => False

theorem Mirrors.error {α β : Type} {R : α → β → Prop} {x : Except Stop α} {y : Except Stop β}
    (hx : ∃ e, x = .error e) (hy : ∃ e, y = .error e) : Mirrors R x y := by
  obtain ⟨e, rfl⟩ := hx
  obtain ⟨e', rfl⟩ := hy
  trivial

theorem Mirrors.ok_or_error {α β : Type} {R : α → β → Prop} {x : Except Stop α}
    {y : Except Stop β} (h : Mirrors R x y) :
    (∃ a b, x = .ok a ∧ y = .ok b ∧ R a b) ∨ ∃ e e', x = .error e ∧ y = .error e' := by
  cases x with
  | error e =>
    cases y with
    | error e' => exact .inr ⟨e, e', rfl, rfl⟩
    | ok b => exact h.elim
  | ok a =>
    cases y with
    | error e' => exact h.elim
    | ok b => exact .inl ⟨a, b, rfl, rfl, h⟩

theorem head_renameTokens_ne {ρ : String → String} {rest : List Token} {type : TokenType}
    (h : ∀ tok ∈ rest.head?, tok.type ≠ type) :
    ∀ tok ∈ (renameTokens ρ rest).head?, tok.type ≠ type := by
  cases rest with
  | nil => simp [renameTokens]
  | cons next post => simpa [renameTokens] using h

namespace StructDef

variable {ρ : String → String} {d : StructDef} {l : Layout} {tok name : Token}
  {rest ts : List Token}

theorem isSelf_renamed (hρ : Function.Injective ρ) :
    (d.renamed ρ).isSelf (tok.renamed ρ) = d.isSelf tok := by
  unfold isSelf
  by_cases hid : tok.type = .identifier
  · simp [hid, Token.name_renamed hid, renamed, hρ.eq_iff]
  · simp [hid]

theorem resolve_renamed (hρ : Function.Injective ρ) :
    (d.renamed ρ).resolve (tok.renamed ρ) = (d.resolve tok).map (·.map (·.renamed ρ)) := by
  have hself : (d.renamed ρ).self = d.self.renamed ρ := by
    simp [self, renamed, TypeInfo.renamed, TypeHead.renamed]
  unfold resolve
  rw [isSelf_renamed hρ, hself]
  split
  · rfl
  · exact Registry.resolve_renamed hρ d.types tok

theorem addField_renamed (hρ : Function.Injective ρ) {name' : Token} (hn : name'.name = ρ name.name)
    (type : Ty) (isSelf : Bool) :
    Mirrors (fun a b => b = a.renamed ρ) (d.addField l type isSelf name)
      ((d.renamed ρ).addField (l.renamed ρ) (type.renamed ρ) isSelf name') := by
  -- two names are replaced by one only if they were one
  have hfind : ((l.renamed ρ).fields.find? (·.name = name'.name)).isSome =
      (l.fields.find? (·.name = name.name)).isSome := by
    simp [Layout.renamed, List.find?_map, hn, Field.renamed, hρ.eq_iff]
  unfold addField
  simp only [Ty.depth_renamed, Ty.size_renamed, hfind]
  by_cases hself : isSelf = true ∧ type.depth = 0
  · simp only [hself, and_self, if_true]
    exact Mirrors.error ⟨_, rfl⟩ ⟨_, rfl⟩
  · simp only [hself, if_false]
    cases type.size with
    | error f => exact Mirrors.error ⟨_, rfl⟩ ⟨_, rfl⟩
    | ok size =>
      by_cases hz : size = 0
      · subst hz
        exact Mirrors.error ⟨_, rfl⟩ ⟨_, rfl⟩
      · by_cases hf : (l.fields.find? (·.name = name.name)).isSome
        · simp only [Except.mapError, bind, Except.bind, hz, hf, if_true, if_false]
          exact Mirrors.error ⟨_, rfl⟩ ⟨_, rfl⟩
        · simp only [Except.mapError, bind, Except.bind, hz, hf, if_false, pure, Except.pure]
          simp [Mirrors, Layout.add, Layout.renamed, Field.renamed, hn, Ty.renamed,
            TypeInfo.renamed, Function.comp_def]

theorem fieldEnd_error (d : StructDef) (l : Layout) (tok name : Token) (type : Ty)
    (h : name.type = .identifier → ∀ semi ∈ rest.head?, semi.type ≠ .semicolon) :
    ∃ e, d.fieldEnd l tok type (name :: rest) = .error e := by
  unfold fieldEnd
  by_cases hid : name.type = .identifier
  · simp only [hid, ne_eq, not_true_eq_false, if_false]
    cases d.addField l type (d.isSelf tok) name with
    | error e => exact ⟨e, rfl⟩
    | ok l' =>
      cases rest with
      | nil => exact ⟨_, rfl⟩
      | cons semi rest => exact ⟨_, if_pos (h hid semi rfl)⟩
  · exact ⟨_, if_pos hid⟩

theorem fieldEnd_renamed (hρ : Function.Injective ρ) (type : Ty) (fields : List Token)
    (hbody : ∀ (l : Layout) (ts : List Token), ts.length < fields.length →
      Mirrors (fun a b => b = (a.1.renamed ρ, renameTokens ρ a.2)) (d.body l ts)
        ((d.renamed ρ).body (l.renamed ρ) (renameTokens ρ ts))) :
    Mirrors (fun a b => b = (a.1.renamed ρ, renameTokens ρ a.2)) (d.fieldEnd l tok type fields)
      ((d.renamed ρ).fieldEnd (l.renamed ρ) (tok.renamed ρ) (type.renamed ρ)
        (renameTokens ρ fields)) := by
  cases fields with
  | nil => exact Mirrors.error ⟨_, rfl⟩ ⟨_, rfl⟩
  | cons name rest =>
    by_cases hname : name.type = .identifier ∧ ∃ semi ∈ rest.head?, semi.type = .semicolon
    · obtain ⟨hid, semi, hhead, hsemi⟩ := hname
      obtain ⟨rest, rfl⟩ := List.head?_eq_some_iff.1 hhead
      have hbefore : name.renamedBefore ρ (semi :: rest) = name.renamed ρ := by
        simp [Token.renamedBefore, hsemi]
      have hadd := addField_renamed (d := d) (l := l) hρ (Token.name_renamed hid) type
        (d.isSelf tok)
      simp only [fieldEnd, renameTokens, hbefore, Token.type_renamed, Token.type_renamedBefore, hid,
        hsemi, ne_eq, not_true_eq_false, if_false, isSelf_renamed hρ]
      obtain ⟨l', _, h, h', rfl⟩ | ⟨e, e', h, h'⟩ := hadd.ok_or_error
      · rw [h, h']
        exact hbody l' rest (by simp)
      · rw [h, h']
        trivial
    · have hne : name.type = .identifier → ∀ semi ∈ rest.head?, semi.type ≠ .semicolon :=
        fun hid semi hhead hsemi => hname ⟨hid, semi, hhead, hsemi⟩
      refine Mirrors.error (fieldEnd_error _ _ _ _ _ hne) (fieldEnd_error _ _ _ _ _ ?_)
      rw [Token.type_renamedBefore]
      exact fun hid => head_renameTokens_ne (hne hid)

/-- A definition is read under new names as it was under the old ones. A name that a parenthesis
follows is left as it is, but no definition has one. -/
theorem body_renamed (hρ : Function.Injective ρ) (ts : List Token) :
    Mirrors (fun a b => b = (a.1.renamed ρ, renameTokens ρ a.2)) (d.body l ts)
      ((d.renamed ρ).body (l.renamed ρ) (renameTokens ρ ts)) := by
  induction hn : ts.length using Nat.strong_induction_on generalizing l ts with
  | _ n ih =>
    subst hn
    cases ts with
    | nil =>
      rw [renameTokens, body, body]
      exact Mirrors.error ⟨_, rfl⟩ ⟨_, rfl⟩
    | cons tok rest =>
      rw [renameTokens, body_cons, body_cons, Token.type_renamedBefore]
      have hfield : Mirrors (fun a b => b = (a.1.renamed ρ, renameTokens ρ a.2))
          (d.field l tok rest)
          ((d.renamed ρ).field (l.renamed ρ) (tok.renamedBefore ρ rest) (renameTokens ρ rest)) := by
        unfold field
        rw [renameTokens_dropWhile_isStar, length_takeWhile_isStar_renameTokens]
        -- a name before a parenthesis keeps its spelling, but then both are refused
        by_cases hparen : rest.head?.any (·.type = .lparen)
        · obtain ⟨o, post, rfl, ho⟩ : ∃ o post, rest = o :: post ∧ o.type = .lparen := by
            cases rest with
            | nil => simp at hparen
            | cons o post => exact ⟨o, post, rfl, by simpa using hparen⟩
          rw [List.dropWhile_cons_of_neg (by simp [Token.isStar, ho]), renameTokens]
          apply Mirrors.error
          · cases d.resolve tok with
            | none => exact ⟨_, rfl⟩
            | some base => exact fieldEnd_error _ _ _ _ _ (by simp [ho])
          · cases (d.renamed ρ).resolve (tok.renamedBefore ρ (o :: post)) with
            | none => exact ⟨_, rfl⟩
            | some base => exact fieldEnd_error _ _ _ _ _ (by simp [ho])
        · rw [show tok.renamedBefore ρ rest = tok.renamed ρ from if_neg hparen, resolve_renamed hρ]
          cases d.resolve tok with
          | none => exact Mirrors.error ⟨_, rfl⟩ ⟨_, rfl⟩
          | some base =>
            refine fieldEnd_renamed hρ ⟨base, _⟩ _ fun l ts hlt => ih _ ?_ ts rfl
            have := (List.dropWhile_sublist (l := rest) Token.isStar).length_le
            rw [List.length_cons]
            omega
      cases tok.type with
      | rbrace => exact rfl
      | eof => exact Mirrors.error ⟨_, rfl⟩ ⟨_, rfl⟩
      | _ => exact hfield

theorem skipSemicolon_renameTokens (ts : List Token) :
    skipSemicolon (renameTokens ρ ts) = renameTokens ρ (skipSemicolon ts) := by
  cases ts with
  | nil => rfl
  | cons tok rest =>
    simp only [renameTokens, skipSemicolon, Token.type_renamedBefore]
    split <;> rfl

theorem parse_error (types : Registry) (atEnd name : Token)
    (h : name.type = .identifier → ∀ brace ∈ rest.head?, brace.type ≠ .lbrace) :
    ∃ e, parse types atEnd (name :: rest) = .error e := by
  unfold parse
  by_cases hid : name.type = .identifier
  · by_cases htaken : (types.lookup name.name).isSome
    · exact ⟨_, by simp [hid, htaken]; rfl⟩
    · cases rest with
      | nil => exact ⟨_, by simp [hid, htaken]; rfl⟩
      | cons brace rest => exact ⟨_, by simp [hid, htaken, h hid brace rfl]; rfl⟩
  · exact ⟨_, if_pos hid⟩

theorem parse_renamed (hρ : Function.Injective ρ) (types : Registry) (atEnd : Token)
    (ts : List Token) :
    Mirrors (fun a b => b = (a.1.renamed ρ, renameTokens ρ a.2) ∧ a.1.prim = .struct)
      (parse types atEnd ts) (parse (types.renamed ρ) atEnd (renameTokens ρ ts)) := by
  cases ts with
  | nil => exact Mirrors.error ⟨_, rfl⟩ ⟨_, rfl⟩
  | cons name rest =>
    by_cases hname : name.type = .identifier ∧ ∃ brace ∈ rest.head?, brace.type = .lbrace
    · obtain ⟨hid, brace, hhead, hbrace⟩ := hname
      obtain ⟨rest, rfl⟩ := List.head?_eq_some_iff.1 hhead
      have hbefore : name.renamedBefore ρ (brace :: rest) = name.renamed ρ := by
        simp [Token.renamedBefore, hbrace]
      have hbody : Mirrors (fun a b => b = (a.1.renamed ρ, renameTokens ρ a.2))
          (body ⟨types, name.name, atEnd⟩ {} rest)
          (body ⟨types.renamed ρ, ρ name.name, atEnd⟩ {} (renameTokens ρ rest)) :=
        body_renamed hρ rest
      simp only [parse, renameTokens, hbefore, Token.type_renamed, Token.type_renamedBefore, hid,
        hbrace, Token.name_renamed hid, Registry.lookup_renamed hρ, Option.isSome_map, ne_eq,
        not_true_eq_false, if_false]
      -- the new name is taken only if the old one was
      by_cases htaken : (types.lookup name.name).isSome
      · rw [if_pos htaken, if_pos htaken]
        exact Mirrors.error ⟨_, rfl⟩ ⟨_, rfl⟩
      · rw [if_neg htaken, if_neg htaken]
        obtain ⟨⟨l, left⟩, _, h, h', rfl⟩ | ⟨e, e', h, h'⟩ := hbody.ok_or_error
        · rw [h, h']
          dsimp only [Layout.renamed]
          rw [List.isEmpty_map]
          split
          · trivial
          · refine ⟨?_, rfl⟩
            rw [skipSemicolon_renameTokens]
            simp [self, TypeInfo.renamed, TypeHead.renamed]
        · rw [h, h']
          trivial
    · have hne : name.type = .identifier → ∀ brace ∈ rest.head?, brace.type ≠ .lbrace :=
        fun hid brace hhead hbrace => hname ⟨hid, brace, hhead, hbrace⟩
      refine Mirrors.error (parse_error _ _ _ hne) (parse_error _ _ _ ?_)
      rw [Token.type_renamedBefore]
      exact fun hid => head_renameTokens_ne (hne hid)

end StructDef

namespace Link

open Build

variable {L : Link} {s t : Session} {i : Nat} {tok : Token} {rest ts : List Token}

theorem ends_of_fails {α β : Type} {Q : α → Session → β → Session → Prop}
    {r : EStateM.Result Stop Session α} {r' : EStateM.Result Stop Session β} (h : L.rename ≠ id)
    (hr : Fails r) (hr' : Fails r') : L.Ends Q r r' := by
  cases r <;> cases r'
  · exact absurd rfl (hr _ _)
  · exact absurd rfl (hr _ _)
  · exact absurd rfl (hr' _ _)
  · exact fun hid => absurd hid h

theorem linked_begun (h : L.Between s t) : L.Linked (begun s) (begun t) where
  toBetween := ⟨h.source, h.target, h.types, h.frame, h.code, h.allowed⟩
  stack := rfl
  fits := List.forall_mem_nil _
  expect := rfl

theorem ends_statement (h : L.Aligned i ts)
    (hend : L.SameEnd ∨ ∃ tok ∈ ts, tok.type = .semicolon) (hst : L.Between s t) :
    L.Ends (fun _ s _ t => L.Between s t) ((statement i ts).run s)
      ((statement (i + L.shift) (renameTokens L.rename ts)).run t) := by
  have hsim {m m' : Build Unit} (hm : L.Sim Eq m m') :
      L.Ends (fun _ s _ t => L.Between s t) (m.run (begun s)) (m'.run (begun t)) :=
    (hm _ _ (linked_begun hst)).mono fun _ _ _ _ h => h.2.toBetween
  have hterms := hsim (sim_terms h hend)
  cases ts with
  | nil => exact hterms
  | cons tok rest =>
    rw [renameTokens, run_statement_cons, run_statement_cons, Token.type_renamedBefore]
    rw [renameTokens] at hterms
    by_cases hvar : tok.type = .var
    · have hend' : L.SameEnd ∨ ∃ tok ∈ rest, tok.type = .semicolon := by simpa [hvar] using hend
      rw [if_pos hvar, if_pos hvar, Nat.add_right_comm]
      by_cases hid : L.rename = id
      · exact hsim (sim_declared h.2 hend' fun name rest _ => by rw [hid]; simp)
      · by_cases hcall : ∃ name o post,
            rest.drop (typeLength rest) = name :: o :: post ∧ o.type = .lparen
        · -- the name of a call is not renamed, but no declaration declares one
          obtain ⟨name, o, post, hdrop, ho⟩ := hcall
          have hdrop' : (renameTokens L.rename rest).drop
              (typeLength (renameTokens L.rename rest)) =
                renameTokens L.rename (name :: o :: post) := by
            rw [typeLength_renameTokens, renameTokens_drop, hdrop]
          exact ends_of_fails hid (fails_declared_call hdrop ho)
            (fails_declared_call hdrop' (by simpa using ho))
        · refine hsim (sim_declared h.2 hend' fun name post hdrop => ?_)
          apply renamedBefore_of_endsName
          intro o ho hparen
          cases post with
          | nil => simp at ho
          | cons next post =>
            obtain rfl : next = o := by simpa using ho
            exact hcall ⟨name, next, post, hdrop, hparen⟩
    · rw [if_neg hvar, if_neg hvar]
      exact hterms

theorem ends_readStruct (he : L.SameEnd) (hst : L.Between s t) (ts : List Token) :
    L.Ends (fun a s b t => L.Between s t ∧
        b.1 = (a.1.1.renamed L.rename, renameTokens L.rename a.1.2) ∧ a.1.1.prim = .struct ∧
        a.1.2 <:+ ts)
      ((readStruct ts).run s) ((readStruct (renameTokens L.rename ts)).run t) := by
  have hparse := StructDef.parse_renamed L.injective s.types s.endToken ts
  have hsame (hid : L.rename = id) : StructDef.parse (s.types.renamed L.rename) s.endToken
      (renameTokens L.rename ts) = StructDef.parse s.types s.endToken ts := by
    rw [hid, Registry.renamed_id, renameTokens_id]
  rw [← hst.types] at hparse hsame
  unfold readStruct EStateM.run
  dsimp only
  split <;> rename_i h <;> split <;> rename_i h' <;> rw [hst.endToken he] at h' <;>
    rw [h, h'] at hparse
  · exact ⟨hst, hparse.1, hparse.2, StructDef.suffix_parse h⟩
  · exact hparse.elim
  · exact hparse.elim
  · intro hid
    rw [hsame hid, h] at h'
    cases h'
    exact ⟨rfl, hst.alike hid⟩

theorem ends_registerStruct (hst : L.Between s t) {b : TypeInfo} (hb : b.prim = .struct) :
    L.Ends (fun _ s _ t => L.Between s t) ((registerStruct b).run s)
      ((registerStruct (b.renamed L.rename)).run t) := by
  have hname : (b.renamed L.rename).name = L.rename b.name := by
    simp [TypeInfo.renamed, TypeHead.renamed, hb]
  have htypes : t.types.insert (b.renamed L.rename).name (some (b.renamed L.rename)) =
      (s.types.insert b.name (some b)).renamed L.rename := by
    rw [hst.types, hname]
    rfl
  exact { hst with types := htypes }

theorem ends_openBlock (hst : L.Between s t) :
    L.Ends (fun _ s _ t => L.Between s t) (openBlock.run s) (openBlock.run t) := by
  refine { hst with frame := ?_ }
  rw [hst.frame]
  rfl

theorem ends_closeBlock {tok' : Token} (ht : L.Reads tok tok') (hst : L.Between s t) :
    L.Ends (fun _ s _ t => L.Between s t) ((closeBlock tok).run s) ((closeBlock tok').run t) := by
  have hframe := hst.frame
  cases hscopes : s.frame.scopes with
  | nil =>
    have hs : s.frame.nested = false := by simp [Frame.nested, hscopes]
    have ht' : t.frame.nested = false := by rw [hframe]; exact hs
    simp only [closeBlock, EStateM.run_bind, EStateM.run_get, hs, ht']
    intro hid
    exact ⟨by rw [ht.line], hst.alike hid⟩
  | cons m outer =>
    have hscopes' : t.frame.scopes = m :: outer := by rw [hframe]; exact hscopes
    have hdepth : t.frame.depth = s.frame.depth := by rw [hframe]; rfl
    rw [run_closeBlock hscopes, run_closeBlock hscopes', hdepth]
    refine ⟨hst.source, hst.target, hst.types, by rw [hframe]; rfl, by rw [hst.code], ?_⟩
    refine hst.allowed_append fun i hi => L.plain i ?_
    unfold dropCode at hi
    split at hi
    · simp only [List.mem_cons, List.not_mem_nil, or_false] at hi
      rcases hi with rfl | rfl | rfl <;> simp [Instr.plain]
    · simp at hi

theorem ends_endSource {tok' : Token} (ht : L.Reads tok tok') (hst : L.Between s t) :
    L.Ends (fun _ s _ t => L.Between s t) ((endSource tok).run s) ((endSource tok').run t) := by
  have hnested : t.frame.nested = s.frame.nested := by rw [hst.frame]; rfl
  unfold endSource
  rw [EStateM.run_bind, EStateM.run_bind, EStateM.run_get, EStateM.run_get]
  dsimp only
  rw [hnested]
  split
  · exact fun hid => ⟨by rw [ht.line], hst.alike hid⟩
  · exact hst

theorem Aligned.suffix (h : L.Aligned i ts) (hs : rest <:+ ts) :
    L.Aligned (i + (ts.length - rest.length)) rest := by
  have := h.drop (ts.length - rest.length)
  rwa [← List.suffix_iff_eq_drop.1 hs] at this

theorem ends_item (he : L.SameEnd) (h : L.Aligned i (tok :: rest)) (hst : L.Between s t) :
    L.Ends (fun p s q t => L.Between s t ∧ q = (p.1 + L.shift, renameTokens L.rename p.2) ∧
        L.Aligned p.1 p.2 ∧ p.2.length < (tok :: rest).length)
      ((item i tok rest).run s)
      ((item (i + L.shift) (tok.renamedBefore L.rename rest)
        (renameTokens L.rename rest)).run t) := by
  have hone : i + L.shift + 1 = i + 1 + L.shift := Nat.add_right_comm _ _ _
  unfold item
  rw [Token.type_renamedBefore]
  -- every token that starts nothing else starts a statement
  have hstmt : L.Ends (fun p s q t => L.Between s t ∧
        q = (p.1 + L.shift, renameTokens L.rename p.2) ∧ L.Aligned p.1 p.2 ∧
        p.2.length < (tok :: rest).length)
      ((do
        statement i (tok :: rest)
        return (i + (rest.length + 1 - (afterSemicolon (tok :: rest)).length),
          afterSemicolon (tok :: rest)) : Build (Nat × List Token)).run s)
      ((do
        statement (i + L.shift) (renameTokens L.rename (tok :: rest))
        return (i + L.shift + ((renameTokens L.rename rest).length + 1 -
            (afterSemicolon (renameTokens L.rename (tok :: rest))).length),
          afterSemicolon (renameTokens L.rename (tok :: rest))) :
            Build (Nat × List Token)).run t) := by
    refine (ends_statement h (.inl he) hst).bind fun _ s _ t hst => ?_
    have hafter : afterSemicolon (renameTokens L.rename (tok :: rest)) =
        renameTokens L.rename (afterSemicolon (tok :: rest)) := afterSemicolon_renameTokens _
    rw [hafter, length_renameTokens, length_renameTokens]
    refine ⟨hst, ?_, h.suffix (suffix_afterSemicolon _), length_afterSemicolon_lt tok rest⟩
    rw [Nat.add_right_comm]
  cases tok.type with
  | struct =>
    refine (ends_readStruct he hst rest).bind ?_
    rintro ⟨⟨b, next⟩, hle⟩ s ⟨_, hle'⟩ t ⟨hst, rfl, hb, hsuffix⟩
    refine (ends_registerStruct hst hb).bind fun _ s _ t hst => ?_
    have hnext := h.suffix (hsuffix.trans (List.suffix_cons _ _))
    refine ⟨hst, ?_, hnext, Nat.lt_succ_of_le hle⟩
    simp only [length_renameTokens, Nat.add_right_comm]
  | lbrace =>
    refine (ends_openBlock hst).bind fun _ s _ t hst => ?_
    exact ⟨hst, by rw [hone], h.2, by simp⟩
  | rbrace =>
    refine (ends_closeBlock (reads_renamedBefore rest tok) hst).bind fun _ s _ t hst => ?_
    exact ⟨hst, by rw [hone], h.2, by simp⟩
  | _ => exact hstmt

theorem ends_items (he : L.SameEnd) (h : L.Aligned i ts) (hst : L.Between s t) :
    L.Ends (fun _ s _ t => L.Between s t) ((items i ts).run s)
      ((items (i + L.shift) (renameTokens L.rename ts)).run t) := by
  induction hn : ts.length using Nat.strong_induction_on generalizing s t i ts with
  | _ n ih =>
    cases ts with
    | nil =>
      rw [renameTokens, items, items, EStateM.run_bind, EStateM.run_bind, EStateM.run_get,
        EStateM.run_get]
      dsimp only
      rw [hst.endToken he]
      exact ends_endSource ⟨rfl, rfl, rfl, fun _ => rfl⟩ hst
    | cons tok rest =>
      have hreads : L.Reads tok (tok.renamedBefore L.rename rest) := reads_renamedBefore rest tok
      by_cases htok : tok.type = .eof
      · have htok' : (tok.renamedBefore L.rename rest).type = .eof := by rw [hreads.type, htok]
        rw [renameTokens, items, items, htok, htok']
        exact ends_endSource hreads hst
      · rw [renameTokens, items_cons _ _ htok, items_cons _ _ (by rwa [hreads.type])]
        refine (ends_item he h hst).bind ?_
        rintro ⟨j, next⟩ s _ t ⟨hst, rfl, hnext, hlt⟩
        exact ih _ (hn ▸ hlt) hnext hst rfl

def whole (ts : List Token) (ρ : String → String) (allowed : Instr → Prop)
    (hρ : Function.Injective ρ) (hplain : ∀ i : Instr, i.plain → allowed i) : Link :=
  ⟨ts.toArray, (renameTokens ρ ts).toArray, 0, ρ, allowed, hρ, hplain⟩

theorem getLast?_renameTokens (ρ : String → String) (ts : List Token) :
    (renameTokens ρ ts).getLast?.map (·.line) = ts.getLast?.map (·.line) := by
  induction ts with
  | nil => rfl
  | cons tok rest ih =>
    cases rest with
    | nil => simp [renameTokens]
    | cons next rest =>
      rw [renameTokens, renameTokens, List.getLast?_cons_cons, List.getLast?_cons_cons,
        ← renameTokens, ih]

/-- A source and the same source under other names compile alike in new sessions. -/
theorem ends_whole (ids : IdSupply) {ρ : String → String} {allowed : Instr → Prop}
    (hρ : Function.Injective ρ) (hplain : ∀ i : Instr, i.plain → allowed i) (ts : List Token)
    (had : ∀ tok ∈ ts, (whole ts ρ allowed hρ hplain).Admits tok) :
    (whole ts ρ allowed hρ hplain).Ends
      (fun _ s _ t => (whole ts ρ allowed hρ hplain).Between s t) ((compile ts).run (.fresh ids))
      ((compile (renameTokens ρ ts)).run (.fresh ids)) := by
  have he : (whole ts ρ allowed hρ hplain).SameEnd := by
    simp [SameEnd, Session.endToken, whole, getLast?_renameTokens]
  have hal : (whole ts ρ allowed hρ hplain).Aligned 0 ts := by
    have hs : (whole ts ρ allowed hρ hplain).source.toList.drop 0 = ts ++ [] := by simp [whole]
    have ht : (whole ts ρ allowed hρ hplain).target.toList.drop 0 = renameTokens ρ ts ++ [] := by
      simp [whole]
    exact aligned_of_drop hs ht had
  exact ends_items he hal ⟨rfl, rfl, rfl, rfl, rfl, by simp [Session.fresh]⟩

end Link

/-- Names do not reach the code: a source and the same source with its identifiers replaced one for
one, those of calls left as they are, are accepted or rejected together. The code is the same, and
the types and the frame differ in the names alone. -/
theorem compile_renamed (ids : IdSupply) {ρ : String → String} (hρ : Function.Injective ρ)
    (ts : List Token) :
    let old := (Session.fresh ids).run (Build.compile ts)
    let new := (Session.fresh ids).run (Build.compile (renameTokens ρ ts))
    new.1.isOk = old.1.isOk ∧
      (old.1.isOk → new.2.code = old.2.code ∧ new.2.frame = old.2.frame.renamed ρ ∧
        new.2.types = old.2.types.renamed ρ) := by
  have hends := Link.ends_whole ids hρ (fun (i : Instr) (_ : i.plain) => trivial) ts
    fun tok _ => ⟨fun _ => trivial, fun _ _ => trivial⟩
  unfold Session.run
  cases hr : (Build.compile ts).run (.fresh ids) <;>
    cases hr' : (Build.compile (renameTokens ρ ts)).run (.fresh ids) <;> rw [hr, hr'] at hends
  · exact ⟨rfl, fun _ => ⟨hends.code, hends.frame, hends.types⟩⟩
  · exact hends.elim
  · exact hends.elim
  · exact ⟨rfl, nofun⟩

/-- A call, a struct and a variable of that struct. -/
def naming : List Token :=
  tokensOf "struct pair \x7b u16 a; pair *b; \x7d var pair p; var x = f(2); x = f(x) + 1;"

theorem compile_renamed_marked :
    let old := (Session.fresh .serial).run (Build.compile naming)
    let new := (Session.fresh .serial).run (Build.compile (renameTokens ("my_" ++ ·) naming))
    old.1.isOk ∧ new.1.isOk ∧ new.2.code = old.2.code ∧ new.2.frame.vars.map (·.name) =
      ["my_x", "my_p"] := by
  have hinj : Function.Injective ("my_" ++ · : String → String) :=
    fun a b h => String.append_right_inj _ |>.1 h
  have hok : ((Session.fresh .serial).run (Build.compile naming)).1.isOk := by decide +kernel
  obtain ⟨hsame, htables⟩ := compile_renamed .serial hinj naming
  obtain ⟨hcode, hframe, -⟩ := htables hok
  refine ⟨hok, hsame ▸ hok, hcode, ?_⟩
  rw [hframe]
  decide +kernel

end OnePass
