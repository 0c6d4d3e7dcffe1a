import Mathlib
import OnePass.Proofs.Naming

namespace OnePass

namespace Build

open Link

variable {s t : Session} {i : Nat} {ts us rest : List Token}

theorem fails_terms_of_forall (i : Nat) (h : ∀ tok ∈ ts, tok.type ≠ .semicolon) :
    Fails ((terms i ts).run s) := by
  -- a call takes two tokens at once
  induction hn : ts.length using Nat.strong_induction_on generalizing s i ts with
  | _ n ih =>
    subst hn
    cases ts with
    | nil =>
      rw [terms, EStateM.run_bind, EStateM.run_get]
      exact fails_error _ _
    | cons tok rest =>
      obtain ⟨htok, hrest⟩ := List.forall_mem_cons.1 h
      intro a u hrun
      rcases terms_cons i tok rest with ⟨hsemi, -⟩ | ⟨o, rest', rfl, -, -, heq⟩ | ⟨-, -, heq⟩
      · exact htok hsemi
      · rw [heq] at hrun
        obtain ⟨_, v, -, hterms⟩ := run_bind_eq_ok.1 hrun
        exact ih _ (by simp) _ (List.forall_mem_cons.1 hrest).2 rfl _ _ hterms
      · rw [heq] at hrun
        obtain ⟨_, v, -, hterms⟩ := run_bind_eq_ok.1 hrun
        exact ih _ (by simp) _ hrest rfl _ _ hterms

theorem semicolon_of_statement (h : (statement i ts).run s = .ok () t) :
    ∃ tok ∈ ts, tok.type = .semicolon := by
  by_contra hnone
  push Not at hnone
  cases ts with
  | nil => exact fails_terms_of_forall i hnone () t h
  | cons tok rest =>
    rw [run_statement_cons] at h
    split at h
    · obtain ⟨n, u, -, hterms⟩ := run_bind_eq_ok.1 h
      refine fails_terms_of_forall _ (fun tok hmem => ?_) _ _ hterms
      exact hnone tok (List.mem_cons_of_mem _ (List.mem_of_mem_drop hmem))
    · exact fails_terms_of_forall i hnone _ _ h

/-- What follows the semicolon does not matter to a statement. -/
theorem terms_append (i : Nat) (us : List Token) (h : ∃ tok ∈ ts, tok.type = .semicolon) :
    terms i (ts ++ us) = terms i ts := by
  induction hn : ts.length using Nat.strong_induction_on generalizing i ts with
  | _ n ih =>
    subst hn
    cases ts with
    | nil => simp at h
    | cons tok rest =>
      rcases terms_cons i tok rest with ⟨hsemi, heq⟩ | ⟨o, rest', rfl, hid, ho, heq⟩ |
        ⟨hsemi, hname, heq⟩
      · rw [heq, List.cons_append, terms_semicolon i _ hsemi]
      · have hrest : ∃ tok ∈ rest', tok.type = .semicolon := by simpa [hid, ho] using h
        rw [heq, List.cons_append, List.cons_append, terms_call i _ hid ho,
          ih _ (by simp) _ hrest rfl]
      · have hrest : ∃ tok ∈ rest, tok.type = .semicolon := by simpa [hsemi] using h
        have hends : tok.type = .identifier → EndsName (rest ++ us) := by
          intro hid
          cases rest with
          | nil => simp at hrest
          | cons next rest => exact hname hid
        rw [heq, List.cons_append, terms_shift i hsemi hends, ih _ (by simp) _ hrest rfl]

theorem isTyped_append (us : List Token) (h : ∃ tok ∈ ts, tok.type = .semicolon) :
    isTyped (ts ++ us) = isTyped ts := by
  cases ts with
  | nil => simp at h
  | cons tok rest =>
    cases rest with
    | nil =>
      have hsemi : tok.type = .semicolon := by simpa using h
      simp [isTyped, hsemi]
    | cons next rest => rfl

theorem takeWhile_isStar_append (us : List Token) (h : ∃ tok ∈ ts, tok.type = .semicolon) :
    (ts ++ us).takeWhile Token.isStar = ts.takeWhile Token.isStar := by
  induction ts with
  | nil => simp at h
  | cons tok rest ih =>
    by_cases hstar : tok.isStar
    · have hne : tok.type ≠ .semicolon := by
        intro hsemi
        simp [Token.isStar, hsemi] at hstar
      rw [List.cons_append, List.takeWhile_cons_of_pos hstar, List.takeWhile_cons_of_pos hstar,
        ih (by simpa [hne] using h)]
    · rw [List.cons_append, List.takeWhile_cons_of_neg hstar, List.takeWhile_cons_of_neg hstar]

theorem declaredType_append (us : List Token) (h : ∃ tok ∈ ts, tok.type = .semicolon) :
    declaredType (ts ++ us) = declaredType ts := by
  have htyped := isTyped_append us h
  cases ts with
  | nil => simp at h
  | cons tok rest =>
    rw [List.cons_append] at htyped ⊢
    unfold declaredType
    dsimp only
    rw [htyped]
    by_cases ht : isTyped (tok :: rest)
    · have hne : tok.type ≠ .semicolon := by
        intro hsemi
        simp [isTyped, hsemi] at ht
      rw [if_pos ht, if_pos ht, takeWhile_isStar_append us (by simpa [hne] using h)]
    · rw [if_neg ht, if_neg ht]

theorem run_openDeclaration_append (i : Nat) (us : List Token)
    (h : ∃ tok ∈ ts, tok.type = .semicolon) :
    (openDeclaration i (ts ++ us)).run s = (openDeclaration i ts).run s := by
  have hopen (ts : List Token) : openDeclaration i ts =
      declaredType ts >>= fun p => nameDeclaration i ts p.1 p.2 := rfl
  rw [hopen, hopen, declaredType_append us h, EStateM.run_bind, EStateM.run_bind]
  cases hrun : (declaredType ts).run s with
  | error e t => rfl
  | ok p t =>
    obtain ⟨type, n⟩ := p
    obtain ⟨rfl, rfl⟩ := length_declaredType hrun
    obtain ⟨semi, hmem, -⟩ := semicolon_of_typeLength h
    -- the semicolon is behind the type, so the name is among the tokens of the first part
    have hlt : typeLength ts < ts.length := by
      by_contra hle
      rw [List.drop_eq_nil_of_le (by omega)] at hmem
      simp at hmem
    have hname (e : Token) :
        ((ts ++ us).drop (typeLength ts)).headD e = (ts.drop (typeLength ts)).headD e := by
      rw [List.drop_append_of_le_length hlt.le]
      cases hdrop : ts.drop (typeLength ts) with
      | nil => simp [hdrop] at hmem
      | cons name rest => rfl
    dsimp only
    unfold nameDeclaration
    simp only [hname, isTyped_append us h]

/-- The semicolon of a declaration comes after its name. -/
theorem semicolon_openDeclaration {n : Nat} (h : ∃ tok ∈ ts, tok.type = .semicolon)
    (hrun : (openDeclaration i ts).run s = .ok n t) : ∃ tok ∈ ts.drop n, tok.type = .semicolon := by
  have hrun' : (declaredType ts >>= fun p => nameDeclaration i ts p.1 p.2).run s = .ok n t := hrun
  obtain ⟨⟨type, k⟩, u, htype, hname⟩ := run_bind_eq_ok.1 hrun'
  obtain ⟨rfl, rfl⟩ := length_declaredType htype
  obtain ⟨rfl, -⟩ := expect_nameDeclaration hname
  refine semicolon_after_name h fun name hhead => ?_
  obtain ⟨rest, hdrop⟩ := List.head?_eq_some_iff.1 hhead
  by_contra hne
  exact fails_nameDeclaration (by simpa [hdrop] using hne) _ _ hname

theorem run_statement_append (i : Nat) (us : List Token)
    (h : ∃ tok ∈ ts, tok.type = .semicolon) :
    (statement i (ts ++ us)).run s = (statement i ts).run s := by
  cases ts with
  | nil => simp at h
  | cons tok rest =>
    rw [List.cons_append, run_statement_cons, run_statement_cons]
    by_cases hvar : tok.type = .var
    · have hrest : ∃ tok ∈ rest, tok.type = .semicolon := by simpa [hvar] using h
      rw [if_pos hvar, if_pos hvar, declared, declared, EStateM.run_bind, EStateM.run_bind,
        run_openDeclaration_append (i + 1) us hrest]
      cases hopen : (openDeclaration (i + 1) rest).run (begun s) with
      | error e t => rfl
      | ok n t =>
        obtain ⟨semi, hmem, hsemi⟩ := semicolon_openDeclaration hrest hopen
        have hle : n ≤ rest.length := by
          by_contra hgt
          rw [List.drop_eq_nil_of_le (by omega)] at hmem
          simp at hmem
        dsimp only
        rw [List.drop_append_of_le_length hle, terms_append _ us ⟨semi, hmem, hsemi⟩]
    · rw [if_neg hvar, if_neg hvar, ← List.cons_append, terms_append i us h]

theorem afterSemicolon_append_of_exists (us : List Token)
    (h : ∃ tok ∈ ts, tok.type = .semicolon) :
    afterSemicolon (ts ++ us) = afterSemicolon ts ++ us := by
  induction ts with
  | nil => simp at h
  | cons tok rest ih =>
    unfold afterSemicolon at ih ⊢
    by_cases hsemi : tok.type = .semicolon
    · simp [hsemi]
    · simpa [hsemi] using ih (by simpa [hsemi] using h)

end Build

namespace StructDef

variable {d : StructDef} {l l' : Layout} {ts rest : List Token}

theorem dropWhile_isStar_append {fields : List Token} (us : List Token)
    (h : rest.dropWhile Token.isStar = fields) (hne : fields ≠ []) :
    (rest ++ us).dropWhile Token.isStar = fields ++ us ∧
      (rest ++ us).takeWhile Token.isStar = rest.takeWhile Token.isStar := by
  induction rest with
  | nil => exact absurd h.symm hne
  | cons tok rest ih =>
    by_cases hstar : tok.isStar
    · rw [List.dropWhile_cons_of_pos hstar] at h
      simpa [hstar] using ih h
    · rw [List.dropWhile_cons_of_neg hstar] at h
      simp [hstar, ← h]

/-- What follows a definition does not matter to it, nor does the end of the source. -/
theorem body_append (atEnd : Token) (us : List Token) (h : d.body l ts = .ok (l', rest)) :
    ({ d with atEnd } : StructDef).body l (ts ++ us) = .ok (l', rest ++ us) := by
  fun_induction body d l ts with
  | case2 l tok rest' htok =>
    cases h
    rw [List.cons_append, body_cons, htok]
  | case10 l tok rest' base hbase name hid type l'' hadd semi rest'' hdrop hsemi hclose heof _ ih =>
    obtain ⟨hdrop', htake⟩ := dropWhile_isStar_append us hdrop (by simp)
    have hadd' : ({ d with atEnd } : StructDef).addField l
        ⟨base, (rest'.takeWhile Token.isStar).length⟩ (({ d with atEnd } : StructDef).isSelf tok)
        name = .ok l'' := hadd
    rw [List.cons_append, body_cons]
    split
    · contradiction
    · contradiction
    · rw [field, show ({ d with atEnd } : StructDef).resolve tok = some base from hbase, hdrop',
        htake]
      simp only [fieldEnd, List.cons_append, hid, hadd', hsemi, if_false]
      exact ih h
  | _ => simp_all [stop]

theorem skipSemicolon_append (us : List Token) (h : ts ≠ []) :
    skipSemicolon (ts ++ us) = skipSemicolon ts ++ us := by
  cases ts with
  | nil => exact absurd rfl h
  | cons tok rest =>
    simp only [List.cons_append, skipSemicolon]
    split <;> rfl

theorem parse_append {types : Registry} {e : Token} {b : TypeInfo} (e' : Token) (us : List Token)
    (h : parse types e ts = .ok (b, rest)) :
    parse types e' (ts ++ us) = .ok (b, rest ++ us) ∨
      rest = [] ∧ parse types e' (ts ++ us) = .ok (b, skipSemicolon us) := by
  obtain ⟨name, brace, fields, l, after, rfl, hid, hfree, hbrace, hbody, hfields, rfl, rfl⟩ :=
    parse_eq_ok_iff.1 h
  have hparse : parse types e' (name :: brace :: fields ++ us) =
      .ok ({ (⟨types, name.name, e⟩ : StructDef).self with size := l.size, fields := l.fields },
        skipSemicolon (after ++ us)) :=
    parse_eq_ok_iff.2 ⟨name, brace, fields ++ us, l, after ++ us, rfl, hid, hfree, hbrace,
      body_append e' us hbody, hfields, rfl, rfl⟩
  cases after with
  | nil => exact .inr ⟨rfl, hparse⟩
  | cons tok post =>
    left
    rw [hparse, skipSemicolon_append us (by simp)]

end StructDef

namespace Link

open Build

/-- The first part of a source and the whole of it. -/
def front (t₁ t₂ : List Token) : Link :=
  ⟨t₁.toArray, (t₁ ++ t₂).toArray, 0, id, fun _ => True, Function.injective_id, fun _ _ => trivial⟩

def back (t₁ t₂ : List Token) : Link :=
  ⟨t₂.toArray, (t₁ ++ t₂).toArray, t₁.length, id, fun _ => True, Function.injective_id,
    fun _ _ => trivial⟩

variable {t₁ t₂ : List Token} {s s' t : Session} {i j : Nat} {tok : Token} {rest next : List Token}

theorem run_statement_front (hst : (front t₁ t₂).Between s t) (hdrop : t₁.drop i = rest)
    (hrun : (statement i rest).run s = .ok () s') :
    ∃ t', (front t₁ t₂).Between s' t' ∧ (statement i (rest ++ t₂)).run t = .ok () t' ∧
      afterSemicolon (rest ++ t₂) = afterSemicolon rest ++ t₂ := by
  have hsemi := semicolon_of_statement hrun
  have hle : i ≤ t₁.length := by
    by_contra hgt
    rw [List.drop_eq_nil_of_le (by omega)] at hdrop
    simp [← hdrop] at hsemi
  have hal : (front t₁ t₂).Aligned i rest := by
    have hs : (front t₁ t₂).source.toList.drop i = rest ++ [] := by simp [front, hdrop]
    have ht : (front t₁ t₂).target.toList.drop (i + (front t₁ t₂).shift) =
        renameTokens (front t₁ t₂).rename rest ++ t₂ := by
      simp [front, List.drop_append_of_le_length hle, hdrop]
    exact aligned_of_drop hs ht fun _ _ => ⟨fun _ => trivial, fun _ _ => trivial⟩
  have hends := ends_statement hal (.inr hsemi) hst
  rw [hrun] at hends
  obtain ⟨_, t', ht', hst'⟩ := hends.exists_ok
  refine ⟨t', hst', ?_, afterSemicolon_append_of_exists t₂ hsemi⟩
  rw [run_statement_append i t₂ hsemi, ← ht']
  simp [front]

/-- Where the source is cut after a struct, the whole of it may go on behind a semicolon. -/
def Cut (t₂ next post : List Token) (j k : Nat) : Prop :=
  (k = j ∧ post = next ++ t₂) ∨
    (k = j + 1 ∧ next = [] ∧ ∃ semi, t₂ = semi :: post ∧ semi.type = .semicolon)

theorem run_struct_front (hst : (front t₁ t₂).Between s t) (htype : tok.type = .struct)
    (hrun : (item i tok rest).run s = .ok (j, next) s') :
    ∃ t' k post, (front t₁ t₂).Between s' t' ∧ (item i tok (rest ++ t₂)).run t = .ok (k, post) t' ∧
      Cut t₂ next post j k := by
  obtain ⟨b, hparse, rfl, rfl⟩ := (run_item_struct htype).1 hrun
  have hle := StructDef.length_parse hparse
  have htypes : t.types = s.types := by rw [hst.types]; exact Registry.renamed_id _
  let v := { t with
    types := t.types.insert b.name b
    trace := t.trace.push (.struct b.name b.size b.fields.length) }
  have hst' : (front t₁ t₂).Between { s with
      types := s.types.insert b.name b
      trace := s.trace.push (.struct b.name b.size b.fields.length) } v := by
    have hinsert : t.types.insert b.name b = (s.types.insert b.name b).renamed id := by
      rw [htypes, Registry.renamed_id]
    exact { hst with types := hinsert }
  have hdone {post : List Token}
      (h : StructDef.parse s.types t.endToken (rest ++ t₂) = .ok (b, post)) :
      (item i tok (rest ++ t₂)).run t =
        .ok (i + ((rest ++ t₂).length + 1 - post.length), post) v := by
    rw [← htypes] at h
    exact (run_item_struct htype).2 ⟨b, h, rfl, rfl⟩
  -- a definition at the end of the first part takes a semicolon of the second along
  rcases StructDef.parse_append t.endToken t₂ hparse with h | ⟨rfl, h⟩
  · refine ⟨v, _, _, hst', hdone h, .inl ⟨?_, rfl⟩⟩
    simp only [List.length_append] at hle ⊢
    omega
  · refine ⟨v, _, _, hst', hdone h, ?_⟩
    cases t₂ with
    | nil => exact .inl ⟨by simp [StructDef.skipSemicolon], rfl⟩
    | cons semi post =>
      by_cases hsemi : semi.type = .semicolon
      · refine .inr ⟨?_, rfl, semi, ?_, hsemi⟩
        · simp only [StructDef.skipSemicolon, hsemi, if_true, List.length_append, List.length_cons,
            List.length_nil]
          omega
        · simp [StructDef.skipSemicolon, hsemi]
      · refine .inl ⟨?_, ?_⟩
        · simp only [StructDef.skipSemicolon, hsemi, if_false, List.length_append, List.length_cons,
            List.length_nil]
          omega
        · simp [StructDef.skipSemicolon, hsemi]

/-- An item of the first part is compiled in the whole source as it is by itself. -/
theorem run_item_front (hst : (front t₁ t₂).Between s t) (hdrop : t₁.drop i = tok :: rest)
    (hrun : (item i tok rest).run s = .ok (j, next) s') :
    ∃ t' k post, (front t₁ t₂).Between s' t' ∧ (item i tok (rest ++ t₂)).run t = .ok (k, post) t' ∧
      Cut t₂ next post j k := by
  by_cases htype : tok.type = .struct
  · exact run_struct_front hst htype hrun
  -- a brace is one token, so only the sessions it leads to are to be compared
  have hbrace {m : Build Unit}
      (hm : (front t₁ t₂).Ends (fun _ s _ t => (front t₁ t₂).Between s t) (m.run s) (m.run t))
      (hrun : (m >>= fun _ => pure (i + 1, rest)).run s = .ok (j, next) s') :
      ∃ t' k post, (front t₁ t₂).Between s' t' ∧
        (m >>= fun _ => pure (i + 1, rest ++ t₂)).run t = .ok (k, post) t' ∧
        Cut t₂ next post j k := by
    obtain ⟨_, u, hu, hpure⟩ := run_bind_eq_ok.1 hrun
    cases hpure
    rw [hu] at hm
    obtain ⟨_, t', ht', hst'⟩ := hm.exists_ok
    exact ⟨t', _, _, hst', run_bind_ok ht', .inl ⟨rfl, rfl⟩⟩
  unfold item at hrun ⊢
  split at hrun
  · exact absurd ‹_› htype
  · exact hbrace (ends_openBlock hst) hrun
  · exact hbrace (ends_closeBlock ⟨rfl, rfl, rfl, fun _ => rfl⟩ hst) hrun
  · obtain ⟨_, u, hstmt, hpure⟩ := run_bind_eq_ok.1 hrun
    cases hpure
    obtain ⟨t', hst', hrun', hafter⟩ := run_statement_front hst hdrop hstmt
    rw [List.cons_append] at hrun' hafter
    have hlt := length_afterSemicolon_lt tok rest
    refine ⟨t', _, _, hst', run_bind_ok hrun', .inl ⟨?_, hafter⟩⟩
    rw [hafter, List.length_append, List.length_append]
    rw [List.length_cons] at hlt
    omega

theorem eq_of_endSource (h : (endSource tok).run s = .ok () s') : s' = s := by
  unfold endSource at h
  rw [EStateM.run_bind, EStateM.run_get] at h
  dsimp only at h
  split at h <;> cases h
  rfl

/-- After its first part the whole source goes on with the second one. -/
theorem run_items_front (hst : (front t₁ t₂).Between s t) (hs : s.Orderly 0)
    (hdrop : t₁.drop i = rest) (hlen : i + rest.length = t₁.length)
    (heof : ∀ tok ∈ t₁, tok.type ≠ .eof) (hrun : (items i rest).run s = .ok () s') :
    ∃ t' k post, (front t₁ t₂).Between s' t' ∧
      (items i (rest ++ t₂)).run t = (items k post).run t' ∧ Cut t₂ [] post t₁.length k := by
  -- every item leaves a shorter rest
  induction hn : rest.length using Nat.strong_induction_on generalizing s t i rest with
  | _ n ih =>
    cases rest with
    | nil =>
      rw [items, EStateM.run_bind, EStateM.run_get] at hrun
      obtain rfl := eq_of_endSource hrun
      exact ⟨t, i, t₂, hst, rfl, .inl ⟨by simpa using hlen, rfl⟩⟩
    | cons tok rest =>
      have htok : tok.type ≠ .eof := by
        apply heof
        apply List.mem_of_mem_drop (i := i)
        rw [hdrop]
        exact List.mem_cons_self
      rw [items_cons _ _ htok] at hrun
      obtain ⟨⟨j, next⟩, u, hitem, hrest⟩ := run_bind_eq_ok.1 hrun
      have hproper := proper_item i tok rest hs
      rw [hitem] at hproper
      obtain ⟨-, hu, hsuffix, hlt, hj⟩ := hproper
      dsimp only at hsuffix hlt hj
      have hdrop' : t₁.drop j = next := by
        rw [hj]
        exact drop_of_suffix hdrop hsuffix
      have hlen' : j + next.length = t₁.length := by omega
      obtain ⟨t', k, post, hst', hitem', hcut⟩ := run_item_front hst hdrop hitem
      rw [List.cons_append, items_cons _ _ htok, run_bind_ok hitem']
      rcases hcut with ⟨rfl, rfl⟩ | ⟨rfl, rfl, hsemi⟩
      · exact ih _ (hn ▸ hlt) hst' hu hdrop' hlen' hrest rfl
      · rw [items, EStateM.run_bind, EStateM.run_get] at hrest
        obtain rfl := eq_of_endSource hrest
        exact ⟨t', _, _, hst', rfl, .inr ⟨by simpa using hlen', rfl, hsemi⟩⟩

theorem run_empty (hs : s.Orderly 0) (htok : tok.type = .semicolon) :
    (item 0 tok rest).run s = .ok (1, rest) (begun s) := by
  have hterms : (terms 0 (tok :: rest)).run (begun s) = .ok () (begun s) := by
    rw [terms_semicolon 0 rest htok]
    have hconclude := run_conclude tok (begun s)
    rw [if_neg (by simp [begun])] at hconclude
    have hreduce : (reduce 0).run (begun s) = .ok () (begun s) := by
      rw [reduce, EStateM.run_bind, EStateM.run_get]
      exact congrArg (EStateM.run · (begun s)) (reduceStack_nil 0)
    have hwords : temporaries (begun s).frame = .ok (wrap 0) := hs.temporaries
    rw [hconclude, run_bind_ok hreduce, settleStack_nil rfl, checkWords, EStateM.run_bind,
      EStateM.run_get]
    dsimp only
    rw [hwords]
    rfl
  have hstmt : (statement 0 (tok :: rest)).run s = .ok () (begun s) := by
    rw [run_statement_cons, if_neg (by simp [htok]), hterms]
  unfold item
  rw [htok]
  dsimp only
  rw [run_bind_ok hstmt]
  simp [afterSemicolon, htok]

/-- The second part of a source compiles by itself as it does in the whole. -/
theorem ends_back {k : Nat} {post : List Token} (hne : t₂ ≠ [])
    (hst : (back t₁ t₂).Between s t) (hk : t₂.drop k = post) :
    (back t₁ t₂).Ends (fun _ s _ t => (back t₁ t₂).Between s t) ((items k post).run s)
      ((items (k + t₁.length) post).run t) := by
  have he : (back t₁ t₂).SameEnd := by
    simp [SameEnd, Session.endToken, back, List.getLast?_append,
      List.getLast?_eq_getLast_of_ne_nil hne]
  have hal : (back t₁ t₂).Aligned k post := by
    have hs : (back t₁ t₂).source.toList.drop k = post ++ [] := by simp [back, hk]
    have ht : (back t₁ t₂).target.toList.drop (k + (back t₁ t₂).shift) =
        renameTokens (back t₁ t₂).rename post ++ [] := by
      simp [back, ← hk, Nat.add_comm k, ← List.drop_drop]
    exact aligned_of_drop hs ht fun _ _ => ⟨fun _ => trivial, fun _ _ => trivial⟩
  have := ends_items he hal hst
  simpa [back] using this

end Link

/-- A source compiled in two parts ends as it does in one piece, wherever it is cut after an
accepted part: both succeed, or both stop with the same report, and the types, the frame and the
code are the same. -/
theorem incremental_eq_batch {ids : IdSupply} {t₁ t₂ : List Token} {s : Session}
    (heof : ∀ tok ∈ t₁, tok.type ≠ .eof) (hne : t₂ ≠ [])
    (h₁ : (Session.fresh ids).run (Build.compile t₁) = (.ok (), s)) :
    let parts := s.run (Build.compile t₂)
    let whole := (Session.fresh ids).run (Build.compile (t₁ ++ t₂))
    whole.1.mapError Stop.shown = parts.1.mapError Stop.shown ∧ parts.2.Alike whole.2 := by
  have hrun : (Build.compile t₁).run (.fresh ids) = .ok () s := by
    unfold Session.run at h₁
    cases hr : EStateM.run (Build.compile t₁) (.fresh ids) with
    | ok a t =>
      rw [hr] at h₁
      cases h₁
      rfl
    | error e t =>
      rw [hr] at h₁
      cases h₁
  have hs : s.Orderly 0 := by
    have := Build.proper_compile (s := .fresh ids) t₁ Session.orderly_fresh
    rwa [hrun] at this
  have hst₀ : (Link.front t₁ t₂).Between { Session.fresh ids with tokens := t₁.toArray }
      { Session.fresh ids with tokens := (t₁ ++ t₂).toArray } :=
    ⟨rfl, rfl, rfl, rfl, rfl, by simp [Session.fresh]⟩
  obtain ⟨t, k, post, hst, hwhole, hcut⟩ := Link.run_items_front hst₀
    (Session.orderly_fresh.congr rfl rfl) List.drop_zero (Nat.zero_add _) heof hrun
  have hst' : (Link.back t₁ t₂).Between { s with tokens := t₂.toArray } t :=
    ⟨rfl, hst.target, hst.types, hst.frame, hst.code, fun _ _ => trivial⟩
  have hends : (Link.back t₁ t₂).Ends (fun _ s _ t => (Link.back t₁ t₂).Between s t)
      ((Build.compile t₂).run s) ((Build.compile (t₁ ++ t₂)).run (.fresh ids)) := by
    have hwhole' : (Build.compile (t₁ ++ t₂)).run (.fresh ids) = (Build.items k post).run t :=
      hwhole
    rw [hwhole']
    rcases hcut with ⟨rfl, rfl⟩ | ⟨rfl, -, semi, rfl, hsemi⟩
    · have := Link.ends_back (k := 0) hne hst' rfl
      rwa [Nat.zero_add] at this
    · -- the semicolon after a struct is an empty statement of the second part
      have hempty : (Build.compile (semi :: post)).run s = (Build.items 1 post).run
          (Build.begun { s with tokens := (semi :: post).toArray }) := by
        have hs' : Session.Orderly 0 { s with tokens := (semi :: post).toArray } :=
          hs.congr rfl rfl
        have hrest : (Build.item 0 semi post).run _ = _ := Link.run_empty hs' hsemi
        unfold Build.compile
        rw [EStateM.run_bind, EStateM.run_modify]
        dsimp only
        rw [Build.items_cons _ _ (by simp [hsemi]), Build.run_bind_ok hrest]
      have hbegun := (Link.linked_begun hst').toBetween
      have := Link.ends_back (k := 1) hne ⟨hbegun.source, hst'.target, hbegun.types, hbegun.frame,
        hbegun.code, hbegun.allowed⟩ rfl
      rw [hempty]
      rwa [Nat.add_comm] at this
  unfold Session.run
  cases hparts : (Build.compile t₂).run s <;>
    cases hwhole : (Build.compile (t₁ ++ t₂)).run (.fresh ids) <;> rw [hparts, hwhole] at hends
  · exact ⟨rfl, hends.alike rfl⟩
  · exact hends.elim
  · exact hends.elim
  · obtain ⟨hshown, halike⟩ := hends rfl
    exact ⟨congrArg Except.error hshown, halike⟩

/-- A struct, cut off from the semicolon after it. -/
def definingAlone : List Token := tokensOf "struct pair \x7b u16 a; pair *b; \x7d"

/-- The semicolon, two declarations, and an assignment to a variable that is not declared. -/
def storingUndeclared : List Token := tokensOf "; var pair p; var u16 x = f(3);\n y = x;"

theorem incremental_eq_batch_undeclared :
    let s := ((Session.fresh .serial).run (Build.compile definingAlone)).2
    let parts := s.run (Build.compile storingUndeclared)
    let whole := (Session.fresh .serial).run (Build.compile (definingAlone ++ storingUndeclared))
    parts.1.mapError Stop.shown =
        .error (.ok ⟨.parse, 2, "undefined variable \"y\"", "undefined name"⟩) ∧
      whole.1.mapError Stop.shown = parts.1.mapError Stop.shown ∧ parts.2.Alike whole.2 := by
  intro s parts whole
  have hok : ((Session.fresh .serial).run (Build.compile definingAlone)).1 = .ok () := by
    decide +kernel
  have hrun : (Session.fresh .serial).run (Build.compile definingAlone) = (.ok (), s) :=
    Prod.ext hok rfl
  exact ⟨by decide +kernel,
    incremental_eq_batch (by decide +kernel) (by decide +kernel) hrun⟩

end OnePass
