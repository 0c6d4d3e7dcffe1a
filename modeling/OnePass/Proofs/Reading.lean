import Mathlib
import OnePass.Proofs.Programs

namespace OnePass

def FieldDecl.read : List Token → Option (List FieldDecl × List Token)
  | [] => none
  | tok :: rest =>
    if tok.type = .rbrace then some ([], rest)
    else if tok.type ∈ [.u16, .i16, .void, .identifier] then
      match _h : rest.dropWhile Token.isStar with
      | name :: semi :: rest' =>
        if name.type = .identifier ∧ semi.type = .semicolon then
          (read rest').map fun p =>
            (⟨tok, (rest.takeWhile Token.isStar).length, name.name⟩ :: p.1, p.2)
        else none
      | _ => none
    else none
termination_by ts => ts.length
decreasing_by
  have := (List.dropWhile_sublist (l := rest) Token.isStar).length_le
  simp only [_h, List.length_cons] at this ⊢
  omega

namespace Item

def read : List Token → Option (Item × List Token)
  | [] => none
  | tok :: rest =>
    match tok.type with
    | .struct =>
      match rest with
      | name :: o :: rest' =>
        if name.type = .identifier ∧ o.type = .lbrace then
          (FieldDecl.read rest').map fun p => (.struct name.name p.1, p.2)
        else none
      | _ => none
    | .lbrace => some (.openBlock, rest)
    | .rbrace => some (.closeBlock, rest)
    | _ =>
      (Parse.parse (fun _ => true) (tok :: rest)).map fun s =>
        (.stmt s, Build.afterSemicolon (tok :: rest))

end Item

variable {ts us post : List Token}

theorem DerivesFields.read {fields : List FieldDecl} {c : Token} (h : DerivesFields ts fields)
    (hc : c.type = .rbrace) : FieldDecl.read (ts ++ c :: post) = some (fields, post) := by
  induction h with
  | nil => simp [FieldDecl.read, hc]
  | @cons type name semi stars ts fields ht hs hn hsemi h ih =>
    have hbrace : type.type ≠ .rbrace := by
      rintro heq
      simp [heq] at ht
    obtain ⟨htake, hdrop⟩ := span_stars hs hn (semi :: (ts ++ c :: post))
    simp only [List.cons_append, List.append_assoc]
    rw [FieldDecl.read, if_neg hbrace, if_pos ht, htake]
    split
    · rename_i name' semi' rest' heq
      rw [hdrop, List.cons.injEq, List.cons.injEq] at heq
      obtain ⟨rfl, rfl, rfl⟩ := heq
      rw [if_pos ⟨hn, hsemi⟩, ih]
      rfl
    · rename_i hne
      exact absurd hdrop (hne _ _ _)

/-- An expression has no token that separates items. -/
theorem Derives.ne_separator {level : Level} {e : Expr} (h : Derives level ts e) :
    ∀ t ∈ ts, t.type ≠ .semicolon ∧ t.type ≠ .struct ∧ t.type ≠ .lbrace ∧ t.type ≠ .rbrace := by
  induction h <;> grind

theorem Derives.ne_nil {level : Level} {e : Expr} (h : Derives level ts e) : ts ≠ [] := by
  induction h <;> simp_all

/-- A statement ends at its first semicolon, and begins with a token that begins nothing else. -/
theorem DerivesStmt.shape {stmt : Stmt} (h : DerivesStmt ts stmt) :
    ∃ us semi, ts = us ++ [semi] ∧ (∀ t ∈ us, t.type ≠ .semicolon) ∧ semi.type = .semicolon ∧
      ∀ t ∈ (us ++ [semi]).head?, t.type ≠ .struct ∧ t.type ≠ .lbrace ∧ t.type ≠ .rbrace := by
  -- a tree has a first token, and no separator is in it
  have hhead {level : Level} {us vs : List Token} {e : Expr} (h : Derives level us e) :
      ∀ t ∈ (us ++ vs).head?, t.type ≠ .struct ∧ t.type ≠ .lbrace ∧ t.type ≠ .rbrace := by
    intro t ht
    cases us with
    | nil => exact absurd rfl h.ne_nil
    | cons u us =>
      obtain rfl := Option.some.inj ht
      exact (h.ne_separator u (by simp)).2
  cases h with
  | @empty semi hs => exact ⟨[], semi, rfl, by simp, hs, by simp [hs]⟩
  | @expr ts semi e h hs =>
    exact ⟨ts, semi, rfl, fun t ht => (h.ne_separator t ht).1, hs, hhead h⟩
  | @assign ts us t semi l r hl ht hr hs =>
    refine ⟨ts ++ t :: us, semi, rfl, fun u hu => ?_, hs, by rw [List.append_assoc]; exact hhead hl⟩
    rcases List.mem_append.1 hu with hu | hu
    · exact (hl.ne_separator u hu).1
    · rcases List.mem_cons.1 hu with rfl | hu
      · simp [ht]
      · exact (hr.ne_separator u hu).1
  | @var v semi ts d hv hd hs =>
    refine ⟨v :: ts, semi, rfl, List.forall_mem_cons.2 ⟨by simp [hv], hd.ne_semicolon⟩, hs, ?_⟩
    simp [hv]
  | @varValue v t semi ts us d e hv hd ht he hs =>
    refine ⟨v :: ts ++ t :: us, semi, by simp, fun u hu => ?_, hs, by simp [hv]⟩
    rcases List.mem_append.1 hu with hu | hu
    · rcases List.mem_cons.1 hu with rfl | hu
      · simp [hv]
      · exact hd.ne_semicolon u hu
    · rcases List.mem_cons.1 hu with rfl | hu
      · simp [ht]
      · exact (he.ne_separator u hu).1

theorem afterSemicolon_append {semi : Token} (hts : ∀ t ∈ ts, t.type ≠ .semicolon)
    (hsemi : semi.type = .semicolon) : Build.afterSemicolon (ts ++ semi :: post) = post := by
  rw [Build.afterSemicolon, List.dropWhile_append_of_pos (by simpa using hts),
    List.dropWhile_cons_of_neg (by simp [hsemi]), List.tail_cons]

/-- An item is read back, whatever follows it. -/
theorem DerivesItem.read {item : Item} (h : DerivesItem ts item) :
    Item.read (ts ++ post) = some (item, post) := by
  cases h with
  | @struct s name o c ts fields hs hn ho h hc =>
    have hfields : FieldDecl.read (ts ++ c :: post) = _ := h.read hc
    simp [Item.read, hs, hn, ho, hfields]
  | openBlock ho => simp [Item.read, ho]
  | closeBlock hc => simp [Item.read, hc]
  | @stmt ts stmt h =>
    obtain ⟨us, semi, rfl, hus, hsemi, hhead⟩ := h.shape
    have hpass : Parse.passes (fun _ => true) stmt := by
      cases stmt with
      | var d value => cases value <;> rfl
      | _ => rfl
    have hparse : Parse.parse (fun _ => true) (us ++ semi :: post) = some stmt :=
      Parse.parse_append ⟨id, id, id, id, id, id⟩ h hpass
    have hafter : Build.afterSemicolon (us ++ semi :: post) = post :=
      afterSemicolon_append hus hsemi
    obtain ⟨tok, rest, heq⟩ : ∃ tok rest, us ++ semi :: post = tok :: rest := by
      cases us <;> simp
    have htok : tok ∈ (us ++ [semi]).head? := by
      cases us <;> simp_all
    obtain ⟨hstruct, hopen, hclose⟩ := hhead tok htok
    rw [List.append_assoc, List.singleton_append, heq]
    rw [heq] at hparse hafter
    unfold Item.read
    dsimp only
    split
    · contradiction
    · contradiction
    · contradiction
    · rw [hparse, hafter]
      rfl

theorem FieldDecl.length_read {fields : List FieldDecl} (h : read ts = some (fields, post)) :
    post.length < ts.length := by
  fun_induction read ts generalizing fields with
  | case2 tok rest htok =>
    cases h
    simp
  | case3 tok rest htok htype name semi rest' hdrop hname ih =>
    obtain ⟨p, hp, heq⟩ := Option.map_eq_some_iff.1 h
    cases heq
    have hlt := ih hp
    have hle := (List.dropWhile_sublist (l := rest) Token.isStar).length_le
    simp only [hdrop, List.length_cons] at hle ⊢
    omega
  | _ => cases h

theorem Item.length_read {item : Item} (h : read ts = some (item, post)) :
    post.length < ts.length := by
  unfold read at h
  split at h
  · cases h
  split at h
  · split at h
    · split at h
      · obtain ⟨p, hp, heq⟩ := Option.map_eq_some_iff.1 h
        cases heq
        have := FieldDecl.length_read hp
        simp only [List.length_cons]
        omega
      · cases h
    · cases h
  · cases h
    simp
  · cases h
    simp
  · rename_i tok rest _ _ _ _
    obtain ⟨s, hs, heq⟩ := Option.map_eq_some_iff.1 h
    cases heq
    exact Build.length_afterSemicolon_lt tok rest

/-- Reads a whole source. -/
def Item.readAll (ts : List Token) : Option (List Item) :=
  match ts with
  | [] => some []
  | tok :: ts =>
    match _h : read (tok :: ts) with
    | none => none
    | some (item, rest) => (readAll rest).map (item :: ·)
termination_by ts.length
decreasing_by exact length_read _h

theorem DerivesItem.readAll {item : Item} (h : DerivesItem ts item) :
    Item.readAll (ts ++ post) = (Item.readAll post).map (item :: ·) := by
  have hread : Item.read (ts ++ post) = some (item, post) := h.read
  cases hts : ts ++ post with
  | nil =>
    rw [hts] at hread
    cases hread
  | cons tok rest =>
    rw [hts] at hread
    rw [Item.readAll]
    split
    · simp_all
    · simp_all

/-- A source that derives a list of items is read as that list. -/
theorem DerivesProgram.readAll {items : List Item} (h : DerivesProgram ts items) :
    Item.readAll ts = some items := by
  have hread : ∀ post, Item.readAll (ts ++ post) = (Item.readAll post).map (items ++ ·) := by
    induction h with
    | nil => simp
    | snoc h hi ih =>
      intro post
      rw [List.append_assoc, ih, hi.readAll, Option.map_map]
      refine congrFun (congrArg _ (funext fun rest => ?_)) _
      simp
  have hnil : Item.readAll [] = some [] := by rw [Item.readAll]
  simpa [hnil] using hread []

end OnePass
