import Mathlib
import OnePass.Proofs.Boundaries

namespace OnePass

/-- A field of a struct: its type with the stars, and its name. -/
structure FieldDecl where
  type : Token
  stars : Nat
  name : String

/-- What a source is made of. -/
inductive Item where
  | struct (name : String) (fields : List FieldDecl)
  | openBlock
  | closeBlock
  | stmt (stmt : Stmt)

inductive DerivesFields : List Token → List FieldDecl → Prop where
  | nil : DerivesFields [] []
  | cons {type name semi : Token} {stars ts : List Token} {fields : List FieldDecl}
      (ht : type.type ∈ [.u16, .i16, .void, .identifier]) (hs : ∀ t ∈ stars, t.type = .star)
      (hn : name.type = .identifier) (hsemi : semi.type = .semicolon)
      (h : DerivesFields ts fields) :
      DerivesFields (type :: stars ++ name :: semi :: ts)
        (⟨type, stars.length, name.name⟩ :: fields)

/-- The tokens of a definition, a brace or a statement. A semicolon after a definition is an empty
statement. -/
inductive DerivesItem : List Token → Item → Prop where
  | struct {s name o c : Token} {ts : List Token} {fields : List FieldDecl}
      (hs : s.type = .struct) (hn : name.type = .identifier) (ho : o.type = .lbrace)
      (h : DerivesFields ts fields) (hc : c.type = .rbrace) :
      DerivesItem (s :: name :: o :: ts ++ [c]) (.struct name.name fields)
  | openBlock {o : Token} (ho : o.type = .lbrace) : DerivesItem [o] .openBlock
  | closeBlock {c : Token} (hc : c.type = .rbrace) : DerivesItem [c] .closeBlock
  | stmt {ts : List Token} {stmt : Stmt} (h : DerivesStmt ts stmt) : DerivesItem ts (.stmt stmt)

/-- The tokens of a source. -/
inductive DerivesProgram : List Token → List Item → Prop where
  | nil : DerivesProgram [] []
  | snoc {ts us : List Token} {items : List Item} {item : Item} (h : DerivesProgram ts items)
      (hi : DerivesItem us item) : DerivesProgram (ts ++ us) (items ++ [item])

/-- The words of the structs defined so far, latest first. -/
abbrev Sizes := List (String × Int)

/-- The words of a type: a pointer takes one whatever it points to. -/
def Sizes.words (sizes : Sizes) (type : Token) (stars : Nat) : Int :=
  if 0 < stars then 1
  else
    match type.type with
    | .u16 | .i16 => 1
    | .identifier => (sizes.lookup type.name).getD 0
    | _ => 0

/-- The words of a struct, counted in 64 bits. -/
def Sizes.structWords (sizes : Sizes) (fields : List FieldDecl) : Int :=
  wrap (fields.map fun f => sizes.words f.type f.stars).sum

def Registry.sizes (r : Registry) : Sizes :=
  r.entries.map fun e => (e.1, (e.2.map (·.size)).getD 0)

theorem Registry.lookup_sizes (r : Registry) (name : String) :
    r.sizes.lookup name = (r.lookup name).map fun b => (b.map (·.size)).getD 0 := by
  unfold sizes lookup
  induction r.entries with
  | nil => rfl
  | cons e rest ih =>
    obtain ⟨key, b⟩ := e
    simp only [List.map_cons, List.lookup_cons, ih]
    cases name == key <;> rfl

theorem Registry.words_resolve {r : Registry} {tok : Token} {base : Option TypeInfo}
    (h : r.resolve tok = some base) (stars : Nat) :
    Ty.words ⟨base, stars⟩ = r.sizes.words tok stars := by
  unfold Ty.words Sizes.words
  by_cases hs : 0 < stars
  · simp [hs]
  · rw [if_neg (by simpa using hs), if_neg hs]
    unfold Registry.resolve at h
    cases ht : tok.type <;> simp only [ht, Option.some.injEq, reduceCtorEq] at h ⊢ <;>
      first | (subst h; rfl) | simp [lookup_sizes, h]

/-- The fields that the struct `name` may have where `types` are known. By value a field needs a
type that takes up words, so `void` and the struct itself only stand behind a star. -/
structure FieldDecl.Allowed (types : Registry) (name : String) (f : FieldDecl) : Prop where
  known : f.type.type ∈ [.void, .u16, .i16] ∨
    f.type.type = .identifier ∧ (f.type.name = name ∨ (types.lookup f.type.name).isSome)
  indirect : f.type.type = .identifier → f.type.name = name → 0 < f.stars
  sized : f.stars = 0 → ∃ b, types.resolve f.type = some (some b) ∧ b.size ≠ 0

theorem FieldDecl.Allowed.type_mem {types : Registry} {name : String} {f : FieldDecl}
    (h : f.Allowed types name) : f.type.type ∈ [.u16, .i16, .void, .identifier] := by
  rcases h.known with hbuiltin | ⟨hid, -⟩
  · simp only [List.mem_cons, List.not_mem_nil, or_false] at hbuiltin
    rcases hbuiltin with h | h | h <;> simp [h]
  · simp [hid]

theorem span_stars {stars : List Token} {name : Token} (hs : ∀ t ∈ stars, t.type = .star)
    (hn : name.type = .identifier) (ts : List Token) :
    (stars ++ name :: ts).takeWhile Token.isStar = stars ∧
      (stars ++ name :: ts).dropWhile Token.isStar = name :: ts := by
  have hstar : ∀ t ∈ stars, t.isStar = true := fun t ht => by simp [Token.isStar, hs t ht]
  have hname : ¬ name.isStar = true := by simp [Token.isStar, hn]
  constructor
  · rw [List.takeWhile_append_of_pos hstar, List.takeWhile_cons_of_neg hname, List.append_nil]
  · rw [List.dropWhile_append_of_pos hstar, List.dropWhile_cons_of_neg hname]

namespace StructDef

variable {d : StructDef} {l l' : Layout} {ts rest : List Token} {tok : Token}
  {base : Option TypeInfo} {stars : Nat}

theorem isSelf_iff : d.isSelf tok ↔ tok.type = .identifier ∧ tok.name = d.name := by
  simp [isSelf]

theorem isSome_resolve_iff :
    (d.resolve tok).isSome ↔ tok.type ∈ [.void, .u16, .i16] ∨
      tok.type = .identifier ∧ (tok.name = d.name ∨ (d.types.lookup tok.name).isSome) := by
  unfold resolve
  split
  · rename_i hself
    simp [isSelf_iff.1 hself]
  · rename_i hself
    rw [isSelf_iff] at hself
    unfold Registry.resolve
    split <;> simp_all

theorem sized_iff {size : Int} (hbase : d.resolve tok = some base)
    (hself : d.isSelf tok → stars ≠ 0) :
    (⟨base, stars⟩ : Ty).size = .ok size ∧ size ≠ 0 ↔
      (stars = 0 → ∃ b, d.types.resolve tok = some (some b) ∧ b.size ≠ 0) ∧
        size = d.types.sizes.words tok stars := by
  rcases Nat.eq_zero_or_pos stars with rfl | hstars
  · have hresolve : d.types.resolve tok = some base := by
      rwa [resolve, if_neg fun h => hself h rfl] at hbase
    rw [← Registry.words_resolve hresolve 0, hresolve]
    cases base with
    | none => simp [Ty.size, Ty.info, Except.map]
    | some b =>
      constructor
      · rintro ⟨hsize, hne⟩
        cases hsize
        exact ⟨fun _ => ⟨b, rfl, hne⟩, rfl⟩
      · rintro ⟨hsized, rfl⟩
        obtain ⟨b', hb, hne⟩ := hsized rfl
        cases hb
        exact ⟨rfl, hne⟩
  · have hone : size = 1 ∧ size ≠ 0 ↔ size = 1 := by omega
    simp [Ty.size, Sizes.words, hstars, hstars.ne', eq_comm (a := (1 : Int)), hone]

def append (d : StructDef) (l : Layout) (f : FieldDecl) : Layout :=
  l.add f.name ⟨(d.resolve f.type).join, f.stars⟩ (d.types.sizes.words f.type f.stars)

theorem names_append (l : Layout) (f : FieldDecl) :
    (d.append l f).fields.map (·.name) = l.fields.map (·.name) ++ [f.name] := by
  simp [append, Layout.add]

theorem addField_eq_append_iff {name : Token} (hbase : d.resolve tok = some base) :
    d.addField l ⟨base, stars⟩ (d.isSelf tok) name = .ok l' ↔
      FieldDecl.Allowed d.types d.name ⟨tok, stars, name.name⟩ ∧
        name.name ∉ l.fields.map (·.name) ∧ l' = d.append l ⟨tok, stars, name.name⟩ := by
  have hknown := isSome_resolve_iff.1 (Option.isSome_iff_exists.2 ⟨base, hbase⟩)
  have happend : d.append l ⟨tok, stars, name.name⟩ =
      l.add name.name ⟨base, stars⟩ (d.types.sizes.words tok stars) := by
    simp [append, hbase]
  rw [addField_eq_ok_iff, happend]
  constructor
  · rintro ⟨hself, size, hsize, hnew, rfl⟩
    have hself : d.isSelf tok → stars ≠ 0 := by simpa using hself
    obtain ⟨hsized, rfl⟩ := (sized_iff hbase hself).1 hsize
    refine ⟨⟨hknown, ?_, hsized⟩, hnew, rfl⟩
    intro htype hname
    exact Nat.pos_of_ne_zero (hself (isSelf_iff.2 ⟨htype, hname⟩))
  · rintro ⟨hallowed, hnew, rfl⟩
    have hself : d.isSelf tok → stars ≠ 0 := by
      intro h
      obtain ⟨htype, hname⟩ := isSelf_iff.1 h
      exact (hallowed.indirect htype hname).ne'
    have hsize := (sized_iff hbase hself).2 ⟨hallowed.sized, rfl⟩
    exact ⟨by simpa using hself, _, hsize, hnew, rfl⟩

theorem body_field {name semi : Token} {stars : List Token} (hs : ∀ t ∈ stars, t.type = .star)
    (hn : name.type = .identifier) (hsemi : semi.type = .semicolon)
    (hallowed : FieldDecl.Allowed d.types d.name ⟨tok, stars.length, name.name⟩)
    (hnew : name.name ∉ l.fields.map (·.name)) :
    d.body l (tok :: stars ++ name :: semi :: ts) =
      d.body (d.append l ⟨tok, stars.length, name.name⟩) ts := by
  obtain ⟨base, hbase⟩ := Option.isSome_iff_exists.1 (isSome_resolve_iff.2 hallowed.known)
  obtain ⟨htake, hdrop⟩ := span_stars hs hn (semi :: ts)
  have hadd : d.addField l ⟨base, stars.length⟩ (d.isSelf tok) name =
      .ok (d.append l ⟨tok, stars.length, name.name⟩) :=
    (addField_eq_append_iff hbase).2 ⟨hallowed, hnew, rfl⟩
  have htype := hallowed.type_mem
  rw [List.cons_append, body_cons]
  split
  · simp_all
  · simp_all
  · rw [field, hbase, htake, hdrop]
    simp [fieldEnd, hn, hsemi, hadd]

/-- Fields are read up to the closing brace exactly where they derive from the grammar, are
allowed and have names of their own. -/
theorem body_eq_ok_iff :
    d.body l ts = .ok (l', rest) ↔
      ∃ us c fields, ts = us ++ c :: rest ∧ c.type = .rbrace ∧ DerivesFields us fields ∧
        (∀ f ∈ fields, f.Allowed d.types d.name ∧ f.name ∉ l.fields.map (·.name)) ∧
        (fields.map (·.name)).Nodup ∧ l' = fields.foldl d.append l := by
  constructor
  · intro h
    fun_induction body d l ts with
    | case2 l tok rest' htok =>
      cases h
      exact ⟨[], tok, [], rfl, htok, .nil, by simp, by simp, rfl⟩
    | case10 l tok rest' base hbase name hname type l'' hadd semi rest'' hdrop =>
      rename_i hsemi _ _ _ ih
      obtain ⟨hallowed, hnew, rfl⟩ := (addField_eq_append_iff hbase).1 hadd
      obtain ⟨us, c, fields, rfl, hc, hfields, hall, hnodup, rfl⟩ := ih h
      -- the later fields also differ from this one, which the layout holds by now
      simp only [names_append, List.mem_append, List.mem_singleton, not_or] at hall
      have heq : rest' = rest'.takeWhile Token.isStar ++ name :: semi :: (us ++ c :: rest) := by
        rw [← hdrop, List.takeWhile_append_dropWhile]
      refine ⟨tok :: rest'.takeWhile Token.isStar ++ name :: semi :: us, c,
        ⟨tok, (rest'.takeWhile Token.isStar).length, name.name⟩ :: fields, ?_, hc, ?_, ?_, ?_, rfl⟩
      · simpa using heq
      · refine .cons hallowed.type_mem ?_ (by simpa using hname) (by simpa using hsemi) hfields
        intro t ht
        simpa [Token.isStar] using List.mem_takeWhile_imp ht
      · refine List.forall_mem_cons.2 ⟨⟨hallowed, hnew⟩, ?_⟩
        intro f hf
        exact ⟨(hall f hf).1, (hall f hf).2.1⟩
      · refine List.nodup_cons.2 ⟨?_, hnodup⟩
        intro hmem
        obtain ⟨f, hf, hname⟩ := List.mem_map.1 hmem
        exact (hall f hf).2.2 hname
    | _ => simp_all [stop]
  · rintro ⟨us, c, fields, rfl, hc, hfields, hall, hnodup, rfl⟩
    induction hfields generalizing l with
    | nil =>
      rw [List.nil_append, body_cons, hc]
      rfl
    | @cons type name semi stars ts fields _ hs hn hsemi _ ih =>
      obtain ⟨⟨hallowed, hnew⟩, hall⟩ := List.forall_mem_cons.1 hall
      obtain ⟨hother, hnodup⟩ := List.nodup_cons.1 hnodup
      have hbody : d.body l (type :: stars ++ name :: semi :: (ts ++ c :: rest)) =
          d.body (d.append l ⟨type, stars.length, name.name⟩) (ts ++ c :: rest) :=
        body_field hs hn hsemi hallowed hnew
      -- the names that follow are new beside this field as well
      have hlater : ∀ f ∈ fields, f.Allowed d.types d.name ∧
          f.name ∉ (d.append l ⟨type, stars.length, name.name⟩).fields.map (·.name) := by
        intro f hf
        rw [names_append, List.mem_append, List.mem_singleton, not_or]
        refine ⟨(hall f hf).1, (hall f hf).2, ?_⟩
        intro heq
        exact hother (List.mem_map.2 ⟨f, hf, heq⟩)
      rw [List.foldl_cons, ← ih hlater hnodup, ← hbody]
      simp

theorem size_foldl_append (fields : List FieldDecl) (hsize : wrap l.size = l.size) :
    (fields.foldl d.append l).size =
      wrap (l.size + (fields.map fun f => d.types.sizes.words f.type f.stars).sum) := by
  induction fields generalizing l with
  | nil => simpa using hsize.symm
  | cons f fields ih =>
    have happend : (d.append l f).size = wrap (l.size + d.types.sizes.words f.type f.stars) := rfl
    have hsize' : wrap (d.append l f).size = (d.append l f).size := by rw [happend, wrap_wrap]
    rw [List.foldl_cons, ih hsize', happend, wrap_wrap_add, List.map_cons, List.sum_cons, add_assoc]

theorem derives_parse {types : Registry} {atEnd : Token} {b : TypeInfo}
    (htok : tok.type = .struct) (h : parse types atEnd ts = .ok (b, rest)) :
    ∃ us fields, (tok :: ts = us ++ rest ∨
        ∃ semi, semi.type = .semicolon ∧ tok :: ts = us ++ semi :: rest) ∧
      DerivesItem us (.struct b.name fields) ∧ b.size = types.sizes.structWords fields := by
  obtain ⟨name, brace, tail, l, left, rfl, hname, -, hbrace, hbody, -, rfl, rfl⟩ :=
    parse_eq_ok_iff.1 h
  obtain ⟨us, c, fields, rfl, hc, hfields, -, -, rfl⟩ := body_eq_ok_iff.1 hbody
  have hwords : (fields.foldl (StructDef.append ⟨types, name.name, atEnd⟩) {}).size =
      types.sizes.structWords fields := by
    rw [size_foldl_append fields rfl]
    simp [Sizes.structWords]
  refine ⟨_, fields, ?_, .struct htok hname hbrace hfields hc, hwords⟩
  unfold skipSemicolon
  split
  · split
    · rename_i hsemi
      exact .inr ⟨_, hsemi, by simp⟩
    · exact .inl (by simp)
  · exact .inl (by simp)

end StructDef

namespace Parse

variable {ok : Expr → Bool} {ts : List Token}

theorem run_eq_none (p : Parse) (h : ∀ t ∈ ts, t.type ≠ .semicolon) : run ok p ts = none := by
  fun_induction run ok p ts with
  | case2 p tok rest htok => exact absurd htok (h tok (by simp))
  | case3 p tok htok paren rest hcall ih =>
    rw [Option.bind_eq_none_iff]
    exact fun q _ => ih q fun t ht => h t (by simp [ht])
  | case4 p tok htok paren rest hcall ih =>
    rw [Option.bind_eq_none_iff]
    exact fun q _ => ih q fun t ht => h t (List.mem_cons_of_mem _ ht)
  | _ => rfl

theorem parse_eq_none (h : ∀ t ∈ ts, t.type ≠ .semicolon) : parse ok ts = none := by
  unfold parse
  split
  · rfl
  · rename_i tok rest
    split
    · rw [Option.bind_eq_none_iff]
      rintro ⟨d, rest'⟩ hread
      obtain ⟨us, rfl, -⟩ := readDecl_derives hread
      cases rest' with
      | nil => rfl
      | cons t rest' =>
        dsimp only
        rw [if_neg (h t (by simp)), run_eq_none _ fun u hu => h u (by simp [hu])]
        simp
    · exact run_eq_none _ h

end Parse

theorem Operand.held_le_one (o : Operand) : o.held ≤ 1 := by
  unfold held
  split <;> decide

namespace Expr

variable {f : Frame}

/-- An operand that holds a word has been pushed. -/
theorem held_le_length (depth : Int) :
    ∀ e : Expr, (e.result f).held ≤ (e.code f depth).length
  | .literal n => by
    simp only [result, operand]
    split <;> simp [Operand.held]
  | .name x => by
    simp only [result, operand]
    cases f.lookup x <;> simp [Operand.held]
  | .call g args => by
    simp only [code, List.length_append, List.length_singleton]
    have := Operand.held_le_one ((call g args).result f)
    omega
  | .binary op l r => by
    simp only [code, combineCode, List.length_append, List.length_cons]
    have := Operand.held_le_one ((binary op l r).result f)
    omega
  | .deref e => by
    have ih := held_le_length depth e
    simp only [code]
    cases ho : e.operand f with
    | none => simp [result, operand, ho, Operand.held]
    | some o =>
      cases hp : o.pointee with
      | none => simp [result, operand, ho, hp, Operand.held]
      | some o' =>
        -- a dereference leaves the operand where it is
        have hplace : o'.place = o.place := by
          simp only [Operand.pointee, Option.ite_none_left_eq_some, Option.some.injEq] at hp
          rw [← hp.2]
        have hr : (deref e).result f = o' := by simp [result, operand, ho, hp]
        rw [result_eq ho] at ih
        rw [hr, Operand.held, hplace]
        exact ih
  | .addressOf e => by
    simp only [code, List.length_append, List.length_singleton]
    have := Operand.held_le_one ((addressOf e).result f)
    omega

end Expr

section

variable {types : Registry} {f g : Frame} {stmt : Stmt}

theorem Frame.visible_extend (h : f.closed.contains f.scope = false) (d : Decl) (type : Ty) :
    (f.extend d type).visible = ⟨d.name, d.line, type, f.depth, f.scope⟩ :: f.visible :=
  visible_add (f := { f with depth := wrap (f.depth + type.words) }) h d.name d.line type f.depth

theorem Expr.regular_operand (hf : f.Tiled) {e : Expr} {o : Operand} (ho : e.operand f = some o) :
    ∀ b ∈ o.type.base, b.Regular :=
  base_operand (P := fun base => ∀ b ∈ base, b.Regular)
    (by simpa using TypeInfo.regular_builtin _ (by simp))
    (fun v hv b hb => by
      obtain ⟨c, hc, hnamed⟩ := (hf.placed v hv).named
      rw [hc, Option.mem_some_iff] at hb
      exact hb ▸ hnamed.regular) e ho

theorem Decl.words_initialized {d : Decl} {e : Expr} {o : Operand} {t t' : Ty}
    (ht : Built types.entries) (hf : f.Tiled) (hd : d.declared types = some t)
    (ho : e.operand f = some o) (hinit : o.initializes t = some t') : t'.words = 1 := by
  have hdeclared := regular_declared (fun e he b hb => by
    obtain ⟨c, hc, hnamed⟩ := ht.named e he
    rw [hc, Option.mem_some_iff] at hb
    exact hb ▸ hnamed.regular) hd
  exact Operand.words_initializes (Expr.regular_operand hf ho) hdeclared hinit

/-- The statements that keep the typing rules, with the frame after them. -/
inductive Stmt.Keeps (types : Registry) (f : Frame) : Stmt → Frame → Prop where
  | empty : Keeps types f .empty f
  | expr {e : Expr} {o : Operand} (ho : e.operand f = some o) (hd : o.discards) :
      Keeps types f (.expr e) f
  | assign {l r : Expr} {lo ro : Operand} (hl : l.operand f = some lo) (hr : r.operand f = some ro)
      (ha : lo.assignable ro) : Keeps types f (.assign l r) f
  | var {d : Decl} {t : Ty} (hd : d.declared types = some t) (hpos : 0 < t.words) :
      Keeps types f (.var d none) (f.extend d t)
  | varValue {d : Decl} {e : Expr} {o : Operand} {t t' : Ty} (hd : d.declared types = some t)
      (ho : e.operand f = some o) (hinit : o.initializes t = some t') :
      Keeps types f (.var d (some e)) (f.extend d t')

theorem Stmt.keeps_of_frame (h : stmt.frame types f = some g) : stmt.Keeps types f g := by
  cases stmt with
  | empty =>
    cases h
    exact .empty
  | expr e =>
    simp only [Stmt.frame, Option.bind_eq_some_iff, Option.ite_none_right_eq_some,
      Option.some.injEq] at h
    obtain ⟨o, ho, hd, rfl⟩ := h
    exact .expr ho hd
  | assign l r =>
    simp only [Stmt.frame, Option.bind_eq_some_iff, Option.ite_none_right_eq_some,
      Option.some.injEq] at h
    obtain ⟨lo, hl, ro, hr, ha, rfl⟩ := h
    exact .assign hl hr ha
  | var d value =>
    cases value with
    | none =>
      simp only [Stmt.frame, Option.bind_eq_some_iff, Option.ite_none_right_eq_some,
        Option.some.injEq] at h
      obtain ⟨t, hd, hpos, rfl⟩ := h
      exact .var hd hpos
    | some e =>
      simp only [Stmt.frame, Option.bind_eq_some_iff, Option.map_eq_some_iff] at h
      obtain ⟨t, hd, o, ho, t', hinit, rfl⟩ := h
      exact .varValue hd ho hinit

/-- A statement emits an instruction for every word that it adds. -/
theorem Stmt.totalWords_le (ht : Built types.entries) (hf : f.Tiled)
    (h : stmt.frame types f = some g) :
    totalWords g.visible ≤ totalWords f.visible + (stmt.code types f).length := by
  have hextend (d : Decl) (type : Ty) (code : List Instr) (hlen : type.words ≤ code.length) :
      totalWords (f.extend d type).visible ≤ totalWords f.visible + code.length := by
    rw [Frame.visible_extend hf.scope_open, totalWords_cons]
    dsimp only
    omega
  cases Stmt.keeps_of_frame h with
  | empty => simp
  | expr ho hd => omega
  | assign hl hr ha => omega
  | @var d t hd hpos =>
    refine hextend d t _ ?_
    simp only [Stmt.code, hd, Option.getD_some, zerosCode, List.length_cons, List.length_replicate]
    omega
  | @varValue d e o t t' hd ho hinit =>
    refine hextend d t' _ ?_
    -- one word is added: the value is there already, or the spill pushes it
    rw [Decl.words_initialized ht hf hd ho hinit]
    have hheld := e.held_le_length (f := f) f.depth
    have hspill : 1 - (e.result f).held ≤
        ((e.result f).spillCode (f.depth + (e.result f).held)).length :=
      (e.result f).length_spillCode
    simp only [Stmt.code, List.length_append]
    omega

end

namespace Session

variable {s t : Session} {item : Item}

/-- What an item does to the frame, the code and the types. -/
def Does (s : Session) (item : Item) (t : Session) : Prop :=
  match item with
  | .struct name fields => t.frame = s.frame ∧ t.code = s.code ∧
      t.types.sizes = (name, s.types.sizes.structWords fields) :: s.types.sizes
  | .openBlock => t.frame = s.frame.enter.2 ∧ t.code = s.code ∧ t.types = s.types
  | .closeBlock => ∃ m outer, s.frame.scopes = m :: outer ∧ t.frame = s.frame.closing m outer ∧
      t.code = s.code ++ dropCode (wrap (s.frame.depth - m.depth)) ∧ t.types = s.types
  | .stmt stmt => stmt.frame s.types s.frame = some t.frame ∧
      t.code = s.code ++ stmt.code s.types s.frame ∧ t.types = s.types

theorem Does.exists_code (hd : s.Does item t) : ∃ code : List Instr, t.code = s.code ++ code := by
  cases item with
  | struct name fields => exact ⟨[], by simpa using hd.2.1⟩
  | openBlock => exact ⟨[], by simpa using hd.2.1⟩
  | closeBlock =>
    obtain ⟨m, outer, -, -, hcode, -⟩ := hd
    exact ⟨_, hcode⟩
  | stmt i => exact ⟨_, hd.2.1⟩

/-- A session between items that has room for the words of one more statement. -/
structure Roomy (s : Session) : Prop where
  orderly : s.Orderly 0
  room : totalWords s.frame.visible + s.tokens.size < 2 ^ 62

theorem Roomy.words (h : s.Roomy) :
    0 ≤ totalWords s.frame.visible ∧ s.frame.depth = totalWords s.frame.visible := by
  have hnonneg := totalWords_nonneg h.orderly.tiled.visible
  have hroom := h.room
  refine ⟨hnonneg, ?_⟩
  rw [h.orderly.depth, add_zero, wrap_eq_self (by omega) (by omega)]

theorem Roomy.ready (h : s.Roomy) : Ready s.tokens.size s := by
  obtain ⟨hnonneg, hdepth⟩ := h.words
  have hnamed {base : Option TypeInfo} (hb : ∃ b, base = some b ∧ b.Named) :
      ∀ b ∈ base, b.Regular := by
    obtain ⟨b, rfl, hb⟩ := hb
    intro c hc
    exact Option.some.inj hc ▸ hb.regular
  refine ⟨h.orderly.tiled.typed, fun e he => ?_,
    fun v hv => hnamed (h.orderly.tiled.placed v hv).named,
    fun e he => hnamed (h.orderly.types.named e he), by rw [hdepth]; exact hnonneg,
    by rw [hdepth]; exact h.room⟩
  obtain ⟨b, hb, -⟩ := h.orderly.types.named e he
  simp [hb]

theorem Roomy.tidy (h : s.Roomy) : s.frame.Tidy := by
  obtain ⟨hnonneg, hdepth⟩ := h.words
  refine ⟨hdepth.symm, fun v hv => ?_, h.orderly.tiled.scope_open⟩
  obtain ⟨rest, hvisible⟩ := List.head?_eq_some_iff.1 hv
  have htiles := h.orderly.tiled.tiles
  have hplaced := h.orderly.tiled.visible
  have hroom := h.room
  rw [hvisible] at htiles hplaced hnonneg hdepth hroom
  have hrest := totalWords_nonneg fun u hu => hplaced u (List.mem_cons_of_mem _ hu)
  have hv := (hplaced v (by simp)).words
  rw [totalWords_cons] at hdepth hroom
  rw [htiles.1, hdepth, wrap_eq_self (by omega) (by omega), add_comm]

theorem Roomy.completes {i : Nat} {rest : List Token} (h : s.Roomy)
    (hdrop : s.tokens.toList.drop i = rest) :
    Build.Completes s ((Build.statement i rest).run s) (Parse.parse (Build.typeable s) rest) := by
  refine Build.completes_statement h.ready h.tidy hdrop ?_
  rw [← hdrop, List.length_drop, Array.length_toList]
  omega

end Session

theorem semicolon_cases (ts : List Token) :
    (∀ t ∈ ts, t.type ≠ .semicolon) ∨ ∃ us semi post, ts = us ++ semi :: post ∧
      (∀ t ∈ us, t.type ≠ .semicolon) ∧ semi.type = .semicolon ∧
      Build.afterSemicolon ts = post := by
  induction ts with
  | nil => exact .inl (by simp)
  | cons tok ts ih =>
    by_cases htok : tok.type = .semicolon
    · exact .inr ⟨[], tok, ts, rfl, by simp, htok, by simp [Build.afterSemicolon, htok]⟩
    · rcases ih with h | ⟨us, semi, post, rfl, hus, hsemi, hpost⟩
      · exact .inl (List.forall_mem_cons.2 ⟨htok, h⟩)
      · refine .inr ⟨tok :: us, semi, post, rfl, List.forall_mem_cons.2 ⟨htok, hus⟩, hsemi, ?_⟩
        simpa [Build.afterSemicolon, htok] using hpost

namespace Session

variable {s t : Session} {i j : Nat} {tok : Token} {rest next : List Token}

theorem Roomy.does_stmt (h : s.Roomy) (hdrop : s.tokens.toList.drop i = rest)
    (hrun : (Build.statement i rest).run s = .ok () t) :
    ∃ us stmt, rest = us ++ Build.afterSemicolon rest ∧ DerivesStmt us stmt ∧
      s.Does (.stmt stmt) t := by
  have hcompletes := h.completes hdrop
  rw [hrun] at hcompletes
  obtain hnone | ⟨us, semi, post, hrest, hus, hsemi, hpost⟩ := semicolon_cases rest
  -- without a semicolon no statement is completed
  · rw [Parse.parse_eq_none hnone] at hcompletes
    exact absurd rfl (hcompletes () t)
  · cases hparse : Parse.parse (Build.typeable s) rest with
    | none =>
      rw [hparse] at hcompletes
      exact absurd rfl (hcompletes () t)
    | some stmt =>
      rw [hparse] at hcompletes
      rw [hrest] at hparse
      obtain ⟨hderives, -⟩ := Parse.parse_derives hus hsemi hparse
      refine ⟨us ++ [semi], stmt, by rw [hpost, hrest]; simp, hderives, ?_⟩
      unfold Build.Completes Build.Compiles at hcompletes
      dsimp only at hcompletes
      split at hcompletes
      · rename_i f hf
        obtain ⟨u, hu, hcode, rfl, htypes, -⟩ := hcompletes
        cases hu
        exact ⟨hf, hcode, htypes⟩
      · exact absurd rfl (hcompletes () t)

/-- An item that is accepted derives from the grammar and does what its tree says. A definition may
have taken a semicolon with it. -/
theorem Roomy.does_item (h : s.Roomy) (hdrop : s.tokens.toList.drop i = tok :: rest)
    (hrun : (Build.item i tok rest).run s = .ok (j, next) t) :
    ∃ us item, (tok :: rest = us ++ next ∨
        ∃ semi, semi.type = .semicolon ∧ tok :: rest = us ++ semi :: next) ∧
      DerivesItem us item ∧ s.Does item t := by
  by_cases htok : tok.type = .struct
  · obtain ⟨b, hparse, -, rfl⟩ := (Build.run_item_struct htok).1 hrun
    obtain ⟨us, fields, heq, hitem, hsize⟩ := StructDef.derives_parse htok hparse
    exact ⟨us, _, heq, hitem, rfl, rfl, by rw [← hsize]; rfl⟩
  unfold Build.item at hrun
  split at hrun
  · contradiction
  · rename_i htok
    cases hrun
    exact ⟨[tok], .openBlock, .inl rfl, .openBlock htok, rfl, rfl, rfl⟩
  · rename_i htok
    cases hscopes : s.frame.scopes with
    | nil =>
      unfold Build.closeBlock at hrun
      rw [EStateM.run_bind, EStateM.run_bind, EStateM.run_get] at hrun
      dsimp only at hrun
      rw [if_neg (by simp [Frame.nested, hscopes])] at hrun
      cases hrun
    | cons m outer =>
      rw [Build.run_bind_ok (Build.run_closeBlock hscopes)] at hrun
      cases hrun
      exact ⟨[tok], .closeBlock, .inl rfl, .closeBlock htok, m, outer, hscopes, rfl, rfl, rfl⟩
  · obtain ⟨_, u, hstmt, hrun⟩ := Build.run_bind_eq_ok.1 hrun
    cases hrun
    obtain ⟨us, stmt, heq, hderives, hdoes⟩ := h.does_stmt hdrop hstmt
    exact ⟨us, .stmt stmt, .inl heq, .stmt hderives, hdoes⟩

theorem Roomy.totalWords_le {item : Item} (h : s.Roomy) (hd : s.Does item t)
    (hw : totalWords s.frame.visible ≤ s.code.size) : totalWords t.frame.visible ≤ t.code.size := by
  cases item with
  | struct name fields =>
    obtain ⟨hframe, hcode, -⟩ := hd
    rw [hframe, hcode]
    exact hw
  | openBlock =>
    obtain ⟨hframe, hcode, -⟩ := hd
    rw [hframe, hcode]
    exact hw
  | closeBlock =>
    obtain ⟨m, outer, hscopes, hframe, hcode, -⟩ := hd
    obtain ⟨-, -, inner, hvisible, -⟩ := h.orderly.tiled.closing hscopes
    have hinner : 0 ≤ totalWords inner := totalWords_nonneg fun v hv =>
      h.orderly.tiled.visible v (by rw [hvisible]; exact List.mem_append_left _ hv)
    have hsize := (later_emitted s (dropCode (wrap (s.frame.depth - m.depth))) 0).code
    rw [hvisible, totalWords_append] at hw
    rw [hframe, hcode]
    exact (by omega : totalWords (s.frame.closing m outer).visible ≤ s.code.size).trans
      (by exact_mod_cast hsize)
  | stmt stmt =>
    obtain ⟨hframe, hcode, -⟩ := hd
    have hle := Stmt.totalWords_le h.orderly.types h.orderly.tiled hframe
    have hsize := emitted_size s (stmt.code s.types s.frame) 0
    rw [emitted_code, ← hcode] at hsize
    omega

theorem InMemory.of_le (hm : t.InMemory) (hle : s.code.size ≤ t.code.size) : s.InMemory := by
  simp only [InMemory, fitsInMemory, Bool.and_eq_true, decide_eq_true_eq] at hm ⊢
  omega

theorem InMemory.roomy (hm : s.InMemory) (ho : s.Orderly 0) (ht : fitsInMemory 1 s.tokens.size)
    (hw : totalWords s.frame.visible ≤ s.code.size) : s.Roomy := by
  have hcode := hm.size_le
  simp only [fitsInMemory, Bool.and_eq_true, decide_eq_true_eq] at ht
  exact ⟨ho, by omega⟩

end Session

/-- Between items the words of the variables do not outnumber the instructions. -/
theorem Reaches.roomy {s₀ s : Session} {ts rest : List Token} {i : Nat} (h₀ : s₀.Orderly 0)
    (hw : totalWords s₀.frame.visible ≤ s₀.code.size) (hts : fitsInMemory 1 ts.length)
    (h : Reaches s₀ ts s i rest) (hm : s.InMemory) :
    s.Roomy ∧ totalWords s.frame.visible ≤ s.code.size := by
  have hroomy {s : Session} {i : Nat} {rest : List Token} (h : Reaches s₀ ts s i rest)
      (hm : s.InMemory) (hw : totalWords s.frame.visible ≤ s.code.size) : s.Roomy := by
    obtain ⟨horderly, htokens, -, -⟩ := h.orderly h₀
    exact hm.roomy horderly (by simpa [htokens] using hts) hw
  induction h with
  | start => exact ⟨hroomy .start hm hw, hw⟩
  | @item s t i j tok rest next h htok hrun ih =>
    obtain ⟨horderly, htokens, hdrop, -⟩ := h.orderly h₀
    have hproper := Build.proper_item i tok rest horderly
    rw [hrun] at hproper
    obtain ⟨hs, hw⟩ := ih (hm.of_le hproper.1.code)
    obtain ⟨us, item, -, -, hdoes⟩ := hs.does_item (by simpa [htokens] using hdrop) hrun
    have hw := hs.totalWords_le hdoes hw
    exact ⟨hroomy (h.item htok hrun) hm hw, hw⟩

namespace Session

variable {s t : Session} {sources : List (List Token)}

theorem code_le_acceptAll (hs : s.Orderly 0) (h : s.acceptAll sources = some t) :
    s.code.size ≤ t.code.size := by
  induction sources generalizing s with
  | nil =>
    cases h
    exact le_rfl
  | cons ts sources ih =>
    simp only [acceptAll, List.foldlM_cons, Option.bind_eq_bind, Option.bind_eq_some_iff] at h
    obtain ⟨u, hu, ht⟩ := h
    obtain ⟨i, rest, hreaches⟩ := reaches_accept hs hu
    exact (hreaches.code_le hs).trans (ih (hs.accept hu) ht)

theorem totalWords_acceptAll (hs : s.Orderly 0) (hw : totalWords s.frame.visible ≤ s.code.size)
    (hfits : ∀ ts ∈ sources, fitsInMemory 1 ts.length) (h : s.acceptAll sources = some t)
    (hm : t.InMemory) : totalWords t.frame.visible ≤ t.code.size := by
  induction sources generalizing s with
  | nil =>
    cases h
    exact hw
  | cons ts sources ih =>
    obtain ⟨hts, hfits⟩ := List.forall_mem_cons.1 hfits
    simp only [acceptAll, List.foldlM_cons, Option.bind_eq_bind, Option.bind_eq_some_iff] at h
    obtain ⟨u, hu, ht⟩ := h
    obtain ⟨i, rest, hreaches⟩ := reaches_accept hs hu
    have hmu := hm.of_le (code_le_acceptAll (hs.accept hu) ht)
    exact ih (hs.accept hu) (hreaches.roomy hs hw hts hmu).2 hfits ht

end Session

section Sources

variable {ids : IdSupply} {sources : List (List Token)} {s₀ s : Session} {ts rest : List Token}
  {i : Nat}

/-- In a session that has accepted every source so far, the words of the variables fit in memory
with the code. -/
theorem Reaches.roomy_acceptAll (hs : (Session.fresh ids).acceptAll sources = some s₀)
    (hfits : ∀ src ∈ ts :: sources, fitsInMemory 1 src.length) (h : Reaches s₀ ts s i rest)
    (hm : s.InMemory) : s.Roomy := by
  obtain ⟨hts, hfits⟩ := List.forall_mem_cons.1 hfits
  have h₀ := Session.orderly_fresh.acceptAll hs
  have hw := Session.totalWords_acceptAll Session.orderly_fresh le_rfl hfits hs
    (hm.of_le (h.code_le h₀))
  exact (h.roomy h₀ hw hts hm).1

theorem Stmt.passes_of_frame {types : Registry} {f g : Frame} {stmt : Stmt}
    (h : stmt.frame types f = some g) : Parse.passes (fun e => (e.operand f).isSome) stmt := by
  cases Stmt.keeps_of_frame h with
  | empty => rfl
  | expr ho hd => simp [Parse.passes, ho]
  | assign hl hr ha => simp [Parse.passes, hl, hr]
  | var hd hpos => rfl
  | varValue hd ho hinit => simp [Parse.passes, ho]

/-- Between statements, the tokens up to a semicolon are accepted exactly where they derive a tree
that keeps the typing rules, and the code and the frame are then those of the tree. -/
theorem statement_ok_iff_derives {us post : List Token} {semi : Token}
    (hs : (Session.fresh ids).acceptAll sources = some s₀)
    (hfits : ∀ src ∈ ts :: sources, fitsInMemory 1 src.length)
    (h : Reaches s₀ ts s i (us ++ semi :: post)) (hm : s.InMemory)
    (hus : ∀ t ∈ us, t.type ≠ .semicolon) (hsemi : semi.type = .semicolon) :
    ((∃ t, (Build.statement i (us ++ semi :: post)).run s = .ok () t) ↔
      ∃ stmt, DerivesStmt (us ++ [semi]) stmt ∧ (stmt.frame s.types s.frame).isSome) ∧
    ∀ stmt f, DerivesStmt (us ++ [semi]) stmt → stmt.frame s.types s.frame = some f →
      ∃ t, (Build.statement i (us ++ semi :: post)).run s = .ok () t ∧
        t.code = s.code ++ stmt.code s.types s.frame ∧ t.frame = f := by
  obtain ⟨-, htokens, hdrop, -⟩ := h.orderly (Session.orderly_fresh.acceptAll hs)
  have hcompletes := (h.roomy_acceptAll hs hfits hm).completes (by simpa [htokens] using hdrop)
  -- a tree that derives and keeps the rules is the one that is read
  have hgood : ∀ stmt f, DerivesStmt (us ++ [semi]) stmt → stmt.frame s.types s.frame = some f →
      ∃ t, (Build.statement i (us ++ semi :: post)).run s = .ok () t ∧
        t.code = s.code ++ stmt.code s.types s.frame ∧ t.frame = f := by
    intro stmt f hderives hf
    have hparse : Parse.parse (Build.typeable s) (us ++ semi :: post) = some stmt :=
      (Parse.parse_eq_some_iff Expr.hereditary_operand hus hsemi).2
        ⟨hderives, Stmt.passes_of_frame hf⟩
    rw [hparse] at hcompletes
    simp only [Build.Completes, Build.Compiles, hf] at hcompletes
    obtain ⟨t, hrun, hcode, hframe, -⟩ := hcompletes
    exact ⟨t, hrun, hcode, hframe⟩
  refine ⟨⟨?_, ?_⟩, hgood⟩
  · rintro ⟨t, hrun⟩
    cases hparse : Parse.parse (Build.typeable s) (us ++ semi :: post) with
    | none =>
      rw [hparse] at hcompletes
      exact absurd hrun (hcompletes () t)
    | some stmt =>
      refine ⟨stmt, (Parse.parse_derives hus hsemi hparse).1, ?_⟩
      cases hf : stmt.frame s.types s.frame with
      | none =>
        simp only [hparse, Build.Completes, Build.Compiles, hf] at hcompletes
        exact absurd hrun (hcompletes () t)
      | some f => rfl
  · rintro ⟨stmt, hderives, hframe⟩
    obtain ⟨f, hf⟩ := Option.isSome_iff_exists.1 hframe
    obtain ⟨t, hrun, -⟩ := hgood stmt f hderives hf
    exact ⟨t, hrun⟩

/-- A store through a pointer, in a block with a struct in it. -/
def storing : List Token :=
  tokensOf "\x7b var pair p; var q = &x; *q = f(x * 2, *q - 1) + x; \x7d"

def beforeStore : Session × Nat × List Token :=
  (Build.itemsTaken 3 ({ defined with tokens := storing.toArray }, 0, storing)).getD ({}, 0, [])

theorem reaches_beforeStore :
    Reaches defined storing beforeStore.1 beforeStore.2.1 beforeStore.2.2 :=
  Reaches.itemsTaken 3 (p := ({ defined with tokens := storing.toArray }, 0, storing)) .start
    (eq_some_getD (by decide +kernel) _)

theorem statement_ok_iff_derives_storing :
    let s := beforeStore.1
    let us := tokensOf "*q = f(x * 2, *q - 1) + x"
    let semi : Token := { type := .semicolon, line := 1 }
    let post : List Token := [{ type := .rbrace, line := 1 }]
    (∀ src ∈ [storing, defining], fitsInMemory 1 src.length) ∧
      Reaches defined storing s beforeStore.2.1 (us ++ semi :: post) ∧ s.InMemory ∧
      ((∃ t, (Build.statement beforeStore.2.1 (us ++ semi :: post)).run s = .ok () t) ↔
        ∃ stmt, DerivesStmt (us ++ [semi]) stmt ∧ (stmt.frame s.types s.frame).isSome) ∧
      ∀ stmt f, DerivesStmt (us ++ [semi]) stmt → stmt.frame s.types s.frame = some f →
        ∃ t, (Build.statement beforeStore.2.1 (us ++ semi :: post)).run s = .ok () t ∧
          t.code = s.code ++ stmt.code s.types s.frame ∧ t.frame = f := by
  have hfits : ∀ src ∈ [storing, defining], fitsInMemory 1 src.length := by decide +kernel
  have hrest : beforeStore.2.2 = tokensOf "*q = f(x * 2, *q - 1) + x" ++
      { type := .semicolon, line := 1 } :: [{ type := .rbrace, line := 1 }] := by decide +kernel
  have hreaches := hrest ▸ reaches_beforeStore
  have hm : beforeStore.1.InMemory := by
    unfold Session.InMemory
    decide +kernel
  exact ⟨hfits, hreaches, hm, statement_ok_iff_derives acceptAll_defining hfits hreaches hm
    (by decide +kernel) rfl⟩

end Sources

end OnePass
