import Mathlib
import OnePass.Proofs.Programs
import OnePass.Proofs.StructSizes

namespace OnePass

/-- What the definition of the struct `name` asks for where `types` are known. -/
structure Definable (types : Registry) (name : String) (fields : List FieldDecl) : Prop where
  free : types.lookup name = none
  nonempty : fields ≠ []
  allowed : ∀ f ∈ fields, f.Allowed types name
  distinct : (fields.map (·.name)).Nodup

/-- The semicolons that a definition takes along where `next` is left: one if one follows. -/
def Trailing (semis next : List Token) : Prop :=
  (∃ semi, semi.type = .semicolon ∧ semis = [semi]) ∨
    (semis = [] ∧ ∀ t ∈ next.head?, t.type ≠ .semicolon)

namespace StructDef

variable {d : StructDef} {l : Layout} {fields : List FieldDecl}

/-- The fields in their order, one after another from the word `offset` on. -/
def place (d : StructDef) (offset : Int) : List FieldDecl → List Field
  | [] => []
  | f :: fields =>
    ⟨f.name, (d.resolve f.type).join.map (·.toTypeHead), f.stars, offset⟩ ::
      place d (wrap (offset + d.types.sizes.words f.type f.stars)) fields

/-- The struct with all its fields. -/
def info (d : StructDef) (fields : List FieldDecl) : TypeInfo :=
  { d.self with size := d.types.sizes.structWords fields, fields := d.place 0 fields }

theorem length_info : (d.info fields).fields.length = fields.length := by
  have hplace (offset : Int) : (d.place offset fields).length = fields.length := by
    induction fields generalizing offset with
    | nil => rfl
    | cons f fields ih => simp [place, ih]
  exact hplace 0

theorem fields_foldl_append (fields : List FieldDecl) :
    (fields.foldl d.append l).fields = l.fields ++ d.place l.size fields := by
  induction fields generalizing l with
  | nil => simp [place]
  | cons f fields ih =>
    rw [List.foldl_cons, ih]
    simp [append, Layout.add, place]

theorem info_eq (fields : List FieldDecl) :
    { d.self with
      size := (fields.foldl d.append {}).size
      fields := (fields.foldl d.append {}).fields } = d.info fields := by
  rw [fields_foldl_append, size_foldl_append fields rfl]
  simp [info, Sizes.structWords]

theorem skipSemicolon_eq_iff {left next : List Token} :
    skipSemicolon left = next ↔ ∃ semis, left = semis ++ next ∧ Trailing semis next := by
  constructor
  · rintro rfl
    unfold skipSemicolon
    split
    · rename_i tok rest
      split
      · rename_i hsemi
        exact ⟨[tok], rfl, .inl ⟨tok, hsemi, rfl⟩⟩
      · rename_i hsemi
        exact ⟨[], rfl, .inr ⟨rfl, by simpa using hsemi⟩⟩
    · exact ⟨[], rfl, .inr ⟨rfl, by simp⟩⟩
  · rintro ⟨semis, rfl, ⟨semi, hsemi, rfl⟩ | ⟨rfl, hnext⟩⟩
    · simp [skipSemicolon, hsemi]
    · cases next with
      | nil => rfl
      | cons t next => simpa [skipSemicolon] using hnext

theorem parse_eq_info_iff {types : Registry} {atEnd tok : Token} {ts next : List Token}
    {b : TypeInfo} (htok : tok.type = .struct) :
    parse types atEnd ts = .ok (b, next) ↔
      ∃ us semis name fields, DerivesItem us (.struct name fields) ∧ Definable types name fields ∧
        tok :: ts = us ++ semis ++ next ∧ Trailing semis next ∧
        b = (⟨types, name, atEnd⟩ : StructDef).info fields := by
  rw [parse_eq_ok_iff]
  constructor
  · rintro ⟨name, brace, tail, l, left, rfl, hname, hfree, hbrace, hbody, hfields, rfl, hnext⟩
    obtain ⟨us, c, fields, rfl, hc, hderives, hall, hnodup, rfl⟩ := body_eq_ok_iff.1 hbody
    obtain ⟨semis, rfl, hsemis⟩ := skipSemicolon_eq_iff.1 hnext.symm
    have hne : fields ≠ [] := by
      rintro rfl
      exact hfields rfl
    exact ⟨_, semis, name.name, fields, .struct htok hname hbrace hderives hc,
      ⟨hfree, hne, fun f hf => (hall f hf).1, hnodup⟩, by simp, hsemis, info_eq fields⟩
  · rintro ⟨us, semis, name, fields, hitem, hdef, hts, hsemis, rfl⟩
    cases hitem with
    | @struct s name o c us _ hs hname ho hderives hc =>
      simp only [List.cons_append, List.append_assoc, List.nil_append, List.cons.injEq] at hts
      obtain ⟨-, rfl⟩ := hts
      have hall : ∀ f ∈ fields, f.Allowed types name.name ∧ f.name ∉ ([] : List String) :=
        fun f hf => ⟨hdef.allowed f hf, by simp⟩
      let d : StructDef := ⟨types, name.name, atEnd⟩
      have hbody : d.body {} (us ++ c :: (semis ++ next)) =
          .ok (fields.foldl d.append {}, semis ++ next) :=
        body_eq_ok_iff.2 ⟨us, c, fields, rfl, hc, hderives, hall, hdef.distinct, rfl⟩
      have hfields : (fields.foldl d.append {}).fields ≠ [] := by
        rw [fields_foldl_append]
        cases fields with
        | nil => exact absurd rfl hdef.nonempty
        | cons f fields => simp [place]
      exact ⟨name, o, _, _, semis ++ next, rfl, hname, hdef.free, ho, hbody, hfields,
        (info_eq fields).symm, (skipSemicolon_eq_iff.2 ⟨semis, rfl, hsemis⟩).symm⟩

end StructDef

theorem Registry.lookup_insert {r : Registry} {name n : String} {t : Option TypeInfo}
    {b : Option TypeInfo} (hfree : r.lookup name = none) (h : r.lookup n = some b) :
    (r.insert name t).lookup n = some b := by
  have hne : n ≠ name := by
    rintro rfl
    rw [hfree] at h
    cases h
  have hbeq : (n == name) = false := by simpa using hne
  rw [← h]
  simp [lookup, insert, List.lookup_cons, hbeq]

/-- A struct definition is accepted exactly where the source goes on with one: a name that is still
free and fields that are allowed, with names of their own. It takes that text and one semicolon that
may follow, and adds one type, with its fields in their order; what was named before keeps its
meaning. A definition that is not accepted leaves the session as it was. -/
theorem struct_definition_exact (s : Session) (i : Nat) {tok : Token} (rest : List Token)
    (htok : tok.type = .struct) :
    (∀ j next t, (Build.item i tok rest).run s = .ok (j, next) t ↔
      ∃ us semis name fields b, DerivesItem us (.struct name fields) ∧
        Definable s.types name fields ∧ tok :: rest = us ++ semis ++ next ∧ Trailing semis next ∧
        j = i + (us ++ semis).length ∧ b = (⟨s.types, name, s.endToken⟩ : StructDef).info fields ∧
        t = { s with
          types := s.types.insert name b
          trace := s.trace.push (.struct name b.size fields.length) }) ∧
    (∀ j next t, (Build.item i tok rest).run s = .ok (j, next) t →
      ∀ name b, s.types.lookup name = some b → t.types.lookup name = some b) ∧
    ∀ e t, (Build.item i tok rest).run s = .error e t → t = s := by
  have htaken {us semis next : List Token} (hts : tok :: rest = us ++ semis ++ next) :
      rest.length + 1 - next.length = (us ++ semis).length := by
    have hlen := congrArg List.length hts
    simp only [List.length_cons, List.length_append] at hlen ⊢
    omega
  refine ⟨fun j next t => ?_, fun j next t hrun name b hb => ?_, fun e t => ?_⟩
  · rw [Build.run_item_struct htok]
    constructor
    · rintro ⟨b, hparse, rfl, rfl⟩
      obtain ⟨us, semis, name, fields, hitem, hdef, hts, hsemis, rfl⟩ :=
        (StructDef.parse_eq_info_iff htok).1 hparse
      refine ⟨us, semis, name, fields, _, hitem, hdef, hts, hsemis, ?_, rfl, ?_⟩
      · rw [htaken hts]
      · rw [StructDef.length_info]
        rfl
    · rintro ⟨us, semis, name, fields, b, hitem, hdef, hts, hsemis, rfl, rfl, rfl⟩
      refine ⟨_, (StructDef.parse_eq_info_iff htok).2
        ⟨us, semis, name, fields, hitem, hdef, hts, hsemis, rfl⟩, ?_, ?_⟩
      · rw [htaken hts]
      · rw [StructDef.length_info]
        rfl
  · obtain ⟨b', hparse, -, rfl⟩ := (Build.run_item_struct htok).1 hrun
    obtain ⟨us, semis, name', fields, -, hdef, -, -, rfl⟩ :=
      (StructDef.parse_eq_info_iff htok).1 hparse
    exact Registry.lookup_insert hdef.free hb
  · intro hrun
    exact (Build.run_item_struct_error htok hrun).2

/-- A struct that points to itself, and what is left of the source after it. -/
def linked : List Token :=
  [named "list", { type := .lbrace }, { type := .u16 }, named "head", { type := .semicolon },
    named "list", { type := .star }, named "tail", { type := .semicolon }, { type := .rbrace },
    { type := .semicolon }, named "x"]

def linkedFields : List FieldDecl := [⟨{ type := .u16 }, 0, "head"⟩, ⟨named "list", 1, "tail"⟩]

def linkedInfo : TypeInfo :=
  { prim := .struct, size := 2, name := "list", id := .drawn 0,
    fields :=
      [⟨"head", some TypeInfo.u16.toTypeHead, 0, 0⟩,
        ⟨"tail", some ⟨.struct, 0, "list", .drawn 0⟩, 1, 1⟩] }

theorem definable_linked : Definable {} "list" linkedFields where
  free := rfl
  nonempty := by simp [linkedFields]
  allowed := by
    intro f hf
    simp only [linkedFields, List.mem_cons, List.not_mem_nil, or_false] at hf
    rcases hf with rfl | rfl
    · exact ⟨by simp, by simp, fun _ => ⟨.u16, rfl, by decide⟩⟩
    · exact ⟨by simp [named], by simp, by simp⟩
  distinct := by decide

theorem struct_definition_exact_linked :
    (Build.item 0 { type := .struct } linked).run {} =
      .ok (12, [named "x"])
        { types := { entries := [("list", some linkedInfo)] },
          trace := #[.struct "list" 2 2] } := by
  have htok : ({ type := .struct } : Token).type = .struct := rfl
  have htail : DerivesFields ((linked.drop 5).take 4) [⟨named "list", 1, "tail"⟩] :=
    @DerivesFields.cons _ _ _ [{ type := .star }] _ _ (by simp [named]) (by simp) rfl rfl .nil
  have hfields : DerivesFields ((linked.drop 2).take 7) linkedFields :=
    @DerivesFields.cons _ _ _ [] _ _ (by simp) (by simp) rfl rfl htail
  have hitem : DerivesItem ({ type := .struct } :: linked.take 10) (.struct "list" linkedFields) :=
    @DerivesItem.struct _ (named "list") _ _ _ _ htok rfl rfl hfields rfl
  have hexact := struct_definition_exact {} 0 linked htok
  exact (hexact.1 12 [named "x"] _).2
    ⟨_, [{ type := .semicolon }], "list", linkedFields, linkedInfo, hitem,
      definable_linked, rfl, .inl ⟨_, rfl, rfl⟩, rfl, by decide +kernel, rfl⟩

end OnePass
