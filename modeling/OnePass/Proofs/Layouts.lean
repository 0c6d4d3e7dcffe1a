import Mathlib
import OnePass.Proofs.Generation

namespace OnePass

def Field.words (f : Field) : Int := if 0 < f.depth then 1 else (f.type.map (·.size)).getD 0

/-- The words of a struct's fields, all of them counted. -/
def TypeInfo.span (b : TypeInfo) : Int := (b.fields.map Field.words).sum

/-- No struct's fields together take up 63 bits of words or more. -/
def Registry.Fits (r : Registry) : Prop := ∀ e ∈ r.entries, ∀ b ∈ e.2, b.span < 2 ^ 63

/-- A type that a declaration can name. -/
structure TypeInfo.Named (b : TypeInfo) : Prop where
  regular : b.Regular
  typed : b.prim ≠ .untyped
  void : b.prim = .void → b.size = 0

/-- A field is a word, or has the size of a type among `entries`. -/
def Field.Fitting (entries : List (String × Option TypeInfo)) (f : Field) : Prop :=
  f.words = 1 ∨ ∃ e ∈ entries, ∃ b ∈ e.2, f.words = b.size

/-- A struct made of types among `entries`. -/
structure TypeInfo.Built (entries : List (String × Option TypeInfo)) (b : TypeInfo) : Prop where
  prim : b.prim = .struct
  size : b.size = wrap b.span
  fields : b.fields ≠ []
  fitting : ∀ f ∈ b.fields, f.Fitting entries

/-- Every struct is made of types registered before it. -/
def Built : List (String × Option TypeInfo) → Prop
  | [] => True
  | e :: rest => (∃ b, e.2 = some b ∧ b.Built rest) ∧ Built rest

theorem wrap_range (n : Int) : -2 ^ 63 ≤ wrap n ∧ wrap n < 2 ^ 63 := by
  have hlo := Int.le_bmod (x := n) (m := 0x10000000000000000) (by decide)
  have hhi := Int.bmod_lt (x := n) (m := 0x10000000000000000) (by decide)
  unfold wrap
  omega

theorem TypeInfo.Built.named {entries : List (String × Option TypeInfo)} {b : TypeInfo}
    (h : b.Built entries) : b.Named where
  regular := ⟨by simp [h.prim], by rw [h.size]; exact wrap_range _⟩
  typed := by simp [h.prim]
  void := by simp [h.prim]

theorem TypeInfo.named_builtin : ∀ b ∈ [TypeInfo.void, .u16, .i16], b.Named := by
  intro b hb
  have hregular := regular_builtin b (List.mem_append_left [TypeInfo.untyped] hb)
  simp only [List.mem_cons, List.not_mem_nil, or_false] at hb
  rcases hb with rfl | rfl | rfl <;> exact ⟨hregular, by decide, by decide⟩

theorem Built.named {entries : List (String × Option TypeInfo)} (h : Built entries) :
    ∀ e ∈ entries, ∃ b, e.2 = some b ∧ b.Named := by
  induction entries with
  | nil => simp
  | cons e rest ih =>
    obtain ⟨⟨b, hb, hbuilt⟩, hrest⟩ := h
    exact List.forall_mem_cons.2 ⟨⟨b, hb, hbuilt.named⟩, ih hrest⟩

/-- A type that is named in a session is there, and is one that a declaration can name. -/
theorem Built.named_resolve {types : Registry} {tok : Token} {base : Option TypeInfo}
    (h : Built types.entries) (hbase : types.resolve tok = some base) :
    ∃ b, base = some b ∧ b.Named :=
  Registry.of_resolve (P := fun base => ∃ b, base = some b ∧ b.Named)
    (fun b hb => ⟨b, rfl, TypeInfo.named_builtin b hb⟩) h.named hbase

theorem one_le_sum {ns : List Int} (hne : ns ≠ []) (h : ∀ n ∈ ns, 1 ≤ n) : 1 ≤ ns.sum := by
  cases ns with
  | nil => exact absurd rfl hne
  | cons n ns =>
    rw [List.forall_mem_cons] at h
    have := List.sum_nonneg fun n hn => Int.le_trans (by decide) (h.2 n hn)
    rw [List.sum_cons]
    omega

/-- Where the fields are not too many, every struct has a size. -/
theorem Built.size_pos {entries : List (String × Option TypeInfo)} (h : Built entries)
    (hspan : ∀ e ∈ entries, ∀ b ∈ e.2, b.span < 2 ^ 63) : ∀ e ∈ entries, ∀ b ∈ e.2, 0 < b.size := by
  induction entries with
  | nil => simp
  | cons e rest ih =>
    obtain ⟨⟨b, hb, hbuilt⟩, hrest⟩ := h
    obtain ⟨hhead, htail⟩ := List.forall_mem_cons.1 hspan
    have hpos := ih hrest htail
    have hwords : ∀ n ∈ b.fields.map Field.words, 1 ≤ n := by
      intro n hn
      obtain ⟨f, hf, rfl⟩ := List.mem_map.1 hn
      rcases hbuilt.fitting f hf with h1 | ⟨e', he', c, hc, hsize⟩
      · omega
      · have := hpos e' he' c hc
        omega
    have hsum : 1 ≤ b.span := one_le_sum (by simpa using hbuilt.fields) hwords
    refine List.forall_mem_cons.2 ⟨fun c hc => ?_, hpos⟩
    obtain rfl : b = c := by simpa [hb] using hc
    have := hhead b hc
    rw [hbuilt.size, wrap_eq_self] <;> omega

namespace StructDef

variable {d : StructDef} {l l' : Layout}

/-- A layout of the fields read so far. -/
structure Laid (d : StructDef) (l : Layout) : Prop where
  size : l.size = wrap (l.fields.map Field.words).sum
  fitting : ∀ f ∈ l.fields, f.Fitting d.types.entries

theorem addField_eq_ok_iff {type : Ty} {isSelf : Bool} {name : Token} :
    d.addField l type isSelf name = .ok l' ↔
      (isSelf → type.depth ≠ 0) ∧
        ∃ size, (type.size = .ok size ∧ size ≠ 0) ∧ name.name ∉ l.fields.map (·.name) ∧
          l' = l.add name.name type size := by
  have htaken : (l.fields.find? (·.name = name.name)).isSome ↔
      name.name ∈ l.fields.map (·.name) := by
    simp [List.find?_isSome]
  unfold addField
  simp only [htaken, stop, bind, Except.bind, pure, Except.pure]
  by_cases hself : isSelf = true ∧ type.depth = 0
  · rw [if_pos hself]
    simp [hself]
  · rw [if_neg hself]
    cases type.size with
    | error f => simp [Except.mapError]
    | ok size =>
      have hself : isSelf → type.depth ≠ 0 := fun h h' => hself ⟨h, h'⟩
      simp only [Except.mapError, Except.ok.injEq]
      split_ifs with hzero hname
      · simp_all
      · simp_all
      · simpa [hzero, hname, eq_comm] using fun _ => hself

theorem addField_eq {type : Ty} {isSelf : Bool} {name : Token} (hbase : type.base.isSome)
    (h : d.addField l type isSelf name = .ok l') :
    (isSelf → type.depth ≠ 0) ∧ type.words ≠ 0 ∧ l' = l.add name.name type type.words := by
  obtain ⟨hself, size, ⟨hsize, hne⟩, -, rfl⟩ := addField_eq_ok_iff.1 h
  rw [Ty.size_eq hbase] at hsize
  cases hsize
  exact ⟨hself, hne, rfl⟩

theorem words_field (name : String) (type : Ty) (offset : Int) :
    Field.words ⟨name, type.base.map (·.toTypeHead), type.depth, offset⟩ = type.words := by
  unfold Field.words Ty.words
  cases type.base <;> rfl

theorem fitting_resolve {types : Registry} {tok : Token} {type : Ty} (ht : Built types.entries)
    (hdepth : ¬ 0 < type.depth) (hwords : type.words ≠ 0)
    (hbase : types.resolve tok = some type.base) :
    type.words = 1 ∨ ∃ e ∈ types.entries, ∃ b ∈ e.2, type.words = b.size := by
  rw [Ty.words, if_neg hdepth] at hwords ⊢
  refine Registry.of_resolve (P := fun base => (base.map (·.size)).getD 0 ≠ 0 →
    (base.map (·.size)).getD 0 = 1 ∨
      ∃ e ∈ types.entries, ∃ b ∈ e.2, (base.map (·.size)).getD 0 = b.size) ?_ ?_ hbase hwords
  · simp [TypeInfo.void, TypeInfo.u16, TypeInfo.i16]
  · intro e he _
    obtain ⟨b, hb, -⟩ := ht.named e he
    exact .inr ⟨e, he, b, hb, by simp [hb]⟩

theorem resolve_base {tok : Token} {type : Ty} (ht : Built d.types.entries)
    (h : d.resolve tok = some type.base) :
    type.base.isSome ∧ (¬ d.isSelf tok → d.types.resolve tok = some type.base) := by
  unfold resolve at h
  split at h
  · exact ⟨by rw [← Option.some.inj h]; rfl, fun hs => absurd ‹_› hs⟩
  · obtain ⟨b, hb, -⟩ := ht.named_resolve h
    exact ⟨by simp [hb], fun _ => h⟩

theorem Laid.addField {tok name : Token} {type : Ty} (ht : Built d.types.entries) (h : d.Laid l)
    (hnonneg : 0 ≤ type.depth) (hbase : d.resolve tok = some type.base)
    (hadd : d.addField l type (d.isSelf tok) name = .ok l') : d.Laid l' := by
  obtain ⟨hsome, hother⟩ := resolve_base ht hbase
  obtain ⟨hself, hwords, rfl⟩ := addField_eq hsome hadd
  have hfitting : Field.Fitting d.types.entries
      ⟨name.name, type.base.map (·.toTypeHead), type.depth, l.size⟩ := by
    unfold Field.Fitting
    rw [words_field]
    by_cases hpos : 0 < type.depth
    · exact .inl (by simp [Ty.words, hpos])
    · exact fitting_resolve ht hpos hwords (hother fun hs => hself hs (by omega))
  refine ⟨?_, ?_⟩
  · simp only [Layout.add, List.map_append, List.map_cons, List.map_nil, List.sum_append,
      List.sum_cons, List.sum_nil, words_field, add_zero]
    rw [h.size, wrap_wrap_add]
  · intro f hf
    rcases List.mem_append.1 hf with hf | hf
    · exact h.fitting f hf
    · rw [List.mem_singleton.1 hf]
      exact hfitting

theorem Laid.body {ts rest : List Token} (ht : Built d.types.entries) (h : d.Laid l)
    (hbody : d.body l ts = .ok (l', rest)) : d.Laid l' := by
  fun_induction StructDef.body d l ts with
  | case2 l tok rest' =>
    cases hbody
    exact h
  | case10 l tok rest' base hbase name _ type l'' hadd =>
    rename_i ih
    exact ih (h.addField ht (Int.natCast_nonneg _) hbase hadd) hbody
  | _ => simp_all [stop]

def fieldEnd (d : StructDef) (l : Layout) (tok : Token) (type : Ty) (fields : List Token) :
    Except Stop (Layout × List Token) :=
  match fields with
  | [] => stop d.atEnd (.expected .fieldName d.atEnd)
  | name :: rest =>
    if name.type ≠ .identifier then stop name (.expected .fieldName name)
    else
      match d.addField l type (d.isSelf tok) name with
      | .error e => .error e
      | .ok l' =>
        match rest with
        | [] => stop d.atEnd (.expected (.fieldEnd name.name) d.atEnd)
        | semi :: rest' =>
          if semi.type ≠ .semicolon then stop semi (.expected (.fieldEnd name.name) semi)
          else d.body l' rest'

def field (d : StructDef) (l : Layout) (tok : Token) (rest : List Token) :
    Except Stop (Layout × List Token) :=
  match d.resolve tok with
  | none => stop tok (.fieldTypeUnknown tok d.name)
  | some base =>
    d.fieldEnd l tok ⟨base, (rest.takeWhile Token.isStar).length⟩ (rest.dropWhile Token.isStar)

theorem body_cons (d : StructDef) (l : Layout) (tok : Token) (rest : List Token) :
    d.body l (tok :: rest) =
      match tok.type with
      | .rbrace => .ok (l, rest)
      | .eof => stop tok (.structUnterminated d.name)
      | _ => d.field l tok rest := by
  rw [body]
  cases tok.type with
  | rbrace => rfl
  | eof => rfl
  | _ =>
    dsimp only
    unfold field
    cases d.resolve tok with
    | none => rfl
    | some base =>
      dsimp only
      unfold fieldEnd
      split
      · rename_i hdrop
        rw [hdrop]
      · rename_i name rest' hdrop
        conv_rhs => rw [hdrop]
        cases rest' <;> rfl

theorem parse_eq_ok_iff {types : Registry} {atEnd : Token} {ts rest : List Token} {b : TypeInfo} :
    parse types atEnd ts = .ok (b, rest) ↔
      ∃ name brace tail l left, ts = name :: brace :: tail ∧ name.type = .identifier ∧
        types.lookup name.name = none ∧ brace.type = .lbrace ∧
        (⟨types, name.name, atEnd⟩ : StructDef).body {} tail = .ok (l, left) ∧ l.fields ≠ [] ∧
        b = { (⟨types, name.name, atEnd⟩ : StructDef).self with
          size := l.size, fields := l.fields } ∧
        rest = skipSemicolon left := by
  constructor
  · intro h
    -- one check after the other: the name, that it is free, the brace, the body, some field
    unfold parse at h
    split at h
    · cases h
    rename_i name tail
    split at h
    · cases h
    rename_i hname
    split at h
    · cases h
    rename_i hfree
    split at h
    · cases h
    rename_i brace tail
    split at h
    · cases h
    rename_i hbrace
    dsimp only at h
    split at h
    · cases h
    rename_i l left hbody
    split at h
    · cases h
    rename_i hfields
    cases h
    exact ⟨name, brace, tail, l, left, rfl, by simpa using hname, by simpa using hfree,
      by simpa using hbrace, hbody, by simpa using hfields, rfl, rfl⟩
  · rintro ⟨name, brace, tail, l, left, rfl, hname, hfree, hbrace, hbody, hfields, rfl, rfl⟩
    unfold parse
    simp [hname, hfree, hbrace, hbody, hfields]

/-- A definition that is read whole is a struct made of types known before. -/
theorem built_parse {types : Registry} {atEnd : Token} {ts rest : List Token} {b : TypeInfo}
    (ht : Built types.entries) (h : parse types atEnd ts = .ok (b, rest)) :
    b.Built types.entries := by
  obtain ⟨name, brace, tail, l, left, -, -, -, -, hbody, hfields, rfl, -⟩ := parse_eq_ok_iff.1 h
  have hlaid := Laid.body ht ⟨rfl, by simp⟩ hbody
  exact ⟨rfl, hlaid.size, hfields, hlaid.fitting⟩

end StructDef

end OnePass
