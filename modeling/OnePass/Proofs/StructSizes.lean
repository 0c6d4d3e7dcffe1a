import Mathlib
import OnePass.Proofs.Footprint
import OnePass.Proofs.Incremental
import OnePass.Proofs.SourceText

namespace OnePass

/-- The registries that come from `r` by definitions, each read where those before it are known. -/
inductive Registry.Grows (r : Registry) : Registry → Prop where
  | refl : Grows r r
  | define {r' : Registry} {atEnd : Token} {ts rest : List Token} {b : TypeInfo} (h : Grows r r')
      (hparse : StructDef.parse r' atEnd ts = .ok (b, rest)) : Grows r (r'.insert b.name b)

theorem Registry.Grows.trans {r₁ r₂ r₃ : Registry} (h : r₁.Grows r₂) (h' : r₂.Grows r₃) :
    r₁.Grows r₃ := by
  induction h' with
  | refl => exact h
  | define _ hparse ih => exact ih.define hparse

namespace Build

def Grown (s t : Session) : Prop := s.types.Grows t.types

instance : IsPreorder Session Grown where
  refl _ := .refl
  trans _ _ _ := .trans

theorem Leaves.grown {α : Type} {m : Build α} (h : Leaves SameTypes m) : Leaves Grown m := by
  intro s
  unfold Grown
  rw [show (s.run m).2.types = s.types from h s]
  exact .refl

theorem leaves_definition {β : Type} {ts : List Token}
    {f : { p : TypeInfo × List Token // p.2.length ≤ ts.length } → Build β}
    (hf : ∀ read, Leaves Grown (f read)) :
    Leaves Grown (readStruct ts >>= fun read => registerStruct read.1.1 >>= fun _ => f read) := by
  intro s
  unfold Session.run
  rw [EStateM.run_bind]
  cases hr : EStateM.run (readStruct ts) s with
  | error e t =>
    rw [(run_readStruct_error hr).2]
    exact .refl
  | ok read t =>
    obtain ⟨hparse, rfl⟩ := run_readStruct_eq_ok.1 hr
    let u : Session :=
      { t with
        types := t.types.insert read.1.1.name read.1.1
        trace := t.trace.push (.struct read.1.1.name read.1.1.size read.1.1.fields.length) }
    exact (Registry.Grows.refl.define hparse).trans (hf read u)

theorem leaves_items (i : Nat) (ts : List Token) : Leaves Grown (items i ts) := by
  fun_induction items i ts with
  | case1 i => exact leaves_get.bind fun _ => (leaves_endSource _).grown
  | case2 i tok rest => exact (leaves_endSource tok).grown
  | case3 i tok rest htok ih => exact leaves_definition ih
  | case4 i tok rest htok ih => exact leaves_openBlock.grown.bind fun _ => ih
  | case5 i tok rest htok ih => exact (leaves_closeBlock tok).grown.bind fun _ => ih
  | case6 i tok rest h₁ h₂ h₃ h₄ ih => exact (leaves_statement i _).grown.bind fun _ => ih

end Build

/-- A field of a struct whose definition follows `entries`: a pointer, an integer, or by value a
struct among `entries`. -/
def Field.Follows (entries : List (String × Option TypeInfo)) (f : Field) : Prop :=
  0 < f.depth ∨ f.depth = 0 ∧ ∃ h, f.type = some h ∧
    (h = TypeInfo.u16.toTypeHead ∨ h = TypeInfo.i16.toTypeHead ∨
      ∃ e ∈ entries, ∃ c ∈ e.2, h = c.toTypeHead)

/-- Fields that lie one behind the other, as far as 64 bits tell. -/
def Consecutive (fields : List Field) : Prop :=
  ∀ before f after, fields = before ++ f :: after → f.offset = wrap (before.map Field.words).sum

theorem IdSupply.drawn_inj {ids : IdSupply} {m n : Nat} :
    TypeId.drawn (ids.draw m) = .drawn (ids.draw n) ↔ m = n :=
  ⟨fun h => ids.injective (TypeId.drawn.inj h), fun h => h ▸ rfl⟩

/-- A struct whose definition follows `entries`. -/
structure TypeInfo.Follows (ids : IdSupply) (entries : List (String × Option TypeInfo))
    (b : TypeInfo) : Prop where
  id : b.id = .drawn (ids.draw entries.length)
  fields : ∀ f ∈ b.fields, f.Follows entries
  offsets : Consecutive b.fields

/-- Every struct follows those registered before it. -/
def Ordered (ids : IdSupply) : List (String × Option TypeInfo) → Prop
  | [] => True
  | e :: rest => (∃ b, e.2 = some b ∧ b.Built rest ∧ b.Follows ids rest) ∧ Ordered ids rest

theorem Ordered.built {ids : IdSupply} {entries : List (String × Option TypeInfo)}
    (h : Ordered ids entries) : Built entries := by
  induction entries with
  | nil => trivial
  | cons e rest ih =>
    obtain ⟨⟨b, hb, hbuilt, -⟩, hrest⟩ := h
    exact ⟨⟨b, hb, hbuilt⟩, ih hrest⟩

namespace StructDef

variable {d : StructDef} {l l' : Layout}

structure Arranged (d : StructDef) (l : Layout) : Prop extends Laid d l where
  fields : ∀ f ∈ l.fields, f.Follows d.types.entries
  offsets : Consecutive l.fields

theorem follows_resolve {types : Registry} {tok : Token} {type : Ty} (ht : Built types.entries)
    (hdepth : type.depth = 0) (hwords : type.words ≠ 0)
    (hbase : types.resolve tok = some type.base) (name : String) (offset : Int) :
    Field.Follows types.entries ⟨name, type.base.map (·.toTypeHead), type.depth, offset⟩ := by
  obtain ⟨base, depth⟩ := type
  subst hdepth
  simp only [Ty.words, Int.lt_irrefl, if_false] at hwords
  refine .inr ⟨rfl, ?_⟩
  dsimp only at hbase hwords ⊢
  -- the type is a scalar or an earlier struct, and what is void has no words
  unfold Registry.resolve at hbase
  split at hbase
  · cases hbase
    exact absurd rfl hwords
  · cases hbase
    exact ⟨_, rfl, .inl rfl⟩
  · cases hbase
    exact ⟨_, rfl, .inr (.inl rfl)⟩
  · obtain ⟨l₁, l₂, heq, -⟩ := List.lookup_eq_some_iff.1 hbase
    have hmem : (tok.name, base) ∈ types.entries := by simp [heq]
    obtain ⟨c, hc, -⟩ := ht.named _ hmem
    dsimp only at hc
    subst hc
    exact ⟨_, rfl, .inr (.inr ⟨_, hmem, c, rfl, rfl⟩)⟩
  · cases hbase

theorem consecutive_append {fields : List Field} {f : Field} (h : Consecutive fields)
    (hf : f.offset = wrap (fields.map Field.words).sum) : Consecutive (fields ++ [f]) := by
  intro before g after heq
  rcases List.eq_nil_or_concat after with rfl | ⟨after, last, rfl⟩
  · obtain ⟨rfl, hg⟩ := List.append_inj' heq rfl
    cases hg
    exact hf
  · rw [List.concat_eq_append, ← List.cons_append, ← List.append_assoc] at heq
    exact h before g after (List.append_inj' heq rfl).1

theorem Arranged.addField {tok name : Token} {type : Ty} (ht : Built d.types.entries)
    (h : d.Arranged l) (hnonneg : 0 ≤ type.depth) (hbase : d.resolve tok = some type.base)
    (hadd : d.addField l type (d.isSelf tok) name = .ok l') : d.Arranged l' := by
  have hlaid := h.toLaid.addField ht hnonneg hbase hadd
  obtain ⟨hsome, hother⟩ := resolve_base ht hbase
  obtain ⟨hself, hwords, rfl⟩ := addField_eq hsome hadd
  have hfollows : Field.Follows d.types.entries
      ⟨name.name, type.base.map (·.toTypeHead), type.depth, l.size⟩ := by
    by_cases hpos : 0 < type.depth
    · exact .inl hpos
    · have hzero : type.depth = 0 := by omega
      exact follows_resolve ht hzero hwords (hother fun hs => hself hs hzero) _ _
  refine ⟨hlaid, ?_, consecutive_append h.offsets h.size⟩
  intro f hf
  rcases List.mem_append.1 hf with hf | hf
  · exact h.fields f hf
  · rw [List.mem_singleton.1 hf]
    exact hfollows

theorem Arranged.body {ts rest : List Token} (ht : Built d.types.entries) (h : d.Arranged l)
    (hbody : d.body l ts = .ok (l', rest)) : d.Arranged l' := by
  fun_induction StructDef.body d l ts with
  | case2 l tok rest' =>
    cases hbody
    exact h
  | case10 l tok rest' base hbase name _ type l'' hadd =>
    rename_i ih
    exact ih (h.addField ht (Int.natCast_nonneg _) hbase hadd) hbody
  | _ => simp_all [stop]

theorem follows_parse {types : Registry} {atEnd : Token} {ts rest : List Token} {b : TypeInfo}
    (ht : Built types.entries) (h : parse types atEnd ts = .ok (b, rest)) :
    b.Follows types.ids types.entries := by
  obtain ⟨name, brace, tail, l, left, -, -, -, -, hbody, -, rfl, -⟩ := parse_eq_ok_iff.1 h
  have hempty : Arranged ⟨types, name.name, atEnd⟩ {} := by
    refine ⟨⟨rfl, by simp⟩, by simp, ?_⟩
    intro before f after heq
    simp at heq
  have hl := hempty.body ht hbody
  exact ⟨rfl, hl.fields, hl.offsets⟩

end StructDef

theorem Registry.Grows.ids {r r' : Registry} (h : r.Grows r') : r'.ids = r.ids := by
  induction h with
  | refl => rfl
  | define _ _ ih => exact ih

theorem Ordered.grows {r r' : Registry} (h : Ordered r.ids r.entries) (hg : r.Grows r') :
    Ordered r.ids r'.entries := by
  induction hg with
  | refl => exact h
  | define hg hparse ih =>
    have hfollows := StructDef.follows_parse ih.built hparse
    rw [hg.ids] at hfollows
    exact ⟨⟨_, rfl, StructDef.built_parse ih.built hparse, hfollows⟩, ih⟩

/-- The words of a type, counted without a bound: those of a struct are the words of its fields, and
a pointer is one word. -/
def exactWords : List (String × Option TypeInfo) → TypeHead → Int
  | [], h => h.size
  | e :: rest, h =>
    match e.2 with
    | none => exactWords rest h
    | some b =>
      if b.id = h.id then
        (b.fields.map fun f =>
          if 0 < f.depth then 1 else (f.type.map (exactWords rest)).getD 0).sum
      else exactWords rest h

/-- The words of a field, counted without a bound. -/
def Field.exact (entries : List (String × Option TypeInfo)) (f : Field) : Int :=
  if 0 < f.depth then 1 else (f.type.map (exactWords entries)).getD 0

section Exact

variable {ids : IdSupply} {entries rest : List (String × Option TypeInfo)}
  {e : String × Option TypeInfo} {b : TypeInfo} {f : Field}

theorem exactWords_self (he : e.2 = some b) :
    exactWords (e :: rest) b.toTypeHead = (b.fields.map (Field.exact rest)).sum := by
  rw [exactWords, he]
  exact if_pos rfl

theorem exactWords_other {h : TypeHead} (he : e.2 = some b) (hne : b.id ≠ h.id) :
    exactWords (e :: rest) h = exactWords rest h := by
  rw [exactWords, he]
  exact if_neg hne

theorem Ordered.id_lt (h : Ordered ids entries) :
    ∀ e ∈ entries, ∀ b ∈ e.2, ∃ n < entries.length, b.id = .drawn (ids.draw n) := by
  induction entries with
  | nil => simp
  | cons e rest ih =>
    obtain ⟨⟨b, hb, -, hfollows⟩, hrest⟩ := h
    rw [List.forall_mem_cons]
    constructor
    · intro c hc
      obtain rfl : b = c := by simpa [hb] using hc
      exact ⟨rest.length, by simp, hfollows.id⟩
    · intro e he c hc
      obtain ⟨n, hn, hid⟩ := ih hrest e he c hc
      exact ⟨n, by rw [List.length_cons]; omega, hid⟩

theorem Ordered.id_ne (h : Ordered ids rest) (hid : b.id = .drawn (ids.draw rest.length)) :
    ∀ e ∈ rest, ∀ c ∈ e.2, b.id ≠ c.id := by
  intro e he c hc
  obtain ⟨n, hn, hcid⟩ := h.id_lt e he c hc
  rw [hid, hcid, ne_eq, IdSupply.drawn_inj]
  omega

theorem Field.Follows.cons (h : f.Follows rest) (e : String × Option TypeInfo) :
    f.Follows (e :: rest) := by
  rcases h with hpos | ⟨hzero, t, ht, h₁ | h₂ | ⟨e', he', c, hc, hhead⟩⟩
  · exact .inl hpos
  · exact .inr ⟨hzero, t, ht, .inl h₁⟩
  · exact .inr ⟨hzero, t, ht, .inr (.inl h₂)⟩
  · exact .inr ⟨hzero, t, ht, .inr (.inr ⟨e', List.mem_cons_of_mem e he', c, hc, hhead⟩)⟩

theorem Field.exact_cons (hrest : Ordered ids rest) (he : e.2 = some b)
    (hid : b.id = .drawn (ids.draw rest.length)) (hf : f.Follows rest) :
    f.exact (e :: rest) = f.exact rest := by
  unfold Field.exact
  rcases hf with hpos | ⟨-, t, ht, hhead⟩
  · rw [if_pos hpos, if_pos hpos]
  · have hne : b.id ≠ t.id := by
      rcases hhead with rfl | rfl | ⟨e', he', c, hc, rfl⟩
      · simp [hid, TypeInfo.u16]
      · simp [hid, TypeInfo.i16]
      · exact hrest.id_ne hid e' he' c hc
    rw [ht, Option.map_some, Option.map_some, exactWords_other he hne]

theorem exactWords_builtin (h : Ordered ids entries) {t : TypeHead} (ht : t.id = .builtin) :
    exactWords entries t = t.size := by
  induction entries with
  | nil => rfl
  | cons e rest ih =>
    obtain ⟨⟨b, hb, -, hfollows⟩, hrest⟩ := h
    have hne : b.id ≠ t.id := by simp [hfollows.id, ht]
    rw [exactWords_other hb hne, ih hrest]

/-- The words of a struct are at least one, are those of its fields together, and tell its size up
to a multiple of `2 ^ 64`. -/
structure TypeInfo.Counted (entries : List (String × Option TypeInfo)) (b : TypeInfo) : Prop where
  sum : exactWords entries b.toTypeHead = (b.fields.map (Field.exact entries)).sum
  positive : 1 ≤ exactWords entries b.toTypeHead
  size : b.size = wrap (exactWords entries b.toTypeHead)

theorem wrap_sum_congr {fields : List Field} {v w : Field → Int}
    (h : ∀ f ∈ fields, wrap (v f) = wrap (w f)) :
    wrap (fields.map v).sum = wrap (fields.map w).sum := by
  induction fields with
  | nil => rfl
  | cons f fields ih =>
    rw [List.forall_mem_cons] at h
    rw [List.map_cons, List.map_cons, List.sum_cons, List.sum_cons, ← wrap_wrap_add, h.1,
      wrap_wrap_add, ← wrap_add_wrap, ih h.2, wrap_add_wrap]

theorem Field.Follows.counted (h : f.Follows entries) (hordered : Ordered ids entries)
    (hcounted : ∀ e ∈ entries, ∀ c ∈ e.2, c.Counted entries) :
    1 ≤ f.exact entries ∧ wrap f.words = wrap (f.exact entries) ∧
      (f.exact entries < 2 ^ 63 → f.words = f.exact entries) := by
  unfold Field.exact Field.words
  rcases h with hpos | ⟨hzero, t, ht, hhead⟩
  · rw [if_pos hpos, if_pos hpos]
    exact ⟨le_rfl, rfl, fun _ => rfl⟩
  · have hneg : ¬ 0 < f.depth := by omega
    rw [if_neg hneg, if_neg hneg, ht, Option.map_some, Option.map_some, Option.getD_some,
      Option.getD_some]
    rcases hhead with rfl | rfl | ⟨e, he, c, hc, rfl⟩
    · rw [exactWords_builtin hordered rfl]
      exact ⟨le_rfl, rfl, fun _ => rfl⟩
    · rw [exactWords_builtin hordered rfl]
      exact ⟨le_rfl, rfl, fun _ => rfl⟩
    · have hc := hcounted e he c hc
      rw [hc.size, wrap_wrap]
      refine ⟨hc.positive, rfl, ?_⟩
      intro hlt
      have := hc.positive
      exact wrap_eq_self (by omega) hlt

theorem Ordered.counted (h : Ordered ids entries) :
    ∀ e ∈ entries, ∀ b ∈ e.2, b.Counted entries ∧ ∀ f ∈ b.fields, f.Follows entries := by
  induction entries with
  | nil => simp
  | cons e rest ih =>
    obtain ⟨⟨b, hb, hbuilt, hfollows⟩, hrest⟩ := h
    have ih := ih hrest
    -- a new entry has an id of its own, so no field laid out before it is counted otherwise
    have hstable : ∀ f : Field, f.Follows rest → f.exact (e :: rest) = f.exact rest :=
      fun f => Field.exact_cons hrest hb hfollows.id
    rw [List.forall_mem_cons]
    constructor
    · intro c hc
      obtain rfl : b = c := by simpa [hb] using hc
      have hcounted := fun f hf => (hfollows.fields f hf).counted hrest fun e he c hc =>
        (ih e he c hc).1
      have hsame : b.fields.map (Field.exact (e :: rest)) = b.fields.map (Field.exact rest) :=
        List.map_congr_left fun f hf => hstable f (hfollows.fields f hf)
      refine ⟨⟨?_, ?_, ?_⟩, fun f hf => (hfollows.fields f hf).cons e⟩
      · rw [exactWords_self hb, hsame]
      · rw [exactWords_self hb]
        apply one_le_sum (by simpa using hbuilt.fields)
        intro n hn
        obtain ⟨f, hf, rfl⟩ := List.mem_map.1 hn
        exact (hcounted f hf).1
      · rw [exactWords_self hb, hbuilt.size, TypeInfo.span]
        exact wrap_sum_congr fun f hf => (hcounted f hf).2.1
    · intro e' he' c hc
      obtain ⟨hcounted, hfields⟩ := ih e' he' c hc
      have hne := hrest.id_ne hfollows.id e' he' c hc
      have hsame : c.fields.map (Field.exact (e :: rest)) = c.fields.map (Field.exact rest) :=
        List.map_congr_left fun f hf => hstable f (hfields f hf)
      refine ⟨⟨?_, ?_, ?_⟩, fun f hf => (hfields f hf).cons e⟩
      · rw [exactWords_other hb hne, hsame, hcounted.sum]
      · rw [exactWords_other hb hne]
        exact hcounted.positive
      · rw [exactWords_other hb hne]
        exact hcounted.size

/-- A struct whose size is the number of its words, and whose fields lie one after another and fill
it. -/
structure TypeInfo.SoundLayout (entries : List (String × Option TypeInfo)) (b : TypeInfo) :
    Prop where
  positive : 0 < b.size
  size : b.size = (b.fields.map (Field.exact entries)).sum
  words : ∀ f ∈ b.fields, 1 ≤ f.words ∧ f.words = f.exact entries
  offsets : ∀ before f after, b.fields = before ++ f :: after →
    f.offset = (before.map Field.words).sum
  disjoint : b.fields.Pairwise fun f g => f.offset + f.words ≤ g.offset
  inside : ∀ f ∈ b.fields, 0 ≤ f.offset ∧ f.offset + f.words ≤ b.size

theorem sum_words_nonneg {fields : List Field} (h : ∀ f ∈ fields, 1 ≤ f.words) :
    0 ≤ (fields.map Field.words).sum := by
  apply List.sum_nonneg
  intro n hn
  obtain ⟨f, hf, rfl⟩ := List.mem_map.1 hn
  have := h f hf
  omega

theorem pairwise_of_offsets {fields : List Field} (start : Int)
    (hwords : ∀ f ∈ fields, 1 ≤ f.words)
    (h : ∀ before f after, fields = before ++ f :: after →
      f.offset = start + (before.map Field.words).sum) :
    fields.Pairwise fun f g => f.offset + f.words ≤ g.offset := by
  induction fields generalizing start with
  | nil => exact .nil
  | cons f fields ih =>
    rw [List.forall_mem_cons] at hwords
    have hfirst := h [] f fields rfl
    have hlater : ∀ before g after, fields = before ++ g :: after →
        g.offset = start + f.words + (before.map Field.words).sum := by
      intro before g after heq
      rw [h (f :: before) g after (by rw [heq]; rfl), List.map_cons, List.sum_cons]
      omega
    rw [List.pairwise_cons]
    refine ⟨?_, ih _ hwords.2 hlater⟩
    intro g hg
    obtain ⟨before, after, heq⟩ := List.append_of_mem hg
    have hbefore : 0 ≤ (before.map Field.words).sum :=
      sum_words_nonneg fun f hf => hwords.2 f (by simp [heq, hf])
    rw [hlater before g after heq, hfirst, List.map_nil, List.sum_nil]
    omega

theorem TypeInfo.Counted.soundLayout (h : b.Counted entries) (hordered : Ordered ids entries)
    (hfields : ∀ f ∈ b.fields, f.Follows entries) (hoffsets : Consecutive b.fields)
    (hlt : exactWords entries b.toTypeHead < 2 ^ 63) : b.SoundLayout entries := by
  have hpos := h.positive
  have hsize : b.size = exactWords entries b.toTypeHead := by
    rw [h.size]
    exact wrap_eq_self (by omega) hlt
  have hcounted := fun f hf => (hfields f hf).counted hordered fun e he c hc =>
    (hordered.counted e he c hc).1
  -- a field is not larger than the whole, so its words do not wrap around either
  have hwords : ∀ f ∈ b.fields, f.words = f.exact entries := by
    intro f hf
    apply (hcounted f hf).2.2
    have hle : f.exact entries ≤ (b.fields.map (Field.exact entries)).sum := by
      apply List.single_le_sum
      · intro n hn
        obtain ⟨g, hg, rfl⟩ := List.mem_map.1 hn
        have := (hcounted g hg).1
        omega
      · exact List.mem_map_of_mem hf
    rw [h.sum] at hlt
    omega
  have hone : ∀ f ∈ b.fields, 1 ≤ f.words := by
    intro f hf
    rw [hwords f hf]
    exact (hcounted f hf).1
  have hsum : exactWords entries b.toTypeHead = (b.fields.map Field.words).sum := by
    rw [h.sum, List.map_congr_left hwords]
  have hsplit : ∀ before f after, b.fields = before ++ f :: after →
      0 ≤ (before.map Field.words).sum ∧
        (before.map Field.words).sum + f.words ≤ exactWords entries b.toTypeHead := by
    intro before f after heq
    have hbefore : 0 ≤ (before.map Field.words).sum :=
      sum_words_nonneg fun g hg => hone g (by simp [heq, hg])
    have hafter : 0 ≤ (after.map Field.words).sum :=
      sum_words_nonneg fun g hg => hone g (by simp [heq, hg])
    rw [hsum, heq, List.map_append, List.sum_append, List.map_cons, List.sum_cons]
    omega
  have hoffset : ∀ before f after, b.fields = before ++ f :: after →
      f.offset = (before.map Field.words).sum := by
    intro before f after heq
    obtain ⟨hlow, hhigh⟩ := hsplit before f after heq
    have := hone f (by simp [heq])
    rw [hoffsets before f after heq]
    exact wrap_eq_self (by omega) (by omega)
  refine ⟨by omega, by rw [hsize, h.sum], fun f hf => ⟨hone f hf, hwords f hf⟩, hoffset, ?_, ?_⟩
  · apply pairwise_of_offsets 0 hone
    intro before f after heq
    rw [hoffset before f after heq, zero_add]
  · intro f hf
    obtain ⟨before, after, heq⟩ := List.append_of_mem hf
    obtain ⟨hlow, hhigh⟩ := hsplit before f after heq
    rw [hoffset before f after heq]
    omega

end Exact

/-- A struct has a field that by value is a struct, both of them given by their identities. -/
def Registry.Embeds (r : Registry) (i j : TypeId) : Prop :=
  ∃ e ∈ r.entries, ∃ b ∈ e.2, b.id = i ∧ ∃ f ∈ b.fields, ¬ 0 < f.depth ∧ ∃ h ∈ f.type,
    h.prim = .struct ∧ h.id = j

theorem Ordered.lt_of_embeds {ids : IdSupply} {r : Registry} {i j : TypeId}
    (h : Ordered ids r.entries) (hij : r.Embeds i j) :
    ∃ m n, i = .drawn (ids.draw m) ∧ j = .drawn (ids.draw n) ∧ n < m := by
  obtain ⟨entries, _⟩ := r
  obtain ⟨e, he, b, hb, hi, f, hf, hdepth, t, ht, hprim, hj⟩ := hij
  dsimp only at h he
  induction entries with
  | nil => simp at he
  | cons e' rest ih =>
    obtain ⟨⟨c, hc, -, hfollows⟩, hrest⟩ := h
    rcases List.mem_cons.1 he with rfl | he
    · obtain rfl : c = b := by simpa [hc] using hb
      rcases hfollows.fields f hf with hpos | ⟨-, t', ht', hhead⟩
      · exact absurd hpos hdepth
      · obtain rfl : t' = t := by simpa [ht'] using ht
        rcases hhead with rfl | rfl | ⟨e', he', c', hc', rfl⟩
        · cases hprim
        · cases hprim
        · obtain ⟨n, hn, hid⟩ := hrest.id_lt e' he' c' hc'
          exact ⟨rest.length, n, hi ▸ hfollows.id, hj ▸ hid, hn⟩
    · exact ih hrest he

theorem Ordered.lt_of_transGen {ids : IdSupply} {r : Registry} {i j : TypeId}
    (h : Ordered ids r.entries) (hij : Relation.TransGen r.Embeds i j) :
    ∃ m n, i = .drawn (ids.draw m) ∧ j = .drawn (ids.draw n) ∧ n < m := by
  induction hij with
  | single hij => exact h.lt_of_embeds hij
  | tail _ hjk ih =>
    obtain ⟨m, n, hi, hj, hlt⟩ := ih
    obtain ⟨m', n', hj', hk, hlt'⟩ := h.lt_of_embeds hjk
    obtain rfl : n = m' := IdSupply.drawn_inj.1 (hj.symm.trans hj')
    exact ⟨m, n', hi, hk, by omega⟩

theorem Ordered.consecutive {ids : IdSupply} {entries : List (String × Option TypeInfo)}
    (h : Ordered ids entries) :
    ∀ e ∈ entries, ∃ b, e.2 = some b ∧ Consecutive b.fields := by
  induction entries with
  | nil => simp
  | cons e rest ih =>
    obtain ⟨⟨b, hb, -, hfollows⟩, hrest⟩ := h
    exact List.forall_mem_cons.2 ⟨⟨b, hb, hfollows.offsets⟩, ih hrest⟩

theorem compileFeed_session {ids : IdSupply} {feed : Feed} {size : Option Int}
    (hallot : Lexer.allotBuffer size = .ok ()) (h : (tokenize feed size).error = none) :
    (compileFeed ids feed size).session =
      ((Session.fresh ids).run (Build.compile (tokenize feed size).tokens)).2 := by
  unfold compileFeed
  rw [hallot]
  dsimp only
  rw [h]
  dsimp only
  split
  · next heq => rw [heq]
  · next heq => rw [heq]

theorem ordered_compileFeed (ids : IdSupply) (feed : Feed) (size : Option Int) :
    Ordered ids (compileFeed ids feed size).session.types.entries := by
  cases hallot : Lexer.allotBuffer size with
  | error f =>
    unfold compileFeed
    rw [hallot]
    trivial
  | ok =>
    cases herror : (tokenize feed size).error with
    | some e =>
      unfold compileFeed
      rw [hallot]
      dsimp only
      rw [herror]
      trivial
    | none =>
      rw [compileFeed_session hallot herror]
      apply Ordered.grows (r := { ids }) trivial
      exact Build.leaves_items 0 (tokenize feed size).tokens
        { Session.fresh ids with tokens := (tokenize feed size).tokens.toArray }

/-- No struct of a compiled source holds itself by value, whatever structs lie between. The size of
a struct is the number of its words, and its fields lie one after another and fill it, just when the
words can be counted in 63 bits; otherwise the size wraps around. -/
theorem soundLayout_iff_lt (ids : IdSupply) (feed : Feed) (size : Option Int) :
    let r := (compileFeed ids feed size).session.types
    (∀ i, ¬Relation.TransGen r.Embeds i i) ∧
      ∀ e ∈ r.entries, ∃ b, e.2 = some b ∧ (∀ f ∈ b.fields, f.Follows r.entries) ∧
        b.size = wrap (exactWords r.entries b.toTypeHead) ∧
        (b.SoundLayout r.entries ↔ exactWords r.entries b.toTypeHead < 2 ^ 63) := by
  intro r
  have hordered : Ordered ids r.entries := ordered_compileFeed ids feed size
  constructor
  · intro i hi
    obtain ⟨m, n, rfl, hn, hlt⟩ := hordered.lt_of_transGen hi
    have := IdSupply.drawn_inj.1 hn
    omega
  · intro e he
    obtain ⟨b, hb, hoffsets⟩ := hordered.consecutive e he
    obtain ⟨hcounted, hfields⟩ := hordered.counted e he b hb
    refine ⟨b, hb, hfields, hcounted.size, ?_⟩
    constructor
    · intro hsound
      rw [hcounted.sum, ← hsound.size, hcounted.size]
      exact (wrap_range _).2
    · exact hcounted.soundLayout hordered hfields hoffsets

def named (name : String) : Token := { type := .identifier, name }

def uniform (name : String) (type : Token) (fields : List String) : List Token :=
  [{ type := .struct }, named name, { type := .lbrace }] ++
    fields.flatMap (fun f => [type, named f, { type := .semicolon }]) ++ [{ type := .rbrace }]

def sourceOf (toks : List Token) : Feed := ⟨sourceBytes (spacedOut toks) [], [], .full⟩

theorem session_sourceOf {toks : List Token} (h : ∀ t ∈ toks, t.writable ∧ t.text.length < 64) :
    (compileFeed .serial (sourceOf toks) none).session =
      ((Session.fresh .serial).run (Build.compile (toks.map fun t => { t with line := 1 }))).2 := by
  have hroom : ∀ t ∈ toks, t.isWord ∨ t.isNumber → t.text.length < Lexer.capacityOf none :=
    fun t ht _ => (h t ht).2
  obtain ⟨htokens, herror⟩ := tokenize_spacedOut (fun t ht => (h t ht).1) hroom
  rw [sourceOf, compileFeed_session rfl herror, htokens]

/-- A struct that holds another one twice, and between them a pointer to itself. -/
def nested : List Token :=
  uniform "pair" { type := .u16 } ["a", "b"] ++
    [{ type := .struct }, named "node", { type := .lbrace }, named "pair", named "value",
      { type := .semicolon }, named "node", { type := .star }, named "next", { type := .semicolon },
      named "pair", named "other", { type := .semicolon }, { type := .rbrace }]

def pairInfo : TypeInfo :=
  { prim := .struct, size := 2, name := "pair", id := .drawn 0,
    fields :=
      [⟨"a", some TypeInfo.u16.toTypeHead, 0, 0⟩, ⟨"b", some TypeInfo.u16.toTypeHead, 0, 1⟩] }

def nodeInfo : TypeInfo :=
  { prim := .struct, size := 5, name := "node", id := .drawn 1,
    fields :=
      [⟨"value", some pairInfo.toTypeHead, 0, 0⟩,
        ⟨"next", some ⟨.struct, 0, "node", .drawn 1⟩, 1, 2⟩,
        ⟨"other", some pairInfo.toTypeHead, 0, 3⟩] }

theorem soundLayout_iff_lt_nested :
    (compileFeed .serial (sourceOf nested) none).session.types.entries =
        [("node", some nodeInfo), ("pair", some pairInfo)] ∧
      nodeInfo.SoundLayout [("node", some nodeInfo), ("pair", some pairInfo)] := by
  have hentries : (compileFeed .serial (sourceOf nested) none).session.types.entries =
      [("node", some nodeInfo), ("pair", some pairInfo)] := by
    rw [session_sourceOf (by decide +kernel)]
    decide +kernel
  have hall := (soundLayout_iff_lt .serial (sourceOf nested) none).2
  rw [hentries] at hall
  obtain ⟨b, hb, -, -, hsound⟩ := hall _ List.mem_cons_self
  cases hb
  exact ⟨hentries, hsound.2 (by decide +kernel)⟩

/-- Structs one upon the other: each has fields of one type, at first `type` and then the struct
just before. -/
def tower (fields : List String) : Token → List String → List Token
  | _, [] => []
  | type, name :: names => uniform name type fields ++ tower fields (named name) names

theorem forall_mem_tower {P : Token → Prop} {fields names : List String} {type : Token}
    (hmarks : ∀ type ∈ [TokenType.struct, .lbrace, .semicolon, .rbrace], P { type })
    (htype : P type) (hfields : ∀ f ∈ fields, P (named f)) (hnames : ∀ n ∈ names, P (named n)) :
    ∀ t ∈ tower fields type names, P t := by
  induction names generalizing type with
  | nil => simp [tower]
  | cons name names ih =>
    rw [List.forall_mem_cons] at hnames
    intro t ht
    rcases List.mem_append.1 ht with ht | ht
    · simp only [uniform, List.mem_append, List.mem_cons, List.not_mem_nil, or_false,
        List.mem_flatMap] at ht
      rcases ht with ((rfl | rfl | rfl) | ⟨f, hf, rfl | rfl | rfl⟩) | rfl
      · exact hmarks .struct (by simp)
      · exact hnames.1
      · exact hmarks .lbrace (by simp)
      · exact htype
      · exact hfields f hf
      · exact hmarks .semicolon (by simp)
      · exact hmarks .rbrace (by simp)
    · exact ih hnames.1 hnames.2 t ht

/-- Each of the 21 structs has eight times the words of the one before, and the first has eight. -/
def oversized : List Token :=
  tower ["a", "b", "c", "d", "e", "f", "g", "h"] { type := .u16 }
    ["A", "B", "C", "D", "E", "F", "G", "H", "I", "J", "K", "L", "M", "N", "O", "P", "Q", "R", "S",
      "T", "U"]

/-- The size of the last struct wraps around to the least number of 64 bits. -/
theorem oversized_wraps :
    ((compileFeed .serial (sourceOf oversized) none).session.types.lookup "U").join.map (·.size) =
      some (-2 ^ 63) := by
  rw [session_sourceOf]
  · decide +kernel
  · apply forall_mem_tower
    · decide +kernel
    · decide +kernel
    · decide +kernel
    · decide +kernel

end OnePass
