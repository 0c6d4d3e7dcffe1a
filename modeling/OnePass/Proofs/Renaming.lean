import Mathlib
import OnePass.Proofs.Reductions

namespace OnePass

section

variable (ρ : String → String)

def TypeHead.renamed (t : TypeHead) : TypeHead :=
  if t.prim = .struct then { t with name := ρ t.name } else t

def Field.renamed (f : Field) : Field :=
  { f with name := ρ f.name, type := f.type.map (·.renamed ρ) }

def TypeInfo.renamed (t : TypeInfo) : TypeInfo :=
  { toTypeHead := t.toTypeHead.renamed ρ, fields := t.fields.map (·.renamed ρ) }

def Ty.renamed (t : Ty) : Ty := { t with base := t.base.map (·.renamed ρ) }

def Operand.renamed (o : Operand) : Operand := { o with type := o.type.renamed ρ }

def Variable.renamed (v : Variable) : Variable :=
  { v with name := ρ v.name, type := v.type.renamed ρ }

def Overlap.renamed (o : Overlap) : Overlap :=
  { o with name := ρ o.name, last := o.last.renamed ρ }

def Frame.renamed (f : Frame) : Frame := { f with vars := f.vars.map (·.renamed ρ) }

def Registry.renamed (r : Registry) : Registry :=
  { r with entries := r.entries.map fun e => (ρ e.1, e.2.map (·.renamed ρ)) }

def Token.renamed (t : Token) : Token :=
  if t.type = .identifier then { t with name := ρ t.name } else t

/-- The new name of a token that stands before `rest`; the name of a call stays. -/
def Token.renamedBefore (rest : List Token) (t : Token) : Token :=
  if rest.head?.any (·.type = .lparen) then t else t.renamed ρ

/-- Gives new names to all identifiers but those of calls. -/
def renameTokens : List Token → List Token
  | [] => []
  | t :: rest => t.renamedBefore ρ rest :: renameTokens rest

end

section

variable {ρ : String → String}

@[simp] theorem TypeHead.prim_renamed (t : TypeHead) : (t.renamed ρ).prim = t.prim := by
  unfold renamed
  split <;> rfl

@[simp] theorem TypeHead.size_renamed (t : TypeHead) : (t.renamed ρ).size = t.size := by
  unfold renamed
  split <;> rfl

@[simp] theorem TypeHead.id_renamed (t : TypeHead) : (t.renamed ρ).id = t.id := by
  unfold renamed
  split <;> rfl

namespace Ty

variable (t u : Ty)

@[simp] theorem depth_renamed : (t.renamed ρ).depth = t.depth := rfl

@[simp] theorem renamed_untyped : untyped.renamed ρ = untyped := rfl

@[simp] theorem isNone_renamed : (t.renamed ρ).base.isNone = t.base.isNone := by
  simp [renamed]

theorem info_renamed : (t.renamed ρ).info = t.info.map (·.renamed ρ) := by
  unfold info renamed
  cases t.base <;> rfl

@[simp] theorem size_renamed : (t.renamed ρ).size = t.size := by
  unfold size
  rw [info_renamed, depth_renamed]
  cases t.info <;> simp [Except.map, TypeInfo.renamed]

@[simp] theorem isScalar_renamed : (t.renamed ρ).isScalar = t.isScalar := by
  unfold isScalar
  rw [info_renamed, depth_renamed]
  cases t.info <;> simp [Except.map, TypeInfo.renamed]

@[simp] theorem isUntyped_renamed : (t.renamed ρ).isUntyped = t.isUntyped := by
  unfold isUntyped
  rw [info_renamed, depth_renamed]
  cases t.info <;> simp [Except.map, TypeInfo.renamed]

@[simp] theorem same_renamed : (t.renamed ρ).same (u.renamed ρ) = t.same u := by
  unfold same sameBase renamed
  cases t.base <;> cases u.base <;> simp [TypeInfo.same, TypeInfo.renamed]

@[simp] theorem accepts_renamed : (t.renamed ρ).accepts (u.renamed ρ) = t.accepts u := by
  unfold accepts
  rw [isUntyped_renamed, info_renamed, same_renamed, depth_renamed]
  cases t.info <;> simp [Except.map, TypeInfo.renamed, bind, Except.bind]

end Ty

@[simp] theorem Operand.fits_renamed (o : Operand) (t : Ty) :
    (o.renamed ρ).fits (t.renamed ρ) = o.fits t := by
  unfold fits renamed
  dsimp only
  rw [Ty.isUntyped_renamed, Ty.info_renamed]
  cases t.info <;> simp [Except.map, TypeInfo.renamed, bind, Except.bind]

namespace Frame

variable (f : Frame)

theorem visible_renamed : (f.renamed ρ).visible = f.visible.map (·.renamed ρ) := by
  unfold visible
  rw [renamed, List.filter_map]
  rfl

theorem liveWords_renamed : (f.renamed ρ).liveWords = f.liveWords := by
  have hsizes (vs : List Variable) :
      (vs.map (·.renamed ρ)).mapM Variable.size = vs.mapM Variable.size := by
    induction vs with
    | nil => rfl
    | cons v vs ih =>
      rw [List.map_cons, List.mapM_cons, List.mapM_cons, ih]
      simp [Variable.size, Variable.renamed]
  rw [liveWords, liveWords, live, live, visible_renamed, ← List.map_reverse, hsizes]

/-- A name is found under its new name, where no two names become one. -/
theorem lookup_renamed (hρ : Function.Injective ρ) (name : String) :
    (f.renamed ρ).lookup (ρ name) = (f.lookup name).map (·.renamed ρ) := by
  unfold lookup
  rw [visible_renamed, List.find?_map]
  congr 2
  funext v
  simp [Variable.renamed, hρ.eq_iff]

theorem overlap?_renamed (name : String) (address : Int) :
    (f.renamed ρ).overlap? (ρ name) address =
      (f.overlap? name address).map (·.map (·.renamed ρ)) := by
  unfold overlap?
  rw [visible_renamed]
  cases f.visible with
  | nil => rfl
  | cons last rest =>
    simp only [List.map_cons]
    have hsize : (last.renamed ρ).size = last.size := Ty.size_renamed _
    rw [hsize]
    cases last.size with
    | error e => rfl
    | ok size =>
      by_cases h : address < wrap (last.address + size)
      · simp [Except.map, Variable.renamed, Overlap.renamed, h]
      · simp [Except.map, Variable.renamed, h]

theorem add_renamed (name : String) (line : Int) (type : Ty) (address : Int) :
    (f.renamed ρ).add (ρ name) line (type.renamed ρ) address =
      ((f.add name line type address).1.renamed ρ, (f.add name line type address).2.renamed ρ) :=
  rfl

theorem pop_renamed (n : Int) : (f.renamed ρ).pop n = (f.pop n).map (·.renamed ρ) := by
  unfold pop renamed
  dsimp only
  split <;> rfl

end Frame

@[simp] theorem Registry.nextId_renamed (r : Registry) : (r.renamed ρ).nextId = r.nextId := by
  simp [nextId, renamed]

theorem Registry.lookup_renamed (hρ : Function.Injective ρ) (r : Registry) (name : String) :
    (r.renamed ρ).lookup (ρ name) = (r.lookup name).map (·.map (·.renamed ρ)) := by
  unfold lookup renamed
  induction r.entries with
  | nil => rfl
  | cons e rest ih =>
    obtain ⟨key, entry⟩ := e
    simp only [List.map_cons, List.lookup_cons, ih]
    by_cases h : name = key
    · simp [h]
    · have hne : ρ name ≠ ρ key := fun heq => h (hρ heq)
      rw [beq_false_of_ne h, beq_false_of_ne hne]

@[simp] theorem Token.type_renamed (t : Token) : (t.renamed ρ).type = t.type := by
  unfold renamed
  split <;> rfl

@[simp] theorem Token.line_renamed (t : Token) : (t.renamed ρ).line = t.line := by
  unfold renamed
  split <;> rfl

@[simp] theorem Token.value_renamed (t : Token) : (t.renamed ρ).value = t.value := by
  unfold renamed
  split <;> rfl

theorem Token.name_renamed {t : Token} (h : t.type = .identifier) :
    (t.renamed ρ).name = ρ t.name := by
  simp [renamed, h]

theorem Registry.resolve_renamed (hρ : Function.Injective ρ) (r : Registry) (t : Token) :
    (r.renamed ρ).resolve (t.renamed ρ) = (r.resolve t).map (·.map (·.renamed ρ)) := by
  unfold resolve
  rw [Token.type_renamed]
  cases h : t.type with
  | identifier => simp only [Token.name_renamed h, lookup_renamed hρ]
  | _ => rfl

section

variable (rest : List Token) (t : Token)

@[simp] theorem Token.type_renamedBefore : (t.renamedBefore ρ rest).type = t.type := by
  unfold renamedBefore
  split <;> simp

@[simp] theorem Token.line_renamedBefore : (t.renamedBefore ρ rest).line = t.line := by
  unfold renamedBefore
  split <;> simp

@[simp] theorem Token.value_renamedBefore : (t.renamedBefore ρ rest).value = t.value := by
  unfold renamedBefore
  split <;> simp

@[simp] theorem Token.isStar_renamedBefore : (t.renamedBefore ρ rest).isStar = t.isStar := by
  simp [isStar]

end

@[simp] theorem length_renameTokens (ts : List Token) :
    (renameTokens ρ ts).length = ts.length := by
  induction ts with
  | nil => rfl
  | cons t rest ih => simp [renameTokens, ih]

/-- The new name of a token depends on the next one only, so any rest is renamed alike. -/
theorem renameTokens_drop (n : Nat) (ts : List Token) :
    (renameTokens ρ ts).drop n = renameTokens ρ (ts.drop n) := by
  induction n generalizing ts with
  | zero => rfl
  | succ n ih =>
    cases ts with
    | nil => rfl
    | cons t rest => exact ih rest

theorem renameTokens_dropWhile_isStar (ts : List Token) :
    (renameTokens ρ ts).dropWhile Token.isStar = renameTokens ρ (ts.dropWhile Token.isStar) := by
  induction ts with
  | nil => rfl
  | cons t rest ih =>
    by_cases h : t.isStar
    · simp [renameTokens, h, ih]
    · simp [renameTokens, h]

theorem length_takeWhile_isStar_renameTokens (ts : List Token) :
    ((renameTokens ρ ts).takeWhile Token.isStar).length =
      (ts.takeWhile Token.isStar).length := by
  induction ts with
  | nil => rfl
  | cons t rest ih =>
    by_cases h : t.isStar
    · simp [renameTokens, h, ih]
    · simp [renameTokens, h]

theorem afterSemicolon_renameTokens (ts : List Token) :
    ((renameTokens ρ ts).dropWhile (·.type ≠ .semicolon)).tail =
      renameTokens ρ ((ts.dropWhile (·.type ≠ .semicolon)).tail) := by
  induction ts with
  | nil => rfl
  | cons t rest ih =>
    by_cases h : t.type = .semicolon
    · simp [renameTokens, h]
    · simpa [renameTokens, h] using ih

end

section

@[simp] theorem renamed_typeHead_id (t : TypeHead) : t.renamed id = t := by
  unfold TypeHead.renamed
  split <;> rfl

@[simp] theorem Field.renamed_id (f : Field) : f.renamed id = f := by
  obtain ⟨name, type, depth, offset⟩ := f
  cases type <;> simp [renamed]

@[simp] theorem TypeInfo.renamed_id (t : TypeInfo) : t.renamed id = t := by
  simp [renamed]

@[simp] theorem Ty.renamed_id (t : Ty) : t.renamed id = t := by
  simp [renamed]

@[simp] theorem Operand.renamed_id (o : Operand) : o.renamed id = o := by simp [renamed]

@[simp] theorem Variable.renamed_id (v : Variable) : v.renamed id = v := by simp [renamed]

@[simp] theorem Frame.renamed_id (f : Frame) : f.renamed id = f := by
  simp [renamed]

@[simp] theorem Registry.renamed_id (r : Registry) : r.renamed id = r := by
  simp [renamed]

@[simp] theorem Token.renamed_id (t : Token) : t.renamed id = t := by
  unfold renamed
  split <;> rfl

@[simp] theorem Token.renamedBefore_id (rest : List Token) (t : Token) :
    t.renamedBefore id rest = t := by
  simp [renamedBefore]

@[simp] theorem renameTokens_id (ts : List Token) : renameTokens id ts = ts := by
  induction ts with
  | nil => rfl
  | cons t rest ih => simp [renameTokens, ih]

end

end OnePass
