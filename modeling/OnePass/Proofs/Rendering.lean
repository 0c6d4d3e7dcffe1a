import Mathlib
import OnePass.Proofs.RowPrograms

namespace OnePass

namespace Text

/-- The bytes of characters. -/
def encode (cs : List Char) : List UInt8 := cs.flatMap String.utf8EncodeChar

theorem decodeBytes_encode (cs : List Char) (rest : List UInt8) :
    decodeBytes (encode cs ++ rest) = cs ++ decodeBytes rest := by
  induction cs with
  | nil => rfl
  | cons c cs ih =>
    obtain ⟨b, bs, hencode, hdecode⟩ := decodeFirst_utf8EncodeChar c (encode cs ++ rest)
    rw [encode, List.flatMap_cons, hencode, List.cons_append, List.cons_append, List.append_assoc,
      decodeBytes, ← encode, hdecode]
    dsimp only
    rw [List.drop_left, ih]
    rfl

section

variable {b c : UInt8} {bs rest : List UInt8}

theorem continuation_ascii (hb : b < 0x80) : continuation b = none := by
  rw [continuation, if_neg]
  intro h
  rw [UInt8.lt_iff_toNat_lt] at hb
  rw [UInt8.le_iff_toNat_le] at h
  omega

/-- A character does not reach beyond an ASCII byte. -/
theorem decodeFirst_append (hb : b < 0x80) :
    decodeFirst c (bs ++ b :: rest) = decodeFirst c bs := by
  have hnone := continuation_ascii hb
  -- at most three bytes are looked at, so only where `b` stands among them matters
  unfold decodeFirst
  rcases bs with _ | ⟨x, _ | ⟨y, _ | ⟨z, bs⟩⟩⟩
  · rcases rest with _ | ⟨x, _ | ⟨y, rest⟩⟩ <;> simp [hnone]
  · rcases rest with _ | ⟨y, rest⟩ <;> simp [hnone]
  · simp [hnone]
  · rfl

theorem eq_ten_of_ofNat {n : Nat} (h : Char.ofNat n = '\n') : n = 10 := by
  have hn := congrArg Char.toNat h
  rw [Char.toNat_ofNat] at hn
  split at hn
  · exact hn
  · contradiction

/-- A character takes bytes that are there, and only the byte 10 is read as a line feed. -/
theorem decodeFirst_eq_some {n : Nat} {d : Char} (h : decodeFirst c bs = some (d, n)) :
    n ≤ bs.length ∧ (d = '\n' → c = 10) := by
  unfold decodeFirst at h
  simp only [UInt8.lt_iff_toNat_lt, UInt8.le_iff_toNat_le, UInt8.reduceToNat] at h
  split_ifs at h with h₁ h₂ h₃ h₄
  · obtain ⟨rfl, rfl⟩ := Prod.mk.inj (Option.some.inj h)
    refine ⟨Nat.zero_le _, fun hd => ?_⟩
    exact UInt8.toNat_inj.1 (eq_ten_of_ofNat hd)
  · split at h
    · simp only [Option.bind_eq_bind, Option.bind_eq_some_iff] at h
      obtain ⟨x, -, h⟩ := h
      obtain ⟨rfl, rfl⟩ := Prod.mk.inj (Option.some.inj h)
      refine ⟨by simp, fun hd => ?_⟩
      have := eq_ten_of_ofNat hd
      omega
    · contradiction
  · split at h
    · simp only [Option.bind_eq_bind, Option.bind_eq_some_iff] at h
      obtain ⟨x, -, y, -, h⟩ := h
      split_ifs at h with hn
      obtain ⟨rfl, rfl⟩ := Prod.mk.inj (Option.some.inj h)
      refine ⟨by simp, fun hd => ?_⟩
      have := eq_ten_of_ofNat hd
      omega
    · contradiction
  · split at h
    · simp only [Option.bind_eq_bind, Option.bind_eq_some_iff] at h
      obtain ⟨x, -, y, -, z, -, h⟩ := h
      split_ifs at h with hn
      obtain ⟨rfl, rfl⟩ := Prod.mk.inj (Option.some.inj h)
      refine ⟨by simp, fun hd => ?_⟩
      have := eq_ten_of_ofNat hd
      omega
    · contradiction

theorem decodeBytes_append (hb : b < 0x80) :
    decodeBytes (bs ++ b :: rest) = decodeBytes bs ++ decodeBytes (b :: rest) := by
  fun_induction decodeBytes bs with
  | case1 => rfl
  | case2 c bs d n h ih =>
    rw [List.cons_append, decodeBytes, decodeFirst_append hb, h]
    dsimp only
    rw [List.drop_append_of_le_length (decodeFirst_eq_some h).1, ih]
    rfl
  | case3 c bs h ih =>
    rw [List.cons_append, decodeBytes, decodeFirst_append hb, h]
    dsimp only
    rw [ih]
    rfl

theorem decodeBytes_ascii (hb : b < 0x80) (rest : List UInt8) :
    decodeBytes (b :: rest) = Char.ofNat b.toNat :: decodeBytes rest := by
  have hfirst : decodeFirst b rest = some (Char.ofNat b.toNat, 0) := by
    unfold decodeFirst
    rw [if_pos hb]
  rw [decodeBytes, hfirst]
  rfl

theorem decodeBytes_noFeed (h : 10 ∉ bs) : '\n' ∉ decodeBytes bs := by
  fun_induction decodeBytes bs with
  | case1 => exact List.not_mem_nil
  | case2 c bs d n hfirst ih =>
    rw [List.mem_cons, not_or] at h ⊢
    refine ⟨fun hd => h.1 ((decodeFirst_eq_some hfirst).2 hd.symm).symm, ih ?_⟩
    exact fun hmem => h.2 (List.mem_of_mem_drop hmem)
  | case3 c bs _ ih =>
    rw [List.mem_cons, not_or] at h ⊢
    exact ⟨by decide, ih h.2⟩

end

end Text

namespace Assembly

theorem isIdentStart_eq (c : Char) : isIdentStart c = (c.isAlpha || c = '_') := by
  simp only [isIdentStart, Char.isAlpha, Char.isLower, Char.isUpper, Char.le_def, ge_iff_le]
  grind

theorem isIdentStart_toUpper {c : Char} (h : isIdentStart c) : isIdentStart c.toUpper := by
  rw [isIdentStart_eq] at h ⊢
  by_cases hc : c = '_'
  · subst hc
    rfl
  · simp_all

theorem isIdent_toUpper {c : Char} (h : isIdent c) : isIdent c.toUpper := by
  by_cases hstart : isIdentStart c
  · simp [isIdent, isIdentStart_toUpper hstart]
  · have hlower : c.isLower = false := by
      rw [isIdentStart_eq] at hstart
      simp_all [Char.isAlpha]
    rwa [Char.toUpper_eq_of_not_isLower (by simp [hlower])]

theorem isName_recase {s : String} (capital : Nat → Bool) (h : isName s) :
    isName (recase capital s) := by
  unfold isName recase at *
  rw [String.toList_ofList]
  cases hs : s.toList with
  | nil => simp [hs] at h
  | cons c cs =>
    rw [hs] at h
    simp only [Bool.and_eq_true, List.all_eq_true, List.mapIdx_cons] at h ⊢
    constructor
    · split
      · exact isIdentStart_toUpper h.1
      · exact h.1
    · intro d hd
      obtain ⟨k, hk, rfl⟩ := List.mem_mapIdx.1 hd
      split
      · exact isIdent_toUpper (h.2 _ (List.getElem_mem hk))
      · exact h.2 _ (List.getElem_mem hk)

namespace Argument

theorem legible_recase {a : Argument} (capital : Nat → Bool) (h : a.legible) :
    (a.recase capital).legible := by
  cases a with
  | immediate n => exact h
  | name s => exact isName_recase capital h

end Argument

end Assembly

open Assembly

namespace Instr

theorem legible_cased {i : Instr} (h : i.legible) (capital : Nat → Nat → Bool) (n : Nat) :
    (i.cased capital n).legible := by
  have hline := legible_line h n
  simp only [Line.legible, Bool.and_eq_true, List.all_eq_true] at hline ⊢
  refine ⟨isName_recase _ hline.1, fun a ha => ?_⟩
  rw [cased] at ha
  split at ha
  · obtain ⟨k, hk, rfl⟩ := List.mem_mapIdx.1 ha
    exact Argument.legible_recase _ (hline.2 _ (List.getElem_mem hk))
  · exact hline.2 a ha

end Instr

namespace Assembly

inductive Blank where
  | space
  | tab

def Blank.char : Blank → Char
  | .space => ' '
  | .tab => '\t'

/-- The blanks between two pieces. Identifiers that would touch are kept apart by a space. -/
def gap (a b : Piece) (blanks : List Blank) : List Blank :=
  if a.1 = .ident ∧ b.1 = .ident ∧ blanks = [] then [.space] else blanks

/-- Pieces with blanks between them; `blanks k` are those behind the `k`-th piece. -/
def spread (blanks : Nat → List Blank) : List Piece → List Char
  | [] => []
  | [a] => a.2.toList
  | a :: b :: p =>
    a.2.toList ++ ((gap a b (blanks 0)).map Blank.char ++ spread (fun k => blanks (k + 1)) (b :: p))

/-- Pieces that need no blank between them, or are kept apart. -/
def Beside (a b : Piece) : Prop := a.1 = .punct ∨ b.1 = .punct ∨ a.1 = .ident ∧ b.1 = .ident

section

variable {a b : Piece} {p : List Piece} {cs ds : List Char}

theorem Blank.isBlank_char (x : Blank) : isBlank x.char := by
  cases x <;> rfl

theorem goesOn_blank (kind : LexemeKind) (x : Blank) : goesOn kind x.char = false := by
  cases kind <;> cases x <;> rfl

theorem laid_blanks (blanks : List Blank) (h : Laid p cs) :
    Laid p (blanks.map Blank.char ++ cs) := by
  induction blanks with
  | nil => exact h
  | cons x _ ih => exact .blank x.isBlank_char ih

theorem Laid.append_blanks (h : Laid p cs) (blanks : List Blank) :
    Laid p (cs ++ blanks.map Blank.char) := by
  induction h with
  | nil => simpa using laid_blanks blanks .nil
  | blank hb _ ih => exact .blank hb ih
  | piece shape apart _ ih =>
    rw [List.append_assoc]
    refine .piece shape (goesOn_append apart fun d hd => ?_) ih
    obtain ⟨x, -, rfl⟩ := List.mem_map.1 (List.mem_of_mem_head? hd)
    exact goesOn_blank .ident x

theorem exists_spread (blanks : Nat → List Blank) (b : Piece) (p : List Piece) :
    ∃ ds, spread blanks (b :: p) = b.2.toList ++ ds := by
  cases p with
  | nil => exact ⟨[], by rw [spread, List.append_nil]⟩
  | cons c p => exact ⟨_, by rw [spread]⟩

theorem Beside.apart (h : Beside a b) (hb : Shape b.1 b.2.toList) (blanks : List Blank)
    (ds : List Char) :
    ∀ d ∈ ((gap a b blanks).map Blank.char ++ (b.2.toList ++ ds)).head?, goesOn a.1 d = false := by
  cases hgap : gap a b blanks with
  | cons x _ => simp [goesOn_blank]
  | nil =>
    -- nothing stands between the pieces, so one of them is punctuation
    have hident : ¬(a.1 = .ident ∧ b.1 = .ident) := by
      rw [gap] at hgap
      split at hgap <;> simp_all
    obtain ha | hb' | hab := h
    · rw [ha]
      exact fun _ _ => rfl
    · rw [hb'] at hb
      generalize b.2.toList = cs at hb
      cases hb with
      | punct mark =>
        rcases mark with rfl | rfl <;>
          cases a.1 <;> simp [goesOn, isIdent, isIdentStart, isDigit]
    · exact absurd hab hident

theorem laid_spread (hshape : ∀ q ∈ p, Shape q.1 q.2.toList) (hbeside : p.IsChain Beside)
    (blanks : Nat → List Blank) : Laid p (spread blanks p) := by
  induction p generalizing blanks with
  | nil => exact .nil
  | cons a p ih =>
    rw [List.forall_mem_cons] at hshape
    have hpiece : a = (a.1, String.ofList a.2.toList) := by rw [String.ofList_toList]
    cases p with
    | nil =>
      have hlaid := Laid.piece hshape.1 (by simp) .nil
      rwa [← hpiece, List.append_nil] at hlaid
    | cons b p =>
      rw [List.isChain_cons_cons] at hbeside
      obtain ⟨ds, hds⟩ := exists_spread (fun k => blanks (k + 1)) b p
      have happart := hbeside.1.apart (hshape.2 b (by simp)) (blanks 0) ds
      rw [← hds] at happart
      have hrest := ih hshape.2 hbeside.2 fun k => blanks (k + 1)
      have hlaid := Laid.piece hshape.1 happart (laid_blanks _ hrest)
      rwa [← hpiece] at hlaid

theorem isName.shape {s : String} (h : isName s) : Shape .ident s.toList := by
  unfold isName at h
  split at h
  · contradiction
  · next c cs hs =>
    rw [Bool.and_eq_true, List.all_eq_true] at h
    rw [hs]
    exact .ident h.1 h.2

theorem shape_number (n : Int) : Shape .int (toString n).toList := by
  have hdigits : ∀ c ∈ Nat.toDigits 10 n.natAbs, isDigit c :=
    fun c => Nat.isDigit_of_mem_toDigits (by omega) (by omega)
  have hne : Nat.toDigits 10 n.natAbs ≠ [] := Nat.toDigits_ne_nil
  rw [Text.toList_toString]
  split
  · exact .negative hne hdigits
  · obtain ⟨c, cs, hcs⟩ := List.exists_cons_of_ne_nil hne
    rw [hcs, List.forall_mem_cons] at hdigits
    rw [hcs]
    exact .digits hdigits.1 hdigits.2

theorem Argument.shape {a : Argument} (ha : a.legible) :
    ∀ q ∈ a.pieces, Shape q.1 q.2.toList := by
  cases a with
  | immediate n =>
    rw [pieces, List.forall_mem_cons, List.forall_mem_singleton]
    exact ⟨.punct (.inl rfl), shape_number n⟩
  | name s =>
    rw [pieces, List.forall_mem_singleton]
    exact isName.shape ha

theorem shape_more {as : List Argument} (has : ∀ a ∈ as, a.legible) :
    ∀ q ∈ morePieces as, Shape q.1 q.2.toList := by
  intro q hq
  obtain ⟨a, ha, hq⟩ := List.mem_flatMap.1 hq
  rcases List.mem_cons.1 hq with rfl | hq
  · exact .punct (.inr rfl)
  · exact Argument.shape (has a ha) q hq

theorem beside_argument (a : Argument) {x : Piece} (hx : x.1 = .punct ∨ x.1 = .ident)
    (h : ∀ y, (y :: p).IsChain Beside) : (x :: (a.pieces ++ p)).IsChain Beside := by
  cases a with
  | immediate n =>
    refine List.isChain_cons_cons.2 ⟨.inr (.inl rfl), List.isChain_cons_cons.2 ⟨.inl rfl, h _⟩⟩
  | name s =>
    refine List.isChain_cons_cons.2 ⟨?_, h _⟩
    exact hx.elim .inl fun hident => .inr (.inr ⟨hident, rfl⟩)

theorem beside_more (x : Piece) (as : List Argument) : (x :: morePieces as).IsChain Beside := by
  induction as generalizing x with
  | nil => exact .singleton x
  | cons a as ih =>
    exact List.isChain_cons_cons.2 ⟨.inr (.inl rfl), beside_argument a (.inl rfl) ih⟩

theorem Argument.operand {a : Argument} (ha : a.legible) : Operand a.pieces a := by
  cases a with
  | immediate n => exact .immediate (Text.readLiteral_toString (of_decide_eq_true ha))
  | name s => exact .name s

theorem more_morePieces {as : List Argument} (has : ∀ a ∈ as, a.legible) :
    More (morePieces as) as := by
  induction as with
  | nil => exact .nil
  | cons a as ih =>
    rw [List.forall_mem_cons] at has
    exact .cons (Argument.operand has.1) (ih has.2)

namespace Line

theorem shape {l : Line} (hl : l.legible) : ∀ q ∈ l.pieces, Shape q.1 q.2.toList := by
  obtain ⟨mnemonic, args, line⟩ := l
  simp only [legible, Bool.and_eq_true, List.all_eq_true] at hl
  obtain ⟨hname, hargs⟩ := hl
  cases args with
  | nil =>
    rw [pieces, List.forall_mem_singleton]
    exact isName.shape hname
  | cons a as =>
    rw [List.forall_mem_cons] at hargs
    rw [pieces, List.forall_mem_cons, List.forall_mem_append]
    exact ⟨isName.shape hname, Argument.shape hargs.1, shape_more hargs.2⟩

theorem beside (l : Line) : l.pieces.IsChain Beside := by
  obtain ⟨mnemonic, args, line⟩ := l
  cases args with
  | nil => exact .singleton _
  | cons a as => exact beside_argument a (.inr rfl) fun y => beside_more y as

theorem reads {l : Line} (hl : l.legible) : Reads l.line l.pieces [l] := by
  obtain ⟨mnemonic, args, line⟩ := l
  simp only [legible, Bool.and_eq_true, List.all_eq_true] at hl
  cases args with
  | nil => exact .lone mnemonic
  | cons a as =>
    rw [List.forall_mem_cons] at hl
    have hreads := Reads.cons mnemonic (Argument.operand hl.2.1) (more_morePieces hl.2.2)
      (Reads.nil (n := line))
    rwa [List.append_nil] at hreads

end Line

end

/-- An instruction that is written in some letter case, with blanks between its pieces. -/
structure Written where
  instr : Instr
  capital : Nat → Nat → Bool
  blanks : Nat → List Blank
  legible : instr.legible

/-- What follows a semicolon, up to the end of the line. -/
structure Comment where
  bytes : List UInt8
  inside : 10 ∉ bytes

/-- A line with an instruction or none, blanks around it, and a comment or none. -/
structure SheetRow where
  lead : List Blank
  written : Option Written
  trail : List Blank
  comment : Option Comment

inductive LineEnd where
  | feed
  | returnFeed

/-- Lines with their ends; nothing follows the last one. -/
structure Sheet where
  rows : List (SheetRow × LineEnd)
  last : SheetRow

namespace Written

def chars (w : Written) : List Char := spread w.blanks (w.instr.cased w.capital 0).pieces

end Written

namespace SheetRow

/-- The characters in front of the comment. -/
def code (r : SheetRow) : List Char :=
  r.lead.map Blank.char ++ ((r.written.elim [] Written.chars) ++ r.trail.map Blank.char)

def bytes (r : SheetRow) : List UInt8 :=
  Text.encode r.code ++ r.comment.elim [] fun c => 59 :: c.bytes

def program (n : Nat) (r : SheetRow) : List ProgramLine :=
  r.written.elim [] fun w => [⟨w.instr, n, String.ofList w.chars⟩]

end SheetRow

namespace LineEnd

def bytes : LineEnd → List UInt8
  | .feed => [10]
  | .returnFeed => [13, 10]

def front : LineEnd → List Char
  | .feed => []
  | .returnFeed => ['\r']

end LineEnd

namespace Sheet

def bytes (s : Sheet) : List UInt8 :=
  s.rows.flatMap (fun row => row.1.bytes ++ row.2.bytes) ++ s.last.bytes

/-- The instructions of a sheet. Lines are counted from 1. -/
def program (s : Sheet) : List ProgramLine :=
  ((s.rows.map Prod.fst ++ [s.last]).zipIdx 1).flatMap fun row => row.1.program row.2

end Sheet

section

variable {p : List Piece} {cs : List Char}

theorem trim_blanks (lead trail : List Blank) (h : Trimmed cs) :
    trim (lead.map Blank.char ++ (cs ++ trail.map Blank.char)) = cs := by
  have hspace : ∀ blanks : List Blank, ∀ c ∈ blanks.map Blank.char, isSpace c := by
    intro blanks c hc
    obtain ⟨x, -, rfl⟩ := List.mem_map.1 hc
    exact isSpace_of_isBlank x.isBlank_char
  obtain ⟨c, hc, hsolid⟩ := h.first
  rw [trim, List.dropWhile_append_of_pos (hspace lead),
    dropWhile_isSpace ⟨c, List.mem_head?_append_of_mem_head? hc, hsolid⟩, rdropWhile_append,
    if_pos (List.rdropWhile_eq_nil_iff.2 (hspace trail)), rdropWhile_trimmed h]

theorem trimmed_spread (hp : p ≠ []) (hshape : ∀ q ∈ p, Shape q.1 q.2.toList)
    (blanks : Nat → List Blank) : Trimmed (spread blanks p) := by
  induction p generalizing blanks with
  | nil => contradiction
  | cons a p ih =>
    rw [List.forall_mem_cons] at hshape
    cases p with
    | nil => exact hshape.1.trimmed
    | cons b p =>
      refine hshape.1.trimmed.append ?_ (ih (by simp) hshape.2 _)
      intro c hc
      obtain ⟨x, -, rfl⟩ := List.mem_map.1 hc
      cases x <;> simp [Blank.char]

end

namespace Written

def pieces (w : Written) : List Piece := (w.instr.cased w.capital 0).pieces

theorem laid (w : Written) : Laid w.pieces w.chars :=
  laid_spread (Line.shape (Instr.legible_cased w.legible _ 0)) (Line.beside _) _

theorem trimmed (w : Written) : Trimmed w.chars :=
  trimmed_spread (List.cons_ne_nil _ _) (Line.shape (Instr.legible_cased w.legible _ 0)) _

theorem holds (w : Written) (n : Nat) :
    Holds n w.pieces (String.ofList w.chars) [⟨w.instr, n, String.ofList w.chars⟩] := by
  have hreads := (Line.reads (Instr.legible_cased w.legible w.capital 0)).move n
  refine ⟨_, hreads, .cons ⟨?_, rfl, rfl⟩ .nil⟩
  exact decode_move (Instr.decode_cased w.legible w.capital 0) n

end Written

namespace SheetRow

def pieces (r : SheetRow) : List Piece := r.written.elim [] Written.pieces

def chars (r : SheetRow) : List Char :=
  r.code ++ r.comment.elim [] fun c => ';' :: Text.decodeBytes c.bytes

theorem laid (r : SheetRow) : Laid r.pieces r.code := by
  apply laid_blanks
  apply Laid.append_blanks
  unfold pieces
  cases r.written with
  | none => exact .nil
  | some w => exact w.laid

theorem holds (r : SheetRow) (n : Nat) :
    Holds n r.pieces (String.ofList (trim r.code)) (r.program n) := by
  unfold pieces program code
  cases r.written with
  | none => exact ⟨[], .nil, .nil⟩
  | some w =>
    dsimp only [Option.elim]
    rw [trim_blanks _ _ w.trimmed]
    exact w.holds n

theorem row (r : SheetRow) : Row r.pieces r.chars ∧ bare r.chars = String.ofList (trim r.code) := by
  have hlaid := r.laid
  unfold chars
  cases r.comment with
  | none => exact ⟨by simpa using Row.plain hlaid, hlaid.bare_append (by simp)⟩
  | some c =>
    exact ⟨.comment hlaid (Text.decodeBytes_noFeed c.inside), hlaid.bare_append (by simp)⟩

theorem ended (r : SheetRow) (e : LineEnd) : Ended r.pieces (r.chars ++ e.front) ∧
    bare (r.chars ++ e.front) = String.ofList (trim r.code) := by
  cases e with
  | feed =>
    rw [LineEnd.front, List.append_nil]
    exact ⟨.row r.row.1, r.row.2⟩
  | returnFeed =>
    have hlaid := r.laid
    unfold chars
    cases r.comment with
    | none =>
      dsimp only [Option.elim]
      rw [List.append_nil]
      exact ⟨.returned hlaid, hlaid.bare_returned⟩
    | some c =>
      -- the carriage return belongs to the comment
      dsimp only [Option.elim]
      rw [List.append_assoc]
      refine ⟨.row (.comment hlaid ?_), hlaid.bare_append (by simp)⟩
      simpa [LineEnd.front] using Text.decodeBytes_noFeed c.inside

theorem decodeBytes_bytes (r : SheetRow) : Text.decodeBytes r.bytes = r.chars := by
  rw [bytes, Text.decodeBytes_encode, chars]
  cases r.comment with
  | none => rw [Option.elim, Option.elim, Text.decodeBytes]
  | some c =>
    exact congrArg (r.code ++ ·) (Text.decodeBytes_ascii (by decide) c.bytes)

theorem decodeBytes_row (r : SheetRow) (e : LineEnd) (rest : List UInt8) :
    Text.decodeBytes (r.bytes ++ (e.bytes ++ rest)) =
      r.chars ++ e.front ++ '\n' :: Text.decodeBytes rest := by
  have hfeed : Text.decodeBytes (10 :: rest) = '\n' :: Text.decodeBytes rest :=
    Text.decodeBytes_ascii (by decide) rest
  cases e with
  | feed =>
    rw [LineEnd.bytes, List.singleton_append, Text.decodeBytes_append (by decide), hfeed,
      r.decodeBytes_bytes, LineEnd.front, List.append_nil]
  | returnFeed =>
    have hreturn : Text.decodeBytes (13 :: 10 :: rest) = '\r' :: Text.decodeBytes (10 :: rest) :=
      Text.decodeBytes_ascii (by decide) (10 :: rest)
    rw [LineEnd.bytes, List.cons_append, List.singleton_append,
      Text.decodeBytes_append (by decide), hreturn, hfeed, r.decodeBytes_bytes, LineEnd.front,
      List.append_assoc, List.singleton_append]

end SheetRow

/-- Every row is assembled to its instruction, the first one on line `n`. -/
theorem assembles_rows (rows : List (SheetRow × LineEnd)) (last : SheetRow) (n : Nat) :
    Assembles n
      (Text.decodeBytes (rows.flatMap (fun row => row.1.bytes ++ row.2.bytes) ++ last.bytes))
      (((rows.map Prod.fst ++ [last]).zipIdx n).flatMap fun row => row.1.program row.2) := by
  induction rows generalizing n with
  | nil =>
    obtain ⟨hrow, htext⟩ := last.row
    rw [List.flatMap_nil, List.nil_append, last.decodeBytes_bytes]
    have hlast := Assembles.last hrow (htext ▸ last.holds n)
    simpa using hlast
  | cons row rows ih =>
    obtain ⟨hrow, htext⟩ := row.1.ended row.2
    rw [List.flatMap_cons, List.append_assoc, List.append_assoc, row.1.decodeBytes_row,
      List.map_cons, List.cons_append, List.zipIdx_cons, List.flatMap_cons]
    exact .next hrow (htext ▸ row.1.holds n) (ih (n + 1))

end Assembly

/-- Instructions are read back from every text that they are written in, in order, each with the
number of its line and with what is written of it there. -/
theorem assemble_sheet (s : Sheet) : assemble s.bytes = .ok s.program :=
  assembleChars_eq_ok_iff_assembles.2 (assembles_rows s.rows s.last 1)

/-- A comment that is no UTF-8, a comment in front of a carriage return, an empty line, an
instruction without blanks, and one in letters of either case with blanks around its comma. -/
def scattered : Sheet where
  rows :=
    [(⟨[], none, [.space], some ⟨[0xff, 59], by decide⟩⟩, .feed),
      (⟨[.tab], some ⟨.movi (-5), fun _ _ => false, fun _ => [], by decide⟩, [],
        some ⟨[], by decide⟩⟩, .returnFeed),
      (⟨[], none, [], none⟩, .feed),
      (⟨[], some ⟨.mov .sp .r0, fun k j => k ≠ j, fun _ => [.tab, .space], by decide⟩, [.tab],
        none⟩, .returnFeed)]
  last := ⟨[], some ⟨.call "Main_1", fun _ _ => true, fun _ => [], by decide +kernel⟩, [], none⟩

theorem assemble_sheet_scattered :
    assemble (" ;".toUTF8.toList ++ [0xff] ++
      ";\n\tmovi#-5;\r\n\nmOV\t Sp\t ,\t R0\t\r\nCALL Main_1".toUTF8.toList) =
      .ok [⟨.movi (-5), 2, "movi#-5"⟩, ⟨.mov .sp .r0, 4, "mOV\t Sp\t ,\t R0"⟩,
        ⟨.call "Main_1", 5, "CALL Main_1"⟩] := by
  have hbytes : scattered.bytes = " ;".toUTF8.toList ++ [0xff] ++
      ";\n\tmovi#-5;\r\n\nmOV\t Sp\t ,\t R0\t\r\nCALL Main_1".toUTF8.toList := by
    decide +kernel
  have hprogram : scattered.program = [⟨.movi (-5), 2, "movi#-5"⟩,
      ⟨.mov .sp .r0, 4, "mOV\t Sp\t ,\t R0"⟩, ⟨.call "Main_1", 5, "CALL Main_1"⟩] := by
    decide +kernel
  rw [← hbytes, ← hprogram]
  exact assemble_sheet scattered

end OnePass
