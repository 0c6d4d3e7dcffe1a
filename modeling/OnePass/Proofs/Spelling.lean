import Mathlib
import OnePass.Assembly.Program
import OnePass.Proofs.Characters
import OnePass.Proofs.Shift

namespace OnePass

namespace Assembly

/-- Texts that are one identifier. -/
def isName (s : String) : Bool :=
  match s.toList with
  | [] => false
  | c :: cs => isIdentStart c && cs.all isIdent

def Lexeme.piece (l : Lexeme) : LexemeKind × String := (l.kind, l.text)

/-- Wherever it starts, `cs` in front of `rest` is cut into `pieces`, and they are all on the line
where it starts. -/
def Cuts (cs : List Char) (pieces : List (LexemeKind × String)) (rest : List Char) : Prop :=
  ∀ line column, ∃ ls column', ls.map Lexeme.piece = pieces ∧ (∀ l ∈ ls, l.line = line) ∧
    lexemes line column (cs ++ rest) = (lexemes line column' rest).map (ls ++ ·)

section

variable {c : Char} {cs ds rest : List Char} {p q : List (LexemeKind × String)}

theorem Cuts.nil : Cuts [] [] rest := by
  intro line column
  refine ⟨[], column, rfl, by simp, ?_⟩
  rw [List.nil_append]
  cases lexemes line column rest <;> rfl

theorem Cuts.append (h : Cuts cs p (ds ++ rest)) (h' : Cuts ds q rest) :
    Cuts (cs ++ ds) (p ++ q) rest := by
  intro line column
  obtain ⟨ls, column', hls, hline, hcut⟩ := h line column
  obtain ⟨ls', column'', hls', hline', hcut'⟩ := h' line column'
  refine ⟨ls ++ ls', column'', by rw [List.map_append, hls, hls'], ?_, ?_⟩
  · intro l hl
    exact (List.mem_append.1 hl).elim (hline l) (hline' l)
  · rw [List.append_assoc, hcut, hcut']
    cases lexemes line column'' rest <;> simp [Except.map]

theorem cuts_of_first? {kind : LexemeKind} (h : first? c (cs ++ rest) = some (kind, cs.length))
    (heol : kind ≠ .eol) :
    Cuts (c :: cs)
      (if kind = .comment ∨ kind = .blank then [] else [(kind, String.ofList (c :: cs))]) rest := by
  intro line column
  rw [List.cons_append, lexemes, h]
  dsimp only
  rw [if_neg heol, List.take_left, List.drop_left]
  split
  · refine ⟨[], column + cs.length + 1, rfl, by simp, ?_⟩
    cases lexemes line (column + cs.length + 1) rest <;> rfl
  · refine ⟨[⟨kind, String.ofList (c :: cs), line, column⟩], column + cs.length + 1, rfl, ?_, rfl⟩
    simp

theorem takeWhile_append_eq {f : Char → Bool} (hcs : ∀ d ∈ cs, f d)
    (hrest : ∀ d ∈ rest.head?, f d = false) : (cs ++ rest).takeWhile f = cs := by
  rw [List.takeWhile_append_of_pos hcs]
  cases rest with
  | nil => simp
  | cons d rest => simp [hrest d rfl]

theorem isIdentStart_of_isDigit (h : isDigit c) : isIdentStart c = false := by
  have hc : c ≠ '_' := by
    rintro rfl
    contradiction
  simp only [isDigit, isIdentStart, Bool.and_eq_true, decide_eq_true_eq, Char.le_def] at h ⊢
  grind

theorem ne_of_isIdent {d : Char} (h : isIdent c) (hd : isIdent d = false) : c ≠ d := by
  rintro rfl
  rw [h] at hd
  contradiction

theorem cuts_ident (hc : isIdentStart c) (hcs : ∀ d ∈ cs, isIdent d)
    (hrest : ∀ d ∈ rest.head?, isIdent d = false) :
    Cuts (c :: cs) [(.ident, String.ofList (c :: cs))] rest := by
  have hident : isIdent c := by simp [isIdent, hc]
  have hfirst : first? c (cs ++ rest) = some (.ident, cs.length) := by
    rw [first?, if_neg (ne_of_isIdent hident rfl), if_neg (ne_of_isIdent hident rfl),
      if_neg fun h => ne_of_isIdent hident rfl h.1, if_pos hc, takeWhile_append_eq hcs hrest]
  exact cuts_of_first? hfirst nofun

theorem cuts_name {s : String} (hs : isName s) (hrest : ∀ d ∈ rest.head?, isIdent d = false) :
    Cuts s.toList [(.ident, s)] rest := by
  unfold isName at hs
  split at hs
  · contradiction
  · next c cs h =>
    rw [Bool.and_eq_true, List.all_eq_true] at hs
    have hcut := cuts_ident hs.1 hs.2 hrest
    rwa [← h, String.ofList_toList] at hcut

theorem cuts_digits (hc : isDigit c) (hcs : ∀ d ∈ cs, isDigit d)
    (hrest : ∀ d ∈ rest.head?, isDigit d = false) :
    Cuts (c :: cs) [(.int, String.ofList (c :: cs))] rest := by
  have hident : isIdent c := by simp [isIdent, hc]
  have hfirst : first? c (cs ++ rest) = some (.int, cs.length) := by
    rw [first?, if_neg (ne_of_isIdent hident rfl), if_neg (ne_of_isIdent hident rfl),
      if_neg fun h => ne_of_isIdent hident rfl h.1,
      if_neg (by simp [isIdentStart_of_isDigit hc]), if_pos hc, takeWhile_append_eq hcs hrest]
  exact cuts_of_first? hfirst nofun

theorem cuts_negative (hne : cs ≠ []) (hcs : ∀ d ∈ cs, isDigit d)
    (hrest : ∀ d ∈ rest.head?, isDigit d = false) :
    Cuts ('-' :: cs) [(.int, String.ofList ('-' :: cs))] rest := by
  have hfirst : first? '-' (cs ++ rest) = some (.int, cs.length) := by
    rw [first?, takeWhile_append_eq hcs hrest]
    simp [isIdentStart, isDigit, hne]
  exact cuts_of_first? hfirst nofun

theorem cuts_punct (hc : c = '#' ∨ c = ',') : Cuts [c] [(.punct, String.ofList [c])] rest := by
  have hfirst : first? c ([] ++ rest) = some (.punct, 0) := by
    rcases hc with rfl | rfl <;> rfl
  exact cuts_of_first? hfirst nofun

theorem cuts_blanks (hc : isBlank c) (hcs : ∀ d ∈ cs, isBlank d)
    (hrest : ∀ d ∈ rest.head?, isBlank d = false) : Cuts (c :: cs) [] rest := by
  have hfirst : first? c (cs ++ rest) = some (.blank, cs.length) := by
    rw [first?, takeWhile_append_eq hcs hrest]
    simp only [isBlank, Bool.or_eq_true, decide_eq_true_eq] at hc
    rcases hc with rfl | rfl <;> rfl
  exact cuts_of_first? hfirst nofun

end

namespace Argument

def text : Argument → String
  | .immediate n => "#" ++ toString n
  | .name s => s

def pieces : Argument → List (LexemeKind × String)
  | .immediate n => [(.punct, "#"), (.int, toString n)]
  | .name s => [(.ident, s)]

/-- Operands that are read back from their text. -/
def legible : Argument → Bool
  | .immediate n => wrap n = n
  | .name s => isName s

end Argument

theorem cuts_number (n : Int) {rest : List Char} (hrest : ∀ d ∈ rest.head?, isDigit d = false) :
    Cuts (toString n).toList [(.int, toString n)] rest := by
  have hdigits : ∀ c ∈ Nat.toDigits 10 n.natAbs, isDigit c :=
    fun c => Nat.isDigit_of_mem_toDigits (by omega) (by omega)
  have hne : Nat.toDigits 10 n.natAbs ≠ [] := Nat.toDigits_ne_nil
  have htext := Text.toList_toString n
  split at htext
  · have hcut := cuts_negative hne hdigits hrest
    rwa [← List.singleton_append, ← htext, String.ofList_toList] at hcut
  · obtain ⟨c, cs, hcs⟩ := List.exists_cons_of_ne_nil hne
    rw [hcs] at htext hdigits
    rw [List.forall_mem_cons] at hdigits
    have hcut := cuts_digits hdigits.1 hdigits.2 hrest
    rwa [← List.nil_append (c :: cs), ← htext, String.ofList_toList] at hcut

theorem Argument.cuts {a : Argument} (ha : a.legible) {rest : List Char}
    (hrest : ∀ d ∈ rest.head?, isIdent d = false) : Cuts a.text.toList a.pieces rest := by
  cases a with
  | immediate n =>
    -- a digit right behind the number would belong to it
    have hdigit : ∀ d ∈ rest.head?, isDigit d = false := by
      intro d hd
      exact (Bool.or_eq_false_iff.1 (hrest d hd)).2
    have htext : (immediate n).text.toList = ['#'] ++ (toString n).toList := String.toList_append
    rw [htext]
    exact (cuts_punct (.inl rfl)).append (cuts_number n hdigit)
  | name s => exact cuts_name ha hrest

theorem Lexeme.piece_eq {l : Lexeme} {kind : LexemeKind} {s : String} (h : l.piece = (kind, s)) :
    l.kind = kind ∧ l.text = s :=
  Prod.mk.inj h

/-- An operand is read off the lexemes that spell it. -/
theorem argument?_append {a : Argument} (ha : a.legible) {ls ts : List Lexeme}
    (h : ls.map Lexeme.piece = a.pieces) : argument? (ls ++ ts) = .ok (some (a, ts)) := by
  cases a with
  | immediate n =>
    obtain ⟨l, ls, rfl, hl, h⟩ := List.map_eq_cons_iff.1 h
    obtain ⟨l', rfl, hl'⟩ := List.map_eq_singleton_iff.1 h
    obtain ⟨hkind, htext⟩ := l.piece_eq hl
    obtain ⟨hkind', htext'⟩ := l'.piece_eq hl'
    have hread : Text.readLiteral l'.text = .ok n := by
      rw [htext', Text.readLiteral_toString (of_decide_eq_true ha)]
    simp [argument?, integer, isPunct, hkind, htext, hkind', hread, Except.map]
  | name s =>
    obtain ⟨l, rfl, hl⟩ := List.map_eq_singleton_iff.1 h
    obtain ⟨hkind, htext⟩ := l.piece_eq hl
    simp [argument?, isPunct, hkind, htext]

def morePieces (as : List Argument) : List (LexemeKind × String) :=
  as.flatMap fun a => (.punct, ",") :: a.pieces

theorem moreArguments_append {as : List Argument} (has : ∀ a ∈ as, a.legible) {ls ts : List Lexeme}
    (h : ls.map Lexeme.piece = morePieces as) (hts : ∀ l ∈ ts.head?, l.kind = .eol) :
    moreArguments (ls ++ ts) = .ok (as, ts) := by
  induction as generalizing ls with
  | nil =>
    obtain rfl := List.map_eq_nil_iff.1 h
    rw [List.nil_append]
    cases ts with
    | nil => simp [moreArguments]
    | cons l ts => simp [moreArguments, isPunct, hts l rfl]
  | cons a as ih =>
    rw [morePieces, List.flatMap_cons, List.cons_append] at h
    obtain ⟨l, ls, rfl, hl, h⟩ := List.map_eq_cons_iff.1 h
    obtain ⟨ls, ls', rfl, h, h'⟩ := List.map_eq_append_iff.1 h
    obtain ⟨hkind, htext⟩ := l.piece_eq hl
    have hpunct : isPunct l "," := by simp [isPunct, hkind, htext]
    rw [List.forall_mem_cons] at has
    have hread : argument? (ls ++ (ls' ++ ts)) = .ok (some (a, ls' ++ ts)) :=
      argument?_append has.1 h
    have hmore := ih has.2 h'
    rw [List.cons_append, List.append_assoc, moreArguments, if_pos hpunct]
    -- the operand was read, so neither an error nor its absence is left
    split
    · simp_all
    · simp_all
    · simp_all [Except.map]

def solid (c : Char) : Bool := !isSpace c && c ≠ ';'

theorem solid_of_isIdent {c : Char} (h : isIdent c) : solid c := by
  have hspace : isSpace c = false := by
    simp only [isSpace, Bool.or_eq_false_iff, decide_eq_false_iff_not]
    refine ⟨⟨⟨⟨⟨?_, ?_⟩, ?_⟩, ?_⟩, ?_⟩, ?_⟩ <;> exact ne_of_isIdent h rfl
  simp [solid, hspace, ne_of_isIdent h (d := ';') rfl]

theorem isBlank_of_solid {c : Char} (h : solid c) : isBlank c = false := by
  simp only [solid, isSpace, isBlank] at h ⊢
  grind

theorem isName.solid {s : String} (hs : isName s) : s.toList ≠ [] ∧ ∀ c ∈ s.toList, solid c := by
  unfold isName at hs
  split at hs
  · contradiction
  · next c cs h =>
    rw [Bool.and_eq_true, List.all_eq_true] at hs
    rw [h, List.forall_mem_cons]
    refine ⟨List.cons_ne_nil _ _, solid_of_isIdent ?_, fun d hd => solid_of_isIdent (hs.2 d hd)⟩
    simp [isIdent, hs.1]

theorem Argument.solid {a : Argument} (ha : a.legible) :
    a.text.toList ≠ [] ∧ ∀ c ∈ a.text.toList, solid c := by
  cases a with
  | immediate n =>
    have htext : (immediate n).text.toList = '#' :: (toString n).toList := String.toList_append
    rw [htext, Text.toList_toString]
    refine ⟨List.cons_ne_nil _ _, List.forall_mem_cons.2 ⟨rfl, ?_⟩⟩
    intro c hc
    rcases List.mem_append.1 hc with hc | hc
    · split at hc
      · obtain rfl := List.mem_singleton.1 hc
        rfl
      · contradiction
    · have hdigit : isDigit c := Nat.isDigit_of_mem_toDigits (by omega) (by omega) hc
      exact solid_of_isIdent (by simp [isIdent, hdigit])
  | name s => exact isName.solid ha

def moreChars (as : List Argument) : List Char :=
  as.flatMap fun a => ',' :: ' ' :: a.text.toList

theorem isIdent_head?_more (as : List Argument) {rest : List Char}
    (hrest : ∀ d ∈ rest.head?, isIdent d = false) :
    ∀ d ∈ (moreChars as ++ rest).head?, isIdent d = false := by
  cases as with
  | nil => exact hrest
  | cons b bs => simp [moreChars, isIdent, isIdentStart, isDigit]

theorem Argument.cuts_blank {a : Argument} (ha : a.legible) {rest : List Char}
    (hrest : ∀ d ∈ rest.head?, isIdent d = false) : Cuts (' ' :: a.text.toList) a.pieces rest := by
  obtain ⟨hne, hsolid⟩ := a.solid ha
  have hblank : Cuts [' '] [] (a.text.toList ++ rest) := by
    obtain ⟨c, cs, hcs⟩ := List.exists_cons_of_ne_nil hne
    rw [hcs, List.forall_mem_cons] at hsolid
    rw [hcs]
    exact cuts_blanks rfl (by simp) (by simp [isBlank_of_solid hsolid.1])
  exact hblank.append (a.cuts ha hrest)

theorem cuts_more {as : List Argument} (has : ∀ a ∈ as, a.legible) {rest : List Char}
    (hrest : ∀ d ∈ rest.head?, isIdent d = false) : Cuts (moreChars as) (morePieces as) rest := by
  induction as with
  | nil => exact Cuts.nil
  | cons a as ih =>
    rw [List.forall_mem_cons] at has
    have hone := a.cuts_blank has.1 (isIdent_head?_more as hrest)
    have hcomma : Cuts [','] [(.punct, ",")] (' ' :: a.text.toList ++ (moreChars as ++ rest)) :=
      cuts_punct (.inr rfl)
    exact (hcomma.append hone).append (ih has.2)

namespace Line

def pieces (l : Line) : List (LexemeKind × String) :=
  (.ident, l.mnemonic) ::
    match l.args with
    | [] => []
    | a :: as => a.pieces ++ morePieces as

/-- The characters of a line without its end: one blank after the mnemonic, and one after every
comma. -/
def chars (l : Line) : List Char :=
  l.mnemonic.toList ++
    match l.args with
    | [] => []
    | a :: as => ' ' :: a.text.toList ++ moreChars as

def legible (l : Line) : Bool := isName l.mnemonic && l.args.all Argument.legible

theorem cuts {l : Line} (hl : l.legible) (rest : List Char) :
    Cuts l.chars l.pieces ('\n' :: rest) := by
  obtain ⟨mnemonic, args, line⟩ := l
  simp only [legible, Bool.and_eq_true, List.all_eq_true] at hl
  obtain ⟨hname, hargs⟩ := hl
  have hend : ∀ d ∈ ('\n' :: rest).head?, isIdent d = false := by
    simp [isIdent, isIdentStart, isDigit]
  cases args with
  | nil => exact (cuts_name hname hend).append Cuts.nil
  | cons a as =>
    rw [List.forall_mem_cons] at hargs
    have hone := a.cuts_blank hargs.1 (isIdent_head?_more as hend)
    have hmore := hone.append (cuts_more hargs.2 hend)
    exact (cuts_name hname (by simp [isIdent, isIdentStart, isDigit])).append hmore

end Line

theorem arguments_append {l : Line} (hl : ∀ a ∈ l.args, a.legible) {ls ts : List Lexeme}
    {e : Lexeme} (h : (.ident, l.mnemonic) :: ls.map Lexeme.piece = l.pieces) (he : e.kind = .eol) :
    arguments (ls ++ e :: ts) = .ok (l.args, e :: ts) := by
  obtain ⟨mnemonic, args, line⟩ := l
  have hends : ∀ x ∈ (e :: ts).head?, x.kind = .eol := by simp [he]
  cases args with
  | nil =>
    obtain rfl := List.map_eq_nil_iff.1 (List.cons.inj h).2
    simp [arguments, argument?, isPunct, he]
  | cons a as =>
    rw [List.forall_mem_cons] at hl
    obtain ⟨ls, ls', rfl, h, h'⟩ := List.map_eq_append_iff.1 (List.cons.inj h).2
    rw [arguments, List.append_assoc, argument?_append hl.1 h]
    dsimp only
    rw [moreArguments_append hl.2 h' hends]
    rfl

/-- A line is read off the lexemes that spell it. -/
theorem lines_append {l : Line} (hl : l.legible) {ls ts : List Lexeme} {e : Lexeme}
    (h : ls.map Lexeme.piece = l.pieces) (hline : ∀ x ∈ ls, x.line = l.line) (he : e.kind = .eol) :
    lines (ls ++ e :: ts) = (lines ts).map (l :: ·) := by
  rw [Line.legible, Bool.and_eq_true, List.all_eq_true] at hl
  obtain ⟨x, ls, rfl, hx, h⟩ := List.map_eq_cons_iff.1 h
  obtain ⟨hkind, htext⟩ := x.piece_eq hx
  have hread : arguments (ls ++ e :: ts) = .ok (l.args, e :: ts) :=
    arguments_append hl.2 (h ▸ rfl) he
  have hrest : lines (e :: ts) = lines ts := by rw [lines, he]
  rw [List.cons_append, lines, hkind]
  dsimp only
  split
  · simp_all
  · simp_all

/-- A text that starts on a line spells instructions. -/
def Spells (line : Nat) (cs : List Char) (ls : List Line) : Prop :=
  ∃ ts, lexemes line 1 cs = .ok ts ∧ lines ts = .ok ls

theorem Spells.nil (line : Nat) : Spells line [] [] :=
  ⟨_, by rw [lexemes], by simp [lines]⟩

theorem Spells.cons {l : Line} (hl : l.legible) {cs : List Char} {ls : List Line}
    (h : Spells (l.line + 1) cs ls) : Spells l.line (l.chars ++ '\n' :: cs) (l :: ls) := by
  obtain ⟨ts, hts, hls⟩ := h
  obtain ⟨xs, column, hpieces, hline, hcut⟩ := l.cuts hl cs l.line 1
  have hend : lexemes l.line column ('\n' :: cs) = .ok (⟨.eol, "\n", l.line, column⟩ :: ts) := by
    rw [lexemes, first?]
    simp [hts, Except.map]
  refine ⟨_, by rw [hcut, hend]; rfl, ?_⟩
  rw [lines_append hl hpieces hline rfl, hls]
  rfl

/-- A word with capitals where they are asked for. -/
def recase (capital : Nat → Bool) (s : String) : String :=
  String.ofList (s.toList.mapIdx fun k c => if capital k then c.toUpper else c)

theorem toLower_recase (capital : Nat → Bool) (s : String) :
    (recase capital s).toLower = s.toLower := by
  have hchar : ∀ (k : Nat) (c : Char),
      (if capital k then c.toUpper else c).toLower = c.toLower := by
    intro k c
    split
    · exact Char.toLower_toUpper_eq_toLower c
    · rfl
  rw [← String.toList_inj, String.toLower, String.toLower, String.toList_map, String.toList_map,
    recase, String.toList_ofList]
  exact List.ext_getElem (by simp) fun k _ _ => by simp [hchar]

namespace Argument

def recase (capital : Nat → Bool) : Argument → Argument
  | .immediate n => .immediate n
  | .name s => .name (Assembly.recase capital s)

theorem register_recase (n : Nat) (capital : Nat → Bool) (a : Argument) {r : Reg}
    (h : register n a = .ok r) : register n (a.recase capital) = .ok r := by
  cases a with
  | immediate k => contradiction
  | name s =>
    rw [register] at h
    rw [recase, register, toLower_recase]
    split at h <;> simp_all

end Argument

end Assembly

open Assembly

/-- Registers that a machine has. -/
def Reg.real (r : Reg) : Bool := r.scratch || r = .sp

theorem Reg.real_of_scratch {r : Reg} (h : r.scratch) : r.real := by simp [real, h]

theorem Reg.name_read {r : Reg} (h : r.real) :
    isName r.name ∧ Reg.ofName? r.name.toLower = some r := by
  have hnames : ∀ q ∈ [r0, r1, r2, sp], isName q.name ∧ ofName? q.name.toLower = some q := by
    decide +kernel
  apply hnames
  cases r with
  | other name => simp [real, scratch] at h
  | _ => simp

theorem Reg.isName_name {r : Reg} (h : r.real) : isName r.name := (name_read h).1

theorem Reg.register_name {r : Reg} (h : r.real) (n : Nat) : register n (.name r.name) = .ok r := by
  rw [register, (name_read h).2]

theorem Reg.ne_sp {r : Reg} (h : r.scratch) : r ≠ .sp := by
  rintro rfl
  contradiction

namespace Instr

/-- An instruction as it is written on a line. -/
def line (n : Nat) : Instr → Line
  | movi k => ⟨"movi", [.immediate k], n⟩
  | addi k => ⟨"addi", [.immediate k], n⟩
  | subi k => ⟨"subi", [.immediate k], n⟩
  | mov a b => ⟨"mov", [.name a.name, .name b.name], n⟩
  | alu op a b => ⟨op.name, [.name a.name, .name b.name], n⟩
  | push r => ⟨"push", [.name r.name], n⟩
  | pop r => ⟨"pop", [.name r.name], n⟩
  | ldr a b => ⟨"ldr", [.name a.name, .name b.name], n⟩
  | str a b => ⟨"str", [.name a.name, .name b.name], n⟩
  | call f => ⟨"call", [.name f], n⟩
  | unknown _ a b => ⟨"", [.name a.name, .name b.name], n⟩

@[simp] theorem line_line (i : Instr) (n : Nat) : (i.line n).line = n := by
  cases i <;> rfl

theorem toList_text (i : Instr) (n : Nat) : i.text.toList = (i.line n).chars := by
  cases i <;> simp [text, line, Line.chars, moreChars, Argument.text, pair]

/-- Instructions that are read back from their text: their registers exist, immediates fit in 64
bits and a name that is called is an identifier. -/
def legible : Instr → Bool
  | movi n | addi n | subi n => wrap n = n
  | mov a b => a.real && b.real
  | alu _ a b | ldr a b | str a b => a.scratch && b.scratch
  | push r | pop r => r.real
  | call f => isName f
  | unknown .. => false

def mnemonics : List String :=
  ["movi", "addi", "subi", "mov", "add", "sub", "mul", "push", "pop", "ldr", "str", "call"]

theorem mnemonic_mem {i : Instr} (h : i.legible) (n : Nat) : (i.line n).mnemonic ∈ mnemonics := by
  cases i with
  | unknown => contradiction
  | alu op => cases op <;> simp [line, mnemonics, Alu.name]
  | _ => simp [line, mnemonics]

theorem mnemonics_legible : ∀ m ∈ mnemonics, isName m ∧ m.toLower = m := by
  decide +kernel

theorem legible_line {i : Instr} (h : i.legible) (n : Nat) : (i.line n).legible := by
  have hname := (mnemonics_legible _ (mnemonic_mem h n)).1
  rw [Line.legible, hname, Bool.true_and, List.all_eq_true]
  cases i <;> simp_all [line, legible, Argument.legible, Reg.isName_name, Reg.real_of_scratch]

/-- Whether the operands are registers or numbers, which can be written in any letter case. -/
def caseless : Instr → Bool
  | call _ => false
  | _ => true

/-- An instruction as it is written on a line with capitals in the `k`-th word where `capital k`
asks for them. A name that is called is kept. -/
def cased (capital : Nat → Nat → Bool) (n : Nat) (i : Instr) : Line where
  mnemonic := recase (capital 0) (i.line n).mnemonic
  args :=
    if i.caseless then (i.line n).args.mapIdx fun k a => a.recase (capital (k + 1))
    else (i.line n).args
  line := n

theorem twoRegisters_eq {mnemonic : String} {l : Line} {x y : Argument} {a b : Reg}
    (hargs : l.args = [x, y]) (ha : register l.line x = .ok a) (hb : register l.line y = .ok b) :
    twoRegisters mnemonic l = .ok (a, b) := by
  rw [twoRegisters, hargs]
  dsimp only
  rw [ha, hb]
  rfl

theorem scratchRegisters_eq {mnemonic : String} {l : Line} {make : Reg → Reg → Instr}
    {a b : Reg} (h : twoRegisters mnemonic l = .ok (a, b)) (ha : a.scratch) (hb : b.scratch) :
    scratchRegisters mnemonic l make = .ok (make a b) := by
  rw [scratchRegisters, h]
  simp only [bind, Except.bind]
  rw [if_neg (not_or.2 ⟨Reg.ne_sp ha, Reg.ne_sp hb⟩)]
  rfl

theorem register_cased {r : Reg} (h : r.real) (n : Nat) (capital : Nat → Bool) :
    register n (.name (recase capital r.name)) = .ok r :=
  Argument.register_recase n capital (.name r.name) (Reg.register_name h n)

/-- An instruction is decoded from its line in any letter case. -/
theorem decode_cased {i : Instr} (h : i.legible) (capital : Nat → Nat → Bool) (n : Nat) :
    decode (i.cased capital n) = .ok i := by
  have hlower : (i.cased capital n).mnemonic.toLower = (i.line n).mnemonic := by
    rw [cased, toLower_recase, (mnemonics_legible _ (mnemonic_mem h n)).2]
  have htwo : ∀ {mnemonic : String} {a b : Reg}, a.real → b.real → i.caseless →
      (i.line n).args = [.name a.name, .name b.name] →
      twoRegisters mnemonic (i.cased capital n) = .ok (a, b) := by
    intro mnemonic a b ha hb hcase hargs
    refine twoRegisters_eq ?_ (register_cased ha n (capital 1)) (register_cased hb n (capital 2))
    rw [cased, hcase, hargs]
    rfl
  -- the mnemonic picks the branch by now, and the branch does not look at it again
  unfold decode
  rw [hlower]
  cases i with
  | movi k => rfl
  | addi k => rfl
  | subi k => rfl
  | mov a b =>
    simp only [legible, Bool.and_eq_true] at h
    change (twoRegisters _ _).map _ = _
    rw [htwo h.1 h.2 rfl rfl]
    rfl
  | alu op a b =>
    simp only [legible, Bool.and_eq_true] at h
    have htwo : ∀ {mnemonic : String}, twoRegisters mnemonic _ = .ok (a, b) :=
      htwo (Reg.real_of_scratch h.1) (Reg.real_of_scratch h.2) rfl rfl
    cases op with
    | add => exact scratchRegisters_eq htwo h.1 h.2
    | sub => exact scratchRegisters_eq htwo h.1 h.2
    | mul => exact scratchRegisters_eq htwo h.1 h.2
  | push r =>
    change (register n (.name (recase (capital 1) r.name))).map _ = _
    rw [register_cased h]
    rfl
  | pop r =>
    change (register n (.name (recase (capital 1) r.name))).map _ = _
    rw [register_cased h]
    rfl
  | ldr a b =>
    simp only [legible, Bool.and_eq_true] at h
    exact scratchRegisters_eq
      (htwo (Reg.real_of_scratch h.1) (Reg.real_of_scratch h.2) rfl rfl) h.1 h.2
  | str a b =>
    simp only [legible, Bool.and_eq_true] at h
    exact scratchRegisters_eq
      (htwo (Reg.real_of_scratch h.1) (Reg.real_of_scratch h.2) rfl rfl) h.1 h.2
  | call f => rfl
  | unknown => contradiction

@[simp] theorem cased_lower (i : Instr) (n : Nat) : i.cased (fun _ _ => false) n = i.line n := by
  have hsame {α : Type} (xs : List α) : xs.mapIdx (fun _ x => x) = xs :=
    List.ext_getElem (by simp) (by simp)
  have hword (s : String) : recase (fun _ => false) s = s := by simp [recase, hsame]
  have harg (a : Argument) : a.recase (fun _ => false) = a := by
    cases a <;> simp [Argument.recase, hword]
  simp only [cased, hword, harg, hsame, ite_self]
  cases i <;> rfl

theorem decode_line {i : Instr} (h : i.legible) (n : Nat) : decode (i.line n) = .ok i := by
  rw [← cased_lower]
  exact decode_cased h _ n

end Instr

/-- Characters of one line that stand there without blanks around them and without a comment. -/
structure Trimmed (cs : List Char) : Prop where
  first : ∃ c ∈ cs.head?, solid c
  last : ∃ c ∈ cs.getLast?, solid c
  inside : ∀ c ∈ cs, c ≠ ';' ∧ c ≠ '\n'

theorem solid.inside {c : Char} (h : solid c) : c ≠ ';' ∧ c ≠ '\n' := by
  constructor <;> rintro rfl <;> contradiction

theorem trimmed_of_solid {cs : List Char} (h : cs ≠ [] ∧ ∀ c ∈ cs, solid c) : Trimmed cs where
  first := ⟨cs.head h.1, List.head?_eq_some_head h.1, h.2 _ (List.head_mem h.1)⟩
  last := ⟨cs.getLast h.1, List.getLast?_eq_some_getLast h.1, h.2 _ (List.getLast_mem h.1)⟩
  inside c hc := solid.inside (h.2 c hc)

theorem Trimmed.append {cs ds mid : List Char} (h : Trimmed cs)
    (hmid : ∀ c ∈ mid, c ≠ ';' ∧ c ≠ '\n') (h' : Trimmed ds) : Trimmed (cs ++ (mid ++ ds)) where
  first := by
    obtain ⟨c, hc, hsolid⟩ := h.first
    exact ⟨c, by rw [List.head?_append, hc]; rfl, hsolid⟩
  last := by
    obtain ⟨c, hc, hsolid⟩ := h'.last
    exact ⟨c, by rw [List.getLast?_append, List.getLast?_append, hc]; rfl, hsolid⟩
  inside c hc := by
    rcases List.mem_append.1 hc with hc | hc
    · exact h.inside c hc
    · exact (List.mem_append.1 hc).elim (hmid c) (h'.inside c)

theorem dropWhile_isSpace {cs : List Char} (h : ∃ c ∈ cs.head?, solid c) :
    cs.dropWhile isSpace = cs := by
  obtain ⟨c, hc, hsolid⟩ := h
  cases cs with
  | nil => contradiction
  | cons d cs =>
    obtain rfl : d = c := Option.some.inj hc
    have hspace : ¬isSpace d := by simp_all [solid]
    exact List.dropWhile_cons_of_neg hspace

/-- Nothing is taken off a trimmed line. -/
theorem Trimmed.bare_eq {cs : List Char} (h : Trimmed cs) : bare cs = String.ofList cs := by
  have hcode : cs.takeWhile (· ≠ ';') = cs :=
    List.takeWhile_eq_self_iff.2 fun c hc => decide_eq_true (h.inside c hc).1
  have hlast : cs.reverse.dropWhile isSpace = cs.reverse :=
    dropWhile_isSpace (by rw [List.head?_reverse]; exact h.last)
  rw [bare, hcode, dropWhile_isSpace h.first, hlast, List.reverse_reverse]

theorem trimmed_more {cs : List Char} (h : Trimmed cs) {as : List Argument}
    (has : ∀ a ∈ as, a.legible) : Trimmed (cs ++ moreChars as) := by
  induction as generalizing cs with
  | nil => rwa [moreChars, List.flatMap_nil, List.append_nil]
  | cons a as ih =>
    rw [List.forall_mem_cons] at has
    have hone : Trimmed (cs ++ ([',', ' '] ++ a.text.toList)) :=
      h.append (by simp) (trimmed_of_solid (a.solid has.1))
    have hall := ih hone has.2
    rwa [List.append_assoc] at hall

theorem Assembly.Line.trimmed {l : Line} (hl : l.legible) : Trimmed l.chars := by
  obtain ⟨mnemonic, args, line⟩ := l
  simp only [legible, Bool.and_eq_true, List.all_eq_true] at hl
  obtain ⟨hname, hargs⟩ := hl
  have hmnemonic := trimmed_of_solid (isName.solid hname)
  cases args with
  | nil => simpa [chars] using hmnemonic
  | cons a as =>
    rw [List.forall_mem_cons] at hargs
    have hone : Trimmed (mnemonic.toList ++ ([' '] ++ a.text.toList)) :=
      hmnemonic.append (by simp) (trimmed_of_solid (a.solid hargs.1))
    have hall := trimmed_more hone hargs.2
    rwa [List.append_assoc] at hall

theorem Instr.trimmed_text {i : Instr} (h : i.legible) : Trimmed i.text.toList := by
  rw [i.toList_text 0]
  exact Line.trimmed (legible_line h 0)

theorem toList_listing (code : List Instr) :
    (listing code).toList = code.flatMap fun i => i.text.toList ++ ['\n'] := by
  rw [listing, String.toList_join, List.flatMap_map]
  simp

theorem spells_listing {code : List Instr} (h : ∀ i ∈ code, i.legible) (n : Nat) :
    Spells n (code.flatMap fun i => i.text.toList ++ ['\n'])
      (code.mapIdx fun k i => i.line (n + k)) := by
  induction code generalizing n with
  | nil => exact Spells.nil n
  | cons i code ih =>
    rw [List.forall_mem_cons] at h
    have hrest := ih h.2 (n + 1)
    simp only [Nat.add_right_comm n 1] at hrest
    rw [List.flatMap_cons, List.mapIdx_cons, i.toList_text n, List.append_assoc]
    have hcons := Spells.cons (Instr.legible_line h.1 n) (i.line_line n ▸ hrest)
    rwa [i.line_line] at hcons

theorem splitLines_ne_nil (cs : List Char) : splitLines cs ≠ [] := by
  cases cs with
  | nil => nofun
  | cons c cs =>
    rw [splitLines]
    split
    · split <;> nofun
    · nofun

theorem splitLines_append {cs : List Char} (h : ∀ c ∈ cs, c ≠ '\n') (rest : List Char) :
    splitLines (cs ++ '\n' :: rest) = cs :: splitLines rest := by
  induction cs with
  | nil =>
    obtain ⟨l, ls, hls⟩ := List.exists_cons_of_ne_nil (splitLines_ne_nil rest)
    simp [splitLines, hls]
  | cons c cs ih =>
    rw [List.forall_mem_cons] at h
    rw [List.cons_append, splitLines, ih h.2]
    simp [h.1]

theorem splitLines_listing {code : List Instr} (h : ∀ i ∈ code, i.legible) :
    splitLines (code.flatMap fun i => i.text.toList ++ ['\n']) =
      code.map (·.text.toList) ++ [[]] := by
  induction code with
  | nil => rfl
  | cons i code ih =>
    rw [List.forall_mem_cons] at h
    have hline := splitLines_append (fun c hc => ((Instr.trimmed_text h.1).inside c hc).2)
      (code.flatMap fun i => i.text.toList ++ ['\n'])
    rw [ih h.2] at hline
    rw [List.flatMap_cons, List.append_assoc]
    exact hline

theorem mapM_eq_ok {α β ε : Type} {f : α → Except ε β} {xs : List α} {ys : List β}
    (h : List.Forall₂ (fun x y => f x = .ok y) xs ys) : xs.mapM f = .ok ys := by
  induction h with
  | nil => rfl
  | cons h _ ih => 
    rw [List.mapM_cons, h, ih]
    rfl

/-- Code as a program: each instruction with the number of its line and its text. -/
def numbered (code : List Instr) : List ProgramLine :=
  code.mapIdx fun k i => ⟨i, k + 1, i.text⟩

theorem assemble_listing {code : List Instr} (h : ∀ i ∈ code, i.legible) :
    assemble (listing code).toUTF8.toList = .ok (numbered code) := by
  obtain ⟨ts, hts, hls⟩ := spells_listing h 1
  rw [assemble, Text.decodeBytes_toUTF8, assembleChars, toList_listing, hts]
  change (lines ts >>= fun ls => assembleLines _ ls) = _
  rw [hls]
  -- line by line: the k-th instruction stands on line k + 1
  apply mapM_eq_ok
  rw [List.forall₂_iff_get]
  refine ⟨by simp [numbered], ?_⟩
  intro k hk hk'
  rw [List.length_mapIdx] at hk
  have hi := h code[k] (List.getElem_mem hk)
  have hsource : (splitLines (code.flatMap fun i => i.text.toList ++ ['\n'])).toArray.getD k [] =
      code[k].text.toList := by
    rw [splitLines_listing h]
    simp [List.getElem?_append_left, hk]
  simp only [numbered, List.get_eq_getElem, List.getElem_mapIdx, Instr.decode_line hi,
    Instr.line_line]
  rw [Nat.add_sub_cancel_left, hsource, (Instr.trimmed_text hi).bare_eq, String.ofList_toList]
  simp [bind, Except.bind, pure, Except.pure]
  omega

end OnePass
