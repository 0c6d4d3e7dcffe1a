import Mathlib
import OnePass.Proofs.Characters
import OnePass.Proofs.Refill

namespace OnePass

/-- A letter and then letters and digits, all of them ASCII. -/
def isIdentifier (name : String) : Bool :=
  match name.toList with
  | c :: cs => c.isAlpha && cs.all Char.isAlphanum
  | [] => false

namespace TokenType

def keywords : List TokenType := [.var, .struct, .void, .u16, .i16]

def marks : List TokenType :=
  [.lbrace, .rbrace, .lparen, .rparen, .semicolon, .comma, .assign, .plus, .minus, .star, .amp]

end TokenType

namespace Token

/-- Keywords and identifiers. -/
def isWord (t : Token) : Bool := t.type = .identifier || t.type ∈ TokenType.keywords

def isNumber (t : Token) : Bool := t.type = .integer

/-- The tokens that a source can spell. -/
def writable (t : Token) : Bool :=
  match t.type with
  | .identifier =>
    isIdentifier t.name && (TokenType.keyword? t.name).isNone && t.value = 0
  | .integer => 0 ≤ t.value && t.value ≤ 99999999999 && t.name = ""
  | type => type ∈ TokenType.keywords ++ TokenType.marks && t.name = "" && t.value = 0

/-- Two tokens between which something has to stand. -/
def runsInto (t u : Token) : Bool :=
  t.isWord && (u.isWord || u.isNumber) || t.isNumber && u.isNumber

def bytes (t : Token) : List UInt8 := t.text.toUTF8.toList

end Token

/-- A token with the blanks before it. -/
abbrev Piece := List UInt8 × Token

/-- A source that is written piece by piece, and ends with more blanks. -/
def sourceBytes (pieces : List Piece) (last : List UInt8) : List UInt8 :=
  pieces.flatMap (fun p => p.1 ++ p.2.bytes) ++ last

/-- The tokens of the pieces that follow `before`, each with the line on which it stands. -/
def placed (before : List UInt8) : List Piece → List Token
  | [] => []
  | (blanks, t) :: pieces =>
    { t with line := Munch.lineAfter (before ++ blanks) } ::
      placed (before ++ blanks ++ t.bytes) pieces

/-- What follows a token does not go on with it. -/
def Token.Stops (t : Token) (rest : List UInt8) : Prop :=
  ∀ b ∈ rest.head?, (t.isWord → Lexer.isAlnum b = false) ∧ (t.isNumber → Lexer.isDigit b = false)

namespace Text

def byteOf (c : Char) : UInt8 := UInt8.ofNat c.toNat

theorem toList_toUTF8_ascii {s : String} (h : ∀ c ∈ s.toList, c.toNat < 128) :
    s.toUTF8.toList = s.toList.map byteOf := by
  have hone : ∀ c : Char, c.toNat < 128 → String.utf8EncodeChar c = [byteOf c] := by
    intro c hc
    have hle : c.val.toNat ≤ 127 := Nat.le_of_lt_succ hc
    rw [String.utf8EncodeChar]
    simp only [hle, if_true]
    rfl
  rw [toList_toUTF8]
  generalize s.toList = cs at h
  induction cs with
  | nil => rfl
  | cons c cs ih =>
    rw [List.forall_mem_cons] at h
    rw [List.flatMap_cons, hone c h.1, ih h.2]
    rfl

theorem ascii_byteOf {cs : List Char} (h : ∀ c ∈ cs, c.toNat < 128) :
    Lexer.ascii (cs.map byteOf) = String.ofList cs := by
  have hback : ∀ c ∈ cs, Char.ofNat (byteOf c).toNat = c := by
    intro c hc
    have hlt := h c hc
    rw [byteOf, toNat_byte (by omega)]
    exact Char.ofNat_toNat c
  rw [Lexer.ascii, List.map_map]
  congr 1
  exact (List.map_congr_left hback).trans (List.map_id cs)

theorem lt_of_isAlphanum {c : Char} (h : c.isAlphanum) : c.toNat < 128 := by
  simp only [Char.isAlphanum, Char.isAlpha, Char.isUpper, Char.isLower, Char.isDigit,
    Bool.or_eq_true, Bool.and_eq_true, decide_eq_true_eq, UInt32.le_iff_toNat_le, ge_iff_le] at h
  change c.val.toNat < 128
  have hz : 'z'.val.toNat = 122 := rfl
  have hZ : 'Z'.val.toNat = 90 := rfl
  have h9 : '9'.val.toNat = 57 := rfl
  omega

theorem class_byteOf {c : Char} (h : c.toNat < 128) :
    Lexer.isLetter (byteOf c) = c.isAlpha ∧ Lexer.isDigit (byteOf c) = c.isDigit ∧
      Lexer.isAlnum (byteOf c) = c.isAlphanum := by
  have hall : ∀ n : Fin 128,
      Lexer.isLetter (byteOf (Char.ofNat n)) = (Char.ofNat n).isAlpha ∧
        Lexer.isDigit (byteOf (Char.ofNat n)) = (Char.ofNat n).isDigit ∧
        Lexer.isAlnum (byteOf (Char.ofNat n)) = (Char.ofNat n).isAlphanum := by
    decide +kernel
  have hc := hall ⟨c.toNat, h⟩
  rwa [Char.ofNat_toNat c] at hc

end Text

theorem ascii_of_isIdentifier {w : String} (h : isIdentifier w) :
    ∀ c ∈ w.toList, c.toNat < 128 := by
  unfold isIdentifier at h
  split at h
  · rename_i c cs hcs
    rw [Bool.and_eq_true, List.all_eq_true] at h
    rw [hcs, List.forall_mem_cons]
    constructor
    · exact Text.lt_of_isAlphanum (by simp [Char.isAlphanum, h.1])
    · intro d hd
      exact Text.lt_of_isAlphanum (h.2 d hd)
  · contradiction

namespace Lexer

/-- No byte is in two classes. -/
theorem class_disjoint (b : UInt8) :
    (isBlank b → isAlnum b = false ∧ isDigit b = false) ∧ (isDigit b → isLetter b = false) := by
  have hall : ∀ n : Fin 256,
      (isBlank (UInt8.ofNat n) →
          isAlnum (UInt8.ofNat n) = false ∧ isDigit (UInt8.ofNat n) = false) ∧
        (isDigit (UInt8.ofNat n) → isLetter (UInt8.ofNat n) = false) := by
    decide +kernel
  have hb := hall ⟨b.toNat, b.toNat_lt⟩
  rwa [UInt8.ofNat_toNat] at hb

theorem isBlank_of_isAlnum {b : UInt8} (h : isAlnum b) : isBlank b = false := by
  by_contra hblank
  have hnot := ((class_disjoint b).1 (by simpa using hblank)).1
  simp [h] at hnot

theorem takeWhile_run {p : UInt8 → Bool} {bs rest : List UInt8} (hbs : ∀ b ∈ bs, p b)
    (hrest : ∀ b ∈ rest.head?, p b = false) : (bs ++ rest).takeWhile p = bs := by
  rw [List.takeWhile_append_of_pos hbs]
  cases rest with
  | nil => simp
  | cons b rest => simp [hrest b rfl]

end Lexer

theorem identifier_bytes {w : String} (h : isIdentifier w) :
    ∃ b bs, w.toUTF8.toList = b :: bs ∧ (b :: bs).length = w.length ∧ Lexer.isLetter b ∧
      ∀ d ∈ bs, Lexer.isAlnum d := by
  have hascii := ascii_of_isIdentifier h
  rw [← String.length_toList, Text.toList_toUTF8_ascii hascii]
  unfold isIdentifier at h
  split at h
  · rename_i c cs hcs
    rw [hcs, List.forall_mem_cons] at hascii
    rw [Bool.and_eq_true, List.all_eq_true] at h
    rw [hcs]
    refine ⟨Text.byteOf c, cs.map Text.byteOf, rfl, by simp, ?_, ?_⟩
    · rw [(Text.class_byteOf hascii.1).1]
      exact h.1
    · intro b hb
      obtain ⟨d, hd, rfl⟩ := List.mem_map.1 hb
      rw [(Text.class_byteOf (hascii.2 d hd)).2.2]
      exact h.2 d hd
  · contradiction

theorem decimal_byteOf {cs : List Char} (h : ∀ c ∈ cs, c.isDigit) (n : Nat) :
    (cs.map Text.byteOf).foldl (fun n b => n * 10 + (b.toNat - 48 : Int)) (n : Int) =
      Nat.ofDigitChars 10 cs n := by
  induction cs generalizing n with
  | nil => rfl
  | cons c cs ih =>
    rw [List.forall_mem_cons] at h
    have hc := h.1
    simp only [Char.isDigit, Bool.and_eq_true, decide_eq_true_eq, UInt32.le_iff_toNat_le,
      ge_iff_le] at hc
    have hlo : 48 ≤ c.toNat := hc.1
    have hhi : c.toNat ≤ 57 := hc.2
    have hbyte : (Text.byteOf c).toNat = c.toNat := Text.toNat_byte (by omega)
    have hzero : '0'.toNat = 48 := rfl
    rw [List.map_cons, List.foldl_cons, Nat.ofDigitChars_cons, ← ih h.2, hbyte]
    congr 1
    omega

theorem number_bytes (n : Nat) :
    ∃ b bs, (toString n).toUTF8.toList = b :: bs ∧ (b :: bs).length = (toString n).length ∧
      (∀ d ∈ b :: bs, Lexer.isDigit d) ∧ Munch.decimal (b :: bs) = n := by
  have htext : (toString n).toList = Nat.toDigits 10 n := by
    rw [Nat.toString_eq_repr, Nat.repr_eq_ofList_toDigits, String.toList_ofList]
  have hdigits : ∀ c ∈ Nat.toDigits 10 n, c.isDigit :=
    fun c => Nat.isDigit_of_mem_toDigits (by omega) (by omega)
  have hascii : ∀ c ∈ Nat.toDigits 10 n, c.toNat < 128 := by
    intro c hc
    exact Text.lt_of_isAlphanum (by simp [Char.isAlphanum, hdigits c hc])
  have hvalue := decimal_byteOf hdigits 0
  rw [Nat.ofDigitChars_ten_toDigits] at hvalue
  rw [← String.length_toList, Text.toList_toUTF8_ascii (htext ▸ hascii), htext]
  cases hcs : Nat.toDigits 10 n with
  | nil => exact absurd hcs Nat.toDigits_ne_nil
  | cons c cs =>
    rw [hcs] at hdigits hascii hvalue
    refine ⟨Text.byteOf c, cs.map Text.byteOf, rfl, by simp, ?_, hvalue⟩
    intro b hb
    obtain ⟨d, hd, rfl⟩ := List.mem_map.1 (show b ∈ (c :: cs).map Text.byteOf from hb)
    rw [(Text.class_byteOf (hascii d hd)).2.1]
    exact hdigits d hd

namespace Munch

open Lexer

variable {limit : Nat} {before rest : List UInt8}

theorem lex_blanks {blanks : List UInt8} (h : ∀ b ∈ blanks, isBlank b) :
    lex limit before (blanks ++ rest) = lex limit (before ++ blanks) rest := by
  induction blanks generalizing before with
  | nil => simp
  | cons b blanks ih =>
    rw [List.forall_mem_cons] at h
    rw [List.cons_append, lex, if_pos h.1, ih h.2, List.append_assoc, List.singleton_append]

/-- What is cut off comes first, and the rest is lexed behind it. -/
theorem lex_of_cut {b : UInt8} {bs : List UInt8} {tok : Token} (hb : isBlank b = false)
    (h : cut limit (lineAfter before) b (bs ++ rest) = (b :: bs, .ok tok)) :
    lex limit before (b :: bs ++ rest) =
      (tok :: (lex limit (before ++ b :: bs) rest).1, (lex limit (before ++ b :: bs) rest).2) := by
  rw [List.cons_append, lex_cut _ _ _ hb, h]
  dsimp only
  rw [← List.cons_append, List.drop_left]

theorem lex_word {w : String} {tok : Token} (hw : isIdentifier w) (hlimit : w.length < limit)
    (hrest : ∀ b ∈ rest.head?, isAlnum b = false)
    (htok : word (lineAfter before) w.toUTF8.toList = .ok tok) :
    lex limit before (w.toUTF8.toList ++ rest) =
      (tok :: (lex limit (before ++ w.toUTF8.toList) rest).1,
        (lex limit (before ++ w.toUTF8.toList) rest).2) := by
  obtain ⟨b, bs, hbytes, hlen, hletter, hrun⟩ := identifier_bytes hw
  have hdigit : isDigit b = false := by
    by_contra hdigit
    simp [(class_disjoint b).2 (by simpa using hdigit)] at hletter
  have hshort : ¬ limit ≤ (b :: bs).length := by omega
  rw [hbytes] at htok ⊢
  apply lex_of_cut (isBlank_of_isAlnum (by simp [isAlnum, hletter]))
  unfold cut
  simp only [hdigit, hletter, takeWhile_run hrun hrest, if_true, if_neg hshort, htok,
    Bool.false_eq_true, if_false]

theorem lex_number {n : Nat} (hn : n ≤ 99999999999) (hlimit : (toString n).length < limit)
    (hrest : ∀ b ∈ rest.head?, isDigit b = false) :
    lex limit before ((toString n).toUTF8.toList ++ rest) =
      ({ type := .integer, value := n, line := lineAfter before } ::
          (lex limit (before ++ (toString n).toUTF8.toList) rest).1,
        (lex limit (before ++ (toString n).toUTF8.toList) rest).2) := by
  obtain ⟨b, bs, hbytes, hlen, hdigits, hvalue⟩ := number_bytes n
  rw [List.forall_mem_cons] at hdigits
  have hshort : ¬ limit ≤ (b :: bs).length := by omega
  have hmax : ¬ Problem.maxDigits < (b :: bs).length := by
    have : (toString n).length ≤ 11 := by
      rw [← String.length_toList, Nat.toString_eq_repr, Nat.repr_eq_ofList_toDigits,
        String.toList_ofList, Nat.length_toDigits_le_iff (by omega) (by omega)]
      omega
    unfold Problem.maxDigits
    omega
  rw [hbytes]
  apply lex_of_cut (isBlank_of_isAlnum (by simp [isAlnum, hdigits.1]))
  unfold cut number
  simp only [hdigits.1, takeWhile_run hdigits.2 hrest, if_true, if_neg hshort, if_neg hmax, hvalue]

theorem lex_mark {b : UInt8} {type : TokenType} (hmark : TokenType.mark? b = some type)
    (hblank : isBlank b = false) (halnum : isAlnum b = false) :
    lex limit before (b :: rest) =
      ({ type, line := lineAfter before } :: (lex limit (before ++ [b]) rest).1,
        (lex limit (before ++ [b]) rest).2) := by
  rw [isAlnum, Bool.or_eq_false_iff] at halnum
  have hcut : cut limit (lineAfter before) b ([] ++ rest) =
      ([b], .ok { type, line := lineAfter before }) := by
    unfold cut
    simp only [halnum.1, halnum.2, hmark, Bool.false_eq_true, if_false]
  exact lex_of_cut hblank hcut

end Munch

theorem ascii_toUTF8 {w : String} (h : isIdentifier w) : Lexer.ascii w.toUTF8.toList = w := by
  have hascii := ascii_of_isIdentifier h
  rw [Text.toList_toUTF8_ascii hascii, Text.ascii_byteOf hascii, String.ofList_toList]

namespace Token

variable {t u : Token}

theorem keywords_spelled : ∀ type ∈ TokenType.keywords,
    isIdentifier ({ type } : Token).text ∧
      TokenType.keyword? ({ type } : Token).text = some type := by
  decide +kernel

theorem marks_spelled : ∀ type ∈ TokenType.marks, ∃ n : Fin 256,
    ({ type } : Token).bytes = [UInt8.ofNat n] ∧ TokenType.mark? (UInt8.ofNat n) = some type ∧
      Lexer.isBlank (UInt8.ofNat n) = false ∧ Lexer.isAlnum (UInt8.ofNat n) = false := by
  decide +kernel

theorem writable_fixed (h : t.writable) (hname : t.type ≠ .identifier)
    (hvalue : t.type ≠ .integer) :
    ∃ type line, t = { type, line } ∧ (type ∈ TokenType.keywords ∨ type ∈ TokenType.marks) := by
  obtain ⟨type, name, value, line⟩ := t
  unfold writable at h
  split at h
  · contradiction
  · contradiction
  · simp only [Bool.and_eq_true, decide_eq_true_eq, List.mem_append] at h
    obtain ⟨⟨htype, rfl⟩, rfl⟩ := h
    exact ⟨type, line, rfl, htype⟩

theorem text_line (type : TokenType) (line : Int) :
    ({ type, line } : Token).text = ({ type } : Token).text := by
  cases type <;> rfl

/-- A word is an identifier or a keyword, and is lexed as what it is. -/
theorem writable_word (h : t.writable) (hword : t.isWord) (line : Nat) :
    isIdentifier t.text ∧ Munch.word line t.bytes = .ok { t with line } := by
  by_cases hname : t.type = .identifier
  · obtain ⟨type, name, value, l⟩ := t
    obtain rfl : type = .identifier := hname
    simp only [writable, Bool.and_eq_true, Option.isNone_iff_eq_none, decide_eq_true_eq] at h
    obtain ⟨⟨hident, hkey⟩, rfl⟩ := h
    refine ⟨hident, ?_⟩
    simp only [bytes, text, Munch.word, ascii_toUTF8 hident, hkey]
  · have hkeyword : t.type ∈ TokenType.keywords := by simpa [isWord, hname] using hword
    have hvalue : t.type ≠ .integer := by
      intro hvalue
      simp [hvalue, TokenType.keywords] at hkeyword
    obtain ⟨type, l, rfl, -⟩ := writable_fixed h hname hvalue
    obtain ⟨hident, hkey⟩ := keywords_spelled type hkeyword
    rw [text_line]
    refine ⟨hident, ?_⟩
    rw [bytes, text_line, Munch.word, ascii_toUTF8 hident, hkey]

theorem writable_number (h : t.writable) (hnumber : t.isNumber) :
    ∃ n : Nat, n ≤ 99999999999 ∧ t.text = toString n ∧
      ∀ line : Nat, { t with line } = ({ type := .integer, value := n, line } : Token) := by
  obtain ⟨type, name, value, l⟩ := t
  obtain rfl : type = .integer := by simpa [isNumber] using hnumber
  simp only [writable, Bool.and_eq_true, decide_eq_true_eq] at h
  obtain ⟨⟨hpos, hmax⟩, rfl⟩ := h
  obtain ⟨n, rfl⟩ := Int.eq_ofNat_of_zero_le hpos
  exact ⟨n, by omega, rfl, fun _ => rfl⟩

theorem writable_mark (h : t.writable) (hword : t.isWord = false) (hnumber : t.isNumber = false) :
    ∃ b, t.bytes = [b] ∧ TokenType.mark? b = some t.type ∧ Lexer.isBlank b = false ∧
      Lexer.isAlnum b = false ∧
      ∀ line : Nat, { t with line } = ({ type := t.type, line } : Token) := by
  have hvalue : t.type ≠ .integer := by simpa [isNumber] using hnumber
  simp only [isWord, Bool.or_eq_false_iff, decide_eq_false_iff_not] at hword
  obtain ⟨type, l, rfl, hkeyword | hmark⟩ := writable_fixed h hword.1 hvalue
  · exact absurd hkeyword hword.2
  · obtain ⟨n, hbytes, hread, hblank, halnum⟩ := marks_spelled type hmark
    refine ⟨UInt8.ofNat n, ?_, hread, hblank, halnum, fun _ => rfl⟩
    rwa [bytes, text_line]

/-- A spelling is not empty, and shows by its first byte what it is. -/
theorem head_bytes (h : t.writable) :
    ∃ b bs, t.bytes = b :: bs ∧ (Lexer.isAlnum b → t.isWord ∨ t.isNumber) ∧
      (Lexer.isDigit b → t.isNumber) := by
  by_cases hword : t.isWord
  · obtain ⟨b, bs, hbytes, -, hletter, -⟩ := identifier_bytes (writable_word h hword 0).1
    refine ⟨b, bs, hbytes, fun _ => .inl hword, ?_⟩
    intro hdigit
    simp [(Lexer.class_disjoint b).2 hdigit] at hletter
  · by_cases hnumber : t.isNumber
    · obtain ⟨n, -, htext, -⟩ := writable_number h hnumber
      obtain ⟨b, bs, hbytes, -⟩ := number_bytes n
      rw [← htext] at hbytes
      exact ⟨b, bs, hbytes, fun _ => .inr hnumber, fun _ => hnumber⟩
    · obtain ⟨b, hbytes, -, -, halnum, -⟩ := writable_mark h (by simpa using hword)
        (by simpa using hnumber)
      refine ⟨b, [], hbytes, ?_, ?_⟩
      · intro h
        simp [halnum] at h
      · intro h
        simp [Lexer.isAlnum, h] at halnum

theorem blank_bytes (h : t.writable) : ∀ b ∈ t.bytes, Lexer.isBlank b = false := by
  by_cases hword : t.isWord
  · obtain ⟨b, bs, hbytes, -, hletter, hrun⟩ := identifier_bytes (writable_word h hword 0).1
    rw [bytes, hbytes, List.forall_mem_cons]
    constructor
    · exact Lexer.isBlank_of_isAlnum (by simp [Lexer.isAlnum, hletter])
    · intro c hc
      exact Lexer.isBlank_of_isAlnum (hrun c hc)
  · by_cases hnumber : t.isNumber
    · obtain ⟨n, -, htext, -⟩ := writable_number h hnumber
      obtain ⟨b, bs, hbytes, -, hdigits, -⟩ := number_bytes n
      rw [bytes, htext, hbytes]
      intro c hc
      exact Lexer.isBlank_of_isAlnum (by simp [Lexer.isAlnum, hdigits c hc])
    · obtain ⟨b, hbytes, -, hblank, -⟩ := writable_mark h (by simpa using hword)
        (by simpa using hnumber)
      simpa [hbytes] using hblank

/-- A token that is spelled in front of what does not go on with it is lexed. -/
theorem lex_bytes {limit : Nat} {before rest : List UInt8} (h : t.writable)
    (hlimit : t.isWord ∨ t.isNumber → t.text.length < limit) (hstops : t.Stops rest) :
    Munch.lex limit before (t.bytes ++ rest) =
      ({ t with line := Munch.lineAfter before } ::
          (Munch.lex limit (before ++ t.bytes) rest).1,
        (Munch.lex limit (before ++ t.bytes) rest).2) := by
  by_cases hword : t.isWord
  · obtain ⟨hident, htok⟩ := writable_word h hword (Munch.lineAfter before)
    exact Munch.lex_word hident (hlimit (.inl hword)) (fun b hb => (hstops b hb).1 hword) htok
  · by_cases hnumber : t.isNumber
    · obtain ⟨n, hn, htext, htok⟩ := writable_number h hnumber
      have hlimit := hlimit (.inr hnumber)
      rw [bytes, htok]
      rw [htext] at hlimit ⊢
      exact Munch.lex_number hn hlimit fun b hb => (hstops b hb).2 hnumber
    · obtain ⟨b, hbytes, hmark, hblank, halnum, htok⟩ := writable_mark h (by simpa using hword)
        (by simpa using hnumber)
      rw [hbytes, htok]
      exact Munch.lex_mark hmark hblank halnum

theorem stops_blanks {blanks rest : List UInt8} (hblank : ∀ b ∈ blanks, Lexer.isBlank b)
    (h : blanks = [] → t.Stops rest) : t.Stops (blanks ++ rest) := by
  cases blanks with
  | nil => exact h rfl
  | cons b blanks =>
    intro c hc
    obtain rfl : b = c := by simpa using hc
    have hclass := (Lexer.class_disjoint b).1 (hblank b List.mem_cons_self)
    exact ⟨fun _ => hclass.1, fun _ => hclass.2⟩

theorem stops_bytes {rest : List UInt8} (h : u.writable) (hruns : t.runsInto u = false) :
    t.Stops (u.bytes ++ rest) := by
  obtain ⟨b, bs, hbytes, halnum, hdigit⟩ := head_bytes h
  intro c hc
  obtain rfl : b = c := by simpa [hbytes] using hc
  simp only [runsInto, Bool.or_eq_false_iff, Bool.and_eq_false_iff] at hruns
  constructor
  · intro hword
    by_contra hb
    have := halnum (by simpa using hb)
    simp_all
  · intro hnumber
    by_contra hb
    have := hdigit (by simpa using hb)
    simp_all

end Token

/-- Where a token runs into the next one, blanks stand between them. -/
def Apart (p q : Piece) : Prop := p.2.runsInto q.2 → q.1 ≠ []

instance (p q : Piece) : Decidable (Apart p q) := inferInstanceAs (Decidable (_ → _))

theorem lex_sourceBytes {limit : Nat} {before last : List UInt8} {pieces : List Piece}
    (hpieces : ∀ p ∈ pieces, p.2.writable ∧ (∀ b ∈ p.1, Lexer.isBlank b) ∧
      (p.2.isWord ∨ p.2.isNumber → p.2.text.length < limit))
    (hapart : pieces.IsChain Apart) (hlast : ∀ b ∈ last, Lexer.isBlank b) :
    Munch.lex limit before (sourceBytes pieces last) = (placed before pieces, none) := by
  induction pieces generalizing before with
  | nil =>
    change Munch.lex limit before last = ([], none)
    rw [← List.append_nil last, Munch.lex_blanks hlast, Munch.lex]
  | cons p pieces ih =>
    obtain ⟨blanks, t⟩ := p
    rw [List.forall_mem_cons] at hpieces
    obtain ⟨⟨hwritable, hblanks, hlimit⟩, hpieces⟩ := hpieces
    -- the token ends where its text does: before a blank, or before one it does not run into
    have hstops : t.Stops (sourceBytes pieces last) := by
      cases pieces with
      | nil =>
        change t.Stops last
        rw [← List.append_nil last]
        apply Token.stops_blanks hlast
        intro _ b hb
        simp at hb
      | cons q pieces =>
        rw [List.forall_mem_cons] at hpieces
        rw [List.isChain_cons_cons] at hapart
        rw [sourceBytes, List.flatMap_cons, List.append_assoc, List.append_assoc]
        apply Token.stops_blanks hpieces.1.2.1
        intro hnil
        apply Token.stops_bytes hpieces.1.1
        by_contra hruns
        exact hapart.1 (by simpa using hruns) hnil
    have hsplit : sourceBytes ((blanks, t) :: pieces) last =
        blanks ++ (t.bytes ++ sourceBytes pieces last) := by
      simp [sourceBytes]
    rw [hsplit, Munch.lex_blanks hblanks, Token.lex_bytes hwritable hlimit hstops,
      ih hpieces hapart.of_cons]
    rfl

theorem Feed.read_plain {f : Feed} {room : Nat} (hplain : f.script = []) (hroom : 0 < room) :
    ∃ bytes ending g, f.read room = (⟨bytes.length, bytes, ending⟩, g) ∧ g.script = [] ∧
      (ending = .endOfInput ∧ bytes = f.bytes ∨ ending = .more ∧ bytes ≠ []) := by
  have hstride : 0 < f.pace.stride room := by
    unfold Pace.stride
    split <;> omega
  unfold read
  rw [hplain]
  dsimp only
  by_cases hb : f.bytes = []
  · rw [if_pos hb]
    exact ⟨[], .endOfInput, f, rfl, hplain, .inl ⟨rfl, hb.symm⟩⟩
  · rw [if_neg hb]
    refine ⟨_, _, _, rfl, rfl, ?_⟩
    by_cases hend : f.pace = .fullWithEnd ∧ f.bytes.drop (f.pace.stride room) = []
    · rw [if_pos hend]
      exact .inl ⟨rfl, List.take_of_length_le (List.drop_eq_nil_iff.1 hend.2)⟩
    · rw [if_neg hend]
      refine .inr ⟨rfl, ?_⟩
      rw [ne_eq, List.take_eq_nil_iff, not_or]
      exact ⟨by omega, hb⟩

namespace Lexer

def Onward {α : Type} (later : List Delivery) : Outcome α → Prop
  | .error _ _ => later = []
  | .ok _ t => t.feed.script = [] → t.ended = false → Deliver 0 t.feed.bytes later

variable {s : Lexer} {later : List Delivery}

theorem deliver_refill (hplain : s.feed.script = []) (hended : s.ended = false)
    (h : Onward later (refill s)) :
    Deliver 0 s.feed.bytes (s.readsRefill ++ later) := by
  by_cases hfull : s.capacity ≤ s.pending.length
  · rw [refill_full hfull] at h
    rw [readsRefill, if_pos hfull, show later = [] from h]
    trivial
  · have hroom : 0 < s.slide.room := Nat.sub_pos_of_lt (Nat.not_le.1 hfull)
    obtain ⟨bytes, ending, g, hread, hscript, hend⟩ := Feed.read_plain hplain hroom
    have hbytes := s.feed.read_bytes s.slide.room
    have hlen := s.feed.length_read_bytes s.slide.room
    rw [hread] at hbytes hlen
    change s.slide.feed.read s.slide.room = _ at hread
    -- a plain feed gives no more bytes than it is asked for, so the count is not an error
    have hin : ¬((bytes.length : Int) < 0 ∨
        (({ s.slide with feed := g } : Lexer).room : Int) < bytes.length) := by
      change ¬(_ ∨ ((s.slide.room : Nat) : Int) < _)
      dsimp only at hlen
      omega
    rw [readsRefill, if_neg hfull, maxEmptyReads, readsMore, hread]
    dsimp only
    rcases hend with ⟨rfl, rfl⟩ | ⟨rfl, hne⟩
    · simp [Deliver]
    · have hpos := List.length_pos_iff.2 hne
      rw [refill, if_neg (show ¬s.slide.capacity ≤ s.slide.pending.length from hfull),
        maxEmptyReads, readMore, hread] at h
      dsimp only at h
      rw [if_neg hin, if_pos (by omega)] at h
      rw [if_neg (by omega)]
      refine ⟨rfl, ?_⟩
      dsimp only
      rw [if_neg hne, ← hbytes, List.drop_left]
      exact h hscript hended

theorem deliver_run {p : UInt8 → Bool} (hplain : s.feed.script = []) (hended : s.ended = false)
    (h : Onward later (run p s)) : Deliver 0 s.feed.bytes (readsRun p s ++ later) := by
  fun_induction run p s with
  | case1 s n hn e t ht =>
    rw [readsRun_eq, if_pos hn, List.append_assoc]
    apply deliver_refill hplain hended
    rw [ht]
    exact h
  | case2 s n hn t ht ih =>
    rw [readsRun_eq, if_pos hn, ht, List.append_assoc]
    apply deliver_refill hplain hended
    rw [ht]
    intro hplain hended
    exact ih hplain hended h
  | case3 s n hn hcap =>
    rw [readsRun_eq, if_neg hn, show later = [] from h]
    trivial
  | case4 s n hn hcap =>
    rw [readsRun_eq, if_neg hn]
    exact h hplain hended

theorem deliver_token {b : UInt8} (hplain : s.feed.script = []) (hended : s.ended = false)
    (h : Onward later (token b s)) : Deliver 0 s.feed.bytes (readsToken b s ++ later) := by
  unfold token at h
  unfold readsToken
  split at h
  · next hdigit =>
    rw [if_pos hdigit]
    apply deliver_run hplain hended
    unfold number at h
    split at h
    · next hrun => rwa [hrun]
    · next hrun =>
      rw [hrun]
      split at h
      · rw [show later = [] from h]
        intro _ _
        trivial
      · exact h
  · next hdigit =>
    rw [if_neg hdigit]
    split at h
    · next hletter =>
      rw [if_pos hletter]
      apply deliver_run hplain hended
      unfold word at h
      split at h
      · next hrun => rwa [hrun]
      · next hrun =>
        rw [hrun]
        split at h
        · exact h
        · exact h
    · next hletter =>
      rw [if_neg hletter]
      split at h
      · exact h hplain hended
      · rw [show later = [] from h]
        trivial

theorem deliver_next (hplain : s.feed.script = []) (hended : s.ended = false)
    (h : Onward later (next s)) : Deliver 0 s.feed.bytes (readsNext s ++ later) := by
  fun_induction next s with
  | case1 s b rest hp =>
    rw [readsNext_eq, hp]
    exact deliver_token (s := s.skipBlanks) hplain hended h
  | case2 s hp hend =>
    exact absurd (hended.symm.trans hend) (by decide)
  | case3 s hp hend e t ht =>
    rw [readsNext_eq, hp]
    simp only [if_neg hend, ht, List.append_assoc]
    apply deliver_refill (s := s.skipBlanks) hplain hended
    rw [ht]
    exact h
  | case4 s hp hend u hu ih =>
    rw [readsNext_eq, hp]
    simp only [if_neg hend, hu, List.append_assoc]
    apply deliver_refill (s := s.skipBlanks) hplain hended
    rw [hu]
    intro hplain hended
    exact ih hplain hended h

/-- A feed without a script delivers its bytes, at whichever pace. -/
theorem deliver_tokens (hplain : s.feed.script = []) (hended : s.ended = false) :
    Deliver 0 s.feed.bytes (readsTokens s) := by
  fun_induction tokens s with
  | case1 s e t ht =>
    rw [readsTokens_eq]
    apply deliver_next hplain hended
    rw [ht]
    rfl
  | case2 s tok t ht heof =>
    rw [readsTokens_eq]
    apply deliver_next hplain hended
    simp only [ht, if_pos heof]
    intro _ _
    trivial
  | case3 s tok t ht hne rest ih =>
    rw [readsTokens_eq]
    apply deliver_next hplain hended
    simp only [ht, if_neg hne]
    exact ih

end Lexer

theorem tokenize_of_lex {feed : Feed} {size : Option Int} {toks : List Token}
    (h : feed.script = [] ∨ Lexer.Deliver 0 feed.bytes (deliveries feed size))
    (hlex : Munch.lex (Lexer.capacityOf size) [] feed.bytes = (toks, none)) :
    (tokenize feed size).tokens = toks ∧ (tokenize feed size).error = none := by
  have hdeliver : Lexer.Deliver 0 feed.bytes (deliveries feed size) := by
    rcases h with hplain | hdeliver
    · exact Lexer.deliver_tokens (s := Lexer.start feed size) hplain rfl
    · exact hdeliver
  have hsound : (Lexer.start feed size).Sound := by
    refine ⟨?_, Nat.zero_le _, ?_⟩
    · change 0 < Lexer.capacityOf size
      unfold Lexer.capacityOf Lexer.minCapacity Lexer.defaultCapacity
      split <;> omega
    · intro hended
      simp [Lexer.start] at hended
  have hline : (Lexer.start feed size).line = Munch.lineAfter [] := rfl
  have hstart : Munch.lex (Lexer.start feed size).capacity [] (Lexer.start feed size).left =
      (toks, none) := hlex
  obtain ⟨htoks, hend⟩ := Lexer.tokens_eq_lex hsound hline fun _ => hdeliver
  rw [hstart] at htoks hend
  obtain ⟨t, ht⟩ := hend
  unfold tokenize
  rw [← Prod.mk.eta (p := (Lexer.start feed size).tokens), htoks, ht]
  exact ⟨rfl, rfl⟩

def spacedOut (toks : List Token) : List Piece := toks.map fun t => ([32], t)

theorem placed_spacedOut {toks : List Token} (h : ∀ t ∈ toks, t.writable) (before : List UInt8) :
    placed before (spacedOut toks) =
      toks.map fun t => { t with line := Munch.lineAfter before } := by
  induction toks generalizing before with
  | nil => rfl
  | cons t toks ih =>
    rw [List.forall_mem_cons] at h
    have hspace : Munch.lineAfter (before ++ [32]) = Munch.lineAfter before := by
      simp [Munch.lineAfter]
    have hline : Munch.lineAfter (before ++ [32] ++ t.bytes) = Munch.lineAfter before := by
      have hnewline : (10 : UInt8) ∉ t.bytes := by
        intro hmem
        have := Token.blank_bytes h.1 10 hmem
        simp [Lexer.isBlank] at this
      simp [Munch.lineAfter, List.count_eq_zero_of_not_mem hnewline]
    rw [spacedOut, List.map_cons, placed, hspace, ← spacedOut, ih h.2, hline, List.map_cons]

theorem tokenize_spacedOut {toks : List Token} {size : Option Int} (h : ∀ t ∈ toks, t.writable)
    (hroom : ∀ t ∈ toks, t.isWord ∨ t.isNumber → t.text.length < Lexer.capacityOf size) :
    (tokenize ⟨sourceBytes (spacedOut toks) [], [], .full⟩ size).tokens =
        toks.map (fun t => { t with line := 1 }) ∧
      (tokenize ⟨sourceBytes (spacedOut toks) [], [], .full⟩ size).error = none := by
  have hlex : Munch.lex (Lexer.capacityOf size) [] (sourceBytes (spacedOut toks) []) =
      (placed [] (spacedOut toks), none) := by
    apply lex_sourceBytes
    · intro p hp
      obtain ⟨t, ht, rfl⟩ := List.mem_map.1 hp
      exact ⟨h t ht, by simp [Lexer.isBlank], hroom t ht⟩
    · rw [spacedOut, List.isChain_map]
      apply List.Pairwise.isChain
      exact List.pairwise_of_forall fun t u _ => by simp
    · simp
  rw [placed_spacedOut h] at hlex
  exact tokenize_of_lex (.inl rfl) hlex

/-- Tokens that are spelled with blanks around them are lexed back, in order and each with its line:
through every buffer that is larger than the longest word or number, at every pace, and however else
the reads deliver the text. -/
theorem tokenize_sourceBytes (feed : Feed) (size : Option Int) (pieces : List Piece)
    (last : List UInt8) (hbytes : feed.bytes = sourceBytes pieces last)
    (hreads : feed.script = [] ∨ Lexer.Deliver 0 feed.bytes (deliveries feed size))
    (hwritable : ∀ p ∈ pieces, p.2.writable)
    (hblanks : ∀ p ∈ pieces, ∀ b ∈ p.1, Lexer.isBlank b) (hlast : ∀ b ∈ last, Lexer.isBlank b)
    (hapart : pieces.IsChain Apart)
    (hroom : ∀ p ∈ pieces, p.2.isWord ∨ p.2.isNumber →
      p.2.text.length < Lexer.capacityOf size) :
    (tokenize feed size).tokens = placed [] pieces ∧ (tokenize feed size).error = none := by
  apply tokenize_of_lex hreads
  rw [hbytes]
  apply lex_sourceBytes _ hapart hlast
  intro p hp
  exact ⟨hwritable p hp, hblanks p hp, hroom p hp⟩

/-- Blanks longer than a buffer of eight bytes, a word that starts like a keyword, and a number with
a keyword directly behind it. -/
def spaced : List Piece :=
  [(List.replicate 9 32 ++ [10], { type := .identifier, name := "struct2" }),
    ([9], { type := .integer, value := 12 }), ([], { type := .var }),
    ([10, 10], { type := .integer, value := 99 }), ([], { type := .semicolon })]

theorem tokenize_sourceBytes_spaced :
    (∀ p ∈ spaced, p.2.writable) ∧ spaced.IsChain Apart ∧
      (tokenize ⟨sourceBytes spaced [32], [], .half⟩ (some 8)).tokens =
        [⟨.identifier, "struct2", 0, 2⟩, ⟨.integer, "", 12, 2⟩, ⟨.var, "", 0, 2⟩,
          ⟨.integer, "", 99, 4⟩, ⟨.semicolon, "", 0, 4⟩] ∧
      (tokenize ⟨sourceBytes spaced [32], [], .half⟩ (some 8)).error = none := by
  have hwritable : ∀ p ∈ spaced, p.2.writable := by decide +kernel
  have hblanks : ∀ p ∈ spaced, ∀ b ∈ p.1, Lexer.isBlank b := by decide +kernel
  have hapart : spaced.IsChain Apart := by decide +kernel
  have hroom : ∀ p ∈ spaced, p.2.isWord ∨ p.2.isNumber → p.2.text.length < 8 := by decide +kernel
  have hplaced : placed [] spaced = [⟨.identifier, "struct2", 0, 2⟩, ⟨.integer, "", 12, 2⟩,
      ⟨.var, "", 0, 2⟩, ⟨.integer, "", 99, 4⟩, ⟨.semicolon, "", 0, 4⟩] := by
    decide +kernel
  rw [← hplaced]
  exact ⟨hwritable, hapart, tokenize_sourceBytes _ (some 8) spaced [32] rfl (.inl rfl) hwritable
    hblanks (by decide +kernel) hapart hroom⟩

end OnePass
