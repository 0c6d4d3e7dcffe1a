import Mathlib
import OnePass.Proofs.Layouts
import OnePass.Text.Numeral
import OnePass.Text.Utf8

namespace OnePass.Text

theorem toList_loop (b : ByteArray) (i : Nat) (r : List UInt8) :
    ByteArray.toList.loop b i r = r.reverse ++ b.data.toList.drop i := by
  fun_induction ByteArray.toList.loop b i r with
  | case1 i r h ih =>
    have hi : i < b.data.toList.length := h
    have hget : b.get! i = b.data.toList[i] := by
      rw [Array.getElem_toList]
      exact getElem!_pos b.data i h
    rw [ih, List.drop_eq_getElem_cons hi, hget]
    simp
  | case2 i r h =>
    rw [List.drop_eq_nil_of_le (Nat.le_of_not_lt h), List.append_nil]

theorem toList_toUTF8 (s : String) : s.toUTF8.toList = s.toList.flatMap String.utf8EncodeChar := by
  have hdata : s.toUTF8 = s.toList.utf8Encode := String.utf8Encode_toList.symm
  rw [hdata, ByteArray.toList, toList_loop, List.utf8Encode, List.toList_data_toByteArray]
  rfl

theorem toNat_byte {n : Nat} (h : n < 256) : (UInt8.ofNat n).toNat = n :=
  UInt8.toNat_ofNat_of_lt' h

theorem continuation_byte (n : Nat) :
    continuation (UInt8.ofNat (n % 64 + 128)) = some (n % 64) := by
  have hn : (UInt8.ofNat (n % 64 + 128)).toNat = n % 64 + 128 := toNat_byte (by omega)
  have hrange : 0x80 ≤ UInt8.ofNat (n % 64 + 128) ∧ UInt8.ofNat (n % 64 + 128) < 0xc0 := by
    rw [UInt8.le_iff_toNat_le, UInt8.lt_iff_toNat_lt, hn]
    constructor
    · exact Nat.le_add_left _ _
    · change n % 64 + 128 < 192
      omega
  rw [continuation, if_pos hrange, hn, Nat.add_sub_cancel]

theorem bind_three {α β : Type} (x y z : α) (f : α → α → α → Option β) :
    (some x >>= fun x => some y >>= fun y => some z >>= fun z => f x y z) = f x y z := rfl

section

variable {v : Nat} (rest : List UInt8)

theorem decodeFirst_one (h : v ≤ 127) :
    decodeFirst (UInt8.ofNat v) rest = some (Char.ofNat v, 0) := by
  have hb : (UInt8.ofNat v).toNat = v := toNat_byte (by omega)
  have hlead : UInt8.ofNat v < 0x80 := by
    rw [UInt8.lt_iff_toNat_lt, hb]
    exact Nat.lt_succ_of_le h
  unfold decodeFirst
  rw [if_pos hlead, hb]

theorem decodeFirst_two (h : 127 < v) (h' : v ≤ 2047) :
    decodeFirst (UInt8.ofNat (v / 64 % 32 + 192)) (UInt8.ofNat (v % 64 + 128) :: rest) =
      some (Char.ofNat v, 1) := by
  have hb : (UInt8.ofNat (v / 64 % 32 + 192)).toNat = v / 64 % 32 + 192 := toNat_byte (by omega)
  have hv : (v / 64 % 32 + 192 - 0xc0) * 0x40 + v % 64 = v := by omega
  simp only [decodeFirst, UInt8.lt_iff_toNat_lt, UInt8.le_iff_toNat_le, hb, UInt8.reduceToNat,
    continuation_byte]
  rw [if_neg (by omega), if_pos (by omega)]
  simp only [Option.bind_eq_bind, Option.bind_some, hv]
  rfl

theorem decodeFirst_three (h : 2047 < v) (h' : v ≤ 65535) (hvalid : v < 0xd800 ∨ 0xdfff < v) :
    decodeFirst (UInt8.ofNat (v / 4096 % 16 + 224))
        (UInt8.ofNat (v / 64 % 64 + 128) :: UInt8.ofNat (v % 64 + 128) :: rest) =
      some (Char.ofNat v, 2) := by
  have hb : (UInt8.ofNat (v / 4096 % 16 + 224)).toNat = v / 4096 % 16 + 224 :=
    toNat_byte (by omega)
  have hv : (v / 4096 % 16 + 224 - 0xe0) * 0x1000 + v / 64 % 64 * 0x40 + v % 64 = v := by omega
  simp only [decodeFirst, UInt8.lt_iff_toNat_lt, UInt8.le_iff_toNat_le, hb, UInt8.reduceToNat,
    continuation_byte]
  rw [if_neg (by omega), if_neg (by omega), if_pos (by omega)]
  simp only [Option.bind_eq_bind, Option.bind_some, hv]
  rw [if_neg (by omega)]
  rfl

theorem decodeFirst_four (h : 65535 < v) (h' : v < 0x110000) :
    decodeFirst (UInt8.ofNat (v / 262144 % 8 + 240)) (UInt8.ofNat (v / 4096 % 64 + 128) ::
        UInt8.ofNat (v / 64 % 64 + 128) :: UInt8.ofNat (v % 64 + 128) :: rest) =
      some (Char.ofNat v, 3) := by
  have hb : (UInt8.ofNat (v / 262144 % 8 + 240)).toNat = v / 262144 % 8 + 240 :=
    toNat_byte (by omega)
  have hv : (v / 262144 % 8 + 240 - 0xf0) * 0x40000 + v / 4096 % 64 * 0x1000 +
      v / 64 % 64 * 0x40 + v % 64 = v := by omega
  simp only [decodeFirst, UInt8.lt_iff_toNat_lt, UInt8.le_iff_toNat_le, hb, UInt8.reduceToNat,
    continuation_byte]
  -- the bounds on the code point are not to be computed, so the binds go first
  rw [if_neg (by omega), if_neg (by omega), if_neg (by omega), if_pos (by omega), bind_three, hv,
    if_neg (by omega)]
  rfl

end

/-- A character is read back from its encoding, whatever follows. -/
theorem decodeFirst_utf8EncodeChar (c : Char) (rest : List UInt8) :
    ∃ b bs, String.utf8EncodeChar c = b :: bs ∧
      decodeFirst b (bs ++ rest) = some (c, bs.length) := by
  have hchar : Char.ofNat c.val.toNat = c := Char.ofNat_toNat c
  have hvalid : c.val.toNat < 0xd800 ∨ 0xdfff < c.val.toNat ∧ c.val.toNat < 0x110000 := c.valid
  rw [String.utf8EncodeChar]
  generalize c.val.toNat = v at hchar hvalid ⊢
  subst hchar
  split_ifs with h₁ h₂ h₃
  · exact ⟨_, _, rfl, decodeFirst_one rest h₁⟩
  · exact ⟨_, _, rfl, decodeFirst_two rest (by omega) h₂⟩
  · exact ⟨_, _, rfl, decodeFirst_three rest (by omega) h₃ (by omega)⟩
  · exact ⟨_, _, rfl, decodeFirst_four rest (by omega) (by omega)⟩

/-- Decoding undoes encoding. -/
theorem decodeBytes_toUTF8 (s : String) : decodeBytes s.toUTF8.toList = s.toList := by
  rw [toList_toUTF8]
  induction s.toList with
  | nil => simp [decodeBytes]
  | cons c cs ih =>
    obtain ⟨b, bs, hencode, hdecode⟩ :=
      decodeFirst_utf8EncodeChar c (cs.flatMap String.utf8EncodeChar)
    rw [List.flatMap_cons, hencode, List.cons_append, decodeBytes, hdecode]
    dsimp only
    rw [List.drop_left, ih]

theorem digitValue_of_isDigit {c : Char} (h : c.isDigit) :
    digitValue c = some (c.toNat - '0'.toNat) ∧ c.toNat - '0'.toNat < 10 := by
  simp only [Char.isDigit, Bool.and_eq_true, decide_eq_true_eq] at h
  refine ⟨if_pos ⟨h.1, h.2⟩, ?_⟩
  have hle : c.toNat ≤ 57 := h.2
  have hzero : '0'.toNat = 48 := rfl
  omega

theorem le_ofDigitChars (cs : List Char) (n : Nat) : n ≤ Nat.ofDigitChars 10 cs n := by
  induction cs generalizing n with
  | nil => exact Nat.le_refl n
  | cons c cs ih =>
    rw [Nat.ofDigitChars_cons]
    exact Nat.le_trans (by omega) (ih _)

/-- Decimal digits are read as the number they stand for. -/
theorem readDigits_ten {cs : List Char} {n : Nat} (hcs : ∀ c ∈ cs, c.isDigit)
    (h : Nat.ofDigitChars 10 cs n < 2 ^ 64) :
    readDigits 10 n cs = .ok (Nat.ofDigitChars 10 cs n) := by
  induction cs generalizing n with
  | nil => rfl
  | cons c cs ih =>
    obtain ⟨hvalue, hlt⟩ := digitValue_of_isDigit (hcs c (by simp))
    rw [Nat.ofDigitChars_cons, Nat.mul_comm 10 n] at h ⊢
    have hfits := Nat.lt_of_le_of_lt (le_ofDigitChars cs _) h
    rw [readDigits, hvalue]
    dsimp only
    rw [if_neg (by omega), if_neg (by omega), ih (fun d hd => hcs d (by simp [hd])) h]

/-- A numeral of more than zero does not start with a zero. -/
theorem toDigits_eq_cons {n : Nat} (h : 0 < n) :
    ∃ c cs, Nat.toDigits 10 n = c :: cs ∧ c ≠ '0' := by
  induction n using Nat.strong_induction_on with
  | _ n ih =>
    by_cases hn : n < 10
    · have hdigit : n.digitChar ≠ '0' := by interval_cases n <;> decide
      exact ⟨_, [], Nat.toDigits_of_lt_base hn, hdigit⟩
    · obtain ⟨c, cs, hcs, hc⟩ := ih (n / 10) (by omega) (by omega)
      exact ⟨c, cs ++ [(n % 10).digitChar], by
        rw [Nat.toDigits_of_base_le (by omega) (by omega), hcs, List.cons_append], hc⟩

theorem readDigits_toDigits {n : Nat} (h : n < 2 ^ 64) :
    readDigits 10 0 (Nat.toDigits 10 n) = .ok n := by
  have hvalue : Nat.ofDigitChars 10 (Nat.toDigits 10 n) 0 = n := Nat.ofDigitChars_ten_toDigits
  rw [readDigits_ten, hvalue]
  · exact fun c => Nat.isDigit_of_mem_toDigits (by omega) (by omega)
  · rwa [hvalue]

theorem toList_toString (n : Int) :
    (toString n).toList = (if n < 0 then ['-'] else []) ++ Nat.toDigits 10 n.natAbs := by
  cases n with
  | ofNat m =>
    have hpos : ¬Int.ofNat m < 0 := Int.not_lt.2 (Int.natCast_nonneg m)
    rw [if_neg hpos]
    change (Nat.repr m).toList = _
    rw [Nat.repr_eq_ofList_toDigits, String.toList_ofList]
    rfl
  | negSucc m =>
    rw [if_pos (Int.negSucc_lt_zero m)]
    change ("-" ++ Nat.repr (m + 1)).toList = _
    rw [String.toList_append, Nat.repr_eq_ofList_toDigits]
    simp only [String.toList_ofList]
    rfl

theorem splitSign_toString (n : Int) :
    splitSign (toString n).toList = (decide (n < 0), Nat.toDigits 10 n.natAbs) := by
  rw [toList_toString]
  split
  · next h => simp [splitSign, h]
  · next h =>
    have hdigits : ∀ c ∈ Nat.toDigits 10 n.natAbs, c.isDigit :=
      fun c => Nat.isDigit_of_mem_toDigits (by omega) (by omega)
    rw [List.nil_append]
    unfold splitSign
    split <;> simp_all

theorem signed_natAbs {n : Int} (h : wrap n = n) : signed (n < 0) n.natAbs = .ok n := by
  have hrange := wrap_range n
  rw [h] at hrange
  by_cases hn : n < 0
  · rw [signed, if_pos (decide_eq_true hn), if_pos (by omega)]
    congr 1
    omega
  · rw [signed, if_neg (by simpa using hn), if_pos (by omega)]
    congr 1
    omega

/-- A number of 64 bits is read back from its text. -/
theorem readLiteral_toString {n : Int} (h : wrap n = n) : readLiteral (toString n) = .ok n := by
  have hrange := wrap_range n
  rw [h] at hrange
  rw [readLiteral, splitSign_toString]
  dsimp only
  by_cases hn : n = 0
  · subst hn
    rfl
  · obtain ⟨c, cs, hcs, hc⟩ := toDigits_eq_cons (Int.natAbs_pos.2 hn)
    have hread := readDigits_toDigits (n := n.natAbs) (by omega)
    rw [hcs] at hread ⊢
    split
    · next h => simp at h
    · next h => exact absurd (List.cons.inj h).1 hc
    · rw [hread]
      exact signed_natAbs h

end OnePass.Text
