namespace OnePass.Text

def replacement : Char := Char.ofNat 0xfffd

def continuation (b : UInt8) : Option Nat :=
  if 0x80 ≤ b ∧ b < 0xc0 then some (b.toNat - 0x80) else none

/-- The character whose encoding starts with `b`, and how many of the following bytes belong to
it. Overlong forms, surrogates and code points above U+10FFFF are not well formed. -/
def decodeFirst (b : UInt8) (rest : List UInt8) : Option (Char × Nat) :=
  if b < 0x80 then some (Char.ofNat b.toNat, 0)
  else if 0xc2 ≤ b ∧ b < 0xe0 then
    match rest with
    | b₁ :: _ => do
      let x ← continuation b₁
      return (Char.ofNat ((b.toNat - 0xc0) * 0x40 + x), 1)
    | _ => none
  else if 0xe0 ≤ b ∧ b < 0xf0 then
    match rest with
    | b₁ :: b₂ :: _ => do
      let x ← continuation b₁
      let y ← continuation b₂
      let n := (b.toNat - 0xe0) * 0x1000 + x * 0x40 + y
      if n < 0x800 ∨ (0xd800 ≤ n ∧ n < 0xe000) then none else return (Char.ofNat n, 2)
    | _ => none
  else if 0xf0 ≤ b ∧ b < 0xf5 then
    match rest with
    | b₁ :: b₂ :: b₃ :: _ => do
      let x ← continuation b₁
      let y ← continuation b₂
      let z ← continuation b₃
      let n := (b.toNat - 0xf0) * 0x40000 + x * 0x1000 + y * 0x40 + z
      if n < 0x10000 ∨ 0x110000 ≤ n then none else return (Char.ofNat n, 3)
    | _ => none
  else none

/-- A byte that starts no well-formed sequence is read as U+FFFD, and the next byte is tried. -/
def decodeBytes : List UInt8 → List Char
  | [] => []
  | b :: rest =>
    match decodeFirst b rest with
    | some (c, n) => c :: decodeBytes (rest.drop n)
    | none => replacement :: decodeBytes rest
termination_by bs => bs.length

end OnePass.Text
