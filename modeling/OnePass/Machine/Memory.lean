namespace OnePass

structure Memory where
  words : Vector UInt16 65536

namespace Memory

def zero : Memory := ⟨Vector.replicate 65536 0⟩

instance : Inhabited Memory := ⟨zero⟩

theorem address_lt (a : UInt16) : a.toNat < 65536 := a.toNat_lt

def read (m : Memory) (a : UInt16) : UInt16 :=
  have := address_lt a
  m.words[a.toNat]

def write (m : Memory) (a v : UInt16) : Memory := ⟨m.words.set a.toNat v (address_lt a)⟩

theorem read_write_self (m : Memory) (a v : UInt16) : (m.write a v).read a = v := by
  simp [read, write]

theorem read_write_of_ne (m : Memory) {a b : UInt16} (v : UInt16) (h : a ≠ b) :
    (m.write a v).read b = m.read b := by
  have hne : a.toNat ≠ b.toNat := fun e => h (UInt16.toNat_inj.1 e)
  simp [read, write, hne]

end Memory

end OnePass
