import OnePass.Fault

namespace OnePass

/-- Sizes, depths, offsets and slot distances are kept in 64 signed bits: a sum that leaves the
range wraps around. -/
def wrap (n : Int) : Int := n.bmod 0x10000000000000000

theorem wrap_eq_self {n : Int} (lo : -0x8000000000000000 ≤ n) (hi : n < 0x8000000000000000) :
    wrap n = n := by
  unfold wrap
  rw [Int.bmod_eq_of_le] <;> omega

/-- Whether `n` items of `width` bytes each can be set aside in an address space of 48 bits. -/
def fitsInMemory (width n : Int) : Bool := 0 ≤ n && width * n ≤ 0x1000000000000

def allot (width n : Int) : Except Fault Unit :=
  if fitsInMemory width n then .ok () else .error .countOutOfRange

end OnePass
