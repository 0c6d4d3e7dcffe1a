import OnePass.Machine.Core

namespace OnePass.Host

def largest (r : UInt16) (args : List UInt16) : UInt16 := args.foldl max r

def first (r : UInt16) (args : List UInt16) : UInt16 := args.headD r

/-- Gives its argument back. What it was called with can be read off the calls made. -/
def print : Host := ⟨1, first 0⟩

def max : Host := ⟨2, largest 0⟩

end OnePass.Host

namespace OnePass.Core

def printed (c : Core) : List UInt16 :=
  c.calls.toList.filterMap fun call => if call.name = "print" then call.args.head? else none

end OnePass.Core
