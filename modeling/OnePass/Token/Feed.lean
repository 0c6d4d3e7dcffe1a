namespace OnePass

inductive Ending where
  | more
  | endOfInput
  | failure (text : String)
deriving DecidableEq, Repr

/-- One scripted read: deliver at most `count` bytes, or claim a count without delivering. -/
inductive ReadEvent where
  | deliver (count : Nat) (ending : Ending)
  | claim (count : Int)
deriving DecidableEq, Repr

inductive Pace where
  | full
  | single
  | half
  | fullWithEnd
deriving DecidableEq, Repr

/-- Bytes asked of an unscripted read that has room for `room`. -/
def Pace.stride (room : Nat) : Pace → Nat
  | .full => room
  | .single => min 1 room
  | .half => (room + 1) / 2
  | .fullWithEnd => room

/-- A feed delivers its bytes first as its script says, then at its pace until nothing is left. -/
structure Feed where
  bytes : List UInt8
  script : List ReadEvent := []
  pace : Pace := .full
deriving Repr

structure Delivery where
  count : Int
  bytes : List UInt8
  ending : Ending
deriving Repr

namespace Feed

def read (f : Feed) (room : Nat) : Delivery × Feed :=
  match f.script with
  | .deliver count ending :: script =>
    let n := min count room
    let bytes := f.bytes.take n
    (⟨bytes.length, bytes, ending⟩, { f with bytes := f.bytes.drop n, script })
  | .claim count :: script => (⟨count, [], .more⟩, { f with script })
  | [] =>
    if f.bytes = [] then (⟨0, [], .endOfInput⟩, f)
    else
      let n := f.pace.stride room
      let bytes := f.bytes.take n
      let rest := f.bytes.drop n
      let ending := if f.pace = .fullWithEnd ∧ rest = [] then .endOfInput else .more
      (⟨bytes.length, bytes, ending⟩, { f with bytes := rest })

/-- Bounds the reads that a feed has left before its end. -/
def reads (f : Feed) : Nat := f.script.length + f.bytes.length

/-- A read that does not end the input uses up an event or a byte. -/
theorem reads_read_lt (f : Feed) {room : Nat} (pos : 0 < room)
    (more : (f.read room).1.ending = .more) : (f.read room).2.reads < f.reads := by
  unfold read at more ⊢
  split at more <;> rename_i h
  · simp only [reads, h, List.length_drop, List.length_cons]
    omega
  · simp only [reads, h, List.length_cons]
    omega
  · split at more <;> rename_i hb
    · simp at more
    · have hpos : 0 < f.bytes.length := by
        cases hbs : f.bytes with
        | nil => exact absurd hbs hb
        | cons => simp
      have hstride : 0 < f.pace.stride room := by
        unfold Pace.stride
        split <;> omega
      simp only [hb, ↓reduceIte, reads, h, List.length_drop, List.length_nil]
      omega

theorem reads_read_le (f : Feed) (room : Nat) : (f.read room).2.reads ≤ f.reads := by
  unfold read
  split <;> rename_i h
  · simp only [reads, h, List.length_drop, List.length_cons]
    omega
  · simp only [reads, h, List.length_cons]
    omega
  · split
    · simp
    · simp only [reads, h, List.length_drop, List.length_nil]
      omega

end Feed

end OnePass
