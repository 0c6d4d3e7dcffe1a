import OnePass.Session.Basic

namespace OnePass.Build

def emit (code : List Instr) : Build Unit :=
  modify fun s => { s with code := s.code ++ code }

def grow (n : Int) : Build Unit :=
  modify fun s => { s with frame := s.frame.push n }

def shrink (n : Int) : Build Unit := do
  let frame ← sound ((← get).frame.pop n)
  modify fun s => { s with frame }

def push (r : Reg) : Build Unit := do
  emit [.push r]
  grow 1

def pop (r : Reg) : Build Unit := do
  emit [.pop r]
  shrink 1

def call (name : String) (args : Int) : Build Unit := do
  emit [.call name]
  shrink args
  grow 1

/-- Leaves the address of a slot in `r0`. The run-time stack grows downward, so a slot lies
`depth - 1 - slot` words above `sp`. -/
def reach (slot : Int) : Build Unit := do
  emit [.mov .r0 .sp, .addi (wrap ((← get).frame.depth - 1 - slot))]

/-- Drops `n` words that the frame no longer counts. -/
def drop (n : Int) : Build Unit :=
  emit [.mov .r0 .sp, .addi n, .mov .sp .r0]

def zeros (n : Int) : Build Unit := do
  emit (.movi 0 :: List.replicate n.toNat (.push .r0))
  grow n.toNat

def follow (r : Reg) (n : Int) : Build Unit :=
  emit (List.replicate n.toNat (.ldr r r))

/-- Leaves the value of an operand in `r` and gives the operand as it is then. -/
def load (o : Operand) (r : Reg) : Build Operand := do
  match o.place with
  | .immediate n => emit (.movi n :: if r = .r0 then [] else [.mov r .r0])
  | .frame slot => do
    reach slot
    emit [.ldr r .r0]
  | .stack => pop r
  | .register q => emit (if q = r then [] else [.mov r q])
  | .unknown _ => pure ()
  follow r o.derefs
  return { o with derefs := 0, place := .register r }

/-- Leaves the address of an operand in `r0`. A value of several words is addressed by its lowest
word, the last one pushed. -/
def locate (o : Operand) : Build Unit := do
  match o.place with
  | .frame slot =>
    if o.derefs = 0 then reach (slot + (← sound o.type.size) - 1)
    else do
      reach slot
      follow .r0 o.derefs
  | .stack => do
    pop .r0
    follow .r0 (o.derefs - 1)
  | _ => pure ()

def spill (o : Operand) : Build Operand := do
  match o.place with
  | .stack =>
    if o.derefs ≠ 0 then do
      let _ ← load o .r1
      push .r1
  | .immediate n => do
    emit [.movi n]
    push .r0
  | _ => do
    let _ ← load o .r1
    push .r1
  return { o with derefs := 0, place := .stack }

end OnePass.Build
