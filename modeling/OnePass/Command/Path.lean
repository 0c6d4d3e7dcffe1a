namespace OnePass.Command

structure Path where
  rooted : Bool
  parts : List String
deriving DecidableEq, Repr

namespace Path

def split : List Char → List (List Char)
  | [] => [[]]
  | c :: rest =>
    match split rest with
    | p :: ps => if c = '/' then [] :: p :: ps else (c :: p) :: ps
    | [] => [[c]]

/-- Adds a part to the parts read so far, latest first. -/
def step (rooted : Bool) (parts : List String) (part : String) : List String :=
  if part = "" ∨ part = "." then parts
  else if part = ".." then
    match parts with
    | p :: rest => if p = ".." then ".." :: parts else rest
    | [] => if rooted then [] else [".."]
  else part :: parts

def ofString (s : String) : Path :=
  let rooted := s.toList.head? = some '/'
  ⟨rooted, (((split s.toList).map String.ofList).foldl (step rooted) []).reverse⟩

def toString (p : Path) : String :=
  let body := "/".intercalate p.parts
  if p.rooted then "/" ++ body else if body = "" then "." else body

def parent (p : Path) : Path := { p with parts := p.parts.dropLast }

def absolute (cwd s : String) : Path :=
  if s.toList.head? = some '/' then ofString s else ofString (cwd ++ "/" ++ s)

end Path

end OnePass.Command
