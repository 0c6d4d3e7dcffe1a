import OnePass.Directive

namespace OnePass

inductive Event where
  | refill (bytes : Nat) (line : Int)
  | enterScope (id depth : Int)
  | struct (name : String) (words : Int) (fields : Nat)
  | reduce (operator : DirectiveKind) (index entries : Nat) (threshold : Int)
  | declare (type : Ty) (name : String) (address : Int)
  | call (name : String) (args : Int)
deriving DecidableEq, Repr

def Event.message : Event → String
  | refill bytes line => s!"refill: {bytes} bytes buffered, line {line}"
  | enterScope id depth => s!"enter scope {id} at depth {depth}"
  | struct name words fields => s!"struct {name}: {words} words, {fields} fields"
  | reduce operator index entries threshold =>
    "reduce " ++ operator.name ++ s!" at {index} of {entries} (threshold {threshold})"
  | declare type name address =>
    "declare " ++ type.text ++ s!" {name} at frame address {address}"
  | call name args => s!"call {name} with {args} args"

end OnePass
