namespace OnePass.Text

def column (width : Nat) (s : String) : String :=
  String.ofList (s.toList.rightpad width ' ')

end OnePass.Text
