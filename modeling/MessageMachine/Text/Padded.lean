namespace MessageMachine.Text

def padLeft (width : Nat) (c : Char) (s : String) : String :=
  String.ofList (List.replicate (width - s.length) c ++ s.toList)

def padRight (width : Nat) (c : Char) (s : String) : String :=
  String.ofList (s.toList ++ List.replicate (width - s.length) c)

/-- A byte as `0x` and two hexadecimal digits. -/
def hexByte (b : UInt8) : String :=
  "0x" ++ padLeft 2 '0' (String.ofList (Nat.toDigits 16 b.toNat))

end MessageMachine.Text
