import MessageMachine.Text.Padded
import MessageMachine.World.Describe

namespace MessageMachine.World

def literalText (w : World) : Option Value → String
  | some (.method (.compiled r)) => "block #" ++ (w.code r).signature.name
  | some v => w.describe v
  | none => "<missing literal>"

def operandText (w : World) (c : Code) (op : Opcode) : List UInt8 → String
  | [] => ""
  | [x] =>
    " " ++ toString x.toNat ++
      if op.hasLiteralOperand then " ; " ++ w.literalText c.literals[x.toNat]? else ""
  | x :: y :: _ => " " ++ toString x.toNat ++ ", " ++ toString y.toNat

def lineText (w : World) (c : Code) : ListingLine → String
  | .unknownByte _ b => "<invalid " ++ Text.hexByte b ++ ">"
  | .truncated _ op => Text.padRight 16 ' ' op.mnemonic ++ " <truncated>"
  | .instruction _ i =>
    Text.padRight 16 ' ' i.opcode.mnemonic ++ w.operandText c i.opcode i.operands

end MessageMachine.World

namespace MessageMachine.ListingLine

def offset : ListingLine → Nat
  | instruction o _ | truncated o _ | unknownByte o _ => o

def nested? (c : Code) : ListingLine → Option CodeRef
  | instruction _ (.pushBlock x) =>
    match c.literals[x.toNat]? with
    | some (.method (.compiled r)) => some r
    | _ => none
  | _ => none

end MessageMachine.ListingLine

namespace MessageMachine.World

def headingText (w : World) (r : CodeRef) : String :=
  let c := w.code r
  w.codeText r ++ " (args: " ++ toString c.argCount ++ ", locals: " ++ toString c.localCount
    ++ ", max stack: " ++ toString c.maxStack ++ ", level: " ++ toString c.level.toNat ++ ")"

def listingWithin (w : World) : Nat → String → CodeRef → List String
  | 0, _, _ => []
  | depth + 1, pad, r =>
    let c := w.code r
    (pad ++ w.headingText r) ::
      (listingLines 0 c.bytecodes.toList).flatMap fun line =>
        (pad ++ "  " ++ Text.padLeft 4 ' ' (toString line.offset) ++ "  " ++ w.lineText c line) ::
          match line.nested? c with
          | some n => w.listingWithin depth (pad ++ "    ") n
          | none => []

def listing (w : World) (r : CodeRef) : String :=
  String.join ((w.listingWithin (r.index + 1) "" r).map (· ++ "\n"))

end MessageMachine.World
