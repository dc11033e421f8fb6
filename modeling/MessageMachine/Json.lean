import MessageMachine.Text.Escapes

namespace MessageMachine

inductive Json where
  | null
  | boolean (b : Bool)
  | natural (n : Nat)
  | otherNumber
  | string (text : Text.Escaped)
  | array (items : List Json)
  | object (members : List (Text.Escaped × Json))

namespace Json

def isSpace (c : Char) : Bool := c == ' ' || c == '\t' || c == '\n' || c == '\r'

def skipSpace (cs : List Char) : List Char := cs.dropWhile isSpace

def drop? (lit : List Char) (cs : List Char) : Option (List Char) :=
  if lit.isPrefixOf cs then some (cs.drop lit.length) else none

def ofDigits (cs : List Char) : Nat := cs.foldl (fun n c => 10 * n + (c.toNat - '0'.toNat)) 0

def digits? (cs : List Char) : Option (List Char × List Char) :=
  match cs.takeWhile Char.isDigit with
  | [] => none
  | ds => some (ds, cs.dropWhile Char.isDigit)

def whole? (cs : List Char) : Option (Nat × List Char) := do
  let (ds, rest) ← digits? cs
  if ds.head? = some '0' && 1 < ds.length then none else some (ofDigits ds, rest)

def fraction? : List Char → Option (Bool × List Char)
  | '.' :: cs => do return (true, (← digits? cs).2)
  | cs => some (false, cs)

def exponent? (cs : List Char) : Option (Bool × List Char) :=
  match cs with
  | 'e' :: '+' :: cs | 'e' :: '-' :: cs | 'E' :: '+' :: cs | 'E' :: '-' :: cs
  | 'e' :: cs | 'E' :: cs => do return (true, (← digits? cs).2)
  | cs => some (false, cs)

def number? (cs : List Char) : Option (Json × List Char) := do
  let (negative, cs) := match cs with
    | '-' :: cs => (true, cs)
    | cs => (false, cs)
  let (n, cs) ← whole? cs
  let (hasFraction, cs) ← fraction? cs
  let (hasExponent, cs) ← exponent? cs
  return (if negative || hasFraction || hasExponent then otherNumber else natural n, cs)

mutual

/-- Reads one value and the spaces before it; `fuel` bounds the nesting and the number of parts. -/
def value? : Nat → List Char → Option (Json × List Char)
  | 0, _ => none
  | fuel + 1, cs =>
    match skipSpace cs with
    | '"' :: cs => do
      let (s, cs) ← Text.escaped? cs
      return (string s, cs)
    | '[' :: cs =>
      match skipSpace cs with
      | ']' :: cs => some (array [], cs)
      | cs => do
        let (items, cs) ← items? fuel cs
        return (array items, cs)
    | '\x7b' :: cs =>
      match skipSpace cs with
      | '\x7d' :: cs => some (object [], cs)
      | cs => do
        let (members, cs) ← members? fuel cs
        return (object members, cs)
    | 'n' :: cs => do return (null, ← drop? ['u', 'l', 'l'] cs)
    | 't' :: cs => do return (boolean true, ← drop? ['r', 'u', 'e'] cs)
    | 'f' :: cs => do return (boolean false, ← drop? ['a', 'l', 's', 'e'] cs)
    | cs => number? cs

def items? : Nat → List Char → Option (List Json × List Char)
  | 0, _ => none
  | fuel + 1, cs => do
    let (v, cs) ← value? fuel cs
    match skipSpace cs with
    | ',' :: cs => do
      let (vs, cs) ← items? fuel cs
      return (v :: vs, cs)
    | ']' :: cs => return ([v], cs)
    | _ => none

def members? : Nat → List Char → Option (List (Text.Escaped × Json) × List Char)
  | 0, _ => none
  | fuel + 1, cs =>
    match skipSpace cs with
    | '"' :: cs => do
      let (k, cs) ← Text.escaped? cs
      match skipSpace cs with
      | ':' :: cs => do
        let (v, cs) ← value? fuel cs
        match skipSpace cs with
        | ',' :: cs => do
          let (ms, cs) ← members? fuel cs
          return ((k, v) :: ms, cs)
        | '\x7d' :: cs => return ([(k, v)], cs)
        | _ => none
      | _ => none
    | _ => none

end

/-- Reads a whole document. Every part takes at least one character, so twice the length is enough
fuel. -/
def parse? (s : String) : Option Json :=
  let cs := s.toList
  match value? (2 * cs.length + 1) cs with
  | some (v, rest) => if (skipSpace rest).isEmpty then some v else none
  | none => none

end Json

end MessageMachine
