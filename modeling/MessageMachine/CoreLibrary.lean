import MessageMachine.World.Definition

namespace MessageMachine.CoreLibrary

structure PrimitiveEntry where
  cls : CoreClass
  selector : String
  operation : Operation
  evaluatesBlock : Bool

def atomics (c : CoreClass) (ops : List (String × AtomicOperation)) : List PrimitiveEntry :=
  ops.map fun e => ⟨c, e.1, .atomic e.2, false⟩

def objectPrimitives : List PrimitiveEntry :=
  atomics .object
    [("==", .identical), ("=", .identical), ("class", .classOf), ("printString", .describe),
     ("instVarAt:", .fieldAt), ("instVarAt:put:", .fieldAtPut)]
  ++ [⟨.object, "perform:", .perform .noArgument, false⟩,
      ⟨.object, "perform:with:", .perform .oneArgument, false⟩,
      ⟨.object, "perform:withArguments:", .perform .argumentArray, false⟩]
  ++ atomics .object
    [("doesNotUnderstand:arguments:", .failNotUnderstood),
     ("unknownGlobal:", .failUnknownGlobal), ("escapedBlock:", .failEscapedBlock)]

def classPrimitives : List PrimitiveEntry :=
  atomics .cls [("new", .newInstance), ("name", .className), ("superclass", .superclass)]

def integerPrimitives : List PrimitiveEntry :=
  atomics .integer
    [("+", .add), ("-", .subtract), ("*", .multiply), ("/", .floorDivide), ("//", .divide),
     ("\\\\", .modulo), ("<", .less), (">", .greater), ("<=", .lessEqual), (">=", .greaterEqual),
     ("=", .numericEqual), ("~=", .numericNotEqual), ("asDouble", .asDouble),
     ("asString", .describe)]
  ++ [⟨.integer, "to:do:", .count, false⟩]

def doublePrimitives : List PrimitiveEntry :=
  atomics .double
    [("+", .add), ("-", .subtract), ("*", .multiply), ("/", .divide), ("<", .less),
     (">", .greater), ("=", .numericEqual), ("asInteger", .asInteger), ("asString", .describe)]

def arrayPrimitives : List PrimitiveEntry :=
  atomics .array [("at:", .arrayAt), ("at:put:", .arrayAtPut), ("length", .arrayLength)]

def textPrimitives : List PrimitiveEntry :=
  atomics .string
    [("length", .stringLength), ("=", .stringEqual), (",", .concatenate), ("asSymbol", .asSymbol),
     ("asString", .asString)]
  ++ atomics .symbol [("asString", .asString)]

def blockPrimitives : List PrimitiveEntry :=
  [⟨.block1, "value", .evaluate, true⟩,
   ⟨.block2, "value:", .evaluate, true⟩,
   ⟨.block3, "value:with:", .evaluate, true⟩,
   ⟨.block, "whileTrue:", .whileLoop true, false⟩,
   ⟨.block, "whileFalse:", .whileLoop false, false⟩]

def systemPrimitives : List PrimitiveEntry :=
  atomics .system
    [("global:", .globalAt), ("global:put:", .globalAtPut), ("printString:", .printText),
     ("printNewline", .printNewline)]

def primitives : List PrimitiveEntry :=
  objectPrimitives ++ classPrimitives ++ integerPrimitives ++ doublePrimitives ++ arrayPrimitives
    ++ textPrimitives ++ blockPrimitives ++ systemPrimitives

def evaluateArgument (selector : String) (index : UInt8) : Source :=
  .method selector [.pushSlot .arguments index 0, .send "value", .returnLocal]

def answer (selector : String) (v : Value) : Source :=
  .method selector [.pushConstant v, .returnLocal]

def trueMethods : List Source :=
  [evaluateArgument "ifTrue:" 1, answer "ifFalse:" .nil, evaluateArgument "ifTrue:ifFalse:" 1,
   evaluateArgument "ifFalse:ifTrue:" 2, answer "not" (.boolean false),
   evaluateArgument "and:" 1, answer "or:" (.boolean true)]

def falseMethods : List Source :=
  [answer "ifTrue:" .nil, evaluateArgument "ifFalse:" 1, evaluateArgument "ifTrue:ifFalse:" 2,
   evaluateArgument "ifFalse:ifTrue:" 1, answer "not" (.boolean true),
   answer "and:" (.boolean false), evaluateArgument "or:" 1]

def notEqual : Source :=
  .method "~="
    [.pushSlot .arguments 0 0, .pushSlot .arguments 1 0, .send "=", .send "not", .returnLocal]

def methods : List (CoreClass × Source) :=
  trueMethods.map (.true, ·) ++ falseMethods.map (.false, ·)
    ++ [(.nil, answer "isNil" (.boolean true)), (.nil, answer "notNil" (.boolean false)),
        (.object, answer "isNil" (.boolean false)), (.object, answer "notNil" (.boolean true)),
        (.object, notEqual), (.object, .method "value" SourceItem.returnSelf)]

end MessageMachine.CoreLibrary
