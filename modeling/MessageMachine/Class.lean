import MessageMachine.Table
import MessageMachine.Value

namespace MessageMachine

structure Class where
  name : Symbol
  superclass : Option ClassRef
  metaclass : Option ClassRef
  /-- Fields declared here, inherited ones not included. -/
  fields : List Symbol
  methods : Table Symbol Method
deriving Inhabited

/-- The classes that every machine starts with, in the order of their definition. -/
inductive CoreClass where
  | object | cls | metaclass | nil | array | method | primitive | string | symbol | integer | double
  | boolean | true | false | block | block1 | block2 | block3 | system
deriving DecidableEq, Repr

namespace CoreClass

def all : List CoreClass :=
  [object, cls, metaclass, nil, array, method, primitive, string, symbol, integer, double,
   boolean, true, false, block, block1, block2, block3, system]

/-- The core classes are the first classes made, so their references are fixed. -/
def ref (c : CoreClass) : ClassRef := ⟨c.ctorIdx⟩

def name : CoreClass → String
  | object => "Object"
  | cls => "Class"
  | metaclass => "Metaclass"
  | nil => "Nil"
  | array => "Array"
  | method => "Method"
  | primitive => "Primitive"
  | string => "String"
  | symbol => "Symbol"
  | integer => "Integer"
  | double => "Double"
  | boolean => "Boolean"
  | true => "True"
  | false => "False"
  | block => "Block"
  | block1 => "Block1"
  | block2 => "Block2"
  | block3 => "Block3"
  | system => "System"

def superclass? : CoreClass → Option CoreClass
  | object => none
  | metaclass => some cls
  | symbol => some string
  | true | false => some boolean
  | block1 | block2 | block3 => some block
  | _ => some object

/-- The class of blocks whose body takes this many arguments, the block included. -/
def ofArgCount? : Nat → Option CoreClass
  | 1 => some block1
  | 2 => some block2
  | 3 => some block3
  | _ => none

end CoreClass

end MessageMachine
