import Bytecode.InternalError

/-!
Why code is rejected: frames that cannot be merged (`MergeFault`), subroutines out of shape
(`SubroutineFault`), and instructions on a frame that does not suit them (`Complaint`).
-/
namespace Bytecode

/-! ### Merging frames -/

/-- Two frames that cannot meet. Stacks stand bottom first. -/
inductive MergeFault where
  | stackSizes (mine theirs : List ValueType)
  | stackMarker (theirs : ValueType)
  | stackMarkerMeets (mine theirs : ValueType)
  | stackEntry (index : Nat) (mine theirs : ValueType)
  | localMarker (index : Nat) (theirs : ValueType)
  | localMarkers (index : Nat) (mine theirs : ValueType)
  deriving DecidableEq, Repr

def MergeFault.message : MergeFault → String
  | .stackSizes mine theirs =>
    "cannot merge operand stacks of different sizes: " ++ ValueType.listText mine ++ " and " ++
      ValueType.listText theirs
  | .stackMarker theirs =>
    s!"backwards branch with an uninitialized object on the stack: {theirs}"
  | .stackMarkerMeets mine theirs =>
    s!"backwards branch with an uninitialized object on the stack: {mine} meets {theirs}"
  | .stackEntry index mine theirs =>
    s!"cannot merge operand stacks: entry {index} is {mine} and {theirs}"
  | .localMarker index theirs =>
    s!"backwards branch with an uninitialized object in local variable {index}: {theirs}"
  | .localMarkers index mine theirs =>
    s!"local variable {index} holds two different uninitialized objects: {mine} and {theirs}"

/-! ### Subroutines -/

/-- A subroutine out of shape. Subroutines are named by the offset they begin at. -/
inductive SubroutineFault where
  | noReturnStore (first : Instruction)
  | shared (ins : Instruction)
  | returnOutside (ret : Instruction)
  | twoExits (start : Nat) (first second : Instruction)
  | noExit (start : Nat)
  | returnSlot (start slot : Nat) (ret : Instruction)
  | guarded (ins : Instruction) (entry : Nat)
  | recursive (start slot : Nat)
  deriving DecidableEq, Repr

def SubroutineFault.message : SubroutineFault → String
  | .noReturnStore first =>
    s!"subroutine at {first.pos} does not begin by storing its return address: " ++ first.text
  | .shared ins =>
    "instruction " ++ ins.text ++
      " belongs to more than one subroutine (or to the top level and a subroutine)"
  | .returnOutside ret => "return from subroutine " ++ ret.text ++ " outside of any subroutine"
  | .twoExits start first second =>
    s!"subroutine at {start} has more than one exit: " ++ first.text ++ " and " ++ second.text
  | .noExit start => s!"subroutine at {start} never returns"
  | .returnSlot start slot ret =>
    s!"subroutine at {start} stores its return address in local {slot} but " ++ ret.text ++
      s!" reads local {ret.index}"
  | .guarded ins entry =>
    "subroutine instruction " ++ ins.text ++
      s!" is protected by the exception handler at {entry}"
  | .recursive start slot =>
    s!"subroutine at {start} is called by a subroutine using the same return address local " ++
      s!"{slot}; recursive subroutine calls are not allowed"

/-! ### Instructions -/

inductive Place where
  /-- So many entries below the top of the stack. -/
  | stack (depth : Nat)
  | returnedValue
  | storedValue
  | argument (index : Nat)
  | receiver
  deriving DecidableEq, Repr

def Place.text : Place → String
  | .stack 0 => "stack top"
  | .stack 1 => "stack next-to-top"
  | .stack depth => s!"stack entry {depth} below the top"
  | .returnedValue => "returned value"
  | .storedValue => "stored value"
  | .argument index => s!"argument {index}"
  | .receiver => "receiver"

inductive Wanted where
  | type (t : ValueType)
  | reference
  | referenceOrReturnAddress
  | initializedObject
  | array
  | arrayOfReferences
  | arrayOf (descriptors : List String)
  | returnAddress
  deriving DecidableEq, Repr

def Wanted.text : Wanted → String
  | .type t => t.text
  | .reference => "a reference"
  | .referenceOrReturnAddress => "a reference or return address"
  | .initializedObject => "an initialized object"
  | .array => "an array"
  | .arrayOfReferences => "an array of references"
  | .arrayOf descriptors => "an array of " ++ " or ".intercalate descriptors
  | .returnAddress => "a return address"

inductive Complaint where
  | mismatch (place : Place) (wanted : Wanted) (got : ValueType)
  | size (place : Place) (slots : Nat) (got : ValueType)
  | marker (place : Place) (got : ValueType)
  | notAssignable (place : Place) (got wanted : ValueType)
  | localRange (index : Nat) (max : Nat)
  | localUnusable (index : Nat)
  | localHalf (index : Nat) (first second : ValueType)
  | localMismatch (index : Nat) (wanted : Wanted) (got : ValueType)
  | stackForm (stack : List ValueType)
  | classAccess (name viewer : String)
  | fieldAccess (owner name : String) (access : AccessFlags) (viewer : String)
  | methodAccess (owner method : String) (access : AccessFlags) (viewer : String)
  | missing (cause : HierarchyError)
  | noConstructor (owner desc : String)
  | protectedAccess (owner name : String) (through : ValueType) (viewer : String)
  | fieldNotStatic (field : MemberRef)
  | fieldStatic (field : MemberRef)
  | finalField (field : MemberRef) (owner : String)
  | interfaceField (field : MemberRef)
  | wrongOwner (got : ValueType) (owner : String)
  | methodNotStatic (owner method : String)
  | methodStatic (owner method : String)
  | interfaceCount (count slots : Nat)
  | invokeMarker (method : MemberRef) (got : ValueType)
  | specialReceiver (got : ValueType) (viewer : String)
  | receiverType (got : ValueType) (owner : String)
  | initializedTwice (got : ValueType)
  | thisInitializer (name super owner : String)
  | otherInitializer (owner allocated : String)
  | newArrayType (name : String)
  | newInterface (name : String)
  | notThrowable (got : ValueType)
  | notSubclass (got : ValueType) (super : String)
  | thisUninitialized
  deriving DecidableEq, Repr

def Complaint.message : Complaint → String
  | .mismatch place wanted got =>
    place.text ++ " should be " ++ wanted.text ++ " but is " ++ got.text
  | .size place slots got => place.text ++ s!" should occupy {slots} slot(s) but is {got}"
  | .marker place got => place.text ++ " is the uninitialized object " ++ got.text
  | .notAssignable place got wanted =>
    place.text ++ s!" of type {got} is not assignable to {wanted}"
  | .localRange index max => s!"local {index} is out of range for max_locals {max}"
  | .localUnusable index => s!"local {index} holds no usable value"
  | .localHalf index first second =>
    s!"local {index}, the second half of a {first}, holds {second}"
  | .localMismatch index wanted got =>
    s!"local {index} should hold " ++ wanted.text ++ s!" but holds {got}"
  | .stackForm stack =>
    "the stack " ++ ValueType.listText stack ++ " does not match any of the four forms"
  | .classAccess name viewer => "class " ++ name ++ " is not accessible from " ++ viewer
  | .fieldAccess owner name access viewer =>
    "field " ++ owner ++ "." ++ name ++ " is " ++ access.visibility ++
      " and not accessible from " ++ viewer
  | .methodAccess owner method access viewer =>
    "method " ++ owner ++ "." ++ method ++ " is " ++ access.visibility ++
      " and not accessible from " ++ viewer
  | .missing cause => cause.message
  | .noConstructor owner desc => owner ++ " declares no constructor " ++ desc
  | .protectedAccess owner name through viewer =>
    "protected member " ++ owner ++ "." ++ name ++ s!" accessed through {through}, which is not " ++
      viewer ++ " or a subclass of it"
  | .fieldNotStatic field => "field " ++ field.text ++ " is not static"
  | .fieldStatic field => "field " ++ field.text ++ " is static"
  | .finalField field owner =>
    "final field " ++ field.text ++ " may only be assigned in " ++ owner
  | .interfaceField field =>
    "interface field " ++ field.text ++ " may only be assigned in " ++ initializerName
  | .wrongOwner got owner => got.text ++ " is not a " ++ owner
  | .methodNotStatic owner method => owner ++ "." ++ method ++ " is not static"
  | .methodStatic owner method => owner ++ "." ++ method ++ " is static"
  | .interfaceCount count slots =>
    s!"count {count} does not match the {slots} argument slots plus receiver"
  | .invokeMarker method got =>
    "invoking " ++ method.text ++ " on the uninitialized object " ++ got.text
  | .specialReceiver got viewer =>
    s!"invokespecial receiver {got} is not " ++ viewer ++ " or a subclass of it"
  | .receiverType got owner => s!"receiver {got} is not assignable to " ++ owner
  | .initializedTwice got => s!"possibly initializing object twice: receiver is {got}"
  | .thisInitializer name super owner =>
    "the receiver of a constructor must be initialized by " ++ name ++ " or " ++ super ++
      ", not " ++ owner
  | .otherInitializer owner allocated =>
    "constructor of " ++ owner ++ " called on an object allocated as " ++ allocated
  | .newArrayType name => "cannot instantiate the array type " ++ name
  | .newInterface name => "cannot instantiate the interface " ++ name
  | .notThrowable got => "cannot throw " ++ got.text
  | .notSubclass got super => got.text ++ " is not a subclass of " ++ super
  | .thisUninitialized => "leaving a constructor that itself did not call a constructor"

/-! ### All together -/

/-- Why code is rejected. Stacks stand bottom first. -/
inductive Rejection where
  | merge (fault : MergeFault)
  /-- With the instruction at which the frames would meet. -/
  | mergeAt (fault : MergeFault) (into : Instruction)
  | subroutine (fault : SubroutineFault)
  | underflow (slots used : Nat) (stack : List ValueType)
  | overflow (slots free : Int) (stack : List ValueType)
  | fewValues (count : Nat) (stack : List ValueType)
  | instruction (ins : Instruction) (complaint : Complaint)
  | returnType (ins : Instruction) (result : Option FieldType)
  | returnInVoid (ins : Instruction)
  | handlerStack (ins : Instruction) (entry : Nat)
  deriving DecidableEq, Repr

def Rejection.message : Rejection → String
  | .merge fault => fault.message
  | .mergeAt fault into => fault.message ++ " (merging into " ++ into.text ++ ")"
  | .subroutine fault => fault.message
  | .underflow slots used stack =>
    s!"cannot consume {slots} stack slots: only {used} on the stack " ++ ValueType.listText stack
  | .overflow slots free stack =>
    s!"cannot produce {slots} stack slots: only {free} free on the stack " ++
      ValueType.listText stack
  | .fewValues count stack =>
    s!"expected at least {count} values on the stack " ++ ValueType.listText stack
  | .instruction ins complaint => ins.text ++ ": " ++ complaint.message
  | .returnType ins result =>
    ins.text ++ " in a method returning " ++ MethodType.resultDescriptor result
  | .returnInVoid ins => ins.text ++ " in a void method"
  | .handlerStack ins entry =>
    ins.text ++ s!" is protected by the exception handler at {entry} but max_stack is 0"

/-- A rejection, or a failure that is no verdict. -/
inductive Failure where
  | rejected (rejection : Rejection)
  | internal (error : InternalError)
  deriving DecidableEq, Repr

def Failure.message : Failure → String
  | .rejected rejection => rejection.message
  | .internal error => error.message

end Bytecode
