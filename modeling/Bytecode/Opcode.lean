import Bytecode.Text.Quoted

/-!
The instruction set. An opcode is an index into one table, which gives its mnemonic, the layout of
its operands, the stack slots it takes and leaves, and what it does (`Action`).

* `Opcode.ofByte?`, `Opcode.byte`: opcodes are the bytes below 202;
* `Opcode.ofName?`: the opcode with a mnemonic;
* `Opcode.isReturn`, `Opcode.endsFlow`, …: families of opcodes, read off the action.
-/
namespace Bytecode

inductive Numeric where
  | int
  | long
  | float
  | double
  deriving DecidableEq, Repr

inductive Kind where
  | numeric (n : Numeric)
  | reference
  deriving DecidableEq, Repr

inductive Format where
  | none
  | byte
  | short
  /-- A local variable index of one byte, or of two under `wide`. -/
  | slot
  | const8
  | const16
  | branch
  | branchWide
  /-- A local variable index and a signed increment. -/
  | iinc
  /-- A padded jump table. -/
  | tableSwitch
  /-- Padded pairs of a match and an offset. -/
  | lookupSwitch
  /-- A pool index, a count and a zero byte. -/
  | invokeInterface
  /-- A pool index and two zero bytes. -/
  | invokeDynamic
  | newArray
  /-- A pool index and a number of dimensions. -/
  | multiNewArray
  | wide
  deriving DecidableEq, Repr

def Format.number : Format → Nat
  | .none => 0
  | .byte => 1
  | .short => 2
  | .slot => 3
  | .const8 => 4
  | .const16 => 5
  | .branch => 6
  | .branchWide => 7
  | .iinc => 8
  | .tableSwitch => 9
  | .lookupSwitch => 10
  | .invokeInterface => 11
  | .invokeDynamic => 12
  | .newArray => 13
  | .multiNewArray => 14
  | .wide => 15

inductive ElementAccess where
  | int
  | long
  | float
  | double
  | reference
  /-- Bytes and booleans share their instructions. -/
  | byte
  | char
  | short
  deriving DecidableEq, Repr

inductive StackOp where
  | pop
  | pop2
  | dup
  | dupX1
  | dupX2
  | dup2
  | dup2X1
  | dup2X2
  | swap
  deriving DecidableEq, Repr

inductive Condition where
  | intZero
  | intPair
  | refPair
  | refNull
  deriving DecidableEq, Repr

inductive FieldAccess where
  | getStatic
  | putStatic
  | get
  | put
  deriving DecidableEq, Repr

inductive InvokeKind where
  | ofVirtual
  | ofSpecial
  | ofStatic
  | ofInterface
  | ofDynamic
  deriving DecidableEq, Repr

inductive Action where
  | nop
  | constNull
  | const (n : Numeric)
  /-- Loads from the pool; the flag asks for a two-slot constant. -/
  | loadConst (twoSlots : Bool)
  /-- Pushes a local variable; some opcodes imply which. -/
  | load (k : Kind) (implied : Option Nat)
  | store (k : Kind) (implied : Option Nat)
  | arrayLoad (e : ElementAccess)
  | arrayStore (e : ElementAccess)
  | stack (op : StackOp)
  /-- Arithmetic, conversion or comparison: the operands from the top down, and the result. -/
  | arith (top : Numeric) (next : Option Numeric) (result : Numeric)
  | iinc
  | branch (c : Condition)
  | goto
  | jsr
  | ret
  | switch
  /-- Returns from the method, with a value or without. -/
  | leave (value : Option Kind)
  | field (a : FieldAccess)
  | invoke (k : InvokeKind)
  | allocate
  | newArray
  | newRefArray
  | newMultiArray
  | arrayLength
  | raise
  | checkCast
  | instanceOf
  | monitor
  | wide
  deriving DecidableEq, Repr

/-- A row of the instruction table. The slots taken and left are `none` where they depend on the
operands. -/
structure OpcodeInfo where
  name : String
  format : Format
  pops : Option Nat
  pushes : Option Nat
  action : Action

def opcodeTable : Array OpcodeInfo := #[
  ⟨"nop", .none, some 0, some 0, .nop⟩,
  ⟨"aconst_null", .none, some 0, some 1, .constNull⟩,
  ⟨"iconst_m1", .none, some 0, some 1, .const .int⟩,
  ⟨"iconst_0", .none, some 0, some 1, .const .int⟩,
  ⟨"iconst_1", .none, some 0, some 1, .const .int⟩,
  ⟨"iconst_2", .none, some 0, some 1, .const .int⟩,
  ⟨"iconst_3", .none, some 0, some 1, .const .int⟩,
  ⟨"iconst_4", .none, some 0, some 1, .const .int⟩,
  ⟨"iconst_5", .none, some 0, some 1, .const .int⟩,
  ⟨"lconst_0", .none, some 0, some 2, .const .long⟩,
  ⟨"lconst_1", .none, some 0, some 2, .const .long⟩,
  ⟨"fconst_0", .none, some 0, some 1, .const .float⟩,
  ⟨"fconst_1", .none, some 0, some 1, .const .float⟩,
  ⟨"fconst_2", .none, some 0, some 1, .const .float⟩,
  ⟨"dconst_0", .none, some 0, some 2, .const .double⟩,
  ⟨"dconst_1", .none, some 0, some 2, .const .double⟩,
  ⟨"bipush", .byte, some 0, some 1, .const .int⟩,
  ⟨"sipush", .short, some 0, some 1, .const .int⟩,
  ⟨"ldc", .const8, some 0, some 1, .loadConst false⟩,
  ⟨"ldc_w", .const16, some 0, some 1, .loadConst false⟩,
  ⟨"ldc2_w", .const16, some 0, some 2, .loadConst true⟩,
  ⟨"iload", .slot, some 0, some 1, .load (.numeric .int) none⟩,
  ⟨"lload", .slot, some 0, some 2, .load (.numeric .long) none⟩,
  ⟨"fload", .slot, some 0, some 1, .load (.numeric .float) none⟩,
  ⟨"dload", .slot, some 0, some 2, .load (.numeric .double) none⟩,
  ⟨"aload", .slot, some 0, some 1, .load .reference none⟩,
  ⟨"iload_0", .none, some 0, some 1, .load (.numeric .int) (some 0)⟩,
  ⟨"iload_1", .none, some 0, some 1, .load (.numeric .int) (some 1)⟩,
  ⟨"iload_2", .none, some 0, some 1, .load (.numeric .int) (some 2)⟩,
  ⟨"iload_3", .none, some 0, some 1, .load (.numeric .int) (some 3)⟩,
  ⟨"lload_0", .none, some 0, some 2, .load (.numeric .long) (some 0)⟩,
  ⟨"lload_1", .none, some 0, some 2, .load (.numeric .long) (some 1)⟩,
  ⟨"lload_2", .none, some 0, some 2, .load (.numeric .long) (some 2)⟩,
  ⟨"lload_3", .none, some 0, some 2, .load (.numeric .long) (some 3)⟩,
  ⟨"fload_0", .none, some 0, some 1, .load (.numeric .float) (some 0)⟩,
  ⟨"fload_1", .none, some 0, some 1, .load (.numeric .float) (some 1)⟩,
  ⟨"fload_2", .none, some 0, some 1, .load (.numeric .float) (some 2)⟩,
  ⟨"fload_3", .none, some 0, some 1, .load (.numeric .float) (some 3)⟩,
  ⟨"dload_0", .none, some 0, some 2, .load (.numeric .double) (some 0)⟩,
  ⟨"dload_1", .none, some 0, some 2, .load (.numeric .double) (some 1)⟩,
  ⟨"dload_2", .none, some 0, some 2, .load (.numeric .double) (some 2)⟩,
  ⟨"dload_3", .none, some 0, some 2, .load (.numeric .double) (some 3)⟩,
  ⟨"aload_0", .none, some 0, some 1, .load .reference (some 0)⟩,
  ⟨"aload_1", .none, some 0, some 1, .load .reference (some 1)⟩,
  ⟨"aload_2", .none, some 0, some 1, .load .reference (some 2)⟩,
  ⟨"aload_3", .none, some 0, some 1, .load .reference (some 3)⟩,
  ⟨"iaload", .none, some 2, some 1, .arrayLoad .int⟩,
  ⟨"laload", .none, some 2, some 2, .arrayLoad .long⟩,
  ⟨"faload", .none, some 2, some 1, .arrayLoad .float⟩,
  ⟨"daload", .none, some 2, some 2, .arrayLoad .double⟩,
  ⟨"aaload", .none, some 2, some 1, .arrayLoad .reference⟩,
  ⟨"baload", .none, some 2, some 1, .arrayLoad .byte⟩,
  ⟨"caload", .none, some 2, some 1, .arrayLoad .char⟩,
  ⟨"saload", .none, some 2, some 1, .arrayLoad .short⟩,
  ⟨"istore", .slot, some 1, some 0, .store (.numeric .int) none⟩,
  ⟨"lstore", .slot, some 2, some 0, .store (.numeric .long) none⟩,
  ⟨"fstore", .slot, some 1, some 0, .store (.numeric .float) none⟩,
  ⟨"dstore", .slot, some 2, some 0, .store (.numeric .double) none⟩,
  ⟨"astore", .slot, some 1, some 0, .store .reference none⟩,
  ⟨"istore_0", .none, some 1, some 0, .store (.numeric .int) (some 0)⟩,
  ⟨"istore_1", .none, some 1, some 0, .store (.numeric .int) (some 1)⟩,
  ⟨"istore_2", .none, some 1, some 0, .store (.numeric .int) (some 2)⟩,
  ⟨"istore_3", .none, some 1, some 0, .store (.numeric .int) (some 3)⟩,
  ⟨"lstore_0", .none, some 2, some 0, .store (.numeric .long) (some 0)⟩,
  ⟨"lstore_1", .none, some 2, some 0, .store (.numeric .long) (some 1)⟩,
  ⟨"lstore_2", .none, some 2, some 0, .store (.numeric .long) (some 2)⟩,
  ⟨"lstore_3", .none, some 2, some 0, .store (.numeric .long) (some 3)⟩,
  ⟨"fstore_0", .none, some 1, some 0, .store (.numeric .float) (some 0)⟩,
  ⟨"fstore_1", .none, some 1, some 0, .store (.numeric .float) (some 1)⟩,
  ⟨"fstore_2", .none, some 1, some 0, .store (.numeric .float) (some 2)⟩,
  ⟨"fstore_3", .none, some 1, some 0, .store (.numeric .float) (some 3)⟩,
  ⟨"dstore_0", .none, some 2, some 0, .store (.numeric .double) (some 0)⟩,
  ⟨"dstore_1", .none, some 2, some 0, .store (.numeric .double) (some 1)⟩,
  ⟨"dstore_2", .none, some 2, some 0, .store (.numeric .double) (some 2)⟩,
  ⟨"dstore_3", .none, some 2, some 0, .store (.numeric .double) (some 3)⟩,
  ⟨"astore_0", .none, some 1, some 0, .store .reference (some 0)⟩,
  ⟨"astore_1", .none, some 1, some 0, .store .reference (some 1)⟩,
  ⟨"astore_2", .none, some 1, some 0, .store .reference (some 2)⟩,
  ⟨"astore_3", .none, some 1, some 0, .store .reference (some 3)⟩,
  ⟨"iastore", .none, some 3, some 0, .arrayStore .int⟩,
  ⟨"lastore", .none, some 4, some 0, .arrayStore .long⟩,
  ⟨"fastore", .none, some 3, some 0, .arrayStore .float⟩,
  ⟨"dastore", .none, some 4, some 0, .arrayStore .double⟩,
  ⟨"aastore", .none, some 3, some 0, .arrayStore .reference⟩,
  ⟨"bastore", .none, some 3, some 0, .arrayStore .byte⟩,
  ⟨"castore", .none, some 3, some 0, .arrayStore .char⟩,
  ⟨"sastore", .none, some 3, some 0, .arrayStore .short⟩,
  ⟨"pop", .none, some 1, some 0, .stack .pop⟩,
  ⟨"pop2", .none, some 2, some 0, .stack .pop2⟩,
  ⟨"dup", .none, some 1, some 2, .stack .dup⟩,
  ⟨"dup_x1", .none, some 2, some 3, .stack .dupX1⟩,
  ⟨"dup_x2", .none, some 3, some 4, .stack .dupX2⟩,
  ⟨"dup2", .none, some 2, some 4, .stack .dup2⟩,
  ⟨"dup2_x1", .none, some 3, some 5, .stack .dup2X1⟩,
  ⟨"dup2_x2", .none, some 4, some 6, .stack .dup2X2⟩,
  ⟨"swap", .none, some 2, some 2, .stack .swap⟩,
  ⟨"iadd", .none, some 2, some 1, .arith .int (some .int) .int⟩,
  ⟨"ladd", .none, some 4, some 2, .arith .long (some .long) .long⟩,
  ⟨"fadd", .none, some 2, some 1, .arith .float (some .float) .float⟩,
  ⟨"dadd", .none, some 4, some 2, .arith .double (some .double) .double⟩,
  ⟨"isub", .none, some 2, some 1, .arith .int (some .int) .int⟩,
  ⟨"lsub", .none, some 4, some 2, .arith .long (some .long) .long⟩,
  ⟨"fsub", .none, some 2, some 1, .arith .float (some .float) .float⟩,
  ⟨"dsub", .none, some 4, some 2, .arith .double (some .double) .double⟩,
  ⟨"imul", .none, some 2, some 1, .arith .int (some .int) .int⟩,
  ⟨"lmul", .none, some 4, some 2, .arith .long (some .long) .long⟩,
  ⟨"fmul", .none, some 2, some 1, .arith .float (some .float) .float⟩,
  ⟨"dmul", .none, some 4, some 2, .arith .double (some .double) .double⟩,
  ⟨"idiv", .none, some 2, some 1, .arith .int (some .int) .int⟩,
  ⟨"ldiv", .none, some 4, some 2, .arith .long (some .long) .long⟩,
  ⟨"fdiv", .none, some 2, some 1, .arith .float (some .float) .float⟩,
  ⟨"ddiv", .none, some 4, some 2, .arith .double (some .double) .double⟩,
  ⟨"irem", .none, some 2, some 1, .arith .int (some .int) .int⟩,
  ⟨"lrem", .none, some 4, some 2, .arith .long (some .long) .long⟩,
  ⟨"frem", .none, some 2, some 1, .arith .float (some .float) .float⟩,
  ⟨"drem", .none, some 4, some 2, .arith .double (some .double) .double⟩,
  ⟨"ineg", .none, some 1, some 1, .arith .int none .int⟩,
  ⟨"lneg", .none, some 2, some 2, .arith .long none .long⟩,
  ⟨"fneg", .none, some 1, some 1, .arith .float none .float⟩,
  ⟨"dneg", .none, some 2, some 2, .arith .double none .double⟩,
  ⟨"ishl", .none, some 2, some 1, .arith .int (some .int) .int⟩,
  ⟨"lshl", .none, some 3, some 2, .arith .int (some .long) .long⟩,
  ⟨"ishr", .none, some 2, some 1, .arith .int (some .int) .int⟩,
  ⟨"lshr", .none, some 3, some 2, .arith .int (some .long) .long⟩,
  ⟨"iushr", .none, some 2, some 1, .arith .int (some .int) .int⟩,
  ⟨"lushr", .none, some 3, some 2, .arith .int (some .long) .long⟩,
  ⟨"iand", .none, some 2, some 1, .arith .int (some .int) .int⟩,
  ⟨"land", .none, some 4, some 2, .arith .long (some .long) .long⟩,
  ⟨"ior", .none, some 2, some 1, .arith .int (some .int) .int⟩,
  ⟨"lor", .none, some 4, some 2, .arith .long (some .long) .long⟩,
  ⟨"ixor", .none, some 2, some 1, .arith .int (some .int) .int⟩,
  ⟨"lxor", .none, some 4, some 2, .arith .long (some .long) .long⟩,
  ⟨"iinc", .iinc, some 0, some 0, .iinc⟩,
  ⟨"i2l", .none, some 1, some 2, .arith .int none .long⟩,
  ⟨"i2f", .none, some 1, some 1, .arith .int none .float⟩,
  ⟨"i2d", .none, some 1, some 2, .arith .int none .double⟩,
  ⟨"l2i", .none, some 2, some 1, .arith .long none .int⟩,
  ⟨"l2f", .none, some 2, some 1, .arith .long none .float⟩,
  ⟨"l2d", .none, some 2, some 2, .arith .long none .double⟩,
  ⟨"f2i", .none, some 1, some 1, .arith .float none .int⟩,
  ⟨"f2l", .none, some 1, some 2, .arith .float none .long⟩,
  ⟨"f2d", .none, some 1, some 2, .arith .float none .double⟩,
  ⟨"d2i", .none, some 2, some 1, .arith .double none .int⟩,
  ⟨"d2l", .none, some 2, some 2, .arith .double none .long⟩,
  ⟨"d2f", .none, some 2, some 1, .arith .double none .float⟩,
  ⟨"i2b", .none, some 1, some 1, .arith .int none .int⟩,
  ⟨"i2c", .none, some 1, some 1, .arith .int none .int⟩,
  ⟨"i2s", .none, some 1, some 1, .arith .int none .int⟩,
  ⟨"lcmp", .none, some 4, some 1, .arith .long (some .long) .int⟩,
  ⟨"fcmpl", .none, some 2, some 1, .arith .float (some .float) .int⟩,
  ⟨"fcmpg", .none, some 2, some 1, .arith .float (some .float) .int⟩,
  ⟨"dcmpl", .none, some 4, some 1, .arith .double (some .double) .int⟩,
  ⟨"dcmpg", .none, some 4, some 1, .arith .double (some .double) .int⟩,
  ⟨"ifeq", .branch, some 1, some 0, .branch .intZero⟩,
  ⟨"ifne", .branch, some 1, some 0, .branch .intZero⟩,
  ⟨"iflt", .branch, some 1, some 0, .branch .intZero⟩,
  ⟨"ifge", .branch, some 1, some 0, .branch .intZero⟩,
  ⟨"ifgt", .branch, some 1, some 0, .branch .intZero⟩,
  ⟨"ifle", .branch, some 1, some 0, .branch .intZero⟩,
  ⟨"if_icmpeq", .branch, some 2, some 0, .branch .intPair⟩,
  ⟨"if_icmpne", .branch, some 2, some 0, .branch .intPair⟩,
  ⟨"if_icmplt", .branch, some 2, some 0, .branch .intPair⟩,
  ⟨"if_icmpge", .branch, some 2, some 0, .branch .intPair⟩,
  ⟨"if_icmpgt", .branch, some 2, some 0, .branch .intPair⟩,
  ⟨"if_icmple", .branch, some 2, some 0, .branch .intPair⟩,
  ⟨"if_acmpeq", .branch, some 2, some 0, .branch .refPair⟩,
  ⟨"if_acmpne", .branch, some 2, some 0, .branch .refPair⟩,
  ⟨"goto", .branch, some 0, some 0, .goto⟩,
  ⟨"jsr", .branch, some 0, some 1, .jsr⟩,
  ⟨"ret", .slot, some 0, some 0, .ret⟩,
  ⟨"tableswitch", .tableSwitch, some 1, some 0, .switch⟩,
  ⟨"lookupswitch", .lookupSwitch, some 1, some 0, .switch⟩,
  ⟨"ireturn", .none, some 1, some 0, .leave (some (.numeric .int))⟩,
  ⟨"lreturn", .none, some 2, some 0, .leave (some (.numeric .long))⟩,
  ⟨"freturn", .none, some 1, some 0, .leave (some (.numeric .float))⟩,
  ⟨"dreturn", .none, some 2, some 0, .leave (some (.numeric .double))⟩,
  ⟨"areturn", .none, some 1, some 0, .leave (some .reference)⟩,
  ⟨"return", .none, some 0, some 0, .leave none⟩,
  ⟨"getstatic", .const16, some 0, none, .field .getStatic⟩,
  ⟨"putstatic", .const16, none, some 0, .field .putStatic⟩,
  ⟨"getfield", .const16, some 1, none, .field .get⟩,
  ⟨"putfield", .const16, none, some 0, .field .put⟩,
  ⟨"invokevirtual", .const16, none, none, .invoke .ofVirtual⟩,
  ⟨"invokespecial", .const16, none, none, .invoke .ofSpecial⟩,
  ⟨"invokestatic", .const16, none, none, .invoke .ofStatic⟩,
  ⟨"invokeinterface", .invokeInterface, none, none, .invoke .ofInterface⟩,
  ⟨"invokedynamic", .invokeDynamic, none, none, .invoke .ofDynamic⟩,
  ⟨"new", .const16, some 0, some 1, .allocate⟩,
  ⟨"newarray", .newArray, some 1, some 1, .newArray⟩,
  ⟨"anewarray", .const16, some 1, some 1, .newRefArray⟩,
  ⟨"arraylength", .none, some 1, some 1, .arrayLength⟩,
  ⟨"athrow", .none, some 1, some 0, .raise⟩,
  ⟨"checkcast", .const16, some 1, some 1, .checkCast⟩,
  ⟨"instanceof", .const16, some 1, some 1, .instanceOf⟩,
  ⟨"monitorenter", .none, some 1, some 0, .monitor⟩,
  ⟨"monitorexit", .none, some 1, some 0, .monitor⟩,
  ⟨"wide", .wide, some 0, some 0, .wide⟩,
  ⟨"multianewarray", .multiNewArray, none, some 1, .newMultiArray⟩,
  ⟨"ifnull", .branch, some 1, some 0, .branch .refNull⟩,
  ⟨"ifnonnull", .branch, some 1, some 0, .branch .refNull⟩,
  ⟨"goto_w", .branchWide, some 0, some 0, .goto⟩,
  ⟨"jsr_w", .branchWide, some 0, some 1, .jsr⟩]

set_option maxRecDepth 2000 in
theorem opcodeTable_size : opcodeTable.size = 202 := rfl

structure Opcode where
  index : Fin 202
  deriving DecidableEq, Repr

namespace Opcode

def info (op : Opcode) : OpcodeInfo :=
  opcodeTable[op.index.cast opcodeTable_size.symm]

def name (op : Opcode) : String :=
  op.info.name

def format (op : Opcode) : Format :=
  op.info.format

def action (op : Opcode) : Action :=
  op.info.action

def byte (op : Opcode) : UInt8 :=
  op.index.val.toUInt8

def ofByte? (b : UInt8) : Option Opcode :=
  if h : b.toNat < 202 then some ⟨⟨b.toNat, h⟩⟩ else none

/-- The mnemonic of a byte; one that encodes no opcode is shown by its number. -/
def byteName (b : UInt8) : String :=
  match ofByte? b with
  | some op => op.name
  | none => "UNKNOWN_" ++ (Text.hexByte b).map Char.toUpper

def ofName? (name : String) : Option Opcode :=
  (opcodeTable.findFinIdx? (·.name == name)).map fun i => ⟨i.cast opcodeTable_size⟩

def all : List Opcode :=
  (List.finRange 202).map Opcode.mk

def nop : Opcode := ⟨0x00⟩
def bipush : Opcode := ⟨0x10⟩
def sipush : Opcode := ⟨0x11⟩
def ldc : Opcode := ⟨0x12⟩
def ldcW : Opcode := ⟨0x13⟩
def iinc : Opcode := ⟨0x84⟩
def tableswitch : Opcode := ⟨0xaa⟩
def lookupswitch : Opcode := ⟨0xab⟩
def invokeinterface : Opcode := ⟨0xb9⟩
def invokedynamic : Opcode := ⟨0xba⟩
def newarray : Opcode := ⟨0xbc⟩
def wide : Opcode := ⟨0xc4⟩
def multianewarray : Opcode := ⟨0xc5⟩

/-! ### Families -/

def isReturn (op : Opcode) : Bool :=
  match op.action with
  | .leave _ => true
  | _ => false

def isJsr (op : Opcode) : Bool :=
  op.action = .jsr

def isRet (op : Opcode) : Bool :=
  op.action = .ret

def isGoto (op : Opcode) : Bool :=
  op.action = .goto

def isConditional (op : Opcode) : Bool :=
  match op.action with
  | .branch _ => true
  | _ => false

def isSwitch (op : Opcode) : Bool :=
  op.action = .switch

def isInvoke (op : Opcode) : Bool :=
  match op.action with
  | .invoke _ => true
  | _ => false

def isLocalLoad (op : Opcode) : Bool :=
  match op.action with
  | .load _ _ => true
  | _ => false

def isLocalStore (op : Opcode) : Bool :=
  match op.action with
  | .store _ _ => true
  | _ => false

def endsFlow (op : Opcode) : Bool :=
  match op.action with
  | .leave _ | .goto | .switch | .raise | .ret => true
  | _ => false

def impliedSlot? (op : Opcode) : Option Nat :=
  match op.action with
  | .load _ slot => slot
  | .store _ slot => slot
  | _ => none

end Opcode

/-- The descriptor of the element type with a code, as array creation names it. -/
def elementDescriptor? (code : UInt8) : Option String :=
  match code.toNat with
  | 4 => some "Z"
  | 5 => some "C"
  | 6 => some "F"
  | 7 => some "D"
  | 8 => some "B"
  | 9 => some "S"
  | 10 => some "I"
  | 11 => some "J"
  | _ => none

def elementCodes : List (String × UInt8) :=
  [("boolean", 4), ("char", 5), ("float", 6), ("double", 7), ("byte", 8), ("short", 9),
   ("int", 10), ("long", 11)]

/-- The descriptor of an element code, empty for a code without a type. -/
def elementDescriptor (code : UInt8) : String :=
  (elementDescriptor? code).getD ""

end Bytecode
