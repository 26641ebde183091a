import Bytecode.CodeBuilder
import Bytecode.Descriptor
import Bytecode.Text.Blank

/-!
Why assembly text cannot be assembled: causes with their wording, and `SyntaxError`, a cause with
the line it is reported at.
-/
namespace Bytecode.Assembly

inductive Cause where
  | unterminatedString
  | labelTwice (label : String)
  | unknownInstruction (name : String)
  | operandCount (op : Opcode) (wanted got : Nat)
  | integer (text : String)
  | callSite (text : String)
  | elementType (text : String)
  | explicitWide
  | noDescriptor (text : String)
  | methodReference (text : String)
  | fieldReference (text : String)
  | noOperand (op : Opcode)
  | takesField (op : Opcode)
  | takesMethod (op : Opcode)
  | takesClass (op : Opcode)
  | takesOne (op : Opcode) (word : String)
  | takesLiteral (op : Opcode)
  | stringLiteral (text : String)
  | longNeedsWide (text : String)
  | longLiteral (text : String)
  | floatNeedsNarrow (text : String)
  | floatLiteral (text : String)
  | doubleNeedsWide (text : String)
  | doubleLiteral (text : String)
  | wideNeedsSuffix (text : String)
  | intLiteral (text : String)
  | tableSwitchForm
  | lookupSwitchForm
  | switchPair (text : String)
  | interfaceForm
  | interfaceCount
  | descriptor (error : DescriptorError)
  | builder (error : BuilderError)
  | noInstructions
  | undefinedLabel (label : String)
  deriving DecidableEq, Repr

open Text (quote)

def Cause.message : Cause → String
  | .unterminatedString => "unterminated string"
  | .labelTwice label => "label " ++ quote label ++ " defined twice"
  | .unknownInstruction name => "unknown instruction " ++ quote name
  | .operandCount op wanted got => op.name ++ s!" takes {wanted} operand(s), got {got}"
  | .integer text => "bad integer " ++ quote text
  | .callSite text => "call site " ++ quote text ++ " is not name(Args)Ret"
  | .elementType text => "unknown array element type " ++ quote text
  | .explicitWide => "wide is added automatically when an operand needs it"
  | .noDescriptor text => "method reference " ++ quote text ++ " has no descriptor"
  | .methodReference text => "method reference " ++ quote text ++ " is not Owner.name(Args)Ret"
  | .fieldReference text => "field reference " ++ quote text ++ " is not Owner.name"
  | .noOperand op => op.name ++ " needs an operand"
  | .takesField op => op.name ++ " takes Owner.name Descriptor"
  | .takesMethod op => op.name ++ " takes Owner.name(Args)Ret"
  | .takesClass op => op.name ++ " takes a class name"
  | .takesOne op word => op.name ++ " " ++ word ++ " takes one operand"
  | .takesLiteral op => op.name ++ " takes one literal"
  | .stringLiteral text => "bad string literal " ++ text
  | .longNeedsWide text => "long literal " ++ text ++ " needs ldc2_w"
  | .longLiteral text => "bad long literal " ++ quote text
  | .floatNeedsNarrow text => "float literal " ++ text ++ " needs ldc"
  | .floatLiteral text => "bad float literal " ++ quote text
  | .doubleNeedsWide text => "double literal " ++ text ++ " needs ldc2_w"
  | .doubleLiteral text => "bad double literal " ++ quote text
  | .wideNeedsSuffix text => "ldc2_w literal " ++ text ++ " needs an L or d suffix"
  | .intLiteral text => "bad int literal " ++ quote text
  | .tableSwitchForm => "tableswitch takes low default Ldef L0 ..."
  | .lookupSwitchForm => "lookupswitch takes default Ldef k:L ..."
  | .switchPair text => "lookupswitch pair " ++ quote text ++ " is not key:label"
  | .interfaceForm => "invokeinterface takes Owner.name(Args)Ret [count]"
  | .interfaceCount => "invokeinterface through a raw pool index needs an explicit count"
  | .descriptor error => error.message
  | .builder error => error.message
  | .noInstructions => "no instructions"
  | .undefinedLabel label => "undefined label " ++ quote label

structure SyntaxError where
  line : Nat
  text : String
  cause : Cause
  deriving DecidableEq, Repr

def SyntaxError.message (e : SyntaxError) : String :=
  s!"line {e.line}: " ++ e.cause.message ++ " (in " ++ quote (Text.trim e.text) ++ ")"

end Bytecode.Assembly
