import Bytecode.Text.Quoted

/-!
Access flags of classes, fields and methods: a set of bits in sixteen, eleven of which have names.
-/
namespace Bytecode

structure AccessFlags where
  bits : UInt16
  deriving DecidableEq, Repr, Inhabited

namespace AccessFlags

def empty : AccessFlags := ⟨0⟩

def publicBit : AccessFlags := ⟨0x0001⟩
def privateBit : AccessFlags := ⟨0x0002⟩
def protectedBit : AccessFlags := ⟨0x0004⟩
def staticBit : AccessFlags := ⟨0x0008⟩
def finalBit : AccessFlags := ⟨0x0010⟩
/-- Synchronized on methods; on classes the bit asks for the modern superclass call. -/
def synchronizedBit : AccessFlags := ⟨0x0020⟩
def volatileBit : AccessFlags := ⟨0x0040⟩
def transientBit : AccessFlags := ⟨0x0080⟩
def nativeBit : AccessFlags := ⟨0x0100⟩
def interfaceBit : AccessFlags := ⟨0x0200⟩
def abstractBit : AccessFlags := ⟨0x0400⟩

def union (a b : AccessFlags) : AccessFlags :=
  ⟨a.bits ||| b.bits⟩

instance : Union AccessFlags := ⟨union⟩

/-- Is every bit of `b` set in `a`? -/
def has (a b : AccessFlags) : Bool :=
  a.bits &&& b.bits == b.bits

def named : List (String × AccessFlags) :=
  [("public", publicBit), ("private", privateBit), ("protected", protectedBit),
   ("static", staticBit), ("final", finalBit), ("synchronized", synchronizedBit),
   ("volatile", volatileBit), ("transient", transientBit), ("native", nativeBit),
   ("interface", interfaceBit), ("abstract", abstractBit)]

def text (a : AccessFlags) : String :=
  " ".intercalate ((named.filter fun (_, bit) => a.has bit).map Prod.fst)

/-- The set that a list of names describes; the error is the first name that has no bit. -/
def ofNames (names : List String) : Except String AccessFlags :=
  names.foldlM (fun flags name =>
    match named.lookup name with
    | some bit => .ok (flags ∪ bit)
    | none => .error name) empty

def unknownName (name : String) : String :=
  "unknown access flag " ++ Text.quote name

def visibility (a : AccessFlags) : String :=
  if a.has publicBit then "public"
  else if a.has privateBit then "private"
  else if a.has protectedBit then "protected"
  else "package-private"

end AccessFlags

end Bytecode
