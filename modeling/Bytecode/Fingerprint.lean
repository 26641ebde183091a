import Bytecode.Sha256
import Bytecode.Verdict

/-!
Fingerprints of what a verdict depends on. Each is the digest of a byte string: the version of the
layout, a letter for the kind of what follows, and the parts. Integers have a fixed width and
are big-endian; a string or list comes after its length in four bytes.

* `methodRecord`: what a method reads of its own class;
* `hierarchyRecord`: what every class shows to the others;
* `keyRecord`: the digests of the two, and the options;
* `verdictKey`: the key of a verdict, in hexadecimal.
-/
namespace Bytecode.Fingerprint

def layoutVersion : UInt8 := 1

/-! ### Parts -/

def octets (bytes : List UInt8) : List UInt8 :=
  bigEndian 4 bytes.length ++ bytes

def string (s : String) : List UInt8 :=
  octets s.toUTF8.toList

def list {α : Type} (record : α → List UInt8) (items : List α) : List UInt8 :=
  bigEndian 4 items.length ++ items.flatMap record

def integer (n : Int) : List UInt8 :=
  bigEndianInt 8 n

def access (a : AccessFlags) : List UInt8 :=
  bigEndian 2 a.bits.toNat

/-- A pool index: the kind of its entry, or 0, and what the entry holds. -/
def slot : Option Constant → List UInt8
  | none => [0]
  | some c => c.tag.code ::
    match c with
    | .utf8 text => octets text.bytes
    | .integer value => integer value.toInt
    | .float bits => bigEndian 4 bits.toNat
    | .long value => integer value.toInt
    | .double bits => bigEndian 8 bits.toNat
    | c => integer c.references.1 ++ integer c.references.2

/-- What every class contributes to assignability. -/
def header (c : Class) : List UInt8 :=
  string c.name ++ string c.superName ++ list string c.interfaces ++ access c.access

def signature (name descriptor : String) (flags : AccessFlags) : List UInt8 :=
  string name ++ string descriptor ++ access flags

def handler (h : Handler) : List UInt8 :=
  integer h.start ++ integer h.stop ++ integer h.target ++ integer h.catchIndex

/-! ### Records -/

def record (kind : Char) (parts : List UInt8) : List UInt8 :=
  layoutVersion :: kind.toUInt8 :: parts

/-- Everything that verifying a method reads of its own class. -/
def methodRecord (c : Class) (m : Method) : List UInt8 :=
  record 'M' (header c ++ list slot c.pool.slots.toList ++
    signature m.name m.descriptor m.access ++ integer m.maxStack ++ integer m.maxLocals ++
    octets m.code ++ list handler m.handlers)

/-- A class as the others see it: code is left out. -/
def classRecord (c : Class) : List UInt8 :=
  header c ++
    list (fun f : Field => signature f.name f.descriptor f.access) c.fields ++
    list (fun m : Method => signature m.name m.descriptor m.access) c.methods

def hierarchyRecord (t : ClassTable) : List UInt8 :=
  record 'H' (list classRecord t.sorted)

/-- The digests of a method and of a hierarchy, and the options that can change a verdict. -/
def keyRecord (method hierarchy : List UInt8) (options : VerifyOptions) : List UInt8 :=
  record 'K' (method ++ hierarchy ++ (if options.strict then 1 else 0) ::
    integer options.traceLimit)

/-! ### Digests -/

def method (c : Class) (m : Method) : List UInt8 :=
  Sha256.digest (methodRecord c m)

def hierarchy (t : ClassTable) : List UInt8 :=
  Sha256.digest (hierarchyRecord t)

def text (digest : List UInt8) : String :=
  String.join (digest.map Text.hexByte)

def verdictKey (method hierarchy : List UInt8) (options : VerifyOptions) : String :=
  text (Sha256.digest (keyRecord method hierarchy options))

end Bytecode.Fingerprint
