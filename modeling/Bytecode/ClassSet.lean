import Bytecode.ClassDef
import Bytecode.CoreClasses
import Bytecode.Yaml.Decode

/-!
Class sets: the classes that YAML documents declare, on top of the core classes.

* `ClassSet.add`: the set with the classes of one more document;
* `ClassSetError.message`: the wording of what can go wrong.
-/
namespace Bytecode

open Yaml (Node Reading RecordField)

/-! ### Declarations in YAML -/

def Yaml.Node.asNames : Node → Reading (List String) :=
  Node.asList "string" Node.asText

def FieldDef.ofNode : Node → Reading FieldDef :=
  Node.asRecord "fixture.FieldDef" [
    .of "name" Node.asText fun d name => { d with name },
    .of "desc" Node.asText fun d desc => { d with desc },
    .of "flags" Node.asNames fun d flags => { d with flags }] {}

def HandlerDef.ofNode : Node → Reading HandlerDef :=
  Node.asRecord "fixture.HandlerDef" [
    .of "start" Node.asText fun d start => { d with start },
    .of "end" Node.asText fun d stop => { d with stop },
    .of "handler" Node.asText fun d handler => { d with handler },
    .of "type" Node.asText fun d type => { d with type }] {}

/-- The code of a method. Only a scalar holds code. -/
def CodeDef.ofNode (n : Node) : Reading CodeDef :=
  match n with
  | .scalar line style text =>
    .ok { text, line, block := style = .literal || style = .folded }
  | n => .ok { line := n.line }

def MethodDef.ofNode : Node → Reading MethodDef :=
  Node.asRecord "fixture.MethodDef" [
    .of "name" Node.asText fun d name => { d with name },
    .of "desc" Node.asText fun d desc => { d with desc },
    .of "flags" Node.asNames fun d flags => { d with flags },
    .of "max_stack" Node.asInteger fun d maxStack => { d with maxStack },
    .of "max_locals" Node.asInteger fun d maxLocals => { d with maxLocals },
    .of "code" CodeDef.ofNode fun d code => { d with code },
    .of "handlers" (Node.asList "fixture.HandlerDef" HandlerDef.ofNode)
      fun d handlers => { d with handlers },
    .of "expect" Node.asText fun d expect => { d with expect }] {}

def ClassDef.ofNode : Node → Reading ClassDef :=
  Node.asRecord "fixture.ClassDef" [
    .of "name" Node.asText fun d name => { d with name },
    .of "super" Node.asText fun d super => { d with super },
    .of "interfaces" Node.asNames fun d interfaces => { d with interfaces },
    .of "flags" Node.asNames fun d flags => { d with flags },
    .of "fields" (Node.asList "fixture.FieldDef" FieldDef.ofNode)
      fun d fields => { d with fields },
    .of "methods" (Node.asList "fixture.MethodDef" MethodDef.ofNode)
      fun d methods => { d with methods }] {}

def ClassDef.listOfNode : Node → Reading (List ClassDef) :=
  Node.asRecord "fixture.File" [
    .of "classes" (Node.asList "fixture.ClassDef" ClassDef.ofNode) fun _ defs => defs] []

/-! ### Errors -/

inductive ClassSetError where
  | notYaml
  | faults (faults : List Yaml.Fault)
  | definedTwice (name : String)
  | definition (error : ClassDefError)
  deriving DecidableEq, Repr

/-- The wording of an error in a document of a name. What is no YAML has none here. -/
def ClassSetError.message (source : String) (e : ClassSetError) : Utf8Text :=
  let text (s : String) : List UInt8 := s.toUTF8.toList
  .ofBytes (text (source ++ ": ") ++ match e with
    | .notYaml => text "yaml: syntax error"
    | .faults list =>
      text "yaml: unmarshal errors:" ++ list.flatMap fun f => text "\n  " ++ f.message
    | .definedTwice name => text ("class " ++ name ++ " defined twice")
    | .definition error => text error.message)

/-! ### Sets -/

/-- The classes of documents, in order, with a table that also holds the core classes, and the
verdicts expected of their methods. -/
structure ClassSet where
  table : ClassTable := .core
  classes : List Class := []
  expected : List (String × String) := []

namespace ClassSet

def key (c : Class) (m : Method) : String :=
  c.name ++ "." ++ m.text

def expected? (s : ClassSet) (key : String) : Option String :=
  s.expected.lookup key

/-- The verdicts that a declaration expects of the methods of its class, the last one first. -/
def expectations (c : Class) (d : ClassDef) : List (String × String) :=
  ((c.methods.zip d.methods).filterMap fun (m, decl) =>
    if decl.expect = "" then none else some (key c m, decl.expect)).reverse

def addClass (s : ClassSet) (d : ClassDef) : Except ClassSetError ClassSet := do
  if s.classes.any (·.name == d.name) then .error (.definedTwice d.name)
  let c ← d.build.mapError .definition
  return {
    table := s.table.register c
    classes := s.classes ++ [c]
    expected := expectations c d ++ s.expected }

def declarations (text : String) : Except ClassSetError (List ClassDef) :=
  match Node.parse? text with
  | none => .error .notYaml
  | some none => .ok []
  | some (some n) =>
    let r := ClassDef.listOfNode n
    if r.faults.isEmpty then .ok (r.value.getD []) else .error (.faults r.faults)

def add (s : ClassSet) (text : String) : Except ClassSetError ClassSet := do
  (← declarations text).foldlM addClass s

end ClassSet

end Bytecode
