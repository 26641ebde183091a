import Bytecode.ClassTable

/-!
The core classes that class sets usually refer to. Their methods have no code: those that are not
abstract are native.
-/
namespace Bytecode

namespace CoreClasses

def pub : AccessFlags := .publicBit
def pubStatic : AccessFlags := .publicBit ∪ .staticBit
def pubFinal : AccessFlags := .publicBit ∪ .finalBit
def pubAbstract : AccessFlags := .publicBit ∪ .abstractBit
def pubConst : AccessFlags := .publicBit ∪ .staticBit ∪ .finalBit
def iface : AccessFlags := .publicBit ∪ .interfaceBit ∪ .abstractBit
def plain : AccessFlags := .publicBit ∪ .synchronizedBit

def member (name descriptor : String) (access : AccessFlags) : Method :=
  { name, descriptor, access := if access.has .abstractBit then access else access ∪ .nativeBit }

def throwable (name super : String) : Class :=
  { name, super := some super, access := plain
    methods := [
      member "<init>" "()V" pub,
      member "<init>" "(Ljava/lang/String;)V" pub] }

def all : List Class :=
  [{ name := objectClass, super := none, access := plain
     methods := [
       member "<init>" "()V" pub,
       member "hashCode" "()I" pub,
       member "equals" "(Ljava/lang/Object;)Z" pub,
       member "toString" "()Ljava/lang/String;" pub,
       member "getClass" "()Ljava/lang/Class;" pubFinal,
       member "clone" "()Ljava/lang/Object;" .protectedBit,
       member "finalize" "()V" .protectedBit,
       member "notify" "()V" pubFinal,
       member "wait" "()V" pubFinal] },
   { name := "java/io/Serializable", super := some objectClass, access := iface },
   { name := "java/lang/Cloneable", super := some objectClass, access := iface },
   { name := "java/lang/Comparable", super := some objectClass, access := iface
     methods := [
       member "compareTo" "(Ljava/lang/Object;)I" pubAbstract] },
   { name := "java/lang/CharSequence", super := some objectClass, access := iface
     methods := [
       member "length" "()I" pubAbstract,
       member "charAt" "(I)C" pubAbstract] },
   { name := "java/lang/Runnable", super := some objectClass, access := iface
     methods := [
       member "run" "()V" pubAbstract] },
   { name := stringClass, super := some objectClass, access := plain ∪ .finalBit
     interfaces := ["java/io/Serializable", "java/lang/Comparable", "java/lang/CharSequence"]
     methods := [
       member "<init>" "()V" pub,
       member "<init>" "([C)V" pub,
       member "length" "()I" pub,
       member "charAt" "(I)C" pub,
       member "isEmpty" "()Z" pub,
       member "concat" "(Ljava/lang/String;)Ljava/lang/String;" pub,
       member "equals" "(Ljava/lang/Object;)Z" pub,
       member "compareTo" "(Ljava/lang/Object;)I" pub,
       member "valueOf" "(I)Ljava/lang/String;" pubStatic,
       member "valueOf" "(Ljava/lang/Object;)Ljava/lang/String;" pubStatic] },
   { name := classClass, super := some objectClass, access := plain ∪ .finalBit
     interfaces := ["java/io/Serializable"]
     methods := [
       member "getName" "()Ljava/lang/String;" pub,
       member "isInstance" "(Ljava/lang/Object;)Z" pub] },
   { name := throwableClass, super := some objectClass, access := plain
     interfaces := ["java/io/Serializable"]
     methods := [
       member "<init>" "()V" pub,
       member "<init>" "(Ljava/lang/String;)V" pub,
       member "getMessage" "()Ljava/lang/String;" pub,
       member "printStackTrace" "()V" pub] },
   throwable "java/lang/Exception" throwableClass,
   throwable "java/lang/Error" throwableClass,
   throwable "java/lang/RuntimeException" "java/lang/Exception",
   throwable "java/lang/NullPointerException" "java/lang/RuntimeException",
   throwable "java/lang/IllegalArgumentException" "java/lang/RuntimeException",
   throwable "java/lang/IllegalStateException" "java/lang/RuntimeException",
   throwable "java/lang/ArithmeticException" "java/lang/RuntimeException",
   throwable "java/lang/ClassCastException" "java/lang/RuntimeException",
   throwable "java/io/IOException" "java/lang/Exception",
   { name := "java/lang/Number", super := some objectClass, access := plain ∪ .abstractBit
     interfaces := ["java/io/Serializable"]
     methods := [
       member "<init>" "()V" pub,
       member "intValue" "()I" pubAbstract,
       member "longValue" "()J" pubAbstract,
       member "doubleValue" "()D" pubAbstract] },
   { name := "java/lang/Integer", super := some "java/lang/Number", access := plain ∪ .finalBit
     interfaces := ["java/lang/Comparable"]
     fields := [
       ⟨"MAX_VALUE", "I", pubConst⟩,
       ⟨"MIN_VALUE", "I", pubConst⟩]
     methods := [
       member "<init>" "(I)V" pub,
       member "valueOf" "(I)Ljava/lang/Integer;" pubStatic,
       member "parseInt" "(Ljava/lang/String;)I" pubStatic,
       member "intValue" "()I" pub,
       member "longValue" "()J" pub,
       member "doubleValue" "()D" pub,
       member "compareTo" "(Ljava/lang/Object;)I" pub] },
   { name := "java/lang/Long", super := some "java/lang/Number", access := plain ∪ .finalBit
     interfaces := ["java/lang/Comparable"]
     methods := [
       member "valueOf" "(J)Ljava/lang/Long;" pubStatic,
       member "intValue" "()I" pub,
       member "longValue" "()J" pub,
       member "doubleValue" "()D" pub,
       member "compareTo" "(Ljava/lang/Object;)I" pub] },
   { name := "java/lang/Math", super := some objectClass, access := plain ∪ .finalBit
     methods := [
       member "max" "(II)I" pubStatic,
       member "abs" "(J)J" pubStatic,
       member "sqrt" "(D)D" pubStatic] },
   { name := "java/io/PrintStream", super := some objectClass, access := plain
     methods := [
       member "println" "()V" pub,
       member "println" "(I)V" pub,
       member "println" "(J)V" pub,
       member "println" "(D)V" pub,
       member "println" "(Ljava/lang/String;)V" pub,
       member "println" "(Ljava/lang/Object;)V" pub,
       member "print" "(Ljava/lang/String;)V" pub] },
   { name := "java/lang/System", super := some objectClass, access := plain ∪ .finalBit
     fields := [
       ⟨"out", "Ljava/io/PrintStream;", pubConst⟩,
       ⟨"err", "Ljava/io/PrintStream;", pubConst⟩]
     methods := [
       member "currentTimeMillis" "()J" pubStatic,
       member "arraycopy" "(Ljava/lang/Object;ILjava/lang/Object;II)V" pubStatic,
       member "identityHashCode" "(Ljava/lang/Object;)I" pubStatic] },
   { name := "java/lang/StringBuilder", super := some objectClass, access := plain ∪ .finalBit
     interfaces := ["java/io/Serializable", "java/lang/CharSequence"]
     methods := [
       member "<init>" "()V" pub,
       member "<init>" "(Ljava/lang/String;)V" pub,
       member "append" "(Ljava/lang/String;)Ljava/lang/StringBuilder;" pub,
       member "append" "(I)Ljava/lang/StringBuilder;" pub,
       member "append" "(J)Ljava/lang/StringBuilder;" pub,
       member "append" "(Ljava/lang/Object;)Ljava/lang/StringBuilder;" pub,
       member "length" "()I" pub,
       member "charAt" "(I)C" pub,
       member "toString" "()Ljava/lang/String;" pub] },
   { name := methodHandleClass, super := some objectClass, access := plain ∪ .abstractBit
     methods := [
       member "invoke" "([Ljava/lang/Object;)Ljava/lang/Object;" pub,
       member "type" "()Ljava/lang/invoke/MethodType;" pub] },
   { name := methodTypeClass, super := some objectClass, access := plain ∪ .finalBit
     interfaces := ["java/io/Serializable"]
     methods := [
       member "parameterCount" "()I" pub] }]

end CoreClasses

def ClassTable.core : ClassTable :=
  ⟨CoreClasses.all⟩

end Bytecode
