import PhpAtlas.Reflection.Basic

/-! # Native classes and functions

A table of classes, interfaces and functions that exist without a source.
-/

namespace PhpAtlas.Natives

def dynamic (names : List String) : List MethodInfo := names.map (⟨·, false⟩)

def static (names : List String) : List MethodInfo := names.map (⟨·, true⟩)

def throwableMethods : List MethodInfo :=
  dynamic ["getMessage", "getCode", "getPrevious", "getFile", "getLine", "getTrace",
    "getTraceAsString", "__toString"]

def dateMethods : List MethodInfo :=
  dynamic ["format", "modify", "setDate", "setTime", "setTimezone", "getTimestamp"] ++
    static ["createFromFormat"]

def interface (name : String) (interfaces : List String) (methods : List MethodInfo) : ClassInfo :=
  { name, builtin := true, form := .interface, interfaces, methods }

def plainClass (name : String) (parent : Option String) (interfaces : List String)
    (methods : List MethodInfo) : ClassInfo :=
  { name, builtin := true, parent, interfaces, methods }

def classes : List ClassInfo :=
  [interface "Throwable" ["Stringable"] throwableMethods,
    interface "Stringable" [] (dynamic ["__toString"]),
    interface "Traversable" [] [],
    interface "Iterator" ["Traversable"] (dynamic ["current", "key", "next", "rewind", "valid"]),
    interface "IteratorAggregate" ["Traversable"] (dynamic ["getIterator"]),
    interface "ArrayAccess" []
      (dynamic ["offsetExists", "offsetGet", "offsetSet", "offsetUnset"]),
    interface "Countable" [] (dynamic ["count"]),
    interface "JsonSerializable" [] (dynamic ["jsonSerialize"]),
    interface "DateTimeInterface" [] (dynamic ["format", "getTimestamp"]),
    plainClass "stdClass" none [] [],
    plainClass "Exception" none ["Throwable"] throwableMethods,
    plainClass "Error" none ["Throwable"] throwableMethods,
    plainClass "ErrorException" (some "Exception") [] (dynamic ["getSeverity"]),
    plainClass "LogicException" (some "Exception") [] [],
    plainClass "RuntimeException" (some "Exception") [] [],
    plainClass "InvalidArgumentException" (some "LogicException") [] [],
    plainClass "DomainException" (some "LogicException") [] [],
    plainClass "TypeError" (some "Error") [] [],
    plainClass "ArrayObject" none ["IteratorAggregate", "ArrayAccess", "Countable"]
      (dynamic ["getIterator", "offsetExists", "offsetGet", "offsetSet", "offsetUnset", "count",
        "getArrayCopy", "append"]),
    plainClass "ArrayIterator" none ["Iterator", "ArrayAccess", "Countable"]
      (dynamic ["current", "key", "next", "rewind", "valid", "count"]),
    plainClass "DateTime" none ["DateTimeInterface"] dateMethods,
    plainClass "DateTimeImmutable" none ["DateTimeInterface"] dateMethods,
    plainClass "Closure" none [] (dynamic ["call", "bindTo"] ++ static ["bind", "fromCallable"])]

def functions : List FunctionInfo :=
  ["array_filter", "array_key_exists", "array_keys", "array_map", "array_merge", "count",
    "explode", "implode", "in_array", "is_array", "is_null", "json_decode", "json_encode",
    "sprintf", "str_replace", "strlen", "strtolower", "substr"].map fun name => .of name none

end PhpAtlas.Natives
