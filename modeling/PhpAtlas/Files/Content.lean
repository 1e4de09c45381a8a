/-! # Contents of files

A file is a text when its bytes are UTF-8. Sources have a limit on their size,
since huge ones are generated and declare nothing of interest.
-/

namespace PhpAtlas

/-- The size of the largest source that is read, in bytes. -/
def maxSourceBytes : Nat := 8 * 1024 * 1024

def textOfBytes? (bytes : ByteArray) : Option String := String.fromUTF8? bytes

def sourceOfBytes? (bytes : ByteArray) : Option String :=
  if bytes.size ≤ maxSourceBytes then textOfBytes? bytes else none

end PhpAtlas
