/-!
# Byte strings

The strings of scripts are sequences of bytes, compared byte by byte.
-/

set_option autoImplicit false

namespace ScriptHost

-- this goes before other ways to decide equality, so that it is the same on all types that hold byte
-- strings
instance (priority := 2000) bytesDecidableEq : DecidableEq ByteArray := ByteArray.instDecidableEq

def beforeZero (s : ByteArray) : ByteArray := (s.toList.takeWhile (· != 0)).toByteArray

end ScriptHost
