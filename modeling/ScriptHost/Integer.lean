/-!
# Integers of 64 bits

Which integers fit 64 bits with a sign.
-/

set_option autoImplicit false

namespace ScriptHost

def int64? (n : Int) : Option Int64 :=
  if Int64.minValue.toInt ≤ n ∧ n ≤ Int64.maxValue.toInt then some (Int64.ofInt n) else none

end ScriptHost
