import Mathlib.Data.List.Basic

/-! What holds of the bytes of a string is checked on them, not on all 256 bytes. -/

namespace ByteString

variable (p : UInt8 → Prop) [DecidablePred p]

instance (priority := 2000) decidableForallMemList (s : List UInt8) : Decidable (∀ c ∈ s, p c) :=
  List.decidableBAll p s

instance (priority := 2000) decidableForallMemOption (s : Option UInt8) :
    Decidable (∀ c ∈ s, p c) :=
  Option.decidableForallMem s

end ByteString
