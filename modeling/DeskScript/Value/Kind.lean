set_option autoImplicit false

/-!
# Kinds of script values

Every value of a script is of one of six kinds; messages name a kind by its word.
-/

namespace DeskScript

inductive Kind where
  | null | boolean | number | string | array | object
  deriving DecidableEq

def Kind.name : Kind → String
  | null => "null" | boolean => "boolean" | number => "number" | string => "string" | array => "array"
  | object => "object"

end DeskScript
