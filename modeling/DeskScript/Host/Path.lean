import DeskScript.Text.Case
import DeskScript.Text.Search

set_option autoImplicit false

/-!
# Paths

Paths of scripts have a drive and either kind of slash: `c:\a\b` and `C:/a/b` are the same place.
-/

namespace DeskScript.Path

def driveUpper (part : String) : String :=
  match part.toList with
  | [_, ':'] => Text.upper part
  | _ => part

def parts (path : String) : List String :=
  let slashed := path.toList.map fun c => if c = '\\' then '/' else c
  let all := (Text.splitBy ['/'] (Text.trim slashed)).map String.ofList
  match all.filter fun p => p ≠ "" && p ≠ "." with
  | [] => []
  | first :: rest => driveUpper first :: rest

def normalize (path : String) : String := "/".intercalate (parts path)

def parent (path : String) : String :=
  String.ofList ((path.toList.reverse.dropWhile (· ≠ '/')).drop 1).reverse

end DeskScript.Path
