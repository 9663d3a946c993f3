import DeskScript.Number.Layout
import DeskScript.Text.Quoted

set_option autoImplicit false

/-!
# Faults

Failures that do not belong to the language: a collaborator that refuses or breaks down, and arithmetic that has no
answer. A fault inside a built-in function or a collaborator call becomes a script error with the fault's wording;
elsewhere it ends what was running.
-/

namespace DeskScript

inductive Fault where
  /-- A collaborator refuses a request. -/
  | refused (reason : String)
  /-- A collaborator breaks down. -/
  | broken (reason : String)
  | remainderUndefined
  | integerTooLarge
  | integerOfInfinity
  | integerOfNaN
  | notAnInteger (text : String)
  | tooManyDigits (count : Nat)
  | quotientUndefined
  | intervalZero
  /-- The interpreter's own stack has no room left. -/
  | stackExhausted
  | sumOverflow
  | opposedInfinities
  | countTooLarge
  | codePointRange
  | codePointTooLarge
  | notIndexable (kind : String)
  | missingKey (key : String)
  | yearOutOfRange (year : Int)
  | timeNotANumber
  | timeOutOfRange
  | timeTooLarge
  | repetitionTooLong
  | nullInPath
  | endOfInput
  | directoryRead (path : String)
  | nameTooLong (path : String)
  | listAsPath
  | listAsNumber
  deriving DecidableEq

namespace Fault

def message : Fault → String
  | refused reason => reason
  | broken reason => reason
  | remainderUndefined => "math domain error"
  | integerTooLarge => "int too large to convert to float"
  | integerOfInfinity => "cannot convert float infinity to integer"
  | integerOfNaN => "cannot convert float NaN to integer"
  | notAnInteger text => "invalid literal for int() with base 10: " ++ Text.quoted text
  | tooManyDigits count =>
    "Exceeds the limit (4300 digits) for integer string conversion: value has " ++ toString count ++
      " digits; use sys.set_int_max_str_digits() to increase the limit"
  | quotientUndefined => "float division by zero"
  | intervalZero => "integer modulo by zero"
  | stackExhausted => "maximum recursion depth exceeded"
  | sumOverflow => "intermediate overflow in fsum"
  | opposedInfinities => "-inf + inf in fsum"
  | countTooLarge => "cannot fit 'int' into an index-sized integer"
  | codePointRange => "chr() arg not in range(0x110000)"
  | codePointTooLarge => "Python int too large to convert to C int"
  | notIndexable kind => "'" ++ kind ++ "' object is not subscriptable"
  | missingKey key => key
  | yearOutOfRange year => "year " ++ Number.intText year ++ " is out of range"
  | timeNotANumber => "Invalid value NaN (not a number)"
  | timeOutOfRange => "timestamp out of range for platform time_t"
  | timeTooLarge => "[Errno 75] Value too large for defined data type"
  | repetitionTooLong => "repeated string is too long"
  | nullInPath => "embedded null byte"
  | endOfInput => "EOF when reading a line"
  | directoryRead path => "[Errno 21] Is a directory: " ++ Text.quoted path
  | nameTooLong path => "[Errno 36] File name too long: " ++ Text.quoted path
  | listAsPath => "expected str, bytes or os.PathLike object, not list"
  | listAsNumber => "float() argument must be a string or a real number, not 'list'"

end Fault

end DeskScript
