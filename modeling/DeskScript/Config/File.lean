import DeskScript.Config.Basic
import DeskScript.Host.Disk
import DeskScript.Json.Reader

set_option autoImplicit false

/-!
# Configuration files

A configuration file holds one value in flow style. A number with a fraction may have an exponent only with a sign;
other exponents make a text. Blanks are spaces and line ends. A file without a value is an empty configuration. The file
is the one named, or else the one that the environment names, or else the default one, which alone may be missing.
-/

namespace DeskScript.Config

def fileNumber (lexeme : List Char) (isFloat : Bool) : Except Fault Plain :=
  if !isFloat then Json.plainNumber lexeme false
  else
    let mantissa := lexeme.takeWhile fun c => c ≠ 'e' && c ≠ 'E'
    let exponent := lexeme.drop mantissa.length
    let signed := match exponent with
      | _ :: s :: _ => s = '+' || s = '-'
      | _ => true
    if mantissa.contains '.' && signed then Json.plainNumber lexeme true else .ok (.str (String.ofList lexeme))

def dialect : Json.Dialect :=
  { blank := fun c => c = ' ' || c = '\n' || c = '\r'
    words := Json.baseWords ++
      ["NaN", "Infinity", "-Infinity"].map fun w => (w.toList, .str w)
    number := fileNumber }

def isVoid (line : List Char) : Bool :=
  match line.dropWhile (· = ' ') with
  | [] => true
  | '#' :: _ => true
  | _ => false

def isFileChar (c : Char) : Bool :=
  let n := c.toNat
  n = 9 || n = 10 || n = 13 || (0x20 ≤ n && n ≤ 0x7e) || n = 0x85 || (0xa0 ≤ n && n ≤ 0xfffd) || 0x10000 ≤ n

def document (path content : String) : Except ConfigFault Plain :=
  let cs := content.toList
  let cs := match cs with
    | c :: rest => if c.toNat = 0xFEFF then rest else cs
    | [] => cs
  if !cs.all isFileChar then .error (.malformed path)
  else if (Text.splitBy ['\n'] cs).all isVoid then .ok .null
  else
    match Json.document dialect cs with
    | .ok p => .ok p
    | .error t =>
      match t.complaint with
      | .number f => .error (.fault f)
      | _ => .error (.malformed path)

def read (disk : Disk) (path : UserPath) : Except ConfigFault Config :=
  match path.locate disk with
  | .error .nameTooLong => .error (.fault (.nameTooLong path.text))
  | .error _ => .error (.notFound path.text)
  | .ok place =>
    match disk.read place with
    | .error .isDirectory => .error (.unreadable path.text (Fault.directoryRead path.text).message)
    | .error f => .error (.unreadable path.text f.message)
    | .ok content => document path.text (Text.asRead content) >>= ofPlain

def defaultPath : UserPath := { start := .home, steps := [".config", "retroscript", "config.yaml"] }

def named (disk : Disk) (path : String) : Except ConfigFault Config :=
  match (UserPath.ofText path).expandHome with
  | .ok p => read disk p
  | .error f => .error (.fault f)

def load (disk : Disk) (environment path : Option String) : Except ConfigFault Config :=
  match path, environment with
  | some p, _ => named disk p
  | none, some p => if p.isEmpty then fallback else named disk p
  | none, none => fallback
where
  fallback : Except ConfigFault Config :=
    match defaultPath.locate disk with
    | .ok _ => read disk defaultPath
    | .error _ => .ok {}

end DeskScript.Config
