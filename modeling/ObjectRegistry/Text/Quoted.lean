import ObjectRegistry.Text.Extender
import ObjectRegistry.Text.Invisible

namespace ObjectRegistry.Text

/-- A character inside quotes. What would end the quotation, leave no mark or cling to the
character before it is escaped. -/
def escape (c : Char) : List Char :=
  match c with
  | '"' => ['\\', '"']
  | '\\' => ['\\', '\\']
  | '\n' => ['\\', 'n']
  | '\r' => ['\\', 'r']
  | '\t' => ['\\', 't']
  | '\x00' => ['\\', '0']
  | c =>
    if isExtender c || isInvisible c then
      ['\\', 'u', '\x7b'] ++ Nat.toDigits 16 c.toNat ++ ['\x7d']
    else [c]

def quote (s : String) : String :=
  "\"" ++ String.ofList (s.toList.flatMap escape) ++ "\""

def listing (items : List String) : String :=
  "[" ++ ", ".intercalate items ++ "]"

def record (name : String) (fields : List (String × String)) : String :=
  name ++ " \x7b " ++ ", ".intercalate (fields.map fun (field, value) => field ++ ": " ++ value)
    ++ " \x7d"

def flag (b : Bool) : String := if b then "true" else "false"

def optional : Option String → String
  | none => "None"
  | some s => "Some(" ++ s ++ ")"

end ObjectRegistry.Text
