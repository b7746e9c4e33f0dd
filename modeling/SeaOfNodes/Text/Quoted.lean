import SeaOfNodes.Text.Unprinted

/-!
Quoted texts: a text between double quotes on one line, in which every character can be seen.
-/

namespace SeaOfNodes

namespace Quoted

/-- What stands for one character between the quotes. -/
def encodeChar (c : Char) : String :=
  match c with
  | '\\' => "\\\\"
  | '"' => "\\\""
  | '\n' => "\\n"
  | '\r' => "\\r"
  | '\t' => "\\t"
  | c =>
    if c.toNat = 0 then "\\0"
    else if isUnprinted c then
      "\\u\x7b" ++ String.ofList (Nat.toDigits 16 c.toNat) ++ "\x7d"
    else c.toString

def encode (s : String) : String := "\"" ++ String.join (s.toList.map encodeChar) ++ "\""

end Quoted

end SeaOfNodes
