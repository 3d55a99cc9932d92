import Intensional.Text.Shown

/-!
# Quoted text

A text in quotation marks, with everything escaped that would end it or could not be seen.
-/

namespace Intensional
namespace Text

/-- A character by its number, in hexadecimal. -/
def numbered (c : Char) : String :=
  "\\u\x7b" ++ String.ofList (Nat.toDigits 16 c.toNat) ++ "\x7d"

def named : List (Char × String) :=
  [('\x00', "\\0"), ('\t', "\\t"), ('\r', "\\r"), ('\n', "\\n"), ('\\', "\\\\"),
    ('"', "\\\"")]

def escaped (c : Char) : String :=
  match named.lookup c with
  | some escape => escape
  | none => if isShown c then String.singleton c else numbered c

def quoted (s : String) : String := "\"" ++ String.join (s.toList.map escaped) ++ "\""

end Text
end Intensional
