import VueToSan.Text.Upper

/-!
# Camel case
-/

namespace VueToSan.Text

def camelChars (raised : Bool) : List Char → List Char
  | [] => []
  | c :: cs =>
    if c = '-' then camelChars true cs
    else if raised then upperChar c ++ camelChars false cs
    else c :: camelChars false cs

def camelize (s : String) : String :=
  String.ofList (camelChars false s.toList)

end VueToSan.Text
