import VueToSan.Markup.Reader
import VueToSan.Text.Search
import VueToSan.Transform.Rule

/-!
# The atom dialect
-/

namespace VueToSan.Transform

open VueToSan.Markup VueToSan.Text

def commonName (name : String) : String :=
  match stripStart? "a-".toList name.toList with
  | some rest => "v-" ++ String.ofList rest
  | none => name

def readDialect (h : Head) : Head :=
  if h.declared.any (fun a => "a-".toList.isPrefixOf a.name.toList) then
    let declared := h.declared.map fun a => { a with name := commonName a.name }
    { h with declared := declared, attrs := entriesOf declared }
  else h

def atomRule : Rule := .ofBefore "atom" readDialect

end VueToSan.Transform
