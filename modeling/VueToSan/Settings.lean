import VueToSan.Compile
import VueToSan.Json.Value

/-!
# Options as JSON

Options come as an object with members in any order, or as an array of the values in a fixed order.
What is missing keeps its default, members with other names are passed over, and a value of the
wrong type spoils the whole.
-/

namespace VueToSan

open VueToSan.Json

namespace Options

def nullable {α : Type} (read : Value → Option α) : Value → Option (Option α)
  | .null => some none
  | value => (read value).map some

def classes? : Value → Option (Entries String)
  | .object members => members.mapM fun m => m.value.string?.map (m.name, ·)
  | _ => none

def dialectNamed? : String → Option Dialect
  | "vue" => some .vue
  | "atom" => some .atom
  | _ => none

def dialect? : Value → Option Dialect
  | .string name => dialectNamed? name
  | .object [⟨name, .null⟩] => dialectNamed? name
  | _ => none

def orDefault {α : Type} (read : Value → Option α) (default : α) : Option Value → Option α
  | none => some default
  | some value => read value

def ofValues? (classes scopeId stripWhitespace dialect : Option Value) : Option Options := do
  let classes ← orDefault (nullable classes?) none classes
  let scopeId ← orDefault (nullable Value.string?) none scopeId
  let stripWhitespace ← orDefault Value.bool? true stripWhitespace
  let dialect ← orDefault dialect? .vue dialect
  return { classes, scopeId, stripWhitespace, dialect }

def ofJson? : Value → Option Options
  | .object members =>
    ofValues? (Member.find? members "cssClassMap") (Member.find? members "scopeId")
      (Member.find? members "stripWhitespace") (Member.find? members "dialect")
  | .array items =>
    if items.length ≤ 4 then ofValues? items[0]? items[1]? items[2]? items[3]? else none
  | _ => none

end Options

end VueToSan
