import VueToSan.Compile
import VueToSan.Output.Source
import VueToSan.Output.Target

/-!
# The output as JSON
-/

namespace VueToSan

open VueToSan.Json

def Transform.Ref.json (r : Transform.Ref) : Value :=
  .object [⟨"name", .string r.name⟩, ⟨"isRoot", .bool r.isRoot⟩]

namespace Output

def json (o : Output) : Value :=
  .object [⟨"sourceTree", .object o.source.members⟩, ⟨"targetTree", o.target.json⟩,
    ⟨"template", .string o.template⟩, ⟨"refs", .array (o.refs.map Transform.Ref.json)⟩,
    ⟨"errors", .strings o.errors⟩]

def write (o : Output) : String := o.json.write

end Output

end VueToSan
