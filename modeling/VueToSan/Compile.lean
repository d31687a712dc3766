import VueToSan.Markup.Reader
import VueToSan.Markup.Writer
import VueToSan.San.Reader
import VueToSan.San.Strip
import VueToSan.Transform.Builtin
import VueToSan.Transform.Walk

/-!
# Compiling templates

A template is read, transformed by rules and written as San markup, and that markup is read into the
tree of the San runtime.
-/

namespace VueToSan

open VueToSan.Markup VueToSan.Transform

structure Options where
  /-- The classes of a style module. -/
  classes : Option (Entries String) := none
  /-- Names a scope that every element is marked with. -/
  scopeId : Option String := none
  stripWhitespace : Bool := true
  dialect : Dialect := .vue
  /-- Rules that run after all others. -/
  extraRules : List Rule := []

namespace Options

def rules (o : Options) : List Rule :=
  let dialect := match o.dialect with
    | .vue => []
    | .atom => [atomRule]
  let classes := match o.classes with
    | none | some [] => []
    | some classes => [cssModulesRule classes]
  builtinRules ++ dialect ++ classes ++ o.extraRules

def writing (o : Options) : WriteOptions := ⟨o.scopeId, o.stripWhitespace, o.dialect⟩

end Options

inductive CompileError where
  | rule (error : RuleError)
  | noRoot
  /-- The markup that was written cannot be read. -/
  | target (error : San.Error)
  | emptyTarget (template : String)

def CompileError.message : CompileError → String
  | .rule error => error.message
  | .noRoot => "Component template requires a root element, rather than just text."
  | .target error => "failed to parse compiled template: " ++ error.message
  | .emptyTarget template => "compiled template has no root element: " ++ template

structure Output where
  source : Element
  target : San.Node
  template : String
  refs : List Ref
  errors : List String

def finish (o : Options) (nodes : List Node) (context : Context) : Except CompileError Output :=
  match firstElement? nodes with
  | none => .error .noRoot
  | some root =>
    let template := writeElement o.writing root
    match San.read template with
    | .error e => .error (.target e)
    | .ok [] => .error (.emptyTarget template)
    | .ok (target :: _) => .ok ⟨root, target.strip, template, context.refs, context.errors⟩

/-- Compiles a template; what was collected on the way is kept also when this fails. -/
def run (o : Options) (source : String) : Except CompileError Output × Context :=
  let parsed := read {} (Text.trimmed source)
  let context := Context.reportProblems {} parsed.problems
  match walk o.rules parsed.value context with
  | .failed error (_, context) => (.error (.rule error), context)
  | .done (nodes, context) => (finish o nodes context, context)

def compile (o : Options) (source : String) : Except CompileError Output :=
  (run o source).1

end VueToSan
