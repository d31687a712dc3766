import VueToSan.Markup.Tags
import VueToSan.Transform.Rule

/-!
# Fixed attributes

Attributes without a value, and attributes that name an element. A fixed name is registered; a
computed one is only compiled.
-/

namespace VueToSan.Transform

open VueToSan.Markup

/-! ## Attributes without a value -/

def fillEmpty (h : Head) : Head :=
  { h with attrs := h.attrs.map fun (name, value) =>
      if value.isEmpty && !isPresence h.tag name && !isValueless name then
        (name, interpolate "true")
      else (name, value) }

def booleanRule : Rule := .ofHead "boolean" fun h => .done (fillEmpty h)

/-! ## Named elements -/

def transformFixedRef (h : Head) (context : Context) : Head × Context :=
  match (h.attr? "ref").filter (!·.isEmpty) with
  | none => (h, context)
  | some name => (h.replaceAttr "ref" "s-ref" name, context.addRef name h.isRoot)

def transformBoundRef (key : String) (h : Head) : Edit Head :=
  match h.attr? key with
  | none => .done h
  | some source => .withCode source h fun code =>
    .done (h.replaceAttr key "s-ref" (interpolate code))

def transformRef (site : Head × Context) : Edit (Head × Context) :=
  let (h, context) := transformFixedRef site.1 site.2
  (Edit.each transformBoundRef [":ref", "v-bind:ref"] h).map (·, context)

def refRule : Rule := .ofHeadAndContext "ref" transformRef

end VueToSan.Transform
