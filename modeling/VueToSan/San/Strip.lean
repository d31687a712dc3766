import VueToSan.San.Tree

/-!
# Dropping sources

The sources kept in a San tree serve diagnostics only. The runtime asks whether a property had one,
so a mark of it stays.
-/

namespace VueToSan.San

def Value.strip (v : Value) : Value := { v with raw := none }

def Property.strip (p : Property) : Property :=
  { p with value := p.value.strip, raw := p.raw.map fun _ => .present }

def Listener.strip (l : Listener) : Listener :=
  { l with handler := l.handler.strip, raw := none }

def Directive.strip (d : Directive) : Directive :=
  { d with value := d.value.map (·.strip), trackBy := d.trackBy.map (·.strip), raw := none }

def Head.strip (h : Head) : Head :=
  { h with
    properties := h.properties.map (·.strip)
    listeners := h.listeners.map (·.strip)
    directives := h.directives.map fun (name, d) => (name, d.strip)
    raw := none }

mutual

def Node.strip : Node → Node
  | .text value => .text value.strip
  | .element e => .element e.strip

def Element.strip : Element → Element
  | ⟨head, children, elses⟩ => ⟨head.strip, stripNodes children, stripElements elses⟩

def stripNodes : List Node → List Node
  | [] => []
  | node :: rest => node.strip :: stripNodes rest

def stripElements : List Element → List Element
  | [] => []
  | e :: rest => e.strip :: stripElements rest

end

end VueToSan.San
