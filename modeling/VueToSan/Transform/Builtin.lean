import VueToSan.Transform.Rules.Appearance
import VueToSan.Transform.Rules.Attribute
import VueToSan.Transform.Rules.Binding
import VueToSan.Transform.Rules.Content
import VueToSan.Transform.Rules.Control
import VueToSan.Transform.Rules.Dialect
import VueToSan.Transform.Rules.Tag

/-!
# The built-in rules

The order counts: `bindRule` stands behind all rules that claim a bound attribute of their own.
-/

namespace VueToSan.Transform

def builtinRules : List Rule :=
  [templateRule, booleanRule, ifRule, forRule, eventRule, modelRule, htmlRule, refRule, classRule,
   styleRule, bindRule, transitionRule, dynamicComponentRule]

def ruleNamed? (classes : Entries String) (name : String) : Option Rule :=
  (builtinRules ++ [atomRule, cssModulesRule classes]).find? (·.name == name)

end VueToSan.Transform
