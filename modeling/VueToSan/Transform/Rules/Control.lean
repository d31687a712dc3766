import VueToSan.Transform.Rule

/-!
# Control flow

Tests and loops. San tracks the items of a loop by a variable only, so a key that is no identifier
is dropped.
-/

namespace VueToSan.Transform

open VueToSan.Markup

/-! ## Conditionals -/

def renameTest (test : Option String) (old new : String) (h : Head) : Edit Head :=
  match test with
  | none => .done h
  | some source => .withCode source h fun code => .done (h.replaceAttr old new code)

def transformConditional (h : Head) : Edit Head :=
  (renameTest h.ifTest "v-if" "s-if" h).andThen fun h =>
    (renameTest h.elseIfTest "v-else-if" "s-else-if" h).andThen fun h =>
      .done (if h.hasElse then h.replaceAttr "v-else" "s-else" "" else h)

def ifRule : Rule := .ofHead "if" transformConditional

/-! ## Loops -/

def keyAttrs : List String := ["key", ":key", "v-bind:key"]

def loopNames (l : Loop) : String :=
  match l.iterator1 with
  | some index => l.item ++ "," ++ index
  | none => l.item

def trackByClause (key : Expr.Compiled) : String :=
  if key.isIdentifier then " trackBy " ++ key.text else ""

def setLoop (h : Head) (value : String) : Head :=
  keyAttrs.foldl (·.removeAttr ·) (h.replaceAttr "v-for" "s-for" value)

def transformLoop (h : Head) : Edit Head :=
  match h.loop with
  | none => .done h
  | some l => .withCode l.source h fun list =>
    let value := loopNames l ++ " in _l(" ++ list ++ ")"
    match h.key with
    | none => .done (setLoop h value)
    | some source => .withCompiled source h fun key =>
      .done (setLoop h (value ++ trackByClause key))

def forRule : Rule := .ofHead "for" transformLoop

end VueToSan.Transform
