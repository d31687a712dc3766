import VueToSan.Source.Span

/-!
# Problems in markup

Problems are reported and do not stop the work.
-/

namespace VueToSan.Markup

inductive Flaw where
  | duplicateAttribute (name : String)
  | unclosed (tag : String)
  | strayEnd (tag : String)
  /-- An else branch with its test, if any, on an element without a test before it. -/
  | orphanElse (test : Option String) (tag : String)
  | textBetweenBranches (text : String)
  | invalidLoop (text : String)
  | multipleRoots
  | textOutsideRoot (text : String)
deriving DecidableEq, Repr

def Flaw.code : Flaw → String
  | duplicateAttribute _ => "duplicate-attribute"
  | unclosed _ => "unclosed-element"
  | strayEnd _ => "stray-end-tag"
  | orphanElse .. => "orphan-else"
  | textBetweenBranches _ => "text-between-branches"
  | invalidLoop _ => "invalid-v-for"
  | multipleRoots => "multiple-roots"
  | textOutsideRoot _ => "text-outside-root"

def Flaw.message : Flaw → String
  | duplicateAttribute name => "duplicate attribute: " ++ name
  | unclosed tag => "tag <" ++ tag ++ "> has no matching end tag."
  | strayEnd tag => "tag </" ++ tag ++ "> has no matching start tag."
  | orphanElse test tag =>
    let directive := match test with
      | some exp => "v-else-if=\"" ++ exp ++ "\""
      | none => "v-else"
    directive ++ " used on element <" ++ tag ++ "> without corresponding v-if."
  | textBetweenBranches text =>
    "text \"" ++ text ++ "\" between v-if and v-else(-if) will be ignored."
  | invalidLoop text => "Invalid v-for expression: " ++ text
  | multipleRoots =>
    "Component template should contain exactly one root element. " ++
      "If you are using v-if on multiple elements, use v-else-if to chain them instead."
  | textOutsideRoot text => "text \"" ++ text ++ "\" outside root element will be ignored."

structure Problem where
  flaw : Flaw
  span : Span
deriving DecidableEq, Repr

def Problem.message (p : Problem) : String := p.flaw.message

end VueToSan.Markup
