import VueToSan.Markup.Element
import VueToSan.Markup.Problem
import VueToSan.Text.Blank

/-!
# Conditional chains

An element with an else test or a plain else becomes a branch of the closest element before it, if
that one has a test. Texts and comments in between are dropped.
-/

namespace VueToSan.Markup

open VueToSan.Text

/-- Puts a branch behind siblings, the last of which comes first. -/
def attach (branch : Element) : List Node → List Node × List Problem
  | .text content _ :: before =>
    let (nodes, problems) := attach branch before
    if allBlank content then (nodes, problems)
    else (nodes, ⟨.textBetweenBranches (trimmed content), branch.head.span⟩ :: problems)
  | .comment _ _ :: before => attach branch before
  | .element e :: before =>
    if e.head.ifTest.isSome then (.element (e.addBranch branch) :: before, [])
    else
      (.element e :: before,
       [⟨.orphanElse branch.head.elseIfTest branch.head.tag, branch.head.span⟩])
  | [] => ([], [⟨.orphanElse branch.head.elseIfTest branch.head.tag, branch.head.span⟩])

def chainOnto (done : List Node) : List Node → List Node × List Problem
  | [] => (done.reverse, [])
  | .element e :: rest =>
    if e.head.isBranch then
      let (done, problems) := attach e done
      let (nodes, more) := chainOnto done rest
      (nodes, problems ++ more)
    else chainOnto (.element e :: done) rest
  | node :: rest => chainOnto (node :: done) rest

def chain (nodes : List Node) : List Node × List Problem :=
  chainOnto [] nodes

def checkSingleRoot (nodes : List Node) : List Problem :=
  match nodes.filterMap (·.element?) with
  | _ :: extra :: _ => [⟨.multipleRoots, extra.head.span⟩]
  | _ => []

end VueToSan.Markup
