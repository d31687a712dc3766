import VueToSan.Markup.Extract
import VueToSan.Transform.Rule

/-!
# Walking a template

Elements are visited depth first. Rules run before the children of an element, its directive fields
are filled, its children are walked and chained, and rules run again. The first failure stops the
walk and leaves the tree as it is then.
-/

namespace VueToSan.Transform

open VueToSan.Markup

def runBefore (rules : List Rule) (e : Element) (context : Context) : Head × Context :=
  rules.foldl (fun (head, context) rule => rule.before { e with head := head } context)
    (e.head, context)

def runAfter (rules : List Rule) (e : Element) (context : Context) : Edit (Element × Context) :=
  Edit.each (fun rule (e, context) => rule.after e context) rules (e, context)

def chainWalked (site : List Node × Context) : List Node × Context :=
  let (nodes, problems) := chain site.1
  (nodes, site.2.reportProblems problems)

mutual

def walkElement (rules : List Rule) : Element → Context → Edit (Element × Context)
  | ⟨head, children, branches⟩, context =>
    let (head, context) := runBefore rules ⟨head, children, branches⟩ context
    let (head, problems) := head.extract
    match walkEach rules children (context.reportProblems problems) with
    | .failed error (children, context) => .failed error (⟨head, children, branches⟩, context)
    | .done site =>
      let (children, context) := chainWalked site
      runAfter rules ⟨head, children, branches⟩ context

def walkEach (rules : List Rule) : List Node → Context → Edit (List Node × Context)
  | [], context => .done ([], context)
  | .element e :: rest, context =>
    match walkElement rules e context with
    | .failed error (e, context) => .failed error (.element e :: rest, context)
    | .done (e, context) =>
      (walkEach rules rest context).map fun (rest, context) => (.element e :: rest, context)
  | node :: rest, context =>
    (walkEach rules rest context).map fun (rest, context) => (node :: rest, context)

end

def walk (rules : List Rule) (nodes : List Node) (context : Context) :
    Edit (List Node × Context) :=
  (walkEach rules nodes context).andThen fun site =>
    let (nodes, context) := chainWalked site
    .done (nodes, context.reportProblems (checkSingleRoot nodes))

end VueToSan.Transform
