import VueToSan.Markup.Element
import VueToSan.Markup.Problem

/-!
# What transforming collects

Elements with a fixed name, and the messages of problems that do not stop the work.
-/

namespace VueToSan.Transform

open VueToSan.Markup

structure Ref where
  name : String
  isRoot : Bool
deriving DecidableEq, Repr, Inhabited

structure Context where
  refs : List Ref := []
  errors : List String := []
deriving DecidableEq, Repr, Inhabited

namespace Context

def report (c : Context) (message : String) : Context := { c with errors := c.errors ++ [message] }

def reportAll (c : Context) (messages : List String) : Context :=
  { c with errors := c.errors ++ messages }

def reportProblems (c : Context) (problems : List Problem) : Context :=
  c.reportAll (problems.map (·.message))

def addRef (c : Context) (name : String) (isRoot : Bool) : Context :=
  { c with refs := c.refs ++ [⟨name, isRoot⟩] }

end Context

end VueToSan.Transform
