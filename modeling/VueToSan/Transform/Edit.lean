import VueToSan.Expr.Code

/-!
# Edits

An edit changes a value step by step. When a step fails, what the steps before it did is kept.
-/

namespace VueToSan.Transform

inductive RuleError where
  | expression (error : Expr.CodeError)
  /-- The value of a model that nothing can be assigned to. -/
  | modelTarget (value : String)
  /-- The value of a synchronised binding that nothing can be assigned to. -/
  | syncTarget (value key : String)
  | dynamicConditional
  | dynamicForm (code : String)
  | dynamicBranches (code : String)

def RuleError.message : RuleError → String
  | .expression error => error.message
  | .modelTarget value =>
    "v-model value must be a variable or a property access, got \"" ++ value ++ "\""
  | .syncTarget value key => "\"" ++ value ++ "\" is not a valid target for " ++ key
  | .dynamicConditional => "dynamic component can not use with v-if."
  | .dynamicForm code =>
    "dynamic component `is` must be a string or a ternary of strings, got \"" ++ code ++ "\"."
  | .dynamicBranches code =>
    "dynamic component branches must be string literals, got \"" ++ code ++ "\"."

/-- What an edit leaves, and why it stopped if it did. -/
inductive Edit (α : Type) where
  | done (value : α)
  | failed (error : RuleError) (value : α)

namespace Edit

variable {α β : Type}

def value : Edit α → α
  | done a => a
  | failed _ a => a

def error? : Edit α → Option RuleError
  | done _ => none
  | failed e _ => some e

def andThen (x : Edit α) (f : α → Edit α) : Edit α :=
  match x with
  | done a => f a
  | failed e a => failed e a

def map (f : α → β) : Edit α → Edit β
  | done a => done (f a)
  | failed e a => failed e (f a)

def each {ι : Type} (step : ι → α → Edit α) : List ι → α → Edit α
  | [], a => done a
  | i :: is, a => (step i a).andThen (each step is)

def withCompiled (source : String) (a : α) (f : Expr.Compiled → Edit α) : Edit α :=
  match Expr.compile source with
  | .ok compiled => f compiled
  | .error e => failed (.expression e) a

def withCode (source : String) (a : α) (f : String → Edit α) : Edit α :=
  withCompiled source a fun compiled => f compiled.text

end Edit

end VueToSan.Transform
