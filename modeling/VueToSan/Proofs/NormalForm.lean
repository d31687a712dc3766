import Mathlib.Data.List.Infix
import VueToSan.Expr.Code
import VueToSan.Proofs.Results
import VueToSan.Proofs.Written

/-!
# Normal forms of expressions

The expression that the code of an expression stands for. Folded parts are replaced by their
constants, conditionals with a constant test by the branch they select, template strings by sums,
and objects with computed keys by calls of the helpers.

Code leaves out the parentheses around equalities and around operands that are no operators, so not
every expression can be read off its code again: `Piped.IsLegible` says which can.
-/

namespace VueToSan.Expr

def Node.ofName (name : String) : Node := .identifier ⟨default, name⟩

def Node.negatedIf (negative : Bool) (e : Node) : Node :=
  if negative then .unary default .minus e else e

def numberNode (x : Float) : Node :=
  match Number.decode x with
  | .nan => .ofName "NaN"
  | .infinite negative => .negatedIf negative (.ofName "Infinity")
  | .finite negative significand _ =>
    .negatedIf (negative && significand != 0) (.literal default (.number x.abs))

def Constant.node : Constant → Node
  | .number x => numberNode x
  | .string s => .literal default (.string s)
  | .boolean b => .literal default (.boolean b)
  | .null => .literal default .null
  | .undefined => .ofName "undefined"

def Node.constant? (e : Node) : Option Constant :=
  (generate e).toOption.bind (·.constant)

def Node.foldedOr (e other : Node) : Node :=
  match e.constant? with
  | some c => c.node
  | none => other

def sumNode : List Node → Node
  | [] => .literal default (.string "")
  | e :: es => es.foldl (.binary default .add) e

def Key.normal : Key → Key
  | .name n => .name n
  | .string l text => .string l text
  | .number l value => .string l (formatNumber value)

def propertyRuns : List Property → List (Bool × List Property)
  | [] => []
  | p :: ps =>
    match propertyRuns ps with
    | (computed, run) :: runs =>
      if p.isComputed = computed then (computed, p :: run) :: runs
      else (p.isComputed, [p]) :: (computed, run) :: runs
    | [] => [(p.isComputed, [p])]

def Property.pairNode : Property → Node
  | .computed _ key value =>
    .object default [.keyed default (.name ⟨default, "k"⟩) key,
      .keyed default (.name ⟨default, "v"⟩) value]
  | p => .object default [p]

def runNode : Bool × List Property → Node
  | (true, run) => .call default (.ofName "_ocp") [.array default (run.map (·.pairNode))]
  | (false, run) => .object default run

def objectNode (ps : List Property) : Node :=
  if ps.any (·.isComputed) then .call default (.ofName "_ex") ((propertyRuns ps).map runNode)
  else .object default ps

mutual

def Node.normal : Node → Node
  | .identifier name => .identifier name
  | .literal _ value => value.constant.node
  | .field l object name =>
    (Node.field l object name).foldedOr (.field default object.normal name)
  | .index _ object index => .index default object.normal index.normal
  | .unary l op argument =>
    (Node.unary l op argument).foldedOr (.unary default op argument.normal)
  | .binary l op left right =>
    (Node.binary l op left right).foldedOr (.binary default op left.normal right.normal)
  | .logical l op left right =>
    (Node.logical l op left right).foldedOr (.logical default op left.normal right.normal)
  | .conditional _ test consequent alternate =>
    match test.constant? with
    | some value => if value.isTruthy then consequent.normal else alternate.normal
    | none => .conditional default test.normal consequent.normal alternate.normal
  | .call _ callee arguments => .call default callee.normal (normalList arguments)
  | .template _ parts => sumNode (normalList parts)
  | .array _ elements => .array default (normalList elements)
  | .object _ properties => objectNode (normalProperties properties)

def normalList : List Node → List Node
  | [] => []
  | e :: es => e.normal :: normalList es

def normalProperties : List Property → List Property
  | [] => []
  | p :: ps => p.normal :: normalProperties ps

def Property.normal : Property → Property
  | .shorthand name => .keyed default (.name name) (.identifier name)
  | .keyed _ key value => .keyed default key.normal value.normal
  | .computed _ key value => .computed default key.normal value.normal

end

def Filter.normal (f : Filter) : Filter := ⟨f.name, normalList f.arguments, default⟩

def Piped.normal (e : Piped) : Piped := ⟨e.expression.normal, e.filters.map (·.normal), default⟩

/-! ## Legible expressions -/

def Node.isEquality : Node → Bool
  | .binary _ op _ _ => op.isEquality
  | _ => false

def BinaryOp.isNumeric : BinaryOp → Bool
  | .add | .sub | .mul | .div | .rem | .exp | .lt | .gt | .ltEq | .gtEq => true
  | _ => false

/-- Whether a member access or a call may stand behind an expression. -/
def Node.isAccessible (e : Node) : Bool :=
  match e with
  | .unary .. => false
  | .literal _ (.number _) => false
  | .field .. => e.constant?.isNone
  | .binary _ op _ _ => !op.isEquality
  | _ => true

mutual

/-- Whether no equality stands where it needs parentheses, and nothing is accessed that a dot would
be taken into. -/
def Node.isLegible : Node → Bool
  | .identifier _ => true
  | .literal _ _ => true
  | .field _ object _ => object.isAccessible && object.isLegible
  | .index _ object index => object.isAccessible && object.isLegible && index.isLegible
  | .unary _ _ argument => !argument.isEquality && argument.isLegible
  | .binary _ op left right =>
    (!op.isNumeric || !left.isEquality) &&
      (!(op.isNumeric || op.isEquality) || !right.isEquality) &&
      left.isLegible && right.isLegible
  | .logical _ _ left right => left.isLegible && right.isLegible
  | .conditional _ test consequent alternate =>
    test.isLegible && consequent.isLegible && alternate.isLegible
  | .call _ callee arguments => callee.isAccessible && callee.isLegible && areLegible arguments
  | .template _ parts => parts.all (!·.isEquality) && areLegible parts
  | .array _ elements => areLegible elements
  | .object _ properties => propertiesLegible properties

def areLegible : List Node → Bool
  | [] => true
  | e :: es => e.isLegible && areLegible es

def propertiesLegible : List Property → Bool
  | [] => true
  | p :: ps => p.isLegible && propertiesLegible ps

def Property.isLegible : Property → Bool
  | .shorthand _ => true
  | .keyed _ _ value => value.isLegible
  | .computed _ key value => key.isLegible && value.isLegible

end

/-- Whether the mark for the piped value stands only where it was put. -/
def Filter.isUnmarked (f : Filter) : Prop :=
  ¬filterMark.toList <:+: f.name.toList ∧
    ∀ e ∈ f.arguments, ∀ code, generate e = .ok code → ¬filterMark.toList <:+: code.text.toList

instance (f : Filter) : Decidable f.isUnmarked :=
  decidable_of_iff (¬filterMark.toList <:+: f.name.toList ∧
    ∀ e ∈ f.arguments, ∀ code ∈ (generate e).toOption, ¬filterMark.toList <:+: code.text.toList)
    (by simp only [Option.mem_def, toOption_eq_some]; rfl)

structure Piped.IsLegible (e : Piped) : Prop where
  expression : e.expression.isLegible = true
  arguments : ∀ f ∈ e.filters, areLegible f.arguments = true
  filters : ∀ f ∈ e.filters, f.isUnmarked

instance (e : Piped) : Decidable e.IsLegible :=
  decidable_of_iff (e.expression.isLegible = true ∧
    (∀ f ∈ e.filters, areLegible f.arguments = true) ∧ ∀ f ∈ e.filters, f.isUnmarked)
    ⟨fun h => ⟨h.1, h.2.1, h.2.2⟩, fun h => ⟨h.expression, h.arguments, h.filters⟩⟩

end VueToSan.Expr
