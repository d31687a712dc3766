import VueToSan.Proofs.CodeRoundTrip

/-!
# Operators that the target language lacks

Code is refused exactly for expressions in which such an operator stands, also where folding or a
constant test throws away the code around it. The refusal is about the first of them in post-order:
operands before their operator, and the value of a property before its computed key.
-/

namespace VueToSan.Expr

/-! ## Refused computations -/

section Refusals

variable {ε α β : Type}

def refusal? : Except ε α → Option ε
  | .ok _ => none
  | .error e => some e

@[simp] theorem refusal?_ok (a : α) : refusal? (.ok a : Except ε α) = none := rfl

theorem refusal?_eq_some {x : Except ε α} {e : ε} : refusal? x = some e ↔ x = .error e := by
  cases x <;> simp [refusal?]

theorem refusal?_mapError {ε' : Type} (f : ε → ε') (x : Except ε α) :
    refusal? (x.mapError f) = (refusal? x).map f := by
  cases x <;> rfl

/-- The first of two computations that fails is why both together do, when the failure of the second
does not hang on the result of the first. -/
theorem refusal?_bind {x : Except ε α} {f : α → Except ε β} {first second : Option ε}
    (hx : refusal? x = first) (hf : ∀ a, refusal? (f a) = second) :
    refusal? (x >>= f) = first.or second := by
  subst hx
  cases x with
  | error e => rfl
  | ok a => exact hf a

theorem refusal?_bind_ok {x : Except ε α} {f : α → β} {first : Option ε}
    (hx : refusal? x = first) : refusal? (x >>= fun a => .ok (f a)) = first := by
  rw [refusal?_bind hx fun a => refusal?_ok (f a), Option.or_none]

end Refusals

/-! ## Nodes in post-order -/

mutual

def Node.postorder : Node → List Node
  | .identifier name => [.identifier name]
  | .literal l value => [.literal l value]
  | .array l elements => postorderList elements ++ [.array l elements]
  | .object l properties => postorderProperties properties ++ [.object l properties]
  | .unary l op argument => argument.postorder ++ [.unary l op argument]
  | .binary l op left right => left.postorder ++ right.postorder ++ [.binary l op left right]
  | .logical l op left right => left.postorder ++ right.postorder ++ [.logical l op left right]
  | .conditional l test consequent alternate =>
    test.postorder ++ consequent.postorder ++ alternate.postorder ++
      [.conditional l test consequent alternate]
  | .field l object name => object.postorder ++ [.field l object name]
  | .index l object index => object.postorder ++ index.postorder ++ [.index l object index]
  | .call l callee arguments =>
    callee.postorder ++ postorderList arguments ++ [.call l callee arguments]
  | .template l parts => postorderList parts ++ [.template l parts]

def postorderList : List Node → List Node
  | [] => []
  | e :: es => e.postorder ++ postorderList es

def postorderProperties : List Property → List Node
  | [] => []
  | p :: ps => p.postorder ++ postorderProperties ps

def Property.postorder : Property → List Node
  | .shorthand name => [.identifier name]
  | .keyed _ _ value => value.postorder
  | .computed _ key value => value.postorder ++ key.postorder

end

def Piped.postorder (e : Piped) : List Node :=
  e.expression.postorder ++ e.filters.flatMap fun f => postorderList f.arguments

/-! ## Foreign operators -/

def foreignUnary : List UnaryOp := [.bitNot, .typeof, .void]

def foreignBinary : List BinaryOp :=
  [.exp, .bitAnd, .bitOr, .bitXor, .shl, .shr, .ushr, .in, .instanceof]

def foreignLogical : List LogicalOp := [.nullish]

theorem mem_foreignUnary (op : UnaryOp) : op ∈ foreignUnary ↔ op ∉ admittedUnary := by
  cases op <;> decide

theorem mem_foreignBinary (op : BinaryOp) : op ∈ foreignBinary ↔ op ∉ admittedBinary := by
  cases op <;> decide

theorem mem_foreignLogical (op : LogicalOp) : op ∈ foreignLogical ↔ op ∉ admittedLogical := by
  cases op <;> decide

/-- The foreign operator of a node itself, whatever stands below it. -/
def Node.foreignOp? : Node → Option ForeignOp
  | .unary _ op _ => if op ∈ foreignUnary then some (.unary op) else none
  | .binary _ op _ _ => if op ∈ foreignBinary then some (.binary op) else none
  | .logical _ op _ _ => if op ∈ foreignLogical then some (.logical op) else none
  | _ => none

def Node.foreignUse? (e : Node) : Option Inadmissible :=
  e.foreignOp?.map fun op => ⟨op, e.location⟩

def firstUse? (nodes : List Node) : Option Inadmissible := nodes.findSome? (·.foreignUse?)

@[simp] theorem firstUse?_append (nodes nodes' : List Node) :
    firstUse? (nodes ++ nodes') = (firstUse? nodes).or (firstUse? nodes') :=
  List.findSome?_append

@[simp] theorem firstUse?_singleton (e : Node) : firstUse? [e] = e.foreignUse? := by
  simp [firstUse?]

section Uses

variable {l : Location}

theorem foreignUse?_unary (op : UnaryOp) (a : Node) : (Node.unary l op a).foreignUse? =
    if op ∉ admittedUnary then some ⟨.unary op, l⟩ else none := by
  simp only [Node.foreignUse?, Node.foreignOp?, mem_foreignUnary]
  split <;> rfl

theorem foreignUse?_binary (op : BinaryOp) (a b : Node) : (Node.binary l op a b).foreignUse? =
    if op ∉ admittedBinary then some ⟨.binary op, l⟩ else none := by
  simp only [Node.foreignUse?, Node.foreignOp?, mem_foreignBinary]
  split <;> rfl

theorem foreignUse?_logical (op : LogicalOp) (a b : Node) : (Node.logical l op a b).foreignUse? =
    if op ∉ admittedLogical then some ⟨.logical op, l⟩ else none := by
  simp only [Node.foreignUse?, Node.foreignOp?, mem_foreignLogical]
  split <;> rfl

end Uses

/-! ## Code is refused at the first use -/

theorem refusal?_operator {p : Prop} [Decidable p] {use : Inadmissible}
    {k : PUnit → Except Inadmissible Code} (hk : refusal? (k ()) = none) :
    refusal? (if p then throw use >>= k else k ()) = if p then some use else none := by
  split_ifs with hp
  · rfl
  · exact hk

mutual

theorem refusal?_generate : ∀ e : Node, refusal? (generate e) = firstUse? e.postorder
  | .identifier name => rfl
  | .literal l value => rfl
  | .field l object name => by
    rw [Node.postorder, firstUse?_append, firstUse?_singleton, generate]
    exact refusal?_bind (refusal?_generate object) fun code => rfl
  | .index l object index => by
    rw [Node.postorder, List.append_assoc, firstUse?_append, firstUse?_append,
      firstUse?_singleton, generate]
    exact refusal?_bind (refusal?_generate object) fun code =>
      refusal?_bind (refusal?_generate index) fun inner => rfl
  | .unary l op a => by
    rw [Node.postorder, firstUse?_append, firstUse?_singleton, generate, foreignUse?_unary]
    refine refusal?_bind (refusal?_generate a) fun code => refusal?_operator ?_
    split <;> rfl
  | .binary l op a b => by
    rw [Node.postorder, List.append_assoc, firstUse?_append, firstUse?_append,
      firstUse?_singleton, generate, foreignUse?_binary]
    refine refusal?_bind (refusal?_generate a) fun left =>
      refusal?_bind (refusal?_generate b) fun right => refusal?_operator ?_
    split <;> rfl
  | .logical l op a b => by
    rw [Node.postorder, List.append_assoc, firstUse?_append, firstUse?_append,
      firstUse?_singleton, generate, foreignUse?_logical]
    refine refusal?_bind (refusal?_generate a) fun left =>
      refusal?_bind (refusal?_generate b) fun right => refusal?_operator ?_
    split <;> rfl
  | .conditional l test consequent alternate => by
    rw [Node.postorder, List.append_assoc, List.append_assoc, firstUse?_append, firstUse?_append,
      firstUse?_append, firstUse?_singleton, generate]
    refine refusal?_bind (refusal?_generate test) fun t =>
      refusal?_bind (refusal?_generate consequent) fun c =>
        refusal?_bind (refusal?_generate alternate) fun a => ?_
    split <;> rfl
  | .call l callee arguments => by
    rw [Node.postorder, List.append_assoc, firstUse?_append, firstUse?_append,
      firstUse?_singleton, generate]
    exact refusal?_bind (refusal?_generate callee) fun code =>
      refusal?_bind (refusal?_generateList arguments) fun args => rfl
  | .template l parts => by
    rw [Node.postorder, firstUse?_append, firstUse?_singleton, generate]
    refine refusal?_bind (refusal?_generateParts parts) fun codes => ?_
    cases parts <;> rfl
  | .array l elements => by
    rw [Node.postorder, firstUse?_append, firstUse?_singleton, generate]
    exact refusal?_bind (refusal?_generateList elements) fun codes => rfl
  | .object l properties => by
    rw [Node.postorder, firstUse?_append, firstUse?_singleton, generate]
    exact refusal?_bind (refusal?_generateProperties properties) fun codes => rfl

theorem refusal?_generateList : ∀ es : List Node,
    refusal? (generateList es) = firstUse? (postorderList es)
  | [] => rfl
  | e :: es => by
    rw [postorderList, firstUse?_append, generateList]
    exact refusal?_bind (refusal?_generate e) fun code =>
      refusal?_bind_ok (refusal?_generateList es)

theorem refusal?_generateParts : ∀ es : List Node,
    refusal? (generateParts es) = firstUse? (postorderList es)
  | [] => rfl
  | e :: es => by
    rw [postorderList, firstUse?_append, generateParts]
    exact refusal?_bind (refusal?_generate e) fun code =>
      refusal?_bind_ok (refusal?_generateParts es)

theorem refusal?_generateProperties : ∀ ps : List Property,
    refusal? (generateProperties ps) = firstUse? (postorderProperties ps)
  | [] => rfl
  | p :: ps => by
    rw [postorderProperties, firstUse?_append, generateProperties]
    exact refusal?_bind (refusal?_generateProperty p) fun code =>
      refusal?_bind_ok (refusal?_generateProperties ps)

theorem refusal?_generateProperty : ∀ p : Property,
    refusal? (generateProperty p) = firstUse? p.postorder
  | .shorthand name => rfl
  | .keyed l key value => by
    rw [Property.postorder, generateProperty]
    exact refusal?_bind_ok (refusal?_generate value)
  | .computed l key value => by
    rw [Property.postorder, firstUse?_append, generateProperty]
    exact refusal?_bind (refusal?_generate value) fun code =>
      refusal?_bind_ok (refusal?_generate key)

end

theorem refusal?_applyFilters (fs : List Filter) (code : String) :
    refusal? (applyFilters code fs) =
      firstUse? (fs.flatMap fun f => postorderList f.arguments) := by
  induction fs generalizing code with
  | nil => rfl
  | cons f fs ih =>
    rw [List.flatMap_cons, firstUse?_append, applyFilters]
    refine refusal?_bind ?_ fun applied => ih _
    rw [filterCode]
    exact refusal?_bind_ok (refusal?_generateList f.arguments)

theorem refusal?_generatePiped (e : Piped) :
    refusal? (generatePiped e) = firstUse? e.postorder := by
  rw [Piped.postorder, firstUse?_append, generatePiped]
  refine refusal?_bind (refusal?_generate e.expression) fun base => ?_
  split
  · rename_i hempty
    rw [List.isEmpty_iff.1 hempty]
    rfl
  · exact refusal?_bind_ok (refusal?_applyFilters e.filters base.text)

theorem refusal?_compile {source : String} {e : Piped} (h : parse source = .ok e) :
    refusal? (compile source) = (firstUse? e.postorder).map (.inadmissible source) := by
  rw [compile, allBlank_of_parse h, if_neg (by simp), h, mapError_ok, ok_bind]
  refine refusal?_bind_ok ?_
  rw [refusal?_mapError, refusal?_generatePiped]

/-! ## Which sources are refused -/

/-- A source that can be parsed has code unless a foreign operator stands in it. It is refused for
the first node in post-order that has one, and the position in the header is the start of that
node. -/
theorem compile_refused {source : String} {e : Piped} (h : parse source = .ok e) :
    ((∃ error, compile source = .error error) ↔ ∃ node ∈ e.postorder, node.foreignOp? ≠ none) ∧
      ∀ error, compile source = .error error → ∃ before node after op,
        e.postorder = before ++ node :: after ∧ (∀ other ∈ before, other.foreignOp? = none) ∧
        node.foreignOp? = some op ∧ error = .inadmissible source ⟨op, node.location⟩ ∧
        error.header = "[vusa expression parser] (" ++ Nat.repr node.location.start.line ++ ":" ++
          Nat.repr node.location.start.column ++ ") : " ++ op.message := by
  have hnone : ∀ node : Node, node.foreignUse? = none ↔ node.foreignOp? = none := fun node => by
    rw [Node.foreignUse?, Option.map_eq_none_iff]
  have hcompile := refusal?_compile h
  refine ⟨?_, fun error herror => ?_⟩
  · constructor
    · rintro ⟨error, herror⟩
      rw [refusal?_eq_some.2 herror] at hcompile
      obtain ⟨use, huse, -⟩ := Option.map_eq_some_iff.1 hcompile.symm
      obtain ⟨node, hnode, hfound⟩ := List.exists_of_findSome?_eq_some huse
      exact ⟨node, hnode, fun hop => by simp [(hnone node).2 hop] at hfound⟩
    · rintro ⟨node, hnode, hop⟩
      cases hfirst : firstUse? e.postorder with
      | none => exact absurd ((hnone node).1 (List.findSome?_eq_none_iff.1 hfirst node hnode)) hop
      | some use =>
        rw [hfirst, Option.map_some] at hcompile
        exact ⟨_, refusal?_eq_some.1 hcompile⟩
  · rw [refusal?_eq_some.2 herror] at hcompile
    obtain ⟨use, huse, rfl⟩ := Option.map_eq_some_iff.1 hcompile.symm
    obtain ⟨before, node, after, hsplit, hfound, hbefore⟩ := List.findSome?_eq_some_iff.1 huse
    obtain ⟨op, hop, rfl⟩ := Option.map_eq_some_iff.1 hfound
    have hnative : ∀ other ∈ before, other.foreignOp? = none := fun other hother =>
      (hnone other).1 (hbefore other hother)
    exact ⟨before, node, after, op, hsplit, hnative, hop, rfl, rfl⟩

def sampleDeadCode : String := "true ? a : \x7b[typeof b]: \x60$\x7b~c\x7d\x60\x7d | f(d ** e)"

theorem sampleDeadCode_refused : ∃ e error, parse sampleDeadCode = .ok e ∧
    compile sampleDeadCode = .error error ∧
    error.header = "[vusa expression parser] (1:28) : unknown unary operator \"~\"" := by
  have hparse : (parse sampleDeadCode).toOption.any
      (fun e => e.postorder.any fun node => node.foreignOp?.isSome) = true := by
    decide +kernel
  have hheader : (refusal? (compile sampleDeadCode)).map (·.header) =
      some "[vusa expression parser] (1:28) : unknown unary operator \"~\"" := by
    decide +kernel
  obtain ⟨e, he, hany⟩ := (Option.any_eq_true _ _).1 hparse
  rw [toOption_eq_some] at he
  obtain ⟨node, hnode, hop⟩ := List.any_eq_true.1 hany
  obtain ⟨error, herror⟩ := (compile_refused he).1.2 ⟨node, hnode, Option.isSome_iff_ne_none.1 hop⟩
  rw [refusal?_eq_some.2 herror] at hheader
  exact ⟨e, error, he, herror, Option.some.inj hheader⟩

end VueToSan.Expr
