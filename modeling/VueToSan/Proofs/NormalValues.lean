import VueToSan.Proofs.CodeRoundTrip
import VueToSan.Proofs.ConstantFolding
import VueToSan.Proofs.SignedNumbers

/-!
# Values of normal forms

An operation is built from names and literals by admitted operators and by conditionals, without
equalities. The normal form of an operation has the value of the operation in every world that takes
the constants it spells out for what they are.

Not every constant is spelled out as itself: zero is written without its sign, and a number that has
no numeral is written as a name, whose value may be another one.
-/

namespace VueToSan.Expr

variable {ρ : Type}

/-! ## Locations play no part -/

theorem Key.constant_unlocated (key : Key) : key.unlocated.constant = key.constant := by
  cases key <;> rfl

namespace World

mutual

theorem eval_unlocated (w : World ρ) : ∀ e : Node, w.eval e.unlocated = w.eval e
  | .identifier _ => rfl
  | .literal _ _ => rfl
  | .array _ elements => by
    simp only [Node.unlocated, eval, evalList_unlocated w elements]
  | .object _ properties => by
    simp only [Node.unlocated, eval, evalProperties_unlocated w properties]
  | .unary _ _ argument => by
    simp only [Node.unlocated, eval, eval_unlocated w argument]
  | .binary _ _ left right => by
    simp only [Node.unlocated, eval, eval_unlocated w left, eval_unlocated w right]
  | .logical _ _ left right => by
    simp only [Node.unlocated, eval, eval_unlocated w left, eval_unlocated w right]
  | .conditional _ test consequent alternate => by
    simp only [Node.unlocated, eval, eval_unlocated w test, eval_unlocated w consequent,
      eval_unlocated w alternate]
  | .field _ object name => by
    simp only [Node.unlocated, Name.unlocated, eval, eval_unlocated w object]
  | .index _ object index => by
    simp only [Node.unlocated, eval, eval_unlocated w object, eval_unlocated w index]
  | .call _ callee arguments => by
    simp only [Node.unlocated, eval, eval_unlocated w callee, evalList_unlocated w arguments]
  | .template _ parts => by
    have hempty : (unlocatedList parts).isEmpty = parts.isEmpty := by cases parts <;> rfl
    simp only [Node.unlocated, eval, evalList_unlocated w parts, hempty]

theorem evalList_unlocated (w : World ρ) : ∀ es : List Node,
    w.evalList (unlocatedList es) = w.evalList es
  | [] => rfl
  | e :: es => by
    simp only [unlocatedList, evalList, eval_unlocated w e, evalList_unlocated w es]

theorem evalProperties_unlocated (w : World ρ) : ∀ ps : List Property,
    w.evalProperties (unlocatedProperties ps) = w.evalProperties ps
  | [] => rfl
  | p :: ps => by
    simp only [unlocatedProperties, evalProperties, evalProperty_unlocated w p,
      evalProperties_unlocated w ps]

theorem evalProperty_unlocated (w : World ρ) : ∀ p : Property,
    w.evalProperty p.unlocated = w.evalProperty p
  | .shorthand _ => rfl
  | .keyed _ key value => by
    simp only [Property.unlocated, evalProperty, key.constant_unlocated, eval_unlocated w value]
  | .computed _ key value => by
    simp only [Property.unlocated, evalProperty, eval_unlocated w key, eval_unlocated w value]

end

end World

/-! ## Operations -/

def Node.isOperation : Node → Bool
  | .identifier _ => true
  | .literal _ _ => true
  | .unary _ op argument => admittedUnary.contains op && argument.isOperation
  | .binary _ op left right =>
    admittedBinary.contains op && !op.isEquality && left.isOperation && right.isOperation
  | .logical _ op left right =>
    admittedLogical.contains op && left.isOperation && right.isOperation
  | .conditional _ test consequent alternate =>
    test.isOperation && consequent.isOperation && alternate.isOperation
  | _ => false

section

variable {l : Location}

theorem isOperation_unary {op : UnaryOp} {a : Node} :
    (Node.unary l op a).isOperation = true ↔ op ∈ admittedUnary ∧ a.isOperation = true := by
  simp [Node.isOperation]

theorem isOperation_binary {op : BinaryOp} {a b : Node} :
    (Node.binary l op a b).isOperation = true ↔
      (op ∈ admittedBinary ∧ op.isEquality = false) ∧
        a.isOperation = true ∧ b.isOperation = true := by
  simp [Node.isOperation, and_assoc]

theorem isOperation_logical {op : LogicalOp} {a b : Node} :
    (Node.logical l op a b).isOperation = true ↔
      op ∈ admittedLogical ∧ a.isOperation = true ∧ b.isOperation = true := by
  simp [Node.isOperation, and_assoc]

theorem isOperation_conditional {t x y : Node} :
    (Node.conditional l t x y).isOperation = true ↔
      t.isOperation = true ∧ x.isOperation = true ∧ y.isOperation = true := by
  simp [Node.isOperation, and_assoc]

end

theorem Node.isEquality_operation {e : Node} (h : e.isOperation = true) :
    e.isEquality = false := by
  cases e <;> simp_all [isOperation, isEquality]

theorem Node.isLegible_operation : ∀ {e : Node}, e.isOperation = true → e.isLegible = true
  | .identifier _, _ => rfl
  | .literal _ _, _ => rfl
  | .unary _ _ a, h => by
    obtain ⟨-, ha⟩ := isOperation_unary.1 h
    simp [isLegible, isEquality_operation ha, isLegible_operation ha]
  | .binary _ _ a b, h => by
    obtain ⟨-, ha, hb⟩ := isOperation_binary.1 h
    simp [isLegible, isEquality_operation ha, isEquality_operation hb, isLegible_operation ha,
      isLegible_operation hb]
  | .logical _ _ a b, h => by
    obtain ⟨-, ha, hb⟩ := isOperation_logical.1 h
    simp [isLegible, isLegible_operation ha, isLegible_operation hb]
  | .conditional _ t x y, h => by
    obtain ⟨ht, hx, hy⟩ := isOperation_conditional.1 h
    simp [isLegible, isLegible_operation ht, isLegible_operation hx, isLegible_operation hy]

theorem generate_operation : ∀ {e : Node}, e.isOperation = true → ∃ code, generate e = .ok code
  | .identifier _, _ => ⟨_, rfl⟩
  | .literal _ _, _ => ⟨_, rfl⟩
  | .unary l op a, h => by
    obtain ⟨hop, ha⟩ := isOperation_unary.1 h
    obtain ⟨c, hc⟩ := generate_operation ha
    rw [generate, hc, ok_bind, if_neg (not_not.2 hop)]
    dsimp only
    cases c.constant.bind (Constant.unary? op) <;> exact ⟨_, rfl⟩
  | .binary l op a b, h => by
    obtain ⟨⟨hop, -⟩, ha, hb⟩ := isOperation_binary.1 h
    obtain ⟨c, hc⟩ := generate_operation ha
    obtain ⟨d, hd⟩ := generate_operation hb
    rw [generate, hc, hd, ok_bind, ok_bind, if_neg (not_not.2 hop)]
    dsimp only
    cases c.constant.bind fun a => d.constant.bind fun b => Constant.binary? op a b <;>
      exact ⟨_, rfl⟩
  | .logical l op a b, h => by
    obtain ⟨hop, ha, hb⟩ := isOperation_logical.1 h
    obtain ⟨c, hc⟩ := generate_operation ha
    obtain ⟨d, hd⟩ := generate_operation hb
    rw [generate, hc, hd, ok_bind, ok_bind, if_neg (not_not.2 hop)]
    dsimp only
    cases c.constant.bind fun a => d.constant.bind fun b => Constant.logical? op a b <;>
      exact ⟨_, rfl⟩
  | .conditional l t x y, h => by
    obtain ⟨ht, hx, hy⟩ := isOperation_conditional.1 h
    obtain ⟨c, hc⟩ := generate_operation ht
    obtain ⟨d, hd⟩ := generate_operation hx
    obtain ⟨e, he⟩ := generate_operation hy
    rw [generate, hc, hd, he, ok_bind, ok_bind, ok_bind]
    cases c.constant <;> exact ⟨_, rfl⟩

theorem generateParts_operations : ∀ {es : List Node}, (∀ e ∈ es, e.isOperation = true) →
    ∃ texts, generateParts es = .ok texts
  | [], _ => ⟨_, rfl⟩
  | e :: es, h => by
    obtain ⟨he, hes⟩ := List.forall_mem_cons.1 h
    obtain ⟨code, hcode⟩ := generate_operation he
    obtain ⟨texts, htexts⟩ := generateParts_operations hes
    exact ⟨wrap code.text e :: texts, by rw [generateParts, hcode, htexts]; rfl⟩

/-! ## Worlds of constants -/

def World.ofNames (env : String → Constant) : World Empty :=
  { emptyWorld with identifier := fun name => some (.constant (env name)) }

theorem eval_operation (env : String → Constant) : ∀ {e : Node}, e.isOperation = true →
    ∃ v, (World.ofNames env).eval e = some (.constant v)
  | .identifier name, _ => ⟨env name.text, rfl⟩
  | .literal _ value, _ => ⟨value.constant, rfl⟩
  | .unary l op a, h => by
    obtain ⟨hop, ha⟩ := isOperation_unary.1 h
    obtain ⟨v, hv⟩ := eval_operation env ha
    obtain ⟨f, hf⟩ := unary?_isSome hop v
    exact ⟨f, by simp [World.eval, hv, World.applyUnary, hf]⟩
  | .binary l op a b, h => by
    obtain ⟨⟨hop, -⟩, ha, hb⟩ := isOperation_binary.1 h
    obtain ⟨u, hu⟩ := eval_operation env ha
    obtain ⟨v, hv⟩ := eval_operation env hb
    obtain ⟨f, hf⟩ := binary?_isSome hop u v
    exact ⟨f, by simp [World.eval, hu, hv, World.applyBinary, hf]⟩
  | .logical l op a b, h => by
    obtain ⟨hop, ha, hb⟩ := isOperation_logical.1 h
    obtain ⟨u, hu⟩ := eval_operation env ha
    obtain ⟨v, hv⟩ := eval_operation env hb
    obtain ⟨f, hf⟩ := logical?_isSome hop u v
    refine ⟨f, ?_⟩
    simp only [World.eval, hu, hv, Option.bind_eq_bind, Option.bind_some]
    exact logical?_eq hf
  | .conditional l t x y, h => by
    obtain ⟨ht, hx, hy⟩ := isOperation_conditional.1 h
    obtain ⟨b, hb⟩ := eval_operation env ht
    obtain ⟨u, hu⟩ := eval_operation env hx
    obtain ⟨v, hv⟩ := eval_operation env hy
    refine ⟨if b.isTruthy then u else v, ?_⟩
    cases htruth : b.isTruthy <;> simp [World.eval, hb, hu, hv, Value.isTruthy, htruth]

theorem evalList_operations (env : String → Constant) : ∀ {es : List Node},
    (∀ e ∈ es, e.isOperation = true) →
      ∃ vs : List Constant, (World.ofNames env).evalList es = some (vs.map .constant)
  | [], _ => ⟨[], rfl⟩
  | e :: es, h => by
    obtain ⟨he, hes⟩ := List.forall_mem_cons.1 h
    obtain ⟨v, hv⟩ := eval_operation env he
    obtain ⟨vs, hvs⟩ := evalList_operations env hes
    exact ⟨v :: vs, by simp [World.evalList, hv, hvs]⟩

/-! ## Constants as code -/

deriving instance DecidableEq for Constant

/-- Whether the code of a constant stands for the constant. A number without a numeral is written as
a name, and zero without its sign. -/
def Constant.isWritten (env : String → Constant) : Constant → Bool
  | .number x =>
    match Number.decode x with
    | .nan => env "NaN" == .number Number.nan
    | .infinite _ => env "Infinity" == .number Number.infinity
    | .finite negative significand _ => !negative || significand != 0
  | .undefined => env "undefined" == .undefined
  | _ => true

theorem eval_negatedIf (env : String → Constant) {e : Node} {x : Float}
    (h : (World.ofNames env).eval e = some (.constant (.number x))) (negative : Bool) :
    (World.ofNames env).eval (.negatedIf negative e) =
      some (.constant (.number (if negative then -x else x))) := by
  cases negative with
  | false => exact h
  | true =>
    simp [Node.negatedIf, World.eval, h, World.applyUnary, Constant.unary?, Constant.toNumber]

theorem eval_numberNode {env : String → Constant} {x : Float}
    (h : (Constant.number x).isWritten env = true) :
    (World.ofNames env).eval (numberNode x) = some (.constant (.number x)) := by
  simp only [Constant.isWritten] at h
  unfold numberNode
  cases hx : Number.decode x with
  | nan =>
    rw [hx] at h
    rw [Number.eq_nan_of_decode hx]
    exact congrArg (some ∘ Value.constant) (beq_iff_eq.1 h)
  | infinite negative =>
    rw [hx] at h
    have hname : (World.ofNames env).eval (.ofName "Infinity") =
        some (.constant (.number Number.infinity)) :=
      congrArg (some ∘ Value.constant) (beq_iff_eq.1 h)
    rw [Number.eq_infinity_of_decode hx]
    exact eval_negatedIf env hname negative
  | finite negative m e =>
    rw [hx] at h
    have hsign : (negative && m != 0) = negative := by
      cases negative with
      | false => rfl
      | true => exact h
    have hvalue : (if negative then -x.abs else x.abs) = x := (Number.eq_abs_of_decode hx).symm
    have hnode := eval_negatedIf env (e := .literal default (.number x.abs)) rfl negative
    rw [hvalue] at hnode
    dsimp only
    rw [hsign]
    exact hnode

theorem eval_constantNode {env : String → Constant} {c : Constant}
    (h : c.isWritten env = true) : (World.ofNames env).eval c.node = some (.constant c) := by
  cases c with
  | number x => exact eval_numberNode h
  | undefined => exact congrArg (some ∘ Value.constant) (beq_iff_eq.1 h)
  | string s => rfl
  | boolean b => rfl
  | null => rfl

/-! ## Values of normal forms -/

theorem yields_of_constant? {e : Node} {c : Constant} (h : e.constant? = some c) : e.Yields c := by
  unfold Node.constant? at h
  obtain ⟨code, hcode, hc⟩ := Option.bind_eq_some_iff.1 h
  exact (generate_folded (toOption_eq_some.1 hcode) c hc).2

/-- What an expression spells out when it is folded, and what its parts do when it is not. -/
def Node.emittedOr (e : Node) (parts : List Constant) : List Constant :=
  match e.constant? with
  | some c => [c]
  | none => parts

def Node.emitted : Node → List Constant
  | .literal _ value => [value.constant]
  | .unary l op argument => (Node.unary l op argument).emittedOr argument.emitted
  | .binary l op left right =>
    (Node.binary l op left right).emittedOr (left.emitted ++ right.emitted)
  | .logical l op left right =>
    (Node.logical l op left right).emittedOr (left.emitted ++ right.emitted)
  | .conditional _ test consequent alternate =>
    match test.constant? with
    | some value => if value.isTruthy then consequent.emitted else alternate.emitted
    | none => test.emitted ++ consequent.emitted ++ alternate.emitted
  | _ => []

theorem eval_foldedOr {w : World ρ} {e other : Node} {parts : List Constant}
    (h : ∀ c ∈ e.emittedOr parts, w.eval c.node = some (.constant c))
    (hother : (∀ c ∈ parts, w.eval c.node = some (.constant c)) → w.eval other = w.eval e) :
    w.eval (e.foldedOr other) = w.eval e := by
  unfold Node.emittedOr at h
  unfold Node.foldedOr
  cases hc : e.constant? with
  | none =>
    rw [hc] at h
    exact hother h
  | some c =>
    rw [hc] at h
    exact (h c (by simp)).trans (yields_of_constant? hc ρ w).symm

theorem eval_normal {w : World ρ} : ∀ {e : Node}, e.isOperation = true →
    (∀ c ∈ e.emitted, w.eval c.node = some (.constant c)) → w.eval e.normal = w.eval e
  | .identifier _, _, _ => rfl
  | .literal _ value, _, hc => hc value.constant (by simp [Node.emitted])
  | .unary l op a, h, hc => by
    obtain ⟨-, ha⟩ := isOperation_unary.1 h
    refine eval_foldedOr hc fun hca => ?_
    simp only [World.eval, eval_normal ha hca]
  | .binary l op a b, h, hc => by
    obtain ⟨-, ha, hb⟩ := isOperation_binary.1 h
    refine eval_foldedOr hc fun hparts => ?_
    obtain ⟨hca, hcb⟩ := List.forall_mem_append.1 hparts
    simp only [World.eval, eval_normal ha hca, eval_normal hb hcb]
  | .logical l op a b, h, hc => by
    obtain ⟨-, ha, hb⟩ := isOperation_logical.1 h
    refine eval_foldedOr hc fun hparts => ?_
    obtain ⟨hca, hcb⟩ := List.forall_mem_append.1 hparts
    simp only [World.eval, eval_normal ha hca, eval_normal hb hcb]
  | .conditional l t x y, h, hc => by
    obtain ⟨ht, hx, hy⟩ := isOperation_conditional.1 h
    rw [Node.emitted] at hc
    rw [Node.normal]
    cases htest : t.constant? with
    | some v =>
      rw [htest] at hc
      have hvalue := yields_of_constant? htest ρ w
      -- only the branch that is selected is written
      cases hv : v.isTruthy with
      | true =>
        simp only [hv, if_true] at hc
        simp [World.eval, hvalue, Value.isTruthy, hv, eval_normal hx hc]
      | false =>
        simp only [hv, Bool.false_eq_true, if_false] at hc
        simp [World.eval, hvalue, Value.isTruthy, hv, eval_normal hy hc]
    | none =>
      rw [htest] at hc
      obtain ⟨hbefore, hcy⟩ := List.forall_mem_append.1 hc
      obtain ⟨hct, hcx⟩ := List.forall_mem_append.1 hbefore
      simp only [World.eval, eval_normal ht hct, eval_normal hx hcx, eval_normal hy hcy]

theorem evalList_normal {w : World ρ} : ∀ {es : List Node}, (∀ e ∈ es, e.isOperation = true) →
    (∀ e ∈ es, ∀ c ∈ e.emitted, w.eval c.node = some (.constant c)) →
      w.evalList (normalList es) = w.evalList es
  | [], _, _ => rfl
  | e :: es, h, hc => by
    obtain ⟨he, hes⟩ := List.forall_mem_cons.1 h
    obtain ⟨hce, hces⟩ := List.forall_mem_cons.1 hc
    simp only [normalList, World.evalList, eval_normal he hce, evalList_normal hes hces]

end VueToSan.Expr
