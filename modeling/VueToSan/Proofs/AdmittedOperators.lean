import VueToSan.Proofs.Phrases

/-!
# Expressions with admitted operators

An expression is admitted when every operator in it, at any depth, is one that the target language
has.
-/

namespace VueToSan.Expr

mutual

/-- Whether the target language has all operators of an expression. -/
def Node.isAdmitted : Node → Bool
  | .identifier _ => true
  | .literal _ _ => true
  | .array _ elements => areAdmitted elements
  | .object _ properties => propertiesAdmitted properties
  | .unary _ op argument => admittedUnary.contains op && argument.isAdmitted
  | .binary _ op left right =>
    admittedBinary.contains op && left.isAdmitted && right.isAdmitted
  | .logical _ op left right =>
    admittedLogical.contains op && left.isAdmitted && right.isAdmitted
  | .conditional _ test consequent alternate =>
    test.isAdmitted && consequent.isAdmitted && alternate.isAdmitted
  | .field _ object _ => object.isAdmitted
  | .index _ object index => object.isAdmitted && index.isAdmitted
  | .call _ callee arguments => callee.isAdmitted && areAdmitted arguments
  | .template _ parts => areAdmitted parts

def areAdmitted : List Node → Bool
  | [] => true
  | e :: es => e.isAdmitted && areAdmitted es

def propertiesAdmitted : List Property → Bool
  | [] => true
  | p :: ps => p.isAdmitted && propertiesAdmitted ps

def Property.isAdmitted : Property → Bool
  | .shorthand _ => true
  | .keyed _ _ value => value.isAdmitted
  | .computed _ key value => key.isAdmitted && value.isAdmitted

end

def Filter.isAdmitted (f : Filter) : Bool := areAdmitted f.arguments

def Piped.isAdmitted (e : Piped) : Bool := e.expression.isAdmitted && e.filters.all (·.isAdmitted)

/-! ## Locations play no part -/

mutual

theorem Node.isAdmitted_unlocated : ∀ e : Node, e.unlocated.isAdmitted = e.isAdmitted
  | .identifier _ => rfl
  | .literal _ _ => rfl
  | .array _ elements => by
    simp only [Node.unlocated, Node.isAdmitted, areAdmitted_unlocatedList elements]
  | .object _ properties => by
    simp only [Node.unlocated, Node.isAdmitted, propertiesAdmitted_unlocated properties]
  | .unary _ _ argument => by
    simp only [Node.unlocated, Node.isAdmitted, argument.isAdmitted_unlocated]
  | .binary _ _ left right => by
    simp only [Node.unlocated, Node.isAdmitted, left.isAdmitted_unlocated,
      right.isAdmitted_unlocated]
  | .logical _ _ left right => by
    simp only [Node.unlocated, Node.isAdmitted, left.isAdmitted_unlocated,
      right.isAdmitted_unlocated]
  | .conditional _ test consequent alternate => by
    simp only [Node.unlocated, Node.isAdmitted, test.isAdmitted_unlocated,
      consequent.isAdmitted_unlocated, alternate.isAdmitted_unlocated]
  | .field _ object _ => by
    simp only [Node.unlocated, Node.isAdmitted, object.isAdmitted_unlocated]
  | .index _ object index => by
    simp only [Node.unlocated, Node.isAdmitted, object.isAdmitted_unlocated,
      index.isAdmitted_unlocated]
  | .call _ callee arguments => by
    simp only [Node.unlocated, Node.isAdmitted, callee.isAdmitted_unlocated,
      areAdmitted_unlocatedList arguments]
  | .template _ parts => by
    simp only [Node.unlocated, Node.isAdmitted, areAdmitted_unlocatedList parts]

theorem areAdmitted_unlocatedList : ∀ es : List Node,
    areAdmitted (unlocatedList es) = areAdmitted es
  | [] => rfl
  | e :: es => by
    simp only [unlocatedList, areAdmitted, e.isAdmitted_unlocated, areAdmitted_unlocatedList es]

theorem propertiesAdmitted_unlocated : ∀ ps : List Property,
    propertiesAdmitted (unlocatedProperties ps) = propertiesAdmitted ps
  | [] => rfl
  | p :: ps => by
    simp only [unlocatedProperties, propertiesAdmitted, p.isAdmitted_unlocated,
      propertiesAdmitted_unlocated ps]

theorem Property.isAdmitted_unlocated : ∀ p : Property, p.unlocated.isAdmitted = p.isAdmitted
  | .shorthand _ => rfl
  | .keyed _ _ value => by
    simp only [Property.unlocated, Property.isAdmitted, value.isAdmitted_unlocated]
  | .computed _ key value => by
    simp only [Property.unlocated, Property.isAdmitted, key.isAdmitted_unlocated,
      value.isAdmitted_unlocated]

end

theorem Piped.isAdmitted_unlocated (e : Piped) : e.unlocated.isAdmitted = e.isAdmitted := by
  have hfilter : ∀ f : Filter, f.unlocated.isAdmitted = f.isAdmitted := fun f =>
    areAdmitted_unlocatedList f.arguments
  simp only [Piped.unlocated, Piped.isAdmitted, e.expression.isAdmitted_unlocated, List.all_map]
  congr 2
  funext f
  exact hfilter f

/-! ## Parts -/

theorem areAdmitted_iff {es : List Node} :
    areAdmitted es = true ↔ ∀ e ∈ es, e.isAdmitted = true := by
  induction es with
  | nil => simp [areAdmitted]
  | cons e es ih => simp [areAdmitted, ih]

theorem propertiesAdmitted_iff {ps : List Property} :
    propertiesAdmitted ps = true ↔ ∀ p ∈ ps, p.isAdmitted = true := by
  induction ps with
  | nil => simp [propertiesAdmitted]
  | cons p ps ih => simp [propertiesAdmitted, ih]

theorem isAdmitted_joined {op : Infix} {a b : Node} (hop : op.IsAdmitted)
    (ha : a.isAdmitted = true) (hb : b.isAdmitted = true) (l : Location) :
    (op.node l a b).isAdmitted = true := by
  cases op with
  | binary op =>
    rw [Infix.IsAdmitted] at hop
    simp [Infix.node, Node.isAdmitted, hop, ha, hb]
  | logical op =>
    rw [Infix.IsAdmitted] at hop
    simp [Infix.node, Node.isAdmitted, hop, ha, hb]

theorem isAdmitted_unary {op : UnaryOp} {a : Node} (hop : op ∈ admittedUnary)
    (ha : a.isAdmitted = true) (l : Location) : (Node.unary l op a).isAdmitted = true := by
  simp [Node.isAdmitted, hop, ha]

/-! ## Objects -/

theorem mem_of_mem_propertyRuns {ps : List Property} {run : Bool × List Property}
    (hrun : run ∈ propertyRuns ps) {p : Property} (hp : p ∈ run.2) : p ∈ ps := by
  induction ps generalizing run with
  | nil => cases hrun
  | cons q ps ih =>
    rw [propertyRuns] at hrun
    split at hrun
    · rename_i computed first runs hruns
      rw [hruns] at ih
      split at hrun
      · rcases List.mem_cons.1 hrun with rfl | hrun
        · rcases List.mem_cons.1 hp with rfl | hp
          · exact List.mem_cons_self
          · exact List.mem_cons_of_mem q (ih List.mem_cons_self hp)
        · exact List.mem_cons_of_mem q (ih (List.mem_cons_of_mem _ hrun) hp)
      · rcases List.mem_cons.1 hrun with rfl | hrun
        · obtain rfl := List.mem_singleton.1 hp
          exact List.mem_cons_self
        · exact List.mem_cons_of_mem q (ih hrun hp)
    · obtain rfl := List.mem_singleton.1 hrun
      obtain rfl := List.mem_singleton.1 hp
      exact List.mem_cons_self

theorem isAdmitted_objectNode {ps : List Property} (h : propertiesAdmitted ps = true) :
    (objectNode ps).isAdmitted = true := by
  have hpair : ∀ p : Property, p.isAdmitted = true → p.pairNode.isAdmitted = true := by
    intro p hp
    cases p with
    | shorthand name => rfl
    | keyed l key value =>
      simpa [Property.pairNode, Node.isAdmitted, propertiesAdmitted] using hp
    | computed l key value =>
      simpa [Property.pairNode, Node.isAdmitted, propertiesAdmitted, Property.isAdmitted] using hp
  unfold objectNode
  split
  · rw [Node.isAdmitted, Bool.and_eq_true, areAdmitted_iff]
    refine ⟨rfl, fun e he => ?_⟩
    obtain ⟨⟨computed, run⟩, hrun, rfl⟩ := List.mem_map.1 he
    have hall : ∀ p ∈ run, p.isAdmitted = true := fun p hp =>
      propertiesAdmitted_iff.1 h p (mem_of_mem_propertyRuns hrun hp)
    cases computed with
    | false => exact propertiesAdmitted_iff.2 hall
    | true =>
      simp only [runNode, Node.ofName, Node.isAdmitted, areAdmitted, Bool.true_and, Bool.and_true]
      rw [areAdmitted_iff]
      intro x hx
      obtain ⟨p, hp, rfl⟩ := List.mem_map.1 hx
      exact hpair p (hall p hp)
  · exact h

end VueToSan.Expr
