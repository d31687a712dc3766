import VueToSan.Proofs.Generation

/-!
# Constant folding against evaluation

Expressions are evaluated in a world that says what the identifiers, the members and the calls of an
expression give; it may also refuse to give a value. Operators on constants follow the rules of
`Constant`, and operands that are not needed are not evaluated.

The constant that `generate` finds for an expression is its value in every world, and it finds one
for every expression built from constants alone.
-/

namespace VueToSan.Expr

open VueToSan.Text

inductive Value (ρ : Type) where
  | constant (c : Constant)
  | reference (r : ρ)

namespace Value

variable {ρ : Type}

def isTruthy : Value ρ → Bool
  | constant c => c.isTruthy
  | reference _ => true

def isMissing : Value ρ → Bool
  | constant c => c.isMissing
  | reference _ => false

def decides (v : Value ρ) : LogicalOp → Bool
  | .and => !v.isTruthy
  | .or => v.isTruthy
  | .nullish => !v.isMissing

end Value

/-- What the open parts of an expression give; `none` stands for no value at all. -/
structure World (ρ : Type) where
  identifier : String → Option (Value ρ)
  member : Value ρ → Value ρ → Option (Value ρ)
  call : Value ρ → List (Value ρ) → Option (Value ρ)
  array : List (Value ρ) → Option (Value ρ)
  object : List (Value ρ × Value ρ) → Option (Value ρ)
  /-- A template string that is not empty. -/
  template : List (Value ρ) → Option (Value ρ)
  /-- The operators where `Constant` has no rule. -/
  unary : UnaryOp → Value ρ → Option (Value ρ)
  binary : BinaryOp → Value ρ → Value ρ → Option (Value ρ)

namespace World

variable {ρ : Type}

def applyUnary (w : World ρ) (op : UnaryOp) (v : Value ρ) : Option (Value ρ) :=
  match v with
  | .constant a =>
    match Constant.unary? op a with
    | some c => some (.constant c)
    | none => w.unary op v
  | .reference _ => w.unary op v

def applyBinary (w : World ρ) (op : BinaryOp) (u v : Value ρ) : Option (Value ρ) :=
  match u, v with
  | .constant a, .constant b =>
    match Constant.binary? op a b with
    | some c => some (.constant c)
    | none => w.binary op u v
  | _, _ => w.binary op u v

def read (w : World ρ) (object : Value ρ) (name : Constant) : Option (Value ρ) :=
  match object, name with
  | .constant (.string s), .string "length" =>
    some (.constant (.number (Number.ofNat (units s).length)))
  | _, _ => w.member object (.constant name)

def readAt (w : World ρ) (object index : Value ρ) : Option (Value ρ) :=
  match index with
  | .constant name => w.read object name
  | .reference _ => w.member object index

end World

def Key.constant : Key → Constant
  | .name n => .string n.text
  | .string _ text => .string text
  | .number _ value => .string (formatNumber value)

namespace World

variable {ρ : Type}

mutual

def eval (w : World ρ) : Node → Option (Value ρ)
  | .identifier name => w.identifier name.text
  | .literal _ value => some (.constant value.constant)
  | .array _ elements => do w.array (← evalList w elements)
  | .object _ properties => do w.object (← evalProperties w properties)
  | .unary _ op argument => do w.applyUnary op (← eval w argument)
  | .binary _ op left right => do
    let u ← eval w left
    let v ← eval w right
    w.applyBinary op u v
  | .logical _ op left right => do
    let u ← eval w left
    if u.decides op then some u else eval w right
  | .conditional _ test consequent alternate => do
    let t ← eval w test
    if t.isTruthy then eval w consequent else eval w alternate
  | .field _ object name => do w.read (← eval w object) (.string name.text)
  | .index _ object index => do
    let o ← eval w object
    let i ← eval w index
    w.readAt o i
  | .call _ callee arguments => do
    let f ← eval w callee
    let vs ← evalList w arguments
    w.call f vs
  | .template _ parts => do
    let vs ← evalList w parts
    if parts.isEmpty then some (.constant (.string "")) else w.template vs

def evalList (w : World ρ) : List Node → Option (List (Value ρ))
  | [] => some []
  | e :: es => do
    let v ← eval w e
    let vs ← evalList w es
    some (v :: vs)

def evalProperties (w : World ρ) : List Property → Option (List (Value ρ × Value ρ))
  | [] => some []
  | p :: ps => do
    let v ← evalProperty w p
    let vs ← evalProperties w ps
    some (v :: vs)

def evalProperty (w : World ρ) : Property → Option (Value ρ × Value ρ)
  | .shorthand name => do
    let v ← w.identifier name.text
    some (.constant (.string name.text), v)
  | .keyed _ key value => do
    let v ← eval w value
    some (.constant key.constant, v)
  | .computed _ key value => do
    let k ← eval w key
    let v ← eval w value
    some (k, v)

end

end World

def Node.Yields (e : Node) (v : Constant) : Prop :=
  ∀ (ρ : Type) (w : World ρ), w.eval e = some (.constant v)

/-- Expressions built from constants alone. A length is taken of texts only. -/
inductive Node.Closed : Node → Prop where
  | literal {l : Location} {value : Literal} : Closed (.literal l value)
  | emptyTemplate {l : Location} : Closed (.template l [])
  | unary {l : Location} {op : UnaryOp} {a : Node} :
      op ∈ admittedUnary → Closed a → Closed (.unary l op a)
  | binary {l : Location} {op : BinaryOp} {a b : Node} :
      op ∈ admittedBinary → Closed a → Closed b → Closed (.binary l op a b)
  | logical {l : Location} {op : LogicalOp} {a b : Node} :
      op ∈ admittedLogical → Closed a → Closed b → Closed (.logical l op a b)
  | conditional {l : Location} {t c a : Node} :
      Closed t → Closed c → Closed a → Closed (.conditional l t c a)
  | length {l n : Location} {o : Node} {s : String} :
      Closed o → o.Yields (.string s) → Closed (.field l o ⟨n, "length"⟩)

/-! ## The rules behind the operators -/

theorem logical?_eq {op : LogicalOp} {a b c : Constant} (h : Constant.logical? op a b = some c)
    {ρ : Type} :
    (if (Value.constant a : Value ρ).decides op then some (Value.constant a : Value ρ)
      else some (Value.constant b)) = some (Value.constant c) := by
  cases op with
  | and => cases ha : a.isTruthy <;> simp_all [Constant.logical?, Value.decides, Value.isTruthy]
  | or => cases ha : a.isTruthy <;> simp_all [Constant.logical?, Value.decides, Value.isTruthy]
  | nullish => simp [Constant.logical?] at h

theorem fieldCode_ofConstant {object : Code} {wrapped name : String} {v : Constant}
    (h : (fieldCode object wrapped name).constant = some v) :
    ∃ s, object.constant = some (.string s) ∧ name = "length" ∧
      v = .number (Number.ofNat (units s).length) ∧
      fieldCode object wrapped name = .ofConstant v := by
  unfold fieldCode at h ⊢
  split at h
  · rename_i hname
    split at h
    · rename_i s hs
      simp only [Bool.and_eq_true, beq_iff_eq] at hname
      simp only [Code.ofConstant, Option.some.injEq] at h
      exact ⟨s, hs, hname.1, h.symm, by simp [hname, h]⟩
    · simp [Code.typed] at h
  · simp [Code.plain] at h

theorem read_length {ρ : Type} (w : World ρ) (s : String) :
    w.read (.constant (.string s)) (.string "length") =
      some (.constant (.number (Number.ofNat (units s).length))) := rfl

/-! ## What is folded is the value -/

def Code.Folded (c : Code) (e : Node) : Prop :=
  ∀ v, c.constant = some v → c = .ofConstant v ∧ e.Yields v

theorem folded_plain (text : String) (e : Node) : (Code.plain text).Folded e := by
  intro v h
  simp [Code.plain] at h

theorem folded_typed (text : String) (t : ValueType) (e : Node) : (Code.typed text t).Folded e := by
  intro v h
  simp [Code.typed] at h

theorem folded_ofConstant {v : Constant} {e : Node} (h : e.Yields v) :
    (Code.ofConstant v).Folded e := by
  intro u hu
  simp only [Code.ofConstant, Option.some.injEq] at hu
  subst hu
  exact ⟨rfl, h⟩

theorem folded_field {l : Location} {object : Node} {name : Name} {code : Code} {wrapped : String}
    (h : code.Folded object) :
    (fieldCode code wrapped name.text).Folded (.field l object name) := by
  intro v hv
  obtain ⟨s, hs, hname, rfl, hcode⟩ := fieldCode_ofConstant hv
  refine ⟨hcode, fun ρ w => ?_⟩
  simp only [World.eval, (h _ hs).2 ρ w, hname]
  exact read_length w s

theorem folded_unary {l : Location} {op : UnaryOp} {a : Node} {c : Code} {v f : Constant}
    (h : c.Folded a) (hv : c.constant = some v) (hf : Constant.unary? op v = some f) :
    (Code.ofConstant f).Folded (.unary l op a) := by
  refine folded_ofConstant fun ρ w => ?_
  simp only [World.eval, (h v hv).2 ρ w, Option.bind_eq_bind, Option.bind_some, World.applyUnary,
    hf]

theorem folded_binary {l : Location} {op : BinaryOp} {a b : Node} {c d : Code} {u v f : Constant}
    (ha : c.Folded a) (hb : d.Folded b) (hu : c.constant = some u) (hv : d.constant = some v)
    (hf : Constant.binary? op u v = some f) :
    (Code.ofConstant f).Folded (.binary l op a b) := by
  refine folded_ofConstant fun ρ w => ?_
  simp only [World.eval, (ha u hu).2 ρ w, (hb v hv).2 ρ w, Option.bind_eq_bind, Option.bind_some,
    World.applyBinary, hf]

theorem folded_logical {l : Location} {op : LogicalOp} {a b : Node} {c d : Code} {u v f : Constant}
    (ha : c.Folded a) (hb : d.Folded b) (hu : c.constant = some u) (hv : d.constant = some v)
    (hf : Constant.logical? op u v = some f) :
    (Code.ofConstant f).Folded (.logical l op a b) := by
  refine folded_ofConstant fun ρ w => ?_
  simp only [World.eval, (ha u hu).2 ρ w, (hb v hv).2 ρ w, Option.bind_eq_bind, Option.bind_some]
  exact logical?_eq hf

theorem folded_conditional {l : Location} {t x y : Node} {c d e : Code} {v : Constant}
    (ht : c.Folded t) (hx : d.Folded x) (hy : e.Folded y) (hv : c.constant = some v) :
    (if v.isTruthy then d else e).Folded (.conditional l t x y) := by
  have htest : t.Yields v := (ht v hv).2
  cases hb : v.isTruthy with
  | true =>
    intro u hu
    obtain ⟨hcode, hval⟩ := hx u hu
    refine ⟨hcode, fun ρ w => ?_⟩
    simpa [World.eval, htest ρ w, Value.isTruthy, hb] using hval ρ w
  | false =>
    intro u hu
    obtain ⟨hcode, hval⟩ := hy u hu
    refine ⟨hcode, fun ρ w => ?_⟩
    simpa [World.eval, htest ρ w, Value.isTruthy, hb] using hval ρ w

theorem generate_folded : ∀ {e : Node} {code : Code}, generate e = .ok code → code.Folded e
  | .identifier name, code, h => by
    simp only [generate, Except.ok.injEq] at h
    exact h ▸ folded_plain _ _
  | .literal l value, code, h => by
    simp only [generate, Except.ok.injEq] at h
    exact h ▸ folded_ofConstant fun ρ w => rfl
  | .field l object name, code, h => by
    obtain ⟨c, hc, rfl⟩ := generate_field_ok h
    exact folded_field (generate_folded hc)
  | .index l object index, code, h => by
    obtain ⟨c, i, -, -, rfl⟩ := generate_index_ok h
    exact folded_plain _ _
  | .unary l op a, code, h => by
    obtain ⟨-, c, hc, ⟨v, f, hv, hf, rfl⟩ | ⟨-, rfl⟩⟩ := generate_unary_ok h
    · exact folded_unary (generate_folded hc) hv hf
    · exact folded_plain _ _
  | .binary l op a b, code, h => by
    obtain ⟨-, c, d, hc, hd, ⟨u, v, f, hu, hv, hf, rfl⟩ | ⟨-, rfl⟩⟩ := generate_binary_ok h
    · exact folded_binary (generate_folded hc) (generate_folded hd) hu hv hf
    · exact folded_plain _ _
  | .logical l op a b, code, h => by
    obtain ⟨-, c, d, hc, hd, ⟨u, v, f, hu, hv, hf, rfl⟩ | ⟨-, rfl⟩⟩ := generate_logical_ok h
    · exact folded_logical (generate_folded hc) (generate_folded hd) hu hv hf
    · exact folded_plain _ _
  | .conditional l t x y, code, h => by
    obtain ⟨c, d, e, hc, hd, he, ⟨v, hv, rfl⟩ | ⟨-, rfl⟩⟩ := generate_conditional_ok h
    · exact folded_conditional (generate_folded hc) (generate_folded hd) (generate_folded he) hv
    · exact folded_plain _ _
  | .call l f args, code, h => by
    obtain ⟨c, texts, -, -, rfl⟩ := generate_call_ok h
    exact folded_plain _ _
  | .template l parts, code, h => by
    obtain ⟨texts, -, ⟨rfl, rfl⟩ | ⟨-, rfl⟩⟩ := generate_template_ok h
    · exact folded_ofConstant fun ρ w => rfl
    · exact folded_typed _ _ _
  | .array l es, code, h => by
    obtain ⟨texts, -, rfl⟩ := generate_array_ok h
    exact folded_typed _ _ _
  | .object l ps, code, h => by
    obtain ⟨codes, -, rfl⟩ := generate_object_ok h
    unfold objectCode
    split
    · exact folded_plain _ _
    · exact folded_typed _ _ _

/-! ## Everything built from constants is folded -/

def emptyWorld : World Empty where
  identifier _ := none
  member _ _ := none
  call _ _ := none
  array _ := none
  object _ := none
  template _ := none
  unary _ _ := none
  binary _ _ _ := none

theorem Node.Yields.unique {e : Node} {u v : Constant} (hu : e.Yields u) (hv : e.Yields v) :
    u = v := by
  have h := (hu Empty emptyWorld).symm.trans (hv Empty emptyWorld)
  simpa using h

theorem generate_closed {e : Node} (h : e.Closed) : ∃ v, generate e = .ok (.ofConstant v) := by
  induction h with
  | literal => exact ⟨_, rfl⟩
  | emptyTemplate => exact ⟨.string "", rfl⟩
  | @unary l op a hop _ ih =>
    obtain ⟨v, hv⟩ := ih
    obtain ⟨f, hf⟩ := unary?_isSome hop v
    exact ⟨f, by simp [hv, hop, Code.ofConstant, hf]⟩
  | @binary l op a b hop _ _ iha ihb =>
    obtain ⟨u, hu⟩ := iha
    obtain ⟨v, hv⟩ := ihb
    obtain ⟨f, hf⟩ := binary?_isSome hop u v
    exact ⟨f, by simp [hu, hv, hop, Code.ofConstant, hf]⟩
  | @logical l op a b hop _ _ iha ihb =>
    obtain ⟨u, hu⟩ := iha
    obtain ⟨v, hv⟩ := ihb
    obtain ⟨f, hf⟩ := logical?_isSome hop u v
    exact ⟨f, by simp [hu, hv, hop, Code.ofConstant, hf]⟩
  | @conditional l t c a _ _ _ iht ihc iha =>
    obtain ⟨v, hv⟩ := iht
    obtain ⟨x, hx⟩ := ihc
    obtain ⟨y, hy⟩ := iha
    refine ⟨if v.isTruthy then x else y, ?_⟩
    cases hb : v.isTruthy <;> simp [hv, hx, hy, Code.ofConstant, hb]
  | @length l n o s _ hs ih =>
    obtain ⟨v, hv⟩ := ih
    have hval : o.Yields v := (generate_folded hv v rfl).2
    obtain rfl : v = .string s := hval.unique hs
    exact ⟨.number (Number.ofNat (units s).length),
      by simp [hv, fieldCode, Code.ofConstant, Constant.type]⟩

/-- Folding is sound and complete. -/
theorem generate_constant_sound_complete :
    (∀ (e : Node) (code : Code) (v : Constant), generate e = .ok code → code.constant = some v →
      code.text = v.emit ∧ code.type = some v.type ∧
        ∀ (ρ : Type) (w : World ρ), w.eval e = some (.constant v)) ∧
    (∀ e : Node, e.Closed → ∃ code v, generate e = .ok code ∧ code.constant = some v) := by
  constructor
  · intro e code v h hv
    obtain ⟨rfl, hval⟩ := generate_folded h v hv
    exact ⟨rfl, rfl, hval⟩
  · intro e h
    obtain ⟨v, hv⟩ := generate_closed h
    exact ⟨_, v, hv, rfl⟩

/-- `'' ? x : true && 'a' + false`, where the branch that is not taken is open. -/
def deadBranch : Node :=
  .conditional default (.literal default (.string "")) (.identifier ⟨default, "x"⟩)
    (.logical default .and (.literal default (.boolean true))
      (.binary default .add (.literal default (.string "a")) (.literal default (.boolean false))))

def emptyLength : Node := .field default (.template default []) ⟨default, "length"⟩

theorem deadBranch_folded :
    generate deadBranch = .ok (.ofConstant (.string "afalse")) ∧
    (∀ (ρ : Type) (w : World ρ), w.eval deadBranch = some (.constant (.string "afalse"))) ∧
    emptyLength.Closed ∧ ∃ code v, generate emptyLength = .ok code ∧ code.constant = some v := by
  have hcode : generate deadBranch = .ok (.ofConstant (.string "afalse")) := rfl
  have hclosed : emptyLength.Closed := .length (s := "") .emptyTemplate fun _ _ => rfl
  exact ⟨hcode, (generate_constant_sound_complete.1 _ _ _ hcode rfl).2.2, hclosed,
    generate_constant_sound_complete.2 _ hclosed⟩

end VueToSan.Expr
