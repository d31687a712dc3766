import VueToSan.Expr.Code
import VueToSan.Proofs.Results

/-!
# How the code of a node comes about

One statement for each kind of node: from the code of the node to the codes of its parts. An
operator that the target language has, applied to constants, always has a rule in `Constant`, so
that code without a constant has a part without one.
-/

namespace VueToSan.Expr

open VueToSan.Text

attribute [simp] generate

theorem unary?_isSome {op : UnaryOp} (hop : op ∈ admittedUnary) (a : Constant) :
    ∃ c, Constant.unary? op a = some c := by
  cases op <;> simp_all [admittedUnary, Constant.unary?]

theorem binary?_isSome {op : BinaryOp} (hop : op ∈ admittedBinary) (a b : Constant) :
    ∃ c, Constant.binary? op a b = some c := by
  cases op <;> simp_all [admittedBinary, Constant.binary?]

theorem logical?_isSome {op : LogicalOp} (hop : op ∈ admittedLogical) (a b : Constant) :
    ∃ c, Constant.logical? op a b = some c := by
  cases op <;> simp_all [admittedLogical, Constant.logical?]

variable {l : Location} {code : Code}

theorem generate_field_ok {object : Node} {name : Name}
    (h : generate (.field l object name) = .ok code) :
    ∃ c, generate object = .ok c ∧ code = fieldCode c (wrap c.text object) name.text := by
  simp only [generate, bind_eq_ok, pure_eq_ok, Except.ok.injEq] at h
  obtain ⟨c, hc, rfl⟩ := h
  exact ⟨c, hc, rfl⟩

theorem generate_index_ok {object index : Node} (h : generate (.index l object index) = .ok code) :
    ∃ c i, generate object = .ok c ∧ generate index = .ok i ∧
      code = .plain (wrap c.text object ++ "[" ++ i.text ++ "]") := by
  simp only [generate, bind_eq_ok, pure_eq_ok, Except.ok.injEq] at h
  obtain ⟨c, hc, i, hi, rfl⟩ := h
  exact ⟨c, i, hc, hi, rfl⟩

theorem generate_unary_ok {op : UnaryOp} {a : Node} (h : generate (.unary l op a) = .ok code) :
    op ∈ admittedUnary ∧ ∃ c, generate a = .ok c ∧
      ((∃ v f, c.constant = some v ∧ Constant.unary? op v = some f ∧ code = .ofConstant f) ∨
        c.constant = none ∧ code = .plain (joinOperator "" op.text (wrap c.text a))) := by
  simp only [generate, bind_eq_ok] at h
  obtain ⟨c, hc, h⟩ := h
  by_cases hop : op ∈ admittedUnary
  · simp only [hop, not_true_eq_false, ↓reduceIte] at h
    refine ⟨hop, c, hc, ?_⟩
    cases hv : c.constant with
    | none =>
      simp only [hv, Option.bind_none] at h
      exact .inr ⟨rfl, by simpa using h.symm⟩
    | some v =>
      obtain ⟨f, hf⟩ := unary?_isSome hop v
      simp only [hv, Option.bind_some, hf] at h
      exact .inl ⟨v, f, rfl, hf, by simpa using h.symm⟩
  · simp [hop, throw, throwThe, MonadExceptOf.throw, bind, Except.bind] at h

theorem generate_binary_ok {op : BinaryOp} {a b : Node}
    (h : generate (.binary l op a b) = .ok code) :
    op ∈ admittedBinary ∧ ∃ c d, generate a = .ok c ∧ generate b = .ok d ∧
      ((∃ u v f, c.constant = some u ∧ d.constant = some v ∧ Constant.binary? op u v = some f ∧
          code = .ofConstant f) ∨
        (c.constant = none ∨ d.constant = none) ∧
          code = .plain (joinOperator (wrap c.text a) op.text (wrap d.text b))) := by
  simp only [generate, bind_eq_ok] at h
  obtain ⟨c, hc, d, hd, h⟩ := h
  by_cases hop : op ∈ admittedBinary
  · simp only [hop, not_true_eq_false, ↓reduceIte] at h
    refine ⟨hop, c, d, hc, hd, ?_⟩
    cases hu : c.constant with
    | none =>
      simp only [hu, Option.bind_none] at h
      exact .inr ⟨.inl rfl, by simpa using h.symm⟩
    | some u =>
      cases hv : d.constant with
      | none =>
        simp only [hu, hv, Option.bind_none, Option.bind_some] at h
        exact .inr ⟨.inr rfl, by simpa using h.symm⟩
      | some v =>
        obtain ⟨f, hf⟩ := binary?_isSome hop u v
        simp only [hu, hv, Option.bind_some, hf] at h
        exact .inl ⟨u, v, f, rfl, rfl, hf, by simpa using h.symm⟩
  · simp [hop, throw, throwThe, MonadExceptOf.throw, bind, Except.bind] at h

theorem generate_logical_ok {op : LogicalOp} {a b : Node}
    (h : generate (.logical l op a b) = .ok code) :
    op ∈ admittedLogical ∧ ∃ c d, generate a = .ok c ∧ generate b = .ok d ∧
      ((∃ u v f, c.constant = some u ∧ d.constant = some v ∧ Constant.logical? op u v = some f ∧
          code = .ofConstant f) ∨
        (c.constant = none ∨ d.constant = none) ∧
          code = .plain (wrap c.text a ++ op.text ++ wrap d.text b)) := by
  simp only [generate, bind_eq_ok] at h
  obtain ⟨c, hc, d, hd, h⟩ := h
  by_cases hop : op ∈ admittedLogical
  · simp only [hop, not_true_eq_false, ↓reduceIte] at h
    refine ⟨hop, c, d, hc, hd, ?_⟩
    cases hu : c.constant with
    | none =>
      simp only [hu, Option.bind_none] at h
      exact .inr ⟨.inl rfl, by simpa using h.symm⟩
    | some u =>
      cases hv : d.constant with
      | none =>
        simp only [hu, hv, Option.bind_none, Option.bind_some] at h
        exact .inr ⟨.inr rfl, by simpa using h.symm⟩
      | some v =>
        obtain ⟨f, hf⟩ := logical?_isSome hop u v
        simp only [hu, hv, Option.bind_some, hf] at h
        exact .inl ⟨u, v, f, rfl, rfl, hf, by simpa using h.symm⟩
  · simp [hop, throw, throwThe, MonadExceptOf.throw, bind, Except.bind] at h

theorem generate_conditional_ok {t x y : Node} (h : generate (.conditional l t x y) = .ok code) :
    ∃ c d e, generate t = .ok c ∧ generate x = .ok d ∧ generate y = .ok e ∧
      ((∃ v, c.constant = some v ∧ code = if v.isTruthy then d else e) ∨
        c.constant = none ∧
          code = .plain (wrap c.text t ++ "?" ++ wrap d.text x ++ ":" ++ wrap e.text y)) := by
  simp only [generate, bind_eq_ok] at h
  obtain ⟨c, hc, d, hd, e, he, h⟩ := h
  refine ⟨c, d, e, hc, hd, he, ?_⟩
  cases hv : c.constant with
  | none =>
    simp only [hv, pure_eq_ok, Except.ok.injEq] at h
    exact .inr ⟨rfl, h.symm⟩
  | some v =>
    simp only [hv, pure_eq_ok, Except.ok.injEq] at h
    exact .inl ⟨v, rfl, h.symm⟩

theorem generate_call_ok {f : Node} {args : List Node} (h : generate (.call l f args) = .ok code) :
    ∃ c texts, generate f = .ok c ∧ generateList args = .ok texts ∧
      code = .plain (wrap c.text f ++ "(" ++ joinWith ", " texts ++ ")") := by
  simp only [generate, bind_eq_ok, pure_eq_ok, Except.ok.injEq] at h
  obtain ⟨c, hc, texts, ht, rfl⟩ := h
  exact ⟨c, texts, hc, ht, rfl⟩

theorem generate_template_ok {parts : List Node} (h : generate (.template l parts) = .ok code) :
    ∃ texts, generateParts parts = .ok texts ∧
      (parts = [] ∧ code = .ofConstant (.string "") ∨
        parts ≠ [] ∧ code = .typed ("(" ++ joinWith "+" texts ++ ")") .string) := by
  simp only [generate, bind_eq_ok] at h
  obtain ⟨texts, ht, h⟩ := h
  refine ⟨texts, ht, ?_⟩
  cases parts with
  | nil => exact .inl ⟨rfl, by simpa using h.symm⟩
  | cons p ps => exact .inr ⟨by simp, by simpa using h.symm⟩

theorem generate_array_ok {es : List Node} (h : generate (.array l es) = .ok code) :
    ∃ texts, generateList es = .ok texts ∧
      code = .typed ("[" ++ joinWith ", " texts ++ "]") .array := by
  simp only [generate, bind_eq_ok, pure_eq_ok, Except.ok.injEq] at h
  obtain ⟨texts, ht, rfl⟩ := h
  exact ⟨texts, ht, rfl⟩

theorem generate_object_ok {ps : List Property} (h : generate (.object l ps) = .ok code) :
    ∃ codes, generateProperties ps = .ok codes ∧ code = objectCode codes := by
  simp only [generate, bind_eq_ok, pure_eq_ok, Except.ok.injEq] at h
  obtain ⟨codes, hc, rfl⟩ := h
  exact ⟨codes, hc, rfl⟩

end VueToSan.Expr
