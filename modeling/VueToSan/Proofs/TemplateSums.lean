import VueToSan.Proofs.NormalValues

/-!
# Template strings as sums

The code of a template string adds the values of its parts from left to right. It is announced as a
text, but nothing makes it one: the sum is a text only if some part is, and it is the texts of the
parts one behind another if one of the first two parts is a text. Numbers in front of the first
text are added up as numbers.
-/

namespace VueToSan.Expr

/-! ## Sums of constants -/

namespace Constant

def sum : List Constant → Constant
  | [] => .string ""
  | v :: vs => vs.foldl .add v

theorem type_add (a b : Constant) :
    (a.add b).type = .string ↔ a.type = .string ∨ b.type = .string := by
  cases a <;> cases b <;> simp [add, type]

theorem type_foldl_add (vs : List Constant) (a : Constant) :
    (vs.foldl .add a).type = .string ↔ a.type = .string ∨ ∃ v ∈ vs, v.type = .string := by
  induction vs generalizing a with
  | nil => simp
  | cons v vs ih => simp [ih, type_add, or_assoc]

theorem type_sum (vs : List Constant) :
    (sum vs).type = .string ↔ vs = [] ∨ ∃ v ∈ vs, v.type = .string := by
  cases vs with
  | nil => simp [sum, type]
  | cons v vs => simp [sum, type_foldl_add]

theorem add_of_string {a b : Constant} (h : a.type = .string ∨ b.type = .string) :
    a.add b = .string (a.toText ++ b.toText) := by
  cases a <;> cases b <;> simp_all [add, type, toText]

theorem foldl_add_of_string (vs : List Constant) {a : Constant} (h : a.type = .string) :
    vs.foldl .add a = .string (a.toText ++ String.join (vs.map (·.toText))) := by
  induction vs generalizing a with
  | nil =>
    obtain ⟨s, rfl⟩ : ∃ s, a = .string s := by cases a <;> simp_all [type]
    simp [toText]
  | cons v vs ih =>
    have hsum := add_of_string (b := v) (.inl h)
    rw [List.foldl_cons, ih ((type_add a v).2 (.inl h)), hsum]
    simp [toText, String.append_assoc]

theorem sum_of_string {vs : List Constant} (h : vs = [] ∨ ∃ v ∈ vs.take 2, v.type = .string) :
    sum vs = .string (String.join (vs.map (·.toText))) := by
  match vs, h with
  | [], _ => rfl
  | [v], h =>
    have hv : v.type = .string := by simpa using h
    simpa [sum] using foldl_add_of_string [] hv
  | u :: v :: vs, h =>
    have huv : u.type = .string ∨ v.type = .string := by simpa using h
    have hsum := foldl_add_of_string vs ((type_add u v).2 huv)
    rw [sum, List.foldl_cons, hsum, add_of_string huv]
    simp [toText, String.append_assoc]

end Constant

/-! ## The value of a sum -/

variable {ρ : Type} {w : World ρ}

theorem eval_foldl_add {es : List Node} {vs : List Constant}
    (h : w.evalList es = some (vs.map .constant)) {e : Node} {a : Constant}
    (he : w.eval e = some (.constant a)) :
    w.eval (es.foldl (.binary default .add) e) = some (.constant (vs.foldl .add a)) := by
  induction es generalizing vs e a with
  | nil =>
    obtain rfl : vs = [] := by simpa [World.evalList] using h.symm
    exact he
  | cons next es ih =>
    simp only [World.evalList, Option.bind_eq_bind, Option.bind_eq_some_iff, Option.some.injEq] at h
    obtain ⟨x, hx, xs, hxs, hvs⟩ := h
    obtain ⟨v, vs, rfl, rfl, rfl⟩ := List.map_eq_cons_iff.1 hvs.symm
    refine ih hxs ?_
    simp [World.eval, he, hx, World.applyBinary, Constant.binary?]

theorem eval_sumNode {es : List Node} {vs : List Constant}
    (h : w.evalList es = some (vs.map .constant)) :
    w.eval (sumNode es) = some (.constant (Constant.sum vs)) := by
  cases es with
  | nil =>
    obtain rfl : vs = [] := by simpa [World.evalList] using h.symm
    rfl
  | cons e es =>
    simp only [World.evalList, Option.bind_eq_bind, Option.bind_eq_some_iff, Option.some.injEq] at h
    obtain ⟨x, hx, xs, hxs, hvs⟩ := h
    obtain ⟨v, vs, rfl, rfl, rfl⟩ := List.map_eq_cons_iff.1 hvs.symm
    exact eval_foldl_add hxs hx

/-! ## The code of a template string -/

variable {l : Location} {parts : List Node}

theorem isLegible_template (h : ∀ e ∈ parts, e.isOperation = true) :
    (Node.template l parts).isLegible = true := by
  induction parts with
  | nil => rfl
  | cons e es ih =>
    obtain ⟨he, hes⟩ := List.forall_mem_cons.1 h
    have hparts := ih hes
    rw [Node.isLegible, Bool.and_eq_true] at hparts ⊢
    rw [List.all_cons, areLegible, Node.isEquality_operation he, Node.isLegible_operation he]
    exact hparts

theorem generate_template (h : ∀ e ∈ parts, e.isOperation = true) :
    ∃ code, generate (.template l parts) = .ok code ∧ code.type = some .string := by
  obtain ⟨texts, htexts⟩ := generateParts_operations h
  cases parts with
  | nil => exact ⟨_, rfl, rfl⟩
  | cons e es => exact ⟨_, by rw [generate, htexts]; rfl, rfl⟩

theorem compile_unfiltered {source : String} {p : Piped} {code : Code}
    (hparse : parse source = .ok p) (hfilters : p.filters = [])
    (hcode : generate p.expression = .ok code) :
    compile source = .ok ⟨some p.expression, code⟩ := by
  have hblank := allBlank_of_parse hparse
  simp [compile, hblank, hparse, generatePiped, hcode, hfilters]

theorem compile_template_sum {source : String} {p : Piped} (env : String → Constant)
    (hparse : parse source = .ok p) (hexpr : p.expression = .template l parts)
    (hfilters : p.filters = []) (hparts : ∀ e ∈ parts, e.isOperation = true)
    (hwritten : ∀ e ∈ parts, ∀ c ∈ e.emitted, c.isWritten env = true) :
    ∃ compiled q vs,
      compile source = .ok compiled ∧ compiled.code.type = some .string ∧
      parse compiled.text = .ok q ∧ q.filters = [] ∧
      (World.ofNames env).evalList parts = some (vs.map .constant) ∧
      (World.ofNames env).eval q.expression = some (.constant (Constant.sum vs)) ∧
      ((Constant.sum vs).type = .string ↔ vs = [] ∨ ∃ v ∈ vs, v.type = .string) ∧
      ((vs = [] ∨ ∃ v ∈ vs.take 2, v.type = .string) →
        Constant.sum vs = .string (String.join (vs.map (·.toText)))) := by
  obtain ⟨code, hcode, htype⟩ := generate_template (l := l) hparts
  rw [← hexpr] at hcode
  have hcompile := compile_unfiltered hparse hfilters hcode
  have hlegible : p.expression.isLegible = true := hexpr ▸ isLegible_template hparts
  have hreads := generate_reads p.expression hcode hlegible (parse_isSpelled hparse).1
  obtain ⟨q, hq, hfree, hnormal⟩ := parse_unfiltered hreads.whole
  obtain ⟨vs, hvs⟩ := evalList_operations env hparts
  have hvalue : (World.ofNames env).eval q.expression = some (.constant (Constant.sum vs)) := by
    have hsame : q.expression.unlocated = (sumNode (normalList parts)).unlocated := by
      rw [hnormal, hexpr, Node.normal]
    rw [← World.eval_unlocated, hsame, World.eval_unlocated]
    refine eval_sumNode ?_
    rw [evalList_normal hparts fun e he c hc => eval_constantNode (hwritten e he c hc), hvs]
  exact ⟨_, q, vs, hcompile, htype, hq, hfree, hvs, hvalue, Constant.type_sum vs,
    Constant.sum_of_string⟩

deriving instance DecidableEq for Value

def sampleGreeting : String :=
  "\x60$\x7ba\x7d: $\x7bb * 2 + 1 / 0\x7d$\x7bc ? 'yes' : -1\x7d\x60"

def sampleNames : String → Constant
  | "a" => .number 1
  | "b" => .number 2
  | "c" => .boolean true
  | "Infinity" => .number Number.infinity
  | _ => .undefined

theorem sampleGreeting_sum :
    ∃ p l parts, parse sampleGreeting = .ok p ∧ p.expression = .template l parts ∧
      p.filters = [] ∧ (∀ e ∈ parts, e.isOperation = true) ∧
      (∀ e ∈ parts, ∀ c ∈ e.emitted, c.isWritten sampleNames = true) ∧
      ∃ compiled q, compile sampleGreeting = .ok compiled ∧
        compiled.text = "(a+': '+((b*2)+(Infinity))+(c?'yes':-1))" ∧
        parse compiled.text = .ok q ∧
        (World.ofNames sampleNames).eval q.expression =
          some (.constant (.string "1: Infinityyes")) := by
  have hparse : (parse sampleGreeting).toOption.any (fun p =>
      match p.expression with
      | .template _ parts =>
        p.filters.isEmpty && parts.all (·.isOperation) &&
          parts.all (fun e => e.emitted.all (·.isWritten sampleNames)) &&
          decide ((World.ofNames sampleNames).eval (sumNode parts) =
            some (.constant (.string "1: Infinityyes")))
      | _ => false) = true := by
    decide +kernel
  have hcompile : (compile sampleGreeting).toOption.map (·.text) =
      some "(a+': '+((b*2)+(Infinity))+(c?'yes':-1))" := by
    decide +kernel
  obtain ⟨p, hp, hsample⟩ := (Option.any_eq_true _ _).1 hparse
  obtain ⟨compiled, hcompiled, htext⟩ := Option.map_eq_some_iff.1 hcompile
  rw [toOption_eq_some] at hp hcompiled
  split at hsample
  · rename_i l parts hexpr
    simp only [Bool.and_eq_true, List.isEmpty_iff, List.all_eq_true, decide_eq_true_eq] at hsample
    obtain ⟨⟨⟨hfilters, hparts⟩, hwritten⟩, hsum⟩ := hsample
    obtain ⟨compiled', q, vs, hcompiled', -, hq, -, hvs, hvalue, -⟩ :=
      compile_template_sum sampleNames hp hexpr hfilters hparts hwritten
    obtain rfl : compiled = compiled' := Except.ok.inj (hcompiled.symm.trans hcompiled')
    exact ⟨p, l, parts, hp, hexpr, hfilters, hparts, hwritten, compiled, q, hcompiled, htext, hq,
      hvalue.trans ((eval_sumNode hvs).symm.trans hsum)⟩
  · cases hsample

/-- The code of a template string of two names that stand for numbers is a number. -/
theorem numbers_added_up :
    ∃ compiled q, compile "\x60$\x7ba\x7d$\x7bb\x7d\x60" = .ok compiled ∧
      compiled.code.type = some .string ∧ parse compiled.text = .ok q ∧
      (World.ofNames sampleNames).eval q.expression = some (.constant (.number 3)) := by
  have hrun : (compile "\x60$\x7ba\x7d$\x7bb\x7d\x60").toOption.any (fun compiled =>
      decide (compiled.code.type = some .string) && (parse compiled.text).toOption.any fun q =>
        decide ((World.ofNames sampleNames).eval q.expression =
          some (.constant (.number 3)))) = true := by
    decide +kernel
  obtain ⟨compiled, hcompiled, hcode⟩ := (Option.any_eq_true _ _).1 hrun
  rw [Bool.and_eq_true] at hcode
  obtain ⟨q, hq, hvalue⟩ := (Option.any_eq_true _ _).1 hcode.2
  rw [toOption_eq_some] at hcompiled hq
  exact ⟨compiled, q, hcompiled, of_decide_eq_true hcode.1, hq, of_decide_eq_true hvalue⟩

end VueToSan.Expr
