import VueToSan.Proofs.Occurrence
import VueToSan.Transform.Rules.Content
import VueToSan.Transform.Rules.Tag
import VueToSan.Transform.Walk

/-!
# What rules do

How an edit that is done came about, what rules keep that run one after the other, and which child
elements an element has after a rule.
-/

namespace VueToSan.Transform

open VueToSan.Markup

/-! ## Edits that are done -/

namespace Edit

variable {α β ι : Type}

theorem andThen_eq_done {x : Edit α} {f : α → Edit α} {b : α} :
    x.andThen f = .done b ↔ ∃ a, x = .done a ∧ f a = .done b := by
  cases x with
  | done a => simp [andThen]
  | failed error a => simp [andThen]

theorem map_eq_done {x : Edit α} {f : α → β} {b : β} :
    x.map f = .done b ↔ ∃ a, x = .done a ∧ f a = b := by
  cases x with
  | done a => simp [map]
  | failed error a => simp [map]

theorem eq_done_of_error? {x : Edit α} (h : x.error?.isNone) : x = .done x.value := by
  cases x with
  | done a => rfl
  | failed error a => cases h

theorem withCompiled_eq_done {source : String} {a b : α} {f : Expr.Compiled → Edit α} :
    withCompiled source a f = .done b ↔
      ∃ compiled, Expr.compile source = .ok compiled ∧ f compiled = .done b := by
  unfold withCompiled
  cases Expr.compile source with
  | ok compiled => simp
  | error e => simp

theorem withCode_eq_done {source : String} {a b : α} {f : String → Edit α} :
    withCode source a f = .done b ↔
      ∃ compiled, Expr.compile source = .ok compiled ∧ f compiled.text = .done b :=
  withCompiled_eq_done

theorem each_append (step : ι → α → Edit α) (is js : List ι) (a : α) :
    each step (is ++ js) a = (each step is a).andThen (each step js) := by
  induction is generalizing a with
  | nil => rfl
  | cons i is ih =>
    simp only [List.cons_append, each]
    cases step i a with
    | done b => exact ih b
    | failed error b => rfl

theorem each_keeps {step : ι → α → Edit α} {is : List ι} {P : α → Prop}
    (hstep : ∀ i ∈ is, ∀ a b, P a → step i a = .done b → P b) {a b : α} (ha : P a)
    (h : each step is a = .done b) : P b := by
  induction is generalizing a with
  | nil => cases h; exact ha
  | cons i is ih =>
    obtain ⟨c, hc, h⟩ := andThen_eq_done.1 h
    have hPc := hstep i List.mem_cons_self a c ha hc
    exact ih (fun j hj => hstep j (List.mem_cons_of_mem i hj)) hPc h

/-! ## Edits side by side -/

/-- Two edits end alike: done with values that `R` relates, or failed for one reason with values
that `S` relates. -/
inductive Related {γ : Type} (R S : α → γ → Prop) : Edit α → Edit γ → Prop
  | done {a : α} {c : γ} (h : R a c) : Related R S (.done a) (.done c)
  | failed (error : RuleError) {a : α} {c : γ} (h : S a c) :
    Related R S (.failed error a) (.failed error c)

namespace Related

variable {γ δ : Type} {R S : α → γ → Prop} {R' S' : β → δ → Prop} {x : Edit α} {y : Edit γ}

theorem map (h : Related R S x y) {f : α → β} {g : γ → δ} (hdone : ∀ a c, R a c → R' (f a) (g c))
    (hfailed : ∀ a c, S a c → S' (f a) (g c)) : Related R' S' (x.map f) (y.map g) := by
  cases h with
  | done h => exact .done (hdone _ _ h)
  | failed error h => exact .failed error (hfailed _ _ h)

theorem andThen {f : α → Edit α} {g : γ → Edit γ} (h : Related R S x y)
    (hnext : ∀ a c, R a c → Related R S (f a) (g c)) :
    Related R S (x.andThen f) (y.andThen g) := by
  cases h with
  | done h => exact hnext _ _ h
  | failed error h => exact .failed error h

theorem each {f : ι → α → Edit α} {g : ι → γ → Edit γ} {is : List ι}
    (hstep : ∀ i ∈ is, ∀ a c, R a c → Related R S (f i a) (g i c)) {a : α} {c : γ} (h : R a c) :
    Related R S (Edit.each f is a) (Edit.each g is c) := by
  induction is generalizing a c with
  | nil => exact .done h
  | cons i is ih =>
    rw [List.forall_mem_cons] at hstep
    exact (hstep.1 a c h).andThen fun b d hbd => ih hstep.2 hbd

theorem withCompiled {source : String} {a : α} {c : γ} {f : Expr.Compiled → Edit α}
    {g : Expr.Compiled → Edit γ} (h : S a c)
    (hnext : ∀ compiled, Related R S (f compiled) (g compiled)) :
    Related R S (Edit.withCompiled source a f) (Edit.withCompiled source c g) := by
  unfold Edit.withCompiled
  split
  · exact hnext _
  · exact .failed _ h

end Related

end Edit

/-! ## Rules that ran -/

/-- Where a rule is done with an element that satisfies `P`, it leaves one that satisfies `Q`. -/
def Rule.Takes (rule : Rule) (P Q : Element → Prop) : Prop :=
  ∀ e e' context context', P e → rule.after e context = .done (e', context') → Q e'

theorem Rule.takes_ofHead {name : String} {f : Head → Edit Head} {P Q : Element → Prop}
    (h : ∀ e head, P e → f e.head = .done head → Q { e with head }) :
    (Rule.ofHead name f).Takes P Q := by
  intro e e' context context' he hafter
  obtain ⟨head, hhead, heq⟩ := Edit.map_eq_done.1 hafter
  cases heq
  exact h e head he hhead

theorem Rule.takes_ofHeadAndContext {name : String}
    {f : Head × Context → Edit (Head × Context)} {P Q : Element → Prop}
    (h : ∀ e head context context', P e → f (e.head, context) = .done (head, context') →
      Q { e with head }) :
    (Rule.ofHeadAndContext name f).Takes P Q := by
  intro e e' context context' he hafter
  obtain ⟨⟨head, inner⟩, hhead, heq⟩ := Edit.map_eq_done.1 hafter
  cases heq
  exact h e head context context' he hhead

theorem Rule.takes_ofElement {name : String} {f : Element → Edit Element} {P Q : Element → Prop}
    (h : ∀ e e', P e → f e = .done e' → Q e') : (Rule.ofElement name f).Takes P Q := by
  intro e e' context context' he hafter
  obtain ⟨x, hx, heq⟩ := Edit.map_eq_done.1 hafter
  cases heq
  exact h e _ he hx

theorem Rule.takes_ofBefore {name : String} {f : Head → Head} {P : Element → Prop} :
    (Rule.ofBefore name f).Takes P P := by
  intro e e' context context' he hafter
  cases hafter
  exact he

theorem runAfter_cons {rule : Rule} {rules : List Rule} {e e' : Element}
    {context context' : Context}
    (h : runAfter (rule :: rules) e context = .done (e', context')) :
    ∃ x inner, rule.after e context = .done (x, inner) ∧
      runAfter rules x inner = .done (e', context') := by
  obtain ⟨⟨x, inner⟩, hrule, hrules⟩ := Edit.andThen_eq_done.1 h
  exact ⟨x, inner, hrule, hrules⟩

theorem runAfter_append {front back : List Rule} {e e' : Element} {context context' : Context}
    (h : runAfter (front ++ back) e context = .done (e', context')) :
    ∃ x inner, runAfter front e context = .done (x, inner) ∧
      runAfter back x inner = .done (e', context') := by
  rw [runAfter, Edit.each_append] at h
  obtain ⟨⟨x, inner⟩, hfront, hback⟩ := Edit.andThen_eq_done.1 h
  exact ⟨x, inner, hfront, hback⟩

theorem runAfter_keeps {rules : List Rule} {P : Element → Prop}
    (hrules : ∀ rule ∈ rules, rule.Takes P P) {e e' : Element} {context context' : Context}
    (he : P e) (h : runAfter rules e context = .done (e', context')) : P e' :=
  Edit.each_keeps (P := fun site : Element × Context => P site.1)
    (fun rule hrule a b ha hb => hrules rule hrule a.1 b.1 a.2 b.2 ha hb) he h

/-! ## Elements under work -/

/-- An element outside any chain whose head satisfies `Q` and below which all elements satisfy
`P`. -/
structure Below (P : Element → Prop) (Q : Head → Prop) (e : Element) : Prop where
  head : Q e.head
  alone : e.branches = []
  children : ∀ x, .element x ∈ e.children → x.All P

section Below

variable {P : Element → Prop} {Q Q' : Head → Prop}

theorem Below.withHead {e : Element} (h : Below P Q e) {head : Head} (hhead : Q' head) :
    Below P Q' { e with head } := ⟨hhead, h.alone, h.children⟩

theorem Below.all {e : Element} (h : Below P Q e) (he : P e) : e.All P := by
  obtain ⟨head, children, branches⟩ := e
  cases h.alone
  exact .of_children he h.children

theorem takes_ofHead_below {name : String} {f : Head → Edit Head}
    (hf : ∀ h h', Q h → f h = .done h' → Q' h') :
    (Rule.ofHead name f).Takes (Below P Q) (Below P Q') :=
  Rule.takes_ofHead fun e head he h => he.withHead (hf e.head head he.head h)

theorem takes_ofHeadAndContext_below {name : String} {f : Head × Context → Edit (Head × Context)}
    (hf : ∀ h h' context context', Q h → f (h, context) = .done (h', context') → Q' h') :
    (Rule.ofHeadAndContext name f).Takes (Below P Q) (Below P Q') :=
  Rule.takes_ofHeadAndContext fun e head context context' he h =>
    he.withHead (hf e.head head context context' he.head h)

end Below

/-! ## Content -/

theorem transformHtml_parts {e e' : Element} (h : transformHtml e = .done e') :
    e'.branches = e.branches ∧ ∀ x, .element x ∈ e'.children → .element x ∈ e.children := by
  unfold transformHtml at h
  split at h
  · cases h
    exact ⟨rfl, fun _ => id⟩
  · obtain ⟨compiled, -, h⟩ := Edit.withCode_eq_done.1 h
    cases h
    exact ⟨rfl, by simp⟩

theorem transformText_parts {e e' : Element} (h : transformText e = .done e') :
    e'.branches = e.branches ∧ ∀ x, .element x ∈ e'.children → .element x ∈ e.children := by
  unfold transformText at h
  split at h
  · cases h
    exact ⟨rfl, fun _ => id⟩
  · obtain ⟨compiled, -, h⟩ := Edit.withCode_eq_done.1 h
    cases h
    exact ⟨rfl, by simp [Node.ofText]⟩

theorem takes_html_below {P : Element → Prop} {Q Q' : Head → Prop}
    (hf : ∀ e e', Q e.head → transformContent e = .done e' → Q' e'.head) :
    htmlRule.Takes (Below P Q) (Below P Q') := by
  apply Rule.takes_ofElement
  intro e e' he h
  obtain ⟨x, hx, htext⟩ := Edit.andThen_eq_done.1 h
  obtain ⟨hbranches, hchildren⟩ := transformHtml_parts hx
  obtain ⟨hbranches', hchildren'⟩ := transformText_parts htext
  exact ⟨hf e e' he.head h, (hbranches'.trans hbranches).trans he.alone,
    fun y hy => he.children y (hchildren y (hchildren' y hy))⟩

/-! ## Marks of transitions -/

theorem markTransition_part {code : String} {e x : Element} (h : (markTransition code e).Part x) :
    e.Part x ∨ ∃ y, e.Part y ∧ x = setTransition code y := by
  cases h with
  | child h => exact .inl (.child h)
  | block h =>
    obtain ⟨⟨test, block⟩, hmem, heq⟩ := List.mem_map.1 h
    cases block with
    | owner => cases heq
    | element y =>
      cases heq
      exact .inr ⟨y, .block hmem, rfl⟩

theorem setTransition_part {code : String} {e x : Element} (h : (setTransition code e).Part x) :
    e.Part x := by
  cases h with
  | child h => exact .child h
  | block h => exact .block h

theorem setTransition_all {P : Element → Prop} {code : String}
    (hset : ∀ e, P e → P (setTransition code e)) {e : Element} (h : e.All P) :
    (setTransition code e).All P :=
  .intro (hset e h.self) fun _ hx => h.part (setTransition_part hx)

theorem markFirst_all {P : Element → Prop} {code : String}
    (hset : ∀ e, P e → P (setTransition code e))
    (hmark : ∀ e, P e → P (markTransition code e)) {nodes : List Node}
    (h : ∀ x, .element x ∈ nodes → x.All P) :
    ∀ x, .element x ∈ markFirst code nodes → x.All P := by
  fun_induction markFirst code nodes with
  | case1 => exact h
  | case2 e rest =>
    intro x hx
    rcases List.mem_cons.1 hx with hx | hx
    · cases hx
      have he := h e List.mem_cons_self
      apply Element.All.intro (hmark e he.self)
      intro x hx
      rcases markTransition_part hx with hx | ⟨y, hy, rfl⟩
      · exact he.part hx
      · exact setTransition_all hset (he.part hy)
    · exact h x (List.mem_cons_of_mem _ hx)
  | case3 node rest hnode ih =>
    intro x hx
    rcases List.mem_cons.1 hx with hx | hx
    · exact absurd hx.symm (hnode x)
    · exact ih (fun y hy => h y (List.mem_cons_of_mem _ hy)) x hx

theorem takes_transition_below {P : Element → Prop} {Q Q' : Head → Prop}
    (hset : ∀ code e, P e → P (setTransition code e))
    (hmark : ∀ code e, P e → P (markTransition code e))
    (hf : ∀ e, Q e.head → Q' (transformTransition e).head) :
    transitionRule.Takes (Below P Q) (Below P Q') := by
  apply Rule.takes_ofElement
  intro e e' he h
  cases h
  refine ⟨hf e he.head, ?_, ?_⟩
  · unfold transformTransition
    split <;> exact he.alone
  · unfold transformTransition
    split
    · exact markFirst_all (hset _) (hmark _) he.children
    · exact he.children

/-! ## Choices between two tags -/

theorem splitByTest_part {e x : Element} {test consequent alternate : String}
    (h : (splitByTest e test consequent alternate).Part x) :
    .element x ∈ e.children ∨ x = e.derive alternate (e.head.attrs.set "s-else" "") := by
  cases h with
  | child h => exact .inl h
  | @block choice x h =>
    have h : choice = none ∧ x = e.derive alternate (e.head.attrs.set "s-else" "") := by
      simpa [splitByTest] using h
    exact .inr h.2

end VueToSan.Transform
