import VueToSan.Proofs.HelperCalls
import VueToSan.Proofs.SourceKeys

/-!
# Sanitised content

The content of `v-safe-html` goes through the sanitiser `_sf` if it is the first of the html
directives of an element and an expression by itself. A directive before it wins, and the content
that should be sanitised is dropped for one that is not; a text that is no expression may close the
call that it is put in.
-/

namespace VueToSan.Transform

open VueToSan.Markup VueToSan.Text

/-! ## The first html directive -/

def firstNamed? (names : List String) (ds : List Directive) : Option Directive :=
  ds.find? fun d => names.contains d.name

variable {names names' : List String} {form v : String} {ds : List Directive} {d : Directive}

theorem firstNamed?_renameDirective (h : firstNamed? names ds = some d) (hform : form ∈ names)
    (hne : d.name ≠ form) (hsub : names' ⊆ names) (hd : d.name ∈ names') :
    firstNamed? names' (renameDirective form v ds) = some d := by
  induction ds with
  | nil => cases h
  | cons c ds ih =>
    rw [firstNamed?] at h
    by_cases hc : c.name ∈ names
    · rw [List.find?_cons_of_pos (by simpa using hc)] at h
      obtain rfl := Option.some.inj h
      rw [renameDirective, if_neg hne, firstNamed?, List.find?_cons_of_pos (by simpa using hd)]
    · rw [List.find?_cons_of_neg (by simpa using hc)] at h
      have hother : c.name ≠ form := fun heq => hc (heq ▸ hform)
      have hskip : c.name ∉ names' := fun hmem => hc (hsub hmem)
      rw [renameDirective, if_neg hother, firstNamed?,
        List.find?_cons_of_neg (by simpa using hskip)]
      exact ih h

theorem find?_html_renameDirective (h : firstNamed? names ds = some d) (hhtml : "html" ∈ names)
    (hform : form ∈ names) (hd : d.name = form) :
    (renameDirective form v ds).find? (·.name == "html") =
      some { d with name := "html", value := v } := by
  induction ds with
  | nil => cases h
  | cons c ds ih =>
    rw [firstNamed?] at h
    by_cases hc : c.name ∈ names
    · rw [List.find?_cons_of_pos (by simpa using hc)] at h
      obtain rfl := Option.some.inj h
      rw [renameDirective, if_pos hd, List.find?_cons_of_pos rfl]
    · rw [List.find?_cons_of_neg (by simpa using hc)] at h
      have hother : c.name ≠ form := fun heq => hc (heq ▸ hform)
      have hskip : c.name ≠ "html" := fun heq => hc (heq ▸ hhtml)
      rw [renameDirective, if_neg hother, List.find?_cons_of_neg (by simpa using hskip)]
      exact ih h

def htmlForms (h : Head) : List String :=
  if h.hasAttr "v-dangerous-html" then ["html", "dangerous-html", "safe-html"]
  else ["html", "safe-html"]

/-- The first html directive of an element is the one that is sanitised. -/
def SanitisedFirst (h : Head) : Prop :=
  (firstNamed? (htmlForms h) h.directives).map (·.name) = some "safe-html"

instance (h : Head) : Decidable (SanitisedFirst h) :=
  inferInstanceAs (Decidable (_ = _))

variable {h : Head} {value : String}

theorem firstNamed?_renameHtml (hfirst : SanitisedFirst h) :
    ∃ d, firstNamed? ["html", "safe-html"] (renameHtml "dangerous-html" id h).directives = some d ∧
      d.name = "safe-html" := by
  obtain ⟨d, hd, hname⟩ := Option.map_eq_some_iff.1 hfirst
  refine ⟨d, ?_, hname⟩
  unfold renameHtml
  split
  · rename_i hnone
    have habsent : h.hasAttr "v-dangerous-html" = false := by
      rw [Head.hasAttr, Entries.has_eq_isSome]
      exact congrArg Option.isSome hnone
    rwa [htmlForms, habsent] at hd
  · rename_i hsome
    have hpresent : h.hasAttr "v-dangerous-html" = true := by
      rw [Head.hasAttr, Entries.has_eq_isSome]
      exact congrArg Option.isSome hsome
    rw [htmlForms, hpresent, if_pos rfl] at hd
    exact firstNamed?_renameDirective hd (by decide) (by rw [hname]; decide) (by decide)
      (by rw [hname]; decide)

theorem contentSource?_sanitised (hattr : h.attr? "v-safe-html" = some value)
    (hfirst : SanitisedFirst h) :
    contentSource? (plainHtml h) "html" = some ("_sf(" ++ value ++ ")") := by
  obtain ⟨d, hd, hname⟩ := firstNamed?_renameHtml hfirst
  have hkept : (renameHtml "dangerous-html" id h).attr? ("v-" ++ "safe-html") = some value :=
    (attr?_renameHtml "dangerous-html" id h (by decide) (by decide)).trans hattr
  have hblank : allBlank ("_sf(" ++ value ++ ")") = false := by
    rw [allBlank, String.toList_append, String.toList_append]
    rfl
  rw [plainHtml]
  generalize renameHtml "dangerous-html" id h = middle at hd hkept ⊢
  have hhas : (renameHtml "safe-html" (fun value => "_sf(" ++ value ++ ")") middle).hasAttr
      "v-html" = true := by
    rw [Head.hasAttr, Entries.has_eq_isSome, renameHtml, hkept]
    exact congrArg Option.isSome Entries.get?_replace_self
  have hdirective : (renameHtml "safe-html" (fun value => "_sf(" ++ value ++ ")")
      middle).directive? "html" =
        some { d with name := "html", value := "_sf(" ++ value ++ ")" } := by
    rw [renameHtml, hkept]
    exact find?_html_renameDirective hd (by decide) (by decide) hname
  rw [contentSource?, show "v-" ++ "html" = "v-html" from rfl, if_pos hhas, directiveValue?,
    hdirective, Option.map_some, Option.filter_some, hblank]
  rfl

/-! ## The call of the sanitiser -/

def isCall : Expr.Node → Bool
  | .call .. => true
  | _ => false

theorem isCall_unlocated (e : Expr.Node) : isCall e.unlocated = isCall e := by
  cases e <;> rfl

theorem not_callsHelper {code helper : String}
    (h : (Expr.parse code).toOption.all (fun q => !isCall q.expression) = true)
    (args : List Expr.Node) : ¬ CallsHelper code helper args := by
  rintro ⟨q, hq, hcall⟩
  rw [hq, toOption_ok, Option.all_some, Bool.not_eq_true'] at h
  have hcalled : isCall q.expression.unlocated = true :=
    congrArg (fun q : Expr.Piped => isCall q.expression) hcall
  rw [isCall_unlocated, h] at hcalled
  cases hcalled

theorem transformContent_attr {e e' : Element} {source : String}
    (hsource : contentSource? (plainHtml e.head) "html" = some source)
    (hdone : transformContent e = .done e') :
    ∃ code, IsCode source code ∧ e'.head.attr? "s-html" = some (interpolate code) := by
  obtain ⟨mid, hmid, htext⟩ := transformContent_cases hdone
  rcases hmid with ⟨hnone, -⟩ | ⟨_, code, hsome, hcode, rfl⟩
  · rw [hsource] at hnone
    cases hnone
  · obtain rfl := Option.some.inj (hsource.symm.trans hsome)
    refine ⟨code, hcode, ?_⟩
    have hput : ((Step.put "v-html" "s-html" (interpolate code)).apply
        (plainHtml e.head)).attr? "s-html" = some (interpolate code) := attr?_apply_of_written rfl
    rcases htext with ⟨-, rfl⟩ | ⟨_, _, -, -, rfl⟩
    · exact hput
    · have hdrop : (Step.drop "v-text").Apart "s-html" :=
        ⟨by simp [Step.Spares, Step.written?], by simp [Step.taken?]⟩
      exact (attr?_apply_of_apart hdrop).trans hput

/-- Content that is to be sanitised is the only argument of the sanitiser, if it is an expression by
itself and no html directive stands before it. -/
theorem content_sanitised {e e' : Element} {x : Expr.Node}
    (hattr : e.head.attr? "v-safe-html" = some value) (hfirst : SanitisedFirst e.head)
    (hvalue : Expr.parseExpression value = .ok x) (hsafe : x.isDotSafe = true)
    (hdone : transformContent e = .done e') :
    ∃ code a, Expr.generate x = .ok code ∧ Expr.parseExpression code.text = .ok a ∧
      (x.isLegible = true → a.unlocated = x.normal.unlocated) ∧
      InterpolatesCall e'.head "s-html" "_sf" [] [a] := by
  have hname : Expr.isName "_sf" = true := by decide
  obtain ⟨_, ⟨compiled, hcompile, rfl⟩, hwritten⟩ :=
    transformContent_attr (contentSource?_sanitised hattr hfirst) hdone
  obtain ⟨texts, htexts, htext⟩ :=
    Expr.compile_call hname (.cons (Expr.isArgumentFor_of_parse hvalue) .nil) hcompile
  rw [htext] at hwritten
  simp only [Expr.generateList, bind_eq_ok, pure_eq_ok, Except.ok.injEq] at htexts
  obtain ⟨code, hcode, _, rfl, rfl⟩ := htexts
  have hspelled := Expr.parseExpression_isSpelled hvalue
  obtain ⟨y, hy⟩ := (Expr.generate_parses x hcode hsafe hspelled).whole
  obtain ⟨a, ha, -⟩ := Expr.parseExpression_of_reads hy
  refine ⟨code, a, hcode, ha, fun hlegible => ?_, ?_⟩
  · obtain ⟨a', ha', hsame⟩ :=
      Expr.parseExpression_of_reads (Expr.generate_reads x hcode hlegible hspelled).whole
    obtain rfl := Except.ok.inj (ha.symm.trans ha')
    exact hsame
  · refine interpolatesCall hname (.cons ⟨Expr.isArgumentFor_of_parse ha, fun _ => ?_⟩ .nil) hwritten
    exact Expr.plain_generate x hcode hspelled

def sampleContent : Element :=
  ⟨{ tag := "p",
     attrs := [("v-safe-html", "a + f('x', b)"), ("v-html", "y"), ("v-dangerous-html", "z")],
     directives := [⟨"safe-html", "v-safe-html", "a + f('x', b)", none, []⟩,
       ⟨"html", "v-html", "y", none, []⟩, ⟨"dangerous-html", "v-dangerous-html", "z", none, []⟩] },
   [], []⟩

theorem sampleContent_sanitised :
    ∃ x e' code a, Expr.parseExpression "a + f('x', b)" = .ok x ∧
      transformContent sampleContent = .done e' ∧ Expr.generate x = .ok code ∧
      Expr.parseExpression code.text = .ok a ∧ a.unlocated = x.normal.unlocated ∧
      InterpolatesCall e'.head "s-html" "_sf" [] [a] := by
  have hvalue : (Expr.parseExpression "a + f('x', b)").toOption.any
      (fun x => x.isDotSafe && x.isLegible) = true := by
    decide +kernel
  obtain ⟨x, hx, hboth⟩ := (Option.any_eq_true _ _).1 hvalue
  rw [toOption_eq_some] at hx
  rw [Bool.and_eq_true] at hboth
  have hdone : transformContent sampleContent = .done (transformContent sampleContent).value :=
    Edit.eq_done_of_error? (by decide +kernel)
  have hattr : sampleContent.head.attr? "v-safe-html" = some "a + f('x', b)" := rfl
  obtain ⟨code, a, hcode, ha, hnormal, hcall⟩ :=
    content_sanitised hattr (by decide) hx hboth.1 hdone
  exact ⟨x, _, code, a, hx, hdone, hcode, ha, hnormal hboth.2, hcall⟩

def shadowedContent : Element :=
  ⟨{ tag := "p", attrs := [("v-html", "y"), ("v-safe-html", "x")],
     directives := [⟨"html", "v-html", "y", none, []⟩,
       ⟨"safe-html", "v-safe-html", "x", none, []⟩] },
   [], []⟩

def closingContent : Element :=
  ⟨{ tag := "p", attrs := [("v-safe-html", "a) + (b")],
     directives := [⟨"safe-html", "v-safe-html", "a) + (b", none, []⟩] }, [], []⟩

/-- The content that is written is not sanitised behind another html directive, and only a part of
it is where the content closes the call. -/
theorem content_unsanitised :
    (∃ e', transformContent shadowedContent = .done e' ∧
      e'.head.attr? "s-html" = some "\x7b\x7b y \x7d\x7d" ∧
      ∀ args, ¬ CallsHelper "y" "_sf" args) ∧
    ∃ e', transformContent closingContent = .done e' ∧
      e'.head.attr? "s-html" = some "\x7b\x7b _sf(a)+b \x7d\x7d" ∧
      ∀ args, ¬ CallsHelper "_sf(a)+b" "_sf" args := by
  have hshadowed : (transformContent shadowedContent).value.head.attr? "s-html" =
      some "\x7b\x7b y \x7d\x7d" := by
    decide +kernel
  have hclosing : (transformContent closingContent).value.head.attr? "s-html" =
      some "\x7b\x7b _sf(a)+b \x7d\x7d" := by
    decide +kernel
  refine ⟨⟨_, Edit.eq_done_of_error? (by decide +kernel), hshadowed, ?_⟩,
    _, Edit.eq_done_of_error? (by decide +kernel), hclosing, ?_⟩
  · exact not_callsHelper (by decide +kernel)
  · exact not_callsHelper (by decide +kernel)

end VueToSan.Transform
