import VueToSan.Proofs.CodeEdges
import VueToSan.Proofs.EntryLookup
import VueToSan.Proofs.PartParses
import VueToSan.Proofs.RuleEffects

/-!
# Dynamic components

A component whose tag is a choice between two strings becomes a pair of elements under a test. The
test is cut out of the code by the span of its tree, which leaves parentheses at the edges behind,
so it can be read as long as its brackets match.
-/

namespace VueToSan.Transform

open VueToSan.Markup VueToSan.Text
open VueToSan.Expr (Closed Piped tokenize)

theorem interpolated?_inside (code : String) :
    interpolated? (interpolate code) = some (' ' :: (code.toList ++ [' '])) := by
  have hlist : (interpolate code).toList =
      '{' :: '{' :: (' ' :: (code.toList ++ [' ']) ++ ['}', '}']) := by simp [interpolate]
  simp [interpolated?, hlist]

theorem exists_choice {e test : Expr.Node} {c a : String}
    (h : e.unlocated = .conditional default test (.literal default (.string c))
      (.literal default (.string a))) :
    ∃ l t lc la, e = .conditional l t (.literal lc (.string c)) (.literal la (.string a)) ∧
      t.unlocated = test := by
  cases e with
  | conditional l t x y =>
    obtain ⟨-, rfl, hx, hy⟩ := Expr.Node.conditional.inj h
    cases x <;> cases hx
    cases y <;> cases hy
    exact ⟨l, t, _, _, rfl, rfl⟩
  | _ => cases h

structure IsChoice (e : Element) (test consequent alternate : String) (chosen other : Element) :
    Prop where
  head : chosen.head = { e.head with tag := consequent, attrs := chosen.head.attrs }
  otherHead : other.head = { e.head with tag := alternate, attrs := other.head.attrs }
  ownTest : chosen.head.attr? "s-if" = some test
  otherTest : other.head.attr? "s-else" = some ""
  dropped : chosen.head.attr? "is" = none ∧ other.head.attr? "is" = none
  attrs : ∀ name, name ≠ "is" → name ≠ "s-if" → chosen.head.attr? name = e.head.attr? name
  otherAttrs : ∀ name, name ≠ "is" → name ≠ "s-else" → other.head.attr? name = e.head.attr? name
  children : chosen.children = e.children ∧ other.children = e.children
  branches : chosen.branches = [⟨some test, .owner⟩, ⟨none, .element other⟩]
  otherBranches : other.branches = []

theorem isChoice_splitByTest (e : Element) (test consequent alternate : String) :
    ∃ other, IsChoice e test consequent alternate
      (splitByTest (e.mapHead (·.removeAttr "is")) test consequent alternate) other := by
  let bare := e.mapHead (·.removeAttr "is")
  have hbare (name : String) (hname : name ≠ "is") :
      bare.head.attrs.get? name = e.head.attr? name := by
    change (e.head.attrs.erase "is").get? name = _
    rw [Entries.get?_erase, if_neg hname]
    rfl
  have hdropped : bare.head.attrs.get? "is" = none := by
    change (e.head.attrs.erase "is").get? "is" = _
    rw [Entries.get?_erase, if_pos rfl]
  refine ⟨bare.derive alternate (bare.head.attrs.set "s-else" ""), rfl, rfl,
    Entries.get?_set_self, Entries.get?_set_self, ⟨?_, ?_⟩, ?_, ?_, ⟨rfl, rfl⟩, rfl, rfl⟩
  · exact (Entries.get?_set_of_ne (by decide)).trans hdropped
  · exact (Entries.get?_set_of_ne (by decide)).trans hdropped
  · exact fun name his hif => (Entries.get?_set_of_ne hif).trans (hbare name his)
  · exact fun name his helse => (Entries.get?_set_of_ne helse).trans (hbare name his)

/-- A component that is bound to a choice between two strings is resolved to the choice, whatever
its test is. The text of the test is parsed to the test, up to locations, if it can be parsed alone:
just when the brackets in it match and no bar stands outside of them. -/
theorem transformComponent_choice {e : Element} {code : String} {p : Piped} {l lc la : Location}
    {test : Expr.Node} {c a : String} (htag : e.head.tag = "component")
    (hplain : e.head.isConditional = false) (his : e.head.attr? "is" = some (interpolate code))
    (hparse : Expr.parse code = .ok p)
    (hchoice : p.expression =
      .conditional l test (.literal lc (.string c)) (.literal la (.string a))) :
    ∃ text chosen other, transformComponent e = .done chosen ∧ IsChoice e text c a chosen other ∧
      ((∃ q, Expr.parse text = .ok q ∧ q.unlocated = ⟨test.unlocated, [], default⟩) ↔
        ∃ ts, tokenize text 0 = .ok ts ∧ Closed false ts) := by
  obtain ⟨q, hq, hunlocated⟩ := Expr.parse_trim hparse
  have hexpression := congrArg Piped.expression hunlocated
  simp only [Piped.unlocated, hchoice, Expr.Node.unlocated] at hexpression
  obtain ⟨l', test', lc', la', hq', htest⟩ := exists_choice hexpression
  obtain ⟨other, hchosen⟩ := isChoice_splitByTest e
    (test'.span.slice (String.ofList (trim code.toList))) c a
  refine ⟨_, _, other, ?_, hchosen, ?_⟩
  · have hbare : (e.mapHead (·.removeAttr "is")).head.isConditional = false := hplain
    simp only [transformComponent, if_pos htag, his, interpolated?_inside, trim_between_spaces,
      resolveTag, hq, hbare, hq', literalTag?, Bool.false_eq_true, if_false]
  · rw [← htest]
    exact Expr.parse_test hq hq'

/-! ## Two components -/

def choice? : Expr.Node → Option (Expr.Node × String × String)
  | .conditional _ test (.literal _ (.string c)) (.literal _ (.string a)) => some (test, c, a)
  | _ => none

theorem eq_of_choice? {e test : Expr.Node} {c a : String} (h : choice? e = some (test, c, a)) :
    ∃ l lc la, e = .conditional l test (.literal lc (.string c)) (.literal la (.string a)) := by
  unfold choice? at h
  split at h
  · obtain ⟨rfl, rfl, rfl⟩ := by simpa using h
    exact ⟨_, _, _, rfl⟩
  · cases h

theorem exists_parsed_choice (code c a : String)
    (h : (Expr.parse code).toOption.bind (fun p => (choice? p.expression).map (·.2)) =
      some (c, a)) :
    ∃ p l test lc la, Expr.parse code = .ok p ∧
      p.expression = .conditional l test (.literal lc (.string c)) (.literal la (.string a)) := by
  obtain ⟨p, hp, hmap⟩ := Option.bind_eq_some_iff.1 h
  obtain ⟨⟨test, _⟩, hchoice, rfl⟩ := Option.map_eq_some_iff.1 hmap
  obtain ⟨l, lc, la, hexpression⟩ := eq_of_choice? hchoice
  exact ⟨p, l, test, lc, la, toOption_eq_some.1 hp, hexpression⟩

def sampleComponent : Element :=
  ⟨{ tag := "component",
     attrs := [("id", "c"), ("is", interpolate "(a && f(b)) ? 'x-big' : 'x-small'")] }, [], []⟩

theorem sampleComponent_resolved :
    ∃ chosen other q, transformComponent sampleComponent = .done chosen ∧
      IsChoice sampleComponent "a && f(b)" "x-big" "x-small" chosen other ∧
      Expr.parse "a && f(b)" = .ok q ∧ q.filters = [] := by
  obtain ⟨p, l, test, lc, la, hparse, hchoice⟩ :=
    exists_parsed_choice "(a && f(b)) ? 'x-big' : 'x-small'" "x-big" "x-small" (by decide +kernel)
  obtain ⟨text, chosen, other, hdone, hresolved, hread⟩ :=
    transformComponent_choice (e := sampleComponent) rfl rfl rfl hparse hchoice
  have hvalue : (transformComponent sampleComponent).value.head.attr? "s-if" =
      some "a && f(b)" := by
    decide +kernel
  rw [hdone, Edit.value, hresolved.ownTest] at hvalue
  obtain rfl := Option.some.inj hvalue
  have htokens : (tokenize "a && f(b)" 0).toOption.any (Closed false ·) = true := by
    decide +kernel
  obtain ⟨ts, hts, hclosed⟩ := (Option.any_eq_true _ _).1 htokens
  obtain ⟨q, hq, hunlocated⟩ := hread.2 ⟨ts, toOption_eq_some.1 hts, of_decide_eq_true hclosed⟩
  have hfilters := congrArg Piped.filters hunlocated
  exact ⟨chosen, other, q, hdone, hresolved, hq, List.map_eq_nil_iff.1 hfilters⟩

def cutComponent : Element :=
  ⟨{ tag := "component", attrs := [("is", interpolate "(a||b)&&c?'x':'y'")] }, [], []⟩

/-- Parentheses around the first operand of a test are cut in two: the test starts behind the one
that opens them, so that the one that closes them stands alone. -/
theorem first_operand_cut :
    (∃ p l test lc la, Expr.parse "(a||b)&&c?'x':'y'" = .ok p ∧
      p.expression =
        .conditional l test (.literal lc (.string "x")) (.literal la (.string "y"))) ∧
      (∃ chosen, transformComponent cutComponent = .done chosen ∧
        chosen.head.attr? "s-if" = some "a||b)&&c") ∧
      ∀ q, Expr.parse "a||b)&&c" ≠ .ok q := by
  have hvalue : (transformComponent cutComponent).value.head.attr? "s-if" = some "a||b)&&c" := by
    decide +kernel
  have hunread : (Expr.parse "a||b)&&c").toOption.isNone = true := by decide +kernel
  refine ⟨exists_parsed_choice _ "x" "y" (by decide +kernel),
    ⟨_, Edit.eq_done_of_error? (by decide +kernel), hvalue⟩, fun q hq => ?_⟩
  rw [hq] at hunread
  cases hunread

end VueToSan.Transform
