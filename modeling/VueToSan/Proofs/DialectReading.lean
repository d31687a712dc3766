import VueToSan.Proofs.PreparedHeads
import VueToSan.Proofs.ReadTrees

/-!
# Reading the dialect

Walking a template with the rule for the dialect is walking the template in which every directive of
the dialect stands under its common name. The rule comes last, but it runs before the children of an
element, and so before its directive fields are filled.
-/

namespace VueToSan.Transform

open VueToSan.Markup

/-! ## Templates with common names -/

/-- A head with common names, its entries built again from what is declared. -/
def inCommonHead (h : Head) : Head :=
  let declared := h.declared.map fun a => { a with name := commonName a.name }
  { h with declared := declared, attrs := entriesOf declared }

mutual

def inCommon : Element → Element
  | ⟨head, children, branches⟩ =>
    ⟨inCommonHead head, inCommonEach children, inCommonBranches branches⟩

def inCommonEach : List Node → List Node
  | [] => []
  | .element e :: rest => .element (inCommon e) :: inCommonEach rest
  | node :: rest => node :: inCommonEach rest

def inCommonBranches : List Branch → List Branch
  | [] => []
  | ⟨test, .owner⟩ :: rest => ⟨test, .owner⟩ :: inCommonBranches rest
  | ⟨test, .element e⟩ :: rest => ⟨test, .element (inCommon e)⟩ :: inCommonBranches rest

end

def dialectRules : List Rule := builtinRules ++ [atomRule]

/-! ## One element -/

theorem commonName_of_unmarked {name : String} (h : "a-".toList.isPrefixOf name.toList = false) :
    commonName name = name := by
  rw [commonName, Text.stripStart?, h]
  rfl

theorem readDialect_eq {h : Head} (hattrs : h.attrs = entriesOf h.declared) :
    readDialect h = inCommonHead h := by
  unfold readDialect
  split
  · rfl
  · rename_i hnone
    have hsame : h.declared.map (fun a => { a with name := commonName a.name }) = h.declared := by
      conv_rhs => rw [← List.map_id h.declared]
      refine List.map_congr_left fun a ha => ?_
      have hname : "a-".toList.isPrefixOf a.name.toList = false :=
        Bool.eq_false_iff.2 fun hprefix => hnone (List.any_eq_true.2 ⟨a, ha, hprefix⟩)
      rw [commonName_of_unmarked hname]
      rfl
    rw [inCommonHead, hsame, ← hattrs]

theorem inCommonHead_fragmentHead (h : Head) :
    inCommonHead (fragmentHead h) = fragmentHead (inCommonHead h) := by
  unfold fragmentHead
  split
  · rename_i htag
    rw [if_pos (show (inCommonHead h).tag = "template" from htag)]
    rfl
  · rename_i htag
    rw [if_neg (show ¬(inCommonHead h).tag = "template" from htag)]

theorem runBefore_dialectRules {e : Element} (hattrs : e.head.attrs = entriesOf e.head.declared)
    (context : Context) :
    runBefore dialectRules e context = (fragmentHead (inCommonHead e.head), context) := by
  have hfragment : (fragmentHead e.head).attrs = entriesOf (fragmentHead e.head).declared := by
    unfold fragmentHead
    split <;> exact hattrs
  have hbefore := Options.runBefore_rules (o := { dialect := .atom }) rfl e context
  rw [← inCommonHead_fragmentHead, ← readDialect_eq hfragment]
  exact hbefore

theorem runBefore_commonRules (e : Element) (context : Context) :
    runBefore builtinRules e context = (fragmentHead e.head, context) :=
  Options.runBefore_rules (o := {}) rfl e context

theorem runAfter_dialectRules (e : Element) (context : Context) :
    runAfter dialectRules e context = runAfter builtinRules e context :=
  Options.runAfter_rules (o := { dialect := .atom }) rfl e context

/-! ## Walks side by side -/

/-- An element as it is read: its entries are those of its declared attributes, and it has no
chain. -/
structure AsRead (e : Element) : Prop where
  attrs : e.head.attrs = entriesOf e.head.declared
  branches : e.branches = []

/-- Two walks end alike: with the same tree and context, or for the same reason in the same
context. -/
abbrev SameEnd {α : Type} : Edit (α × Context) → Edit (α × Context) → Prop :=
  Edit.Related (· = ·) fun left right => left.2 = right.2

theorem sameEnd_refl {α : Type} (x : Edit (α × Context)) : SameEnd x x := by
  cases x with
  | done site => exact .done rfl
  | failed error site => exact .failed error rfl

mutual

theorem sameEnd_walkElement : (e : Element) → (h : e.All AsRead) → (context : Context) →
    SameEnd (walkElement dialectRules e context) (walkElement builtinRules (inCommon e) context)
  | ⟨head, children, branches⟩, h, context => by
    obtain ⟨hattrs, hbranches⟩ := h.self
    obtain rfl : branches = [] := hbranches
    have hbefore := runBefore_dialectRules (e := ⟨head, children, []⟩) hattrs context
    have hcommon := runBefore_commonRules ⟨inCommonHead head, inCommonEach children, []⟩ context
    simp only [inCommon, inCommonBranches, walkElement, hbefore, hcommon]
    have hchildren := sameEnd_walkEach children (fun x hx => h.child hx)
      (context.reportProblems (fragmentHead (inCommonHead head)).extract.2)
    generalize walkEach dialectRules children _ = left at hchildren ⊢
    generalize walkEach builtinRules (inCommonEach children) _ = right at hchildren ⊢
    cases hchildren with
    | failed error hsame => exact .failed error hsame
    | done hsame =>
      obtain rfl := hsame
      simp only [runAfter_dialectRules]
      exact sameEnd_refl _

theorem sameEnd_walkEach : (nodes : List Node) →
    (h : ∀ x, .element x ∈ nodes → x.All AsRead) → (context : Context) →
    SameEnd (walkEach dialectRules nodes context)
      (walkEach builtinRules (inCommonEach nodes) context)
  | [], _, context => .done rfl
  | .element e :: rest, h, context => by
    simp only [inCommonEach, walkEach]
    have he := sameEnd_walkElement e (h e List.mem_cons_self) context
    generalize walkElement dialectRules e context = left at he ⊢
    generalize walkElement builtinRules (inCommon e) context = right at he ⊢
    -- If the first element fails, both walks fail there.
    cases he with
    | failed error hsame => exact .failed error hsame
    | done hsame =>
      obtain rfl := hsame
      have hrest := fun x hx => h x (List.mem_cons_of_mem _ hx)
      refine (sameEnd_walkEach rest hrest _).map ?_ ?_
      · rintro a _ rfl
        rfl
      · exact fun a c hsame => hsame
  | .text content span :: rest, h, context => by
    have hrest := fun x hx => h x (List.mem_cons_of_mem _ hx)
    refine (sameEnd_walkEach rest hrest context).map ?_ ?_
    · rintro a _ rfl
      rfl
    · exact fun a c hsame => hsame
  | .comment content span :: rest, h, context => by
    have hrest := fun x hx => h x (List.mem_cons_of_mem _ hx)
    refine (sameEnd_walkEach rest hrest context).map ?_ ?_
    · rintro a _ rfl
      rfl
    · exact fun a c hsame => hsame

end

theorem sameEnd_walk {nodes : List Node} (h : ∀ e, Occurs nodes e → AsRead e) (context : Context) :
    SameEnd (walk dialectRules nodes context) (walk builtinRules (inCommonEach nodes) context) := by
  refine (sameEnd_walkEach nodes (fun x hx => Element.all_of_occurs hx h) context).andThen ?_
  rintro site _ rfl
  exact sameEnd_refl _

/-- A template in the dialect is walked as the template with common names is: both give the same
tree, named elements and problems, or both fail with the same error. -/
theorem walk_dialect (options : ReadOptions) (source : String) (context : Context) :
    (∃ result, walk dialectRules (read options source).value context = .done result ∧
      walk builtinRules (inCommonEach (read options source).value) context = .done result) ∨
    ∃ error left right, walk dialectRules (read options source).value context = .failed error left ∧
      walk builtinRules (inCommonEach (read options source).value) context =
        .failed error right := by
  have hread : ∀ e, Occurs (read options source).value e → AsRead e := fun e he =>
    ⟨he.isRead.attrs, he.isRead.branches⟩
  have hsame := sameEnd_walk hread context
  generalize walk dialectRules (read options source).value context = left at hsame ⊢
  generalize walk builtinRules (inCommonEach (read options source).value) context = right at hsame ⊢
  cases hsame with
  | done h => exact .inl ⟨_, rfl, h ▸ rfl⟩
  | failed error h => exact .inr ⟨error, _, _, rfl, rfl⟩

def sampleDialect : String := "<p a-if=\"x\" title=\"t\"><b a-html=\"y\"></b></p>"

theorem sampleDialect_walked :
    let nodes := (read {} sampleDialect).value
    (elementsEach nodes).map (·.head.attrs.keys) = [["a-if", "title"], ["a-html"]] ∧
      (elementsEach (inCommonEach nodes)).map (·.head.attrs.keys) =
        [["v-if", "title"], ["v-html"]] ∧
      ∃ result e, walk dialectRules nodes {} = .done result ∧
        walk builtinRules (inCommonEach nodes) {} = .done result ∧
        firstElement? result.1 = some e ∧ e.head.attr? "s-if" = some "x" ∧
        e.head.hasAttr "a-if" = false := by
  refine ⟨by decide +kernel, by decide +kernel, ?_⟩
  have heval : ((walk dialectRules (read {} sampleDialect).value {}).error?.isNone &&
      (firstElement? (walk dialectRules (read {} sampleDialect).value {}).value.1).any fun e =>
        e.head.attr? "s-if" == some "x" && !e.head.hasAttr "a-if") = true := by decide +kernel
  rcases walk_dialect {} sampleDialect {} with
    ⟨result, hdialect, hcommon⟩ | ⟨error, left, right, hfailed, -⟩
  · rw [hdialect, Bool.and_eq_true] at heval
    obtain ⟨e, he, hattrs⟩ := (Option.any_eq_true _ _).1 heval.2
    rw [Bool.and_eq_true, beq_iff_eq, Bool.not_eq_true'] at hattrs
    exact ⟨result, e, hdialect, hcommon, he, hattrs⟩
  · rw [hfailed] at heval
    cases heval

end VueToSan.Transform
