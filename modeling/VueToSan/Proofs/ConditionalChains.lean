import VueToSan.Markup.Writer
import VueToSan.Proofs.EntryLookup
import VueToSan.Proofs.WalkInvariant
import VueToSan.Transform.Builtin

/-!
# Conditional chains of walked templates

A chain comes about in two ways: elements that continue a conditional join the element before them,
and a component whose tag is a choice becomes two elements. In a walked template every chain starts
with the element that owns it, under its own test, and its else blocks start no chains. Such an
element is written as the elements of its chain, one after the other.
-/

namespace VueToSan.Markup

open VueToSan.Transform

def Head.ownTest? (h : Head) : Option String := h.ifTest.or (h.attr? "s-if")

def Branch.IsElse (b : Branch) : Prop := ∃ x, b.block = .element x ∧ x.branches = []

/-- An element is outside any chain, or its chain is the element itself and one else block at
least. -/
def Element.IsChained (e : Element) : Prop :=
  e.branches = [] ∨
    ∃ test first rest, e.branches = ⟨some test, .owner⟩ :: first :: rest ∧
      e.head.ownTest? = some test ∧ ∀ b ∈ first :: rest, b.IsElse

theorem ownTest?_setTransition (code : String) (e : Element) :
    (setTransition code e).head.ownTest? = e.head.ownTest? := by
  change e.head.ifTest.or ((e.head.attrs.set "s-transition" code).get? "s-if") = _
  rw [Entries.get?_set_of_ne (by decide)]
  rfl

theorem Branch.IsElse.marked {b : Branch} (h : b.IsElse) (code : String) :
    Branch.IsElse (match b.block with
      | .owner => b
      | .element branch => { b with block := .element (setTransition code branch) }) := by
  obtain ⟨x, hx, halone⟩ := h
  rw [hx]
  exact ⟨setTransition code x, rfl, halone⟩

namespace Element.IsChained

theorem of_no_branches {e : Element} (h : e.branches = []) : e.IsChained := .inl h

theorem setTransition {code : String} {e : Element} (h : e.IsChained) :
    (setTransition code e).IsChained := by
  rcases h with h | ⟨test, first, rest, hbranches, hown, helse⟩
  · exact .inl h
  · exact .inr ⟨test, first, rest, hbranches, (ownTest?_setTransition code e).trans hown, helse⟩

theorem markTransition {code : String} {e : Element} (h : e.IsChained) :
    (markTransition code e).IsChained := by
  rcases h with h | ⟨test, first, rest, hbranches, hown, helse⟩
  · left
    simp [Transform.markTransition, h]
  · right
    refine ⟨test, _, _, congrArg (List.map _) hbranches,
      (ownTest?_setTransition code e).trans hown, ?_⟩
    intro b hb
    rcases List.mem_cons.1 hb with rfl | hb
    · exact (helse first List.mem_cons_self).marked code
    · obtain ⟨c, hc, rfl⟩ := List.mem_map.1 hb
      exact (helse c (List.mem_cons_of_mem _ hc)).marked code

theorem addBranch {e b : Element} (h : e.IsChained) (hif : e.head.ifTest.isSome)
    (hb : b.branches = []) : (e.addBranch b).IsChained := by
  obtain ⟨test, htest⟩ := Option.isSome_iff_exists.1 hif
  have hown : e.head.ownTest? = some test := by rw [Head.ownTest?, htest, Option.some_or]
  have hnew : Branch.IsElse ⟨b.head.elseIfTest, .element b⟩ := ⟨b, rfl, hb⟩
  right
  rcases h with h | ⟨test', first, rest, hbranches, hown', helse⟩
  · refine ⟨test, _, [], ?_, hown, by simpa using hnew⟩
    simp [Element.addBranch, h, htest]
  · refine ⟨test', first, rest ++ [⟨b.head.elseIfTest, .element b⟩], ?_, hown', ?_⟩
    · simp [Element.addBranch, hbranches]
    · intro c hc
      rcases List.mem_append.1 (List.cons_append ▸ hc) with hc | hc
      · exact helse c hc
      · rw [List.mem_singleton.1 hc]
        exact hnew

end Element.IsChained

/-! ## Writing a chain -/

def Branch.elementIn (owner : Element) (b : Branch) : Element :=
  match b.block with
  | .owner => owner
  | .element e => e

def Element.chainElements (e : Element) : List Element :=
  if e.branches.isEmpty then [e] else e.branches.map (·.elementIn e)

theorem length_chainElements (e : Element) : e.chainElements.length = max 1 e.branches.length := by
  unfold Element.chainElements
  cases e.branches with
  | nil => rfl
  | cons b rest => simp

def writeAlone (o : WriteOptions) (e : Element) : String :=
  writeStartTag o e.head ++ writeNodes o e.children ++ writeEndTag e.head (!e.children.isEmpty)

theorem writeElement_eq (o : WriteOptions) (e : Element) :
    writeElement o e = writeAlone o e ++ writeBranches o e.branches := by
  obtain ⟨head, children, branches⟩ := e
  rfl

theorem writeElement_of_alone (o : WriteOptions) {e : Element} (h : e.branches = []) :
    writeElement o e = writeAlone o e := by
  rw [writeElement_eq, h, writeBranches, String.append_empty]

theorem writeBranches_eq_join (o : WriteOptions) (owner : Element) {branches : List Branch}
    (h : ∀ b ∈ branches, b.IsElse) :
    writeBranches o branches =
      String.join (branches.map fun b => writeAlone o (b.elementIn owner)) := by
  induction branches with
  | nil => rfl
  | cons b rest ih =>
    obtain ⟨test, block⟩ := b
    obtain ⟨x, hx, halone⟩ := h _ List.mem_cons_self
    cases hx
    rw [writeBranches, writeElement_of_alone o halone, List.map_cons, String.join_cons,
      ih fun c hc => h c (List.mem_cons_of_mem _ hc)]
    rfl

theorem writeElement_eq_join (o : WriteOptions) {e : Element} (h : e.IsChained) :
    writeElement o e = String.join (e.chainElements.map (writeAlone o)) := by
  rcases h with h | ⟨test, first, rest, hbranches, -, helse⟩
  · rw [writeElement_of_alone o h, Element.chainElements, h]
    simp
  · rw [writeElement_eq, Element.chainElements, hbranches, writeBranches,
      writeBranches_eq_join o e helse]
    simp [Branch.elementIn, Function.comp_def]

end VueToSan.Markup

namespace VueToSan.Transform

open VueToSan.Markup

/-! ## What the rules leave -/

abbrev ChainedBelow : Element → Prop := Below Element.IsChained fun _ => True

/-- An element whose rules have run. It may be a choice between two tags, but then it takes part in
no conditional of its own. -/
structure ChainWalked (e : Element) : Prop where
  chained : e.All Element.IsChained
  alone : e.head.isConditional → e.branches = []

theorem ChainedBelow.chainWalked {e : Element} (h : ChainedBelow e) : ChainWalked e :=
  ⟨h.all (.of_no_branches h.alone), fun _ => h.alone⟩

theorem splitByTest_chained {e : Element} (he : ChainedBelow e) (hif : e.head.ifTest = none)
    (test consequent alternate : String) :
    (splitByTest e test consequent alternate).All Element.IsChained := by
  apply Element.All.intro
  · refine .inr ⟨test, _, [], rfl, ?_, fun b hb => ?_⟩
    · change e.head.ifTest.or ((e.head.attrs.set "s-if" test).get? "s-if") = some test
      rw [hif, Entries.get?_set_self]
      rfl
    · rw [List.mem_singleton.1 hb]
      exact ⟨_, rfl, rfl⟩
  · intro x hx
    rcases splitByTest_part hx with hx | rfl
    · exact he.children x hx
    · exact .of_children (.of_no_branches rfl) he.children

theorem resolveTag_chained {code : String} {e e' : Element} (he : ChainedBelow e)
    (h : resolveTag code e = .done e') : ChainWalked e' := by
  unfold resolveTag at h
  split at h
  · cases h
  · split at h
    · cases h
    · rename_i hcond
      split at h
      · cases h
        exact ChainedBelow.chainWalked (he.withHead trivial)
      · split at h
        · cases h
          have hif : e.head.ifTest = none := by
            simp only [Head.isConditional, Bool.or_eq_true, not_or] at hcond
            simpa using hcond.1.1
          exact ⟨splitByTest_chained he hif _ _ _, fun hconditional => absurd hconditional hcond⟩
        · cases h
      · cases h

theorem transformComponent_chained {e e' : Element} (he : ChainedBelow e)
    (h : transformComponent e = .done e') : ChainWalked e' := by
  unfold transformComponent at h
  split at h
  · split at h
    · cases h
      exact ChainedBelow.chainWalked he
    · dsimp only at h
      split at h
      · cases h
        exact ChainedBelow.chainWalked (he.withHead trivial)
      · exact resolveTag_chained (he.withHead trivial) h
  · cases h
    exact ChainedBelow.chainWalked he

/-! ## The walk -/

def IsDialectRule (rule : Rule) : Prop := rule = atomRule ∨ ∃ classes, rule = cssModulesRule classes

theorem takes_chainedBelow :
    ∀ rule ∈ builtinRules.dropLast, rule.Takes ChainedBelow ChainedBelow := by
  have hhead (name : String) (f : Head → Edit Head) :
      (Rule.ofHead name f).Takes ChainedBelow ChainedBelow :=
    takes_ofHead_below fun _ _ _ _ => trivial
  have hcontext (name : String) (f : Head × Context → Edit (Head × Context)) :
      (Rule.ofHeadAndContext name f).Takes ChainedBelow ChainedBelow :=
    takes_ofHeadAndContext_below fun _ _ _ _ _ _ => trivial
  have hhtml : htmlRule.Takes ChainedBelow ChainedBelow :=
    takes_html_below fun _ _ _ _ => trivial
  have htransition : transitionRule.Takes ChainedBelow ChainedBelow :=
    takes_transition_below (fun _ _ => .setTransition) (fun _ _ => .markTransition)
      fun _ _ => trivial
  simp only [builtinRules, List.dropLast, List.forall_mem_cons]
  exact ⟨Rule.takes_ofBefore, hhead _ _, hhead _ _, hhead _ _, hhead _ _, hhead _ _, hhtml,
    hcontext _ _, hhead _ _, hhead _ _, hcontext _ _, htransition, by simp⟩

theorem takes_dynamicComponent : dynamicComponentRule.Takes ChainedBelow ChainWalked :=
  Rule.takes_ofElement fun _ _ => transformComponent_chained

theorem IsDialectRule.takes {rule : Rule} (h : IsDialectRule rule) {P : Element → Prop} :
    rule.Takes P P := by
  rcases h with rfl | ⟨classes, rfl⟩
  · exact Rule.takes_ofBefore
  · exact Rule.takes_ofBefore

theorem builtinRules_chained {extras : List Rule} (hextras : ∀ rule ∈ extras, IsDialectRule rule)
    {e e' : Element} {context context' : Context} (he : ChainedBelow e)
    (h : runAfter (builtinRules ++ extras) e context = .done (e', context')) : ChainWalked e' := by
  have hsplit : builtinRules ++ extras =
      builtinRules.dropLast ++ dynamicComponentRule :: extras := rfl
  rw [hsplit] at h
  obtain ⟨bare, inner, hfront, h⟩ := runAfter_append h
  obtain ⟨resolved, inner', hdynamic, h⟩ := runAfter_cons h
  have hbare : ChainedBelow bare := runAfter_keeps takes_chainedBelow he hfront
  have hresolved : ChainWalked resolved :=
    takes_dynamicComponent bare resolved inner inner' hbare hdynamic
  exact runAfter_keeps (fun rule hrule => (hextras rule hrule).takes) hresolved h

theorem chainInvariant {extras : List Rule} (hextras : ∀ rule ∈ extras, IsDialectRule rule) :
    WalkInvariant (builtinRules ++ extras) (fun e => e.branches = []) ChainWalked
      (Element.All Element.IsChained) where
  after e e' context inner outer children hsource hchildren _ h := by
    apply builtinRules_chained hextras _ h
    exact ⟨trivial, hsource, hchildren⟩
  settle e he _ := he.chained
  attach e b he hif hb hbranch := by
    have halone : b.branches = [] := by
      apply hb.alone
      simpa [Head.isConditional, Head.isBranch, or_assoc] using Or.inr hbranch
    exact Element.All.addBranch (he.self.addBranch hif halone) he hb.chained

/-- In a walked template every element is well chained, and it is written as the elements of its
chain in their order, as many as the chain has entries. -/
theorem walk_isChained {options : ReadOptions} {source : String} {extras : List Rule}
    (hextras : ∀ rule ∈ extras, IsDialectRule rule) {context context' : Context}
    {nodes : List Node}
    (h : walk (builtinRules ++ extras) (read options source).value context =
      .done (nodes, context')) {e : Element} (he : Occurs nodes e) :
    e.IsChained ∧ (∀ o, writeElement o e = String.join (e.chainElements.map (writeAlone o))) ∧
      e.chainElements.length = max 1 e.branches.length := by
  have hsource : ∀ x, Occurs (read options source).value x → x.branches = [] :=
    fun x hx => hx.of_all fun _ => read_fresh
  have hchained : e.IsChained := he.of_all ((chainInvariant hextras).settled_walk hsource h)
  exact ⟨hchained, fun o => writeElement_eq_join o hchained, length_chainElements e⟩

def sampleChain : String :=
  "<div><p v-if=\"a\">x</p> <b a-else-if=\"!b\"></b><i v-else></i>" ++
    "<component :is=\"c ? 'u' : 'v'\"/></div>"

def sampleChainCode : String := "<p s-if=\"a\">x</p><b s-else-if=\"!b\"></b><i s-else></i>"

theorem sampleChain_walked :
    ∃ nodes context' e, walk (builtinRules ++ [atomRule]) (read {} sampleChain).value {} =
        .done (nodes, context') ∧ Occurs nodes e ∧ e.branches.length = 3 ∧
      writeElement {} e = sampleChainCode ∧ e.IsChained ∧
      writeElement {} e = String.join (e.chainElements.map (writeAlone {})) := by
  generalize hresult : walk (builtinRules ++ [atomRule]) (read {} sampleChain).value {} = result
  have heval : (result.error?.isNone &&
      ((firstElement? result.value.1).bind fun root => firstElement? root.children).any fun e =>
        e.branches.length == 3 && writeElement {} e == sampleChainCode) = true := by
    rw [← hresult]
    decide +kernel
  simp only [Bool.and_eq_true, Option.any_eq_true, Option.bind_eq_some_iff, beq_iff_eq] at heval
  obtain ⟨hdone, e, ⟨root, hroot, he⟩, hlength, hcode⟩ := heval
  have hwalk : result = .done (result.value.1, result.value.2) := Edit.eq_done_of_error? hdone
  have hoccurs : Occurs result.value.1 e :=
    ⟨root, firstElement?_mem hroot, .single (.child (firstElement?_mem he))⟩
  have hchained := walk_isChained (by simp [IsDialectRule]) (hresult.trans hwalk) hoccurs
  exact ⟨_, _, e, hwalk, hoccurs, hlength, hcode, hchained.1, hchained.2.1 {}⟩

end VueToSan.Transform
