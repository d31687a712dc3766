import VueToSan.Proofs.ChainedSiblings
import VueToSan.Proofs.IdleRules
import VueToSan.Proofs.JoinedTexts
import VueToSan.Proofs.ReadTrees

/-!
# Plain markup

Markup without directives and interpolations is compiled without an error, where San reads markup
in the same way: void elements are written in lower case, what stands in `script`, `style` and
`textarea` is no markup, and texts between which a comment is left out do not become markup or an
interpolation.
-/

namespace VueToSan.Transform

open VueToSan.Markup VueToSan.Text

/-! ## Heads -/

structure IsPlainHead (h : Head) : Prop where
  tag : h.tag ∉ specialTags
  loop : h.loop = none
  declared : ∀ a ∈ h.declared, isMarked a.name = false
  attrs : ∀ entry ∈ h.attrs,
    isAttrName entry.1 = true ∧ isMarked entry.1 = false ∧ Unbraced entry.2.toList

theorem IsPlainHead.attr? {h : Head} (hh : IsPlainHead h) (name : String)
    (hmarked : isMarked name = true) : h.attr? name = none := by
  apply Entries.get?_eq_none_of_forall
  rintro entry hentry rfl
  have hplain := (hh.attrs entry hentry).2.1
  rw [hmarked] at hplain
  cases hplain

theorem IsPlainHead.idle {h : Head} (hh : IsPlainHead h) : IsIdle h.extract.1 := by
  have hfilled (name : String) (hmarked : isMarked name = true) : h.filled? name = none := by
    rw [Head.filled?, hh.attr? name hmarked]
    rfl
  have hbound (name : String) (hcolon : isMarked (":" ++ name) = true)
      (hbind : isMarked ("v-bind:" ++ name) = true) : h.bound? name = none := by
    rw [Head.bound?, hfilled _ hcolon, hfilled _ hbind]
    rfl
  refine ⟨hfilled _ (by decide), hfilled _ (by decide), ?_, ?_, hbound _ (by decide) (by decide),
    hbound _ (by decide) (by decide), ?_, hh.declared, fun entry hentry =>
    .inl (hh.attrs entry hentry).2.1⟩
  · change h.hasAttr "v-else" = false
    rw [Head.hasAttr, Entries.has_eq_isSome, ← Head.attr?, hh.attr? _ (by decide)]
    rfl
  · change (((h.filled? "v-for").bind Loop.ofText?).orElse fun _ => h.loop) = none
    rw [hfilled _ (by decide), hh.loop]
    rfl
  · change h.declared.filterMap (·.directive?) = []
    rw [List.filterMap_eq_nil_iff]
    exact fun a ha => directive?_of_not_marked (hh.declared a ha)

/-! ## Classes of a style module -/

theorem unbraced_append {a b : List Char} {c : Char} (ha : Unbraced a) (hb : Unbraced b)
    (hc : c ≠ '{' ∧ c ≠ '=') : Unbraced (a ++ c :: b) := by
  refine List.isChain_append.2 ⟨ha, List.isChain_cons.2 ⟨fun d _ h => absurd h hc.1, hb⟩, ?_⟩
  rintro x - y hy -
  obtain rfl : c = y := Option.some.inj hy
  exact hc

theorem unbraced_joinWith {texts : List String} (h : ∀ t ∈ texts, Unbraced t.toList) :
    Unbraced (joinWith " " texts).toList := by
  induction texts with
  | nil => exact .nil
  | cons s texts ih =>
    rw [List.forall_mem_cons] at h
    cases texts with
    | nil => exact h.1
    | cons t texts =>
      have hjoin : (joinWith " " (s :: t :: texts)).toList =
          s.toList ++ ' ' :: (joinWith " " (t :: texts)).toList := by
        simp [joinWith]
      rw [hjoin]
      exact unbraced_append h.1 (ih h.2) (by decide)

theorem infix_of_mem_splitOn {sep : Char} {cs piece : List Char} (h : piece ∈ splitOn sep cs) :
    piece <:+: cs := by
  -- The first piece stands at the start of the text, so a character can be put in front of it.
  suffices hsplit : ∀ first pieces, splitOn sep cs = first :: pieces →
      first <+: cs ∧ ∀ p ∈ pieces, p <:+: cs by
    cases hpieces : splitOn sep cs with
    | nil =>
      rw [hpieces] at h
      cases h
    | cons first pieces =>
      obtain ⟨hfirst, hrest⟩ := hsplit first pieces hpieces
      rw [hpieces] at h
      rcases List.mem_cons.1 h with rfl | h
      · exact hfirst.isInfix
      · exact hrest piece h
  clear h
  induction cs with
  | nil =>
    intro first pieces hpieces
    obtain ⟨rfl, rfl⟩ : first = [] ∧ pieces = [] := by simpa [splitOn, eq_comm] using hpieces
    exact ⟨List.prefix_rfl, by simp⟩
  | cons c cs ih =>
    intro first pieces hpieces
    rw [splitOn] at hpieces
    split at hpieces
    · obtain ⟨rfl, rfl⟩ := List.cons.inj hpieces
      refine ⟨ List.nil_prefix, fun p hp => List.IsInfix.trans ?_ (List.suffix_cons c cs).isInfix⟩
      cases hsplit : splitOn sep cs with
      | nil =>
        rw [hsplit] at hp
        cases hp
      | cons next others =>
        obtain ⟨hnext, hothers⟩ := ih next others hsplit
        rw [hsplit] at hp
        rcases List.mem_cons.1 hp with rfl | hp
        · exact hnext.isInfix
        · exact hothers p hp
    · split at hpieces
      · obtain ⟨rfl, rfl⟩ := List.cons.inj hpieces
        exact ⟨List.cons_prefix_cons.2 ⟨rfl, List.nil_prefix⟩, by simp⟩
      · rename_i next others hsplit
        obtain ⟨rfl, rfl⟩ := List.cons.inj hpieces
        obtain ⟨hnext, hothers⟩ := ih next _ hsplit
        exact ⟨List.cons_prefix_cons.2 ⟨rfl, hnext⟩,
          fun p hp => (hothers p hp).trans (List.suffix_cons c cs).isInfix⟩

theorem unbraced_mapClasses {classes : Entries String}
    (hclasses : ∀ entry ∈ classes, Unbraced entry.2.toList) {value : String}
    (hvalue : Unbraced value.toList) : Unbraced (mapClasses classes value).toList := by
  have hname {name : List Char} (hname : name <:+: value.toList) :
      Unbraced (mapClassName classes (String.ofList name)).toList := by
    unfold mapClassName
    cases hget : classes.get? (camelize (String.ofList name)) with
    | none =>
      rw [Option.getD_none, String.toList_ofList]
      exact hvalue.part hname
    | some mapped => exact hclasses _ (Entries.mem_of_get? hget)
  have htail (cs : List Char) : (if cs.head? = some '\x22' then cs.tail else cs) <:+: cs := by
    split
    · exact (List.tail_suffix cs).isInfix
    · exact List.infix_rfl
  have hlast (cs : List Char) : (if cs.getLast? = some '\x22' then cs.dropLast else cs) <:+: cs := by
    split
    · exact ( List.dropLast_prefix cs).isInfix
    · exact List.infix_rfl
  apply unbraced_joinWith
  intro t ht
  obtain ⟨name, hmem, rfl⟩ := List.mem_map.1 ht
  exact hname ((infix_of_mem_splitOn hmem).trans ((hlast _).trans (htail _)))

theorem IsPlainHead.prepare {o : Options}
    (hclasses : ∀ entry ∈ o.classes.getD [], Unbraced entry.2.toList) {h : Head}
    (hh : IsPlainHead h) : IsPlainHead (o.prepare h) := by
  have hfragment : fragmentHead h = h := by
    rw [fragmentHead, if_neg]
    intro heq
    exact hh.tag (heq ▸ by decide)
  -- A directive of the dialect would start with a mark, which no declared name does.
  have hdialect : o.inDialect h = h := by
    unfold Options.inDialect readDialect
    split
    · rfl
    · rw [if_neg]
      rw [List.any_eq_true]
      rintro ⟨a, ha, hstart⟩
      have hplain := hh.declared a ha
      rw [isPrefixOf_mark "a-" (by decide) hstart] at hplain
      cases hplain
  rw [Options.prepare, hfragment, hdialect, Options.withClasses]
  split
  · exact hh
  · exact hh
  · rename_i classes _ hsome
    rw [hsome] at hclasses
    unfold mapFixedClass
    split
    · exact hh
    · rename_i value hvalue
      obtain ⟨hvalue, -⟩ := Option.filter_eq_some_iff.1 hvalue
      refine ⟨hh.tag, hh.loop, fun a ha => ?_, fun entry hentry => ?_⟩
      · obtain ⟨b, hb, rfl⟩ := List.mem_map.1 ha
        split
        · exact hh.declared b hb
        · exact hh.declared b hb
      · rcases Entries.mem_set hentry with hmem | rfl
        · exact hh.attrs entry hmem
        · have hname : isAttrName "class" = true ∧ isMarked "class" = false := by decide
          exact ⟨hname.1, hname.2,
            unbraced_mapClasses hclasses (hh.attrs _ (Entries.mem_of_get? hvalue)).2.2⟩

/-! ## Heads after all rules -/

/-- What an attribute of a plain element is in the end. -/
structure IsSettled (entry : String × String) : Prop where
  isName : isAttrName entry.1 = true
  name : isMarked entry.1 = false ∨ entry.1 = "s-ref"
  value : Unbraced entry.2.toList ∨ entry.2 = interpolate "true"

theorem IsPlainHead.settled {h : Head} (hh : IsPlainHead h) :
    ∀ entry ∈ (settledHead h.extract.1).attrs, IsSettled entry := by
  have hfilled : ∀ entry ∈ (fillEmpty h.extract.1).attrs,
      IsSettled entry ∧ isMarked entry.1 = false := by
    intro entry hentry
    rw [fillEmpty_attrs] at hentry
    obtain ⟨old, hmem, rfl⟩ := List.mem_map.1 hentry
    obtain ⟨hname, hmark, hvalue⟩ := hh.attrs old hmem
    refine ⟨⟨hname, .inl hmark, ?_⟩, hmark⟩
    unfold filledValue
    split
    · exact .inr rfl
    · exact .inl hvalue
  intro entry hentry
  unfold settledHead transformFixedRef at hentry
  split at hentry
  · exact (hfilled entry hentry).1
  · rename_i name hname
    obtain ⟨hname, -⟩ := Option.filter_eq_some_iff.1 hname
    rcases Entries.mem_replace hentry with ⟨hmem, -⟩ | rfl
    · exact (hfilled entry hmem).1
    · have href : isAttrName "s-ref" = true := by decide
      exact ⟨href, .inr rfl, (hfilled _ (Entries.mem_of_get? hname)).1.value⟩

theorem IsSettled.isFixedName {entry : String × String} (h : IsSettled entry) :
    IsFixedName entry.1 := by
  rcases h.name with hplain | heq
  · exact ⟨stripStart?_of_mark hplain "on-" "on-" (by decide) (by decide),
      .inl (stripStart?_of_mark hplain "s-" "s-" (by decide) (by decide))⟩
  · rw [heq]
    exact ⟨by decide, .inr rfl⟩

theorem isFixed_true : IsFixed (interpolate "true") := by
  constructor <;> decide +kernel

theorem IsSettled.isFixed {entry : String × String} (h : IsSettled entry) (tag : String) :
    ∀ cs ∈ keptValue? entry.1 entry.2 tag, IsFixed (String.ofList (San.unescaped cs)) := by
  intro cs hcs
  rcases h.value with hvalue | hvalue
  · exact (unbraced_kept hvalue hcs).isFixed
  · unfold keptValue? at hcs
    split at hcs
    · cases hcs
    · have hbraces : ['{', '{'].isPrefixOf entry.2.toList = true := by
        rw [hvalue]
        decide
      rw [if_pos hbraces] at hcs
      obtain rfl := Option.some.inj hcs
      have hsame : String.ofList (San.unescaped (interpolate "true").toList) = interpolate "true" := by
        decide
      rw [hvalue, hsame]
      exact isFixed_true

theorem isFixedName_scope {o : WriteOptions} {name : String} (h : o.scopeName? = some name) :
    IsFixedName name := by
  unfold WriteOptions.scopeName? at h
  split at h
  · cases h
  · rename_i id _
    by_cases hid : id.isEmpty = true
    · simp [hid] at h
    · have hdata : name.toList.head? = some 'd' := by
        cases hd : o.dialect <;> simp only [hid, hd] at h <;> obtain rfl := Option.some.inj h <;>
          simp
      obtain ⟨rest, hrest⟩ := List.head?_eq_some_iff.1 hdata
      constructor
      · rw [hrest]
        rfl
      · rw [hrest]
        exact .inl rfl

theorem isAccepted_of_settled {h : Head} (hattrs : ∀ entry ∈ h.attrs, IsSettled entry)
    (o : WriteOptions) : h.isAccepted o := by
  rw [Head.isAccepted, List.all_eq_true]
  intro mark hmark
  obtain ⟨⟨name, value⟩, hkept, rfl⟩ := List.mem_map.1 hmark
  rcases List.mem_append.1 hkept with hattr | hscope
  · obtain ⟨entry, hentry, heq⟩ := List.mem_map.1 hattr
    obtain ⟨rfl, rfl⟩ := Prod.mk.inj heq
    apply (hattrs entry hentry).isFixedName.acceptsAttr
    intro raw hraw
    obtain ⟨cs, hcs, rfl⟩ := Option.map_eq_some_iff.1 hraw
    exact (hattrs entry hentry).isFixed h.tag cs hcs
  · obtain ⟨scope, hname, heq⟩ := List.mem_map.1 hscope
    obtain ⟨rfl, rfl⟩ := Prod.mk.inj heq
    exact (isFixedName_scope (by simpa using hname)).acceptsAttr (by simp)

theorem not_carriesElse_of_settled {h : Head} (hattrs : ∀ entry ∈ h.attrs, IsSettled entry) :
    h.carriesElse = false := by
  have hnone (name : String) (hmarked : isMarked name = true) (hname : name ≠ "s-ref") :
      h.hasAttr name = false := by
    rw [Head.hasAttr, Entries.has_eq_isSome, Entries.get?_eq_none_of_forall]
    · rfl
    · rintro entry hentry rfl
      rcases (hattrs entry hentry).name with hplain | heq
      · rw [hmarked] at hplain
        cases hplain
      · exact hname heq
  rw [Head.carriesElse, hnone _ (by decide) (by decide), hnone _ (by decide) (by decide),
    hnone _ (by decide) (by decide)]
  rfl

/-! ## Trees -/

structure IsReadable (o : WriteOptions) (e : Element) : Prop where
  isBranch : e.head.isBranch = false
  carriesElse : e.head.carriesElse = false
  regular : (e.joined o).isRegular o.keepingBlanks = true
  accepted : (e.joined o).isAccepted o.keepingBlanks = true

/-- A plain element: where it has no child elements, it is readable once its rules have run. -/
structure IsPlain (o : WriteOptions) (e : Element) : Prop where
  head : IsPlainHead e.head
  tag : isTagName e.head.tag = true
  void : isVoid e.head.tag = true → isSingle e.head.tag = true ∧ e.children = []
  runs : RunsQuiet o e.children
  branches : e.branches = []

inductive Walked (o : WriteOptions) : Node → Node → Prop
  | element {e e' : Element} (h : IsReadable o e') : Walked o (.element e) (.element e')
  | text (content : String) (span : Span) : Walked o (.text content span) (.text content span)
  | comment (content : String) (span : Span) :
      Walked o (.comment content span) (.comment content span)

section Walk

variable {o : WriteOptions} {nodes nodes' : List Node}

theorem isReadable_of_walked (h : List.Forall₂ (Walked o) nodes nodes') :
    ∀ e, .element e ∈ nodes' → IsReadable o e := by
  induction h with
  | nil => simp
  | cons hnode _ ih =>
    intro e he
    rcases List.mem_cons.1 he with rfl | he
    · cases hnode with
      | element h => exact h
    · exact ih e he

theorem exists_firstElement (h : List.Forall₂ (Walked o) nodes nodes') {root : Element}
    (hroot : .element root ∈ nodes) : ∃ top, firstElement? nodes' = some top := by
  rw [← Option.isSome_iff_exists, firstElement?, List.isSome_findSome?, List.any_eq_true]
  induction h with
  | nil => cases hroot
  | cons hnode _ ih =>
    rcases List.mem_cons.1 hroot with rfl | hroot
    · cases hnode with
      | element h => exact ⟨_, List.mem_cons_self, rfl⟩
    · obtain ⟨node, hmem, hsome⟩ := ih hroot
      exact ⟨node, List.mem_cons_of_mem _ hmem, hsome⟩

theorem runsQuiet_of_walked (h : List.Forall₂ (Walked o) nodes nodes')
    (hquiet : RunsQuiet o nodes) :
    RunsQuiet o nodes' ∧ leadingText o nodes' = leadingText o nodes := by
  induction h with
  | nil => exact ⟨trivial, rfl⟩
  | cons hnode _ ih =>
    cases hnode with
    | element h => exact ⟨(ih hquiet).1, rfl⟩
    | text content span =>
      obtain ⟨hrun, hquiet⟩ := hquiet
      obtain ⟨hrest, hlead⟩ := ih hquiet
      refine ⟨⟨?_, hrest⟩, ?_⟩
      · rw [leadingText, hlead]
        exact hrun
      · rw [leadingText, leadingText, hlead]
    | comment content span => cases hquiet

theorem chainWalked_of_walked (h : List.Forall₂ (Walked o) nodes nodes') (context : Context) :
    (chainWalked (nodes', context)).1 = nodes' := by
  have hbranch := fun e he => (isReadable_of_walked h e he).isBranch
  simp [chainWalked, chain, chainOnto_of_no_branch hbranch]

end Walk

theorem isReadable_settled {o : WriteOptions} {head : Head} (hh : IsPlainHead head)
    (htag : isTagName head.tag = true) {children : List Node}
    (hvoid : isVoid head.tag = true → isSingle head.tag = true ∧ children = [])
    (hlegible : IsLegible o.keepingBlanks (joinNodes o children)) :
    IsReadable o ⟨settledHead head.extract.1, children, []⟩ := by
  have hattrs := hh.settled
  have hidle : IsIdle (settledHead head.extract.1) := hh.idle.fillEmpty.transformFixedRef {}
  have hkept : (settledHead head.extract.1).tag = head.tag := by
    unfold settledHead transformFixedRef
    split <;> rfl
  have hregular : (settledHead head.extract.1).isRegular = true := by
    rw [Head.isRegular, hkept, htag, Bool.true_and, List.all_eq_true]
    exact fun entry hentry => (hattrs entry hentry).isName
  refine ⟨?_, not_carriesElse_of_settled hattrs, ?_, ?_⟩
  · rw [Head.isBranch, hidle.elseIfTest, hidle.hasElse]
    rfl
  · have hlower : (!isVoid head.tag || (lower head.tag == head.tag &&
        (joinNodes o children).isEmpty)) = true := by
      rw [isEmpty_joinNodes]
      cases hv : isVoid head.tag with
      | false => rfl
      | true =>
        obtain ⟨hsingle, rfl⟩ := hvoid hv
        have hall : ∀ t ∈ voidTags, lower t = t := by decide
        rw [hall head.tag (List.contains_iff_mem.1 hsingle)]
        simp
    simp only [Element.joined, joinBranches, Element.isRegular, hregular, hkept, hlower, hlegible.1,
      branchesRegular, elseBlocks]
    rfl
  · simp only [Element.joined, joinBranches, Element.isAccepted,
      isAccepted_of_settled hattrs o.keepingBlanks, hlegible.2, branchesAccepted]
    rfl

mutual

theorem walkElement_plain {o : Options} (hextra : o.extraRules = [])
    (hclasses : ∀ entry ∈ o.classes.getD [], Unbraced entry.2.toList)
    (e : Element) (he : e.All (IsPlain o.writing)) (context : Context) :
    ∃ e' context', walkElement o.rules e context = .done (e', context') ∧
      IsReadable o.writing e' :=
  match e with
  | ⟨head, children, branches⟩ => by
    obtain ⟨hhead, htag, hvoid, hruns, hbranches⟩ := he.self
    obtain rfl : branches = [] := hbranches
    have hprepared := hhead.prepare hclasses
    obtain ⟨nodes, inner, hwalk, hwalked⟩ := walkEach_plain hextra hclasses children
      (fun x hx => he.child hx)
      (context.reportProblems (o.prepare head).extract.2)
    obtain ⟨hquiet, -⟩ := runsQuiet_of_walked hwalked hruns
    have hlegible : IsLegible o.writing.keepingBlanks (joinNodes o.writing nodes) := by
      apply isLegible_joinNodes hquiet
      intro x hx
      have hx := isReadable_of_walked hwalked x hx
      exact ⟨hx.carriesElse, hx.regular, hx.accepted⟩
    have hsame : (o.prepare head).tag = head.tag := by
      rw [(Options.prepare_tag head).1, fragmentHead, if_neg]
      exact fun heq => hhead.tag (heq ▸ by decide)
    -- Without directives every rule behind the children does nothing but settle the head.
    obtain ⟨outer, hrun⟩ := runAfter_idle (e := ⟨(o.prepare head).extract.1, nodes, []⟩)
      hprepared.idle hprepared.tag (chainWalked (nodes, inner)).2
    refine ⟨_, outer, ?_, isReadable_settled hprepared (hsame ▸ htag) ?_ hlegible⟩
    · rw [walkElement, Options.runBefore_rules hextra]
      dsimp only
      rw [hwalk]
      dsimp only
      rw [chainWalked_of_walked hwalked, Options.runAfter_rules hextra]
      exact hrun
    · rw [hsame]
      intro hv
      obtain ⟨hsingle, rfl⟩ := hvoid hv
      cases hwalked
      exact ⟨hsingle, rfl⟩

theorem walkEach_plain {o : Options} (hextra : o.extraRules = [])
    (hclasses : ∀ entry ∈ o.classes.getD [], Unbraced entry.2.toList) (nodes : List Node)
    (hnodes : ∀ e, .element e ∈ nodes → e.All (IsPlain o.writing)) (context : Context) :
    ∃ nodes' context', walkEach o.rules nodes context = .done (nodes', context') ∧
      List.Forall₂ (Walked o.writing) nodes nodes' :=
  match nodes with
  | [] => ⟨[], context, rfl, .nil⟩
  | .element e :: rest => by
    obtain ⟨e', inner, he, hreadable⟩ := walkElement_plain hextra hclasses e
      (hnodes e List.mem_cons_self) context
    obtain ⟨rest', outer, hrest, hwalked⟩ := walkEach_plain hextra hclasses rest
      (fun x hx => hnodes x (List.mem_cons_of_mem _ hx)) inner
    refine ⟨.element e' :: rest', outer, ?_, .cons (.element hreadable) hwalked⟩
    rw [walkEach, he]
    dsimp only
    rw [hrest]
    rfl
  | .text content span :: rest => by
    obtain ⟨rest', outer, hrest, hwalked⟩ := walkEach_plain hextra hclasses rest
      (fun x hx => hnodes x (List.mem_cons_of_mem _ hx)) context
    refine ⟨.text content span :: rest', outer, ?_, .cons (.text content span) hwalked⟩
    rw [walkEach, hrest]
    · rfl
    · nofun
  | .comment content span :: rest => by
    obtain ⟨rest', outer, hrest, hwalked⟩ := walkEach_plain hextra hclasses rest
      (fun x hx => hnodes x (List.mem_cons_of_mem _ hx)) context
    refine ⟨.comment content span :: rest', outer, ?_, .cons (.comment content span) hwalked⟩
    rw [walkEach, hrest]
    · rfl
    · nofun

end

/-! ## Texts that were read -/

/-- Two nodes can stand side by side: texts that are written one behind the other are quiet. -/
def MeetQuietly (o : WriteOptions) : Node → Node → Prop
  | .text a _, .text b _ => Quiet ((writeText o a).toList ++ (writeText o b).toList)
  | _, _ => True

theorem writeText_part (o : WriteOptions) (content : String) :
    (writeText o content).toList <:+: content.toList := by
  unfold writeText
  split
  · rw [String.toList_ofList]
    exact dropEndWhile_dropWhile_part _ _
  · exact List.infix_rfl

theorem writeText_ne_nil {o : WriteOptions} {content : String}
    (h : content.toList.all isBlank = false) : (writeText o content).toList ≠ [] := by
  rw [List.all_eq_false] at h
  obtain ⟨c, hc, hvisible⟩ := h
  have hkept {cs : List Char} (hc : c ∈ cs) : c ∈ cs.dropWhile isStripped := by
    rw [← List.takeWhile_append_dropWhile (p := isStripped) (l := cs), List.mem_append] at hc
    rcases hc with hc | hc
    · have hstripped := List.all_eq_true.1 List.all_takeWhile c hc
      simp only [isStripped, Bool.or_eq_true, beq_iff_eq] at hstripped
      rcases hstripped with (rfl | rfl) | rfl <;> exact absurd (by decide) hvisible
    · exact hc
  unfold writeText
  split
  · rw [String.toList_ofList, dropEndWhile]
    refine List.ne_nil_of_mem (a := c) ?_
    rw [List.mem_reverse]
    exact hkept (List.mem_reverse.2 (hkept hc))
  · exact List.ne_nil_of_mem hc

theorem runsQuiet_of_pieces {o : WriteOptions} {source : List Char} (hsource : Flat source)
    {nodes : List Node} (hpieces : ∀ node ∈ nodes, node.IsPiece source)
    (hmeet : nodes.IsChain (MeetQuietly o)) : RunsQuiet o nodes := by
  induction nodes with
  | nil => trivial
  | cons node nodes ih =>
    obtain ⟨hnext, hmeet⟩ := List.isChain_cons.1 hmeet
    rw [List.forall_mem_cons] at hpieces
    obtain ⟨hnode, hpieces⟩ := hpieces
    have hrest := ih hpieces hmeet
    cases node with
    | element e => exact hrest
    | comment content span => cases hnode
    | text content span =>
      refine ⟨?_, hrest⟩
      obtain ⟨rest, hsuffix, htext, -⟩ := hnode
      have hown : Quiet (writeText o content).toList := by
        apply Quiet.part _ (writeText_part o content)
        rw [htext]
        exact quiet_textRun (hsource.part hsuffix.isInfix)
      -- A text is not written empty, so what is quiet in two steps is quiet as a whole.
      cases nodes with
      | nil => simpa [leadingText] using hown
      | cons next nodes =>
        cases next with
        | element e => simpa [leadingText] using hown
        | comment other span => simpa [leadingText] using hown
        | text other otherSpan =>
          obtain ⟨-, -, -, hvisible⟩ := hpieces _ List.mem_cons_self
          have hjoined := List.IsChain.append_overlap (hnext _ rfl) hrest.1 (writeText_ne_nil hvisible)
          rwa [List.append_assoc] at hjoined

def IsQuietNode : Node → Prop
  | .text content _ => Quiet content.toList
  | _ => True

structure IsUnruled (e : Element) : Prop where
  tag : e.head.tag ∉ specialTags
  attrs : ∀ a ∈ e.head.declared, isMarked a.name = false

/-- An element that San reads in the way in which it was read: San closes void elements in any case,
but they are written without an end tag in lower case only; it has no elements whose content is text;
and it does not see where a comment was left out. -/
structure IsShared (o : WriteOptions) (e : Element) : Prop where
  void : isVoid e.head.tag = true → isSingle e.head.tag = true
  raw : isRawText e.head.tag = true → ∀ node ∈ e.children, IsQuietNode node
  meet : e.children.IsChain (MeetQuietly o)

instance : DecidablePred IsQuietNode
  | .text content _ => inferInstanceAs (Decidable (Quiet content.toList))
  | .element _ => .isTrue trivial
  | .comment _ _ => .isTrue trivial

instance (o : WriteOptions) : DecidableRel (MeetQuietly o)
  | .text a _, .text b _ =>
    inferInstanceAs (Decidable (Quiet ((writeText o a).toList ++ (writeText o b).toList)))
  | .text _ _, .element _ => .isTrue trivial
  | .text _ _, .comment _ _ => .isTrue trivial
  | .element _, _ => .isTrue trivial
  | .comment _ _, _ => .isTrue trivial

instance (e : Element) : Decidable (IsUnruled e) :=
  decidable_of_iff (e.head.tag ∉ specialTags ∧ ∀ a ∈ e.head.declared, isMarked a.name = false)
    ⟨fun h => ⟨h.1, h.2⟩, fun h => ⟨h.tag, h.attrs⟩⟩

instance (o : WriteOptions) (e : Element) : Decidable (IsShared o e) :=
  decidable_of_iff ((isVoid e.head.tag = true → isSingle e.head.tag = true) ∧
      (isRawText e.head.tag = true → ∀ node ∈ e.children, IsQuietNode node) ∧
      e.children.IsChain (MeetQuietly o))
    ⟨fun h => ⟨h.1, h.2.1, h.2.2⟩, fun h => ⟨h.void, h.raw, h.meet⟩⟩

theorem runsQuiet_of_content {o : WriteOptions} {source : List Char} (hsource : Flat source)
    {e : Element} (hcontent : Content {} source e.head e.children) (hshared : IsShared o e) :
    RunsQuiet o e.children := by
  generalize hchildren : e.children = children at hcontent
  have hraw := hshared.raw
  have hmeet := hshared.meet
  rw [hchildren] at hraw hmeet
  cases hcontent with
  | none h => trivial
  | raw c hvoid hrawText =>
    have hquiet := hraw hrawText
    unfold readRawText at hquiet ⊢
    dsimp only at hquiet ⊢
    split at hquiet
    · rename_i hempty
      rw [if_pos hempty]
      trivial
    · rename_i hfull
      rw [if_neg hfull]
      have hquiet := (hquiet _ (List.mem_singleton_self _)).part (writeText_part o _)
      exact ⟨by simpa [leadingText] using hquiet, trivial⟩
  | nodes n opened c hc hvoid hrawText =>
    exact runsQuiet_of_pieces hsource (isPiece_readNodes n _ hc) hmeet

theorem isPlain_of_isRead {o : WriteOptions} {source : List Char} (hsource : Unbraced source)
    {e : Element} (hread : e.IsRead {} source) (hunruled : IsUnruled e) (hshared : IsShared o e) :
    IsPlain o e := by
  refine ⟨⟨hunruled.tag, hread.loop, hunruled.attrs, fun entry hentry => ?_⟩, hread.tag,
    fun hvoid => ⟨hshared.void hvoid, ?_⟩, runsQuiet_of_content hsource.flat hread.content hshared,
    hread.branches⟩
  · rw [hread.attrs] at hentry
    obtain ⟨a, ha, rfl⟩ := List.mem_map.1 (Entries.mem_ofList hentry)
    obtain ⟨hname, hvalue⟩ := hread.declared a ha
    exact ⟨hname, hunruled.attrs a ha, hsource.part hvalue⟩
  · generalize hchildren : e.children = children
    have hcontent := hread.content
    rw [hchildren] at hcontent
    cases hcontent with
    | none h => rfl
    | raw c hnot hraw =>
      rw [hvoid] at hnot
      cases hnot
    | nodes n opened c hc hnot hraw =>
      rw [hvoid] at hnot
      cases hnot

end VueToSan.Transform

namespace VueToSan

open VueToSan.Markup VueToSan.Transform

/-- Plain markup that San reads in the same way is compiled. -/
theorem compile_plain {o : Options} {source : String} {root : Element}
    (hextra : o.extraRules = []) (hscope : o.writing.isRegular = true)
    (hclasses : ∀ entry ∈ o.classes.getD [], Unbraced entry.2.toList)
    (hsource : Unbraced source.toList)
    (hroot : .element root ∈ (read {} (Text.trimmed source)).value)
    (hunruled : ∀ e, Occurs (read {} (Text.trimmed source)).value e → IsUnruled e)
    (hshared : ∀ e, Occurs (read {} (Text.trimmed source)).value e → IsShared o.writing e) :
    ∃ out, compile o source = .ok out := by
  have htrimmed : Unbraced (Text.trimmed source).toList := by
    rw [Text.trimmed, String.toList_ofList]
    exact hsource.part (trim_part _)
  have hplain : ∀ x, .element x ∈ (read {} (Text.trimmed source)).value →
      x.All (IsPlain o.writing) := by
    intro x hx
    refine Element.all_of_occurs hx fun e he => ?_
    exact isPlain_of_isRead htrimmed he.isRead (hunruled e he) (hshared e he)
  obtain ⟨nodes, context, hwalk, hwalked⟩ := walkEach_plain hextra hclasses _ hplain
    (Context.reportProblems {} (read {} (Text.trimmed source)).problems)
  obtain ⟨top, htop⟩ := exists_firstElement hwalked hroot
  have hreadable := isReadable_of_walked hwalked top (firstElement?_mem htop)
  obtain ⟨target, htarget⟩ := read_writeElement hscope hreadable.carriesElse hreadable.regular
    hreadable.accepted
  unfold compile run walk
  dsimp only
  rw [hwalk, Edit.andThen]
  dsimp only
  rw [chainWalked_of_walked hwalked, finish, htop]
  dsimp only
  rw [htarget]
  exact ⟨_, rfl⟩

def samplePlain : String := "<p a ref=\"x<y\">1<<!---->2<br><style>a > b</style></p>"

def samplePlainOptions : Options := { scopeId := some "1", classes := some [("a", "b")] }

theorem samplePlain_compiled : ∃ out, compile samplePlainOptions samplePlain = .ok out := by
  have hread : (firstElement? (read {} (Text.trimmed samplePlain)).value).isSome = true ∧
      ∀ e ∈ elementsEach (read {} (Text.trimmed samplePlain)).value,
        IsUnruled e ∧ IsShared samplePlainOptions.writing e := by
    decide +kernel
  obtain ⟨root, hroot⟩ := Option.isSome_iff_exists.1 hread.1
  exact compile_plain rfl (by decide) (by decide) (by decide +kernel) (firstElement?_mem hroot)
    (fun e he => (hread.2 e he.mem_elements).1) fun e he => (hread.2 e he.mem_elements).2

def isRejected : Except CompileError Output → Bool
  | .error (.target _) => true
  | _ => false

theorem exists_target_of_isRejected {result : Except CompileError Output}
    (h : isRejected result = true) : ∃ error, result = .error (.target error) := by
  unfold isRejected at h
  split at h
  · exact ⟨_, rfl⟩
  · cases h

/-- A void element in upper case is written with an end tag, which San does not expect. -/
theorem upper_case_void_rejected :
    (read {} "<div><BR></div>").problems.isEmpty ∧ (read {} "<div><BR></div>").value.length = 1 ∧
      Unbraced "<div><BR></div>".toList ∧
      (∀ e, Occurs (read {} "<div><BR></div>").value e → IsUnruled e) ∧
      ∃ error, compile {} "<div><BR></div>" = .error (.target error) := by
  have hunruled : ∀ e ∈ elementsEach (read {} "<div><BR></div>").value, IsUnruled e := by
    decide +kernel
  exact ⟨by decide +kernel, by decide +kernel, by decide, fun e he => hunruled e he.mem_elements,
    exists_target_of_isRejected (by decide +kernel)⟩

end VueToSan
