import VueToSan.Proofs.AdmittedHeads
import VueToSan.Proofs.FaithfulSpans
import VueToSan.Proofs.PiecedMarkup

/-!
# Compiled templates use admitted operators

Whatever a template becomes, the expressions in the tree of the runtime have admitted operators only,
if San finds no others in what is copied from the source. What is copied are texts, attributes that
no rule compiles, and what becomes part of code or of markup without being compiled.
-/

namespace VueToSan.Options

open VueToSan.Text VueToSan.Markup VueToSan.Transform
open VueToSan.San (keepsAdmitted readBack holdsAdmitted)

/-- The attributes that a rule leaves as they are in the source, or makes from such parts of it. -/
def IsCopy (o : Options) (source : List Node) (entry : String × String) : Prop :=
  ∃ e, Occurs source e ∧ Copies (o.prepare e.head) entry

def IsSourceNode (source : List Node) (node : Node) : Prop :=
  ∃ e, Occurs source e ∧ node ∈ e.children

/-- The value that San reads of an attribute; none where only the name is written. -/
def attrMeaning? (tag : String) (entry : String × String) : Option String :=
  (keptValue? entry.1 entry.2 tag).map fun cs => String.ofList (San.unescaped cs)

def textHolds (p : String → Bool) : Node → Bool
  | .text content _ => p content
  | _ => true

/-- An element of a compiled template in which San finds nothing inadmissible as far as it was copied:
in its attributes, and in its texts unless a rule has written them. -/
structure AdmitsCopies (o : Options) (source : List Node) (e : Element) : Prop where
  attrs : ∀ entry ∈ e.head.attrs, o.IsCopy source entry →
    keepsAdmitted entry.1 (attrMeaning? e.head.tag entry) = true
  texts : (∀ node ∈ e.children, node.element? = none → IsSourceNode source node) →
    ∀ node ∈ joinNodes o.writing e.children, textHolds holdsAdmitted node = true

/-- An element whose markup is taken for what it is: no other markup starts in its tag and in the
texts between its child elements. -/
structure IsUnmistaken (w : WriteOptions) (e : Element) : Prop where
  head : e.head.isRegular = true
  texts : ∀ node ∈ joinNodes w e.children,
    textHolds (fun content => isCalm false content.toList) node = true

instance (w : WriteOptions) (e : Element) : Decidable (IsUnmistaken w e) :=
  decidable_of_iff (e.head.isRegular = true ∧ ∀ node ∈ joinNodes w e.children,
      textHolds (fun content => isCalm false content.toList) node = true)
    ⟨fun ⟨h₁, h₂⟩ => ⟨h₁, h₂⟩, fun h => ⟨h.head, h.texts⟩⟩

variable {o : Options}

/-! ## The walk -/

theorem speakingInvariant (hextra : o.extraRules = []) (source : List Node) :
    WalkInvariant o.rules
      (fun e => e.branches = [] ∧ e.head.attrs = entriesOf e.head.declared ∧ Occurs source e ∧
        HasSafeSources (o.prepare e.head))
      (Element.All (Speaking (o.IsCopy source) (IsSourceNode source)))
      (Element.All (Speaking (o.IsCopy source) (IsSourceNode source))) where
  after e e' context inner outer children hsource hchildren hleaves h := by
    obtain ⟨hbranches, hattrs, hoccurs, hsafe⟩ := hsource
    rw [runBefore_rules hextra, runAfter_rules hextra, hbranches] at h
    exact builtinRules_speaking hsafe (nodup_keys_prepare hattrs) (fun entry hcopy => ⟨e, hoccurs, hcopy⟩)
      hchildren (fun node hnode hleaf => ⟨e, hoccurs, hleaves node hnode hleaf⟩) h
  settle e he _ := he
  attach e b he _ hb _ := .addBranch ⟨he.self.attrs, he.self.texts⟩ he hb

/-! ## Texts -/

theorem mem_joinText {content : String} {node : Node} {nodes : List Node}
    (h : node ∈ joinText content nodes) : (∃ text span, node = .text text span) ∨ node ∈ nodes := by
  unfold joinText at h
  split at h
  · rcases List.mem_cons.1 h with rfl | h
    · exact .inl ⟨_, _, rfl⟩
    · exact .inr (List.mem_cons_of_mem _ h)
  · rcases List.mem_cons.1 h with rfl | h
    · exact .inl ⟨_, _, rfl⟩
    · exact .inr h

theorem comment_mem_joinNodes {w : WriteOptions} {content : String} {span : Span}
    {nodes : List Node} (h : .comment content span ∈ joinNodes w nodes) :
    .comment content span ∈ nodes := by
  induction nodes with
  | nil => exact h
  | cons node nodes ih =>
    cases node with
    | element e => exact List.mem_cons_of_mem _ (ih (by simpa [joinNodes] using h))
    | text other otherSpan =>
      rcases mem_joinText h with ⟨_, _, heq⟩ | h
      · cases heq
      · exact List.mem_cons_of_mem _ (ih h)
    | comment other otherSpan =>
      exact List.mem_cons.2 ((List.mem_cons.1 h).imp_right ih)

theorem not_comment_mem_read {source : String} {e : Element} (he : Occurs (read {} source).value e)
    (content : String) (span : Span) : .comment content span ∉ e.children := by
  intro hmem
  have hfaithful : e.IsFaithful {} source := he.of_all fun x hx => readNodes_elements
    (fun n opened c hc _ _ => isFaithful_readElement n opened hc) _ _ _ (.refl _) x hx
  have hkept : ({} : ReadOptions).keepComments = true := hfaithful.row.faithful _ hmem
  cases hkept

theorem writeText_interpolate (w : WriteOptions) (code : String) :
    writeText w (interpolate code) = interpolate code := by
  have hlist : (interpolate code).toList = '{' :: ('{' :: ' ' :: code.toList ++ [' ', '}', '}']) := by
    simp [interpolate]
  unfold writeText
  split
  · rw [String.ext_iff, String.toList_ofList, hlist,
      List.dropWhile_cons_of_neg (by decide), dropEndWhile, List.reverse_eq_iff]
    simp only [List.cons_append, List.reverse_cons, List.reverse_append, List.reverse_nil,
      List.nil_append]
    rw [List.dropWhile_cons_of_neg (by decide)]
  · rfl

theorem holdsAdmitted_interpolate {code : String} (hcode : Expr.IsSound code) :
    holdsAdmitted (interpolate code) = true := by
  rw [holdsAdmitted, Option.all_eq_true]
  intro v hv
  exact San.isAdmitted_interpolation hcode.plain hcode.native (toOption_eq_some.1 hv)

/-! ## Reading back -/

theorem keepsAdmitted_meaning {tag : String} {entry : String × String}
    (h : keepsAdmitted entry.1 (some (readBack entry.2)) = true) :
    keepsAdmitted entry.1 (attrMeaning? tag entry) = true := by
  have hmeaning : attrMeaning? tag entry = none ∨ attrMeaning? tag entry = some (readBack entry.2) := by
    unfold attrMeaning? keptValue?
    split
    · exact .inl rfl
    · rw [← apply_ite some]
      exact .inr rfl
  rcases hmeaning with hnone | hsome
  · rw [hnone]
    exact San.keepsAdmitted_none _
  · rwa [hsome]

/-- An element that a walk has led to is written in admitted pieces. -/
theorem isPieced_of_speaking {source : List Node} {e : Element}
    (hcomments : ∀ x, Occurs source x → ∀ content span, .comment content span ∉ x.children)
    (h : Speaking (o.IsCopy source) (IsSourceNode source) e) (hcopies : o.AdmitsCopies source e)
    (hmarkup : IsUnmistaken o.writing e) : e.IsPieced o.writing where
  head := hmarkup.head
  marks mark hmark := by
    obtain ⟨⟨name, value⟩, hkept, rfl⟩ := List.mem_map.1 hmark
    rcases List.mem_append.1 hkept with hattr | hscope
    · obtain ⟨entry, hentry, heq⟩ := List.mem_map.1 hattr
      obtain ⟨rfl, rfl⟩ := Prod.mk.inj heq
      rcases h.attrs entry hentry with hcopy | hadmitted
      · exact hcopies.attrs entry hentry hcopy
      · exact keepsAdmitted_meaning hadmitted
    · obtain ⟨scope, hname, heq⟩ := List.mem_map.1 hscope
      obtain ⟨rfl, rfl⟩ := Prod.mk.inj heq
      exact San.keepsAdmitted_none _
  nodes node hnode := by
    have hcalm := hmarkup.texts node hnode
    rcases h.texts with hsource | ⟨code, hcode, hchildren⟩
    · have hadmitted := hcopies.texts hsource node hnode
      cases node with
      | element x => trivial
      | text content span => exact ⟨hcalm, hadmitted⟩
      | comment content span =>
        obtain ⟨x, hx, hmem⟩ := hsource _ (comment_mem_joinNodes hnode) rfl
        exact hcomments x hx content span hmem
    · have hjoin : joinNodes o.writing e.children = [.ofText (interpolate code)] := by
        rw [hchildren]
        exact congrArg (fun text => [Node.ofText text]) (writeText_interpolate o.writing code)
      rw [hjoin] at hnode
      obtain rfl := List.mem_singleton.1 hnode
      exact ⟨hcalm, holdsAdmitted_interpolate hcode⟩

def sampleDirectives : String :=
  "<p :class=\"c\" title=\"t\" @click.stop=\"f(-a)\"><i v-for=\"x in y\">\x7b\x7b x + a \x7d\x7d</i></p>"

/-- What is copied keeps its operators: texts, attributes, names that become code or directives, and
San interpolations that a transition or a component takes apart. -/
def copiedSamples : List (Options × String) :=
  [({}, "<p>\x7b\x7b ~a \x7d\x7d</p>"),
    ({}, "<p title=\"\x7b\x7b ~a \x7d\x7d\"></p>"),
    ({}, "<p @click.a?~b=\"f()\"></p>"),
    ({}, "<transition :a:~b,c=\"y\"><p></p></transition>"),
    ({}, "<transition name=\"\x7b\x7b a | f \x7d\x7d\"><p></p></transition>"),
    ({}, "<component is=\"\x7b\x7b ~a ? 'x' : 'y' \x7d\x7d\"></component>"),
    ({}, "<p v-for=\"x IN ~y in z\"></p>"),
    ({}, "<p :s-html.sync=\"a['\x7b\x7b ~x \x7d\x7d']\"></p>")]

/-- A filter in an argument is read as an operator, the point behind a whole number belongs to the
number, a filter mark is replaced, and San takes some tags, texts and scopes for more than they
are. -/
def slipSamples : List (Options × String) :=
  [({}, "<p :class=\"c | f\"></p>"),
    ({}, "<p v-if=\"(1).e5in[0]\"></p>"),
    ({}, "<p v-if=\"a | f | g(__vusa__filter__mark__)\"></p>"),
    ({}, "<div><component :is=\"'a b title=\x7b\x7b~x\x7d\x7d'\"></component></div>"),
    ({}, "<p v-text=\"'\x7d\x7d<b title=\x7b\x7b~a\x7d\x7d></b>'\"></p>"),
    ({}, "<p>x \x7b<!-- -->\x7b ~a \x7d\x7d</p>"),
    ({}, "<style>\"<b title=\x7b\x7b~a\x7d\x7d></b>\"</style>"),
    ({ scopeId := some "x title=\x7b\x7b~a\x7d\x7d" }, "<p></p>")]

end VueToSan.Options
