import VueToSan.Proofs.AdmittedOperators
import VueToSan.Proofs.EntryLookup
import VueToSan.Proofs.MarkupPieces
import VueToSan.San.Strip

/-!
# San trees with admitted operators

A San tree is admitted when every expression in it is, wherever it stands: in texts, properties,
listeners and directives, at any depth and in every else branch. An attribute is admitted when it
brings in no other expression, and so is a text.
-/

namespace VueToSan.San

open VueToSan.Markup

def Segment.isAdmitted : Segment → Bool
  | .literal _ => true
  | .interpolation e => e.isAdmitted

def ValueKind.isAdmitted : ValueKind → Bool
  | .text segments => segments.all (·.isAdmitted)
  | .expr e => e.isAdmitted
  | .bool _ => true

def Value.isAdmitted (v : Value) : Bool := v.kind.isAdmitted

def Directive.isAdmitted (d : Directive) : Bool :=
  d.value.all (·.isAdmitted) && d.trackBy.all (·.isAdmitted)

def Head.isAdmitted (h : Head) : Bool :=
  h.properties.all (·.value.isAdmitted) && h.listeners.all (·.handler.isAdmitted) &&
    h.directives.all (·.2.isAdmitted)

mutual

def Node.isAdmitted : Node → Bool
  | .text value => value.isAdmitted
  | .element e => e.isAdmitted

def Element.isAdmitted : Element → Bool
  | ⟨head, children, elses⟩ => head.isAdmitted && nodesAdmitted children && elementsAdmitted elses

def nodesAdmitted : List Node → Bool
  | [] => true
  | node :: rest => node.isAdmitted && nodesAdmitted rest

def elementsAdmitted : List Element → Bool
  | [] => true
  | e :: rest => e.isAdmitted && elementsAdmitted rest

end

theorem nodesAdmitted_eq_all (nodes : List Node) : nodesAdmitted nodes = nodes.all (·.isAdmitted) := by
  induction nodes with
  | nil => rfl
  | cons node nodes ih => rw [nodesAdmitted, ih, List.all_cons]

theorem elementsAdmitted_eq_all (es : List Element) :
    elementsAdmitted es = es.all (·.isAdmitted) := by
  induction es with
  | nil => rfl
  | cons e es ih => rw [elementsAdmitted, ih, List.all_cons]

/-! ## Dropping sources -/

theorem Head.isAdmitted_strip (h : Head) : h.strip.isAdmitted = h.isAdmitted := by
  have hvalue : ∀ v : Value, v.strip.isAdmitted = v.isAdmitted := fun _ => rfl
  have hdirective : ∀ d : Directive, d.strip.isAdmitted = d.isAdmitted := by
    intro d
    simp only [Directive.isAdmitted, Directive.strip, Option.all_map, hvalue]
  simp only [Head.isAdmitted, Head.strip, List.all_map, Function.comp_def, hdirective]
  rfl

mutual

theorem Node.isAdmitted_strip : ∀ node : Node, node.strip.isAdmitted = node.isAdmitted
  | .text _ => rfl
  | .element e => e.isAdmitted_strip

theorem Element.isAdmitted_strip : ∀ e : Element, e.strip.isAdmitted = e.isAdmitted
  | ⟨head, children, elses⟩ => by
    simp only [Element.strip, Element.isAdmitted, head.isAdmitted_strip,
      nodesAdmitted_strip children, elementsAdmitted_strip elses]

theorem nodesAdmitted_strip : ∀ nodes : List Node,
    nodesAdmitted (stripNodes nodes) = nodesAdmitted nodes
  | [] => rfl
  | node :: rest => by
    simp only [stripNodes, nodesAdmitted, node.isAdmitted_strip, nodesAdmitted_strip rest]

theorem elementsAdmitted_strip : ∀ es : List Element,
    elementsAdmitted (stripElements es) = elementsAdmitted es
  | [] => rfl
  | e :: rest => by
    simp only [stripElements, elementsAdmitted, e.isAdmitted_strip, elementsAdmitted_strip rest]

end

/-! ## Attributes -/

/-- Whether San finds no inadmissible expression in an attribute that it takes. -/
def keepsAdmitted (name : String) (raw : Option String) : Bool :=
  (({ tag := "" } : Head).apply name raw ⟨0, 0⟩).toOption.all (·.isAdmitted)

theorem isAdmitted_apply {name : String} {raw : Option String}
    (h : keepsAdmitted name raw = true) {t t' : Head} (ht : t.isAdmitted = true)
    (happly : t.apply name raw ⟨0, 0⟩ = .ok t') : t'.isAdmitted = true := by
  unfold keepsAdmitted Head.apply at h
  unfold Head.apply at happly
  simp only [Head.isAdmitted, Bool.and_eq_true] at ht ⊢
  split at happly
  · rename_i event hon
    obtain ⟨l, hl, hdone⟩ := bind_eq_ok.1 happly
    obtain rfl := Except.ok.inj hdone
    simp only [hon, hl] at h
    have hhandler : l.handler.isAdmitted = true := by
      simpa [Head.isAdmitted, Except.toOption] using h
    simp [ht, hhandler]
  · rename_i directive hon hs
    obtain ⟨⟨key, d⟩, hd, hdone⟩ := bind_eq_ok.1 happly
    obtain rfl := Except.ok.inj hdone
    simp only [hon, hs, hd] at h
    have hdirective : d.isAdmitted = true := by
      simpa [Head.isAdmitted, Except.toOption, Entries.set, Entries.has] using h
    refine ⟨ht.1, List.all_eq_true.2 fun entry hentry => ?_⟩
    rcases Entries.mem_set hentry with hold | rfl
    · exact List.all_eq_true.1 ht.2 entry hold
    · exact hdirective
  · rename_i hon hs
    obtain ⟨p, hp, hdone⟩ := bind_eq_ok.1 happly
    obtain rfl := Except.ok.inj hdone
    simp only [hon, hs, hp] at h
    have hvalue : p.value.isAdmitted = true := by
      simpa [Head.isAdmitted, Except.toOption] using h
    simp [ht, hvalue]

theorem isAdmitted_applyAll {marks : List (String × Option String)}
    (h : ∀ mark ∈ marks, keepsAdmitted mark.1 mark.2 = true) {t t' : Head} (ht : t.isAdmitted = true)
    (happly : applyAll t marks = some t') : t'.isAdmitted = true := by
  induction marks generalizing t with
  | nil =>
    obtain rfl := Option.some.inj happly
    exact ht
  | cons mark marks ih =>
    rw [List.forall_mem_cons] at h
    obtain ⟨next, hnext, hrest⟩ := Option.bind_eq_some_iff.1 happly
    exact ih h.2 (isAdmitted_apply h.1 ht (toOption_eq_some.1 hnext)) hrest

/-! ## Texts -/

def holdsAdmitted (content : String) : Bool :=
  (readText content.toList ⟨0, 0⟩).toOption.all (·.isAdmitted)

end VueToSan.San
