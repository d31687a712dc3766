import VueToSan.Proofs.SanReading
import Mathlib.Logic.Relation

/-!
# Else branches are folded

An element with an else is kept with the element before it that has the test. Reading does so in
every row of siblings and loses nothing: the elements of a row, each followed by its else branches,
are those of the source, one by one and in their order.
-/

namespace VueToSan.San

open VueToSan.Text VueToSan.Markup

/-! ## The elements of a row -/

/-- An element by its tag and by the elements inside, wherever else branches are kept. -/
structure Outline where
  head : Head
  children : List Outline

mutual

def Element.outlines : Element → List Outline
  | ⟨head, children, elses⟩ => ⟨head, nodesOutlines children⟩ :: elsesOutlines elses

def nodesOutlines : List Node → List Outline
  | [] => []
  | .text _ :: rest => nodesOutlines rest
  | .element e :: rest => e.outlines ++ nodesOutlines rest

def elsesOutlines : List Element → List Outline
  | [] => []
  | e :: rest => e.outlines ++ elsesOutlines rest

end

/-- The elements in a row of siblings as they stand in the source, and where the row ends. No
element is told from another one by its directives. -/
inductive Row : Cursor → List Outline → Cursor → Prop
  | ends {c : Cursor} (hnext : nextPiece c = .ends) : Row c [] c
  | declaration {c stop : Cursor} {row : List Outline} (hnext : nextPiece c = .declaration)
      (hrest : Row (c.skipPast ">") row stop) : Row c row stop
  | text {c stop : Cursor} {row : List Outline} (hnext : nextPiece c = .text)
      (hrest : Row (c.advance (textRun false c.rest).length) row stop) : Row c row stop
  | single {c inside stop : Cursor} {head : Head} {selfClosing : Bool} {row : List Outline}
      (hnext : nextPiece c = .element)
      (hstart : readStartTag c = .ok (head, selfClosing, inside))
      (hsingle : (selfClosing || isVoid head.tag) = true) (hrest : Row inside row stop) :
      Row c (⟨head, []⟩ :: row) stop
  | element {c inside last behind stop : Cursor} {head : Head} {selfClosing : Bool}
      {children row : List Outline} (hnext : nextPiece c = .element)
      (hstart : readStartTag c = .ok (head, selfClosing, inside))
      (hsingle : (selfClosing || isVoid head.tag) = false) (hinside : Row inside children last)
      (hend : readEndTag head.tag c.pos last = .ok behind) (hrest : Row behind row stop) :
      Row c (⟨head, children⟩ :: row) stop

theorem Row.unique {c stop stop' : Cursor} {row row' : List Outline} (h : Row c row stop)
    (h' : Row c row' stop') : row = row' ∧ stop = stop' := by
  induction h generalizing row' stop' with
  | ends hnext =>
    cases h' <;> simp_all
  | declaration hnext _ ih =>
    cases h' with
    | declaration _ hrest => exact ih hrest
    | _ => simp_all
  | text hnext _ ih =>
    cases h' with
    | text _ hrest => exact ih hrest
    | _ => simp_all
  | single hnext hstart hsingle _ ih =>
    cases h' with
    | single _ hstart' _ hrest =>
      cases hstart.symm.trans hstart'
      obtain ⟨rfl, rfl⟩ := ih hrest
      exact ⟨rfl, rfl⟩
    | _ => simp_all
  | element hnext hstart hsingle _ hend _ ihinside ihrest =>
    cases h' with
    | element _ hstart' _ hinside hend' hrest =>
      cases hstart.symm.trans hstart'
      obtain ⟨rfl, rfl⟩ := ihinside hinside
      cases hend.symm.trans hend'
      obtain ⟨rfl, rfl⟩ := ihrest hrest
      exact ⟨rfl, rfl⟩
    | _ => simp_all

/-! ## Folding keeps the order -/

theorem nodesOutlines_append (nodes nodes' : List Node) :
    nodesOutlines (nodes ++ nodes') = nodesOutlines nodes ++ nodesOutlines nodes' := by
  induction nodes with
  | nil => rfl
  | cons node nodes ih =>
    cases node with
    | text value => exact ih
    | element e => simp only [List.cons_append, nodesOutlines, ih, List.append_assoc]

theorem elsesOutlines_append (elses elses' : List Element) :
    elsesOutlines (elses ++ elses') = elsesOutlines elses ++ elsesOutlines elses' := by
  induction elses with
  | nil => rfl
  | cons e elses ih => simp only [List.cons_append, elsesOutlines, ih, List.append_assoc]

theorem outlines_branch (owner branch : Element) :
    ({ owner with elses := owner.elses ++ [branch] } : Element).outlines =
      owner.outlines ++ branch.outlines := by
  obtain ⟨head, children, elses⟩ := owner
  simp [Element.outlines, elsesOutlines_append, elsesOutlines]

theorem outlines_foldElse {branch : Element} {done done' : List Node}
    (h : foldElse branch done = some done') :
    nodesOutlines done'.reverse = nodesOutlines done.reverse ++ branch.outlines := by
  induction done generalizing done' with
  | nil => cases h
  | cons node done ih =>
    cases node with
    | text value =>
      -- A text that stands between the two is behind the branch from now on.
      obtain ⟨before, hbefore, rfl⟩ := Option.map_eq_some_iff.1 h
      simp [nodesOutlines_append, nodesOutlines, ih hbefore]
    | element owner =>
      obtain ⟨-, hdone⟩ := Option.ite_none_right_eq_some.1 h
      obtain rfl := Option.some.inj hdone
      simp [nodesOutlines_append, nodesOutlines, outlines_branch]

theorem outlines_settle {e : Element} {done done' : List Node} (h : settle e done = some done') :
    nodesOutlines done'.reverse = nodesOutlines done.reverse ++ e.outlines := by
  unfold settle at h
  split at h
  · exact outlines_foldElse h
  · obtain rfl := Option.some.inj h
    simp [nodesOutlines_append, nodesOutlines]

theorem Reads.row {done nodes : List Node} {c stop : Cursor} (h : Reads done c nodes stop) :
    ∃ row, Row c row stop ∧ nodesOutlines nodes = nodesOutlines done.reverse ++ row := by
  induction h with
  | ends hnext => exact ⟨[], .ends hnext, (List.append_nil _).symm⟩
  | declaration hnext _ ih =>
    obtain ⟨row, hrow, hnodes⟩ := ih
    exact ⟨row, .declaration hnext hrow, hnodes⟩
  | blank hnext _ _ ih =>
    obtain ⟨row, hrow, hnodes⟩ := ih
    exact ⟨row, .text hnext hrow, hnodes⟩
  | text hnext _ _ _ ih =>
    obtain ⟨row, hrow, hnodes⟩ := ih
    refine ⟨row, .text hnext hrow, ?_⟩
    rw [hnodes]
    simp [nodesOutlines_append, nodesOutlines]
  | single hnext hstart hsingle hsettle _ ih =>
    obtain ⟨row, hrow, hnodes⟩ := ih
    refine ⟨_, .single hnext hstart hsingle hrow, ?_⟩
    rw [hnodes, outlines_settle hsettle, List.append_assoc]
    rfl
  | element hnext hstart hsingle _ hend hsettle _ ihinside ihrest =>
    obtain ⟨inner, hinner, hchildren⟩ := ihinside
    obtain ⟨row, hrow, hnodes⟩ := ihrest
    refine ⟨_, .element hnext hstart hsingle hinner hend hrow, ?_⟩
    rw [hnodes, outlines_settle hsettle, List.append_assoc, Element.outlines, hchildren]
    rfl

/-! ## Folded trees -/

inductive Element.Part (e : Element) : Element → Prop
  | child {x : Element} (h : .element x ∈ e.children) : Part e x
  | branch {x : Element} (h : x ∈ e.elses) : Part e x

def Occurs (nodes : List Node) (e : Element) : Prop :=
  ∃ top, .element top ∈ nodes ∧ Relation.ReflTransGen Element.Part top e

def IsFoldedRow (nodes : List Node) : Prop := ∀ e, .element e ∈ nodes → e.head.isElse = false

/-- The else branches below an element are kept with the element that has the test. -/
structure Element.IsFolded (e : Element) : Prop where
  children : IsFoldedRow e.children
  elses : ∀ x ∈ e.elses, x.head.isElse = true ∧ x.elses = []
  test : e.elses ≠ [] → e.head.directives.has "if" = true

def Element.FoldsBelow (e : Element) : Prop :=
  ∀ x, Relation.ReflTransGen Element.Part e x → x.IsFolded

theorem Element.FoldsBelow.intro {e : Element} (hself : e.IsFolded)
    (hparts : ∀ x, e.Part x → x.FoldsBelow) : e.FoldsBelow := by
  intro x hx
  rcases hx.cases_head with rfl | ⟨y, hy, hyx⟩
  · exact hself
  · exact hparts y hy x hyx

theorem Element.FoldsBelow.part {e x : Element} (h : e.FoldsBelow) (hx : e.Part x) :
    x.FoldsBelow :=
  fun y hy => h y (.head hx hy)

def FoldedNodes (nodes : List Node) : Prop :=
  ∀ e, .element e ∈ nodes → e.head.isElse = false ∧ e.FoldsBelow

theorem FoldedNodes.nil : FoldedNodes [] := fun _ he => nomatch he

theorem FoldedNodes.read {head : Head} {children : List Node} (h : FoldedNodes children) :
    Element.FoldsBelow ⟨head, children, []⟩ := by
  refine .intro ⟨fun e he => (h e he).1, by simp, by simp⟩ ?_
  intro x hx
  cases hx with
  | child hmem => exact (h x hmem).2
  | branch hmem => cases hmem

theorem Element.FoldsBelow.branch {owner branch : Element} (howner : owner.FoldsBelow)
    (hbranch : branch.FoldsBelow) (htest : owner.head.directives.has "if" = true)
    (helse : branch.head.isElse = true) (hlast : branch.elses = []) :
    Element.FoldsBelow { owner with elses := owner.elses ++ [branch] } := by
  have hself := howner owner .refl
  refine .intro ⟨hself.children, ?_, fun _ => htest⟩ ?_
  · intro x hx
    rcases List.mem_append.1 hx with hx | hx
    · exact hself.elses x hx
    · obtain rfl := List.mem_singleton.1 hx
      exact ⟨helse, hlast⟩
  · intro x hx
    cases hx with
    | child hmem => exact howner.part (.child hmem)
    | branch hmem =>
      rcases List.mem_append.1 hmem with hmem | hmem
      · exact howner.part (.branch hmem)
      · obtain rfl := List.mem_singleton.1 hmem
        exact hbranch

theorem FoldedNodes.foldElse {branch : Element} {done done' : List Node} (h : FoldedNodes done)
    (hbranch : branch.FoldsBelow) (helse : branch.head.isElse = true) (hlast : branch.elses = [])
    (hfold : foldElse branch done = some done') : FoldedNodes done' := by
  induction done generalizing done' with
  | nil => cases hfold
  | cons node done ih =>
    cases node with
    | text value =>
      obtain ⟨before, hbefore, rfl⟩ := Option.map_eq_some_iff.1 hfold
      intro e he
      have hdone : FoldedNodes done := fun x hx => h x (.tail _ hx)
      exact ih hdone hbefore e (by simpa using he)
    | element owner =>
      obtain ⟨htest, hdone⟩ := Option.ite_none_right_eq_some.1 hfold
      obtain rfl := Option.some.inj hdone
      obtain ⟨howner, hbelow⟩ := h owner (.head _)
      intro e he
      rcases List.mem_cons.1 he with heq | hmem
      · obtain rfl := Node.element.inj heq
        exact ⟨howner, hbelow.branch hbranch htest helse hlast⟩
      · exact h e (.tail _ hmem)

theorem FoldedNodes.settle {e : Element} {done done' : List Node} (h : FoldedNodes done)
    (he : e.FoldsBelow) (hlast : e.elses = []) (hsettle : settle e done = some done') :
    FoldedNodes done' := by
  unfold San.settle at hsettle
  split at hsettle
  · rename_i helse
    exact h.foldElse he helse hlast hsettle
  · rename_i helse
    obtain rfl := Option.some.inj hsettle
    intro x hx
    rcases List.mem_cons.1 hx with heq | hmem
    · obtain rfl := Node.element.inj heq
      exact ⟨Bool.eq_false_iff.2 helse, he⟩
    · exact h x hmem

theorem FoldedNodes.reads {done nodes : List Node} {c stop : Cursor}
    (hreads : Reads done c nodes stop) (h : FoldedNodes done) : FoldedNodes nodes := by
  induction hreads with
  | ends => exact fun e he => h e (List.mem_reverse.1 he)
  | declaration _ _ ih => exact ih h
  | blank _ _ _ ih => exact ih h
  | text _ _ _ _ ih => exact ih fun e he => h e (by simpa using he)
  | single _ _ _ hsettle _ ih =>
    exact ih (h.settle FoldedNodes.nil.read rfl hsettle)
  | element _ _ _ _ _ hsettle _ ihinside ihrest =>
    exact ihrest (h.settle (ihinside .nil).read rfl hsettle)

/-- At every depth of a tree that is read, else branches stand with the element that has the test
and nowhere else, and no element of the source is lost, moved or there twice. -/
theorem read_folded {source : String} {nodes : List Node} (h : read source = .ok nodes) :
    IsFoldedRow nodes ∧ (∀ e, Occurs nodes e → e.IsFolded) ∧
      ∀ row, (∃ stop, Row (.start source) row stop) ↔ row = nodesOutlines nodes := by
  obtain ⟨stop, hreads⟩ := read_eq_ok.1 h
  have hfolded : FoldedNodes nodes := .reads hreads .nil
  obtain ⟨row, hrow, hnodes⟩ := hreads.row
  refine ⟨fun e he => (hfolded e he).1, ?_, ?_⟩
  · rintro e ⟨top, htop, hbelow⟩
    exact (hfolded top htop).2 e hbelow
  · intro row'
    constructor
    · rintro ⟨stop', hrow'⟩
      rw [(hrow'.unique hrow).1, hnodes]
      rfl
    · rintro rfl
      exact ⟨stop, hnodes ▸ hrow⟩

def Node.element? : Node → Option Element
  | .text _ => none
  | .element e => some e

theorem mem_of_findSome? {nodes : List Node} {e : Element}
    (h : nodes.findSome? (·.element?) = some e) : .element e ∈ nodes := by
  obtain ⟨node, hmem, hnode⟩ := List.exists_of_findSome?_eq_some h
  cases node with
  | text value => cases hnode
  | element x =>
    cases hnode
    exact hmem

def sampleElses : String :=
  "<div><a s-if=\"x\"></a> t <b s-elif=\"y\"><i></i></b><!-- u --><br s-else><p></p></div>"

theorem sampleElses_folded :
    ∃ nodes e, read sampleElses = .ok nodes ∧ Occurs nodes e ∧
      e.elses.map (·.head.tag) = ["b", "br"] ∧ IsFoldedRow nodes ∧
      (∀ x, Occurs nodes x → x.IsFolded) ∧
      ∀ row, (∃ stop, Row (.start sampleElses) row stop) ↔ row = nodesOutlines nodes := by
  have heval : (((read sampleElses).toOption.bind (·.findSome? (·.element?))).bind
      (·.children.findSome? (·.element?))).any
        (fun e => e.elses.map (·.head.tag) == ["b", "br"]) = true := by
    decide +kernel
  simp only [Option.any_eq_true, Option.bind_eq_some_iff, beq_iff_eq] at heval
  obtain ⟨e, ⟨root, ⟨nodes, hok, hroot⟩, he⟩, htags⟩ := heval
  have hread := toOption_eq_some.1 hok
  have hoccurs : Occurs nodes e :=
    ⟨root, mem_of_findSome? hroot, .single (.child (mem_of_findSome? he))⟩
  exact ⟨nodes, e, hread, hoccurs, htags, read_folded hread⟩

end VueToSan.San
