import VueToSan.Proofs.ChainedSiblings
import VueToSan.Proofs.RuleEffects

/-!
# Invariants of a walk

What every walk that is done keeps. An invariant says what holds of an element when its rules have
run (`Walked`) and what holds when it has found its place among its siblings (`Settled`); a walk
leads from the elements of the source to settled ones.
-/

namespace VueToSan.Transform

open VueToSan.Markup

/-! ## Leaves -/

section Leaves

variable {node : Node} {done nodes : List Node} (hleaf : node.element? = none)
include hleaf

theorem leaf_mem_attach {branch : Element} {before : List Node}
    (h : node ∈ (attach branch before).1) : node ∈ before := by
  fun_induction attach branch before with
  | case1 other otherSpan before nodes problems hrest hblank ih =>
    rw [hrest] at ih
    exact List.mem_cons_of_mem _ (ih h)
  | case2 other otherSpan before nodes problems hrest hblank ih =>
    rw [hrest] at ih
    exact List.mem_cons_of_mem _ (ih h)
  | case3 other otherSpan before ih => exact List.mem_cons_of_mem _ (ih h)
  | case4 e before hif =>
    rcases List.mem_cons.1 h with rfl | h
    · cases hleaf
    · exact List.mem_cons_of_mem _ h
  | case5 e before hif => exact h
  | case6 => exact h

theorem leaf_mem_chainOnto (h : node ∈ (chainOnto done nodes).1) : node ∈ done ∨ node ∈ nodes := by
  induction nodes generalizing done with
  | nil => exact .inl (by simpa [chainOnto] using h)
  | cons other rest ih =>
    have hcons : node ∈ other :: done ∨ node ∈ rest → node ∈ done ∨ node ∈ other :: rest := by
      rw [List.mem_cons, List.mem_cons]
      exact fun hmem => or_left_comm.1 (or_assoc.1 hmem)
    cases other with
    | element e =>
      simp only [chainOnto] at h
      split at h
      · exact (ih h).imp (leaf_mem_attach hleaf) (List.mem_cons_of_mem _)
      · exact hcons (ih h)
    | text content span => exact hcons (ih h)
    | comment content span => exact hcons (ih h)

theorem leaf_mem_walkEach {rules : List Rule} {site : List Node × Context} {context : Context}
    (hwalk : walkEach rules nodes context = .done site) (h : node ∈ site.1) : node ∈ nodes := by
  induction nodes generalizing site context with
  | nil =>
    cases hwalk
    exact h
  | cons other rest ih =>
    cases other with
    | element e =>
      simp only [walkEach] at hwalk
      split at hwalk
      · cases hwalk
      · obtain ⟨⟨nodes, outer⟩, hrest, rfl⟩ := Edit.map_eq_done.1 hwalk
        rcases List.mem_cons.1 h with rfl | h
        · cases hleaf
        · exact List.mem_cons_of_mem _ (ih hrest h)
    | text content span =>
      obtain ⟨⟨nodes, outer⟩, hrest, rfl⟩ := Edit.map_eq_done.1 hwalk
      exact List.mem_cons.2 ((List.mem_cons.1 h).imp_right (ih hrest))
    | comment content span =>
      obtain ⟨⟨nodes, outer⟩, hrest, rfl⟩ := Edit.map_eq_done.1 hwalk
      exact List.mem_cons.2 ((List.mem_cons.1 h).imp_right (ih hrest))

theorem leaf_mem_chainWalked {rules : List Rule} {site : List Node × Context} {context : Context}
    (hwalk : walkEach rules nodes context = .done site) (h : node ∈ (chainWalked site).1) :
    node ∈ nodes :=
  leaf_mem_walkEach hleaf hwalk ((leaf_mem_chainOnto hleaf h).resolve_left (by simp))

end Leaves

/-! ## Walks -/

/-- What an element of the source becomes. The source elements all satisfy `Source`. -/
structure WalkInvariant (rules : List Rule) (Source Walked Settled : Element → Prop) : Prop where
  /-- The rules run on an element whose children have settled; the other nodes are those of the
  source. -/
  after : ∀ (e e' : Element) (context inner outer : Context) (children : List Node), Source e →
    (∀ x, .element x ∈ children → Settled x) →
    (∀ node ∈ children, node.element? = none → node ∈ e.children) →
    runAfter rules ⟨(runBefore rules e context).1.extract.1, children, e.branches⟩ inner =
      .done (e', outer) →
    Walked e'
  /-- An element that continues no conditional keeps its place. -/
  settle : ∀ e, Walked e → e.head.isBranch = false → Settled e
  /-- An element that continues a conditional joins the chain of the element before it. -/
  attach : ∀ e b, Settled e → e.head.ifTest.isSome → Walked b → b.head.isBranch →
    Settled (e.addBranch b)

namespace WalkInvariant

variable {rules : List Rule} {Source Walked Settled : Element → Prop}

theorem settled_chainWalked (inv : WalkInvariant rules Source Walked Settled)
    {site : List Node × Context} (h : ∀ x, .element x ∈ site.1 → Walked x) :
    ∀ x, .element x ∈ (chainWalked site).1 → Settled x :=
  chainOnto_settled inv.settle inv.attach (by simp) h

mutual

theorem walked_walkElement (inv : WalkInvariant rules Source Walked Settled) :
    (e : Element) → (hsource : e.All Source) → {e' : Element} → {context context' : Context} →
    walkElement rules e context = .done (e', context') → Walked e'
  | ⟨head, children, branches⟩, hsource, e', context, context', h => by
    simp only [walkElement] at h
    split at h
    · cases h
    · rename_i site hsite
      -- The children are chained before the rules of the element run.
      have hwalked := inv.walked_walkEach children (fun x hx => hsource.child hx) hsite
      exact inv.after ⟨head, children, branches⟩ e' context _ _ _ hsource.self
        (inv.settled_chainWalked hwalked) (fun _ hmem hleaf => leaf_mem_chainWalked hleaf hsite hmem) h

theorem walked_walkEach (inv : WalkInvariant rules Source Walked Settled) :
    (nodes : List Node) → (hsource : ∀ x, .element x ∈ nodes → x.All Source) →
    {site : List Node × Context} → {context : Context} →
    walkEach rules nodes context = .done site → ∀ x, .element x ∈ site.1 → Walked x
  | [], _, site, context, h => by
    cases h
    simp
  | .element e :: rest, hsource, site, context, h => by
    simp only [walkEach] at h
    split at h
    · cases h
    · rename_i e' context' he
      obtain ⟨⟨nodes, outer⟩, hrest, rfl⟩ := Edit.map_eq_done.1 h
      intro x hx
      rcases List.mem_cons.1 hx with hx | hx
      · cases hx
        exact inv.walked_walkElement e (hsource e List.mem_cons_self) he
      · have hrest' := fun y hy => hsource y (List.mem_cons_of_mem _ hy)
        exact inv.walked_walkEach rest hrest' hrest x hx
  | .text content span :: rest, hsource, site, context, h => by
    obtain ⟨⟨nodes, outer⟩, hrest, rfl⟩ := Edit.map_eq_done.1 h
    intro x hx
    have hx : .element x ∈ nodes := by simpa using hx
    exact inv.walked_walkEach rest (fun y hy => hsource y (List.mem_cons_of_mem _ hy)) hrest x hx
  | .comment content span :: rest, hsource, site, context, h => by
    obtain ⟨⟨nodes, outer⟩, hrest, rfl⟩ := Edit.map_eq_done.1 h
    intro x hx
    have hx : .element x ∈ nodes := by simpa using hx
    exact inv.walked_walkEach rest (fun y hy => hsource y (List.mem_cons_of_mem _ hy)) hrest x hx

end

theorem settled_walk (inv : WalkInvariant rules Source Walked Settled) {nodes nodes' : List Node}
    {context context' : Context} (hsource : ∀ e, Occurs nodes e → Source e)
    (h : walk rules nodes context = .done (nodes', context')) :
    ∀ x, .element x ∈ nodes' → Settled x := by
  obtain ⟨site, hsite, h⟩ := Edit.andThen_eq_done.1 h
  cases h
  apply inv.settled_chainWalked
  exact inv.walked_walkEach nodes (fun x hx => Element.all_of_occurs hx hsource) hsite

end WalkInvariant

end VueToSan.Transform
