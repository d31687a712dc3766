import VueToSan.Proofs.ReadRounds
import Mathlib.Logic.Relation

/-!
# Elements of a tree

The parts of an element are its child elements and the else blocks of its conditional chain. An
element occurs in a list of nodes when it is reached from an element of the list through parts.
Elements that were just read have no chain.
-/

namespace VueToSan.Markup

inductive Element.Part (e : Element) : Element → Prop
  | child {x : Element} (h : .element x ∈ e.children) : Part e x
  | block {test : Option String} {x : Element} (h : ⟨test, .element x⟩ ∈ e.branches) : Part e x

def Element.All (P : Element → Prop) (e : Element) : Prop :=
  ∀ x, Relation.ReflTransGen Element.Part e x → P x

def Occurs (nodes : List Node) (e : Element) : Prop :=
  ∃ top, .element top ∈ nodes ∧ Relation.ReflTransGen Element.Part top e

namespace Element.All

variable {P : Element → Prop} {e x : Element}

theorem self (h : e.All P) : P e := h e .refl

theorem part (h : e.All P) (hx : e.Part x) : x.All P :=
  fun y hy => h y (.head hx hy)

theorem child (h : e.All P) (hx : .element x ∈ e.children) : x.All P := h.part (.child hx)

theorem intro (hself : P e) (hparts : ∀ x, e.Part x → x.All P) : e.All P := by
  intro x hx
  rcases hx.cases_head with rfl | ⟨y, hy, hyx⟩
  · exact hself
  · exact hparts y hy x hyx

theorem of_children {head : Head} {children : List Node} (hself : P ⟨head, children, []⟩)
    (hchildren : ∀ x, .element x ∈ children → x.All P) : All P ⟨head, children, []⟩ := by
  apply intro hself
  intro x hx
  cases hx with
  | child h => exact hchildren x h
  | block h => cases h

theorem addBranch {b : Element} (hself : P (e.addBranch b)) (he : e.All P) (hb : b.All P) :
    (e.addBranch b).All P := by
  apply intro hself
  intro x hx
  cases hx with
  | child h => exact he.child h
  | @block test x h =>
    have h : ⟨test, .element x⟩ ∈ e.branches ∨ x = b := by
      rcases List.mem_append.1 h with h | h
      · split at h
        · simp at h
        · exact .inl h
      · have h : test = b.head.elseIfTest ∧ x = b := by simpa using h
        exact .inr h.2
    rcases h with h | rfl
    · exact he.part (.block h)
    · exact hb

end Element.All

theorem Occurs.of_all {P : Element → Prop} {nodes : List Node} {e : Element}
    (he : Occurs nodes e) (h : ∀ x, .element x ∈ nodes → x.All P) : P e := by
  obtain ⟨top, hmem, hreach⟩ := he
  exact h top hmem e hreach

theorem Element.all_of_occurs {P : Element → Prop} {nodes : List Node} {top : Element}
    (hmem : .element top ∈ nodes) (h : ∀ e, Occurs nodes e → P e) : top.All P :=
  fun x hx => h x ⟨top, hmem, hx⟩

theorem firstElement?_mem {nodes : List Node} {e : Element} (h : firstElement? nodes = some e) :
    .element e ∈ nodes := by
  obtain ⟨node, hmem, hnode⟩ := List.exists_of_findSome?_eq_some h
  cases node with
  | element x =>
    cases hnode
    exact hmem
  | text content span => cases hnode
  | comment content span => cases hnode

/-! ## All elements of a tree -/

mutual

def Element.elements : Element → List Element
  | ⟨head, children, branches⟩ =>
    ⟨head, children, branches⟩ :: (elementsEach children ++ elementsOfBlocks branches)

def elementsEach : List Node → List Element
  | [] => []
  | .element e :: rest => e.elements ++ elementsEach rest
  | .text _ _ :: rest => elementsEach rest
  | .comment _ _ :: rest => elementsEach rest

def elementsOfBlocks : List Branch → List Element
  | [] => []
  | ⟨_, .owner⟩ :: rest => elementsOfBlocks rest
  | ⟨_, .element e⟩ :: rest => e.elements ++ elementsOfBlocks rest

end

theorem elements_subset_of_mem {x : Element} {nodes : List Node} (hx : .element x ∈ nodes) :
    x.elements ⊆ elementsEach nodes := by
  induction nodes with
  | nil => cases hx
  | cons node nodes ih =>
    rcases List.mem_cons.1 hx with rfl | hmem
    · exact List.subset_append_left _ _
    · cases node with
      | element e => exact List.Subset.trans (ih hmem) (List.subset_append_right _ _)
      | text content span => exact ih hmem
      | comment content span => exact ih hmem

theorem elements_subset_of_block {test : Option String} {x : Element} {branches : List Branch}
    (hx : ⟨test, .element x⟩ ∈ branches) : x.elements ⊆ elementsOfBlocks branches := by
  induction branches with
  | nil => cases hx
  | cons branch branches ih =>
    rcases List.mem_cons.1 hx with rfl | hmem
    · exact List.subset_append_left _ _
    · obtain ⟨other, block⟩ := branch
      cases block with
      | owner => exact ih hmem
      | element e => exact List.Subset.trans (ih hmem) (List.subset_append_right _ _)

theorem Element.Part.elements_subset {e x : Element} (h : e.Part x) : x.elements ⊆ e.elements := by
  obtain ⟨head, children, branches⟩ := e
  cases h with
  | child h =>
    exact List.Subset.trans (elements_subset_of_mem h)
      (List.Subset.trans (List.subset_append_left _ _) (List.subset_cons_self _ _))
  | block h =>
    exact List.Subset.trans (elements_subset_of_block h)
      (List.Subset.trans (List.subset_append_right _ _) (List.subset_cons_self _ _))

theorem Occurs.mem_elements {nodes : List Node} {e : Element} (h : Occurs nodes e) :
    e ∈ elementsEach nodes := by
  obtain ⟨top, htop, hreach⟩ := h
  apply elements_subset_of_mem htop
  have hsub : e.elements ⊆ top.elements := by
    induction hreach with
    | refl => exact List.Subset.refl _
    | tail _ hpart ih => exact List.Subset.trans hpart.elements_subset ih
  obtain ⟨head, children, branches⟩ := e
  exact hsub List.mem_cons_self

/-! ## Elements that were just read -/

def Element.Fresh (e : Element) : Prop := e.All fun x => x.branches = []

theorem not_element_mem_readRawText (tag : String) (c : Cursor) (x : Element) :
    .element x ∉ (readRawText tag c).1 := by
  unfold readRawText
  dsimp only
  split <;> simp

theorem not_element_mem_readLeaf (options : ReadOptions) (top : Bool) (c : Cursor) (x : Element) :
    .element x ∉ (readLeaf options top c).value := by
  unfold readLeaf
  split
  · unfold readComment
    dsimp only
    split <;> simp
  · split
    · simp
    · unfold readText
      dsimp only
      split
      · split <;> simp
      · split <;> simp

/-- What can stand in an element of a source whose start tag was read. -/
inductive Content (options : ReadOptions) (source : List Char) (head : Head) : List Node → Prop
  | none (h : (head.selfClosing || isVoid head.tag) = true) : Content options source head []
  | raw (c : Cursor) (hvoid : isVoid head.tag = false) (hraw : isRawText head.tag = true) :
      Content options source head (readRawText head.tag c).1
  | nodes (n : Nat) (opened : List String) (c : Cursor) (hc : c.rest <:+ source)
      (hvoid : isVoid head.tag = false) (hraw : isRawText head.tag = false) :
      Content options source head (readNodes options n (head.tag :: opened) c).value

theorem readInside_content (options : ReadOptions) {source : List Char} (n : Nat)
    (opened : List String) {c : Cursor} (hc : c.rest <:+ source) :
    Content options source (readStartTag opened.head? c).value
      (readInside options n opened c).value := by
  unfold readInside
  dsimp only
  split
  · rename_i hvoid
    exact .none hvoid
  · rename_i hvoid
    simp only [Bool.or_eq_true, not_or, Bool.not_eq_true] at hvoid
    dsimp only
    split
    · rename_i hraw
      exact .raw _ hvoid.2 hraw
    · rename_i hraw
      exact .nodes _ _ _ ((reaches_readStartTag _ c).suffix.trans hc) hvoid.2 (by simpa using hraw)

theorem mem_readInside {P : Element → Prop} {options : ReadOptions} {n : Nat}
    {opened : List String} {c : Cursor}
    (h : ∀ x, .element x ∈ (readNodes options n
      ((readStartTag opened.head? c).value.tag :: opened)
      (readStartTag opened.head? c).cursor).value → P x) :
    ∀ x, .element x ∈ (readInside options n opened c).value → P x := by
  intro x hx
  unfold readInside at hx
  dsimp only at hx
  split at hx
  · simp at hx
  · split at hx
    · exact absurd hx (not_element_mem_readRawText _ _ x)
    · exact h x hx

theorem exists_letter {c : Cursor} (hend : endTag? c.rest = none)
    (hopen : opensElement c = true) :
    ∃ letter cs, c.rest = '<' :: letter :: cs ∧ Text.isLetter letter = true := by
  obtain ⟨pos, rest⟩ := c
  rw [opensElement, Bool.and_eq_true] at hopen
  obtain ⟨hmarkup, hbang⟩ := hopen
  dsimp only at hend hmarkup
  unfold atMarkup at hmarkup
  split at hmarkup
  · rename_i letter cs
    refine ⟨letter, cs, rfl, ?_⟩
    rcases Bool.or_eq_true _ _ ▸ hmarkup with hmarkup | hmarkup
    · rcases Bool.or_eq_true _ _ ▸ hmarkup with hmarkup | hmarkup
      · exact hmarkup
      · obtain rfl : letter = '/' := by simpa using hmarkup
        simp [endTag?] at hend
    · obtain rfl : letter = '!' := by simpa using hmarkup
      simp [Cursor.startsWith] at hbang
  · cases hmarkup

theorem readNodes_elements {P : Element → Prop} {options : ReadOptions} {origin : Cursor}
    (hP : ∀ n opened c, origin.Reaches c →
      (∃ letter cs, c.rest = '<' :: letter :: cs ∧ Text.isLetter letter = true) →
      (∀ x, .element x ∈ (readInside options n opened c).value → x.All P) →
      P (readElement options n opened c).value)
    (n : Nat) (opened : List String) (c : Cursor) (hc : origin.Reaches c) (x : Element)
    (hx : .element x ∈ (readNodes options n opened c).value) : x.All P := by
  induction n generalizing opened c x with
  | zero => simp [readNodes] at hx
  | succ n ih =>
    rw [readNodes_succ] at hx
    split at hx
    · simp at hx
    · rcases List.mem_append.1 hx with hx | hx
      · unfold readRound at hx
        split at hx
        · simp [readStrayEnd] at hx
        · rename_i hend
          split at hx
          · rename_i hopen
            obtain rfl := Node.element.inj (List.mem_singleton.1 hx)
            have hbelow : ∀ y, .element y ∈ (readInside options n opened c).value → y.All P :=
              mem_readInside (ih _ _ (hc.trans (reaches_readStartTag _ c)))
            exact .of_children (hP n opened c hc (exists_letter hend hopen) hbelow) hbelow
          · exact absurd hx (not_element_mem_readLeaf _ _ _ x)
      · exact ih _ _ (hc.trans (reaches_readRound options n opened c)) x hx

theorem readNodes_all {P : Element → Prop} {options : ReadOptions} {source : List Char}
    (hP : ∀ parent c span children, c.rest <:+ source →
      (∃ letter cs, c.rest = '<' :: letter :: cs ∧ Text.isLetter letter = true) →
      Content options source (readStartTag parent c).value children →
      (∀ x, .element x ∈ children → x.All P) →
      P ⟨{ (readStartTag parent c).value with span := span }, children, []⟩)
    (n : Nat) (opened : List String) (c : Cursor) (hc : c.rest <:+ source) (x : Element)
    (hx : .element x ∈ (readNodes options n opened c).value) : x.All P := by
  refine readNodes_elements (fun n opened d (hd : c.Reaches d) hletter hbelow => ?_) n opened c
    (.refl c) x hx
  have hd := hd.suffix.trans hc
  exact hP _ d _ _ hd hletter (readInside_content options n opened hd) hbelow

theorem read_fresh {options : ReadOptions} {source : String} {x : Element}
    (hx : .element x ∈ (read options source).value) : x.Fresh :=
  readNodes_all (fun _ _ _ _ _ _ _ _ => rfl) _ _ _ List.suffix_rfl x hx

theorem Occurs.read_head {options : ReadOptions} {source : String} {e : Element}
    (he : Occurs (read options source).value e) :
    ∃ parent c span, e.head = { (readStartTag parent c).value with span := span } :=
  he.of_all (P := fun x => ∃ parent c span,
      x.head = { (readStartTag parent c).value with span := span })
    fun x hx => readNodes_all (fun parent c span _ _ _ _ _ => ⟨parent, c, span, rfl⟩) _ _ _
      List.suffix_rfl x hx

end VueToSan.Markup
