import VueToSan.Proofs.MarkupRoundTrip
import VueToSan.Proofs.QuietTexts

/-!
# Texts side by side

Texts that stand side by side are written as one, and blanks around each of them may be left out. A
tree in which such texts are joined is written in the same way without leaving out blanks. It is
regular when every run of texts is quiet.
-/

namespace VueToSan.Markup

open VueToSan.Text

def WriteOptions.keepingBlanks (o : WriteOptions) : WriteOptions := { o with stripWhitespace := false }

def joinText (content : String) : List Node → List Node
  | .text next span :: rest => .text (content ++ next) span :: rest
  | nodes => .ofText content :: nodes

mutual

/-- The element with all texts as they are written, and neighbours joined. -/
def Element.joined (o : WriteOptions) : Element → Element
  | ⟨head, children, branches⟩ => ⟨head, joinNodes o children, joinBranches o branches⟩

def joinNodes (o : WriteOptions) : List Node → List Node
  | [] => []
  | .element e :: rest => .element (e.joined o) :: joinNodes o rest
  | .text content _ :: rest => joinText (writeText o content) (joinNodes o rest)
  | .comment content span :: rest => .comment content span :: joinNodes o rest

def joinBranches (o : WriteOptions) : List Branch → List Branch
  | [] => []
  | ⟨test, .owner⟩ :: rest => ⟨test, .owner⟩ :: joinBranches o rest
  | ⟨test, .element e⟩ :: rest => ⟨test, .element (e.joined o)⟩ :: joinBranches o rest

end

variable {o : WriteOptions}

theorem head_joined (o : WriteOptions) (e : Element) : (e.joined o).head = e.head := by
  obtain ⟨head, children, branches⟩ := e
  rfl

theorem writeText_keepingBlanks (o : WriteOptions) (content : String) :
    writeText o.keepingBlanks content = content := rfl

theorem writeNodes_joinText (o : WriteOptions) (content : String) (nodes : List Node) :
    writeNodes o.keepingBlanks (joinText content nodes) =
      content ++ writeNodes o.keepingBlanks nodes := by
  unfold joinText
  split
  · simp [writeNodes, writeText_keepingBlanks, String.append_assoc]
  · rfl

theorem isEmpty_joinNodes (o : WriteOptions) (nodes : List Node) :
    (joinNodes o nodes).isEmpty = nodes.isEmpty := by
  cases nodes with
  | nil => rfl
  | cons node nodes =>
    cases node with
    | element e => rfl
    | text content span =>
      simp only [joinNodes, joinText]
      split <;> rfl
    | comment content span => rfl

mutual

theorem writeElement_joined (o : WriteOptions) (e : Element) :
    writeElement o.keepingBlanks (e.joined o) = writeElement o e :=
  match e with
  | ⟨head, children, branches⟩ => by
    simp only [Element.joined, writeElement, isEmpty_joinNodes, writeNodes_joinNodes o children,
      writeBranches_joinBranches o branches]
    rfl

theorem writeNodes_joinNodes (o : WriteOptions) (nodes : List Node) :
    writeNodes o.keepingBlanks (joinNodes o nodes) = writeNodes o nodes :=
  match nodes with
  | [] => rfl
  | .element e :: rest => by
    rw [joinNodes, writeNodes, writeNodes, writeElement_joined o e, writeNodes_joinNodes o rest]
  | .text content span :: rest => by
    rw [joinNodes, writeNodes_joinText, writeNodes_joinNodes o rest, writeNodes]
  | .comment content span :: rest => by
    rw [joinNodes, writeNodes, writeNodes, writeNodes_joinNodes o rest]

theorem writeBranches_joinBranches (o : WriteOptions) (branches : List Branch) :
    writeBranches o.keepingBlanks (joinBranches o branches) = writeBranches o branches :=
  match branches with
  | [] => rfl
  | ⟨_, .owner⟩ :: rest => by
    rw [joinBranches, writeBranches, writeBranches, writeBranches_joinBranches o rest]
  | ⟨_, .element e⟩ :: rest => by
    rw [joinBranches, writeBranches, writeBranches, writeElement_joined o e,
      writeBranches_joinBranches o rest]

end

/-! ## Runs of texts -/

def leadingText (o : WriteOptions) : List Node → List Char
  | .text content _ :: rest => (writeText o content).toList ++ leadingText o rest
  | _ => []

def RunsQuiet (o : WriteOptions) : List Node → Prop
  | [] => True
  | .element _ :: rest => RunsQuiet o rest
  | .text content span :: rest => Quiet (leadingText o (.text content span :: rest)) ∧ RunsQuiet o rest
  | .comment _ _ :: _ => False

def IsLegible (o : WriteOptions) (nodes : List Node) : Prop :=
  nodesRegular o nodes = true ∧ nodesAccepted o nodes = true

theorem leadingText_of_not_text {nodes : List Node} (h : startsWithText nodes = false) :
    leadingText o nodes = [] := by
  cases nodes with
  | nil => rfl
  | cons node nodes =>
    cases node with
    | element e => rfl
    | text content span => cases h
    | comment content span => rfl

theorem leadingText_joinText (o : WriteOptions) (content : String) (nodes : List Node) :
    leadingText o.keepingBlanks (joinText content nodes) =
      content.toList ++ leadingText o.keepingBlanks nodes := by
  unfold joinText
  split
  · simp [leadingText, writeText_keepingBlanks]
  · rfl

theorem leadingText_joinNodes (o : WriteOptions) (nodes : List Node) :
    leadingText o.keepingBlanks (joinNodes o nodes) = leadingText o nodes := by
  induction nodes with
  | nil => rfl
  | cons node nodes ih =>
    cases node with
    | element e => rfl
    | text content span => rw [joinNodes, leadingText_joinText, ih, leadingText]
    | comment content span => rfl

theorem IsLegible.text {content : String} {span : Span} {nodes : List Node}
    (h : IsLegible o.keepingBlanks nodes) (hquiet : Quiet content.toList)
    (hnext : startsWithText nodes = false) :
    IsLegible o.keepingBlanks (.text content span :: nodes) := by
  obtain ⟨hregular, haccepted⟩ := h
  refine ⟨?_, ?_⟩
  · rw [nodesRegular, writeText_keepingBlanks, hquiet.isCalm, hnext, hregular]
    rfl
  · rw [nodesAccepted, writeText_keepingBlanks, hquiet.flat.acceptsText, haccepted]
    rfl

theorem IsLegible.joinText {content : String} {nodes : List Node}
    (h : IsLegible o.keepingBlanks nodes)
    (hquiet : Quiet (content.toList ++ leadingText o.keepingBlanks nodes)) :
    IsLegible o.keepingBlanks (joinText content nodes) := by
  unfold Markup.joinText
  split
  · obtain ⟨hregular, haccepted⟩ := h
    simp only [nodesRegular, nodesAccepted, Bool.and_eq_true, Bool.not_eq_true'] at hregular haccepted
    rw [leadingText, leadingText_of_not_text hregular.1.2, List.append_nil,
      writeText_keepingBlanks] at hquiet
    refine IsLegible.text ⟨hregular.2, haccepted.2⟩ ?_ hregular.1.2
    rwa [String.toList_append]
  · rename_i hnext
    have hnoText : startsWithText nodes = false := by
      unfold startsWithText
      split
      · exact absurd rfl (hnext _ _ _)
      · rfl
    rw [leadingText_of_not_text hnoText, List.append_nil] at hquiet
    exact h.text hquiet hnoText

theorem isLegible_joinNodes {nodes : List Node} (hquiet : RunsQuiet o nodes)
    (h : ∀ e, .element e ∈ nodes →
      e.head.carriesElse = false ∧ (e.joined o).isRegular o.keepingBlanks ∧
        (e.joined o).isAccepted o.keepingBlanks) :
    IsLegible o.keepingBlanks (joinNodes o nodes) := by
  induction nodes with
  | nil => exact ⟨rfl, rfl⟩
  | cons node nodes ih =>
    have hrest := fun e he => h e (List.mem_cons_of_mem node he)
    cases node with
    | element e =>
      obtain ⟨helse, hregular, haccepted⟩ := h e List.mem_cons_self
      obtain ⟨hnodes, haccept⟩ := ih hquiet hrest
      refine ⟨?_, ?_⟩
      · rw [joinNodes, nodesRegular, head_joined, helse, hregular, hnodes]
        rfl
      · rw [joinNodes, nodesAccepted, haccepted, haccept]
        rfl
    | text content span =>
      obtain ⟨hrun, hquiet⟩ := hquiet
      rw [joinNodes]
      apply (ih hquiet hrest).joinText
      rwa [leadingText_joinNodes]
    | comment content span => cases hquiet

/-- San reads the markup of a regular tree as its image. -/
theorem read_image {e : Element} (ho : o.isRegular) (hregular : nodesRegular o [.element e])
    {t : San.Element} (ht : e.image? o = some t) :
    San.read (writeElement o e) = .ok [.element t] := by
  have himage : nodesImage? o [.element e] = some [.element t] := by simp [nodesImage?, ht]
  have hlead := San.leads_nodes ho _ hregular himage (.inl rfl) []
  have hwrite : writeNodes o [.element e] = writeElement o e := by simp [writeNodes]
  rw [hwrite] at hlead
  obtain ⟨m, hm, hread⟩ := hlead ((writeElement o e).toList.length + 1) 0 (by simp)
  obtain ⟨m, rfl⟩ : ∃ k, m = k + 1 := ⟨m - 1, by omega⟩
  rw [List.append_nil] at hread
  rw [San.read]
  simp only [Cursor.start, hread]
  simp [San.readNodes, Cursor.atEnd]

theorem read_writeElement {e : Element} (ho : o.isRegular) (helse : e.head.carriesElse = false)
    (hregular : (e.joined o).isRegular o.keepingBlanks)
    (haccepted : (e.joined o).isAccepted o.keepingBlanks) :
    ∃ t, San.read (writeElement o e) = .ok [.element t] := by
  obtain ⟨t, ht⟩ := Option.isSome_iff_exists.1 (San.image_isSome _ haccepted)
  have hnodes : nodesRegular o.keepingBlanks [.element (e.joined o)] := by
    simpa [nodesRegular, hregular, head_joined] using helse
  refine ⟨t, ?_⟩
  rw [← writeElement_joined]
  exact read_image (o := o.keepingBlanks) ho hnodes ht

end VueToSan.Markup
