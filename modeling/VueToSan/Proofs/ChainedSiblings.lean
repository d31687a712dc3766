import VueToSan.Markup.Chain

/-!
# Siblings and their else branches

What becomes of each of several siblings when they are chained. A branch goes to the closest element
before it that is no branch, texts and comments in front of a branch are dropped, and all other
nodes stay as they are and where they are. Chained siblings are not changed by chaining them again.
-/

namespace VueToSan.Markup

open VueToSan.Text

structure Sibling where
  before : List Node
  node : Node
  behind : List Node

def siblingsFrom (before : List Node) : List Node → List Sibling
  | [] => []
  | node :: behind => ⟨before, node, behind⟩ :: siblingsFrom (node :: before) behind

def siblings (nodes : List Node) : List Sibling := siblingsFrom [] nodes

def nextBranch? (behind : List Node) : Option Element :=
  (firstElement? behind).filter (·.head.isBranch)

def nextBranches (behind : List Node) : List Element :=
  (behind.filterMap (·.element?)).takeWhile (·.head.isBranch)

def owner? (before : List Node) : Option Element :=
  (before.filterMap (·.element?)).find? (!·.head.isBranch)

def Element.chainedWith (e : Element) (branches : List Element) : Element :=
  if e.head.ifTest.isNone || branches.isEmpty then e
  else
    { e with branches := ⟨e.head.ifTest, .owner⟩ ::
        branches.map fun b => ⟨b.head.elseIfTest, .element b⟩ }

def dropProblems (branch : Element) : Node → List Problem
  | .text content _ =>
    if allBlank content then []
    else [⟨.textBetweenBranches (trimmed content), branch.head.span⟩]
  | _ => []

def branchProblems (branch : Element) (tested : Bool) : List Problem :=
  if tested then [] else [⟨.orphanElse branch.head.elseIfTest branch.head.tag, branch.head.span⟩]

def Sibling.kept? (s : Sibling) : Option Node :=
  match s.node with
  | .element e =>
    if e.head.isBranch then none else some (.element (e.chainedWith (nextBranches s.behind)))
  | leaf => if (nextBranch? s.behind).isSome then none else some leaf

def Sibling.problems (s : Sibling) : List Problem :=
  match s.node with
  | .element e =>
    if e.head.isBranch then branchProblems e ((owner? s.before).any (·.head.ifTest.isSome)) else []
  | leaf => (nextBranch? s.behind).toList.flatMap (dropProblems · leaf)

/-! ## One branch -/

def Element.join (e : Element) (branches : List Element) : Element :=
  if e.head.ifTest.isSome then branches.foldl Element.addBranch e else e

def joinFirst (branches : List Element) : List Node → List Node
  | .element e :: nodes => .element (e.join branches) :: nodes
  | nodes => nodes

def firstIsTested : List Node → Bool
  | .element e :: _ => e.head.ifTest.isSome
  | _ => false

/-- Nodes that a branch meets behind leaves. -/
inductive Opening : List Node → Prop
  | start : Opening []
  | element (e : Element) (done : List Node) : Opening (.element e :: done)

theorem join_nil (e : Element) : e.join [] = e := by
  simp [Element.join]

theorem head_join (e : Element) (branches : List Element) : (e.join branches).head = e.head := by
  unfold Element.join
  split
  · induction branches generalizing e with
    | nil => rfl
    | cons b branches ih => exact ih (e.addBranch b) ‹_›
  · rfl

theorem join_join (e b : Element) (branches : List Element) :
    (e.join [b]).join branches = e.join (b :: branches) := by
  have hhead := head_join e [b]
  unfold Element.join at hhead ⊢
  rw [hhead]
  split <;> rfl

theorem foldl_addBranch {e : Element} (h : e.branches ≠ []) (branches : List Element) :
    branches.foldl Element.addBranch e =
      { e with branches := e.branches ++ branches.map fun b => ⟨b.head.elseIfTest, .element b⟩ } := by
  induction branches generalizing e with
  | nil =>
    obtain ⟨head, children, own⟩ := e
    simp
  | cons b branches ih =>
    have hadd : e.addBranch b =
        { e with branches := e.branches ++ [⟨b.head.elseIfTest, .element b⟩] } := by
      simp [Element.addBranch, h]
    rw [List.foldl_cons, hadd, ih (by simp)]
    simp

theorem join_of_alone {e : Element} (h : e.branches = []) (branches : List Element) :
    e.join branches = e.chainedWith branches := by
  unfold Element.join Element.chainedWith
  cases htest : e.head.ifTest with
  | none => simp
  | some test =>
    cases branches with
    | nil => simp
    | cons b branches =>
      have hadd : e.addBranch b =
          { e with branches := [⟨some test, .owner⟩, ⟨b.head.elseIfTest, .element b⟩] } := by
        simp [Element.addBranch, h, htest]
      simp [hadd, foldl_addBranch]

namespace Opening

variable {done : List Node}

theorem joinFirst (h : Opening done) (branches : List Element) :
    Opening (joinFirst branches done) := by
  cases h with
  | start => exact .start
  | element e done => exact .element _ done

theorem firstIsTested_joinFirst (h : Opening done) (branches : List Element) :
    firstIsTested (Markup.joinFirst branches done) = firstIsTested done := by
  cases h with
  | start => rfl
  | element e done => rw [Markup.joinFirst, firstIsTested, firstIsTested, head_join]

theorem joinFirst_nil (h : Opening done) : Markup.joinFirst [] done = done := by
  cases h with
  | start => rfl
  | element e done => rw [Markup.joinFirst, join_nil]

theorem joinFirst_joinFirst (h : Opening done) (b : Element) (branches : List Element) :
    Markup.joinFirst branches (Markup.joinFirst [b] done) = Markup.joinFirst (b :: branches) done := by
  cases h with
  | start => rfl
  | element e done => rw [Markup.joinFirst, Markup.joinFirst, Markup.joinFirst, join_join]

theorem attach_eq (h : Opening done) (b : Element) :
    attach b done = (Markup.joinFirst [b] done, branchProblems b (firstIsTested done)) := by
  cases h with
  | start => rfl
  | element e done =>
    by_cases htest : e.head.ifTest.isSome = true
    · simp [attach, Markup.joinFirst, Element.join, branchProblems, firstIsTested, htest]
    · simp [attach, Markup.joinFirst, Element.join, branchProblems, firstIsTested, htest]

end Opening

theorem attach_leaves (b : Element) {leaves done : List Node}
    (hleaves : ∀ node ∈ leaves, node.element? = none) (hdone : Opening done) :
    attach b (leaves ++ done) =
      (joinFirst [b] done, leaves.flatMap (dropProblems b) ++ branchProblems b (firstIsTested done)) := by
  induction leaves with
  | nil => exact hdone.attach_eq b
  | cons node leaves ih =>
    have ih := ih fun x hx => hleaves x (List.mem_cons_of_mem _ hx)
    cases node with
    | element e => cases hleaves _ List.mem_cons_self
    | text content span =>
      simp only [List.cons_append, attach, ih, dropProblems, List.flatMap_cons]
      split <;> simp
    | comment content span => simp [attach, ih, dropProblems]

/-! ## All siblings -/

theorem eq_of_element? {node : Node} {e : Element} (h : node.element? = some e) :
    node = .element e := by
  cases node with
  | element x => rw [Option.some.inj h]
  | text content span => cases h
  | comment content span => cases h

section Leaf

variable {node : Node} (h : node.element? = none)
include h

theorem chainOnto_leaf (done rest : List Node) :
    chainOnto done (node :: rest) = chainOnto (node :: done) rest := by
  cases node with
  | element e => cases h
  | text content span => rfl
  | comment content span => rfl

theorem nextBranch?_leaf (rest : List Node) : nextBranch? (node :: rest) = nextBranch? rest := by
  simp [nextBranch?, firstElement?, h]

theorem nextBranches_leaf (rest : List Node) :
    nextBranches (node :: rest) = nextBranches rest := by
  simp [nextBranches, h]

theorem kept?_leaf (before behind : List Node) :
    Sibling.kept? ⟨before, node, behind⟩ =
      if (nextBranch? behind).isSome then none else some node := by
  cases node with
  | element e => cases h
  | text content span => rfl
  | comment content span => rfl

theorem problems_leaf (before behind : List Node) :
    Sibling.problems ⟨before, node, behind⟩ =
      (nextBranch? behind).toList.flatMap (dropProblems · node) := by
  cases node with
  | element e => cases h
  | text content span => rfl
  | comment content span => rfl

end Leaf

section Element

variable {e : Element}

theorem nextBranch?_branch (h : e.head.isBranch = true) (rest : List Node) :
    nextBranch? (.element e :: rest) = some e := by
  simp [nextBranch?, firstElement?, Node.element?, h]

theorem nextBranch?_other (h : e.head.isBranch = false) (rest : List Node) :
    nextBranch? (.element e :: rest) = none := by
  simp [nextBranch?, firstElement?, Node.element?, h]

theorem nextBranches_branch (h : e.head.isBranch = true) (rest : List Node) :
    nextBranches (.element e :: rest) = e :: nextBranches rest := by
  simp [nextBranches, Node.element?, h]

theorem nextBranches_other (h : e.head.isBranch = false) (rest : List Node) :
    nextBranches (.element e :: rest) = [] := by
  simp [nextBranches, Node.element?, h]

end Element

theorem leafless : ∀ node ∈ ([] : List Node), node.element? = none := nofun

theorem nodes_chainOnto {leaves done rest : List Node}
    (hleaves : ∀ node ∈ leaves, node.element? = none) (hdone : Opening done)
    (hrest : ∀ e, .element e ∈ rest → e.branches = []) (before : List Node) :
    (chainOnto (leaves ++ done) rest).1 =
      (joinFirst (nextBranches rest) done).reverse ++
        ((if (nextBranch? rest).isSome then [] else leaves.reverse) ++
          (siblingsFrom before rest).filterMap Sibling.kept?) := by
  -- The leaves in front of `rest` are not yet known to stay, so the induction generalises them.
  induction rest generalizing leaves done before with
  | nil =>
    simp [chainOnto, nextBranches, nextBranch?, firstElement?, siblingsFrom, hdone.joinFirst_nil]
  | cons node rest ih =>
    have htail : ∀ e, .element e ∈ rest → e.branches = [] :=
      fun e he => hrest e (List.mem_cons_of_mem _ he)
    rw [siblingsFrom]
    cases hnode : node.element? with
    | none =>
      have hcons : ∀ x ∈ node :: leaves, x.element? = none := by simpa [hnode] using hleaves
      rw [chainOnto_leaf hnode, ← List.cons_append, ih hcons hdone htail (node :: before),
        nextBranches_leaf hnode, nextBranch?_leaf hnode, List.filterMap_cons, kept?_leaf hnode]
      cases nextBranch? rest <;> simp
    | some e =>
      obtain rfl := eq_of_element? hnode
      cases hbranch : e.head.isBranch with
      | true =>
        have hjoin := ih leafless (hdone.joinFirst [e]) htail (.element e :: before)
        simp only [List.nil_append, hdone.joinFirst_joinFirst] at hjoin
        simp [chainOnto, hbranch, attach_leaves e hleaves hdone, hjoin, nextBranch?_branch,
          nextBranches_branch, Sibling.kept?]
      | false =>
        have halone := hrest e List.mem_cons_self
        have hopen := ih leafless (.element e (leaves ++ done)) htail (.element e :: before)
        simp only [List.nil_append, joinFirst, join_of_alone halone] at hopen
        simp [chainOnto, hbranch, hopen, nextBranch?_other, nextBranches_other,
          hdone.joinFirst_nil, Sibling.kept?]

theorem problems_chainOnto {leaves done rest : List Node}
    (hleaves : ∀ node ∈ leaves, node.element? = none) (hdone : Opening done) (before : List Node)
    (howner : firstIsTested done = (owner? before).any (·.head.ifTest.isSome)) :
    (chainOnto (leaves ++ done) rest).2.Perm
      (leaves.flatMap (fun leaf => (nextBranch? rest).toList.flatMap (dropProblems · leaf)) ++
        (siblingsFrom before rest).flatMap Sibling.problems) := by
  induction rest generalizing leaves done before with
  | nil => simp [chainOnto, nextBranch?, firstElement?, siblingsFrom]
  | cons node rest ih =>
    rw [siblingsFrom]
    cases hnode : node.element? with
    | none =>
      -- A leaf waits among the others until the next element decides about it.
      have hcons : ∀ x ∈ node :: leaves, x.element? = none := by simpa [hnode] using hleaves
      have hkeep : owner? (node :: before) = owner? before := by simp [owner?, hnode]
      have hmore := ih hcons hdone (node :: before) (hkeep ▸ howner)
      rw [chainOnto_leaf hnode, ← List.cons_append, nextBranch?_leaf hnode, List.flatMap_cons,
        problems_leaf hnode]
      refine hmore.trans ?_
      rw [List.flatMap_cons, ← List.append_assoc]
      exact List.perm_append_comm.append_right _
    | some e =>
      obtain rfl := eq_of_element? hnode
      cases hbranch : e.head.isBranch with
      | true =>
        -- A branch drops the leaves that wait and joins the element before them.
        have hkeep : owner? (.element e :: before) = owner? before := by
          simp [owner?, Node.element?, hbranch]
        have hmore := ih leafless (hdone.joinFirst [e]) (.element e :: before)
          (by rw [hdone.firstIsTested_joinFirst, hkeep, howner])
        have hrun : (chainOnto (leaves ++ done) (.element e :: rest)).2 =
            leaves.flatMap (dropProblems e) ++ (Sibling.problems ⟨before, .element e, rest⟩ ++
              (chainOnto (joinFirst [e] done) rest).2) := by
          simp [chainOnto, hbranch, attach_leaves e hleaves hdone, Sibling.problems, howner]
        have hdrop : leaves.flatMap (fun leaf =>
            (nextBranch? (.element e :: rest)).toList.flatMap (dropProblems · leaf)) =
              leaves.flatMap (dropProblems e) := by
          rw [nextBranch?_branch hbranch]
          simp
        rw [hrun, hdrop, List.flatMap_cons]
        exact (hmore.append_left _).append_left _
      | false =>
        -- Any other element keeps the leaves and is the one that branches may join from here on.
        have hself : owner? (.element e :: before) = some e := by
          simp [owner?, Node.element?, hbranch]
        have hmore := ih leafless (.element e (leaves ++ done)) (.element e :: before)
          (by rw [hself]; rfl)
        have hdrop : leaves.flatMap (fun leaf =>
            (nextBranch? (.element e :: rest)).toList.flatMap (dropProblems · leaf)) = [] := by
          rw [nextBranch?_other hbranch]
          simp
        simpa [chainOnto, hbranch, hdrop, Sibling.problems] using hmore

/-! ## Elements that are left -/

section Settled

variable {Walked Settled : Element → Prop}

/-- A branch finds its place: it joins the chain of a settled element, or it is dropped. -/
theorem attach_settled
    (hattach : ∀ e b, Settled e → e.head.ifTest.isSome → Walked b → b.head.isBranch →
      Settled (e.addBranch b))
    {branch : Element} (hwalked : Walked branch) (hbranch : branch.head.isBranch)
    {before : List Node} (hbefore : ∀ x, .element x ∈ before → Settled x) :
    ∀ x, .element x ∈ (attach branch before).1 → Settled x := by
  fun_induction attach branch before with
  | case1 content span before nodes problems hrest hblank ih =>
    have hnodes : (attach branch before).1 = nodes := by rw [hrest]
    rw [← hnodes]
    exact ih fun x hx => hbefore x (List.mem_cons_of_mem _ hx)
  | case2 content span before nodes problems hrest hblank ih =>
    have hnodes : (attach branch before).1 = nodes := by rw [hrest]
    rw [← hnodes]
    exact ih fun x hx => hbefore x (List.mem_cons_of_mem _ hx)
  | case3 content span before ih =>
    exact ih fun x hx => hbefore x (List.mem_cons_of_mem _ hx)
  | case4 e before hif =>
    intro x hx
    rcases List.mem_cons.1 hx with hx | hx
    · cases hx
      exact hattach e branch (hbefore e List.mem_cons_self) hif hwalked hbranch
    · exact hbefore x (List.mem_cons_of_mem _ hx)
  | case5 e before hif => exact hbefore
  | case6 => exact hbefore

theorem chainOnto_settled
    (hsettle : ∀ e, Walked e → e.head.isBranch = false → Settled e)
    (hattach : ∀ e b, Settled e → e.head.ifTest.isSome → Walked b → b.head.isBranch →
      Settled (e.addBranch b))
    {done nodes : List Node} (hdone : ∀ x, .element x ∈ done → Settled x)
    (hnodes : ∀ x, .element x ∈ nodes → Walked x) :
    ∀ x, .element x ∈ (chainOnto done nodes).1 → Settled x := by
  induction nodes generalizing done with
  | nil => simpa [chainOnto] using hdone
  | cons node rest ih =>
    have hrest : ∀ x, .element x ∈ rest → Walked x :=
      fun x hx => hnodes x (List.mem_cons_of_mem _ hx)
    cases node with
    | element e =>
      have he := hnodes e List.mem_cons_self
      simp only [chainOnto]
      split
      · rename_i hbranch
        exact ih (attach_settled hattach he hbranch hdone) hrest
      · rename_i hbranch
        apply ih _ hrest
        intro x hx
        rcases List.mem_cons.1 hx with hx | hx
        · cases hx
          exact hsettle e he (by simpa using hbranch)
        · exact hdone x hx
    | text content span => exact ih (by simpa using hdone) hrest
    | comment content span => exact ih (by simpa using hdone) hrest

end Settled

/-! ## Chaining again -/

theorem chainOnto_of_no_branch {rest : List Node}
    (h : ∀ e, .element e ∈ rest → e.head.isBranch = false) (done : List Node) :
    chainOnto done rest = (done.reverse ++ rest, []) := by
  induction rest generalizing done with
  | nil => simp [chainOnto]
  | cons node rest ih =>
    have ih := ih fun e he => h e (List.mem_cons_of_mem _ he)
    have hnode : chainOnto done (node :: rest) = chainOnto (node :: done) rest := by
      cases node with
      | element e => simp [chainOnto, h e List.mem_cons_self]
      | text content span => rfl
      | comment content span => rfl
    rw [hnode, ih]
    simp

theorem chainOnto_no_branch (rest : List Node) :
    ∀ e, .element e ∈ (chainOnto [] rest).1 → e.head.isBranch = false :=
  chainOnto_settled (fun _ (_ : True) hother => hother) (fun _ _ he _ _ _ => he) (by simp)
    (by simp)

/-- Every node stays, goes to a chain or is dropped by its place among its siblings, and it is
reported at most once. Chained siblings are not changed when they are chained again. -/
theorem chain_siblings {nodes : List Node} (h : ∀ e, .element e ∈ nodes → e.branches = []) :
    (chain nodes).1 = (siblings nodes).filterMap Sibling.kept? ∧
      (chain nodes).2.Perm ((siblings nodes).flatMap Sibling.problems) ∧
      chain (chain nodes).1 = ((chain nodes).1, []) := by
  refine ⟨?_, ?_, ?_⟩
  · have hnodes := nodes_chainOnto leafless .start h []
    simpa [chain, siblings, joinFirst] using hnodes
  · have hproblems : (chainOnto ([] ++ []) nodes).2.Perm _ :=
      problems_chainOnto leafless .start [] rfl
    simpa [chain, siblings] using hproblems
  · exact chainOnto_of_no_branch (chainOnto_no_branch nodes) []

def sampleOwner : Element := ⟨{ tag := "a", ifTest := some "x" }, [], []⟩

def sampleBranch : Element := ⟨{ tag := "b", span := ⟨9, 12⟩, elseIfTest := some "y" }, [], []⟩

def sampleElse : Element := ⟨{ tag := "c", span := ⟨12, 15⟩, hasElse := true }, [], []⟩

def sampleSiblings : List Node :=
  [.ofText "lost", .element sampleElse, .element sampleOwner, .ofText "oops", .comment "" ⟨0, 0⟩,
    .element sampleBranch, .ofText " ", .element sampleElse, .ofText "kept"]

theorem sampleSiblings_chained :
    (∀ e, .element e ∈ sampleSiblings → e.branches = []) ∧
      (chain sampleSiblings).1 =
        [.element { sampleOwner with branches :=
            [⟨some "x", .owner⟩, ⟨some "y", .element sampleBranch⟩, ⟨none, .element sampleElse⟩] },
          .ofText "kept"] ∧
      (chain sampleSiblings).2.Perm
        [⟨.textBetweenBranches "lost", ⟨12, 15⟩⟩, ⟨.orphanElse none "c", ⟨12, 15⟩⟩,
          ⟨.textBetweenBranches "oops", ⟨9, 12⟩⟩] ∧
      chain (chain sampleSiblings).1 = ((chain sampleSiblings).1, []) := by
  have halone : ∀ e, .element e ∈ sampleSiblings → e.branches = [] := by
    simp [sampleSiblings, sampleOwner, sampleBranch, sampleElse, Node.ofText]
  obtain ⟨hnodes, hproblems, hagain⟩ := chain_siblings halone
  have hkept : (siblings sampleSiblings).filterMap Sibling.kept? =
      [.element { sampleOwner with branches :=
          [⟨some "x", .owner⟩, ⟨some "y", .element sampleBranch⟩, ⟨none, .element sampleElse⟩] },
        .ofText "kept"] := rfl
  have hreported : (siblings sampleSiblings).flatMap Sibling.problems =
      [⟨.textBetweenBranches "lost", ⟨12, 15⟩⟩, ⟨.orphanElse none "c", ⟨12, 15⟩⟩,
        ⟨.textBetweenBranches "oops", ⟨9, 12⟩⟩] := by decide +kernel
  exact ⟨halone, hnodes.trans hkept, hreported ▸ hproblems, hagain⟩

end VueToSan.Markup
