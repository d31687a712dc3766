import VueToSan.Proofs.StructuralSites
import VueToSan.Transform.Builtin

/-!
# Rules as steps on attributes

Every rule changes the attributes of an element by a few steps: it puts an attribute in the place of
another one, sets one, or drops one. Which steps a rule takes is said here once for each rule; what
holds of the attributes afterwards follows from the steps.
-/

namespace VueToSan.Transform

open VueToSan.Markup

inductive Step where
  /-- A new attribute takes the place of an old one. -/
  | put (old new value : String)
  | set (name value : String)
  | drop (name : String)

namespace Step

def apply (h : Head) : Step → Head
  | put old new value => h.replaceAttr old new value
  | set name value => h.setAttr name value
  | drop name => h.removeAttr name

def written? : Step → Option (String × String)
  | put _ new value => some (new, value)
  | set name value => some (name, value)
  | drop _ => none

def taken? : Step → Option String
  | put old _ _ => some old
  | set _ _ => none
  | drop name => some name

def Spares (name : String) (s : Step) : Prop := ∀ entry ∈ s.written?, entry.1 ≠ name

structure Apart (name : String) (s : Step) : Prop where
  spares : s.Spares name
  keeps : s.taken? ≠ some name

end Step

/-- Steps that write names of one kind only and take names of another kind only. -/
def Within (Writes Takes : String → Prop) (steps : List Step) : Prop :=
  ∀ s ∈ steps, (∀ entry ∈ s.written?, Writes entry.1) ∧ ∀ name ∈ s.taken?, Takes name

namespace Within

variable {Writes Takes Writes' Takes' : String → Prop} {steps steps' : List Step}
  {old new name value : String}

theorem nil : Within Writes Takes [] := by
  intro s hs
  cases hs

theorem cons {s : Step} (hs : Within Writes Takes [s]) (hsteps : Within Writes Takes steps) :
    Within Writes Takes (s :: steps) :=
  List.forall_mem_cons.2 ⟨hs s List.mem_cons_self, hsteps⟩

theorem append (h : Within Writes Takes steps) (h' : Within Writes Takes steps') :
    Within Writes Takes (steps ++ steps') :=
  List.forall_mem_append.2 ⟨h, h'⟩

theorem put (hnew : Writes new) (hold : Takes old) : Within Writes Takes [.put old new value] := by
  simpa [Within, Step.written?, Step.taken?] using ⟨hnew, hold⟩

theorem set (hname : Writes name) : Within Writes Takes [.set name value] := by
  simpa [Within, Step.written?, Step.taken?] using hname

theorem drop (hname : Takes name) : Within Writes Takes [.drop name] := by
  simpa [Within, Step.written?, Step.taken?] using hname

theorem drops {names : List String} (hnames : ∀ name ∈ names, Takes name) :
    Within Writes Takes (names.map .drop) := by
  intro s hs
  obtain ⟨name, hname, rfl⟩ := List.mem_map.1 hs
  simpa [Step.written?, Step.taken?] using hnames name hname

theorem mono (h : Within Writes Takes steps) (hwrites : ∀ name, Writes name → Writes' name)
    (htakes : ∀ name, Takes name → Takes' name) : Within Writes' Takes' steps :=
  fun s hs => ⟨fun entry hentry => hwrites _ ((h s hs).1 entry hentry),
    fun name hname => htakes _ ((h s hs).2 name hname)⟩

theorem spares (h : Within Writes Takes steps) (hwrites : ¬ Writes name) :
    ∀ s ∈ steps, s.Spares name := by
  intro s hs entry hentry heq
  exact hwrites (heq ▸ (h s hs).1 entry hentry)

theorem apart (h : Within Writes Takes steps) (hwrites : ¬ Writes name) (htakes : ¬ Takes name) :
    ∀ s ∈ steps, s.Apart name :=
  fun s hs => ⟨h.spares hwrites s hs, fun htaken => htakes ((h s hs).2 name htaken)⟩

end Within

end VueToSan.Transform

namespace VueToSan.Markup

open VueToSan.Transform

def Head.run (h : Head) (steps : List Step) : Head := steps.foldl Step.apply h

variable {h : Head} {s : Step} {steps : List Step} {name value : String}

@[simp] theorem Head.run_nil (h : Head) : h.run [] = h := rfl

@[simp] theorem Head.run_cons (h : Head) (s : Step) (steps : List Step) :
    h.run (s :: steps) = (s.apply h).run steps := rfl

theorem Head.run_append (h : Head) (steps steps' : List Step) :
    h.run (steps ++ steps') = (h.run steps).run steps' := List.foldl_append

theorem Head.run_drops (h : Head) (names : List String) :
    h.run (names.map .drop) = names.foldl (·.removeAttr ·) h := List.foldl_map

theorem Head.run_eq (h : Head) (steps : List Step) :
    h.run steps = { h with attrs := (h.run steps).attrs } := by
  induction steps generalizing h with
  | nil => rfl
  | cons s steps ih =>
    have hone : s.apply h = { h with attrs := (s.apply h).attrs } := by cases s <;> rfl
    rw [Head.run_cons, ih (s.apply h), hone]

/-! ## Attributes after steps -/

theorem attr?_apply_of_apart (hs : s.Apart name) : (s.apply h).attr? name = h.attr? name := by
  cases s with
  | put old new value =>
    have hold : name ≠ old := fun heq => hs.keeps (congrArg some heq.symm)
    exact Entries.get?_replace_of_ne hold (Ne.symm (hs.spares _ rfl))
  | set other value => exact Entries.get?_set_of_ne (Ne.symm (hs.spares _ rfl))
  | drop other =>
    have hne : name ≠ other := fun heq => hs.keeps (congrArg some heq.symm)
    rw [Step.apply, Head.removeAttr, Head.attr?, Entries.get?_erase, if_neg hne]
    rfl

theorem attr?_apply_of_taken (hs : s.Spares name) (htaken : s.taken? = some name) :
    (s.apply h).attr? name = none := by
  cases s with
  | put old new value =>
    obtain rfl : old = name := Option.some.inj htaken
    exact Entries.get?_replace_old (Ne.symm (hs _ rfl))
  | set other value => cases htaken
  | drop other =>
    obtain rfl : other = name := Option.some.inj htaken
    rw [Step.apply, Head.removeAttr, Head.attr?, Entries.get?_erase, if_pos rfl]

theorem attr?_apply_of_written (hs : s.written? = some (name, value)) :
    (s.apply h).attr? name = some value := by
  cases s with
  | put old new v =>
    obtain ⟨rfl, rfl⟩ : new = name ∧ v = value := by simpa [Step.written?] using hs
    exact Entries.get?_replace_self
  | set other v =>
    obtain ⟨rfl, rfl⟩ : other = name ∧ v = value := by simpa [Step.written?] using hs
    exact Entries.get?_set_self
  | drop other => cases hs

theorem attr?_run_of_apart (hsteps : ∀ s ∈ steps, s.Apart name) :
    (h.run steps).attr? name = h.attr? name := by
  induction steps generalizing h with
  | nil => rfl
  | cons s steps ih =>
    rw [List.forall_mem_cons] at hsteps
    rw [Head.run_cons, ih hsteps.2, attr?_apply_of_apart hsteps.1]

theorem attr?_of_run (hspares : ∀ s ∈ steps, s.Spares name)
    (hattr : (h.run steps).attr? name = some value) :
    h.attr? name = some value ∧ ∀ s ∈ steps, s.taken? ≠ some name := by
  induction steps generalizing h with
  | nil => exact ⟨hattr, by simp⟩
  | cons s steps ih =>
    rw [List.forall_mem_cons] at hspares
    obtain ⟨hattr, hkept⟩ := ih hspares.2 hattr
    have htaken : s.taken? ≠ some name := by
      intro htaken
      rw [attr?_apply_of_taken hspares.1 htaken] at hattr
      cases hattr
    rw [attr?_apply_of_apart ⟨hspares.1, htaken⟩] at hattr
    exact ⟨hattr, List.forall_mem_cons.2 ⟨htaken, hkept⟩⟩

theorem mem_attrs_apply {entry : String × String} (hentry : entry ∈ (s.apply h).attrs) :
    entry ∈ h.attrs ∧ s.taken? ≠ some entry.1 ∨ s.written? = some entry := by
  cases s with
  | put old new value =>
    rcases Entries.mem_replace hentry with ⟨hmem, hne⟩ | rfl
    · exact .inl ⟨hmem, fun heq => hne (Option.some.inj heq).symm⟩
    · exact .inr rfl
  | set other value =>
    rcases Entries.mem_set hentry with hmem | rfl
    · exact .inl ⟨hmem, by simp [Step.taken?]⟩
    · exact .inr rfl
  | drop other =>
    obtain ⟨hmem, hne⟩ := Entries.mem_erase hentry
    exact .inl ⟨hmem, fun heq => hne (Option.some.inj heq).symm⟩

theorem mem_attrs_run {entry : String × String} (hentry : entry ∈ (h.run steps).attrs) :
    entry ∈ h.attrs ∧ (∀ s ∈ steps, s.taken? ≠ some entry.1) ∨
      ∃ s ∈ steps, s.written? = some entry := by
  induction steps generalizing h with
  | nil => exact .inl ⟨hentry, by simp⟩
  | cons s steps ih =>
    rcases ih hentry with ⟨hentry, hkept⟩ | ⟨t, ht, hwritten⟩
    · rcases mem_attrs_apply hentry with ⟨hmem, htaken⟩ | hwritten
      · exact .inl ⟨hmem, List.forall_mem_cons.2 ⟨htaken, hkept⟩⟩
      · exact .inr ⟨s, List.mem_cons_self, hwritten⟩
    · exact .inr ⟨t, List.mem_cons_of_mem _ ht, hwritten⟩

end VueToSan.Markup

namespace VueToSan.Transform

open VueToSan.Markup VueToSan.Text

def IsCode (source text : String) : Prop :=
  ∃ compiled, Expr.compile source = .ok compiled ∧ compiled.text = text

theorem Edit.withCode_eq_done_iff {α : Type} {source : String} {a b : α} {f : String → Edit α} :
    Edit.withCode source a f = .done b ↔ ∃ code, IsCode source code ∧ f code = .done b := by
  rw [Edit.withCode_eq_done]
  constructor
  · rintro ⟨compiled, hcompile, hdone⟩
    exact ⟨compiled.text, ⟨compiled, hcompile, rfl⟩, hdone⟩
  · rintro ⟨code, ⟨compiled, hcompile, rfl⟩, hdone⟩
    exact ⟨compiled, hcompile, hdone⟩

theorem Edit.each_steps {ι : Type} {edit : ι → Head → Edit Head} {R : ι → Step → Prop}
    {is : List ι} (hedit : ∀ i ∈ is, ∀ a b, edit i a = .done b → ∃ s, R i s ∧ b = s.apply a)
    {h h' : Head} (hdone : Edit.each edit is h = .done h') :
    ∃ steps, List.Forall₂ R is steps ∧ h' = h.run steps := by
  induction is generalizing h with
  | nil =>
    cases hdone
    exact ⟨[], .nil, rfl⟩
  | cons i is ih =>
    rw [List.forall_mem_cons] at hedit
    obtain ⟨x, hx, hdone⟩ := Edit.andThen_eq_done.1 hdone
    obtain ⟨s, hs, rfl⟩ := hedit.1 h x hx
    obtain ⟨steps, hsteps, rfl⟩ := ih hedit.2 hdone
    exact ⟨s :: steps, .cons hs hsteps, rfl⟩

/-! ## Empty attributes -/

def filledValue (tag name value : String) : String :=
  if value.isEmpty && !isPresence tag name && !isValueless name then interpolate "true" else value

theorem fillEmpty_attrs (h : Head) :
    (fillEmpty h).attrs = h.attrs.map fun entry => (entry.1, filledValue h.tag entry.1 entry.2) := by
  apply List.map_congr_left
  rintro ⟨name, value⟩ -
  exact (apply_ite (name, ·) _ _ _).symm

theorem attr?_fillEmpty (h : Head) (name : String) :
    (fillEmpty h).attr? name = (h.attr? name).map (filledValue h.tag name) := by
  rw [Head.attr?, fillEmpty_attrs, Head.attr?]
  induction h.attrs with
  | nil => rfl
  | cons entry m ih =>
    rw [List.map_cons, Entries.get?_cons, Entries.get?_cons, ih]
    split
    · rename_i hname
      rw [Option.map_some, ← hname]
    · rfl

theorem filledValue_of_ne_empty {tag name value : String} (h : value ≠ "") :
    filledValue tag name value = value := by
  rw [filledValue, if_neg]
  simp [h]

/-! ## Control flow -/

variable {h h' : Head} {steps : List Step}

def TestSteps (test : Option String) (old new : String) (steps : List Step) : Prop :=
  test = none ∧ steps = [] ∨
    ∃ source code, test = some source ∧ IsCode source code ∧ steps = [.put old new code]

theorem renameTest_steps {test : Option String} {old new : String}
    (hdone : renameTest test old new h = .done h') :
    ∃ steps, TestSteps test old new steps ∧ h' = h.run steps := by
  unfold renameTest at hdone
  split at hdone
  · cases hdone
    exact ⟨[], .inl ⟨rfl, rfl⟩, rfl⟩
  · obtain ⟨code, hcode, hdone⟩ := Edit.withCode_eq_done_iff.1 hdone
    cases hdone
    exact ⟨_, .inr ⟨_, code, rfl, hcode, rfl⟩, rfl⟩

theorem TestSteps.within {test : Option String} {old new : String}
    (ht : TestSteps test old new steps) : Within (· = new) (· = old) steps := by
  rcases ht with ⟨-, rfl⟩ | ⟨source, code, -, -, rfl⟩
  · exact .nil
  · exact .put rfl rfl

def elseSteps (h : Head) : List Step := if h.hasElse then [.put "v-else" "s-else" ""] else []

theorem elseSteps_within (h : Head) : Within (· = "s-else") (· = "v-else") (elseSteps h) := by
  unfold elseSteps
  split
  · exact .put rfl rfl
  · exact .nil

theorem transformConditional_steps (hdone : transformConditional h = .done h') :
    ∃ first second, TestSteps h.ifTest "v-if" "s-if" first ∧
      TestSteps h.elseIfTest "v-else-if" "s-else-if" second ∧
      h' = h.run (first ++ second ++ elseSteps h) := by
  obtain ⟨h₁, hif, hdone⟩ := Edit.andThen_eq_done.1 hdone
  obtain ⟨h₂, helseIf, hdone⟩ := Edit.andThen_eq_done.1 hdone
  obtain ⟨first, hfirst, rfl⟩ := renameTest_steps hif
  obtain ⟨second, hsecond, rfl⟩ := renameTest_steps helseIf
  rw [Head.run_eq] at hsecond
  refine ⟨first, second, hfirst, hsecond, ?_⟩
  have hsame : ((h.run first).run second).hasElse = h.hasElse := by
    rw [← Head.run_append, Head.run_eq]
  rw [Head.run_append, Head.run_append, elseSteps, ← hsame]
  cases hdone
  split <;> rfl

def LoopSteps (h : Head) (steps : List Step) : Prop :=
  h.loop = none ∧ steps = [] ∨
    ∃ l code, h.loop = some l ∧ IsCode l.source code ∧
      steps = .put "v-for" "s-for" (Site.list.value h code) :: keyAttrs.map .drop

theorem LoopSteps.within (hl : LoopSteps h steps) :
    Within (· = "s-for") (· ∈ "v-for" :: keyAttrs) steps := by
  rcases hl with ⟨-, rfl⟩ | ⟨l, code, -, -, rfl⟩
  · exact .nil
  · exact .cons (.put rfl List.mem_cons_self) (.drops fun _ => List.mem_cons_of_mem _)

theorem setLoop_eq_run (h : Head) (value : String) :
    setLoop h value = h.run (.put "v-for" "s-for" value :: keyAttrs.map .drop) := by
  rw [Head.run_cons, Head.run_drops]
  rfl

theorem transformLoop_steps (hdone : transformLoop h = .done h') :
    ∃ steps, LoopSteps h steps ∧ h' = h.run steps := by
  cases hloop : h.loop with
  | none =>
    rw [transformLoop, hloop] at hdone
    cases hdone
    exact ⟨[], .inl ⟨hloop, rfl⟩, rfl⟩
  | some l =>
    obtain ⟨compiled, hcompile⟩ := exists_compiled_list hloop hdone
    -- The value that is written is the one that the site names.
    obtain ⟨value, rfl⟩ : ∃ value, h' = setLoop h value := by
      rw [transformLoop, hloop] at hdone
      obtain ⟨list, -, hdone⟩ := Edit.withCode_eq_done.1 hdone
      dsimp only at hdone
      split at hdone
      · cases hdone
        exact ⟨_, rfl⟩
      · obtain ⟨key, -, hdone⟩ := Edit.withCompiled_eq_done.1 hdone
        cases hdone
        exact ⟨_, rfl⟩
    have hattr := transformLoop_attr hloop hcompile hdone
    obtain rfl : value = Site.list.value h compiled.text :=
      Option.some.inj ((attr?_setLoop h value).symm.trans hattr)
    exact ⟨_, .inr ⟨l, compiled.text, hloop, ⟨compiled, hcompile, rfl⟩, rfl⟩, setLoop_eq_run h _⟩

/-! ## Bindings -/

def ListenerStep (a : Attr) (s : Step) : Prop :=
  ∃ handler, (allBlank a.value = true ∧ handler = "_noop" ∨
      allBlank a.value = false ∧ IsCode a.value handler) ∧
    s = .put a.name ("on-" ++ (listenerParts a).1)
      (String.join ((listenerParts a).2.map (· ++ ":")) ++ handler)

def listenersOf (h : Head) : List Attr := h.declared.filter fun a => (listenerName? a.name).isSome

theorem listeners_within {listeners : List Attr} (hl : List.Forall₂ ListenerStep listeners steps) :
    Within (fun name => ∃ event, name = "on-" ++ event) (· ∈ listeners.map (·.name)) steps := by
  induction hl with
  | nil => exact .nil
  | cons hs _ ih =>
    obtain ⟨handler, -, rfl⟩ := hs
    exact .cons (.put ⟨_, rfl⟩ List.mem_cons_self)
      (ih.mono (fun _ => id) fun _ => List.mem_cons_of_mem _)

theorem transformListeners_steps (hdone : transformListeners h = .done h') :
    ∃ steps, List.Forall₂ ListenerStep (listenersOf h) steps ∧ h' = h.run steps := by
  apply Edit.each_steps _ hdone
  intro a ha x y hstep
  obtain ⟨cs, hcs⟩ := Option.isSome_iff_exists.1 (List.mem_filter.1 ha).2
  have hparts : listenerParts a = splitModifiers cs := by
    rw [listenerParts, hcs, Option.getD_some]
  rw [transformListener, hcs] at hstep
  dsimp only at hstep
  split at hstep
  · rename_i hblank
    cases hstep
    exact ⟨_, ⟨"_noop", .inl ⟨hblank, rfl⟩, rfl⟩, by rw [hparts]; rfl⟩
  · rename_i hblank
    obtain ⟨code, hcode, hstep⟩ := Edit.withCode_eq_done_iff.1 hstep
    cases hstep
    exact ⟨_, ⟨code, .inr ⟨by simpa using hblank, hcode⟩, rfl⟩, by rw [hparts]; rfl⟩

def ModelSteps (h : Head) (steps : List Step) : Prop :=
  h.directive? "model" = none ∧ steps = [] ∨
    ∃ d code, h.directive? "model" = some d ∧ IsCode d.value code ∧
      steps = [.put d.rawName (modelAttr h) (bindBack code)]

theorem ModelSteps.within (hm : ModelSteps h steps) :
    Within (· ∈ ["checked", "value"]) (fun name => ∃ d, h.directive? "model" = some d ∧ name = d.rawName)
      steps := by
  have hattr : modelAttr h ∈ ["checked", "value"] := by
    unfold modelAttr
    split <;> decide
  rcases hm with ⟨-, rfl⟩ | ⟨d, code, hd, -, rfl⟩
  · exact .nil
  · exact .put hattr ⟨d, hd, rfl⟩

theorem transformModel_steps (hdone : transformModel h = .done h') :
    ∃ steps, ModelSteps h steps ∧ h' = h.run steps := by
  unfold transformModel at hdone
  split at hdone
  · rename_i hnone
    cases hdone
    exact ⟨[], .inl ⟨hnone, rfl⟩, rfl⟩
  · rename_i d hd
    obtain ⟨compiled, hcompile, hdone⟩ := Edit.withCompiled_eq_done.1 hdone
    split at hdone
    · cases hdone
      exact ⟨_, .inr ⟨d, compiled.text, hd, ⟨compiled, hcompile, rfl⟩, rfl⟩, rfl⟩
    · cases hdone

def boundTarget (key : String) : String :=
  if (bindingParts key).2.contains "camel" then camelize (bindingParts key).1
  else (bindingParts key).1

/-- A bound attribute of the head is compiled and renamed, or dropped when it has no name. -/
def BindingStep (h : Head) (key : String) (s : Step) : Prop :=
  s = .drop key ∨
    ∃ code, IsCode ((h.attr? key).getD "") code ∧
      (s = .put key (boundTarget key) (interpolate code) ∨
        s = .put key (boundTarget key) (bindBack code))

theorem transformBinding_step {key : String} {context context' : Context}
    (hdone : transformBinding key (h, context) = .done (h', context')) :
    (∃ s, BindingStep h key s ∧ h' = s.apply h) ∧ context'.refs = context.refs ∧
      context.errors <+: context'.errors := by
  unfold transformBinding at hdone
  dsimp only at hdone
  split at hdone
  · cases hdone
    exact ⟨⟨.drop key, .inl rfl, rfl⟩, rfl, List.prefix_append _ _⟩
  · obtain ⟨compiled, hcompile, hdone⟩ := Edit.withCompiled_eq_done.1 hdone
    have hcode : IsCode ((h.attr? key).getD "") compiled.text := ⟨compiled, hcompile, rfl⟩
    split at hdone
    · split at hdone
      · cases hdone
        exact ⟨⟨_, .inr ⟨_, hcode, .inr rfl⟩, rfl⟩, rfl, List.prefix_rfl⟩
      · cases hdone
    · cases hdone
      exact ⟨⟨_, .inr ⟨_, hcode, .inl rfl⟩, rfl⟩, rfl, List.prefix_rfl⟩

/-- One step for each key, each on the head that the steps before it left. -/
inductive BindingSteps : Head → List String → List Step → Prop
  | nil {h : Head} : BindingSteps h [] []
  | cons {h : Head} {key : String} {keys : List String} {s : Step} {steps : List Step}
      (hs : BindingStep h key s) (hsteps : BindingSteps (s.apply h) keys steps) :
      BindingSteps h (key :: keys) (s :: steps)

theorem BindingSteps.within {keys : List String} (hb : BindingSteps h keys steps) :
    Within (fun name => ∃ key ∈ keys, name = boundTarget key) (· ∈ keys) steps := by
  induction hb with
  | nil => exact .nil
  | @cons h key keys s steps hs _ ih =>
    refine .cons ?_ (ih.mono ?_ fun _ => List.mem_cons_of_mem _)
    · rcases hs with rfl | ⟨code, -, rfl | rfl⟩
      · exact .drop List.mem_cons_self
      · exact .put ⟨key, List.mem_cons_self, rfl⟩ List.mem_cons_self
      · exact .put ⟨key, List.mem_cons_self, rfl⟩ List.mem_cons_self
    · rintro name ⟨k, hk, rfl⟩
      exact ⟨k, List.mem_cons_of_mem _ hk, rfl⟩

theorem eachBinding_steps {keys : List String} {context context' : Context}
    (hdone : Edit.each transformBinding keys (h, context) = .done (h', context')) :
    (∃ steps, BindingSteps h keys steps ∧ h' = h.run steps) ∧ context'.refs = context.refs ∧
      context.errors <+: context'.errors := by
  induction keys generalizing h context with
  | nil =>
    cases hdone
    exact ⟨⟨[], .nil, rfl⟩, rfl, List.prefix_rfl⟩
  | cons key keys ih =>
    obtain ⟨⟨x, inner⟩, hx, hdone⟩ := Edit.andThen_eq_done.1 hdone
    obtain ⟨⟨s, hs, rfl⟩, hrefs, herrors⟩ := transformBinding_step hx
    obtain ⟨⟨steps, hsteps, rfl⟩, hrefs', herrors'⟩ := ih hdone
    exact ⟨⟨s :: steps, .cons hs hsteps, rfl⟩, hrefs'.trans hrefs, herrors.trans herrors'⟩

def SpreadSteps (h : Head) (steps : List Step) : Prop :=
  h.attr? "v-bind" = none ∧ steps = [] ∨
    ∃ source code, h.attr? "v-bind" = some source ∧ IsCode source code ∧
      steps = [.put "v-bind" "s-bind" (interpolate code)]

theorem SpreadSteps.within (hs : SpreadSteps h steps) : Within (· = "s-bind") (· = "v-bind") steps := by
  rcases hs with ⟨-, rfl⟩ | ⟨source, code, -, -, rfl⟩
  · exact .nil
  · exact .put rfl rfl

def boundKeys (h : Head) : List String := h.attrs.keys.filter fun key => (boundName? key).isSome

theorem transformBindings_steps {context context' : Context}
    (hdone : transformBindings (h, context) = .done (h', context')) :
    (∃ spread steps, SpreadSteps h spread ∧
      BindingSteps (h.run spread) (boundKeys (h.run spread)) steps ∧
      h' = h.run (spread ++ steps)) ∧ context'.refs = context.refs ∧
      context.errors <+: context'.errors := by
  obtain ⟨site, hsite, hdone⟩ := Edit.andThen_eq_done.1 hdone
  obtain ⟨head, hhead, rfl⟩ := Edit.map_eq_done.1 hsite
  obtain ⟨spread, hspread, rfl⟩ : ∃ spread, SpreadSteps h spread ∧ head = h.run spread := by
    unfold transformSpread at hhead
    split at hhead
    · rename_i hnone
      cases hhead
      exact ⟨[], .inl ⟨hnone, rfl⟩, rfl⟩
    · rename_i source hsource
      obtain ⟨code, hcode, hhead⟩ := Edit.withCode_eq_done_iff.1 hhead
      cases hhead
      exact ⟨_, .inr ⟨source, code, hsource, hcode, rfl⟩, rfl⟩
  obtain ⟨⟨steps, hsteps, rfl⟩, hcontext⟩ := eachBinding_steps hdone
  exact ⟨⟨spread, steps, hspread, hsteps, (Head.run_append ..).symm⟩, hcontext⟩

/-! ## Named elements -/

def fixedRef? (h : Head) : Option String := (h.attr? "ref").filter (!·.isEmpty)

def fixedRefSteps (h : Head) : List Step :=
  (fixedRef? h).toList.map fun name => .put "ref" "s-ref" name

theorem fixedRefSteps_within (h : Head) : Within (· = "s-ref") (· = "ref") (fixedRefSteps h) := by
  unfold fixedRefSteps
  cases fixedRef? h with
  | none => exact .nil
  | some name => exact .put rfl rfl

def fixedRefs (h : Head) : List Ref := (fixedRef? h).toList.map fun name => ⟨name, h.isRoot⟩

def BoundRefSteps (h : Head) (key : String) (steps : List Step) : Prop :=
  h.attr? key = none ∧ steps = [] ∨
    ∃ source code, h.attr? key = some source ∧ IsCode source code ∧
      steps = [.put key "s-ref" (interpolate code)]

theorem BoundRefSteps.within {key : String} (hb : BoundRefSteps h key steps) :
    Within (· = "s-ref") (· = key) steps := by
  rcases hb with ⟨-, rfl⟩ | ⟨source, code, -, -, rfl⟩
  · exact .nil
  · exact .put rfl rfl

theorem transformBoundRef_steps {key : String} (hdone : transformBoundRef key h = .done h') :
    ∃ steps, BoundRefSteps h key steps ∧ h' = h.run steps := by
  unfold transformBoundRef at hdone
  split at hdone
  · rename_i hnone
    cases hdone
    exact ⟨[], .inl ⟨hnone, rfl⟩, rfl⟩
  · rename_i source hsource
    obtain ⟨code, hcode, hdone⟩ := Edit.withCode_eq_done_iff.1 hdone
    cases hdone
    exact ⟨_, .inr ⟨source, code, hsource, hcode, rfl⟩, rfl⟩

theorem transformRef_steps {context context' : Context}
    (hdone : transformRef (h, context) = .done (h', context')) :
    (∃ first second, BoundRefSteps h ":ref" first ∧ BoundRefSteps h "v-bind:ref" second ∧
      h' = h.run (fixedRefSteps h ++ first ++ second)) ∧
    context'.refs = context.refs ++ fixedRefs h ∧ context'.errors = context.errors := by
  have hfixed : transformFixedRef h context =
      (h.run (fixedRefSteps h), { context with refs := context.refs ++ fixedRefs h }) := by
    have hname : fixedRef? h = (h.attr? "ref").filter (!·.isEmpty) := rfl
    rw [transformFixedRef, ← hname, fixedRefSteps, fixedRefs]
    cases fixedRef? h with
    | none => simp
    | some name => rfl
  simp only [transformRef, hfixed] at hdone
  obtain ⟨x, hx, heq⟩ := Edit.map_eq_done.1 hdone
  cases heq
  obtain ⟨y, hy, hx⟩ := Edit.andThen_eq_done.1 hx
  obtain ⟨z, hz, hx⟩ := Edit.andThen_eq_done.1 hx
  cases hx
  obtain ⟨first, hfirst, rfl⟩ := transformBoundRef_steps hy
  obtain ⟨second, hsecond, rfl⟩ := transformBoundRef_steps hz
  -- The steps before a computed `ref` leave it alone.
  have hkept : (h.run (fixedRefSteps h)).attr? ":ref" = h.attr? ":ref" :=
    attr?_run_of_apart ((fixedRefSteps_within h).apart (by decide) (by decide))
  have hkept' : ((h.run (fixedRefSteps h)).run first).attr? "v-bind:ref" =
      h.attr? "v-bind:ref" := by
    rw [attr?_run_of_apart (hfirst.within.apart (by decide) (by decide)),
      attr?_run_of_apart ((fixedRefSteps_within h).apart (by decide) (by decide))]
  rw [BoundRefSteps, hkept] at hfirst
  rw [BoundRefSteps, hkept'] at hsecond
  refine ⟨⟨first, second, hfirst, hsecond, ?_⟩, rfl, rfl⟩
  rw [Head.run_append, Head.run_append]

/-! ## Classes and styles -/

def MergeSteps (name : String) (parts : List String) (value : String) (steps : List Step) : Prop :=
  ∃ first, (first = .set name value ∨ ∃ anchor ∈ parts, first = .put anchor name value) ∧
    steps = first :: parts.map .drop

theorem MergeSteps.within {name value : String} {parts : List String}
    (hm : MergeSteps name parts value steps) : Within (· = name) (· ∈ parts) steps := by
  obtain ⟨first, hfirst, rfl⟩ := hm
  refine .cons ?_ (.drops fun _ => id)
  rcases hfirst with rfl | ⟨anchor, hanchor, rfl⟩
  · exact .set rfl
  · exact .put rfl hanchor

theorem mergeAttr_steps (h : Head) (name : String) (parts : List String) (value : String) :
    ∃ steps, MergeSteps name parts value steps ∧ mergeAttr h name parts value = h.run steps := by
  have hrun : ∀ s : Step, parts.foldl (·.removeAttr ·) (s.apply h) =
      h.run (s :: parts.map .drop) := by
    intro s
    rw [Head.run_cons, Head.run_drops]
  unfold mergeAttr
  dsimp only
  split
  · exact ⟨_, ⟨.set name value, .inl rfl, rfl⟩, hrun (.set name value)⟩
  · split
    · rename_i anchor hanchor
      have hmem := List.mem_of_find?_eq_some hanchor
      exact ⟨_, ⟨.put anchor name value, .inr ⟨anchor, hmem, rfl⟩, rfl⟩,
        hrun (.put anchor name value)⟩
    · exact ⟨_, ⟨.set name value, .inl rfl, rfl⟩, hrun (.set name value)⟩

def mergedClass (h : Head) (code : String) : String :=
  interpolate ("_mc(" ++ Expr.quote ((h.attr? "class").getD "") ++ ", " ++ code ++ ")")

def ClassSteps (h : Head) (steps : List Step) : Prop :=
  h.classBinding = none ∧ steps = [] ∨
    ∃ source code, h.classBinding = some source ∧ IsCode source code ∧
      MergeSteps "class" classParts (mergedClass h code) steps

theorem ClassSteps.within (hc : ClassSteps h steps) : Within (· = "class") (· ∈ classParts) steps := by
  rcases hc with ⟨-, rfl⟩ | ⟨source, code, -, -, hm⟩
  · exact .nil
  · exact hm.within

theorem transformClass_steps (hdone : transformClass h = .done h') :
    ∃ steps, ClassSteps h steps ∧ h' = h.run steps := by
  unfold transformClass at hdone
  split at hdone
  · rename_i hnone
    cases hdone
    exact ⟨[], .inl ⟨hnone, rfl⟩, rfl⟩
  · rename_i source hsource
    obtain ⟨code, hcode, hdone⟩ := Edit.withCode_eq_done_iff.1 hdone
    cases hdone
    obtain ⟨steps, hsteps, heq⟩ := mergeAttr_steps h "class" classParts (mergedClass h code)
    exact ⟨steps, .inr ⟨source, code, hsource, hcode, hsteps⟩, heq⟩

def mergedStyle (h : Head) (parts : List String) : String :=
  interpolate ("_ms(" ++ joinWith ", " (h.staticStyle.getD "''" :: parts) ++ ")")

def shownTest? (h : Head) : Option String := (h.attr? "v-show").filter (!allBlank ·)

/-- The style is left alone, or it joins codes of the bound style and of the condition for showing;
an empty object stands for a bound style that is not there. -/
def StyleSteps (h : Head) (steps : List Step) : Prop :=
  h.styleBinding = none ∧ shownTest? h = none ∧ steps = [] ∨
    ∃ parts, (∀ part ∈ parts, part = "\x7b\x7d" ∨
        ∃ source, (h.styleBinding = some source ∨ shownTest? h = some source) ∧
          IsCode source part) ∧
      MergeSteps "style" styleParts (mergedStyle h parts) steps

theorem StyleSteps.within (hs : StyleSteps h steps) : Within (· = "style") (· ∈ styleParts) steps := by
  rcases hs with ⟨-, -, rfl⟩ | ⟨parts, -, hm⟩
  · exact .nil
  · exact hm.within

theorem transformStyle_steps (hdone : transformStyle h = .done h') :
    ∃ steps, StyleSteps h steps ∧ h' = h.run steps := by
  have hmerge : ∀ parts, (∀ part ∈ parts, part = "\x7b\x7d" ∨
      ∃ source, (h.styleBinding = some source ∨ shownTest? h = some source) ∧
        IsCode source part) →
      ∃ steps, StyleSteps h steps ∧ mergeStyle h parts = h.run steps := by
    intro parts hparts
    obtain ⟨steps, hsteps, heq⟩ := mergeAttr_steps h "style" styleParts (mergedStyle h parts)
    exact ⟨steps, .inr ⟨parts, hparts, hsteps⟩, heq⟩
  have hshown : shownTest? h = (h.attr? "v-show").filter (!allBlank ·) := rfl
  rw [transformStyle, ← hshown] at hdone
  split at hdone
  · rename_i hbinding htest
    cases hdone
    exact ⟨[], .inl ⟨hbinding, htest, rfl⟩, rfl⟩
  · rename_i source hbinding htest
    obtain ⟨code, hcode, hdone⟩ := Edit.withCode_eq_done_iff.1 hdone
    cases hdone
    apply hmerge
    simpa using .inr ⟨source, .inl hbinding, hcode⟩
  · rename_i source hbinding htest
    obtain ⟨code, hcode, hdone⟩ := Edit.withCode_eq_done_iff.1 hdone
    cases hdone
    apply hmerge
    simpa using .inr ⟨source, .inr htest, hcode⟩
  · rename_i source shown hbinding htest
    obtain ⟨code, hcode, hdone⟩ := Edit.withCode_eq_done_iff.1 hdone
    obtain ⟨code', hcode', hdone⟩ := Edit.withCode_eq_done_iff.1 hdone
    cases hdone
    apply hmerge
    simp only [List.forall_mem_cons, List.not_mem_nil, false_implies, implies_true, and_true]
    exact ⟨.inr ⟨source, .inl hbinding, hcode⟩, .inr ⟨shown, .inr htest, hcode'⟩⟩

/-! ## Content -/

def plainHtml (h : Head) : Head :=
  renameHtml "safe-html" (fun value => "_sf(" ++ value ++ ")") (renameHtml "dangerous-html" id h)

theorem attr?_renameHtml (form : String) (wrap : String → String) (h : Head) {name : String}
    (hhtml : name ≠ "v-html") (hform : name ≠ "v-" ++ form) :
    (renameHtml form wrap h).attr? name = h.attr? name := by
  unfold renameHtml
  split
  · rfl
  · exact Entries.get?_replace_of_ne hform hhtml

theorem attr?_renameHtml_form {form key : String} (wrap : String → String) (h : Head)
    (hkey : key = "v-" ++ form) (hhtml : key ≠ "v-html") :
    (renameHtml form wrap h).attr? key = none := by
  subst hkey
  unfold renameHtml
  split
  · assumption
  · exact Entries.get?_replace_old hhtml

theorem plainHtml_eq (h : Head) :
    plainHtml h =
      { h with attrs := (plainHtml h).attrs, directives := (plainHtml h).directives } := by
  have hform : ∀ form wrap (h : Head), ∃ attrs directives,
      renameHtml form wrap h = { h with attrs, directives } := by
    intro form wrap h
    unfold renameHtml
    split
    · exact ⟨_, _, rfl⟩
    · exact ⟨_, _, rfl⟩
  obtain ⟨attrs, directives, hdangerous⟩ := hform "dangerous-html" id h
  obtain ⟨attrs', directives', hsafe⟩ :=
    hform "safe-html" (fun value => "_sf(" ++ value ++ ")") (renameHtml "dangerous-html" id h)
  rw [plainHtml, hsafe, hdangerous]

theorem transformContent_cases {e e' : Element} (hdone : transformContent e = .done e') :
    ∃ mid : Element,
      (contentSource? (plainHtml e.head) "html" = none ∧ mid = { e with head := plainHtml e.head } ∨
        ∃ source code, contentSource? (plainHtml e.head) "html" = some source ∧
          IsCode source code ∧
          mid = ⟨(Step.put "v-html" "s-html" (interpolate code)).apply (plainHtml e.head), [],
            e.branches⟩) ∧
      (contentSource? mid.head "text" = none ∧ e' = mid ∨
        ∃ source code, contentSource? mid.head "text" = some source ∧ IsCode source code ∧
          e' = ⟨(Step.drop "v-text").apply mid.head, [.ofText (interpolate code)],
            e.branches⟩) := by
  obtain ⟨mid, hmid, hdone⟩ := Edit.andThen_eq_done.1 hdone
  have hbranches : mid.branches = e.branches := (transformHtml_parts hmid).1
  refine ⟨mid, ?_, ?_⟩
  · unfold transformHtml at hmid
    split at hmid
    · rename_i hnone
      cases hmid
      exact .inl ⟨hnone, rfl⟩
    · rename_i source hsource
      obtain ⟨code, hcode, hmid⟩ := Edit.withCode_eq_done_iff.1 hmid
      cases hmid
      exact .inr ⟨source, code, hsource, hcode, rfl⟩
  · unfold transformText at hdone
    split at hdone
    · rename_i hnone
      cases hdone
      exact .inl ⟨hnone, rfl⟩
    · rename_i source hsource
      obtain ⟨code, hcode, hdone⟩ := Edit.withCode_eq_done_iff.1 hdone
      cases hdone
      exact .inr ⟨source, code, hsource, hcode, by rw [← hbranches]; rfl⟩

theorem transformContent_head {e x : Element} (hdone : transformContent e = .done x) :
    x.head = { e.head with attrs := x.head.attrs, directives := x.head.directives } := by
  obtain ⟨mid, hmid, hx⟩ := transformContent_cases hdone
  have hplain := plainHtml_eq e.head
  rcases hmid with ⟨-, rfl⟩ | ⟨_, _, -, -, rfl⟩ <;>
    rcases hx with ⟨-, rfl⟩ | ⟨_, _, -, -, rfl⟩ <;>
    rw [hplain] <;> rfl

/-! ## Components -/

theorem transformComponent_cases {e e' : Element} (hdone : transformComponent e = .done e') :
    e' = e ∨ (∃ tag, e' = retag (e.mapHead (·.removeAttr "is")) tag) ∨
      ∃ test consequent alternate, e.head.isConditional = false ∧
        e' = splitByTest (e.mapHead (·.removeAttr "is")) test consequent alternate := by
  unfold transformComponent at hdone
  split at hdone
  · split at hdone
    · cases hdone
      exact .inl rfl
    · dsimp only at hdone
      split at hdone
      · cases hdone
        exact .inr (.inl ⟨_, rfl⟩)
      · unfold resolveTag at hdone
        split at hdone
        · cases hdone
        · split at hdone
          · cases hdone
          · rename_i hconditional
            split at hdone
            · cases hdone
              exact .inr (.inl ⟨_, rfl⟩)
            · split at hdone
              · cases hdone
                exact .inr (.inr ⟨_, _, _, Bool.eq_false_iff.2 hconditional, rfl⟩)
              · cases hdone
            · cases hdone
  · cases hdone
    exact .inl rfl

end VueToSan.Transform
