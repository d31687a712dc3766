import Mathlib.Data.List.Chain
import VueToSan.Proofs.Generation
import VueToSan.Proofs.NormalForm

/-!
# Runs of properties

An object with a computed key is written as a call of `_ex`. Its arguments are the runs of
properties of one kind, as long as possible and in the order of the source, so that the properties
can be read off the arguments again.
-/

namespace VueToSan.Expr

open VueToSan.Text

/-! ## Runs -/

/-- Runs that a list of properties is cut into. No run is empty, each holds properties of its kind
only, and neighbours are of different kinds. -/
structure AreRuns (runs : List (Bool × List Property)) (ps : List Property) : Prop where
  order : runs.flatMap (·.2) = ps
  kind : ∀ run ∈ runs, run.2 ≠ [] ∧ ∀ p ∈ run.2, p.isComputed = run.1
  alternate : runs.IsChain fun run next => run.1 ≠ next.1

theorem propertyRuns_cons {p p' : Property} {ps run : List Property} {computed : Bool}
    {runs : List (Bool × List Property)} (h : propertyRuns (p' :: ps) = (computed, run) :: runs) :
    propertyRuns (p :: p' :: ps) =
      if p.isComputed = computed then (computed, p :: run) :: runs
      else (p.isComputed, [p]) :: (computed, run) :: runs := by
  rw [propertyRuns, h]

theorem areRuns_propertyRuns (ps : List Property) : AreRuns (propertyRuns ps) ps := by
  induction ps with
  | nil => exact ⟨rfl, List.forall_mem_nil _, .nil⟩
  | cons p ps ih =>
    obtain ⟨horder, hkind, halternate⟩ := ih
    rw [propertyRuns]
    split
    · rename_i computed run runs hruns
      rw [hruns] at horder hkind halternate
      obtain ⟨⟨hne, hrun⟩, hrest⟩ := List.forall_mem_cons.1 hkind
      split_ifs with hp
      · refine ⟨congrArg (p :: ·) horder, List.forall_mem_cons.2 ⟨⟨by simp, ?_⟩, hrest⟩, ?_⟩
        · exact List.forall_mem_cons.2 ⟨hp, hrun⟩
        · exact List.isChain_cons.2 (List.isChain_cons.1 halternate)
      · refine ⟨congrArg (p :: ·) horder, List.forall_mem_cons.2 ⟨⟨by simp, by simp⟩, hkind⟩, ?_⟩
        exact List.isChain_cons_cons.2 ⟨hp, halternate⟩
    · rename_i hruns
      rw [hruns] at horder
      exact ⟨congrArg (p :: ·) horder, by simp, List.isChain_singleton _⟩

theorem AreRuns.unique {runs : List (Bool × List Property)} {ps : List Property}
    (h : AreRuns runs ps) : runs = propertyRuns ps := by
  induction ps generalizing runs with
  | nil =>
    cases runs with
    | nil => rfl
    | cons run runs =>
      have hempty := List.flatMap_eq_nil_iff.1 h.order run List.mem_cons_self
      exact absurd hempty (h.kind run List.mem_cons_self).1
  | cons p ps ih =>
    obtain ⟨horder, hkind, halternate⟩ := h
    obtain _ | ⟨⟨computed, _ | ⟨q, run⟩⟩, runs⟩ := runs
    · cases horder
    · exact absurd rfl (hkind _ List.mem_cons_self).1
    · obtain ⟨⟨-, hrun⟩, hrest⟩ := List.forall_mem_cons.1 hkind
      obtain ⟨hq, hrun⟩ := List.forall_mem_cons.1 hrun
      obtain ⟨rfl, htail⟩ := List.cons.inj horder
      rw [propertyRuns]
      have hcomputed : q.isComputed = computed := hq
      subst hcomputed
      cases run with
      | nil =>
        have hruns : AreRuns runs ps := ⟨htail, hrest, (List.isChain_cons.1 halternate).2⟩
        rw [← ih hruns]
        cases runs with
        | nil => rfl
        | cons next runs => exact (if_neg (List.isChain_cons_cons.1 halternate).1).symm
      | cons q' run =>
        have hruns : AreRuns ((q.isComputed, q' :: run) :: runs) ps :=
          ⟨htail, List.forall_mem_cons.2 ⟨⟨by simp, hrun⟩, hrest⟩,
            List.isChain_cons.2 (List.isChain_cons.1 halternate)⟩
        rw [← ih hruns]
        exact (if_pos rfl).symm

/-! ## Arguments -/

def openRun (computed : Bool) : String := if computed then "_ocp([" else "\x7b"

def closeRun (computed : Bool) : String := if computed then "])" else "\x7d"

def runArgument (computed : Bool) (texts : List String) : String :=
  openRun computed ++ joinWith "," texts ++ closeRun computed

def RunWritten (R : Property → PropertyCode → Prop) (run : Bool × List Property)
    (argument : String) : Prop :=
  ∃ codes, List.Forall₂ R run.2 codes ∧ argument = runArgument run.1 (codes.map (·.text))

theorem joint_none (b : Bool) : joint none b = openRun b := by
  cases b <;> rfl

theorem joint_same (b : Bool) : joint (some b) b = "," := by
  cases b <;> rfl

theorem joint_other {b c : Bool} (h : b ≠ c) :
    joint (some b) c = closeRun b ++ "," ++ openRun c := by
  cases b <;> cases c
  · exact absurd rfl h
  · rfl
  · rfl
  · exact absurd rfl h

theorem runsFrom_nil (b : Bool) : runsFrom (some b) [] = closeRun b ++ ")" := by
  cases b <;> rfl

theorem joinWith_append_cons (sep s t : String) (texts : List String) :
    joinWith sep ((s ++ t) :: texts) = s ++ joinWith sep (t :: texts) := by
  cases texts with
  | nil => rfl
  | cons u texts => simp only [joinWith, String.append_assoc]

section

variable {R : Property → PropertyCode → Prop} (hR : ∀ p c, R p c → c.computed = p.isComputed)
include hR

theorem any_computed {ps : List Property} {codes : List PropertyCode}
    (h : List.Forall₂ R ps codes) : codes.any (·.computed) = ps.any (·.isComputed) := by
  induction h with
  | nil => rfl
  | cons hp hps ih => rw [List.any_cons, List.any_cons, hR _ _ hp, ih]

-- Behind the first property the run that it opened is still open.
theorem exists_firstRun {p : Property} {ps : List Property} {c : PropertyCode}
    {codes : List PropertyCode} (hp : R p c) (hps : List.Forall₂ R ps codes) :
    ∃ run runs cs arguments, propertyRuns (p :: ps) = (c.computed, p :: run) :: runs ∧
      List.Forall₂ R run cs ∧ List.Forall₂ (RunWritten R) runs arguments ∧
      c.text ++ runsFrom (some c.computed) codes =
        joinWith "," ((c :: cs).map (·.text)) ++
          joinWith "," (closeRun c.computed :: arguments) ++ ")" := by
  induction hps generalizing p c with
  | nil =>
    refine ⟨[], [], [], [], ?_, .nil, .nil, ?_⟩
    · rw [hR p c hp]
      rfl
    · rw [runsFrom_nil, ← String.append_assoc]
      rfl
  | @cons p' c' ps codes hp' hps ih =>
    obtain ⟨run, runs, cs, arguments, hruns, hrun, hrest, htext⟩ := ih hp'
    rw [runsFrom, propertyRuns_cons hruns, ← hR p c hp]
    by_cases hsame : c.computed = c'.computed
    · rw [if_pos hsame, ← hsame, joint_same]
      rw [← hsame] at htext
      refine ⟨p' :: run, runs, c' :: cs, arguments, rfl, .cons hp' hrun, hrest, ?_⟩
      rw [String.append_assoc, htext]
      simp only [List.map_cons, joinWith, String.append_assoc]
    · rw [if_neg hsame, joint_other hsame]
      have hwritten : RunWritten R (c'.computed, p' :: run)
          (runArgument c'.computed ((c' :: cs).map (·.text))) := ⟨c' :: cs, .cons hp' hrun, rfl⟩
      refine ⟨[], (c'.computed, p' :: run) :: runs, [], _ :: arguments, rfl, .nil,
        .cons hwritten hrest, ?_⟩
      rw [String.append_assoc, htext, runArgument]
      simp only [List.map_cons, List.map_nil, joinWith, joinWith_append_cons, String.append_assoc]

theorem objectCode_runs {ps : List Property} {codes : List PropertyCode}
    (h : List.Forall₂ R ps codes) (hc : ps.any (·.isComputed) = true) :
    ∃ arguments, List.Forall₂ (RunWritten R) (propertyRuns ps) arguments ∧
      objectCode codes = .plain ("_ex(" ++ joinWith "," arguments ++ ")") := by
  rw [objectCode, any_computed hR h, if_pos hc]
  cases h with
  | nil => cases hc
  | @cons p c ps codes hp hps =>
    obtain ⟨run, runs, cs, arguments, hruns, hrun, hrest, htext⟩ := exists_firstRun hR hp hps
    refine ⟨runArgument c.computed ((c :: cs).map (·.text)) :: arguments, ?_, ?_⟩
    · rw [hruns]
      exact .cons ⟨c :: cs, .cons hp hrun, rfl⟩ hrest
    · rw [runsFrom, joint_none, String.append_assoc, htext, runArgument]
      simp only [joinWith_append_cons, String.append_assoc]

end

/-! ## Generated objects -/

theorem generateProperty_computed {p : Property} {c : PropertyCode}
    (h : generateProperty p = .ok c) : c.computed = p.isComputed := by
  cases p <;> simp only [generateProperty, bind_eq_ok, pure_eq_ok, Except.ok.injEq] at h
  case shorthand => exact h ▸ rfl
  case keyed =>
    obtain ⟨v, -, rfl⟩ := h
    rfl
  case computed =>
    obtain ⟨v, -, k, -, rfl⟩ := h
    rfl

theorem forall₂_generateProperties {ps : List Property} {codes : List PropertyCode}
    (h : generateProperties ps = .ok codes) :
    List.Forall₂ (fun p c => generateProperty p = .ok c) ps codes := by
  induction ps generalizing codes with
  | nil =>
    obtain rfl := Except.ok.inj h
    exact .nil
  | cons p ps ih =>
    simp only [generateProperties, bind_eq_ok, pure_eq_ok, Except.ok.injEq] at h
    obtain ⟨c, hc, cs, hcs, rfl⟩ := h
    exact .cons hc (ih hcs)

/-- The code of an object with a computed key is a call of `_ex` with one argument for each of its
longest runs of plain and of computed properties. No other runs of this kind keep the order of the
properties. -/
theorem generate_object_runs {l : Location} {ps : List Property} {code : Code}
    (h : generate (.object l ps) = .ok code) (hc : ps.any (·.isComputed) = true) :
    AreRuns (propertyRuns ps) ps ∧ (∀ runs, AreRuns runs ps → runs = propertyRuns ps) ∧
      ∃ arguments,
        List.Forall₂ (RunWritten fun p c => generateProperty p = .ok c) (propertyRuns ps)
          arguments ∧
        code = .plain ("_ex(" ++ joinWith "," arguments ++ ")") := by
  obtain ⟨codes, hcodes, rfl⟩ := generate_object_ok h
  refine ⟨areRuns_propertyRuns ps, fun runs => AreRuns.unique, ?_⟩
  exact objectCode_runs (fun _ _ => generateProperty_computed) (forall₂_generateProperties hcodes)
    hc

def mixedProperties : List Property :=
  [.shorthand ⟨default, "a"⟩, .computed default (.ofName "k") (.ofName "v"),
    .computed default (.ofName "j") (.ofName "w"),
    .keyed default (.name ⟨default, "b"⟩) (.ofName "c"),
    .computed default (.ofName "k") (.ofName "d")]

theorem generate_mixedProperties :
    generate (.object default mixedProperties) =
      .ok (.plain ("_ex(\x7ba:a\x7d,_ocp([\x7bk:k,v:v\x7d,\x7bk:j,v:w\x7d])," ++
        "\x7bb:c\x7d,_ocp([\x7bk:k,v:d\x7d]))")) :=
  rfl

theorem generate_object_runs_mixed :
    AreRuns (propertyRuns mixedProperties) mixedProperties ∧
      (∀ runs, AreRuns runs mixedProperties → runs = propertyRuns mixedProperties) ∧
      ∃ arguments,
        List.Forall₂ (RunWritten fun p c => generateProperty p = .ok c)
          (propertyRuns mixedProperties) arguments ∧
        Code.plain ("_ex(\x7ba:a\x7d,_ocp([\x7bk:k,v:v\x7d,\x7bk:j,v:w\x7d])," ++
          "\x7bb:c\x7d,_ocp([\x7bk:k,v:d\x7d]))") =
          .plain ("_ex(" ++ joinWith "," arguments ++ ")") :=
  generate_object_runs generate_mixedProperties rfl

end VueToSan.Expr
