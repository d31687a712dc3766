import VueToSan.Compile
import VueToSan.Proofs.MarkupPieces
import VueToSan.Proofs.RuleSequence

/-!
# Heads before their children are walked

Which changes the rules of given options make to a head before the children of its element are
walked: wrappers become fragments, the dialect is read, and fixed classes are mapped. After the
children were walked, only the built-in rules do anything.
-/

namespace VueToSan.Options

open VueToSan.Markup VueToSan.Transform VueToSan.Text

def inDialect (o : Options) (h : Head) : Head :=
  match o.dialect with
  | .vue => h
  | .atom => readDialect h

def withClasses (o : Options) (h : Head) : Head :=
  match o.classes with
  | none | some [] => h
  | some classes => mapFixedClass classes h

/-- The head of an element when its children are walked, without its directive fields. -/
def prepare (o : Options) (h : Head) : Head := o.withClasses (o.inDialect (fragmentHead h))

variable {o : Options}

theorem rules_eq (hextra : o.extraRules = []) :
    ∃ names : List (String × (Head → Head)),
      o.rules = builtinRules ++ names.map (fun r => Rule.ofBefore r.1 r.2) ∧
        ∀ h, o.withClasses (o.inDialect h) = names.foldl (fun h r => r.2 h) h := by
  obtain ⟨classes, scopeId, strip, dialect, extra⟩ := o
  obtain rfl : extra = [] := hextra
  rcases dialect with _ | _ <;> rcases classes with _ | _ | ⟨entry, classes⟩
  · exact ⟨[], rfl, fun _ => rfl⟩
  · exact ⟨[], rfl, fun _ => rfl⟩
  · exact ⟨[("cssmodules", mapFixedClass (entry :: classes))], rfl, fun _ => rfl⟩
  · exact ⟨[("atom", readDialect)], rfl, fun _ => rfl⟩
  · exact ⟨[("atom", readDialect)], rfl, fun _ => rfl⟩
  · exact ⟨[("atom", readDialect), ("cssmodules", mapFixedClass (entry :: classes))], rfl,
      fun _ => rfl⟩

theorem runBefore_rules (hextra : o.extraRules = []) (e : Element) (context : Context) :
    runBefore o.rules e context = (o.prepare e.head, context) := by
  obtain ⟨names, hrules, hfold⟩ := rules_eq hextra
  rw [hrules, runBefore, List.foldl_append]
  change List.foldl _ (fragmentHead e.head, context) _ = _
  rw [prepare, hfold]
  clear hrules hfold
  generalize fragmentHead e.head = h
  induction names generalizing h with
  | nil => rfl
  | cons r names ih => exact ih _

theorem runAfter_rules (hextra : o.extraRules = []) (e : Element) (context : Context) :
    runAfter o.rules e context = runAfter builtinRules e context := by
  obtain ⟨names, hrules, -⟩ := rules_eq hextra
  have hrest : ∀ x inner,
      runAfter (names.map fun r => Rule.ofBefore r.1 r.2) x inner = .done (x, inner) := by
    intro x inner
    clear hrules
    induction names with
    | nil => rfl
    | cons r names ih => exact ih
  rw [hrules, runAfter, Edit.each_append]
  change (runAfter builtinRules e context).andThen
    (fun site => runAfter (names.map fun r => Rule.ofBefore r.1 r.2) site.1 site.2) = _
  cases runAfter builtinRules e context with
  | done site => exact hrest site.1 site.2
  | failed error site => rfl

/-! ## What stays -/

theorem get?_entriesOf_rename {rename : String → String} {name : String}
    (hrename : ∀ other, rename other = name ↔ other = name) (declared : List Attr) :
    (entriesOf (declared.map fun a => { a with name := rename a.name })).get? name =
      (entriesOf declared).get? name := by
  have hfold : ∀ m m' : Entries String, m.get? name = m'.get? name →
      (((declared.map fun a => { a with name := rename a.name }).map
          fun a => (a.name, a.value)).foldl (fun m e => m.set e.1 e.2) m).get? name =
        ((declared.map fun a => (a.name, a.value)).foldl (fun m e => m.set e.1 e.2) m').get? name := by
    induction declared with
    | nil => exact fun m m' heq => heq
    | cons a declared ih =>
      intro m m' heq
      apply ih
      dsimp only
      by_cases hname : a.name = name
      · rw [(hrename a.name).2 hname, hname, Entries.get?_set_self, Entries.get?_set_self]
      · have hrenamed : rename a.name ≠ name := fun heq => hname ((hrename a.name).1 heq)
        rw [Entries.get?_set_of_ne (Ne.symm hrenamed), Entries.get?_set_of_ne (Ne.symm hname), heq]
  exact hfold [] [] rfl

theorem commonName_eq_iff {name : String} (ha : name.toList.head? ≠ some 'a')
    (hv : name.toList.head? ≠ some 'v') (other : String) : commonName other = name ↔ other = name := by
  unfold commonName
  split
  · rename_i rest hrest
    have hother : other.toList.head? = some 'a' := by
      rw [San.stripStart?_eq_some.1 hrest]
      rfl
    have hcommon : ("v-" ++ String.ofList rest).toList.head? = some 'v' := by
      rw [String.toList_append]
      rfl
    constructor
    · rintro rfl
      exact absurd hcommon hv
    · rintro rfl
      exact absurd hother ha
  · rfl

theorem attr?_prepare {h : Head} (hattrs : h.attrs = entriesOf h.declared) {name : String}
    (hclass : name ≠ "class") (ha : name.toList.head? ≠ some 'a')
    (hv : name.toList.head? ≠ some 'v') : (o.prepare h).attr? name = h.attr? name := by
  have hfragment : (fragmentHead h).attrs = h.attrs ∧ (fragmentHead h).declared = h.declared := by
    unfold fragmentHead
    split <;> exact ⟨rfl, rfl⟩
  have hdialect : (o.inDialect (fragmentHead h)).attr? name = h.attr? name := by
    unfold inDialect readDialect
    split
    · rw [Head.attr?, hfragment.1]
      rfl
    · split
      · rw [Head.attr?, hfragment.2, get?_entriesOf_rename (commonName_eq_iff ha hv), ← hattrs]
        rfl
      · rw [Head.attr?, hfragment.1]
        rfl
  rw [← hdialect, prepare, withClasses]
  split
  · rfl
  · rfl
  · unfold mapFixedClass
    split
    · rfl
    · exact Entries.get?_set_of_ne hclass

theorem nodup_keys_prepare {h : Head} (hattrs : h.attrs = entriesOf h.declared) :
    (o.prepare h).attrs.keys.Nodup := by
  have hfragment : (fragmentHead h).attrs.keys.Nodup := by
    have hsame : (fragmentHead h).attrs = h.attrs := by
      unfold fragmentHead
      split <;> rfl
    rw [hsame, hattrs]
    exact Entries.nodup_keys_ofList _
  have hdialect : (o.inDialect (fragmentHead h)).attrs.keys.Nodup := by
    unfold inDialect readDialect
    split
    · exact hfragment
    · split
      · exact Entries.nodup_keys_ofList _
      · exact hfragment
  unfold prepare withClasses
  split
  · exact hdialect
  · exact hdialect
  · unfold mapFixedClass
    split
    · exact hdialect
    · exact Entries.nodup_keys_set hdialect

theorem prepare_tag (h : Head) : (o.prepare h).tag = (fragmentHead h).tag ∧
    (o.prepare h).parent = h.parent := by
  have hfragment : (fragmentHead h).parent = h.parent := by
    unfold fragmentHead
    split <;> rfl
  have hdialect : (o.inDialect (fragmentHead h)).tag = (fragmentHead h).tag ∧
      (o.inDialect (fragmentHead h)).parent = h.parent := by
    unfold inDialect readDialect
    split
    · exact ⟨rfl, hfragment⟩
    · split
      · exact ⟨rfl, hfragment⟩
      · exact ⟨rfl, hfragment⟩
  rw [← hdialect.1, ← hdialect.2, prepare, withClasses]
  split
  · exact ⟨rfl, rfl⟩
  · exact ⟨rfl, rfl⟩
  · unfold mapFixedClass
    split <;> exact ⟨rfl, rfl⟩

end VueToSan.Options
