import VueToSan.Proofs.HelperCalls

/-!
# Inline styles

A style is cut at the semicolons outside parentheses, and every piece with a colon and a value that
is not blank declares a property. The entries of a style are the declared properties in the order of
their first declarations, with the values of their last ones. Entries are written as an object of
strings, which is parsed to exactly these entries.
-/

namespace VueToSan.Entries

variable {α : Type}

theorem keys_swap_self (m : Entries α) (name : String) (value : α) :
    (m.swap name (name, value)).keys = m.keys := by
  simp only [keys, swap, List.map_map]
  apply List.map_congr_left
  intro entry _
  by_cases h : entry.1 = name <;> simp [h]

theorem keys_set (m : Entries α) (name : String) (value : α) :
    (m.set name value).keys = if name ∈ m.keys then m.keys else m.keys ++ [name] := by
  unfold set
  by_cases h : m.has name = true
  · rw [if_pos h, if_pos (mem_keys_iff_has.2 h), keys_swap_self]
  · rw [if_neg h, if_neg (mt mem_keys_iff_has.1 h)]
    simp [keys]

theorem ofList_concat (entries : List (String × α)) (entry : String × α) :
    ofList (entries ++ [entry]) = (ofList entries).set entry.1 entry.2 := by
  simp [ofList]

theorem keys_ofList (entries : List (String × α)) :
    (ofList entries).keys = (entries.map (·.1)).eraseDups := by
  induction entries using List.reverseRecOn with
  | nil => rfl
  | append_singleton entries entry ih =>
    rw [ofList_concat, keys_set, ih, List.map_append, List.eraseDups_append, List.map_singleton]
    by_cases h : entry.1 ∈ entries.map (·.1)
    · rw [if_pos (List.mem_eraseDups.2 h)]
      simp [List.removeAll, h]
    · rw [if_neg (mt List.mem_eraseDups.1 h)]
      simp [List.removeAll, h, List.eraseDups_cons]

theorem get?_ofList (entries : List (String × α)) (name : String) :
    (ofList entries).get? name = get? entries.reverse name := by
  induction entries using List.reverseRecOn with
  | nil => rfl
  | append_singleton entries entry ih =>
    rw [ofList_concat, List.reverse_append, List.reverse_singleton, List.singleton_append, get?_cons]
    by_cases h : entry.1 = name
    · rw [if_pos h, ← h, get?_set_self]
    · rw [if_neg h, get?_set_of_ne (Ne.symm h), ih]

end VueToSan.Entries

namespace VueToSan.Text

theorem breakAt?_char {x : Char} {cs before after : List Char} :
    breakAt? [x] cs = some (before, after) ↔
      ∃ rest, after = x :: rest ∧ cs = before ++ x :: rest ∧ x ∉ before := by
  induction cs generalizing before with
  | nil => simp [breakAt?]
  | cons c cs ih =>
    by_cases hc : x = c
    · subst hc
      have hhere : breakAt? [x] (x :: cs) = some ([], x :: cs) := by simp [breakAt?]
      rw [hhere]
      constructor
      · intro h
        obtain ⟨rfl, rfl⟩ := Prod.mk.inj (Option.some.inj h)
        exact ⟨cs, rfl, rfl, List.not_mem_nil⟩
      · rintro ⟨rest, rfl, hcs, hbefore⟩
        cases before with
        | nil => rw [hcs, List.nil_append]
        | cons d before =>
          obtain ⟨rfl, -⟩ := List.cons.inj hcs
          exact absurd List.mem_cons_self hbefore
    · have hnext : breakAt? [x] (c :: cs) =
          (breakAt? [x] cs).map fun parts => (c :: parts.1, parts.2) := by
        rw [breakAt?, if_neg (by simp [hc])]
      rw [hnext, Option.map_eq_some_iff]
      constructor
      · rintro ⟨⟨inner, behind⟩, hinner, hpair⟩
        obtain ⟨rfl, rfl⟩ := Prod.mk.inj hpair
        obtain ⟨rest, rfl, rfl, hbefore⟩ := ih.1 hinner
        exact ⟨rest, rfl, rfl, by simp [hc, hbefore]⟩
      · rintro ⟨rest, rfl, hcs, hbefore⟩
        cases before with
        | nil => exact absurd (List.cons.inj hcs).1.symm hc
        | cons d before =>
          obtain ⟨rfl, rfl⟩ := List.cons.inj hcs
          rw [List.mem_cons, not_or] at hbefore
          exact ⟨(before, x :: rest), ih.2 ⟨rest, rfl, rfl, hbefore.2⟩, rfl⟩

theorem mem_dropWhile {p : Char → Bool} {c : Char} {cs : List Char} (hc : p c = false)
    (h : c ∈ cs) : c ∈ cs.dropWhile p := by
  have hparts := List.takeWhile_append_dropWhile (p := p) (l := cs)
  rw [← hparts, List.mem_append] at h
  refine h.resolve_left fun htake => ?_
  have hp : p c = true := List.mem_takeWhile_imp htake
  rw [hc] at hp
  cases hp

theorem mem_trim {c : Char} {cs : List Char} (hc : isBlank c = false) (h : c ∈ cs) :
    c ∈ trim cs := by
  rw [trim, trimEnd, dropEndWhile, List.mem_reverse]
  exact mem_dropWhile hc (List.mem_reverse.2 (mem_dropWhile hc h))

end VueToSan.Text

namespace VueToSan.Markup

open VueToSan.Text

/-! ## Cutting at semicolons -/

def IsClosed (cs : List Char) : Prop :=
  ∀ tail, tail <:+ cs → tail.count '(' ≤ tail.count ')'

def IsUncut (cs : List Char) : Prop :=
  ∀ front rest, cs = front ++ ';' :: rest → ¬ IsClosed front

inductive IsCut : List Char → List (List Char) → Prop where
  | last {piece : List Char} : IsUncut piece → IsCut piece [piece]
  | more {piece rest : List Char} {pieces : List (List Char)} :
      IsUncut piece → IsClosed piece → IsCut rest pieces →
      IsCut (piece ++ ';' :: rest) (piece :: pieces)

/-- How many parentheses are open behind a text that is given from its last character to its first;
a closing one without an opening one does not count. -/
def openCount : List Char → Nat
  | [] => 0
  | c :: seen =>
    if c = '(' then openCount seen + 1 else if c = ')' then openCount seen - 1 else openCount seen

theorem openCount_le_iff (seen : List Char) (k : Nat) :
    openCount seen ≤ k ↔ ∀ t, t <+: seen → t.count '(' ≤ t.count ')' + k := by
  induction seen generalizing k with
  | nil => simp [openCount]
  | cons c seen ih =>
    -- The prefix without a character says nothing; all others start with `c`.
    have hfirst : (∀ t, t <+: c :: seen → t.count '(' ≤ t.count ')' + k) ↔
        ∀ t, t <+: seen → (c :: t).count '(' ≤ (c :: t).count ')' + k := by
      constructor
      · intro h t ht
        exact h (c :: t) (List.cons_prefix_cons.2 ⟨rfl, ht⟩)
      · intro h t ht
        rcases List.prefix_cons_iff.1 ht with rfl | ⟨tail, rfl, htail⟩
        · simp
        · exact h tail htail
    rw [hfirst]
    by_cases hopen : c = '('
    · subst hopen
      have hcount (t : List Char) : ('(' :: t).count '(' = t.count '(' + 1 ∧
          ('(' :: t).count ')' = t.count ')' :=
        ⟨List.count_cons_self, List.count_cons_of_ne (by decide)⟩
      simp only [hcount, openCount, if_true]
      cases k with
      | zero =>
        refine ⟨fun h => absurd h (by omega), fun h => ?_⟩
        have hnone := h [] List.nil_prefix
        simp at hnone
      | succ k => simp only [← Nat.add_assoc, Nat.add_le_add_iff_right, ih k]
    · by_cases hclose : c = ')'
      · subst hclose
        have hcount (t : List Char) : (')' :: t).count '(' = t.count '(' ∧
            (')' :: t).count ')' = t.count ')' + 1 :=
          ⟨List.count_cons_of_ne (by decide), List.count_cons_self⟩
        simp only [hcount, openCount, hopen, if_false, if_true, Nat.sub_le_iff_le_add, ih (k + 1)]
        simp only [Nat.add_assoc, Nat.add_comm 1 k]
      · simp only [openCount, hopen, hclose, if_false, List.count_cons_of_ne hopen,
          List.count_cons_of_ne hclose, ih k]

theorem isClosed_iff (cs : List Char) : IsClosed cs ↔ openCount cs.reverse = 0 := by
  rw [← Nat.le_zero, openCount_le_iff]
  constructor
  · intro h t ht
    have htail := h t.reverse (by rwa [← List.reverse_prefix, List.reverse_reverse])
    simpa using htail
  · intro h tail htail
    have ht := h tail.reverse (List.reverse_prefix.2 htail)
    simpa using ht

theorem IsUncut.concat {cs : List Char} {c : Char} (h : IsUncut cs)
    (hc : c = ';' → ¬ IsClosed cs) : IsUncut (cs ++ [c]) := by
  intro front rest heq
  rcases List.eq_nil_or_concat rest with rfl | ⟨rest, d, rfl⟩
  · obtain ⟨rfl, hlast⟩ := List.append_inj' heq rfl
    exact hc (List.cons.inj hlast).1
  · rw [List.concat_eq_append, ← List.cons_append, ← List.append_assoc] at heq
    exact h front rest (List.append_inj' heq rfl).1

theorem isCut_splitStyle {seen : List Char} (cs : List Char) (hseen : IsUncut seen.reverse) :
    IsCut (seen.reverse ++ cs) (splitStyle (openCount seen) seen cs) := by
  induction cs generalizing seen with
  | nil =>
    rw [List.append_nil, splitStyle]
    exact .last hseen
  | cons c cs ih =>
    rw [splitStyle]
    by_cases hcut : c = ';' ∧ openCount seen = 0
    · obtain ⟨rfl, hzero⟩ := hcut
      rw [if_pos ⟨rfl, hzero⟩, hzero]
      have hclosed : IsClosed seen.reverse := by rwa [isClosed_iff, List.reverse_reverse]
      have hnil : IsUncut ([] : List Char).reverse := by
        intro front rest heq
        simp at heq
      exact .more hseen hclosed (ih hnil)
    · rw [if_neg hcut]
      have hnext : IsUncut (c :: seen).reverse := by
        rw [List.reverse_cons]
        refine hseen.concat fun hc hclosed => hcut ⟨hc, ?_⟩
        rwa [isClosed_iff, List.reverse_reverse] at hclosed
      have hrest := ih hnext
      rw [List.reverse_cons, List.append_assoc] at hrest
      exact hrest

theorem IsCut.unique {cs : List Char} {ps qs : List (List Char)} (hp : IsCut cs ps)
    (hq : IsCut cs qs) : ps = qs := by
  induction hp generalizing qs with
  | @last piece huncut =>
    cases hq with
    | last => rfl
    | more _ hclosed _ => exact absurd hclosed (huncut _ _ rfl)
  | @more piece rest pieces huncut hclosed hrest ih =>
    generalize hcs : piece ++ ';' :: rest = cs at hq
    cases hq with
    | last hother => exact absurd hclosed (hother _ _ hcs.symm)
    | @more other behind others hother hclosed' hbehind =>
      rcases List.append_eq_append_iff.1 hcs with ⟨more, rfl, hmore⟩ | ⟨more, rfl, hmore⟩
      · cases more with
        | nil =>
          obtain rfl := (List.cons.inj hmore).2
          rw [List.append_nil, ih hbehind]
        | cons d more =>
          obtain ⟨rfl, -⟩ := List.cons.inj hmore
          exact absurd hclosed (hother _ _ rfl)
      · cases more with
        | nil =>
          obtain rfl := (List.cons.inj hmore).2
          rw [List.append_nil, ih hbehind]
        | cons d more =>
          obtain ⟨rfl, -⟩ := List.cons.inj hmore
          exact absurd hclosed' (huncut _ _ rfl)

/-! ## Declarations -/

/-- A piece of a style gives a property a value: the property stands in front of the first colon,
and what stands behind it is not blank. -/
def Declares (piece : List Char) (entry : String × String) : Prop :=
  ∃ property value, piece = property ++ ':' :: value ∧ ':' ∉ property ∧
    value.all isBlank = false ∧ entry = (String.ofList (trim property), String.ofList (trim value))

inductive Declarations : List (List Char) → List (String × String) → Prop where
  | nil : Declarations [] []
  | declared {piece : List Char} {entry : String × String} {pieces : List (List Char)}
      {entries : List (String × String)} :
      Declares piece entry → Declarations pieces entries →
      Declarations (piece :: pieces) (entry :: entries)
  | skipped {piece : List Char} {pieces : List (List Char)} {entries : List (String × String)} :
      (∀ entry, ¬ Declares piece entry) → Declarations pieces entries →
      Declarations (piece :: pieces) entries

theorem declaration?_eq_some {piece : List Char} {entry : String × String} :
    declaration? piece = some entry ↔ Declares piece entry := by
  unfold declaration?
  constructor
  · intro h
    split at h
    · rename_i property c value hbreak
      obtain ⟨rest, hrest, hpiece, hfirst⟩ := breakAt?_char.1 hbreak
      obtain ⟨rfl, rfl⟩ := List.cons.inj hrest
      rw [Option.ite_none_left_eq_some, Bool.not_eq_true] at h
      exact ⟨property, value, hpiece, hfirst, h.1, (Option.some.inj h.2).symm⟩
    · cases h
  · rintro ⟨property, value, rfl, hfirst, hvalue, rfl⟩
    rw [breakAt?_char.2 ⟨value, rfl, rfl, hfirst⟩]
    simp [hvalue]

theorem declarations_iff {pieces : List (List Char)} {entries : List (String × String)} :
    Declarations pieces entries ↔ entries = pieces.filterMap declaration? := by
  constructor
  · intro h
    induction h with
    | nil => rfl
    | declared hentry _ ih => rw [List.filterMap_cons_some (declaration?_eq_some.2 hentry), ih]
    | @skipped piece pieces entries hnone _ ih =>
      have hpiece : declaration? piece = none := by
        rw [Option.eq_none_iff_forall_ne_some]
        exact fun entry hentry => hnone entry (declaration?_eq_some.1 hentry)
      rw [List.filterMap_cons_none hpiece, ih]
  · rintro rfl
    induction pieces with
    | nil => exact .nil
    | cons piece pieces ih =>
      cases hpiece : declaration? piece with
      | none =>
        rw [List.filterMap_cons_none hpiece]
        refine .skipped (fun entry hentry => ?_) ih
        rw [declaration?_eq_some.2 hentry] at hpiece
        cases hpiece
      | some entry =>
        rw [List.filterMap_cons_some hpiece]
        exact .declared (declaration?_eq_some.1 hpiece) ih

theorem isCut_iff {cs : List Char} {pieces : List (List Char)} :
    IsCut cs pieces ↔ pieces = splitStyle 0 [] cs := by
  have hnil : IsUncut ([] : List Char).reverse := by
    intro front rest heq
    simp at heq
  have hcut : IsCut cs (splitStyle 0 [] cs) := isCut_splitStyle cs hnil
  constructor
  · exact fun h => h.unique hcut
  · rintro rfl
    exact hcut

theorem Declares.visible {piece : List Char} {entry : String × String}
    (h : Declares piece entry) : allBlank entry.2 = false := by
  obtain ⟨property, value, -, -, hvalue, rfl⟩ := h
  rw [List.all_eq_false] at hvalue
  obtain ⟨c, hc, hblank⟩ := hvalue
  rw [Bool.not_eq_true] at hblank
  rw [allBlank, String.toList_ofList, List.all_eq_false]
  exact ⟨c, mem_trim hblank hc, by simp [hblank]⟩

/-! ## Objects of strings -/

def IsStringProperty (p : Expr.Property) (entry : String × String) : Prop :=
  ∃ whole key value : Location,
    p = .keyed whole (.string key entry.1) (.literal value (.string entry.2))

theorem isStringProperty_of_unlocated {p : Expr.Property} {entry : String × String}
    (h : p.unlocated = .keyed default (.string default entry.1)
      (.literal default (.string entry.2))) : IsStringProperty p entry := by
  cases p with
  | shorthand name => cases h
  | computed whole key value => cases h
  | keyed whole key value =>
    obtain ⟨-, hkey, hvalue⟩ := Expr.Property.keyed.inj h
    cases key <;> cases hkey
    cases value <;> cases hvalue
    exact ⟨_, _, _, rfl⟩

theorem exists_stringProperties {e : Expr.Node} {entries : List (String × String)}
    (h : e.unlocated = (Transform.styleNode entries).unlocated) :
    ∃ location properties, e = .object location properties ∧
      List.Forall₂ IsStringProperty properties entries := by
  cases e with
  | object location properties =>
    refine ⟨location, properties, rfl, ?_⟩
    have hall : Expr.unlocatedProperties properties =
        Expr.unlocatedProperties (entries.map fun entry =>
          .keyed default (.string default entry.1) (.literal default (.string entry.2))) :=
      (Expr.Node.object.inj h).2
    clear h
    induction entries generalizing properties with
    | nil =>
      cases properties with
      | nil => exact .nil
      | cons p ps => cases hall
    | cons entry entries ih =>
      cases properties with
      | nil => cases hall
      | cons p ps =>
        obtain ⟨hp, hps⟩ := List.cons.inj hall
        exact .cons (isStringProperty_of_unlocated hp) (ih ps hps)
  | _ => cases h

/-- The entries of a style are what it declares: names in the order of their first declarations,
with the values of their last ones. The object of any entries is parsed to these entries. -/
theorem style_entries_kept (text : String) (entries : List (String × String)) :
    (∃ pieces declared,
      (∀ ps, IsCut text.toList ps ↔ ps = pieces) ∧
      (∀ ds, Declarations pieces ds ↔ ds = declared) ∧
      (styleEntries text).keys = (declared.map (·.1)).eraseDups ∧
      ∀ name, (styleEntries text).get? name = Entries.get? declared.reverse name) ∧
    (styleEntries text).keys.Nodup ∧
    (∀ entry ∈ styleEntries text, allBlank entry.2 = false) ∧
    ∃ location properties,
      Expr.parseExpression (styleObject entries) = .ok (.object location properties) ∧
      List.Forall₂ IsStringProperty properties entries := by
  refine ⟨⟨splitStyle 0 [] text.toList, _, fun _ => isCut_iff, fun _ => declarations_iff,
    Entries.keys_ofList _, Entries.get?_ofList _⟩, Entries.nodup_keys_ofList _, ?_, ?_⟩
  · intro entry hentry
    obtain ⟨piece, -, hpiece⟩ := List.mem_filterMap.1 (Entries.mem_ofList hentry)
    exact (declaration?_eq_some.1 hpiece).visible
  · obtain ⟨e, hparse, hsame⟩ :=
      Expr.parseExpression_of_reads (Transform.readsAs_styleObject entries)
    obtain ⟨location, properties, rfl, hproperties⟩ := exists_stringProperties hsame
    exact ⟨location, properties, hparse, hproperties⟩

example : styleEntries "a: 1; b: url(x;y)); a: 2; c:" = [("a", "2"), ("b", "url(x;y))")] := by rfl

end VueToSan.Markup
