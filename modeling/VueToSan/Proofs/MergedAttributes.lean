import VueToSan.Proofs.EntryLookup
import VueToSan.Transform.Rules.Appearance

/-!
# Merged attributes

An attribute that is made of others stands where it stood before, or else where the first of the
others stood, or else at the end, and the others go. Replacing a name by another one is the same
with a single name that goes. Every other entry keeps its value and its order.
-/

namespace VueToSan.Entries

variable {α : Type} {m r front back : Entries α} {name old new : String} {x value : α}
  {names parts : List String}

theorem has_eq_false_iff : m.has name = false ↔ ∀ entry ∈ m, entry.1 ≠ name := by
  simp [has]

theorem keys_append (m m' : Entries α) : (m ++ m').keys = m.keys ++ m'.keys := List.map_append

theorem has_append (m m' : Entries α) (name : String) :
    (m ++ m').has name = (m.has name || m'.has name) := List.any_append

/-! ## Both sides of an entry -/

theorem exists_sides (h : m.has name) :
    ∃ (front : Entries α) (x : α) (back : Entries α), m = front ++ (name, x) :: back := by
  obtain ⟨entry, hentry, rfl⟩ := List.mem_map.1 (mem_keys_iff_has.2 h)
  obtain ⟨front, back, hm⟩ := List.append_of_mem hentry
  exact ⟨front, entry.2, back, hm⟩

theorem sides_absent (hm : m.keys.Nodup) (hsplit : m = front ++ (name, x) :: back) :
    front.has name = false ∧ back.has name = false := by
  rw [hsplit, keys_append] at hm
  have hname : name ∉ front.keys ++ back.keys := (List.nodup_middle.1 hm).notMem
  rw [List.mem_append, not_or, mem_keys_iff_has, mem_keys_iff_has] at hname
  simpa using hname

theorem swap_eq_self {entry : String × α} (h : m.has old = false) : m.swap old entry = m := by
  rw [has_eq_false_iff] at h
  exact (List.map_congr_left fun e he => if_neg (h e he)).trans m.map_id

theorem swap_sides {entry : String × α} (hm : m.keys.Nodup)
    (hsplit : m = front ++ (old, x) :: back) : m.swap old entry = front ++ entry :: back := by
  obtain ⟨hfront, hback⟩ := sides_absent hm hsplit
  calc m.swap old entry = front.swap old entry ++ entry :: back.swap old entry := by
        rw [hsplit, swap, List.map_append, List.map_cons, if_pos rfl]
        rfl
    _ = front ++ entry :: back := by rw [swap_eq_self hfront, swap_eq_self hback]

theorem set_sides (hm : m.keys.Nodup) (hsplit : m = front ++ (name, x) :: back) :
    m.set name value = front ++ (name, value) :: back := by
  have hname : m.has name = true := by simp [hsplit, has]
  rw [set, if_pos hname, swap_sides hm hsplit]

theorem set_absent (h : m.has name = false) : m.set name value = m ++ [(name, value)] := by
  rw [set, h]
  rfl

theorem replace_sides (hm : m.keys.Nodup) (hsplit : m = front ++ (old, x) :: back)
    (hnew : (m.erase old).has new = false) :
    m.replace old new value = front ++ (new, value) :: back := by
  have hold : m.has old = true := by simp [hsplit, has]
  rw [replace, hold, hnew]
  exact swap_sides hm hsplit

theorem replace_eq_set (h : m.has old = false ∨ (m.erase old).has new = true) :
    m.replace old new value = (m.erase old).set new value := by
  rw [replace, if_neg]
  rcases h with h | h <;> simp [h]

/-! ## Leaving names out -/

def without (m : Entries α) (names : List String) : Entries α := m.filter fun e => e.1 ∉ names

theorem without_append (m m' : Entries α) (names : List String) :
    (m ++ m').without names = m.without names ++ m'.without names := List.filter_append ..

theorem without_cons_of_mem {entry : String × α} (h : entry.1 ∈ names) :
    without (entry :: m) names = m.without names := List.filter_cons_of_neg (by simpa using h)

theorem without_cons_of_notMem {entry : String × α} (h : entry.1 ∉ names) :
    without (entry :: m) names = entry :: m.without names :=
  List.filter_cons_of_pos (by simpa using h)

theorem without_sides (h : name ∉ names) :
    without (front ++ (name, x) :: back) names =
      front.without names ++ (name, x) :: back.without names := by
  rw [without_append, without_cons_of_notMem h]

theorem without_nil (m : Entries α) : m.without [] = m := by simp [without]

theorem without_absent (h : ∀ name ∈ names, m.has name = false) : m.without names = m := by
  rw [without, List.filter_eq_self]
  intro entry hentry
  rw [decide_eq_true_iff]
  intro hnames
  exact has_eq_false_iff.1 (h _ hnames) entry hentry rfl

theorem without_singleton_absent (h : m.has name = false) : m.without [name] = m :=
  without_absent (by simpa using h)

theorem without_cons_of_absent (h : m.has name = false) :
    m.without (name :: names) = m.without names := by
  refine List.filter_congr fun entry hentry => ?_
  simp [has_eq_false_iff.1 h entry hentry]

theorem has_without (h : name ∈ names) : (m.without names).has name = false := by
  rw [has_eq_false_iff]
  rintro entry hentry rfl
  simpa [h] using (List.mem_filter.1 hentry).2

theorem without_without (m : Entries α) (names : List String) :
    (m.without names).without names = m.without names :=
  without_absent fun _ hname => has_without hname

theorem nodup_keys_without (h : m.keys.Nodup) : (m.without names).keys.Nodup :=
  h.sublist (List.filter_sublist.map _)

theorem erase_without (m : Entries α) (name : String) (names : List String) :
    (m.erase name).without names = m.without (name :: names) := by
  rw [without, erase, List.filter_filter]
  refine List.filter_congr fun entry _ => ?_
  rw [Bool.eq_iff_iff]
  simp [and_comm]

theorem erase_eq_without (m : Entries α) (name : String) : m.erase name = m.without [name] := by
  rw [← erase_without, without_nil]

theorem erase_absent (h : m.has name = false) : m.erase name = m := by
  rw [erase_eq_without, without_singleton_absent h]

theorem erase_sides (hm : m.keys.Nodup) (hsplit : m = front ++ (name, x) :: back) :
    m.erase name = front ++ back := by
  obtain ⟨hfront, hback⟩ := sides_absent hm hsplit
  rw [erase_eq_without, hsplit, without_append, without_cons_of_mem List.mem_cons_self,
    without_singleton_absent hfront, without_singleton_absent hback]

theorem has_erase_absent (h : m.has new = false) : (m.erase old).has new = false := by
  rw [has_eq_false_iff] at h ⊢
  exact fun entry hentry => h entry (mem_erase hentry).1

theorem replace_eq_insertIdx (hm : m.keys.Nodup) (hold : m.has old)
    (hnew : (m.erase old).has new = false) :
    m.replace old new value = (m.erase old).insertIdx (m.keys.idxOf old) (new, value) := by
  obtain ⟨front, x, back, hsplit⟩ := exists_sides hold
  have hindex : m.keys.idxOf old = front.length := by
    have hfront : old ∉ front.keys := by simp [mem_keys_iff_has, sides_absent hm hsplit]
    rw [hsplit, keys_append, List.idxOf_append_of_notMem hfront]
    simp [keys]
  rw [replace_sides hm hsplit hnew, hindex, erase_sides hm hsplit]
  exact (List.modifyTailIdx_add (List.cons (new, value)) 0 front back).symm

/-! ## Merging -/

/-- An entry has the place of the first name that is there, among its own name and then the parts,
or else the end. The parts are left out on both sides. -/
structure IsSeated (m : Entries α) (parts : List String) (name : String) (value : α)
    (r : Entries α) : Prop where
  in_place : ∀ (anchor : String) (front : Entries α) (x : α) (back : Entries α),
    (name :: parts).find? m.has = some anchor → m = front ++ (anchor, x) :: back →
    r = front.without parts ++ (name, value) :: back.without parts
  at_end : (name :: parts).find? m.has = none → r = m ++ [(name, value)]

/-- What is left when the entries of some names, the parts, are merged into that of another name. -/
structure IsMerged (m : Entries α) (parts : List String) (name : String) (value : α)
    (r : Entries α) : Prop extends IsSeated m parts name value r where
  nodup : r.keys.Nodup
  get?_name : r.get? name = some value
  parts_gone : ∀ part ∈ parts, r.has part = false
  /-- All other entries are the same, in the same order. -/
  others : r.without (name :: parts) = m.without (name :: parts)

theorem IsSeated.exists_others (h : m.IsSeated parts name value r) (hm : m.keys.Nodup) :
    ∃ front back : Entries α, r = front ++ (name, value) :: back ∧
      front ++ back = m.without (name :: parts) := by
  cases hfind : (name :: parts).find? m.has with
  | none =>
    refine ⟨m, [], h.at_end hfind, ?_⟩
    rw [List.append_nil, without_absent]
    simpa using hfind
  | some anchor =>
    obtain ⟨front, x, back, hsplit⟩ := exists_sides (List.find?_some hfind)
    have hname : front.has name = false ∧ back.has name = false := by
      by_cases hhas : m.has name = true
      · rw [List.find?_cons_of_pos hhas] at hfind
        cases hfind
        exact sides_absent hm hsplit
      · rw [hsplit, has_append, has_cons] at hhas
        simp only [Bool.or_eq_true, not_or, Bool.not_eq_true] at hhas
        exact ⟨hhas.1, hhas.2.2⟩
    refine ⟨_, _, h.in_place anchor front x back hfind hsplit, ?_⟩
    rw [hsplit, without_append, without_cons_of_mem (List.mem_of_find?_eq_some hfind),
      without_cons_of_absent hname.1, without_cons_of_absent hname.2]

theorem IsSeated.isMerged (h : m.IsSeated parts name value r) (hm : m.keys.Nodup)
    (hname : name ∉ parts) : m.IsMerged parts name value r := by
  obtain ⟨front, back, hr, hothers⟩ := h.exists_others hm
  have habsent : ∀ n ∈ name :: parts, (front ++ back).has n = false := by
    intro n hn
    rw [hothers, has_without hn]
  refine ⟨h, ?_, ?_, ?_, ?_⟩
  · have hkeys : r.keys = front.keys ++ name :: back.keys := by
      rw [hr, keys_append]
      rfl
    rw [hkeys, List.nodup_middle, List.nodup_cons, ← keys_append, mem_keys_iff_has,
      habsent name List.mem_cons_self, hothers]
    exact ⟨Bool.false_ne_true, nodup_keys_without hm⟩
  · have hfront := habsent name List.mem_cons_self
    rw [has_append, Bool.or_eq_false_iff] at hfront
    rw [hr, get?_append, get?_eq_none hfront.1, Option.none_or, get?_cons, if_pos rfl]
  · intro part hpart
    have hne : name ≠ part := fun heq => hname (heq ▸ hpart)
    rw [hr, has_append, has_cons, decide_eq_false hne, Bool.false_or, ← has_append]
    exact habsent part (List.mem_cons_of_mem _ hpart)
  · rw [hr, without_append, without_cons_of_mem List.mem_cons_self, ← without_append, hothers,
      without_without]

theorem isMerged_set (hm : m.keys.Nodup) (name : String) (value : α) :
    m.IsMerged [] name value (m.set name value) := by
  refine IsSeated.isMerged ⟨fun anchor front x back hfind hsplit => ?_, fun hfind => ?_⟩ hm
    List.not_mem_nil
  · obtain rfl := List.mem_singleton.1 (List.mem_of_find?_eq_some hfind)
    rw [set_sides hm hsplit, without_nil, without_nil]
  · exact set_absent (by simpa using hfind)

theorem isMerged_replace (hm : m.keys.Nodup) (hne : old ≠ new) (value : α) :
    m.IsMerged [old] new value (m.replace old new value) := by
  have hnotMem : new ∉ [old] := by simpa using hne.symm
  refine IsSeated.isMerged ⟨fun anchor front x back hfind hsplit => ?_, fun hfind => ?_⟩ hm hnotMem
  · by_cases hnew : m.has new = true
    · rw [List.find?_cons_of_pos hnew] at hfind
      cases hfind
      have hkept : m.erase old = front.without [old] ++ (new, x) :: back.without [old] := by
        rw [erase_eq_without, hsplit, without_sides hnotMem]
      rw [replace_eq_set (.inr (has_erase_of_ne hne.symm hnew)),
        set_sides (nodup_keys_erase hm) hkept]
    · rw [List.find?_cons_of_neg hnew] at hfind
      obtain rfl := List.mem_singleton.1 (List.mem_of_find?_eq_some hfind)
      obtain ⟨hfront, hback⟩ := sides_absent hm hsplit
      rw [replace_sides hm hsplit (has_erase_absent (by simpa using hnew)),
        without_singleton_absent hfront, without_singleton_absent hback]
  · obtain ⟨hnew, hold⟩ : m.has new = false ∧ m.has old = false := by simpa using hfind
    rw [replace_eq_set (.inl hold), erase_absent hold, set_absent hnew]

theorem replace_self (m : Entries α) (name : String) (value : α) :
    m.replace name name value = m.set name value := by
  by_cases h : m.has name = true
  · simp [replace, set, h, has_erase_self]
  · have hname : m.has name = false := by simpa using h
    rw [replace_eq_set (.inl hname), erase_absent hname]

def merge (m : Entries α) (parts : List String) (name : String) (value : α) : Entries α :=
  match (name :: parts).find? m.has with
  | some anchor => (m.replace anchor name value).without parts
  | none => (m.set name value).without parts

theorem isMerged_merge (hm : m.keys.Nodup) (hname : name ∉ parts) (value : α) :
    m.IsMerged parts name value (m.merge parts name value) := by
  refine IsSeated.isMerged ⟨fun anchor front x back hfind hsplit => ?_, fun hfind => ?_⟩ hm hname
  · -- Apart from the entry whose place is taken, none has the name.
    have hother : (m.erase anchor).has name = false := by
      by_cases hhas : m.has name = true
      · rw [List.find?_cons_of_pos hhas] at hfind
        cases hfind
        exact has_erase_self m name
      · exact has_erase_absent (by simpa using hhas)
    rw [merge, hfind]
    dsimp only
    rw [replace_sides hm hsplit hother, without_sides hname]
  · have habsent : ∀ n ∈ name :: parts, m.has n = false := by simpa using hfind
    rw [merge, hfind]
    dsimp only
    rw [set_absent (habsent name List.mem_cons_self), without_sides hname,
      without_absent fun n hn => habsent n (List.mem_cons_of_mem _ hn)]
    rfl

end VueToSan.Entries

namespace VueToSan.Transform

open VueToSan.Markup

/-! ## Attributes of an element -/

theorem removeAttrs_eq (names : List String) (h : Head) :
    names.foldl (·.removeAttr ·) h = { h with attrs := h.attrs.without names } := by
  induction names generalizing h with
  | nil => rw [Entries.without_nil]; rfl
  | cons name names ih =>
    rw [List.foldl_cons, ih, ← Entries.erase_without]
    rfl

theorem mergeAttr_eq (h : Head) (name : String) (parts : List String) (value : String) :
    mergeAttr h name parts value = { h with attrs := h.attrs.merge parts name value } := by
  have hhas : h.hasAttr = h.attrs.has := rfl
  rw [mergeAttr, removeAttrs_eq, hhas, Entries.merge]
  by_cases hname : h.attrs.has name = true
  · rw [if_pos hname, List.find?_cons_of_pos hname]
    simp only [Entries.replace_self, Head.setAttr]
  · rw [if_neg hname, List.find?_cons_of_neg hname]
    cases parts.find? h.attrs.has <;> rfl

/-- Replacing and merging change the attributes of an element only, which keep distinct names. The
new name has the value, and the names that it replaces are gone. It stands in its own place if it
was there, or else in that of the first name that it replaces and that was there, or else at the
end. A name that takes the place of another one stands at the index that the other one had. All
other attributes keep their values and their order. -/
theorem attrs_merged {h : Head} (hkeys : h.attrs.keys.Nodup) (value : String) :
    (∀ old new, old ≠ new → ∃ attrs, h.replaceAttr old new value = { h with attrs } ∧
      h.attrs.IsMerged [old] new value attrs) ∧
    (∀ name, ∃ attrs, h.replaceAttr name name value = { h with attrs } ∧
      h.attrs.IsMerged [] name value attrs) ∧
    (∀ old new, h.attrs.has old → (h.attrs.erase old).has new = false →
      (h.replaceAttr old new value).attrs =
        (h.attrs.erase old).insertIdx (h.attrs.keys.idxOf old) (new, value)) ∧
    ∀ name parts, name ∉ parts → ∃ attrs, mergeAttr h name parts value = { h with attrs } ∧
      h.attrs.IsMerged parts name value attrs := by
  refine ⟨fun old new hne => ⟨_, rfl, ?_⟩, fun name => ⟨_, rfl, ?_⟩, fun old new hold hnew => ?_,
    fun name parts hname => ⟨_, mergeAttr_eq h name parts value, ?_⟩⟩
  · exact Entries.isMerged_replace hkeys hne value
  · rw [Entries.replace_self]
    exact Entries.isMerged_set hkeys name value
  · exact Entries.replace_eq_insertIdx hkeys hold hnew
  · exact Entries.isMerged_merge hkeys hname value

def sampleClasses : Head where
  tag := "p"
  attrs := [("v-bind:class", "a"), ("id", "x"), (":class", "b"), ("title", "t")]

/-- A name that is there already stays behind what is kept in front of it; one that is not there
takes an index over. A class takes the place of `:class`, the first one to be asked for, though
`v-bind:class` stands in front of it. -/
theorem sampleClasses_merged :
    sampleClasses.attrs.keys.Nodup ∧
      (sampleClasses.replaceAttr "v-bind:class" "title" "c").attrs =
        [("id", "x"), (":class", "b"), ("title", "c")] ∧
      (sampleClasses.replaceAttr "id" "id" "c").attrs =
        [("v-bind:class", "a"), ("id", "c"), (":class", "b"), ("title", "t")] ∧
      (sampleClasses.replaceAttr ":class" "class" "c").attrs =
        [("v-bind:class", "a"), ("id", "x"), ("class", "c"), ("title", "t")] ∧
      (mergeAttr sampleClasses "class" classParts "c").attrs =
        [("id", "x"), ("class", "c"), ("title", "t")] := by
  have hkeys : sampleClasses.attrs.keys.Nodup := by decide
  obtain ⟨hreplace, hsame, hindex, hmerge⟩ := attrs_merged hkeys "c"
  obtain ⟨_, htitle, hmoved⟩ := hreplace "v-bind:class" "title" (by decide)
  obtain ⟨_, hid, hkept⟩ := hsame "id"
  obtain ⟨_, hclass, hmerged⟩ := hmerge "class" classParts (by decide)
  refine ⟨hkeys, ?_, ?_, ?_, ?_⟩
  · rw [htitle]
    exact hmoved.in_place "title" [("v-bind:class", "a"), ("id", "x"), (":class", "b")] "t" []
      (by decide) rfl
  · rw [hid]
    exact hkept.in_place "id" [("v-bind:class", "a")] "x" [(":class", "b"), ("title", "t")]
      (by decide) rfl
  · exact hindex ":class" "class" (by decide) (by decide)
  · rw [hclass]
    exact hmerged.in_place ":class" [("v-bind:class", "a"), ("id", "x")] "b" [("title", "t")]
      (by decide) rfl

end VueToSan.Transform
