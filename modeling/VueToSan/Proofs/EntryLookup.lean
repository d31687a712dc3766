import VueToSan.Data.Entries
import Mathlib.Data.List.Nodup

/-!
# Looking up entries

What a name is bound to after entries were set, erased and replaced.
-/

namespace VueToSan.Entries

variable {α : Type} {m : Entries α} {name other old new : String} {value : α}

@[simp] theorem get?_nil : get? ([] : Entries α) name = none := rfl

theorem get?_cons (entry : String × α) (m : Entries α) (name : String) :
    get? (entry :: m) name = if entry.1 = name then some entry.2 else get? m name := by
  obtain ⟨key, value⟩ := entry
  rw [get?, List.lookup_cons]
  by_cases h : key = name
  · rw [if_pos h, h, beq_self_eq_true]
  · rw [if_neg h, beq_false_of_ne (Ne.symm h)]
    rfl

theorem has_cons (entry : String × α) (m : Entries α) (name : String) :
    has (entry :: m) name = (decide (entry.1 = name) || has m name) := rfl

theorem has_eq_isSome (m : Entries α) (name : String) : m.has name = (m.get? name).isSome := by
  induction m with
  | nil => rfl
  | cons entry m ih =>
    rw [has_cons, get?_cons, ih]
    by_cases h : entry.1 = name <;> simp [h]

theorem get?_eq_none (h : m.has name = false) : m.get? name = none := by
  rw [has_eq_isSome] at h
  simpa using h

theorem get?_append (m m' : Entries α) (name : String) :
    get? (m ++ m') name = (m.get? name).or (m'.get? name) := by
  induction m with
  | nil => rfl
  | cons entry m ih =>
    rw [List.cons_append, get?_cons, get?_cons, ih]
    split <;> rfl

/-! ## Erasing -/

theorem get?_erase (m : Entries α) (old name : String) :
    (m.erase old).get? name = if name = old then none else m.get? name := by
  induction m with
  | nil => simp [erase]
  | cons entry m ih =>
    rw [erase] at ih
    by_cases h : entry.1 = old
    · rw [erase, List.filter_cons_of_neg (by simp [h]), ih, get?_cons]
      split
      · rfl
      · rename_i hn
        rw [if_neg (fun e => hn (e.symm.trans h))]
    · rw [erase, List.filter_cons_of_pos (by simp [h]), get?_cons, get?_cons, ih]
      by_cases hn : entry.1 = name
      · rw [if_pos hn, if_pos hn, if_neg (fun e => h (hn.trans e))]
      · rw [if_neg hn, if_neg hn]

theorem has_erase_self (m : Entries α) (name : String) : (m.erase name).has name = false := by
  simp [has_eq_isSome, get?_erase]

/-! ## Putting an entry in the place of another -/

theorem swap_cons (entry : String × α) (m : Entries α) (old : String) (put : String × α) :
    swap (entry :: m) old put = (if entry.1 = old then put else entry) :: swap m old put := rfl

theorem get?_swap_of_ne {entry : String × α} (hold : name ≠ old) (hnew : name ≠ entry.1) :
    (m.swap old entry).get? name = m.get? name := by
  induction m with
  | nil => rfl
  | cons e m ih =>
    rw [swap_cons, get?_cons, get?_cons, ih]
    by_cases h : e.1 = old
    · rw [if_pos h, if_neg hnew.symm, if_neg (fun he => hold (he.symm.trans h))]
    · rw [if_neg h]

theorem get?_swap_self (hold : m.has old) (hnew : (m.erase old).has new = false) :
    (m.swap old (new, value)).get? new = some value := by
  induction m with
  | nil => cases hold
  | cons e m ih =>
    rw [swap_cons, get?_cons]
    by_cases h : e.1 = old
    · rw [if_pos h, if_pos rfl]
    · rw [erase, List.filter_cons_of_pos (by simp [h]), has_cons, Bool.or_eq_false_iff] at hnew
      rw [has_cons, decide_eq_false h, Bool.false_or] at hold
      rw [if_neg h, if_neg (of_decide_eq_false hnew.1)]
      exact ih hold hnew.2

/-! ## Setting -/

@[simp] theorem get?_set_self : (m.set name value).get? name = some value := by
  unfold set
  split
  · rename_i h
    exact get?_swap_self h (has_erase_self m name)
  · rename_i h
    rw [get?_append, get?_eq_none (by simpa using h), get?_cons, if_pos rfl]
    rfl

theorem get?_set_of_ne (h : other ≠ name) : (m.set name value).get? other = m.get? other := by
  unfold set
  split
  · exact get?_swap_of_ne h h
  · rw [get?_append, get?_cons, if_neg h.symm, get?_nil, Option.or_none]

theorem has_set (m : Entries α) (name other : String) (value : α) :
    (m.set name value).has other = (decide (other = name) || m.has other) := by
  rw [has_eq_isSome, has_eq_isSome]
  by_cases h : other = name
  · rw [h, get?_set_self]
    simp
  · rw [get?_set_of_ne h, decide_eq_false h, Bool.false_or]

/-! ## Replacing -/

@[simp] theorem get?_replace_self : (m.replace old new value).get? new = some value := by
  unfold replace
  split
  · rename_i h
    rw [Bool.and_eq_true, Bool.not_eq_true'] at h
    exact get?_swap_self h.1 h.2
  · exact get?_set_self

theorem get?_replace_of_ne (hold : name ≠ old) (hnew : name ≠ new) :
    (m.replace old new value).get? name = m.get? name := by
  unfold replace
  split
  · exact get?_swap_of_ne hold hnew
  · rw [get?_set_of_ne hnew, get?_erase, if_neg hold]

theorem get?_replace_old (hne : old ≠ new) : (m.replace old new value).get? old = none := by
  unfold replace
  split
  · -- Every entry of the old name is now one of the new name.
    rw [get?, List.lookup_eq_none_iff]
    intro entry hentry
    obtain ⟨e, -, rfl⟩ := List.mem_map.1 hentry
    split
    · simpa using hne
    · rename_i he
      simpa using Ne.symm he
  · rw [get?_set_of_ne hne, get?_erase, if_pos rfl]

theorem has_replace_self (m : Entries α) (old new : String) (value : α) :
    (m.replace old new value).has new = true := by
  rw [has_eq_isSome, get?_replace_self]
  rfl

theorem has_replace_of_ne (hold : name ≠ old) (h : m.has name) :
    (m.replace old new value).has name := by
  by_cases hnew : name = new
  · rw [hnew, has_replace_self]
  · rw [has_eq_isSome, get?_replace_of_ne hold hnew, ← has_eq_isSome, h]

theorem has_erase_of_ne (hold : name ≠ old) (h : m.has name) : (m.erase old).has name := by
  rw [has_eq_isSome, get?_erase, if_neg hold, ← has_eq_isSome, h]

theorem has_map_values (m : Entries α) (f : String × α → String × α)
    (hf : ∀ entry, (f entry).1 = entry.1) (name : String) :
    has (m.map f) name = m.has name := by
  induction m with
  | nil => rfl
  | cons entry m ih => rw [List.map_cons, has_cons, has_cons, hf, ih]

/-! ## Entries that are there -/

theorem mem_of_get? (h : m.get? name = some value) : (name, value) ∈ m := by
  induction m with
  | nil => cases h
  | cons entry m ih =>
    rw [get?_cons] at h
    split at h
    · rename_i hname
      obtain rfl := Option.some.inj h
      rw [← hname]
      exact List.mem_cons_self
    · exact List.mem_cons_of_mem _ (ih h)

theorem get?_eq_none_of_forall (h : ∀ entry ∈ m, entry.1 ≠ name) : m.get? name = none := by
  rw [← Option.not_isSome_iff_eq_none, Option.isSome_iff_exists]
  rintro ⟨value, hvalue⟩
  exact h _ (mem_of_get? hvalue) rfl

theorem mem_swap {entry new : String × α} (h : entry ∈ m.swap old new) :
    entry ∈ m ∧ entry.1 ≠ old ∨ entry = new := by
  obtain ⟨e, he, rfl⟩ := List.mem_map.1 h
  split
  · exact .inr rfl
  · rename_i hne
    exact .inl ⟨he, hne⟩

theorem mem_set {entry : String × α} (h : entry ∈ m.set new value) :
    entry ∈ m ∨ entry = (new, value) := by
  unfold set at h
  split at h
  · exact (mem_swap h).imp_left And.left
  · simpa using h

theorem mem_erase {entry : String × α} (h : entry ∈ m.erase old) : entry ∈ m ∧ entry.1 ≠ old := by
  simpa [erase] using h

theorem mem_replace {entry : String × α} (h : entry ∈ m.replace old new value) :
    entry ∈ m ∧ entry.1 ≠ old ∨ entry = (new, value) := by
  unfold replace at h
  split at h
  · exact mem_swap h
  · exact (mem_set h).imp_left mem_erase

theorem mem_ofList {entry : String × α} {entries : List (String × α)}
    (h : entry ∈ ofList entries) : entry ∈ entries := by
  have hfold : ∀ m : Entries α,
      entry ∈ entries.foldl (fun m e => m.set e.1 e.2) m → entry ∈ m ∨ entry ∈ entries := by
    clear h
    induction entries with
    | nil => exact fun m hm => .inl hm
    | cons e entries ih =>
      intro m hm
      rcases ih _ hm with hm | hm
      · rcases mem_set hm with hm | rfl
        · exact .inl hm
        · exact .inr List.mem_cons_self
      · exact .inr (List.mem_cons_of_mem _ hm)
  exact (hfold [] h).resolve_left List.not_mem_nil

/-! ## Distinct names -/

theorem mem_keys_iff_has : name ∈ m.keys ↔ m.has name = true := by
  simp [keys, has]

theorem nodup_keys_erase (h : m.keys.Nodup) : (m.erase old).keys.Nodup :=
  h.sublist (List.filter_sublist.map _)

theorem nodup_keys_swap {entry : String × α} (h : m.keys.Nodup)
    (hnew : (m.erase old).has entry.1 = false) : (m.swap old entry).keys.Nodup := by
  have hkeys : (m.swap old entry).keys = m.keys.map fun name => if name = old then entry.1 else name := by
    simp only [keys, swap, List.map_map]
    apply List.map_congr_left
    intro e _
    exact apply_ite Prod.fst ..
  -- The new name is no name of another entry.
  have hother : ∀ name ∈ m.keys, name ≠ old → name ≠ entry.1 := by
    rintro name hname hne rfl
    have hhas := has_erase_of_ne hne (mem_keys_iff_has.1 hname)
    rw [hnew] at hhas
    cases hhas
  rw [hkeys]
  refine h.map_on fun a ha b hb heq => ?_
  split at heq <;> split at heq
  · simp [*]
  · exact absurd heq.symm (hother b hb ‹_›)
  · exact absurd heq (hother a ha ‹_›)
  · exact heq

theorem nodup_keys_set (h : m.keys.Nodup) : (m.set name value).keys.Nodup := by
  unfold set
  split
  · exact nodup_keys_swap h (has_erase_self m name)
  · rename_i hnew
    have hkeys : (m ++ [(name, value)]).keys = m.keys ++ [name] := by simp [keys]
    rw [hkeys, ← List.concat_eq_append]
    exact h.concat (mt mem_keys_iff_has.1 hnew)

theorem nodup_keys_replace (h : m.keys.Nodup) : (m.replace old new value).keys.Nodup := by
  unfold replace
  split
  · rename_i hnew
    rw [Bool.and_eq_true, Bool.not_eq_true'] at hnew
    exact nodup_keys_swap h hnew.2
  · exact nodup_keys_set (nodup_keys_erase h)

theorem nodup_keys_ofList (entries : List (String × α)) : (ofList entries).keys.Nodup := by
  have hfold : ∀ m : Entries α, m.keys.Nodup →
      (entries.foldl (fun m e => m.set e.1 e.2) m).keys.Nodup := by
    induction entries with
    | nil => exact fun m hm => hm
    | cons e entries ih => exact fun m hm => ih _ (nodup_keys_set hm)
  exact hfold [] List.nodup_nil

end VueToSan.Entries
