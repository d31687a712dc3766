/-!
# Searching and replacing in texts
-/

namespace VueToSan.Text

def breakAt? (word : List Char) : List Char → Option (List Char × List Char)
  | [] => if word.isEmpty then some ([], []) else none
  | c :: cs =>
    if word.isPrefixOf (c :: cs) then some ([], c :: cs)
    else (breakAt? word cs).map fun (before, after) => (c :: before, after)

theorem breakAt?_eq_some {word cs before after : List Char}
    (h : breakAt? word cs = some (before, after)) : cs = before ++ after ∧ word <+: after := by
  induction cs generalizing before with
  | nil =>
    obtain ⟨hword, hnil⟩ := Option.ite_none_right_eq_some.1 h
    obtain ⟨rfl, rfl⟩ := Prod.mk.inj (Option.some.inj hnil)
    exact ⟨rfl, by simp [List.isEmpty_iff.1 hword]⟩
  | cons c cs ih =>
    unfold breakAt? at h
    split at h
    · rename_i hword
      obtain ⟨rfl, rfl⟩ := Prod.mk.inj (Option.some.inj h)
      exact ⟨rfl, List.isPrefixOf_iff_prefix.1 hword⟩
    · obtain ⟨⟨inner, rest⟩, hinner, hmap⟩ := Option.map_eq_some_iff.1 h
      obtain ⟨rfl, rfl⟩ := Prod.mk.inj hmap
      obtain ⟨rfl, hword⟩ := ih hinner
      exact ⟨rfl, hword⟩

/-- Replaces the occurrences of a word from left to right. `skip` counts the characters that belong
to an occurrence found before. -/
def replaceFrom (word new : List Char) : Nat → List Char → List Char
  | _, [] => []
  | skip + 1, _ :: cs => replaceFrom word new skip cs
  | 0, c :: cs =>
    if word.isPrefixOf (c :: cs) then new ++ replaceFrom word new (word.length - 1) cs
    else c :: replaceFrom word new 0 cs

/-- Replaces every occurrence of a non-empty word; occurrences do not overlap, and what is put in
is not searched again. -/
def replace (word new cs : List Char) : List Char :=
  replaceFrom word new 0 cs

def splitOn (sep : Char) : List Char → List (List Char)
  | [] => [[]]
  | c :: cs =>
    if c = sep then [] :: splitOn sep cs
    else match splitOn sep cs with
      | [] => [[c]]
      | piece :: pieces => (c :: piece) :: pieces

def stripStart? (word cs : List Char) : Option (List Char) :=
  if word.isPrefixOf cs then some (cs.drop word.length) else none

def joinWith (sep : String) : List String → String
  | [] => ""
  | [s] => s
  | s :: t :: rest => s ++ sep ++ joinWith sep (t :: rest)

def repeated (n : Nat) (s : String) : String :=
  String.join (List.replicate n s)

end VueToSan.Text
