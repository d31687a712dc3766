import VueToSan.Proofs.ScannedTokens

/-!
# Tokens of a part of a source

A part of a source that starts where a token starts and stops where a token stops is cut into the
tokens between.
-/

namespace VueToSan.Expr

open VueToSan.Text

inductive Lexed : Nat → List Char → List Lexeme → Prop where
  | nil {pos : Nat} : Lexed pos [] []
  | space {pos : Nat} {c : Char} {cs : List Char} {ts : List Lexeme} :
      isSeparator c = true → Lexed (pos + c.utf8Size) cs ts → Lexed pos (c :: cs) ts
  | token {pos : Nat} {c : Char} {body rest : List Char} {t : Token} {ts : List Lexeme} :
      isSeparator c = false → Scans c body rest t → Lexed (pos + byteLength (c :: body)) rest ts →
      Lexed pos (c :: (body ++ rest)) (⟨t, ⟨pos, pos + byteLength (c :: body)⟩⟩ :: ts)

theorem Scans.cut {c : Char} {body rest front : List Char} {t : Token} (h : Scans c body rest t)
    (hfront : front <+: rest) : Scans c body front t where
  scan shorter hshorter := h.scan shorter (hshorter.trans hfront)
  last := h.last
  weight := h.weight

variable {pos : Nat} {cs : List Char} {ts us : List Lexeme}

theorem lexed_of_tokenizeFrom {skip : Nat} (h : tokenizeFrom pos skip cs = .ok ts)
    (hskip : skip ≤ cs.length) : Lexed (pos + byteLength (cs.take skip)) (cs.drop skip) ts := by
  fun_induction tokenizeFrom pos skip cs generalizing ts with
  | case1 pos skip =>
    obtain rfl := Except.ok.inj h
    rw [List.drop_nil]
    exact .nil
  | case2 pos skip c cs ih =>
    rw [List.take_succ_cons, List.drop_succ_cons, byteLength_cons, ← Nat.add_assoc]
    exact ih h (Nat.le_of_succ_le_succ hskip)
  | case3 pos c cs hsep ih => exact .space hsep (ih h (Nat.zero_le _))
  | case4 pos c cs hsep t more hscan ih =>
    obtain ⟨rest, hrest, hts⟩ := bind_eq_ok.1 h
    obtain rfl := Except.ok.inj hts
    obtain ⟨body, behind, rfl, rfl, hscans⟩ := scans_of_scan hscan
    have hbehind := ih hrest (by simp)
    rw [List.take_left, List.drop_left, Nat.add_assoc, ← byteLength_cons] at hbehind
    rw [List.take_left]
    exact .token (by simpa using hsep) hscans hbehind
  | case5 => cases h
  | case6 => cases h

theorem Lexed.tokenizeFrom (h : Lexed pos cs ts) : tokenizeFrom pos 0 cs = .ok ts := by
  induction h with
  | nil => rfl
  | space hsep _ ih =>
    rw [Expr.tokenizeFrom, if_pos hsep]
    exact ih
  | @token pos c body rest t ts hsep hscans _ ih =>
    have hscan := hscans.scan rest List.prefix_rfl
    rw [Expr.tokenizeFrom, if_neg (by simp [hsep])]
    simp only [hscan, tokenizeFrom_skip, List.take_left]
    rw [byteLength_cons, ← Nat.add_assoc] at ih
    rw [ih, byteLength_cons]
    rfl

theorem tokenizeFrom_eq_ok : tokenizeFrom pos 0 cs = .ok ts ↔ Lexed pos cs ts :=
  ⟨fun h => lexed_of_tokenizeFrom h (Nat.zero_le _), Lexed.tokenizeFrom⟩

namespace Lexed

theorem shift (h : Lexed pos cs ts) (start : Nat) :
    ∃ us : List Lexeme, us.map (·.token) = ts.map (·.token) ∧ Lexed start cs us := by
  induction h generalizing start with
  | nil => exact ⟨[], rfl, .nil⟩
  | space hsep _ ih =>
    obtain ⟨us, hus, hlexed⟩ := ih (start + _)
    exact ⟨us, hus, .space hsep hlexed⟩
  | token hsep hscans _ ih =>
    obtain ⟨us, hus, hlexed⟩ := ih (start + _)
    exact ⟨_ :: us, by rw [List.map_cons, List.map_cons, hus], .token hsep hscans hlexed⟩

/-! ## Cuts -/

theorem front {u : Lexeme} (h : Lexed pos cs (ts ++ u :: us)) :
    ∃ before behind, cs = before ++ behind ∧ u.span.start = pos + byteLength before ∧
      Lexed pos before ts ∧ Lexed u.span.start behind (u :: us) := by
  generalize hall : ts ++ u :: us = all at h
  induction h generalizing ts with
  | nil => simp at hall
  | @space pos c cs all hsep hlexed ih =>
    obtain ⟨before, behind, rfl, hstart, hbefore, hbehind⟩ := ih hall
    refine ⟨c :: before, behind, rfl, ?_, .space hsep hbefore, hbehind⟩
    rw [hstart, byteLength_cons, Nat.add_assoc]
  | @token pos c body rest t all hsep hscans hlexed ih =>
    cases ts with
    | nil =>
      obtain ⟨rfl, rfl⟩ := List.cons.inj hall
      exact ⟨[], c :: (body ++ rest), rfl, rfl, .nil, .token hsep hscans hlexed⟩
    | cons v ts =>
      obtain ⟨rfl, htail⟩ := List.cons.inj hall
      obtain ⟨before, behind, rfl, hstart, hbefore, hbehind⟩ := ih htail
      have hcut := hscans.cut (List.prefix_append before behind)
      refine ⟨c :: (body ++ before), behind, by simp, ?_, .token hsep hcut hbefore, hbehind⟩
      rw [hstart]
      simp only [byteLength_cons, byteLength_append]
      omega

theorem back {t : Lexeme} (h : Lexed pos cs (ts ++ t :: us)) :
    ∃ text behind, cs = text ++ behind ∧ t.span.stop = pos + byteLength text ∧
      Lexed pos text (ts ++ [t]) := by
  generalize hall : ts ++ t :: us = all at h
  induction h generalizing ts with
  | nil => simp at hall
  | @space pos c cs all hsep hlexed ih =>
    obtain ⟨text, behind, rfl, hstop, htext⟩ := ih hall
    refine ⟨c :: text, behind, rfl, ?_, .space hsep htext⟩
    rw [hstop, byteLength_cons, Nat.add_assoc]
  | @token pos c body rest u all hsep hscans hlexed ih =>
    cases ts with
    | nil =>
      obtain ⟨rfl, rfl⟩ := List.cons.inj hall
      have hend : Lexed (pos + byteLength (c :: body)) [] [] := .nil
      have htext := Lexed.token hsep (hscans.cut List.nil_prefix) hend
      rw [List.append_nil] at htext
      exact ⟨c :: body, rest, rfl, rfl, htext⟩
    | cons v ts =>
      obtain ⟨rfl, htail⟩ := List.cons.inj hall
      obtain ⟨text, behind, rfl, hstop, htext⟩ := ih htail
      have hcut := hscans.cut (List.prefix_append text behind)
      refine ⟨c :: (body ++ text), behind, by simp, ?_, .token hsep hcut htext⟩
      rw [hstop]
      simp only [byteLength_cons, byteLength_append]
      omega

/-! ## Blanks at the edges -/

theorem trimStart (h : Lexed pos cs ts) : ∃ start, Lexed start (trimStart cs) ts := by
  induction h with
  | nil => exact ⟨0, .nil⟩
  | @space pos c cs ts hsep hlexed ih =>
    by_cases hblank : isBlank c = true
    · rw [Text.trimStart, List.dropWhile_cons_of_pos hblank]
      exact ih
    · rw [Text.trimStart, List.dropWhile_cons_of_neg hblank]
      exact ⟨pos, .space hsep hlexed⟩
  | @token pos c body rest t ts hsep hscans hlexed ih =>
    have hvisible := isBlank_of_visible (visible_of_scan (hscans.scan rest List.prefix_rfl))
    rw [Text.trimStart, List.dropWhile_cons_of_neg (by simp [hvisible])]
    exact ⟨pos, .token hsep hscans hlexed⟩

theorem of_blanks {text blanks : List Char} (h : Lexed pos (text ++ blanks) ts)
    (hblanks : ∀ c ∈ blanks, isBlank c = true) : Lexed pos text ts := by
  generalize hall : text ++ blanks = all at h
  cases text with
  | nil =>
    obtain rfl : blanks = all := hall
    obtain rfl := tokenizeFrom_blank hblanks h.tokenizeFrom
    exact .nil
  | cons d text =>
    induction h generalizing d text with
    | nil => cases hall
    | @space pos c cs ts hsep hlexed ih =>
      obtain ⟨rfl, rfl⟩ := List.cons.inj hall
      cases text with
      | nil =>
        obtain rfl := tokenizeFrom_blank hblanks hlexed.tokenizeFrom
        exact .space hsep .nil
      | cons e text => exact .space hsep (ih e text rfl)
    | @token pos c body rest t ts hsep hscans hlexed ih =>
      obtain ⟨rfl, hcut⟩ := List.cons.inj hall
      rcases List.append_eq_append_iff.1 hcut with ⟨more, hbody, hmore⟩ | ⟨more, htext, hmore⟩
      · -- The blanks do not reach into the token, whose last character is visible.
        cases more with
        | nil =>
          rw [List.append_nil] at hbody
          subst hbody hmore
          obtain rfl := tokenizeFrom_blank hblanks hlexed.tokenizeFrom
          have hend : Lexed (pos + byteLength (d :: body)) [] [] := .nil
          have htoken := Lexed.token hsep (hscans.cut List.nil_prefix) hend
          rwa [List.append_nil] at htoken
        | cons e more =>
          subst hbody hmore
          have hlast := hscans.last
          rw [← List.cons_append, List.getLast?_append_of_ne_nil _ (List.cons_ne_nil e more)]
            at hlast
          have hmem := List.getLast_mem (List.cons_ne_nil e more)
          have hvisible := hlast _ (List.getLast?_eq_some_getLast (List.cons_ne_nil e more))
          rw [hblanks _ (List.mem_append_left rest hmem)] at hvisible
          cases hvisible
      · subst htext hmore
        cases more with
        | nil =>
          obtain rfl := tokenizeFrom_blank hblanks hlexed.tokenizeFrom
          exact .token hsep (hscans.cut List.nil_prefix) .nil
        | cons e more =>
          exact .token hsep (hscans.cut (List.prefix_append _ blanks)) (ih e more rfl)

theorem trim (h : Lexed pos cs ts) : ∃ start, Lexed start (trim cs) ts := by
  obtain ⟨start, hlexed⟩ := h.trimStart
  have hsplit : Text.trim cs ++ ((Text.trimStart cs).reverse.takeWhile isBlank).reverse =
      Text.trimStart cs := by
    rw [Text.trim, trimEnd, dropEndWhile, ← List.reverse_append, List.takeWhile_append_dropWhile,
      List.reverse_reverse]
  rw [← hsplit] at hlexed
  exact ⟨start, hlexed.of_blanks fun c hc => of_mem_takeWhile c (List.mem_reverse.1 hc)⟩

end Lexed

/-! ## Sizes and spans -/

def textWeight (ts : List Lexeme) : Nat := (ts.map (·.token.weight)).sum

theorem Lexed.textWeight_le (h : Lexed pos cs ts) : textWeight ts ≤ cs.length := by
  induction h with
  | nil => exact Nat.le_refl 0
  | space _ _ ih => exact Nat.le_succ_of_le ih
  | token _ hscans _ ih =>
    have hweight := hscans.weight
    simp only [textWeight, List.map_cons, List.sum_cons, List.length_cons, List.length_append]
      at ih ⊢
    omega

/-- The spans of tokens follow each other up to an offset. -/
structure InOrder (stop : Nat) (ts : List Lexeme) : Prop where
  spans : ∀ t ∈ ts, t.span.start ≤ t.span.stop ∧ t.span.stop ≤ stop
  order : ts.Pairwise fun t u => t.span.stop ≤ u.span.start

theorem InOrder.sublist {stop : Nat} (h : InOrder stop ts) (hus : us.Sublist ts) :
    InOrder stop us where
  spans t ht := h.spans t (hus.subset ht)
  order := h.order.sublist hus

theorem InOrder.front {stop : Nat} (h : InOrder stop (ts ++ us)) : InOrder stop ts :=
  h.sublist (List.sublist_append_left ts us)

theorem InOrder.back {stop : Nat} (h : InOrder stop (ts ++ us)) : InOrder stop us :=
  h.sublist (List.sublist_append_right ts us)

theorem InOrder.tail {stop : Nat} {t : Lexeme} (h : InOrder stop (t :: ts)) : InOrder stop ts :=
  h.sublist (List.sublist_cons_self t ts)

theorem Lexed.start_le (h : Lexed pos cs ts) : ∀ t ∈ ts, pos ≤ t.span.start := by
  induction h with
  | nil => exact List.forall_mem_nil _
  | space _ _ ih => exact fun t ht => Nat.le_trans (Nat.le_add_right _ _) (ih t ht)
  | token _ _ _ ih =>
    exact List.forall_mem_cons.2
      ⟨Nat.le_refl _, fun t ht => Nat.le_trans (Nat.le_add_right _ _) (ih t ht)⟩

theorem Lexed.inOrder (h : Lexed pos cs ts) : InOrder (pos + byteLength cs) ts := by
  induction h with
  | nil => exact ⟨List.forall_mem_nil _, .nil⟩
  | space _ _ ih =>
    rw [byteLength_cons, ← Nat.add_assoc]
    exact ih
  | token _ _ hlexed ih =>
    refine ⟨List.forall_mem_cons.2 ⟨?_, ?_⟩, List.pairwise_cons.2 ⟨hlexed.start_le, ih.order⟩⟩
    · simp only [byteLength_cons, byteLength_append]
      omega
    · intro t ht
      have hspan := ih.spans t ht
      simp only [byteLength_cons, byteLength_append] at hspan ⊢
      omega

def cover (ts : List Lexeme) : Span :=
  ⟨(ts.head?.map (·.span.start)).getD 0, (ts.getLast?.map (·.span.stop)).getD 0⟩

/-- The part of a source under some of its tokens is cut into these tokens, and the part in front of
it into those before them. -/
theorem Lexed.parts {source : String} {pre core post : List Lexeme}
    (h : Lexed 0 source.toList (pre ++ (core ++ post))) (hcore : core ≠ []) :
    ∃ front text rest start, source.toList = front ++ (text ++ rest) ∧ Lexed 0 front pre ∧
      Lexed start text core ∧ (cover core).slice source = String.ofList text := by
  obtain ⟨ts, t, hlast⟩ := (List.eq_nil_or_concat core).resolve_left hcore
  rw [List.concat_eq_append] at hlast
  obtain ⟨u, us, hfirst⟩ := List.exists_cons_of_ne_nil hcore
  have hsplit : Lexed 0 source.toList (pre ++ u :: (us ++ post)) := by
    rw [← List.cons_append, ← hfirst]
    exact h
  obtain ⟨front, behind, hsource, hstart, hfront, hbehind⟩ := hsplit.front
  have hback : Lexed u.span.start behind (ts ++ t :: post) := by
    rw [← List.singleton_append, ← List.append_assoc, ← hlast, hfirst]
    exact hbehind
  obtain ⟨text, rest, rfl, hstop, htext⟩ := hback.back
  have hcover : cover core = ⟨byteLength front, byteLength front + byteLength text⟩ := by
    rw [Nat.zero_add] at hstart
    have hhead : core.head? = some u := by rw [hfirst, List.head?_cons]
    have hend : core.getLast? = some t := by rw [hlast, List.getLast?_concat]
    simp only [cover, hhead, hend, Option.map_some, Option.getD_some, hstop, hstart]
  refine ⟨front, text, rest, u.span.start, hsource, hfront, hlast ▸ htext, ?_⟩
  rw [Span.slice, hcover, hsource, sliceBytes?_append, Option.getD_some]

theorem Lexed.slice {source : String} {pre core post : List Lexeme}
    (h : Lexed 0 source.toList (pre ++ (core ++ post))) (hcore : core ≠ []) :
    ∃ start, Lexed start ((cover core).slice source).toList core := by
  obtain ⟨-, text, -, start, -, -, htext, hslice⟩ := h.parts hcore
  refine ⟨start, ?_⟩
  rw [hslice, String.toList_ofList]
  exact htext

end VueToSan.Expr
