import VueToSan.Proofs.Written

/-!
# Open brackets

Brackets are counted along a token list. A list is closed if every bracket in it closes one that it
opens and none stays open; where bars send an expression through filters, no bar may stand outside
of the brackets. The tokens of an expression are closed.
-/

namespace VueToSan.Expr

/-- How many brackets are open behind a token. -/
def Token.depth? (nested : Bool) (depth : Nat) : Token → Option Nat
  | .punct .lparen | .punct .lbracket | .punct .lbrace => some (depth + 1)
  | .punct .rparen | .punct .rbracket | .punct .rbrace =>
    if depth = 0 then none else some (depth - 1)
  | .punct .pipe => if nested || depth != 0 then some depth else none
  | _ => some depth

def depth? (nested : Bool) : (depth : Nat) → List Token → Option Nat
  | depth, [] => some depth
  | depth, t :: ts => (t.depth? nested depth).bind (depth? nested · ts)

theorem depth?_append (nested : Bool) (depth : Nat) (ts us : List Token) :
    depth? nested depth (ts ++ us) = (depth? nested depth ts).bind (depth? nested · us) := by
  induction ts generalizing depth with
  | nil => rfl
  | cons t ts ih =>
    rw [List.cons_append, depth?, depth?, Option.bind_assoc]
    congr 1
    funext d
    exact ih d

variable {nested flag : Bool} {d j k : Nat} {t : Token} {ts : List Token}

theorem Token.depth?_shift (h : t.depth? flag d = some j)
    (hk : nested = flag ∨ nested = true ∨ 0 < k) : t.depth? nested (d + k) = some (j + k) := by
  unfold Token.depth? at h ⊢
  split at h
  case h_7 =>
    rw [Option.ite_none_right_eq_some, Option.some.injEq, Bool.or_eq_true, bne_iff_ne] at h
    obtain ⟨hbar, rfl⟩ := h
    rw [if_pos]
    rw [Bool.or_eq_true, bne_iff_ne]
    rcases hk with rfl | rfl | hk
    · exact hbar.imp_right fun hd => by omega
    · exact .inl rfl
    · exact .inr (by omega)
  all_goals
    simp only [Option.ite_none_left_eq_some, Option.some.injEq] at h ⊢
    omega

theorem depth?_shift (h : depth? flag d ts = some j) (hk : nested = flag ∨ nested = true ∨ 0 < k) :
    depth? nested (d + k) ts = some (j + k) := by
  induction ts generalizing d with
  | nil =>
    obtain rfl := Option.some.inj h
    rfl
  | cons t ts ih =>
    obtain ⟨i, hi, hrest⟩ := Option.bind_eq_some_iff.1 h
    rw [depth?, Token.depth?_shift hi hk, Option.bind_some, ih hrest]

/-! ## Closed lists -/

def Closed (nested : Bool) (ts : List Lexeme) : Prop :=
  depth? nested 0 (ts.map (·.token)) = some 0

instance (nested : Bool) (ts : List Lexeme) : Decidable (Closed nested ts) :=
  inferInstanceAs (Decidable (_ = _))

namespace Closed

variable {ts us : List Lexeme}

theorem nil (nested : Bool) : Closed nested [] := rfl

theorem append (hts : Closed nested ts) (hus : Closed nested us) : Closed nested (ts ++ us) := by
  rw [Closed, List.map_append, depth?_append, hts, Option.bind_some]
  exact hus

theorem token {t : Lexeme} (h : t.token.depth? nested 0 = some 0) : Closed nested [t] := by
  rw [Closed, List.map_singleton, depth?, h]
  rfl

theorem head {t : Lexeme} (h : Closed nested [t]) : t.token.depth? nested 0 = some 0 := by
  obtain ⟨i, hi, hrest⟩ := Option.bind_eq_some_iff.1 h
  rw [hi]
  exact hrest

theorem cons {t : Lexeme} (h : t.token.depth? nested 0 = some 0) (hts : Closed nested ts) :
    Closed nested (t :: ts) := (token h).append hts

theorem of_map (h : Closed nested ts) (heq : us.map (·.token) = ts.map (·.token)) :
    Closed nested us := by
  rw [Closed, heq]
  exact h

theorem enclosed {o c : Lexeme} (ho : o.token.depth? nested 0 = some 1)
    (hc : c.token.depth? nested 1 = some 0) (hts : Closed true ts) :
    Closed nested (o :: (ts ++ [c])) := by
  have hinner : depth? nested (0 + 1) (ts.map (·.token)) = some (0 + 1) :=
    depth?_shift hts (.inr (.inr Nat.one_pos))
  rw [Closed, List.map_cons, depth?, ho, Option.bind_some, List.map_append, depth?_append, hinner,
    Option.bind_some, List.map_singleton, depth?, hc]
  rfl

theorem inside (h : Closed nested ts) : Closed true ts :=
  depth?_shift (k := 0) h (.inr (.inl rfl))

theorem cut (h : Closed flag (ts ++ us)) (hts : Closed nested ts) :
    Closed flag ts ∧ Closed flag us := by
  rw [Closed, List.map_append, depth?_append] at h
  obtain ⟨i, hi, hrest⟩ := Option.bind_eq_some_iff.1 h
  have hnested : depth? true (0 + 0) (ts.map (·.token)) = some (i + 0) :=
    depth?_shift hi (.inr (.inl rfl))
  obtain rfl := Option.some.inj (hnested.symm.trans hts.inside)
  exact ⟨hi, hrest⟩

theorem head_of_cons {t : Lexeme} (h : Closed flag (t :: us)) (ht : Closed nested [t]) :
    t.token.depth? flag 0 = some 0 := by
  rw [← List.singleton_append] at h
  exact (h.cut ht).1.head

end Closed

/-! ## Parentheses at the edges -/

theorem depth?_parens {pre : List Lexeme} (h : ∀ t ∈ pre, t.token = .punct .lparen) (d : Nat) :
    depth? nested d (pre.map (·.token)) = some (d + pre.length) := by
  induction pre generalizing d with
  | nil => rfl
  | cons t pre ih =>
    rw [List.forall_mem_cons] at h
    rw [List.map_cons, depth?, h.1]
    exact (ih h.2 (d + 1)).trans (congrArg some (by rw [List.length_cons]; omega))

variable {pre core rest post : List Lexeme}

theorem Closed.front_nil (hpre : ∀ t ∈ pre, t.token = .punct .lparen)
    (h : Closed nested (pre ++ core)) (hcore : Closed true (core ++ rest)) : pre = [] := by
  rw [Closed, List.map_append, depth?_append] at h hcore
  rw [depth?_parens hpre, Option.bind_some, Nat.zero_add] at h
  obtain ⟨i, hi, -⟩ := Option.bind_eq_some_iff.1 hcore
  have hdeep := depth?_shift (k := pre.length) hi (.inl rfl)
  have hclosed : depth? true (pre.length + 0) (core.map (·.token)) = some (0 + 0) :=
    depth?_shift h (.inr (.inl rfl))
  rw [Nat.add_zero, ← Nat.zero_add pre.length, hdeep] at hclosed
  have hlength := Option.some.inj hclosed
  exact List.eq_nil_of_length_eq_zero (by omega)

theorem Closed.back_nil (hpost : ∀ t ∈ post, t.token = .punct .rparen) (hcore : Closed true core)
    (h : Closed nested (core ++ post)) : post = [] := by
  obtain ⟨-, hback⟩ := h.cut hcore
  cases post with
  | nil => rfl
  | cons t post =>
    rw [Closed, List.map_cons, depth?, hpost t List.mem_cons_self] at hback
    cases hback

end VueToSan.Expr
