import VueToSan.Proofs.LexedParts

/-!
# Quoted texts are one token

A quoted text is cut off as the string that it quotes, and the token ends at the closing quote. This
holds wherever a token starts with the opening quote: what stands in front of the text and what
follows it take no part.
-/

namespace VueToSan.Expr

open VueToSan.Text

def quotedLexeme (s : String) (pos : Nat) : Lexeme :=
  ⟨.string s, ⟨pos, pos + byteLength (quote s).toList⟩⟩

theorem tokenizeFrom_quote (s : String) (pos : Nat) (rest : List Char) :
    tokenizeFrom pos 0 ((quote s).toList ++ rest) =
      (tokenizeFrom (pos + byteLength (quote s).toList) 0 rest).map (quotedLexeme s pos :: ·) := by
  rw [quotedLexeme, quote, String.toList_ofList, quoteChars]
  exact tokenizeFrom_token rfl (scan_quote s rest) pos

theorem Lexed.quote {s : String} {pos : Nat} {front rest : List Char} {ts : List Lexeme}
    {t : Lexeme} (h : Lexed pos (front ++ ((quote s).toList ++ rest)) ts) (ht : t ∈ ts)
    (hstart : t.span.start = pos + byteLength front) :
    t = quotedLexeme s (pos + byteLength front) := by
  obtain ⟨before, after, rfl⟩ := List.append_of_mem ht
  obtain ⟨text, behind, htext, hpos, -, hbehind⟩ := h.front
  have hrest : (Expr.quote s).toList ++ rest = behind := by
    have hdrop := dropBytes?_append text behind
    rw [← htext, show byteLength text = byteLength front by omega, dropBytes?_append] at hdrop
    exact Option.some.inj hdrop
  have htokens := hbehind.tokenizeFrom
  rw [← hrest, tokenizeFrom_quote, hstart] at htokens
  cases hbehind : Expr.tokenizeFrom (pos + byteLength front + byteLength (Expr.quote s).toList) 0
      rest with
  | error e =>
    rw [hbehind] at htokens
    cases htokens
  | ok us =>
    rw [hbehind] at htokens
    exact (List.cons.inj (Except.ok.inj htokens)).1.symm

/-- A quoted text is the one token that holds the string and covers the text. At any offset and in
front of any text it is the first token, and in a longer text every token that starts with the
opening quote ends with the closing one. -/
theorem tokenize_quote (s : String) :
    tokenize (quote s) 0 = .ok [⟨.string s, ⟨0, byteLength (quote s).toList⟩⟩] ∧
      (∀ (pos : Nat) (rest : List Char), tokenizeFrom pos 0 ((quote s).toList ++ rest) =
        (tokenizeFrom (pos + byteLength (quote s).toList) 0 rest).map (quotedLexeme s pos :: ·)) ∧
      ∀ (front rest : String) (base : Nat) (ts : List Lexeme),
        tokenize (front ++ quote s ++ rest) base = .ok ts →
          ∀ t ∈ ts, t.span.start = base + byteLength front.toList →
            t = quotedLexeme s (base + byteLength front.toList) := by
  refine ⟨?_, tokenizeFrom_quote s, fun front rest base ts htokens t ht hstart => ?_⟩
  · have halone := tokenizeFrom_quote s 0 []
    rw [List.append_nil] at halone
    rw [tokenize, halone, tokenizeFrom, quotedLexeme, Nat.zero_add]
    rfl
  · rw [tokenize, String.toList_append, String.toList_append, List.append_assoc] at htokens
    exact (tokenizeFrom_eq_ok.1 htokens).quote ht hstart

example : tokenize (quote "it's\n") 3 = .ok [⟨.string "it's\n", ⟨3, 12⟩⟩] := by rfl

end VueToSan.Expr
