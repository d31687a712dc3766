import VueToSan.Proofs.CodeRoundTrip
import VueToSan.Proofs.OuterBars
import VueToSan.Proofs.PartParses
import VueToSan.Proofs.StableTokens

/-!
# Code as an argument

A text that is an expression by itself, with bars as operators, is the same expression where it is
an argument of a call: its last token ends in front of the comma or bracket behind it, and so does
its parse. A text with a filter is no such expression, since a bar in brackets is an operator. The
code of a call is the call with the codes of its arguments, wherever these stood.
-/

namespace VueToSan.Expr

open VueToSan.Text

/-! ## Items -/

/-- In brackets and in front of a divider, the tokens are taken for an expression. -/
structure TakenFor (e : Node) (ts : List Token) : Prop where
  opens : ∀ us : List Lexeme, us.map (·.token) = ts → Opens us
  gives : ∀ (s : Setting) (us rest : List Lexeme) (n : Nat), s.nested = true →
    us.map (·.token) = ts → rest.head?.all (·.token.isDivider) = true →
    8 * textWeight us + 5 ≤ n → Gives (parseExpr s n (us ++ rest)) e rest

def IsArgumentFor (code : String) (e : Node) : Prop :=
  ∃ ts, TakenFor e ts ∧ ∀ d ∈ dividers, ∀ rest, LexesTo code.toList (d :: rest) ts

theorem textWeight_copy {ts us : List Lexeme} (h : us.map (·.token) = ts.map (·.token)) :
    textWeight us = textWeight ts := by
  have hweights (vs : List Lexeme) : textWeight vs = ((vs.map (·.token)).map (·.weight)).sum := by
    rw [List.map_map]
    rfl
  rw [hweights, hweights, h]

theorem length_le_textWeight (ts : List Lexeme) : ts.length ≤ textWeight ts := by
  induction ts with
  | nil => exact Nat.le_refl _
  | cons t ts ih =>
    have hweight := one_le_weight t.token
    rw [List.length_cons, textWeight_cons]
    omega

theorem Closed.opens {nested : Bool} {ts : List Lexeme} (h : Closed nested ts) (hne : ts ≠ []) :
    Opens ts := by
  obtain ⟨t, ts, rfl⟩ := List.exists_cons_of_ne_nil hne
  refine opens_of_token fun p hp ht => ?_
  have hdepth : (Token.punct p).depth? nested 0 = none := by
    simp only [List.mem_cons, List.not_mem_nil, or_false] at hp
    rcases hp with rfl | rfl | rfl <;> rfl
  rw [Closed, List.map_cons, depth?, ht, hdepth] at h
  cases h

theorem isArgumentFor_of_parse {code : String} {e : Node} (h : parseExpression code = .ok e) :
    IsArgumentFor code e := by
  obtain ⟨ts, hlexed, hrun⟩ := runParser_eq_ok h
  obtain ⟨used, hused, hclosed, again⟩ := (ParsesAgain.all _).expr _ ts e [] hrun
  obtain rfl : ts = used := by rw [hused, List.append_nil]
  have hne : ts ≠ [] := by
    rintro rfl
    obtain ⟨n, hn⟩ : ∃ n, fuelFor code.toList = n + 5 := ⟨fuelFor code.toList - 5, by
      unfold fuelFor
      omega⟩
    rw [hn, parseExpr_nil] at hrun
    cases hrun
  refine ⟨ts.map (·.token), ⟨fun us hus => ?_, fun s us rest n hs hus hrest hn => ?_⟩,
    fun d hd rest => hlexed.lexesTo hd rest⟩
  · have hcopy : Closed true us := by
      rw [Closed, hus]
      exact hclosed
    refine hcopy.opens ?_
    rintro rfl
    exact hne (List.map_eq_nil_iff.1 hus.symm)
  · exact again s us rest n ⟨fun _ => rfl, hs ▸ hclosed, hus⟩ (.inr ⟨rfl, hrest⟩)
      (by rwa [← textWeight_copy hus])

theorem parseExpression_of_parse {code : String} {p : Piped} (h : parse code = .ok p)
    (hfilters : p.filters = []) : parseExpression code = .ok p.expression := by
  obtain ⟨ts, us, hts, hexpression, hfs, -⟩ := parse_derived h
  have hbars (vs : List Lexeme) (hvs : tokenize code 0 = .ok vs) : outerBars [] vs = 0 := by
    obtain rfl := Except.ok.inj (hts.tokenizeFrom.symm.trans hvs)
    rw [hexpression.outerBars rfl, hfs.length, hfilters]
    rfl
  have hsame : (parse code).map (fun p => (p.expression, p.filters)) =
      (parseExpression code).map fun e => (e, []) :=
    runParser_map fun vs hvs => parsePiped_of_outerBars rfl (by simp [fuelFor]) (hbars vs hvs)
  rw [h] at hsame
  cases hparsed : parseExpression code with
  | error e =>
    rw [hparsed] at hsame
    cases hsame
  | ok e =>
    rw [hparsed] at hsame
    obtain ⟨rfl, -⟩ := Prod.mk.inj (Except.ok.inj hsame)
    rfl

theorem parseExpression_of_reads {code : String} {e : Node}
    (h : ReadsAs false code (.placed .free e)) :
    ∃ a, parseExpression code = .ok a ∧ a.unlocated = e.unlocated := by
  obtain ⟨p, hp, hfilters, hsame⟩ := parse_unfiltered h
  exact ⟨p.expression, parseExpression_of_parse hp hfilters, hsame⟩

theorem isArgumentFor_of_reads {code : String} {e : Node}
    (h : ReadsAs false code (.placed .free e)) : IsArgumentFor code e := by
  obtain ⟨ts, hlex, hwrites⟩ := h
  have hread (s : Setting) (hs : s.nested = true) (us : List Lexeme)
      (hus : us.map (·.token) = ts) : Opens us ∧ ReadsExpr s e us :=
    (hwrites true).read s hs us hus
  refine ⟨ts, ⟨fun us hus => (hread (.whole true "") rfl us hus).1, ?_⟩, fun d hd rest => ?_⟩
  · intro s us rest n hs hus hrest hn
    have hlength := length_le_textWeight us
    obtain ⟨hends, hquestion⟩ : Ends s.nested 0 rest ∧ startsWith .question rest = false := by
      cases rest with
      | nil => exact ⟨trivial, rfl⟩
      | cons t rest =>
        obtain ⟨token, span⟩ := t
        rw [List.head?_cons, Option.all_some] at hrest
        rcases punct_of_isDivider hrest with rfl | rfl | rfl | rfl <;>
          exact ⟨ends_punct (by decide), rfl⟩
    exact (hread s hs us hus).2 rest n hends hquestion (by omega)
  · have hall : ∀ d ∈ dividers, isIdentPart d = false ∧ d ≠ '.' := forall_of_all (by decide)
    refine hlex (d :: rest) fun c hc => ?_
    obtain rfl : d = c := by simpa using hc
    exact ⟨(hall d hd).1, fun hdot => absurd hdot (hall d hd).2⟩

/-! ## Calls -/

inductive ItemTokens : List Node → List Token → Prop where
  | nil : ItemTokens [] []
  | last {e : Node} {ts : List Token} (h : TakenFor e ts) : ItemTokens [e] ts
  | more {e : Node} {es : List Node} {ts us : List Token} (h : TakenFor e ts)
      (hrest : ItemTokens es us) : ItemTokens (e :: es) (ts ++ .punct .comma :: us)

theorem ItemTokens.gives {es : List Node} {ts : List Token} (h : ItemTokens es ts) {s : Setting}
    (hs : s.nested = true) {us : List Lexeme} (hus : us.map (·.token) = ts) (b : Span)
    (rest : List Lexeme) {n : Nat} (hn : 8 * textWeight us + 6 ≤ n) :
    ∃ es', unlocatedList es' = unlocatedList es ∧
      parseItems s .rparen n (us ++ ⟨.punct .rparen, b⟩ :: rest) =
        .ok (es', ⟨.punct .rparen, b⟩ :: rest) := by
  obtain ⟨n, rfl⟩ : ∃ m, n = m + 1 := ⟨n - 1, by omega⟩
  induction h generalizing us n with
  | nil =>
    obtain rfl := List.map_eq_nil_iff.1 hus
    exact ⟨[], rfl, by simp [parseItems, startsWith_punct]⟩
  | @last e ts h =>
    obtain ⟨e', he, hrun⟩ := h.gives s us (⟨.punct .rparen, b⟩ :: rest) n hs hus rfl (by omega)
    refine ⟨[e'], by simp [unlocatedList, he], ?_⟩
    simp [parseItems, (h.opens us hus).startsWith _ (p := .rparen) (by decide), hrun,
      startsWith_punct]
  | @more e es ts vs h _ ih =>
    obtain ⟨us, a, ws, rfl, hfirst, hws⟩ := exists_lexemeBehind hus
    simp only [textWeight_append, textWeight_cons, weight_punct] at hn
    obtain ⟨n, rfl⟩ : ∃ m, n = m + 1 := ⟨n - 1, by omega⟩
    obtain ⟨e', he, hrun⟩ := h.gives s us
      (⟨.punct .comma, a⟩ :: (ws ++ ⟨.punct .rparen, b⟩ :: rest)) (n + 1) hs hfirst rfl (by omega)
    obtain ⟨es', hes, hruns⟩ := ih hws n (by omega)
    refine ⟨e' :: es', by simp [unlocatedList, he, hes], ?_⟩
    rw [List.append_assoc, List.cons_append, parseItems,
      (h.opens us hfirst).startsWith _ (p := .rparen) (by decide), hrun]
    simp [startsWith_punct, hruns]

theorem exists_itemTokens {codes : List String} {es : List Node}
    (h : List.Forall₂ IsArgumentFor codes es) :
    ∃ ts, ItemTokens es ts ∧ ∀ rest, LexesTo (joinWith ", " codes).toList (')' :: rest) ts := by
  induction h with
  | nil => exact ⟨[], .nil, fun rest => LexesTo.nil _⟩
  | @cons code e codes es hcode hcodes ih =>
    obtain ⟨ts, htaken, hlex⟩ := hcode
    cases hcodes with
    | nil => exact ⟨ts, .last htaken, fun rest => hlex ')' (by decide) rest⟩
    | cons hnext hmore =>
      obtain ⟨us, hitems, hlexes⟩ := ih
      refine ⟨ts ++ .punct .comma :: us, .more htaken hitems, fun rest => ?_⟩
      have hcomma (rest : List Char) : LexesTo [','] (' ' :: rest) [.punct .comma] :=
        lexesTo_punct (p := .comma) (by simp [Punct.successors]) (by simp)
      have hbehind := (hcomma _).append ((LexesTo.space _).append (hlexes rest))
      have hwhole := LexesTo.append (hlex ',' (by decide) _) hbehind
      rw [joinWith, String.toList_append, String.toList_append, List.append_assoc]
      exact hwhole

theorem ItemTokens.parseExpr_call {es : List Node} {ts : List Token} (h : ItemTokens es ts)
    (s : Setting) (name : String) (a b c : Span) {us : List Lexeme}
    (hus : us.map (·.token) = ts) {n : Nat} (hn : 8 * textWeight us + 6 ≤ n) :
    Gives (parseExpr s (n + 5)
        (⟨.ident name, a⟩ :: ⟨.punct .lparen, b⟩ :: (us ++ [⟨.punct .rparen, c⟩])))
      (.call default (.ofName name) es) [] := by
  obtain ⟨es', hes, hrun⟩ := h.gives (s := s.inner) rfl hus c [] hn
  obtain ⟨n, rfl⟩ : ∃ m, n = m + 1 := ⟨n - 1, by omega⟩
  let callee := Node.identifier ⟨s.location a, name⟩
  let call := Node.call (s.location (callee.span.merge c)) callee es'
  refine ⟨call, by simp [call, callee, Node.unlocated, Name.unlocated, Node.ofName, hes], ?_⟩
  have haccesses : parseAccesses s (n + 2) callee
      (⟨.punct .lparen, b⟩ :: (us ++ [⟨.punct .rparen, c⟩])) = .ok (call, []) := by
    simp only [parseAccesses, hrun, mark_punct, ok_bind]
    rfl
  have hmember : parseMember s (n + 3)
      (⟨.ident name, a⟩ :: ⟨.punct .lparen, b⟩ :: (us ++ [⟨.punct .rparen, c⟩])) =
        .ok (call, []) := by
    rw [parseMember, parsePrimary]
    exact haccesses
  have hunary : parseUnary s (n + 4)
      (⟨.ident name, a⟩ :: ⟨.punct .lparen, b⟩ :: (us ++ [⟨.punct .rparen, c⟩])) =
        .ok (call, []) := by
    rw [ParsesAgain.parseUnary_eq_member (by rintro t ⟨⟩; rfl), hmember]
  rw [parseExpr, parseBinary, hunary]
  rfl

theorem parse_call {name : String} (hname : isName name = true) {codes : List String}
    {es : List Node} (h : List.Forall₂ IsArgumentFor codes es) :
    ∃ p, parse (name ++ "(" ++ joinWith ", " codes ++ ")") = .ok p ∧
      p.unlocated = ⟨.call default (.ofName name) (unlocatedList es), [], default⟩ := by
  obtain ⟨ts, hitems, hlex⟩ := exists_itemTokens h
  have hword := isWord_of_isName hname
  have hlexes : LexesTo (name ++ "(" ++ joinWith ", " codes ++ ")").toList []
      (.ident name :: .punct .lparen :: (ts ++ [.punct .rparen])) := by
    have hopen (rest : List Char) : LexesTo ['('] rest [.punct .lparen] :=
      lexesTo_punct (p := .lparen) (by simp [Punct.successors]) (by simp)
    have hclose : LexesTo [')'] [] [.punct .rparen] :=
      lexesTo_punct (p := .rparen) (by simp) (by simp)
    rw [← wordToken_of_isName hname]
    simp only [String.toList_append, List.append_assoc]
    refine LexesTo.append (lexesTo_word hword fun c hc => ?_)
      ((hopen _).append ((hlex []).append hclose))
    obtain rfl : '(' = c := by simpa using hc
    rfl
  obtain ⟨ls, hls, htokens⟩ := hlexes 0
  rw [List.append_nil, tokenizeFrom, Except.map, List.append_nil, tokenizeFrom_eq_ok] at htokens
  obtain ⟨a, ls, rfl, hbehind⟩ := exists_firstLexeme hls
  obtain ⟨b, us, c, rfl, hus⟩ := exists_enclosedLexemes hbehind
  have hsize := htokens.textWeight_le
  generalize hcode : name ++ "(" ++ joinWith ", " codes ++ ")" = code at htokens hsize ⊢
  simp only [textWeight_cons, textWeight_append, weight_punct] at hsize
  obtain ⟨n, hfuel, hn⟩ : ∃ n, fuelFor code.toList = n + 5 ∧ 8 * textWeight us + 6 ≤ n := by
    refine ⟨fuelFor code.toList - 5, ?_, ?_⟩ <;> unfold fuelFor <;> omega
  obtain ⟨e', he, hrun⟩ := hitems.parseExpr_call (.whole false code) name a b c hus hn
  rw [← hfuel] at hrun
  obtain ⟨p, hp, hsame⟩ := parse_of_parts htokens hrun (parseFilters_nil (by simp [fuelFor]))
  refine ⟨p, hp, hsame.trans ?_⟩
  rw [he]
  rfl

/-! ## Code of calls -/

theorem parseExpression_isSpelled {code : String} {e : Node} (h : parseExpression code = .ok e) :
    e.isSpelled = true := by
  obtain ⟨ts, hlexed, hrun⟩ := runParser_eq_ok h
  have hts := spelled_tokenizeFrom hlexed.tokenizeFrom
  exact ((ParsesNames.all _).expr _ ts hts e [] hrun).1

theorem wrap_unlocated (code : String) (e : Node) : wrap code e.unlocated = wrap code e := by
  cases e <;> rfl

theorem Key.code_unlocated (k : Key) : k.unlocated.code = k.code := by
  cases k <;> rfl

mutual

theorem generate_unlocated : ∀ e : Node, (generate e.unlocated).toOption = (generate e).toOption
  | .identifier _ => rfl
  | .literal _ _ => rfl
  | .array _ elements => by
    simp only [Node.unlocated, generate, toOption_bind, generateList_unlocated elements]
  | .object _ properties => by
    simp only [Node.unlocated, generate, toOption_bind, generateProperties_unlocated properties]
  | .unary _ op argument => by
    simp only [Node.unlocated, generate, toOption_bind, generate_unlocated argument]
    by_cases hop : op ∈ admittedUnary
    · simp [hop, wrap_unlocated]
    · simp [hop, throw, throwThe, MonadExceptOf.throw, bind, Except.bind]
  | .binary _ op left right => by
    simp only [Node.unlocated, generate, toOption_bind, generate_unlocated left,
      generate_unlocated right]
    by_cases hop : op ∈ admittedBinary
    · simp [hop, wrap_unlocated]
    · simp [hop, throw, throwThe, MonadExceptOf.throw, bind, Except.bind]
  | .logical _ op left right => by
    simp only [Node.unlocated, generate, toOption_bind, generate_unlocated left,
      generate_unlocated right]
    by_cases hop : op ∈ admittedLogical
    · simp [hop, wrap_unlocated]
    · simp [hop, throw, throwThe, MonadExceptOf.throw, bind, Except.bind]
  | .conditional _ test consequent alternate => by
    simp only [Node.unlocated, generate, toOption_bind, generate_unlocated test,
      generate_unlocated consequent, generate_unlocated alternate, wrap_unlocated]
  | .field _ object name => by
    simp only [Node.unlocated, generate, toOption_bind, generate_unlocated object, wrap_unlocated]
    rfl
  | .index _ object index => by
    simp only [Node.unlocated, generate, toOption_bind, generate_unlocated object,
      generate_unlocated index, wrap_unlocated]
  | .call _ callee arguments => by
    simp only [Node.unlocated, generate, toOption_bind, generate_unlocated callee,
      generateList_unlocated arguments, wrap_unlocated]
  | .template _ parts => by
    have hempty : (unlocatedList parts).isEmpty = parts.isEmpty := by cases parts <;> rfl
    simp only [Node.unlocated, generate, toOption_bind, generateParts_unlocated parts, hempty]

theorem generateList_unlocated : ∀ es : List Node,
    (generateList (unlocatedList es)).toOption = (generateList es).toOption
  | [] => rfl
  | e :: es => by
    simp only [unlocatedList, generateList, toOption_bind, generate_unlocated e,
      generateList_unlocated es]

theorem generateParts_unlocated : ∀ es : List Node,
    (generateParts (unlocatedList es)).toOption = (generateParts es).toOption
  | [] => rfl
  | e :: es => by
    simp only [unlocatedList, generateParts, toOption_bind, generate_unlocated e,
      generateParts_unlocated es, wrap_unlocated]

theorem generateProperties_unlocated : ∀ ps : List Property,
    (generateProperties (unlocatedProperties ps)).toOption = (generateProperties ps).toOption
  | [] => rfl
  | p :: ps => by
    simp only [unlocatedProperties, generateProperties, toOption_bind,
      generateProperty_unlocated p, generateProperties_unlocated ps]

theorem generateProperty_unlocated : ∀ p : Property,
    (generateProperty p.unlocated).toOption = (generateProperty p).toOption
  | .shorthand _ => rfl
  | .keyed _ key value => by
    simp only [Property.unlocated, generateProperty, toOption_bind, generate_unlocated value,
      key.code_unlocated]
  | .computed _ key value => by
    simp only [Property.unlocated, generateProperty, toOption_bind, generate_unlocated value,
      generate_unlocated key]

end

theorem compile_call {name : String} (hname : isName name = true) {codes : List String}
    {es : List Node} (h : List.Forall₂ IsArgumentFor codes es) {compiled : Compiled}
    (hcompile : compile (name ++ "(" ++ joinWith ", " codes ++ ")") = .ok compiled) :
    ∃ texts, generateList es = .ok texts ∧
      compiled.text = name ++ "(" ++ joinWith ", " texts ++ ")" := by
  obtain ⟨p, hp, hcall⟩ := parse_call hname h
  have hfilters : p.filters = [] := List.map_eq_nil_iff.1 (congrArg Piped.filters hcall)
  obtain ⟨base, hbase, htext⟩ := compile_ok_unfiltered hp hcompile hfilters
  have hexpression : p.expression.unlocated = .call default (.ofName name) (unlocatedList es) :=
    congrArg Piped.expression hcall
  have hgenerate := generate_unlocated p.expression
  rw [hexpression, hbase, toOption_ok, toOption_eq_some] at hgenerate
  obtain ⟨c, texts, hc, htexts, rfl⟩ := generate_call_ok hgenerate
  obtain rfl := Except.ok.inj hc
  have hlist := generateList_unlocated es
  rw [htexts, toOption_ok] at hlist
  exact ⟨texts, toOption_eq_some.1 hlist.symm, htext.symm⟩

end VueToSan.Expr
