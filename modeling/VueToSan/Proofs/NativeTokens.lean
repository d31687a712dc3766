import VueToSan.Proofs.AdmittedOperators
import VueToSan.Proofs.BracketedTokens

/-!
# Tokens without foreign operators

Whether an expression has admitted operators only can be told from its tokens: no foreign operator is
among them, but for words that name a member or a property. A bar counts as an operator inside
brackets only. Whatever is parsed from such tokens is admitted, and admitted expressions are written
with such tokens.
-/

namespace VueToSan.Expr

open VueToSan.Text

/-! ## Native tokens -/

instance : (op : Infix) → Decidable op.IsAdmitted
  | .binary op => inferInstanceAs (Decidable (op ∈ admittedBinary))
  | .logical op => inferInstanceAs (Decidable (op ∈ admittedLogical))

namespace Token

def isNative (nested : Bool) (t : Token) : Bool :=
  t.unaryOp?.all (admittedUnary.contains ·) && (t.binding? nested).all (decide ·.operator.IsAdmitted)

def nesting (depth : Nat) : Token → Nat
  | .punct .lparen | .punct .lbracket | .punct .lbrace => depth + 1
  | .punct .rparen | .punct .rbracket | .punct .rbrace => depth - 1
  | _ => depth

def isDot : Token → Bool
  | .punct .dot => true
  | _ => false

def isTemplate : Token → Bool
  | .template _ => true
  | _ => false

end Token

def startsColon : List Token → Bool
  | .punct .colon :: _ => true
  | _ => false

/-- Tokens with so many brackets open in front of them; `dotted` tells whether a dot stands there. -/
def areNative : (depth : Nat) → (dotted : Bool) → List Token → Bool
  | _, _, [] => true
  | depth, dotted, t :: ts =>
    (dotted || startsColon ts || t.isNative (decide (0 < depth))) && !t.isTemplate &&
      areNative (t.nesting depth) t.isDot ts

theorem areNative_cons {depth : Nat} {dotted : Bool} {t : Token} {ts : List Token} :
    areNative depth dotted (t :: ts) = true ↔
      (dotted = true ∨ startsColon ts = true ∨ t.isNative (decide (0 < depth)) = true) ∧
        t.isTemplate = false ∧ areNative (t.nesting depth) t.isDot ts = true := by
  simp only [areNative, Bool.and_eq_true, Bool.or_eq_true, Bool.not_eq_true', and_assoc, or_assoc]

/-- A token that opens and closes nothing, and is no dot. -/
structure Token.IsFlat (t : Token) : Prop where
  nesting : ∀ depth, t.nesting depth = depth
  dot : t.isDot = false

namespace Token.IsFlat

theorem of_unaryOp? {t : Token} {op : UnaryOp} (h : t.unaryOp? = some op) : t.IsFlat := by
  unfold Token.unaryOp? at h
  split at h <;> first | exact ⟨fun _ => rfl, rfl⟩ | cases h

theorem of_binding? {t : Token} {nested : Bool} {b : Binding} (h : t.binding? nested = some b) :
    t.IsFlat := by
  unfold Token.binding? at h
  split at h <;> first | exact ⟨fun _ => rfl, rfl⟩ | cases h

theorem of_memberName? {t : Token} {name : String} (h : t.memberName? = some name) : t.IsFlat := by
  unfold Token.memberName? at h
  split at h <;> first | exact ⟨fun _ => rfl, rfl⟩ | cases h

theorem of_literal? {t : Token} {value : Literal} (h : t.literal? = some value) : t.IsFlat := by
  unfold Token.literal? at h
  split at h <;> first | exact ⟨fun _ => rfl, rfl⟩ | cases h

theorem of_key? {t : Token} {location : Location} {key : Key} (h : t.key? location = some key) :
    t.IsFlat := by
  unfold Token.key? at h
  split at h <;> first | exact ⟨fun _ => rfl, rfl⟩ | cases h

end Token.IsFlat

theorem Token.isNative_mono {t : Token} {nested : Bool} (h : t.isNative true = true) :
    t.isNative nested = true := by
  cases nested with
  | true => exact h
  | false =>
    unfold Token.isNative Token.binding? at *
    split at h <;> simp_all

theorem areNative_flat {depth : Nat} {dotted : Bool} {t : Token} {ts : List Token} (ht : t.IsFlat)
    (h : areNative depth dotted (t :: ts) = true) : areNative depth false ts = true := by
  have hrest := (areNative_cons.1 h).2.2
  rwa [ht.nesting, ht.dot] at hrest

/-! ## Parsed expressions -/

def tokens (ts : List Lexeme) : List Token := ts.map (·.token)

@[simp] theorem tokens_nil : tokens [] = [] := rfl

@[simp] theorem tokens_cons (t : Lexeme) (ts : List Lexeme) :
    tokens (t :: ts) = t.token :: tokens ts := rfl

@[simp] theorem tokens_append (ts us : List Lexeme) : tokens (ts ++ us) = tokens ts ++ tokens us :=
  List.map_append

/-- What is taken from native tokens is admitted, and leaves native tokens. -/
def Yields (nested : Bool) (ts rest : List Lexeme) (admitted : Bool) : Prop :=
  ∀ depth, (nested = true → 0 < depth) → areNative depth false (tokens ts) = true →
    admitted = true ∧ areNative depth false (tokens rest) = true

namespace Yields

variable {nested a b : Bool} {ts us rest : List Lexeme}

theorem refl (nested : Bool) (ts : List Lexeme) : Yields nested ts ts true :=
  fun _ _ h => ⟨rfl, h⟩

theorem trans (h : Yields nested ts us a) (h' : Yields nested us rest b) :
    Yields nested ts rest (a && b) := by
  intro depth hdepth hnative
  obtain ⟨ha, hus⟩ := h depth hdepth hnative
  obtain ⟨hb, hrest⟩ := h' depth hdepth hus
  exact ⟨by rw [ha, hb]; rfl, hrest⟩

theorem token {t : Lexeme} (ht : t.token.IsFlat) : Yields nested (t :: ts) ts true :=
  fun _ _ h => ⟨rfl, areNative_flat ht h⟩

theorem behind {t : Lexeme} (ht : t.token.IsFlat) (h : Yields nested ts rest a) :
    Yields nested (t :: ts) rest a :=
  (token ht).trans h

theorem enclosed (bracket : Bracket) {o c : Span}
    (h : Yields true ts (⟨.punct bracket.closing, c⟩ :: rest) a) :
    Yields nested (⟨.punct bracket.opening, o⟩ :: ts) rest a := by
  intro depth hdepth hnative
  have hopen : (Token.punct bracket.opening).nesting depth = depth + 1 ∧
      (Token.punct bracket.opening).isDot = false := by cases bracket <;> exact ⟨rfl, rfl⟩
  have hclose : (Token.punct bracket.closing).nesting (depth + 1) = depth ∧
      (Token.punct bracket.closing).isDot = false := by cases bracket <;> exact ⟨rfl, rfl⟩
  have hinner := (areNative_cons.1 hnative).2.2
  rw [hopen.1, hopen.2] at hinner
  obtain ⟨ha, hbehind⟩ := h (depth + 1) (fun _ => Nat.succ_pos _) hinner
  have hrest := (areNative_cons.1 hbehind).2.2
  rw [hclose.1, hclose.2] at hrest
  exact ⟨ha, hrest⟩

theorem member {d : Span} {t : Lexeme} (ht : t.token.IsFlat) :
    Yields nested (⟨.punct .dot, d⟩ :: t :: ts) ts true :=
  fun _ _ h => ⟨rfl, areNative_flat ht (areNative_cons.1 h).2.2⟩

theorem unary {t : Lexeme} {op : UnaryOp} (hop : t.token.unaryOp? = some op)
    (hcolon : startsColon (tokens ts) = false) (h : Yields nested ts rest a) :
    Yields nested (t :: ts) rest (admittedUnary.contains op && a) := by
  intro depth hdepth hnative
  obtain ⟨ha, hrest⟩ := behind (.of_unaryOp? hop) h depth hdepth hnative
  rw [tokens_cons, areNative_cons] at hnative
  rcases hnative.1 with hdot | hnext | htoken
  · cases hdot
  · rw [hcolon] at hnext
    cases hnext
  · rw [Token.isNative, hop, Bool.and_eq_true] at htoken
    exact ⟨by rw [ha, Bool.and_true]; exact htoken.1, hrest⟩

theorem operator {t : Lexeme} {bind : Binding} (hbind : t.token.binding? nested = some bind)
    (hcolon : startsColon (tokens ts) = false) (h : Yields nested ts rest a) :
    Yields nested (t :: ts) rest (decide bind.operator.IsAdmitted && a) := by
  intro depth hdepth hnative
  obtain ⟨ha, hrest⟩ := behind (.of_binding? hbind) h depth hdepth hnative
  have hdeep : t.token.binding? (decide (0 < depth)) = some bind := by
    cases nested with
    | true => rwa [decide_eq_true (hdepth rfl)]
    | false =>
      unfold Token.binding? at hbind ⊢
      split at hbind <;> simp_all
  rw [tokens_cons, areNative_cons] at hnative
  rcases hnative.1 with hdot | hnext | htoken
  · cases hdot
  · rw [hcolon] at hnext
    cases hnext
  · rw [Token.isNative, hdeep, Bool.and_eq_true] at htoken
    exact ⟨by rw [ha, Bool.and_true]; exact htoken.2, hrest⟩

end Yields

theorem ExprDerived.startsColon {s : Setting} {ts rest : List Lexeme} {e : Node} :
    ExprDerived s ts e rest → startsColon (tokens ts) = false
  | .identifier => rfl
  | .parens _ => rfl
  | .array _ => rfl
  | .object _ => rfl
  | .template _ => rfl
  | .literal h => by
    rw [tokens_cons]
    unfold Token.literal? at h
    split at h <;> first | (rename_i heq; rw [heq]; rfl) | cases h
  | .unary h _ => by
    rw [tokens_cons]
    unfold Token.unaryOp? at h
    split at h <;> first | (rename_i heq; rw [heq]; rfl) | cases h
  | .field h _ => h.startsColon
  | .index h _ => h.startsColon
  | .call h _ => h.startsColon
  | .operator h _ _ => h.startsColon
  | .conditional h _ _ => h.startsColon

theorem isAdmitted_node (op : Infix) (l : Location) (a b : Node) :
    (op.node l a b).isAdmitted = (a.isAdmitted && (decide op.IsAdmitted && b.isAdmitted)) := by
  cases op <;> simp only [Infix.node, Node.isAdmitted, List.contains_eq_mem, Infix.IsAdmitted]
  all_goals
    rw [Bool.and_left_comm, Bool.and_assoc]
    rfl

mutual

theorem ExprDerived.yields {s : Setting} {ts rest : List Lexeme} {e : Node} :
    ExprDerived s ts e rest → Yields s.nested ts rest e.isAdmitted
  | .identifier => .token ⟨fun _ => rfl, rfl⟩
  | .literal h => .token (.of_literal? h)
  | .parens h => .enclosed .round h.yields
  | .array h => .enclosed .square h.yields
  | .object h => .enclosed .curly (h.yields rfl)
  | .template _ => fun _ _ hnative => nomatch (areNative_cons.1 hnative).2.1
  | .field h hname => by
    rw [Node.isAdmitted, ← Bool.and_true (Node.isAdmitted _)]
    exact h.yields.trans (.member (.of_memberName? hname))
  | .index h h' => h.yields.trans (.enclosed .square h'.yields)
  | .call h h' => h.yields.trans (.enclosed .round h'.yields)
  | .unary hop h => .unary hop h.startsColon h.yields
  | .operator h hb h' => by
    rw [isAdmitted_node]
    exact h.yields.trans (.operator hb h'.startsColon h'.yields)
  | .conditional h h' h'' => by
    rw [Node.isAdmitted, Bool.and_assoc]
    exact h.yields.trans (.behind ⟨fun _ => rfl, rfl⟩
      (h'.yields.trans (.behind ⟨fun _ => rfl, rfl⟩ h''.yields)))

theorem ItemsDerived.yields {s : Setting} {ts rest : List Lexeme} {es : List Node} :
    ItemsDerived s ts es rest → Yields s.nested ts rest (areAdmitted es)
  | .nil => .refl _ _
  | .last h => by
    rw [areAdmitted, areAdmitted, Bool.and_true]
    exact h.yields
  | .more h h' => h.yields.trans (.behind ⟨fun _ => rfl, rfl⟩ h'.yields)

theorem PropertiesDerived.yields {s : Setting} {ts rest : List Lexeme} {ps : List Property} :
    PropertiesDerived s ts ps rest → s.nested = true → Yields true ts rest (propertiesAdmitted ps)
  | .nil, _ => .refl _ _
  | .last h, hs => by
    rw [propertiesAdmitted, propertiesAdmitted, Bool.and_true]
    exact h.yields hs
  | .more h h', hs => (h.yields hs).trans (.behind ⟨fun _ => rfl, rfl⟩ (h'.yields hs))

theorem PropertyDerived.yields {s : Setting} {ts rest : List Lexeme} {p : Property} :
    PropertyDerived s ts p rest → s.nested = true → Yields true ts rest p.isAdmitted
  | .shorthand, _ => .token ⟨fun _ => rfl, rfl⟩
  | .keyed hkey h, hs => .behind (.of_key? hkey) (.behind ⟨fun _ => rfl, rfl⟩ (hs ▸ h.yields))
  | .computed h h', hs =>
    Yields.trans (.enclosed .square (hs ▸ h.yields)) (.behind ⟨fun _ => rfl, rfl⟩ (hs ▸ h'.yields))

end

theorem FiltersDerived.yields {s : Setting} {ts rest : List Lexeme} {fs : List Filter}
    (h : FiltersDerived s ts fs rest) : Yields false ts rest (fs.all (·.isAdmitted)) := by
  induction h with
  | nil => exact .refl _ _
  | plain _ ih => exact .behind ⟨fun _ => rfl, rfl⟩ (.behind ⟨fun _ => rfl, rfl⟩ ih)
  | called h _ ih =>
    exact .behind ⟨fun _ => rfl, rfl⟩ (.behind ⟨fun _ => rfl, rfl⟩
      (Yields.trans (.enclosed .round h.yields) ih))

def IsNative (cs : List Char) : Prop := ∃ ts, Lexed 0 cs ts ∧ areNative 0 false (tokens ts) = true

theorem Lexed.isNative {pos : Nat} {cs : List Char} {ts : List Lexeme} (h : Lexed pos cs ts)
    (hnative : areNative 0 false (tokens ts) = true) : IsNative cs := by
  obtain ⟨us, hus, hlexed⟩ := h.shift 0
  refine ⟨us, hlexed, ?_⟩
  rw [tokens, hus]
  exact hnative

theorem isNative_of_lexes {text : String} {ts : List Token} (h : Lexes false text.toList ts)
    (hnative : areNative 0 false ts = true) : IsNative text.toList := by
  obtain ⟨us, rfl, hus⟩ := tokenize_of_lexes h
  exact (tokenizeFrom_eq_ok.1 hus).isNative hnative

theorem IsNative.trim {cs : List Char} (h : IsNative cs) : IsNative (trim cs) := by
  obtain ⟨ts, hts, hnative⟩ := h
  obtain ⟨start, htrim⟩ := hts.trim
  exact htrim.isNative hnative

/-- What is parsed from native tokens is admitted. -/
theorem IsNative.isAdmitted {source : String} (h : IsNative source.toList) {p : Piped}
    (hparse : parse source = .ok p) : p.isAdmitted = true := by
  obtain ⟨ts, hts, hnative⟩ := h
  obtain ⟨us, rest, hus, hexpr, hfilters, -⟩ := parse_derived hparse
  obtain rfl : us = ts := Except.ok.inj (hus.tokenizeFrom.symm.trans hts.tokenizeFrom)
  exact (hexpr.yields.trans hfilters.yields 0 (fun hs => nomatch hs) hnative).1

/-! ## Written expressions -/

/-- Tokens that are native in front of all native tokens. -/
def Passes (ts : List Token) : Prop :=
  ∀ depth us, areNative depth false us = true → areNative depth false (ts ++ us) = true

namespace Passes

variable {ts us : List Token}

theorem native (h : Passes ts) (depth : Nat) : areNative depth false ts = true := by
  have hend := h depth [] rfl
  rwa [List.append_nil] at hend

theorem nil : Passes [] := fun _ _ h => h

theorem append (h : Passes ts) (h' : Passes us) : Passes (ts ++ us) := by
  intro depth vs hvs
  rw [List.append_assoc]
  exact h depth _ (h' depth vs hvs)

theorem cons {t : Token} (hflat : t.IsFlat) (hnative : t.isNative true = true)
    (htemplate : t.isTemplate = false) (h : Passes ts) : Passes (t :: ts) := by
  intro depth vs hvs
  refine areNative_cons.2 ⟨.inr (.inr (Token.isNative_mono hnative)), htemplate, ?_⟩
  rw [hflat.nesting, hflat.dot]
  exact h depth vs hvs

theorem punct {q : Punct} (hflat : (Token.punct q).IsFlat)
    (hnative : (Token.punct q).isNative true = true) (h : Passes ts) : Passes (.punct q :: ts) :=
  cons hflat hnative rfl h

theorem ident (name : String) (h : Passes ts) : Passes (.ident name :: ts) :=
  cons ⟨fun _ => rfl, rfl⟩ rfl rfl h

theorem enclosed (b : Bracket) (h : Passes ts) :
    Passes (.punct b.opening :: (ts ++ [.punct b.closing])) := by
  intro depth vs hvs
  have hclose : areNative (depth + 1) false (.punct b.closing :: vs) = true := by
    cases b <;> exact areNative_cons.2 ⟨.inr (.inr rfl), rfl, hvs⟩
  have hinner := h (depth + 1) _ hclose
  rw [← List.singleton_append, ← List.append_assoc] at hinner
  cases b <;> exact areNative_cons.2 ⟨.inr (.inr rfl), rfl, hinner⟩

/-- A word behind a dot names a member, even if it is the word for an operator. -/
theorem member {t : Token} {name : String} (ht : t.memberName? = some name) (h : Passes ts) :
    Passes (ts ++ [.punct .dot, t]) := by
  intro depth vs hvs
  have hflat := Token.IsFlat.of_memberName? ht
  rw [List.append_assoc]
  refine h depth _ (areNative_cons.2 ⟨.inr (.inr rfl), rfl, areNative_cons.2 ⟨.inl rfl, ?_, ?_⟩⟩)
  · cases t <;> first | rfl | cases ht
  · rw [hflat.nesting, hflat.dot]
    exact hvs

theorem keyed {k : Key} {t : Token} (hk : k.WrittenBy t) (h : Passes ts) :
    Passes (t :: .punct .colon :: ts) := by
  have hplain : t.IsFlat ∧ t.isTemplate = false := by
    cases k with
    | name n =>
      have hname : t.memberName? = some n.text := hk
      exact ⟨.of_memberName? hname, by cases t <;> first | rfl | cases hname⟩
    | string l text =>
      obtain rfl : t = .string text := hk
      exact ⟨⟨fun _ => rfl, rfl⟩, rfl⟩
    | number l value =>
      obtain rfl : t = .number value := hk
      exact ⟨⟨fun _ => rfl, rfl⟩, rfl⟩
  intro depth vs hvs
  refine areNative_cons.2 ⟨.inr (.inl rfl), hplain.2, ?_⟩
  rw [hplain.1.nesting, hplain.1.dot]
  exact areNative_cons.2 ⟨.inr (.inr rfl), rfl, h depth vs hvs⟩

theorem operator {op : Infix} (hop : op.IsAdmitted) (h : Passes ts) : Passes (op.token :: ts) := by
  obtain ⟨q, hq, -, -, -⟩ := Infix.exists_punct hop
  have hall : op.token.IsFlat ∧ op.token.isNative true = true := by
    cases op with
    | binary op =>
      have hall : ∀ op ∈ admittedBinary, op.token.isNative true = true := by decide
      exact ⟨@Token.IsFlat.of_binding? _ true _ (binding?_token (.inl rfl)), hall op hop⟩
    | logical op =>
      have hall : ∀ op ∈ admittedLogical, op.token.isNative true = true := by decide
      exact ⟨@Token.IsFlat.of_binding? _ true _ (binding?_token (.inl rfl)), hall op hop⟩
  exact cons hall.1 hall.2 (by rw [hq]; rfl) h

theorem unary {op : UnaryOp} (hop : op ∈ admittedUnary) (h : Passes ts) :
    Passes (op.token :: ts) := by
  have hall : ∀ op ∈ admittedUnary, op.token.isNative true = true ∧ op.token.isTemplate = false := by
    decide
  exact cons (.of_unaryOp? (unaryOp?_token op)) (hall op hop).1 (hall op hop).2 h

theorem literal (v : Literal) (h : Passes ts) : Passes (v.token :: ts) := by
  rcases v with x | s | (_ | _) | _ <;> exact cons ⟨fun _ => rfl, rfl⟩ rfl rfl h

end Passes

def Form.isAdmitted : Form → Bool
  | .node e => e.isAdmitted
  | .placed _ e => e.isAdmitted
  | .items es => areAdmitted es
  | .property p => p.isAdmitted
  | .properties ps => propertiesAdmitted ps

/-- An admitted expression is written with native tokens. -/
theorem Writes.passes {nested : Bool} {form : Form} {ts : List Token} (h : Writes nested form ts)
    (hadmitted : form.isAdmitted = true) : Passes ts := by
  induction h with
  | identifier => exact .ident _ .nil
  | literal => exact .literal _ .nil
  | array _ ih => exact .enclosed .square (ih hadmitted)
  | object _ ih => exact .enclosed .curly (ih hadmitted)
  | unary _ ih =>
    rw [Form.isAdmitted, Node.isAdmitted, Bool.and_eq_true, List.contains_iff_mem] at hadmitted
    exact .unary hadmitted.1 (ih hadmitted.2)
  | joined _ _ _ ih ih' =>
    rw [Form.isAdmitted, isAdmitted_node, Bool.and_eq_true, Bool.and_eq_true, decide_eq_true_eq]
      at hadmitted
    exact (ih hadmitted.1).append (.operator hadmitted.2.1 (ih' hadmitted.2.2))
  | conditional _ _ _ ih ih' ih'' =>
    rw [Form.isAdmitted, Node.isAdmitted, Bool.and_eq_true, Bool.and_eq_true] at hadmitted
    exact (ih hadmitted.1.1).append (.punct ⟨fun _ => rfl, rfl⟩ rfl
      ((ih' hadmitted.1.2).append (.punct ⟨fun _ => rfl, rfl⟩ rfl (ih'' hadmitted.2))))
  | field _ hname ih => exact .member hname (ih hadmitted)
  | index _ _ ih ih' =>
    rw [Form.isAdmitted, Node.isAdmitted, Bool.and_eq_true] at hadmitted
    exact (ih hadmitted.1).append (.enclosed .square (ih' hadmitted.2))
  | call _ _ ih ih' =>
    rw [Form.isAdmitted, Node.isAdmitted, Bool.and_eq_true] at hadmitted
    exact (ih hadmitted.1).append (.enclosed .round (ih' hadmitted.2))
  | bare _ _ ih => exact ih hadmitted
  | parens _ ih => exact .enclosed .round (ih hadmitted)
  | noItems => exact .nil
  | lastItem _ ih =>
    rw [Form.isAdmitted, areAdmitted, areAdmitted, Bool.and_true] at hadmitted
    exact ih hadmitted
  | moreItems _ _ ih ih' =>
    rw [Form.isAdmitted, areAdmitted, Bool.and_eq_true] at hadmitted
    exact (ih hadmitted.1).append (.punct ⟨fun _ => rfl, rfl⟩ rfl (ih' hadmitted.2))
  | shorthand => exact .ident _ .nil
  | keyed hk _ ih => exact .keyed hk (ih hadmitted)
  | computed _ _ ih ih' =>
    rw [Form.isAdmitted, Property.isAdmitted, Bool.and_eq_true] at hadmitted
    have hkey := Passes.enclosed .square (ih hadmitted.1)
    have hvalue := Passes.punct (q := .colon) ⟨fun _ => rfl, rfl⟩ rfl (ih' hadmitted.2)
    simpa [Bracket.opening, Bracket.closing] using hkey.append hvalue
  | noProperties => exact .nil
  | lastProperty _ ih =>
    rw [Form.isAdmitted, propertiesAdmitted, propertiesAdmitted, Bool.and_true] at hadmitted
    exact ih hadmitted
  | moreProperties _ _ ih ih' =>
    rw [Form.isAdmitted, propertiesAdmitted, Bool.and_eq_true] at hadmitted
    exact (ih hadmitted.1).append (.punct ⟨fun _ => rfl, rfl⟩ rfl (ih' hadmitted.2))

theorem WritesFilters.native {fs : List Filter} {ts : List Token} (h : WritesFilters fs ts)
    (hadmitted : fs.all (·.isAdmitted) = true) : areNative 0 false ts = true := by
  induction h with
  | nil => rfl
  | bare _ _ ih =>
    rw [List.all_cons, Bool.and_eq_true] at hadmitted
    exact areNative_cons.2 ⟨.inr (.inr rfl), rfl, Passes.ident _ .nil 0 _ (ih hadmitted.2)⟩
  | @call f fs us ts hargs _ ih =>
    rw [List.all_cons, Bool.and_eq_true] at hadmitted
    have hcall : Passes (.ident f.name :: .punct .lparen :: (us ++ [.punct .rparen])) :=
      .ident f.name (.enclosed .round (hargs.passes hadmitted.1))
    have hrest := hcall 0 ts (ih hadmitted.2)
    rw [List.cons_append, List.cons_append, List.append_assoc] at hrest
    exact areNative_cons.2 ⟨.inr (.inr rfl), rfl, hrest⟩

/-! ## Parts of native tokens -/

theorem areNative_mono {depth depth' : Nat} {dotted dotted' : Bool} {ts : List Token}
    (hdepth : depth' ≤ depth) (hdot : dotted = true → dotted' = true)
    (h : areNative depth dotted ts = true) : areNative depth' dotted' ts = true := by
  induction ts generalizing depth depth' dotted dotted' with
  | nil => rfl
  | cons t ts ih =>
    rw [areNative_cons] at h ⊢
    obtain ⟨htoken, htemplate, hrest⟩ := h
    refine ⟨htoken.imp hdot (Or.imp_right fun hnative => ?_), htemplate, ih ?_ id hrest⟩
    · rcases Nat.eq_zero_or_pos depth with rfl | hpos
      · obtain rfl : depth' = 0 := Nat.le_zero.1 hdepth
        exact hnative
      · rw [decide_eq_true hpos] at hnative
        exact Token.isNative_mono hnative
    · unfold Token.nesting
      split <;> omega

theorem areNative_front {depth : Nat} {dotted : Bool} {ts us : List Token}
    (hus : startsColon us = false) (h : areNative depth dotted (ts ++ us) = true) :
    areNative depth dotted ts = true := by
  induction ts generalizing depth dotted with
  | nil => rfl
  | cons t ts ih =>
    rw [List.cons_append, areNative_cons] at h
    obtain ⟨htoken, htemplate, hrest⟩ := h
    refine areNative_cons.2 ⟨htoken.imp_right (Or.imp_left fun hcolon => ?_), htemplate, ih hrest⟩
    cases ts with
    | nil =>
      rw [List.nil_append, hus] at hcolon
      cases hcolon
    | cons u ts =>
      rcases u with _ | _ | _ | _ | _ | q
      case punct => cases q <;> exact hcolon
      all_goals exact hcolon

theorem areNative_back {depth : Nat} {dotted : Bool} {ts us : List Token}
    (h : areNative depth dotted (ts ++ us) = true) : areNative 0 true us = true := by
  induction ts generalizing depth dotted with
  | nil => exact areNative_mono (Nat.zero_le _) (fun _ => rfl) h
  | cons t ts ih => exact ih (areNative_cons.1 h).2.2

/-- Behind a word. -/
theorem areNative_behind {depth : Nat} {dotted : Bool} {t : Token} {ts us : List Token}
    (ht : t.IsFlat) (h : areNative depth dotted (ts ++ t :: us) = true) :
    areNative 0 false us = true :=
  areNative_flat ht (areNative_back h)

theorem LexesTo.rest {front cs : List Char} {us : List Token} (h : LexesTo front cs us) {pos : Nat}
    {ts : List Lexeme} (hts : Lexed pos (front ++ cs) ts) :
    ∃ stop vs, tokens ts = us ++ tokens vs ∧ Lexed stop cs vs := by
  obtain ⟨ls, rfl, hrun⟩ := h pos
  rw [hts.tokenizeFrom] at hrun
  cases hcs : tokenizeFrom (pos + byteLength front) 0 cs with
  | error e =>
    rw [hcs] at hrun
    cases hrun
  | ok vs =>
    rw [hcs] at hrun
    obtain rfl := Except.ok.inj hrun
    exact ⟨_, vs, tokens_append ls vs, tokenizeFrom_eq_ok.1 hcs⟩

namespace IsNative

variable {front cs : List Char} {us : List Token}

theorem behind (h : IsNative cs) (hfront : LexesTo front cs us)
    (hus : ∀ vs, areNative 0 false vs = true → areNative 0 false (us ++ vs) = true) :
    IsNative (front ++ cs) := by
  obtain ⟨ts, hts, hnative⟩ := h
  obtain ⟨ls, rfl, hrun⟩ := hfront 0
  obtain ⟨vs, hvs, hlexed⟩ := hts.shift (0 + byteLength front)
  rw [hlexed.tokenizeFrom] at hrun
  refine ⟨_, tokenizeFrom_eq_ok.1 hrun, ?_⟩
  rw [tokens_append]
  refine hus _ ?_
  rw [tokens, hvs]
  exact hnative

theorem rest (h : IsNative (front ++ cs)) (hfront : LexesTo front cs us)
    (hus : ∀ vs, areNative 0 false (us ++ vs) = true → areNative 0 false vs = true) :
    IsNative cs := by
  obtain ⟨ts, hts, hnative⟩ := h
  obtain ⟨stop, vs, hsplit, hvs⟩ := hfront.rest hts
  rw [hsplit] at hnative
  exact hvs.isNative (hus _ hnative)

end IsNative

end VueToSan.Expr
