import VueToSan.Expr.Parser
import VueToSan.Proofs.Lexing
import VueToSan.Proofs.Results

/-!
# Names in parsed expressions

Whatever is parsed takes its names from the source: each is a word, and those of variables and
filters are no keywords. The proof follows the parser through its recursion on the fuel.
-/

namespace VueToSan.Expr

def isName (name : String) : Bool := isWord name && (Keyword.ofText? name).isNone

theorem isWord_of_isName {name : String} (h : isName name = true) : isWord name = true := by
  rw [isName, Bool.and_eq_true] at h
  exact h.1

theorem wordToken_of_isName {name : String} (h : isName name = true) :
    wordToken name = .ident name := by
  rw [isName, Bool.and_eq_true, Option.isNone_iff_eq_none] at h
  rw [wordToken, h.2]

theorem isWord_keyword (k : Keyword) : isWord k.text = true := by
  cases k <;> rfl

theorem text_of_ofText? {name : String} {k : Keyword} (h : Keyword.ofText? name = some k) :
    k.text = name := by
  simpa using List.find?_some h

theorem memberName?_wordToken (name : String) : (wordToken name).memberName? = some name := by
  unfold wordToken
  split
  · rename_i k hk
    rw [Token.memberName?, text_of_ofText? hk]
  · rfl

/-! ## Trees -/

def Key.isSpelled : Key → Bool
  | .name n => isWord n.text
  | _ => true

mutual

def Node.isSpelled : Node → Bool
  | .identifier name => isName name.text
  | .literal _ _ => true
  | .array _ elements => areSpelled elements
  | .object _ properties => propertiesSpelled properties
  | .unary _ _ argument => argument.isSpelled
  | .binary _ _ left right => left.isSpelled && right.isSpelled
  | .logical _ _ left right => left.isSpelled && right.isSpelled
  | .conditional _ test consequent alternate =>
    test.isSpelled && consequent.isSpelled && alternate.isSpelled
  | .field _ object name => object.isSpelled && isWord name.text
  | .index _ object index => object.isSpelled && index.isSpelled
  | .call _ callee arguments => callee.isSpelled && areSpelled arguments
  | .template _ parts => areSpelled parts

def areSpelled : List Node → Bool
  | [] => true
  | e :: es => e.isSpelled && areSpelled es

def propertiesSpelled : List Property → Bool
  | [] => true
  | p :: ps => p.isSpelled && propertiesSpelled ps

def Property.isSpelled : Property → Bool
  | .shorthand name => isName name.text
  | .keyed _ key value => key.isSpelled && value.isSpelled
  | .computed _ key value => key.isSpelled && value.isSpelled

end

/-! ## Tokens -/

def Token.isSpelled : Token → Bool
  | .ident name => isName name
  | _ => true

def Spelled (ts : List Lexeme) : Prop := ∀ t ∈ ts, t.token.isSpelled = true

theorem Spelled.head {t : Lexeme} {ts : List Lexeme} (h : Spelled (t :: ts)) :
    t.token.isSpelled = true := h t List.mem_cons_self

theorem Spelled.rest {t : Lexeme} {ts : List Lexeme} (h : Spelled (t :: ts)) : Spelled ts :=
  fun u hu => h u (List.mem_cons_of_mem _ hu)

theorem Spelled.tail {ts : List Lexeme} (h : Spelled ts) : Spelled ts.tail := by
  cases ts with
  | nil => exact h
  | cons t ts => exact h.rest

theorem isSpelled_wordToken {name : String} (h : isWord name = true) :
    (wordToken name).isSpelled = true := by
  unfold wordToken
  split
  · rfl
  · rename_i hnone
    simp [Token.isSpelled, isName, h, hnone]

theorem isWord_memberName? {t : Token} {name : String} (ht : t.isSpelled = true)
    (h : t.memberName? = some name) : isWord name = true := by
  cases t with
  | ident n =>
    obtain rfl : n = name := by simpa [Token.memberName?] using h
    exact isWord_of_isName ht
  | keyword k =>
    obtain rfl : k.text = name := by simpa [Token.memberName?] using h
    exact isWord_keyword k
  | number x => cases h
  | string s => cases h
  | template s => cases h
  | punct p => cases h

theorem isSpelled_scan {c : Char} {cs : List Char} {t : Token} {more : Nat}
    (h : scan c cs = .token t more) : t.isSpelled = true := by
  unfold scan at h
  -- Only words can be names; every other token is spelled trivially.
  split_ifs at h with hstart hquote htemplate
  · obtain ⟨rfl, -⟩ := Scanned.token.inj h
    refine isSpelled_wordToken ?_
    have hpart : (cs.takeWhile isIdentPart).all isIdentPart = true := List.all_takeWhile
    simp [isWord, hstart, hpart]
  · unfold scanString at h
    split at h
    · obtain ⟨rfl, -⟩ := Scanned.token.inj h
      rfl
    · cases h
  · unfold scanTemplate at h
    split at h
    · obtain ⟨rfl, -⟩ := Scanned.token.inj h
      rfl
    · cases h
  · have hnumber : ∀ r, scanNumber? (c :: cs) = some r → r = .token t more →
        t.isSpelled = true := by
      intro r hr ht
      subst ht
      unfold scanNumber? at hr
      split at hr
      · simp only at hr
        split_ifs at hr
        · obtain ⟨rfl, -⟩ := Scanned.token.inj (Option.some.inj hr)
          rfl
        · cases Option.some.inj hr
      · split at hr
        · obtain ⟨rfl, -⟩ := Scanned.token.inj (Option.some.inj hr)
          rfl
        · cases hr
    cases hr : scanNumber? (c :: cs) with
    | some r =>
      rw [hr] at h
      exact hnumber r hr h
    | none =>
      rw [hr, Option.getD_none, scanPunct] at h
      split at h
      · obtain ⟨rfl, -⟩ := Scanned.token.inj h
        rfl
      · cases h

theorem spelled_tokenizeFrom {pos skip : Nat} {cs : List Char} {ts : List Lexeme}
    (h : tokenizeFrom pos skip cs = .ok ts) : Spelled ts := by
  fun_induction tokenizeFrom pos skip cs generalizing ts with
  | case1 =>
    obtain rfl := Except.ok.inj h
    intro t ht
    cases ht
  | case2 pos skip c cs ih => exact ih h
  | case3 pos c cs hsep ih => exact ih h
  | case4 pos c cs hsep t more hscan ih =>
    obtain ⟨rest, hrest, hts⟩ := bind_eq_ok.1 h
    obtain rfl := Except.ok.inj hts
    intro u hu
    rcases List.mem_cons.1 hu with rfl | hu
    · exact isSpelled_scan hscan
    · exact ih hrest u hu
  | case5 => cases h
  | case6 => cases h

/-! ## Parses -/

/-- A parse that succeeds gives something with a property, and leaves spelled tokens. -/
def Spells {α : Type} (P : α → Prop) (r : Except Stop (Followed α)) : Prop :=
  ∀ a rest, r = .ok (a, rest) → P a ∧ Spelled rest

theorem Spells.ok {α : Type} {P : α → Prop} {a : α} {rest : List Lexeme} (ha : P a)
    (hrest : Spelled rest) : Spells P (.ok (a, rest)) := by
  rintro b rest' h
  obtain ⟨rfl, rfl⟩ := Prod.mk.inj (Except.ok.inj h)
  exact ⟨ha, hrest⟩

theorem Spells.error {α : Type} {P : α → Prop} {e : Stop} : Spells P (.error e) := by
  rintro a rest h
  cases h

theorem Spells.bind {α β : Type} {P : α → Prop} {Q : β → Prop} {x : Except Stop (Followed α)}
    {f : Followed α → Except Stop (Followed β)} (hx : Spells P x)
    (hf : ∀ a rest, P a → Spelled rest → Spells Q (f (a, rest))) : Spells Q (x >>= f) := by
  rintro b rest h
  obtain ⟨⟨a, middle⟩, hx', hf'⟩ := bind_eq_ok.1 h
  obtain ⟨ha, hmiddle⟩ := hx a middle hx'
  exact hf a middle ha hmiddle b rest hf'

theorem spells_mark (s : Setting) (p : Punct) {ts : List Lexeme} (hts : Spelled ts) :
    Spells (fun _ => True) (s.mark p ts) := by
  unfold Setting.mark
  split
  · split_ifs
    · exact .ok trivial hts.rest
    · exact .error
  · exact .error

structure ParsesNames (n : Nat) : Prop where
  expr : ∀ s ts, Spelled ts → Spells (·.isSpelled = true) (parseExpr s n ts)
  binary : ∀ s least ts, Spelled ts → Spells (·.isSpelled = true) (parseBinary s least n ts)
  operators : ∀ s least left ts, left.isSpelled = true → Spelled ts →
    Spells (·.isSpelled = true) (parseOperators s least n left ts)
  unary : ∀ s ts, Spelled ts → Spells (·.isSpelled = true) (parseUnary s n ts)
  member : ∀ s ts, Spelled ts → Spells (·.isSpelled = true) (parseMember s n ts)
  accesses : ∀ s object ts, object.isSpelled = true → Spelled ts →
    Spells (·.isSpelled = true) (parseAccesses s n object ts)
  items : ∀ s close ts, Spelled ts → Spells (areSpelled · = true) (parseItems s close n ts)
  primary : ∀ s ts, Spelled ts → Spells (·.isSpelled = true) (parsePrimary s n ts)
  properties : ∀ s ts, Spelled ts → Spells (propertiesSpelled · = true) (parseProperties s n ts)
  property : ∀ s ts, Spelled ts → Spells (·.isSpelled = true) (parseProperty s n ts)
  keyed : ∀ s span key ts, key.isSpelled = true → Spelled ts →
    Spells (·.isSpelled = true) (parseKeyed s n span key ts)
  pieces : ∀ s base ps parts, parsePieces s base n ps = .ok parts → areSpelled parts = true

namespace ParsesNames

theorem zero : ParsesNames 0 where
  expr _ _ _ := by rw [parseExpr]; exact .error
  binary _ _ _ _ := by rw [parseBinary]; exact .error
  operators _ _ _ _ _ _ := by rw [parseOperators]; exact .error
  unary _ _ _ := by rw [parseUnary]; exact .error
  member _ _ _ := by rw [parseMember]; exact .error
  accesses _ _ _ _ _ := by rw [parseAccesses]; exact .error
  items _ _ _ _ := by rw [parseItems]; exact .error
  primary _ _ _ := by rw [parsePrimary]; exact .error
  properties _ _ _ := by rw [parseProperties]; exact .error
  property _ _ _ := by rw [parseProperty]; exact .error
  keyed _ _ _ _ _ _ := by rw [parseKeyed]; exact .error
  pieces _ _ _ _ h := by rw [parsePieces] at h; cases h

variable {n : Nat} (ih : ParsesNames n) (s : Setting)

include ih

theorem expr_succ {ts : List Lexeme} (hts : Spelled ts) :
    Spells (·.isSpelled = true) (parseExpr s (n + 1) ts) := by
  rw [parseExpr]
  refine (ih.binary s 0 ts hts).bind fun test rest htest hrest => ?_
  dsimp only
  split_ifs
  · refine (ih.expr s _ hrest.tail).bind fun consequent rest hconsequent hrest => ?_
    refine (spells_mark s .colon hrest).bind fun _ rest _ hrest => ?_
    refine (ih.expr s _ hrest).bind fun alternate rest halternate hrest => ?_
    exact .ok (by simp [Node.isSpelled, htest, hconsequent, halternate]) hrest
  · exact .ok htest hrest

theorem operators_succ (least : Nat) {left : Node} {ts : List Lexeme}
    (hleft : left.isSpelled = true) (hts : Spelled ts) :
    Spells (·.isSpelled = true) (parseOperators s least (n + 1) left ts) := by
  cases ts with
  | nil =>
    rw [parseOperators]
    exact .ok hleft hts
  | cons t ts =>
    rw [parseOperators]
    split
    · exact .ok hleft hts
    · rename_i b hb
      split_ifs
      · exact .ok hleft hts
      · refine (ih.binary s b.right ts hts.rest).bind fun right rest hright hrest => ?_
        refine ih.operators s least _ rest ?_ hrest
        cases b.operator <;> simp [Infix.node, Node.isSpelled, hleft, hright]

theorem unary_succ {ts : List Lexeme} (hts : Spelled ts) :
    Spells (·.isSpelled = true) (parseUnary s (n + 1) ts) := by
  cases ts with
  | nil =>
    rw [parseUnary]
    exact ih.member s [] hts
  | cons t ts =>
    rw [parseUnary]
    split
    · refine (ih.unary s ts hts.rest).bind fun argument rest hargument hrest => ?_
      exact .ok (by simpa [Node.isSpelled] using hargument) hrest
    · exact ih.member s (t :: ts) hts

theorem accesses_succ {object : Node} {ts : List Lexeme} (hobject : object.isSpelled = true)
    (hts : Spelled ts) : Spells (·.isSpelled = true) (parseAccesses s (n + 1) object ts) := by
  generalize hfuel : n + 1 = fuel
  fun_cases parseAccesses s fuel object ts with
  | case1 => exact .error
  | case2 m span => exact .error
  | case3 m span _ t rest name hname =>
    cases hfuel
    have hword := isWord_memberName? hts.rest.head hname
    exact ih.accesses s _ rest (by simp [Node.isSpelled, hobject, hword]) hts.rest.rest
  | case4 m span t rest hname => exact .error
  | case5 m span ts =>
    cases hfuel
    refine (ih.expr s.inner _ hts.rest).bind fun index rest hindex hrest => ?_
    refine (spells_mark s .rbracket hrest).bind fun close rest _ hrest => ?_
    exact ih.accesses s _ rest (by simp [Node.isSpelled, hobject, hindex]) hrest
  | case6 m span ts =>
    cases hfuel
    refine (ih.items s.inner .rparen _ hts.rest).bind fun arguments rest harguments hrest => ?_
    refine (spells_mark s .rparen hrest).bind fun close rest _ hrest => ?_
    exact ih.accesses s _ rest (by simp [Node.isSpelled, hobject, harguments]) hrest
  | case7 => exact .ok hobject hts

theorem items_succ (close : Punct) {ts : List Lexeme} (hts : Spelled ts) :
    Spells (areSpelled · = true) (parseItems s close (n + 1) ts) := by
  rw [parseItems]
  split_ifs
  · exact .ok rfl hts
  · refine (ih.expr s ts hts).bind fun item rest hitem hrest => ?_
    dsimp only
    split_ifs
    · refine (ih.items s close _ hrest.tail).bind fun items rest hitems hrest => ?_
      exact .ok (by simp [areSpelled, hitem, hitems]) hrest
    · exact .ok (by simp [areSpelled, hitem]) hrest

theorem primary_succ {ts : List Lexeme} (hts : Spelled ts) :
    Spells (·.isSpelled = true) (parsePrimary s (n + 1) ts) := by
  cases ts with
  | nil =>
    rw [parsePrimary]
    exact .error
  | cons t ts =>
    obtain ⟨token, span⟩ := t
    unfold parsePrimary
    dsimp only
    split
    · rename_i name
      exact .ok hts.head hts.rest
    · exact .ok rfl hts.rest
    · exact .ok rfl hts.rest
    · exact .ok rfl hts.rest
    · exact .ok rfl hts.rest
    · exact .ok rfl hts.rest
    · refine (ih.expr s.inner ts hts.rest).bind fun inner rest hinner hrest => ?_
      refine (spells_mark s .rparen hrest).bind fun _ rest _ hrest => ?_
      exact .ok hinner hrest
    · refine (ih.items s.inner .rbracket ts hts.rest).bind fun elements rest helements hrest => ?_
      refine (spells_mark s .rbracket hrest).bind fun _ rest _ hrest => ?_
      exact .ok (by simpa [Node.isSpelled] using helements) hrest
    · refine (ih.properties s.inner ts hts.rest).bind fun properties rest hproperties hrest => ?_
      refine (spells_mark s .rbrace hrest).bind fun _ rest _ hrest => ?_
      exact .ok (by simpa [Node.isSpelled] using hproperties) hrest
    · rename_i body
      intro e rest h
      obtain ⟨parts, hparts, hok⟩ := bind_eq_ok.1 h
      have hspelled := ih.pieces s _ _ parts hparts
      obtain ⟨rfl, rfl⟩ := Prod.mk.inj (Except.ok.inj hok)
      exact ⟨by simpa [Node.isSpelled] using hspelled, hts.rest⟩
    · exact .error

theorem properties_succ {ts : List Lexeme} (hts : Spelled ts) :
    Spells (propertiesSpelled · = true) (parseProperties s (n + 1) ts) := by
  rw [parseProperties]
  split_ifs
  · exact .ok rfl hts
  · refine (ih.property s ts hts).bind fun p rest hp hrest => ?_
    dsimp only
    split_ifs
    · refine (ih.properties s _ hrest.tail).bind fun ps rest hps hrest => ?_
      exact .ok (by simp [propertiesSpelled, hp, hps]) hrest
    · exact .ok (by simp [propertiesSpelled, hp]) hrest

theorem keyed_succ (span : Span) {key : Key} {ts : List Lexeme} (hkey : key.isSpelled = true)
    (hts : Spelled ts) : Spells (·.isSpelled = true) (parseKeyed s (n + 1) span key ts) := by
  rw [parseKeyed]
  refine (spells_mark s .colon hts).bind fun _ rest _ hrest => ?_
  refine (ih.expr s rest hrest).bind fun value rest hvalue hrest => ?_
  exact .ok (by simp [Property.isSpelled, hkey, hvalue]) hrest

theorem property_succ {ts : List Lexeme} (hts : Spelled ts) :
    Spells (·.isSpelled = true) (parseProperty s (n + 1) ts) := by
  cases ts with
  | nil =>
    rw [parseProperty]
    exact .error
  | cons t ts =>
    obtain ⟨token, span⟩ := t
    unfold parseProperty
    dsimp only
    split
    · refine (ih.expr s ts hts.rest).bind fun key rest hkey hrest => ?_
      refine (spells_mark s .rbracket hrest).bind fun _ rest _ hrest => ?_
      refine (spells_mark s .colon hrest).bind fun _ rest _ hrest => ?_
      refine (ih.expr s rest hrest).bind fun value rest hvalue hrest => ?_
      exact .ok (by simp [Property.isSpelled, hkey, hvalue]) hrest
    · have hname := hts.head
      split_ifs
      · exact .ok hname hts.rest
      · exact ih.keyed s span _ ts (isWord_of_isName hname) hts.rest
    · exact ih.keyed s span _ ts rfl hts.rest
    · exact ih.keyed s span _ ts rfl hts.rest
    · exact ih.keyed s span _ ts (isWord_keyword _) hts.rest
    · exact .error

theorem pieces_succ {base : Nat} {ps : List Piece} {parts : List Node}
    (h : parsePieces s base (n + 1) ps = .ok parts) : areSpelled parts = true := by
  cases ps with
  | nil =>
    rw [parsePieces] at h
    obtain rfl := Except.ok.inj h
    rfl
  | cons piece ps =>
    cases piece with
    | text offset chars =>
      rw [parsePieces] at h
      split_ifs at h
      · exact ih.pieces s base ps parts h
      · obtain ⟨rest, hrest, hok⟩ := bind_eq_ok.1 h
        obtain rfl := Except.ok.inj hok
        simpa [areSpelled, Node.isSpelled] using ih.pieces s base ps rest hrest
    | code offset chars =>
      rw [parsePieces] at h
      simp only [bind_eq_ok, mapError_eq_ok] at h
      obtain ⟨ts, hts, ⟨part, left⟩, hpart, -, -, rest, hrest, hok⟩ := h
      obtain rfl := Except.ok.inj hok
      have hspelled := (ih.expr _ ts (spelled_tokenizeFrom hts) part left hpart).1
      simp [areSpelled, hspelled, ih.pieces s base ps rest hrest]

theorem succ : ParsesNames (n + 1) where
  expr s _ hts := ih.expr_succ s hts
  binary s least ts hts := by
    rw [parseBinary]
    exact (ih.unary s ts hts).bind fun left rest hleft hrest =>
      ih.operators s least left rest hleft hrest
  operators s least _ _ hleft hts := ih.operators_succ s least hleft hts
  unary s _ hts := ih.unary_succ s hts
  member s ts hts := by
    rw [parseMember]
    exact (ih.primary s ts hts).bind fun object rest hobject hrest =>
      ih.accesses s object rest hobject hrest
  accesses s _ _ hobject hts := ih.accesses_succ s hobject hts
  items s close _ hts := ih.items_succ s close hts
  primary s _ hts := ih.primary_succ s hts
  properties s _ hts := ih.properties_succ s hts
  property s _ hts := ih.property_succ s hts
  keyed s span _ _ hkey hts := ih.keyed_succ s span hkey hts
  pieces s _ _ _ h := ih.pieces_succ s h

omit ih in
theorem all (n : Nat) : ParsesNames n := by
  induction n with
  | zero => exact zero
  | succ n ih => exact ih.succ

end ParsesNames

def Filter.isSpelled (f : Filter) : Bool := isName f.name && areSpelled f.arguments

theorem spells_filters (s : Setting) (n : Nat) {ts : List Lexeme} (hts : Spelled ts) :
    Spells (fun fs => ∀ f ∈ fs, f.isSpelled = true) (parseFilters s n ts) := by
  induction n generalizing ts with
  | zero =>
    rw [parseFilters]
    exact .error
  | succ n ih =>
    generalize hfuel : n + 1 = fuel
    fun_cases parseFilters s fuel ts with
    | case1 => exact .error
    | case2 m bar name span ts next hparen =>
      cases hfuel
      have hnext := hts.rest.rest
      refine ((ParsesNames.all n).items s.inner .rparen _ hnext.tail).bind
        fun arguments rest harguments hrest => ?_
      refine (spells_mark s .rparen hrest).bind fun close rest _ hrest => ?_
      change Spells _ (parseFilters s n rest >>= _)
      refine (ih hrest).bind fun filters rest hfilters hrest => .ok ?_ hrest
      rw [List.forall_mem_cons]
      have hname : isName name = true := hts.rest.head
      exact ⟨by simp [Filter.isSpelled, hname, harguments], hfilters⟩
    | case3 m bar name span ts next hparen =>
      cases hfuel
      change Spells _ (parseFilters s n ts >>= _)
      refine (ih hts.rest.rest).bind fun filters rest hfilters hrest => .ok ?_ hrest
      rw [List.forall_mem_cons]
      have hname : isName name = true := hts.rest.head
      exact ⟨by simp [Filter.isSpelled, hname, areSpelled], hfilters⟩
    | case4 => exact .error
    | case5 => exact .ok (by simp) hts

theorem parse_isSpelled {source : String} {e : Piped} (h : parse source = .ok e) :
    e.expression.isSpelled = true ∧ ∀ f ∈ e.filters, f.isSpelled = true := by
  simp only [parse, runParser, mapError_eq_ok, bind_eq_ok] at h
  obtain ⟨ts, hts, ⟨piped, rest⟩, hpiped, -, -, hok⟩ := h
  obtain rfl := Except.ok.inj hok
  simp only [parsePiped, bind_eq_ok] at hpiped
  obtain ⟨⟨expression, middle⟩, hexpression, ⟨filters, left⟩, hfilters, hok⟩ := hpiped
  obtain ⟨rfl, -⟩ := Prod.mk.inj (Except.ok.inj hok)
  obtain ⟨hspelled, hmiddle⟩ :=
    (ParsesNames.all _).expr _ ts (spelled_tokenizeFrom hts) expression middle hexpression
  exact ⟨hspelled, (spells_filters _ _ hmiddle filters left hfilters).1⟩

end VueToSan.Expr
