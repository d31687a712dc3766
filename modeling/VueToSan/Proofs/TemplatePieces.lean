import VueToSan.Proofs.NestedLocations

/-!
# Pieces of scanned templates

The scanner finds where a template string ends, and its body is then cut into pieces by a scan of
its own. In a body that the scanner found, every interpolation is closed, so the pieces are all of
the body but the marks around the codes.
-/

namespace VueToSan.Expr

open VueToSan.Text

/-! ## Texts and codes in turn -/

def written (first : List Char) (more : List (List Char × List Char)) : List Char :=
  first ++ more.flatMap fun (code, text) => '$' :: '{' :: (code ++ '}' :: text)

def laidPieces (offset : Nat) (first : List Char) : List (List Char × List Char) → List Piece
  | [] => [.text offset first]
  | (code, text) :: more =>
    let start := offset + byteLength first + 2
    .text offset first :: .code start code :: laidPieces (start + byteLength code + 1) text more

theorem written_cons (first code text : List Char) (more : List (List Char × List Char)) :
    written first ((code, text) :: more) =
      first ++ '$' :: '{' :: (code ++ '}' :: written text more) := by
  simp [written]

theorem exists_of_mem_laidPieces {first : List Char} {more : List (List Char × List Char)}
    {offset : Nat} {code : List Char} (front : List Char)
    (h : .code offset code ∈ laidPieces (byteLength front) first more) :
    ∃ before after, front ++ written first more = before ++ '$' :: '{' :: (code ++ '}' :: after) ∧
      offset = byteLength before + 2 := by
  induction more generalizing front first with
  | nil => simp [laidPieces] at h
  | cons next more ih =>
    obtain ⟨code', text⟩ := next
    rw [written_cons]
    rcases List.mem_cons.1 h with hpiece | h
    · cases hpiece
    · rcases List.mem_cons.1 h with hpiece | h
      · obtain ⟨rfl, rfl⟩ := Piece.code.inj hpiece
        exact ⟨front ++ first, written text more, by simp, by simp⟩
      · have hfront : byteLength (front ++ (first ++ '$' :: '{' :: (code' ++ ['}']))) =
            byteLength front + byteLength first + 2 + byteLength code' + 1 := by
          have hdollar : '$'.utf8Size = 1 := rfl
          have hopen : '{'.utf8Size = 1 := rfl
          have hclose : '}'.utf8Size = 1 := rfl
          simp only [byteLength_append, byteLength_cons, byteLength_nil, hdollar, hopen, hclose]
          omega
        rw [← hfront] at h
        obtain ⟨before, after, htext, hoffset⟩ := ih _ h
        exact ⟨before, after, by simpa using htext, hoffset⟩

/-! ## What texts and codes look like -/

/-- The open braces and the quote behind a character of a code; `none` where it closes the code. -/
def afterChar (depth : Nat) (quote : Option Char) (c : Char) : Option (Nat × Option Char) :=
  match quote with
  | some q => some (depth, if c = q then none else some q)
  | none =>
    if c = '{' then some (depth + 1, none)
    else if c = '}' then if depth = 0 then none else some (depth - 1, none)
    else if c = '\x27' ∨ c = '\x22' then some (depth, some c)
    else some (depth, none)

/-- The open braces and the quote behind characters of a code, unless one of them closes it or the
last one is a backslash that escapes what follows. -/
def crossing (depth : Nat) (quote : Option Char) : List Char → Option (Nat × Option Char)
  | [] => some (depth, quote)
  | ['\\'] => none
  | '\\' :: _ :: cs => crossing depth quote cs
  | c :: cs => (afterChar depth quote c).bind fun (depth, quote) => crossing depth quote cs

/-- A code that is all of its interpolation. -/
def IsInterior (cs : List Char) : Prop := crossing 0 none cs = some (0, none)

instance (cs : List Char) : Decidable (IsInterior cs) :=
  inferInstanceAs (Decidable (_ = _))

def isText : List Char → Bool
  | [] => true
  | ['\\'] => false
  | '\\' :: _ :: cs => isText cs
  | '$' :: '{' :: _ => false
  | c :: cs => c != '\x60' && isText cs

structure AreParts (first : List Char) (more : List (List Char × List Char)) : Prop where
  first : isText first = true
  more : ∀ p ∈ more, IsInterior p.1 ∧ isText p.2 = true

theorem crossing_char {c : Char} (hc : c ≠ '\\') (depth : Nat) (quote : Option Char)
    (cs : List Char) :
    crossing depth quote (c :: cs) =
      (afterChar depth quote c).bind fun s => crossing s.1 s.2 cs := by
  rw [crossing]
  · exact fun h => absurd h hc
  · exact fun _ _ h => absurd h hc

theorem isText_char {c : Char} (hc : c ≠ '\\') {cs : List Char}
    (hcode : ∀ ds, c = '$' → cs = '{' :: ds → False) :
    isText (c :: cs) = (c != '\x60' && isText cs) := by
  rw [isText]
  · exact fun h => absurd h hc
  · exact fun _ _ h => absurd h hc
  · exact hcode

theorem AreParts.tail {code text : List Char} {first : List Char}
    {more : List (List Char × List Char)} (h : AreParts first ((code, text) :: more)) :
    IsInterior code ∧ AreParts text more := by
  obtain ⟨⟨hcode, htext⟩, hmore⟩ := List.forall_mem_cons.1 h.more
  exact ⟨hcode, htext, hmore⟩

/-! ## What the scanner finds -/

/-- From inside a text: texts and codes in turn. -/
def TextBody (body : List Char) : Prop :=
  ∃ first more, body = written first more ∧ AreParts first more

def CodeBody (depth : Nat) (quote : Option Char) (body : List Char) : Prop :=
  ∃ code rest, body = code ++ '}' :: rest ∧ crossing depth quote code = some (0, none) ∧
    TextBody rest

/-- From where the scanner stands. Quotes only count in codes. -/
def BodyFrom : (depth : Nat) → (quote : Option Char) → List Char → Prop
  | 0, none => TextBody
  | 0, some _ => fun _ => True
  | depth + 1, quote => CodeBody depth quote

namespace TextBody

variable {body : List Char}

theorem nil : TextBody [] := ⟨[], [], rfl, rfl, List.forall_mem_nil _⟩

theorem escape (c : Char) (h : TextBody body) : TextBody ('\\' :: c :: body) := by
  obtain ⟨first, more, rfl, hparts⟩ := h
  exact ⟨'\\' :: c :: first, more, rfl, hparts.first, hparts.more⟩

theorem char {c : Char} (hc : c ≠ '\\') (hclose : c ≠ '\x60')
    (hcode : ∀ ds, c = '$' → body = '{' :: ds → False) (h : TextBody body) :
    TextBody (c :: body) := by
  obtain ⟨first, more, rfl, hparts⟩ := h
  refine ⟨c :: first, more, rfl, ?_, hparts.more⟩
  rw [isText_char hc fun ds hdollar hfirst => hcode _ hdollar (by rw [hfirst]; rfl), hparts.first,
    Bool.and_true, bne_iff_ne]
  exact hclose

theorem interpolation (h : CodeBody 0 none body) : TextBody ('$' :: '{' :: body) := by
  obtain ⟨code, rest, rfl, hcode, first, more, rfl, hparts⟩ := h
  refine ⟨[], (code, first) :: more, by rw [written_cons]; rfl, rfl, ?_⟩
  exact List.forall_mem_cons.2 ⟨⟨hcode, hparts.first⟩, hparts.more⟩

end TextBody

namespace CodeBody

variable {depth : Nat} {quote : Option Char} {body : List Char}

theorem close (h : TextBody body) : CodeBody 0 none ('}' :: body) :=
  ⟨[], body, rfl, rfl, h⟩

theorem escape (c : Char) (h : CodeBody depth quote body) :
    CodeBody depth quote ('\\' :: c :: body) := by
  obtain ⟨code, rest, rfl, hcode, hrest⟩ := h
  exact ⟨'\\' :: c :: code, rest, rfl, hcode, hrest⟩

theorem char {c : Char} (hc : c ≠ '\\') {depth' : Nat} {quote' : Option Char}
    (hafter : afterChar depth quote c = some (depth', quote')) (h : CodeBody depth' quote' body) :
    CodeBody depth quote (c :: body) := by
  obtain ⟨code, rest, rfl, hcode, hrest⟩ := h
  refine ⟨c :: code, rest, rfl, ?_, hrest⟩
  rw [crossing_char hc, hafter]
  exact hcode

end CodeBody

-- The induction is on the scanner; the body that it finds lacks the text behind its end.
theorem bodyFrom_of_templateBody? {depth : Nat} {quote : Option Char} {cs body : List Char}
    (h : templateBody? depth quote cs = some body) : BodyFrom depth quote body := by
  fun_induction templateBody? depth quote cs generalizing body with
  | case1 => cases h
  | case2 => cases h
  | case3 depth quote c cs ih =>
    obtain ⟨inner, hinner, rfl⟩ := Option.map_eq_some_iff.1 h
    cases depth with
    | zero =>
      cases quote with
      | none => exact TextBody.escape c (ih hinner)
      | some q => trivial
    | succ depth => exact CodeBody.escape c (ih hinner)
  | case4 depth q c cs hone hmore ih =>
    obtain ⟨inner, hinner, rfl⟩ := Option.map_eq_some_iff.1 h
    cases depth with
    | zero => trivial
    | succ depth => exact CodeBody.char (ne_backslash hone hmore) rfl (ih hinner)
  | case5 cs ih =>
    obtain ⟨inner, hinner, rfl⟩ := Option.map_eq_some_iff.1 h
    exact TextBody.interpolation (ih hinner)
  | case6 cs =>
    obtain rfl := Option.some.inj h
    exact TextBody.nil
  | case7 c cs hone hmore hcode hclose ih =>
    obtain ⟨inner, hinner, rfl⟩ := Option.map_eq_some_iff.1 h
    obtain ⟨rest, rfl, -⟩ := templateBody?_closed hinner
    refine TextBody.char (ne_backslash hone hmore) hclose (fun ds hdollar hinner => ?_) (ih hinner)
    rw [hinner] at hcode
    exact hcode _ hdollar rfl
  | case8 depth c cs hone hmore r =>
    rename_i ih₄ ih₃ ih₂ ih₁
    obtain ⟨inner, hinner, rfl⟩ := Option.map_eq_some_iff.1 h
    have hc := ne_backslash hone hmore
    simp only [r] at hinner
    split_ifs at hinner with hopen hshut hquote
    · exact CodeBody.char hc (by rw [afterChar, if_pos hopen]) (ih₄ hinner)
    · subst hshut
      cases depth with
      | zero => exact CodeBody.close (ih₃ hinner)
      | succ depth => exact CodeBody.char hc rfl (ih₃ hinner)
    · exact CodeBody.char hc (by rw [afterChar, if_neg hopen, if_neg hshut, if_pos hquote])
        (ih₂ hinner)
    · exact CodeBody.char hc (by rw [afterChar, if_neg hopen, if_neg hshut, if_neg hquote])
        (ih₁ hinner)

/-! ## What is found again -/

theorem templateBody?_char {c : Char} (hc : c ≠ '\\') (depth : Nat) (quote : Option Char)
    (cs : List Char) :
    templateBody? (depth + 1) quote (c :: cs) =
      (match afterChar depth quote c with
        | some s => templateBody? (s.1 + 1) s.2 cs
        | none => templateBody? 0 none cs).map (c :: ·) := by
  cases quote with
  | some q => exact templateBody?_quoted hc (depth + 1) q cs
  | none =>
    rw [templateBody?_code hc, afterChar]
    split_ifs with hopen hclose hdepth hquote
    · rfl
    · rw [hdepth]
    · obtain ⟨depth, rfl⟩ := Nat.exists_eq_succ_of_ne_zero hdepth
      rfl
    · rfl
    · rfl

theorem map_append_map (cs : List Char) {ds : List Char} (found : Option (List Char)) :
    (found.map (ds ++ ·)).map (cs ++ ·) = found.map (cs ++ ds ++ ·) := by
  rw [Option.map_map]
  congr 1
  funext body
  exact (List.append_assoc cs ds body).symm

theorem templateBody?_append_text {cs rest : List Char} (h : isText cs = true)
    (hrest : rest.head? ≠ some '{') :
    templateBody? 0 none (cs ++ rest) = (templateBody? 0 none rest).map (cs ++ ·) := by
  fun_induction isText cs with
  | case1 => simp
  | case2 => cases h
  | case3 c cs ih => simpa [templateBody?, ih h] using map_append_map ['\\', c] _
  | case4 => cases h
  | case5 c cs hone hmore hcode ih =>
    rw [Bool.and_eq_true, bne_iff_ne] at h
    rw [List.cons_append, templateBody?_text (ne_backslash hone hmore) h.1 fun ds hdollar hds => ?_,
      ih h.2]
    · exact map_append_map [c] _
    · cases cs with
      | nil => exact hrest (by rw [List.nil_append] at hds; rw [hds]; rfl)
      | cons d cs => exact hcode cs hdollar (by rw [(List.cons.inj hds).1])

theorem templateBody?_append_code {depth depth' : Nat} {quote quote' : Option Char}
    {cs : List Char} (h : crossing depth quote cs = some (depth', quote')) (rest : List Char) :
    templateBody? (depth + 1) quote (cs ++ rest) =
      (templateBody? (depth' + 1) quote' rest).map (cs ++ ·) := by
  fun_induction crossing depth quote cs with
  | case1 =>
    obtain ⟨rfl, rfl⟩ := Prod.mk.inj (Option.some.inj h)
    simp
  | case2 => cases h
  | case3 depth quote c cs ih =>
    simpa [templateBody?, ih h] using map_append_map ['\\', c] _
  | case4 depth quote c cs hone hmore ih =>
    obtain ⟨s, hafter, hcross⟩ := Option.bind_eq_some_iff.1 h
    rw [List.cons_append, templateBody?_char (ne_backslash hone hmore), hafter]
    dsimp only
    rw [ih s.1 s.2 hcross]
    exact map_append_map [c] _

theorem templateBody?_written {first : List Char} {more : List (List Char × List Char)}
    (h : AreParts first more) (rest : List Char) :
    templateBody? 0 none (written first more ++ '\x60' :: rest) = some (written first more) := by
  induction more generalizing first with
  | nil =>
    rw [written, List.flatMap_nil, List.append_nil, templateBody?_append_text h.first (by simp)]
    simp [templateBody?]
  | cons next more ih =>
    obtain ⟨code, text⟩ := next
    obtain ⟨hcode, hparts⟩ := h.tail
    have hclose : templateBody? 1 none ('}' :: (written text more ++ '\x60' :: rest)) =
        some ('}' :: written text more) := by
      rw [templateBody?_char (by decide), afterChar, if_neg (by decide), if_pos rfl, if_pos rfl]
      simp [ih hparts]
    have hcross := templateBody?_append_code hcode ('}' :: (written text more ++ '\x60' :: rest))
    rw [hclose, Option.map_some] at hcross
    have hopen : templateBody? 0 none
        ('$' :: '{' :: (code ++ '}' :: (written text more ++ '\x60' :: rest))) =
          some ('$' :: '{' :: (code ++ '}' :: written text more)) := by
      rw [templateBody?, hcross, Option.map_some]
    have hdollar : ('$' :: '{' :: (code ++ '}' :: (written text more ++ '\x60' :: rest))).head? ≠
        some '{' := by simp
    have htext := templateBody?_append_text h.first hdollar
    rw [hopen, Option.map_some] at htext
    rw [written_cons]
    simpa using htext

/-! ## How it is cut -/

theorem splitText_char {c : Char} (hc : c ≠ '\\') {cs : List Char}
    (hcode : ∀ ds, c = '$' → cs = '{' :: ds → False) (offset : Nat) (seen : List Char) :
    splitText offset seen (c :: cs) = splitText offset (c :: seen) cs := by
  rw [splitText]
  · exact fun _ _ h => absurd h hc
  · exact hcode

theorem splitCode_char {c : Char} (hc : c ≠ '\\') (offset : Nat) (seen : List Char) (depth : Nat)
    (quote : Option Char) (cs : List Char) :
    splitCode offset seen (depth + 1) quote (c :: cs) =
      match afterChar depth quote c with
      | some s => splitCode offset (c :: seen) (s.1 + 1) s.2 cs
      | none => .code offset seen.reverse :: splitText (offset + byteLength seen + 1) [] cs := by
  cases quote with
  | some q =>
    rw [splitCode]
    · rfl
    · exact fun _ _ h => absurd h hc
  | none =>
    rw [splitCode, afterChar]
    · split_ifs with hopen hclose hdepth hdepth' hdepth' hquote
      · rfl
      · rfl
      · omega
      · omega
      · obtain ⟨depth, rfl⟩ := Nat.exists_eq_succ_of_ne_zero hdepth'
        rfl
      · rfl
      · rfl
    · exact fun _ _ h => absurd h hc

theorem splitText_append {cs rest : List Char} (h : isText cs = true)
    (hrest : rest.head? ≠ some '{') (offset : Nat) (seen : List Char) :
    splitText offset seen (cs ++ rest) = splitText offset (cs.reverse ++ seen) rest := by
  fun_induction isText cs generalizing seen with
  | case1 => rfl
  | case2 => cases h
  | case3 c cs ih => simp [splitText, ih h]
  | case4 => cases h
  | case5 c cs hone hmore hcode ih =>
    rw [Bool.and_eq_true] at h
    rw [List.cons_append, splitText_char (ne_backslash hone hmore) fun ds hdollar hds => ?_, ih h.2]
    · simp
    · cases cs with
      | nil => exact hrest (by rw [List.nil_append] at hds; rw [hds]; rfl)
      | cons d cs => exact hcode cs hdollar (by rw [(List.cons.inj hds).1])

theorem splitCode_append {depth depth' : Nat} {quote quote' : Option Char} {cs : List Char}
    (h : crossing depth quote cs = some (depth', quote')) (offset : Nat) (seen rest : List Char) :
    splitCode offset seen (depth + 1) quote (cs ++ rest) =
      splitCode offset (cs.reverse ++ seen) (depth' + 1) quote' rest := by
  fun_induction crossing depth quote cs generalizing seen with
  | case1 =>
    obtain ⟨rfl, rfl⟩ := Prod.mk.inj (Option.some.inj h)
    rfl
  | case2 => cases h
  | case3 depth quote c cs ih => simp [splitCode, ih h]
  | case4 depth quote c cs hone hmore ih =>
    obtain ⟨s, hafter, hcross⟩ := Option.bind_eq_some_iff.1 h
    rw [List.cons_append, splitCode_char (ne_backslash hone hmore), hafter]
    dsimp only
    rw [ih s.1 s.2 hcross]
    simp

theorem pieces_written {first : List Char} {more : List (List Char × List Char)}
    (h : AreParts first more) (offset : Nat) :
    splitText offset [] (written first more) = laidPieces offset first more := by
  induction more generalizing first offset with
  | nil =>
    have hend : splitText offset [] (first ++ []) = splitText offset (first.reverse ++ []) [] :=
      splitText_append h.first (by simp) offset []
    rw [written, List.flatMap_nil, hend, splitText, List.append_nil, List.reverse_reverse]
    rfl
  | cons next more ih =>
    obtain ⟨code, text⟩ := next
    obtain ⟨hcode, hparts⟩ := h.tail
    have hdollar : ('$' :: '{' :: (code ++ '}' :: written text more)).head? ≠ some '{' := by simp
    have hopen := splitText_append h.first hdollar offset []
    rw [written_cons, hopen, splitText, splitCode_append hcode, splitCode_char (by decide)]
    simp [afterChar, laidPieces, byteLength_reverse, ih hparts]

/-! ## Template tokens -/

theorem StandsAt.sliceBytes? {cs text : List Char} {span : Span} (h : StandsAt 0 cs span text) :
    Text.sliceBytes? span.start span.stop cs = some text := by
  obtain ⟨before, after, rfl, rfl⟩ := h
  simpa using sliceBytes?_append before text after

theorem Scans.templateBody? {c : Char} {text : List Char} {body : String}
    (h : Scans c text [] (.template body)) :
    templateBody? 0 none (body.toList ++ ['\x60']) = some body.toList := by
  obtain ⟨rfl, rfl⟩ := List.cons.inj h.template
  have hscan : scanTemplate (body.toList ++ ['\x60'] ++ []) = _ := h.scan [] List.nil_prefix
  rw [List.append_nil, scanTemplate] at hscan
  split at hscan
  · rename_i found hfound
    obtain ⟨htoken, -⟩ := Scanned.token.inj hscan
    rw [hfound, ← Token.template.inj htoken, String.toList_ofList]
  · cases hscan

/-- How the pieces of a template lie in its body and in the source. -/
structure PiecesFit (base : Nat) (source : String) (span : Span) (body : List Char) : Prop where
  /-- The pieces are texts with codes between, and the body is made of them. -/
  alternate : ∃ first more, pieces body = laidPieces 0 first more ∧ body = written first more
  order : Laid 0 (byteLength body) ((pieces body).map (·.spanFrom 0))
  slices : ∀ p ∈ pieces body,
    sliceBytes? (p.spanFrom 0).start (p.spanFrom 0).stop body = some p.chars
  marks : ∀ offset code, .code offset code ∈ pieces body → ∃ before after,
    body = before ++ '$' :: '{' :: (code ++ '}' :: after) ∧ offset = byteLength before + 2
  source : ∀ p ∈ pieces body, StandsAt base source.toList (p.spanFrom (span.start + 1)) p.chars

/-- The pieces that the body of a scanned template is cut into are all of it. -/
theorem tokenize_template_pieces {source : String} {base : Nat} {ts : List Lexeme} {body : String}
    {span : Span} (h : tokenize source base = .ok ts) (ht : ⟨.template body, span⟩ ∈ ts) :
    PiecesFit base source span body.toList := by
  obtain ⟨c, text, hstands, -, hscans⟩ := (tokenizeFrom_eq_ok.1 h).stands _ ht
  have hbody : TextBody body.toList := bodyFrom_of_templateBody? hscans.templateBody?
  obtain ⟨first, more, hwritten, hparts⟩ := hbody
  have hpieces : pieces body.toList = laidPieces 0 first more := by
    rw [pieces, hwritten, pieces_written hparts]
  have hcuts := cuts_pieces 0 body.toList
  constructor
  · exact ⟨first, more, hpieces, hwritten⟩
  · simpa using hcuts.laid
  · exact fun p hp => (hcuts.stands p hp).sliceBytes?
  · intro offset code hcode
    rw [hpieces] at hcode
    rw [hwritten]
    exact exists_of_mem_laidPieces [] hcode
  · intro p hp
    rw [hscans.template] at hstands
    have hinside : StandsAt base source.toList
        ⟨span.start + 1, span.start + 1 + byteLength body.toList⟩ body.toList :=
      hstands.inner ⟨['\x60'], ['\x60'], rfl, rfl⟩
    exact hinside.inner ((cuts_pieces (span.start + 1) body.toList).stands p hp)

def sampleBody : String :=
  "a\\é$\x7bf(\x7bk: '\x7d\x60'\x7d)\x7d$\x7b\"\\\"\x7b\"\x7d"

theorem tokenize_sampleBody :
    tokenize ("\x60" ++ sampleBody ++ "\x60") 7 = .ok [⟨.template sampleBody, ⟨7, 36⟩⟩] :=
  rfl

theorem pieces_sampleBody :
    (pieces sampleBody.toList).length = 5 ∧
      PiecesFit 7 ("\x60" ++ sampleBody ++ "\x60") ⟨7, 36⟩ sampleBody.toList :=
  ⟨by decide +kernel, tokenize_template_pieces tokenize_sampleBody (List.mem_singleton.2 rfl)⟩

end VueToSan.Expr
