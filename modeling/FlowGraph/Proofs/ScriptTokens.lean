import FlowGraph.Proofs.NumberText

/-! How tokens are spelled. A text that spells tokens, with blanks where two would run together, is
read as these tokens. -/
namespace FlowGraph.Script

/-! ### Characters -/

theorem isWordStart_bounds {c : Char} (h : isWordStart c = true) : 'A'.toNat ≤ c.toNat := by
  simp only [isWordStart, Bool.or_eq_true, Bool.and_eq_true, decide_eq_true_eq, beq_iff_eq] at h
  rcases h with (⟨h, -⟩ | ⟨h, -⟩) | rfl
  · exact Nat.le_trans (by decide) (UInt32.le_iff_toNat_le.1 h)
  · exact UInt32.le_iff_toNat_le.1 h
  · decide

theorem isDigit_bounds {c : Char} (h : isDigit c = true) :
    '0'.toNat ≤ c.toNat ∧ c.toNat ≤ '9'.toNat := by
  simp only [isDigit, Bool.and_eq_true, decide_eq_true_eq] at h
  exact ⟨UInt32.le_iff_toNat_le.1 h.1, UInt32.le_iff_toNat_le.1 h.2⟩

/-- What starts a word or a number is no blank, comment, quote or sign. -/
theorem isSpace_of_bounds {c : Char} (h : '0'.toNat ≤ c.toNat) :
    isSpace c = false ∧ c ≠ '#' ∧ c ≠ '\x22' ∧ c ≠ '-' := by
  have hne : ∀ d : Char, d.toNat < '0'.toNat → c ≠ d := fun d hd heq => by
    rw [heq] at h
    exact Nat.not_le.2 hd h
  refine ⟨?_, hne _ (by decide), hne _ (by decide), hne _ (by decide)⟩
  simp [isSpace, hne ' ' (by decide), hne '\t' (by decide), hne '\r' (by decide),
    hne '\n' (by decide), hne '\x0c' (by decide)]

/-! ### Single tokens -/

inductive Spelling : List Char → Token → Prop
  | mark {c : Char} {m : Mark} (ofChar : Mark.ofChar? c = some m) : Spelling [c] (.mark m)
  | arrow : Spelling ['-', '>'] (.mark .arrow)
  | text (s : String) : Spelling (Text.quote s).toList (.text s)
  | word {c : Char} {cs : List Char} (start : isWordStart c = true)
      (more : ∀ x ∈ cs, isWordChar x = true) :
      Spelling (c :: cs) (wordToken (String.ofList (c :: cs)))
  | number {cs : List Char} {x : Number} (chars : NumberChars cs x) : Spelling cs (.number x)

/-- Whether a token can run together with what follows it. -/
def Token.isOpen : Token → Bool
  | .text _ | .mark _ => false
  | _ => true

theorem quotedChars_escape {c : Char} {cs : List Char} :
    quotedChars (Text.escape c ++ cs) = Text.escape c ++ quotedChars cs := by
  unfold Text.escape
  split <;> try rfl
  next hquote hslash _ _ _ =>
    rw [List.singleton_append, quotedChars.eq_def]
    split
    · next h => exact absurd (List.cons.inj h).1 hslash
    · next d ds _ h =>
      obtain ⟨rfl, rfl⟩ := List.cons.inj h
      rw [if_neg (by simpa using ⟨hquote, hslash⟩)]
      rfl
    · next h => cases h

theorem quotedChars_escapeAll (cs rest : List Char) :
    quotedChars (Text.escapeAll cs ++ '\x22' :: rest) = Text.escapeAll cs := by
  induction cs with
  | nil =>
    rw [Text.escapeAll, List.flatMap_nil, List.nil_append, quotedChars]
    · rfl
    · intro c cs h
      exact absurd h (by decide)
  | cons c cs ih =>
    rw [Text.escapeAll, List.flatMap_cons, List.append_assoc, quotedChars_escape]
    exact congrArg (Text.escape c ++ ·) ih

theorem scan_text (s : String) (rest : List Char) :
    scan '\x22' (Text.escapeAll s.toList ++ '\x22' :: rest) =
      .token (.text s) ((Text.escapeAll s.toList).length + 1) := by
  simp [scan, isSpace, quotedChars_escapeAll]

theorem scan_word {c : Char} {cs rest : List Char} (hstart : isWordStart c = true)
    (hmore : ∀ x ∈ cs, isWordChar x = true) (hrest : Delimited rest) :
    scan c (cs ++ rest) = .token (wordToken (String.ofList (c :: cs))) cs.length := by
  have hbounds := isWordStart_bounds hstart
  obtain ⟨hspace, hcomment, hquote, hminus⟩ := isSpace_of_bounds (Nat.le_trans (by decide) hbounds)
  have hdigit : isDigit c = false := Bool.eq_false_iff.2 fun h => by
    have hle := Nat.le_trans hbounds (isDigit_bounds h).2
    exact absurd hle (by decide)
  have htake := takeWhile_append hmore fun c hc => (hrest c hc).1
  simp [scan, hspace, hcomment, hquote, hminus, hdigit, hstart, htake]

theorem Numeral.exists_cons {cs : List Char} {d : Decimal} (h : Numeral cs d) :
    ∃ c cs', cs = c :: cs' ∧ isDigit c = true := by
  cases h with
  | @whole ds some digits =>
    obtain ⟨c, ds', rfl⟩ := List.exists_cons_of_ne_nil some
    exact ⟨c, ds', rfl, digits c List.mem_cons_self⟩
  | @fraction ds fs some digits _ _ =>
    obtain ⟨c, ds', rfl⟩ := List.exists_cons_of_ne_nil some
    exact ⟨c, ds' ++ '.' :: fs, rfl, digits c List.mem_cons_self⟩

theorem scan_numeral {cs rest : List Char} {d : Decimal} (hcs : Numeral cs d)
    (hrest : Delimited rest) :
    ∃ c cs', cs = c :: cs' ∧
      scan c (cs' ++ rest) = .token (.number (d.toNumber false)) cs'.length := by
  have hread := unsignedNumber_numeral hcs hrest false
  obtain ⟨c, cs, rfl, hdigit⟩ := hcs.exists_cons
  obtain ⟨hspace, hcomment, hquote, -⟩ := isSpace_of_bounds (isDigit_bounds hdigit).1
  rw [List.cons_append] at hread
  exact ⟨c, cs, rfl, by simp [scan, hspace, hcomment, hquote, hdigit, hread]⟩

theorem scan_negative {cs rest : List Char} {d : Decimal} (hcs : Numeral cs d)
    (hrest : Delimited rest) :
    scan '-' (cs ++ rest) = .token (.number (d.toNumber true)) cs.length := by
  have hread := unsignedNumber_numeral hcs hrest true
  obtain ⟨c, cs, rfl, hdigit⟩ := hcs.exists_cons
  have harrow : c ≠ '>' := by
    rintro rfl
    exact absurd hdigit (by decide)
  have hinf : c ≠ 'i' := by
    rintro rfl
    exact absurd hdigit (by decide)
  rw [List.cons_append] at hread ⊢
  have hminus : isDigit '-' = false := by decide
  simp [scan, isSpace, hminus, hinf, hdigit, hread]

/-- What spells a token is read as the token. -/
theorem Spelling.scan {cs rest : List Char} {t : Token} (h : Spelling cs t)
    (hrest : t.isOpen = true → Delimited rest) :
    ∃ c cs', cs = c :: cs' ∧ Script.scan c (cs' ++ rest) = .token t cs'.length := by
  cases h with
  | @mark c m ofChar =>
    refine ⟨c, [], rfl, ?_⟩
    unfold Mark.ofChar? at ofChar
    split at ofChar <;> cases ofChar <;> rfl
  | arrow => exact ⟨'-', ['>'], rfl, rfl⟩
  | text s =>
    refine ⟨'\x22', Text.escapeAll s.toList ++ ['\x22'], by simp [Text.quote], ?_⟩
    simpa using scan_text s rest
  | @word c cs start more =>
    have hopen : (wordToken (String.ofList (c :: cs))).isOpen = true := by
      unfold wordToken
      repeat' split
      all_goals rfl
    exact ⟨c, cs, rfl, scan_word start more (hrest hopen)⟩
  | number chars =>
    have hdelimited : Delimited rest := hrest rfl
    cases chars with
    | nan =>
      exact ⟨'n', ['a', 'n'], rfl, scan_word (by decide)
        (List.all_eq_true.1 (by decide)) hdelimited⟩
    | infinite =>
      exact ⟨'i', ['n', 'f'], rfl, scan_word (by decide)
        (List.all_eq_true.1 (by decide)) hdelimited⟩
    | minusInfinite => exact ⟨'-', ['i', 'n', 'f'], rfl, rfl⟩
    | unsigned numeral => exact scan_numeral numeral hdelimited
    | @negative cs d numeral => exact ⟨'-', cs, rfl, scan_negative numeral hdelimited⟩

/-! ### Texts -/

inductive Spells : List Char → List Token → Prop
  | done : Spells [] []
  | blank {c : Char} {cs : List Char} {ts : List Token} (space : isSpace c = true)
      (more : Spells cs ts) :
      Spells (c :: cs) ts
  | token {cs rest : List Char} {t : Token} {ts : List Token} (first : Spelling cs t)
      (delimited : t.isOpen = true → Delimited rest) (more : Spells rest ts) :
      Spells (cs ++ rest) (t :: ts)

theorem Spells.lexemesFrom {cs : List Char} {ts : List Token} (h : Spells cs ts)
    (offset line : Nat) :
    ∃ ls, Script.lexemesFrom offset line cs = .ok ls ∧ ls.map (·.token) = ts := by
  induction h generalizing offset line with
  | done => exact ⟨[], by rw [Script.lexemesFrom], rfl⟩
  | @blank c cs ts space more ih =>
    have hscan : scan c cs = .skip 0 := by simp [scan, space]
    rw [Script.lexemesFrom]
    simp only [hscan]
    exact ih _ _
  | @token cs rest t ts first delimited more ih =>
    obtain ⟨c, cs, rfl, hscan⟩ := first.scan delimited
    rw [List.cons_append, Script.lexemesFrom]
    simp only [hscan, List.drop_left]
    obtain ⟨ls, hls, htokens⟩ := ih _ _
    rw [hls]
    exact ⟨_, rfl, congrArg (t :: ·) htokens⟩

theorem Spells.blanks {cs rest : List Char} {ts : List Token} (hcs : cs.all isSpace = true)
    (hrest : Spells rest ts) : Spells (cs ++ rest) ts := by
  induction cs with
  | nil => exact hrest
  | cons c cs ih =>
    rw [List.all_cons, Bool.and_eq_true] at hcs
    exact .blank hcs.1 (ih hcs.2)

/-- A text that is read as the tokens, whatever stands behind it. -/
def Reads (s : String) (ts : List Token) : Prop :=
  ∀ rest more, Spells rest more → Spells (s.toList ++ rest) (ts ++ more)

/-- A text that is read as the tokens, if its last token ends with it. -/
def ReadsOpen (s : String) (ts : List Token) : Prop :=
  ∀ rest more, Delimited rest → Spells rest more → Spells (s.toList ++ rest) (ts ++ more)

def delimits (s : String) : Bool := s.toList.head?.any fun c => !isWordChar c && c != '.'

theorem delimited_of_delimits {s : String} (h : delimits s = true) (rest : List Char) :
    Delimited (s.toList ++ rest) := by
  unfold delimits at h
  cases hs : s.toList with
  | nil => simp [hs] at h
  | cons c cs =>
    intro x hx
    obtain rfl : c = x := by simpa using hx
    simpa [hs] using h

theorem Reads.toOpen {s : String} {ts : List Token} (h : Reads s ts) : ReadsOpen s ts :=
  fun rest more _ => h rest more

theorem Reads.append {s t : String} {ts us : List Token} (hs : Reads s ts) (ht : Reads t us) :
    Reads (s ++ t) (ts ++ us) := fun rest more hrest => by
  rw [String.toList_append, List.append_assoc, List.append_assoc]
  exact hs _ _ (ht rest more hrest)

theorem Reads.appendOpen {s t : String} {ts us : List Token} (hs : Reads s ts)
    (ht : ReadsOpen t us) :
    ReadsOpen (s ++ t) (ts ++ us) := fun rest more hdelimited hrest => by
  rw [String.toList_append, List.append_assoc, List.append_assoc]
  exact hs _ _ (ht rest more hdelimited hrest)

theorem ReadsOpen.append {s t : String} {ts us : List Token} (hs : ReadsOpen s ts) (ht : Reads t us)
    (hdelimits : delimits t = true) : Reads (s ++ t) (ts ++ us) := fun rest more hrest => by
  rw [String.toList_append, List.append_assoc, List.append_assoc]
  exact hs _ _ (delimited_of_delimits hdelimits _) (ht rest more hrest)

theorem reads_join {α : Type} {xs : List α} {text : α → String} {tokens : α → List Token}
    (h : ∀ a ∈ xs, Reads (text a) (tokens a)) :
    Reads (String.join (xs.map text)) (xs.flatMap tokens) := by
  induction xs with
  | nil => exact fun _ _ hrest => by simpa using hrest
  | cons a xs ih =>
    rw [List.map_cons, String.join_cons, List.flatMap_cons]
    exact (h a List.mem_cons_self).append (ih fun b hb => h b (.tail _ hb))

theorem Spelling.readsOpen {s : String} {t : Token} (h : Spelling s.toList t) : ReadsOpen s [t] :=
  fun _ _ hdelimited hrest => .token h (fun _ => hdelimited) hrest

/-- A token between blanks. -/
theorem Spelling.reads {s : String} {cs : List Char} {t : Token} (h : Spelling cs t)
    (front back : List Char) (hs : s.toList = front ++ (cs ++ back))
    (hfront : front.all isSpace = true) (hback : back.all isSpace = true)
    (hends : t.isOpen = true → back ≠ []) : Reads s [t] := by
  intro rest more hrest
  rw [hs, List.append_assoc, List.append_assoc]
  refine .blanks hfront (.token h (fun hopen => ?_) (.blanks hback hrest))
  obtain ⟨c, cs, rfl⟩ := List.exists_cons_of_ne_nil (hends hopen)
  intro x hx
  obtain rfl : c = x := by simpa using hx
  rw [List.all_cons, Bool.and_eq_true] at hback
  have hspace := hback.1
  simp only [isSpace, Bool.or_eq_true, beq_iff_eq] at hspace
  rcases hspace with (((rfl | rfl) | rfl) | rfl) | rfl <;> decide

theorem reads_blanks {s : String} (h : s.toList.all isSpace = true) : Reads s [] :=
  fun _ _ hrest => .blanks h hrest

/-! ### The parts of a script -/

theorem Spelling.keyword (k : Keyword) : Spelling k.word.toList (.keyword k) := by
  cases k <;> exact .word (by decide) (List.all_eq_true.1 (by decide))

theorem Spelling.bool (b : Bool) : Spelling (Value.boolText b).toList (.bool b) := by
  cases b <;> exact .word (by decide) (List.all_eq_true.1 (by decide))

theorem wordToken_of_not_reserved {s : String} (h : reservedWords.contains s = false) :
    wordToken s = .ident s := by
  have hne : ∀ w ∈ reservedWords, w ≠ s := fun w hw heq => by
    rw [heq] at hw
    simp [hw] at h
  have hkeyword : Keyword.ofWord? s = none := by
    refine List.find?_eq_none.2 fun k hk heq => hne k.word ?_ (by simpa using heq)
    exact List.mem_append_left _ (List.mem_map_of_mem hk)
  have hother : ∀ w ∈ ["true", "false", "inf", "nan"], s ≠ w := fun w hw =>
    (hne w (List.mem_append_right _ hw)).symm
  rw [wordToken, hkeyword, if_neg (hother _ (by decide)), if_neg (hother _ (by decide)),
    if_neg (hother _ (by decide)), if_neg (hother _ (by decide))]

def nameToken (s : String) : Token := if isPlainName s then .ident s else .text s

theorem spelling_nameText (s : String) : Spelling (nameText s).toList (nameToken s) := by
  unfold nameText nameToken
  split
  · next hplain =>
    unfold isPlainName at hplain
    split at hplain
    · cases hplain
    · next c cs hs =>
      simp only [Bool.and_eq_true, Bool.not_eq_true'] at hplain
      obtain ⟨⟨hstart, hmore⟩, hreserved⟩ := hplain
      have hword := Spelling.word hstart (List.all_eq_true.1 hmore)
      rw [← hs, String.ofList_toList, wordToken_of_not_reserved hreserved] at hword
      exact hword
  · exact .text s

theorem reads_quote (s : String) : Reads (Text.quote s) [.text s] :=
  (Spelling.text s).reads [] [] (by simp) rfl rfl (fun h => by cases h)

theorem reads_numberText (x : Number) : ReadsOpen (numberText x) [.number x.canonical] :=
  (Spelling.number (numberChars_numberText x)).readsOpen

theorem reads_repr (n : Nat) : ReadsOpen (Nat.repr n) [.number (.ofNat n)] :=
  (Spelling.number (numberChars_repr n)).readsOpen

theorem reads_indent (depth : Nat) : Reads (indent depth) [] :=
  reads_blanks (by simp [indent, isSpace])

/-- A mark between blanks. -/
theorem reads_mark {s : String} (front back : List Char) {c : Char} {m : Mark}
    (hs : s.toList = front ++ ([c] ++ back)) (hfront : front.all isSpace = true)
    (hback : back.all isSpace = true) (hc : Mark.ofChar? c = some m) : Reads s [.mark m] :=
  (Spelling.mark hc).reads front back hs hfront hback (fun h => by cases h)

/-- A keyword between blanks. -/
theorem reads_keyword {s : String} (front : List Char) (k : Keyword)
    (hs : s.toList = front ++ (k.word.toList ++ [' '])) (hfront : front.all isSpace = true) :
    Reads s [.keyword k] :=
  (Spelling.keyword k).reads front [' '] hs hfront rfl (fun _ => List.cons_ne_nil _ _)

theorem reads_semicolon : Reads ";\n" [.mark .semicolon] := reads_mark [] ['\n'] rfl rfl rfl rfl

theorem reads_comma : Reads ", " [.mark .comma] := reads_mark [] [' '] rfl rfl rfl rfl

theorem reads_equals : Reads " = " [.mark .equals] := reads_mark [' '] [' '] rfl rfl rfl rfl

theorem reads_openBrace : Reads " \x7b\n" [.mark .openBrace] :=
  reads_mark [' '] ['\n'] rfl rfl rfl rfl

theorem reads_closeBrace : Reads "\x7d\n" [.mark .closeBrace] :=
  reads_mark [] ['\n'] rfl rfl rfl rfl

def itemTokens : List Token → List Token
  | [] => []
  | t :: ts => t :: ts.flatMap fun u => [.mark .comma, u]

def listTokens (items : List Token) : List Token :=
  .mark .openBracket :: (itemTokens items ++ [.mark .closeBracket])

theorem reads_bracketed {α : Type} {text : α → String} {token : α → Token}
    (htext : ∀ a, ReadsOpen (text a) [token a]) (xs : List α) :
    Reads (Value.bracketed (xs.map text)) (listTokens (xs.map token)) := by
  have hopen : Reads "[" [.mark .openBracket] := reads_mark [] [] rfl rfl rfl rfl
  have hclose : Reads "]" [.mark .closeBracket] := reads_mark [] [] rfl rfl rfl rfl
  have hitems : ReadsOpen (String.intercalate ", " (xs.map text)) (itemTokens (xs.map token)) := by
    induction xs with
    | nil => exact (reads_blanks (s := "") rfl).toOpen
    | cons a xs ih =>
      cases xs with
      | nil => exact htext a
      | cons b xs =>
        have hmore := ((htext a).append reads_comma rfl).appendOpen ih
        rw [List.map_cons, List.map_cons] at hmore ⊢
        rw [List.map_cons, List.map_cons, String.intercalate_cons_cons]
        exact hmore
  exact (hopen.appendOpen hitems).append hclose rfl

end FlowGraph.Script
