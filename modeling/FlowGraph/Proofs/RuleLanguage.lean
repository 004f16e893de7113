import FlowGraph.Proofs.ScriptGrammar

/-! What rules read, as languages. A rule recognizes a language if it reads all that the language
has, whatever follows, and nothing else, and if it stops at the first lexeme with which the lexemes
before it no longer go on to something of the language. -/
namespace FlowGraph.Script

/-- Lists of lexemes with the values that they stand for. -/
abbrev Language (α : Type) := List Lexeme → α → Prop

namespace Language

variable {α β : Type}

def Continues (L : Language α) (front : List Lexeme) : Prop := ∃ more a, L (front ++ more) a

/-- The first lexemes go on to something of the language, but not with the next one after them. -/
structure Leaves (L : Language α) (front back : List Lexeme) : Prop where
  continues : L.Continues front
  stuck : ∀ l ∈ back.head?, ¬L.Continues (front ++ [l])

def andThen (L : Language α) (M : α → Language β) : Language β :=
  fun ls b => ∃ us vs a, ls = us ++ vs ∧ L us a ∧ M a vs b

/-- Lexemes that leave the first language, before anything of it ends, leave both. -/
theorem Leaves.first {L : Language α} {M : α → Language β} {front back : List Lexeme}
    (h : L.Leaves front back) (hL : ∀ us a, L us a → ¬us <+: front ++ back)
    (hM : ∀ us a, L us a → (M a).Continues []) : (L.andThen M).Leaves front back := by
  constructor
  · obtain ⟨more, a, ha⟩ := h.continues
    obtain ⟨vs, b, hb⟩ := hM _ a ha
    exact ⟨more ++ vs, b, front ++ more, vs, a, (List.append_assoc _ _ _).symm, ha, hb⟩
  · rintro l hl ⟨more, b, us, vs, a, heq, ha, -⟩
    rcases List.append_eq_append_iff.1 heq with ⟨as, rfl, -⟩ | ⟨bs, hfront, -⟩
    · exact h.stuck l hl ⟨as, a, ha⟩
    · -- the first part ends before `l` does
      obtain ⟨back, rfl⟩ : ∃ back', back = l :: back' := by
        cases back with
        | nil => cases hl
        | cons k ks => exact ⟨ks, by rw [Option.mem_some_iff.1 hl]⟩
      refine hL us a ha ⟨bs ++ back, ?_⟩
      rw [← List.append_assoc, ← hfront, List.append_assoc]
      rfl

/-- Lexemes that leave the second language leave both, if the first part is the only one that they
have. -/
theorem Leaves.second {L : Language α} {M : α → Language β} {us front back : List Lexeme} {a : α}
    (h : (M a).Leaves front back) (ha : L us a)
    (hL : ∀ us' a' vs vs', L us' a' → us ++ vs = us' ++ vs' → a = a' ∧ us = us' ∧ vs = vs') :
    (L.andThen M).Leaves (us ++ front) back := by
  constructor
  · obtain ⟨more, b, hb⟩ := h.continues
    exact ⟨more, b, us, front ++ more, a, List.append_assoc _ _ _, ha, hb⟩
  · rintro l hl ⟨more, b, us', vs', a', heq, ha', hb⟩
    obtain ⟨rfl, rfl, rfl⟩ := hL us' a' (front ++ [l] ++ more) vs' ha' (by simpa using heq)
    exact h.stuck l hl ⟨more, b, hb⟩

/-- Only what starts with the first lexeme matters. -/
theorem Leaves.dispatch {L L' : Language α} {front back : List Lexeme} {l : Lexeme}
    {ls : List Lexeme} (h : L'.Leaves front back) (hsplit : l :: ls = front ++ back)
    (hL : L.Continues []) (hhead : ∀ us a, L' (l :: us) a ↔ L (l :: us) a) :
    L.Leaves front back := by
  constructor
  · cases front with
    | nil => exact hL
    | cons f fs =>
      obtain ⟨rfl, -⟩ := List.cons.inj hsplit
      obtain ⟨more, a, ha⟩ := h.continues
      exact ⟨more, a, (hhead _ a).1 ha⟩
  · rintro k hk ⟨more, a, ha⟩
    -- what goes on with `k` starts with `l`, as the lexemes do
    have hfirst : ∃ us, front ++ [k] ++ more = l :: us := by
      cases front with
      | nil =>
        rw [List.nil_append] at hsplit
        rw [← hsplit] at hk
        exact ⟨more, by rw [Option.mem_some_iff.1 hk]; rfl⟩
      | cons f fs => exact ⟨fs ++ [k] ++ more, by rw [(List.cons.inj hsplit).1]; rfl⟩
    obtain ⟨us, hus⟩ := hfirst
    rw [hus] at ha
    exact h.stuck k hk ⟨more, a, hus ▸ (hhead us a).2 ha⟩

def map (f : α → β) (L : Language α) : Language β := fun ls b => ∃ a, L ls a ∧ f a = b

theorem Continues.map {L : Language α} {front : List Lexeme} (h : L.Continues front) (f : α → β) :
    (L.map f).Continues front := by
  obtain ⟨more, a, ha⟩ := h
  exact ⟨more, f a, a, ha, rfl⟩

theorem Leaves.map {L : Language α} {front back : List Lexeme} (h : L.Leaves front back)
    (f : α → β) : (L.map f).Leaves front back := by
  refine ⟨h.continues.map f, ?_⟩
  rintro l hl ⟨more, b, a, ha, -⟩
  exact h.stuck l hl ⟨more, a, ha⟩

def ofTokens (R : List Token → α → Prop) : Language α := fun ls a => R (ls.map (·.token)) a

end Language

namespace Rule

variable {α β : Type}

/-- The lexemes are read as the value, whatever follows them. -/
def Consumes (r : Rule α) (ls : List Lexeme) (a : α) : Prop :=
  ∀ rest, ∃ short, r.run (ls ++ rest) = .ok ⟨a, rest, short⟩

def Completes (r : Rule α) (L : Language α) : Prop := ∀ ⦃ls a⦄, L ls a → r.Consumes ls a

/-- What is read off given lexemes is of the language, and a fault is where they leave it. -/
structure SettlesAt (r : Rule α) (L : Language α) (ts : List Lexeme) : Prop where
  sound : ∀ {p}, r.run ts = .ok p → ∃ ls, ts = ls ++ p.rest ∧ L ls p.value
  stops : ∀ {fault}, r.run ts = .error fault →
    ∃ front back, ts = front ++ back ∧ L.Leaves front back ∧ fault.offset = back.head?.map (·.start)

structure Recognizes (r : Rule α) (L : Language α) : Prop where
  completes : r.Completes L
  settles : ∀ ts, r.SettlesAt L ts

section

variable {r r' : Rule α} {next : α → Rule β} {L L' : Language α} {M : α → Language β}
  {ts : List Lexeme}

theorem Recognizes.congr (h : r.Recognizes L) (hL : ∀ ls a, L ls a ↔ L' ls a) :
    r.Recognizes L' := by
  rwa [show L' = L from funext fun ls => funext fun a => propext (hL ls a).symm]

/-- Nothing of the language goes on to anything else of it. -/
theorem Completes.eq (h : r.Completes L) {us us' vs vs' : List Lexeme} {a a' : α} (hu : L us a)
    (hu' : L us' a') (heq : us ++ vs = us' ++ vs') : a = a' ∧ us = us' ∧ vs = vs' := by
  have hread := h hu' vs'
  rw [← heq] at hread
  obtain ⟨short', hrun'⟩ := hread
  obtain ⟨short, hrun⟩ := h hu vs
  obtain ⟨ha, hvs⟩ : a = a' ∧ vs = vs' := by simpa [hrun] using hrun'
  exact ⟨ha, List.append_cancel_right (hvs ▸ heq), hvs⟩

theorem Completes.ne_nil (h : r.Completes L) {us : List Lexeme} {a : α} (hu : L us a) :
    us ≠ [] := by
  rintro rfl
  obtain ⟨short, -⟩ := h hu []
  exact Nat.lt_irrefl _ short

/-- Nothing of the language is at the front of lexemes with a fault. -/
theorem Completes.not_prefix (h : r.Completes L) {fault : Fault} (hrun : r.run ts = .error fault)
    {us : List Lexeme} {a : α} (hu : L us a) : ¬us <+: ts := by
  rintro ⟨rest, rfl⟩
  obtain ⟨short, hread⟩ := h hu rest
  rw [hrun] at hread
  cases hread

theorem settlesAt_ok {p : Parsed α ts} (hrun : r.run ts = .ok p) (ls : List Lexeme)
    (hsplit : ts = ls ++ p.rest) (hls : L ls p.value) : r.SettlesAt L ts := by
  refine ⟨fun hp => ?_, fun hfault => by simp [hrun] at hfault⟩
  obtain rfl : p = _ := by simpa [hrun] using hp
  exact ⟨ls, hsplit, hls⟩

theorem settlesAt_error {fault : Fault} (hrun : r.run ts = .error fault) (front back : List Lexeme)
    (hsplit : ts = front ++ back) (hleaves : L.Leaves front back)
    (hoffset : fault.offset = back.head?.map (·.start)) : r.SettlesAt L ts := by
  refine ⟨fun hp => by simp [hrun] at hp, fun hfault => ?_⟩
  obtain rfl : fault = _ := by simpa [hrun] using hfault
  exact ⟨front, back, hsplit, hleaves, hoffset⟩

/-- A fault at the first lexeme, with which nothing of the language starts. -/
theorem settlesAt_head {l : Lexeme} {ls : List Lexeme} {fault : Fault}
    (hrun : r.run (l :: ls) = .error fault) (hoffset : fault.offset = some l.start)
    (hL : L.Continues []) (hstuck : ∀ us a, ¬L (l :: us) a) : r.SettlesAt L (l :: ls) := by
  refine settlesAt_error hrun [] (l :: ls) rfl ⟨hL, ?_⟩ hoffset
  rintro k hk ⟨more, a, ha⟩
  obtain rfl := Option.mem_some_iff.1 hk
  exact hstuck more a ha

/-- A rule takes a token at least, so it only has to start well where there is none. -/
theorem settlesAt_nil (hrun : ∀ fault, r.run [] = .error fault → fault.offset = none)
    (hL : L.Continues []) : r.SettlesAt L [] where
  sound {p} _ := absurd p.shorter (Nat.not_lt_zero _)
  stops {fault} hfault := ⟨[], [], rfl, ⟨hL, fun _ hl => by cases hl⟩, hrun fault hfault⟩

theorem SettlesAt.continues (h : r.SettlesAt L []) : L.Continues [] := by
  cases hrun : r.run [] with
  | ok p => exact absurd p.shorter (Nat.not_lt_zero _)
  | error fault =>
    obtain ⟨front, back, heq, hleaves, -⟩ := h.stops hrun
    obtain ⟨rfl, -⟩ := List.append_eq_nil_iff.1 heq.symm
    exact hleaves.continues

theorem SettlesAt.dispatch_nil (h : r'.SettlesAt L' []) (hrun : r.run [] = r'.run [])
    (hsub : ∀ us a, L' us a → L us a) : r.SettlesAt L [] := by
  obtain ⟨more, a, ha⟩ := h.continues
  refine settlesAt_nil (fun fault hfault => ?_) ⟨more, a, hsub _ _ ha⟩
  obtain ⟨front, back, heq, -, hoffset⟩ := h.stops (hrun ▸ hfault)
  obtain ⟨-, rfl⟩ := List.append_eq_nil_iff.1 heq.symm
  exact hoffset

/-- Only what starts with the first lexeme matters. -/
theorem SettlesAt.dispatch {l : Lexeme} {ls : List Lexeme} (h : r'.SettlesAt L' (l :: ls))
    (hrun : r.run (l :: ls) = r'.run (l :: ls)) (hL : L.Continues [])
    (hhead : ∀ us a, L' (l :: us) a ↔ L (l :: us) a) : r.SettlesAt L (l :: ls) where
  sound {p} hp := by
    obtain ⟨us, hsplit, hus⟩ := h.sound (hrun ▸ hp)
    cases us with
    | nil =>
      exact absurd (Nat.lt_of_lt_of_eq p.shorter (congrArg List.length hsplit)) (Nat.lt_irrefl _)
    | cons u us =>
      obtain ⟨rfl, -⟩ := List.cons.inj hsplit
      exact ⟨l :: us, hsplit, (hhead us _).1 hus⟩
  stops hfault := by
    obtain ⟨front, back, hsplit, hleaves, hoffset⟩ := h.stops (hrun ▸ hfault)
    exact ⟨front, back, hsplit, hleaves.dispatch hsplit hL hhead, hoffset⟩

theorem Consumes.andThen {us vs : List Lexeme} {a : α} {b : β} (hr : r.Consumes us a)
    (hnext : (next a).Consumes vs b) : (r.andThen next).Consumes (us ++ vs) b := by
  intro rest
  obtain ⟨short, hp⟩ := hr (vs ++ rest)
  obtain ⟨short', hq⟩ := hnext rest
  rw [List.append_assoc]
  refine ⟨Nat.lt_trans short' short, ?_⟩
  simp only [Rule.andThen, hp, bind, Except.bind, hq]
  rfl

theorem Consumes.map {us : List Lexeme} {a : α} (hr : r.Consumes us a) (f : α → β) :
    (r.map f).Consumes us (f a) := by
  intro rest
  obtain ⟨short, hp⟩ := hr rest
  exact ⟨short, by simp [Rule.map, hp, Except.map, Parsed.map]⟩

theorem Consumes.dispatch {l : Lexeme} {ls : List Lexeme} {a : α} (h : r'.Consumes (l :: ls) a)
    (hrun : ∀ rest, r.run (l :: rest) = r'.run (l :: rest)) : r.Consumes (l :: ls) a := by
  intro rest
  obtain ⟨short, hp⟩ := h rest
  exact ⟨short, (hrun _).trans hp⟩

theorem Completes.andThen (hr : r.Completes L) (hnext : ∀ a, (next a).Completes (M a)) :
    (r.andThen next).Completes (L.andThen M) := by
  rintro ls b ⟨us, vs, a, rfl, ha, hb⟩
  exact (hr ha).andThen (hnext a hb)

theorem SettlesAt.andThen (hL : r.Completes L) (hr : r.SettlesAt L ts)
    (hnext : ∀ p, r.run ts = .ok p → (next p.value).SettlesAt (M p.value) p.rest)
    (hsome : ∀ us a, L us a → (M a).Continues []) :
    (r.andThen next).SettlesAt (L.andThen M) ts := by
  cases hrun : r.run ts with
  | error fault =>
    have hboth : (r.andThen next).run ts = .error fault := by
      simp [Rule.andThen, hrun, bind, Except.bind]
    obtain ⟨front, back, hsplit, hleaves, hoffset⟩ := hr.stops hrun
    refine settlesAt_error hboth front back hsplit (hleaves.first (fun us a ha => ?_) hsome) hoffset
    exact hsplit ▸ hL.not_prefix hrun ha
  | ok p =>
    obtain ⟨us, hsplit, hus⟩ := hr.sound hrun
    have hsecond := hnext p hrun
    cases hrun' : (next p.value).run p.rest with
    | ok q =>
      have hboth : (r.andThen next).run ts = .ok (p.after q) := by
        simp only [Rule.andThen, hrun, bind, Except.bind, hrun']
        rfl
      obtain ⟨vs, hsplit', hvs⟩ := hsecond.sound hrun'
      have hts : ts = us ++ vs ++ q.rest := by rw [List.append_assoc, ← hsplit', ← hsplit]
      exact settlesAt_ok hboth (us ++ vs) hts ⟨us, vs, p.value, rfl, hus, hvs⟩
    | error fault =>
      have hboth : (r.andThen next).run ts = .error fault := by
        simp [Rule.andThen, hrun, bind, Except.bind, hrun']
      obtain ⟨front, back, hsplit', hleaves, hoffset⟩ := hsecond.stops hrun'
      have hts : ts = us ++ front ++ back := by rw [List.append_assoc, ← hsplit', ← hsplit]
      exact settlesAt_error hboth (us ++ front) back hts
        (hleaves.second hus fun us' a' vs vs' ha' heq => hL.eq hus ha' heq) hoffset

theorem SettlesAt.before {last : Rule β} {K : Language β} (hL : r.Completes L)
    (hr : r.SettlesAt L ts) (hlast : ∀ us, us.length < ts.length → last.SettlesAt K us)
    (hsome : K.Continues []) : (r.before last).SettlesAt (L.andThen fun _ => K) ts :=
  hr.andThen hL (fun p _ => hlast p.rest p.shorter) fun _ _ _ => hsome

theorem Completes.map (f : α → β) (hr : r.Completes L) : (r.map f).Completes (L.map f) := by
  rintro ls b ⟨a, ha, rfl⟩
  exact (hr ha).map f

theorem SettlesAt.map (f : α → β) (hr : r.SettlesAt L ts) : (r.map f).SettlesAt (L.map f) ts := by
  cases hrun : r.run ts with
  | ok p =>
    have hmap : (r.map f).run ts = .ok (p.map f) := by simp [Rule.map, hrun, Except.map]
    obtain ⟨ls, hsplit, hls⟩ := hr.sound hrun
    exact settlesAt_ok hmap ls hsplit ⟨p.value, hls, rfl⟩
  | error fault =>
    have hmap : (r.map f).run ts = .error fault := by simp [Rule.map, hrun, Except.map]
    obtain ⟨front, back, hsplit, hleaves, hoffset⟩ := hr.stops hrun
    exact settlesAt_error hmap front back hsplit (hleaves.map f) hoffset

theorem Recognizes.andThen (hr : r.Recognizes L) (hnext : ∀ a, (next a).Recognizes (M a)) :
    (r.andThen next).Recognizes (L.andThen M) where
  completes := hr.completes.andThen fun a => (hnext a).completes
  settles ts := (hr.settles ts).andThen hr.completes (fun p _ => (hnext p.value).settles p.rest)
    fun _ a _ => ((hnext a).settles []).continues

theorem Recognizes.map (f : α → β) (hr : r.Recognizes L) : (r.map f).Recognizes (L.map f) where
  completes := hr.completes.map f
  settles ts := (hr.settles ts).map f

end

/-! ### Languages of tokens -/

def RecognizesTokens (r : Rule α) (R : List Token → α → Prop) : Prop := r.Recognizes (.ofTokens R)

section

variable {r : Rule α} {next : α → Rule β} {R R' : List Token → α → Prop}
  {S : α → List Token → β → Prop}

theorem RecognizesTokens.congr (h : r.RecognizesTokens R) (hR : ∀ us a, R us a ↔ R' us a) :
    r.RecognizesTokens R' :=
  Recognizes.congr h fun _ _ => hR _ _

theorem RecognizesTokens.accepts (h : r.RecognizesTokens R) {us : List Token} {a : α}
    (hu : R us a) : r.Accepts us a := by
  rintro ls rest rfl
  exact h.completes hu rest

theorem RecognizesTokens.andThen (hr : r.RecognizesTokens R)
    (hnext : ∀ a, (next a).RecognizesTokens (S a)) :
    (r.andThen next).RecognizesTokens fun us b => ∃ vs ws a, us = vs ++ ws ∧ R vs a ∧ S a ws b := by
  refine Recognizes.congr (Recognizes.andThen hr hnext) fun ls b => ⟨?_, ?_⟩
  · rintro ⟨us, vs, a, rfl, ha, hb⟩
    exact ⟨_, _, a, List.map_append, ha, hb⟩
  · rintro ⟨vs, ws, a, heq, ha, hb⟩
    obtain ⟨us, vs, rfl, rfl, rfl⟩ := List.map_eq_append_iff.1 heq
    exact ⟨us, vs, a, rfl, ha, hb⟩

theorem RecognizesTokens.map (f : α → β) (hr : r.RecognizesTokens R) :
    (r.map f).RecognizesTokens fun us b => ∃ a, R us a ∧ f a = b := Recognizes.map f hr

theorem RecognizesTokens.before {next : Rule β} {S : List Token → β → Prop}
    (hr : r.RecognizesTokens R) (hnext : next.RecognizesTokens S) :
    (r.before next).RecognizesTokens fun us b => ∃ vs ws a, us = vs ++ ws ∧ R vs a ∧ S ws b :=
  hr.andThen fun _ => hnext

theorem RecognizesTokens.ended {last : Rule β} {S : List Token → β → Prop}
    (hr : r.RecognizesTokens R) (hlast : last.RecognizesTokens S) :
    (r.ended last).RecognizesTokens fun us a => ∃ vs ws b, us = vs ++ ws ∧ R vs a ∧ S ws b := by
  refine (hr.andThen fun a => hlast.map fun _ => a).congr fun us a => ⟨?_, ?_⟩
  · rintro ⟨vs, ws, a, rfl, ha, b, hb, rfl⟩
    exact ⟨vs, ws, b, rfl, ha, hb⟩
  · rintro ⟨vs, ws, b, rfl, ha, hb⟩
    exact ⟨vs, ws, a, rfl, ha, b, hb, rfl⟩

end

/-- One token. -/
theorem recognizes_take {what : String} {f : Token → Option α} {t : Token} {a : α}
    (hsome : f t = some a) :
    (take what f).RecognizesTokens fun us a => ∃ t, us = [t] ∧ f t = some a := by
  refine ⟨?_, fun ts => ?_⟩
  · rintro ls a ⟨t, ht, ha⟩ rest
    exact accepts_take ha ls rest ht
  · have hcontinues : Language.Continues (.ofTokens fun us a => ∃ t, us = [t] ∧ f t = some a) [] :=
      ⟨[⟨t, 0, 0, 0⟩], a, t, rfl, hsome⟩
    cases ts with
    | nil => exact settlesAt_nil (by simp [take, expected]) hcontinues
    | cons l ls =>
      cases hf : f l.token with
      | some b =>
        have hrun : (take what f).run (l :: ls) = .ok ⟨b, ls, Nat.lt_succ_self _⟩ := by
          simp [take, hf]
        exact settlesAt_ok hrun [l] rfl ⟨l.token, rfl, hf⟩
      | none =>
        have hrun : (take what f).run (l :: ls) = .error (expected what (l :: ls)) := by
          simp [take, hf]
        refine settlesAt_head hrun rfl hcontinues ?_
        rintro us a ⟨t, ht, ha⟩
        obtain rfl : l.token = t := (List.cons.inj ht).1
        rw [hf] at ha
        cases ha

theorem recognizes_token (t : Token) (what : String) :
    (token t what).RecognizesTokens fun us _ => us = [t] := by
  refine (recognizes_take (t := t) (a := ()) (if_pos rfl)).congr fun us _ => ?_
  simp

/-- The rule after a token that has been found at the front. -/
theorem run_before_token {r : Rule α} {l : Lexeme} {t : Token} (hl : l.token = t)
    (ls : List Lexeme) :
    ((token t "").before r).run (l :: ls) = (r.run ls).map fun p => p.widen (Nat.le_succ _) := by
  subst hl
  simp only [before, Rule.andThen, token, take, if_true, bind, Except.bind]
  cases r.run ls <;> rfl

/-- A keyword with what it says, or nothing, before what is read in any case. -/
theorem recognizes_optionally {k : Keyword} {r : Rule α} {next : Option α → Rule β}
    {R : List Token → α → Prop} {S : Option α → List Token → β → Prop} (hr : r.RecognizesTokens R)
    (hnext : ∀ a, (next a).RecognizesTokens (S a)) (hfirst : ∀ us b, ¬S none (.keyword k :: us) b) :
    (optionally k r next).RecognizesTokens fun us b =>
      S none us b ∨ ∃ vs ws a, us = .keyword k :: (vs ++ ws) ∧ R vs a ∧ S (some a) ws b := by
  have hkeyword := (recognizes_token (.keyword k) "").before (hr.andThen fun a => hnext (some a))
  have hcontinues : Language.Continues (.ofTokens fun us b =>
      S none us b ∨ ∃ vs ws a, us = .keyword k :: (vs ++ ws) ∧ R vs a ∧ S (some a) ws b) [] := by
    obtain ⟨more, b, hb⟩ := ((hnext none).settles []).continues
    exact ⟨more, b, .inl hb⟩
  refine ⟨?_, fun ts => ?_⟩
  · rintro ls b (hnone | ⟨vs, ws, a, heq, ha, hb⟩) rest
    · obtain ⟨l, ls, rfl⟩ := List.exists_cons_of_ne_nil ((hnext none).completes.ne_nil hnone)
      refine accepts_optionally_none ((hnext none).accepts hnone) (fun hl => ?_) (l :: ls) rest rfl
      exact hfirst (ls.map (·.token)) b (hl ▸ hnone)
    · exact accepts_optionally_some (hr.accepts ha) ((hnext _).accepts hb) ls rest heq
  · cases ts with
    | nil => exact ((hnext none).settles []).dispatch_nil rfl fun us b hb => .inl hb
    | cons l ls =>
      by_cases hl : l.token = .keyword k
      · refine (hkeyword.settles (l :: ls)).dispatch ?_ hcontinues fun us b => ⟨?_, ?_⟩
        · rw [run_before_token hl]
          simp only [optionally, hl, if_true, bind, Except.bind]
          cases (r.andThen fun a => next (some a)).run ls <;> rfl
        · rintro ⟨-, -, -, heq, rfl, vs, ws, a, rfl, ha, hb⟩
          exact .inr ⟨vs, ws, a, heq, ha, hb⟩
        · rintro (hb | ⟨vs, ws, a, heq, ha, hb⟩)
          · rw [List.map_cons, hl] at hb
            exact absurd hb (hfirst _ _)
          · exact ⟨[.keyword k], vs ++ ws, (), heq, rfl, vs, ws, a, rfl, ha, hb⟩
      · refine ((hnext none).settles (l :: ls)).dispatch ?_ hcontinues fun us b => ⟨.inl, ?_⟩
        · simp [optionally, hl]
        · rintro (hb | ⟨vs, ws, a, heq, -, -⟩)
          · exact hb
          · exact absurd (List.cons.inj heq).1 hl

end Rule

open Rule

/-! ### Names and indices -/

/-- A name is an identifier, or any text between quotes. -/
inductive IsName : Token → String → Prop
  | ident (s : String) : IsName (.ident s) s
  | text (s : String) : IsName (.text s) s

/-- The index below `limit` that a number stands for: the number is whole and not negative, and at
most 2^64, which is taken for the last index of 64 bits. -/
structure Denotes (limit : Nat) (x : Number) (n : Nat) : Prop where
  whole : x.isWhole = true
  positive : x.negative = true → x.isZero = true
  bounded : x.wholePart ≤ UInt64.size
  value : n = min x.wholePart (UInt64.size - 1)
  lt : n < limit

theorem indexOf_eq_ok_iff_denotes {limit : Nat} {what : String} {x : Number} {n : Nat} :
    indexOf limit what x = .ok n ↔ Denotes limit x n := by
  unfold indexOf
  split
  · next hbad =>
    simp only [Bool.or_eq_true, Bool.and_eq_true, Bool.not_eq_true', decide_eq_true_eq] at hbad
    refine ⟨fun h => (by cases h), fun h => ?_⟩
    rcases hbad with (hbad | ⟨hneg, hbad⟩) | hbad
    · rw [h.whole] at hbad
      cases hbad
    · rw [h.positive hneg] at hbad
      cases hbad
    · exact absurd hbad (Nat.not_lt.2 h.bounded)
  · next hgood =>
    simp only [Bool.or_eq_true, Bool.and_eq_true, Bool.not_eq_true', decide_eq_true_eq,
      not_or, not_and, Bool.not_eq_false, Nat.not_lt] at hgood
    obtain ⟨⟨hwhole, hpositive⟩, hbounded⟩ := hgood
    by_cases hlt : min x.wholePart (UInt64.size - 1) < limit
    · simp only [if_pos hlt, Except.ok.injEq]
      exact ⟨fun h => ⟨hwhole, hpositive, hbounded, h.symm, h ▸ hlt⟩, fun h => h.value.symm⟩
    · simp only [if_neg hlt, reduceCtorEq, false_iff]
      exact fun h => hlt (h.value ▸ h.lt)

theorem recognizes_take_of {α : Type} {what : String} {f : Token → Option α} {make : α → Token}
    (hf : ∀ t a, f t = some a ↔ t = make a) (a : α) :
    (take what f).RecognizesTokens fun us a => us = [make a] := by
  refine (recognizes_take ((hf (make a) a).2 rfl)).congr fun us b => ?_
  simp [hf]

theorem recognizes_text (what : String) : (text what).RecognizesTokens fun us s => us = [.text s] :=
  recognizes_take_of (fun t s => by cases t <;> simp) ""

theorem recognizes_number (what : String) :
    (number what).RecognizesTokens fun us n => us = [.number n] :=
  recognizes_take_of (fun t n => by cases t <;> simp) .nan

theorem recognizes_truth : truth.RecognizesTokens fun us b => us = [.bool b] :=
  recognizes_take_of (fun t b => by cases t <;> simp) true

theorem recognizes_name (what : String) :
    (name what).RecognizesTokens fun us s => ∃ t, us = [t] ∧ IsName t s := by
  refine (recognizes_take (t := .text "") (a := "") rfl).congr fun us s => ⟨?_, ?_⟩
  · rintro ⟨t, rfl, ht⟩
    cases t <;> cases ht
    · exact ⟨_, rfl, .text s⟩
    · exact ⟨_, rfl, .ident s⟩
  · rintro ⟨t, rfl, ht⟩
    cases ht <;> exact ⟨_, rfl, rfl⟩

/-- A number is taken for an index, or there is a fault in front of it. -/
theorem run_index (limit : Nat) (what : String) {l : Lexeme} {x : Number} (hx : l.token = .number x)
    (ls : List Lexeme) :
    (index limit what).run (l :: ls) =
    ((indexOf limit what x).mapError fun message => ⟨some l.start, message⟩).map
      fun n => ⟨n, ls, Nat.lt_succ_self _⟩ := by
  have hnumber : (number what).run (l :: ls) = .ok ⟨x, ls, Nat.lt_succ_self _⟩ := by
    simp [number, take, hx]
  simp only [index, hnumber, bind, Except.bind]
  cases indexOf limit what x <;> rfl

theorem recognizes_index {limit : Nat} (hlimit : 0 < limit) (what : String) :
    (index limit what).RecognizesTokens fun us n => ∃ x, us = [.number x] ∧ Denotes limit x n := by
  have hzero := indexOf_eq_ok_iff_denotes.1 (indexOf_ofNat hlimit (Nat.two_pow_pos 53) what)
  have hcontinues :
      Language.Continues (.ofTokens fun us n => ∃ x, us = [.number x] ∧ Denotes limit x n) [] :=
    ⟨[⟨.number (.ofNat 0), 0, 0, 0⟩], 0, _, rfl, hzero⟩
  refine ⟨?_, fun ts => ?_⟩
  · rintro ls n ⟨x, heq, hx⟩ rest
    exact accepts_index (indexOf_eq_ok_iff_denotes.2 hx) ls rest heq
  · cases ts with
    | nil =>
      refine settlesAt_nil (fun fault hfault => ?_) hcontinues
      simp only [index, number, take, bind, Except.bind, Except.error.injEq] at hfault
      rw [← hfault]
      rfl
    | cons l ls =>
      by_cases hl : ∃ x, l.token = .number x
      · obtain ⟨x, hx⟩ := hl
        have hrun := run_index limit what hx ls
        cases hindex : indexOf limit what x with
        | ok n =>
          rw [hindex] at hrun
          exact settlesAt_ok hrun
            [l] rfl ⟨x, congrArg (fun t => [t]) hx, indexOf_eq_ok_iff_denotes.1 hindex⟩
        | error message =>
          rw [hindex] at hrun
          refine settlesAt_head hrun rfl hcontinues ?_
          rintro us n ⟨y, heq, hy⟩
          obtain rfl : x = y := by simpa [hx] using (List.cons.inj heq).1
          rw [indexOf_eq_ok_iff_denotes.2 hy] at hindex
          cases hindex
      · have hnumber : (number what).run (l :: ls) = .error (expected what (l :: ls)) := by
          cases htoken : l.token with
          | number x => exact absurd ⟨x, htoken⟩ hl
          | _ => simp [number, take, htoken]
        have hrun : (index limit what).run (l :: ls) = .error (expected what (l :: ls)) := by
          simp only [index, hnumber, bind, Except.bind]
        refine settlesAt_head hrun rfl hcontinues ?_
        rintro us n ⟨x, heq, -⟩
        exact hl ⟨x, (List.cons.inj heq).1⟩

theorem recognizes_nodeId (what : String) : (nodeId what).RecognizesTokens fun us id =>
    ∃ x n, us = [.number x] ∧ Denotes UInt32.size x n ∧ id = UInt32.ofNat n := by
  refine ((recognizes_index (by decide) what).map UInt32.ofNat).congr fun us id => ⟨?_, ?_⟩
  · rintro ⟨n, ⟨x, hus, hx⟩, rfl⟩
    exact ⟨x, n, hus, hx, rfl⟩
  · rintro ⟨x, n, hus, hx, rfl⟩
    exact ⟨n, ⟨x, hus, hx⟩, rfl⟩

/-! ### Endpoints and places -/

inductive SpellsEndpoint : List Token → Endpoint → Prop
  | intro {x y : Number} {node port : Nat} (hnode : Denotes UInt32.size x node)
      (hport : Denotes UInt64.size y port) :
      SpellsEndpoint [.number x, .mark .colon, .number y] ⟨UInt32.ofNat node, UInt64.ofNat port⟩

theorem recognizes_endpoint : endpoint.RecognizesTokens SpellsEndpoint := by
  have hnode := (recognizes_nodeId "node id").ended (recognizes_token (.mark .colon) "':'")
  have hport :=
    fun node : NodeId => (recognizes_index (by decide : 0 < UInt64.size) "port index").map
    fun port => (⟨node, UInt64.ofNat port⟩ : Endpoint)
  refine (hnode.andThen hport).congr fun us e => ⟨?_, ?_⟩
  · rintro ⟨_, _, _, rfl, ⟨_, _, _, rfl, ⟨x, node, rfl, hx, rfl⟩, rfl⟩, port, ⟨y, rfl, hy⟩, rfl⟩
    exact .intro hx hy
  · rintro ⟨hx, hy⟩
    exact ⟨_, _, _, rfl, ⟨_, _, (), rfl, ⟨_, _, rfl, hx, rfl⟩, rfl⟩, _, ⟨_, rfl, hy⟩, rfl⟩

theorem recognizes_pair : pair.RecognizesTokens fun us p => us = pairTokens p.1 p.2 := by
  have hfirst :=
    ((recognizes_token (.mark .openParen) "'('").before (recognizes_number "number")).ended
    (recognizes_token (.mark .comma) "','")
  have hsecond := fun a : Number => ((recognizes_number "number").ended
    (recognizes_token (.mark .closeParen) "')'")).map fun b => (a, b)
  refine (hfirst.andThen hsecond).congr fun us p => ⟨?_, ?_⟩
  · rintro ⟨_, _, a, rfl, ⟨_, _, _, rfl, ⟨_, _, _, rfl, rfl, rfl⟩, rfl⟩, b,
      ⟨_, _, _, rfl, rfl, rfl⟩, rfl⟩
    rfl
  · rintro rfl
    exact ⟨_, _, _, rfl, ⟨_, _, (), rfl, ⟨_, _, (), rfl, rfl, rfl⟩, rfl⟩, _,
      ⟨_, _, (), rfl, rfl, rfl⟩, rfl⟩

/-- A placement and what follows it, which starts with neither of its keywords. -/
theorem recognizes_placed {β : Type} {next : Placement → Rule β}
    {S : Placement → List Token → β → Prop} (hnext : ∀ p, (next p).RecognizesTokens (S p))
    (hplace : ∀ p us b, ¬S p (.keyword .place :: us) b)
    (hsize : ∀ p us b, ¬S p (.keyword .size :: us) b) :
    (placed next).RecognizesTokens fun us b => ∃ p ws, us = placementTokens p ++ ws ∧ S p ws b := by
  have hinner : ∀ position : Option Position, (optionally .size pair fun size? =>
      next ⟨position, size?.map fun s => ⟨s.1, s.2⟩⟩).RecognizesTokens fun us b =>
        ∃ size ws, us = sizeTokens size ++ ws ∧ S ⟨position, size⟩ ws b := by
    intro position
    refine (recognizes_optionally recognizes_pair (fun _ => hnext _) fun us b => hsize _ us b).congr
      fun us b => ⟨?_, ?_⟩
    · rintro (hb | ⟨vs, ws, s, rfl, rfl, hb⟩)
      · exact ⟨none, us, rfl, hb⟩
      · exact ⟨some ⟨s.1, s.2⟩, ws, rfl, hb⟩
    · rintro ⟨_ | s, ws, rfl, hb⟩
      · exact .inl hb
      · exact .inr ⟨_, ws, (s.width, s.height), rfl, rfl, hb⟩
  have hfirst : ∀ us b, ¬∃ size ws, .keyword .place :: us = sizeTokens size ++ ws ∧
      S ⟨none, size⟩ ws b := by
    rintro us b ⟨_ | s, ws, heq, hb⟩
    · obtain rfl : .keyword .place :: us = ws := heq
      exact hplace _ us b hb
    · cases heq
  have houter := fun at? : Option (Number × Number) => hinner (at?.map fun p => ⟨p.1, p.2⟩)
  refine (recognizes_optionally recognizes_pair houter hfirst).congr fun us b => ⟨?_, ?_⟩
  · rintro (⟨size, ws, rfl, hb⟩ | ⟨vs, _, p, rfl, rfl, size, ws, rfl, hb⟩)
    · exact ⟨⟨none, size⟩, ws, rfl, hb⟩
    · exact ⟨⟨some ⟨p.1, p.2⟩, size⟩, ws, by simp [placementTokens, positionTokens], hb⟩
  · rintro ⟨⟨_ | p, size⟩, ws, rfl, hb⟩
    · exact .inl ⟨size, ws, rfl, hb⟩
    · exact .inr ⟨_, sizeTokens size ++ ws, (p.x, p.y),
        by simp [placementTokens, positionTokens], rfl, size, ws, rfl, hb⟩

/-! ### Lists -/

section Lists

variable {α : Type} {item : Rule α} {tokenOf : α → Token}

def moreTokens (ts : List Token) : List Token :=
  ts.flatMap (fun t => [.mark .comma, t]) ++ [.mark .closeBracket]

theorem settles_moreItems (hitem : item.RecognizesTokens fun us a => us = [tokenOf a])
    (ts : List Lexeme) :
    (Rule.mk (moreItems item)).SettlesAt
    (.ofTokens fun us (xs : List α) => us = moreTokens (xs.map tokenOf)) ts := by
  have hcontinues :
      Language.Continues (.ofTokens fun us (xs : List α) => us = moreTokens (xs.map tokenOf)) [] :=
    ⟨[⟨.mark .closeBracket, 0, 0, 0⟩], [], rfl⟩
  have hfirst : ((token (.mark .comma) "',' or ']'").andThen fun _ => item).RecognizesTokens
      fun us a => us = [.mark .comma, tokenOf a] :=
    ((recognizes_token (.mark .comma) "',' or ']'").andThen fun _ => hitem).congr
      fun us a => by simp
  induction hlen : ts.length using Nat.strongRecOn generalizing ts with
  | ind _ ih =>
    cases ts with
    | nil => exact settlesAt_nil (by simp [moreItems, expected]) hcontinues
    | cons l ls =>
      by_cases hl : l.token = .mark .closeBracket
      · have hrun : (Rule.mk (moreItems item)).run (l :: ls) =
            .ok ⟨[], ls, Nat.lt_succ_self _⟩ := by
          simp [moreItems, hl]
        exact settlesAt_ok hrun [l] rfl (congrArg (fun t => [t]) hl)
      · have hboth : ((token (.mark .comma) "',' or ']'").andThen fun _ => item).andThen
            (fun a => (Rule.mk (moreItems item)).map (a :: ·)) |>.SettlesAt
            (.andThen (.ofTokens fun us a => us = [.mark .comma, tokenOf a]) fun a =>
              .map (a :: ·) (.ofTokens fun us (xs : List α) => us = moreTokens (xs.map tokenOf)))
            (l :: ls) :=
          (hfirst.settles (l :: ls)).andThen hfirst.completes
            (fun p _ => (ih _ (hlen ▸ p.shorter) p.rest rfl).map (p.value :: ·))
            fun _ _ _ => hcontinues.map _
        refine hboth.dispatch ?_ hcontinues fun us xs => ⟨?_, fun hus => ?_⟩
        · show moreItems item (l :: ls) = _ >>= _
          rw [moreItems, if_neg hl]
          congr 1
          funext p
          show _ = Except.bind (Except.map _ (moreItems item p.rest)) _
          cases moreItems item p.rest <;> rfl
        · rintro ⟨vs, ws, a, heq, hvs, xs, hws, rfl⟩
          show (l :: us).map (·.token) = _
          rw [heq, List.map_append, hvs, hws]
          rfl
        · cases xs with
          | nil => exact absurd (List.cons.inj hus).1 hl
          | cons x xs =>
            obtain ⟨vs, ws, heq, hvs, hws⟩ :=
              List.map_eq_append_iff.1 (hus.trans (List.append_assoc [_, _] _ _))
            exact ⟨vs, ws, x, heq, hvs, xs, hws, rfl⟩

theorem recognizes_moreItems (hitem : item.RecognizesTokens fun us a => us = [tokenOf a]) :
    (Rule.mk (moreItems item)).RecognizesTokens fun us xs => us = moreTokens (xs.map tokenOf) :=
  ⟨fun _ xs hls rest => moreItems_eq (fun _ => hitem.accepts rfl) xs rest hls,
    settles_moreItems hitem⟩

theorem recognizes_items (hitem : item.RecognizesTokens fun us a => us = [tokenOf a])
    (hclose : ∀ a, tokenOf a ≠ .mark .closeBracket) : (items item).RecognizesTokens fun us xs =>
      us = itemTokens (xs.map tokenOf) ++ [.mark .closeBracket] := by
  have hmore : (item.andThen fun a => (Rule.mk (moreItems item)).map (a :: ·)).RecognizesTokens
      fun us xs => ∃ x ys, xs = x :: ys ∧
        us = itemTokens (xs.map tokenOf) ++ [.mark .closeBracket] := by
    refine (hitem.andThen fun a => (recognizes_moreItems hitem).map (a :: ·)).congr
      fun us xs => ⟨?_, ?_⟩
    · rintro ⟨_, _, x, rfl, rfl, ys, rfl, rfl⟩
      exact ⟨x, ys, rfl, rfl⟩
    · rintro ⟨x, ys, rfl, rfl⟩
      exact ⟨[tokenOf x], _, x, rfl, rfl, ys, rfl, rfl⟩
  have hcontinues : Language.Continues (.ofTokens fun us (xs : List α) =>
      us = itemTokens (xs.map tokenOf) ++ [.mark .closeBracket]) [] :=
        ⟨[⟨.mark .closeBracket, 0, 0, 0⟩], [], rfl⟩
  refine ⟨fun ls xs hls rest => accepts_items (fun _ => hitem.accepts rfl) hclose xs ls rest hls,
    fun ts => ?_⟩
  cases ts with
  | nil =>
    refine (hmore.settles []).dispatch_nil ?_ fun us xs hxs => ?_
    · show Except.bind (item.run []) _ = Except.bind (item.run []) _
      cases item.run [] with
      | ok p => exact absurd p.shorter (Nat.not_lt_zero _)
      | error fault => rfl
    · obtain ⟨-, -, -, hus⟩ := hxs
      exact hus
  | cons l ls =>
    by_cases hl : l.token = .mark .closeBracket
    · have hrun : (items item).run (l :: ls) = .ok ⟨[], ls, Nat.lt_succ_self _⟩ := by
        simp [items, hl]
      exact settlesAt_ok hrun [l] rfl (congrArg (fun t => [t]) hl)
    · refine (hmore.settles (l :: ls)).dispatch ?_ hcontinues
        fun us xs => ⟨fun hxs => ?_, fun hxs => ?_⟩
      · simp only [items, if_neg hl]
        show _ = _ >>= _
        congr 1
        funext p
        show _ = Except.bind (Except.map _ (moreItems item p.rest)) _
        cases moreItems item p.rest <;> rfl
      · obtain ⟨-, -, -, hus⟩ := hxs
        exact hus
      · cases xs with
        | nil => exact absurd (List.cons.inj hxs).1 hl
        | cons x ys => exact ⟨x, ys, rfl, hxs⟩

end Lists

theorem recognizes_labels : labels.RecognizesTokens fun us xs => us = labelsTokens xs := by
  have hitems := recognizes_items (recognizes_text "port label") (fun _ => by simp)
  refine ((recognizes_token (.mark .openBracket) "'['").before hitems).congr fun us xs => ⟨?_, ?_⟩
  · rintro ⟨_, _, _, rfl, rfl, rfl⟩
    rfl
  · rintro rfl
    exact ⟨[_], _, (), rfl, rfl, rfl⟩

/-! ### Fields -/

theorem recognizes_fieldValue : fieldValue.RecognizesTokens fun us v => us = valueTokens v := by
  have hcontinues : Language.Continues (.ofTokens fun us v => us = valueTokens v) [] :=
    ⟨[⟨.bool true, 0, 0, 0⟩], .bool true, rfl⟩
  refine ⟨fun ls v hls rest => accepts_fieldValue v ls rest hls, fun ts => ?_⟩
  cases ts with
  | nil => exact settlesAt_nil (by simp [fieldValue, expected]) hcontinues
  | cons l ls =>
    have hsingle : ∀ v, fieldValue.run (l :: ls) = .ok ⟨v, ls, Nat.lt_succ_self _⟩ →
        [l.token] = valueTokens v →
        fieldValue.SettlesAt (.ofTokens fun us v => us = valueTokens v) (l :: ls) :=
      fun v hrun hv => settlesAt_ok hrun [l] rfl hv
    have hfault : fieldValue.run (l :: ls) = .error (expected "a field value" (l :: ls)) →
        (∀ v us, l.token :: us ≠ valueTokens v) →
        fieldValue.SettlesAt (.ofTokens fun us v => us = valueTokens v) (l :: ls) :=
      fun hrun hne => settlesAt_head hrun rfl hcontinues fun us v hv => hne v _ hv
    cases htoken : l.token with
    | number n => exact hsingle (.number n) (by simp [fieldValue, htoken]) (by rw [htoken]; rfl)
    | text s => exact hsingle (.text s) (by simp [fieldValue, htoken]) (by rw [htoken]; rfl)
    | bool b => exact hsingle (.bool b) (by simp [fieldValue, htoken]) (by rw [htoken]; rfl)
    | keyword | ident =>
      refine hfault (by simp [fieldValue, htoken]) fun v us heq => ?_
      cases v <;> simp [htoken, valueTokens, listTokens] at heq
    | mark m =>
      by_cases hm : m = .openBracket
      · subst hm
        have hitems :=
          ((recognizes_items (recognizes_number "number") (fun _ => by simp)).map Value.vector)
        have hvector := (recognizes_token (.mark .openBracket) "").before hitems
        refine (hvector.settles (l :: ls)).dispatch ?_ hcontinues fun us v => ⟨?_, fun hv => ?_⟩
        · rw [run_before_token htoken]
          simp only [fieldValue, htoken, bind, Except.bind]
          cases ((items (number "number")).map Value.vector).run ls <;> rfl
        · rintro ⟨_, _, _, heq, rfl, ns, rfl, rfl⟩
          exact heq
        · cases v with
          | vector ns => exact ⟨[_], _, (), hv, rfl, ns, rfl, rfl⟩
          | _ => cases (List.cons.inj hv).1.symm.trans htoken
      · refine hfault ?_ fun v us heq => ?_
        · cases m with
          | openBracket => exact absurd rfl hm
          | _ => simp [fieldValue, htoken]
        · cases v <;> simp [htoken, valueTokens, listTokens, hm] at heq

inductive SpellsField : List Token → String × Value → Prop
  | intro {t : Token} {name : String} (hname : IsName t name) (value : Value) :
      SpellsField (t :: .mark .equals :: (valueTokens value ++ [.mark .semicolon])) (name, value)

theorem recognizes_field : field.RecognizesTokens SpellsField := by
  have hname := (recognizes_name "field name").ended (recognizes_token (.mark .equals) "'='")
  have hvalue := fun name : String =>
    (recognizes_fieldValue.ended (recognizes_token (.mark .semicolon) "';'")).map
    fun value => (name, value)
  refine (hname.andThen hvalue).congr fun us e => ⟨?_, ?_⟩
  · rintro ⟨_, _, _, rfl, ⟨_, _, _, rfl, ⟨t, rfl, ht⟩, rfl⟩, v, ⟨_, _, _, rfl, rfl, rfl⟩, rfl⟩
    exact .intro ht v
  · rintro ⟨ht, v⟩
    exact ⟨[_, _], _, _, rfl, ⟨[_], _, (), rfl, ⟨_, rfl, ht⟩, rfl⟩, v,
      ⟨_, _, (), rfl, rfl, rfl⟩, rfl⟩

theorem SpellsField.starts {t : Token} {us : List Token} {e : String × Value}
    (h : SpellsField (t :: us) e) : startsField t = true := by
  cases h with
  | intro hname value => cases hname <;> rfl

inductive SpellsFields : List Token → List (String × Value) → Prop
  | nil : SpellsFields [] []
  | cons {us vs : List Token} {e : String × Value} {es : List (String × Value)}
      (first : SpellsField us e)
      (more : SpellsFields vs es) : SpellsFields (us ++ vs) (e :: es)

/-- Fields and a closing brace, where later fields of a name replace earlier ones and those there
were. -/
def SpellsFieldsFrom (fields : Fields) (us : List Token) (all : Fields) : Prop :=
  ∃ vs es, us = vs ++ [.mark .closeBrace] ∧ SpellsFields vs es ∧ all = fields.insertAll es

theorem fieldsFrom_run {l : Lexeme} (hl : l.token ≠ .mark .closeBrace) (fields : Fields)
    (ls : List Lexeme) :
    (Rule.mk (fieldsFrom fields)).run (l :: ls) =
      (field.andThen fun e => Rule.mk (fieldsFrom (fields.insert e.1 e.2))).run (l :: ls) := by
  show fieldsFrom fields (l :: ls) = _ >>= _
  rw [fieldsFrom, if_neg hl]

theorem completes_fieldsFrom (fields : Fields) :
    (Rule.mk (fieldsFrom fields)).Completes (.ofTokens (SpellsFieldsFrom fields)) := by
  rintro ls _ ⟨vs, es, heq, hes, rfl⟩
  induction hes generalizing fields ls with
  | nil =>
    obtain ⟨l, rfl, hl⟩ := List.map_eq_singleton_iff.1 heq
    exact fun rest => ⟨Nat.lt_succ_self _, by simp [fieldsFrom, hl, NameMap.insertAll]⟩
  | @cons us vs e es first _ ih =>
    rw [List.append_assoc] at heq
    obtain ⟨ls₁, ls₂, rfl, rfl, h₂⟩ := List.map_eq_append_iff.1 heq
    obtain ⟨l, ls, rfl⟩ := List.exists_cons_of_ne_nil (recognizes_field.completes.ne_nil first)
    exact ((recognizes_field.completes first).andThen (ih (fields.insert e.1 e.2) h₂)).dispatch
      (fieldsFrom_run (ne_closeBrace_of_startsField first.starts) fields)

theorem settles_fieldsFrom (fields : Fields) (ts : List Lexeme) :
    (Rule.mk (fieldsFrom fields)).SettlesAt (.ofTokens (SpellsFieldsFrom fields)) ts := by
  have hcontinues : ∀ fields, Language.Continues (.ofTokens (SpellsFieldsFrom fields)) [] :=
    fun fields =>
    ⟨[⟨.mark .closeBrace, 0, 0, 0⟩], fields, [], [], rfl, .nil, rfl⟩
  induction hlen : ts.length using Nat.strongRecOn generalizing ts fields with
  | ind _ ih =>
    cases ts with
    | nil => exact settlesAt_nil (by simp [fieldsFrom, expected]) (hcontinues fields)
    | cons l ls =>
      by_cases hl : l.token = .mark .closeBrace
      · have hrun : (Rule.mk (fieldsFrom fields)).run (l :: ls) =
            .ok ⟨fields, ls, Nat.lt_succ_self _⟩ := by
          simp [fieldsFrom, hl]
        exact settlesAt_ok hrun [l] rfl ⟨[], [], congrArg (fun t => [t]) hl, .nil, rfl⟩
      · have hboth : (field.andThen fun e =>
            Rule.mk (fieldsFrom (fields.insert e.1 e.2))).SettlesAt
            (.andThen (.ofTokens SpellsField) fun e =>
              .ofTokens (SpellsFieldsFrom (fields.insert e.1 e.2)))
            (l :: ls) :=
          (recognizes_field.settles (l :: ls)).andThen recognizes_field.completes
            (fun p _ => ih _ (hlen ▸ p.shorter) _ p.rest rfl) fun _ _ _ => hcontinues _
        refine hboth.dispatch (fieldsFrom_run hl fields ls) (hcontinues fields)
          fun us all => ⟨?_, ?_⟩
        · rintro ⟨vs, ws, e, heq, he, xs, es, hxs, hes, rfl⟩
          refine ⟨vs.map (·.token) ++ xs, e :: es, ?_, .cons he hes, rfl⟩
          rw [heq, List.map_append, hxs, List.append_assoc]
        · rintro ⟨_, _, heq, hes, rfl⟩
          cases hes with
          | nil => exact absurd (List.cons.inj heq).1 hl
          | @cons vs ws e es first more =>
            rw [List.append_assoc] at heq
            obtain ⟨vs, ws, hsplit, rfl, hws⟩ := List.map_eq_append_iff.1 heq
            exact ⟨vs, ws, e, hsplit, first, _, es, hws, more, rfl⟩

theorem recognizes_fieldsFrom (fields : Fields) :
    (Rule.mk (fieldsFrom fields)).RecognizesTokens (SpellsFieldsFrom fields) :=
  ⟨completes_fieldsFrom fields, settles_fieldsFrom fields⟩

inductive SpellsBlock : List Token → Fields → Prop
  | none : SpellsBlock [.mark .semicolon] .empty
  | fields {us : List Token} {es : List (String × Value)} (h : SpellsFields us es) :
      SpellsBlock (.mark .openBrace :: (us ++ [.mark .closeBrace])) (.ofList es)

theorem recognizes_fieldBlock : fieldBlock.RecognizesTokens SpellsBlock := by
  have hfields := (recognizes_token (.mark .openBrace) "").before (recognizes_fieldsFrom .empty)
  have hrun : ∀ {l : Lexeme} (ls : List Lexeme), l.token = .mark .openBrace →
      fieldBlock.run (l :: ls) =
        ((token (.mark .openBrace) "").before (Rule.mk (fieldsFrom .empty))).run (l :: ls) := by
    intro l ls hl
    rw [run_before_token hl]
    simp only [fieldBlock, hl, bind, Except.bind]
    show _ = Except.map _ (fieldsFrom .empty ls)
    cases fieldsFrom .empty ls <;> rfl
  have hcontinues : Language.Continues (.ofTokens SpellsBlock) [] :=
    ⟨[⟨.mark .semicolon, 0, 0, 0⟩], .empty, .none⟩
  have hcases : ∀ {us : List Token} {fields : Fields}, SpellsBlock us fields →
      us = [.mark .semicolon] ∧ fields = .empty ∨
        ∃ vs, us = .mark .openBrace :: vs ∧ SpellsFieldsFrom .empty vs fields := by
    intro us fields h
    cases h with
    | none => exact .inl ⟨rfl, rfl⟩
    | fields h => exact .inr ⟨_, rfl, _, _, rfl, h, rfl⟩
  refine ⟨fun ls fields hls => ?_, fun ts => ?_⟩
  · rcases hcases hls with ⟨heq, rfl⟩ | ⟨vs, heq, hvs⟩
    · obtain ⟨l, rfl, hl⟩ := List.map_eq_singleton_iff.1 heq
      exact fun rest => ⟨Nat.lt_succ_self _, by simp [fieldBlock, hl]⟩
    · obtain ⟨l, ls, rfl, hl, -⟩ := List.map_eq_cons_iff.1 heq
      exact Consumes.dispatch (hfields.completes ⟨[_], vs, (), heq, rfl, hvs⟩)
        fun rest => hrun rest hl
  · cases ts with
    | nil => exact settlesAt_nil (by simp [fieldBlock, expected]) hcontinues
    | cons l ls =>
      by_cases hsemicolon : l.token = .mark .semicolon
      · have hok : fieldBlock.run (l :: ls) = .ok ⟨.empty, ls, Nat.lt_succ_self _⟩ := by
          simp [fieldBlock, hsemicolon]
        refine settlesAt_ok hok [l] rfl ?_
        show SpellsBlock [l.token] _
        rw [hsemicolon]
        exact .none
      · by_cases hopen : l.token = .mark .openBrace
        · refine (hfields.settles (l :: ls)).dispatch (hrun ls hopen) hcontinues fun us fields =>
            ⟨?_, fun hus => ?_⟩
          · rintro ⟨_, _, _, heq, rfl, vs, es, rfl, hes, rfl⟩
            show SpellsBlock ((l :: us).map (·.token)) _
            rw [heq]
            exact .fields hes
          · rcases hcases hus with ⟨heq, -⟩ | ⟨vs, heq, hvs⟩
            · exact absurd (List.cons.inj heq).1 hsemicolon
            · exact ⟨[_], vs, (), heq, rfl, hvs⟩
        · have herror : fieldBlock.run (l :: ls) = .error (expected "';' or '\x7b'" (l :: ls)) := by
            simp [fieldBlock, hsemicolon, hopen]
          refine settlesAt_head herror rfl hcontinues fun us fields hus => ?_
          rcases hcases hus with ⟨heq, -⟩ | ⟨vs, heq, -⟩
          · exact hsemicolon (List.cons.inj heq).1
          · exact hopen (List.cons.inj heq).1

end FlowGraph.Script
