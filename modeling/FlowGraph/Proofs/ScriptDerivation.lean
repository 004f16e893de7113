import FlowGraph.Proofs.RuleLanguage
import FlowGraph.Proofs.TextPositions

/-! Scripts and the grammar. Lexemes derive statements by the rules of the grammar, of which a group
nests, and the parser reads just what they derive. Where they derive nothing, it stops at the first
lexeme that no derivation of those before it goes on with. -/
namespace FlowGraph.Script

open Rule

/-- Every lexeme has the line that it starts on, if the characters before the text give the first
one. -/
theorem line_of_mem_lexemesFrom (cs : List Char) {ds : List Char} {ls : List Lexeme}
    (h : lexemesFrom (Text.byteSize cs) (1 + cs.count '\n') ds = .ok ls) :
    ∀ l ∈ ls, l.line = (Text.position (cs ++ ds) l.start).line := by
  induction hn : ds.length using Nat.strong_induction_on generalizing cs ds ls with
  | h n ih =>
    cases ds with
    | nil =>
      rw [lexemesFrom] at h
      cases h
      exact fun l hl => by cases hl
    | cons d ds =>
      have hrest : ∀ extra more, lexemesFrom (Text.byteSize cs + Text.byteSize (d :: ds.take extra))
          (1 + cs.count '\n' + (d :: ds.take extra).count '\n') (ds.drop extra) = .ok more →
          ∀ l ∈ more, l.line = (Text.position (cs ++ d :: ds) l.start).line := by
        intro extra more hmore
        rw [← Text.byteSize_append, Nat.add_assoc, ← List.count_append] at hmore
        have hshort : (ds.drop extra).length < n := by
          rw [← hn, List.length_drop, List.length_cons]
          omega
        have hlines := ih _ hshort (cs ++ d :: ds.take extra) hmore rfl
        rwa [List.append_assoc, List.cons_append, List.take_append_drop] at hlines
      rw [lexemesFrom] at h
      cases hscan : scan d ds with
      | skip extra =>
        simp only [hscan] at h
        exact hrest extra ls h
      | token t extra =>
        simp only [hscan, bind, Except.bind] at h
        split at h
        · cases h
        · rename_i more hmore
          cases h
          intro l hl
          rcases List.mem_cons.1 hl with rfl | hl
          · exact (Text.line_position cs (d :: ds)).symm
          · exact hrest extra more hmore l hl
      | fault extra => simp [hscan] at h

/-! ### Statements other than groups -/

inductive SpellsNode : List Token → NodeDecl → Prop
  | intro {x : Number} {id : Nat} (hid : Denotes UInt32.size x id) (type : String)
      (placement : Placement)
      {us : List Token} {fields : Fields} (hblock : SpellsBlock us fields) :
      SpellsNode (.number x :: .text type :: (placementTokens placement ++ us))
        ⟨UInt32.ofNat id, type, placement, fields⟩

inductive SpellsHead : List Token → GroupDecl → Prop
  | intro {x : Number} {id : Nat} (hid : Denotes UInt32.size x id) (name : String)
      (placement : Placement)
      (inputs outputs : List String) :
      SpellsHead (.number x :: .text name ::
          (placementTokens placement ++ .keyword .inputs :: (labelsTokens inputs ++
          .keyword .outputs :: (labelsTokens outputs ++ [.mark .openBrace]))))
        ⟨UInt32.ofNat id, name, placement, inputs, outputs, .empty⟩

inductive SpellsSimple (line : Nat) : List Token → Statement → Prop
  | title (name : String) :
      SpellsSimple line [.keyword .title, .text name, .mark .semicolon] (.title line name)
  | space (name : String) :
      SpellsSimple line [.keyword .space, .text name, .mark .semicolon] (.space line name)
  | description (text : String) :
      SpellsSimple line [.keyword .description, .text text, .mark .semicolon]
        (.description line text)
  | flag {t : Token} {name : String} (hname : IsName t name) (value : Bool) :
      SpellsSimple line [.keyword .flag, t, .mark .equals, .bool value, .mark .semicolon]
        (.flag line name value)
  | node {us : List Token} {decl : NodeDecl} (hdecl : SpellsNode us decl) :
      SpellsSimple line (.keyword .node :: us) (.node line decl)
  | connect {us vs : List Token} {source target : Endpoint} (hsource : SpellsEndpoint us source)
      (htarget : SpellsEndpoint vs target) :
      SpellsSimple line (.keyword .connect :: (us ++ .mark .arrow :: (vs ++ [.mark .semicolon])))
        (.connect line ⟨source, target⟩)

theorem SpellsBlock.exists_cons {us : List Token} {fields : Fields} (h : SpellsBlock us fields) :
    ∃ m vs, us = .mark m :: vs := by
  cases h <;> exact ⟨_, _, rfl⟩

theorem recognizes_nodeDecl : nodeDecl.RecognizesTokens SpellsNode := by
  have hkeyword : ∀ k us fields, ¬SpellsBlock (.keyword k :: us) fields := by
    intro k us fields h
    obtain ⟨m, vs, heq⟩ := h.exists_cons
    cases heq
  have hblock := fun id type => recognizes_placed
    (fun placement => recognizes_fieldBlock.map
      fun fields => (⟨id, type, placement, fields⟩ : NodeDecl))
    (fun _ us _ ⟨fields, h, _⟩ => hkeyword _ us fields h)
    fun _ us _ ⟨fields, h, _⟩ => hkeyword _ us fields h
  refine ((recognizes_nodeId "node id").andThen fun id =>
    (recognizes_text "node type").andThen fun type => hblock id type).congr fun us decl => ⟨?_, ?_⟩
  · rintro ⟨_, _, _, rfl, ⟨x, id, rfl, hx, rfl⟩, _, _, type, rfl, rfl, placement, ws, rfl, fields,
      hfields, rfl⟩
    exact .intro hx type placement hfields
  · rintro ⟨hx, type, placement, hfields⟩
    exact ⟨[_], _, _, rfl, ⟨_, _, rfl, hx, rfl⟩, [_], _, type, rfl, rfl, placement, _, rfl, _,
      hfields, rfl⟩

theorem recognizes_groupHead : groupHead.RecognizesTokens SpellsHead := by
  have hinputs := (recognizes_token (.keyword .inputs) "'inputs'").before recognizes_labels
  have houtputs :=
    ((recognizes_token (.keyword .outputs) "'outputs'").before recognizes_labels).ended
      (recognizes_token (.mark .openBrace) "'\x7b'")
  have hlists : ∀ id name placement,
      (((token (.keyword .inputs) "'inputs'").before labels).andThen fun inputs =>
        (((token (.keyword .outputs) "'outputs'").before labels).ended
          (token (.mark .openBrace) "'\x7b'")).map fun outputs =>
            (⟨id, name, placement, inputs, outputs, .empty⟩ : GroupDecl)).RecognizesTokens
      fun us decl => ∃ inputs outputs, us = .keyword .inputs :: (labelsTokens inputs ++
        .keyword .outputs :: (labelsTokens outputs ++ [.mark .openBrace])) ∧
          decl = ⟨id, name, placement, inputs, outputs, .empty⟩ := by
    intro id name placement
    refine (hinputs.andThen fun inputs => houtputs.map fun outputs =>
      (⟨id, name, placement, inputs, outputs, .empty⟩ : GroupDecl)).congr fun us decl => ⟨?_, ?_⟩
    · rintro ⟨_, _, inputs, rfl, ⟨_, _, _, rfl, rfl, rfl⟩, outputs,
        ⟨_, _, _, rfl, ⟨_, _, _, rfl, rfl, rfl⟩, rfl⟩, rfl⟩
      exact ⟨inputs, outputs, by simp, rfl⟩
    · rintro ⟨inputs, outputs, rfl, rfl⟩
      exact ⟨_, _, inputs, rfl, ⟨[_], _, (), rfl, rfl, rfl⟩, outputs,
        ⟨_, _, (), rfl, ⟨[_], _, (), rfl, rfl, rfl⟩, rfl⟩, rfl⟩
  have hplaced := fun id name => recognizes_placed (hlists id name)
    (fun _ _ _ ⟨_, _, h, _⟩ => by cases h) fun _ _ _ ⟨_, _, h, _⟩ => by cases h
  refine ((recognizes_nodeId "group id").andThen fun id =>
    (recognizes_text "group name").andThen fun name => hplaced id name).congr
      fun us decl => ⟨?_, ?_⟩
  · rintro ⟨_, _, _, rfl, ⟨x, id, rfl, hx, rfl⟩, _, _, name, rfl, rfl, placement, ws, rfl, inputs,
      outputs, rfl, rfl⟩
    exact .intro hx name placement inputs outputs
  · rintro ⟨hx, name, placement, inputs, outputs⟩
    exact ⟨[_], _, _, rfl, ⟨_, _, rfl, hx, rfl⟩, [_], _, name, rfl, rfl, placement, _, rfl, inputs,
      outputs, rfl, rfl⟩

theorem recognizes_textStatement (what : String) :
    (textStatement what).RecognizesTokens fun us s => us = [.text s, .mark .semicolon] :=
  ((recognizes_text what).ended (recognizes_token (.mark .semicolon) "';'")).congr fun us s => by
    simp

theorem recognizes_flagStatement : flagStatement.RecognizesTokens fun us e =>
    ∃ t, us = [t, .mark .equals, .bool e.2, .mark .semicolon] ∧ IsName t e.1 := by
  have hname := (recognizes_name "flag name").ended (recognizes_token (.mark .equals) "'='")
  have hvalue :=
    fun name : String => (recognizes_truth.ended (recognizes_token (.mark .semicolon) "';'")).map
    fun value => (name, value)
  refine (hname.andThen hvalue).congr fun us e => ⟨?_, ?_⟩
  · rintro ⟨_, _, _, rfl, ⟨_, _, _, rfl, ⟨t, rfl, ht⟩, rfl⟩, v, ⟨_, _, _, rfl, rfl, rfl⟩, rfl⟩
    exact ⟨t, rfl, ht⟩
  · rintro ⟨t, rfl, ht⟩
    exact ⟨[_, _], _, _, rfl, ⟨[_], _, (), rfl, ⟨_, rfl, ht⟩, rfl⟩, _,
      ⟨[_], _, (), rfl, rfl, rfl⟩, rfl⟩

theorem recognizes_connectStatement : connectStatement.RecognizesTokens fun us link =>
    ∃ vs ws, us = vs ++ .mark .arrow :: (ws ++ [.mark .semicolon]) ∧
      SpellsEndpoint vs link.source ∧ SpellsEndpoint ws link.target := by
  have hsource := recognizes_endpoint.ended (recognizes_token (.mark .arrow) "'->'")
  have htarget := fun source : Endpoint =>
    (recognizes_endpoint.ended (recognizes_token (.mark .semicolon) "';'")).map
    fun target => (⟨source, target⟩ : Link)
  refine (hsource.andThen htarget).congr fun us link => ⟨?_, ?_⟩
  · rintro ⟨_, _, source, rfl, ⟨vs, _, _, rfl, hvs, rfl⟩, target, ⟨ws, _, _, rfl, hws, rfl⟩, rfl⟩
    exact ⟨vs, ws, by simp, hvs, hws⟩
  · rintro ⟨vs, ws, rfl, hvs, hws⟩
    exact ⟨vs ++ [_], _, _, by simp, ⟨vs, _, (), rfl, hvs, rfl⟩, _, ⟨ws, _, (), rfl, hws, rfl⟩, rfl⟩

/-- The rule for a keyword reads what follows it. -/
theorem recognizes_simpleStatement {line : Nat} {t : Token} {rule : Rule Statement}
    (h : simpleStatement line t = some rule) :
    rule.RecognizesTokens fun us s => SpellsSimple line (t :: us) s := by
  unfold simpleStatement at h
  split at h <;> cases h
  · refine ((recognizes_textStatement "module name").map (Statement.title line)).congr
      fun us s => ⟨?_, ?_⟩
    · rintro ⟨name, rfl, rfl⟩
      exact .title name
    · rintro ⟨⟩
      exact ⟨_, rfl, rfl⟩
  · refine ((recognizes_textStatement "namespace").map (Statement.space line)).congr
      fun us s => ⟨?_, ?_⟩
    · rintro ⟨name, rfl, rfl⟩
      exact .space name
    · rintro ⟨⟩
      exact ⟨_, rfl, rfl⟩
  · refine ((recognizes_textStatement "description").map (Statement.description line)).congr
      fun us s => ⟨?_, ?_⟩
    · rintro ⟨text, rfl, rfl⟩
      exact .description text
    · rintro ⟨⟩
      exact ⟨_, rfl, rfl⟩
  · refine (recognizes_flagStatement.map fun e => Statement.flag line e.1 e.2).congr
      fun us s => ⟨?_, ?_⟩
    · rintro ⟨⟨name, value⟩, ⟨t, rfl, ht⟩, rfl⟩
      exact .flag ht value
    · rintro (_ | _ | _ | ⟨ht, value⟩)
      exact ⟨(_, value), ⟨_, rfl, ht⟩, rfl⟩
  · refine (recognizes_nodeDecl.map (Statement.node line)).congr fun us s => ⟨?_, ?_⟩
    · rintro ⟨decl, hdecl, rfl⟩
      exact .node hdecl
    · rintro (_ | _ | _ | _ | hdecl)
      exact ⟨_, hdecl, rfl⟩
  · refine (recognizes_connectStatement.map (Statement.connect line)).congr fun us s => ⟨?_, ?_⟩
    · rintro ⟨link, ⟨vs, ws, rfl, hvs, hws⟩, rfl⟩
      exact .connect hvs hws
    · rintro (_ | _ | _ | _ | _ | ⟨hvs, hws⟩)
      exact ⟨⟨_, _⟩, ⟨_, _, rfl, hvs, hws⟩, rfl⟩

theorem SpellsSimple.exists_rule {line : Nat} {us : List Token} {s : Statement}
    (h : SpellsSimple line us s) :
    ∃ k vs rule, us = .keyword k :: vs ∧ k ≠ .group ∧
      simpleStatement line (.keyword k) = some rule := by
  cases h <;> exact ⟨_, _, _, rfl, by decide, rfl⟩

/-! ### Derivations -/

mutual

/-- The lexemes of a statement, which stands on the line of the first of them. -/
inductive Derives : List Lexeme → Statement → Prop
  | simple {l : Lexeme} {ls : List Lexeme} {s : Statement}
      (h : SpellsSimple l.line ((l :: ls).map (·.token)) s) :
      Derives (l :: ls) s
  /-- Later fields of a name replace earlier ones. -/
  | group {l close : Lexeme} {head body : List Lexeme} {decl : GroupDecl}
      {fields : List (String × Value)}
      {inside : List Statement} (hgroup : l.token = .keyword .group)
      (hhead : SpellsHead (head.map (·.token)) decl) (hbody : DerivesBody body fields inside)
      (hclose : close.token = .mark .closeBrace) :
      Derives (l :: (head ++ (body ++ [close])))
        (.group l.line { decl with fields := .ofList fields } inside)

/-- The lexemes of fields and statements in any order. -/
inductive DerivesBody : List Lexeme → List (String × Value) → List Statement → Prop
  | nil : DerivesBody [] [] []
  | field {ls ms : List Lexeme} {e : String × Value} {fields : List (String × Value)}
      {inside : List Statement}
      (first : SpellsField (ls.map (·.token)) e) (more : DerivesBody ms fields inside) :
      DerivesBody (ls ++ ms) (e :: fields) inside
  | statement {ls ms : List Lexeme} {s : Statement} {fields : List (String × Value)}
      {inside : List Statement}
      (first : Derives ls s) (more : DerivesBody ms fields inside) :
      DerivesBody (ls ++ ms) fields (s :: inside)

end

def DerivesScript : Language (List Statement) := fun ls script => DerivesBody ls [] script

theorem Derives.exists_cons {ls : List Lexeme} {s : Statement} (h : Derives ls s) :
    ∃ l us k, ls = l :: us ∧ l.token = .keyword k := by
  cases h with
  | simple h =>
    obtain ⟨k, vs, rule, heq, -⟩ := h.exists_rule
    exact ⟨_, _, k, rfl, (List.cons.inj heq).1⟩
  | group hgroup => exact ⟨_, _, _, rfl, hgroup⟩

/-- What a group's body is read as, after the fields and the statements that there are. -/
def BodyOf (decl : GroupDecl) (done : List Statement) : Language (GroupDecl × List Statement) :=
  fun ls b =>
  ∃ body close fields inside, ls = body ++ [close] ∧ close.token = .mark .closeBrace ∧
    DerivesBody body fields inside ∧
      b = ({ decl with fields := decl.fields.insertAll fields }, done.reverse ++ inside)

theorem continues_bodyOf (decl : GroupDecl) (done : List Statement) :
    (BodyOf decl done).Continues [] :=
  ⟨[⟨.mark .closeBrace, 0, 0, 0⟩], _, [], _, [], [], rfl, rfl, .nil, rfl⟩

/-! ### One step of the parser -/

theorem statement_run_simple {l : Lexeme} (hl : l.token ≠ .keyword .group) {rule : Rule Statement}
    (hrule : simpleStatement l.line l.token = some rule) (ls : List Lexeme) :
    (Rule.mk statement).run (l :: ls) = ((token l.token "").before rule).run (l :: ls) := by
  rw [run_before_token rfl]
  show statement (l :: ls) = _
  rw [statement, if_neg hl]
  simp only [hrule, bind, Except.bind]
  cases rule.run ls <;> rfl

theorem statement_run_group {l : Lexeme} (hl : l.token = .keyword .group) (ls : List Lexeme) :
    (Rule.mk statement).run (l :: ls) =
    ((token (.keyword .group) "").before (groupHead.andThen fun head =>
      (Rule.mk (groupBody head [])).map fun b => Statement.group l.line b.1 b.2)).run
      (l :: ls) := by
  rw [run_before_token hl]
  show statement (l :: ls) = _
  rw [statement, if_pos hl]
  simp only [Rule.andThen, Rule.map, bind, Except.bind]
  cases hhead : groupHead.run ls with
  | error fault => rfl
  | ok head =>
    simp only []
    cases groupBody head.value [] head.rest <;> rfl

theorem groupBody_run_field {l : Lexeme} (hl : startsField l.token = true) (decl : GroupDecl)
    (done : List Statement) (ls : List Lexeme) :
    (Rule.mk (groupBody decl done)).run (l :: ls) = (field.andThen fun e =>
      Rule.mk (groupBody { decl with fields := decl.fields.insert e.1 e.2 } done)).run
        (l :: ls) := by
  show groupBody decl done (l :: ls) = _ >>= _
  rw [groupBody, if_neg (ne_closeBrace_of_startsField hl), if_pos hl]

theorem groupBody_run_statement {l : Lexeme} (hclose : l.token ≠ .mark .closeBrace)
    (hl : startsField l.token = false) (decl : GroupDecl) (done : List Statement)
    (ls : List Lexeme) : (Rule.mk (groupBody decl done)).run (l :: ls) =
      ((Rule.mk statement).andThen fun s => Rule.mk (groupBody decl (s :: done))).run
      (l :: ls) := by
  show groupBody decl done (l :: ls) = _ >>= _
  rw [groupBody, if_neg hclose, if_neg (by simp [hl])]

/-! ### All that is derived is read -/

theorem SpellsHead.fields_eq {us : List Token} {decl : GroupDecl} (h : SpellsHead us decl) :
    decl.fields = .empty := by
  cases h
  rfl

mutual

theorem Derives.consumes {ls : List Lexeme} {s : Statement} :
    Derives ls s → (Rule.mk statement).Consumes ls s
  | @Derives.simple l ls s h => by
    obtain ⟨k, vs, rule, heq, hgroup, hrule⟩ := h.exists_rule
    have hl : l.token = .keyword k := (List.cons.inj heq).1
    have hread := (recognizes_token l.token "").before (recognizes_simpleStatement (hl ▸ hrule))
    refine Consumes.dispatch (hread.completes ⟨[_], _, (), rfl, rfl, h⟩)
      (statement_run_simple ?_ (hl ▸ hrule))
    rw [hl]
    exact fun h => hgroup (Token.keyword.inj h)
  | @Derives.group l close head body decl fields inside hgroup hhead hbody hclose => by
    have hkeyword : (token (.keyword .group) "").Consumes [l] () :=
      (recognizes_token (.keyword .group) "").completes (congrArg (fun t => [t]) hgroup)
    have hinside := (hbody.consumes decl [] hclose).map fun b => Statement.group l.line b.1 b.2
    -- a head has no fields yet, so those of the body are all
    rw [hhead.fields_eq] at hinside
    exact (hkeyword.andThen ((recognizes_groupHead.completes hhead).andThen hinside)).dispatch
      (statement_run_group hgroup)

theorem DerivesBody.consumes {body : List Lexeme} {fields : List (String × Value)}
    {inside : List Statement} :
    DerivesBody body fields inside → ∀ (decl : GroupDecl) (done : List Statement) {close : Lexeme},
      close.token = .mark .closeBrace → (Rule.mk (groupBody decl done)).Consumes (body ++ [close])
        ({ decl with fields := decl.fields.insertAll fields }, done.reverse ++ inside)
  | .nil, decl, done, close, hclose => by
    intro rest
    refine ⟨Nat.lt_succ_self _, ?_⟩
    show groupBody decl done (close :: rest) = _
    rw [groupBody, if_pos hclose, List.append_nil]
    rfl
  | @DerivesBody.field ls ms e fields inside first more, decl, done, close, hclose => by
    have hmore := more.consumes { decl with fields := decl.fields.insert e.1 e.2 } done hclose
    obtain ⟨l, ls, rfl⟩ := List.exists_cons_of_ne_nil (recognizes_field.completes.ne_nil first)
    rw [List.append_assoc]
    exact ((recognizes_field.completes first).andThen hmore).dispatch
      (groupBody_run_field first.starts decl done)
  | @DerivesBody.statement ls ms s fields inside first more, decl, done, close, hclose => by
    have hmore := more.consumes decl (s :: done) hclose
    rw [List.reverse_cons, List.append_assoc] at hmore
    have hfirst := first.consumes
    obtain ⟨l, ls, k, rfl, hl⟩ := first.exists_cons
    rw [List.append_assoc]
    exact (hfirst.andThen hmore).dispatch
      (groupBody_run_statement (by simp [hl]) (by simp [hl, startsField]) decl done)

end

theorem completes_statement : (Rule.mk statement).Completes Derives := fun _ _ => Derives.consumes

/-! ### Only what is derived is read -/

theorem continues_derives : Language.Continues Derives [] :=
  ⟨[⟨.keyword .title, 0, 0, 0⟩, ⟨.text "", 0, 0, 0⟩, ⟨.mark .semicolon, 0, 0, 0⟩], _,
    .simple (.title "")⟩

def GroupAt (line : Nat) : Language Statement :=
  (Language.ofTokens SpellsHead).andThen fun decl => (BodyOf decl []).map
    fun b => .group line b.1 b.2

theorem derives_group_iff {l : Lexeme} (hl : l.token = .keyword .group) {us : List Lexeme}
    {s : Statement} : Derives (l :: us) s ↔ GroupAt l.line us s := by
  constructor
  · rintro (h | @⟨_, close, head, body, decl, fields, inside, hgroup, hhead, hbody, hclose⟩)
    · obtain ⟨k, vs, rule, heq, hk, -⟩ := h.exists_rule
      have hl' : l.token = .keyword k := (List.cons.inj heq).1
      exact absurd (Token.keyword.inj (hl'.symm.trans hl)) hk
    · refine ⟨head, _, decl, rfl, hhead, _,
        ⟨body, close, fields, inside, rfl, hclose, hbody, rfl⟩, ?_⟩
      rw [hhead.fields_eq]
      rfl
  · rintro ⟨head, _, decl, rfl, hhead, _,
      ⟨body, close, fields, inside, rfl, hclose, hbody, rfl⟩, rfl⟩
    rw [hhead.fields_eq]
    exact .group hl hhead hbody hclose

theorem derives_simple_iff {l : Lexeme} (hl : l.token ≠ .keyword .group) {us : List Lexeme}
    {s : Statement} :
    Derives (l :: us) s ↔ SpellsSimple l.line (l.token :: us.map (·.token)) s := by
  constructor
  · rintro (h | h)
    · exact h
    · exact absurd h hl
  · exact .simple

/-- A statement settles, if the bodies of groups do wherever they can start in it. -/
theorem settles_statement_of {ts : List Lexeme} (hbody : ∀ decl us, us.length < ts.length →
    (Rule.mk (groupBody decl [])).SettlesAt (BodyOf decl []) us) :
    (Rule.mk statement).SettlesAt Derives ts := by
  cases ts with
  | nil => exact settlesAt_nil (by simp [statement, expected]) continues_derives
  | cons l ls =>
    by_cases hgroup : l.token = .keyword .group
    · have hkeyword := recognizes_token (.keyword .group) ""
      have hrest : ∀ us, us.length < (l :: ls).length → (groupHead.andThen fun head =>
          (Rule.mk (groupBody head [])).map fun b => Statement.group l.line b.1 b.2).SettlesAt
            (GroupAt l.line) us := by
        intro us hus
        refine (recognizes_groupHead.settles us).andThen recognizes_groupHead.completes
          (fun p _ => ?_) fun _ decl _ =>
          (continues_bodyOf decl []).map _
        exact (hbody p.value p.rest (Nat.lt_trans p.shorter hus)).map _
      have hread := (hkeyword.settles (l :: ls)).before hkeyword.completes hrest
        (hrest [] (Nat.succ_pos _)).continues
      refine hread.dispatch (statement_run_group hgroup ls) continues_derives fun us s => ?_
      rw [derives_group_iff hgroup]
      constructor
      · rintro ⟨ks, vs, _, heq, hks, h⟩
        obtain ⟨k, rfl, -⟩ := List.map_eq_singleton_iff.1 hks
        exact (List.cons.inj heq).2 ▸ h
      · exact fun h => ⟨[l], us, (), rfl, congrArg (fun t => [t]) hgroup, h⟩
    · cases hrule : simpleStatement l.line l.token with
      | some rule =>
        have hread := (recognizes_token l.token "").before (recognizes_simpleStatement hrule)
        refine (hread.settles (l :: ls)).dispatch (statement_run_simple hgroup hrule ls)
          continues_derives
          fun us s => ?_
        rw [derives_simple_iff hgroup]
        constructor
        · rintro ⟨_, _, _, heq, rfl, h⟩
          exact (List.cons.inj heq).2 ▸ h
        · exact fun h => ⟨[_], _, (), rfl, rfl, h⟩
      | none =>
        have hrun : (Rule.mk statement).run (l :: ls) =
            .error (expected "a statement" (l :: ls)) := by
          show statement (l :: ls) = _
          rw [statement, if_neg hgroup]
          simp only [hrule]
        refine settlesAt_head hrun rfl continues_derives fun us s h => ?_
        obtain ⟨k, vs, rule, heq, -, hsome⟩ := ((derives_simple_iff hgroup).1 h).exists_rule
        rw [(List.cons.inj heq).1, hsome] at hrule
        cases hrule

theorem bodyOf_iff {decl : GroupDecl} {done : List Statement} {ls : List Lexeme}
    {b : GroupDecl × List Statement} :
    BodyOf decl done ls b ↔
      (∃ close, ls = [close] ∧ close.token = .mark .closeBrace ∧ b = (decl, done.reverse)) ∨
      (Language.ofTokens SpellsField).andThen
        (fun e => BodyOf { decl with fields := decl.fields.insert e.1 e.2 } done) ls b ∨
      Language.andThen Derives (fun s => BodyOf decl (s :: done)) ls b := by
  constructor
  · rintro ⟨_, close, fields, inside, rfl, hclose, _ | ⟨first, more⟩ | ⟨first, more⟩, rfl⟩
    · exact .inl ⟨close, rfl, hclose, by rw [List.append_nil]; rfl⟩
    · exact .inr (.inl ⟨_, _, _, List.append_assoc _ _ _, first, _, close, _, inside, rfl,
        hclose, more, rfl⟩)
    · refine .inr
        (.inr ⟨_, _, _, List.append_assoc _ _ _, first, _, close, fields, _, rfl, hclose, more, ?_⟩)
      rw [List.reverse_cons, List.append_assoc]
      rfl
  · rintro (⟨close, rfl, hclose, rfl⟩ | ⟨us, _, e, rfl, first, body, close, fields, inside, rfl,
      hclose, more, rfl⟩ |
      ⟨us, _, s, rfl, first, body, close, fields, inside, rfl, hclose, more, rfl⟩)
    · exact ⟨[], close, [], [], rfl, hclose, .nil, by rw [List.append_nil]; rfl⟩
    · exact ⟨us ++ body, close, e :: fields, inside, (List.append_assoc _ _ _).symm, hclose,
        .field first more, rfl⟩
    · refine ⟨us ++ body, close, fields, s :: inside, (List.append_assoc _ _ _).symm, hclose,
        .statement first more, ?_⟩
      rw [List.reverse_cons, List.append_assoc]
      rfl

theorem startsField_of_andThen {β : Type} {M : String × Value → Language β} {l : Lexeme}
    {us : List Lexeme} {b : β} (h : (Language.ofTokens SpellsField).andThen M (l :: us) b) :
    startsField l.token = true := by
  obtain ⟨vs, ws, e, heq, hfield, -⟩ := h
  obtain ⟨v, vs, rfl⟩ := List.exists_cons_of_ne_nil (recognizes_field.completes.ne_nil hfield)
  exact (List.cons.inj heq).1 ▸ hfield.starts

theorem keyword_of_andThen {β : Type} {M : Statement → Language β} {l : Lexeme}
    {us : List Lexeme} {b : β} (h : Language.andThen Derives M (l :: us) b) :
    ∃ k, l.token = .keyword k := by
  obtain ⟨vs, ws, s, heq, hs, -⟩ := h
  obtain ⟨v, vs, k, rfl, hv⟩ := hs.exists_cons
  exact ⟨k, (List.cons.inj heq).1 ▸ hv⟩

theorem settles_groupBody (decl : GroupDecl) (done : List Statement) (ts : List Lexeme) :
    (Rule.mk (groupBody decl done)).SettlesAt (BodyOf decl done) ts := by
  induction hn : ts.length using Nat.strong_induction_on generalizing decl done ts with
  | h n ih =>
    subst hn
    -- the body of a group inside starts behind its head, so it is shorter than this one
    have hstatement : (Rule.mk statement).SettlesAt Derives ts :=
      settles_statement_of fun decl us hus => ih us.length hus decl [] us rfl
    have hcontinues := continues_bodyOf decl done
    cases ts with
    | nil => exact settlesAt_nil (by simp [groupBody, expected]) hcontinues
    | cons l ls =>
      by_cases hclose : l.token = .mark .closeBrace
      · have hrun : (Rule.mk (groupBody decl done)).run (l :: ls) =
            .ok ⟨(decl, done.reverse), ls, Nat.lt_succ_self _⟩ := by
          show groupBody decl done (l :: ls) = _
          rw [groupBody, if_pos hclose]
        exact settlesAt_ok hrun [l] rfl (bodyOf_iff.2 (.inl ⟨l, rfl, hclose, rfl⟩))
      · by_cases hfield : startsField l.token = true
        · have hread : (field.andThen fun e =>
              Rule.mk (groupBody { decl with fields := decl.fields.insert e.1 e.2 } done)).SettlesAt
              ((Language.ofTokens SpellsField).andThen fun e =>
                BodyOf { decl with fields := decl.fields.insert e.1 e.2 } done) (l :: ls) :=
            (recognizes_field.settles (l :: ls)).andThen recognizes_field.completes
              (fun p _ => ih _ p.shorter _ done p.rest rfl) fun _ _ _ => continues_bodyOf _ done
          refine hread.dispatch (groupBody_run_field hfield decl done ls) hcontinues fun us b => ?_
          rw [bodyOf_iff]
          constructor
          · exact fun h => .inr (.inl h)
          · rintro (⟨close, heq, hl, -⟩ | h | h)
            · exact absurd ((List.cons.inj heq).1 ▸ hl) hclose
            · exact h
            · obtain ⟨k, hk⟩ := keyword_of_andThen h
              simp [hk, startsField] at hfield
        · have hread : ((Rule.mk statement).andThen fun s => Rule.mk
            (groupBody decl (s :: done))).SettlesAt
              (Language.andThen Derives fun s => BodyOf decl (s :: done)) (l :: ls) :=
            hstatement.andThen completes_statement (fun p _ => ih _ p.shorter decl _ p.rest rfl)
              fun _ s _ => continues_bodyOf decl (s :: done)
          rw [Bool.not_eq_true] at hfield
          refine hread.dispatch (groupBody_run_statement hclose hfield decl done ls) hcontinues
            fun us b => ?_
          rw [bodyOf_iff]
          constructor
          · exact fun h => .inr (.inr h)
          · rintro (⟨close, heq, hl, -⟩ | h | h)
            · exact absurd ((List.cons.inj heq).1 ▸ hl) hclose
            · rw [startsField_of_andThen h] at hfield
              cases hfield
            · exact h

theorem settles_statement (ts : List Lexeme) : (Rule.mk statement).SettlesAt Derives ts :=
  settles_statement_of fun decl us _ => settles_groupBody decl [] us

/-! ### Scripts -/

def DerivesMore : Language (List Statement) :=
  Language.andThen Derives fun s => Language.map (s :: ·) DerivesScript

theorem derivesScript_iff {ls : List Lexeme} {script : List Statement} :
    DerivesScript ls script ↔ ls = [] ∧ script = [] ∨ DerivesMore ls script := by
  constructor
  · rintro (_ | _ | ⟨first, more⟩)
    · exact .inl ⟨rfl, rfl⟩
    · exact .inr ⟨_, _, _, rfl, first, _, more, rfl⟩
  · rintro (⟨rfl, rfl⟩ | ⟨us, vs, s, rfl, first, _, more, rfl⟩)
    · exact .nil
    · exact .statement first more

theorem statements_append {us : List Lexeme} {s : Statement} (h : Derives us s) (vs : List Lexeme) :
    statements (us ++ vs) = (statements vs).map (s :: ·) := by
  have hread := h.consumes vs
  obtain ⟨l, us, -, rfl, -⟩ := h.exists_cons
  obtain ⟨short, hrun⟩ := hread
  rw [List.cons_append, statements]
  change statement (l :: (us ++ vs)) = _ at hrun
  simp only [hrun, bind, Except.bind]
  cases statements vs <;> rfl

theorem statements_of_derivesScript {ls : List Lexeme} {script : List Statement}
    (h : DerivesScript ls script) : statements ls = .ok script := by
  induction hn : ls.length using Nat.strong_induction_on generalizing ls script with
  | h n ih =>
    rcases derivesScript_iff.1 h with ⟨rfl, rfl⟩ | ⟨us, vs, s, rfl, first, more, hmore, rfl⟩
    · rw [statements]
    · have hus : 0 < us.length := List.length_pos_iff.2 (completes_statement.ne_nil first)
      rw [statements_append first, ih vs.length (by rw [← hn, List.length_append]; omega) hmore rfl]
      rfl

/-- What becomes of a whole script: either it is derived, or there is a fault where the lexemes
leave all scripts. -/
theorem statements_settles (ts : List Lexeme) :
    (∃ script, statements ts = .ok script ∧ DerivesScript ts script) ∨
    ∃ fault front back, statements ts = .error fault ∧ ts = front ++ back ∧
      Language.Leaves DerivesScript front back ∧ fault.offset = back.head?.map (·.start) := by
  induction hn : ts.length using Nat.strong_induction_on generalizing ts with
  | h n ih =>
    cases ts with
    | nil => exact .inl ⟨[], by rw [statements], .nil⟩
    | cons l ls =>
      have hcontinues : Language.Continues DerivesScript [] := ⟨[], [], .nil⟩
      -- the empty script is the only one without a first statement, and no lexeme starts it
      have hhead : ∀ us script, DerivesMore (l :: us) script ↔ DerivesScript (l :: us) script := by
        intro us script
        rw [derivesScript_iff]
        simp
      cases hrun : statement (l :: ls) with
      | error fault =>
        -- no statement ends before the fault, so a script that went on would go on in the first one
        obtain ⟨front, back, hsplit, hleaves, hoffset⟩ := (settles_statement (l :: ls)).stops hrun
        have hmore : Language.Leaves DerivesMore front back :=
          hleaves.first (fun us s hs => hsplit ▸ completes_statement.not_prefix hrun hs)
            fun _ s _ => hcontinues.map (s :: ·)
        refine .inr
          ⟨fault, front, back, ?_, hsplit, hmore.dispatch hsplit hcontinues hhead, hoffset⟩
        rw [statements, hrun]
        rfl
      | ok p =>
        obtain ⟨us, hsplit, hus⟩ := (settles_statement (l :: ls)).sound hrun
        obtain ⟨s, rest, short⟩ := p
        have hall : statements (l :: ls) = (statements rest).map (s :: ·) := by
          rw [hsplit, statements_append hus]
        rcases ih rest.length (hn ▸ short) rest rfl with
          ⟨script, hok, hscript⟩ | ⟨fault, front, back, herror, rfl, hleaves, hoffset⟩
        · refine .inl ⟨s :: script, by rw [hall, hok]; rfl, ?_⟩
          rw [hsplit]
          exact .statement hus hscript
        · have hts : l :: ls = us ++ front ++ back := by rw [hsplit, List.append_assoc]
          have hmore : Language.Leaves DerivesMore (us ++ front) back :=
            Language.Leaves.second (a := s) (hleaves.map (s :: ·)) hus
              fun _ _ _ _ hs heq => completes_statement.eq hus hs heq
          exact .inr ⟨fault, us ++ front, back, by rw [hall, herror]; rfl, hts,
            hmore.dispatch hts hcontinues hhead, hoffset⟩

theorem statements_eq_ok_iff {ls : List Lexeme} {script : List Statement} :
    statements ls = .ok script ↔ DerivesScript ls script := by
  refine ⟨fun h => ?_, statements_of_derivesScript⟩
  rcases statements_settles ls with ⟨script', hok, hscript⟩ | ⟨fault, _, _, herror, -⟩
  · obtain rfl : script' = script := Except.ok.inj (hok.symm.trans h)
    exact hscript
  · rw [herror] at h
    cases h

theorem parse_of_lexemes {source : String} {ls : List Lexeme} (h : lexemes source = .ok ls) :
    parse source = (statements ls).mapError (Fault.error source) := by
  rw [parse, h]
  rfl

/-- How the text of a script is read. -/
structure ReadByGrammar (source : String) : Prop where
  /-- It is read as a script just if its lexemes derive that script. -/
  accepted (script : List Statement) :
    parse source = .ok script ↔ ∃ ls, lexemes source = .ok ls ∧ DerivesScript ls script
  unique {ls : List Lexeme} {script script' : List Statement} :
    DerivesScript ls script → DerivesScript ls script' → script = script'
  /-- The line of a lexeme, which a statement takes from its first one, is the line in the text. -/
  lines {ls : List Lexeme} (h : lexemes source = .ok ls) :
    ∀ l ∈ ls, l.line = (Text.position source.toList l.start).line
  unlexed {fault : Fault} (h : lexemes source = .error fault) : parse source =
    .error (fault.error source)
  /-- If its lexemes derive no script, the error is at the first of them with which no script goes
  on, or at the end of the text if some script starts with all of them. -/
  stopped {ls : List Lexeme} (h : lexemes source = .ok ls)
    (hnone : ∀ script, ¬DerivesScript ls script) :
    ∃ front back place message, ls = front ++ back ∧ Language.Leaves DerivesScript front back ∧
      place = Text.position source.toList ((back.head?.map (·.start)).getD source.utf8ByteSize) ∧
      parse source = .error (.malformed place.line place.column message)

theorem readByGrammar (source : String) : ReadByGrammar source where
  accepted script := by
    cases hlexemes : lexemes source with
    | error fault => simp [parse, hlexemes, Except.bind, Except.mapError]
    | ok ls =>
      rw [parse_of_lexemes hlexemes]
      simp only [Except.ok.injEq, exists_eq_left', ← statements_eq_ok_iff]
      cases statements ls <;> simp [Except.mapError]
  unique h h' := Except.ok.inj ((statements_eq_ok_iff.2 h).symm.trans (statements_eq_ok_iff.2 h'))
  lines h := line_of_mem_lexemesFrom [] h
  unlexed h := by
    rw [parse, h]
    rfl
  stopped {ls} h hnone := by
    rcases statements_settles ls with ⟨script, -, hscript⟩ |
      ⟨fault, front, back, herror, hsplit, hleaves, hoffset⟩
    · exact absurd hscript (hnone script)
    · refine ⟨front, back, _, fault.message, hsplit, hleaves, rfl, ?_⟩
      rw [parse_of_lexemes h, herror, ← hoffset]
      rfl

end FlowGraph.Script
