import FlowGraph.Proofs.ScriptRun

/-! What a script asks of its target. The steps of a script are known before it runs; a run takes
them in order up to the first that fails, and then leaves the groups that it is in. So whatever
fails in whatever target, every group that was entered is left again. -/
namespace FlowGraph.Script

/-! ### Requests -/

inductive Request where
  | setName (name : String)
  | setSpace (name : String)
  | setDescription (text : String)
  | setFlag (name : String) (value : Bool)
  | addNode (node : Node Graph)
  | connect (a b : Port)
  | enterGroup (id : NodeId)
  | exitGroup

inductive Failure where
  | edit (cause : EditError)
  | link (cause : LinkError)

namespace Failure

def error (line : Nat) : Failure → ScriptError
  | edit cause => .edit line cause
  | link cause => .link line cause

def of? {ε : Type} (failure : ε → Failure) : Except ε Unit → Option Failure
  | .ok _ => none
  | .error e => some (failure e)

end Failure

structure Call where
  request : Request
  failure : Option Failure

section Perform

variable {σ : Type} [Target σ]

def Request.perform (t : σ) : Request → σ × Option Failure
  | setName name => (Target.setName t name, none)
  | setSpace name => (Target.setSpace t name, none)
  | setDescription text => (Target.setDescription t text, none)
  | setFlag name value => (Target.setFlag t name value, none)
  | addNode node => ((Target.addNode t node).1, Failure.of? .edit (Target.addNode t node).2)
  | connect a b => ((Target.connect t a b).1, Failure.of? .link (Target.connect t a b).2)
  | enterGroup id => ((Target.enterGroup t id).1, Failure.of? .edit (Target.enterGroup t id).2)
  | exitGroup => (Target.exitGroup t, none)

theorem perform_addNode {t t' : σ} {node : Node Graph} {result : Except EditError Unit}
    (h : Target.addNode t node = (t', result)) :
    (Request.addNode node).perform t = (t', Failure.of? .edit result) := by
  rw [Request.perform, h]

theorem perform_connect {t t' : σ} {a b : Port} {result : Except LinkError Unit}
    (h : Target.connect t a b = (t', result)) :
    (Request.connect a b).perform t = (t', Failure.of? .link result) := by
  rw [Request.perform, h]

theorem perform_enterGroup {t t' : σ} {id : NodeId} {result : Except EditError Unit}
    (h : Target.enterGroup t id = (t', result)) :
    (Request.enterGroup id).perform t = (t', Failure.of? .edit result) := by
  rw [Request.perform, h]

inductive Performs : σ → List Call → σ → Prop
  | nil (t : σ) : Performs t [] t
  | cons {t t' u : σ} {request : Request} {failure : Option Failure} {calls : List Call}
      (here : request.perform t = (t', failure)) (rest : Performs t' calls u) :
      Performs t (⟨request, failure⟩ :: calls) u

theorem Performs.append {t t' u : σ} {calls calls' : List Call} (h : Performs t calls t')
    (h' : Performs t' calls' u) : Performs t (calls ++ calls') u := by
  induction h with
  | nil => exact h'
  | cons here _ ih => exact .cons here (ih h')

theorem Performs.one {t t' : σ} {request : Request} {failure : Option Failure}
    (here : request.perform t = (t', failure)) : Performs t [⟨request, failure⟩] t' :=
  .cons here (.nil t')

end Perform

/-! ### Open groups -/

/-- The groups that are open after a call, innermost first, if `opened` are open before it. No group
can be left where none is open. -/
def Call.opened (opened : List NodeId) (call : Call) : Option (List NodeId) :=
  match call with
  | ⟨.enterGroup id, none⟩ => some (id :: opened)
  | ⟨.exitGroup, _⟩ => if opened.isEmpty then none else some opened.tail
  | _ => some opened

def openAfter : List NodeId → List Call → Option (List NodeId)
  | opened, [] => some opened
  | opened, call :: calls => (call.opened opened).bind (openAfter · calls)

/-- Every group that is entered is left, the one that was entered last first. -/
def Balanced (calls : List Call) : Prop := openAfter [] calls = some []

def leave (opened : List NodeId) : List Call := opened.map fun _ => ⟨.exitGroup, none⟩

theorem openAfter_append (opened : List NodeId) (calls calls' : List Call) :
    openAfter opened (calls ++ calls') = (openAfter opened calls).bind (openAfter · calls') := by
  induction calls generalizing opened with
  | nil => rfl
  | cons call calls ih =>
    rw [List.cons_append, openAfter, openAfter]
    cases call.opened opened with
    | none => rfl
    | some inside => exact ih inside

theorem openAfter_leave (opened outer : List NodeId) :
    openAfter (opened ++ outer) (leave opened) = some outer := by
  induction opened with
  | nil => rfl
  | cons id opened ih => exact ih

theorem Call.opened_append {call : Call} {opened inside : List NodeId}
    (h : call.opened opened = some inside) (outer : List NodeId) :
    call.opened (opened ++ outer) = some (inside ++ outer) := by
  obtain ⟨request, failure⟩ := call
  cases request with
  | enterGroup id => cases failure <;> obtain rfl := Option.some.inj h <;> rfl
  | exitGroup =>
    cases opened with
    | nil => cases h
    | cons id opened =>
      obtain rfl := Option.some.inj h
      rfl
  | _ => obtain rfl := Option.some.inj h; rfl

/-- Groups that are open around all calls stay open. -/
theorem openAfter_around {calls : List Call} {opened inside : List NodeId}
    (h : openAfter opened calls = some inside) (outer : List NodeId) :
    openAfter (opened ++ outer) calls = some (inside ++ outer) := by
  induction calls generalizing opened with
  | nil =>
    obtain rfl := Option.some.inj h
    rfl
  | cons call calls ih =>
    obtain ⟨next, hnext, hrest⟩ := Option.bind_eq_some_iff.1 h
    rw [openAfter, Call.opened_append hnext, Option.bind_some]
    exact ih hrest

/-! ### Steps -/

/-- What a script comes to: a request, or a node whose type has no template. -/
inductive Step where
  | ask (line : Nat) (request : Request)
  | unknown (line : Nat) (type : String)

/-- The calls of a run along steps, up to the first that fails, and the error that it fails with. -/
inductive Reaches : List Step → Option ScriptError → List Call → Prop
  | finished : Reaches [] none []
  | met (line : Nat) (request : Request) {steps : List Step} {e : Option ScriptError}
      {calls : List Call}
      (rest : Reaches steps e calls) :
      Reaches (.ask line request :: steps) e (⟨request, none⟩ :: calls)
  | refused (line : Nat) (request : Request) (failure : Failure) (steps : List Step) :
      Reaches (.ask line request :: steps) (some (failure.error line)) [⟨request, some failure⟩]
  | unknown (line : Nat) (type : String) (steps : List Step) :
      Reaches (.unknown line type :: steps) (some (.unknownType line type)) []

theorem Reaches.append {steps steps' : List Step} {e e' : Option ScriptError}
    {calls calls' : List Call} (h : Reaches steps e calls) (he : e = none)
    (h' : Reaches steps' e' calls') : Reaches (steps ++ steps') e' (calls ++ calls') := by
  induction h with
  | finished => exact h'
  | met line request _ ih => exact .met line request (ih he)
  | refused => cases he
  | unknown => cases he

theorem Reaches.stop {steps : List Step} {e : Option ScriptError} {calls : List Call}
    (h : Reaches steps e calls) (he : e ≠ none) (steps' : List Step) :
    Reaches (steps ++ steps') e calls := by
  induction h with
  | finished => exact absurd rfl he
  | met line request _ ih => exact .met line request (ih he)
  | refused line request failure steps => exact .refused line request failure _
  | unknown line type steps => exact .unknown line type _

mutual

def Statement.nodeCount : Statement → Nat
  | .node _ _ => 1
  | .group _ _ body => nodeCounts body + 1
  | _ => 0

def nodeCounts : List Statement → Nat
  | [] => 0
  | s :: rest => s.nodeCount + nodeCounts rest

end

mutual

/-- The steps of a statement, if `index` nodes are added before it. -/
def Statement.steps (catalog : Catalog) (index : Nat) : Statement → List Step
  | .title line name => [.ask line (.setName name)]
  | .space line name => [.ask line (.setSpace name)]
  | .description line text => [.ask line (.setDescription text)]
  | .flag line name value => [.ask line (.setFlag name value)]
  | .node line decl =>
    [(decl.node? catalog index).elim (.unknown line decl.type) fun node => .ask line
      (.addNode node)]
  | .group line decl body =>
    .ask line (.addNode (decl.node index)) :: .ask line (.enterGroup decl.id) ::
      (stepsOf catalog (index + 1) body ++ [.ask line .exitGroup])
  | .connect line link =>
    [.ask line (.connect ⟨link.source.node, .output, link.source.port⟩
      ⟨link.target.node, .input, link.target.port⟩)]

def stepsOf (catalog : Catalog) (index : Nat) : List Statement → List Step
  | [] => []
  | s :: rest => s.steps catalog index ++ stepsOf catalog (index + s.nodeCount) rest

end

/-! ### Courses -/

/-- The calls of a run along steps: those up to the first step that fails, and then the ones that
leave the groups which are open by then. Where no step fails there are none to leave. -/
def Course (steps : List Step) (e : Option ScriptError) (calls : List Call) : Prop :=
  ∃ done opened, Reaches steps e done ∧ openAfter [] done = some opened ∧ (e = none → opened = []) ∧
    calls = done ++ leave opened

namespace Course

variable {steps steps' : List Step} {e : Option ScriptError} {calls calls' : List Call}

theorem nil : Course [] none [] := ⟨[], [], .finished, rfl, fun _ => rfl, rfl⟩

theorem append (h : Course steps none calls) (h' : Course steps' e calls') :
    Course (steps ++ steps') e (calls ++ calls') := by
  obtain ⟨done, opened, hreaches, hopen, hnone, rfl⟩ := h
  obtain ⟨done', opened', hreaches', hopen', hnone', rfl⟩ := h'
  obtain rfl := hnone rfl
  refine ⟨done ++ done', opened', hreaches.append rfl hreaches', ?_, hnone', ?_⟩
  · rw [openAfter_append, hopen]
    exact hopen'
  · simp [leave]

theorem stop (h : Course steps e calls) (he : e ≠ none) (steps' : List Step) :
    Course (steps ++ steps') e calls := by
  obtain ⟨done, opened, hreaches, hrest⟩ := h
  exact ⟨done, opened, hreaches.stop he steps', hrest⟩

theorem unknown (line : Nat) (type : String) :
    Course [.unknown line type] (some (.unknownType line type)) [] :=
  ⟨[], [], .unknown line type [], rfl, fun _ => rfl, rfl⟩

theorem met (line : Nat) {request : Request} (hopen : (Call.mk request none).opened [] = some []) :
    Course [.ask line request] none [⟨request, none⟩] :=
  ⟨[⟨request, none⟩], [], .met line request .finished,
    by simp [openAfter, hopen], fun _ => rfl, rfl⟩

theorem refused (line : Nat) {request : Request} (failure : Failure)
    (hopen : (Call.mk request (some failure)).opened [] = some []) (steps : List Step) :
    Course (.ask line request :: steps) (some (failure.error line)) [⟨request, some failure⟩] :=
  ⟨[⟨request, some failure⟩], [], .refused line request failure steps,
    by simp [openAfter, hopen], fun _ => rfl, rfl⟩

/-- A group that is entered is left, whatever becomes of what is inside it. -/
theorem group (h : Course steps e calls) (line : Nat) (id : NodeId) :
    Course (.ask line (.enterGroup id) :: (steps ++ [.ask line .exitGroup])) e
      (⟨.enterGroup id, none⟩ :: (calls ++ [⟨.exitGroup, none⟩])) := by
  obtain ⟨done, opened, hreaches, hopen, hnone, rfl⟩ := h
  have hinside : openAfter [id] done = some (opened ++ [id]) := openAfter_around hopen [id]
  cases e with
  | none =>
    -- The step that leaves the group is reached.
    obtain rfl := hnone rfl
    refine ⟨⟨.enterGroup id, none⟩ :: (done ++ [⟨.exitGroup, none⟩]), [], ?_, ?_, fun _ => rfl,
      by simp [leave]⟩
    · exact .met line _ (hreaches.append rfl (.met line _ .finished))
    · have hleft : openAfter [id] (done ++ [⟨.exitGroup, none⟩]) = some [] := by
        rw [openAfter_append, hinside]
        rfl
      exact hleft
  | some error =>
    -- The group is the outermost of those that are left open.
    refine ⟨⟨.enterGroup id, none⟩ :: done, opened ++ [id], ?_, hinside, fun he => (by cases he),
      by simp [leave]⟩
    exact .met line _ (hreaches.stop (by simp) _)

theorem balanced (h : Course steps e calls) : Balanced calls := by
  obtain ⟨done, opened, -, hopen, -, rfl⟩ := h
  have hleave := openAfter_leave opened []
  rw [List.append_nil] at hleave
  rw [Balanced, openAfter_append, hopen]
  exact hleave

end Course

/-! ### Runs -/

def errorOf : Except ScriptError Stats → Option ScriptError
  | .ok _ => none
  | .error e => some e

section Run

variable {σ : Type} [Target σ]

/-- A run from a target that takes the course of steps; at its end `count` nodes have been added. -/
def Follows (steps : List Step) (count : Nat) (t : σ) (outcome : σ × Except ScriptError Stats) :
    Prop :=
  ∃ calls, Course steps (errorOf outcome.2) calls ∧ Performs t calls outcome.1 ∧
    ∀ stats, outcome.2 = .ok stats → stats.nodes = count

theorem Follows.met {line : Nat} {request : Request}
    (hopen : (Call.mk request none).opened [] = some []) {t t' : σ}
    (here : request.perform t = (t', none)) (stats : Stats) :
    Follows [.ask line request] stats.nodes t (t', .ok stats) :=
  ⟨_, .met line hopen, .one here, fun _ h => Except.ok.inj h ▸ rfl⟩

theorem Follows.refused {line : Nat} {request : Request} (failure : Failure)
    (hopen : (Call.mk request (some failure)).opened [] = some []) {t t' : σ}
    (here : request.perform t = (t', some failure)) (steps : List Step) (count : Nat) :
    Follows (.ask line request :: steps) count t (t', .error (failure.error line)) :=
  ⟨_, .refused line failure hopen steps, .one here, fun _ h => by cases h⟩

theorem Follows.append {steps steps' : List Step} {count count' : Nat} {t t' : σ} {stats : Stats}
    {outcome : σ × Except ScriptError Stats} (h : Follows steps count t (t', .ok stats))
    (h' : Follows steps' count' t' outcome) : Follows (steps ++ steps') count' t outcome := by
  obtain ⟨calls, hcourse, hperforms, -⟩ := h
  obtain ⟨calls', hcourse', hperforms', hcount⟩ := h'
  exact ⟨calls ++ calls', hcourse.append hcourse', hperforms.append hperforms', hcount⟩

mutual

theorem follows_runStatement (catalog : Catalog) (stats : Stats) (t : σ) (s : Statement) :
    Follows (s.steps catalog stats.nodes) (stats.nodes + s.nodeCount) t
      (runStatement catalog stats t s) := by
  cases s with
  | title line name => exact .met rfl rfl stats
  | space line name => exact .met rfl rfl stats
  | description line text => exact .met rfl rfl stats
  | flag line name value => exact .met rfl rfl stats
  | node line decl =>
    rw [runStatement, Statement.steps]
    cases decl.node? catalog stats.nodes with
    | none => exact ⟨[], .unknown line decl.type, .nil t, fun _ h => by cases h⟩
    | some node =>
      cases hadd : Target.addNode t node with
      | mk t' result =>
        simp only [hadd, Option.elim_some]
        cases result with
        | ok _ => exact .met rfl (perform_addNode hadd) stats.addNode
        | error cause => exact .refused (.edit cause) rfl (perform_addNode hadd) _ _
  | group line decl body =>
    rw [runStatement, Statement.steps]
    cases hadd : Target.addNode t (decl.node stats.nodes) with
    | mk added result =>
      cases result with
      | error cause => exact .refused (.edit cause) rfl (perform_addNode hadd) _ _
      | ok _ =>
        have hadded : Follows [.ask line (.addNode (decl.node stats.nodes))] stats.nodes t
            (added, .ok stats) :=
          .met rfl (perform_addNode hadd) stats
        refine hadded.append ?_
        cases henter : Target.enterGroup added decl.id with
        | mk inside result =>
          simp only [henter]
          cases result with
          | error cause => exact .refused (.edit cause) rfl (perform_enterGroup henter) _ _
          | ok _ =>
            obtain ⟨calls, hcourse, hperforms, hcount⟩ :=
              follows_runStatements catalog stats.addGroup inside body
            refine ⟨_, hcourse.group line decl.id, .cons (perform_enterGroup henter)
              (hperforms.append (.one rfl)), fun stats' h => ?_⟩
            rw [hcount stats' h, Statement.nodeCount]
            simp only [Stats.addGroup]
            omega
  | connect line link =>
    rw [runStatement, Statement.steps]
    cases hcon : Target.connect t ⟨link.source.node, .output, link.source.port⟩
        ⟨link.target.node, .input, link.target.port⟩ with
    | mk t' result =>
      cases result with
      | ok _ => exact .met rfl (perform_connect hcon) stats.addLink
      | error cause => exact .refused (.link cause) rfl (perform_connect hcon) _ _
termination_by structural s

theorem follows_runStatements (catalog : Catalog) (stats : Stats) (t : σ)
    (script : List Statement) :
    Follows (stepsOf catalog stats.nodes script) (stats.nodes + nodeCounts script) t
      (runStatements catalog stats t script) := by
  cases script with
  | nil => exact ⟨[], .nil, .nil t, fun _ h => Except.ok.inj h ▸ rfl⟩
  | cons s rest =>
    have hs := follows_runStatement catalog stats t s
    rw [runStatements, stepsOf]
    cases hrun : runStatement catalog stats t s with
    | mk t' result =>
      rw [hrun] at hs
      cases result with
      | error e =>
        obtain ⟨calls, hcourse, hperforms, -⟩ := hs
        exact ⟨calls, hcourse.stop (by simp [errorOf]) _, hperforms, fun _ h => by cases h⟩
      | ok stats' =>
        obtain ⟨-, -, -, hcount⟩ := id hs
        have hrest := follows_runStatements catalog stats' t' rest
        rw [hcount stats' rfl, Nat.add_assoc] at hrest
        exact hs.append hrest
termination_by structural script

end

end Run

/-! ### Recorded runs -/

/-- A target that notes every call to another one. -/
structure Recorder (σ : Type) where
  target : σ
  calls : List Call

namespace Recorder

variable {σ : Type} [Target σ]

def start (t : σ) : Recorder σ := ⟨t, []⟩

def ask (r : Recorder σ) (request : Request) : Recorder σ :=
  ⟨(request.perform r.target).1, r.calls ++ [⟨request, (request.perform r.target).2⟩]⟩

instance : Target (Recorder σ) where
  setName r name := r.ask (.setName name)
  setSpace r name := r.ask (.setSpace name)
  setDescription r text := r.ask (.setDescription text)
  setFlag r name value := r.ask (.setFlag name value)
  addNode r node := (r.ask (.addNode node), (Target.addNode r.target node).2)
  connect r a b := (r.ask (.connect a b), (Target.connect r.target a b).2)
  enterGroup r id := (r.ask (.enterGroup id), (Target.enterGroup r.target id).2)
  exitGroup r := r.ask .exitGroup

theorem perform_eq (r : Recorder σ) (request : Request) :
    request.perform r = (r.ask request, (request.perform r.target).2) := by
  cases request <;> rfl

theorem calls_of_performs {r r' : Recorder σ} {calls : List Call} (h : Performs r calls r') :
    r'.calls = r.calls ++ calls := by
  induction h with
  | nil => exact (List.append_nil _).symm
  | cons here _ ih =>
    rw [perform_eq] at here
    obtain ⟨rfl, rfl⟩ := Prod.mk.inj here
    rw [ih, ask, List.append_assoc]
    rfl

/-- A recorder does to its target what is asked for, and answers what the target answers. -/
theorem inStep : Target.InStep fun (r : Recorder σ) (t : σ) => r.target = t where
  setName _ _ _ h := h ▸ rfl
  setSpace _ _ _ h := h ▸ rfl
  setDescription _ _ _ h := h ▸ rfl
  setFlag _ _ _ _ h := h ▸ rfl
  addNode _ _ _ h := h ▸ ⟨rfl, rfl⟩
  connect _ _ _ _ h := h ▸ ⟨rfl, rfl⟩
  enterGroup _ _ _ h := h ▸ ⟨rfl, rfl⟩
  exitGroup _ _ h := h ▸ rfl

end Recorder

/-! ### Workbenches -/

namespace Workbench

variable {w w' : Workbench}

def opened (w : Workbench) : List NodeId := w.focus.frames.map (·.group)

theorem opened_settled {ε : Type} {result : Except ε Workbench}
    (h : ∀ v, result = .ok v → v.opened = w.opened) : (w.settled result).1.opened = w.opened := by
  cases result with
  | error e => rfl
  | ok v => exact h v rfl

theorem opened_exitGroup (h : w.opened ≠ []) : w.exitGroup.opened = w.opened.tail := by
  obtain ⟨metadata, ⟨active, frames⟩, enclosing⟩ := w
  cases frames with
  | nil => exact absurd rfl h
  | cons frame frames =>
    simp only [exitGroup, Focus.close, Focus.frames_reconcile]
    rfl

/-- A workbench is in the groups that the calls to it say. -/
theorem opened_perform {request : Request} {failure : Option Failure}
    (here : request.perform w = (w', failure)) {inside : List NodeId}
    (hopen : (Call.mk request failure).opened w.opened = some inside) : w'.opened = inside := by
  cases request with
  | addNode node =>
    obtain ⟨rfl, -⟩ := Prod.mk.inj here
    obtain rfl := Option.some.inj hopen
    refine opened_settled fun v hv => ?_
    obtain ⟨g, -, rfl⟩ := addNode_eq_ok hv
    rfl
  | connect a b =>
    obtain ⟨rfl, -⟩ := Prod.mk.inj here
    obtain rfl := Option.some.inj hopen
    refine opened_settled fun v hv => ?_
    obtain ⟨result, hcon, rfl⟩ := Except.map_eq_ok_iff.1 hv
    obtain ⟨linked, -, rfl⟩ := Except.map_eq_ok_iff.1 hcon
    rfl
  | enterGroup id =>
    obtain ⟨rfl, rfl⟩ := Prod.mk.inj here
    simp only [Target.enterGroup] at hopen ⊢
    cases henter : w.enterGroup id with
    | error e =>
      rw [henter] at hopen
      exact Option.some.inj hopen
    | ok v =>
      rw [henter] at hopen
      obtain rfl := Option.some.inj hopen
      obtain ⟨focus, hfocus, rfl⟩ := Except.map_eq_ok_iff.1 henter
      obtain ⟨n, -, -, rfl⟩ := Focus.enter_eq_ok hfocus
      rfl
  | exitGroup =>
    obtain ⟨rfl, rfl⟩ := Prod.mk.inj here
    by_cases hnone : w.opened = []
    · rw [hnone] at hopen
      cases hopen
    · have hsome : (Call.mk .exitGroup none).opened w.opened = some w.opened.tail := by
        simp [Call.opened, hnone]
      rw [hsome] at hopen
      rw [← Option.some.inj hopen]
      exact opened_exitGroup hnone
  | _ =>
    obtain ⟨rfl, -⟩ := Prod.mk.inj here
    exact Option.some.inj hopen

theorem opened_of_performs {calls : List Call} (h : Performs w calls w') {inside : List NodeId}
    (hopen : openAfter w.opened calls = some inside) : w'.opened = inside := by
  induction h with
  | nil => exact Option.some.inj hopen
  | cons here _ ih =>
    obtain ⟨next, hnext, hrest⟩ := Option.bind_eq_some_iff.1 hopen
    rw [← opened_perform here hnext] at hrest
    exact ih hrest

end Workbench

/-- A script leaves every group that it enters. Whatever its target does, the calls to it take the
course of the script: they end with the first that fails, but for leaving the groups that are open
by then. A workbench is after a script where it was before. -/
theorem run_leaves_groups (catalog : Catalog) (script : List Statement) :
    (∀ (σ : Type) [Target σ] (t : σ),
      (run catalog script (Recorder.start t)).1.target = (run catalog script t).1 ∧
      (run catalog script (Recorder.start t)).2 = (run catalog script t).2 ∧
      Balanced (run catalog script (Recorder.start t)).1.calls ∧
      Course (stepsOf catalog 0 script) (errorOf (run catalog script t).2)
        (run catalog script (Recorder.start t)).1.calls) ∧
    (∀ w : Workbench, (run catalog script w).1.focus.path = w.focus.path) ∧
    ∀ metadata g enclosing,
      (run catalog script (⟨metadata, .ofGraph g, enclosing⟩ : Workbench)).1.focus.frames = [] := by
  have hplace : ∀ w : Workbench, (run catalog script w).1.opened = w.opened := fun w => by
    obtain ⟨calls, hcourse, hperforms, -⟩ := follows_runStatements catalog .none w script
    exact Workbench.opened_of_performs hperforms (openAfter_around hcourse.balanced w.opened)
  refine ⟨fun σ _ t => ?_, fun w => ?_, fun metadata g enclosing => ?_⟩
  · obtain ⟨htarget, hresult⟩ :=
      Recorder.inStep.runStatements (rfl : (Recorder.start t).target = t) catalog .none script
    obtain ⟨calls, hcourse, hperforms, -⟩ :=
      follows_runStatements catalog .none (Recorder.start t) script
    have hcalls : (run catalog script (Recorder.start t)).1.calls = calls :=
      Recorder.calls_of_performs hperforms
    rw [hresult] at hcourse
    rw [hcalls]
    exact ⟨htarget, hresult, hcourse.balanced, hcourse⟩
  · exact congrArg List.reverse (hplace w)
  · exact List.map_eq_nil_iff.1 (hplace ⟨metadata, .ofGraph g, enclosing⟩)

end FlowGraph.Script
