import Mathlib.Data.List.DropRight
import FlowGraph.Proofs.Snapshots

/-! Histories as timelines. The two stacks of a history are a line of snapshots cut in two at a
cursor: saving cuts the line off behind the cursor and appends to it, undo and redo move the cursor,
and a line that gets too long loses its oldest snapshots. Every session is followed step by step on
such a line. As long as there are ids for boundary nodes, the document is where the cursor is. -/
namespace FlowGraph

/-- A line of snapshots, oldest first, with a cursor. -/
structure Timeline where
  capacity : Nat
  entries : List Snapshot
  cursor : Nat

namespace Timeline

/-- What a session does, as far as its timeline is concerned; `now` is the document at that
moment. -/
inductive Event where
  | edit
  | save (now : Snapshot)
  | undo
  | redo
  | clear (now : Snapshot)
  | load (now : Snapshot)
  /-- A script fails to load. -/
  | refuse

def start (capacity : Nat) (s : Snapshot) : Timeline := ⟨capacity, [s], 0⟩

def reached (t : Timeline) : List Snapshot := t.entries.take (t.cursor + 1)

/-- Cuts the line off behind the cursor, appends a snapshot, and keeps the newest. -/
def record (t : Timeline) (s : Snapshot) : Timeline :=
  let entries := (t.reached ++ [s]).rtake t.capacity
  ⟨t.capacity, entries, entries.length - 1⟩

def advance (t : Timeline) : Event → Timeline
  | .edit | .refuse => t
  | .save now | .load now => t.record now
  | .undo => { t with cursor := t.cursor - 1 }
  | .redo => { t with cursor := min (t.cursor + 1) (t.entries.length - 1) }
  | .clear now => start t.capacity now

def after (capacity : Nat) (d : Document) (events : List Event) : Timeline :=
  events.foldl advance (start (max capacity 1) (.capture d))

end Timeline

/-! ### What every history keeps -/

namespace History

theorem evict_eq_rtake (capacity : Nat) (stack : List Snapshot) :
    evict capacity stack = stack.rtake capacity := by
  induction stack with
  | nil => simp [evict]
  | cons oldest rest ih =>
    rw [evict, List.rtake, List.length_cons]
    split
    · next hlong =>
      have hdrop : rest.length + 1 - capacity = rest.length - capacity + 1 := by omega
      rw [ih, List.rtake, hdrop, List.drop_succ_cons]
    · next hshort => rw [Nat.sub_eq_zero_of_le (Nat.not_lt.1 hshort), List.drop_zero]

/-- There is a present snapshot, and both stacks together are not too long. Stepping forward evicts
nothing, so that a bound on the undo stack alone would not be kept. -/
structure Bounded (h : History) : Prop where
  capacity_pos : 0 < h.capacity
  undoStack_ne_nil : h.undoStack ≠ []
  length_le : h.undoStack.length + h.redoStack.length ≤ h.capacity

namespace Bounded

variable {h h' : History} {d : Document}

theorem start (d : Document) (capacity : Nat) : (History.start d capacity).Bounded where
  capacity_pos := Nat.lt_of_lt_of_le Nat.one_pos (Nat.le_max_right _ _)
  undoStack_ne_nil := List.cons_ne_nil _ _
  length_le := Nat.le_max_right _ _

theorem push (hh : h.Bounded) (s : Snapshot) : (h.push s).Bounded := by
  have hpos := hh.capacity_pos
  have hlength : (h.push s).undoStack.length = min (h.undoStack.length + 1) h.capacity := by
    rw [History.push, evict_eq_rtake, List.rtake, List.length_drop, List.length_append,
      List.length_singleton]
    omega
  refine ⟨hpos, List.ne_nil_of_length_pos ?_, ?_⟩
  · rw [hlength]
    omega
  · rw [hlength]
    exact Nat.min_le_right _ _

theorem moves (hh : h.Bounded) (hmoves : h.Moves d h') : h'.Bounded where
  capacity_pos := hmoves.capacity ▸ hh.capacity_pos
  undoStack_ne_nil := by
    intro hnil
    obtain ⟨image, himage, -⟩ := hmoves.present
    rw [present, hnil] at himage
    cases himage
  length_le := by
    rw [hmoves.capacity, ← List.length_append, hmoves.entries, List.length_append]
    exact hh.length_le

theorem clear (hh : h.Bounded) (d : Document) : (h.clear d).Bounded :=
  ⟨hh.capacity_pos, List.cons_ne_nil _ _, hh.capacity_pos⟩

end Bounded

/-- What was captured can be restored, whatever the document was. -/
theorem TakenOf.exists_restore {P : Document → Prop} {h : History} (hh : h.TakenOf P) {s : Snapshot}
    (hs : s ∈ h.undoStack ++ h.redoStack) : ∃ d, s.restore = .ok d := by
  obtain ⟨d, -, rfl⟩ := hh s hs
  exact ⟨_, by rw [Snapshot.restore, Snapshot.capture, Image.ofBytes?_toBytes]⟩

/-- A step back succeeds, and moves the present snapshot to the other stack. -/
theorem TakenOf.undo_eq {P : Document → Prop} {h : History} (hh : h.TakenOf P) :
    (h.undoStack.length ≤ 1 ∧ h.undo = .ok none) ∨
    ∃ rest previous present d, h.undoStack = rest ++ [previous, present] ∧
      h.undo = .ok (some (d, ⟨rest ++ [previous], present :: h.redoStack, h.capacity⟩)) := by
  rcases h.undo_cases with hnone | ⟨rest, previous, present, hstack, heq⟩
  · exact .inl hnone
  · obtain ⟨d, hd⟩ := hh.exists_restore (s := previous) (by simp [hstack])
    exact .inr ⟨rest, previous, present, d, hstack, by rw [heq, hd]; rfl⟩

theorem TakenOf.redo_eq {P : Document → Prop} {h : History} (hh : h.TakenOf P) :
    (h.redoStack = [] ∧ h.redo = .ok none) ∨
    ∃ next rest d, h.redoStack = next :: rest ∧
      h.redo = .ok (some (d, ⟨h.undoStack ++ [next], rest, h.capacity⟩)) := by
  rcases h.redo_cases with hnone | ⟨next, rest, hstack, heq⟩
  · exact .inl hnone
  · obtain ⟨d, hd⟩ := hh.exists_restore (s := next) (by simp [hstack])
    exact .inr ⟨next, rest, d, hstack, by rw [heq, hd]; rfl⟩

def timeline (h : History) : Timeline where
  capacity := h.capacity
  entries := h.undoStack ++ h.redoStack
  cursor := h.undoStack.length - 1

namespace Bounded

variable {h : History}

theorem cursor_succ (hh : h.Bounded) : h.timeline.cursor + 1 = h.undoStack.length :=
  Nat.sub_add_cancel (List.length_pos_iff.2 hh.undoStack_ne_nil)

theorem reached_timeline (hh : h.Bounded) : h.timeline.reached = h.undoStack := by
  rw [Timeline.reached, hh.cursor_succ]
  exact List.take_left

theorem timeline_push (hh : h.Bounded) (s : Snapshot) :
    (h.push s).timeline = h.timeline.record s := by
  rw [Timeline.record, hh.reached_timeline]
  simp [timeline, History.push, evict_eq_rtake]

end Bounded

/-- A step in a history moves the cursor, and nothing else. -/
theorem Moves.timeline {h h' : History} {d : Document} (hmoves : h.Moves d h') :
    h'.timeline = { h.timeline with cursor := h'.undoStack.length - 1 } := by
  rw [History.timeline, hmoves.capacity, hmoves.entries]
  rfl

end History

namespace Session

variable {s : Session}

def event (s : Session) (catalog : Catalog) : Edit → Timeline.Event
  | .save => .save (.capture s.document)
  | .undo => .undo
  | .redo => .redo
  | .clearHistory => .clear (.capture s.document)
  | .load text =>
    if (s.apply catalog (.load text)).2.toBool then
      .load (.capture (s.apply catalog (.load text)).1.document)
    else .refuse
  | _ => .edit

inductive HistoryStep (s : Session) : Timeline.Event → Session → Prop
  | keep {t : Session} (e : Timeline.Event) (he : e = .edit ∨ e = .refuse)
      (h : t.history = s.history) :
      HistoryStep s e t
  | save : HistoryStep s (.save (.capture s.document)) ⟨s.document, s.history.save s.document⟩
  | load (d : Document) : HistoryStep s (.load (.capture d)) ⟨d, s.history.save d⟩
  | clear : HistoryStep s (.clear (.capture s.document)) ⟨s.document, s.history.clear s.document⟩
  | undo : HistoryStep s .undo (s.travel s.history.undo).1
  | redo : HistoryStep s .redo (s.travel s.history.redo).1

structure KeepsHistory (s : Session) (t : Timeline) : Prop where
  bounded : s.history.Bounded
  taken : s.history.TakenOf fun _ => True
  timeline : s.history.timeline = t

namespace KeepsHistory

variable {line : Timeline}

theorem save (hs : s.KeepsHistory line) (d : Document) :
    (⟨d, s.history.save d⟩ : Session).KeepsHistory (line.record (.capture d)) where
  bounded := hs.bounded.push _
  taken := hs.taken.save trivial
  timeline := hs.timeline ▸ hs.bounded.timeline_push _

theorem moves (hs : s.KeepsHistory line) {d : Document} {h : History}
    (hmoves : s.history.Moves d h) :
    KeepsHistory ⟨d, h⟩ { line with cursor := h.undoStack.length - 1 } where
  bounded := hs.bounded.moves hmoves
  taken := hs.taken.moves hmoves
  timeline := hs.timeline ▸ hmoves.timeline

theorem undo (hs : s.KeepsHistory line) :
    (s.travel s.history.undo).1.KeepsHistory (line.advance .undo) := by
  have hline := hs.timeline
  rcases hs.taken.undo_eq with ⟨hshort, hundo⟩ | ⟨rest, previous, present, d, hstack, hundo⟩
  · have hcursor : line.cursor - 1 = line.cursor := by
      simp only [← hline, History.timeline]
      omega
    rw [hundo, Timeline.advance, hcursor]
    exact hs
  · have hcursor : line.cursor - 1 = (rest ++ [previous]).length - 1 := by
      simp [← hline, History.timeline, hstack]
    rw [hundo, Timeline.advance, hcursor]
    exact hs.moves (History.moves_of_undo hundo)

theorem redo (hs : s.KeepsHistory line) :
    (s.travel s.history.redo).1.KeepsHistory (line.advance .redo) := by
  have hline := hs.timeline
  have hpos := List.length_pos_iff.2 hs.bounded.undoStack_ne_nil
  rcases hs.taken.redo_eq with ⟨hnone, hredo⟩ | ⟨next, rest, d, hstack, hredo⟩
  · have hcursor : min (line.cursor + 1) (line.entries.length - 1) = line.cursor := by
      simp only [← hline, History.timeline, hnone, List.append_nil]
      omega
    rw [hredo, Timeline.advance, hcursor]
    exact hs
  · have hcursor : min (line.cursor + 1) (line.entries.length - 1) =
        (s.history.undoStack ++ [next]).length - 1 := by
      simp only [← hline, History.timeline, hstack, List.length_append, List.length_cons,
        List.length_nil]
      omega
    rw [hredo, Timeline.advance, hcursor]
    exact hs.moves (History.moves_of_redo hredo)

/-- One edit is one step on the timeline. -/
theorem step (hs : s.KeepsHistory line) {e : Timeline.Event} {t : Session}
    (hstep : s.HistoryStep e t) : t.KeepsHistory (line.advance e) := by
  cases hstep with
  | keep e he h =>
    obtain ⟨hbounded, htaken, hline⟩ := hs
    rcases he with rfl | rfl <;> exact ⟨h ▸ hbounded, h ▸ htaken, h ▸ hline⟩
  | save => exact hs.save _
  | load d => exact hs.save d
  | clear =>
    refine ⟨hs.bounded.clear _, .start trivial s.history.capacity, ?_⟩
    rw [← hs.timeline]
    rfl
  | undo => exact hs.undo
  | redo => exact hs.redo

end KeepsHistory

/-! ### Whole sessions -/

/-- What edits that are allowed make of a session, as in `Run`, with the events on its timeline. -/
inductive Chronicle (allowed : Session → Catalog → Edit → Prop) (s₀ : Session) :
    Session → List Timeline.Event → Prop
  | start : Chronicle allowed s₀ s₀ []
  | edit {s : Session} {events : List Timeline.Event} (hrun : Chronicle allowed s₀ s events)
      (catalog : Catalog) (e : Edit) (he : allowed s catalog e) :
      Chronicle allowed s₀ (s.apply catalog e).1 (events ++ [s.event catalog e])
  | view {s : Session} {events : List Timeline.Event} (hrun : Chronicle allowed s₀ s events)
      (viewport : Viewport) :
      Chronicle allowed s₀ (s.setDocument { s.document with viewport }) (events ++ [.edit])
  | describe {s : Session} {events : List Timeline.Event} (hrun : Chronicle allowed s₀ s events)
      (metadata : Metadata) :
      Chronicle allowed s₀ (s.setDocument { s.document with metadata }) (events ++ [.edit])

namespace Chronicle

variable {allowed : Session → Catalog → Edit → Prop} {d : Document} {capacity : Nat}
  {events : List Timeline.Event}

theorem run {s₀ : Session} (hrun : Chronicle allowed s₀ s events) : Run allowed s₀ s := by
  induction hrun with
  | start => exact .start
  | edit _ catalog e he ih => exact ih.edit catalog e he
  | view _ viewport ih => exact ih.view viewport
  | describe _ metadata ih => exact ih.describe metadata

theorem inOrder
    (hallowed : ∀ s catalog e, allowed s catalog e → e.Admissible ∧ s.FreshIds catalog e)
    (hd : d.InOrder) (hrun : Chronicle allowed (.start d capacity) s events) : s.InOrder :=
  .run hd (hrun.run.mono hallowed)

end Chronicle

/-- As many steps in the history as `k`, none of which is missing. -/
inductive Steps (catalog : Catalog) (e : Edit) : Nat → Session → Session → Prop
  | done (s : Session) : Steps catalog e 0 s s
  | more {k : Nat} {s t u : Session} (step : s.apply catalog e = (t, .ok (.truth true)))
      (rest : Steps catalog e k t u) : Steps catalog e (k + 1) s u

namespace Steps

variable {catalog : Catalog} {e : Edit} {k : Nat} {t u : Session}

theorem concat (h : Steps catalog e k s t) (step : t.apply catalog e = (u, .ok (.truth true))) :
    Steps catalog e (k + 1) s u := by
  induction h with
  | done s => exact .more step (.done u)
  | more first _ ih => exact .more first (ih step)

theorem unique (h : Steps catalog e k s t) (h' : Steps catalog e k s u) : t = u := by
  induction h with
  | done s =>
    cases h'
    rfl
  | more step _ ih =>
    cases h' with
    | more step' rest' =>
      obtain ⟨rfl, -⟩ := Prod.mk.inj (step.symm.trans step')
      exact ih rest'

end Steps

end Session
end FlowGraph
