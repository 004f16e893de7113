import FlowGraph.Document.Snapshot

/-! Undo and redo over snapshots, of which a bounded number is kept. -/
namespace FlowGraph

structure History where
  /-- What can be gone back to, oldest first, and the present snapshot behind it. -/
  undoStack : List Snapshot
  /-- What can be gone forward to, nearest first. -/
  redoStack : List Snapshot
  capacity : Nat

namespace History

def standardCapacity : Nat := 50

/-- A history that holds one snapshot; its capacity is at least one. -/
def start (d : Document) (capacity : Nat) : History := ⟨[.capture d], [], max capacity 1⟩

def present (h : History) : Option Snapshot := h.undoStack.getLast?

def size (h : History) : Nat := h.undoStack.length

def canUndo (h : History) : Bool := 1 < h.undoStack.length

def canRedo (h : History) : Bool := !h.redoStack.isEmpty

/-- Drops the oldest snapshot as long as there are too many. -/
def evict (capacity : Nat) : List Snapshot → List Snapshot
  | [] => []
  | oldest :: rest =>
    if capacity < (oldest :: rest).length then evict capacity rest else oldest :: rest

/-- Makes a snapshot the present one, and forgets what could be gone forward to. -/
def push (h : History) (s : Snapshot) : History :=
  { h with undoStack := evict h.capacity (h.undoStack ++ [s]), redoStack := [] }

def save (h : History) (d : Document) : History := h.push (.capture d)

/-- Steps back to the snapshot before the present one, if there is one. -/
def undo (h : History) : Except FileError (Option (Document × History)) :=
  match h.undoStack.dropLast.getLast?, h.present with
  | some previous, some present => previous.restore.map fun d =>
    some (d, { h with
      undoStack := h.undoStack.dropLast
      redoStack := present :: h.redoStack })
  | _, _ => .ok none

/-- Steps forward, if there is a snapshot to go to. Nothing is evicted here. -/
def redo (h : History) : Except FileError (Option (Document × History)) :=
  match h.redoStack with
  | [] => .ok none
  | next :: rest => next.restore.map fun d =>
    some (d, { h with undoStack := h.undoStack ++ [next], redoStack := rest })

/-- Keeps the capacity and nothing else. -/
def clear (h : History) (d : Document) : History := ⟨[.capture d], [], h.capacity⟩

end History
end FlowGraph
