import SteampunkGame.Lib.LevelOrder
import Mathlib.Logic.Function.Basic

/-!
Jobs of the scheduler. A job is an address; the members of all jobs are kept
in one record, since the back pointer and the child lists of different jobs
refer to each other. The recursive job mutex is not part of it.
-/
namespace SchedJob
open LevelOrder
variable {J : Type}

structure JobGraph (J : Type) where
  parent : J → Option J
  children : J → List J
  exitCode : J → Int
  exited : J → Bool

/-- Jobs as they are constructed. -/
def JobGraph.initial : JobGraph J where
  parent := fun _ => none
  children := fun _ => []
  exitCode := fun _ => 0
  exited := fun _ => false

variable [DecidableEq J]

def JobGraph.exit (g : JobGraph J) (self : J) (code : Int) : JobGraph J :=
  { g with
    exitCode := Function.update g.exitCode self code
    exited := Function.update g.exited self true }

def JobGraph.schedule (g : JobGraph J) (self child : J) : Except String (JobGraph J) :=
  if child = self then .error "Cyclic job dependency detected"
  else .ok { g with
    parent := Function.update g.parent child (some self)
    children := Function.update g.children self (g.children self ++ [child]) }

/-- `std::erase` removes every occurrence; the pointer is cleared first,
    whether or not the job is a child. -/
def JobGraph.erase (g : JobGraph J) (self child : J) : JobGraph J :=
  { g with
    parent := Function.update g.parent child none
    children := Function.update g.children self ((g.children self).filter (· ≠ child)) }

theorem schedule_ok {g : JobGraph J} {self child : J} {after : JobGraph J}
    (run : g.schedule self child = .ok after) :
    child ≠ self ∧
      after.parent = Function.update g.parent child (some self) ∧
      after.children = Function.update g.children self (g.children self ++ [child]) ∧
      after.exited = g.exited := by
  unfold JobGraph.schedule at run
  split at run
  · cases run
  · rename_i ne
    cases run
    exact ⟨ne, rfl, rfl, rfl⟩

theorem schedule_edge {g : JobGraph J} {self child : J} {after : JobGraph J}
    (run : g.schedule self child = .ok after) (a b : J) :
    Edge after.children a b ↔ Edge g.children a b ∨ (a = self ∧ b = child) := by
  obtain ⟨_, _, children, _⟩ := schedule_ok run
  by_cases same : a = self
  · subst same
    simp [Edge, children]
  · simp [Edge, children, same]

theorem erase_edge (g : JobGraph J) (self child a b : J) :
    Edge (g.erase self child).children a b ↔ Edge g.children a b ∧ ¬ (a = self ∧ b = child) := by
  by_cases same : a = self
  · subst same
    simp [Edge, JobGraph.erase]
  · simp [Edge, JobGraph.erase, same]

@[simp] theorem erase_exited (g : JobGraph J) (self child : J) :
    (g.erase self child).exited = g.exited := rfl

end SchedJob
