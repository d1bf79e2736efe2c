import SteampunkGame.Sched.FrameTraversal
import SteampunkGame.Sched.SubCycles

/-!
The calls of a frame as a program for the arbiter thread: dealing a level and
waiting for the pool is one sub-cycle.
-/
namespace SchedProgram
open LevelOrder SchedPool SchedWorker SchedRunner SchedRoundRobin SchedFrame SchedSubCycle
variable {J : Type}

/-- Which worker gets which job when a list is dealt. -/
def dealt (n : UInt32) : UInt32 → List J → List (UInt32 × J)
  | _, [] => []
  | next, job :: rest => (turn n next, job) :: dealt n (turn n next + 1) rest

theorem deal_handOut (n next : UInt32) (jobs : List J) :
    deal n next jobs = handOut (dealt n next jobs) := by
  induction jobs generalizing next with
  | nil => rfl
  | cons job rest ih => rw [deal, dealt, handOut_cons, ih]

theorem dealt_jobs (n next : UInt32) (jobs : List J) : (dealt n next jobs).map Prod.snd = jobs := by
  induction jobs generalizing next with
  | nil => rfl
  | cons job rest ih => rw [dealt, List.map_cons, ih]

theorem dealt_workers {n next : UInt32} (positive : 0 < n) (bound : next ≤ n) (jobs : List J) :
    ∀ x ∈ dealt n next jobs, x.1 ∈ workerIds n := by
  induction jobs generalizing next with
  | nil => simp [dealt]
  | cons job rest ih =>
    intro x among
    rw [dealt, List.mem_cons] at among
    cases among with
    | inl first =>
      rw [first]
      exact (mem_workerIds n _).mpr (turn_lt positive bound)
    | inr later => exact ih (turn_succ_le positive bound) x later

/-- The calls of the first sub-cycles, in the order of the threads model. -/
theorem frameCalls_subCycles (n next : UInt32) (lv : Nat → List J) (count : Nat) :
    (frameCalls n next lv count).flatten = subCycles (workerIds n)
      ((List.range count).map fun d => dealt n (startId n next lv d) (lv d)) := by
  rw [frameCalls, subCycles, List.flatMap_map, List.flatMap_def]
  simp only [deal_handOut, subCycle, waitForAll, waits]

end SchedProgram
