import Mathlib.Data.List.Basic
import SteampunkGame.Sched.WorkerSystem

/-!
What the arbiter may conclude about one worker from its own calls. The calls
put a worker into a phase, and the invariant says what the thread looks like
in each phase whatever the interleaving was.
-/
namespace SchedTracking
open SchedWorker SchedSystem Runs
variable {W J : Type}

/-- A suspended or suspending worker with nothing to do. -/
structure Quiescent (t : Thread J) : Prop where
  active : t.worker.active = true
  asleep : t.worker.awake = false
  drained : t.worker.jobs = []
  resting : t.pc.busy = false
  looping : t.pc.gone = false

/-- `idle` after a wait, `handed` between a push and its wake, `alone` when
    just one job was pushed and woken since the last wait. -/
inductive Phase where
  | idle (drained : Bool)
  | handed
  | alone
  | crowded
  deriving DecidableEq, Repr

def Phase.assigned : Phase → Phase
  | .idle _ => .handed
  | _ => .crowded

def Phase.woken : Phase → Phase
  | .handed | .alone => .alone
  | _ => .crowded

def Phase.passed : Phase → Phase
  | .idle drained => .idle drained
  | .alone => .idle true
  | _ => .idle false

def Phase.Fits : Phase → Thread J → Prop
  | .idle drained, t => t.worker.awake = false ∧ (drained = true → t.worker.jobs = [])
  | .handed, t => t.worker.awake = false
  | .alone, t => (t.pc = .clearAwake → t.worker.jobs = []) ∧
      (t.worker.jobs ≠ [] → t.worker.awake = true)
  | .crowded, _ => True

variable [DecidableEq W]

def Phase.after (w : W) (p : Phase) : Command W J → Phase
  | .assign v _ => if v = w then p.assigned else p
  | .wake v => if v = w then p.woken else p
  | .waitCycleFinish v => if v = w then p.passed else p

def phase (w : W) (past : List (Command W J)) : Phase := past.foldl (Phase.after w) (.idle true)

def assignedTo (w : W) (calls : List (Command W J)) : List J :=
  calls.filterMap fun
    | .assign v job => if v = w then some job else none
    | _ => none

def startedBy (w : W) (log : List (Event W J)) : List J :=
  log.filterMap fun
    | .started v job => if v = w then some job else none
    | .ended _ _ _ => none

def endedBy (w : W) (log : List (Event W J)) : List J :=
  log.filterMap fun
    | .started _ _ => none
    | .ended v job _ => if v = w then some job else none

@[simp] theorem assignedTo_append (w : W) (xs ys : List (Command W J)) :
    assignedTo w (xs ++ ys) = assignedTo w xs ++ assignedTo w ys := List.filterMap_append

@[simp] theorem startedBy_append (w : W) (xs ys : List (Event W J)) :
    startedBy w (xs ++ ys) = startedBy w xs ++ startedBy w ys := List.filterMap_append

@[simp] theorem endedBy_append (w : W) (xs ys : List (Event W J)) :
    endedBy w (xs ++ ys) = endedBy w xs ++ endedBy w ys := List.filterMap_append

theorem assignedTo_self (w : W) (job : J) : assignedTo w [.assign w job] = [job] := by
  simp [assignedTo]

theorem assignedTo_other {w : W} {call : Command W J} (other : call.target ≠ w) :
    assignedTo w [call] = [] := by
  cases call with
  | assign v job =>
    have other : v ≠ w := other
    simp [assignedTo, other]
  | _ => rfl

theorem phase_concat (w : W) (past : List (Command W J)) (call : Command W J) :
    phase w (past ++ [call]) = (phase w past).after w call :=
  List.foldl_concat _ _ _ _

theorem after_other {w : W} (call : Command W J) (other : call.target ≠ w) (p : Phase) :
    p.after w call = p := by
  cases call <;> exact if_neg other

theorem startedBy_other {w v : W} (other : v ≠ w) (e : Effect J) :
    startedBy w (eventsOf v e) = [] := by
  cases e <;> simp [startedBy, eventsOf, other]

theorem endedBy_other {w v : W} (other : v ≠ w) (e : Effect J) :
    endedBy w (eventsOf v e) = [] := by
  cases e <;> simp [endedBy, eventsOf, other]

/-- Every job handed to the worker has ended, is in hand or is queued, in
    this order, and the thread fits the phase. -/
structure Tracks (w : W) (s : System W J) : Prop where
  running : Running (s.threads w)
  finished : endedBy w s.log ++ (s.threads w).pc.inHand ++ (s.threads w).worker.jobs =
    assignedTo w s.past
  started : startedBy w s.log = endedBy w s.log ++ (s.threads w).pc.inHand
  fits : (phase w s.past).Fits (s.threads w)

theorem fits_calm {p : Phase} {t t' : Thread J} (calm : Calm t t') (fits : p.Fits t) :
    p.Fits t' := by
  cases p with
  | idle drained => simpa [Phase.Fits, calm.awake, calm.jobs] using fits
  | handed => simpa [Phase.Fits, calm.awake] using fits
  | alone =>
    obtain ⟨cleared, woken⟩ := fits
    constructor
    · intro clears
      rw [calm.jobs]
      exact cleared (calm_clearAwake calm clears)
    · rw [calm.jobs, calm.awake]
      exact woken
  | crowded => trivial

/-- A thread that is not awake can only move around its wait. -/
theorem fits_moved {p : Phase} {t t' : Thread J} {e : Effect J} (running : Running t)
    (moved : Moved t t' e) (fits : p.Fits t) : p.Fits t' := by
  have stuck : t.worker.awake = false → t.pc.busy = false := by
    intro asleep
    cases busy : t.pc.busy with
    | false => rfl
    | true => rw [running.awake busy] at asleep; cases asleep
  cases moved with
  | quiet awake jobs before after drained effect =>
    cases p with
    | idle drained => simpa [Phase.Fits, awake, jobs] using fits
    | handed => simpa [Phase.Fits, awake] using fits
    | alone =>
      constructor
      · intro clears
        rw [jobs, drained clears]
      · rw [jobs, awake]
        exact fits.2
    | crowded => trivial
  | popped job rest pc head =>
    cases p with
    | idle drained => have := stuck fits.1; rw [pc] at this; cases this
    | handed => have := stuck fits; rw [pc] at this; cases this
    | alone =>
      constructor
      · intro clears
        cases clears
      · intro _
        exact running.awake (by rw [pc]; rfl)
    | crowded => trivial
  | ended job threw pc =>
    cases p with
    | idle drained => exact fits
    | handed => exact fits
    | alone => exact ⟨fun clears => (by cases clears), fits.2⟩
    | crowded => trivial
  | cleared pc =>
    cases p with
    | idle drained => exact ⟨rfl, fits.2⟩
    | handed => rfl
    | alone =>
      constructor
      · intro clears
        cases clears
      · intro queued
        exact absurd (fits.1 pc) queued
    | crowded => trivial

/-- What a step takes from the queue or the hand shows up in its events. -/
theorem moved_accounts (w : W) {t t' : Thread J} {e : Effect J} (moved : Moved t t' e) :
    t.pc.inHand ++ t.worker.jobs =
      endedBy w (eventsOf w e) ++ t'.pc.inHand ++ t'.worker.jobs ∧
    t.pc.inHand ++ startedBy w (eventsOf w e) = endedBy w (eventsOf w e) ++ t'.pc.inHand := by
  cases moved with
  | quiet awake jobs before after drained effect =>
    cases effect with
    | inl silent => simp [silent, eventsOf, before, after, jobs, endedBy, startedBy]
    | inr notified => simp [notified, eventsOf, before, after, jobs, endedBy, startedBy]
  | popped job rest pc head => simp [eventsOf, endedBy, startedBy, WorkerPc.inHand, pc, head]
  | ended job threw pc => simp [eventsOf, endedBy, startedBy, WorkerPc.inHand, pc]
  | cleared pc => simp [eventsOf, endedBy, startedBy, WorkerPc.inHand, pc]

theorem tracks_moved {w : W} {s t : System W J} {threw : Bool} {thread : Thread J}
    {effect : Effect J} (tracks : Tracks w s)
    (run : workerMain threw (s.threads w) = some (thread, effect))
    (threads : t.threads w = thread) (past : t.past = s.past)
    (log : t.log = s.log ++ eventsOf w effect) : Tracks w t := by
  obtain ⟨running, finished, started, fits⟩ := tracks
  obtain ⟨goes, moved⟩ := workerMain_moved running run
  obtain ⟨queue, hand⟩ := moved_accounts w moved
  constructor
  · rw [threads]
    exact goes
  · rw [past, log, ← finished, threads, endedBy_append, List.append_assoc, List.append_assoc,
      List.append_assoc, queue, List.append_assoc]
  · rw [log, startedBy_append, endedBy_append, started, threads, List.append_assoc,
      List.append_assoc, hand]
  · rw [past, threads]
    exact fits_moved running moved fits

theorem tracks_calm {w : W} {s t : System W J} (tracks : Tracks w s)
    (calm : Calm (s.threads w) (t.threads w)) (past : t.past = s.past)
    (started : startedBy w t.log = startedBy w s.log)
    (ended : endedBy w t.log = endedBy w s.log) : Tracks w t := by
  constructor
  · exact calm_running calm tracks.running
  · rw [ended, calm_inHand calm, calm.jobs, past]
    exact tracks.finished
  · rw [started, ended, calm_inHand calm]
    exact tracks.started
  · rw [past]
    exact fits_calm calm tracks.fits

theorem tracks_other {w : W} {s t : System W J} (tracks : Tracks w s)
    (call : Command W J) (other : call.target ≠ w) (thread : t.threads w = s.threads w)
    (past : t.past = s.past ++ [call]) (log : t.log = s.log) : Tracks w t := by
  obtain ⟨running, finished, started, fits⟩ := tracks
  constructor
  · rw [thread]
    exact running
  · rw [thread, past, log, assignedTo_append, assignedTo_other other,
      List.append_nil]
    exact finished
  · rw [thread, log]
    exact started
  · rw [thread, past, phase_concat, after_other call other]
    exact fits

theorem tracks_assigned {w : W} {job : J} {s t : System W J} (tracks : Tracks w s)
    (thread : t.threads w = (s.threads w).push job) (past : t.past = s.past ++ [.assign w job])
    (log : t.log = s.log) : Tracks w t := by
  obtain ⟨running, finished, started, fits⟩ := tracks
  constructor
  · rw [thread]
    exact ⟨running.active, running.looping, running.awake⟩
  · rw [thread, past, log, assignedTo_append, assignedTo_self, ← finished]
    simp [Thread.push]
  · rw [thread, log]
    exact started
  · rw [past, thread, phase_concat, Phase.after, if_pos rfl]
    cases before : phase w s.past with
    | idle drained =>
      rw [before] at fits
      exact fits.1
    | _ => trivial

theorem tracks_woken {w : W} {s t : System W J} (tracks : Tracks w s)
    (thread : t.threads w = (s.threads w).setAwake) (past : t.past = s.past ++ [.wake w])
    (log : t.log = s.log) : Tracks w t := by
  obtain ⟨running, finished, started, fits⟩ := tracks
  constructor
  · rw [thread]
    exact ⟨running.active, running.looping, fun _ => rfl⟩
  · rw [thread, past, log, assignedTo_append]
    simpa [assignedTo, Thread.setAwake] using finished
  · rw [thread, log]
    exact started
  · rw [past, thread, phase_concat, Phase.after, if_pos rfl]
    cases before : phase w s.past with
    | handed =>
      rw [before] at fits
      constructor
      · intro clears
        -- a thread about to clear its flag has it set, but the job found it cleared
        have busy := running.awake (show (s.threads w).pc.busy = true by
          rw [show (s.threads w).pc = .clearAwake from clears]; rfl)
        rw [show (s.threads w).worker.awake = false from fits] at busy
        cases busy
      · intro _
        rfl
    | alone =>
      rw [before] at fits
      exact ⟨fits.1, fun _ => rfl⟩
    | _ => trivial

theorem tracks_passed {w : W} {s t : System W J} (tracks : Tracks w s)
    (asleep : (s.threads w).worker.awake = false) (thread : t.threads w = s.threads w)
    (past : t.past = s.past ++ [.waitCycleFinish w]) (log : t.log = s.log) : Tracks w t := by
  obtain ⟨running, finished, started, fits⟩ := tracks
  constructor
  · rw [thread]
    exact running
  · rw [thread, past, log, assignedTo_append]
    simpa [assignedTo] using finished
  · rw [thread, log]
    exact started
  · rw [thread, past, phase_concat, Phase.after, if_pos rfl]
    cases before : phase w s.past with
    | idle drained =>
      rw [before] at fits
      exact fits
    | alone =>
      rw [before] at fits
      constructor
      · exact asleep
      · intro _
        by_contra queued
        rw [fits.2 queued] at asleep
        cases asleep
    | _ => exact ⟨asleep, fun no => (by cases no)⟩

theorem tracks_stepped {pool : List W} {w : W} {s t : System W J} {a : Action W}
    (tracks : Tracks w s) (stepped : Stepped pool s a t) : Tracks w t := by
  cases stepped with
  | worker v threw thread effect action member run threads past log remaining =>
    by_cases same : v = w
    · subst same
      exact tracks_moved tracks run (by simp [threads]) past log
    · have still : t.threads w = s.threads w := by simp [threads, Ne.symm same]
      apply tracks_calm tracks (by rw [still]; exact calm_refl _) past
      · rw [log, startedBy_append, startedBy_other same, List.append_nil]
      · rw [log, endedBy_append, endedBy_other same, List.append_nil]
  | assigned v job threads past log remaining =>
    by_cases same : v = w
    · subst same
      exact tracks_assigned tracks (by simp [threads]) past log
    · exact tracks_other tracks (.assign v job) same (by simp [threads, Ne.symm same]) past log
  | woken v threads past log remaining =>
    by_cases same : v = w
    · subst same
      exact tracks_woken tracks (by simp [threads]) past log
    · exact tracks_other tracks (.wake v) same (by simp [threads, Ne.symm same]) past log
  | passed v asleep threads past log remaining =>
    by_cases same : v = w
    · subst same
      exact tracks_passed tracks asleep (by simp [threads]) past log
    · exact tracks_other tracks (.waitCycleFinish v) same (by rw [threads]) past log
  | calm threads past log remaining =>
    exact tracks_calm tracks (threads w) past (by rw [log]) (by rw [log])

end SchedTracking
