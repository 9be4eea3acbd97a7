import Btlos.Os.Ownership
import Btlos.Os.Timer

/-! The loader and the CPUs with the timer. Each of them has its `timer_id_t`, works
only while it is outside `next_slot`, and has to call it before it goes on. -/
namespace Btlos

open Transition

variable {n : Nat} {Mem : Type*}

/-- `main` attaches the CPUs in order and then the loader, each at the head of
`dev_list`. -/
def ldEvent : Fin (n + 1) := 0

def cpuEvent (c : Fin n) : Fin (n + 1) := c.rev.succ

/-- One instruction that was run, and the time slot in which. -/
structure Ran (n : Nat) where
  cpu : Fin n
  proc : ProcId
  slot : Nat

/-- A party is due when it is about to call `next_slot`. `ran` and `arrivals` record
the past and have no effect: the instructions that were run, and the slots in which
the processes were handed in. -/
structure Clocked (n : Nat) (Mem : Type*) where
  os : Os (Fin n) Mem
  timer : Timer (n + 1)
  due : Fin (n + 1) → Bool
  ran : List (Ran n)
  arrivals : List Nat

def Clocked.initial (mem : Mem) : Clocked n Mem :=
  ⟨Os.initial mem, Timer.initial (n + 1), fun _ => false, [], []⟩

/-- The number of the slot that a party is in, or was in last. -/
def Clocked.slot (s : Clocked n Mem) (party : Fin (n + 1)) : Nat := (s.timer.device party).returned

/-- The party is outside `next_slot` and has not come to the end of its slot. -/
def Clocked.Works (s : Clocked n Mem) (party : Fin (n + 1)) : Prop :=
  (s.timer.device party).phase = .working ∧ s.due party = false

/-- The party that takes a step. -/
def OsCall.event : OsCall (Fin n) → Fin (n + 1)
  | .compute c | .free c _ | .putProc c _ | .getProc c _ | .run c _ => cpuEvent c
  | .load _ | .addProc _ | .finish => ldEvent

/-- Whether `next_slot` comes after the step: a CPU goes back to the head of its loop
and the loader has handed in a process. -/
def OsCall.dueAfter (t : Os (Fin n) Mem) : OsCall (Fin n) → Bool
  | .compute c | .free c _ | .putProc c _ | .getProc c _ | .run c _ =>
      (t.cpu c).loc == .check
  | .addProc _ => true
  | .load _ | .finish => false

def Clocked.recordRan (s : Clocked n Mem) : OsCall (Fin n) → List (Ran n)
  | .run c proc => s.ran ++ [⟨c, proc, s.slot (cpuEvent c)⟩]
  | _ => s.ran

def Clocked.recordArrival (s : Clocked n Mem) : OsCall (Fin n) → List Nat
  | .addProc _ => s.arrivals ++ [s.slot ldEvent]
  | _ => s.arrivals

/-- After a step of the loader or a CPU. -/
def Clocked.moved (s : Clocked n Mem) (call : OsCall (Fin n)) (t : Os (Fin n) Mem) :
    Clocked n Mem where
  os := t
  timer := s.timer
  due := Function.update s.due call.event (call.dueAfter t)
  ran := s.recordRan call
  arrivals := s.recordArrival call

/-- The loop in which the loader waits for the start time of a process. -/
def Clocked.AwaitsStart (startTime : ProcId → UInt64) (s : Clocked n Mem) : Prop :=
  s.os.loader = .add ∧ s.timer.currentTime < startTime s.os.index

/-- The thread of a party has come to its end. -/
def Os.Stopped (s : Os (Fin n) Mem) (party : Fin (n + 1)) : Prop :=
  party = ldEvent ∧ s.loader = .stopped ∨ ∃ c, party = cpuEvent c ∧ (s.cpu c).loc = .stopped

inductive ClockedCall (n : Nat) where
  | os (call : OsCall (Fin n))
  | timer (call : TimerCall (n + 1))

/-- The steps of the whole simulation until the program exits. `main` stops the timer
when it has joined all threads. -/
inductive ClockedMove (cfg : Config) (startTime : ProcId → UInt64)
    (execute : ProcId → Inst → Mem → Int → Mem → Prop) :
    Clocked n Mem → ClockedCall n → Clocked n Mem → Prop where
  | os {s : Clocked n Mem} {call : OsCall (Fin n)} {t : Os (Fin n) Mem}
      (hWorks : s.Works call.event)
      (hStart : ∀ proc, call = .addProc proc → ¬ s.AwaitsStart startTime)
      (hMove : OsMove cfg execute s.os call t) :
      ClockedMove cfg startTime execute s (.os call) (s.moved call t)
  | nextSlot {s : Clocked n Mem} {t : Timer (n + 1)} (party : Fin (n + 1))
      (hDue : s.due party = true ∨ party = ldEvent ∧ s.AwaitsStart startTime)
      (hStep : TimerStep s.timer (.nextSlot party) t) :
      ClockedMove cfg startTime execute s (.timer (.nextSlot party))
        { s with timer := t, due := Function.update s.due party false }
  | slotReturns {s : Clocked n Mem} {t : Timer (n + 1)} (party : Fin (n + 1))
      (hStep : TimerStep s.timer (.slotReturns party) t) :
      ClockedMove cfg startTime execute s (.timer (.slotReturns party)) { s with timer := t }
  | timer {s : Clocked n Mem} {t : Timer (n + 1)} (hStep : TimerStep s.timer .timer t) :
      ClockedMove cfg startTime execute s (.timer .timer) { s with timer := t }
  | detachEvent {s : Clocked n Mem} {t : Timer (n + 1)} (party : Fin (n + 1))
      (hStopped : s.os.Stopped party) (hStep : TimerStep s.timer (.detachEvent party) t) :
      ClockedMove cfg startTime execute s (.timer (.detachEvent party)) { s with timer := t }
  | stopTimer {s : Clocked n Mem} {t : Timer (n + 1)}
      (hJoined : ∀ party, (s.timer.device party).phase = .detached)
      (hStep : TimerStep s.timer .stopTimer t) :
      ClockedMove cfg startTime execute s (.timer .stopTimer) { s with timer := t }

def ClockedStep (cfg : Config) (startTime : ProcId → UInt64)
    (execute : ProcId → Inst → Mem → Int → Mem → Prop)
    (s : Clocked n Mem) (call : ClockedCall n) (t : Clocked n Mem) : Prop :=
  s.os.exited = false ∧ ClockedMove cfg startTime execute s call t

theorem cpuEvent_ne_ldEvent (c : Fin n) : cpuEvent c ≠ ldEvent := Fin.succ_ne_zero _

theorem cpuEvent_injective : Function.Injective (cpuEvent : Fin n → Fin (n + 1)) := by
  intro c c' h
  exact Fin.rev_injective (Fin.succ_injective _ h)

/-! The steps that each part takes -/

def ClockedCall.os? : ClockedCall n → Option (OsCall (Fin n))
  | .os call => some call
  | .timer _ => none

def ClockedCall.timer? : ClockedCall n → Option (TimerCall (n + 1))
  | .os _ => none
  | .timer call => some call

variable {cfg : Config} {startTime : ProcId → UInt64}
  {execute : ProcId → Inst → Mem → Int → Mem → Prop} {s t : Clocked n Mem} {call : ClockedCall n}

theorem ClockedStep.os_run (step : ClockedStep cfg startTime execute s call t) :
    Runs (OsStep cfg execute) s.os call.os?.toList t.os := by
  obtain ⟨hExited, move⟩ := step
  cases move with
  | os hWorks hStart hMove => exact Runs.one ⟨hExited, hMove⟩
  | nextSlot | slotReturns | timer | detachEvent | stopTimer => exact Runs.nil

theorem ClockedStep.timer_run (step : ClockedStep cfg startTime execute s call t) :
    Runs TimerStep s.timer call.timer?.toList t.timer := by
  obtain ⟨-, move⟩ := step
  cases move with
  | os => exact Runs.nil
  | nextSlot party hDue hStep => exact Runs.one hStep
  | slotReturns party hStep => exact Runs.one hStep
  | timer hStep => exact Runs.one hStep
  | detachEvent party hStopped hStep => exact Runs.one hStep
  | stopTimer hJoined hStep => exact Runs.one hStep

end Btlos
