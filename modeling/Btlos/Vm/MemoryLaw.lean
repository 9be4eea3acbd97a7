import Btlos.Vm.Calls
import Btlos.Vm.Cells
import Btlos.Library.Transition

/-! Paged memory compared with memory: what a process should read, what it
reads, and which of its calls put the byte there. -/
namespace Btlos

open Transition

/-- A call on the regions and bytes of one process. -/
inductive ByteCall where
  | alloc (rgid size : Int)
  | free (rgid : Int)
  | read (rgid offset : Int)
  | write (rgid offset : Int) (value : Byte)
deriving DecidableEq

/-- A call that returned 0, with the byte that a read obtained. -/
inductive ByteEvent where
  | alloc (rgid size : Int)
  | free (rgid : Int)
  | read (rgid offset : Int) (data : Byte)
  | write (rgid offset : Int) (value : Byte)

def ByteEvent.call : ByteEvent → ByteCall
  | alloc rgid size => .alloc rgid size
  | free rgid => .free rgid
  | read rgid offset _ => .read rgid offset
  | write rgid offset value => .write rgid offset value

/-- The state after the event, if the call succeeds and a read obtains that
byte. The area is number 0. -/
def ByteEvent.run (u : Uninit) (s : Caller) : ByteEvent → Option Caller
  | alloc rgid size => (Btlos.alloc u.fuel u.junk 0 rgid size u.addr s).ok?.map Prod.snd
  | free rgid => (Btlos.free 0 rgid s).ok?.map Prod.snd
  | read rgid offset data =>
      ((Btlos.read u.junk 0 rgid offset s).ok?.filter fun result => result.1 = data).map Prod.snd
  | write rgid offset value => (Btlos.write u.junk 0 rgid offset value s).ok?.map Prod.snd

/-! The memory that the calls of a process describe -/

/-- For each live symbol its size, and for each byte of it the number of the
call that last wrote it, if one has since the symbol was allocated. -/
structure Contents where
  size : Int → Option Int
  last : Int → Int → Option Nat

namespace Contents

def empty : Contents := ⟨fun _ => none, fun _ _ => none⟩

/-- The contents after call number `number`. Only bytes inside a region count. -/
def after (number : Nat) (contents : Contents) : ByteCall → Contents
  | .alloc rgid size =>
      ⟨Function.update contents.size rgid (some size),
        Function.update contents.last rgid fun _ => none⟩
  | .free rgid =>
      ⟨Function.update contents.size rgid none,
        Function.update contents.last rgid fun _ => none⟩
  | .read _ _ => contents
  | .write rgid offset _ =>
      if (contents.size rgid).any fun size => 0 ≤ offset ∧ offset < size then
        { contents with
          last := Function.update contents.last rgid
            (Function.update (contents.last rgid) offset (some number)) }
      else contents

end Contents

/-- The value that call number `number` wrote. -/
def writtenBy (calls : List ByteCall) (number : Nat) : Option Byte :=
  match calls[number]? with
  | some (.write _ _ value) => some value
  | _ => none

/-! Runs with their history -/

/-- What a run of the system has meant for one process: its calls, the memory
they describe, for each cell of RAM the number of its call that stored there
last (none if another process did since), and its reads of bytes it has
written, each with that number for the cell it was read from. -/
structure History where
  calls : List ByteCall
  contents : Contents
  origin : Int → Option Nat
  reads : List (Option Nat × Byte)

namespace History

def empty : History := ⟨[], .empty, fun _ => none, []⟩

/-- The history of the process itself after one of its own calls from `s`. -/
def own (history : History) (s : Caller) (event : ByteEvent) : History where
  calls := history.calls ++ [event.call]
  contents := history.contents.after history.calls.length event.call
  origin :=
    match event with
    | .write rgid offset _ =>
        Function.update history.origin (ramCell s rgid offset) (some history.calls.length)
    | _ => history.origin
  reads :=
    match event with
    | .read rgid offset data =>
        if (history.contents.last rgid offset).isSome then
          history.reads ++ [(history.origin (ramCell s rgid offset), data)]
        else history.reads
    | _ => history.reads

/-- The history after a call of another process from `s`. -/
def foreign (history : History) (s : Caller) : ByteEvent → History
  | .write rgid offset _ =>
      { history with origin := Function.update history.origin (ramCell s rgid offset) none }
  | _ => history

end History

/-- A system together with the history of one of its processes. -/
structure Tracked (Proc : Type*) where
  sys : System Proc
  history : History

namespace Tracked

variable {Proc : Type*}

def initial (memramsz memswpsz : Int) : Tracked Proc :=
  ⟨System.initial memramsz memswpsz, .empty⟩

variable [DecidableEq Proc]

/-- A call of some process that returns 0, seen from the process `self`. -/
def step (self : Proc) (u : Uninit) (s : Tracked Proc) (label : Proc × ByteEvent) :
    Option (Tracked Proc) :=
  (label.2.run u (s.sys.caller label.1)).map fun s' =>
    ⟨s.sys.put label.1 s',
      if label.1 = self then s.history.own (s.sys.caller label.1) label.2
      else s.history.foreign (s.sys.caller label.1) label.2⟩

/-- The contents of uninitialised variables and the number of rounds are open. -/
def Step (self : Proc) (s : Tracked Proc) (label : Proc × ByteEvent) (t : Tracked Proc) : Prop :=
  ∃ u, step self u s label = some t

/-- A read by `self` of a byte it has written gives the byte written last. -/
def ReadsLastWrite (self : Proc) (s : Tracked Proc) (label : Proc × ByteEvent) : Prop :=
  match label.2 with
  | .read rgid offset data => label.1 = self → ∀ number ∈ s.history.contents.last rgid offset,
      writtenBy s.history.calls number = some data
  | _ => True

/-- The condition for that: of all calls, the one that stored last in the cell of
RAM that the read goes to is the one that wrote the byte last. -/
def ReadsOwnStore (self : Proc) (s : Tracked Proc) (label : Proc × ByteEvent) : Prop :=
  match label.2 with
  | .read rgid offset _ => label.1 = self → ∀ number ∈ s.history.contents.last rgid offset,
      s.history.origin (ramCell (s.sys.caller self) rgid offset) = some number
  | _ => True

instance (self : Proc) (s : Tracked Proc) :
    (label : Proc × ByteEvent) → Decidable (ReadsLastWrite self s label)
  | (_, .read _ _ _) => inferInstanceAs (Decidable (_ → ∀ number ∈ _, _ = _))
  | (_, .alloc _ _) | (_, .free _) | (_, .write _ _ _) => isTrue trivial

instance (self : Proc) (s : Tracked Proc) :
    (label : Proc × ByteEvent) → Decidable (ReadsOwnStore self s label)
  | (_, .read _ _ _) => inferInstanceAs (Decidable (_ → ∀ number ∈ _, _ = _))
  | (_, .alloc _ _) | (_, .free _) | (_, .write _ _ _) => isTrue trivial

end Tracked

/-! One call -/

theorem writtenBy_append {calls : List ByteCall} {number : Nat} {value : Byte}
    (h : writtenBy calls number = some value) (call : ByteCall) :
    writtenBy (calls ++ [call]) number = some value := by
  have hSome : number < calls.length := by
    by_contra hOut
    rw [writtenBy, List.getElem?_eq_none (by omega)] at h
    simp at h
  rw [writtenBy, List.getElem?_append_left hSome]
  exact h

theorem writtenBy_last (calls : List ByteCall) (rgid offset : Int) (value : Byte) :
    writtenBy (calls ++ [.write rgid offset value]) calls.length = some value := by
  simp [writtenBy]

/-- The bytes in RAM after an event from `s`. -/
def ByteEvent.stored (s : Caller) : ByteEvent → Int → Byte
  | write rgid offset value => Function.update s.mram.storage (ramCell s rgid offset) value
  | _ => s.mram.storage

private theorem ok_of_map_snd {Value : Type*} {call : Outcome Caller Value} {t : Caller}
    (h : call.ok?.map Prod.snd = some t) : ∃ value, call = .ok value t := by
  obtain ⟨⟨value, t'⟩, hOk, rfl⟩ := Option.map_eq_some_iff.mp h
  exact ⟨value, Outcome.ok?_eq_some.mp hOk⟩

theorem ByteEvent.run_read {u : Uninit} {s t : Caller} {rgid offset : Int} {data : Byte}
    (h : (ByteEvent.read rgid offset data).run u s = some t) :
    Btlos.read u.junk 0 rgid offset s = .ok data t := by
  obtain ⟨⟨value, t'⟩, hFilter, rfl⟩ := Option.map_eq_some_iff.mp h
  obtain ⟨hOk, hValue⟩ := Option.filter_eq_some_iff.mp hFilter
  rw [← show value = data from of_decide_eq_true hValue]
  exact Outcome.ok?_eq_some.mp hOk

theorem ByteEvent.run_cells {event : ByteEvent} {u : Uninit} {s t : Caller}
    (h : event.run u s = some t) (hDecodes : DecodesZero s) :
    t.mram.storage = event.stored s ∧ (s.mram.freeFpList = [] → t.mram.freeFpList = []) ∧
      DecodesZero t := by
  have hKeeps := keepsCells_pagingInvariant s
  have hStart := KeepsCells.refl hDecodes
  cases event with
  | alloc rgid size =>
      obtain ⟨value, hCall⟩ := ok_of_map_snd h
      have hEnds := hKeeps.alloc hStart u.fuel u.junk 0 rgid size u.addr
      rw [hCall] at hEnds
      exact ⟨hEnds.storage, hEnds.drained, hEnds.decodes⟩
  | free rgid =>
      obtain ⟨value, hCall⟩ := ok_of_map_snd h
      have hEnds := hKeeps.free hStart rgid
      rw [hCall] at hEnds
      exact ⟨hEnds.storage, hEnds.drained, hEnds.decodes⟩
  | read rgid offset data =>
      have hEnds := (read_ok hDecodes (run_read h)).2
      exact ⟨hEnds.storage, hEnds.drained, hEnds.decodes⟩
  | write rgid offset value =>
      obtain ⟨value, hCall⟩ := ok_of_map_snd h
      exact write_ok hDecodes hCall

namespace History

/-- The history says of every cell of RAM which call put its byte there. -/
def Stored (history : History) (storage : Int → Byte) : Prop :=
  ∀ cell number, history.origin cell = some number →
    writtenBy history.calls number = some (storage cell)

theorem Stored.own {history : History} {s : Caller} (h : history.Stored s.mram.storage)
    (event : ByteEvent) : (history.own s event).Stored (event.stored s) := by
  intro cell number hOrigin
  cases event with
  | write rgid offset value =>
      simp only [History.own, ByteEvent.stored, Function.update_apply] at hOrigin ⊢
      split_ifs at hOrigin ⊢ with hCell
      · obtain rfl := Option.some.inj hOrigin
        exact writtenBy_last history.calls rgid offset value
      · exact writtenBy_append (h cell number hOrigin) _
  | alloc | free | read => exact writtenBy_append (h cell number hOrigin) _

theorem Stored.foreign {history : History} {s : Caller} (h : history.Stored s.mram.storage)
    (event : ByteEvent) : (history.foreign s event).Stored (event.stored s) := by
  intro cell number hOrigin
  cases event with
  | write rgid offset value =>
      simp only [History.foreign, ByteEvent.stored, Function.update_apply] at hOrigin ⊢
      split_ifs at hOrigin ⊢ with hCell
      exact h cell number hOrigin
  | alloc | free | read => exact h cell number hOrigin

/-- Every read whose cell had been stored to by a call obtained what that call wrote. -/
def Obtained (history : History) : Prop :=
  ∀ number data, (some number, data) ∈ history.reads →
    writtenBy history.calls number = some data

theorem Obtained.own {history : History} {s : Caller} (h : history.Obtained)
    (hStored : history.Stored s.mram.storage) {event : ByteEvent}
    (hRead : ∀ rgid offset data, event = .read rgid offset data →
      data = s.mram.storage (ramCell s rgid offset)) : (history.own s event).Obtained := by
  intro number data hMem
  cases event with
  | read rgid offset byte =>
      simp only [History.own] at hMem ⊢
      split_ifs at hMem
      · rcases List.mem_append.mp hMem with hEarlier | hLast
        · exact writtenBy_append (h number data hEarlier) _
        · obtain ⟨hOrigin, rfl⟩ := Prod.mk.inj (List.mem_singleton.mp hLast)
          rw [hRead rgid offset data rfl]
          exact writtenBy_append (hStored _ number hOrigin.symm) _
      · exact writtenBy_append (h number data hMem) _
  | alloc | free | write => exact writtenBy_append (h number data hMem) _

theorem Obtained.foreign {history : History} (h : history.Obtained) (s : Caller)
    (event : ByteEvent) : (history.foreign s event).Obtained := by
  cases event <;> exact h

end History

namespace Tracked

variable {Proc : Type*}

/-- What ties the history to the system: cells hold what it says was stored in
them, and every read so far obtained what the cell it went to held. -/
structure Faithful (s : Tracked Proc) : Prop where
  decodes : ∀ proc, DecodesZero (s.sys.caller proc)
  stored : s.history.Stored s.sys.mram.storage
  obtained : s.history.Obtained

theorem faithful_initial (memramsz memswpsz : Int) :
    (initial memramsz memswpsz : Tracked Proc).Faithful := by
  refine ⟨fun proc pgn hPresent => ?_, fun _ _ h => ?_, fun _ _ h => ?_⟩
  · have hZero :
      ((initial memramsz memswpsz : Tracked Proc).sys.caller proc).mm.pgd pgn = 0#32 := rfl
    rw [hZero, pagingPagePresent_zero] at hPresent
    cases hPresent
  · simp [initial, History.empty] at h
  · simp [initial, History.empty] at h

theorem Faithful.step {self : Proc} [DecidableEq Proc] {s t : Tracked Proc}
    {label : Proc × ByteEvent} (h : s.Faithful) (step : Step self s label t) : t.Faithful := by
  obtain ⟨proc, event⟩ := label
  obtain ⟨u, hStep⟩ := step
  obtain ⟨s', hRun, rfl⟩ := Option.map_eq_some_iff.mp hStep
  obtain ⟨hStorage, hDrained, hDecodes⟩ := ByteEvent.run_cells hRun (h.decodes proc)
  refine ⟨fun other => ?_, ?_, ?_⟩
  · by_cases hOther : other = proc
    · rw [hOther, System.caller_put]
      exact hDecodes
    · intro pgn hPresent
      rw [System.caller_mm, System.put_mm, if_neg hOther] at hPresent ⊢
      exact (h.decodes other pgn hPresent).imp_left hDrained
  · rw [System.put_mram, hStorage]
    split_ifs
    · exact h.stored.own event
    · exact h.stored.foreign event
  · split_ifs
    · apply h.obtained.own h.stored
      rintro rgid offset data rfl
      exact (read_ok (h.decodes proc) (ByteEvent.run_read hRun)).1
    · exact h.obtained.foreign _ event

/-- A read from the cell that the last write of its byte stored in gives that byte. -/
theorem Faithful.readsLastWrite {self : Proc} [DecidableEq Proc] {s t : Tracked Proc}
    {label : Proc × ByteEvent} (h : s.Faithful) (step : Step self s label t)
    (hOwn : ReadsOwnStore self s label) : ReadsLastWrite self s label := by
  obtain ⟨proc, event⟩ := label
  cases event with
  | read rgid offset data =>
      rintro rfl number hLast
      obtain ⟨u, hStep⟩ := step
      obtain ⟨s', hRun, -⟩ := Option.map_eq_some_iff.mp hStep
      rw [(read_ok (h.decodes proc) (ByteEvent.run_read hRun)).1]
      exact h.stored _ number (hOwn rfl number hLast)
  | alloc | free | write => trivial

/-! Whole runs -/

/-- Paged memory behaves as memory in every run in which each read goes to the
cell of RAM that the last write of its byte was the last to store in. -/
theorem readsLastWrite_run {memramsz memswpsz : Int} {labels : List (Unit × ByteEvent)}
    {s : Tracked Unit}
    (run : Runs (Guarded (Step ()) (ReadsOwnStore ())) (initial memramsz memswpsz) labels s) :
    Runs (Guarded (Step ()) (ReadsLastWrite ())) (initial memramsz memswpsz) labels s := by
  refine (run.strengthen Faithful (faithful_initial memramsz memswpsz) ?_).1
  rintro s label t hFaithful ⟨step, hOwn⟩
  exact ⟨⟨step, hFaithful.readsLastWrite step hOwn⟩, hFaithful.step step⟩

/-- A run that meets the condition although it touches two pages. -/
theorem readsLastWrite_run_two_pages : ∃ s, Runs (Guarded (Step ()) (ReadsLastWrite ()))
    (initial 2048 4096)
    [((), .alloc 0 300), ((), .write 0 3 7), ((), .write 0 260 9), ((), .read 0 3 7)] s := by
  let u : Uninit := ⟨2, 0, 0, 0⟩
  have hEval : (exec (fun s label => if ReadsOwnStore () s label then step () u s label else none)
      (initial 2048 4096)
      [((), .alloc 0 300), ((), .write 0 3 7), ((), .write 0 260 9), ((), .read 0 3 7)]).isSome =
        true := by decide +kernel
  obtain ⟨s, hRun⟩ := Option.isSome_iff_exists.mp hEval
  refine ⟨s, readsLastWrite_run (Runs.of_exec hRun fun s label t h => ?_)⟩
  obtain ⟨hOwn, hStep⟩ := Option.ite_none_right_eq_some.mp h
  exact ⟨⟨u, hStep⟩, hOwn⟩

/-- Bytes 0 and 256 of one symbol are on different pages, but a write to the
second is read back from the first. -/
theorem read_returns_other_page : ∃ s t,
    Runs (Step ()) (initial 2048 4096)
      [((), .alloc 0 300), ((), .write 0 0 1), ((), .write 0 256 2)] s ∧
    Step () s ((), .read 0 0 2) t ∧ ¬ ReadsLastWrite () s ((), .read 0 0 2) := by
  let u : Uninit := ⟨2, 0, 0, 0⟩
  have hEval : (exec (step () u) (initial 2048 4096)
      [((), .alloc 0 300), ((), .write 0 0 1), ((), .write 0 256 2)]).any (fun s =>
        (step () u s ((), .read 0 0 2)).isSome && !decide (ReadsLastWrite () s ((), .read 0 0 2))) =
          true := by decide +kernel
  obtain ⟨s, hRun, hLast⟩ := (Option.any_eq_true _ _).mp hEval
  rw [Bool.and_eq_true, Option.isSome_iff_exists, Bool.not_eq_true',
    decide_eq_false_iff_not] at hLast
  obtain ⟨⟨t, hStep⟩, hWrong⟩ := hLast
  exact ⟨s, t, Runs.of_exec hRun fun _ _ _ h => ⟨u, h⟩, ⟨u, hStep⟩, hWrong⟩

/-- Which bytes were read is determined by which calls stored them. -/
private theorem reads_determined {history : History} (h : history.Obtained)
    (hOwn : none ∉ history.reads.map Prod.fst) :
    history.reads.map Prod.snd = (history.reads.map Prod.fst).map fun origin =>
      (origin.bind (writtenBy history.calls)).getD 0 := by
  rw [List.map_map]
  apply List.map_congr_left
  rintro ⟨origin, data⟩ hMem
  cases origin with
  | none => exact absurd (List.mem_map.mpr ⟨_, hMem, rfl⟩) hOwn
  | some number => simp [h number data hMem]

/-- Whatever the others do, a process that makes the same calls reads the same
bytes, if each of its reads goes in both runs to a cell of RAM that the same
call of its own was the last to store in. One of the runs may be its own alone. -/
theorem isolated_run {Proc : Type*} [DecidableEq Proc] {self : Proc} {memramsz memswpsz : Int}
    {labels alone : List (Proc × ByteEvent)} {s t : Tracked Proc}
    (shared : Runs (Step self) (initial memramsz memswpsz) labels s)
    (solo : Runs (Step self) (initial memramsz memswpsz) alone t)
    (hCalls : t.history.calls = s.history.calls)
    (hOrigins : t.history.reads.map Prod.fst = s.history.reads.map Prod.fst)
    (hOwn : none ∉ s.history.reads.map Prod.fst) :
    t.history.reads.map Prod.snd = s.history.reads.map Prod.snd := by
  have hFaithful : ∀ {labels : List (Proc × ByteEvent)} {u : Tracked Proc},
      Runs (Step self) (initial memramsz memswpsz) labels u → u.Faithful := fun run =>
    run.invariant Faithful (faithful_initial memramsz memswpsz) fun _ _ _ h step => h.step step
  rw [reads_determined (hFaithful shared).obtained hOwn,
    reads_determined (hFaithful solo).obtained (by rwa [hOrigins]), hOrigins, hCalls]

/-- Two processes that write at different offsets. -/
theorem isolated_run_two_processes : ∃ s t : Tracked Bool,
    Runs (Step false) (initial 2048 4096) [(false, .alloc 0 10), (true, .alloc 0 10),
      (false, .write 0 3 7), (true, .write 0 4 9), (false, .read 0 3 7)] s ∧
    Runs (Step false) (initial 2048 4096)
      [(false, .alloc 0 10), (false, .write 0 3 7), (false, .read 0 3 7)] t ∧
    t.history.reads.map Prod.snd = s.history.reads.map Prod.snd := by
  let u : Uninit := ⟨2, 0, 0, 0⟩
  have hEval : (exec (step false u) (initial 2048 4096) [(false, .alloc 0 10), (true, .alloc 0 10),
      (false, .write 0 3 7), (true, .write 0 4 9), (false, .read 0 3 7)]).any (fun s =>
        (exec (step false u) (initial 2048 4096)
          [(false, .alloc 0 10), (false, .write 0 3 7), (false, .read 0 3 7)]).any fun t =>
            t.history.calls = s.history.calls ∧
              t.history.reads.map Prod.fst = s.history.reads.map Prod.fst ∧
              none ∉ s.history.reads.map Prod.fst) = true := by decide +kernel
  obtain ⟨s, hShared, hInner⟩ := (Option.any_eq_true _ _).mp hEval
  obtain ⟨t, hSolo, hSame⟩ := (Option.any_eq_true _ _).mp hInner
  obtain ⟨hCalls, hOrigins, hOwn⟩ := of_decide_eq_true hSame
  have hStep : ∀ s label t, step false u s label = some t → Step false s label t :=
    fun _ _ _ h => ⟨u, h⟩
  have shared := Runs.of_exec hShared hStep
  have solo := Runs.of_exec hSolo hStep
  exact ⟨s, t, shared, solo, isolated_run shared solo hCalls hOrigins hOwn⟩

/-- Both processes write at offset 0, and the first reads the byte of the second. -/
theorem read_returns_other_process : ∃ s t : Tracked Bool,
    Runs (Step false) (initial 2048 4096) [(false, .alloc 0 10), (true, .alloc 0 10),
      (false, .write 0 0 1), (true, .write 0 0 2), (false, .read 0 0 2)] s ∧
    Runs (Step false) (initial 2048 4096)
      [(false, .alloc 0 10), (false, .write 0 0 1), (false, .read 0 0 1)] t ∧
    t.history.calls = s.history.calls ∧
    t.history.reads.map Prod.snd ≠ s.history.reads.map Prod.snd := by
  let u : Uninit := ⟨2, 0, 0, 0⟩
  have hEval : (exec (step false u) (initial 2048 4096) [(false, .alloc 0 10), (true, .alloc 0 10),
      (false, .write 0 0 1), (true, .write 0 0 2), (false, .read 0 0 2)]).any (fun s =>
        (exec (step false u) (initial 2048 4096)
          [(false, .alloc 0 10), (false, .write 0 0 1), (false, .read 0 0 1)]).any fun t =>
            t.history.calls = s.history.calls ∧
              t.history.reads.map Prod.snd ≠ s.history.reads.map Prod.snd) = true := by
    decide +kernel
  obtain ⟨s, hShared, hInner⟩ := (Option.any_eq_true _ _).mp hEval
  obtain ⟨t, hSolo, hSame⟩ := (Option.any_eq_true _ _).mp hInner
  obtain ⟨hCalls, hDiffer⟩ := of_decide_eq_true hSame
  exact ⟨s, t, Runs.of_exec hShared fun _ _ _ h => ⟨u, h⟩,
    Runs.of_exec hSolo fun _ _ _ h => ⟨u, h⟩, hCalls, hDiffer⟩

end Tracked

end Btlos
