import Btlos.Library.ScanfFormat
import Btlos.Os.Loader
import Btlos.Os.System
import Mathlib.Data.List.Forall2

/-! `read_config`, and the processes that the loader gets from the files that the
configuration names. -/
namespace Btlos

open Scanf Format

/-- An entry of `ld_processes`. -/
structure LdProcess where
  startTime : Nat
  path : List Char
  prio : Nat

/-- What `read_config` sets. -/
structure ReadConfig where
  timeSlot : Int
  numCpus : Int
  numProcesses : Int
  memramsz : Int
  memswpsz : List Int
  ldProcesses : List LdProcess

/-- The arrays of `ld_processes`, and the local buffer in each round, with what happens to
be in them. -/
structure FreshEntries where
  startTime : Nat → Nat
  proc : Nat → List Char
  prio : Nat → Nat

def pagingMaxMmswp : Nat := 4

/-- `strcat` into an array of this size, up to the end of the string in a buffer. Past the end
of the array the behaviour is undefined. -/
def strcat (size : Nat) (dest buffer : List Char) : Option (List Char) :=
  let src := buffer.takeWhile fun c => c ≠ Char.ofNat 0
  if dest.length + src.length < size then some (dest ++ src) else none

/-- The directory of the process files, `input/proc/`. -/
def procDir : List Char := ['i', 'n', 'p', 'u', 't', '/', 'p', 'r', 'o', 'c', '/']

/-- The first line. -/
def headerFormat : Format (Int × Int × Int × Unit) :=
  conversion signed (blank (conversion signed (blank (conversion signed (blank done)))))

/-- The line of a process. -/
def processFormat : Format (Nat × List Char × Nat × Unit) :=
  conversion unsignedLong (blank (conversion (stringInto 100)
    (blank (conversion unsignedLong (blank done)))))

/-- The sizes of the swap devices. They are 0 before. -/
def readSwaps : Nat → List Char → Outcome (List Char) (List Int)
  | 0, file => .ok [] file
  | rounds + 1, file =>
      (conversion signed done (0, ()) file).bind fun value file =>
        (readSwaps rounds file).bind fun rest file => .ok (value.1 :: rest) file

/-- A round of the loop over the processes. -/
def readProcess (fresh : FreshEntries) (i : Nat) (file : List Char) :
    Outcome (List Char) LdProcess :=
  (processFormat (fresh.startTime i, fresh.proc i, fresh.prio i, ()) file).bind fun line file =>
    match strcat 100 procDir line.2.1 with
    | none => .undefined
    | some path => .ok ⟨line.1, path, line.2.2.1⟩ file

/-- The last rounds of it, from `i` on. -/
def readProcesses (fresh : FreshEntries) : Nat → Nat → List Char →
    Outcome (List Char) (List LdProcess)
  | 0, _, file => .ok [] file
  | rounds + 1, i, file =>
      (readProcess fresh i file).bind fun process file =>
        (readProcesses fresh rounds (i + 1) file).bind fun rest file => .ok (process :: rest) file

/-- `read_config` for the content of the file, or for no file. It fails where the program
calls `exit`. -/
def readConfig (fresh : FreshEntries) (file : Option (List Char)) :
    Outcome (List Char) ReadConfig :=
  match file with
  | none => .fail []
  | some content =>
      (headerFormat (0, 0, 0, ()) content).bind fun header file =>
        (conversion signed (blank done) (0, ()) file).bind fun ram file =>
          (readSwaps pagingMaxMmswp file).bind fun swaps file =>
            (readProcesses fresh header.2.2.1.toNat 0 (skipSpace file)).bind fun processes file =>
              .ok
                { timeSlot := header.1, numCpus := header.2.1, numProcesses := header.2.2.1,
                  memramsz := ram.1, memswpsz := swaps, ldProcesses := processes } file

/-- The configuration that the loader and the CPUs run with. A process is loaded from its
file, with the PCBs in this memory, and its priority is stored into the 32 bits of `prio`. -/
def ReadConfig.config (s : ReadConfig) (fresh : ProcId → FreshPcb)
    (files : List Char → Option (List Char)) : Config where
  numProcesses := s.numProcesses.toNat
  program i := (s.ldProcesses[i]?).bind fun entry =>
    (load (fresh i) (1 + i) (files entry.path)).ok?.map fun result => result.1.text
  prio i := (s.ldProcesses[i]?).elim 0 fun entry => entry.prio % 4294967296
  timeSlot := s.timeSlot

/-! What the file describes -/

structure ProcessLine where
  startTime : Nat
  proc : List Char
  prio : Nat
  noNul : Char.ofNat 0 ∉ proc

structure ConfigFile where
  timeSlot : Int
  numCpus : Int
  memramsz : Int
  memswpsz : List Int
  processes : List ProcessLine
  length_memswpsz : memswpsz.length = pagingMaxMmswp

/-- The numbers before the sizes of the swap devices. -/
def ConfigFile.header (cfg : ConfigFile) : List Int :=
  [cfg.timeSlot, cfg.numCpus, cfg.processes.length, cfg.memramsz]

/-- The word is a numeral for `%d`, with nothing after it. -/
def Signed (word : List Char) (value : Int) : Prop := signed word = .ok value []

/-- These words are the line. -/
def ProcessLine.Written (words : List (List Char)) (process : ProcessLine) : Prop :=
  ∃ start prio, words = [start, process.proc, prio] ∧
    unsignedLong start = .ok process.startTime [] ∧ unsignedLong prio = .ok process.prio []

/-- The words of the file are the configuration, whatever stands between them. -/
def InConfigFormat (content : List Char) (cfg : ConfigFile) : Prop :=
  ∃ header swaps lines rest, tokens content = header ++ (swaps ++ (lines.flatten ++ rest)) ∧
    List.Forall₂ Signed header cfg.header ∧ List.Forall₂ Signed swaps cfg.memswpsz ∧
    List.Forall₂ ProcessLine.Written lines cfg.processes

/-- The path of every process file fits into the array for it. -/
def ConfigFile.Fits (cfg : ConfigFile) : Prop :=
  ∀ process ∈ cfg.processes, process.proc.length ≤ 88

/-- Every priority fits into the PCB. -/
def ConfigFile.StoresPrios (cfg : ConfigFile) : Prop :=
  ∀ process ∈ cfg.processes, process.prio < 4294967296

def ProcessLine.read (process : ProcessLine) : LdProcess :=
  ⟨process.startTime, procDir ++ process.proc, process.prio⟩

def ConfigFile.read (cfg : ConfigFile) : ReadConfig where
  timeSlot := cfg.timeSlot
  numCpus := cfg.numCpus
  numProcesses := cfg.processes.length
  memramsz := cfg.memramsz
  memswpsz := cfg.memswpsz
  ldProcesses := cfg.processes.map ProcessLine.read

def ProcessLine.words (process : ProcessLine) : List (List Char) :=
  [decimal process.startTime, process.proc, decimal process.prio]

/-- A file for the configuration: the lines that `read_config` says it reads. -/
def ConfigFile.printed (cfg : ConfigFile) : List Char :=
  line (([cfg.timeSlot, cfg.numCpus, cfg.processes.length] : List Int).map decimalInt) ++
    (line ((cfg.memramsz :: cfg.memswpsz).map decimalInt) ++
      cfg.processes.flatMap fun process => line process.words)

/-- The configuration can be printed with numbers that C reads. -/
structure ConfigFile.Printable (cfg : ConfigFile) : Prop where
  header : ∀ value ∈ cfg.header, -2147483648 ≤ value ∧ value < 2147483648
  swaps : ∀ value ∈ cfg.memswpsz, -2147483648 ≤ value ∧ value < 2147483648
  startTime : ∀ process ∈ cfg.processes, process.startTime < 18446744073709551616
  prio : ∀ process ∈ cfg.processes, process.prio < 18446744073709551616
  proc : ∀ process ∈ cfg.processes, IsWord process.proc

/-- The system that the loader sets up has the processes of the file, with their priorities
and these programs. -/
structure ReadConfig.Describes (s : ReadConfig) (fresh : ProcId → FreshPcb)
    (files : List Char → Option (List Char)) (cfg : ConfigFile)
    (program : List Char → List Instruction) : Prop where
  numProcesses : (s.config fresh files).numProcesses = cfg.processes.length
  prio : ∀ i process, cfg.processes[i]? = some process →
    (s.config fresh files).prio i = process.prio
  program : ∀ i process, cfg.processes[i]? = some process →
    ((s.config fresh files).program i).map (List.map Inst.instruction) = some (program process.proc)

section Words

variable {content file : List Char} {words rest : List (List Char)} {fresh : FreshEntries}
  {cfg : ConfigFile} {process : ProcessLine} {processes : List ProcessLine} {values : List Int}

theorem strcat_procDir (process : ProcessLine) :
    strcat 100 procDir process.proc =
      if process.proc.length ≤ 88 then some (procDir ++ process.proc) else none := by
  have hAll : process.proc.takeWhile (fun c => c ≠ Char.ofNat 0) = process.proc := by
    apply List.takeWhile_eq_self_iff.mpr
    intro c hMem
    rw [decide_eq_true_eq]
    rintro rfl
    exact process.noNul hMem
  have hDir : procDir.length = 11 := rfl
  simp only [strcat, hAll, hDir]
  split_ifs <;> first | rfl | omega

private theorem converts_signed {word : List Char} {value : Int} (h : Signed word value) :
    Converts signed word value :=
  converts_numeral h

private theorem converts_unsignedLong {word : List Char} {value : Nat}
    (h : unsignedLong word = .ok value []) : Converts unsignedLong word value :=
  converts_numeral h

theorem headerFormat_fills {first second third : List Char} {timeSlot numCpus numProcesses : Int}
    (hFirst : Signed first timeSlot) (hSecond : Signed second numCpus)
    (hThird : Signed third numProcesses) :
    headerFormat.Fills [first, second, third] (timeSlot, numCpus, numProcesses, ()) :=
  ((fills_done.blank.conversion (converts_signed hThird)).blank.conversion
    (converts_signed hSecond)).blank.conversion (converts_signed hFirst)

theorem processFormat_fills {start prio : List Char}
    (hStart : unsignedLong start = .ok process.startTime [])
    (hPrio : unsignedLong prio = .ok process.prio []) (hShort : process.proc.length < 100) :
    processFormat.Fills [start, process.proc, prio]
      (process.startTime, process.proc, process.prio, ()) :=
  ((fills_done.blank.conversion (converts_unsignedLong hPrio)).blank.conversion
    (converts_stringInto hShort)).blank.conversion (converts_unsignedLong hStart)

theorem readSwaps_written (h : List.Forall₂ Signed words values)
    (hTokens : tokens file = words ++ rest) :
    ∃ after, readSwaps values.length file = .ok values after ∧ tokens after = rest := by
  induction h generalizing file with
  | nil => exact ⟨file, rfl, hTokens⟩
  | @cons word value words values hWord _ ih =>
      obtain ⟨middle, hCall, hMiddle⟩ :=
        (fills_done.conversion (converts_signed hWord)) (0, ()) file (words ++ rest) hTokens
      obtain ⟨after, hRest, hAfter⟩ := ih hMiddle
      refine ⟨after, ?_, hAfter⟩
      rw [List.length_cons, readSwaps, hCall, Outcome.bind_ok, hRest, Outcome.bind_ok]

/-- A round of the loop, for a path that fits. -/
theorem readProcess_fits (h : process.Written words) (hFits : process.proc.length ≤ 88)
    (hTokens : tokens file = words ++ rest) (fresh : FreshEntries) (i : Nat) :
    ∃ after, readProcess fresh i file = .ok process.read after ∧ tokens after = rest := by
  obtain ⟨start, prio, rfl, hStart, hPrio⟩ := h
  have hShort : process.proc.length < 100 := by omega
  obtain ⟨after, hCall, hAfter⟩ := processFormat_fills hStart hPrio hShort _ file rest hTokens
  refine ⟨after, ?_, hAfter⟩
  rw [readProcess, hCall, Outcome.bind_ok]
  simp only [strcat_procDir, if_pos hFits]
  rfl

/-- And for one that does not: it overflows the array for the path, if not the buffer. -/
theorem readProcess_overflow (h : process.Written words) (hLong : ¬ process.proc.length ≤ 88)
    (hTokens : tokens file = words ++ rest) (fresh : FreshEntries) (i : Nat) :
    readProcess fresh i file = .undefined := by
  obtain ⟨start, prio, rfl, hStart, hPrio⟩ := h
  by_cases hShort : process.proc.length < 100
  · obtain ⟨after, hCall, -⟩ := processFormat_fills hStart hPrio hShort _ file rest hTokens
    rw [readProcess, hCall, Outcome.bind_ok]
    simp only [strcat_procDir, if_neg hLong]
  · obtain ⟨middle, hMiddle, hCall⟩ := conversion_converts (converts_unsignedLong hStart)
      (fresh.startTime i, fresh.proc i, fresh.prio i, ()) hTokens
    rw [← tokens_skipSpace] at hMiddle
    rw [readProcess, processFormat, hCall, blank,
      conversion_undefined (stringInto_overlong hMiddle hShort)]
    rfl

theorem readProcesses_fits {lines : List (List (List Char))}
    (h : List.Forall₂ ProcessLine.Written lines processes)
    (hFits : ∀ process ∈ processes, process.proc.length ≤ 88)
    (hTokens : tokens file = lines.flatten ++ rest) (fresh : FreshEntries) (i : Nat) :
    ∃ after, readProcesses fresh processes.length i file =
      .ok (processes.map ProcessLine.read) after := by
  induction h generalizing file i with
  | nil => exact ⟨file, rfl⟩
  | @cons words process lines processes hWords _ ih =>
      obtain ⟨hFirst, hOthers⟩ := List.forall_mem_cons.mp hFits
      rw [List.flatten_cons, List.append_assoc] at hTokens
      obtain ⟨middle, hCall, hMiddle⟩ := readProcess_fits hWords hFirst hTokens fresh i
      obtain ⟨after, hRest⟩ := ih hOthers hMiddle (i + 1)
      refine ⟨after, ?_⟩
      rw [List.length_cons, readProcesses, hCall, Outcome.bind_ok, hRest, Outcome.bind_ok]
      rfl

theorem readProcesses_overflow {lines : List (List (List Char))}
    (h : List.Forall₂ ProcessLine.Written lines processes)
    (hLong : ¬ ∀ process ∈ processes, process.proc.length ≤ 88)
    (hTokens : tokens file = lines.flatten ++ rest) (fresh : FreshEntries) (i : Nat) :
    readProcesses fresh processes.length i file = .undefined := by
  induction h generalizing file i with
  | nil => exact absurd (fun _ hMem => absurd hMem List.not_mem_nil) hLong
  | @cons words process lines processes hWords _ ih =>
      rw [List.flatten_cons, List.append_assoc] at hTokens
      rw [List.length_cons, readProcesses]
      by_cases hFirst : process.proc.length ≤ 88
      · obtain ⟨middle, hCall, hMiddle⟩ := readProcess_fits hWords hFirst hTokens fresh i
        have hOthers : ¬ ∀ process ∈ processes, process.proc.length ≤ 88 :=
          fun hOthers => hLong (List.forall_mem_cons.mpr ⟨hFirst, hOthers⟩)
        rw [hCall, Outcome.bind_ok, ih hOthers hMiddle (i + 1), Outcome.bind_undefined]
      · rw [readProcess_overflow hWords hFirst hTokens fresh i, Outcome.bind_undefined]

/-- What `read_config` does with a file in the format. -/
theorem readConfig_inFormat (h : InConfigFormat content cfg) (fresh : FreshEntries) :
    (cfg.Fits → ∃ rest, readConfig fresh (some content) = .ok cfg.read rest) ∧
      (¬ cfg.Fits → readConfig fresh (some content) = .undefined) := by
  obtain ⟨header, swaps, lines, rest, hTokens, hHeader, hSwaps, hLines⟩ := h
  obtain _ | ⟨hFirst, _ | ⟨hSecond, _ | ⟨hThird, _ | ⟨hFourth, _ | _⟩⟩⟩⟩ := hHeader
  obtain ⟨start, hCall, hStart⟩ :=
    headerFormat_fills hFirst hSecond hThird (0, 0, 0, ()) content _ hTokens
  obtain ⟨ram, hRam, hAfterRam⟩ :=
    (fills_done.blank.conversion (converts_signed hFourth)) (0, ()) start _ hStart
  obtain ⟨after, hRead, hAfter⟩ := readSwaps_written hSwaps hAfterRam
  rw [cfg.length_memswpsz] at hRead
  rw [← tokens_skipSpace] at hAfter
  constructor
  · intro hFits
    obtain ⟨finish, hProcesses⟩ := readProcesses_fits hLines hFits hAfter fresh 0
    refine ⟨finish, ?_⟩
    simp only [readConfig, hCall, hRam, hRead, Outcome.bind_ok, Int.toNat_natCast, hProcesses]
    rfl
  · intro hLong
    simp only [readConfig, hCall, hRam, hRead, Outcome.bind_ok, Int.toNat_natCast,
      readProcesses_overflow hLines hLong hAfter fresh 0, Outcome.bind_undefined]

/-- The processes of the system are those of the file, exactly if it has no priority that the
PCB cannot hold. -/
theorem read_describes {files : List Char → Option (List Char)}
    {program : List Char → List Instruction}
    (hFiles : ∀ process ∈ cfg.processes, ∃ content priority,
      files (procDir ++ process.proc) = some content ∧
        InFormat content priority (program process.proc)) (fresh : ProcId → FreshPcb) :
    cfg.read.Describes fresh files cfg program ↔ cfg.StoresPrios := by
  have hEntry : ∀ (i : ProcId) (process : ProcessLine), cfg.processes[i]? = some process →
      cfg.read.ldProcesses[i]? = some process.read := by
    intro i process hProcess
    rw [ConfigFile.read, List.getElem?_map, hProcess]
    rfl
  have hPrio : ∀ (i : ProcId) (process : ProcessLine), cfg.processes[i]? = some process →
      (cfg.read.config fresh files).prio i = process.prio % 4294967296 := by
    intro i process hProcess
    simp only [ReadConfig.config, hEntry i process hProcess, Option.elim_some, ProcessLine.read]
  constructor
  · intro h process hMem
    obtain ⟨i, hProcess⟩ := List.mem_iff_getElem?.mp hMem
    have hSame : process.prio % 4294967296 = process.prio :=
      (hPrio i process hProcess).symm.trans (h.prio i process hProcess)
    omega
  · intro hStores
    refine ⟨rfl, fun i process hProcess => ?_, fun i process hProcess => ?_⟩
    · rw [hPrio i process hProcess]
      exact Nat.mod_eq_of_lt (hStores process (List.mem_of_getElem? hProcess))
    · obtain ⟨content, priority, hFile, hFormat⟩ :=
        hFiles process (List.mem_of_getElem? hProcess)
      obtain ⟨proc, finish, hLoad, -, -, hText⟩ := load_inFormat hFormat (fresh i) (1 + i)
      simp only [ReadConfig.config, hEntry i process hProcess, Option.bind_some,
        ProcessLine.read, hFile, hLoad, Outcome.ok?, Option.map_some, hText]

/-- A file in the format is read as the configuration that it describes exactly if every path
fits, and otherwise `read_config` writes past the end of an array. The system that the loader
sets up from it is the one described exactly if no priority is cut. -/
theorem config_iff {files : List Char → Option (List Char)}
    {program : List Char → List Instruction} (hConfig : InConfigFormat content cfg)
    (hFiles : ∀ process ∈ cfg.processes, ∃ content priority,
      files (procDir ++ process.proc) = some content ∧
        InFormat content priority (program process.proc))
    (fresh : FreshEntries) (pcbs : ProcId → FreshPcb) :
    ((∃ rest, readConfig fresh (some content) = .ok cfg.read rest) ↔ cfg.Fits) ∧
      (readConfig fresh (some content) = .undefined ↔ ¬ cfg.Fits) ∧
      (cfg.read.Describes pcbs files cfg program ↔ cfg.StoresPrios) := by
  obtain ⟨hFits, hLong⟩ := readConfig_inFormat hConfig fresh
  refine ⟨⟨?_, hFits⟩, ⟨?_, hLong⟩, read_describes hFiles pcbs⟩
  · rintro ⟨rest, hRead⟩
    by_contra hNot
    rw [hLong hNot] at hRead
    cases hRead
  · intro hUndefined h
    obtain ⟨rest, hRead⟩ := hFits h
    rw [hRead] at hUndefined
    cases hUndefined

end Words

section Printed

variable {cfg : ConfigFile}

private theorem tokens_lines_processes {processes : List ProcessLine}
    (h : ∀ process ∈ processes, IsWord process.proc) :
    tokens (processes.flatMap fun process => line process.words) =
      (processes.map ProcessLine.words).flatten := by
  induction processes with
  | nil => exact tokens_nil
  | cons process processes ih =>
      obtain ⟨hFirst, hOthers⟩ := List.forall_mem_cons.mp h
      have hWords : ∀ word ∈ process.words, IsWord word := by
        simp [ProcessLine.words, hFirst, isWord_decimal]
      rw [List.flatMap_cons, tokens_line hWords, ih hOthers]
      rfl

private theorem signed_printed {values : List Int}
    (h : ∀ value ∈ values, -2147483648 ≤ value ∧ value < 2147483648) :
    List.Forall₂ Signed (values.map decimalInt) values := by
  rw [List.forall₂_map_left_iff, List.forall₂_same]
  intro value hMem
  exact signed_decimalInt (h value hMem).1 (h value hMem).2

private theorem isWord_numbers (values : List Int) :
    ∀ word ∈ values.map decimalInt, IsWord word := by
  intro word hMem
  obtain ⟨value, -, rfl⟩ := List.mem_map.mp hMem
  exact isWord_decimalInt value

theorem printedConfig_inFormat (h : cfg.Printable) : InConfigFormat cfg.printed cfg := by
  refine ⟨cfg.header.map decimalInt, cfg.memswpsz.map decimalInt,
    cfg.processes.map ProcessLine.words, [], ?_, signed_printed h.header, signed_printed h.swaps,
    ?_⟩
  · rw [ConfigFile.printed, tokens_line (isWord_numbers _), tokens_line (isWord_numbers _),
      tokens_lines_processes h.proc, List.append_nil]
    rfl
  · rw [List.forall₂_map_left_iff, List.forall₂_same]
    intro process hMem
    exact ⟨_, _, rfl, unsignedLong_decimal (h.startTime process hMem),
      unsignedLong_decimal (h.prio process hMem)⟩

/-- One process, `p0`. -/
def p0Config : ConfigFile where
  timeSlot := 4
  numCpus := 2
  memramsz := 1048576
  memswpsz := [16777216, 0, 0, 0]
  processes := [⟨0, ['p', '0'], 15, by decide⟩]
  length_memswpsz := rfl

/-- Its file has one instruction, `calc`. -/
theorem config_iff_p0 :
    (∃ rest, readConfig ⟨fun _ => 0, fun _ => [], fun _ => 0⟩ (some p0Config.printed) =
        .ok p0Config.read rest) ∧
      p0Config.read.Describes (fun _ => zeroed) (fun _ => some (printed 1 [⟨.calc, [], rfl⟩]))
        p0Config (fun _ => [⟨.calc, [], rfl⟩]) := by
  have hWord : IsWord ['p', '0'] := ⟨by simp, by simp [isspace]⟩
  have hPrintable : p0Config.Printable := by
    constructor <;> simp [p0Config, ConfigFile.header, hWord]
  have hProgram : Printable 1 [⟨.calc, [], rfl⟩] := ⟨by decide, by decide, by simp⟩
  have hFits : p0Config.Fits := by
    simp [ConfigFile.Fits, p0Config]
  have hStores : p0Config.StoresPrios := by
    simp [ConfigFile.StoresPrios, p0Config]
  let files : List Char → Option (List Char) := fun _ => some (printed 1 [⟨.calc, [], rfl⟩])
  let program : List Char → List Instruction := fun _ => [⟨.calc, [], rfl⟩]
  have hFiles : ∀ process ∈ p0Config.processes, ∃ content priority,
      files (procDir ++ process.proc) = some content ∧
        InFormat content priority (program process.proc) :=
    fun _ _ => ⟨_, 1, rfl, printed_inFormat hProgram⟩
  obtain ⟨hRead, -, hDescribes⟩ := config_iff (printedConfig_inFormat hPrintable) hFiles
    ⟨fun _ => 0, fun _ => [], fun _ => 0⟩ fun _ => zeroed
  exact ⟨hRead.mpr hFits, hDescribes.mpr hStores⟩

end Printed

end Btlos
