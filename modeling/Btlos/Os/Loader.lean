import Btlos.Library.Scanf
import Btlos.Os.Cpu
import Mathlib.Data.List.Forall2

/-! `load`, which reads a process from a file: what it does with every content of the
file, and which contents describe a process. -/
namespace Btlos

open Scanf

def optCalc : List Char := ['c', 'a', 'l', 'c']

def optAlloc : List Char := ['a', 'l', 'l', 'o', 'c']

def optFree : List Char := ['f', 'r', 'e', 'e']

def optRead : List Char := ['r', 'e', 'a', 'd']

def optWrite : List Char := ['w', 'r', 'i', 't', 'e']

/-- `get_opcode`, for a buffer. It calls `exit` where there is no result. -/
def getOpcode (buffer : List Char) : Option InsOpcode :=
  let opt := buffer.takeWhile fun c => c ≠ Char.ofNat 0
  if opt = optCalc then some .calc
  else if opt = optAlloc then some .alloc
  else if opt = optFree then some .free
  else if opt = optRead then some .read
  else if opt = optWrite then some .write
  else none

/-- The format string for the operands. -/
def operandFormat : InsOpcode → List Directive
  | .calc => []
  | .alloc => [.unsigned, .space, .unsigned, .space]
  | .free => [.unsigned, .space]
  | .read => [.unsigned, .space, .unsigned, .space, .unsigned, .space]
  | .write => [.unsigned, .space, .unsigned, .space, .unsigned, .space]

def arity (opcode : InsOpcode) : Nat := (operandFormat opcode).count .unsigned

/-- The operand fields that the format string is for. -/
def Inst.args (inst : Inst) : List Nat := [inst.arg0, inst.arg1, inst.arg2].take (arity inst.opcode)

def Inst.setArgs (inst : Inst) (values : List Nat) : Inst where
  opcode := inst.opcode
  arg0 := values.getD 0 inst.arg0
  arg1 := values.getD 1 inst.arg1
  arg2 := values.getD 2 inst.arg2

/-- The memory that `load` gets, with what happens to be in it: the PCB, the size field of the
code segment, its text, and the local buffer. -/
structure FreshPcb where
  priority : Nat
  prio : Nat
  size : Nat
  text : Nat → Inst
  opcode : List Char

/-- What is left of the file, and the buffer for the opcode. -/
structure Reading where
  file : List Char
  opcode : List Char

/-- The `%s` into the buffer of ten bytes. At the end of the file the buffer keeps what is
in it. -/
def scanOpcode (s : Reading) : Outcome Reading Unit :=
  match string s.file with
  | none => .ok () { s with file := [] }
  | some (word, file) => if word.length < 10 then .ok () ⟨file, word⟩ else .undefined

def readOperands (inst : Inst) (file : List Char) : Outcome (List Char) Inst :=
  (fscanf (operandFormat inst.opcode) inst.args file).bind fun values file =>
    .ok (inst.setArgs values) file

/-- From `get_opcode` to the end of the `switch`. It fails where the program calls `exit`. -/
def fillInst (inst : Inst) (s : Reading) : Outcome Reading Inst :=
  match getOpcode s.opcode with
  | none => .fail s
  | some opcode =>
      (readOperands { inst with opcode := opcode } s.file).lift fun file => { s with file := file }

/-- One round of the loop. -/
def readInst (inst : Inst) (s : Reading) : Outcome Reading Inst :=
  (scanOpcode s).bind fun _ s => fillInst inst s

/-- The last rounds of the loop, from `i` on. -/
def readText (text : Nat → Inst) : Nat → Nat → Reading → Outcome Reading (List Inst)
  | 0, _, s => .ok [] s
  | rounds + 1, i, s =>
      (readInst (text i) s).bind fun inst s =>
        (readText text rounds (i + 1) s).bind fun rest s => .ok (inst :: rest) s

/-- A PCB with the fields that the loader sets. -/
structure LoadedProc extends Pcb where
  pid : BitVec 32
  priority : Nat
  bp : Nat

/-- `load` for the content of the file, or for no file, in the state of `avail_pid`. It fails
where the program calls `exit`. -/
def load (fresh : FreshPcb) (availPid : BitVec 32) (file : Option (List Char)) :
    Outcome (BitVec 32) LoadedProc :=
  match file with
  | none => .fail (availPid + 1)
  | some content =>
      let header := (fscanf [.unsigned, .space, .unsigned]
        [fresh.priority, fresh.size] content).lift
        fun file => { file := file, opcode := fresh.opcode }
      let proc := header.bind fun header s =>
        (readText fresh.text (header.getD 1 fresh.size) 0 s).bind fun text (s : Reading) =>
          .ok { text := text, pc := 0, prio := fresh.prio, pid := availPid,
                priority := header.getD 0 fresh.priority, bp := 1024 } s
      proc.lift fun _ => availPid + 1

/-! What the format is -/

/-- An instruction with the operands that belong to it. -/
structure Instruction where
  opcode : InsOpcode
  operands : List Nat
  length_operands : operands.length = arity opcode
deriving DecidableEq

def opcodeName : InsOpcode → List Char
  | .calc => optCalc
  | .alloc => optAlloc
  | .free => optFree
  | .read => optRead
  | .write => optWrite

/-- These words are the instruction. -/
def Written (instr : Instruction) (words : List (List Char)) : Prop :=
  ∃ operands, words = opcodeName instr.opcode :: operands ∧
    List.Forall₂ Denotes operands instr.operands

/-- The file begins with the priority, the number of instructions, and the instructions. -/
def InFormat (content : List Char) (priority : Nat) (program : List Instruction) : Prop :=
  ∃ first second words rest, tokens content = first :: second :: (words.flatten ++ rest) ∧
    Denotes first priority ∧ Denotes second program.length ∧ List.Forall₂ Written program words

def Instruction.words (instr : Instruction) : List (List Char) :=
  opcodeName instr.opcode :: instr.operands.map decimal

/-- A file for the process, with an instruction on each line. -/
def printed (priority : Nat) (program : List Instruction) : List Char :=
  line [decimal priority, decimal program.length] ++ program.flatMap fun instr => line instr.words

/-- The process can be printed with numbers below `2 ^ 32`. -/
structure Printable (priority : Nat) (program : List Instruction) : Prop where
  priority_lt : priority < 4294967296
  length_lt : program.length < 4294967296
  operands_lt : ∀ instr ∈ program, ∀ value ∈ instr.operands, value < 4294967296

@[simp] theorem length_args (inst : Inst) : inst.args.length = arity inst.opcode := by
  cases inst with
  | mk opcode arg0 arg1 arg2 => cases opcode <;> rfl

/-- The instruction that the text of a process has here. -/
def Inst.instruction (inst : Inst) : Instruction := ⟨inst.opcode, inst.args, length_args inst⟩

/-- `load` returns the process with this priority and program. -/
def Loads (fresh : FreshPcb) (availPid : BitVec 32) (content : List Char) (priority : Nat)
    (program : List Instruction) : Prop :=
  ∃ proc finish, load fresh availPid (some content) = .ok proc finish ∧
    proc.priority = priority ∧ proc.pc = 0 ∧ proc.text.map Inst.instruction = program

/-- `load` accepts the file exactly if it is in the format. -/
structure AcceptsFormat (fresh : FreshPcb) (availPid : BitVec 32) (content : List Char) : Prop where
  accepts : ∀ priority program, InFormat content priority program →
    Loads fresh availPid content priority program
  rejects : (¬ ∃ priority program, InFormat content priority program) →
    ∃ finish, load fresh availPid (some content) = .fail finish
  roundTrip : ∀ priority program, Printable priority program → content = printed priority program →
    Loads fresh availPid content priority program

/-! Where a program that is not in the format ends in `exit` -/

/-- Among the words at which these rounds read an opcode, one is unknown, and the earlier ones
fit into the buffer. -/
def MeetsUnknown : Nat → List (List Char) → Prop
  | 0, _ => False
  | _ + 1, [] => False
  | rounds + 1, word :: words => word.length < 10 ∧
      match getOpcode word with
      | none => True
      | some opcode => ∃ rest ∈ skipNumbers (arity opcode) words, MeetsUnknown rounds rest

/-- The rounds stop at an unknown word, or they begin at the end of the file and with an unknown
word in the buffer. -/
def RoundsStop (rounds : Nat) (words : List (List Char)) (opcode : List Char) : Prop :=
  MeetsUnknown rounds words ∨ words = [] ∧ 0 < rounds ∧ getOpcode opcode = none

/-- The same for the whole file. -/
def StopsAtUnknown (fresh : FreshPcb) (content : List Char) : Prop :=
  ∃ header rest, numbers [fresh.priority, fresh.size] (tokens content) = .ok header rest ∧
    RoundsStop (header.getD 1 fresh.size) rest fresh.opcode

/-! One round -/

variable {inst : Inst} {s : Reading} {opcode : InsOpcode} {word : List Char}
  {rest : List (List Char)}

theorem getOpcode_opcodeName (opcode : InsOpcode) :
    getOpcode (opcodeName opcode) = some opcode := by
  cases opcode <;> decide

theorem length_opcodeName (opcode : InsOpcode) : (opcodeName opcode).length < 10 := by
  cases opcode <;> decide

theorem isWord_opcodeName (opcode : InsOpcode) : IsWord (opcodeName opcode) := by
  have hNoSpace : (opcodeName opcode).all (fun c => !isspace c) = true := by
    cases opcode <;> decide
  constructor
  · cases opcode <;> exact List.cons_ne_nil _ _
  · intro c hMem
    simpa using List.all_eq_true.mp hNoSpace c hMem

theorem args_setArgs {values : List Nat} (h : values.length = arity inst.opcode) :
    (inst.setArgs values).args = values := by
  cases inst with
  | mk opcode arg0 arg1 arg2 =>
      have hArity : arity opcode ≤ 3 := by
        cases opcode <;> decide
      simp only [Inst.args, Inst.setArgs, ← h]
      rcases values with _ | ⟨a, _ | ⟨b, _ | ⟨c, _ | ⟨d, values⟩⟩⟩⟩
      · rfl
      · rfl
      · rfl
      · rfl
      · simp only [List.length_cons] at h
        omega

/-- The operands are numbers from the next words of the file. -/
theorem readOperands_tokens (inst : Inst) (file : List Char) :
    (readOperands inst file).lift tokens =
      (numbers inst.args (tokens file)).bind fun values words =>
        .ok (inst.setArgs values) words := by
  rw [readOperands, ← fscanf_tokens (operandFormat inst.opcode) _ _ (length_args inst).symm]
  cases fscanf (operandFormat inst.opcode) inst.args file <;> rfl

theorem readInst_nil (h : tokens s.file = []) (inst : Inst) :
    readInst inst s = fillInst inst { s with file := [] } := by
  rw [readInst, scanOpcode, string_nil h]
  rfl

theorem readInst_overlong (h : tokens s.file = word :: rest) (hLong : ¬ word.length < 10)
    (inst : Inst) : readInst inst s = .undefined := by
  obtain ⟨file, hString, -⟩ := string_cons h
  rw [readInst, scanOpcode, hString]
  simp only [if_neg hLong, Outcome.bind_undefined]

theorem readInst_word (h : tokens s.file = word :: rest) (hShort : word.length < 10) (inst : Inst) :
    ∃ file, tokens file = rest ∧ readInst inst s = fillInst inst ⟨file, word⟩ := by
  obtain ⟨file, hString, hRest⟩ := string_cons h
  refine ⟨file, hRest, ?_⟩
  rw [readInst, scanOpcode, hString]
  simp only [if_pos hShort, Outcome.bind_ok]

/-! All rounds -/

private theorem readOperands_rest (inst : Inst) (file : List Char) :
    (readOperands inst file).state?.map tokens = skipNumbers (arity inst.opcode) (tokens file) := by
  rw [← Outcome.state?_lift, readOperands_tokens, Outcome.state?_bind_ok, state?_numbers,
    length_args]

private theorem readOperands_neverFails (inst : Inst) (file : List Char) :
    (readOperands inst file).NeverFails := by
  intro finish hFail
  have hCall := readOperands_tokens inst file
  rw [hFail, Outcome.lift_fail] at hCall
  refine (numbers_neverFails inst.args (tokens file)).bind ?_ _ hCall.symm
  intro values words
  simp [Outcome.NeverFails]

/-- A round with a known opcode ends without `exit`, and the next ones go on after its operands. -/
private theorem fillInst_fails {next : Inst → Reading → Outcome Reading (List Inst)}
    {stops : List (List Char) → Prop} {buffer : List Char}
    (hOpcode : getOpcode buffer = some opcode)
    (hNext : ∀ inst file, (∃ finish, next inst ⟨file, buffer⟩ = .fail finish) ↔ stops (tokens file))
    (inst : Inst) (file : List Char) :
    (∃ finish, (fillInst inst ⟨file, buffer⟩).bind next = .fail finish) ↔
      ∃ words ∈ skipNumbers (arity opcode) (tokens file), stops words := by
  have hRest := readOperands_rest { inst with opcode := opcode } file
  rw [fillInst, hOpcode]
  cases hCall : readOperands { inst with opcode := opcode } file with
  | undefined =>
      rw [hCall, Outcome.state?_undefined] at hRest
      simp [← hRest, hCall]
  | fail rest => exact absurd hCall (readOperands_neverFails _ _ rest)
  | ok value rest =>
      rw [hCall, Outcome.state?_ok] at hRest
      simp [← hRest, hCall, hNext]

private theorem not_meetsUnknown_nil (rounds : Nat) : ¬ MeetsUnknown rounds [] := by
  cases rounds <;> exact id

/-- After a known opcode the buffer does not count. -/
private theorem roundsStop_known {rounds : Nat} {words : List (List Char)} {buffer : List Char}
    (h : getOpcode buffer = some opcode) :
    RoundsStop rounds words buffer ↔ MeetsUnknown rounds words := by
  simp [RoundsStop, h]

/-- The loop ends in `exit` where its rounds meet an unknown word. The induction is on the rounds
that are left: a round that ends without `exit` leaves a known opcode in the buffer. -/
theorem readText_fails (text : Nat → Inst) (rounds i : Nat) (s : Reading) :
    (∃ finish, readText text rounds i s = .fail finish) ↔
      RoundsStop rounds (tokens s.file) s.opcode := by
  induction rounds generalizing i s with
  | zero => simp [readText, RoundsStop, MeetsUnknown]
  | succ rounds ih =>
      have hNext : ∀ {buffer : List Char} {opcode : InsOpcode} (_ : getOpcode buffer = some opcode)
          (inst : Inst) (file : List Char),
          (∃ finish, ((readText text rounds (i + 1) ⟨file, buffer⟩).bind fun rest s =>
            .ok (inst :: rest) s) = .fail finish) ↔ MeetsUnknown rounds (tokens file) := by
        intro buffer opcode hOpcode inst file
        rw [← roundsStop_known hOpcode, ← ih (i + 1) ⟨file, buffer⟩]
        cases readText text rounds (i + 1) ⟨file, buffer⟩ <;> simp
      rw [readText]
      cases hTokens : tokens s.file with
      | nil =>
          rw [readInst_nil hTokens]
          cases hOpcode : getOpcode s.opcode with
          | none => simp [fillInst, hOpcode, RoundsStop]
          | some opcode =>
              rw [roundsStop_known hOpcode, fillInst_fails hOpcode (hNext hOpcode)]
              simp [not_meetsUnknown_nil, skipNumbers, numbers_nil]
      | cons word rest =>
          simp only [RoundsStop, reduceCtorEq, false_and, or_false]
          by_cases hShort : word.length < 10
          · obtain ⟨file, hFile, hRound⟩ := readInst_word hTokens hShort (text i)
            rw [hRound]
            cases hOpcode : getOpcode word with
            | none => simp [fillInst, MeetsUnknown, hOpcode, hShort]
            | some opcode =>
                rw [fillInst_fails hOpcode (hNext hOpcode), hFile]
                simp [MeetsUnknown, hOpcode, hShort]
          · rw [readInst_overlong hTokens hShort]
            simp [MeetsUnknown, hShort]

private theorem fillInst_written {instr : Instruction} {operands : List (List Char)}
    {file : List Char} (hOperands : List.Forall₂ Denotes operands instr.operands)
    (hFile : tokens file = operands ++ rest) (inst : Inst) :
    ∃ next left, fillInst inst ⟨file, opcodeName instr.opcode⟩ =
        .ok next ⟨left, opcodeName instr.opcode⟩ ∧
      next.instruction = instr ∧ tokens left = rest := by
  let started := { inst with opcode := instr.opcode }
  have hLength : started.args.length = instr.operands.length :=
    (length_args started).trans instr.length_operands.symm
  have hCall : (readOperands started file).lift tokens =
      .ok (started.setArgs instr.operands) rest := by
    rw [readOperands_tokens, hFile, numbers_denotes hOperands _ hLength, Outcome.bind_ok]
  obtain ⟨left, hRead, hLeft⟩ := Outcome.lift_eq_ok.mp hCall
  refine ⟨started.setArgs instr.operands, left, ?_, ?_, hLeft⟩
  · rw [fillInst, getOpcode_opcodeName]
    simp only [hRead, started, Outcome.lift_ok]
  · have hArgs : (started.setArgs instr.operands).args = instr.operands :=
      args_setArgs instr.length_operands
    cases instr
    simp only [Inst.instruction, hArgs]
    rfl

/-- The loop reads the instructions that the file has, in order. -/
theorem readText_written {program : List Instruction} {words : List (List (List Char))}
    (h : List.Forall₂ Written program words) (text : Nat → Inst) (i : Nat) (s : Reading)
    (hTokens : tokens s.file = words.flatten ++ rest) :
    ∃ insts finish, readText text program.length i s = .ok insts finish ∧
      insts.map Inst.instruction = program := by
  induction h generalizing i s with
  | nil => exact ⟨[], s, rfl, rfl⟩
  | @cons instr first program words hFirst _ ih =>
      obtain ⟨operands, rfl, hOperands⟩ := hFirst
      rw [List.flatten_cons, List.append_assoc, List.cons_append] at hTokens
      obtain ⟨file, hFile, hRound⟩ := readInst_word hTokens (length_opcodeName _) (text i)
      obtain ⟨inst, left, hFill, hInst, hLeft⟩ := fillInst_written hOperands hFile (text i)
      obtain ⟨insts, finish, hRead, hInsts⟩ := ih (i + 1) ⟨left, opcodeName instr.opcode⟩ hLeft
      refine ⟨inst :: insts, finish, ?_, ?_⟩
      · rw [List.length_cons, readText, hRound, hFill, Outcome.bind_ok, hRead, Outcome.bind_ok]
      · rw [List.map_cons, hInst, hInsts]

/-! The whole file -/

variable {fresh : FreshPcb} {availPid : BitVec 32} {content : List Char} {priority : Nat}
  {program : List Instruction}

/-- The header is two numbers from the first words. -/
private theorem header_tokens (fresh : FreshPcb) (content : List Char) :
    (fscanf [.unsigned, .space, .unsigned] [fresh.priority, fresh.size] content).lift tokens =
      numbers [fresh.priority, fresh.size] (tokens content) :=
  fscanf_tokens _ _ _ rfl

/-- `load` ends in `exit` exactly if its rounds meet an unknown word. -/
theorem load_fails (fresh : FreshPcb) (availPid : BitVec 32) (content : List Char) :
    (∃ finish, load fresh availPid (some content) = .fail finish) ↔
      StopsAtUnknown fresh content := by
  rw [load, StopsAtUnknown, ← header_tokens]
  cases hHeader : fscanf [.unsigned, .space, .unsigned] [fresh.priority, fresh.size] content with
  | undefined => simp
  | fail rest =>
      have hCall := header_tokens fresh content
      rw [hHeader, Outcome.lift_fail] at hCall
      exact absurd hCall.symm (numbers_neverFails _ _ _)
  | ok header file =>
      have hText := readText_fails fresh.text (header.getD 1 fresh.size) 0 ⟨file, fresh.opcode⟩
      have hStops : (∃ numbers rest, (.ok header (tokens file) : Outcome _ _) = .ok numbers rest ∧
          RoundsStop (numbers.getD 1 fresh.size) rest fresh.opcode) ↔
            RoundsStop (header.getD 1 fresh.size) (tokens file) fresh.opcode := by
        constructor
        · rintro ⟨_, _, ⟨⟩, h⟩
          exact h
        · exact fun h => ⟨_, _, rfl, h⟩
      refine Iff.trans ?_ (hText.trans hStops.symm)
      simp only [Outcome.lift_ok, Outcome.bind_ok]
      cases readText fresh.text (header.getD 1 fresh.size) 0 ⟨file, fresh.opcode⟩ <;> simp

/-- A file in the format is loaded as the process that it describes. -/
theorem load_inFormat (h : InFormat content priority program) (fresh : FreshPcb)
    (availPid : BitVec 32) : Loads fresh availPid content priority program := by
  obtain ⟨first, second, words, rest, hTokens, hPriority, hLength, hProgram⟩ := h
  have hNumbers : List.Forall₂ Denotes [first, second] [priority, program.length] :=
    .cons hPriority (.cons hLength .nil)
  have hCall : (fscanf [.unsigned, .space, .unsigned] [fresh.priority, fresh.size] content).lift
      tokens = .ok [priority, program.length] (words.flatten ++ rest) := by
    rw [header_tokens, hTokens]
    exact numbers_denotes hNumbers [fresh.priority, fresh.size] rfl (words.flatten ++ rest)
  obtain ⟨file, hHeader, hFile⟩ := Outcome.lift_eq_ok.mp hCall
  obtain ⟨insts, finish, hRead, hInsts⟩ :=
    readText_written hProgram fresh.text 0 ⟨file, fresh.opcode⟩ hFile
  let proc : LoadedProc :=
    { text := insts, pc := 0, prio := fresh.prio, pid := availPid,
      priority := priority, bp := 1024 }
  refine ⟨proc, availPid + 1, ?_, rfl, rfl, hInsts⟩
  rw [load, hHeader]
  simp only [Outcome.lift_ok, Outcome.bind_ok, List.getD_cons_succ, List.getD_cons_zero, hRead,
    proc]

/-- The PCB that the loader hands in, once it has set the priority for the queues: the one that
its step in the whole system enters. -/
theorem load_pcb {file : Option (List Char)} {proc : LoadedProc} {finish : BitVec 32}
    (h : load fresh availPid file = .ok proc finish) (prio : Nat) :
    { proc.toPcb with prio := prio } = Pcb.mk proc.text 0 prio ∧ proc.pid = availPid ∧
      finish = availPid + 1 := by
  cases file with
  | none => cases h
  | some content =>
      obtain ⟨last, hProc, rfl⟩ := Outcome.lift_eq_ok.mp h
      obtain ⟨header, start, -, hText⟩ := Outcome.bind_eq_ok.mp hProc
      obtain ⟨insts, stop, -, hFilled⟩ := Outcome.bind_eq_ok.mp hText
      cases hFilled
      exact ⟨rfl, rfl, rfl⟩

theorem isWord_words (instr : Instruction) : ∀ word ∈ instr.words, IsWord word := by
  intro word hMem
  rcases List.mem_cons.mp hMem with rfl | hMem
  · exact isWord_opcodeName instr.opcode
  · obtain ⟨value, -, rfl⟩ := List.mem_map.mp hMem
    exact isWord_decimal value

private theorem tokens_lines (program : List Instruction) :
    tokens (program.flatMap fun instr => line instr.words) =
      (program.map Instruction.words).flatten := by
  induction program with
  | nil => exact tokens_nil
  | cons instr program ih =>
      rw [List.flatMap_cons, tokens_line (isWord_words instr), ih]
      rfl

private theorem written_words {instr : Instruction}
    (h : ∀ value ∈ instr.operands, value < 4294967296) : Written instr instr.words := by
  refine ⟨_, rfl, ?_⟩
  rw [List.forall₂_map_left_iff, List.forall₂_same]
  intro value hMem
  exact denotes_decimal (h value hMem)

theorem printed_inFormat (h : Printable priority program) :
    InFormat (printed priority program) priority program := by
  refine ⟨decimal priority, decimal program.length, program.map Instruction.words, [], ?_,
    denotes_decimal h.priority_lt, denotes_decimal h.length_lt, ?_⟩
  · have hHeader : ∀ word ∈ [decimal priority, decimal program.length], IsWord word := by
      simp [isWord_decimal]
    rw [printed, tokens_line hHeader, tokens_lines, List.append_nil]
    rfl
  · rw [List.forall₂_map_right_iff, List.forall₂_same]
    intro instr hMem
    exact written_words (h.operands_lt instr hMem)

/-- Every file in the format is loaded. Of the others, `load` rejects those at which it meets an
unknown word. -/
theorem acceptsFormat_iff (fresh : FreshPcb) (availPid : BitVec 32) (content : List Char) :
    AcceptsFormat fresh availPid content ↔
      (∃ priority program, InFormat content priority program) ∨ StopsAtUnknown fresh content := by
  constructor
  · intro h
    by_cases hFormat : ∃ priority program, InFormat content priority program
    · exact Or.inl hFormat
    · exact Or.inr ((load_fails fresh availPid content).mp (h.rejects hFormat))
  · intro h
    constructor
    · intro priority program hFormat
      exact load_inFormat hFormat fresh availPid
    · intro hFormat
      exact (load_fails fresh availPid content).mpr (h.resolve_left hFormat)
    · rintro priority program hPrintable rfl
      exact load_inFormat (printed_inFormat hPrintable) fresh availPid

/-- A file that promises two instructions and has one, `calc`. -/
def cutShort : List Char := line [['1'], ['2']] ++ line [optCalc]

private theorem not_inFormat_cutShort : ¬ InFormat cutShort priority program := by
  rintro ⟨first, second, words, rest, hTokens, -, hLength, hProgram⟩
  have hWords : tokens cutShort = [['1'], ['2'], optCalc] := by decide
  obtain ⟨rfl, rfl, hRest⟩ : ['1'] = first ∧ ['2'] = second ∧
      [optCalc] = words.flatten ++ rest := by
    simpa [hWords] using hTokens
  have hTwo : Denotes ['2'] 2 := rfl
  have hProgramTwo : program.length = 2 := (Outcome.ok.inj (hLength.symm.trans hTwo)).1
  obtain ⟨first, second, rfl⟩ := List.length_eq_two.mp hProgramTwo
  cases hProgram with
  | cons hFirst hProgram =>
      cases hProgram with
      | cons hSecond _ =>
          obtain ⟨_, rfl, -⟩ := hFirst
          obtain ⟨_, rfl, -⟩ := hSecond
          simp at hRest

def zeroed : FreshPcb where
  priority := 0
  prio := 0
  size := 0
  text := fun _ => ⟨.calc, 0, 0, 0⟩
  opcode := []

/-- The file is loaded all the same, with `calc` twice. -/
theorem cutShort_accepted : ¬ AcceptsFormat zeroed 1 cutShort := by
  intro h
  obtain ⟨finish, hFail⟩ := h.rejects fun ⟨_, _, hFormat⟩ => not_inFormat_cutShort hFormat
  have hReturns : (load zeroed 1 (some cutShort)).ok?.map (fun result => result.1.text) =
      some [⟨.calc, 0, 0, 0⟩, ⟨.calc, 0, 0, 0⟩] := by
    decide
  rw [hFail] at hReturns
  cases hReturns

end Btlos
