import CompTech.Lib.CInt
import CompTech.Lib.Stores
import CompTech.Lib.Strtol

/-!
# The topology of the machine

`get_mycpu_info` asks the system for the core id of each processor, one line of text a processor,
and groups the processors by core. The text is not read line by line: `fread` takes blocks of
`num_read_bytes` bytes, 13 at first, the length of a line with a one-digit id, and one more for
every id 9 that it meets. The number is taken from `buff + 10`, in a buffer of 14 bytes.

The groups are an array of `struct cpu`, each with an array of processors that grows by `realloc`.
The first processor of a core goes to the slot `n_cpu` and opens a group there; a later one goes
to the slot that its core id names.

`undefined` is an access outside an array. What `calloc` and `realloc` answer, and what is in
memory that is new, is a parameter; the counts are far below the bounds of `int`.
-/

namespace CompTech.Network

open Lib

/-! ## Reading the core ids -/

/-- `sizeof (buff)` -/
def BUFF_LEN : Nat := 14

/-- The length of `core_ids`. -/
def MAX_CORE_IDS : Nat := 256

/-- The loop that reads the ids, between two of its rounds. -/
structure Reader where
  -- what is left in the pipe
  cmd : List Char
  -- the buffer, with what the last rounds have left in it
  buff : List Char
  -- the first `n_core_ids` entries
  coreIds : List Int
  -- how much the next `fread` asks for
  numReadBytes : Nat
  deriving DecidableEq, Repr

/-- `fread (buff, 1, num_read_bytes, cmd)`: a full block, except at the end. -/
def Reader.block (r : Reader) : List Char := r.cmd.take r.numReadBytes

/-- The buffer after the `fread`: behind the block it keeps what it had. -/
def Reader.filled (r : Reader) : List Char := r.block ++ r.buff.drop r.block.length

/-- The rest of the round, with the id that was read. -/
def Reader.store (r : Reader) (id : Int) : Reader where
  cmd := r.cmd.drop r.block.length
  buff := r.filled
  coreIds := r.coreIds ++ [id]
  numReadBytes := if id = 9 then r.numReadBytes + 1 else r.numReadBytes

/-- The id in the buffer. -/
def Reader.coreId (r : Reader) : Option Int :=
  (strtol (r.filled.drop 10)).map fun scan => asInt scan.value

/-- The loop, for `fuel` rounds at most. A block longer than the buffer and an id behind the end of
    the array are undefined, as is a number that `strtol` does not end in the buffer. -/
def readLoop : Nat → Reader → Option (List Int)
  | 0, _ => none
  | fuel + 1, r =>
    if r.block.length = 0 then some r.coreIds
    else if BUFF_LEN < r.block.length ∨ MAX_CORE_IDS ≤ r.coreIds.length then none
    else r.coreId.bind fun id => readLoop fuel (r.store id)

/-- Every block has a byte at least: there are not more rounds than bytes. -/
def readCoreIds (output : List Char) : Option (List Int) :=
  readLoop (output.length + 1) ⟨output, List.replicate BUFF_LEN NUL, [], 13⟩

/-! ## Growing arrays -/

section

variable {α : Type}

/-- `realloc (arr, n * sizeof (elem))` when there is memory. -/
def realloc (fresh : Nat → α) (arr : Option (List α)) (n : Nat) : List α :=
  (List.range n).map fun k => (arr.getD []).getD k (fresh k)

/-- What `add_to_cpus_array` and `add_to_processors_array` do: `grows` says whether a `realloc` gets
    its memory. The array and its size afterwards, and what is returned. -/
def addToArray (fresh : Nat → α) (grows : Bool) (arr : Option (List α)) (size : Nat) (elem : α)
    (position : Nat) : Option ((Option (List α) × Nat) × Int) :=
  let (arr, size) :=
    if position ≥ size then
      -- the block has one element more than is noted
      (if grows then some (realloc fresh arr (2 * position + 1)) else none, 2 * position)
    else (arr, size)
  match arr with
  | none => some ((none, size), -1)
  | some block => (storeAt block position fun _ => elem).map fun block => ((some block, size), 0)

end

/-- A `struct cpu`: the processors of one core. -/
structure Cpu where
  processors : Option (List Int)
  -- how many of them there are
  nProc : Nat
  -- and how many the array has room for
  capacity : Nat
  deriving DecidableEq, Repr

/-- A `struct cpu_info`. -/
structure CpuInfo where
  cpus : Option (List Cpu)
  nCpu : Nat
  deriving DecidableEq, Repr

/-- What the allocator answers. -/
structure Memory where
  -- whether a `calloc` of that many elements gives a block
  calloc : Nat → Bool
  -- whether a `realloc` in round `i` does
  realloc : Nat → Bool
  freshCpu : Nat → Cpu
  freshProcessor : Nat → Int

/-- `struct cpu cpu = {}` -/
def zeroCpu : Cpu := ⟨none, 0, 0⟩

/-- The array of the groups grows. -/
def addToCpusArray (mem : Memory) (i : Nat) (arr : Option (List Cpu)) (size : Nat) (elem : Cpu)
    (position : Nat) : Option ((Option (List Cpu) × Nat) × Int) :=
  addToArray mem.freshCpu (mem.realloc i) arr size elem position

/-- The array of the processors of one group grows. -/
def addToProcessorsArray (mem : Memory) (i : Nat) (arr : Option (List Int)) (size : Nat)
    (elem : Int) (position : Nat) : Option ((Option (List Int) × Nat) × Int) :=
  addToArray mem.freshProcessor (mem.realloc i) arr size elem position

/-! ## Grouping the processors -/

/-- The first index below `size` of `elem`, or -1. -/
def findInArray (arr : List Int) (size : Nat) (elem : Int) : Int :=
  match (arr.take size).findIdx? (· == elem) with
  | some i => i
  | none => -1

/-- How the loop is left early. -/
inductive Fault
  | undefined
  -- `goto exit_error`, with this many groups
  | noMemory (nCpu : Nat)
  deriving DecidableEq, Repr

/-- `res.cpus`, `res.n_cpu` while it is the size of the array, and `n_cpu`. -/
structure Groups where
  cpus : List Cpu
  size : Nat
  nCpu : Nat
  deriving DecidableEq, Repr

/-- `add_to_processors_array (&res.cpus[k].processors, &res.cpus[k].capacity, i,
    res.cpus[k].n_proc++)`, and the test of `check`. -/
def addProcessor (mem : Memory) (i : Nat) (s : Groups) (k : Int) : Except Fault Groups :=
  match if k < 0 then none else s.cpus[k.toNat]? with
  | none => .error .undefined
  | some cpu =>
    match addToProcessorsArray mem i cpu.processors cpu.capacity i cpu.nProc with
    | none => .error .undefined
    | some ((processors, capacity), check) =>
      if check ≠ 0 then .error (.noMemory s.nCpu)
      else .ok { s with cpus := s.cpus.set k.toNat ⟨processors, cpu.nProc + 1, capacity⟩ }

/-- A new group at `n_cpu`. -/
def openGroup (mem : Memory) (i : Nat) (s : Groups) : Except Fault Groups :=
  match addToCpusArray mem i (some s.cpus) s.size zeroCpu s.nCpu with
  | none => .error .undefined
  | some ((none, _), _) =>
    -- `exit_error` reads the groups of an array that is gone
    .error (if s.nCpu = 0 then .noMemory 0 else .undefined)
  | some ((some cpus, size), _) => .ok ⟨cpus, size, s.nCpu⟩

/-- One round of the loop: processor `i` opens the group of its core or is added to it. The group is
    looked for under the core id, as the code does, although it is stored in the order of
    appearance. -/
def groupRound (mem : Memory) (coreIds : List Int) (s : Groups) (i : Nat) : Except Fault Groups :=
  match coreIds[i]? with
  | none => .error .undefined
  | some id =>
    if findInArray coreIds i id = -1 then do
      let s ← openGroup mem i s
      let s ← addProcessor mem i s s.nCpu
      return { s with nCpu := s.nCpu + 1 }
    -- the core is known: its id is the index here
    else addProcessor mem i s id

/-- `get_mycpu_info` from the first `calloc` on; `none` is undefined. -/
def groupCpus (mem : Memory) (coreIds : List Int) : Option CpuInfo :=
  if mem.calloc coreIds.length = false then some ⟨none, coreIds.length⟩
  else
    match (List.range' 0 coreIds.length).foldlM (groupRound mem coreIds)
      ⟨List.replicate coreIds.length zeroCpu, coreIds.length, 0⟩ with
    | .ok s => some ⟨some s.cpus, s.nCpu⟩
    | .error (.noMemory nCpu) => some ⟨none, nCpu⟩
    | .error .undefined => none

/-- `output` is what the query prints. -/
def getMycpuInfo (mem : Memory) (output : List Char) : Option CpuInfo :=
  (readCoreIds output).bind (groupCpus mem)

end CompTech.Network
