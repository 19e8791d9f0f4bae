import CompTech.Lib.Stores
import CompTech.Lib.Tiling

/-!
# Dividing the integral

`divide_work` cuts the interval into one task for each worker and `fill_thread_info` cuts a
worker's task into one slice for each of its threads. Both are counting loops that carry a
left end from round to round and treat the last entry apart: the last task takes what is left
of the threads and ends at `end`, the last slice ends where its task ends.

`unsigned` and `int` are 32 bits wide and `double` is an exact rational. `none` is undefined
behaviour: a division by a processor count of zero, or a store outside the array. What a
library call answers — how many processors there are, whether an allocation succeeds, what a
new block contains — is a parameter.

The loops are folds over the numbers of their rounds, with what they carry as the accumulator;
`Slices` brings each to a closed form.
-/

namespace CompTech.Network

/-- The codes the functions return. -/
inductive Error
  | success
  | eInval
  | eSock
  | eConn
  | eMem
  | eThread
  deriving DecidableEq, Repr

/-- A `struct worker_info`: what a worker is sent. -/
structure WorkerInfo where
  begin_ : ℚ
  end_ : ℚ
  nThreads : BitVec 32
  deriving DecidableEq

/-- A `struct handler_info`: a task, and the socket of its worker. -/
structure HandlerInfo where
  wInfo : WorkerInfo
  socket : BitVec 32
  deriving DecidableEq

/-- A `struct tasks_for_workers`. -/
structure TasksForWorkers where
  task : List HandlerInfo
  -- the length of the array, as the code keeps it
  size : BitVec 32
  deriving DecidableEq

/-- One record of `struct thread_info`; `φ` is the type of the integrand. -/
structure ThreadInfo (φ : Type) where
  begin_ : ℚ
  end_ : ℚ
  res : ℚ
  foo : φ

/-! ## divide_work -/

/-- Which of the two allocations of `divide_work` succeed. -/
structure Allocs where
  malloc : Bool
  calloc : Bool

/-- What `calloc` leaves in a cell. -/
def zeroHandler : HandlerInfo := ⟨⟨0, 0, 0⟩, 0⟩

/-- One round of the loop over the tasks; it carries `begin`. -/
def divideRound (intervalPerThread : ℚ) (share : BitVec 32) (p : List HandlerInfo × ℚ)
    (i : Nat) : Option (List HandlerInfo × ℚ) :=
  let next := p.2 + intervalPerThread * (share.toInt : ℚ)
  (Lib.storeAt p.1 i fun t => { t with wInfo := ⟨p.2, next, share⟩ }).map (·, next)

/-- `divide_work`. The number of workers is the smaller one of the machines and the threads, so that
    every worker gets a thread. -/
def divideWork (nCpus : BitVec 32) (mem : Allocs) (nMachines nThreads : BitVec 32)
    (begin_ end_ : ℚ) : Option (Option TasksForWorkers × Error) :=
  if nMachines = 0 ∨ nThreads = 0 then
    some (none, .eInval)
  else if nCpus = 0 then
    -- `n_threads / n_cpus`, whose value is overwritten before it is used
    none
  else
    let intervalPerThread := (end_ - begin_) / (nThreads.toNat : ℚ)
    let nWorkers := if nMachines < nThreads then nMachines else nThreads
    if mem.malloc = false then
      some (none, .eMem)
    else if mem.calloc = false then
      some (none, .eMem)
    else do
      let task := List.replicate nWorkers.toNat zeroHandler
      let (task, begin_) ← (List.range' 0 (nWorkers - 1).toNat).foldlM
        (divideRound intervalPerThread (nThreads / nWorkers)) (task, begin_)
      let first ← task[0]?
      -- what the division of the threads has left over goes to the last one
      let rest := nThreads - (nWorkers - 1) * first.wInfo.nThreads
      let task ← Lib.storeAt task (nWorkers - 1).toNat fun t =>
        { t with wInfo := ⟨begin_, end_, rest⟩ }
      return (some ⟨task, nWorkers⟩, .success)

/-! ## fill_thread_info -/

section

variable {φ : Type}

/-- One round of the loop over the slices; it carries `th_begin` and `th_end`. -/
def fillRound (interval : ℚ) (foo : φ) (p : List (ThreadInfo φ) × ℚ × ℚ) (i : Nat) :
    Option (List (ThreadInfo φ) × ℚ × ℚ) :=
  (Lib.storeAt p.1 i fun t => { t with begin_ := p.2.1, end_ := p.2.2, foo := foo }).map
    (·, p.2.2, p.2.2 + interval)

/-- `infosp` is `none` for a null pointer. The records from `nThreads` on are for the threads that
    only heat up their cores; they get the first slice. -/
def fillThreadInfo (infosp : Option (List (ThreadInfo φ))) (infoSize : Int)
    (init : ThreadInfo φ) (nThreads : Int) : Option (Int × Option (List (ThreadInfo φ))) :=
  match infosp with
  | none => some (-1, none)
  | some infosp =>
    if nThreads = 0 then
      some (-1, some infosp)
    else do
      let interval := (init.end_ - init.begin_) / (nThreads : ℚ)
      let cBegin := init.begin_
      let cEnd := init.begin_ + interval
      let (infosp, thBegin, _) ← (List.range' 0 (nThreads - 1).toNat).foldlM
        (fillRound interval init.foo) (infosp, cBegin, cEnd)
      -- a negative count has made no round and stores in front of the array
      let infosp ← if nThreads < 0 then none else
        Lib.storeAt infosp (nThreads - 1).toNat fun t =>
          { t with begin_ := thBegin, end_ := init.end_, foo := init.foo }
      -- for threads, which must work not for result
      let infosp ← (List.range' nThreads.toNat (infoSize - nThreads).toNat).foldlM
        (fun l i => Lib.storeAt l i fun t =>
          { t with begin_ := cBegin, end_ := cEnd, foo := init.foo }) infosp
      return (0, some infosp)

/-- What a worker's machine decides: how many processors it has, and what fresh memory
    contains. -/
structure Machine (φ : Type) where
  nCpus : Int
  fresh : Nat → ThreadInfo φ

/-- `build_cache_aligned_thread_info`, when its allocations succeed. -/
def buildThreadInfo (m : Machine φ) (nThreads : Int) : List (ThreadInfo φ) :=
  (List.range nThreads.toNat).map m.fresh

/-- The records `Integrate` hands to its threads: one for each thread it was asked for, and
    more when there are more processors than that. -/
def integrateInfos (m : Machine φ) (nThreads : Int) (begin_ end_ : ℚ) (foo : φ) :
    Option (Int × Option (List (ThreadInfo φ))) :=
  let nThreadCreate := if nThreads > m.nCpus then nThreads else m.nCpus
  fillThreadInfo (some (buildThreadInfo m nThreadCreate)) nThreadCreate
    { begin_ := begin_, end_ := end_, res := 0, foo := foo } nThreads

end

end CompTech.Network
