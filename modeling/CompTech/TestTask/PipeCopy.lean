import CompTech.Lib.Run
import CompTech.TestTask.Copy

/-!
# A file through a pipe

Task 6 forks: the child reads the file and writes it into a pipe, the parent copies the pipe to its
standard output. The parent does so when the child is over: its `waitpid` stands in front of the
loop that drains the pipe. So the whole file has to fit in the pipe. A child that fills it waits
in `write` for room that the parent never makes, and the parent waits for the child.

The machine interleaves the calls of the two. A `write` into a pipe puts in what there is room for
and waits with the rest; how much goes in at a time, and how the file is cut into chunks, is up to
the events. A pipe that has no writer left gives the end of the file when it is empty.
-/

namespace CompTech.TestTask.PipeCopy

open Lib

/-- The process that reads the file. -/
inductive Child
  -- before `open`
  | opening
  -- before `read`
  | reading
  -- in `write`, with what is not yet in the pipe
  | writing (pending : List UInt8)
  -- over, `exit (0)` or `exit (EXIT_FAILURE)`
  | exited (ok : Bool)
  deriving DecidableEq, Repr

/-- The process that writes to the screen. -/
inductive Parent
  -- in `waitpid`
  | waiting
  -- before `read`; `fd[1]` is closed
  | reading
  -- before the `write` of `buff`
  | writing (buff : List UInt8)
  | exited (ok : Bool)
  deriving DecidableEq, Repr

/-- Both, the file, the pipe and the screen. -/
structure State where
  child : Child
  parent : Parent
  -- what the child has not read of the file
  rest : List UInt8
  pipe : List UInt8
  output : List UInt8
  deriving DecidableEq, Repr

/-- Both behind `fork`. -/
def start (file : List UInt8) : State := ⟨.opening, .waiting, file, [], []⟩

/-- How a call of the child is answered. -/
inductive ChildCall
  | opened (ok : Bool)
  -- `none` is an error
  | read (count : Option Nat)
  -- the `write` puts `count` bytes into the pipe
  | put (count : Nat)
  | writeError
  deriving DecidableEq, Repr

/-- How a call of the parent is answered. -/
inductive ParentCall
  | waitpid
  | read (count : Option Nat)
  -- whether `write` writes all of it
  | write (ok : Bool)
  deriving DecidableEq, Repr

/-- A call of one of the two. -/
inductive Event
  | child (call : ChildCall)
  | parent (call : ParentCall)
  deriving DecidableEq, Repr

/-- What a `read` of `BUFF_SIZE` bytes may answer when `avail` are there: 0 is for the end of
    the file. -/
def ReadCount (avail count : Nat) : Prop :=
  count ≤ min BUFF_SIZE avail ∧ (count = 0 → avail = 0)

instance (avail count : Nat) : Decidable (ReadCount avail count) :=
  inferInstanceAs (Decidable (_ ∧ _))

/-- The next call of the child. `put` is a part of its `write`, as much as there is room for. -/
def childStep (capacity : Nat) (s : State) (call : ChildCall) : Option State :=
  match call, s.child with
  | .opened ok, .opening => some { s with child := if ok then .reading else .exited false }
  | .read none, .reading => some { s with child := .exited false }
  | .read (some count), .reading =>
    if ReadCount s.rest.length count then
      some { s with
        child := if count = 0 then .exited true else .writing (s.rest.take count)
        rest := s.rest.drop count }
    else none
  | .put count, .writing pending =>
    if 0 < count ∧ count ≤ min (capacity - s.pipe.length) pending.length then
      some { s with
        child := if count = pending.length then .reading else .writing (pending.drop count)
        pipe := s.pipe ++ pending.take count }
    else none
  | .writeError, .writing _ => some { s with child := .exited false }
  | _, _ => none

/-- The next call of the parent. Its `waitpid` returns when the child is over, in whatever way. -/
def parentStep (s : State) (call : ParentCall) : Option State :=
  match call, s.parent, s.child with
  | .waitpid, .waiting, .exited _ => some { s with parent := .reading }
  | .read none, .reading, _ => some { s with parent := .exited false }
  | .read (some count), .reading, _ =>
    if ReadCount s.pipe.length count then
      some { s with
        parent := if count = 0 then .exited true else .writing (s.pipe.take count)
        pipe := s.pipe.drop count }
    else none
  | .write true, .writing buff, _ =>
    some { s with parent := .reading, output := s.output ++ buff }
  | .write false, .writing _, _ => some { s with parent := .exited false }
  | _, _, _ => none

/-- One call. -/
def step (capacity : Nat) (s : State) : Event → Option State
  | .child call => childStep capacity s call
  | .parent call => parentStep s call

/-- The child is in `write` and the pipe is full, the parent is in `waitpid`. -/
def Stuck (capacity : Nat) (s : State) : Prop :=
  (∃ pending, s.child = .writing pending) ∧ capacity ≤ s.pipe.length ∧ s.parent = .waiting

/-- In every interleaving nobody gets stuck, and a parent that exits with 0 after a child that met
    no error has written the file. -/
def Copies (capacity : Nat) (file : List UInt8) : Prop :=
  ∀ es s, Run (step capacity) Always (start file) es s →
    ¬ Stuck capacity s ∧
    (s.child = .exited true → s.parent = .exited true → s.output = file)

/-! ## What a call can do -/

/-- What a call of the child can do. -/
inductive ChildMove (capacity : Nat) (s : State) : State → Prop
  | opened : s.child = .opening → ChildMove capacity s { s with child := .reading }
  | failed : (∀ ok, s.child ≠ .exited ok) →
      ChildMove capacity s { s with child := .exited false }
  | finished : s.child = .reading → s.rest = [] →
      ChildMove capacity s { s with child := .exited true }
  | read (count : Nat) : s.child = .reading → 0 < count → count ≤ min BUFF_SIZE s.rest.length →
      ChildMove capacity s
        { s with child := .writing (s.rest.take count), rest := s.rest.drop count }
  | put (pending : List UInt8) (count : Nat) : s.child = .writing pending → 0 < count →
      count ≤ capacity - s.pipe.length → count < pending.length →
      ChildMove capacity s
        { s with child := .writing (pending.drop count), pipe := s.pipe ++ pending.take count }
  | putAll (pending : List UInt8) : s.child = .writing pending →
      pending.length ≤ capacity - s.pipe.length →
      ChildMove capacity s { s with child := .reading, pipe := s.pipe ++ pending }

/-- The case analysis of `childStep`, once. -/
theorem childStep_move {capacity : Nat} {s t : State} {call : ChildCall}
    (h : childStep capacity s call = some t) : ChildMove capacity s t := by
  unfold childStep at h
  split at h
  case h_1 ok hchild =>
    obtain rfl := Option.some.inj h
    cases ok
    · exact .failed (by simp [hchild])
    · exact .opened hchild
  case h_2 hchild =>
    obtain rfl := Option.some.inj h
    exact .failed (by simp [hchild])
  case h_3 count hchild =>
    split at h
    · rename_i hcount
      obtain rfl := Option.some.inj h
      obtain ⟨hle, hzero⟩ := hcount
      rcases Nat.eq_zero_or_pos count with rfl | hpos
      · exact .finished hchild (List.length_eq_zero_iff.mp (hzero rfl))
      · rw [if_neg (by omega)]
        exact .read count hchild hpos hle
    · exact absurd h (by simp)
  case h_4 count pending hchild =>
    split at h
    · rename_i hcount
      obtain rfl := Option.some.inj h
      by_cases hall : count = pending.length
      · subst hall
        rw [if_pos rfl, List.take_length]
        exact .putAll pending hchild (by omega)
      · rw [if_neg hall]
        exact .put pending count hchild hcount.1 (by omega) (by omega)
    · exact absurd h (by simp)
  case h_5 pending hchild =>
    obtain rfl := Option.some.inj h
    exact .failed (by simp [hchild])
  case h_6 => exact absurd h (by simp)

inductive ParentMove (s : State) : State → Prop
  | waited (ok : Bool) : s.parent = .waiting → s.child = .exited ok →
      ParentMove s { s with parent := .reading }
  | failed : s.parent ≠ .waiting → (∀ ok, s.parent ≠ .exited ok) →
      ParentMove s { s with parent := .exited false }
  | finished : s.parent = .reading → s.pipe = [] → ParentMove s { s with parent := .exited true }
  | read (count : Nat) : s.parent = .reading → 0 < count → count ≤ min BUFF_SIZE s.pipe.length →
      ParentMove s { s with parent := .writing (s.pipe.take count), pipe := s.pipe.drop count }
  | wrote (buff : List UInt8) : s.parent = .writing buff →
      ParentMove s { s with parent := .reading, output := s.output ++ buff }

theorem parentStep_move {s t : State} {call : ParentCall} (h : parentStep s call = some t) :
    ParentMove s t := by
  unfold parentStep at h
  split at h
  case h_1 ok hparent hchild =>
    obtain rfl := Option.some.inj h
    exact .waited ok hparent hchild
  case h_2 hparent =>
    obtain rfl := Option.some.inj h
    exact .failed (by simp [hparent]) (by simp [hparent])
  case h_3 count hparent =>
    split at h
    · rename_i hcount
      obtain rfl := Option.some.inj h
      obtain ⟨hle, hzero⟩ := hcount
      rcases Nat.eq_zero_or_pos count with rfl | hpos
      · exact .finished hparent (List.length_eq_zero_iff.mp (hzero rfl))
      · rw [if_neg (by omega)]
        exact .read count hparent hpos hle
    · exact absurd h (by simp)
  case h_4 buff hparent =>
    obtain rfl := Option.some.inj h
    exact .wrote buff hparent
  case h_5 buff hparent =>
    obtain rfl := Option.some.inj h
    exact .failed (by simp [hparent]) (by simp [hparent])
  case h_6 => exact absurd h (by simp)

/-! ## Where the bytes are

In every state the file is what is on the screen, what the parent holds, what is in the pipe, what
the child holds and what it has not read, in this order. -/

/-- What the child has read and not put into the pipe. -/
def Child.pending : Child → List UInt8
  | .writing pending => pending
  | _ => []

def Parent.buff : Parent → List UInt8
  | .writing buff => buff
  | _ => []

/-- Up to an error, the file is what is written, in a buffer, in the pipe and not read. -/
structure Inv (file : List UInt8) (s : State) : Prop where
  bytes : s.child ≠ .exited false → s.parent ≠ .exited false →
    s.output ++ (s.parent.buff ++ (s.pipe ++ (s.child.pending ++ s.rest))) = file
  /-- a `write` has something to write -/
  pending : ∀ pending, s.child = .writing pending → pending ≠ []
  waiting : s.parent = .waiting → s.output = []
  childOver : s.parent ≠ .waiting → ∃ ok, s.child = .exited ok
  read : s.child = .exited true → s.rest = []
  drained : s.parent = .exited true → s.pipe = []

theorem Inv.start (file : List UInt8) : Inv file (start file) := by
  constructor <;> simp [PipeCopy.start, Parent.buff, Child.pending]

section

variable {capacity : Nat} {file : List UInt8} {s t : State}

/-- While the parent waits, its side is empty. -/
theorem Inv.of_waiting (hparent : t.parent = .waiting) (hout : t.output = [])
    (hbytes : t.child ≠ .exited false → t.pipe ++ (t.child.pending ++ t.rest) = file)
    (hpending : ∀ pending, t.child = .writing pending → pending ≠ [])
    (hread : t.child = .exited true → t.rest = []) : Inv file t where
  bytes hc _ := by simpa [hparent, hout, Parent.buff] using hbytes hc
  pending := hpending
  waiting _ := hout
  childOver hne := absurd hparent hne
  read := hread
  drained he := absurd (hparent.symm.trans he) (by simp)

theorem ChildMove.running (hm : ChildMove capacity s t) : ∀ ok, s.child ≠ .exited ok := by
  cases hm with
  | failed hchild => exact hchild
  | opened hchild => simp [hchild]
  | finished hchild _ => simp [hchild]
  | read _ hchild _ _ => simp [hchild]
  | put _ _ hchild _ _ _ => simp [hchild]
  | putAll _ hchild _ => simp [hchild]

theorem Inv.child (h : Inv file s) (hm : ChildMove capacity s t) : Inv file t := by
  have hwait : s.parent = .waiting := by
    by_contra hne
    obtain ⟨ok, hok⟩ := h.childOver hne
    exact hm.running ok hok
  have hout : s.output = [] := h.waiting hwait
  have hbytes : s.pipe ++ (s.child.pending ++ s.rest) = file := by
    simpa [hwait, hout, Parent.buff] using h.bytes (hm.running false) (by simp [hwait])
  cases hm with
  | opened hchild =>
    rw [hchild] at hbytes
    exact .of_waiting hwait hout (fun _ => hbytes) (by simp) (by simp)
  | failed hchild => exact .of_waiting hwait hout (by simp) (by simp) (by simp)
  | finished hchild hrest =>
    rw [hchild] at hbytes
    exact .of_waiting hwait hout (fun _ => hbytes) (by simp) (fun _ => hrest)
  | read count hchild hpos hle =>
    rw [hchild] at hbytes
    refine .of_waiting hwait hout (fun _ => ?_) (fun pending hp => ?_) (by simp)
    · simpa [Child.pending] using hbytes
    · obtain rfl : s.rest.take count = pending := by simpa using hp
      rw [← List.length_pos_iff, List.length_take]
      omega
  | put pending count hchild hpos hroom hlt =>
    rw [hchild] at hbytes
    refine .of_waiting hwait hout (fun _ => ?_) (fun left hp => ?_) (by simp)
    · show (s.pipe ++ pending.take count) ++ (pending.drop count ++ s.rest) = file
      rw [List.append_assoc, ← List.append_assoc (pending.take count), List.take_append_drop]
      exact hbytes
    · obtain rfl : pending.drop count = left := by simpa using hp
      rw [← List.length_pos_iff, List.length_drop]
      omega
  | putAll pending hchild hroom =>
    rw [hchild] at hbytes
    refine .of_waiting hwait hout (fun _ => ?_) (by simp) (by simp)
    simpa [Child.pending, List.append_assoc] using hbytes

theorem Inv.parent (h : Inv file s) (hm : ParentMove s t) : Inv file t := by
  have hpending : ∀ pending, s.child = .writing pending → pending ≠ [] := h.pending
  cases hm with
  | waited ok hparent hchild =>
    refine ⟨fun hc _ => ?_, hpending, by simp, fun _ => ⟨ok, hchild⟩, h.read, by simp⟩
    simpa [hparent, Parent.buff] using h.bytes hc (by simp [hparent])
  | failed hne hexit =>
    exact ⟨by simp, hpending, by simp, fun _ => h.childOver hne, h.read, by simp⟩
  | finished hparent hpipe =>
    refine ⟨fun hc _ => ?_, hpending, by simp, fun _ => h.childOver (by simp [hparent]), h.read,
      fun _ => hpipe⟩
    simpa [hparent, Parent.buff] using h.bytes hc (by simp [hparent])
  | read count hparent hpos hle =>
    refine ⟨fun hc _ => ?_, hpending, by simp, fun _ => h.childOver (by simp [hparent]), h.read,
      by simp⟩
    show s.output ++ (s.pipe.take count ++ (s.pipe.drop count ++ _)) = file
    rw [← List.append_assoc (s.pipe.take count), List.take_append_drop]
    simpa [hparent, Parent.buff] using h.bytes hc (by simp [hparent])
  | wrote buff hparent =>
    refine ⟨fun hc _ => ?_, hpending, by simp, fun _ => h.childOver (by simp [hparent]), h.read,
      by simp⟩
    simpa [hparent, Parent.buff, List.append_assoc] using h.bytes hc (by simp [hparent])

theorem inv_run {es : List Event} (hrun : Run (step capacity) Always (start file) es s) :
    Inv file s := by
  refine hrun.invariant (.start file) fun t e u hinv _ hstep => ?_
  cases e with
  | child call => exact hinv.child (childStep_move hstep)
  | parent call => exact hinv.parent (parentStep_move hstep)

/-! ## A file that fits, and one that does not

As the parent does not read before the child is over, the pipe must take all that the child writes.
-/

theorem Inv.not_stuck (h : Inv file s) (hfits : file.length ≤ capacity) : ¬ Stuck capacity s := by
  rintro ⟨⟨pending, hchild⟩, hfull, hwait⟩
  have hbytes := h.bytes (by simp [hchild]) (by simp [hwait])
  have hlen := congrArg List.length hbytes
  have hpos := List.length_pos_iff.mpr (h.pending pending hchild)
  simp only [hchild, Child.pending, List.length_append] at hlen
  omega

theorem Inv.output_eq (h : Inv file s) (hchild : s.child = .exited true)
    (hparent : s.parent = .exited true) : s.output = file := by
  have hbytes := h.bytes (by simp [hchild]) (by simp [hparent])
  simpa [hchild, hparent, Parent.buff, Child.pending, h.drained hparent, h.read hchild]
    using hbytes

/-- A child with more in front of it than there is room for gets stuck, also when it reads all it
    can get and writes all there is room for. Induction on what it has not read. -/
theorem stuck_of_reading : ∀ (n : Nat) {rest pipe : List UInt8}, rest.length ≤ n →
    pipe.length ≤ capacity → capacity < pipe.length + rest.length →
    ∃ es s, Run (step capacity) Always ⟨.reading, .waiting, rest, pipe, []⟩ es s ∧
      Stuck capacity s := by
  intro n
  induction n with
  | zero => intro rest pipe hn hpipe hlong; omega
  | succ n ih =>
    intro rest pipe hn hpipe hlong
    obtain ⟨count, hcount⟩ : ∃ count, count = min BUFF_SIZE rest.length := ⟨_, rfl⟩
    have hpos : 0 < count := by unfold BUFF_SIZE at hcount; omega
    have htake : (rest.take count).length = count := List.length_take_of_le (by omega)
    let s₁ : State := ⟨.writing (rest.take count), .waiting, rest.drop count, pipe, []⟩
    have hread : step capacity ⟨.reading, .waiting, rest, pipe, []⟩
        (.child (.read (some count))) = some s₁ := by
      have hok : ReadCount rest.length count := ⟨by omega, by omega⟩
      simp [step, childStep, hok, Nat.ne_of_gt hpos, s₁]
    obtain ⟨room, hroom⟩ : ∃ room, room = min (capacity - pipe.length) count := ⟨_, rfl⟩
    rcases Nat.eq_zero_or_pos room with hfull | hsome
    · -- the pipe is full already
      exact ⟨_, s₁, .cons trivial hread .nil, ⟨_, rfl⟩, by show capacity ≤ pipe.length; omega, rfl⟩
    have hok : 0 < room ∧ room ≤ min (capacity - pipe.length) (rest.take count).length := by
      rw [htake]
      omega
    by_cases hall : room = count
    · -- it all goes in
      have hput : step capacity s₁ (.child (.put room)) =
          some ⟨.reading, .waiting, rest.drop count, pipe ++ rest.take count, []⟩ := by
        simp only [step, childStep, s₁, if_pos hok]
        rw [if_pos (hall.trans htake.symm), hall, List.take_take, Nat.min_self]
      obtain ⟨es, s, hrun, hstuck⟩ := @ih (rest.drop count) (pipe ++ rest.take count)
        (by rw [List.length_drop]; omega) (by rw [List.length_append, htake]; omega)
        (by rw [List.length_append, List.length_drop, htake]; omega)
      exact ⟨_, s, .cons trivial hread (.cons trivial hput hrun), hstuck⟩
    · -- the pipe is full before it all is in
      have hput : step capacity s₁ (.child (.put room)) =
          some ⟨.writing ((rest.take count).drop room), .waiting, rest.drop count,
            pipe ++ (rest.take count).take room, []⟩ := by
        simp only [step, childStep, s₁, if_pos hok]
        rw [if_neg (by rw [htake]; exact hall)]
      refine ⟨_, _, .cons trivial hread (.cons trivial hput .nil), ⟨_, rfl⟩, ?_, rfl⟩
      show capacity ≤ (pipe ++ (rest.take count).take room).length
      rw [List.length_append, List.length_take_of_le (by omega)]
      omega

theorem stuck_of_long (hlong : capacity < file.length) :
    ∃ es s, Run (step capacity) Always (start file) es s ∧ Stuck capacity s := by
  have hopen : step capacity (start file) (.child (.opened true)) =
      some ⟨.reading, .waiting, file, [], []⟩ := rfl
  obtain ⟨es, s, hrun, hstuck⟩ := @stuck_of_reading capacity file.length file [] (le_refl _)
    (Nat.zero_le _) (by simpa using hlong)
  exact ⟨_, s, .cons trivial hopen hrun, hstuck⟩

end

/-- **The pipe copy works for the files that fit in the pipe**, and for no others. If the file fits,
    the child never has to wait and the parent finds all of it. If it does not, a run is built in
    which the child fills the pipe. -/
theorem copies_iff (capacity : Nat) (file : List UInt8) :
    Copies capacity file ↔ file.length ≤ capacity := by
  constructor
  · intro h
    by_contra hlong
    obtain ⟨es, s, hrun, hstuck⟩ := stuck_of_long (Nat.lt_of_not_le hlong)
    exact (h es s hrun).1 hstuck
  · intro hfits es s hrun
    have hinv := inv_run hrun
    exact ⟨hinv.not_stuck hfits, hinv.output_eq⟩

/-- A file of one byte more than a pipe of 65536 bytes holds. -/
theorem copies_not_long : ¬ Copies 65536 (List.replicate 65537 0) := by
  intro h
  obtain ⟨es, s, hrun, hstuck⟩ := @stuck_of_long 65536 (List.replicate 65537 0)
    (by rw [List.length_replicate]; omega)
  exact (h es s hrun).1 hstuck

end CompTech.TestTask.PipeCopy
