import Mathlib

/-!
# Copying a file

`my_cp` of task 2 opens the source for reading and the destination with `O_WRONLY | O_CREAT`, and
copies in rounds: a `read` into the buffer and a `write` of what came. `read` may answer with less
than was asked for, so how the source is cut into chunks is not the program's choice: a run is
given by the answers of its calls, and the result about it is for all of them.

The destination is opened without `O_TRUNC`. The copy is written over what is there, from the
start, and what is there behind the end of the copy stays.

The two paths name different files. `none` is a run that does not exist: the answers are over
before the program is, or one of them is impossible.
-/

namespace CompTech.TestTask

/-- The size of the buffer. -/
def BUFF_SIZE : Nat := 4096

/-- A file open for writing: its content, and the offset of the descriptor. -/
structure Target where
  content : List UInt8
  offset : Nat

/-- `open (path, O_WRONLY | O_CREAT, mode)`: a file that is missing is made, one that is there
    is left as it is. -/
def openTarget (old : Option (List UInt8)) : Target := ⟨old.getD [], 0⟩

/-- A `write` that writes all of `bytes`. -/
def Target.write (f : Target) (bytes : List UInt8) : Target :=
  ⟨f.content.take f.offset ++ bytes ++ f.content.drop (f.offset + bytes.length),
    f.offset + bytes.length⟩

/-- What the calls of one round answer. -/
inductive Answer
  -- `read` gives -1
  | readError
  -- `read` gives `count`, and the `write` that follows gives `written`
  | chunk (count : Nat) (written : Int)
  deriving DecidableEq, Repr

/-- The loop and the test behind it. A `read` gives 0 at the end of the file and only there. -/
def copyLoop : List Answer → List UInt8 → Target → Option (Except String (List UInt8))
  | [], _, _ => none
  | .readError :: _, _, _ => some (.error "ERROR! Something wrong with read()\n")
  | .chunk 0 _ :: _, rest, f => if rest = [] then some (.ok f.content) else none
  | .chunk (n + 1) written :: answers, rest, f =>
    if min BUFF_SIZE rest.length < n + 1 then none
    else if written ≠ (n + 1 : Nat) then some (.error "ERROR! Something wrong with write()\n")
    else copyLoop answers (rest.drop (n + 1)) (f.write (rest.take (n + 1)))

/-- `opens` says which of the two `open`s succeed; `.ok` is the destination when `my_cp` returns.
    The texts are the code's own, which names the two files the other way round. -/
def myCp (opens : Bool × Bool) (answers : List Answer) (source : List UInt8)
    (old : Option (List UInt8)) : Option (Except String (List UInt8)) :=
  if opens.1 = false then some (.error "ERROR! open() out_file\n")
  else if opens.2 = false then some (.error "ERROR! open() in_file\n")
  else copyLoop answers source (openTarget old)

/-! ## What a run leaves -/

/-- Two writes one after the other are one. -/
theorem Target.write_write {f : Target} (h : f.offset ≤ f.content.length) (a b : List UInt8) :
    (f.write a).write b = f.write (a ++ b) := by
  have hlen : (f.content.take f.offset ++ a).length = f.offset + a.length := by
    rw [List.length_append, List.length_take_of_le h]
  have htake : ((f.write a).content).take (f.offset + a.length) = f.content.take f.offset ++ a := by
    rw [Target.write, ← hlen, List.take_left]
  have hdrop : ((f.write a).content).drop (f.offset + a.length + b.length) =
      f.content.drop (f.offset + (a.length + b.length)) := by
    rw [Target.write, ← List.drop_drop, ← hlen, List.drop_left, hlen, List.drop_drop, Nat.add_assoc]
  rw [Target.write.eq_def (f.write a), show (f.write a).offset = f.offset + a.length from rfl,
    htake, hdrop, Target.write, List.length_append, Nat.add_assoc]
  simp only [List.append_assoc]

theorem Target.write_offset_le {f : Target} (h : f.offset ≤ f.content.length) (a : List UInt8) :
    (f.write a).offset ≤ (f.write a).content.length := by
  simp only [Target.write, List.length_append, List.length_take_of_le h]
  omega

/-- A `read` that is not the last one. -/
theorem copyLoop_chunk {n : Nat} {written : Int} {answers : List Answer} {rest out : List UInt8}
    {f : Target} (h : copyLoop (.chunk (n + 1) written :: answers) rest f = some (.ok out)) :
    copyLoop answers (rest.drop (n + 1)) (f.write (rest.take (n + 1))) = some (.ok out) := by
  simp only [copyLoop] at h
  split at h
  · exact absurd h (by simp)
  split at h
  · exact absurd h (by simp)
  exact h

/-- The rest of the source is written at the offset of the target. Induction on the answers. -/
theorem copyLoop_ok : ∀ {answers : List Answer} {rest : List UInt8} {f : Target}
    {out : List UInt8}, f.offset ≤ f.content.length → copyLoop answers rest f = some (.ok out) →
      out = (f.write rest).content := by
  intro answers
  induction answers with
  | nil => intro rest f out _ h; exact absurd h (by simp [copyLoop])
  | cons answer answers ih =>
    intro rest f out hoff h
    match answer with
    | .readError => exact absurd h (by simp [copyLoop])
    | .chunk 0 _ =>
      simp only [copyLoop] at h
      split at h
      · rename_i hrest
        obtain rfl : f.content = out := by simpa using h
        simp [Target.write, hrest]
      · exact absurd h (by simp)
    | .chunk (n + 1) written =>
      have hout := ih (Target.write_offset_le hoff _) (copyLoop_chunk h)
      rwa [Target.write_write hoff, List.take_append_drop] at hout

/-- However the source is cut into chunks, there is a run. Induction on the chunks. -/
theorem copyLoop_returns : ∀ {sizes : List Nat} {rest : List UInt8} (f : Target),
    (∀ n ∈ sizes, 0 < n ∧ n ≤ BUFF_SIZE) → sizes.sum = rest.length →
      ∃ out, copyLoop (sizes.map (fun n => .chunk n n) ++ [.chunk 0 0]) rest f =
        some (.ok out) := by
  intro sizes
  induction sizes with
  | nil =>
    intro rest f _ hsum
    have hrest : rest = [] := List.length_eq_zero_iff.mp hsum.symm
    exact ⟨_, if_pos hrest⟩
  | cons n sizes ih =>
    intro rest f hsizes hsum
    obtain ⟨hpos, hle⟩ := hsizes n (List.mem_cons_self ..)
    obtain ⟨n, rfl⟩ := Nat.exists_eq_succ_of_ne_zero (Nat.ne_of_gt hpos)
    rw [List.sum_cons] at hsum
    obtain ⟨out, hout⟩ := @ih (rest.drop (n + 1)) (f.write (rest.take (n + 1)))
      (fun m hm => hsizes m (List.mem_cons_of_mem _ hm)) (by rw [List.length_drop]; omega)
    refine ⟨out, ?_⟩
    rw [List.map_cons, List.cons_append, copyLoop, if_neg (by omega), if_neg (by simp), hout]

theorem myCp_ok {opens : Bool × Bool} {answers : List Answer} {source out : List UInt8}
    {old : Option (List UInt8)} (h : myCp opens answers source old = some (.ok out)) :
    out = source ++ (old.getD []).drop source.length := by
  unfold myCp at h
  split at h
  · exact absurd h (by simp)
  split at h
  · exact absurd h (by simp)
  have hout := copyLoop_ok (Nat.zero_le _) h
  simpa [Target.write, openTarget] using hout

/-- **The copy is the source where the old file was not longer.** However the source is cut into
    chunks, the writes one after the other are one write from the start of the destination
    (`Target.write_write`). -/
theorem myCp_copies_iff {opens : Bool × Bool} {answers : List Answer} {source out : List UInt8}
    {old : Option (List UInt8)} (h : myCp opens answers source old = some (.ok out)) :
    out = source ↔ ∀ content ∈ old, content.length ≤ source.length := by
  rw [myCp_ok h, List.append_right_eq_self, List.drop_eq_nil_iff]
  cases old with
  | none => simp
  | some content => simp

/-- A source of two bytes, read one by one, over an old file of one byte. -/
theorem myCp_copies_shorter :
    ([1, 2] : List UInt8) = [1, 2] ↔ ∀ content ∈ some [(7 : UInt8)], content.length ≤ 2 := by
  have hrun : myCp (true, true) [.chunk 1 1, .chunk 1 1, .chunk 0 0] [1, 2] (some [7]) =
      some (.ok [1, 2]) := by decide
  exact myCp_copies_iff hrun

/-- The end of a longer old file stays. -/
theorem myCp_leaves_tail :
    ∃ out, myCp (true, true) [.chunk 1 1, .chunk 0 0] [1] (some [7, 8]) = some (.ok out) ∧
      out ≠ [1] :=
  ⟨[1, 8], by decide, by decide⟩

end CompTech.TestTask
