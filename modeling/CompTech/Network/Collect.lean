import CompTech.Lib.Tables
import CompTech.Network.Conversation

/-!
# What `get_result` collects

`AtPc` says what `get_result` has made of the conversations between its handlers and the workers:
the joining loop has added the parts of the tasks before the `j`-th, in their order, and it leaves
with an error exactly at the first part that is missing.

Runs are bounded. With `Collects.goesOn` this means that every run that is continued as long as
possible comes to the return of `get_result`.

One step is analysed party by party: `get_result` (`CollectInv.main`, over the moves of
`getResult_cases`), a handler (`CollectInv.handles`), a cancellation, a worker, a lost connection.
Each keeps the invariant and lowers `GetResultState.measure`, so the step lemma gives safety and the
bound on the length of a run together.
-/

namespace CompTech.Network

variable {V : Type} {integrate : WorkerInfo → V} {w : GetResultCalls} {tasks : TasksForWorkers}

/-! ## The invariant

`AtPc` has a case for each place of `get_result`, and `talks` does not depend on it.

Nothing is said of how the steps of the parties follow each other. The conversations are
independent, and `get_result` looks at a handler only when it has ended. -/

/-- What `get_result` has made of its handlers, where it is. -/
def GetResultState.AtPc [Zero V] [Add V] (integrate : WorkerInfo → V) (tasks : TasksForWorkers)
    (s : GetResultState V) : Prop :=
  match s.pc with
  | .creating i => i ≤ tasks.task.length ∧ s.threads.length = i ∧
      (∀ h ∈ s.threads, h.Untouched) ∧ s.result = 0 ∧ s.error = .success ∧ s.res = none
  | .joining j => j ≤ tasks.task.length ∧ s.threads.length = tasks.task.length ∧
      (∀ k h, s.threads[k]? = some h → k < j → ∃ v, h = .joined (some v)) ∧
      (∀ k h, s.threads[k]? = some h → j ≤ k → h.Untouched) ∧
      s.result = totalOf integrate (tasks.task.take j) ∧ s.error = .success ∧ s.res = none
  | .cancelling _ => (∃ h ∈ s.threads, h.Failed) ∧ s.error = .eThread ∧ s.res = none
  | .returned =>
      (∀ h ∈ s.threads, ∃ v, h = .joined (some v)) ∧ s.error = .success ∧
        s.res = some (totalOf integrate tasks.task) ∨
      (∃ h ∈ s.threads, h.Failed) ∧ s.error = .eThread ∧ s.res = none ∨
      s.threads = [] ∧ s.res = none
  | .dead => False

/-- The invariant of a run without `SIGPIPE`. -/
structure CollectInv [Zero V] [Add V] (integrate : WorkerInfo → V) (tasks : TasksForWorkers)
    (s : GetResultState V) : Prop where
  /-- there is a thread for each task at most -/
  count : s.threads.length ≤ tasks.task.length
  /-- every conversation has got as far as its two sides say -/
  talks : AllTalk integrate tasks s.threads s.links
  /-- and `get_result` has made of them what it should -/
  atPc : s.AtPc integrate tasks

/-! ## Steps of the machine

The cases of `AtPc` change with the steps of `get_result` only. A step of a handler is no case of
its own: `get_result` has not joined it yet, so all that its clause says is that it is untouched, if
it has not been cancelled, and that remains true. -/

section Steps

variable [Zero V] [Add V] {s t : GetResultState V}

/-- A running handler goes on: `get_result` has not joined it, and it does not look. -/
theorem GetResultState.AtPc.handler {i : Nat} {pc : HandlerPc} {c : Bool} {h : Handler V}
    {links : Fd → Link V} (hs : s.AtPc integrate tasks)
    (hi : s.threads[i]? = some (.running pc c)) (hh : c = false → h.Untouched) :
    GetResultState.AtPc integrate tasks
      { s with threads := s.threads.set i h, links := links } := by
  have hmem : Handler.running pc c ∈ s.threads := List.mem_of_getElem? hi
  have hin : i < s.threads.length := (List.getElem?_eq_some_iff.mp hi).1
  have huntouched : (Handler.running pc c : Handler V).Untouched → h.Untouched := by
    intro hu
    cases c
    · exact hh rfl
    · exact hu.elim
  have hfailed : (∃ h ∈ s.threads, h.Failed) → ∃ h' ∈ s.threads.set i h, h'.Failed := by
    rintro ⟨h', hmem', hf⟩
    refine ⟨h', Lib.mem_set_of_ne hi hmem' ?_, hf⟩
    rintro rfl
    rcases hf with hf | hf <;> cases hf
  unfold GetResultState.AtPc at hs ⊢
  dsimp only
  cases hpc : s.pc with
  | creating k =>
    rw [hpc] at hs
    obtain ⟨hk, hlen, hall, hrest⟩ := hs
    refine ⟨hk, by rw [List.length_set]; exact hlen, fun h' hmem' => ?_, hrest⟩
    rcases List.mem_or_eq_of_mem_set hmem' with hold | rfl
    · exact hall h' hold
    · exact huntouched (hall _ hmem)
  | joining j =>
    rw [hpc] at hs
    obtain ⟨hj, hlen, hjoined, hall, hrest⟩ := hs
    -- the threads before `j` are joined, so a running one is behind them
    have hle : j ≤ i := by
      by_contra hlt
      obtain ⟨v, hv⟩ := hjoined i _ hi (Nat.lt_of_not_le hlt)
      cases hv
    refine ⟨hj, by rw [List.length_set]; exact hlen, fun k h' hk hkj => ?_, fun k h' hk hjk => ?_,
      hrest⟩
    · rw [List.getElem?_set_ne (by omega)] at hk
      exact hjoined k h' hk hkj
    · by_cases hik : i = k
      · subst hik
        rw [List.getElem?_set_self hin] at hk
        obtain rfl := Option.some.inj hk
        exact huntouched (hall i _ hi hle)
      · rw [List.getElem?_set_ne hik] at hk
        exact hall k h' hk hjk
  | cancelling j =>
    rw [hpc] at hs
    exact ⟨hfailed hs.1, hs.2⟩
  | returned =>
    rw [hpc] at hs
    rcases hs with ⟨hall, -⟩ | ⟨hf, hrest⟩ | ⟨hnil, -⟩
    · obtain ⟨v, hv⟩ := hall _ hmem
      cases hv
    · exact .inr (.inl ⟨hfailed hf, hrest⟩)
    · rw [hnil] at hmem
      cases hmem
  | dead =>
    rw [hpc] at hs
    exact hs.elim

theorem totalOf_take_succ {j : Nat} {u : HandlerInfo} (hu : tasks.task[j]? = some u) :
    totalOf integrate (tasks.task.take (j + 1)) =
      totalOf integrate (tasks.task.take j) + integrate u.wInfo := by
  rw [List.take_add_one, hu, totalOf, totalOf, List.map_append, List.foldl_append]
  rfl

/-- A thread that has ended is joined: its part is added, or `get_result` leaves. -/
theorem CollectInv.join {j : Nat} {r : Option V} (hs : CollectInv integrate tasks s)
    (hj : s.threads[j]? = some (.ended r)) :
    AllTalk integrate tasks (s.threads.set j (.joined r)) s.links := by
  refine hs.talks.set hj fun info sent received hstage => ?_
  cases r with
  | none => exact hstage
  | some v => exact hstage

/-- The creating loop. -/
theorem CollectInv.creates {i : Nat} (hs : CollectInv integrate tasks s)
    (hpc : s.pc = .creating i) (hlt : i < tasks.task.length) :
    CollectInv integrate tasks { s with
      pc := .creating (i + 1), threads := s.threads ++ [.running .malloc false] } := by
  have hatPc := hs.atPc
  unfold GetResultState.AtPc at hatPc
  rw [hpc] at hatPc
  obtain ⟨-, hlen, hall, hrest⟩ := hatPc
  refine ⟨?_, hs.talks.push, hlt, ?_, ?_, hrest⟩
  · rw [List.length_append, List.length_singleton, hlen]
    exact hlt
  · rw [List.length_append, List.length_singleton, hlen]
  · intro h hmem
    rcases List.mem_append.mp hmem with hold | hnew
    · exact hall h hold
    · rw [List.mem_singleton.mp hnew]
      trivial

/-- A thread that has ended with a part is joined, and the part is added. -/
theorem CollectInv.joins {j : Nat} {part : V} (hs : CollectInv integrate tasks s)
    (hpc : s.pc = .joining j) (hlt : j < tasks.task.length)
    (hended : s.threads[j]? = some (.ended (some part))) :
    CollectInv integrate tasks { s with
      pc := .joining (j + 1), threads := s.threads.set j (.joined (some part)),
      result := s.result + part } := by
  have hatPc := hs.atPc
  unfold GetResultState.AtPc at hatPc
  rw [hpc] at hatPc
  obtain ⟨-, hlen, hjoined, hall, hresult, herror, hres⟩ := hatPc
  have hpart : part = integrate tasks.task[j].wInfo :=
    (hs.talks j _ (List.getElem?_eq_getElem hlt)).part (.inl hended)
  refine ⟨(List.length_set ..).trans_le hs.count, hs.join hended, hlt,
    (List.length_set ..).trans hlen, ?_, ?_, ?_, herror, hres⟩
  · intro k h hk hkj
    by_cases hjk : j = k
    · subst hjk
      have hself := List.getElem?_set_self (a := Handler.joined (some part))
        (List.getElem?_eq_some_iff.mp hended).1
      exact ⟨part, Option.some.inj (hk.symm.trans hself)⟩
    · exact hjoined k h ((List.getElem?_set_ne hjk).symm.trans hk) (by omega)
  · intro k h hk hjk
    exact hall k h ((List.getElem?_set_ne (by omega)).symm.trans hk) (by omega)
  · rw [totalOf_take_succ (List.getElem?_eq_getElem hlt), ← hpart, ← hresult]

/-- The next step of `get_result`. -/
theorem CollectInv.main (hs : CollectInv integrate tasks s)
    (ht : GetResultMoves tasks.task.length s t) : CollectInv integrate tasks t := by
  have hatPc := hs.atPc
  unfold GetResultState.AtPc at hatPc
  cases ht with
  | create i hpc hlt => exact hs.creates hpc hlt
  | created i hpc hge =>
    rw [hpc] at hatPc
    obtain ⟨hi, hlen, hall, hrest⟩ := hatPc
    exact ⟨hs.count, hs.talks, Nat.zero_le _, hlen.trans (Nat.le_antisymm hi hge),
      fun k h _ hk => absurd hk (Nat.not_lt_zero k),
      fun k h hk _ => hall h (List.mem_of_getElem? hk), hrest.1, hrest.2⟩
  | join j part hpc hlt hended => exact hs.joins hpc hlt hended
  | miss j hpc hlt hended =>
    -- the one way to the error exit leaves a failed thread behind
    rw [hpc] at hatPc
    have hin := (List.getElem?_eq_some_iff.mp hended).1
    exact ⟨(List.length_set ..).trans_le hs.count, hs.join hended,
      ⟨.joined none, List.mem_of_getElem? (List.getElem?_set_self hin), .inr rfl⟩, rfl,
      hatPc.2.2.2.2.2.2⟩
  | write j hpc hge =>
    -- the last thread is joined
    rw [hpc] at hatPc
    obtain ⟨hj, hlen, hjoined, -, hresult, herror, -⟩ := hatPc
    refine ⟨hs.count, hs.talks, .inl ⟨fun h hmem => ?_, herror, ?_⟩⟩
    · obtain ⟨k, hk⟩ := List.mem_iff_getElem?.mp hmem
      have hin : k < s.threads.length := (List.getElem?_eq_some_iff.mp hk).1
      exact hjoined k h hk (by omega)
    · show some s.result = _
      rw [hresult, List.take_of_length_le hge]
  | cancel j pc c hpc hrun =>
    rw [hpc] at hatPc
    obtain ⟨⟨h, hmem, hf⟩, hrest⟩ := hatPc
    refine ⟨(List.length_set ..).trans_le hs.count, hs.talks.set hrun fun _ _ _ hstage => ?_,
      ⟨h, Lib.mem_set_of_ne hrun hmem ?_, hf⟩, hrest⟩
    · cases pc <;> exact hstage
    · rintro rfl
      rcases hf with hf | hf <;> cases hf
  | pass j hpc hlt =>
    rw [hpc] at hatPc
    exact ⟨hs.count, hs.talks, hatPc⟩
  | leave j hpc =>
    rw [hpc] at hatPc
    exact ⟨hs.count, hs.talks, .inr (.inl hatPc)⟩

/-- A handler makes one of its calls. Nothing is said of running handlers but that they are
    untouched. -/
theorem CollectInv.handles {i : Nat} {pc : HandlerPc} {c : Bool} {u : HandlerInfo} {a : Answer}
    (hc : Collectable w tasks) (hs : CollectInv integrate tasks s) (ha : a ≠ .sigpipe)
    (hrun : s.threads[i]? = some (.running pc c)) (hu : tasks.task[i]? = some u)
    (ht : workHandler u s i pc c a = some t) :
    CollectInv integrate tasks t ∧ t.measure tasks < s.measure tasks := by
  have htalk := hs.talks i u hu
  rw [hrun] at htalk
  obtain ⟨h, l, rfl, hmoves⟩ :=
    workHandler_cases (hc.socket u (List.mem_of_getElem? hu)) ha htalk ht
  refine ⟨⟨(List.length_set ..).trans_le hs.count,
    hs.talks.handler hc.apart hrun hu hmoves.talks, hs.atPc.handler hrun hmoves.untouched⟩, ?_⟩
  have hlt := threadsLeft_set_lt hrun (List.getElem?_eq_some_iff.mp hu).1 hmoves.left
  have hlinks : linksLeft tasks _ = linksLeft tasks s.links := linksLeft_eq hmoves.link
  unfold GetResultState.measure GetResultState.setThread GetResultState.setLink
  dsimp only
  omega

/-- The cancellation of a handler takes effect. -/
theorem CollectInv.cancels {i : Nat} (hs : CollectInv integrate tasks s)
    (ht : cancelHandler s i = some t) :
    CollectInv integrate tasks t ∧ t.measure tasks < s.measure tasks := by
  unfold cancelHandler at ht
  split at ht
  · cases ht
  · rename_i pc hpc hrun
    cases ht
    have hin := (List.getElem?_eq_some_iff.mp hrun).1
    refine ⟨⟨(List.length_set ..).trans_le hs.count, hs.talks.set hrun fun info _ _ hstage => ?_,
      hs.atPc.handler hrun fun h => by cases h⟩, ?_⟩
    · cases pc with
      | malloc => exact absurd rfl hpc
      | send => exact ⟨.inl hstage.1, hstage.2⟩
      | select | recv => exact ⟨.inr hstage.1, hstage.2⟩
    · have hleft : Handler.left (some (.cancelled : Handler V)) <
          Handler.left (some (.running pc true : Handler V)) := by
        cases pc <;> exact Nat.succ_pos _
      have hlt := threadsLeft_set_lt hrun (Nat.lt_of_lt_of_le hin hs.count) hleft
      unfold GetResultState.measure GetResultState.setThread
      dsimp only
      omega
  · cases ht

/-- A connection changes, and not at the end of the server. -/
theorem CollectInv.setLink {fd : Fd} {l : Link V} (hs : CollectInv integrate tasks s)
    (hfd : fd ∈ tasks.task.map (·.socket))
    (hw : WorkerStage integrate l.worker l.down.received l.up.sent)
    (hsent : l.down.sent = (s.links fd).down.sent)
    (hup : l.up.received = (s.links fd).up.received) (hlt : l.left < (s.links fd).left) :
    CollectInv integrate tasks (s.setLink fd l) ∧
      (s.setLink fd l).measure tasks < s.measure tasks :=
  ⟨⟨hs.count, hs.talks.link hw hsent hup, hs.atPc⟩, Nat.add_lt_add_left (linksLeft_lt hfd hlt) _⟩

/-- The worker's side of a connection. -/
theorem CollectInv.worker_stage {fd : Fd} (hs : CollectInv integrate tasks s)
    (hfd : fd ∈ tasks.task.map (·.socket)) :
    WorkerStage integrate (s.links fd).worker (s.links fd).down.received (s.links fd).up.sent := by
  obtain ⟨u, hu, rfl⟩ := List.mem_map.mp hfd
  obtain ⟨n, hn⟩ := List.mem_iff_getElem?.mp hu
  exact (hs.talks n u hn).worker

/-- **One step.** A step that does not end the server keeps the invariant and leaves less to do. -/
theorem CollectInv.step {e : GetResultAct} (hc : Collectable w tasks)
    (hs : CollectInv integrate tasks s) (he : e.Harmless)
    (ht : getResultStep integrate w tasks s e = some t) :
    CollectInv integrate tasks t ∧ t.measure tasks < s.measure tasks := by
  unfold getResultStep at ht
  split at ht
  -- `get_result` itself
  · obtain rfl : _ = true := he
    have hmoves := getResult_cases hc ht
    exact ⟨hs.main hmoves, hmoves.left hs.count⟩
  · split at ht
    · cases ht
    split at ht
    · rename_i hrun hu
      exact hs.handles hc he hrun hu ht
    · cases ht
  · split at ht
    · cases ht
    · exact hs.cancels ht
  · split at ht
    · rename_i hfd
      -- a worker
      obtain ⟨l, hl, rfl⟩ := Option.map_eq_some_iff.mp ht
      obtain ⟨hw, hsent, hup, -⟩ := doComputation_stage (hs.worker_stage hfd) hl
      exact hs.setLink hfd hw hsent hup (doComputation_left hl)
    · cases ht
  · rename_i fd
    split at ht
    · rename_i hfd
      cases ht
      -- a connection that fails: neither side has put in or taken anything
      refine hs.setLink hfd.1 (hs.worker_stage hfd.1) rfl rfl ?_
      unfold Link.left
      rw [hfd.2]
      exact Nat.lt_succ_self _
    · cases ht

/-! ## Somebody can go on

A handler waits in `select` or `recv` only if its worker has still something to do; `get_result`
waits only for a handler that runs. -/

/-- A handler that runs can go on, or its worker can. -/
theorem goesOn_of_running {i : Nat} {pc : HandlerPc} {c : Bool} (hc : Collectable w tasks)
    (hs : CollectInv integrate tasks s) (hdead : s.pc ≠ .dead)
    (hrun : s.threads[i]? = some (.running pc c)) :
    ∃ e t, e.Harmless ∧ s.Regular tasks e ∧ getResultStep integrate w tasks s e = some t := by
  have hin := (List.getElem?_eq_some_iff.mp hrun).1
  obtain ⟨u, hu⟩ : ∃ u, tasks.task[i]? = some u :=
    ⟨_, List.getElem?_eq_getElem (Nat.lt_of_lt_of_le hin hs.count)⟩
  have hmem := List.mem_of_getElem? hu
  have hfd := hc.socket u hmem
  obtain ⟨hw, hh⟩ := hs.talks i u hu
  rw [hrun] at hh
  have hstep : ∀ a, a ≠ .sigpipe → (a = .ok ∨ (s.links u.socket).gone = true) →
      (workHandler u s i pc c a).isSome → ∃ e t, e.Harmless ∧ s.Regular tasks e ∧
        getResultStep integrate w tasks s e = some t := by
    intro a ha hreg hsome
    obtain ⟨t, ht⟩ := Option.isSome_iff_exists.mp hsome
    refine ⟨.handler i a, t, ha, hreg.imp_right fun hgone => ⟨u, hu, hgone⟩, ?_⟩
    simp only [getResultStep, if_neg hdead, hrun, hu]
    exact ht
  have hworker : (s.links u.socket).down.sent = [(i, u.wInfo)] →
      (s.links u.socket).up.received = [] → (s.links u.socket).ready = false →
      ∃ e t, e.Harmless ∧ s.Regular tasks e ∧ getResultStep integrate w tasks s e = some t := by
    intro hsent hup hready
    obtain ⟨l, hl⟩ := doComputation_goes hw hsent hup hready
    refine ⟨.worker u.socket true, s.setLink u.socket l, trivial, rfl, ?_⟩
    simp only [getResultStep, if_pos (List.mem_map_of_mem (f := HandlerInfo.socket) hmem), hl]
    rfl
  cases pc with
  | malloc => exact hstep .ok (by decide) (.inl rfl) rfl
  | send =>
    by_cases hbroken : (s.links u.socket).broken = true
    · exact hstep .fails (by decide) (.inr (by simp [Link.gone, hbroken])) rfl
    · exact hstep .ok (by decide) (.inl rfl) (by simp [workHandler, hbroken])
  | select =>
    -- `select` waits only where the worker has something to do
    cases hready : (s.links u.socket).ready with
    | false => exact hworker hh.1 hh.2 hready
    | true =>
      refine hstep .ok (by decide) (.inl rfl) ?_
      simp only [workHandler]
      rw [if_neg (by omega), if_pos hready]
      rfl
  | recv =>
    cases hpop : (s.links u.socket).up.pop with
    | some p =>
      obtain ⟨r, up⟩ := p
      obtain ⟨hsent, hreceived⟩ := Lib.Channel.pop_cases hpop
      obtain ⟨rest, hrest⟩ := up.ordered
      rw [hsent, hreceived, hh.2] at hrest
      -- the ping comes second: what is received is a `double`
      obtain rfl := Talks.head ⟨hw, hh⟩ hrest.symm
      exact hstep .ok (by decide) (.inl rfl) (by simp [workHandler, hpop])
    | none =>
      cases hgone : (s.links u.socket).gone with
      | true => exact hstep .fails (by decide) (.inr hgone) rfl
      | false => exact hworker hh.1 hh.2 (by simp [Link.ready, hgone, hpop])

/-- There is always a step, without a further failure: of `get_result`, of the handler it waits for,
    or of the worker that one waits for. -/
theorem goesOn_of_inv (hc : Collectable w tasks) (hs : CollectInv integrate tasks s)
    (hpc : s.pc ≠ .returned) :
    ∃ e t, e.Harmless ∧ s.Regular tasks e ∧ getResultStep integrate w tasks s e = some t := by
  have hmain : ∀ t, getResult w tasks s true = some t →
      ∃ e t, e.Harmless ∧ s.Regular tasks e ∧ getResultStep integrate w tasks s e = some t :=
    fun t ht => ⟨.main true, t, rfl, trivial, ht⟩
  have hatPc := hs.atPc
  unfold GetResultState.AtPc at hatPc
  have hcount := hc.count
  cases hspc : s.pc with
  | creating i =>
    by_cases hlt : (i : Int) < tasks.size.toInt
    · exact hmain _ (by simp only [getResult, hspc, if_pos hlt, hc.create i]; rfl)
    · exact hmain _ (by simp only [getResult, hspc, if_neg hlt]; rfl)
  | joining j =>
    rw [hspc] at hatPc
    obtain ⟨hj, hlen, -, hall, -⟩ := hatPc
    by_cases hlt : (j : Int) < tasks.size.toInt
    · have hget := List.getElem?_eq_getElem (show j < s.threads.length by omega)
      -- the `j`-th thread runs or has ended: nothing is cancelled before the error exit
      have huntouched := hall j _ hget (Nat.le_refl j)
      cases hthread : s.threads[j] with
      | running pc c =>
        exact goesOn_of_running hc hs (by rw [hspc]; exact GetResultPc.noConfusion)
          (hget.trans (congrArg some hthread))
      | ended r =>
        rw [hthread] at hget
        cases r with
        | none => exact hmain _ (by simp only [getResult, hspc, if_pos hlt, hc.join j, hget]; rfl)
        | some v =>
          exact hmain _ (by simp only [getResult, hspc, if_pos hlt, hc.join j, hget]; rfl)
      | joined r | cancelled =>
        rw [hthread] at huntouched
        exact huntouched.elim
    · exact hmain _ (by simp only [getResult, hspc, if_neg hlt]; rfl)
  | cancelling j =>
    obtain ⟨t, ht⟩ : ∃ t, getResult w tasks s true = some t := by
      unfold getResult
      rw [hspc]
      dsimp only
      split <;> exact ⟨_, rfl⟩
    exact hmain t ht
  | returned => exact absurd hspc hpc
  | dead =>
    rw [hspc] at hatPc
    exact hatPc.elim

/-! ## Runs

The bound and the invariant along a run, and what the invariant says at the return: the three
alternatives of `AtPc` are the success, a failed part, and an exit in front of the first thread. -/

theorem CollectInv.start : CollectInv integrate tasks (getResultStart w) := by
  refine ⟨Nat.zero_le _, fun n t ht => .new, ?_⟩
  unfold getResultStart GetResultState.AtPc
  cases w.calloc
  · exact .inr (.inr ⟨rfl, rfl⟩)
  · exact ⟨Nat.zero_le _, rfl, fun h hmem => (List.not_mem_nil hmem).elim, rfl, rfl, rfl⟩

/-- Induction on the run; the bound is what the measure is at the start. -/
theorem CollectInv.run {es : List GetResultAct} (hc : Collectable w tasks)
    (hr : GetResultRun integrate w tasks (getResultStart w) es s) :
    CollectInv integrate tasks s ∧ es.length ≤ 12 * tasks.task.length + 3 := by
  have hstep : ∀ (t : GetResultState V) (e : GetResultAct) (u : GetResultState V),
      CollectInv integrate tasks t → e.Harmless → getResultStep integrate w tasks t e = some u →
      CollectInv integrate tasks u ∧ u.measure tasks < t.measure tasks :=
    fun _ _ _ hi he hst => hi.step hc he hst
  exact ⟨hr.invariant .start fun t e u hi he hst => (hstep t e u hi he hst).1,
    (hr.length_le .start hstep).trans measure_start⟩

/-- A worker replies to a handler that has sent it a task. -/
theorem Link.Replied.thread {n : Nat} {u : HandlerInfo} (hs : CollectInv integrate tasks s)
    (hu : tasks.task[n]? = some u) (hr : (s.links u.socket).Replied) : s.threads ≠ [] := by
  intro hnil
  obtain ⟨v, hv⟩ := hr
  have htalk := hs.talks n u hu
  rw [hnil] at htalk
  have hsent : (s.links u.socket).down.received = [] :=
    List.prefix_nil.mp (htalk.handler.1 ▸ (s.links u.socket).down.ordered)
  obtain ⟨r, rest, hrest⟩ := List.exists_cons_of_ne_nil (List.ne_nil_of_mem hv)
  obtain ⟨x, hx, -⟩ := htalk.worker.head hrest
  rw [hsent] at hx
  cases hx

/-- Where a handler has failed, nothing is stored. -/
theorem CollectInv.failure (hs : CollectInv integrate tasks s) (hf : ∃ h ∈ s.threads, h.Failed) :
    s.res = none ∧ (s.pc = .returned → s.error = .eThread) := by
  have hatPc := hs.atPc
  unfold GetResultState.AtPc at hatPc
  cases hpc : s.pc with
  | creating i =>
    rw [hpc] at hatPc
    exact ⟨hatPc.2.2.2.2.2, fun h => by cases h⟩
  | joining j =>
    rw [hpc] at hatPc
    exact ⟨hatPc.2.2.2.2.2.2, fun h => by cases h⟩
  | cancelling j =>
    rw [hpc] at hatPc
    exact ⟨hatPc.2.2, fun h => by cases h⟩
  | returned =>
    rw [hpc] at hatPc
    obtain ⟨h, hmem, hf⟩ := hf
    rcases hatPc with ⟨hall, -⟩ | ⟨-, herror, hres⟩ | ⟨hnil, -⟩
    · obtain ⟨v, rfl⟩ := hall h hmem
      rcases hf with hf | hf <;> cases hf
    · exact ⟨hres, fun _ => herror⟩
    · rw [hnil] at hmem
      cases hmem
  | dead =>
    rw [hpc] at hatPc
    exact hatPc.elim

/-- When all have replied and nobody has failed, the first alternative of `AtPc` is the only one
    left. -/
theorem CollectInv.success (hc : Collectable w tasks) (hs : CollectInv integrate tasks s)
    (hpc : s.pc = .returned) (hreplied : ∀ t ∈ tasks.task, (s.links t.socket).Replied)
    (hfailed : ∀ h ∈ s.threads, ¬h.Failed) :
    s.error = .success ∧ s.res = some (totalOf integrate tasks.task) := by
  have hatPc := hs.atPc
  unfold GetResultState.AtPc at hatPc
  rw [hpc] at hatPc
  rcases hatPc with ⟨-, hsuccess⟩ | ⟨⟨h, hmem, hf⟩, -⟩ | ⟨hnil, -⟩
  · exact hsuccess
  · exact absurd hf (hfailed h hmem)
  · have hthreads := (hreplied _ (List.getElem_mem hc.nonempty)).thread hs
      (List.getElem?_eq_getElem hc.nonempty)
    exact absurd hnil hthreads

/-- The invariant gives all that is asked. -/
theorem CollectInv.collects (hc : Collectable w tasks) (hs : CollectInv integrate tasks s) :
    Collects integrate w tasks s := by
  have hreceived : ∀ u ∈ tasks.task, ∃ n, tasks.task[n]? = some u ∧
      ((s.links u.socket).down.received = [] ∨
        (s.links u.socket).down.received = [(n, u.wInfo)]) := by
    intro u hmem
    obtain ⟨n, hu⟩ := List.mem_iff_getElem?.mp hmem
    exact ⟨n, hu, (hs.talks n u hu).received⟩
  refine ⟨fun hdead => ?_, fun u hmem => ?_, fun u hmem u' hmem' x hx y hy heq => ?_,
    hs.success hc, hs.failure, goesOn_of_inv hc hs⟩
  · have hatPc := hs.atPc
    unfold GetResultState.AtPc at hatPc
    rw [hdead] at hatPc
    exact hatPc
  · obtain ⟨n, -, hnil | hone⟩ := hreceived u hmem
    · rw [hnil]
      exact Nat.zero_le 1
    · rw [hone]
      exact Nat.le_refl 1
  · obtain ⟨n, hu, hnil | hone⟩ := hreceived u hmem
    · rw [hnil] at hx
      cases hx
    obtain ⟨n', hu', hnil | hone'⟩ := hreceived u' hmem'
    · rw [hnil] at hy
      cases hy
    rw [hone] at hx
    rw [hone'] at hy
    obtain rfl := List.mem_singleton.mp hx
    obtain rfl := List.mem_singleton.mp hy
    obtain rfl : n = n' := heq
    rw [Option.some.inj (hu.symm.trans hu')]

/-- What `get_tcp_connections` makes is what `get_result` can collect from. Different clients have
    different descriptors, so no two conversations share a connection. -/
theorem collectable_of_connects {o : Outcomes} (ht : tasks.Ready) (hk : o.Kernel)
    (hc : o.Connects tasks.task.length)
    (hfd : ∀ k < tasks.task.length, (o.accept k).toInt < FD_SETSIZE)
    (hcreate : ∀ i, w.create i = true) (hjoin : ∀ j, w.join j = true) :
    Collectable w
      { tasks with task := connected o.accept 0 tasks.task.length tasks.task } := by
  have hlen : (connected o.accept 0 tasks.task.length tasks.task).length = tasks.task.length :=
    List.length_mapIdx ..
  have hsocket : ∀ i u, (connected o.accept 0 tasks.task.length tasks.task)[i]? = some u →
      i < tasks.task.length ∧ u.socket = o.accept i := by
    intro i u hu
    have hi : i < tasks.task.length := hlen ▸ (List.getElem?_eq_some_iff.mp hu).1
    refine ⟨hi, ?_⟩
    rw [connected, List.getElem?_mapIdx, Option.map_eq_some_iff] at hu
    obtain ⟨u', -, rfl⟩ := hu
    rw [if_pos ⟨Nat.zero_le i, by omega⟩]
  refine ⟨?_, ?_, ?_, ?_, hcreate, hjoin⟩
  · show tasks.size.toInt = _
    rw [hlen]
    exact ht.count
  · show 0 < (connected o.accept 0 tasks.task.length tasks.task).length
    rw [hlen]
    exact ht.some
  · intro i j u u' hu hu' heq
    obtain ⟨hi, hui⟩ := hsocket i u hu
    obtain ⟨-, huj⟩ := hsocket j u' hu'
    exact hk.distinct i j (hc.accept i hi) (by rw [← hui, ← huj, heq])
  · intro u hu
    obtain ⟨i, hui⟩ := List.mem_iff_getElem?.mp hu
    obtain ⟨hi, heq⟩ := hsocket i u hui
    rw [heq]
    exact ⟨hc.accept i hi, hfd i hi⟩

/-- **The distributed sum.** Once `get_tcp_connections` has connected the workers, in whatever order
    they come, every run of `get_result`, its handlers and the workers in which no step ends the
    server is bounded; no task is received twice, and `get_result` collects the sum or returns
    `E_THREAD`. The bound counts calls: a handler has four, a worker four and one failure of its
    connection, and `get_result` goes over its threads at most three times. -/
theorem collects_run (integrate : WorkerInfo → V) {o : Outcomes} (ht : tasks.Ready)
    (hk : o.Kernel) (hc : o.Connects tasks.task.length)
    (hfd : ∀ k < tasks.task.length, (o.accept k).toInt < FD_SETSIZE)
    (hcreate : ∀ i, w.create i = true) (hjoin : ∀ j, w.join j = true) :
    ∃ tasks' log, getTcpConnections o tasks = some (.success, tasks', log) ∧
      ∀ es s, GetResultRun integrate w tasks' (getResultStart w) es s →
        es.length ≤ 12 * tasks.task.length + 3 ∧ Collects integrate w tasks' s := by
  refine ⟨_, _, getTcpConnections_success ht hc, fun es s hr => ?_⟩
  have hcol := collectable_of_connects ht hk hc hfd hcreate hjoin
  have hlen : (connected o.accept 0 tasks.task.length tasks.task).length = tasks.task.length :=
    List.length_mapIdx ..
  obtain ⟨hinv, hbound⟩ := CollectInv.run hcol hr
  exact ⟨hlen ▸ hbound, hinv.collects hcol⟩

end Steps

/-- One task of three threads; the server's socket is 4 and the worker's is 5. -/
def oneTask : TasksForWorkers := ⟨[⟨⟨0, 300, 3⟩, 0⟩], 1⟩

/-- One worker, at descriptor 5. -/
def oneWorker : Outcomes := ⟨4, true, 9, true, fun k => if k = 0 then 5 else -1, true, 1, [0]⟩

/-- Its task, connected. -/
def oneConnected : TasksForWorkers := ⟨[⟨⟨0, 300, 3⟩, 5⟩], 1⟩

/-- No call of `get_result` fails. -/
def noFailure : GetResultCalls := ⟨true, fun _ => true, fun _ => true⟩

theorem oneTask_ready : oneTask.Ready := ⟨by decide, by decide, by simp [oneTask]⟩

theorem oneWorker_kernel : oneWorker.Kernel := by
  refine ⟨by decide, fun k => ?_, fun k => ?_, fun i j => ?_⟩
  · rcases k with _ | k <;> simp [oneWorker]
  · rcases k with _ | k <;> simp [oneWorker]
  · rcases i with _ | i <;> rcases j with _ | j <;> simp [oneWorker]

theorem oneWorker_accept {k : Nat} (hk : k < oneTask.task.length) : oneWorker.accept k = 5 := by
  obtain rfl : k = 0 := Nat.lt_one_iff.mp hk
  rfl

theorem oneWorker_connects : oneWorker.Connects oneTask.task.length :=
  ⟨by decide, rfl, rfl, fun k hk => by rw [oneWorker_accept hk]; decide⟩

theorem oneWorker_connected {tasks : TasksForWorkers} {log : Log}
    (h : getTcpConnections oneWorker oneTask = some (.success, tasks, log)) :
    tasks = oneConnected := by
  have hconnected : getTcpConnections oneWorker oneTask =
      some (.success, oneConnected, ⟨[4], [5], [4], []⟩) := by decide
  rw [hconnected, Option.some.injEq, Prod.mk.injEq, Prod.mk.injEq] at h
  exact h.2.1.symm

/-- The task goes to the worker and the result comes back. -/
def wholeRun : List GetResultAct :=
  [.main true, .main true, .handler 0 .ok, .handler 0 .ok, .worker 5 true, .worker 5 true,
    .worker 5 true, .handler 0 .ok, .handler 0 .ok, .main true, .main true]

/-- One task, to the end of `get_result`: the sum is there, and so is what the theorem says. -/
theorem collects_run_whole : ∃ s,
    GetResultRun (fun x => x.nThreads.toNat) noFailure oneConnected (getResultStart noFailure)
      wholeRun s ∧ s.pc = .returned ∧ s.res = some 3 ∧
      Collects (fun x => x.nThreads.toNat) noFailure oneConnected s := by
  obtain ⟨tasks, log, hget, hall⟩ := collects_run (w := noFailure) (fun x => x.nThreads.toNat)
    oneTask_ready oneWorker_kernel oneWorker_connects
    (fun k hk => by rw [oneWorker_accept hk]; decide) (fun _ => rfl) fun _ => rfl
  obtain rfl := oneWorker_connected hget
  have hexec : (Lib.exec (getResultStep (fun x => x.nThreads.toNat) noFailure oneConnected)
      (fun _ e => e.Harmless) wholeRun (getResultStart noFailure)).any
      (fun s => decide (s.pc = .returned) && decide (s.res = some 3)) = true := by
    decide +kernel
  obtain ⟨s, hrun, hs⟩ := Lib.Run.exists_of_exec hexec
  rw [Bool.and_eq_true, decide_eq_true_eq, decide_eq_true_eq] at hs
  exact ⟨s, hrun, hs.1, hs.2, (hall _ s hrun).2⟩

/-- The worker's connection fails before its task is sent: `SIGPIPE` ends the server. The worker
    sends with `MSG_NOSIGNAL`, the server does not. -/
theorem sigpipe_ends_server : ¬∀ (integrate : WorkerInfo → Nat) (w : GetResultCalls)
    (o : Outcomes) (tasks : TasksForWorkers), tasks.Ready → o.Kernel →
    o.Connects tasks.task.length → (∀ i, w.create i = true) → (∀ j, w.join j = true) →
    ∃ tasks' log, getTcpConnections o tasks = some (.success, tasks', log) ∧
      ∀ es s, Lib.Run (getResultStep integrate w tasks') Lib.Always (getResultStart w) es s →
        Collects integrate w tasks' s := by
  intro hall
  obtain ⟨tasks, log, hget, hrun⟩ := hall (fun x => x.nThreads.toNat) noFailure oneWorker oneTask
    oneTask_ready oneWorker_kernel oneWorker_connects (fun _ => rfl) fun _ => rfl
  obtain rfl := oneWorker_connected hget
  have hexec : (Lib.exec (getResultStep (fun x => x.nThreads.toNat) noFailure oneConnected)
      Lib.Always [.main true, .handler 0 .ok, .lose 5, .handler 0 .sigpipe]
      (getResultStart noFailure)).any (fun s => decide (s.pc = .dead)) = true := by
    decide +kernel
  obtain ⟨s, hr, hs⟩ := Lib.Run.exists_of_exec hexec
  exact (hrun _ s hr).alive (of_decide_eq_true hs)

end CompTech.Network
