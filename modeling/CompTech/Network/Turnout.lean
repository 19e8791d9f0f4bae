import CompTech.Lib.Tables
import CompTech.Network.Discovery

/-!
# When a server still gets its workers

A worker comes once: it hears one hello and tries one `connect`. What a server can still count on is
its `turnout`: the connections it has, and the workers on their way to it or, as long as a hello of
its can reach them, not on their way to anybody. No step makes that more (`turnout_le`), and
without failures as much of it as is asked for is accepted in the end (`CanGather.goesOn`). So the
connection phase can still succeed exactly if the turnout is not below the number of tasks
(`turnout_iff`).

The machines of the servers have different addresses, and so have those of the workers.

`turnout_le` is about what a step may take away, one kind of step at a time. The other direction
(`GoesOn`) finds the next step that serves the server: of its `main`, of its getter, of its sender,
or of a worker that can come; each lowers what is left to do (`State.left`), so that the success
comes in the end.
-/

namespace CompTech.Network.Discovery

open Lib

/-! ## Who can still come

Of a worker it matters whether it waits for a hello, and whether it is on its way to this server. Of
a hello it matters that it was sent: it may come at any later time. -/

/-- A datagram from `host` that is a hello has been sent. -/
def State.heardOf (s : State) (host : Host) : Bool :=
  s.net.any fun d => decide (d.src = host) && d.isHello

/-- A hello of `v` has been sent, or will be if nothing fails. -/
def State.calls (s : State) (v : Server) : Bool :=
  decide (v.sender ≠ .ended) || s.heardOf v.host

/-- The worker can still connect to `host`; `calls` if a hello from there can come to it. -/
def Worker.comes (calls : Bool) (host : Host) (w : Worker) : Bool :=
  w.pc.waiting && calls || w.pc.heading && decide (w.servAddr = some host)

/-- What the server can count on. -/
def State.turnout (s : State) (v : Server) : Nat :=
  v.accepted.length + v.backlog.length + s.workers.countP (·.comes (s.calls v) v.host)

/-- The getter has succeeded, or is there and has enough to count on. -/
def State.CanGather (s : State) (v : Server) : Prop :=
  v.getter = .ended .success ∨
    v.main ≠ .returned ∧ (∀ error, v.getter ≠ .ended error) ∧ v.size ≤ s.turnout v

/-- One server for an address, and one worker. -/
structure State.Distinct (s : State) : Prop where
  servers : (s.servers.map (·.host)).Nodup
  workers : (s.workers.map (·.host)).Nodup

variable {cap i j k : Nat} {s t : State} {v v' u u' : Server} {w w' : Worker} {e : Event}
  {taken c : Bool} {ds : List Datagram} {host : Host}

/-! ## Addresses

Nobody changes its address, so what is different stays different. -/

theorem Moves.hosts (hm : Moves cap s e t) : t.servers.map (·.host) = s.servers.map (·.host) ∧
    t.workers.map (·.host) = s.workers.map (·.host) := by
  cases hm with
  | server i v v' ds hv hlive hm => exact ⟨map_set_of_eq _ hv hm.host.1, rfl⟩
  | worker j w w' hw hm =>
    refine ⟨rfl, map_set_of_eq _ hw ?_⟩
    cases hm <;> rfl
  | connect i j v w host hv hw hpc hservAddr hlistens hroom =>
    exact ⟨map_set_of_eq _ hv rfl, map_set_of_eq _ hw rfl⟩
  | ignores | stray d he => exact ⟨rfl, rfl⟩

theorem State.Distinct.step (h : s.Distinct) (hm : Moves cap s e t) : t.Distinct where
  servers := hm.hosts.1 ▸ h.servers
  workers := hm.hosts.2 ▸ h.workers

/-! ## No step makes it more

A worker that is on its way elsewhere, connected or gone does not come back, and a sender that has
ended sends nothing. -/

theorem Worker.comes_mono {c c' : Bool} (hc : c = true → c' = true)
    (h : w.comes c host = true) : w.comes c' host = true := by
  unfold Worker.comes at h ⊢
  rcases Bool.or_eq_true_iff.mp h with hwait | hhead
  · obtain ⟨hpc, hcall⟩ := Bool.and_eq_true_iff.mp hwait
    rw [hpc, hc hcall]
    rfl
  · rw [hhead, Bool.or_true]

/-- A worker that can still come could before. -/
theorem WorkerMove.comes (hm : WorkerMove s.net w w') (h : w'.comes (s.calls v) v.host = true) :
    w.comes (s.calls v) v.host = true := by
  cases hm with
  | passes pc hlive hwaiting hheading =>
    unfold Worker.comes at h ⊢
    rwa [← hwaiting, ← hheading]
  | hears d hpc hd hhello =>
    -- the hello it has heard is one that could come
    have hsrc : d.src = v.host := by
      simpa [Worker.comes, WorkerPc.waiting, WorkerPc.heading] using h
    have hheard : s.heardOf v.host = true :=
      List.any_eq_true.mpr ⟨d, hd, by simp [hsrc, hhello]⟩
    simp [Worker.comes, hpc, WorkerPc.waiting, State.calls, hheard]
  | ends pc hlive hover =>
    cases pc <;> first | cases h | cases hover

/-- How far a server had got, from how far it has. -/
structure Server.Since (v v' : Server) : Prop where
  size : v'.size = v.size
  /-- who has returned stays so -/
  returned : v.main = .returned → v'.main = .returned ∧ v'.getter = v.getter
  /-- a getter that has ended has ended -/
  ended : ∀ error, v.getter = .ended error → v'.getter = .ended error
  /-- it succeeds when it has enough -/
  success : v'.getter = .ended .success →
    v.getter = .ended .success ∨ v.getter = .accepting ∧ v.size ≤ v.accepted.length

theorem Server.Since.of_getter (hsize : v'.size = v.size) (hmain : v.main ≠ .returned)
    (hgetter : v'.getter = v.getter) : v.Since v' :=
  ⟨hsize, fun hc => absurd hc hmain, fun _ hc => hgetter.trans hc, fun hc => .inl (hgetter ▸ hc)⟩

theorem Server.Since.refl (v : Server) : v.Since v :=
  ⟨rfl, fun hc => ⟨hc, rfl⟩, fun _ => id, .inl⟩

theorem ServerMove.since (hm : ServerMove taken v v' ds) (ho : v.InOrder)
    (hlive : v.main ≠ .returned) : v.Since v' := by
  have hopen {pc : GetterPc} (hpc : v.getter = pc) (hnot : ∀ error, pc ≠ .ended error)
      (hsuccess : v'.getter = .ended .success → pc = .accepting ∧ v.size ≤ v.accepted.length) :
      v.Since v' :=
    ⟨hm.host.2, fun hc => absurd hc hlive, fun error hc => absurd (hpc.symm.trans hc) (hnot error),
      fun hc => .inr (hpc ▸ hsuccess hc)⟩
  cases hm with
  | getterStarts hmain => exact hopen (ho.noGetter hmain) (by simp) fun hc => by cases hc
  | senderStarts | joins | leaves | goesOn | hello => exact .of_getter rfl hlive rfl
  | accepts j backlog hpc hlt hbacklog => exact .of_getter rfl hlive rfl
  | binds hpc _ | listens hpc _ => exact hopen hpc (by simp) fun hc => by cases hc
  | completes hpc hge => exact hopen hpc (by simp) fun _ => ⟨rfl, hge⟩
  | fails hpc =>
    rcases hpc with hpc | hpc
    · exact hopen hpc (by simp) fun hc => by cases hc
    · exact hopen hpc (by simp) fun hc => by cases hc
  | misses hpc hlt => exact hopen hpc (by simp) fun hc => by cases hc

/-- Connections are accepted or dropped, and a sender that has ended stays silent. -/
theorem ServerMove.turnout_le (hm : ServerMove taken v v' ds) (ho : v.InOrder) :
    v'.accepted.length + v'.backlog.length ≤ v.accepted.length + v.backlog.length ∧
      (v.sender = .ended → v'.sender = .ended ∧ ds = []) := by
  cases hm with
  | getterStarts | joins | binds | listens => exact ⟨Nat.le_refl _, fun hc => ⟨hc, rfl⟩⟩
  | senderStarts hmain =>
    refine ⟨Nat.le_refl _, fun hc => ?_⟩
    rw [ho.noSender (.inr hmain)] at hc
    cases hc
  | leaves | completes | fails | misses =>
    exact ⟨Nat.add_le_add_left (Nat.zero_le _) _, fun hc => ⟨hc, rfl⟩⟩
  | accepts j backlog hpc hlt hbacklog =>
    refine ⟨?_, fun hc => ⟨hc, rfl⟩⟩
    rw [hbacklog, List.length_append, List.length_singleton, List.length_cons]
    show v.accepted.length + 1 + backlog.length ≤ _
    omega
  | goesOn pc hsender hpc => exact ⟨Nat.le_refl _, fun hc => absurd hc hsender.2⟩
  | hello hsender hc =>
    refine ⟨Nat.le_refl _, fun hc' => ?_⟩
    rw [hsender] at hc'
    cases hc'

theorem State.heardOf_append : ({ s with net := s.net ++ ds } : State).heardOf host =
    (s.heardOf host || ds.any fun d => decide (d.src = host) && d.isHello) :=
  List.any_append

/-- A datagram from elsewhere, or none of a server, calls nobody to `v`. -/
theorem State.calls_of_append {servers : List Server} {workers : List Worker}
    (hds : ∀ d ∈ ds, d.src = v.host → d.isHello = false)
    (h : State.calls ⟨servers, workers, s.net ++ ds⟩ v = true) : s.calls v = true := by
  have hnone : (ds.any fun d => decide (d.src = v.host) && d.isHello) = false := by
    rw [List.any_eq_false]
    intro d hd hand
    obtain ⟨hsrc, hhello⟩ := Bool.and_eq_true_iff.mp hand
    rw [hds d hd (of_decide_eq_true hsrc)] at hhello
    cases hhello
  unfold State.calls State.heardOf at h ⊢
  rwa [List.any_append, hnone, Bool.or_false] at h

theorem countP_comes_mono {c c' : Bool} (hc : c = true → c' = true) (l : List Worker) :
    l.countP (·.comes c host) ≤ l.countP (·.comes c' host) :=
  List.countP_mono_left fun _ _ => Worker.comes_mono hc

/-- What server `i` can count on is never more than before. The cases are those of `Moves`: the
    server itself or another one, a worker, a worker that connects, and a datagram from outside. -/
theorem turnout_le (hd : s.Distinct) (ho : ∀ v ∈ s.servers, v.InOrder) (hok : Honest s e)
    (hm : Moves cap s e t) (hv : s.servers[i]? = some v) (hv' : t.servers[i]? = some v') :
    t.turnout v' ≤ s.turnout v := by
  cases hm with
  | server k u u' ds hu hlive hmove =>
    replace hv' : (s.servers.set k u')[i]? = some v' := hv'
    rw [getElem?_set_of_some hu] at hv'
    split at hv'
    · rename_i hki
      subst hki
      obtain rfl := Option.some.inj hv'
      obtain rfl := Option.some.inj (hv.symm.trans hu)
      obtain ⟨hsum, hsilent⟩ := hmove.turnout_le (ho v (List.mem_of_getElem? hv))
      have hcalls : State.calls { s.setServer k u' with net := s.net ++ ds } u' = true →
          s.calls v = true := by
        intro hcall
        by_cases hsender : v.sender = .ended
        · obtain ⟨hended, rfl⟩ := hsilent hsender
          unfold State.calls at hcall ⊢
          rw [List.append_nil, hmove.host.1, hended] at hcall
          rwa [hsender]
        · simp [State.calls, hsender]
      unfold State.turnout
      rw [hmove.host.1]
      exact Nat.add_le_add hsum (countP_comes_mono hcalls s.workers)
    · rename_i hki
      obtain rfl := Option.some.inj (hv.symm.trans hv')
      -- what another server sends comes from another address
      have hother : ∀ d ∈ ds, d.src = v.host → d.isHello = false := fun d hdd hsrc => by
        have hhost := (hmove.sender.2 d hdd).1
        rw [hmove.host.1] at hhost
        exact absurd (index_eq_of_key hd.servers hu hv (hhost.trans hsrc)) hki
      exact Nat.add_le_add_left (countP_comes_mono (State.calls_of_append hother) s.workers) _
  | worker j w w' hw hmove =>
    obtain rfl := Option.some.inj (hv.symm.trans hv')
    have hcount := countP_set_add (p := (·.comes (s.calls v) v.host)) (b := w') hw
    have hcomes : (w'.comes (s.calls v) v.host).toNat ≤ (w.comes (s.calls v) v.host).toNat :=
      Bool.toNat_le_toNat hmove.comes
    show _ + (s.workers.set j w').countP (·.comes (s.calls v) v.host) ≤ s.turnout v
    unfold State.turnout
    omega
  | connect k j u w host hu hw hpc hservAddr hlistens hroom =>
    have hcount := countP_set_add (p := (·.comes (s.calls v) v.host))
      (b := { w with pc := .computing, server := some k }) hw
    have hgone : Worker.comes (s.calls v) v.host { w with pc := .computing, server := some k } =
        false := rfl
    rw [hgone, Bool.toNat_false] at hcount
    replace hv' : (s.servers.set k { u with backlog := u.backlog ++ [j] })[i]? = some v' := hv'
    rw [getElem?_set_of_some hu] at hv'
    split at hv'
    · rename_i hki
      subst hki
      obtain rfl := Option.some.inj hv'
      obtain rfl := Option.some.inj (hv.symm.trans hu)
      -- it was one of those who could come
      have hcame : w.comes (s.calls v) v.host = true := by
        rw [(Server.listensAt_iff.mp hlistens).1]
        simp [Worker.comes, hpc, WorkerPc.waiting, WorkerPc.heading, hservAddr]
      rw [hcame, Bool.toNat_true] at hcount
      show v.accepted.length + (v.backlog ++ [j]).length +
        (s.workers.set j { w with pc := .computing, server := some k }).countP
          (·.comes (s.calls v) v.host) ≤ s.turnout v
      rw [List.length_append, List.length_singleton]
      unfold State.turnout
      omega
    · obtain rfl := Option.some.inj (hv.symm.trans hv')
      show v.accepted.length + v.backlog.length +
        (s.workers.set j { w with pc := .computing, server := some k }).countP
          (·.comes (s.calls v) v.host) ≤ s.turnout v
      unfold State.turnout
      omega
  | ignores =>
    obtain rfl := Option.some.inj (hv.symm.trans hv')
    exact Nat.le_refl _
  | stray d he =>
    subst he
    obtain rfl := Option.some.inj (hv.symm.trans hv')
    refine Nat.add_le_add_left (countP_comes_mono (State.calls_of_append fun d' hd' _ => ?_) _) _
    rw [List.mem_singleton.mp hd']
    exact hok

theorem Moves.since (ho : ∀ v ∈ s.servers, v.InOrder) (hm : Moves cap s e t)
    (hv : s.servers[i]? = some v) (hv' : t.servers[i]? = some v') : v.Since v' := by
  have hsame (h : s.servers[i]? = some v') : v.Since v' := by
    obtain rfl := Option.some.inj (hv.symm.trans h)
    exact .refl v
  cases hm with
  | server k u u' ds hu hlive hmove =>
    replace hv' : (s.servers.set k u')[i]? = some v' := hv'
    rw [getElem?_set_of_some hu] at hv'
    split at hv'
    · rename_i hki
      subst hki
      obtain rfl := Option.some.inj hv'
      obtain rfl := Option.some.inj (hv.symm.trans hu)
      exact hmove.since (ho v (List.mem_of_getElem? hv)) hlive
    · exact hsame hv'
  | connect k j u w host hu hw hpc hservAddr hlistens hroom =>
    replace hv' : (s.servers.set k { u with backlog := u.backlog ++ [j] })[i]? = some v' := hv'
    rw [getElem?_set_of_some hu] at hv'
    split at hv'
    · rename_i hki
      subst hki
      obtain rfl := Option.some.inj hv'
      obtain rfl := Option.some.inj (hv.symm.trans hu)
      exact .of_getter rfl (Server.listensAt_iff.mp hlistens).2.1 rfl
    · exact hsame hv'
  | worker j w w' hw hmove => exact hsame hv'
  | ignores | stray d he => exact hsame hv'

/-- A server that can gather its workers after a step could before. -/
theorem State.CanGather.back (hd : s.Distinct) (ho : ∀ v ∈ s.servers, v.InOrder)
    (hok : Honest s e) (hm : Moves cap s e t) (hv : s.servers[i]? = some v)
    (hv' : t.servers[i]? = some v') (h : t.CanGather v') : s.CanGather v := by
  have hle := turnout_le hd ho hok hm hv hv'
  obtain ⟨hsize, hreturned, hended, hsuccess⟩ := hm.since ho hv hv'
  rcases h with hdone | ⟨hlive, hopen, hturnout⟩
  · rcases hsuccess hdone with hdone' | ⟨hacc, hall⟩
    · exact .inl hdone'
    · refine .inr ⟨fun hc => ?_, fun error hc => ?_, ?_⟩
      · rw [(hreturned hc).2, hacc] at hdone
        cases hdone
      · rw [hacc] at hc
        cases hc
      · unfold State.turnout
        omega
  · exact .inr ⟨fun hc => hlive (hreturned hc).1, fun error hc => hopen error (hended error hc),
      by omega⟩

/-! ## Without failures they come

The next step is chosen by what is missing: the threads, the socket, a connection in the backlog, a
worker on its way, a hello. -/

/-- The calls until both threads are there. -/
def MainPc.left : MainPc → Nat
  | .creatingGetter => 2
  | .creatingSender => 1
  | .joining | .collecting | .returned => 0

/-- The calls until it accepts. -/
def GetterPc.left : GetterPc → Nat
  | .absent | .creating => 3
  | .listening => 2
  | .accepting => 1
  | .ended _ => 0

/-- Up to the next hello. -/
def SenderPc.left : SenderPc → Nat
  | .close => 4
  | .absent | .socket => 3
  | .setsockopt => 2
  | .sendto => 1
  | .ended => 0

/-- The calls until it is connected; the others do not count. -/
def WorkerPc.left : WorkerPc → Nat
  | .socket => 8
  | .bind => 7
  | .setsockopt => 6
  | .recvfrom => 5
  | .tcpSocket => 4
  | .setKeepalive => 3
  | .connect => 2
  | .computing | .returned _ | .dead => 0

/-- The steps that are left to the server itself. -/
def Server.left (heard : Bool) (v : Server) : Nat :=
  v.main.left + v.getter.left + (if heard then 0 else v.sender.left) + v.backlog.length

/-- The steps up to the success of `v`, when every worker comes to it. -/
def State.left (s : State) (v : Server) : Nat :=
  v.left (s.heardOf v.host) + (s.workers.map (·.pc.left)).sum

/-- A server is in the way of its success by one step less. -/
structure GoesOn (cap : Nat) (s : State) (i : Nat) (v : Server) (e : Event) (t : State)
    (v' : Server) : Prop where
  /-- the step is no failure -/
  noFailure : NoFailure s e
  goes : step cap s e = some t
  server : t.servers[i]? = some v'
  canGather : t.CanGather v'
  /-- and there is less to do behind it -/
  less : t.left v' < s.left v

theorem getElem?_setServer (hv : s.servers[i]? = some v) :
    (s.setServer i v').servers[i]? = some v' :=
  (getElem?_set_of_some hv).trans (if_pos rfl)

theorem step_server {thread : Thread} (hv : s.servers[i]? = some v) (hlive : v.main ≠ .returned)
    (h : (match thread with
      | .main => (v.runServer true).map (s.setServer i)
      | .getter => (v.getTcps (s.tcpTaken v.host) true).map (s.setServer i)
      | .sender => (v.sendHellos true).map fun p =>
        { s.setServer i p.1 with net := s.net ++ p.2 }) = some t) :
    step cap s (.server i thread true) = some t := by
  show s.servers[i]?.bind (s.serverStep i · thread true) = some t
  rw [hv, Option.bind_some]
  unfold State.serverStep
  rw [if_neg hlive]
  exact h

/-- The server goes on without losing a connection. -/
theorem turnout_of_server (hworkers : t.workers = s.workers) (hnet : s.net ⊆ t.net)
    (hhost : v'.host = v.host)
    (hsum : v.accepted.length + v.backlog.length ≤ v'.accepted.length + v'.backlog.length)
    (hsender : v'.sender = v.sender ∨ v'.sender ≠ .ended) : s.turnout v ≤ t.turnout v' := by
  have hcalls : s.calls v = true → t.calls v' = true := by
    intro h
    rcases hsender with hsender | hsender
    · unfold State.calls at h ⊢
      rw [hsender, hhost]
      rcases Bool.or_eq_true_iff.mp h with h | h
      · rw [h]
        rfl
      · obtain ⟨d, hd, hhello⟩ := List.any_eq_true.mp h
        have hheard : t.heardOf v.host = true := List.any_eq_true.mpr ⟨d, hnet hd, hhello⟩
        rw [hheard, Bool.or_true]
    · simp [State.calls, hsender]
  unfold State.turnout
  rw [hhost, hworkers]
  exact Nat.add_le_add hsum (countP_comes_mono hcalls s.workers)

theorem GoesOn.main (hv : s.servers[i]? = some v) (hlive : v.main ≠ .returned)
    (hopen : ∀ error, v.getter ≠ .ended error) (hturnout : v.size ≤ s.turnout v)
    (ho : v.InOrder) (hpc : v.main = .creatingGetter ∨ v.main = .creatingSender) :
    ∃ e t v', GoesOn cap s i v e t v' := by
  rcases hpc with hpc | hpc
  · have hgetter := ho.noGetter hpc
    refine ⟨.server i .main true, _, { v with main := .creatingSender, getter := .creating }, rfl,
      step_server hv hlive (by simp only [Server.runServer, hpc]; rfl), getElem?_setServer hv,
      .inr ⟨by simp, by simp, hturnout.trans (turnout_of_server rfl (List.Subset.refl _) rfl
        (Nat.le_refl _) (.inl rfl))⟩, ?_⟩
    refine Nat.add_lt_add_right ?_ _
    show 1 + 3 + (if s.heardOf v.host then 0 else v.sender.left) + v.backlog.length < v.left _
    rw [Server.left, hpc, hgetter]
    exact Nat.add_lt_add_right (Nat.add_lt_add_right (by decide) _) _
  · have hsender := ho.noSender (.inr hpc)
    refine ⟨.server i .main true, _, { v with main := .joining, sender := .socket }, rfl,
      step_server hv hlive (by simp only [Server.runServer, hpc]; rfl), getElem?_setServer hv,
      .inr ⟨by simp, hopen, hturnout.trans (turnout_of_server rfl (List.Subset.refl _) rfl
        (Nat.le_refl _) (.inr (by simp)))⟩, ?_⟩
    refine Nat.add_lt_add_right ?_ _
    show 0 + v.getter.left + (if s.heardOf v.host then 0 else 3) + v.backlog.length < v.left _
    rw [Server.left, hpc, hsender]
    refine Nat.add_lt_add_right (Nat.add_lt_add_right ?_ _) _
    exact Nat.add_lt_add_right (by decide) _

/-- The getter goes on and keeps the connections. -/
theorem GoesOn.getter (hv : s.servers[i]? = some v) (hlive : v.main ≠ .returned)
    (hturnout : v.size ≤ s.turnout v) (pc : GetterPc) (backlog accepted : List Nat)
    (hstep : v.getTcps (s.tcpTaken v.host) true =
      some { v with getter := pc, backlog := backlog, accepted := accepted })
    (hsum : v.accepted.length + v.backlog.length = accepted.length + backlog.length)
    (hopen : ∀ error, pc ≠ .ended error)
    (hless : pc.left + backlog.length < v.getter.left + v.backlog.length) :
    ∃ e t v', GoesOn cap s i v e t v' := by
  refine ⟨.server i .getter true, _,
    { v with getter := pc, backlog := backlog, accepted := accepted }, rfl,
    step_server hv hlive ?_, getElem?_setServer hv,
    .inr ⟨hlive, hopen, hturnout.trans (turnout_of_server rfl (List.Subset.refl _) rfl hsum.le
      (.inl rfl))⟩, Nat.add_lt_add_right ?_ _⟩
  · show (v.getTcps _ true).map _ = _
    rw [hstep]
    rfl
  · show v.main.left + pc.left + (if s.heardOf v.host then 0 else v.sender.left) + backlog.length <
      v.left _
    unfold Server.left
    omega

/-- It has enough. -/
theorem GoesOn.complete (hv : s.servers[i]? = some v) (hlive : v.main ≠ .returned)
    (hpc : v.getter = .accepting) (hge : v.size ≤ v.accepted.length) :
    ∃ e t v', GoesOn cap s i v e t v' := by
  refine ⟨.server i .getter true, _, v.getterEnds .success, rfl, step_server hv hlive ?_,
    getElem?_setServer hv, .inl rfl, Nat.add_lt_add_right ?_ _⟩
  · have hstep : v.getTcps (s.tcpTaken v.host) true = some (v.getterEnds .success) := by
      simp only [Server.getTcps, hpc]
      exact if_neg (Nat.not_lt.mpr hge)
    show (v.getTcps _ true).map _ = _
    rw [hstep]
    rfl
  · show v.main.left + 0 + (if s.heardOf v.host then 0 else v.sender.left) + 0 < v.left _
    unfold Server.left
    rw [hpc]
    show _ < _ + 1 + _ + _
    omega

/-- Nobody else listens at its address. -/
theorem tcpTaken_eq_false (hd : s.Distinct) (hv : s.servers[i]? = some v)
    (hpc : v.getter ≠ .accepting) : s.tcpTaken v.host = false := by
  refine List.any_eq_false.mpr fun u hu hlistens => ?_
  obtain ⟨hhost, -, hacc⟩ := Server.listensAt_iff.mp hlistens
  obtain ⟨k, hk⟩ := List.mem_iff_getElem?.mp hu
  obtain rfl := index_eq_of_key hd.servers hk hv hhost
  obtain rfl := Option.some.inj (hv.symm.trans hk)
  exact hpc hacc

/-- Before the accepting loop, and as long as somebody waits in the backlog. -/
theorem GoesOn.gets (hd : s.Distinct) (hv : s.servers[i]? = some v) (hlive : v.main ≠ .returned)
    (hturnout : v.size ≤ s.turnout v) (hpc : v.getter = .creating ∨ v.getter = .listening ∨
      v.getter = .accepting ∧ (v.backlog ≠ [] ∨ v.size ≤ v.accepted.length)) :
    ∃ e t v', GoesOn cap s i v e t v' := by
  rcases hpc with hpc | hpc | ⟨hpc, hmore⟩
  · have htaken := tcpTaken_eq_false hd hv (by rw [hpc]; decide)
    refine GoesOn.getter hv hlive hturnout .listening v.backlog v.accepted ?_ rfl (by simp) ?_
    · simp only [Server.getTcps, hpc, htaken]
      rfl
    · rw [hpc]
      exact Nat.add_lt_add_right (by decide) _
  · have htaken := tcpTaken_eq_false hd hv (by rw [hpc]; decide)
    refine GoesOn.getter hv hlive hturnout .accepting v.backlog v.accepted ?_ rfl (by simp) ?_
    · simp only [Server.getTcps, hpc, htaken]
      rfl
    · rw [hpc]
      exact Nat.add_lt_add_right (by decide) _
  · by_cases hge : v.size ≤ v.accepted.length
    · exact GoesOn.complete hv hlive hpc hge
    · obtain ⟨j, backlog, hbacklog⟩ := List.exists_cons_of_ne_nil (hmore.resolve_right hge)
      refine GoesOn.getter hv hlive hturnout .accepting backlog (v.accepted ++ [j]) ?_ ?_ (by simp)
        ?_
      · simp only [Server.getTcps, hpc, hbacklog, if_pos (Nat.lt_of_not_le hge)]
        rfl
      · rw [hbacklog, List.length_append, List.length_singleton, List.length_cons]
        omega
      · rw [hpc, hbacklog, List.length_cons]
        exact Nat.lt_succ_self _

/-- As long as there is no hello, the sender gets closer to one. -/
theorem GoesOn.sender (hv : s.servers[i]? = some v) (hlive : v.main ≠ .returned)
    (hopen : ∀ error, v.getter ≠ .ended error) (hturnout : v.size ≤ s.turnout v)
    (hcancelled : v.cancelled = false) (habsent : v.sender ≠ .absent)
    (hcalls : s.calls v = true) (hheard : s.heardOf v.host = false) :
    ∃ e t v', GoesOn cap s i v e t v' := by
  have hgo (pc : SenderPc) (ds : List Datagram)
      (hstep : v.sendHellos true = some ({ v with sender := pc }, ds)) (hpc : pc ≠ .ended)
      (hless : (if ({ s with net := s.net ++ ds } : State).heardOf v.host then 0 else pc.left) <
        v.sender.left) : ∃ e t v', GoesOn cap s i v e t v' := by
    refine ⟨.server i .sender true,
      { s.setServer i { v with sender := pc } with net := s.net ++ ds }, { v with sender := pc },
      rfl, step_server hv hlive ?_, getElem?_setServer hv,
      .inr ⟨hlive, hopen, hturnout.trans (turnout_of_server rfl (List.subset_append_left _ _) rfl
        (Nat.le_refl _) (.inr hpc))⟩, Nat.add_lt_add_right ?_ _⟩
    · show (v.sendHellos true).map _ = _
      rw [hstep]
      rfl
    · show v.main.left + v.getter.left +
        (if ({ s with net := s.net ++ ds } : State).heardOf v.host then 0 else pc.left) +
          v.backlog.length < v.left _
      unfold Server.left
      rw [hheard]
      show _ < _ + v.sender.left + _
      omega
  have hstill (pc : SenderPc) : (if ({ s with net := s.net ++ [] } : State).heardOf v.host then 0
      else pc.left) = pc.left := by
    rw [State.heardOf_append, hheard]
    rfl
  cases hpc : v.sender with
  | absent => exact absurd hpc habsent
  | socket =>
    refine hgo .setsockopt [] (by simp [Server.sendHellos, hpc]) (by decide) ?_
    rw [hstill, hpc]
    decide
  | setsockopt =>
    refine hgo .sendto [] (by simp [Server.sendHellos, hpc]) (by decide) ?_
    rw [hstill, hpc]
    decide
  | sendto =>
    refine hgo .close [⟨v.host, msg⟩]
      (by simp [Server.sendHellos, hpc, hcancelled]) (by decide) ?_
    rw [State.heardOf_append, hpc, List.any_cons, isHello_msg]
    simp [SenderPc.left]
  | close =>
    refine hgo .socket [] (by simp [Server.sendHellos, hpc, hcancelled])
      (by decide) ?_
    rw [hstill, hpc]
    decide
  | ended =>
    rw [State.calls, hpc, hheard] at hcalls
    cases hcalls

/-- A worker that can come gets closer. -/
theorem GoesOn.worker (e : Event) (w' : Worker) (hv : s.servers[i]? = some v)
    (hlive : v.main ≠ .returned) (hopen : ∀ error, v.getter ≠ .ended error)
    (hturnout : v.size ≤ s.turnout v) (hw : s.workers[j]? = some w) (hno : NoFailure s e)
    (hstep : step cap s e = some (s.setWorker j w'))
    (hcomes : w'.comes (s.calls v) v.host = true) (hless : w'.pc.left < w.pc.left) :
    ∃ e t v', GoesOn cap s i v e t v' := by
  have hcount := countP_set_add (p := (·.comes (s.calls v) v.host)) (b := w') hw
  have hsum := sum_map_set (fun w : Worker => w.pc.left) (b := w') hw
  rw [hcomes, Bool.toNat_true] at hcount
  have hle := Bool.toNat_le (w.comes (s.calls v) v.host)
  refine ⟨e, _, v, hno, hstep, hv, .inr ⟨hlive, hopen, hturnout.trans ?_⟩, ?_⟩
  · show s.turnout v ≤ v.accepted.length + v.backlog.length +
      (s.workers.set j w').countP (·.comes (s.calls v) v.host)
    unfold State.turnout
    omega
  · show v.left (s.heardOf v.host) + ((s.workers.set j w').map fun w => w.pc.left).sum < s.left v
    unfold State.left
    omega

theorem udpTaken_eq_false (hd : s.Distinct) (hw : s.workers[j]? = some w)
    (hpc : w.pc.bound = false) : s.udpTaken w.host = false := by
  refine List.any_eq_false.mpr fun x hx hand => ?_
  obtain ⟨hhost, hbound⟩ := Bool.and_eq_true_iff.mp hand
  obtain ⟨k, hk⟩ := List.mem_iff_getElem?.mp hx
  obtain rfl := index_eq_of_key hd.workers hk hw (of_decide_eq_true hhost)
  obtain rfl := Option.some.inj (hw.symm.trans hk)
  rw [hpc] at hbound
  cases hbound

/-- The server is the first that listens at its address. -/
theorem findIdx?_listensAt (hd : s.Distinct) (hv : s.servers[i]? = some v)
    (hlive : v.main ≠ .returned) (hpc : v.getter = .accepting) :
    s.servers.findIdx? (·.listensAt v.host) = some i := by
  obtain ⟨hi, hget⟩ := List.getElem?_eq_some_iff.mp hv
  refine List.findIdx?_eq_some_iff_getElem.mpr ⟨hi, ?_, fun k hk hlistens => ?_⟩
  · rw [hget]
    exact Server.listensAt_iff.mpr ⟨rfl, hlive, hpc⟩
  · have hk' : s.servers[k]? = some s.servers[k] := List.getElem?_eq_getElem (hk.trans hi)
    have heq := index_eq_of_key hd.servers hk' hv (Server.listensAt_iff.mp hlistens).1
    omega

/-- It connects. -/
theorem GoesOn.connect (hd : s.Distinct) (hv : s.servers[i]? = some v) (hlive : v.main ≠ .returned)
    (hpc : v.getter = .accepting) (hturnout : v.size ≤ s.turnout v)
    (hroom : v.backlog.length < cap) (hw : s.workers[j]? = some w) (hconnect : w.pc = .connect)
    (hservAddr : w.servAddr = some v.host) : ∃ e t v', GoesOn cap s i v e t v' := by
  have hcount := countP_set_add (p := (·.comes (s.calls v) v.host))
    (b := { w with pc := .computing, server := some i }) hw
  have hsum := sum_map_set (fun w : Worker => w.pc.left)
    (b := { w with pc := .computing, server := some i }) hw
  have hcame : w.comes (s.calls v) v.host = true := by
    simp [Worker.comes, hconnect, WorkerPc.waiting, WorkerPc.heading, hservAddr]
  have hgone : Worker.comes (s.calls v) v.host { w with pc := .computing, server := some i } =
      false := rfl
  rw [hcame, hgone, Bool.toNat_true, Bool.toNat_false] at hcount
  rw [hconnect] at hsum
  replace hsum : _ + 2 = _ + 0 := hsum
  refine ⟨.worker j true, (s.setServer i { v with backlog := v.backlog ++ [j] }).setWorker j
      { w with pc := .computing, server := some i }, { v with backlog := v.backlog ++ [j] }, rfl,
    ?_, (getElem?_set_of_some hv).trans (if_pos rfl),
    .inr ⟨hlive, by simp [hpc], hturnout.trans ?_⟩, ?_⟩
  · have hfind := findIdx?_listensAt hd hv hlive hpc
    simp [step, hw, State.workerStep, hconnect, State.connect, hservAddr, hfind, hv, hroom]
  · show s.turnout v ≤ v.accepted.length + (v.backlog ++ [j]).length +
      (s.workers.set j { w with pc := .computing, server := some i }).countP
        (·.comes (s.calls v) v.host)
    rw [List.length_append, List.length_singleton]
    unfold State.turnout
    omega
  · show Server.left (s.heardOf v.host) { v with backlog := v.backlog ++ [j] } +
      ((s.workers.set j { w with pc := .computing, server := some i }).map fun w =>
        w.pc.left).sum < s.left v
    unfold State.left Server.left
    rw [List.length_append, List.length_singleton]
    show v.main.left + v.getter.left + (if s.heardOf v.host then 0 else v.sender.left) +
      (v.backlog.length + 1) + _ < _
    omega

/-- A worker that can come to a listening server with an empty backlog does, or the sender gets
    closer to the hello it waits for. -/
theorem GoesOn.comes (hcap : 1 ≤ cap) (hd : s.Distinct) (ho : v.InOrder)
    (hv : s.servers[i]? = some v) (hmain : v.main = .joining) (hpc : v.getter = .accepting)
    (hturnout : v.size ≤ s.turnout v) (hbacklog : v.backlog = []) (hw : s.workers[j]? = some w)
    (hcomes : w.comes (s.calls v) v.host = true) : ∃ e t v', GoesOn cap s i v e t v' := by
  have hlive : v.main ≠ .returned := by rw [hmain]; decide
  have hopen : ∀ error, v.getter ≠ .ended error := by rw [hpc]; simp
  have hcalls (hwaiting : w.pc.heading = false) : s.calls v = true := by
    rw [Worker.comes, hwaiting, Bool.false_and, Bool.or_false] at hcomes
    exact (Bool.and_eq_true_iff.mp hcomes).2
  have haddr (hheading : w.pc.waiting = false) : w.servAddr = some v.host := by
    rw [Worker.comes, hheading, Bool.false_and, Bool.false_or] at hcomes
    exact of_decide_eq_true (Bool.and_eq_true_iff.mp hcomes).2
  have hpasses (pc : WorkerPc)
      (hstep : s.workerStep cap j w true = some (s.setWorker j { w with pc := pc }))
      (hwaiting : pc.waiting = w.pc.waiting) (hheading : pc.heading = w.pc.heading)
      (hless : pc.left < w.pc.left) : ∃ e t v', GoesOn cap s i v e t v' := by
    refine GoesOn.worker (.worker j true) { w with pc := pc } hv hlive hopen hturnout hw rfl ?_ ?_
      hless
    · show s.workers[j]?.bind (s.workerStep cap j · true) = _
      rw [hw]
      exact hstep
    · rw [Worker.comes, hwaiting, hheading]
      exact hcomes
  cases hwpc : w.pc with
  | socket =>
    refine hpasses .bind ?_ (by rw [hwpc]; rfl) (by rw [hwpc]; rfl) (by rw [hwpc]; decide)
    simp [State.workerStep, hwpc, Worker.calls]
  | bind =>
    have htaken := udpTaken_eq_false hd hw (by rw [hwpc]; rfl)
    refine hpasses .setsockopt ?_ (by rw [hwpc]; rfl) (by rw [hwpc]; rfl) (by rw [hwpc]; decide)
    simp [State.workerStep, hwpc, Worker.calls, htaken]
  | setsockopt =>
    refine hpasses .recvfrom ?_ (by rw [hwpc]; rfl) (by rw [hwpc]; rfl) (by rw [hwpc]; decide)
    simp [State.workerStep, hwpc, Worker.calls]
  | recvfrom =>
    have hcall := hcalls (by rw [hwpc]; rfl)
    cases hheard : s.heardOf v.host with
    | false =>
      refine GoesOn.sender hv hlive hopen hturnout ?_ (fun hc => ?_) hcall hheard
      · refine Bool.eq_false_iff.mpr fun hc => ?_
        rcases ho.cancelled hc with hc | hc <;> rw [hmain] at hc <;> cases hc
      · rcases ho.sender hc with hc | hc | hc <;> rw [hmain] at hc <;> cases hc
    | true =>
      obtain ⟨d, hdnet, hand⟩ := List.any_eq_true.mp hheard
      obtain ⟨hsrc, hhello⟩ := Bool.and_eq_true_iff.mp hand
      obtain ⟨k, hk⟩ := List.mem_iff_getElem?.mp hdnet
      refine GoesOn.worker (.received j k) { w with pc := .tcpSocket, servAddr := some d.src } hv
        hlive hopen hturnout hw trivial ?_ ?_ (by rw [hwpc]; simp [WorkerPc.left])
      · simp [step, hw, hk, State.receive, hwpc, hhello]
      · simp [Worker.comes, WorkerPc.heading, of_decide_eq_true hsrc]
  | tcpSocket =>
    refine hpasses .setKeepalive ?_ (by rw [hwpc]; rfl) (by rw [hwpc]; rfl) (by rw [hwpc]; decide)
    simp [State.workerStep, hwpc, Worker.calls]
  | setKeepalive =>
    refine hpasses .connect ?_ (by rw [hwpc]; rfl) (by rw [hwpc]; rfl) (by rw [hwpc]; decide)
    simp [State.workerStep, hwpc, Worker.calls]
  | connect =>
    refine GoesOn.connect hd hv hlive hpc hturnout ?_ hw hwpc (haddr (by rw [hwpc]; rfl))
    rw [hbacklog]
    exact hcap
  | computing | returned error | dead =>
    rw [Worker.comes, hwpc] at hcomes
    cases hcomes

/-- **As long as a server can gather its workers, it goes on doing so.** The cases are what is
    missing, in the order in which it is needed: a thread is not there, the getter does not accept
    yet, a connection waits in the backlog, or nobody has come. -/
theorem State.CanGather.goesOn (hcap : 1 ≤ cap) (hf : s.ConnectionsMatch) (hd : s.Distinct)
    (hv : s.servers[i]? = some v) (h : s.CanGather v) (hmore : v.getter ≠ .ended .success) :
    ∃ e t v', GoesOn cap s i v e t v' := by
  have ho := hf.inOrder v (List.mem_of_getElem? hv)
  obtain ⟨hlive, hopen, hturnout⟩ := h.resolve_left hmore
  cases hmain : v.main with
  | creatingGetter => exact GoesOn.main hv hlive hopen hturnout ho (.inl hmain)
  | creatingSender => exact GoesOn.main hv hlive hopen hturnout ho (.inr hmain)
  | collecting =>
    obtain ⟨error, herror⟩ := ho.joined hmain
    exact absurd herror (hopen error)
  | returned => exact absurd hmain hlive
  | joining =>
    cases hpc : v.getter with
    | absent => rcases ho.getter hpc with hc | hc <;> rw [hmain] at hc <;> cases hc
    | creating => exact GoesOn.gets hd hv hlive hturnout (.inl hpc)
    | listening => exact GoesOn.gets hd hv hlive hturnout (.inr (.inl hpc))
    | ended error => exact absurd hpc (hopen error)
    | accepting =>
      by_cases hready : v.backlog ≠ [] ∨ v.size ≤ v.accepted.length
      · exact GoesOn.gets hd hv hlive hturnout (.inr (.inr ⟨hpc, hready⟩))
      · obtain ⟨hbacklog, hlt⟩ := not_or.mp hready
        replace hbacklog := not_not.mp hbacklog
        -- what is missing is still to come
        have hcount : 0 < s.workers.countP (·.comes (s.calls v) v.host) := by
          unfold State.turnout at hturnout
          rw [hbacklog, List.length_nil] at hturnout
          omega
        obtain ⟨w, hw, hcomes⟩ := List.countP_pos_iff.mp hcount
        obtain ⟨j, hj⟩ := List.mem_iff_getElem?.mp hw
        exact GoesOn.comes hcap hd ho hv hmain hpc hturnout hbacklog hj hcomes

/-! ## Any run

Both directions along runs. That a success was possible at the beginning of a run that has come to
one is an induction from its end (`canGather_of_run`); that one is possible is an induction on what
is left to do (`State.CanGather.succeeds`). -/

/-- In some run of steps that `ok` admits, the getter of server `i` succeeds. -/
def Succeeds (cap : Nat) (ok : State → Event → Prop) (i : Nat) (s : State) : Prop :=
  ∃ es t v, Run (step cap) ok s es t ∧ t.servers[i]? = some v ∧ v.getter = .ended .success

theorem State.Distinct.start {hosts : List (Host × Nat)} {addrs : List Host}
    (hservers : (hosts.map (·.1)).Nodup) (hworkers : addrs.Nodup) :
    (Discovery.start hosts addrs).Distinct where
  servers := by
    rw [Discovery.start, List.map_map]
    exact hservers
  workers := by
    rw [Discovery.start, List.map_map]
    exact (List.map_id addrs).symm ▸ hworkers

/-- The invariants of a run in which the machines have different addresses. -/
structure State.Sound (s : State) : Prop where
  matching : s.ConnectionsMatch
  distinct : s.Distinct

theorem State.Sound.step (h : s.Sound) (hst : step cap s e = some t) : t.Sound :=
  ⟨h.matching.step (step_moves hst), h.distinct.step (step_moves hst)⟩

theorem State.Sound.start {hosts : List (Host × Nat)} {addrs : List Host}
    (hservers : (hosts.map (·.1)).Nodup) (hworkers : addrs.Nodup) :
    (Discovery.start hosts addrs).Sound :=
  ⟨.start hosts addrs, .start hservers hworkers⟩

/-- Whoever can gather its workers at the end of a run could at its beginning. -/
theorem canGather_of_run {es : List Event} (h : s.Sound) (hr : Run (step cap) Honest s es t)
    (hv' : t.servers[i]? = some v') (hgather : t.CanGather v') :
    ∃ v, s.servers[i]? = some v ∧ s.CanGather v := by
  refine hr.rel (R := fun s t : State => ∀ v', t.servers[i]? = some v' → t.CanGather v' →
    ∃ v, s.servers[i]? = some v ∧ s.CanGather v) (fun _ v hv hg => ⟨v, hv, hg⟩)
    (fun a b c hab hbc v hv hg => ?_) h (fun s e t h hok hst => ⟨h.step hst, ?_⟩) v' hv' hgather
  · obtain ⟨u, hu, hug⟩ := hbc v hv hg
    exact hab u hu hug
  · intro v' hv' hg
    have hm := step_moves hst
    have hlength : s.servers.length = t.servers.length := by
      have hhosts := congrArg List.length hm.hosts.1
      rw [List.length_map, List.length_map] at hhosts
      exact hhosts.symm
    have hi : i < s.servers.length := hlength ▸ (List.getElem?_eq_some_iff.mp hv').1
    exact ⟨_, List.getElem?_eq_getElem hi,
      hg.back h.distinct h.matching.inOrder hok hm (List.getElem?_eq_getElem hi) hv'⟩

/-- Whoever can gather its workers does, if nothing fails. -/
theorem State.CanGather.succeeds (hcap : 1 ≤ cap) (hs : s.Sound)
    (hv : s.servers[i]? = some v) (h : s.CanGather v) : Succeeds cap NoFailure i s := by
  have hgo : ∀ m (s : State) v, s.Sound → s.servers[i]? = some v → s.CanGather v →
      s.left v = m → Succeeds cap NoFailure i s := by
    intro m
    induction m using Nat.strong_induction_on with
    | _ m ih =>
      intro s v hs hv h hm
      by_cases hdone : v.getter = .ended .success
      · exact ⟨[], s, v, .nil, hv, hdone⟩
      · obtain ⟨e, t, v', hno, hst, hv', hg, hless⟩ :=
          h.goesOn hcap hs.matching hs.distinct hv hdone
        obtain ⟨es, u, v'', hr, hu, hend⟩ := ih _ (hm ▸ hless) t v' (hs.step hst) hv' hg rfl
        exact ⟨e :: es, u, v'', hr.cons hno hst, hu, hend⟩
  exact hgo _ s v hs hv h rfl

theorem NoFailure.honest (h : NoFailure s e) : Honest s e := by
  cases e with
  | stray d => exact h.elim
  | server | serverKilled | worker | received | computed | workerKilled => trivial

section Runs

variable {hosts : List (Host × Nat)} {addrs : List Host} {es : List Event}

/-- **The connection phase can still succeed exactly if the turnout is not below the number of
    tasks**, and then it can without any failure. -/
theorem turnout_iff (hcap : 1 ≤ cap) (hservers : (hosts.map (·.1)).Nodup) (hworkers : addrs.Nodup)
    (hr : Run (step cap) Honest (start hosts addrs) es s) (hv : s.servers[i]? = some v) :
    (Succeeds cap NoFailure i s ↔ s.CanGather v) ∧ (Succeeds cap Honest i s ↔ s.CanGather v) := by
  have hs : s.Sound := hr.invariant (.start hservers hworkers) fun _ _ _ h _ hst => h.step hst
  have hback : Succeeds cap Honest i s → s.CanGather v := by
    rintro ⟨es', t, v', hr', hv', hdone⟩
    obtain ⟨u, hu, hg⟩ := canGather_of_run hs hr' hv' (.inl hdone)
    exact Option.some.inj (hv.symm.trans hu) ▸ hg
  have hweaken : Succeeds cap NoFailure i s → Succeeds cap Honest i s := by
    rintro ⟨es', t, v', hr', hv', hdone⟩
    exact ⟨es', t, v', hr'.mono fun _ _ => NoFailure.honest, hv', hdone⟩
  exact ⟨⟨fun h => hback (hweaken h), State.CanGather.succeeds hcap hs hv⟩,
    ⟨hback, fun h => hweaken (h.succeeds hcap hs hv)⟩⟩

/-- The hello is out before the server listens: the first worker hears it and is refused. -/
def earlyHello : List Event :=
  [.server 0 .main true, .server 0 .main true, .server 0 .sender true, .server 0 .sender true,
    .server 0 .sender true] ++
  [.worker 0 true, .worker 0 true, .worker 0 true, .received 0 0, .worker 0 true, .worker 0 true,
    .worker 0 false]

/-- Of two workers for two tasks one is lost so, and the server cannot succeed any more. The
    datagram may have come before the `listen`, and a worker tries one `connect` only. -/
theorem turnout_iff_early : ∃ s, Run (step 10) Honest (start [(1, 2)] [2, 3]) earlyHello s ∧
    ¬Succeeds 10 Honest 0 s := by
  have hexec : (exec (step 10) Honest earlyHello (start [(1, 2)] [2, 3])).any
      (fun s => s.servers[0]?.any fun v =>
        v.getter = .creating && decide (s.turnout v < v.size)) = true := by
    decide
  obtain ⟨s, hr, hany⟩ := Run.exists_of_exec hexec
  refine ⟨s, hr, fun hsucceeds => ?_⟩
  cases hv : s.servers[0]? with
  | none =>
    rw [hv] at hany
    cases hany
  | some v =>
    rw [hv, Option.any_some, Bool.and_eq_true_iff] at hany
    have hpc : v.getter = .creating := of_decide_eq_true hany.1
    have hfew : s.turnout v < v.size := of_decide_eq_true hany.2
    rcases (turnout_iff (by decide) (by decide) (by decide) hr hv).2.mp hsucceeds with hdone | hmany
    · rw [hpc] at hdone
      cases hdone
    · exact absurd hmany.2.2 (Nat.not_le.mpr hfew)

end Runs

end CompTech.Network.Discovery
