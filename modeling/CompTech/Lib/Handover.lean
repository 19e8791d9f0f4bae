import Mathlib

/-!
# A one-slot hand-over between two sides

Two sides hand something to each other through one slot each: a side *takes* from the other's
slot and *gives* into its own. Before that it has to get in — be alone on its side, wait until
nobody is connected, set its slot to its initial value, post a token for the other side and
take the other side's token. There may be any number of processes on either side; what the
argument needs of them is how many there are in each phase, which is what `Ctl` keeps. The two
sides are alike but for the initial values of the slots, whose sum is 1, so everything is
stated for a side `x` and its opposite.

`CtlStep` is one step. `Acct` — the mutual exclusion on each side and the number of connected
processes — is kept by every step, deaths included. `Paired` is what makes the hand-over safe:
tokens and connections match, and of the two slots and the two critical phases exactly one is
occupied. It is kept by every step of processes that do not die between posting a token and
its being taken, as long as there is somebody to hand over to on both sides (`Guarded`).
-/

namespace Lib

/-- The two sides of the hand-over. -/
inductive Side
  | left
  | right
  deriving DecidableEq

/-- The opposite side. -/
def Side.other : Side → Side
  | .left => .right
  | .right => .left

/-- Going over twice is staying. -/
@[simp] theorem Side.other_other (x : Side) : x.other.other = x := by cases x <;> rfl

/-- There are no more than two. -/
theorem Side.eq_or_other (x z : Side) : z = x ∨ z = x.other := by
  cases x <;> cases z <;> simp [Side.other]

/-- How far a process has come. -/
inductive Phase
  | start
  | wait
  | setval
  | post
  | posted
  | conn
  | check
  | checked
  | leaving
  | ended
  deriving DecidableEq

/-- The process is between the alone operation and its end. -/
def Phase.active : Phase → Bool
  | .start | .ended => false
  | _ => true

/-- The process has taken the token of the other side and has not left. -/
def Phase.connected : Phase → Bool
  | .conn | .check | .checked | .leaving => true
  | _ => false

/-- The process is not connected yet. -/
def Phase.before : Phase → Bool
  | .start | .wait | .setval | .post | .posted => true
  | _ => false

/-- The process has posted its token and has not left. -/
def Phase.paired : Phase → Bool
  | .posted | .conn | .check | .checked | .leaving => true
  | _ => false

/-- The process has taken from the other's slot and not yet given. -/
def Phase.critical : Phase → Bool
  | .check | .checked => true
  | _ => false

/-- Whoever is critical is connected. -/
theorem Phase.critical_le (p : Phase) : p.critical.toNat ≤ p.connected.toNat := by
  cases p <;> decide

/-- The counters of the protocol, and how many processes are in each phase. -/
structure Ctl where
  n : Side → Phase → Nat
  slot : Side → Nat
  tok : Side → Nat
  alone : Side → Nat
  numProc : Nat

namespace Ctl

variable (c : Ctl) (x : Side)

/-- The processes of side `x` between their first and their last operation. -/
def active : Nat :=
  c.n x .wait + c.n x .setval + c.n x .post + c.n x .posted + c.n x .conn + c.n x .check +
    c.n x .checked + c.n x .leaving

/-- Those of them that have taken the other side's token. -/
def connected : Nat := c.n x .conn + c.n x .check + c.n x .checked + c.n x .leaving

/-- Those that hold the slot. -/
def critical : Nat := c.n x .check + c.n x .checked

/-- The processes that are in or may still get in. -/
def eligible : Nat := c.n x .start + c.active x

/-- All of side `x` that are not gone, wherever they stand. -/
def alive : Nat := c.n x .start + c.active x + c.n x .ended

end Ctl

/-- A process of side `x` goes from phase `p` to phase `q` (`none`: it is gone); the other
    quantities change by the given amounts. The own slot is not spoken of. -/
structure Change (c c' : Ctl) (x : Side) (p : Phase) (q : Option Phase)
    (slotOther tokOwn tokOther alone numProc : Int) : Prop where
  own : ∀ ph, c'.n x ph + (if ph = p then 1 else 0) = c.n x ph + (if some ph = q then 1 else 0)
  other : ∀ ph, c'.n x.other ph = c.n x.other ph
  slotOther : (c'.slot x.other : Int) = c.slot x.other + slotOther
  tokOwn : (c'.tok x : Int) = c.tok x + tokOwn
  tokOther : (c'.tok x.other : Int) = c.tok x.other + tokOther
  aloneOwn : (c'.alone x : Int) = c.alone x + alone
  aloneOther : c'.alone x.other = c.alone x.other
  numProc : (c'.numProc : Int) = c.numProc + numProc

/-- The moves of a process of side `x`, with their guards, the changes they make and the own
    slot afterwards. -/
inductive Rule (init : Side → Nat) (c : Ctl) (x : Side) :
    Phase → Option Phase → Int → Int → Int → Int → Int → Nat → Prop
  | alone : c.alone x = 0 → Rule init c x .start (some .wait) 0 0 0 1 0 (c.slot x)
  | wait : c.numProc = 0 → Rule init c x .wait (some .setval) 0 0 0 0 0 (c.slot x)
  | setval : Rule init c x .setval (some .post) 0 0 0 0 0 (init x)
  | post : Rule init c x .post (some .posted) 0 1 0 0 0 (c.slot x)
  | connect : Rule init c x .posted (some .conn) 0 0 (-1) 0 1 (c.slot x)
  | take : Rule init c x .conn (some .check) (-1) 0 0 0 0 (c.slot x)
  | check : 2 ≤ c.numProc → Rule init c x .check (some .checked) 0 0 0 0 0 (c.slot x)
  | give : Rule init c x .checked (some .conn) 0 0 0 0 0 (c.slot x + 1)
  | giveLast : Rule init c x .checked (some .leaving) 0 0 0 0 0 (c.slot x + 1)
  | leave (slot : Nat) : Rule init c x .leaving (some .ended) 0 0 0 (-1) (-1) slot
  -- a process that fails before its first operation
  | giveUp : Rule init c x .start (some .ended) 0 0 0 0 0 (c.slot x)
  -- whoever dies takes back what it has added; its slot is as it was, unless it had something to
  -- give back or nobody of its side is in
  | die (p : Phase) (slot : Nat) : (slot = c.slot x ∨ p.connected = true ∨
        c.n x .post + c.n x .posted + c.connected x = 0) →
      Rule init c x p none 0 0 0 (-p.active.toNat) (-p.connected.toNat) slot

/-- One step of a process of side `x`. -/
inductive CtlStep (init : Side → Nat) (c c' : Ctl) (x : Side) : Prop
  | mk {p : Phase} {q : Option Phase} {so tx ty al np : Int} :
      Rule init c x p q so tx ty al np (c'.slot x) → Change c c' x p q so tx ty al np →
      CtlStep init c c' x

/-! ## Mutual exclusion on each side -/

/-- Mutual exclusion on each side, and the number of connected processes. -/
structure Acct (c : Ctl) : Prop where
  alone : ∀ x, c.alone x = c.active x
  le_one : ∀ x, c.active x ≤ 1
  numProc : c.numProc = c.connected .left + c.connected .right

/-- The number of connected processes, from the point of view of one side. -/
theorem Acct.numProc_eq {c : Ctl} (h : Acct c) (x : Side) :
    c.numProc = c.connected x + c.connected x.other := by
  cases x with
  | left => exact h.numProc
  | right => rw [h.numProc, Nat.add_comm]; rfl

section Changes

variable {c c' : Ctl} {x : Side} {p : Phase} {q : Option Phase} {so tx ty al np : Int}

/-- The phases a sum runs over, counted at one phase, are there or not. -/
theorem indicator_active (q : Option Phase) : ((if some Phase.wait = q then 1 else 0) +
    (if some Phase.setval = q then 1 else 0) + (if some Phase.post = q then 1 else 0) +
    (if some Phase.posted = q then 1 else 0) + (if some Phase.conn = q then 1 else 0) +
    (if some Phase.check = q then 1 else 0) + (if some Phase.checked = q then 1 else 0) +
    (if some Phase.leaving = q then 1 else 0)) = (q.any Phase.active).toNat := by
  cases q with
  | none => rfl
  | some p => cases p <;> rfl

theorem indicator_connected (q : Option Phase) : ((if some Phase.conn = q then 1 else 0) +
    (if some Phase.check = q then 1 else 0) + (if some Phase.checked = q then 1 else 0) +
    (if some Phase.leaving = q then 1 else 0)) = (q.any Phase.connected).toNat := by
  cases q with
  | none => rfl
  | some p => cases p <;> rfl

theorem indicator_critical (q : Option Phase) : ((if some Phase.check = q then 1 else 0) +
    (if some Phase.checked = q then 1 else 0)) = (q.any Phase.critical).toNat := by
  cases q with
  | none => rfl
  | some p => cases p <;> rfl

/-- A process is at the start, active or at its end, and one of them. -/
theorem indicator_alive (p : Phase) : (if Phase.start = p then 1 else 0) + p.active.toNat +
    (if Phase.ended = p then 1 else 0) = 1 := by
  cases p <;> rfl

/-- How the sums change on the side of the process that moves. -/
theorem sums_of_own (hown : ∀ ph, c'.n x ph + (if ph = p then 1 else 0) =
      c.n x ph + (if some ph = q then 1 else 0)) :
    c'.active x + p.active.toNat = c.active x + (q.any Phase.active).toNat ∧
    c'.connected x + p.connected.toNat = c.connected x + (q.any Phase.connected).toNat ∧
    c'.critical x + p.critical.toNat = c.critical x + (q.any Phase.critical).toNat := by
  have hown' : ∀ ph, c'.n x ph + (if some ph = some p then 1 else 0) =
      c.n x ph + (if some ph = q then 1 else 0) := by
    intro ph
    simpa only [Option.some.injEq] using hown ph
  have h₁ := hown' .wait
  have h₂ := hown' .setval
  have h₃ := hown' .post
  have h₄ := hown' .posted
  have h₅ := hown' .conn
  have h₆ := hown' .check
  have h₇ := hown' .checked
  have h₈ := hown' .leaving
  rw [← indicator_active q, ← indicator_connected q, ← indicator_critical q,
    ← Option.any_some (p := Phase.active), ← Option.any_some (p := Phase.connected),
    ← Option.any_some (p := Phase.critical), ← indicator_active (some p),
    ← indicator_connected (some p), ← indicator_critical (some p)]
  unfold Ctl.active Ctl.connected Ctl.critical
  refine ⟨?_, ?_, ?_⟩ <;> omega

/-- How the sums of a side change when one of its processes moves. -/
theorem Change.sums (h : Change c c' x p q so tx ty al np) :
    c'.active x + p.active.toNat = c.active x + (q.any Phase.active).toNat ∧
    c'.connected x + p.connected.toNat = c.connected x + (q.any Phase.connected).toNat ∧
    c'.critical x + p.critical.toNat = c.critical x + (q.any Phase.critical).toNat :=
  sums_of_own h.own

/-- The other side's sums stay. -/
theorem Change.sums_other (h : Change c c' x p q so tx ty al np) :
    c'.active x.other = c.active x.other ∧ c'.connected x.other = c.connected x.other ∧
      c'.critical x.other = c.critical x.other ∧ c'.eligible x.other = c.eligible x.other := by
  simp only [Ctl.active, Ctl.connected, Ctl.critical, Ctl.eligible, h.other, and_self]

end Changes

/-- A change that adjusts `alone` and `num_proc` by what it adds to the active and connected
    processes keeps the accounts; a new active process found nobody else. -/
theorem Acct.change {c c' : Ctl} {x : Side} {p : Phase} {q : Option Phase} {so tx ty al np : Int}
    (h : Acct c) (hc : Change c c' x p q so tx ty al np)
    (hal : al = ((q.any Phase.active).toNat : Int) - p.active.toNat)
    (hnp : np = ((q.any Phase.connected).toNat : Int) - p.connected.toNat)
    (hnew : p.active = true ∨ q.any Phase.active = false ∨ c.alone x = 0) : Acct c' := by
  obtain ⟨hact, hconn, _⟩ := hc.sums
  obtain ⟨hact', hconn', _, _⟩ := hc.sums_other
  have halone := h.alone x
  have halone' := h.alone x.other
  have hle := h.le_one x
  have hle' := h.le_one x.other
  have hnum := h.numProc_eq x
  have hown := hc.aloneOwn
  have hother := hc.aloneOther
  have hnumProc := hc.numProc
  refine ⟨fun z => ?_, fun z => ?_, ?_⟩
  · rcases x.eq_or_other z with rfl | rfl <;> omega
  · rcases x.eq_or_other z with rfl | rfl
    · rcases hnew with hp | hq | hz
      · rw [hp, Bool.toNat_true] at hact
        have hbound : (q.any Phase.active).toNat ≤ 1 := Bool.toNat_le _
        omega
      · rw [hq, Bool.toNat_false] at hact
        omega
      · have hbound : (q.any Phase.active).toNat ≤ 1 := Bool.toNat_le _
        omega
    · omega
  · cases x with
    | left => simp only [Side.other] at *; omega
    | right => simp only [Side.other] at *; omega

/-- **Every step keeps the accounts**, whoever dies when. -/
theorem Acct.step {init : Side → Nat} {c c' : Ctl} {x : Side} (h : Acct c)
    (hs : CtlStep init c c' x) : Acct c' := by
  obtain ⟨hrule, hc⟩ := hs
  generalize c'.slot x = slot at hrule
  cases hrule with
  | alone hg => exact h.change hc rfl rfl (.inr (.inr hg))
  | wait => exact h.change hc rfl rfl (.inl rfl)
  | setval => exact h.change hc rfl rfl (.inl rfl)
  | post => exact h.change hc rfl rfl (.inl rfl)
  | connect => exact h.change hc rfl rfl (.inl rfl)
  | take => exact h.change hc rfl rfl (.inl rfl)
  | check => exact h.change hc rfl rfl (.inl rfl)
  | give => exact h.change hc rfl rfl (.inl rfl)
  | giveLast => exact h.change hc rfl rfl (.inl rfl)
  | leave => exact h.change hc rfl rfl (.inl rfl)
  | giveUp => exact h.change hc rfl rfl (.inr (.inl rfl))
  | die p => exact h.change hc (by simp) (by simp) (.inr (.inl rfl))

/-! ## Tokens -/

/-- The phases of a side, as parts of its sums. -/
theorem Ctl.parts (c : Ctl) (x : Side) :
    c.n x .wait + c.n x .setval + c.n x .post + c.n x .posted + c.connected x = c.active x ∧
      c.n x .conn + c.critical x + c.n x .leaving = c.connected x ∧
      c.n x .check + c.n x .checked = c.critical x := by
  unfold Ctl.active Ctl.connected Ctl.critical
  omega

/-- Tokens and connections of side `x`, tied to those of the other side. -/
structure TokensAt (c : Ctl) (x : Side) : Prop where
  /-- a token is there only while its owner waits or is connected, … -/
  tok_le : c.tok x ≤ c.n x .posted + c.connected x
  /-- … and until the other side connects; -/
  tok_other : c.tok x + c.connected x.other ≤ 1
  /-- a token that is gone was taken by the other side, -/
  taken : c.n x .posted ≤ c.tok x + c.connected x.other
  /-- whose own token is then still there; -/
  taken_tok : c.n x .posted ≤ c.tok x + c.tok x.other
  /-- nobody gets in while the other side is connected; -/
  quiet : c.n x .setval + c.n x .post + c.connected x.other ≤ 1
  /-- and past a successful check both tokens are used up. -/
  used : c.n x .checked + c.n x .leaving + c.tok x ≤ 1

/-- Both sides still have somebody to hand over to. -/
def Guarded (c : Ctl) : Prop := ∀ x, 0 < c.eligible x

/-- Nobody dies while its token lies there, unless it leaves nobody on its side. -/
def CleanStep (c c' : Ctl) (x : Side) : Prop :=
  c'.alive x < c.alive x → c'.n x .posted + c'.connected x < c.n x .posted + c.connected x →
    0 < c.tok x → c'.eligible x = 0

/-- A process that only moves on does not die. -/
theorem CleanStep.of_change {c c' : Ctl} {x : Side} {p r : Phase} {so tx ty al np : Int}
    (h : Change c c' x p (some r) so tx ty al np) : CleanStep c c' x := by
  intro hlt
  have e₀ := h.own .start
  have e₉ := h.own .ended
  have hact := h.sums.1
  simp only [Option.some.injEq, Option.any_some] at e₀ e₉ hact
  have hp := indicator_alive p
  have hr := indicator_alive r
  unfold Ctl.alive at hlt
  omega

/-- A death is clean when its token is not there, or nobody is still to come. -/
theorem CleanStep.of_death {c c' : Ctl} {x : Side} {p : Phase} (hle : c.active x ≤ 1)
    (hown : ∀ ph, c'.n x ph + (if ph = p then 1 else 0) = c.n x ph)
    (hlast : p.paired = true → 0 < c.tok x → c'.n x .start = 0) : CleanStep c c' x := by
  intro _ hlt htok
  obtain ⟨hact, hconn, -⟩ := sums_of_own (q := none) hown
  have hposted := hown .posted
  simp only [Option.any_none, Bool.toNat_false, Nat.add_zero] at hact hconn
  have hstart : p.paired = true → c'.n x .start = 0 := fun h => hlast h htok
  unfold Ctl.eligible
  cases p with
  | posted =>
    simp only [Phase.active, Bool.toNat_true] at hact
    have hz := hstart rfl
    omega
  | conn | check | checked | leaving =>
    simp only [Phase.active, Bool.toNat_true] at hact
    have hz := hstart rfl
    omega
  | _ =>
    -- nobody who has posted a token is gone
    simp only [Phase.connected, reduceCtorEq, if_false, Bool.toNat_false] at hconn hposted
    omega

/-- In a clean step a token that lies there keeps its owner. -/
theorem CtlStep.keep {init : Side → Nat} {c c' : Ctl} {x : Side} (hs : CtlStep init c c' x)
    (hp : TokensAt c x) (hclean : CleanStep c c' x) (hg : Guarded c') :
    c.tok x = 0 ∨ c.n x .posted + c.connected x ≤ c'.n x .posted + c'.connected x := by
  rcases Nat.eq_zero_or_pos (c.tok x) with hz | hpos
  · exact .inl hz
  refine .inr (Nat.le_of_not_lt fun hlt => ?_)
  have hgx := hg x
  have hused := hp.used
  obtain @⟨p, q, so, tx, ty, al, np, hrule, hc⟩ := hs
  have hpart := indicator_alive p
  have hconn := hc.sums.2.1
  have hact := hc.sums.1
  have e₀ := hc.own .start
  have e₄ := hc.own .posted
  have e₈ := hc.own .leaving
  have e₉ := hc.own .ended
  generalize c'.slot x = slot at hrule
  cases hrule with
  | die p =>
    have hgone : c'.alive x < c.alive x := by
      simp only [reduceCtorEq, if_false, Nat.add_zero, Option.any_none, Bool.toNat_false]
        at e₀ e₉ hact
      unfold Ctl.alive
      omega
    rw [hclean hgone hlt hpos] at hgx
    exact absurd hgx (Nat.lt_irrefl 0)
  | _ =>
    simp only [reduceCtorEq, if_false, if_true, Option.some.injEq, Nat.add_zero, Option.any_some,
      Phase.connected, Bool.toNat_true, Bool.toNat_false] at e₄ e₈ hconn
    omega

/-- The tokens of the side that moves. A death is apart, since it needs the token kept (`hkeep`);
    for the other rules `parts` and `Acct` bring the counts of a side down to 0 and 1, and the rest
    is arithmetic. -/
theorem TokensAt.step_own {init : Side → Nat} {c c' : Ctl} {x : Side} (ha : Acct c)
    (hp : ∀ x, TokensAt c x) (hs : CtlStep init c c' x)
    (hkeep : c.tok x = 0 ∨ c.n x .posted + c.connected x ≤ c'.n x .posted + c'.connected x) :
    TokensAt c' x := by
  obtain ⟨hrule, hc⟩ := hs
  obtain ⟨tx, ox, kx, ktx, qx, ux⟩ := hp x
  obtain ⟨ty, oy, ky, kty, qy, uy⟩ := hp x.other
  have hlx := ha.le_one x
  have hly := ha.le_one x.other
  have hn := ha.numProc_eq x
  obtain ⟨px₁, px₂, px₃⟩ := c.parts x
  obtain ⟨py₁, -, -⟩ := c.parts x.other
  obtain ⟨-, hconn, -⟩ := hc.sums
  obtain ⟨-, hconn', -, -⟩ := hc.sums_other
  obtain ⟨hown, hoth, -, htx, hty, -, -, -⟩ := hc
  have e₁ := hown .wait
  have e₂ := hown .setval
  have e₃ := hown .post
  have e₄ := hown .posted
  have e₆ := hown .check
  have e₇ := hown .checked
  have e₈ := hown .leaving
  rw [Side.other_other] at oy ky kty qy
  generalize c'.slot x = slot at hrule
  cases hrule with
  | die p =>
    simp only [reduceCtorEq, if_false, Nat.add_zero, Option.any_none, Bool.toNat_false]
      at e₁ e₂ e₃ e₄ e₆ e₇ e₈ hconn
    rcases hkeep with h | h
    · refine ⟨?_, ?_, ?_, ?_, ?_, ?_⟩ <;> omega
    · refine ⟨?_, ?_, ?_, ?_, ?_, ?_⟩ <;> omega
  | _ =>
    clear hkeep
    simp only [reduceCtorEq, if_false, if_true, Option.some.injEq, Nat.add_zero, Option.any_some,
      Phase.connected, Bool.toNat_true, Bool.toNat_false] at e₁ e₂ e₃ e₄ e₆ e₇ e₈ hconn
    refine ⟨?_, ?_, ?_, ?_, ?_, ?_⟩ <;> omega

/-- The tokens of the other side, which the step has not touched but may have taken from. -/
theorem TokensAt.step_other {init : Side → Nat} {c c' : Ctl} {x : Side} (ha : Acct c)
    (hp : ∀ x, TokensAt c x) (hs : CtlStep init c c' x)
    (hkeep : c.tok x = 0 ∨ c.n x .posted + c.connected x ≤ c'.n x .posted + c'.connected x) :
    TokensAt c' x.other := by
  obtain ⟨hrule, hc⟩ := hs
  obtain ⟨tx, -, kx, ktx, -, ux⟩ := hp x
  obtain ⟨ty, oy, ky, kty, qy, uy⟩ := hp x.other
  have hlx := ha.le_one x
  have hly := ha.le_one x.other
  obtain ⟨px, -, -⟩ := c.parts x
  obtain ⟨py, -, -⟩ := c.parts x.other
  obtain ⟨-, hconn, -⟩ := hc.sums
  obtain ⟨-, hconn', -, -⟩ := hc.sums_other
  obtain ⟨hown, hoth, -, htx, hty, -, -, -⟩ := hc
  have e₄ := hown .posted
  have e₈ := hown .leaving
  rw [Side.other_other] at oy ky kty qy
  generalize c'.slot x = slot at hrule
  cases hrule with
  | die p =>
    simp only [reduceCtorEq, if_false, Nat.add_zero, Option.any_none, Bool.toNat_false]
      at e₄ e₈ hconn
    rcases hkeep with h | h
    · refine ⟨?_, ?_, ?_, ?_, ?_, ?_⟩ <;> simp only [hoth, Side.other_other] <;> omega
    · refine ⟨?_, ?_, ?_, ?_, ?_, ?_⟩ <;> simp only [hoth, Side.other_other] <;> omega
  | _ =>
    clear hkeep
    simp only [reduceCtorEq, if_false, if_true, Option.some.injEq, Nat.add_zero, Option.any_some,
      Phase.connected, Bool.toNat_true, Bool.toNat_false] at e₄ e₈ hconn
    refine ⟨?_, ?_, ?_, ?_, ?_, ?_⟩ <;> simp only [hoth, Side.other_other] <;> omega

/-! ## Slots -/

/-- The slots of the two sides, as side `x` sees them. -/
structure SlotsAt (init : Side → Nat) (c : Ctl) (x : Side) : Prop where
  /-- A side that is alone has its slot at the initial value, … -/
  slot_post : c.n x .post = 1 → c.slot x = init x
  slot_posted : c.n x .posted = 1 → c.n x.other .posted + c.connected x.other = 0 →
    c.slot x = init x
  /-- … and once both sides have posted, exactly one of the two slots and the two critical
      phases is occupied. -/
  one : c.n x .posted + c.connected x = 1 → c.n x.other .posted + c.connected x.other = 1 →
    c.slot x + c.slot x.other + c.critical x + c.critical x.other = 1

section Slots

variable {init : Side → Nat} {c c' : Ctl} {x : Side}

/-- The slot of the side that moves, in front of its token: set to its initial value by `setval`,
    and nobody else has been there since. -/
theorem slot_post_own (ha : Acct c) (h : SlotsAt init c x) (hs : CtlStep init c c' x)
    (hpost : c'.n x .post = 1) : c'.slot x = init x := by
  obtain ⟨hrule, hc⟩ := hs
  have hlx := ha.le_one x
  obtain ⟨px, px₂, px₃⟩ := c.parts x
  have hsx := h.slot_post
  have hconn := hc.sums.2.1
  have e₃ := hc.own .post
  have e₇ := hc.own .checked
  have e₈ := hc.own .leaving
  generalize c'.slot x = slot at hrule ⊢
  cases hrule with
  | die p _ hslot =>
    simp only [reduceCtorEq, if_false, Nat.add_zero, Option.any_none, Bool.toNat_false]
      at e₃ e₇ e₈ hconn
    rcases hslot with hslot | hp | hnone
    · omega
    · rw [hp, Bool.toNat_true] at hconn
      omega
    · omega
  | _ =>
    simp only [reduceCtorEq, if_false, if_true, Option.some.injEq, Nat.add_zero, Option.any_some,
      Phase.connected, Bool.toNat_true, Bool.toNat_false] at e₃ e₇ e₈ hconn
    omega

/-- The other side has its slot as it was, since nobody takes from it before it has posted. -/
theorem slot_post_other (hp : ∀ x, TokensAt c x) (h : SlotsAt init c x.other)
    (hs : CtlStep init c c' x) (hpost : c'.n x.other .post = 1) :
    c'.slot x.other = init x.other := by
  obtain ⟨hrule, hc⟩ := hs
  have hsy := h.slot_post
  have hquiet := (hp x.other).quiet
  obtain ⟨-, px, -⟩ := c.parts x
  have hslot := hc.slotOther
  have e₅ := hc.own .conn
  rw [hc.other] at hpost
  rw [Side.other_other] at hquiet
  generalize c'.slot x = slot at hrule
  cases hrule with
  | take =>
    simp only [reduceCtorEq, if_false, if_true, Option.some.injEq, Nat.add_zero] at e₅
    omega
  | _ => omega

/-- The slot of the side that moves, behind its token, while the other side has not posted. -/
theorem slot_posted_own (ha : Acct c) (h : SlotsAt init c x) (hs : CtlStep init c c' x)
    (hx : c'.n x .posted = 1) (hy : c'.n x.other .posted + c'.connected x.other = 0) :
    c'.slot x = init x := by
  obtain ⟨hrule, hc⟩ := hs
  have hlx := ha.le_one x
  obtain ⟨px, px₂, px₃⟩ := c.parts x
  have hpost := h.slot_post
  have hposted := h.slot_posted
  have hconn := hc.sums.2.1
  have hconn' := hc.sums_other.2.1
  have e₂ := hc.own .setval
  have e₃ := hc.own .post
  have e₄ := hc.own .posted
  have e₇ := hc.own .checked
  have e₈ := hc.own .leaving
  rw [hc.other] at hy
  generalize c'.slot x = slot at hrule ⊢
  cases hrule with
  | die p _ hslot =>
    simp only [reduceCtorEq, if_false, Nat.add_zero, Option.any_none, Bool.toNat_false]
      at e₄ hconn
    rcases hslot with hslot | hp | hnone
    · omega
    · rw [hp, Bool.toNat_true] at hconn
      omega
    · omega
  | _ =>
    simp only [reduceCtorEq, if_false, if_true, Option.some.injEq, Nat.add_zero, Option.any_some,
      Phase.connected, Bool.toNat_true, Bool.toNat_false] at e₂ e₃ e₄ e₇ e₈ hconn
    omega

/-- The same for the other side. If the process that moves has just gone, its token is what keeps
    this from being the case. -/
theorem slot_posted_other (ha : Acct c) (hp : ∀ x, TokensAt c x) (h : SlotsAt init c x.other)
    (hs : CtlStep init c c' x)
    (hkeep : c.tok x = 0 ∨ c.n x .posted + c.connected x ≤ c'.n x .posted + c'.connected x)
    (hy : c'.n x.other .posted = 1) (hx : c'.n x .posted + c'.connected x = 0) :
    c'.slot x.other = init x.other := by
  obtain ⟨hrule, hc⟩ := hs
  have hly := ha.le_one x.other
  obtain ⟨py, -, -⟩ := c.parts x.other
  obtain ⟨-, px, -⟩ := c.parts x
  have hposted := h.slot_posted
  obtain ⟨-, -, kx, ktx, -, ux⟩ := hp x
  obtain ⟨-, oy, ky, kty, -, -⟩ := hp x.other
  have hconn := hc.sums.2.1
  have hslot := hc.slotOther
  have e₄ := hc.own .posted
  have e₅ := hc.own .conn
  have e₈ := hc.own .leaving
  rw [hc.other] at hy
  rw [Side.other_other] at hposted oy ky kty
  generalize c'.slot x = slot at hrule
  cases hrule with
  | die p =>
    simp only [reduceCtorEq, if_false, Nat.add_zero, Option.any_none, Bool.toNat_false]
      at e₄ hconn
    rcases hkeep with hk | hk <;> omega
  | _ =>
    clear hkeep
    simp only [reduceCtorEq, if_false, if_true, Option.some.injEq, Nat.add_zero, Option.any_some,
      Phase.connected, Bool.toNat_true, Bool.toNat_false] at e₄ e₅ e₈ hconn
    omega

/-- Once both sides have posted, one block is under way: in one of the slots or in the hands of one
    of the two. When the second of them posts, both slots are at their initial values, whose sum is
    1; from then on a process takes one from a slot and gives one to the other. -/
theorem slots_one (hinit : init x + init x.other = 1) (ha : Acct c) (hp : ∀ x, TokensAt c x)
    (h : ∀ x, SlotsAt init c x) (hs : CtlStep init c c' x)
    (hx : c'.n x .posted + c'.connected x = 1)
    (hy : c'.n x.other .posted + c'.connected x.other = 1) :
    c'.slot x + c'.slot x.other + c'.critical x + c'.critical x.other = 1 := by
  obtain @⟨p, q, so, tx, ty, al, np, hrule, hc⟩ := hs
  have hcp := p.critical_le
  have hlx := ha.le_one x
  obtain ⟨px, px₂, px₃⟩ := c.parts x
  obtain ⟨-, py₂, -⟩ := c.parts x.other
  have hpost := (h x).slot_post
  have hone := (h x).one
  have hposted := (h x.other).slot_posted
  have hquiet := (hp x).quiet
  obtain ⟨-, hconn, hcrit⟩ := hc.sums
  obtain ⟨-, hconn', hcrit', -⟩ := hc.sums_other
  have hslot := hc.slotOther
  have e₂ := hc.own .setval
  have e₃ := hc.own .post
  have e₄ := hc.own .posted
  rw [hc.other] at hy
  rw [Side.other_other] at hposted
  generalize c'.slot x = slot at hrule ⊢
  cases hrule with
  | die p _ hs =>
    simp only [reduceCtorEq, if_false, Nat.add_zero, Option.any_none, Bool.toNat_false]
      at e₃ e₄ hconn hcrit
    rcases hs with hs | hp | hnone
    · omega
    · rw [hp, Bool.toNat_true] at hconn
      omega
    · omega
  | _ =>
    simp only [reduceCtorEq, if_false, if_true, Option.some.injEq, Nat.add_zero, Option.any_some,
      Phase.connected, Phase.critical, Bool.toNat_true, Bool.toNat_false] at e₂ e₃ e₄ hconn hcrit
    omega

end Slots

/-! ## The protocol -/

/-- Tokens and slots of both sides. -/
structure Paired (init : Side → Nat) (c : Ctl) : Prop where
  tokens : ∀ x, TokensAt c x
  slots : ∀ x, SlotsAt init c x

section Protocol

variable {init : Side → Nat} {c c' : Ctl} {x : Side}

/-- A clean step that leaves somebody to hand over to keeps the pairing. -/
theorem Paired.step (hinit : init x + init x.other = 1) (ha : Acct c) (hp : Paired init c)
    (hs : CtlStep init c c' x) (hclean : CleanStep c c' x) (hguard : Guarded c') :
    Paired init c' := by
  have hkeep := hs.keep (hp.tokens x) hclean hguard
  have hone := slots_one hinit ha hp.tokens hp.slots hs
  constructor
  · intro z
    rcases x.eq_or_other z with rfl | rfl
    · exact TokensAt.step_own ha hp.tokens hs hkeep
    · exact TokensAt.step_other ha hp.tokens hs hkeep
  · intro z
    rcases x.eq_or_other z with rfl | rfl
    · exact ⟨slot_post_own ha (hp.slots _) hs, slot_posted_own ha (hp.slots _) hs, hone⟩
    · refine ⟨slot_post_other hp.tokens (hp.slots _) hs, ?_, ?_⟩
      · rw [Side.other_other]
        exact slot_posted_other ha hp.tokens (hp.slots _) hs hkeep
      · rw [Side.other_other]
        intro hy hx
        have h := hone hx hy
        omega

/-- Nobody gets in later than at the start. -/
theorem eligible_le (hs : CtlStep init c c' x) (z : Side) : c'.eligible z ≤ c.eligible z := by
  obtain ⟨hrule, hc⟩ := hs
  rcases x.eq_or_other z with rfl | rfl
  · have hact := hc.sums.1
    have e₀ := hc.own .start
    unfold Ctl.eligible
    generalize c'.slot z = slot at hrule
    cases hrule <;>
      simp only [reduceCtorEq, if_false, if_true, Option.some.injEq, Nat.add_zero,
        Option.any_some, Option.any_none, Phase.active, Bool.toNat_true, Bool.toNat_false]
        at e₀ hact <;> omega
  · exact Nat.le_of_eq hc.sums_other.2.2.2

/-- The accounts, and the pairing while both sides have somebody to hand over to. -/
structure Safe (init : Side → Nat) (c : Ctl) : Prop where
  acct : Acct c
  paired : Guarded c → Paired init c

/-- **One step of the protocol.** -/
theorem Safe.step (hinit : init x + init x.other = 1) (h : Safe init c)
    (hs : CtlStep init c c' x) (hclean : CleanStep c c' x) : Safe init c' := by
  refine ⟨h.acct.step hs, fun hg => ?_⟩
  have hg' : Guarded c := fun z => Nat.lt_of_lt_of_le (hg z) (eligible_le hs z)
  exact (h.paired hg').step hinit h.acct hs hclean hg

/-- Two processes are never in their critical phases at once. -/
theorem Safe.exclusive (h : Safe init c) : c.critical .left + c.critical .right ≤ 1 := by
  have hl := h.acct.le_one .left
  have hr := h.acct.le_one .right
  have hpl := c.parts .left
  have hpr := c.parts .right
  by_cases hg : Guarded c
  · have hone := ((h.paired hg).slots .left).one
    simp only [Side.other] at hone
    omega
  · obtain ⟨z, hz⟩ := not_forall.mp hg
    unfold Ctl.eligible at hz
    cases z <;> omega

/-- A check that succeeds finds one connected process on each side. -/
theorem Acct.both_connected (h : Acct c) (hn : 2 ≤ c.numProc) (x : Side) : c.connected x = 1 := by
  have hsum := h.numProc_eq x
  have hx := h.le_one x
  have hy := h.le_one x.other
  have hpx := c.parts x
  have hpy := c.parts x.other
  omega

/-- With both sides connected each of them may proceed. -/
theorem Acct.guarded (h : Acct c) (hn : 2 ≤ c.numProc) : Guarded c := by
  intro x
  have hle := (c.parts x).1
  have hone := h.both_connected hn x
  unfold Ctl.eligible
  omega

end Protocol

end Lib
