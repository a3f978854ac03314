import NmpStore.Base

/-! # The completion door of a signer

Senders, a canceller and one consumer meet at a slot that is filled once. Every lock acquisition is one step.
-/

namespace NmpStore.Signer

inductive DoorLifecycle (T : Type) where
  | open
  | resolved (value : Option T)
  | cancelledUnresolved
  | cancelledResolved
  | receiverGoneUnresolved
  | receiverGoneResolved
  deriving DecidableEq

variable {T : Type}

/-- The result a sender gave, or an error of the door's own. -/
inductive Outcome (T : Type) where
  | value (result : T)
  | timeout
  | disconnected
  deriving DecidableEq

def Outcome.isValue : Outcome T → Bool
  | value _ => true
  | _ => false

inductive Wait where
  | idle
  | parked
  | notified
  deriving DecidableEq

structure Door (T : Type) where
  lifecycle : DoorLifecycle T := .open
  senders : Nat := 1
  /-- The last sender is gone and has not locked the door yet. -/
  dropping : Bool := false
  wait : Wait := .idle
  /-- The operation still has its cancel hook. -/
  pending : Bool := true
  hookRuns : Nat := 0
  alive : Bool := true
  outcome : Option (Outcome T) := none
  /-- The results of the calls of resolve that returned Ok. -/
  accepted : List T := []
  /-- A cancellation or a drop came before the consumer's last step. -/
  stopped : Bool := false
  /-- A wait timed out and found a result. -/
  late : Bool := false
  deriving DecidableEq

namespace DoorLifecycle

def cancel : DoorLifecycle T → DoorLifecycle T
  | .open => .cancelledUnresolved
  | resolved _ => cancelledResolved
  | other => other

/-- A sender has claimed the result. -/
def claimed : DoorLifecycle T → Bool
  | resolved _ | cancelledResolved | receiverGoneResolved => true
  | _ => false

def markReceiverGone (l : DoorLifecycle T) : DoorLifecycle T :=
  if l.claimed then receiverGoneResolved else receiverGoneUnresolved

/-- The outcome, whether the adapter is cancelled, and the lifecycle that is left. -/
def takeTerminal (senders : Nat) : DoorLifecycle T → Option (Outcome T × Bool × DoorLifecycle T)
  | cancelledUnresolved => some (.disconnected, true, cancelledUnresolved)
  | cancelledResolved => some (.disconnected, true, cancelledResolved)
  | resolved value => some (value.elim .disconnected .value, false, resolved none)
  | .open => if senders = 0 then some (.disconnected, false, .open) else none
  | other => some (.disconnected, false, other)

theorem takeTerminal_cases (l : DoorLifecycle T) (sn : Nat) :
    (∃ rs, l = resolved (some rs) ∧ l.takeTerminal sn = some (.value rs, false, resolved none)) ∨
    (∃ cancelAdapter, (l = .open → sn = 0) ∧ (∀ rs, l ≠ resolved (some rs)) ∧
      l.takeTerminal sn = some (.disconnected, cancelAdapter, l)) ∨
    l = .open ∧ 0 < sn ∧ l.takeTerminal sn = none := by
  cases l with
  | «open» =>
    rcases sn.eq_zero_or_pos with rfl | hp
    · exact .inr (.inl ⟨false, fun _ => rfl, nofun, rfl⟩)
    · exact .inr (.inr ⟨rfl, hp, if_neg hp.ne'⟩)
  | resolved vl =>
    cases vl with
    | none => exact .inr (.inl ⟨false, nofun, nofun, rfl⟩)
    | some rs => exact .inl ⟨rs, rfl, rfl⟩
  | _ => exact .inr (.inl ⟨_, nofun, nofun, rfl⟩)

end DoorLifecycle

namespace Door

def wake (d : Door T) : Door T := { d with wait := if d.wait = .parked then .notified else d.wait }

def finish (d : Door T) (outcome : Outcome T) (cancelAdapter : Bool) : Door T :=
  { d with
    outcome := some outcome, wait := .idle, pending := false
    hookRuns := if d.pending ∧ cancelAdapter then d.hookRuns + 1 else d.hookRuns }

def resolve (d : Door T) (result : T) : Door T :=
  match d.lifecycle with
  | .open => { d with lifecycle := .resolved (some result), accepted := result :: d.accepted }.wake
  | .cancelledUnresolved => { d with lifecycle := .cancelledResolved }
  | .receiverGoneUnresolved => { d with lifecycle := .receiverGoneResolved }
  | _ => d

/-- One turn of the consumer's loop: a result ends it, and so does an elapsed timeout. -/
def turn (d : Door T) (expired park : Bool) : Door T :=
  match d.lifecycle.takeTerminal d.senders with
  | some (outcome, cancelAdapter, lifecycle) => { d with lifecycle }.finish outcome cancelAdapter
  | none => if expired then d.finish .timeout true else { d with wait := if park then .parked else .idle }

/-- A wait that timed out looks at the door before it goes on with its loop. -/
def timedOut (d : Door T) : Door T :=
  match d.lifecycle.takeTerminal d.senders with
  | some (outcome, _, lifecycle) => { d with lifecycle, late := outcome.isValue }.turn true true
  | none => d.finish .timeout true

end Door

/-- What can happen next at the door. -/
inductive Door.Step : Door T → Door T → Prop
  | clone {d : Door T} (hLive : 0 < d.senders) : Step d { d with senders := d.senders + 1 }
  | drop {d : Door T} (hLive : 0 < d.senders) :
      Step d { d with senders := d.senders - 1, dropping := d.senders = 1 || d.dropping }
  | dropped {d : Door T} (hLast : d.dropping) :
      Step d (if d.lifecycle.claimed then { d with dropping := false } else { d.wake with dropping := false })
  | resolve {d : Door T} (result : T) (hLive : 0 < d.senders) : Step d (d.resolve result)
  | cancel {d : Door T} :
      Step d { d.wake with lifecycle := d.lifecycle.cancel, stopped := d.outcome = none || d.stopped }
  | turn {d : Door T} (expired park : Bool) (hAlive : d.alive) (hNone : d.outcome = none) : Step d (d.turn expired park)
  | timedOut {d : Door T} (hAlive : d.alive) (hNone : d.outcome = none) (hWait : d.wait ≠ .idle) :
      Step d d.timedOut
  | gone {d : Door T} (hAlive : d.alive) : Step d
      { d with
        lifecycle := d.lifecycle.markReceiverGone, alive := false, pending := false, wait := .idle
        hookRuns := if d.pending then d.hookRuns + 1 else d.hookRuns, stopped := d.outcome = none || d.stopped }

inductive Door.Reaches : Door T → Prop
  | start : Reaches {}
  | step {d d' : Door T} (before : Reaches d) (next : d.Step d') : Reaches d'

/-- The results accepted so far, as the lifecycle tells them. -/
def DoorLifecycle.Accepts (accepted : List T) : DoorLifecycle T → Prop
  | .open | cancelledUnresolved | receiverGoneUnresolved => accepted = []
  | resolved (some result) => accepted = [result]
  | _ => accepted.length ≤ 1

structure Door.Inv (d : Door T) : Prop where
  accepts : d.lifecycle.Accepts d.accepted
  late : d.outcome ≠ some .disconnected → d.late = false
  stopped : d.outcome = none → d.stopped → d.lifecycle ≠ .open
  opened : d.outcome = none → d.stopped = false → d.lifecycle = .open ∨ ∃ result, d.lifecycle = .resolved (some result)
  ended : d.outcome ≠ none → d.pending = false
  value : ∀ result, d.outcome = some (.value result) → d.accepted = [result] ∧ d.hookRuns = 0
  disconnected : d.outcome = some .disconnected → d.stopped ∨ d.late ∨ d.senders = 0 ∧ d.accepted = []
  pending : d.outcome = none → d.alive → d.pending
  hook : d.hookRuns ≤ 1 ∧ (d.pending → d.hookRuns = 0)

/-- A consumer that is parked has nothing to see, or is about to be woken. -/
def Door.Parks (d : Door T) : Prop :=
  d.alive → d.outcome = none → d.wait = .parked → d.lifecycle = .open ∧ (0 < d.senders ∨ d.dropping)

theorem DoorLifecycle.Accepts.length_le {l : DoorLifecycle T} (h : l.Accepts accepted) : accepted.length ≤ 1 := by
  rcases l with _ | (_ | _) | _ | _ | _ | _ <;> simp_all [Accepts]

namespace Door.Inv

variable {d : Door T} (h : d.Inv)

include h

/-- The consumer's last step, which may leave another lifecycle and a late result behind. -/
theorem finish (ha : d.alive) (hn : d.outcome = none) {l : DoorLifecycle T} {late cn : Bool}
    {ot : Outcome T} (hl : l.Accepts d.accepted) (hL : ot ≠ .disconnected → late = false)
    (hv : ∀ rs, ot = .value rs → d.accepted = [rs] ∧ cn = false)
    (he : ot = .disconnected → d.stopped ∨ late ∨ d.senders = 0 ∧ d.accepted = []) :
    Inv ({ d with lifecycle := l, late }.finish ot cn) := by
  have hR := h.hook.2 (h.pending hn ha)
  refine ⟨hl, fun ho => hL fun hd => ho (congrArg some hd), nofun, nofun, fun _ => rfl, fun rs ho => ?_,
    fun ho => he (Option.some.inj ho), nofun, ?_, nofun⟩
  · obtain ⟨h1, rfl⟩ := hv rs (Option.some.inj ho)
    exact ⟨h1, by simpa [Door.finish] using hR⟩
  · simp only [Door.finish, hR]
    split <;> decide

/-- A door that is not open has a result, or was stopped. -/
theorem ended_iff (hn : d.outcome = none) (hO : d.lifecycle = .open → d.senders = 0)
    (hr : ∀ rs, d.lifecycle ≠ .resolved (some rs)) : d.stopped ∨ d.senders = 0 ∧ d.accepted = [] := by
  cases hs : d.stopped with
  | true => exact .inl rfl
  | false =>
    rcases h.opened hn hs with hl | ⟨rs, hl⟩
    · exact .inr ⟨hO hl, by simpa [hl, DoorLifecycle.Accepts] using h.accepts⟩
    · exact absurd hl (hr rs)

theorem turn (ex pr : Bool) (ha : d.alive) (hn : d.outcome = none) : (d.turn ex pr).Inv := by
  have hL := h.late (by simp [hn])
  rw [Door.turn]
  rcases d.lifecycle.takeTerminal_cases d.senders with ⟨rs, hl, ht⟩ | ⟨cn, hO, hr, ht⟩ | ⟨hl, -, ht⟩
  · have h1 : d.accepted = [rs] := by simpa [hl, DoorLifecycle.Accepts] using h.accepts
    rw [ht]
    exact h.finish ha hn (by simp [DoorLifecycle.Accepts, h1]) (fun _ => hL)
      (fun r hr => ⟨Outcome.value.inj hr ▸ h1, rfl⟩) nofun
  · rw [ht]
    exact h.finish ha hn h.accepts (fun _ => hL) nofun
      fun _ => (h.ended_iff hn hO hr).imp_right .inr
  · rw [ht]
    cases ex with
    | true => exact h.finish ha hn h.accepts (fun _ => hL) nofun nofun
    | false => exact ⟨h.accepts, h.late, h.stopped, h.opened, h.ended, h.value, h.disconnected, h.pending, h.hook⟩

theorem timedOut (ha : d.alive) (hn : d.outcome = none) : d.timedOut.Inv := by
  have hL := h.late (by simp [hn])
  rw [Door.timedOut]
  rcases d.lifecycle.takeTerminal_cases d.senders with ⟨result, hl, ht⟩ | ⟨cn, hO, hr, ht⟩ | ⟨hl, -, ht⟩
  · -- the result is taken here, so that the turn finds none
    have h1 : d.accepted = [result] := by simpa [hl, DoorLifecycle.Accepts] using h.accepts
    rw [ht]
    exact h.finish ha hn (by simp [DoorLifecycle.Accepts, h1]) (absurd rfl) nofun fun _ => .inr (.inl rfl)
  · simp only [ht, Door.turn]
    exact h.finish ha hn h.accepts (fun _ => rfl) nofun
      fun _ => (h.ended_iff hn hO hr).imp_right .inr
  · rw [ht]
    exact h.finish ha hn h.accepts (fun _ => hL) nofun nofun

theorem resolve (result : T) (hi : 0 < d.senders) : (d.resolve result).Inv := by
  cases h
  unfold Door.resolve
  split <;> rename_i hS <;> constructor <;> simp_all [wake, DoorLifecycle.Accepts, hi.ne']

theorem cancel : Inv { d.wake with lifecycle := d.lifecycle.cancel, stopped := d.outcome = none || d.stopped } := by
  cases h
  rcases hS : d.lifecycle with _ | (_ | result) | _ | _ | _ | _ <;> constructor <;>
    simp_all [wake, DoorLifecycle.cancel, DoorLifecycle.Accepts]

theorem gone : Inv { d with
    lifecycle := d.lifecycle.markReceiverGone, alive := false, pending := false, wait := .idle
    hookRuns := if d.pending then d.hookRuns + 1 else d.hookRuns, stopped := d.outcome = none || d.stopped } := by
  cases h
  rcases hS : d.lifecycle with _ | (_ | result) | _ | _ | _ | _ <;> constructor <;>
    simp_all [DoorLifecycle.markReceiverGone, DoorLifecycle.claimed, DoorLifecycle.Accepts] <;> split_ifs <;> simp_all

/-- Senders come and go, and the consumer is woken. -/
theorem senders {senders : Nat} {dropping : Bool} {wait : Wait} (hi : 0 < d.senders) :
    Inv { d with senders, dropping, wait } :=
  ⟨h.accepts, h.late, h.stopped, h.opened, h.ended, h.value, fun hU => (h.disconnected hU).imp_right
    (Or.imp_right fun hZ => absurd hZ.1 hi.ne'), h.pending, h.hook⟩

end Door.Inv

theorem wake_ne_parked (d : Door T) : d.wake.wait ≠ .parked := by
  unfold Door.wake
  split_ifs with hw
  · nofun
  · exact hw

theorem Door.Step.inv {d d' : Door T} (next : d.Step d') (h : d.Inv) : d'.Inv := by
  cases next with
  | clone hi | drop hi => exact h.senders hi
  | dropped => split <;> exact ⟨h.accepts, h.late, h.stopped, h.opened, h.ended, h.value, h.disconnected, h.pending, h.hook⟩
  | resolve rs hi => exact h.resolve rs hi
  | cancel => exact h.cancel
  | turn ex pr ha hn => exact h.turn ex pr ha hn
  | timedOut ha hn => exact h.timedOut ha hn
  | gone => exact h.gone

theorem Door.Step.parks {d d' : Door T} (next : d.Step d') (h : d.Parks) : d'.Parks := by
  cases next with
  | clone => exact fun ha hn hP => ⟨(h ha hn hP).1, .inl (Nat.succ_pos _)⟩
  | drop hi =>
    refine fun ha hn hP => ⟨(h ha hn hP).1, ?_⟩
    by_cases h1 : d.senders = 1
    · exact .inr (by simp [h1])
    · exact .inl (by simp only; omega)
  | dropped =>
    split
    · next hc =>
      intro ha hn hP
      simp [(h ha hn hP).1, DoorLifecycle.claimed] at hc
    · exact fun _ _ hP => absurd hP (wake_ne_parked d)
  | resolve =>
    unfold Door.resolve
    split <;> simp_all [wake_ne_parked, Door.Parks]
  | cancel => exact fun _ _ hP => absurd hP (wake_ne_parked d)
  | turn ex =>
    rw [Door.turn]
    rcases d.lifecycle.takeTerminal_cases d.senders with ⟨_, -, ht⟩ | ⟨_, -, -, ht⟩ | ⟨hl, hp, ht⟩ <;> rw [ht]
    · exact nofun
    · exact nofun
    · cases ex with
      | true => exact nofun
      | false => exact fun _ _ _ => ⟨hl, .inl hp⟩
  | timedOut =>
    rw [Door.timedOut]
    rcases d.lifecycle.takeTerminal_cases d.senders with ⟨_, -, ht⟩ | ⟨_, -, -, ht⟩ | ⟨-, -, ht⟩
    · rw [ht]
      exact nofun
    · simp only [ht, Door.turn]
      exact nofun
    · rw [ht]
      exact nofun
  | gone => exact nofun

theorem Door.Reaches.inv {d : Door T} (h : d.Reaches) : d.Inv ∧ d.Parks := by
  induction h with
  | start => exact ⟨⟨rfl, fun _ => rfl, nofun, fun _ _ => .inl rfl, nofun, nofun, nofun, fun _ _ => rfl, by simp⟩, nofun⟩
  | step _ next ih => exact ⟨next.inv ih.1, next.parks ih.2⟩

/-- At most one resolve is accepted; its result reaches the consumer, or a timeout does, exactly if no wait that timed out
found it; once there is something to see the consumer is not parked and its next turn ends; the hook runs at most once and
not next to a result. -/
theorem door_delivers_iff {d : Door T} (h : d.Reaches) : d.accepted.length ≤ 1 ∧
    (∀ result ∈ d.accepted, ∀ outcome, d.outcome = some outcome → d.stopped = false →
      ((outcome = .value result ∨ outcome = .timeout) ↔ d.late = false)) ∧
    (d.accepted ≠ [] ∨ d.stopped ∨ d.senders = 0 ∧ d.dropping = false → d.alive → d.outcome = none →
      d.wait ≠ .parked ∧ ∀ expired park, (d.turn expired park).outcome.isSome) ∧
    d.hookRuns ≤ 1 ∧ ∀ result, d.outcome = some (.value result) → d.hookRuns = 0 := by
  obtain ⟨hI, hP⟩ := h.inv
  refine ⟨hI.accepts.length_le, fun result hR outcome ho hs => ?_, fun he hAlive hNone => ?_, hI.hook.1,
    fun result ho => (hI.value result ho).2⟩
  · have hL := hI.late
    cases outcome with
    | value oth =>
      have hn := (hI.value oth ho).1
      simp_all
    | timeout => simp_all
    | disconnected =>
      rcases hI.disconnected ho with hE | hE | ⟨-, hN⟩
      · simp [hs] at hE
      · simp [hE]
      · simp [hN] at hR
  · have hp : d.lifecycle = .open → d.senders = 0 ∧ d.dropping = false := fun hp => by
      have hA := hI.accepts
      have ht := hI.stopped hNone
      simp_all [DoorLifecycle.Accepts]
    refine ⟨fun ha => ?_, fun expired park => ?_⟩
    · obtain ⟨hS, hLive⟩ := hP hAlive hNone ha
      simp [hp hS] at hLive
    · cases hS : d.lifecycle <;> simp_all [Door.turn, Door.finish, DoorLifecycle.takeTerminal]

theorem waiting_resolved : Door.Reaches (T := Nat) { lifecycle := .resolved (some 5), wait := .notified, accepted := [5] } :=
  (Door.Reaches.start.step (.turn false true rfl rfl)).step (.resolve 5 (by decide))

/-- The result comes while the timeout runs out. -/
theorem late_result_is_lost : ∃ d : Door Nat, d.Reaches ∧ d.accepted = [5] ∧ d.stopped = false ∧
    d.outcome = some .disconnected :=
  ⟨_, waiting_resolved.step (.timedOut rfl rfl (by decide)), rfl, rfl, rfl⟩

theorem door_delivers_iff_value : ∃ d : Door Nat, d.Reaches ∧ d.outcome = some (.value 5) ∧ d.hookRuns = 0 := by
  have h := waiting_resolved.step (.turn false true rfl rfl)
  exact ⟨_, h, rfl, (door_delivers_iff h).2.2.2.2 5 rfl⟩

end NmpStore.Signer
