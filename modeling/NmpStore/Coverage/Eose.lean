import NmpStore.Coverage.Attribution
import NmpStore.Lib.Grouping

/-! # What a completed request may claim

The engine and a relay are run side by side; the relay answers the requests of a live connection in order.
-/

namespace NmpStore.Coverage

namespace Fifo

variable {fifo : List AttributionSnapshot}

theorem authority_eq_eligible (h : authority fifo = .eligible) :
    ∀ sn ∈ fifo, sn.coverageAuthority = .eligible := by
  intro sn hM
  unfold authority at h
  cases hF : fifo.findSome? fun sn => sn.coverageAuthority.refusal with
  | none =>
    have hN := List.findSome?_eq_none_iff.mp hF sn hM
    cases hA : sn.coverageAuthority with
    | eligible => rfl
    | poisoned rs => simp [hA, CoverageAuthority.refusal] at hN
  | some fd =>
    -- a refusal that was found is never the eligible answer
    obtain ⟨o, -, hf⟩ := List.exists_of_findSome?_eq_some hF
    rw [hF] at h
    cases hX : o.coverageAuthority <;> simp [hX, CoverageAuthority.refusal] at hf
    simp [← hf] at h

theorem mem_foldl_attributed
    (h : fifo.foldl (fun a sn =>
      some (match a with
        | none => sn.coverageClaims
        | some a => a ∩ sn.coverageClaims)) a = some keys) (hK : k ∈ keys) :
    (∀ b ∈ a, k ∈ b) ∧ ∀ sn ∈ fifo, k ∈ sn.coverageClaims := by
  induction fifo generalizing a with
  | nil =>
    obtain rfl : a = some keys := h
    exact ⟨fun b hb => Option.some.inj hb ▸ hK, by simp⟩
  | cons sn fifo ih =>
    obtain ⟨hH, hT⟩ := ih h
    cases a with
    | none => exact ⟨by simp, List.forall_mem_cons.mpr ⟨hH _ rfl, hT⟩⟩
    | some b =>
      have hB := Finset.mem_inter.mp (hH _ rfl)
      refine ⟨?_, List.forall_mem_cons.mpr ⟨hB.2, hT⟩⟩
      rintro _ ⟨⟩
      exact hB.1

theorem maxFloor_le_iff : maxFloor fifo ≤ bound ↔ ∀ sn ∈ fifo, ∀ fl ∈ sn.floor, fl ≤ bound := by
  have hF : ∀ start, fifo.foldl (fun fl sn => sn.floor.elim fl (max fl)) start ≤ bound ↔
      start ≤ bound ∧ ∀ sn ∈ fifo, ∀ fl ∈ sn.floor, fl ≤ bound := by
    induction fifo with
    | nil => simp
    | cons sn fifo ih =>
      intro start
      rw [foldl_cons, ih, List.forall_mem_cons]
      cases hf : sn.floor <;> simp [and_assoc]
  simpa [maxFloor] using hF 0

theorem le_minUntil_iff : bound ≤ minUntil fifo et ↔
      bound ≤ et ∧ ∀ sn ∈ fifo, ∀ tm ∈ sn.untilTime, bound ≤ tm := by
  unfold minUntil
  induction fifo generalizing et with
  | nil => simp
  | cons sn fifo ih =>
    rw [foldl_cons, ih, List.forall_mem_cons]
    cases hT : sn.untilTime <;> simp [and_assoc]

theorem mem_claims
    (h : claim ∈ claims fifo et) (hM : snap ∈ fifo) :
    claim.1 ∈ snap.coverageClaims ∧ (∀ fl ∈ snap.floor, fl ≤ claim.2.first) ∧
      (∀ tm ∈ snap.untilTime, claim.2.through ≤ tm) ∧ claim.2.through ≤ et := by
  obtain ⟨k, hK, rfl⟩ := mem_map.mp h
  refine ⟨?_, maxFloor_le_iff.mp le_rfl snap hM,
    fun tm hT => (min_le_right _ _).trans ((le_minUntil_iff.mp le_rfl).2 snap hM tm hT),
    min_le_left _ _⟩
  cases hk : attributed fifo with
  | none => simp [hk] at hK
  | some ky =>
    simp only [hk, elim_some, Finset.mem_sort] at hK
    exact (mem_foldl_attributed hk hK).2 snap hM

end Fifo

namespace AttributionState

variable {state : AttributionState}

theorem fifo_eq_of_get {fifo : List AttributionSnapshot} (h : state.inflight[s]? = some fifo) :
    state.fifo s = fifo := by
  simp [AttributionState.fifo, h]

def Filled (state : AttributionState) : Prop := ∀ sub : SubId, state.inflight[sub]? ≠ some []

theorem Filled.get_none (h : state.Filled) : state.inflight[s]? = none ↔ state.fifo s = [] := by
  cases hG : state.inflight[s]? with
  | none => simp [fifo, hG]
  | some fifo =>
    have hN : fifo ≠ [] := fun hZ => h s (hZ ▸ hG)
    simp [AttributionState.fifo, hG, hN]

theorem fifo_setFifo (fifo : List AttributionSnapshot) :
    (state.setFifo s fifo).fifo o = if s = o then fifo else state.fifo o := by
  unfold setFifo AttributionState.fifo
  by_cases hZ : fifo = [] <;> by_cases hB : s = o <;> simp [hZ, hB]

theorem Filled.setFifo (h : state.Filled) (fifo : List AttributionSnapshot) : (state.setFifo s fifo).Filled := by
  intro o
  unfold AttributionState.setFifo
  by_cases hZ : fifo = [] <;> by_cases hB : s = o <;> simp [hZ, hB, h o]

theorem fifo_recordSend :
    (state.recordSend k s filter claims).2.fifo o = if s = o then
        state.fifo s ++ [.ofSend state.nextSendId filter claims] else state.fifo o := by
  by_cases hB : s = o <;> simp [recordSend, AttributionState.fifo, hB]

theorem Filled.recordSend (h : state.Filled) (k : RelaySessionKey) (s : SubId) (fl : ConcreteFilter)
    (cl : Finset CoverageKey) : (state.recordSend k s fl cl).2.Filled := by
  intro o
  by_cases hB : s = o <;> simp [AttributionState.recordSend, hB, h o]

def SameSend (new old : AttributionSnapshot) : Prop := new = { old with coverageClaims := new.coverageClaims }

structure KeepsSends (state state' : AttributionState) : Prop where
  nextSendId : state'.nextSendId = state.nextSendId
  subIdByWire : state'.subIdByWire = state.subIdByWire
  filled : state.Filled → state'.Filled
  fifo : ∀ sub, List.Forall₂ SameSend (state'.fifo sub) (state.fifo sub)

theorem modifyCurrent_keepsSends (state : AttributionState) (s : SubId) (fl : DescriptorHash)
    (ch : Finset CoverageKey → Finset CoverageKey) :
    state.KeepsSends (state.modifyCurrent s fl ch).2 := by
  have hS : state.KeepsSends state :=
    ⟨rfl, rfl, id, fun s => forall₂_same.mpr fun _ _ => rfl⟩
  unfold modifyCurrent
  split
  · exact hS
  next c hC =>
  split_ifs
  · refine ⟨rfl, rfl, fun hF o => ?_, fun o => ?_⟩
    · by_cases hB : s = o <;> simp [hB, hF o]
    by_cases hB : s = o
    · subst hB
      obtain ⟨fr, hf⟩ := List.getLast?_eq_some_iff.mp hC
      rw [fifo_eq_of_get (get_insert _ _ _ _ |>.trans (if_pos rfl)), hf, List.dropLast_concat]
      exact List.rel_append (R := SameSend) (forall₂_same.mpr fun _ _ => rfl) (.cons rfl .nil)
    · rw [AttributionState.fifo, AttributionState.fifo, get_insert, if_neg hB]
      exact forall₂_same.mpr fun _ _ => rfl
  · exact hS

theorem fifo_discardSendRevision (r : Nat) : (state.discardSendRevision s r).fifo o =
      if s = o then (state.fifo s).eraseP (·.sendId = r) else state.fifo o := by
  unfold discardSendRevision
  split
  · next hN =>
    by_cases hB : s = o
    · subst hB
      simp [AttributionState.fifo, hN]
    · simp [hB]
  next fifo hF =>
  split_ifs with hA hB hB
  · simp [fifo_setFifo, hB, ← fifo_eq_of_get hF]
  · simp [fifo_setFifo, hB]
  · subst hB
    rw [fifo_eq_of_get hF, List.eraseP_of_forall_not]
    simpa using hA
  · rfl

theorem discardSendRevision_frame (state : AttributionState) (s : SubId) (r : Nat) :
    (state.discardSendRevision s r).nextSendId = state.nextSendId ∧
      (state.discardSendRevision s r).subIdByWire = state.subIdByWire ∧
      (state.Filled → (state.discardSendRevision s r).Filled) := by
  unfold discardSendRevision
  split
  · exact ⟨rfl, rfl, id⟩
  split_ifs
  · exact ⟨rfl, rfl, fun h => h.setFifo _⟩
  · exact ⟨rfl, rfl, id⟩

theorem fifo_discardSub : (state.discardSub s).fifo o = if s = o then [] else state.fifo o := by
  by_cases hB : s = o <;> simp [discardSub, AttributionState.fifo, hB]

theorem Filled.discardSub (h : state.Filled) (s : SubId) : (state.discardSub s).Filled := by
  intro o
  by_cases hB : s = o <;> simp [AttributionState.discardSub, hB, h o]

theorem fifo_clearSession (state : AttributionState) (k : RelaySessionKey) (s : SubId) :
    ((∃ wr : WireToken, state.subIdByWire[(k, wr)]? = some s) → (state.clearSession k).fifo s = []) ∧
      ((¬ ∃ wr : WireToken, state.subIdByWire[(k, wr)]? = some s) →
        (state.clearSession k).fifo s = state.fifo s) := by
  have hS : s ∈ (state.subIdByWire.toList.filter (·.1.1 = k)).map (·.2) ↔
      ∃ wr : WireToken, state.subIdByWire[(k, wr)]? = some s := by
    simp only [mem_map, mem_filter, decide_eq_true_eq]
    constructor
    · rintro ⟨⟨⟨_, wr⟩, _⟩, ⟨hM, rfl⟩, rfl⟩
      exact ⟨wr, mem_toList.mp hM⟩
    · rintro ⟨wr, hW⟩
      exact ⟨((k, wr), s), ⟨mem_toList.mpr hW, rfl⟩, rfl⟩
  obtain ⟨hI, hU⟩ := Table.get_eraseAll state.inflight
    ((state.subIdByWire.toList.filter (·.1.1 = k)).map (·.2)) s
  refine ⟨fun h => ?_, fun h => ?_⟩
  · simp only [clearSession, AttributionState.fifo, hI (hS.mpr h), Option.getD_none]
  · simp only [clearSession, AttributionState.fifo, hU fun hM => h (hS.mp hM)]

theorem Filled.clearSession (h : state.Filled) (k : RelaySessionKey) : (state.clearSession k).Filled := by
  intro s hZ
  exact h s (Table.get_of_get_eraseAll hZ)

theorem get_clearSession_subIdByWire (k o : RelaySessionKey) (wr : WireToken) :
    (state.clearSession k).subIdByWire[(o, wr)]? =
      if o = k then none else state.subIdByWire[(o, wr)]? := by
  simp only [clearSession, get_filter]
  by_cases hS : o = k <;> cases state.subIdByWire[(o, wr)]? <;>
    simp [hS]

def poisonIf (targets : List Nat) (snapshot : AttributionSnapshot) : AttributionSnapshot :=
  if snapshot.sendId ∈ targets then
    { snapshot with coverageAuthority := snapshot.coverageAuthority.poison .eventCommitFailed }
  else snapshot

structure Poisons (state : AttributionState) (session : RelaySessionKey) (wire : WireToken)
    (state' : AttributionState) : Prop where
  nextSendId : state'.nextSendId = state.nextSendId
  subIdByWire : state'.subIdByWire = state.subIdByWire
  filled : state.Filled → state'.Filled
  fifo : ∃ targets, (∀ sub, state'.fifo sub = (state.fifo sub).map (poisonIf targets)) ∧
    ∀ sub, state.subIdByWire[(session, wire)]? = some sub → ∀ snapshot ∈ state.fifo sub, snapshot.sendId ∈ targets

theorem poisonEventCommitFailure_poisons (state : AttributionState) (k : RelaySessionKey)
    (wr : WireToken) : state.Poisons k wr (state.poisonEventCommitFailure k wr) := by
  have hI : ∀ sn : List AttributionSnapshot, sn.map (poisonIf []) = sn := by
    intro sn
    exact (List.map_congr_left fun sna _ => if_neg not_mem_nil).trans (List.map_id _)
  unfold poisonEventCommitFailure
  split
  · next hW => exact ⟨rfl, rfl, id, [], fun s => (hI _).symm, by simp [hW]⟩
  next s hW =>
  split
  · next hN =>
    refine ⟨rfl, rfl, id, [], fun s => (hI _).symm, fun fd hF => ?_⟩
    obtain rfl : s = fd := Option.some.inj (hW.symm.trans hF)
    simp [AttributionState.fifo, hN]
  next fifo hf =>
  refine ⟨rfl, rfl, fun hl o hZ => ?_, fifo.map (·.sendId), fun o => ?_, fun fd hF => ?_⟩
  · simp only [getElem?_map, map_eq_some_iff, List.map_eq_nil_iff] at hZ
    obtain ⟨_, hG, rfl⟩ := hZ
    exact hl o hG
  · simp only [AttributionState.fifo, getElem?_map]
    cases state.inflight[o]? <;> simp [poisonIf]
  · obtain rfl : s = fd := Option.some.inj (hW.symm.trans hF)
    rw [fifo_eq_of_get hf]
    exact fun sna hM => mem_map_of_mem hM

end AttributionState

structure Sent where
  sub : SubId
  filter : ConcreteFilter
  /-- A failed event commit has been reported for the subscription since the revision was sent. -/
  failed : Bool

structure World where
  engine : AttributionState := {}
  sent : Nat → Option Sent := fun _ => none
  /-- The revisions the relay may still answer on the live connection, in the order they were sent. -/
  awaited : SubId → List Nat := fun _ => []
  /-- Subscriptions discarded on the live connection. Their tokens are not recycled. -/
  retired : SubId → Prop := fun _ => False

namespace World

variable (w : World)

def send (sub : SubId) (filter : ConcreteFilter) (claims : Finset CoverageKey) : World where
  engine := (w.engine.recordSend sub.session sub filter claims).2
  sent := update w.sent w.engine.nextSendId (some ⟨sub, filter, false⟩)
  awaited := update w.awaited sub (w.awaited sub ++ [w.engine.nextSendId])
  retired := w.retired

def discardRevision (sub : SubId) (revision : Nat) : World :=
  { w with
    engine := w.engine.discardSendRevision sub revision
    awaited := update w.awaited sub ((w.awaited sub).filter (· ≠ revision)) }

def discardSub (sub : SubId) : World :=
  { w with
    engine := w.engine.discardSub sub
    retired := update w.retired sub True }

def clearSession (session : RelaySessionKey) : World :=
  { w with
    engine := w.engine.clearSession session
    awaited := fun sub => if sub.session = session then [] else w.awaited sub
    retired := fun sub => sub.session ≠ session ∧ w.retired sub }

def commitFailed (session : RelaySessionKey) (wire : WireToken) : World :=
  { w with
    engine := w.engine.poisonEventCommitFailure session wire
    sent := fun id => (w.sent id).map fun sent =>
      if sent.sub = .ofWire session wire then { sent with failed := true } else sent }

def answered (engine : AttributionState) (sub : SubId) (revision : Nat) : World :=
  { w with
    engine
    awaited := update w.awaited sub ((w.awaited sub).dropWhile (· ≠ revision)).tail }

inductive Step : World → World → Prop
  | send {w : World} (sub : SubId) (filter : ConcreteFilter) (claims : Finset CoverageKey)
      (hOpen : ¬ w.retired sub) (hCounter : w.engine.nextSendId + 1 < 2 ^ 64) : Step w (w.send sub filter claims)
  | extend {w : World} (sub : SubId) (hash : DescriptorHash) (added : Finset CoverageKey) :
      Step w { w with engine := (w.engine.extendCurrentSendClaims sub hash added).2 }
  | remove {w : World} (sub : SubId) (hash : DescriptorHash) (removed : Finset CoverageKey) :
      Step w { w with engine := (w.engine.removeCurrentSendClaims sub hash removed).2 }
  | discardRevision {w : World} (sub : SubId) (revision : Nat) : Step w (w.discardRevision sub revision)
  | discardSub {w : World} (sub : SubId) : Step w (w.discardSub sub)
  | clearSession {w : World} (session : RelaySessionKey) : Step w (w.clearSession session)
  | commitFailed {w : World} (session : RelaySessionKey) (wire : WireToken) : Step w (w.commitFailed session wire)
  | eose {w : World} (session : RelaySessionKey) (wire : WireToken) (eoseTime revision : Nat)
      {completed : Option CompletedAttribution} {engine : AttributionState}
      (hAwaited : revision ∈ w.awaited (.ofWire session wire))
      (hEose : w.engine.attributeEose session wire eoseTime = .ok (completed, engine)) :
      Step w (w.answered engine (.ofWire session wire) revision)

inductive Reachable : World → Prop
  | start : Reachable {}
  | next {w w' : World} (before : Reachable w) (step : Step w w') : Reachable w'

/-- The snapshot says what the revision asked for, and is poisoned when it may claim nothing. -/
structure Proves (sub : SubId) (snapshot : AttributionSnapshot) (sent : Sent) : Prop where
  sub : sent.sub = sub
  floor : snapshot.floor = sent.filter.since
  untilTime : snapshot.untilTime = sent.filter.untilTime
  poisoned : sent.filter.limit.isSome ∨ sent.failed → snapshot.coverageAuthority ≠ .eligible

structure Tracks (w : World) : Prop where
  filled : w.engine.Filled
  wires : ∀ (session : RelaySessionKey) (wire : WireToken) (sub : SubId),
    w.engine.subIdByWire[(session, wire)]? = some sub → sub = .ofWire session wire
  mapped : ∀ sub, w.engine.fifo sub ≠ [] →
    w.engine.subIdByWire[(sub.session, sub.wireSubIdString)]? = some sub
  retired : ∀ sub, w.retired sub → w.engine.fifo sub = []
  ordered : ∀ sub, (w.engine.fifo sub).Pairwise (·.sendId < ·.sendId)
  fresh : ∀ sub, ∀ snapshot ∈ w.engine.fifo sub, snapshot.sendId < w.engine.nextSendId
  awaitedOrdered : ∀ sub, (w.awaited sub).Pairwise (· < ·)
  awaitedFresh : ∀ sub, ∀ revision ∈ w.awaited sub, revision < w.engine.nextSendId
  outstanding : ∀ sub, ¬ w.retired sub → ∀ revision ∈ w.awaited sub,
    ∃ snapshot ∈ w.engine.fifo sub, snapshot.sendId = revision
  faithful : ∀ sub, ∀ snapshot ∈ w.engine.fifo sub,
    ∃ sent, w.sent snapshot.sendId = some sent ∧ Proves sub snapshot sent

theorem tracks_start : Tracks {} := by
  refine ⟨?_, ?_, ?_, ?_, ?_, ?_, ?_, ?_, ?_, ?_⟩ <;> intros <;>
    simp_all [AttributionState.Filled, AttributionState.fifo]

variable {w w' : World} {engine : AttributionState}

theorem Tracks.thin (h : Tracks w) (hN : w'.engine.nextSendId = w.engine.nextSendId) (hS : w'.sent = w.sent)
    (hF : ∀ s, (w'.engine.fifo s).Sublist (w.engine.fifo s))
    (hAwaited : ∀ s, (w'.awaited s).Sublist (w.awaited s)) (hf : w'.engine.Filled)
    (hW : ∀ (k : RelaySessionKey) (wr : WireToken) (s : SubId),
      w'.engine.subIdByWire[(k, wr)]? = some s → w.engine.subIdByWire[(k, wr)]? = some s)
    (hm : ∀ s, w'.engine.fifo s ≠ [] →
      w'.engine.subIdByWire[(s.session, s.wireSubIdString)]? = some s)
    (hR : ∀ s, w'.retired s → w'.engine.fifo s = [])
    (ho : ∀ s, ¬ w'.retired s → ∀ r ∈ w'.awaited s,
      ∃ sn ∈ w'.engine.fifo s, sn.sendId = r) : Tracks w' where
  filled := hf
  wires k wr s hw := h.wires k wr s (hW k wr s hw)
  mapped := hm
  retired := hR
  ordered s := (h.ordered s).sublist (hF s)
  fresh s sn hM := hN ▸ h.fresh s sn ((hF s).subset hM)
  awaitedOrdered s := (h.awaitedOrdered s).sublist (hAwaited s)
  awaitedFresh s r hM := hN ▸ h.awaitedFresh s r ((hAwaited s).subset hM)
  outstanding := ho
  faithful s sn hM := hS ▸ h.faithful s sn ((hF s).subset hM)

theorem Tracks.send (h : Tracks w) (hOpen : ¬ w.retired s)
    (hCounter : w.engine.nextSendId + 1 < 2 ^ 64) (filter : ConcreteFilter) (cl : Finset CoverageKey) :
    Tracks (w.send s filter cl) := by
  have hx : (w.send s filter cl).engine.nextSendId = w.engine.nextSendId + 1 :=
    Nat.mod_eq_of_lt hCounter
  have hF : ∀ o, (w.send s filter cl).engine.fifo o =
      if s = o then w.engine.fifo s ++ [.ofSend w.engine.nextSendId filter cl]
      else w.engine.fifo o := fun o => AttributionState.fifo_recordSend
  have hAwaited : ∀ o, (w.send s filter cl).awaited o =
      if s = o then w.awaited s ++ [w.engine.nextSendId] else w.awaited o := by
    intro o
    by_cases hB : s = o
    · subst hB
      simp [World.send]
    · simp [World.send, hB, Ne.symm hB]
  have hW : ∀ (k : RelaySessionKey) (wr : WireToken),
      (w.send s filter cl).engine.subIdByWire[(k, wr)]? =
        if (s.session, s.wireSubIdString) = (k, wr) then some s
        else w.engine.subIdByWire[(k, wr)]? := fun k wr => get_insert _ _ _ _
  refine ⟨h.filled.recordSend _ _ _ _, ?_, ?_, ?_, ?_, ?_, ?_, ?_, ?_, ?_⟩
  · intro k wr fd hf
    rw [hW] at hf
    split_ifs at hf with hK
    · cases hf
      cases hK
      rfl
    · exact h.wires k wr fd hf
  · intro o hn
    rw [hF] at hn
    rw [hW]
    by_cases hB : s = o
    · subst hB
      simp
    rw [if_neg hB] at hn
    rw [if_neg, h.mapped o hn]
    intro hK
    obtain ⟨hS, hT⟩ := Prod.mk.inj hK
    exact hB ((SubId.ofWire_session_wireSubIdString s).symm.trans
      (hS ▸ hT ▸ SubId.ofWire_session_wireSubIdString o))
  · intro o hR
    have hB : s ≠ o := fun hB => hOpen (hB ▸ hR)
    rw [hF, if_neg hB]
    exact h.retired o hR
  · intro o
    rw [hF]
    split_ifs with hB
    · refine pairwise_append.mpr ⟨h.ordered s, List.pairwise_singleton _ _, ?_⟩
      intro sn hM n hN
      obtain rfl := mem_singleton.mp hN
      exact h.fresh s sn hM
    · exact h.ordered o
  · intro o sn hM
    rw [hx]
    rw [hF] at hM
    split_ifs at hM with hB
    · rcases mem_append.mp hM with hO | hN
      · exact (h.fresh s sn hO).trans (Nat.lt_add_one _)
      · obtain rfl := mem_singleton.mp hN
        exact Nat.lt_add_one _
    · exact (h.fresh o sn hM).trans (Nat.lt_add_one _)
  · intro o
    rw [hAwaited]
    split_ifs with hB
    · refine pairwise_append.mpr ⟨h.awaitedOrdered s, List.pairwise_singleton _ _, ?_⟩
      intro r hM n hN
      obtain rfl := mem_singleton.mp hN
      exact h.awaitedFresh s r hM
    · exact h.awaitedOrdered o
  · intro o r hM
    rw [hx]
    rw [hAwaited] at hM
    split_ifs at hM with hB
    · rcases mem_append.mp hM with hO | hN
      · exact (h.awaitedFresh s r hO).trans (Nat.lt_add_one _)
      · obtain rfl := mem_singleton.mp hN
        exact Nat.lt_add_one _
    · exact (h.awaitedFresh o r hM).trans (Nat.lt_add_one _)
  · intro o ht r hM
    rw [hAwaited] at hM
    rw [hF]
    split_ifs at hM ⊢ with hB
    · rcases mem_append.mp hM with hO | hN
      · obtain ⟨sn, hs, hI⟩ := h.outstanding s hOpen r hO
        exact ⟨sn, mem_append_left _ hs, hI⟩
      · obtain rfl := mem_singleton.mp hN
        exact ⟨_, mem_append_right _ (.head _), rfl⟩
    · exact h.outstanding o ht r hM
  · intro o sn hM
    -- an earlier snapshot keeps its own record, the new one reads the record just made
    have hO : ∀ o, ∀ sn ∈ w.engine.fifo o,
        ∃ st, (w.send s filter cl).sent sn.sendId = some st ∧ Proves o sn st := by
      intro o sn hM
      obtain ⟨st, hSn, hP⟩ := h.faithful o sn hM
      exact ⟨st, by simp [World.send, (h.fresh o sn hM).ne, hSn], hP⟩
    rw [hF] at hM
    split_ifs at hM with hB
    · subst hB
      rcases mem_append.mp hM with hM | hN
      · exact hO s sn hM
      obtain rfl := mem_singleton.mp hN
      refine ⟨⟨s, filter, false⟩, by simp [World.send, AttributionSnapshot.ofSend], rfl, rfl, rfl, ?_⟩
      intro hL
      have hL : filter.limit.isSome := by simpa using hL
      simp [AttributionSnapshot.ofSend, hL]
    · exact hO o sn hM

theorem Tracks.keepsSends (h : Tracks w) (hK : w.engine.KeepsSends engine) : Tracks { w with engine } := by
  have hs : ∀ s, ∀ n ∈ engine.fifo s, ∃ o ∈ w.engine.fifo s, AttributionState.SameSend n o :=
    fun s n hN => Grouping.exists_of_mem_left (hK.fifo s) hN
  have hZ : ∀ s, engine.fifo s = [] ↔ w.engine.fifo s = [] := by
    intro s
    rw [← List.length_eq_zero_iff, (hK.fifo s).length_eq, List.length_eq_zero_iff]
  refine ⟨hK.filled h.filled, ?_, ?_, ?_, ?_, ?_, h.awaitedOrdered, ?_, ?_, ?_⟩
  · rw [hK.subIdByWire]
    exact h.wires
  · dsimp only
    rw [hK.subIdByWire]
    exact fun s hn => h.mapped s fun hO => hn ((hZ s).mpr hO)
  · exact fun s hR => (hZ s).mpr (h.retired s hR)
  · intro s
    refine Grouping.pairwise_of_forall₂ (hK.fifo s).flip ?_ (h.ordered s)
    intro a b a' b' ha hb hL
    rw [ha, hb]
    exact hL
  · intro s sn hM
    obtain ⟨o, hO, hS⟩ := hs s sn hM
    rw [hS]
    exact hK.nextSendId ▸ h.fresh s o hO
  · exact fun s r hM => hK.nextSendId ▸ h.awaitedFresh s r hM
  · intro s hR r hM
    obtain ⟨o, hO, hI⟩ := h.outstanding s hR r hM
    obtain ⟨n, hN, hS⟩ := Grouping.exists_of_mem_right (hK.fifo s) hO
    exact ⟨n, hN, by rw [hS]; exact hI⟩
  · intro s sn hM
    obtain ⟨o, hO, hS⟩ := hs s sn hM
    obtain ⟨st, hE, hP⟩ := h.faithful s o hO
    rw [hS]
    exact ⟨st, hE, hP.sub, hP.floor, hP.untilTime, hP.poisoned⟩

theorem Tracks.commitFailed (h : Tracks w) (k : RelaySessionKey) (wr : WireToken) :
    Tracks (w.commitFailed k wr) := by
  have hp := w.engine.poisonEventCommitFailure_poisons k wr
  obtain ⟨tr, hF, hT⟩ := hp.fifo
  have hI : ∀ sn, (AttributionState.poisonIf tr sn).sendId = sn.sendId := by
    intro sn
    unfold AttributionState.poisonIf
    split_ifs <;> rfl
  refine ⟨hp.filled h.filled, ?_, ?_, ?_, ?_, ?_, h.awaitedOrdered, ?_, ?_, ?_⟩
  · show ∀ _ _ _, (w.engine.poisonEventCommitFailure k wr).subIdByWire[_]? = _ → _
    rw [hp.subIdByWire]
    exact h.wires
  · intro s hN
    show (w.engine.poisonEventCommitFailure k wr).subIdByWire[_]? = _
    rw [hp.subIdByWire]
    refine h.mapped s fun hZ => hN ?_
    show (w.engine.poisonEventCommitFailure k wr).fifo s = []
    rw [hF, hZ, map_nil]
  · intro s hR
    show (w.engine.poisonEventCommitFailure k wr).fifo s = []
    rw [hF, h.retired s hR, map_nil]
  · intro s
    show ((w.engine.poisonEventCommitFailure k wr).fifo s).Pairwise _
    rw [hF, pairwise_map]
    simpa only [hI] using h.ordered s
  · intro s sn hM
    obtain ⟨o, hO, rfl⟩ := mem_map.mp (hF s ▸ hM)
    rw [hI]
    exact hp.nextSendId ▸ h.fresh s o hO
  · exact fun s r hM => hp.nextSendId ▸ h.awaitedFresh s r hM
  · intro s hR r hM
    obtain ⟨o, hO, hr⟩ := h.outstanding s hR r hM
    refine ⟨AttributionState.poisonIf tr o, ?_, (hI o).trans hr⟩
    show _ ∈ (w.engine.poisonEventCommitFailure k wr).fifo s
    rw [hF]
    exact mem_map_of_mem hO
  · intro s sn hM
    obtain ⟨o, hO, rfl⟩ := mem_map.mp (hF s ▸ hM)
    obtain ⟨st, hS, hP⟩ := h.faithful s o hO
    have hn : (o.sendId ∈ tr ∨ o.coverageAuthority ≠ .eligible) →
        (AttributionState.poisonIf tr o).coverageAuthority ≠ .eligible := by
      unfold AttributionState.poisonIf
      split_ifs with ht
      · intro _
        cases o.coverageAuthority <;> simp [CoverageAuthority.poison]
      rintro (hi | hU)
      · exact absurd hi ht
      · exact hU
    have hK : (AttributionState.poisonIf tr o).floor = o.floor ∧
        (AttributionState.poisonIf tr o).untilTime = o.untilTime := by
      unfold AttributionState.poisonIf
      split_ifs <;> exact ⟨rfl, rfl⟩
    rw [hI]
    refine ⟨if st.sub = .ofWire k wr then { st with failed := true } else st,
      by simp only [World.commitFailed, hS, map_some], ?_⟩
    split_ifs with hB
    · -- the whole queue of the reported subscription is a target
      obtain rfl : s = .ofWire k wr := hP.sub.symm.trans hB
      have hm := h.mapped _ (List.ne_nil_of_mem hO)
      exact ⟨hP.sub, hK.1.trans hP.floor, hK.2.trans hP.untilTime,
        fun _ => hn (.inl (hT _ hm o hO))⟩
    · exact ⟨hP.sub, hK.1.trans hP.floor, hK.2.trans hP.untilTime,
        fun ho => hn (.inr (hP.poisoned ho))⟩

theorem Tracks.discardRevision (h : Tracks w) (s : SubId) (r : Nat) :
    Tracks (w.discardRevision s r) := by
  obtain ⟨hN, hW, hf⟩ := w.engine.discardSendRevision_frame s r
  have hF : ∀ o, (w.discardRevision s r).engine.fifo o =
      if s = o then (w.engine.fifo s).eraseP (·.sendId = r) else w.engine.fifo o :=
    fun o => AttributionState.fifo_discardSendRevision r
  have hS : ∀ o, ((w.discardRevision s r).engine.fifo o).Sublist (w.engine.fifo o) := by
    intro o
    rw [hF]
    split_ifs with hB
    · exact hB ▸ List.eraseP_sublist
    · exact .refl _
  refine h.thin hN rfl hS ?_ (hf h.filled) ?_ ?_ ?_ ?_
  · intro o
    by_cases hB : o = s
    · subst hB
      simp [World.discardRevision]
    · simp [World.discardRevision, hB]
  · intro k wr fd hd
    exact hW ▸ hd
  · intro o hn
    show (w.engine.discardSendRevision s r).subIdByWire[_]? = _
    rw [hW]
    exact h.mapped o fun hZ => hn (List.sublist_nil.mp (hZ ▸ hS o))
  · intro o hR
    exact List.sublist_nil.mp (h.retired o hR ▸ hS o)
  · intro o hR aw hM
    have hO : aw ∈ w.awaited o ∧ (s = o → aw ≠ r) := by
      by_cases hB : o = s
      · subst hB
        simpa [World.discardRevision] using hM
      · exact ⟨by simpa [World.discardRevision, hB] using hM, fun hE => absurd hE.symm hB⟩
    obtain ⟨sn, hs, hI⟩ := h.outstanding o hR aw hO.1
    refine ⟨sn, ?_, hI⟩
    rw [hF]
    split_ifs with hB
    · subst hB
      exact (List.mem_eraseP_of_neg (by simpa [hI] using hO.2 rfl)).mpr hs
    · exact hs

theorem Tracks.discardSub (h : Tracks w) (s : SubId) : Tracks (w.discardSub s) := by
  have hF : ∀ o, (w.discardSub s).engine.fifo o = if s = o then [] else w.engine.fifo o :=
    fun o => AttributionState.fifo_discardSub
  refine h.thin rfl rfl ?_ (fun _ => .refl _) (h.filled.discardSub s) ?_ ?_ ?_ ?_
  · intro o
    rw [hF]
    split_ifs
    · exact List.nil_sublist _
    · exact .refl _
  · intro k wr fd hf
    exact of_erase hf
  · intro o hN
    rw [hF] at hN
    split_ifs at hN with hB
    · exact absurd rfl hN
    show (w.engine.subIdByWire.erase (s.session, s.wireSubIdString))[_]? = _
    rw [get_erase, if_neg, h.mapped o hN]
    intro hK
    obtain ⟨hS, hT⟩ := Prod.mk.inj hK
    exact hB ((SubId.ofWire_session_wireSubIdString s).symm.trans
      (hS ▸ hT ▸ SubId.ofWire_session_wireSubIdString o))
  · intro o hR
    rw [hF]
    split_ifs with hB
    · rfl
    · exact h.retired o (by simpa [World.discardSub, update, Ne.symm hB] using hR)
  · intro o hR r hM
    have hB : s ≠ o := by
      rintro rfl
      simp [World.discardSub] at hR
    rw [hF, if_neg hB]
    exact h.outstanding o (by simpa [World.discardSub, update, Ne.symm hB] using hR)
      r hM

theorem Tracks.clearSession (h : Tracks w) (k : RelaySessionKey) : Tracks (w.clearSession k) := by
  have hF : ∀ s, (w.clearSession k).engine.fifo s =
      if s.session = k then [] else w.engine.fifo s := by
    intro s
    obtain ⟨hI, hU⟩ := w.engine.fifo_clearSession k s
    split_ifs with hS
    · by_cases hZ : w.engine.fifo s = []
      · by_cases hW : ∃ wr : WireToken, w.engine.subIdByWire[(k, wr)]? = some s
        · exact hI hW
        · exact (hU hW).trans hZ
      · exact hI ⟨_, hS ▸ h.mapped s hZ⟩
    · refine hU ?_
      rintro ⟨wr, hW⟩
      exact hS (h.wires k wr s hW ▸ rfl)
  refine h.thin rfl rfl ?_ ?_ (h.filled.clearSession k) ?_ ?_ ?_ ?_
  · intro s
    rw [hF]
    split_ifs
    · exact List.nil_sublist _
    · exact .refl _
  · intro s
    show (if s.session = k then [] else w.awaited s).Sublist _
    split_ifs
    · exact List.nil_sublist _
    · exact .refl _
  · intro o wr fd hf
    have hG := (AttributionState.get_clearSession_subIdByWire k o wr).symm.trans hf
    split_ifs at hG
    exact hG
  · intro s hN
    rw [hF] at hN
    split_ifs at hN with hS
    · exact absurd rfl hN
    · refine (AttributionState.get_clearSession_subIdByWire _ _ _).trans ?_
      rw [if_neg hS, h.mapped s hN]
  · intro s hR
    rw [hF, if_neg hR.1]
    exact h.retired s hR.2
  · intro s hR r hM
    have hAwaited : r ∈ if s.session = k then [] else w.awaited s := hM
    rw [hF]
    split_ifs at hAwaited ⊢ with hS
    · exact absurd hAwaited not_mem_nil
    · exact h.outstanding s (fun hO => hR ⟨hS, hO⟩) r hAwaited

theorem Tracks.attributeEose (h : Tracks w) (k : RelaySessionKey) (wr : WireToken) (et : Nat) :
    (w.engine.fifo (.ofWire k wr) = [] ∧
      w.engine.attributeEose k wr et = .ok (none, w.engine)) ∨
    ∃ head rest, w.engine.fifo (.ofWire k wr) = head :: rest ∧
      w.engine.attributeEose k wr et = .ok
        (some
          { subId := .ofWire k wr
            sendId := head.sendId
            filterHash := head.filterHash
            coverageAuthority := Fifo.authority (head :: rest)
            claims := Fifo.claims (head :: rest) et },
          w.engine.setFifo (.ofWire k wr) rest) := by
  cases hF : w.engine.fifo (.ofWire k wr) with
  | nil =>
    refine .inl ⟨rfl, ?_⟩
    unfold AttributionState.attributeEose
    split
    · rfl
    next s hW =>
    obtain rfl := h.wires k wr s hW
    rw [h.filled.get_none.mpr hF]
  | cons head rest =>
    have hW := h.mapped (.ofWire k wr) (by simp [hF])
    have hG : w.engine.inflight[SubId.ofWire k wr]? = some (head :: rest) := by
      cases hG : w.engine.inflight[SubId.ofWire k wr]? with
      | none => simp [AttributionState.fifo, hG] at hF
      | some fifo => rw [← hF, AttributionState.fifo_eq_of_get hG]
    refine .inr ⟨head, rest, rfl, ?_⟩
    unfold AttributionState.attributeEose
    rw [show w.engine.subIdByWire[(k, wr)]? = some (.ofWire k wr) from hW]
    simp only [hG]

theorem mem_tail_dropWhile {l : List Nat} (ho : l.Pairwise (· < ·))
    (h : o ∈ (l.dropWhile (· ≠ r)).tail) : o ∈ l ∧ r < o := by
  induction l with
  | nil => simp at h
  | cons a l ih =>
    obtain ⟨hH, hT⟩ := pairwise_cons.mp ho
    by_cases hE : a = r
    · subst hE
      have hM : o ∈ l := by simpa using h
      exact ⟨.tail _ hM, hH o hM⟩
    · have hR := ih hT (by simpa [hE] using h)
      exact ⟨.tail _ hR.1, hR.2⟩

theorem Tracks.answered (h : Tracks w) {wr : WireToken}
    (hAwaited : r ∈ w.awaited (.ofWire k wr))
    (hEose : w.engine.attributeEose k wr et = .ok (completed, engine)) :
    Tracks (w.answered engine (.ofWire k wr) r) := by
  have hS : ∀ s, ((w.answered engine (.ofWire k wr) r).awaited s).Sublist (w.awaited s) := by
    intro s
    by_cases hB : s = .ofWire k wr
    · subst hB
      simpa [World.answered] using (List.tail_sublist _).trans (List.dropWhile_sublist _)
    · simp [World.answered, hB]
  rcases h.attributeEose k wr et with ⟨hZ, hn⟩ | ⟨head, rest, hf, ho⟩
  · obtain ⟨-, rfl⟩ := Prod.mk.inj (Except.ok.inj (hEose.symm.trans hn))
    exact h.thin rfl rfl (fun _ => .refl _) hS h.filled (fun _ _ _ hF => hF) h.mapped
      h.retired fun s hR o hM => h.outstanding s hR o ((hS s).subset hM)
  obtain ⟨-, rfl⟩ := Prod.mk.inj (Except.ok.inj (hEose.symm.trans ho))
  have hN : ∀ s, (w.engine.setFifo (.ofWire k wr) rest).fifo s =
      if SubId.ofWire k wr = s then rest else w.engine.fifo s :=
    fun s => AttributionState.fifo_setFifo rest
  have hs : ∀ s, ((w.engine.setFifo (.ofWire k wr) rest).fifo s).Sublist (w.engine.fifo s) := by
    intro s
    rw [hN]
    split_ifs with hB
    · subst hB
      rw [hf]
      exact List.sublist_cons_self _ _
    · exact .refl _
  refine h.thin rfl rfl hs hS (h.filled.setFifo rest) (fun _ _ _ hF => hF) ?_ ?_ ?_
  · exact fun s he => h.mapped s fun hZ => he (List.sublist_nil.mp (hZ ▸ hs s))
  · exact fun s hR => List.sublist_nil.mp (h.retired s hR ▸ hs s)
  intro s hR o hM
  obtain ⟨sn, ha, hi⟩ := h.outstanding s hR o ((hS s).subset hM)
  refine ⟨sn, ?_, hi⟩
  show sn ∈ (w.engine.setFifo (.ofWire k wr) rest).fifo s
  rw [hN]
  split_ifs with hB
  · subst hB
    have hL : r < o :=
      (mem_tail_dropWhile (h.awaitedOrdered _) (by simpa [World.answered] using hM)).2
    obtain ⟨an, hA, hr⟩ := h.outstanding _ hR r hAwaited
    rw [hf] at ha hA
    have h1 := pairwise_cons.mp (hf ▸ h.ordered (.ofWire k wr))
    have hH : head.sendId ≤ r := by
      rcases mem_cons.mp hA with rfl | hI
      · exact hr.le
      · exact hr ▸ (h1.1 an hI).le
    rcases mem_cons.mp ha with rfl | hI
    · exact absurd (hi ▸ hH) (Nat.not_le.mpr hL)
    · exact hI
  · exact ha

theorem Step.tracks (st : Step w w') (h : Tracks w) : Tracks w' := by
  cases st with
  | send s fl cl hOpen hCounter => exact h.send hOpen hCounter fl cl
  | extend s hs ad => exact h.keepsSends (w.engine.modifyCurrent_keepsSends s hs _)
  | remove s hs rm => exact h.keepsSends (w.engine.modifyCurrent_keepsSends s hs _)
  | discardRevision s r => exact h.discardRevision s r
  | discardSub s => exact h.discardSub s
  | clearSession k => exact h.clearSession k
  | commitFailed k wr => exact h.commitFailed k wr
  | eose k wr et r hAwaited hEose => exact h.answered hAwaited hEose

theorem Reachable.tracks (h : Reachable w) : Tracks w := by
  induction h with
  | start => exact tracks_start
  | next _ st ih => exact st.tracks ih

theorem Tracks.eligible (h : Tracks w) (hAwaited : r ∈ w.awaited (.ofWire k wire))
    (hEose : w.engine.attributeEose k wire et = .ok (some completed, engine))
    (hC : completed.intoEligibleClaims = some claims) :
    ∃ sn, ∃ snapshot ∈ w.engine.fifo (.ofWire k wire), w.sent r = some sn ∧ snapshot.sendId = r ∧
      Proves (.ofWire k wire) snapshot sn ∧ sn.filter.limit = none ∧ sn.failed = false ∧
      claims = Fifo.claims (w.engine.fifo (.ofWire k wire)) et := by
  rcases h.attributeEose k wire et with ⟨-, hN⟩ | ⟨head, rest, hI, hS⟩
  · cases hEose.symm.trans hN
  cases hEose.symm.trans hS
  have hOpen : ¬ w.retired (.ofWire k wire) := fun hR => by
    simp [h.retired _ hR] at hI
  obtain ⟨snapshot, hs, rfl⟩ := h.outstanding _ hOpen r hAwaited
  obtain ⟨sn, hn, hp⟩ := h.faithful _ snapshot hs
  unfold CompletedAttribution.intoEligibleClaims at hC
  split_ifs at hC with hE
  cases hC
  have hF : ¬ (sn.filter.limit.isSome ∨ sn.failed) := fun hP =>
    hp.poisoned hP (Fifo.authority_eq_eligible hE snapshot (hI ▸ hs))
  obtain ⟨hL, hf⟩ := not_or.mp hF
  exact ⟨sn, snapshot, hs, hn, rfl, hp, by simpa using hL, by simpa using hf, by rw [hI]⟩

/-- The claims credited for an answer are sound for the revision it answers: that revision was unlimited,
no event commit of its subscription has failed since it was sent, it still claims every key, and the
interval lies inside its window and before the answer. -/
theorem eligible_claims_sound (h : Reachable w) {session : RelaySessionKey} {wire : WireToken}
    {eoseTime revision : Nat} (hAwaited : revision ∈ w.awaited (.ofWire session wire))
    {completed : CompletedAttribution} {engine : AttributionState}
    (hEose : w.engine.attributeEose session wire eoseTime = .ok (some completed, engine))
    {claims : List (CoverageKey × CoverageInterval)} (hClaims : completed.intoEligibleClaims = some claims) :
    ∃ sent snapshot, w.sent revision = some sent ∧ sent.sub = .ofWire session wire ∧
      snapshot ∈ w.engine.fifo (.ofWire session wire) ∧ snapshot.sendId = revision ∧
      sent.filter.limit = none ∧ sent.failed = false ∧ ∀ claim ∈ claims, claim.1 ∈ snapshot.coverageClaims ∧
        (∀ since ∈ sent.filter.since, since ≤ claim.2.first) ∧
        (∀ time ∈ sent.filter.untilTime, claim.2.through ≤ time) ∧ claim.2.through ≤ eoseTime := by
  obtain ⟨sent, snapshot, hS, hs, hR, hP, hL, hF, rfl⟩ := h.tracks.eligible hAwaited hEose hClaims
  refine ⟨sent, snapshot, hs, hP.sub, hS, hR, hL, hF, fun claim hC => ?_⟩
  obtain ⟨hK, hf, hT, hE⟩ := Fifo.mem_claims hC hS
  exact ⟨hK, hP.floor ▸ hf, hP.untilTime ▸ hT, hE⟩

def oneRequest : World := send {} ("wss://relay", 1, none) ⟨0, some 5, some 90, none⟩ {7}

theorem oneRequest_reachable : Reachable oneRequest := .next .start (.send _ _ _ id (by decide))

theorem oneRequest_awaited : 0 ∈ oneRequest.awaited ("wss://relay", 1, none) := by simp [oneRequest, World.send]

theorem oneRequest_answered : ∃ completed engine,
    oneRequest.engine.attributeEose ("wss://relay", none) 1 50 = .ok (some completed, engine) ∧
      completed.intoEligibleClaims = some [(7, ⟨5, 50⟩)] := by
  have hF : oneRequest.engine.fifo ("wss://relay", 1, none) = [.ofSend 0 ⟨0, some 5, some 90, none⟩ {7}] :=
    AttributionState.fifo_recordSend.trans (by simp [AttributionState.fifo])
  rcases oneRequest_reachable.tracks.attributeEose ("wss://relay", none) 1 50 with ⟨hZ, -⟩ | ⟨head, rest, hC, hEose⟩
  · simp [SubId.ofWire, hF] at hZ
  obtain ⟨rfl, rfl⟩ := List.cons.inj (hC.symm.trans hF)
  refine ⟨_, _, hEose, ?_⟩
  simp [CompletedAttribution.intoEligibleClaims, Fifo.authority, Fifo.claims, Fifo.attributed, Fifo.interval,
    Fifo.maxFloor, Fifo.minUntil, AttributionSnapshot.ofSend, CoverageAuthority.refusal]

/-- One request for the times from 5 to 90, answered at time 50, is credited from 5 to 50. -/
theorem eligible_claims_sound_one_request : ∃ w : World, Reachable w ∧ 0 ∈ w.awaited ("wss://relay", 1, none) ∧
      ∃ completed engine, w.engine.attributeEose ("wss://relay", none) 1 50 = .ok (some completed, engine) ∧
        completed.intoEligibleClaims = some [(7, ⟨5, 50⟩)] ∧
        ∃ sent, w.sent 0 = some sent ∧ sent.filter.limit = none ∧ sent.failed = false := by
  obtain ⟨completed, engine, hEose, hC⟩ := oneRequest_answered
  obtain ⟨sent, -, hS, -, -, -, hL, hF, -⟩ :=
    eligible_claims_sound oneRequest_reachable oneRequest_awaited hEose hC
  exact ⟨_, oneRequest_reachable, oneRequest_awaited, completed, engine, hEose, hC, sent, hS, hL, hF⟩

end World

end NmpStore.Coverage
