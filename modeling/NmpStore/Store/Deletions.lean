import NmpStore.Store.Run

/-! # Signed deletions are carried out

A row that holds a signed deletion has been executed: the tombstones refuse everything it names.
-/

namespace NmpStore

variable {a b : Event}

theorem Event.Names.of_deleting (h : a.SameBody b) : a.Names ev ↔ b.Names ev := by
  rw [h]
  rfl

theorem Event.SameBody.isDeletion_eq (h : a.SameBody b) : a.isDeletion = b.isDeletion := by
  simp only [Event.isDeletion, h.fields.2.2.2.1]

def InsertOutcome.settles : InsertOutcome → Bool
  | .kind5Processed _ => true
  | .duplicate _ _ _ => true
  | _ => false

namespace Store

variable [ShardHash] {s s' : Store}

def Refused (s : Store) (deleting : Event) : Prop := ∀ event, deleting.Names event → s.tombstones.refuses event = true

section
omit [ShardHash]

theorem Refused.remembers (h : s.Refused deleting) (hR : s.Remembers s') : s'.Refused deleting :=
  fun ev hN => hR ev (h ev hN)

theorem Refused.congr (h : s.Refused b) (hSame : a.SameBody b) : s.Refused a :=
  fun ev hN => h ev ((Event.Names.of_deleting hSame).mp hN)

structure Executed (s : Store) : Prop where
  refused : ∀ (id : EventId) (st : StoredEvent), s.events.rowOf id = some st →
    isSigned st.provenance.localOrigin = true → st.event.isDeletion = true → s.Refused st.event
  stashed : ∀ (key : IntentId) st, s.queue.displaced[key]? = some st → st.event.isDeletion = false

theorem executed_empty : Executed {} := ⟨by simp [EventTables.rowOf], by simp⟩

/-- Where a row of the next store comes from: an old row that was as signed, a draft, or a deletion carried out. -/
inductive Traces (s s' : Store) (id : EventId) (st : StoredEvent) : Prop
  | old {before : StoredEvent} (hAt : s.events.rowOf id = some before) (hSame : st.event.SameBody before.event)
      (hSigned : isSigned st.provenance.localOrigin = true → isSigned before.provenance.localOrigin = true)
  | draft (hPending : isSigned st.provenance.localOrigin = false)
  | settled (hRefused : st.event.isDeletion = true → s'.Refused st.event)

/-- A stash that was there under some key, or holds no deletion. -/
def HarmlessStash (s : Store) (st : StoredEvent) : Prop :=
  (∃ (other : IntentId) (old : StoredEvent), s.queue.displaced[other]? = some old ∧ st.event.SameBody old.event) ∨
    st.event.isDeletion = false

theorem Executed.step (h : s.Executed) (hR : s.Remembers s')
    (hr : ∀ id st, s'.events.rowOf id = some st → Traces s s' id st)
    (hS : ∀ (ky : IntentId) st, s'.queue.displaced[ky]? = some st → s.HarmlessStash st) : s'.Executed where
  refused id st hAt hSigned hD := by
    cases hr id st hAt with
    | old hO hSame hW =>
      have hRefused := h.refused id _ hO (hW hSigned) (hSame.isDeletion_eq ▸ hD)
      exact (hRefused.remembers hR).congr hSame
    | draft hPending => cases hPending.symm.trans hSigned
    | settled hRefused => exact hRefused hD
  stashed ky st hAt := by
    rcases hS ky st hAt with ⟨ot, old, hO, hSame⟩ | hg
    · rw [hSame.isDeletion_eq]
      exact h.stashed ot old hO
    · exact hg

theorem Executed.thinned (h : s.Executed) (hR : s.Remembers s')
    (hr : ∀ id st, s'.events.rowOf id = some st → s.events.rowOf id = some st)
    (hQ : s'.queue.displaced = s.queue.displaced) : s'.Executed :=
  h.step hR (fun id st hAt => .old (hr id st hAt) (.refl _) fun hSigned => hSigned)
    fun ky st hAt => .inl ⟨ky, st, hQ ▸ hAt, .refl _⟩

end

theorem Executed.commits (h : s.Executed) (hC : s.Commits s') : s'.Executed := by
  refine h.thinned (fun ev hR => ?_) (fun id st hAt => hC.rows ▸ hAt) (by rw [hC.queue])
  rw [hC.tombstones]
  exact hR

variable {events : EventTables} {q : Queue} {id : EventId} {se : StoredEvent}

omit [ShardHash] in
theorem Executed.rewritten (h : s.Executed)
    (hAt : s.events.rowOf id = some st) (hSame : row.event.SameBody st.event)
    (hSigned : isSigned row.provenance.localOrigin = true → isSigned st.provenance.localOrigin = true)
    (hR : events.rowOf = update s.events.rowOf id (some row))
    (hS : ∀ (ky : IntentId) st, q.displaced[ky]? = some st → s.HarmlessStash st) : Executed { s with events, queue := q } := by
  refine h.step (fun _ hr => hr) (fun ot fd hF => ?_) hS
  rw [hR, update_apply] at hF
  split_ifs at hF with hI
  · cases hF
    exact .old (hI ▸ hAt) hSame hSigned
  · exact .old hF (.refl _) fun hSigned => hSigned

theorem Executed.signed (h : s.Executed) (hSame : row.event.SameBody canon)
    (hR : events.rowOf = update s.events.rowOf id (some row))
    (hS : ∀ (ky : IntentId) st, q.displaced[ky]? = some st → s.queue.displaced[ky]? = some st)
    (hd : Deletes { s with events, queue := q } (Buries canon) s') : s'.Executed := by
  have hr : s.Remembers s' := fun ev hf => (hd.refuses ev).mpr (.inl hf)
  refine h.step hr (fun ot fd hF => ?_) fun ky st hAt => ?_
  · obtain ⟨hD, -⟩ := (hd.rows ot fd).mp hF
    have hD : events.rowOf ot = some fd := hD
    rw [hR, update_apply] at hD
    split_ifs at hD
    · cases hD
      refine .settled fun he ev hN => (hd.refuses ev).mpr (.inr ⟨?_, ?_⟩)
      · exact hSame.isDeletion_eq ▸ he
      · exact (Event.Names.of_deleting hSame).mp hN
    · exact .old hD (.refl _) fun hSigned => hSigned
  · rw [hd.queue] at hAt
    exact .inl ⟨ky, st, hS ky st hAt, .refl _⟩

omit [ShardHash] in
theorem FansOut_displaced (h : q.FansOut canon owns q')
    (ky : IntentId) (st : StoredEvent) (hAt : q'.displaced[ky]? = some st) : q.displaced[ky]? = some st := by
  rw [h.displaced] at hAt
  split_ifs at hAt
  exact hAt

theorem Executed.placed (h : s.Executed)
    (hP : s.events.Places ev prov placement events)
    (hN : isSigned prov.localOrigin = false ∨ ev.isDeletion = false)
    (hS : ∀ (ky : IntentId) st, q.displaced[ky]? = some st → s.HarmlessStash st) : Executed { s with events, queue := q } := by
  refine h.step (fun _ hR => hR) (fun ot fd hF => ?_) hS
  rcases hP.row_cases hF with ⟨rfl, rfl⟩ | hO
  · rcases hN with hPending | hr
    · exact .draft hPending
    · exact .settled fun hD => by cases hr.symm.trans hD
  · exact .old hO (.refl _) fun hSigned => hSigned

section
omit [ShardHash]

theorem Executed.same_stashes (ky : IntentId) (st : StoredEvent) (hAt : s.queue.displaced[ky]? = some st) :
    s.HarmlessStash st := .inl ⟨ky, st, hAt, .refl _⟩

theorem isSigned_of_settled (h : ∀ ow, origin ≠ some ⟨ow, .pending⟩) :
    isSigned origin = true := by
  cases origin with
  | none => rfl
  | some kn =>
    obtain ⟨ow, sg⟩ := kn
    cases sg with
    | pending => exact absurd rfl (h ow)
    | signed => rfl

end

theorem Executed.ingests (h : s.Executed) (hI : s.Ingests ev source out s') : s'.Executed := by
  cases hI with
  | expired => exact h
  | refused => exact h
  | merged _ hAt _ _ hR => exact h.rewritten hAt (by exact .refl _) (by exact fun hSigned => hSigned) hR Executed.same_stashes
  | adopted _ _ _ _ hR hF hD => exact h.signed (by exact .refl _) hR (FansOut_displaced hF) hD
  | placed _ _ _ hP hr => exact h.placed hP (.inr hr) Executed.same_stashes
  | deleting _ _ _ hd _ hR hD =>
    have hB := hD.congr fun ot => show _ ↔ Buries ev ot by simp [Buries, hd]
    exact h.signed (q := s.queue) (by exact .refl _) hR (fun _ _ hAt => hAt) hB

theorem Executed.ingests_refused (h : s.Executed) (hD : ev.isDeletion = true)
    (hB : ∀ st, s.events.rowOf ev.id = some st → ev.SameBody st.event)
    (hI : s.Ingests ev source out s') (hS : out.settles = true) : s'.Refused ev := by
  cases hI with
  | expired => cases hS
  | refused => cases hS
  | merged _ hAt hT _ _ =>
    have hSame := hB _ hAt
    exact (h.refused _ _ hAt (isSigned_of_settled hT) (hSame.isDeletion_eq ▸ hD)).congr hSame
  | adopted _ _ _ _ _ _ hd => exact fun ot hN => (hd.refuses ot).mpr (.inr ⟨hD, hN⟩)
  | placed _ _ _ _ hR => cases hR.symm.trans hD
  | deleting _ _ _ _ _ _ hd => exact fun ot hN => (hd.refuses ot).mpr (.inr hN)

section
omit [ShardHash]

theorem joinedOrigin_isSigned (st : StoredEvent) (ii : IntentId) :
    isSigned (some (joinedOrigin st ii)) = isSigned st.provenance.localOrigin := by
  cases ho : st.provenance.localOrigin <;> simp [isSigned, joinedOrigin, ho]

theorem leftOrigin_isSigned (st : StoredEvent) (ii : IntentId) :
    isSigned (some (leftOrigin st ii)) = isSigned st.provenance.localOrigin := by
  cases ho : st.provenance.localOrigin <;> simp [isSigned, leftOrigin, ho]

theorem joinedQueue_displaced (q : Queue) (ac : AcceptWrite) (ol : StoredEvent) (ii : IntentId)
    (rc : Nat) : (joinedQueue q ac ol ii rc).displaced = q.displaced := by
  unfold joinedQueue
  split_ifs
  · rfl
  · obtain ⟨_, _, _, hE⟩ := q.staked_frame ii ac.frozen
    rw [hE]
    rfl
  · rfl

end

theorem Executed.accepts (h : s.Executed) (ho : s.events.Ok)
    (hA : s.Accepts acc out s') : s'.Executed := by
  have hD : ∀ ii, isSigned (draftProvenance ii).localOrigin = false := fun _ => rfl
  cases hA with
  | joinedRow hAt =>
    rename_i ky st ro
    obtain ⟨-, -, hR⟩ := EventTables.replaceLocal_ok ho hAt (some (joinedOrigin st s.queue.nextIntentId))
    refine h.rewritten hAt.rowOf (by exact .refl _) (fun hSigned => ?_) hR fun ky st hAt => ?_
    · exact joinedOrigin_isSigned st s.queue.nextIntentId ▸ hSigned
    · rw [joinedQueue_displaced] at hAt
      exact Executed.same_stashes ky st hAt
  | joinedStash hN hAt hi =>
    rename_i ky st ro
    refine h.step (fun _ hr => hr) (fun id fd hF => .old hF (.refl _) fun hSigned => hSigned) ?_
    intro ot fd hF
    have hF : (joinedQueue _ acc st s.queue.nextIntentId s.queue.nextReceiptId).displaced[ot]? = some fd := hF
    rw [joinedQueue_displaced, get_insert] at hF
    split_ifs at hF
    · cases hF
      exact .inl ⟨ky, st, hAt, .refl _⟩
    · exact Executed.same_stashes ot fd hF
  | refused => exact h
  | stale _ _ _ hP => exact h.placed hP (.inl (hD _)) Executed.same_stashes
  | stored _ _ _ hP =>
    refine h.placed hP (.inl (hD _)) fun ky st hAt => ?_
    split_ifs at hAt
    · obtain ⟨_, _, _, hE⟩ := s.queue.allocated.staked_frame s.queue.nextIntentId acc.frozen
      rw [hE] at hAt
      exact Executed.same_stashes ky st hAt
    · exact Executed.same_stashes ky st hAt
  | superseded hN hU hl hP he ht hs =>
    rename_i events rp ro displaced rt q
    refine h.placed hP (.inl (hD _)) fun ky st hAt => ?_
    have hK : ∀ st, q.displaced[ky]? = some st → s.queue.displaced[ky]? = some st := fun st hAt => by
      rw [ht.displaced] at hAt
      split_ifs at hAt
      exact hAt
    cases displaced with
    | none => exact Executed.same_stashes ky st (hK st hAt)
    | some ss =>
      rcases insert_some.mp hAt with ⟨-, rfl⟩ | ⟨-, hI⟩
      · split_ifs at hs
        cases hs
        cases hP with
        | wins _ hC _ _ _ =>
          obtain ⟨-, ha⟩ := ho.rowAt_some.mp hC
          -- what is displaced had an address, and deletions have none
          refine .inr (Bool.eq_false_iff.mpr fun hd => ?_)
          have hd : rp.event.isDeletion = true := hd
          cases (addressOf_isDeletion hd).symm.trans ha
      · exact Executed.same_stashes ky st (hK st hI)

theorem Deletes.traces {P : Event → Prop} (hD : Deletes mid P s') (hE : mid.events = s.events)
    (id : EventId) (fd : StoredEvent) (hF : s'.events.rowOf id = some fd) : Traces s s' id fd :=
  .old (hE ▸ ((hD.rows id fd).mp hF).1) (.refl _) fun hSigned => hSigned

theorem Executed.signs (h : s.Executed) {sg : Event}
    (hB : ∀ (ky : IntentId) st, s.queue.displaced[ky]? = some st → st.event.id = sg.id →
      sg.SameBody st.event) (hS : s.Signs iid sg row md) (hn : md.queue.FansOut row.event owners q)
    (hD : Deletes { md with queue := q } (Buries row.event) s') : s'.Executed := by
  have hf := FansOut_displaced hn
  cases hS with
  | row hAt _ _ _ hR => exact h.signed (by exact .refl _) hR hf hD
  | signedRow hAt _ _ =>
    have hR : s.events.rowOf = update s.events.rowOf sg.id (some row) := by
      rw [← hAt, Function.update_eq_self]
    exact h.signed (by exact .refl _) hR hf hD
  | stash hN hAt hI ho =>
    rename_i ot st
    refine h.step (fun ev hr => (hD.refuses ev).mpr (.inl hr)) (hD.traces rfl) fun ky fd hF => ?_
    rw [hD.queue] at hF
    rcases insert_some.mp (hf ky fd hF) with ⟨-, rfl⟩ | ⟨-, hi⟩
    · refine .inl ⟨ot, st, hAt, ?_⟩
      unfold StoredEvent.signWith
      split
      · exact hB ot st hAt hI
      · exact .refl _
    · exact Executed.same_stashes ky fd hi
  | gone =>
    refine h.step (fun ev hr => (hD.refuses ev).mpr (.inl hr)) (hD.traces rfl) fun ky fd hF => ?_
    rw [hD.queue] at hF
    exact Executed.same_stashes ky fd (hf ky fd hF)

theorem Executed.promotes (h : s.Executed) (hS : s.Sound bodies)
    (hP : s.Promotes iid ver out s') : s'.Executed := by
  cases hP with
  | notFound => exact h
  | promoted hi hE hU hI hs hF hD hC =>
    rename_i rc fr sg ro md af q cs
    refine (h.signs (fun ky st hAt hI => ?_) hs hF hD).commits hC
    have hf : Authentic bodies { fr with sig := ver.signature } :=
      (hS.queue.frozen _ _ _ _ hi hE).of_sameBody rfl
    exact hf.sameBody (hS.queue.displaced ky st hAt) hI.symm

theorem promotes_refused (hD : row.event.isDeletion = true)
    (hP : s.Promotes iid ver (.promoted row coSigned) s') : s'.Refused row.event := by
  cases hP with
  | promoted _ _ _ _ _ _ hd hC =>
    intro ev hN
    rw [hC.tombstones]
    exact (hd.refuses ev).mpr (.inr ⟨hD, hN⟩)

theorem Executed.disowns (h : s.Executed)
    (hD : s.Disowns iid frozenId s') : s'.Executed := by
  cases hD with
  | retracted _ _ _ _ hR =>
    refine h.thinned (.refl s) (fun id st hAt => ?_) rfl
    have hAt : EventTables.rowOf _ id = some st := hAt
    rw [hR, update_apply] at hAt
    split_ifs at hAt
    exact hAt
  | kept hAt _ _ _ hR =>
    refine h.rewritten hAt (by exact .refl _) (fun hSigned => ?_) hR Executed.same_stashes
    exact leftOrigin_isSigned _ iid ▸ hSigned
  | dropped _ _ _ _ _ =>
    refine h.step (.refl s) (fun id st hAt => .old hAt (.refl _) fun hSigned => hSigned) fun ky st hAt => ?_
    exact Executed.same_stashes ky st (of_erase hAt)
  | stashed hN hAt hi ho hK =>
    rename_i ot st
    refine h.step (.refl s) (fun id st hAt => .old hAt (.refl _) fun hSigned => hSigned) fun ky fd hF => ?_
    rcases insert_some.mp hF with ⟨-, rfl⟩ | ⟨-, hI⟩
    · exact .inl ⟨ot, st, hAt, .refl _⟩
    · exact Executed.same_stashes ky fd hI
  | nowhere => exact h

section
omit [ShardHash]

theorem mergeSeen_localOrigin (ol se : StoredEvent) :
    (mergeSeen ol se).localOrigin = ol.provenance.localOrigin := by
  unfold mergeSeen
  generalize ol.provenance = prov
  induction se.provenance.seen.toList generalizing prov with
  | nil => rfl
  | cons en rs ih =>
    refine (ih _).trans ?_
    dsimp only [Provenance.mergeObservation]
    split
    · rfl
    · split_ifs <;> rfl

theorem rejoined_isSigned (h : rejoinsSigned old se = false)
    (hSigned : isSigned (rejoined old se).provenance.localOrigin = true) :
    isSigned old.provenance.localOrigin = true := by
  cases hO : se.provenance.localOrigin with
  | none =>
    have hSame : (rejoined old se).provenance.localOrigin = old.provenance.localOrigin := by
      simp only [rejoined, hO]
      exact mergeSeen_localOrigin old se
    rwa [hSame] at hSigned
  | some st => simp [rejoined, hO, h, isSigned] at hSigned

end

theorem Executed.reinserts (h : s.Executed)
    (hr : se.event.isDeletion = false) (hn : s.Reinserts se res s') : s'.Executed := by
  cases hn with
  | joined hAt hPending _ hR =>
    exact h.rewritten hAt (rejoined_sameBody _ se) (rejoined_isSigned hPending) hR Executed.same_stashes
  | joinedSigned _ _ _ hR _ hF hD => exact h.signed (by exact .refl _) hR (FansOut_displaced hF) hD
  | refused => exact h
  | placed _ _ hP => exact h.placed hP (.inr hr) Executed.same_stashes
  | stale _ _ hP => exact h.placed hP (.inr hr) Executed.same_stashes

omit [ShardHash] in
theorem Executed.closed (h : s.Executed) (ii : IntentId) : (s.closed ii).Executed := by
  refine h.step (.refl s) (fun id st hAt => .old hAt (.refl _) fun hSigned => hSigned) fun ky st hAt => ?_
  exact Executed.same_stashes ky st (of_erase hAt)

theorem Executed.compensates (h : s.Executed)
    (hC : s.Compensates iid out s') : s'.Executed := by
  cases hC with
  | notFound => exact h
  | alreadySigned => exact h
  | compensated hI he hU hd hR hc h1 =>
    rename_i rr fr sg md af rs rv rc sq tm
    have hD := h.disowns hd
    have hA : af.Executed := by
      cases hR with
      | nothing => exact hD.closed iid
      | offered hAt hr => exact (hD.closed iid).reinserts (hD.stashed _ _ hAt) hr
    refine Executed.commits ?_ hc
    refine hA.step (.refl af) (fun id st hAt => .old hAt (.refl _) fun hSigned => hSigned) fun ky st hAt => ?_
    obtain ⟨_, _, _, hE⟩ := af.queue.dropClaims_frame iid
    have hAt : (af.queue.dropClaims iid).displaced[ky]? = some st := hAt
    rw [hE] at hAt
    exact Executed.same_stashes ky st hAt

theorem Executed.of_thinned (h : s.Executed) (hT : s.Thinned s') : s'.Executed := by
  obtain ⟨events, coverage, ht, ho⟩ := hT
  have hD : Executed { s with events, coverage } := h.thinned (fun _ hR => hR) ht.rows rfl
  exact hD.commits (commit_ok ht.ok ho)

theorem insertBatch_refused (h : s.Executed) (hS : s.Sound bodies)
    (h1 : ∀ dl ∈ dels, Authentic bodies dl.1)
    (ho : s.insertBatch dels = .ok (os, s')) {i : Nat}
    (hAt : dels[i]? = some dl) (hU : os[i]? = some ou)
    (hD : dl.1.isDeletion = true) (hs : ou.settles = true) : s'.Refused dl.1 := by
  obtain ⟨md, ⟨-, -, hRefused⟩, hl⟩ := hS.insertBatch_ok h1 ho
    (fun done os nw => nw.Executed ∧ os.length = done.length ∧
      ∀ (i : Nat) (dl : Delivery) (ou : InsertOutcome), done[i]? = some dl →
        os[i]? = some ou → dl.1.isDeletion = true → ou.settles = true → nw.Refused dl.1)
    ⟨h, rfl, by simp⟩ fun {done dl os _ _ _} _ hS hE _ hI ⟨he, hL, hRefused⟩ => by
      refine ⟨he.ingests hI, by simp [hL], fun i ot fd hX hF hD hs => ?_⟩
      by_cases ha : i < done.length
      · rw [List.getElem?_append_left ha] at hX
        rw [List.getElem?_append_left (hL ▸ ha)] at hF
        exact (hRefused i ot fd hX hF hD hs).remembers (hS.ingests hE hI).2
      rw [List.getElem?_append_right (not_lt.mp ha), List.getElem?_singleton] at hX
      rw [List.getElem?_append_right (hL ▸ not_lt.mp ha), List.getElem?_singleton] at hF
      split_ifs at hX hF
      cases hX
      cases hF
      exact he.ingests_refused hD (hS.sameBody hE) hI hs
  have hd := hRefused i dl ou hAt hU hD hs
  rcases hl with ⟨rfl, rfl⟩ | hl
  · exact hd
  · exact hd.remembers (hl.sound.with_commit hl.commits).2

theorem executed_survives : Survives bodies Executed where
  ingests h := h.ingests
  accepts h := h.accepts
  promotes h hS := h.promotes hS
  compensates h := h.compensates
  thinned h := h.of_thinned
  commits h := h.commits

end Store

def noteDeletion : Event where
  id := 8
  pubkey := 3
  createdAt := 20
  kind := 5
  tags := { eventIds := [7] }
  sig := 1

end NmpStore
