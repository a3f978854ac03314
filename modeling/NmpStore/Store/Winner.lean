import NmpStore.Store.Deletions

/-! # The winner of an address

An event at an address gives way only to one that beats it.
-/

namespace NmpStore

def Event.NotBelow (new old : Event) : Prop := candidateWins old new = false

namespace Event

theorem notBelow_iff {n o : Event} : n.NotBelow o ↔
    o.createdAt < n.createdAt ∨ (n.createdAt = o.createdAt ∧ n.id ≤ o.id) := by
  unfold NotBelow
  rw [Bool.eq_false_iff, ne_eq, candidateWins_iff]
  omega

theorem NotBelow.of_sameBody {a b : Event} (h : a.SameBody b) : a.NotBelow b := by
  obtain ⟨hI, -, hT, -, -⟩ := h.fields
  exact notBelow_iff.mpr (.inr ⟨hT, hI.le⟩)

theorem NotBelow.of_wins (h : candidateWins n o = true) : n.NotBelow o := by
  rcases candidateWins_iff.mp h with hL | ⟨hT, hI⟩
  · exact notBelow_iff.mpr (.inl hL)
  · exact notBelow_iff.mpr (.inr ⟨hT, hI.le⟩)

theorem NotBelow.trans {a b c : Event} (hb : a.NotBelow b) (hc : b.NotBelow c) : a.NotBelow c := by
  rw [notBelow_iff] at hb hc ⊢
  omega

end Event

namespace Store

variable [ShardHash] {s s' : Store}

def WinnerKept (address : RedbKey) (s s' : Store) : Prop :=
  ∀ row, s.events.rowAt address = some row →
    ∃ row', s'.events.rowAt address = some row' ∧ row'.event.NotBelow row.event

section
omit [ShardHash]

theorem WinnerKept.refl (s : Store) : WinnerKept addr s s := fun r hAt => ⟨r, hAt, .of_sameBody (.refl _)⟩

theorem WinnerKept.trans (h : WinnerKept addr s s') (h' : WinnerKept addr s' s'') :
    WinnerKept addr s s'' := fun r hA => by
  obtain ⟨m, hD, hF⟩ := h r hA
  obtain ⟨later, hL, hS⟩ := h' m hD
  exact ⟨later, hL, hS.trans hF⟩

end

theorem WinnerKept.of_rows (h : s.events.Ok) (h' : s'.events.Ok)
    (hR : ∀ r, s.events.rowOf r.event.id = some r → addressOf r.event = some addr →
      ∃ r', s'.events.rowOf r.event.id = some r' ∧ r'.event.SameBody r.event) : WinnerKept addr s s' := by
  intro r ha
  obtain ⟨hW, hA⟩ := h.rowAt_some.mp ha
  obtain ⟨r', hW', hS⟩ := hR r hW hA
  refine ⟨r', h'.rowAt_some.mpr ⟨?_, hS.addressOf_eq.trans hA⟩, .of_sameBody hS⟩
  rw [hS.fields.1]
  exact hW'

theorem WinnerKept.of_update (h : s.events.Ok) (h' : s'.events.Ok) {id : EventId}
    (hA : s.events.rowOf id = some st) (hS : r.event.SameBody st.event)
    (hR : s'.events.rowOf = update s.events.rowOf id (some r)) : WinnerKept addr s s' := by
  refine .of_rows h h' fun wn hW _ => ?_
  rw [hR, update_apply]
  split_ifs with hI
  · rw [hI, hA] at hW
    cases hW
    exact ⟨r, rfl, hS⟩
  · exact ⟨wn, hW, .refl _⟩

theorem WinnerKept.of_commits (h : s.events.Ok) (hC : s.Commits s') : WinnerKept addr s s' :=
  .of_rows h hC.rested.ok fun r hA _ => ⟨r, by rw [hC.rows]; exact hA, .refl _⟩

theorem WinnerKept.of_deletes (h : s.events.Ok) {nm : Event → Prop} (hD : s.Deletes nm s')
    (hS : ∀ r, s.events.rowAt addr = some r → ¬ nm r.event) : WinnerKept addr s s' := by
  refine .of_rows h hD.ok fun r hA ha => ⟨r, ?_, .refl _⟩
  exact (hD.rows _ r).mpr ⟨hA, hS r (h.rowAt_some.mpr ⟨hA, ha⟩)⟩

theorem WinnerKept.of_places (h : s.events.Ok) {events : EventTables}
    (hN : s.events.rowOf ev.id = none)
    (hP : s.events.Places ev prov placement events) :
    WinnerKept addr s { s with events, queue := q } := by
  cases hP with
  | stale => exact .of_rows h h fun r hAt _ => ⟨r, hAt, .refl _⟩
  | free _ ho hR =>
    have hA : ({ s with events, queue := q } : Store).events.Ok := ho
    refine .of_rows h hA fun r hAt _ => ⟨r, ?_, .refl _⟩
    rw [hR, update_apply]
    split_ifs with hI
    · rw [hI, hN] at hAt
      cases hAt
    · exact hAt
  | wins ha hC hw ho hR =>
    rename_i tk c
    intro r hAt
    obtain ⟨hW, hH⟩ := h.rowAt_some.mp hAt
    by_cases hS : tk = addr
    · subst hS
      cases hAt.symm.trans hC
      refine ⟨⟨ev, prov⟩, ho.rowAt_some.mpr ⟨?_, ha⟩, .of_wins hw⟩
      rw [hR, update_self]
    obtain ⟨-, hT⟩ := h.rowAt_some.mp hC
    have hX : r.event.id ≠ c.event.id := by
      intro hI
      obtain ⟨hc, -⟩ := h.rowAt_some.mp hC
      rw [hI] at hW
      cases hW.symm.trans hc
      exact hS (Option.some.inj (hT.symm.trans hH))
    refine ⟨r, ho.rowAt_some.mpr ⟨?_, hH⟩, .of_sameBody (.refl _)⟩
    rw [hR, update_apply, update_of_ne hX]
    split_ifs with hI
    · rw [hI, hN] at hW
      cases hW
    · exact hW

def Spares (bodies : Bodies) (address : RedbKey) (deleting : Event) : Prop :=
  deleting.isDeletion = true → ∀ event, Authentic bodies event → addressOf event = some address → ¬ deleting.Names event

omit [ShardHash] in
theorem Spares.congr (h : Spares bs addr b) (hS : a.SameBody b) : Spares bs addr a :=
  fun hD ev hE hA hN =>
    h (hS.isDeletion_eq ▸ hD) ev hE hA ((Event.Names.of_deleting hS).mp hN)

theorem Sound.spares (h : s.Sound bs) (hS : Spares bs addr canon)
    (r : StoredEvent) (hA : s.events.rowAt addr = some r) : ¬ Buries canon r.event := by
  rintro ⟨hD, hN⟩
  obtain ⟨hW, ha⟩ := h.events.rowAt_some.mp hA
  exact hS hD r.event (h.authentic _ r hW) ha hN

theorem Ingests.winnerKept (h : s.Sound bs)
    (hE : Authentic bs ev) (hS : Spares bs ad ev)
    (hI : s.Ingests ev src out s') : WinnerKept ad s s' := by
  cases hI with
  | expired => exact .refl s
  | refused => exact .refl s
  | merged _ hA _ ho hR => exact .of_update h.events ho hA (by exact .refl _) hR
  | adopted _ hA _ ho hR hF hd =>
    have hs := h.sameBody hE _ hA
    have hD := (h.with_rewrite ho hA (by exact hs) hR).with_queue (queueAuthentic_of_fansOut h.queue hE hF)
    exact (WinnerKept.of_update h.events hD.events hA (by exact hs) hR).trans
      (.of_deletes hD.events hd (hD.spares hS))
  | placed _ hN _ hP _ => exact .of_places h.events hN hP
  | deleting hr hN ha he ho hR hd =>
    rename_i es dl
    have hf : ∀ ad, addressOf ev = some ad → s.events.rowAt ad = none := fun ad h1 => by
      cases (addressOf_isDeletion he).symm.trans h1
    have hP : s.events.Places ev src.provenance (.placed none) es := .free hf ho hR
    have hD := h.with_placed hE ha hP
    have hB := hd.congr fun o => show _ ↔ Buries ev o by simp [Buries, he]
    exact (WinnerKept.of_places (q := s.queue) h.events hN hP).trans
      (.of_deletes hD.events hB (hD.spares hS))

theorem Accepts.winnerKept (h : s.Sound bs)
    (hA : s.Accepts a o s') : WinnerKept addr s s' := by
  cases hA with
  | joinedRow hAt =>
    rename_i k st r
    obtain ⟨ho, -, hR⟩ := EventTables.replaceLocal_ok h.events hAt (some (joinedOrigin st s.queue.nextIntentId))
    exact .of_update h.events ho hAt.rowOf (by exact .refl _) hR
  | joinedStash => exact .of_rows h.events h.events fun r hAt _ => ⟨r, hAt, .refl _⟩
  | refused => exact .refl s
  | stale hN _ _ hP => exact .of_places h.events hN hP
  | stored hN _ _ hP => exact .of_places h.events hN hP
  | superseded hN _ _ hP _ _ _ => exact .of_places h.events hN hP

theorem Promotes.winnerKept (h : s.Sound bs)
    (hp : ∀ rc fr sg, s.queue.intents[i]? = some rc →
      rc.event = some (fr, sg) → Spares bs addr fr)
    (hP : s.Promotes i ver o s') : WinnerKept addr s s' := by
  cases hP with
  | notFound => exact .refl s
  | promoted hI hE hU hi hS hf hd hC =>
    rename_i rc fr sg r m af q cs
    have hs : Authentic bs { fr with sig := ver.signature } :=
      (h.queue.frozen _ _ _ _ hI hE).of_sameBody rfl
    obtain ⟨hD, -, hW⟩ := h.signs hs hS
    have h1 : WinnerKept addr s m := by
      cases hS with
      | row hAt _ _ ho hR => exact .of_update h.events ho hAt (by exact h.sameBody hs _ hAt) hR
      | signedRow => exact .refl s
      | stash => exact .of_rows h.events h.events fun r hAt _ => ⟨r, hAt, .refl _⟩
      | gone => exact .refl s
    have hB : r.event.SameBody { fr with sig := ver.signature } := by
      refine hW.sameBody hs ?_
      cases hS with
      | row => rfl
      | signedRow hAt _ _ => exact h.events.rowOf_id hAt
      | stash _ _ hi _ =>
        unfold StoredEvent.signWith
        split
        · rfl
        · exact hi
      | gone => rfl
    have hF := hD.with_queue (queueAuthentic_of_fansOut hD.queue hW hf)
    have hr : Spares bs addr r.event :=
      (hp rc fr sg hI hE).congr (hB.trans rfl)
    have hK : WinnerKept addr m { m with queue := q } :=
      .of_rows hD.events hD.events fun r hAt _ => ⟨r, hAt, .refl _⟩
    exact ((h1.trans hK).trans (.of_deletes hF.events hd (hF.spares hr))).trans
      (.of_commits hd.ok hC)

theorem insert_winnerKept (h : s.Sound bs)
    (hE : Authentic bs ev) (hS : Spares bs addr ev)
    (ho : s.insert ev src = .ok (o, s')) : WinnerKept addr s s' := by
  obtain ⟨m, hI, hL⟩ := h.insert_ok hE ho
  exact (hI.winnerKept h hE hS).trans (.of_commits hL.sound.events hL.commits)

theorem insertBatch_winnerKept (h : s.Sound bs)
    (hE : ∀ d ∈ dels, Authentic bs d.1)
    (hS : ∀ d ∈ dels, Spares bs addr d.1)
    (ho : s.insertBatch dels = .ok (outs, s')) : WinnerKept addr s s' := by
  obtain ⟨m, hD, ⟨rfl, -⟩ | hL⟩ := h.insertBatch_ok hE ho (fun _ _ nw => WinnerKept addr s nw)
    (.refl s) fun hP hs he _ hI hK =>
      hK.trans (hI.winnerKept hs he (hS _ (hP.subset (by simp))))
  · exact .refl _
  · exact hD.trans (.of_commits hL.sound.events hL.commits)

theorem acceptWrite_winnerKept (h : s.Sound bs)
    (hE : Authentic bs a.frozen) (ho : s.acceptWrite a now = .ok (o, s')) :
    WinnerKept addr s s' := by
  rcases h.acceptWrite_ok hE ho with ⟨-, rfl⟩ | ⟨m, hA, hL⟩
  · exact .refl _
  · exact (hA.winnerKept h).trans (.of_commits hL.sound.events hL.commits)

end Store

end NmpStore
