import NmpStore.Semantic.Run
import NmpStore.Store.Winner

/-! # Generations and the winner of their address

A generation is stamped later than its source and than the generation before it, so it beats the row it finds there.
-/

namespace NmpStore.Semantic

structure Resource (bodies : Bodies) (key : CoordinateKey) (state : SemanticResourceState) : Prop where
  key : coordinateKeyOf state.coordinate = key
  time : ∀ generation, state.generation = some generation →
    (bodies generation.materialization.eventId).createdAt = generation.createdAt
  within : ∀ generation, state.generation = some generation →
    ∀ member ∈ generation.members, member ∈ memberIds state.operations
  peopled : ∀ generation, state.generation = some generation → ∃ member, member ∈ generation.members

def Resources (bodies : Bodies) (w : SemanticStore) : Prop :=
  ∀ (key : CoordinateKey) state, w.resources[key]? = some state → Resource bodies key state

theorem resources_empty : Resources bs {} := by
  intro key st hA
  simp at hA

variable {w w' : SemanticStore} {next : SemanticResourceState} {key : CoordinateKey} {address : RedbKey}

theorem Resources.same (h : Resources bs w) (hS : w.SameResources w') : Resources bs w' := by
  intro key st hA
  rw [hS.1] at hA
  exact h key st hA

theorem Planned.generation_cases (h : Planned co pv ni pl) (hN : pl.next = some next)
    (hG : next.generation = some gen) :
    (∃ st, pv = some st ∧ st.generation = some gen) ∨
      ∃ cd, pl.candidate = some cd ∧ Materialized co (pv.bind (·.generation)) cd
        next.sourceRevision next.operations gen := by
  cases hC : pl.candidate with
  | none =>
    have hB : pl.next.bind (·.generation) = some gen := by rw [hN, bind_some, hG]
    exact .inl (bind_eq_some_iff.mp (h.kept hC gen hB))
  | some cd =>
    obtain ⟨_, fresh, hN', hF, hM⟩ := h.candidate cd hC
    cases hN.symm.trans hN'
    cases hG.symm.trans hF
    exact .inr ⟨cd, rfl, hM⟩

theorem Planned.resource (h : Planned co pv ni pl)
    (hP : ∀ st, pv = some st → Resource bs (coordinateKeyOf co) st)
    (hB : ∀ cd, pl.candidate = some cd → cd.Authentic bs)
    (hN : pl.next = some next) : Resource bs (coordinateKeyOf co) next where
  key := by rw [(h.stays next hN).1]
  time gen hG := by
    rcases h.generation_cases hN hG with ⟨st, hS, hO⟩ | ⟨cd, hC, hM⟩
    · exact (hP st hS).time gen hO
    have hb := hB cd hC hM.verified
    rw [hM.eventId, hM.createdAt]
    exact hb.fields.2.2.1.symm
  within gen := h.within next gen hN
  peopled gen hG := by
    rcases h.generation_cases hN hG with ⟨st, hS, hO⟩ | ⟨cd, hC, hM⟩
    · exact (hP st hS).peopled gen hO
    obtain ⟨op, ho⟩ := exists_mem_of_ne_nil _ (h.stays next hN).2
    refine ⟨op.intentId, ?_⟩
    rw [hM.members]
    have hL : op.intentId ∈ memberIds next.operations := mem_map_of_mem ho
    simpa using hL

variable [ShardHash]

theorem Applies.resources (ap : Applies base co ni pl w')
    (h : Resources bs base) (hP : Planned co base.resources[coordinateKeyOf co]? drawn pl)
    (hB : ∀ cd, pl.candidate = some cd → cd.Authentic bs) : Resources bs w' := by
  intro key st hA
  rw [ap.hResources.1, writeResource] at hA
  cases hN : pl.next with
  | none =>
    simp only [hN, Option.elim_none, get_erase] at hA
    split_ifs at hA
    exact h key st hA
  | some next =>
    simp only [hN, elim_some, get_insert] at hA
    split_ifs at hA with hK
    · cases hA
      exact hK ▸ hP.resource (fun st hS => h _ st hS) hB hN
    · exact h key st hA

variable [ProgramDigest] {door : Door}

theorem Transition.resources (h : Resources bs w) (hs : Transition bs w door w') : Resources bs w' := by
  cases hs with
  | store _ hS => exact h.same hS
  | idle => exact h
  | accepted ac hB =>
    have hb : Resources bs w.allocated := h
    refine ac.applies.resources hb ac.planned fun cd hC => ?_
    exact hB cd (planAccept_candidate ac.hPlan ▸ hC)
  | installed is hB =>
    refine is.applies.resources h is.planned fun cd hC => ?_
    exact hB cd (planSourceInstall_candidate is.hPlan ▸ hC)
  | promoted pr =>
    have hS := SemanticStore.commit_sameResources pr.hCommit
    exact h.same ⟨hS.1, hS.2⟩
  | closed sh =>
    intro key st hA
    rw [(SemanticStore.commit_sameResources sh.hCommit).1, get_erase] at hA
    split_ifs at hA
    exact h key st hA

theorem Reaches.resources {al : SemanticStore → Door → Prop}
    (hA : ∀ st cl, al st cl → cl.Authentic bs) (h : Settled bs w)
    (hR : Resources bs w) (hr : Reaches al w w') : Settled bs w' ∧ Resources bs w' := by
  induction hr with
  | refl => exact ⟨h, hR⟩
  | step _ hC hu ih =>
    have hS := hu.transition ih.1.sound.events (hA _ _ hC)
    exact ⟨hS.settled ih.1, hS.resources ih.2⟩

section
omit [ShardHash] [ProgramDigest]

theorem replaced_notBelow (hW : Authentic bs r.event)
    (hp : Planned co pv ni pl)
    (hv : ∀ st, pv = some st → Resource bs (coordinateKeyOf co) st)
    (hC : pl.candidate = some cd) (hP : predecessorOf pl (some r) = some pred)
    (hD : pv.bind (·.generation) = none → (∀ next, pl.next = some next →
      next.sourceRevision.evidence.qualified = .unresolved) → cd.event.NotBelow r.event) :
    cd.event.NotBelow r.event := by
  have hG := hp.removed_of_candidate hC
  obtain ⟨next, generation, hN, -, hM⟩ := hp.candidate cd hC
  have hL : next.sourceRevision.createdAt = some r.event.createdAt → cd.event.NotBelow r.event := fun hT =>
    Event.notBelow_iff.mpr (.inl (hM.after_source _ hT))
  unfold predecessorOf at hP
  cases hO : pv.bind (·.generation) with
  | some o =>
    simp only [hG, hO] at hP
    split_ifs at hP with hK
    rcases hK with ⟨hI, -⟩ | hS
    · obtain ⟨st, ht, hg⟩ := bind_eq_some_iff.mp hO
      have hT := (hv st ht).time o hg
      rw [← hI, ← hW.fields.2.2.1] at hT
      exact Event.notBelow_iff.mpr (.inl (hT ▸ hM.after_previous o hO))
    · rw [hN, bind_some] at hS
      exact hL (hp.source next r hN hS)
  | none =>
    simp only [hG, hO, hC, hp.starts, hN] at hP
    split at hP
    · next hU =>
      refine hD hO fun st ht => ?_
      cases hN.symm.trans ht
      exact hU
    · next ed cr hQ hs =>
      split_ifs at hP with hE
      cases hs
      refine hL ?_
      rw [SourceRevision.createdAt, hQ, hE.2]
    · cases hP

theorem retainedGeneration_eq_self
    (h : ∀ gn, pv = some gn → ∀ mb ∈ gn.members, mb ∈ memberIds o) :
    retainedGeneration pv o = pv := by
  cases pv with
  | none => rfl
  | some gn =>
    have hA : gn.members.all (· ∈ memberIds o) = true := by
      rw [Table.set_all_eq, all_eq_true]
      intro mb hM
      simpa using h gn rfl mb (Std.ExtTreeSet.mem_toList.mp hM)
    simp [retainedGeneration, hA]

def KeepsMembers (state : Option SemanticResourceState) (materialized : Option MaterializationCandidate)
    (resolved : List ResolvedOperation) : Prop :=
  materialized = none → ∀ generation, state.bind (·.generation) = some generation →
    ∀ member ∈ generation.members, member ∉ resolved.map (·.intentId)

theorem KeepsMembers.listed
    (h : KeepsMembers st materialized requested) (hN : materialized = none)
    (hD : resolvedOperations requested = .ok resolved)
    (hS : ∀ c, st = some c → Resource bs key c) (gn : SemanticGeneration)
    (hG : st.bind (·.generation) = some gn) (mb : IntentId) (hM : mb ∈ gn.members) :
    mb ∈ (listedIds st).filter fun id => (resolved[id]?).isNone := by
  obtain ⟨c, rfl, hC⟩ := bind_eq_some_iff.mp hG
  refine mem_filter.mpr ⟨(hS c rfl).within gn hC mb hM, ?_⟩
  cases hA : resolved[mb]? with
  | none => rfl
  | some rs =>
    exact absurd (resolvedOperations_settled hD mb rs hA).2 (h hN gn hG mb hM)

end

section
omit [ShardHash]

theorem planAccept_retains
    (h : planAccept pv highWater i acceptedAt a = .ok pl)
    (hP : ∀ st, pv = some st → Resource bs key st)
    (hK : KeepsMembers pv a.materialized a.resolvedOperations) (hN : a.materialized = none) :
    pl.next.bind (·.generation) = pv.bind (·.generation) := by
  simp only [planAccept, run_ok] at h
  obtain ⟨-, -, -, -, -, -, -, -, -, -, -, -, -, -, revision, -, resolved, hD, -, -, requirement, -, -, -, generation,
    hG, rfl⟩ := h
  simp only [acceptGeneration, hN, pure_ok] at hG
  subst hG
  refine retainedGeneration_eq_self fun o hO mb hM => ?_
  have hL := hK.listed hN hD hP o hO mb hM
  rw [listedIds, ← memberIds_filter] at hL
  rw [memberIds_qualify]
  simp only [memberIds, map_append, mem_append] at hL ⊢
  exact .inl hL

theorem planSourceInstall_retains (h : planSourceInstall pv install = .ok plan)
    (hP : Resource bs key pv)
    (hK : KeepsMembers (some pv) install.successor.materialized install.successor.resolvedOperations)
    (hN : install.successor.materialized = none) : plan.next.bind (·.generation) = pv.generation := by
  simp only [planSourceInstall, planRematerialize, run_ok] at h
  obtain ⟨-, -, -, -, -, -, plan, ⟨-, -, -, -, -, -, revision, -, resolved, hD, -, -, -, -, generation, hG,
    rfl⟩, rfl⟩ := h
  have hL : ∀ o, pv.generation = some o → ∀ mb ∈ o.members, mb ∈ memberIds (qualifyOperations
      (pv.operations.filter fun op => (resolved[op.intentId]?).isNone) install.successor.source) := by
    intro o hO mb hm
    have hM := hK.listed hN hD (fun st hS => by cases hS; exact hP) o hO mb hm
    rw [listedIds, ← memberIds_filter] at hM
    rw [memberIds_qualify]
    exact hM
  simp only [transition]
  split_ifs with hZ
  · -- with members there is an operation left
    rw [Option.map_none, Option.bind_none]
    cases hO : pv.generation with
    | none => rfl
    | some o =>
      obtain ⟨mb, hm⟩ := hP.peopled o hO
      have hM := hL o hO mb hm
      simp [hZ, memberIds] at hM
  unfold rematerializedGeneration at hG
  rw [hN] at hG
  split at hG
  · next hE _ => exact absurd (List.isEmpty_iff.mp hE) hZ
  · rw [pure_ok] at hG
    subst hG
    exact retainedGeneration_eq_self hL
  · next hs => cases hs
  · cases hG

end

omit [ShardHash] [ProgramDigest] in
theorem Planned.removed_eq_none (h : Planned co pv ni pl)
    (hS : pl.next.bind (·.generation) = pv.bind (·.generation)) : pl.removedGeneration = none := by
  rw [h.removed, hS]
  cases pv.bind (·.generation) <;> simp

section
omit [ProgramDigest]

theorem Materializes.winnerKept
    (hR : Materializes s.events own pl events) (h : s.Sound bs) (hP : Planned co pv drawn pl)
    (hB : ∀ cd, pl.candidate = some cd → cd.Authentic bs)
    (hD : own = address → pl.candidate = none → pl.removedGeneration = none)
    (hb : ∀ cd r, own = address → pl.candidate = some cd → s.events.rowAt address = some r →
      cd.event.NotBelow r.event) : Store.WinnerKept address s { s with events, queue := q } := by
  have ho := hR.ok h.events
  intro r hAt
  obtain ⟨hW, hA⟩ := h.events.rowAt_some.mp hAt
  by_cases hS : own = address
  · subst hS
    cases hR with
    | untouched => exact ⟨r, hAt, .of_sameBody (.refl _)⟩
    | dropped hC hG => cases (hD rfl hC).symm.trans hG
    | installed _ _ _ hN => cases hN.symm.trans hAt
    | replaced hC hg hH hc ho' hE =>
      rename_i cd gn c
      refine ⟨⟨candidateEvent cd, generationProvenance gn⟩, ho.rowAt_some.mpr ⟨?_, hH⟩,
        hb cd r rfl hC hAt⟩
      rw [hE]
      exact update_self _ _ _
  -- no row but the one of the plan's own address is touched
  have he : ∀ o, s.events.rowAt own = some o → r.event.id ≠ o.event.id := by
    intro o hX hI
    obtain ⟨hh, ht⟩ := h.events.rowAt_some.mp hX
    rw [hI] at hW
    cases hW.symm.trans hh
    exact hS (Option.some.inj (ht.symm.trans hA))
  have hF : ∀ cd, pl.candidate = some cd → addressOf cd.event = some own →
      r.event.id ≠ cd.event.id := by
    intro cd hC hH hI
    obtain ⟨_, _, _, _, hM⟩ := hP.candidate cd hC
    have h1 := hB cd hC hM.verified
    exact he r (rowOf_candidate h h1 hH (hI ▸ hW)) rfl
  refine ⟨r, ho.rowAt_some.mpr ⟨?_, hA⟩, .of_sameBody (.refl _)⟩
  cases hR with
  | untouched => exact hW
  | dropped _ _ hc _ hE => rw [hE, update_of_ne (he _ hc), hW]
  | installed hC _ hH _ _ hE => rw [hE, update_of_ne (hF _ hC hH), hW]
  | replaced hC _ hH hc _ hE =>
    rw [hE, update_of_ne (hF _ hC hH), update_of_ne (he _ hc), hW]

theorem Applies.winnerKept
    (ap : Applies base co ni pl w') (h : base.store.Sound bs)
    (hP : Planned co pv drawn pl)
    (hB : ∀ cd, pl.candidate = some cd → cd.Authentic bs)
    (hD : addressOfCoordinate co = some address → pl.candidate = none → pl.removedGeneration = none)
    (hb : ∀ cd r, addressOfCoordinate co = some address → pl.candidate = some cd →
      base.store.events.rowAt address = some r → cd.event.NotBelow r.event) :
    Store.WinnerKept address base.store w'.store := by
  have hR := ap.materializes h hP hB
  have ho := hR.ok h.events
  have hw : ap.address = address → addressOfCoordinate co = some address := fun hE =>
    hE ▸ ap.hAddress
  exact (hR.winnerKept h hP hB (fun hE => hD (hw hE))
    fun cd r hE => hb cd r (hw hE)).trans (.of_commits ho (Store.commit_ok ho ap.hCommit))

end

section
omit [ShardHash] [ProgramDigest]

def Door.Undisturbed (bodies : Bodies) (address : RedbKey) (w : SemanticStore) : Door → Prop
  | .insert event _ => Store.Spares bodies address event
  | .insertBatch deliveries => ∀ delivery ∈ deliveries, Store.Spares bodies address delivery.1
  | .promoteSigned intentId _ => ∀ record frozen sigState, w.store.queue.intents[intentId]? = some record →
    record.event = some (frozen, sigState) → Store.Spares bodies address frozen
  | .compensateWrite _ _ _ => False
  | .remove _ => False
  | .expireDue _ => False
  | .gc _ => False
  | _ => True

/-- A semantic transition at the address resolves members only with a new body, and an edit that stands on nothing finds
no row there that beats it. -/
def Door.Orderly (address : RedbKey) (w : SemanticStore) : Door → Prop
  | .accept _ _ _ edit => addressOfCoordinate edit.coordinate = some address →
    KeepsMembers w.resources[coordinateKeyOf edit.coordinate]? edit.materialized edit.resolvedOperations ∧
      (edit.source.qualified = .unresolved → w.resources[coordinateKeyOf edit.coordinate]?.bind (·.generation) = none →
        ∀ candidate row, edit.materialized = some candidate → w.store.events.rowAt address = some row →
          candidate.event.NotBelow row.event)
  | .installSource install => addressOfCoordinate install.successor.coordinate = some address →
    KeepsMembers w.resources[coordinateKeyOf install.successor.coordinate]? install.successor.materialized
      install.successor.resolvedOperations
  | _ => True

end

theorem SemanticStore.Accepting.winnerKept
    (ac : w.Accepting expectedPubkey signRef acceptedAt edit w')
    (h : Settled bs w) (hR : Resources bs w)
    (hB : ∀ cd, edit.materialized = some cd → cd.Authentic bs)
    (hr : (Door.accept expectedPubkey signRef acceptedAt edit).Orderly address w) :
    Store.WinnerKept address w.store w'.store := by
  have hb : w.allocated.store.Sound bs := h.sound.with_queue ⟨h.sound.queue.displaced, h.sound.queue.frozen⟩
  have hC := planAccept_candidate ac.hPlan
  have hP := ac.planned
  refine ac.applies.winnerKept hb hP (fun cd hS => hB cd (hC ▸ hS)) ?_ ?_
  · intro ho hN
    exact hP.removed_eq_none
      (planAccept_retains ac.hPlan (fun st hs => hR _ st hs) (hr ho).1 (hC ▸ hN))
  intro cd r ho hS hA
  obtain ⟨hW, -⟩ := h.sound.events.rowAt_some.mp hA
  have hp := ac.applies.hPredecessor
  have ha : ac.applies.address = address := Option.some.inj (ac.applies.hAddress.symm.trans ho)
  rw [ha, show w.allocated.store.events.rowAt address = some r from hA] at hp
  refine replaced_notBelow (h.sound.authentic _ r hW) hP (fun st hs => hR _ st hs) hS
    hp fun hN hU => ?_
  obtain ⟨next, _, hn, -, -⟩ := hP.candidate cd hS
  refine (hr ho).2 ?_ hN cd r (hC ▸ hS) hA
  rw [← planAccept_evidence ac.hPlan hn]
  exact hU next hn

theorem SemanticStore.Installing.winnerKept (is : w.Installing install w')
    (h : Settled bs w) (hR : Resources bs w)
    (hB : ∀ cd, install.successor.materialized = some cd → cd.Authentic bs)
    (hr : (Door.installSource install).Orderly address w) : Store.WinnerKept address w.store w'.store := by
  have hC := planSourceInstall_candidate is.hPlan
  have hP := is.planned
  have hv := hR _ _ is.hPrevious
  refine is.applies.winnerKept h.sound hP (fun cd hS => hB cd (hC ▸ hS)) ?_ ?_
  · intro ho hN
    have hK := hr ho
    rw [is.hPrevious] at hK hP
    exact hP.removed_eq_none (planSourceInstall_retains is.hPlan hv hK (hC ▸ hN))
  intro cd r ho hS hA
  obtain ⟨hW, -⟩ := h.sound.events.rowAt_some.mp hA
  have hp := is.applies.hPredecessor
  have ha : is.applies.address = address := Option.some.inj (is.applies.hAddress.symm.trans ho)
  rw [ha, hA] at hp
  refine replaced_notBelow (h.sound.authentic _ r hW) hP (fun st hs => hR _ st hs) hS
    hp fun _ hU => ?_
  -- an install brings a source
  obtain ⟨next, _, hn, -, -⟩ := hP.candidate cd hS
  exact absurd (hU next hn) (planSourceInstall_qualified is.hPlan hn)

theorem Door.Runs.winnerKept (h : Settled bs w) (hR : Resources bs w)
    (hd : door.Authentic bs) (hQ : door.Undisturbed bs address w) (ho : door.Orderly address w)
    (hr : door.Runs w w') : Store.WinnerKept address w.store w'.store := by
  cases hr with
  | insert hOk => exact Store.insert_winnerKept h.sound hd hQ hOk
  | insertBatch hOk => exact Store.insertBatch_winnerKept h.sound hd hQ hOk
  | acceptWrite hOk => exact Store.acceptWrite_winnerKept h.sound hd hOk
  | promoteSigned hOk => exact (h.sound.promoteSigned_ok hOk).winnerKept h.sound hQ
  | compensateWrite => exact hQ.elim
  | remove => exact hQ.elim
  | expireDue => exact hQ.elim
  | gc => exact hQ.elim
  | accept hOk =>
    rcases SemanticStore.accept_cases h.sound.events hOk with rfl | ⟨⟨ac⟩⟩
    · exact .refl _
    · exact ac.winnerKept h hR hd ho
  | installSource hOk =>
    rcases SemanticStore.installSource_cases h.sound.events hOk with rfl | ⟨⟨is⟩⟩
    · exact .refl _
    · exact is.winnerKept h hR hd ho
  | promote hOk =>
    rcases SemanticStore.promote_cases hOk with ⟨-, rfl⟩ | ⟨⟨pr⟩⟩
    · exact .refl _
    obtain ⟨ev, hOk, hS, hC⟩ := pr.rows h.sound.events
    have hD := Store.commit_ok hOk hC
    refine .of_update h.sound.events hD.rested.ok (pr.holds h.sound.events).rowOf ?_ (hD.rows.trans hS)
    exact rfl
  | closeCohort hOk =>
    rcases SemanticStore.closeCohort_cases hOk with rfl | ⟨⟨sh⟩⟩
    · exact .refl _
    have hC := commit_store sh.hCommit
    have hD := Store.commit_ok (s := { w.store with queue := sh.queue }) h.sound.events hC
    exact .of_rows h.sound.events hD.rested.ok fun r hA _ => ⟨r, by rw [hD.rows]; exact hA, .refl _⟩

abbrev OrderlyRun (bodies : Bodies) (address : RedbKey) : SemanticStore → SemanticStore → Prop :=
  Reaches fun w door => door.Authentic bodies ∧ door.Undisturbed bodies address w ∧ door.Orderly address w

/-- Along an orderly run the row of an address is never followed by one that it beats. -/
theorem winner_never_regresses {start w later : SemanticStore} (hStart : AuthenticRun bodies {} start)
    (hBefore : OrderlyRun bodies address start w) (hAfter : OrderlyRun bodies address w later) {row : StoredEvent}
    (hAt : w.store.events.rowAt address = some row) :
    ∃ row', later.store.events.rowAt address = some row' ∧ (row.event.createdAt < row'.event.createdAt ∨
      (row'.event.createdAt = row.event.createdAt ∧ row'.event.id ≤ row.event.id)) := by
  have hF := hStart.resources (fun _ _ hC => hC) settled_empty resources_empty
  have hM := hBefore.resources (fun _ _ hC => hC.1) hF.1 hF.2
  suffices hK : Store.WinnerKept address w.store later.store by
    obtain ⟨row', ho', hN⟩ := hK row hAt
    exact ⟨row', ho', Event.notBelow_iff.mp hN⟩
  induction hAfter with
  | refl => exact .refl _
  | step bfr hC hr ih =>
    obtain ⟨hS, hR⟩ := bfr.resources (fun _ _ hC => hC.1) hM.1 hM.2
    exact ih.trans (hr.winnerKept hS hR hC.1 hC.2.1 hC.2.2)

/-- Semantic edits keep the tables in agreement as well, and store no row that a tombstone refuses. -/
theorem edited_relational (hR : AuthenticRun bodies {} w) : w.store.events.Relational ∧
    ∀ id st, w.store.events.rowOf id = some st → w.store.tombstones.refuses st.event = false := by
  have hs := (hR.settled (fun _ _ hD => hD) settled_empty).1
  exact ⟨hs.rested.relational, hs.sound.allowed⟩

def relayListAddress : RedbKey := (0, 2, 10002, "")

section
omit [ShardHash] [ProgramDigest]

/-- A relay has brought a list of time 2000; an edit of the default, made at time 1000, takes its address. -/
theorem default_edit_regresses :
    ∃ w later : SemanticStore, @Door.Runs lengthDigest oneShard {} (.insert (listEvent 5 2000) ⟨"wss://relay", 2000⟩) w ∧
      @Door.Runs lengthDigest oneShard w (.accept 2 "" 1000 (defaultEdit (listEvent 9 1000))) later ∧
      (w.store.events.rowAt relayListAddress).map (·.event.createdAt) = some 2000 ∧
      (later.store.events.rowAt relayListAddress).map (·.event.createdAt) = some 1000 := by
  let _ := lengthDigest
  let _ := oneShard
  have hR : ((Store.insert {} (listEvent 5 2000) ⟨"wss://relay", 2000⟩).toOption.any fun first =>
      (first.2.events.rowAt relayListAddress).map (·.event.createdAt) = some 2000 &&
        (SemanticStore.accept { store := first.2 } 2 "" 1000 (defaultEdit (listEvent 9 1000))).toOption.any fun second =>
          (second.2.store.events.rowAt relayListAddress).map (·.event.createdAt) = some 1000) = true := by
    decide +kernel
  simp only [any_eq_true, toOption_some, and_eq_true, decide_eq_true_eq] at hR
  obtain ⟨first, hF, hNew, second, hS, hOld⟩ := hR
  exact ⟨{ store := first.2 }, second.2, .insert hF, .accept hS, hNew, hOld⟩

/-- An edit of the default follows the older list of a relay. -/
theorem winner_never_regresses_edit :
    ∃ w later : SemanticStore, (w.store.events.rowAt relayListAddress).map (·.event.createdAt) = some 1000 ∧
      @Door.Runs lengthDigest oneShard w (.accept 2 "" 2000 (defaultEdit (listEvent 5 2000))) later ∧
      ∃ row', later.store.events.rowAt relayListAddress = some row' ∧ 1000 ≤ row'.event.createdAt := by
  let bodies : Bodies := fun id => if id = 5 then listEvent 5 2000 else listEvent 9 1000
  let _ := lengthDigest
  let _ := oneShard
  have hR : ((Store.insert {} (listEvent 9 1000) ⟨"wss://relay", 1000⟩).toOption.any fun first =>
      (first.2.events.rowAt relayListAddress).map (·.event.createdAt) = some 1000 &&
        (SemanticStore.accept { store := first.2 } 2 "" 2000 (defaultEdit (listEvent 5 2000))).toOption.isSome) = true := by
    decide +kernel
  simp only [any_eq_true, toOption_some, and_eq_true, decide_eq_true_eq, isSome_iff_exists] at hR
  obtain ⟨first, hF, hOld, second, hS⟩ := hR
  obtain ⟨row, hr, hT⟩ := map_eq_some_iff.mp hOld
  have hB : AuthenticRun bodies {} { store := first.2 } := .step .refl (by exact .refl _) (.insert hF)
  have hA : OrderlyRun bodies relayListAddress { store := first.2 } second.2 := by
    refine .step .refl ⟨?_, ?_, ?_⟩ (.accept hS)
    · rintro _ ⟨⟩ -
      exact .refl _
    · trivial
    · refine fun _ => ⟨fun hNone => (by cases hNone), ?_⟩
      rintro _ _ candidate row' ⟨⟩ hr'
      cases hr.symm.trans hr'
      exact Event.notBelow_iff.mpr (.inl (by rw [hT]; decide))
  obtain ⟨row', hr', ho⟩ := winner_never_regresses hB .refl hA hr
  exact ⟨{ store := first.2 }, second.2, hOld, .accept hS, row', hr', by omega⟩

theorem edited_relational_two_edits : ∃ w : SemanticStore, w.store.events.rows.size = 1 ∧
    @AuthenticRun lengthDigest oneShard listBodies {} w ∧ @EventTables.Relational oneShard w.store.events := by
  let _ := lengthDigest
  let _ := oneShard
  obtain ⟨first, second, hFirst, hSecond, -, hS, -⟩ := two_edits_accepted
  have hL : AuthenticRun listBodies {} second.2 := by
    refine .step (.step .refl ?_ (.accept hFirst)) ?_ (.accept hSecond)
    all_goals
      rintro _ ⟨⟩ -
      exact .refl _
  exact ⟨second.2, hS, hL, (edited_relational hL).1⟩

end

end NmpStore.Semantic
