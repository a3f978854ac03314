import NmpStore.Engine.LimitedRows

/-! # Advancing a history window

A window asks for older rows by a staged advance: it opens handles, reads rows below its oldest one and notes what it did,
so that the advance can be taken back.
-/

namespace NmpStore.Engine

open Resolver (ConcreteFilter Demand FilterBase HandleId)

instance : TransCmp nip01NewestFirst :=
  inferInstanceAs (TransCmp (compareLex (fun a b : Nat × Nat => compareOn Prod.fst b a) (compareOn Prod.snd)))

instance : Std.LawfulEqCmp nip01NewestFirst where
  eq_of_compare h := by
    obtain ⟨hAt, hId⟩ := Ordering.then_eq_eq.mp h
    exact Prod.ext (Nat.compare_eq_eq.mp hAt).symm (Nat.compare_eq_eq.mp hId)

/-- The rows of a window and the same rows in order. -/
structure HistoryRows where
  rows : Table EventId Row := ∅
  order : ExtTreeSet (Nat × Nat) nip01NewestFirst := ∅

namespace HistoryRows

def key (row : Row) : Nat × Nat := (row.event.createdAt, row.event.id)

variable (t : HistoryRows)

def orderWithout (id : EventId) : ExtTreeSet (Nat × Nat) nip01NewestFirst :=
  t.rows[id]?.elim t.order fun old => t.order.erase (key old)

def insert (row : Row) : HistoryRows :=
  ⟨t.rows.insert row.event.id row, (t.orderWithout row.event.id).insert (key row)⟩

def remove (id : EventId) : HistoryRows := ⟨t.rows.erase id, t.orderWithout id⟩

def boundary : Option (Nat × Nat) := t.order.toList.getLast?

end HistoryRows

inductive WindowLoad where
  | idle
  | requesting
  | returned (added : Nat)
  | atBound (max : Nat)

inductive HistoryAdvanceError where
  | storeUnavailable

/-- What is needed to take a staged advance back. -/
structure PendingHistoryLoad (Evidence : Type) where
  priorTargetRows : Nat
  priorLoad : WindowLoad
  priorEvidence : Option Evidence
  priorProjectionComplete : Bool
  acquiredTieSecond : Option Nat
  openedHandleIds : List HandleId := []
  addedRowIds : List EventId := []

structure HistoryState (Evidence : Type) where
  branches : List Demand
  maxRows : Nat
  targetRows : Nat
  rows : HistoryRows := {}
  liveHandleIds : List HandleId := []
  handles : List HandleId := []
  handleIds : ExtTreeSet HandleId := ∅
  branchOf : Table HandleId Nat := ∅
  acquisitions : Table HandleId (Option Nat) := ∅
  acquiredTieSeconds : ExtTreeSet Nat := ∅
  lastEvidence : Option Evidence := none
  projectionComplete : Bool := false
  load : WindowLoad := .idle
  pendingLoad : Option (PendingHistoryLoad Evidence) := none

/-- What an advance is told by its surroundings: the counter of the resolver's handles, which subscriptions are refused, the
root selections of a handle, the rows below a cursor, and the evidence of the branches. -/
structure Surroundings (Evidence : Type) (bodies : Bodies) where
  nextHandle : HandleId
  refuses : HandleId → Demand → Bool
  rootAtoms : HandleId → List ConcreteFilter
  queryNewestBefore : ConcreteFilter → Option (List RelayUrl) → Nat × Nat → Nat → Result (List StoredEvent)
  evidenceFor : HistoryState Evidence → Result Evidence
  older {filter pinned before limit rows} : queryNewestBefore filter pinned before limit = .ok rows →
    ∀ se ∈ rows, nip01NewestFirst before (place se) = .lt ∧ Authentic bodies se.event

variable (branches : List Demand)

/-- The branches with another time range, those left out whose range would be empty. -/
def narrowed (narrow : FilterBase → Option FilterBase) : List (Nat × Demand) :=
  branches.zipIdx.filterMap fun
    | (.mk (.mk base bound) routing as cache freshness, index) =>
      (narrow base).map fun base => (index, .mk (.mk base bound) routing as cache freshness)

def tieSecondDemands (createdAt : Nat) : List (Nat × Demand) :=
  narrowed branches fun base =>
    if base.since.any (createdAt < ·) || base.until.any (· < createdAt) then none
    else some { base with since := some createdAt, «until» := some createdAt, limit := none }

def olderDemands (createdAt limit : Nat) : List (Nat × Demand) :=
  if createdAt = 0 then []
  else narrowed branches fun base =>
    let «until» := base.until.elim (createdAt - 1) (min · (createdAt - 1))
    if base.since.any («until» < ·) then none else some { base with «until» := some «until», limit := some limit }

/-- The relays of a strict branch over named relays. -/
def declaredPin : Demand → Option (List RelayUrl)
  | .mk _ (.explicit relays) _ .strict _ => some relays
  | _ => none

/-- A row found again in another branch brings its sources. -/
def addCandidate (candidates : Table EventId Row) (se : StoredEvent) : Table EventId Row :=
  candidates.insert se.event.id <| candidates[se.event.id]?.elim (shownRow se) fun row =>
    { row with sources := row.sources ∪ (shownRow se).sources }

namespace HistoryState

variable {Evidence : Type} (env : Surroundings Evidence bodies) (st : HistoryState Evidence)

def restore (pending : PendingHistoryLoad Evidence) : HistoryState Evidence :=
  { st with
    handles := st.handles.filter (· ∉ pending.openedHandleIds)
    handleIds := st.handleIds.filter (· ∉ pending.openedHandleIds)
    acquisitions := st.acquisitions.filter fun handle _ => handle ∉ pending.openedHandleIds
    branchOf := st.branchOf.filter fun handle _ => handle ∉ pending.openedHandleIds
    acquiredTieSeconds := pending.acquiredTieSecond.elim st.acquiredTieSeconds st.acquiredTieSeconds.erase
    rows := pending.addedRowIds.foldl HistoryRows.remove st.rows
    targetRows := pending.priorTargetRows
    load := pending.priorLoad
    lastEvidence := pending.priorEvidence
    projectionComplete := pending.priorProjectionComplete
    pendingLoad := none }

def onRollbackHistoryLoad : HistoryState Evidence := st.pendingLoad.elim st st.restore

/-- Subscribe one demand after the other. The first refusal gives up all of them. -/
def openDemands : HandleId → List (Nat × Demand × Option Nat) → Option (List (Nat × HandleId × Option Nat))
  | _, [] => some []
  | next, (branch, demand, kind) :: rest =>
    if env.refuses (next + 1) demand then none else (openDemands (next + 1) rest).map ((branch, next + 1, kind) :: ·)

def link (opened : List (Nat × HandleId × Option Nat)) : HistoryState Evidence :=
  { st with
    handleIds := st.handleIds.insertMany (opened.map (·.2.1))
    handles := st.handles ++ opened.map (·.2.1)
    acquisitions := st.acquisitions.insertMany (opened.map fun handle => (handle.2.1, handle.2.2))
    branchOf := st.branchOf.insertMany (opened.map fun handle => (handle.2.1, handle.1)) }

def candidates (before : Nat × Nat) (needed : Nat) : Result (Table EventId Row) :=
  (st.liveHandleIds.zip st.branches).foldlM (fun found branch =>
    (env.rootAtoms branch.1).foldlM (fun found atom => do
      let rows ← env.queryNewestBefore { atom with limit := none } (declaredPin branch.2) before needed
      pure (rows.foldl addCandidate found)) found) ∅

def advanceHistoryProjection (before : Nat × Nat) : Result (HistoryState Evidence × List EventId) := do
  let needed := st.targetRows - st.rows.rows.size
  let found ← st.candidates env before needed
  let ordered := newest HistoryRows.key needed (found.toList.map Prod.snd)
  let evidence ← env.evidenceFor st
  let rows := ordered.foldl HistoryRows.insert st.rows
  let load := .returned (rows.rows.size - st.rows.rows.size)
  pure ({ st with rows, lastEvidence := some evidence, projectionComplete := true, load }, ordered.map (·.event.id))

def stageHistoryAdvance (newTarget : Nat) : HistoryState Evidence × Except HistoryAdvanceError Unit :=
  let raised := { st with targetRows := max st.targetRows newTarget }
  let needed := raised.targetRows - st.rows.rows.size
  match st.rows.boundary with
  | none => (raised, .ok ())
  | some before =>
    if needed = 0 then (raised, .ok ())
    else
      let second := if st.acquiredTieSeconds.contains before.1 then none else some before.1
      let pending : PendingHistoryLoad Evidence :=
        ⟨st.targetRows, st.load, st.lastEvidence, st.projectionComplete, second, [], []⟩
      let demands := (second.elim [] (tieSecondDemands st.branches)).map (fun (branch, demand) => (branch, demand, second)) ++
        (olderDemands st.branches before.1 needed).map fun (branch, demand) => (branch, demand, none)
      match openDemands env env.nextHandle demands with
      | none => (onRollbackHistoryLoad { raised with pendingLoad := some pending }, .error .storeUnavailable)
      | some opened =>
        let pending := { pending with openedHandleIds := opened.map (·.2.1) }
        let linked := { raised.link opened with
          acquiredTieSeconds := second.elim st.acquiredTieSeconds st.acquiredTieSeconds.insert
          load := .requesting
          pendingLoad := some pending }
        match linked.advanceHistoryProjection env before with
        | .ok (next, addedRowIds) => ({ next with pendingLoad := some { pending with addedRowIds } }, .ok ())
        | .error _ => (onRollbackHistoryLoad { linked with projectionComplete := false }, .error .storeUnavailable)

def stageHistoryAtbound : HistoryState Evidence :=
  { st with
    load := .atBound st.maxRows
    pendingLoad := some ⟨st.targetRows, st.load, st.lastEvidence, st.projectionComplete, none, [], []⟩ }

/-- A request while an advance is staged only raises the target. -/
def onRequestRows (atLeast : Nat) : HistoryState Evidence × Except HistoryAdvanceError Unit :=
  let newTarget := min (max st.targetRows atLeast) st.maxRows
  if st.pendingLoad.isSome then ({ st with targetRows := newTarget }, .ok ())
  else if newTarget = st.targetRows then
    if st.targetRows = st.maxRows then (st.stageHistoryAtbound, .ok ()) else (st, .ok ())
  else st.stageHistoryAdvance env newTarget

end HistoryState

namespace HistoryRows

variable {t : HistoryRows} {id : EventId}

/-- Rows stand under their ids and in the order, with the times that their ids stand for. -/
def Ok (bodies : Bodies) (t : HistoryRows) : Prop :=
  ∀ id row, t.rows[id]? = some row → row.event.id = id ∧ key row ∈ t.order ∧ row.event.createdAt = (bodies id).createdAt

theorem remove_insert (hN : t.rows[row.event.id]? = none) (hK : key row ∉ t.order) :
    (t.insert row).remove row.event.id = t := by
  have hR : (t.rows.insert row.event.id row).erase row.event.id = t.rows := Table.ext fun a => by
    rw [get_erase, get_insert]
    grind
  have ho : (t.order.insert (key row)).erase (key row) = t.order := ext_mem fun a => by
    grind
  simp [remove, insert, orderWithout, hN, hR, ho]

theorem remove_insert_of_ne (hn : ∀ ol, t.rows[id]? = some ol → ol.event.id = id) (hN : row.event.id ≠ id) :
    (t.insert row).remove id = (t.remove id).insert row := by
  have hR : (t.rows.insert row.event.id row).erase id = (t.rows.erase id).insert row.event.id row := Table.ext fun a => by
    grind
  have hK : ∀ ol, t.rows[id]? = some ol → key ol ≠ key row := fun ol hO hE =>
    hN ((Prod.ext_iff.mp hE).2.symm.trans (hn ol hO))
  simp only [remove, insert, hR, mk.injEq, true_and]
  refine ext_mem fun a => ?_
  simp only [orderWithout, get_insert, get_erase, if_neg hN, if_neg hN.symm]
  cases hO : t.rows[id]? <;> cases hP : t.rows[row.event.id]? <;>
    simp only [Option.elim_none, elim_some, mem_erase, mem_insert,
      Std.LawfulEqCmp.compare_eq_iff_eq] <;> grind

theorem remove_foldl_insert {rs : List Row} (hN : ∀ ol, t.rows[id]? = some ol → ol.event.id = id)
    (hn : ∀ ro ∈ rs, ro.event.id ≠ id) : (rs.foldl insert t).remove id = rs.foldl insert (t.remove id) := by
  induction rs generalizing t with
  | nil => rfl
  | cons ro rs ih =>
    have hW := hn ro (.head _)
    rw [foldl_cons, ih (fun ol hO => hN ol ?_) fun ro hI => hn ro (.tail _ hI),
      remove_insert_of_ne hN hW, foldl_cons]
    rwa [insert, get_insert, if_neg hW] at hO

/-- New rows can be taken back in the order in which they came. -/
theorem foldl_remove_insert {rs : List Row} (hD : (rs.map (·.event.id)).Nodup)
    (hN : ∀ ro ∈ rs, t.rows[ro.event.id]? = none ∧ key ro ∉ t.order) :
    (rs.map (·.event.id)).foldl remove (rs.foldl insert t) = t := by
  induction rs with
  | nil => rfl
  | cons ro rs ih =>
    obtain ⟨hU, hD⟩ := nodup_cons.mp hD
    have hn : ∀ ot ∈ rs, ot.event.id ≠ ro.event.id := fun ot hI hE =>
      hU (mem_map.mpr ⟨ot, hI, hE⟩)
    have hm : ∀ ol, (t.insert ro).rows[ro.event.id]? = some ol → ol.event.id = ro.event.id := fun ol hO => by
      rw [insert, get_insert, if_pos rfl] at hO
      cases hO
      rfl
    obtain ⟨hW, hK⟩ := hN ro (.head _)
    rw [map_cons, foldl_cons, foldl_cons, remove_foldl_insert hm hn, remove_insert hW hK]
    exact ih hD fun ro hI => hN ro (.tail _ hI)

end HistoryRows

namespace HistoryState

variable {Evidence : Type} {env : Surroundings Evidence bodies} {st : HistoryState Evidence} {next : HandleId}

/-- The handles of a window come from the resolver's counter. -/
structure Ok (st : HistoryState Evidence) (bodies : Bodies) (next : HandleId) : Prop where
  rows : st.rows.Ok bodies
  below : ∀ handle, next < handle → handle ∉ st.handles ∧ handle ∉ st.handleIds ∧ st.acquisitions[handle]? = none ∧
    st.branchOf[handle]? = none

theorem openDemands_lt (h : openDemands env next dm = some opened) :
    ∀ hd ∈ opened.map (·.2.1), next < hd := by
  induction dm generalizing next opened with
  | nil => cases h; simp
  | cons de dm ih =>
    rw [openDemands] at h
    split at h
    · cases h
    obtain ⟨rs, hR, rfl⟩ := map_eq_some_iff.mp h
    intro hd hI
    rcases mem_cons.mp hI with rfl | hI
    · exact Nat.lt_add_one _
    · exact (Nat.lt_add_one _).trans (ih hR hd hI)

theorem filter_insertMany {V : Type} (t : Table HandleId V) (l : List (HandleId × V)) (is : List HandleId)
    (hi : l.map Prod.fst = is) (hN : ∀ hd ∈ is, t[hd]? = none) :
    (t.insertMany l).filter (fun hd _ => hd ∉ is) = t := by
  refine Table.ext fun hd => ?_
  rw [get_filter]
  by_cases hI : hd ∈ is
  · simp [hI, hN hd hI]
  · rw [Std.ExtTreeMap.getElem?_insertMany_list_of_contains_eq_false (by simpa [hi] using hI)]
    cases t[hd]? <;> simp [hI]

theorem link_nil : st.link [] = st := by simp [link]

/-- What an advance does to a window can be taken back. -/
theorem restore_eq (s : HistoryState Evidence) (op : List (Nat × HandleId × Option Nat)) (added : List Row)
    (ho : st.Ok bodies next) (hi : st.pendingLoad = none) {second : Option Nat}
    (hp : ∀ hd ∈ op.map (·.2.1), next < hd) (hD : (added.map (·.event.id)).Nodup)
    (hN : ∀ ro ∈ added, st.rows.rows[ro.event.id]? = none ∧ HistoryRows.key ro ∉ st.rows.order)
    (hT : second.elim tied tied.erase = st.acquiredTieSeconds) :
    restore { st.link op with
        acquiredTieSeconds := tied, rows := added.foldl HistoryRows.insert st.rows, targetRows := s.targetRows, load := s.load
        lastEvidence := s.lastEvidence, projectionComplete := s.projectionComplete, pendingLoad := s.pendingLoad }
      ⟨st.targetRows, st.load, st.lastEvidence, st.projectionComplete, second, op.map (·.2.1),
        added.map (·.event.id)⟩ = st := by
  have hL := fun hd hI => ho.below hd (hp hd hI)
  have hH : (st.handles ++ op.map (·.2.1)).filter (· ∉ op.map (·.2.1)) = st.handles := by
    rw [List.filter_append, List.filter_eq_self.mpr fun a ha => by simpa using fun hI => (hL a hI).1 ha]
    simp
  have hS : (st.handleIds.insertMany (op.map (·.2.1))).filter (· ∉ op.map (·.2.1)) = st.handleIds :=
    ext_mem fun hd => by
      have hN : hd ∈ op.map (·.2.1) → hd ∉ st.handleIds := fun hI => (hL hd hI).2.1
      simp only [Std.ExtTreeSet.mem_filter, Std.ExtTreeSet.get_eq, Std.ExtTreeSet.mem_insertMany_list, contains_iff_mem,
        decide_eq_true_eq, exists_prop]
      tauto
  have hA := filter_insertMany st.acquisitions (op.map fun hd => (hd.2.1, hd.2.2))
    (op.map (·.2.1)) map_map fun hd hI => (hL hd hI).2.2.1
  have hB := filter_insertMany st.branchOf (op.map fun hd => (hd.2.1, hd.1))
    (op.map (·.2.1)) map_map fun hd hI => (hL hd hI).2.2.2
  simp only [restore, link, hH, hS, hA, hB, hT, HistoryRows.foldl_remove_insert hD hN]
  rw [← hi]

/-- A row from below a cursor, with the time that its id stands for. -/
def Candidate (bodies : Bodies) (before : Nat × Nat) (id : EventId) (row : Row) : Prop :=
  row.event.id = id ∧ nip01NewestFirst before (HistoryRows.key row) = .lt ∧ row.event.createdAt = (bodies id).createdAt

def Candidates (bodies : Bodies) (before : Nat × Nat) (found : Table EventId Row) : Prop :=
  ∀ id row, found[id]? = some row → Candidate bodies before id row

theorem Candidates.add (h : Candidates bodies bef fd)
    (hS : nip01NewestFirst bef (place se) = .lt ∧ Authentic bodies se.event) :
    Candidates bodies bef (addCandidate fd se) := by
  intro id ro hW
  rw [addCandidate, get_insert] at hW
  split at hW
  · rename_i hId
    subst hId
    cases hO : fd[se.event.id]? with
    | none =>
      have hAt : se.event.createdAt = (bodies se.event.id).createdAt := (Event.SameBody.fields hS.2).2.2.1
      rw [hO] at hW
      cases hW
      exact ⟨rfl, hS.1, hAt⟩
    | some ol =>
      rw [hO] at hW
      cases hW
      exact h _ ol hO
  · exact h id ro hW

theorem candidates_spec (h : st.candidates env bef needed = .ok fd) : Candidates bodies bef fd := by
  refine foldlM_induction (fun _ => Candidates bodies bef) (fun id ro hW => by simp at hW)
    (fun _ br ac next _ hA hN => ?_) h
  refine foldlM_induction (fun _ => Candidates bodies bef) hA (fun _ am ac next _ hA hN => ?_) hN
  obtain ⟨rs, hR, hF⟩ := bind_ok.mp hN
  cases hF
  exact List.foldlRecOn (motive := Candidates bodies bef) rs addCandidate hA fun ac hA se hI =>
    hA.add (env.older hR se hI)

/-- Rows from below the oldest row of a window are new to it. -/
theorem Candidate.new {id : EventId} (h : Candidate bodies bef id row) (ho : st.rows.Ok bodies)
    (hB : st.rows.boundary = some bef) :
    st.rows.rows[row.event.id]? = none ∧ HistoryRows.key row ∉ st.rows.order := by
  obtain ⟨rfl, hl, hAt⟩ := h
  have hU : HistoryRows.key row ∉ st.rows.order := fun hI => by
    obtain ⟨nw, hA⟩ := List.getLast?_eq_some_iff.mp hB
    have hS : st.rows.order.toList.Pairwise _ := ordered_toList
    rw [← Std.ExtTreeSet.mem_toList, hA, mem_append, mem_singleton] at hI
    rw [hA, pairwise_append] at hS
    rcases hI with hI | rfl
    · have hL := hS.2.2 _ hI _ (.head _)
      rw [Std.OrientedCmp.gt_of_lt hl] at hL
      cases hL
    · cases hl.symm.trans Std.ReflCmp.compare_self
  refine ⟨eq_none_iff_forall_ne_some.mpr fun ol hO => hU ?_, hU⟩
  obtain ⟨hId, hI, hT⟩ := ho _ ol hO
  have hK : HistoryRows.key row = HistoryRows.key ol := Prod.ext (hAt.trans hT.symm) hId.symm
  exact hK ▸ hI

theorem advanceHistoryProjection_spec
    (h : st.advanceHistoryProjection env bef = .ok (after, ids)) : ∃ ad : List Row, ids = ad.map (·.event.id) ∧
      ids.Nodup ∧ (∀ ro ∈ ad, ∃ id, Candidate bodies bef id ro) ∧ after = { st with
        rows := ad.foldl HistoryRows.insert st.rows, lastEvidence := after.lastEvidence
        projectionComplete := after.projectionComplete, load := after.load } := by
  simp only [advanceHistoryProjection, run_ok] at h
  obtain ⟨fd, hF, evidence, -, rfl, rfl⟩ := h
  have hS := candidates_spec hF
  refine ⟨_, rfl, ?_, fun ro hI => ?_, rfl⟩
  · have hP := perm_insertionSort (NewestFirst HistoryRows.key) (fd.toList.map Prod.snd)
    refine List.Nodup.sublist ((List.take_sublist _ _).map _) ((hP.map _).nodup_iff.mpr ?_)
    rw [map_map]
    refine pairwise_map.mpr ((Table.toList_pairwise fd).imp_of_mem fun {a b} ha hb hL he => ?_)
    have hA := (hS _ _ (mem_toList.mp ha)).1
    have hB := (hS _ _ (mem_toList.mp hb)).1
    rw [← hA, ← hB, show a.2.event.id = b.2.event.id from he] at hL
    simp at hL
  · obtain ⟨en, hE, rfl⟩ := mem_map.mp (mem_of_mem_newest hI)
    exact ⟨en.1, hS _ _ (mem_toList.mp hE)⟩

theorem stageHistoryAdvance_spec (ho : st.Ok bodies env.nextHandle) (hI : st.pendingLoad = none) (nw : Nat) :
    ((st.stageHistoryAdvance env nw).2 = .error .storeUnavailable → (st.stageHistoryAdvance env nw).1 = st) ∧
      ∀ pn, (st.stageHistoryAdvance env nw).1.pendingLoad = some pn →
        (st.stageHistoryAdvance env nw).1.restore pn = st := by
  have hF : ∀ s, s = st → ((.error .storeUnavailable : Except HistoryAdvanceError Unit) = .error .storeUnavailable → s = st) ∧
      ∀ pn, s.pendingLoad = some pn → s.restore pn = st := by
    rintro s rfl
    exact ⟨fun _ => rfl, fun pn h => by simp [hI] at h⟩
  unfold stageHistoryAdvance
  extract_lets rs needed
  split
  · exact ⟨nofun, fun pn h => by simp [rs, hI] at h⟩
  rename_i bf hb
  split
  · exact ⟨nofun, fun pn h => by simp [rs, hI] at h⟩
  extract_lets second pn demands
  have hE : ∀ ti, ti = st.acquiredTieSeconds ∨ ti = second.elim st.acquiredTieSeconds st.acquiredTieSeconds.insert →
      second.elim ti ti.erase = st.acquiredTieSeconds := by
    intro ti hT
    by_cases hi : bf.1 ∈ st.acquiredTieSeconds
    · simpa [second, hi] using hT
    · refine ext_mem fun o => ?_
      rcases hT with rfl | rfl <;> simp [second, hi] <;> grind
  split
  · have hB := restore_eq { rs with pendingLoad := some pn } [] [] ho hI (by simp) (by simp) (by simp)
      (hE _ (.inl rfl))
    rw [link_nil] at hB
    exact hF _ hB
  rename_i op hp
  extract_lets pn' ln
  split
  · rename_i af is hA
    obtain ⟨ad, rfl, hd, hD, ha⟩ := advanceHistoryProjection_spec hA
    refine ⟨nofun, fun o h => ?_⟩
    cases h
    rw [ha]
    refine restore_eq af op ad ho hI (openDemands_lt hp) hd (fun ro hi => ?_)
      (hE _ (.inr rfl))
    obtain ⟨id, hW⟩ := hD ro hi
    exact hW.new ho.rows hb
  · exact hF _ (restore_eq { ln with projectionComplete := false } op [] ho hI (openDemands_lt hp) (by simp)
      (by simp) (hE _ (.inr rfl)))

/-- A request that fails, or whose staged advance is rolled back, leaves the window as it was. -/
theorem request_leaves_no_trace (hOk : st.Ok bodies env.nextHandle) (hIdle : st.pendingLoad = none) (atLeast : Nat)
    (more : List (Surroundings Evidence bodies × Nat)) :
    ((st.onRequestRows env atLeast).2 = .error .storeUnavailable → (st.onRequestRows env atLeast).1 = st) ∧
      ((st.onRequestRows env atLeast).1.pendingLoad.isSome → onRollbackHistoryLoad
        (more.foldl (fun s request => (s.onRequestRows request.1 request.2).1) (st.onRequestRows env atLeast).1) = st) := by
  have hB : ∀ (s : HistoryState Evidence) pnd, s.pendingLoad = some pnd → s.restore pnd = st →
      onRollbackHistoryLoad (more.foldl (fun s request => (s.onRequestRows request.1 request.2).1) s) = st := by
    induction more with
    | nil =>
      intro s pnd hP hR
      simpa [onRollbackHistoryLoad, hP] using hR
    | cons request more ih =>
      intro s pnd hP hR
      have hS : (s.onRequestRows request.1 request.2).1 =
          { s with targetRows := min (max s.targetRows request.2) s.maxRows } := by
        simp [onRequestRows, hP]
      rw [foldl_cons, hS]
      exact ih _ pnd hP hR
  unfold onRequestRows
  simp only [hIdle, isSome_none, false_eq_true, if_false]
  split
  · split
    · have hR := restore_eq st.stageHistoryAtbound [] [] hOk hIdle (by simp) (by simp) (by simp)
        (show none.elim _ _ = st.acquiredTieSeconds from rfl)
      rw [link_nil] at hR
      exact ⟨nofun, fun _ => hB _ _ rfl hR⟩
    · exact ⟨nofun, fun h => by simp [hIdle] at h⟩
  · obtain ⟨hF, hr⟩ := stageHistoryAdvance_spec hOk hIdle (min (max st.targetRows atLeast) st.maxRows)
    refine ⟨hF, fun hs => ?_⟩
    obtain ⟨pnd, hP⟩ := isSome_iff_exists.mp hs
    exact hB _ pnd hP (hr pnd hP)

/-- A window of one note, with room for another. -/
def oneRow : HistoryState Unit where
  branches := [.mk (.mk {} .nil) .auto none .agnostic .live]
  maxRows := 2
  targetRows := 1
  rows := HistoryRows.insert {} (shownRow ⟨noteAt 5 30, {}⟩)

def nothingOlder : Surroundings Unit fun _ => noteAt 5 30 :=
  ⟨0, fun _ _ => false, fun _ => [], fun _ _ _ _ => .ok [], fun _ => .ok (), fun h => by cases h; simp⟩

theorem request_leaves_no_trace_oneRow : (oneRow.onRequestRows nothingOlder 2).1.handles = [1, 2] ∧
    onRollbackHistoryLoad (oneRow.onRequestRows nothingOlder 2).1 = oneRow := by
  have ho : oneRow.Ok (fun _ => noteAt 5 30) 0 := by
    refine ⟨fun id row hR => ?_, fun hnd hL => by simp [oneRow]⟩
    rw [oneRow, HistoryRows.insert, get_insert] at hR
    split at hR
    · rename_i hId
      cases hR
      exact ⟨hId, by decide +kernel, rfl⟩
    · simp at hR
  exact ⟨by decide +kernel, (request_leaves_no_trace ho rfl 2 []).2 (by decide +kernel)⟩

end HistoryState

end NmpStore.Engine
