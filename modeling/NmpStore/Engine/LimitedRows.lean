import NmpStore.Resolver.Calls
import NmpStore.Store.Deletions

/-! # The rows of a limited reader

A branch shows the rows of its root selections, a limited one only the newest.
-/

namespace NmpStore.Engine

open Resolver (CacheMode ConcreteFilter ContextualAtom visibleUnderPin)

inductive RowSignature where
  | pending
  | signed (sig : Signature)
  deriving DecidableEq

/-- The event is kept without its signature. -/
structure Row where
  event : Event
  signature : RowSignature
  sources : ExtTreeSet RelayUrl
  deriving DecidableEq

def rowSignatureFromStoreState (event : Event) : SigState → RowSignature
  | .pending => .pending
  | .signed => .signed event.sig

def rowFromStoredEvent (event : Event) (state : SigState) (sources : ExtTreeSet RelayUrl) : Row :=
  ⟨{ event with sig := 0 }, rowSignatureFromStoreState event state, sources⟩

def nip01NewestFirst (a b : Nat × Nat) : Ordering := (compare b.1 a.1).then (compare a.2 b.2)

abbrev NewestFirst {α : Type} (place : α → Nat × Nat) (a b : α) : Prop := (nip01NewestFirst (place a) (place b)).isLE

def newest {α : Type} (place : α → Nat × Nat) (limit : Nat) (rows : List α) : List α :=
  (rows.insertionSort (NewestFirst place)).take limit

def place (se : StoredEvent) : Nat × Nat := (se.event.createdAt, se.event.id)

def query (s : Store) (filter : ConcreteFilter) : Result (List StoredEvent) := do
  let found ← s.events.eventIds.keys.mapM s.visibleRow
  pure (found.reduceOption.filter fun se => filter.matchEvent se.event)

def queryNewest (s : Store) (filter : ConcreteFilter) (limit : Nat) : Result (List StoredEvent) := do
  pure (newest place limit (← query s filter))

/-- A branch by its root selections, its outermost demand and how it reads the cache. -/
structure Branch where
  rootAtoms : List ConcreteFilter
  rootScope : List ContextualAtom
  cache : CacheMode

def Branch.pinnedRelays (branch : Branch) : Option (List RelayUrl) :=
  if branch.cache = .strict then
    branch.rootScope.findSome? fun atom => match atom.routing with
      | .explicit relays => some relays
      | .auto => none
  else none

def effectiveRowLimit (rootAtoms : List ConcreteFilter) : Option Nat := (rootAtoms.filterMap (·.limit)).max?

def shownRow (se : StoredEvent) : Row :=
  rowFromStoredEvent se.event (se.provenance.localOrigin.elim .signed (·.sigState)) (.ofList se.provenance.seen.keys compare)

def showRow (pinned : Option (List RelayUrl)) (byId : Table EventId Row) (se : StoredEvent) : Table EventId Row :=
  if pinned.all (visibleUnderPin se.provenance) then
    if byId.contains se.event.id then byId else byId.insert se.event.id (shownRow se)
  else byId

def keepNewest (limit : Nat) (byId : Table EventId Row) : Table EventId Row :=
  if limit < byId.size then
    let keep := newest id limit (byId.toList.map fun row => (row.2.event.createdAt, row.1))
    byId.filter fun id _ => id ∈ keep.map Prod.snd
  else byId

def rowsFor (s : Store) (branch : Branch) : Result (Table EventId Row) := do
  let limit := effectiveRowLimit branch.rootAtoms
  let byId ← branch.rootAtoms.foldlM (fun byId atom => do
    let rows ← limit.elim (query s atom) (queryNewest s atom)
    pure (rows.foldl (showRow branch.pinnedRelays) byId)) ∅
  pure (limit.elim byId (keepNewest · byId))

section Order

variable {α : Type} {f : α → Nat × Nat} {rows rows' : List α} {p : α → Bool}

theorem newestFirst_iff : NewestFirst f a b ↔ (f b).1 < (f a).1 ∨ (f b).1 = (f a).1 ∧ (f a).2 ≤ (f b).2 := by
  rw [NewestFirst, nip01NewestFirst]
  rcases lt_trichotomy (f b).1 (f a).1 with h | h | h
  · simp [Nat.compare_eq_lt.mpr h, h]
  · simp [h, Nat.isLE_compare]
  · simp [Nat.compare_eq_gt.mpr h]
    omega

theorem sorted_newestFirst (f : α → Nat × Nat) (rows : List α) :
    (rows.insertionSort (NewestFirst f)).Pairwise (NewestFirst f) := by
  have : Std.Total (NewestFirst f) := ⟨fun a b => by rw [newestFirst_iff, newestFirst_iff]; omega⟩
  have : IsTrans α (NewestFirst f) := ⟨fun a b c => by simp only [newestFirst_iff]; omega⟩
  exact List.pairwise_insertionSort _ rows

/-- Rows in different places have one order. -/
theorem eq_of_sorted (ho : Set.InjOn f {a | a ∈ rows}) (hP : rows.Perm rows') (h : rows.Pairwise (NewestFirst f))
    (h' : rows'.Pairwise (NewestFirst f)) : rows = rows' := by
  refine List.Perm.eq_of_pairwise (fun a b ha hb hab hba => ?_) h h' hP
  rw [newestFirst_iff] at hab hba
  exact ho ha (hP.mem_iff.mpr hb) (Prod.ext (by omega) (by omega))

theorem newest_perm (ho : Set.InjOn f {a | a ∈ rows}) (hP : rows.Perm rows') :
    newest f limit rows = newest f limit rows' := by
  have hS := perm_insertionSort (NewestFirst f) rows
  refine congrArg (List.take limit) (eq_of_sorted (ho.mono fun a => hS.mem_iff.mp) ?_ (sorted_newestFirst f rows)
    (sorted_newestFirst f rows'))
  exact hS.trans (hP.trans (perm_insertionSort _ _).symm)

/-- Rows that still have the newest ones among them have the same newest rows. -/
theorem newest_filter (ho : Set.InjOn f {a | a ∈ rows}) (h : ∀ a ∈ newest f limit rows, p a = true) :
    newest f limit (rows.filter p) = newest f limit rows := by
  unfold newest at h ⊢
  set sorted := rows.insertionSort (NewestFirst f) with hS
  have hF : (rows.filter p).insertionSort (NewestFirst f) = sorted.filter p := by
    have hP := perm_insertionSort (NewestFirst f) (rows.filter p)
    refine eq_of_sorted (ho.mono fun a ha => (mem_filter.mp (hP.mem_iff.mp ha)).1)
      (hP.trans ((perm_insertionSort _ rows).filter p).symm) (sorted_newestFirst f _) ((sorted_newestFirst f rows).filter _)
  have hT : sorted.filter p = sorted.take limit ++ (sorted.drop limit).filter p := by
    conv_lhs => rw [← List.take_append_drop limit sorted, List.filter_append, List.filter_eq_self.mpr h]
  rw [hF, hT, List.take_append, List.take_take, min_self]
  rcases le_total limit sorted.length with hL | hL
  · simp [hL]
  · simp [List.drop_eq_nil_of_le hL]

theorem map_newest : (newest f limit rows).map f = newest id limit (rows.map f) := by
  rw [newest, List.map_take, List.map_insertionSort (NewestFirst f) (NewestFirst id) f rows fun _ _ _ _ => .rfl]
  rfl

theorem mem_of_mem_newest {a : α} (h : a ∈ newest f limit rows) : a ∈ rows :=
  (perm_insertionSort _ rows).mem_iff.mp (List.mem_of_mem_take h)

end Order

/-- The rows that queries see. -/
def visible (s : Store) : List StoredEvent :=
  s.events.eventIds.keys.filterMap fun id => (s.events.rowOf id).filter fun se => !s.queue.isSuppressed se.event

/-- The rows that a branch over some relays is about. -/
def eligible (s : Store) (branch : Branch) (pinned : List RelayUrl) : List StoredEvent :=
  (visible s).filter fun se => branch.rootAtoms.any (·.matchEvent se.event) && visibleUnderPin se.provenance pinned

def matching (s : Store) (atom : ConcreteFilter) : List StoredEvent := (visible s).filter fun se => atom.matchEvent se.event

/-- The table shows the visible rows with a property and no others. -/
def Showing (s : Store) (rows : Table EventId Row) (P : StoredEvent → Prop) : Prop :=
  ∀ id row, rows[id]? = some row ↔ ∃ se ∈ visible s, P se ∧ se.event.id = id ∧ shownRow se = row

section Shown

variable [Postings.ShardHash] {s : Store} (h : s.events.Ok) (limit : Nat) (pinned : List RelayUrl)
  {P : StoredEvent → Prop} {se : StoredEvent}
include h

theorem rowOf_of_visible (hI : se ∈ visible s) : s.events.rowOf se.event.id = some se := by
  obtain ⟨id, -, hA⟩ := mem_filterMap.mp hI
  have hW := (filter_eq_some_iff.mp hA).1
  rwa [h.rowOf_id hW]

theorem visible_unique (ha : a ∈ visible s) (hb : b ∈ visible s) (hI : a.event.id = b.event.id) : a = b := by
  have hS := rowOf_of_visible h ha
  rw [hI, rowOf_of_visible h hb] at hS
  exact (Option.some.inj hS).symm

theorem visible_injOn : Set.InjOn place {se | se ∈ visible s} := fun _ ha _ hb hE =>
  visible_unique h ha hb (Prod.ext_iff.mp hE).2

theorem visible_nodup : (visible s).Nodup := by
  refine List.Nodup.filterMap (fun a a' b hb hb' => ?_) (Std.ExtTreeMap.distinct_keys.imp fun hN hE => hN (by simp [hE]))
  rw [← h.rowOf_id (filter_eq_some_iff.mp hb).1, ← h.rowOf_id (filter_eq_some_iff.mp hb').1]

theorem visibleRow_eq (id : EventId) :
    s.visibleRow id = .ok ((s.events.rowOf id).filter fun se => !s.queue.isSuppressed se.event) := by
  rw [Store.visibleRow, h.loadById_eq, EventTables.rowOf]
  cases hK : s.events.eventIds[id]? with
  | none => rfl
  | some k =>
    cases hW : s.events.stored k with
    | none => simp [hW]
    | some r => simp [hW]

theorem query_eq (am : ConcreteFilter) : query s am = .ok (matching s am) := by
  have hA : s.events.eventIds.keys.mapM s.visibleRow = .ok (s.events.eventIds.keys.map fun id =>
      (s.events.rowOf id).filter fun se => !s.queue.isSuppressed se.event) := by
    rw [mapM_ok, List.forall₂_map_right_iff, forall₂_same]
    exact fun id _ => visibleRow_eq h id
  have hr : ∀ l : List (Option StoredEvent), l.reduceOption = l.filterMap id := fun _ => rfl
  simp [query, hA, matching, visible, hr, List.filterMap_map, bind, Except.bind, pure, Except.pure]

theorem Showing.showRow (hS : Showing s byId P) (hI : se ∈ visible s) : Showing s (showRow (some pinned) byId se)
    fun x => P x ∨ x = se ∧ visibleUnderPin se.provenance pinned := by
  have ho : ∀ {x}, x ∈ visible s → x.event.id = se.event.id → x = se := fun hx => visible_unique h hx hI
  intro id r
  unfold Engine.showRow
  by_cases hp : visibleUnderPin se.provenance pinned
  · simp only [Option.all_some, hp, if_true, and_true]
    split
    · rename_i hT
      obtain ⟨o, hO⟩ := isSome_iff_exists.mp (by simpa using hT : (byId[se.event.id]?).isSome)
      obtain ⟨x, hx, hP, hId, -⟩ := (hS _ _).mp hO
      rw [hS]
      grind
    rename_i hN
    rw [get_insert]
    split
    · rename_i hE
      have hY : ∀ x ∈ visible s, P x → x.event.id ≠ se.event.id := fun x hx hP hId => hN <| by
        rw [contains_eq_isSome_getElem?, (hS _ _).mpr ⟨x, hx, hP, hId, rfl⟩, isSome_some]
      grind
    · rw [hS]
      grind
  · simpa [hp] using hS id r

theorem Showing.foldl_showRow {rows : List StoredEvent} (hS : Showing s byId P) (hI : ∀ se ∈ rows, se ∈ visible s) :
    Showing s (rows.foldl (Engine.showRow (some pinned)) byId) fun x => P x ∨ x ∈ rows ∧ visibleUnderPin x.provenance pinned := by
  induction rows generalizing byId P with
  | nil => simpa using hS
  | cons se rows ih =>
    have hN := ih (hS.showRow h pinned (hI se mem_cons_self)) fun x hx => hI x (mem_cons_of_mem _ hx)
    intro id r
    rw [foldl_cons, hN id r]
    grind

theorem foldlM_showing (am : List ConcreteFilter) (hS : Showing s bd P) :
    ∃ bd', am.foldlM (fun bd ato => do
        let rows ← queryNewest s ato limit
        pure (rows.foldl (showRow (some pinned)) bd)) bd = .ok bd' ∧
      Showing s bd' fun se => P se ∨
        (∃ ato ∈ am, se ∈ newest place limit (matching s ato)) ∧ visibleUnderPin se.provenance pinned := by
  induction am generalizing bd P with
  | nil => exact ⟨bd, rfl, by simpa using hS⟩
  | cons ato am ih =>
    have hI : ∀ se ∈ newest place limit (matching s ato), se ∈ visible s := fun se hI =>
      (mem_filter.mp (mem_of_mem_newest hI)).1
    obtain ⟨bd', hR, hN⟩ := ih (hS.foldl_showRow h pinned hI)
    refine ⟨bd', ?_, fun id r => ?_⟩
    · rw [foldlM_cons, queryNewest, query_eq h]
      exact hR
    · rw [hN id r]
      grind

open Classical in
theorem Showing.keepNewest (hs : Showing s byId P) :
    Showing s (keepNewest limit byId) (· ∈ newest place limit ((visible s).filter P)) := by
  set rows := (visible s).filter P with hR
  have ho : Set.InjOn place {se | se ∈ rows} := (visible_injOn h).mono fun se hi => (mem_filter.mp hi).1
  have hM : ∀ {se}, se ∈ rows ↔ se ∈ visible s ∧ P se := fun {se} => by simp [hR]
  have hp : (byId.toList.map fun r => (r.2.event.createdAt, r.1)).Perm (rows.map place) := by
    refine (List.perm_ext_iff_of_nodup ?_ ?_).mpr fun x => ?_
    · refine pairwise_map.mpr ((Table.toList_pairwise byId).imp fun {a b} hl hE => ?_)
      have hI : a.1 = b.1 := (Prod.ext_iff.mp hE).2
      simp [hI] at hl
    · exact ((visible_nodup h).filter _).map_on fun a ha b hb => ho ha hb
    rw [mem_map, mem_map]
    constructor
    · rintro ⟨⟨id, r⟩, hi, rfl⟩
      obtain ⟨se, hV, hP, rfl, rfl⟩ := (hs id r).mp (mem_toList.mp hi)
      exact ⟨se, hM.mpr ⟨hV, hP⟩, rfl⟩
    · rintro ⟨se, hi, rfl⟩
      obtain ⟨hV, hP⟩ := hM.mp hi
      exact ⟨(se.event.id, shownRow se), mem_toList.mpr ((hs _ _).mpr ⟨se, hV, hP, rfl, rfl⟩), rfl⟩
  have hK : newest id limit (byId.toList.map fun r => (r.2.event.createdAt, r.1)) =
      (newest place limit rows).map place := by
    rw [map_newest, newest_perm Function.injective_id.injOn hp]
  intro id r
  unfold Engine.keepNewest
  split
  · rw [get_filter, filter_eq_some_iff, hs, hK, decide_eq_true_eq, map_map, mem_map]
    constructor
    · rintro ⟨⟨se, hV, -, rfl, rfl⟩, x, hx, hI⟩
      obtain rfl := visible_unique h (hM.mp (mem_of_mem_newest hx)).1 hV hI
      exact ⟨x, hV, hx, rfl, rfl⟩
    · rintro ⟨se, hV, hi, rfl, rfl⟩
      exact ⟨⟨se, hV, (hM.mp (mem_of_mem_newest hi)).2, rfl, rfl⟩, se, hi, rfl⟩
  have hL : rows.length ≤ limit := by
    have hS := hp.length_eq
    rw [length_map, length_map, length_toList] at hS
    omega
  have hA : ∀ {se}, se ∈ newest place limit rows ↔ se ∈ rows := fun {se} => by
    rw [newest, List.take_of_length_le (by rwa [List.length_insertionSort]), (perm_insertionSort _ _).mem_iff]
  rw [hs]
  grind

/-- A limited branch over named relays shows the newest of its rows if and only if each of them is among the newest matches
of some root selection, whoever has shown these. -/
theorem rowsFor_pinned_iff (hPinned : branch.pinnedRelays = some pinned)
    (hLimit : effectiveRowLimit branch.rootAtoms = some limit) :
    ∃ rows, rowsFor s branch = .ok rows ∧ (Showing s rows (· ∈ newest place limit (eligible s branch pinned)) ↔
      ∀ se ∈ newest place limit (eligible s branch pinned),
        ∃ atom ∈ branch.rootAtoms, se ∈ newest place limit (matching s atom)) := by
  classical
  have hE : Showing s ∅ fun _ => False := fun id row => by simp
  obtain ⟨byd, hR, hS⟩ := foldlM_showing h limit pinned branch.rootAtoms hE
  refine ⟨keepNewest limit byd, ?_, ?_⟩
  · rw [rowsFor, hLimit, hPinned]
    simp only [elim_some, hR]
    rfl
  have hK := hS.keepNewest h limit
  set found := (visible s).filter _ with hf
  have ho : Set.InjOn place {se | se ∈ eligible s branch pinned} := (visible_injOn h).mono fun se hI =>
    (mem_filter.mp hI).1
  have hF : found = (eligible s branch pinned).filter fun se =>
      ∃ atom ∈ branch.rootAtoms, se ∈ newest place limit (matching s atom) := by
    rw [hf, eligible, List.filter_filter]
    refine List.filter_congr fun se hI => ?_
    have ha : (∃ atom ∈ branch.rootAtoms, se ∈ newest place limit (matching s atom)) →
        branch.rootAtoms.any (·.matchEvent se.event) = true := by
      rintro ⟨atom, hA, hN⟩
      exact List.any_eq_true.mpr ⟨atom, hA, (mem_filter.mp (mem_of_mem_newest hN)).2⟩
    rw [Bool.eq_iff_iff]
    simp only [and_eq_true, decide_eq_true_eq, false_or]
    exact ⟨fun ⟨hN, hP⟩ => ⟨hN, ha hN, hP⟩, fun ⟨hN, _, hP⟩ => ⟨hN, hP⟩⟩
  constructor
  · intro he se hI
    have hV := (mem_filter.mp (mem_of_mem_newest hI)).1
    obtain ⟨x, hx, hN, hi, -⟩ := (hK _ _).mp ((he _ _).mpr ⟨se, hV, hI, rfl, rfl⟩)
    rw [visible_unique h hx hV hi, hF] at hN
    simpa using (mem_filter.mp (mem_of_mem_newest hN)).2
  · intro hl
    rwa [hF, newest_filter ho fun se hI => decide_eq_true (hl se hI)] at hK

end Shown

def noteAt (id createdAt : Nat) : Event := .bare id 2 createdAt 1

/-- An older note from one relay and a newer one from another. -/
def twoNotes : List Delivery := [(noteAt 4 10, ⟨"wss://a", 50⟩), (noteAt 5 30, ⟨"wss://b", 50⟩)]

def newestFrom (limit : Nat) (relay : RelayUrl) : Branch :=
  ⟨[{ limit := some limit }], [⟨{ limit := some limit }, .explicit [relay], none, ∅⟩], .strict⟩

theorem rowsFor_pinned_two_notes : ∃ (outcomes : List InsertOutcome) (s : Store) (rows : Table EventId Row),
    @Store.insertBatch oneShard {} twoNotes = .ok (outcomes, s) ∧ rowsFor s (newestFrom 1 "wss://b") = .ok rows ∧
      Showing s rows (· ∈ newest place 1 (eligible s (newestFrom 1 "wss://b") ["wss://b"])) := by
  let _ := oneShard
  have hR : ((Store.insertBatch {} twoNotes).toOption.any fun rsl =>
      newest place 1 (eligible rsl.2 (newestFrom 1 "wss://b") ["wss://b"]) ⊆ newest place 1 (matching rsl.2 { limit := some 1 }))
        = true := by decide +kernel
  simp only [any_eq_true, decide_eq_true_eq, toOption_some] at hR
  obtain ⟨⟨outcomes, s⟩, ho, hN⟩ := hR
  have hE : ∀ dlv ∈ twoNotes, Authentic (fun id => if id = 4 then noteAt 4 10 else noteAt 5 30) dlv.1 := by
    simp [twoNotes, Authentic, Event.SameBody, noteAt, Event.bare]
  have hS := (Store.sound_empty.insertBatch EventTables.rested_empty hE ho).sound
  have hP : (newestFrom 1 "wss://b").pinnedRelays = some ["wss://b"] := rfl
  obtain ⟨rows, hr, hI⟩ := rowsFor_pinned_iff hS.events 1 ["wss://b"] hP rfl
  exact ⟨outcomes, s, rows, ho, hr, hI.mpr fun se hi => ⟨_, .head _, hN hi⟩⟩

/-- The older note is the newest row from its relay, and is not shown. -/
theorem pinned_note_hidden : ((@Store.insertBatch oneShard {} twoNotes).toOption.any fun result =>
    (rowsFor result.2 (newestFrom 1 "wss://a")).toOption = some ∅ ∧
      (newest place 1 (eligible result.2 (newestFrom 1 "wss://a") ["wss://a"])).map (·.event.id) = [4]) = true := by
  decide +kernel

end NmpStore.Engine
