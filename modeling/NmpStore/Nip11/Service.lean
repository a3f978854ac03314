import NmpStore.Event
import NmpStore.Lib.Weights
import Mathlib.Data.List.MinMax

/-! # The relay-information service

Callers, flights and the closing of the service share a cache and eight fetch slots. Every critical section is one
step, and so is a message that is sent. A closed service has no entries.
-/

namespace NmpStore.Nip11

inductive FetchError where
  | serviceClosed
  | credentialedRelayUrl
  | http (reason : String)
  | responseTooLarge (limitBytes : Nat)
  | invalidDocument (reason : String)
  deriving DecidableEq

def FetchError.allowsStale : FetchError → Bool
  | serviceClosed | credentialedRelayUrl => false
  | _ => true

inductive CachePolicy where
  | useCache
  | refresh
  deriving DecidableEq

structure Snapshot where
  relay : RelayUrl
  rawJson : String
  fetchedAt : Nat
  freshUntil : Nat
  fresh : Bool
  lastError : Option FetchError := none

abbrev Answer := Except FetchError Snapshot

structure Cached where
  snapshot : Snapshot
  freshUntil : Nat

structure Entry where
  cached : Option Cached := none
  flight : Option Nat := none
  lastAccess : Nat := 0

inductive WorkerPhase where
  | spawned
  | fetching (cached : Option Cached)
  | answered (result : Answer)
  /-- The flight is out of the table and its result not yet sent. -/
  | delivering (result : Answer)
  /-- The result is sent and the flight not yet dropped. -/
  | releasing
  | finished

/-- The worker of one generation, and what its completion channel holds. -/
structure Worker where
  relay : RelayUrl
  phase : WorkerPhase := .spawned
  sent : Option Answer := none

inductive CallPhase where
  | start
  | needsAdmission
  | admitted
  | waiting (generation : Nat)
  /-- The call is dropped and has given up its receiver. -/
  | leaving (generation : Nat)
  | dropped
  | done (result : Answer)

structure Call where
  relay : RelayUrl
  policy : CachePolicy
  phase : CallPhase := .start

structure Service where
  closed : Bool := false
  slotsClosed : Bool := false
  entries : Table RelayUrl Entry := ∅
  accessClock : Nat := 0
  nextFlight : Nat := 1
  free : Nat := 8
  /-- The flights that close has taken out of the table and not yet told. -/
  closing : List Nat := []
  workers : Table Nat Worker := ∅
  calls : Table Nat Call := ∅
  /-- The documents that fetches have answered. -/
  fetched : List (RelayUrl × String) := []

inductive Registration where
  | ready (result : Answer)
  | flight (generation : Nat)
  | needsAdmission

/-- What a fetch brings: a text, or none when the document is not modified, and for how long it stays fresh. -/
def finishFetch (parse : String → Option FetchError) (relay : RelayUrl) (cached : Option Cached)
    (fetched : Option String × Nat) (now : Nat) : Answer :=
  let end_ := min u64Max (now + fetched.2)
  match fetched.1, cached with
  | some rawJson, _ =>
    match parse rawJson with
    | some e => .error e
    | none => .ok ⟨relay, rawJson, now, end_, now < end_, none⟩
  | none, none => .error (.http "relay returned 304 without a cached document")
  | none, some cached =>
    .ok { cached.snapshot with fetchedAt := now, freshUntil := end_, fresh := now < end_, lastError := none }

def cachedCount (entries : Table RelayUrl Entry) : Nat := entries.filled Entry.cached

/-- The entry that was read least lately, of those that are cached and not being refreshed. -/
def eviction (entries : Table RelayUrl Entry) (relay : RelayUrl) : Option RelayUrl :=
  ((entries.toList.filter fun row => row.1 ≠ relay ∧ row.2.cached.isSome ∧ row.2.flight.isNone).argmin
    (·.2.lastAccess)).map Prod.fst

def retain (capacity : Nat) (entries : Table RelayUrl Entry) (relay : RelayUrl) (entry : Entry) :
    Table RelayUrl Entry :=
  if (entries[relay]?.bind Entry.cached).isNone ∧ capacity ≤ cachedCount entries then
    match eviction entries relay with
    | some victim => (entries.erase victim).insert relay entry
    | none => entries
  else entries.insert relay entry

/-- The cache after a result, and what the callers get. -/
def settle (capacity : Nat) (entries : Table RelayUrl Entry) (relay : RelayUrl) (entry : Entry) (access now : Nat) :
    Answer → Table RelayUrl Entry × Answer
  | .ok snapshot => (retain capacity entries relay
    { entry with lastAccess := access, cached := some ⟨snapshot, snapshot.freshUntil⟩ }, .ok snapshot)
  | .error e =>
    match entry.cached.filter fun _ => e.allowsStale with
    | none => (entries, .error e)
    | some cached =>
      let stale := { cached.snapshot with freshUntil := now, fresh := false, lastError := some e }
      (entries.insert relay { entry with cached := some ⟨stale, 0⟩ }, .ok stale)

namespace Service

def flightAt (s : Service) (relay : RelayUrl) : Option Nat := s.entries[relay]?.bind Entry.flight

def cachedAt (s : Service) (relay : RelayUrl) : Option Cached := s.entries[relay]?.bind Entry.cached

def giveBack (s : Service) (permit : Bool) : Service := { s with free := s.free + permit.toNat }

def register (s : Service) (relay : RelayUrl) (policy : CachePolicy) (now : Nat) (permit : Bool) :
    Service × Registration :=
  if s.closed then (s.giveBack permit, .ready (.error .serviceClosed))
  else
    let entry := { s.entries[relay]?.getD {} with lastAccess := s.accessClock }
    let s := { s with entries := s.entries.insert relay entry, accessClock := s.accessClock + 1 }
    match entry.cached.filter fun cached => policy = .useCache ∧ now < cached.freshUntil, entry.flight, permit with
    | some cached, _, _ =>
      (s.giveBack permit, .ready (.ok { cached.snapshot with fresh := true, lastError := none }))
    | none, some generation, _ => (s.giveBack permit, .flight generation)
    | none, none, false => (s, .needsAdmission)
    | none, none, true =>
      ({ s with
        nextFlight := s.nextFlight + 1, workers := s.workers.insert s.nextFlight { relay }
        entries := s.entries.insert relay { entry with flight := some s.nextFlight } }, .flight s.nextFlight)

def receivers (s : Service) (generation : Nat) : Nat :=
  s.calls.total fun row => match row.2.phase with
    | .waiting g => (g == generation).toNat
    | _ => 0

def cancelUnobservedFlight (s : Service) (relay : RelayUrl) (generation : Nat) : Service :=
  match s.entries[relay]? with
  | none => s
  | some entry =>
    if entry.flight = some generation ∧ s.receivers generation = 0 then
      { s with
        free := s.free + 1
        entries := if entry.cached.isNone then s.entries.erase relay
          else s.entries.insert relay { entry with flight := none } }
    else s

def complete (s : Service) (capacity : Nat) (relay : RelayUrl) (generation : Nat) (result : Answer) (now : Nat) :
    Service × Option Answer :=
  match s.entries[relay]? with
  | none => (s, none)
  | some entry =>
    if entry.flight ≠ some generation then (s, none)
    else
      let entry := { entry with flight := none }
      let (entries, delivered) := settle capacity (s.entries.insert relay entry) relay entry s.accessClock now result
      ({ s with
        accessClock := s.accessClock + 1
        entries := entries.filter fun _ entry => entry.cached.isSome || entry.flight.isSome }, some delivered)

/-- The sender of the completion channel still exists. -/
def Sends (s : Service) (g : Nat) (w : Worker) : Prop :=
  s.flightAt w.relay = some g ∨ g ∈ s.closing ∨ ∃ result, w.phase = .delivering result

def setCall (s : Service) (i : Nat) (call : Call) (phase : CallPhase) : Service :=
  { s with calls := s.calls.insert i { call with phase } }

def setWorker (s : Service) (generation : Nat) (worker : Worker) (phase : WorkerPhase) : Service :=
  { s with workers := s.workers.insert generation { worker with phase } }

def enter (i : Nat) (call : Call) : Service × Registration → Service
  | (s, .ready result) => s.setCall i call (.done result)
  | (s, .flight generation) => s.setCall i call (.waiting generation)
  | (s, .needsAdmission) => s.setCall i call .needsAdmission

end Service

variable (parse : String → Option FetchError) (capacity : Nat)

def At (s : Service) (i : Nat) (call : Call) (phase : CallPhase) : Prop := s.calls[i]? = some call ∧ call.phase = phase

def Runs (s : Service) (g : Nat) (w : Worker) (phase : WorkerPhase) : Prop := s.workers[g]? = some w ∧ w.phase = phase

/-- What comes from outside: calls, their being dropped, answers of fetches, and close. -/
inductive Input : Service → Service → Prop
  | call {s : Service} (call : Call) (new : s.calls[i]? = none) : Input s (s.setCall i call .start)
  | drop (found : At s i call .start ∨ At s i call .needsAdmission) : Input s (s.setCall i call .dropped)
  | dropAdmitted (found : At s i call .admitted) : Input s ((s.setCall i call .dropped).giveBack true)
  | dropWaiting (found : At s i call (.waiting g)) : Input s (s.setCall i call (.leaving g))
  | answer (result : Except FetchError (Option String × Nat)) (now : Nat) (found : Runs s g w (.fetching cached)) :
      Input s { s.setWorker g w (.answered (result.bind (finishFetch parse w.relay cached · now))) with
        fetched := match result with
          | .ok (some rawJson, _) => (w.relay, rawJson) :: s.fetched
          | _ => s.fetched }
  | close {s : Service} : Input s { s with slotsClosed := true }

/-- What callers, workers and close do on their own. -/
inductive Move : Service → Service → Prop
  | register (now : Nat) (found : At s i call .start) : Move s (.enter i call (s.register call.relay call.policy now false))
  | registerAdmitted (now : Nat) (found : At s i call .admitted) :
      Move s (.enter i call (s.register call.relay call.policy now true))
  | acquire (found : At s i call .needsAdmission) (slot : 0 < s.free) (isOpen : s.slotsClosed = false) :
      Move s { s.setCall i call .admitted with free := s.free - 1 }
  | refuse (found : At s i call .needsAdmission) (isClosed : s.slotsClosed) :
      Move s (s.setCall i call (.done (.error .serviceClosed)))
  | withdraw (found : At s i call .admitted) (isClosed : s.slotsClosed) :
      Move s ((s.setCall i call (.done (.error .serviceClosed))).giveBack true)
  | receive (found : At s i call (.waiting g)) (worker : s.workers[g]? = some w) (sent : w.sent = some result) :
      Move s (s.setCall i call (.done result))
  | disconnected (found : At s i call (.waiting g)) (worker : s.workers[g]? = some w) (silent : w.sent = none)
      (gone : ¬s.Sends g w) : Move s (s.setCall i call (.done (.error .serviceClosed)))
  | leave (found : At s i call (.leaving g)) : Move s ((s.cancelUnobservedFlight call.relay g).setCall i call .dropped)
  | begin (found : Runs s g w .spawned) : Move s (s.setWorker g w
      (if s.flightAt w.relay = some g then .fetching (s.cachedAt w.relay) else .finished))
  | complete (now : Nat) (found : Runs s g w (.answered result)) :
      Move s (match s.complete capacity w.relay g result now with
        | (s, some delivered) => s.setWorker g w (.delivering delivered)
        | (s, none) => s.setWorker g w .finished)
  | deliver (found : Runs s g w (.delivering result)) : Move s (s.setWorker g { w with sent := some result } .releasing)
  | release (found : Runs s g w .releasing) : Move s ((s.setWorker g w .finished).giveBack true)
  | closeState {s : Service} (closing : s.slotsClosed) (isOpen : s.closed = false) : Move s { s with
      closed := true, entries := ∅, closing := s.closing ++ s.entries.toList.filterMap (·.2.flight) }
  | closeFlight {s : Service} (next : s.closing = g :: rest) (found : s.workers[g]? = some w) : Move s
      (({ s with closing := rest }.setWorker g { w with sent := some (.error .serviceClosed) } w.phase).giveBack true)

inductive Reaches : Service → Prop
  | start : Reaches {}
  | input {s s' : Service} (before : Reaches s) (next : Input parse s s') : Reaches s'
  | move {s s' : Service} (before : Reaches s) (next : Move capacity s s') : Reaches s'

namespace CallPhase

def permits : CallPhase → Nat
  | admitted => 1
  | _ => 0

def work : CallPhase → Nat
  | start => 9
  | needsAdmission => 8
  | admitted => 7
  | waiting _ => 2
  | leaving _ => 1
  | dropped | done _ => 0

/-- Neither waiting nor answered with a document. -/
def quiet : CallPhase → Bool
  | waiting _ | done (.ok _) => false
  | _ => true

end CallPhase

namespace WorkerPhase

def delivers : WorkerPhase → Bool
  | delivering _ => true
  | _ => false

def permits : WorkerPhase → Nat
  | delivering _ | releasing => 1
  | _ => 0

def work : WorkerPhase → Nat
  | spawned => 4
  | fetching _ | answered _ => 3
  | delivering _ => 2
  | releasing => 1
  | finished => 0

/-- The worker has not taken its flight out of the table. -/
def flies : WorkerPhase → Bool
  | spawned | fetching _ | answered _ => true
  | _ => false

def Holds (d : Snapshot) : WorkerPhase → Prop
  | fetching cached => cached.map Cached.snapshot = some d
  | answered result | delivering result => result = .ok d
  | _ => False

end WorkerPhase

namespace Service

/-- The number of flights in the table. -/
def flights (s : Service) : Nat := s.entries.filled Entry.flight

/-- The permits: free, held by flights that are registered, delivered or closed, and held by callers. -/
def permits (s : Service) : Nat :=
  s.free + (s.flights + s.workers.total (fun row => row.2.phase.permits) + s.closing.length) +
    s.calls.total fun row => row.2.phase.permits

/-- What is left to do while nothing comes from outside. -/
def work (s : Service) : Nat :=
  s.calls.total (fun row => row.2.phase.work) + s.workers.total (fun row => row.2.phase.work) + s.closing.length +
    9 * (!s.closed).toNat

/-- The document was fetched for the relay. -/
def Genuine (s : Service) (relay : RelayUrl) (snapshot : Snapshot) : Prop :=
  snapshot.relay = relay ∧ (relay, snapshot.rawJson) ∈ s.fetched

/-- Who waits for the generation has been answered or will be. -/
def Reports (s : Service) (relay : RelayUrl) (g : Nat) : Prop :=
  ∃ w, s.workers[g]? = some w ∧ w.relay = relay ∧ (w.sent.isSome ∨ s.Sends g w)

structure Inv (s : Service) (n : Nat) : Prop where
  permits : s.permits = n
  cached : cachedCount s.entries ≤ capacity
  unused : ∀ g, s.nextFlight ≤ g → s.workers[g]? = none
  owned : ∀ r g, s.flightAt r = some g → ∃ w, s.workers[g]? = some w ∧ w.relay = r ∧ w.phase.flies
  told : ∀ g ∈ s.closing, ∃ w, s.workers[g]? = some w
  shut : s.closed → (∀ r, s.flightAt r = none) ∧ s.slotsClosed
  waits : ∀ i c g, At s i c (.waiting g) → s.Reports c.relay g
  entryDocs : ∀ r c, s.cachedAt r = some c → s.Genuine r c.snapshot
  workerDocs : ∀ (g : Nat) (w : Worker) d, s.workers[g]? = some w → w.sent = some (.ok d) ∨ w.phase.Holds d →
    s.Genuine w.relay d
  callDocs : ∀ i c d, At s i c (.done (.ok d)) → s.Genuine c.relay d

variable {parse capacity} {s s' : Service} {n m i g : Nat} {r : RelayUrl} {call : Call} {w : Worker} {E : Table RelayUrl Entry}

theorem Inv.setCall (h : s.Inv capacity n) (hm : m + s.calls.weight (·.phase.permits) i = n + p.permits)
    (hw : ∀ g, p = .waiting g → s.Reports call.relay g) (hd : ∀ d, p = .done (.ok d) → s.Genuine call.relay d) :
    (s.setCall i call p).Inv capacity m := by
  refine ⟨?_, h.cached, h.unused, h.owned, h.told, h.shut, fun j c g hj => ?_, h.entryDocs, h.workerDocs, fun j c d hj => ?_⟩
  · have ht : _ = _ + p.permits := Table.total_set s.calls i { call with phase := p } (·.phase.permits)
    have hp := h.permits
    simp only [Service.permits, Service.setCall, flights] at hp ⊢
    omega
  · rcases Table.insert_some.mp hj.1 with ⟨-, rfl⟩ | ⟨-, hi⟩
    · exact hw g hj.2
    · exact h.waits j c g ⟨hi, hj.2⟩
  · rcases Table.insert_some.mp hj.1 with ⟨-, rfl⟩ | ⟨-, hi⟩
    · exact hd d hj.2
    · exact h.callDocs j c d ⟨hi, hj.2⟩

theorem Inv.giveBack (h : s.Inv capacity n) (pr : Bool) : (s.giveBack pr).Inv capacity (n + pr.toNat) := by
  refine ⟨?_, h.cached, h.unused, h.owned, h.told, h.shut, h.waits, h.entryDocs, h.workerDocs, h.callDocs⟩
  rw [← h.permits]
  simp only [Service.permits, Service.giveBack, flights]
  omega

/-- The entries are seen as before. -/
theorem Inv.view (h : s.Inv capacity n) (hf : ∀ a : RelayUrl, E[a]?.bind Entry.flight = s.flightAt a)
    (hc : ∀ a : RelayUrl, E[a]?.bind Entry.cached = s.cachedAt a) :
    Inv capacity { s with entries := E, accessClock := m } n := by
  refine ⟨?_, ?_, h.unused, fun r g hg => h.owned r g ((hf r).symm.trans hg), h.told,
    fun hs => ⟨fun r => (hf r).trans ((h.shut hs).1 r), (h.shut hs).2⟩, fun i c g hi => ?_,
    fun r c hr => h.entryDocs r c ((hc r).symm.trans hr), h.workerDocs, h.callDocs⟩
  · rw [← h.permits]
    simp only [Service.permits, flights, Table.filled_congr "" hf]
  · exact (Table.filled_congr "" hc).trans_le h.cached
  · obtain ⟨w, hw, hr, hl⟩ := h.waits i c g hi
    exact ⟨w, hw, hr, hl.imp_right (Or.imp_left (hf w.relay).trans)⟩

/-- A flight is put into an entry without one. -/
theorem Inv.launch (h : s.Inv capacity n) (he : s.entries[r]? = some e) (hf : e.flight = none) (hk : s.closed = false) :
    Inv capacity { s with
      nextFlight := s.nextFlight + 1, workers := s.workers.insert s.nextFlight { relay := r }
      entries := s.entries.insert r { e with flight := some s.nextFlight } } (n + 1) := by
  have hu := h.unused s.nextFlight (Nat.le_refl _)
  have hr : s.flightAt r = none := by simp [flightAt, he, hf]
  have hE : ∀ a ≠ r, (s.entries.insert r { e with flight := some s.nextFlight })[a]?.bind Entry.flight = s.flightAt a :=
    fun a ha => by simp [Ne.symm ha, flightAt]
  have hc : ∀ a : RelayUrl, (s.entries.insert r { e with flight := some s.nextFlight })[a]?.bind Entry.cached =
      s.cachedAt a := Table.bind_insert (by simp [he])
  have hW : ∀ (a : Nat) (w : Worker), s.workers[a]? = some w → (s.workers.insert s.nextFlight { relay := r })[a]? = some w := by
    intro a w ha
    refine Table.insert_some.mpr (.inr ⟨?_, ha⟩)
    rintro rfl
    cases hu.symm.trans ha
  refine ⟨?_, ?_, fun a ha => ?_, fun a b hb => ?_, fun a ha => ?_, fun hs => ?_, fun i c b hi => ?_, fun a c ha => ?_,
    fun b w d hb => ?_, h.callDocs⟩
  · have ht := Table.filled_change (g := Entry.flight) (u := s.entries.insert r { e with flight := some s.nextFlight }) hE
    have hp := h.permits
    simp [he, hf] at ht
    simp only [Service.permits, flights, Table.total_insert _ _ hu, WorkerPhase.permits] at hp ht ⊢
    omega
  · exact (Table.filled_congr "" hc).trans_le h.cached
  · exact (Table.get_insert ..).trans ((if_neg (Nat.ne_of_lt ha)).trans (h.unused a (Nat.le_of_lt ha)))
  · by_cases ha : a = r
    · subst ha
      obtain rfl : s.nextFlight = b := by simpa [flightAt] using hb
      exact ⟨{ relay := a }, by simp, rfl, rfl⟩
    · obtain ⟨w, hw, hl⟩ := h.owned a b ((hE a ha).symm.trans hb)
      exact ⟨w, hW b w hw, hl⟩
  · obtain ⟨w, hw⟩ := h.told a ha
    exact ⟨w, hW a w hw⟩
  · simp [hk] at hs
  · obtain ⟨w, hw, hl, hs⟩ := h.waits i c b hi
    refine ⟨w, hW b w hw, hl, hs.imp_right (Or.imp_left fun hf => (hE _ ?_).trans hf)⟩
    rintro rfl
    cases hr.symm.trans hf
  · exact h.entryDocs a c ((hc a).symm.trans ha)
  · rcases Table.insert_some.mp hb with ⟨-, rfl⟩ | ⟨-, hb⟩
    · rintro (hd | hd) <;> cases hd
    · exact h.workerDocs b w d hb

theorem Inv.step (h : s.Inv capacity n) (hg : s.workers[g]? = some w) {w' : Worker} {f k : Nat} (hr : w'.relay = w.relay)
    (hE : ∀ a ≠ w.relay, E[a]?.bind Entry.flight = s.flightAt a)
    (hf : E[w.relay]?.bind Entry.flight = s.flightAt w.relay ∧ (s.flightAt w.relay = some g → w'.phase.flies) ∨
      s.flightAt w.relay = some g ∧ E[w.relay]?.bind Entry.flight = none)
    (hm : m + s.free + (s.flightAt w.relay).isSome.toNat + w.phase.permits =
      n + f + (E[w.relay]?.bind Entry.flight).isSome.toNat + w'.phase.permits)
    (hc : cachedCount E ≤ capacity) (hd : ∀ (a : RelayUrl) c, E[a]?.bind Entry.cached = some c → s.Genuine a c.snapshot)
    (hs : ∀ i c, At s i c (.waiting g) → w.sent.isSome ∨ s.Sends g w → w'.sent.isSome ∨
      E[w.relay]?.bind Entry.flight = some g ∨ g ∈ s.closing ∨ ∃ d, w'.phase = .delivering d)
    (hv : ∀ d, w'.sent = some (.ok d) ∨ w'.phase.Holds d → s.Genuine w.relay d) :
    Inv capacity { s with entries := E, workers := s.workers.insert g w', free := f, accessClock := k } m := by
  have hW : ∀ (a : Nat) (v : Worker), s.workers[a]? = some v → a ≠ g → (s.workers.insert g w')[a]? = some v :=
    fun a v ha hn => Table.insert_some.mpr (.inr ⟨Ne.symm hn, ha⟩)
  have hG : (s.workers.insert g w')[g]? = some w' := by simp
  refine ⟨?_, hc, fun a ha => ?_, fun a b hb => ?_, fun a ha => ?_, fun hk => ⟨fun a => ?_, (h.shut hk).2⟩,
    fun i c b hi => ?_, hd, fun b v d hb => ?_, h.callDocs⟩
  · have h1 := Table.filled_change (g := Entry.flight) (u := E) hE
    have h2 := Table.total_set s.workers g w' (·.phase.permits)
    have hp := h.permits
    simp only [Table.weight, hg, Option.map, Option.getD] at h2
    simp only [Service.permits, flights, flightAt] at hp hm h1 ⊢
    omega
  · have hn : g ≠ a := by
      rintro rfl
      cases (h.unused g ha).symm.trans hg
    exact (Table.get_insert ..).trans ((if_neg hn).trans (h.unused a ha))
  · by_cases ha : a = w.relay
    · subst ha
      rcases hf with ⟨hf, hl⟩ | ⟨-, hf⟩
      · obtain ⟨v, hv, ho⟩ := h.owned _ b (hf.symm.trans hb)
        by_cases hbg : b = g
        · subst hbg
          exact ⟨w', hG, hr, hl (hf.symm.trans hb)⟩
        · exact ⟨v, hW b v hv hbg, ho⟩
      · cases hf.symm.trans hb
    · obtain ⟨v, hv, ho, hl⟩ := h.owned a b ((hE a ha).symm.trans hb)
      refine ⟨v, hW b v hv ?_, ho, hl⟩
      rintro rfl
      cases hg.symm.trans hv
      exact ha ho.symm
  · by_cases hag : a = g
    · exact ⟨w', hag ▸ hG⟩
    · obtain ⟨v, hv⟩ := h.told a ha
      exact ⟨v, hW a v hv hag⟩
  · by_cases ha : a = w.relay
    · subst ha
      rcases hf with ⟨hf, -⟩ | ⟨-, hf⟩
      · exact hf.trans ((h.shut hk).1 _)
      · exact hf
    · exact (hE a ha).trans ((h.shut hk).1 a)
  · obtain ⟨v, hv, ho, hl⟩ := h.waits i c b hi
    by_cases hbg : b = g
    · subst hbg
      cases hg.symm.trans hv
      refine ⟨w', hG, hr.trans ho, (hs i c hi hl).imp_right ?_⟩
      rw [Sends, hr]
      exact id
    · refine ⟨v, hW b v hv hbg, ho, hl.imp_right (Or.imp_left fun hl => ?_)⟩
      by_cases hvr : v.relay = w.relay
      · rw [hvr] at hl ⊢
        rcases hf with ⟨hf, -⟩ | ⟨hf, -⟩
        · exact hf.trans hl
        · exact absurd (Option.some.inj (hl.symm.trans hf)) hbg
      · exact (hE _ hvr).trans hl
  · rcases Table.insert_some.mp hb with ⟨rfl, rfl⟩ | ⟨-, hb⟩
    · exact hr ▸ hv d
    · exact h.workerDocs b v d hb

theorem Inv.setWorker (h : s.Inv capacity n) (hg : Runs s g w p) {q : WorkerPhase} {o : Option Answer} {f : Nat}
    (hm : m + s.free + p.permits = n + f + q.permits) (hl : s.flightAt w.relay = some g → q.flies)
    (hs : o.isSome ∧ (∀ d, o = some (.ok d) → s.Genuine w.relay d) ∨ o = w.sent ∧ p.delivers = false)
    (hv : ∀ d, q.Holds d → s.Genuine w.relay d) :
    Inv capacity { s with workers := s.workers.insert g { w with phase := q, sent := o }, free := f } m := by
  obtain ⟨hg, rfl⟩ := hg
  refine h.step hg rfl (fun _ _ => rfl) (.inl ⟨rfl, hl⟩) ?_ h.cached h.entryDocs (fun _ _ _ hw => ?_)
    fun d hd => hd.elim (fun hd => ?_) (hv d)
  · simp only [flightAt]
    omega
  · rcases hs with ⟨hs, -⟩ | ⟨rfl, hp⟩
    · exact .inl hs
    · refine hw.imp_right (Or.imp_right (Or.imp_right fun hd => ?_))
      obtain ⟨d, hd⟩ := hd
      simp [hd, WorkerPhase.delivers] at hp
  · rcases hs with ⟨-, hs⟩ | ⟨rfl, -⟩
    · exact hs d hd
    · exact h.workerDocs g w d hg (.inl hd)

theorem Inv.aloft (h : s.Inv capacity n) (hg : Runs s g w p) (hf : s.flightAt w.relay = some g) : p.flies := by
  obtain ⟨v, hv, -, hl⟩ := h.owned _ _ hf
  cases hg.1.symm.trans hv
  exact hg.2 ▸ hl

/-- What a caller may be told. -/
def Sound (s : Service) (relay : RelayUrl) : Registration → Prop
  | .ready result => ∀ d, result = .ok d → s.Genuine relay d
  | .flight g => s.Reports relay g
  | .needsAdmission => True

theorem Inv.register (h : s.Inv capacity n) (pl : CachePolicy) (nw : Nat) (pr : Bool)
    (hs : s.register r pl nw pr = (s', x)) :
    s'.Inv capacity (n + pr.toNat) ∧ s'.calls = s.calls ∧ s'.Sound r x ∧ s'.work ≤ s.work + 4 * pr.toNat ∧
      (x = .needsAdmission → pr = false) := by
  unfold Service.register at hs
  split at hs
  · cases hs
    exact ⟨h.giveBack pr, rfl, nofun, Nat.le_add_right _ _, nofun⟩
  next hk =>
  have hc : (s.entries[r]?.getD {}).cached = s.cachedAt r := by
    rw [cachedAt]
    cases s.entries[r]? <;> rfl
  have hf : (s.entries[r]?.getD {}).flight = s.flightAt r := by
    rw [flightAt]
    cases s.entries[r]? <;> rfl
  generalize s.entries[r]?.getD {} = e at hc hf hs
  have ht := h.view (m := s.accessClock + 1) (E := s.entries.insert r { e with lastAccess := s.accessClock })
    (Table.bind_insert hf) (Table.bind_insert hc)
  dsimp only at hs
  split at hs
  · next pr _ _ _ cc hl =>
    cases hs
    refine ⟨ht.giveBack pr, rfl, fun d hd => ?_, Nat.le_add_right _ _, nofun⟩
    cases hd
    exact ht.entryDocs r cc (by simpa [cachedAt] using (filter_eq_some_iff.mp hl).1)
  · next pr _ _ _ g _ hg =>
    cases hs
    obtain ⟨w, hw, hr, -⟩ := h.owned r g (hf ▸ hg)
    exact ⟨ht.giveBack pr, rfl, ⟨w, hw, hr, .inr (.inl (by simp [flightAt, Service.giveBack, hr, hg]))⟩,
      Nat.le_add_right _ _, nofun⟩
  · cases hs
    exact ⟨ht, rfl, trivial, Nat.le_refl _, fun _ => rfl⟩
  · next hg =>
    cases hs
    refine ⟨ht.launch (r := r) (e := { e with lastAccess := s.accessClock }) (by simp) hg (by simpa using hk), rfl, ⟨{ relay := r }, by simp, rfl, .inr (.inl (by simp [flightAt]))⟩,
      ?_, nofun⟩
    simp only [work, Table.total_insert _ _ (h.unused _ (Nat.le_refl _)), WorkerPhase.work, Bool.toNat_true]
    omega

/-- A step leaves the results that are there, and less to do. -/
structure Advances (capacity : Nat) (s s' : Service) (m : Nat) : Prop where
  inv : s'.Inv capacity m
  less : s'.work < s.work
  stays : ∀ i c x, At s i c (.done x) → At s' i c (.done x)

theorem stays_setCall (hi : At s i call p) (hp : 0 < p.work) (q : CallPhase) (hj : At s j c (.done x)) :
    At (s.setCall i call q) j c (.done x) := by
  refine ⟨Table.insert_some.mpr (.inr ⟨?_, hj.1⟩), hj.2⟩
  rintro rfl
  cases hi.1.symm.trans hj.1
  simp [← hi.2, hj.2, CallPhase.work] at hp

theorem setCall_work (hi : At s i call p) (q : CallPhase) : (s.setCall i call q).work + p.work = s.work + q.work := by
  have ht := Table.total_set s.calls i { call with phase := q } (·.phase.work)
  simp [Table.weight, hi.1, hi.2] at ht
  simp only [work, setCall]
  omega

theorem setWorker_work (hg : Runs s g w p) (v : Worker) (q : WorkerPhase) :
    (s.setWorker g v q).work + p.work = s.work + q.work := by
  have ht := Table.total_set s.workers g { v with phase := q } (·.phase.work)
  simp [Table.weight, hg.1, hg.2] at ht
  simp only [work, setWorker]
  omega

theorem setWorker_less (hg : Runs s g w p) {v : Worker} {q : WorkerPhase} (hq : q.work < p.work) :
    (s.setWorker g v q).work < s.work := by
  have ht := setWorker_work hg v q
  omega

theorem weight_at (hi : At s i call p) : s.calls.weight (·.phase.permits) i = p.permits := by
  simp [Table.weight, hi.1, hi.2]

theorem Inv.advance (h : s.Inv capacity n) (hi : At s i call p) {q : CallPhase} (hq : q.work < p.work)
    (hm : m + p.permits = n + q.permits) (hw : ∀ g, q = .waiting g → s.Reports call.relay g)
    (hd : ∀ d, q = .done (.ok d) → s.Genuine call.relay d) : Advances capacity s (s.setCall i call q) m := by
  refine ⟨h.setCall (by rw [weight_at hi, hm]) hw hd, ?_, fun j c x => stays_setCall hi (Nat.zero_lt_of_lt hq) q⟩
  have ht := setCall_work hi q
  omega

theorem Inv.retire (h : s.Inv capacity n) (hi : At s i call p) {q : CallPhase} (hq : q.work < p.work)
    (hm : m + p.permits = n + q.permits) (hp : q.quiet) : Advances capacity s (s.setCall i call q) m := by
  refine h.advance hi hq hm ?_ ?_
  · rintro g rfl
    cases hp
  · rintro d rfl
    cases hp

theorem Inv.enter (h : s.Inv capacity n) (hi : At s i call p) (hp : p.permits = permit.toNat)
    (hw : p.work + 2 * permit.toNat = 9) (nw : Nat) :
    Advances capacity s (enter i call (s.register call.relay call.policy nw permit)) n := by
  obtain ⟨⟨s', x⟩, hx⟩ : ∃ x, s.register call.relay call.policy nw permit = x := ⟨_, rfl⟩
  obtain ⟨hs, hc, hr, hl, hn⟩ := h.register _ _ _ hx
  have hj : At s' i call p := by rwa [At, hc]
  have ht := setCall_work hj
  have hb := permit.toNat_le
  have hm := (weight_at hj).trans hp
  have ha : ∀ q j c x, At s j c (.done x) → At (s'.setCall i call q) j c (.done x) := fun q j c x hd =>
    stays_setCall hj (by omega) q (by rwa [At, hc])
  rw [hx]
  cases x with
  | ready rs =>
    refine ⟨hs.setCall (by rw [hm]; rfl) nofun fun d hd => hr d (CallPhase.done.inj hd), ?_, ha _⟩
    have hq : (CallPhase.done rs).work = 0 := rfl
    specialize ht (.done rs)
    simp only [Service.enter]
    omega
  | flight g =>
    refine ⟨hs.setCall (by rw [hm]; rfl) (fun _ hg => CallPhase.waiting.inj hg ▸ hr) nofun, ?_, ha _⟩
    have hq : (CallPhase.waiting g).work = 2 := rfl
    specialize ht (.waiting g)
    simp only [Service.enter]
    omega
  | needsAdmission =>
    refine ⟨hs.setCall (by rw [hm]; rfl) nofun nofun, ?_, ha _⟩
    cases hn rfl
    have hq : CallPhase.needsAdmission.work = 8 := rfl
    specialize ht .needsAdmission
    simp only [Service.enter, Bool.toNat_false] at hw hl ⊢
    omega

theorem Inv.cancel (h : s.Inv capacity n) (r : RelayUrl) (g : Nat) : (s.cancelUnobservedFlight r g).Inv capacity n ∧
    (s.cancelUnobservedFlight r g).calls = s.calls ∧ (s.cancelUnobservedFlight r g).work = s.work := by
  unfold cancelUnobservedFlight
  split
  · exact ⟨h, rfl, rfl⟩
  next e he =>
  split
  case isFalse => exact ⟨h, rfl, rfl⟩
  next hg =>
  refine ⟨?_, rfl, rfl⟩
  obtain ⟨hg, hn⟩ := hg
  have hf : s.flightAt r = some g := by simp [flightAt, he, hg]
  obtain ⟨w, hw, rfl, -⟩ := h.owned r g hf
  generalize hE : (if e.cached.isNone then s.entries.erase w.relay
    else s.entries.insert w.relay { e with flight := none }) = E
  have hr : E[w.relay]?.bind Entry.flight = none := by
    rw [← hE]
    split <;> simp
  have hc : ∀ a : RelayUrl, E[a]?.bind Entry.cached = s.cachedAt a := by
    rw [← hE]
    split
    · next hc => exact Table.bind_erase (by simpa [he] using hc)
    · exact Table.bind_insert (by simp [he])
  have hW : s.workers.insert g w = s.workers := Table.ext fun a => by
    rw [Table.get_insert]
    split
    · next ha => exact ha ▸ hw.symm
    · rfl
  have ht := h.step (E := E) (f := s.free + 1) (k := s.accessClock) (m := n) hw rfl (fun a ha => ?_) (.inr ⟨hf, hr⟩) ?_
    ((Table.filled_congr "" hc).trans_le h.cached) (fun a c ha => h.entryDocs a c ((hc a).symm.trans ha))
    (fun i c hi => ?_) fun d => h.workerDocs g w d hw
  · rwa [hW] at ht
  · rw [← hE, flightAt]
    split <;> simp [Ne.symm ha]
  · rw [hf, hr]
    simp
    omega
  · -- a call that waits is counted as a receiver
    rw [receivers, Table.total_erase _ hi.1] at hn
    simp [hi.2] at hn

theorem eviction_spec (h : eviction E relay = some v) :
    v ≠ relay ∧ ∃ e, E[v]? = some e ∧ e.cached.isSome ∧ e.flight = none := by
  obtain ⟨ro, hr, rfl⟩ := map_eq_some_iff.mp h
  obtain ⟨hm, hp⟩ := mem_filter.mp (List.argmin_mem hr)
  simp only [ne_eq, decide_eq_true_eq, isNone_iff_eq_none] at hp
  exact ⟨hp.1, ro.2, Table.mem_toList.mp hm, hp.2⟩

/-- A new document is put in place of another, or for it another entry without a flight is gone. -/
theorem retain_spec (hc : cachedCount E ≤ capacity) (hf : e.flight = E[r]?.bind Entry.flight) (he : e.cached = some x) :
    cachedCount (retain capacity E r e) ≤ capacity ∧
    (∀ a : RelayUrl, (retain capacity E r e)[a]?.bind Entry.flight = E[a]?.bind Entry.flight) ∧
    ∀ (a : RelayUrl) c, (retain capacity E r e)[a]?.bind Entry.cached = some c → a = r ∧ c = x ∨
      E[a]?.bind Entry.cached = some c := by
  have hk : ∀ (F : Table RelayUrl Entry) (a : RelayUrl) c, (F.insert r e)[a]?.bind Entry.cached = some c →
      a = r ∧ c = x ∨ F[a]?.bind Entry.cached = some c := by
    intro F a c ha
    by_cases hr : r = a
    · simp [hr, he] at ha
      exact .inl ⟨hr.symm, ha.symm⟩
    · exact .inr (by simpa [hr] using ha)
  have hi : ∀ F : Table RelayUrl Entry, cachedCount (F.insert r e) + (F[r]?.bind Entry.cached).isSome.toNat =
      cachedCount F + 1 := by
    intro F
    have ht := Table.filled_change (g := Entry.cached) (t := F) (u := F.insert r e) (k := r)
      fun a ha => by simp [Ne.symm ha]
    simpa [he, cachedCount] using ht
  unfold retain
  split
  · next hl =>
    have hn : E[r]?.bind Entry.cached = none := isNone_iff_eq_none.mp hl.1
    split
    · next v hv =>
      obtain ⟨hr, e₀, hv, hvc, hvf⟩ := eviction_spec hv
      have hF := Table.bind_erase (g := Entry.flight) (t := E) (k := v) (by simp [hv, hvf])
      refine ⟨?_, fun a => (Table.bind_insert (hf.trans (hF r).symm) a).trans (hF a), fun a c ha => (hk _ a c ha).imp_right ?_⟩
      · have h1 := hi (E.erase v)
        have h2 := Table.total_erase (fun ro => ro.2.cached.isSome.toNat) hv
        rw [Table.get_erase, if_neg hr, hn] at h1
        rw [hvc] at h2
        simp only [cachedCount, Table.filled, Option.isSome_none, Bool.toNat_true, Bool.toNat_false] at h1 h2 hc ⊢
        omega
      · intro ha
        obtain ⟨e', ha, he⟩ := bind_eq_some_iff.mp ha
        simp [Table.of_erase ha, he]
    · exact ⟨hc, fun _ => rfl, fun _ _ => .inr⟩
  · next hl =>
    refine ⟨?_, Table.bind_insert hf, hk E⟩
    have h1 := hi E
    cases ho : E[r]?.bind Entry.cached <;> simp [ho] at h1 hl <;> omega

/-- What a result does to the cache: documents come from it or were there, and after an error all of them stay. -/
structure Settled (old new : RelayUrl → Option Cached) (r : RelayUrl) (result d : Answer) : Prop where
  docs : ∀ a c, new a = some c → a = r ∧ d = .ok c.snapshot ∨ old a = some c
  delivered : ∀ x, d = .ok x → result = .ok x ∨
    ∃ c, old r = some c ∧ c.snapshot.relay = x.relay ∧ c.snapshot.rawJson = x.rawJson
  kept : (∃ e, result = .error e) → ∀ a, (new a).map (·.snapshot.rawJson) = (old a).map (·.snapshot.rawJson)

theorem settle_spec (he : E[r]? = some e) (hc : cachedCount E ≤ capacity)
    (h : settle capacity E r e access now result = (F, d)) :
    cachedCount F ≤ capacity ∧ (∀ a : RelayUrl, F[a]?.bind Entry.flight = E[a]?.bind Entry.flight) ∧
      Settled (E[·]?.bind Entry.cached) (F[·]?.bind Entry.cached) r result d := by
  cases result with
  | ok sn =>
    cases h
    obtain ⟨h1, h2, h3⟩ := retain_spec (r := r) (e := { e with
      lastAccess := access, cached := some ⟨sn, sn.freshUntil⟩ }) hc (by simp [he]) rfl
    refine ⟨h1, h2, fun a c ha => (h3 a c ha).imp_left ?_, fun _ hd => .inl hd, nofun⟩
    rintro ⟨rfl, rfl⟩
    exact ⟨rfl, rfl⟩
  | error error =>
    simp only [settle] at h
    split at h
    · cases h
      exact ⟨hc, fun _ => rfl, fun _ _ => .inr, nofun, fun _ _ => rfl⟩
    · next c hl =>
      obtain ⟨hl, -⟩ := filter_eq_some_iff.mp hl
      cases h
      have ho : E[r]?.bind Entry.cached = some c := by simp [he, hl]
      have h1 := Table.filled_change (g := Entry.cached) (t := E) (u := E.insert r { e with cached := some ⟨{ c.snapshot with
        freshUntil := now, fresh := false, lastError := some error }, 0⟩ }) (k := r) fun a ha => by simp [Ne.symm ha]
      refine ⟨?_, Table.bind_insert (by simp [he]), fun a x ha => ?_, ?_, fun _ a => ?_⟩
      · simp [ho] at h1
        exact h1.trans_le hc
      · by_cases hr : r = a
        · obtain rfl := Option.some.inj (by simpa [hr] using ha)
          exact .inl ⟨hr.symm, rfl⟩
        · exact .inr (by simpa [hr] using ha)
      · rintro _ ⟨⟩
        exact .inr ⟨c, ho, rfl, rfl⟩
      · by_cases ha : r = a
        · subst ha
          simp [ho]
        · simp [ha]

theorem complete_spec (h : cachedCount s.entries ≤ capacity) (hg : s.flightAt r = some g) (rs : Answer) (nw : Nat) :
    ∃ E d, s.complete capacity r g rs nw = ({ s with accessClock := s.accessClock + 1, entries := E }, some d) ∧
      E[r]?.bind Entry.flight = none ∧ (∀ a ≠ r, E[a]?.bind Entry.flight = s.flightAt a) ∧ cachedCount E ≤ capacity ∧
      Settled s.cachedAt (E[·]?.bind Entry.cached) r rs d := by
  obtain ⟨e, he, hg⟩ := bind_eq_some_iff.mp hg
  simp only [complete, he, hg, ne_eq, not_true, if_false]
  have hF : ∀ a : RelayUrl, (s.entries.insert r { e with flight := none })[a]?.bind Entry.cached = s.cachedAt a :=
    Table.bind_insert (by simp [he])
  generalize hE : settle capacity (s.entries.insert r { e with flight := none }) r { e with flight := none }
    s.accessClock nw rs = p
  obtain ⟨E, d⟩ := p
  obtain ⟨hc, hf, hs⟩ := settle_spec (by simp) ((Table.filled_congr "" hF).trans_le h) hE
  have h1 : ∀ a : RelayUrl, (E.filter fun _ e => e.cached.isSome || e.flight.isSome)[a]?.bind Entry.cached = _ :=
    Table.bind_filter (by simp +contextual)
  have h2 : ∀ a : RelayUrl, (E.filter fun _ e => e.cached.isSome || e.flight.isSome)[a]?.bind Entry.flight = _ :=
    Table.bind_filter (by simp +contextual)
  refine ⟨_, d, rfl, ?_, fun a ha => ?_, (Table.filled_congr "" h1).trans_le hc, ?_⟩
  · rw [h2, hf]
    simp
  · rw [h2, hf, flightAt]
    simp [Ne.symm ha]
  · rwa [funext h1, ← funext hF]

theorem complete_stale (hf : s.flightAt r ≠ some g) : s.complete capacity r g result now = (s, none) := by
  unfold complete
  split
  · rfl
  · next e he => exact if_pos fun hl => hf (by simp [flightAt, he, hl])

theorem Inv.complete (h : s.Inv capacity n) (hg : Runs s g w (.answered result)) (nw : Nat) :
    Advances capacity s (match s.complete capacity w.relay g result nw with
      | (s, some delivered) => s.setWorker g w (.delivering delivered)
      | (s, none) => s.setWorker g w .finished) n := by
  by_cases hf : s.flightAt w.relay = some g
  · obtain ⟨E, d, hE, hr, ho, hc, hs⟩ := complete_spec h.cached hf result nw
    have hd : ∀ x, d = .ok x → s.Genuine w.relay x := by
      intro x hd
      rcases hs.delivered x hd with rfl | ⟨c, hc, h1, h2⟩
      · exact h.workerDocs g w x hg.1 (.inr (hg.2 ▸ rfl))
      · obtain ⟨h3, h4⟩ := h.entryDocs w.relay c hc
        exact ⟨h1 ▸ h3, h2 ▸ h4⟩
    rw [hE]
    refine ⟨h.step hg.1 rfl ho (.inr ⟨hf, hr⟩) ?_ hc (fun a c ha => ?_) (fun _ _ _ _ => .inr (.inr (.inr ⟨d, rfl⟩))) ?_,
      setWorker_less (s := { s with entries := E, accessClock := s.accessClock + 1 }) hg (Nat.lt_succ_self 2), fun _ _ _ => id⟩
    · rw [hf, hr, hg.2]
      rfl
    · rcases hs.docs a c ha with ⟨rfl, hc⟩ | hc
      · exact hd _ hc
      · exact h.entryDocs a c hc
    · rintro x (hx | hx)
      · exact h.workerDocs g w x hg.1 (.inl hx)
      · exact hd x hx
  · rw [complete_stale hf]
    exact ⟨h.setWorker hg rfl (absurd · hf) (.inr ⟨rfl, rfl⟩) (fun _ => False.elim), setWorker_less hg (Nat.succ_pos _), fun _ _ _ => id⟩

theorem length_flights (l : List (RelayUrl × Entry)) :
    (l.filterMap (·.2.flight)).length = (l.map (·.2.flight.isSome.toNat)).sum := by
  induction l with
  | nil => rfl
  | cons ro l ih => cases hf : ro.2.flight <;> simp [hf, ih, Nat.add_comm]

/-- The flights leave the table together and are told one by one. -/
theorem Inv.closeState (h : s.Inv capacity 8) (hs : s.slotsClosed) (ho : s.closed = false) : Advances capacity s { s with
      closed := true, entries := ∅, closing := s.closing ++ s.entries.toList.filterMap (·.2.flight) } 8 := by
  have hp := h.permits
  have hl : (s.entries.toList.filterMap (·.2.flight)).length = s.flights := length_flights _
  have hz : Table.filled (∅ : Table RelayUrl Entry) Entry.flight = 0 := Table.total_empty _
  refine ⟨⟨?_, by simp [cachedCount, Table.filled], h.unused, by simp [flightAt], fun g hg => ?_, by simp [flightAt, hs],
    fun i c g hi => ?_, by simp [cachedAt], h.workerDocs, h.callDocs⟩, ?_, fun _ _ _ => id⟩
  · simp only [Service.permits, length_append, hl, flights, hz] at hp hl ⊢
    omega
  · rcases mem_append.mp hg with hg | hg
    · exact h.told g hg
    · obtain ⟨⟨r, e⟩, hm, hf⟩ := mem_filterMap.mp hg
      obtain ⟨w, hw, -⟩ := h.owned r g (by simpa [flightAt, Table.mem_toList.mp hm] using hf)
      exact ⟨w, hw⟩
  · obtain ⟨w, hw, hr, hl⟩ := h.waits i c g hi
    refine ⟨w, hw, hr, hl.imp_right ?_⟩
    rintro (hl | hl | hl)
    · obtain ⟨e, he, hl⟩ := bind_eq_some_iff.mp hl
      exact .inr (.inl (mem_append.mpr (.inr (mem_filterMap.mpr ⟨_, Table.mem_toList.mpr he, hl⟩))))
    · exact .inr (.inl (mem_append.mpr (.inl hl)))
    · exact .inr (.inr hl)
  · unfold Service.permits at hp
    simp only [work, length_append, hl, ho, Bool.not_true, Bool.not_false, Bool.toNat_true, Bool.toNat_false]
    omega

theorem Inv.closeFlight (h : s.Inv capacity n) (hg : s.closing = g :: rest) (hw : s.workers[g]? = some w) :
    Advances capacity s (({ s with closing := rest }.setWorker g { w with sent := some (.error .serviceClosed) }
      w.phase).giveBack true) n := by
  have ht := h.setWorker (m := n) (f := s.free) (o := some (.error .serviceClosed)) ⟨hw, rfl⟩ rfl (h.aloft ⟨hw, rfl⟩)
    (.inl ⟨rfl, nofun⟩) fun d hd => h.workerDocs g w d hw (.inr hd)
  refine ⟨⟨?_, ht.cached, ht.unused, ht.owned, fun a ha => ht.told a (hg ▸ mem_cons_of_mem g ha), ht.shut,
    fun i c a hi => ?_, ht.entryDocs, ht.workerDocs, ht.callDocs⟩, ?_, fun _ _ _ => id⟩
  · rw [← ht.permits]
    simp only [Service.permits, Service.giveBack, Service.setWorker, flights, hg, length_cons, Bool.toNat_true]
    omega
  · obtain ⟨v, hv, hr, hl⟩ := ht.waits i c a hi
    refine ⟨v, hv, hr, ?_⟩
    rcases hl with hl | hl | hl | hl
    · exact .inl hl
    · exact .inr (.inl hl)
    · rcases mem_cons.mp (hg ▸ hl) with rfl | hl
      · obtain rfl := Option.some.inj ((Table.get_insert ..).symm.trans hv |>.symm.trans (if_pos rfl)).symm
        exact .inl rfl
      · exact .inr (.inr (.inl hl))
    · exact .inr (.inr (.inr hl))
  · have ht := setWorker_work (s := { s with closing := rest }) (w := w) ⟨hw, rfl⟩
      { w with sent := some (.error .serviceClosed) } w.phase
    have hc : s.work = work { s with closing := rest } + 1 := by
      simp only [work, hg, length_cons]
      omega
    exact Nat.lt_of_lt_of_eq (Nat.lt_succ_of_le (Nat.le_of_add_le_add_right ht.le)) hc.symm

theorem Inv.grow (h : s.Inv capacity n) {l : List (RelayUrl × String)} (hl : s.fetched ⊆ l) :
    Inv capacity { s with fetched := l } n :=
  ⟨h.permits, h.cached, h.unused, h.owned, h.told, h.shut, h.waits, fun r c hc => (h.entryDocs r c hc).imp_right (hl ·),
    fun g w d hg hd => (h.workerDocs g w d hg hd).imp_right (hl ·), fun i c d hi => (h.callDocs i c d hi).imp_right (hl ·)⟩

theorem finishFetch_spec {x : Option String × Nat} (h : finishFetch parse r o x now = .ok d) :
    x.1 = some d.rawJson ∧ d.relay = r ∨
      ∃ c, o = some c ∧ d.relay = c.snapshot.relay ∧ d.rawJson = c.snapshot.rawJson := by
  simp only [finishFetch] at h
  split at h
  · next hf =>
    split at h
    · cases h
    · cases h
      exact .inl ⟨hf, rfl⟩
  · cases h
  · next c _ =>
    cases h
    exact .inr ⟨c, rfl, rfl, rfl⟩

theorem Inv.answer (h : s.Inv capacity n) (rs : Except FetchError (Option String × Nat)) (nw : Nat)
    (hg : Runs s g w (.fetching o)) :
    Inv capacity { s.setWorker g w (.answered (rs.bind (finishFetch parse w.relay o · nw))) with
        fetched := match rs with
          | .ok (some rawJson, _) => (w.relay, rawJson) :: s.fetched
          | _ => s.fetched } n := by
  have hl : s.fetched ⊆ (match rs with
      | .ok (some rawJson, _) => (w.relay, rawJson) :: s.fetched
      | _ => s.fetched) := by
    split
    · exact List.subset_cons_self _ _
    · exact fun _ => id
  refine (h.grow hl).setWorker hg rfl (fun _ => rfl) (.inr ⟨rfl, rfl⟩) fun d hd => ?_
  cases rs with
  | error e => cases hd
  | ok x =>
    rcases finishFetch_spec hd with ⟨hf, h1⟩ | ⟨c, rfl, h1, h2⟩
    · obtain ⟨_, _⟩ := x
      cases hf
      exact ⟨h1, mem_cons_self⟩
    · obtain ⟨h3, h4⟩ := h.workerDocs g w c.snapshot hg.1 (.inr (hg.2 ▸ rfl))
      exact ⟨h1.trans h3, h2 ▸ hl h4⟩

theorem Inv.input (h : s.Inv capacity 8) (hi : Input parse s s') :
    s'.Inv capacity 8 ∧ ∀ i c x, At s i c (.done x) → At s' i c (.done x) := by
  cases hi with
  | call call hn =>
    refine ⟨h.setCall (by simp [Table.weight, hn, CallPhase.permits]) (by simp) (by simp), fun i c x hi => ?_⟩
    refine ⟨Table.insert_some.mpr (.inr ⟨?_, hi.1⟩), hi.2⟩
    rintro rfl
    cases hi.1.symm.trans hn
  | drop hi =>
    rcases hi with hi | hi <;> have ha := h.retire (q := .dropped) (m := 8) hi (Nat.succ_pos _) rfl rfl <;>
      exact ⟨ha.inv, ha.stays⟩
  | dropAdmitted hi =>
    have ha := h.retire (q := .dropped) (m := 7) hi (Nat.succ_pos _) rfl rfl
    exact ⟨ha.inv.giveBack true, ha.stays⟩
  | @dropWaiting _ _ _ g hi =>
    have ha := h.retire (q := .leaving g) (m := 8) hi (Nat.lt_succ_self 1) rfl rfl
    exact ⟨ha.inv, ha.stays⟩
  | answer rs nw hg => exact ⟨h.answer rs nw hg, fun _ _ _ => id⟩
  | close => exact ⟨⟨h.permits, h.cached, h.unused, h.owned, h.told, fun hk => ⟨(h.shut hk).1, rfl⟩, h.waits, h.entryDocs,
      h.workerDocs, h.callDocs⟩, fun _ _ _ => id⟩

theorem Inv.move (h : s.Inv capacity 8) (hm : Move capacity s s') : Advances capacity s s' 8 := by
  cases hm with
  | register nw hi => exact h.enter hi rfl rfl nw
  | registerAdmitted nw hi => exact h.enter hi rfl rfl nw
  | acquire hi hl _ =>
    have ha := h.retire (q := .admitted) (m := 9) hi (Nat.lt_succ_self 7) rfl rfl
    have ht := ha.inv
    refine ⟨⟨?_, ht.cached, ht.unused, ht.owned, ht.told, ht.shut, ht.waits, ht.entryDocs, ht.workerDocs, ht.callDocs⟩,
      ha.less, ha.stays⟩
    have hp := ht.permits
    simp only [Service.permits, Service.setCall, flights] at hp ⊢
    omega
  | refuse hi _ => exact h.retire hi (Nat.succ_pos _) rfl rfl
  | withdraw hi _ =>
    have ha := h.retire (q := .done (.error .serviceClosed)) (m := 7) hi (Nat.succ_pos _) rfl rfl
    exact ⟨ha.inv.giveBack true, ha.less, ha.stays⟩
  | @receive _ i call g w _ hi hw hs =>
    refine h.advance hi (Nat.succ_pos _) rfl (fun _ hg => by cases hg) fun d hd => ?_
    obtain ⟨v, hv, hr, -⟩ := h.waits i call g hi
    cases hw.symm.trans hv
    exact hr ▸ h.workerDocs g w d hw (.inl (hs.trans (congrArg some (CallPhase.done.inj hd))))
  | disconnected hi _ _ _ => exact h.retire hi (Nat.succ_pos _) rfl rfl
  | @leave _ i call g hi =>
    obtain ⟨hI, hc, hw⟩ := h.cancel call.relay g
    have ha := hI.retire (p := .leaving g) (q := .dropped) (m := 8) (by rwa [At, hc]) (Nat.succ_pos _) rfl rfl
    exact ⟨ha.inv, hw ▸ ha.less, fun i c x hi => ha.stays i c x (by rwa [At, hc])⟩
  | begin hg =>
    split
    · refine ⟨h.setWorker hg rfl (fun _ => rfl) (.inr ⟨rfl, rfl⟩) fun d hd => ?_, setWorker_less hg (Nat.lt_succ_self 3),
        fun _ _ _ => id⟩
      obtain ⟨c, hc, rfl⟩ := map_eq_some_iff.mp hd
      exact h.entryDocs _ c hc
    · next hf =>
      exact ⟨h.setWorker hg rfl (absurd · hf) (.inr ⟨rfl, rfl⟩) (fun _ => False.elim), setWorker_less hg (Nat.succ_pos _), fun _ _ _ => id⟩
  | complete nw hg => exact h.complete hg nw
  | @deliver _ g w _ hg =>
    refine ⟨h.setWorker hg rfl (fun hf => absurd (h.aloft hg hf) Bool.false_ne_true) (.inl ⟨rfl, fun d hd => ?_⟩) (fun _ => False.elim),
      setWorker_less hg (Nat.lt_succ_self 1), fun _ _ _ => id⟩
    exact h.workerDocs g w d hg.1 (.inr (hg.2 ▸ Option.some.inj hd))
  | @release _ g w hg =>
    exact ⟨h.setWorker (f := s.free + 1) hg rfl (fun hf => absurd (h.aloft hg hf) Bool.false_ne_true) (.inr ⟨rfl, rfl⟩) (fun _ => False.elim),
      setWorker_less (v := w) (q := .finished) hg (Nat.succ_pos _), fun _ _ _ => id⟩
  | closeState hs ho => exact h.closeState hs ho
  | closeFlight hg hw => exact h.closeFlight hg hw

theorem inv_of_reaches (h : Reaches parse capacity s) : s.Inv capacity 8 := by
  induction h with
  | start => exact ⟨by simp [permits, flights, Table.filled], by simp [cachedCount, Table.filled], by simp,
      by simp [flightAt], nofun, nofun, by simp [At], by simp [cachedAt], by simp, by simp [At]⟩
  | input _ hi ih => exact (ih.input hi).1
  | move _ hm ih => exact (ih.move hm).inv

/-- The registered flight is still being fetched. -/
def Fetches (s : Service) (g : Nat) : Prop := ∃ w cached, Runs s g w (.fetching cached) ∧ s.flightAt w.relay = some g

def Awaits (s : Service) (call : Call) : Prop :=
  s.slotsClosed = false ∧ ((∃ g, call.phase = .waiting g ∧ s.Fetches g) ∨
    call.phase = .needsAdmission ∧ s.flights = 8 ∧ ∀ r g, s.flightAt r = some g → s.Fetches g)

section Settled

variable (h : s.Inv capacity 8) (hs : ∀ s', ¬Move capacity s s')

include h hs

theorem fetches_of_settled (hf : s.flightAt r = some g) : s.Fetches g := by
  obtain ⟨w, hw, rfl, hl⟩ := h.owned r g hf
  cases hp : w.phase with
  | spawned => exact absurd (.begin ⟨hw, hp⟩) (hs _)
  | fetching cached => exact ⟨w, cached, ⟨hw, hp⟩, hf⟩
  | answered rs => exact absurd (.complete 0 ⟨hw, hp⟩) (hs _)
  | _ => simp [WorkerPhase.flies, hp] at hl

theorem closing_of_settled : s.closing = [] := by
  cases hc : s.closing with
  | nil => rfl
  | cons g rs =>
    obtain ⟨w, hw⟩ := h.told g (by simp [hc])
    exact absurd (.closeFlight hc hw) (hs _)

theorem flights_of_settled (hf : s.free = 0) : s.flights = 8 := by
  have hp := h.permits
  have h1 : s.workers.total (fun ro => ro.2.phase.permits) = 0 := by
    refine Table.total_eq_zero (f := fun w : Worker => w.phase.permits) fun g w hw => ?_
    cases hl : w.phase with
    | delivering d => exact absurd (.deliver ⟨hw, hl⟩) (hs _)
    | releasing => exact absurd (.release ⟨hw, hl⟩) (hs _)
    | _ => rfl
  have h2 : s.calls.total (fun ro => ro.2.phase.permits) = 0 := by
    refine Table.total_eq_zero (f := fun c : Call => c.phase.permits) fun i c hi => ?_
    cases hl : c.phase with
    | admitted => exact absurd (.registerAdmitted 0 ⟨hi, hl⟩) (hs _)
    | _ => rfl
  rw [permits, closing_of_settled h hs, h1, h2, hf] at hp
  simpa using hp

theorem returns_of_settled {i : Nat} (hi : s.calls[i]? = some call) :
    (∃ rs, call.phase = .done rs) ∨ call.phase = .dropped ∨ s.Awaits call := by
  cases hp : call.phase with
  | start => exact absurd (.register 0 ⟨hi, hp⟩) (hs _)
  | needsAdmission =>
    have hc : s.slotsClosed = false := by
      by_contra hc
      exact hs _ (.refuse ⟨hi, hp⟩ (by simpa using hc))
    have hf : s.free = 0 := by
      by_contra hf
      exact hs _ (.acquire ⟨hi, hp⟩ (Nat.pos_of_ne_zero hf) hc)
    exact .inr (.inr ⟨hc, .inr ⟨hp, flights_of_settled h hs hf, fun r g => fetches_of_settled h hs⟩⟩)
  | admitted => exact absurd (.registerAdmitted 0 ⟨hi, hp⟩) (hs _)
  | waiting g =>
    obtain ⟨w, hw, -, hl⟩ := h.waits i call g ⟨hi, hp⟩
    rcases hl with hl | hl | hl | ⟨d, hl⟩
    · obtain ⟨rs, hl⟩ := isSome_iff_exists.mp hl
      exact absurd (.receive ⟨hi, hp⟩ hw hl) (hs _)
    · refine .inr (.inr ⟨?_, .inl ⟨g, hp, fetches_of_settled h hs hl⟩⟩)
      by_contra hc
      have hk : s.closed := by
        by_contra hk
        exact hs _ (.closeState (by simpa using hc) (by simpa using hk))
      cases ((h.shut hk).1 _).symm.trans hl
    · simp [closing_of_settled h hs] at hl
    · exact absurd (.deliver ⟨hw, hl⟩) (hs _)
  | leaving g => exact absurd (.leave ⟨hi, hp⟩) (hs _)
  | dropped => exact .inr (.inl rfl)
  | done rs => exact .inl ⟨rs, rfl⟩

end Settled

theorem complete_error (h : s.Inv capacity 8) (r : RelayUrl) (g : Nat) (e : FetchError) (nw : Nat) (a : RelayUrl) :
    ((s.complete capacity r g (.error e) nw).1.cachedAt a).map (·.snapshot.rawJson) =
      (s.cachedAt a).map (·.snapshot.rawJson) := by
  by_cases hf : s.flightAt r = some g
  · obtain ⟨E, d, hE, -, -, -, hs⟩ := complete_spec h.cached hf (.error e) nw
    rw [hE]
    exact hs.kept ⟨e, rfl⟩ a
  · rw [complete_stale hf]

/-- Single flight, conserved permits, a bounded cache, and one genuine result for every call that stays. -/
theorem single_flight (h : Reaches parse capacity s) :
    s.flights ≤ 8 ∧ (∀ r r' g, s.flightAt r = some g → s.flightAt r' = some g → r = r') ∧
    s.permits = 8 ∧ cachedCount s.entries ≤ capacity ∧
    (∀ i call d, At s i call (.done (.ok d)) → s.Genuine call.relay d) ∧
    (∀ s' i call result, Input parse s s' ∨ Move capacity s s' → At s i call (.done result) → At s' i call (.done result)) ∧
    (∀ s', Move capacity s s' → s'.work < s.work) ∧
    ((∀ s', ¬Move capacity s s') → ∀ (i : Nat) (call : Call), s.calls[i]? = some call →
      (∃ result, call.phase = .done result) ∨ call.phase = .dropped ∨ s.Awaits call) ∧
    ∀ relay g e now r, ((s.complete capacity relay g (.error e) now).1.cachedAt r).map (·.snapshot.rawJson) =
      (s.cachedAt r).map (·.snapshot.rawJson) := by
  have hi := inv_of_reaches h
  refine ⟨?_, fun r r' g h1 h2 => ?_, hi.permits, hi.cached, hi.callDocs, fun s' i c x hn => ?_, fun s' hm => (hi.move hm).less,
    fun hs i call => returns_of_settled hi hs, complete_error hi⟩
  · have hp := hi.permits
    unfold permits at hp
    omega
  · obtain ⟨w, hw, rfl, -⟩ := hi.owned r g h1
    obtain ⟨v, hv, rfl, -⟩ := hi.owned r' g h2
    cases hw.symm.trans hv
    rfl
  · rcases hn with hn | hm
    · exact (hi.input hn).2 i c x
    · exact (hi.move hm).stays i c x

theorem single_flight_first_call :
    ∃ s, Reaches (fun _ => none) 1 s ∧ s.flightAt "wss://a" = some 1 ∧ s.permits = 8 ∧ cachedCount s.entries ≤ 1 := by
  let c : Call := ⟨"wss://a", .useCache, .start⟩
  have h1 : Reaches (fun _ => none) 1 _ := .input .start (.call (i := 0) c (by simp))
  have h2 := h1.move (.register 0 ⟨Table.insert_some.mpr (.inl ⟨rfl, rfl⟩), rfl⟩)
  have hr : At (enter 0 c ((setCall {} 0 c .start).register c.relay c.policy 0 false)) 0
      { c with phase := .needsAdmission } .needsAdmission := ⟨by simp [setCall, register, enter, c], rfl⟩
  have h3 := h2.move (.acquire hr (by simp [setCall, register, enter, c]) (by simp [setCall, register, enter, c]))
  have h4 := h3.move (.registerAdmitted 0 ⟨Table.insert_some.mpr (.inl ⟨rfl, rfl⟩), rfl⟩)
  have hs := single_flight h4
  exact ⟨_, h4, by simp [setCall, register, enter, flightAt, c], hs.2.2.1, hs.2.2.2.1⟩

end Service

end NmpStore.Nip11
