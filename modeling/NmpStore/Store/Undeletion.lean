import NmpStore.Store.Deletions

/-! # Deleting a deletion

A deletion of a deletion keeps the first one out if it comes first, and then what that one names is not deleted.
-/

namespace NmpStore.Store

variable [ShardHash] {s s' : Store}

/-- The relays deliver the events one after the other. -/
def deliver (s : Store) (deliveries : List Delivery) : Result Store :=
  deliveries.foldlM (fun s delivery => Prod.snd <$> s.insert delivery.1 delivery.2) s

theorem deliver_cons : deliver s (d :: dels) = .ok s' ↔
    ∃ o m, s.insert d.1 d.2 = .ok (o, m) ∧ deliver m dels = .ok s' := by
  cases hI : s.insert d.1 d.2 with
  | error e => simp [deliver, hI, Functor.map, Except.map, Bind.bind, Except.bind]
  | ok fr => simp [deliver, hI, Functor.map, Except.map, Bind.bind, Except.bind, Prod.ext_iff]

theorem deliver_append : deliver s (b ++ af) = .ok s' ↔
    ∃ m, deliver s b = .ok m ∧ deliver m af = .ok s' := by
  simp only [deliver, List.foldlM_append, bind_ok]

/-- A store in which ids stand for bodies and signed deletions have been carried out. -/
structure Orderly (bodies : Bodies) (s : Store) : Prop where
  sound : s.Sound bodies
  rested : s.events.Rested
  executed : s.Executed

theorem orderly_empty : Orderly bs {} := ⟨sound_empty, EventTables.rested_empty, executed_empty⟩

theorem Orderly.later (h : s.Orderly bs) (hL : Relation.ReflTransGen (Step bs) s s') :
    s'.Orderly bs ∧ s.Remembers s' := by
  induction hL with
  | refl => exact ⟨h, .refl s⟩
  | tail _ hS ih =>
    have hK := ih.1.sound.step ih.1.rested hS
    have hE := executed_survives.step ih.1.executed ih.1.sound hS
    exact ⟨⟨hK.sound, hK.rested, hE⟩, ih.2.trans hK.remembers⟩

/-- A delivered deletion names the event that was in time and not deleted itself; the latest delivery stands first. -/
def Deleted : List Delivery → Event → Prop
  | [], _ => False
  | delivery :: earlier, event => Deleted earlier event ∨ delivery.1.isDeletion = true ∧ delivery.1.Names event ∧
      delivery.1.isExpiredAt delivery.2.time = false ∧ ¬ Deleted earlier delivery.1

/-- What a delivery newly refuses, a deletion names that was in time and not refused itself. -/
theorem insert_refuses (h : s.Orderly bs) (hE : Authentic bs ev) (ho : s.insert ev src = .ok (out, s')) (target : Event) :
    s'.tombstones.refuses target = true ↔ s.tombstones.refuses target = true ∨
      ev.isDeletion = true ∧ ev.Names target ∧ ev.isExpiredAt src.time = false ∧ s.tombstones.refuses ev = false := by
  have hR := (h.later (.single (.insert hE ho))).2
  obtain ⟨m, hI, hL⟩ := h.sound.insert_ok hE ho
  have hX := fun hD hS => h.executed.ingests_refused hD (h.sound.sameBody hE) hI hS
  refine ⟨fun hT => ?_, ?_⟩
  · rw [hL.commits.tombstones] at hT
    cases hI with
    | expired | merged | refused | placed => exact .inl hT
    | adopted hF ha _ _ _ _ hD =>
      have hA := (Tombstones.refuses_congr (h.sound.sameBody hE _ ha)).trans (h.sound.allowed _ _ ha)
      exact ((hD.refuses target).mp hT).imp_right fun ⟨hd, hN⟩ => ⟨hd, hN, hF, hA⟩
    | deleting hF _ hA hd _ _ hD =>
      exact ((hD.refuses target).mp hT).imp_right fun hN => ⟨hd, hN, hF, hA⟩
  · rintro (hT | ⟨hD, hN, hF, hA⟩)
    · exact hR target hT
    rw [hL.commits.tombstones]
    refine hX hD ?_ target hN
    cases hI with
    | expired he => cases hF.symm.trans he
    | refused _ _ hr => cases hA.symm.trans hr
    | placed _ _ _ _ hr => cases hr.symm.trans hD
    | merged | adopted | deleting => rfl

theorem deliver_refuses (hB : ∀ d ∈ dl, Authentic bs d.1) (ho : deliver {} dl = .ok s) (target : Event) :
    s.Orderly bs ∧ (s.tombstones.refuses target = true ↔ Deleted dl.reverse target) := by
  induction dl using List.reverseRecOn generalizing s target with
  | nil =>
    cases ho
    refine ⟨orderly_empty, ?_⟩
    cases ha : addressOf target <;> simp [Tombstones.refuses, Deleted, ha]
  | append_singleton dl d ih =>
    obtain ⟨m, hk, hd⟩ := deliver_append.mp ho
    obtain ⟨o, s₁, hI, hr⟩ := deliver_cons.mp hd
    cases hr
    have hm := fun t => ih (fun d hd => hB d (mem_append_left _ hd)) hk t
    have hE : Authentic bs d.1 := hB d (by simp)
    refine ⟨((hm target).1.later (.single (.insert hE hI))).1, ?_⟩
    have hA : m.tombstones.refuses d.1 = false ↔ ¬ Deleted dl.reverse d.1 := by rw [← (hm d.1).2, Bool.not_eq_true]
    rw [insert_refuses (hm target).1 hE hI, (hm target).2, hA, List.reverse_append]
    rfl

theorem Orderly.keeps_out (h : s.Orderly bs) (hE : Authentic bs ev) :
    s.tombstones.refuses ev = true ↔ s.events.rowOf ev.id = none ∧
      ∀ source, ∃ reason, s.insertWithTables ev source = .ok (.refused reason, s) := by
  constructor
  · intro hR
    have ha : s.events.rowOf ev.id = none := by
      refine Option.eq_none_iff_forall_ne_some.mpr fun st hA => ?_
      have hS := h.sound.sameBody hE st hA
      cases (h.sound.allowed _ _ hA).symm.trans ((Tombstones.refuses_congr hS).symm.trans hR)
    refine ⟨ha, fun source => ?_⟩
    simp only [insertWithTables, h.rested.ok.rowOf_none.mp ha, if_pos hR]
    split <;> exact ⟨_, rfl⟩
  · rintro ⟨ha, hI⟩
    obtain ⟨reason, hI⟩ := hI ⟨"", 0⟩
    by_contra hR
    have hF : ev.isExpiredAt 0 = false := by simp [Event.isExpiredAt]
    simp only [insertWithTables, hF, h.rested.ok.rowOf_none.mp ha, if_neg hR] at hI
    obtain ⟨⟨placement, events⟩, -, hI⟩ := bind_ok.mp hI
    split at hI
    · cases hI
    · cases hI
    · split at hI
      · simp only [run_ok] at hI
        obtain ⟨_, -, hI, -⟩ := hI
        cases hI
      · cases hI

variable {x d₁ d₂ : Event} {deliveries : List Delivery}

omit [ShardHash] in
theorem exists_split {d : Event} {P : RelayObserved → List Delivery → Prop} (delivery : Delivery) (earlier : List Delivery) :
    (∃ later source rest, delivery :: earlier = later ++ (d, source) :: rest ∧ P source rest) ↔
      delivery.1 = d ∧ P delivery.2 earlier ∨ ∃ later source rest, earlier = later ++ (d, source) :: rest ∧ P source rest := by
  constructor
  · rintro ⟨_ | ⟨_, later⟩, source, rest, he, hP⟩ <;> cases he
    · exact .inl ⟨rfl, hP⟩
    · exact .inr ⟨later, source, rest, rfl, hP⟩
  · rintro (⟨rfl, hP⟩ | ⟨later, source, rest, rfl, hP⟩)
    · exact ⟨[], delivery.2, earlier, rfl, hP⟩
    · exact ⟨delivery :: later, source, rest, rfl, hP⟩

omit [ShardHash] in
/-- Among an event, its deletion and the deletion of that, whose ids are hashes of what they name. -/
theorem deleted_iff (h₁ : d₁.isDeletion = true) (h₂ : d₂.isDeletion = true) (hNames : d₁.Names x) (hU : d₂.Names d₁)
    (hX : x.isDeletion = true → ∀ event ∈ [x, d₁, d₂], ¬ x.Names event) (hF : ∀ event ∈ [d₁, d₂], ¬ d₁.Names event)
    (hS : ¬ d₂.Names d₂) (hL : ∀ delivery ∈ deliveries, delivery.1 ∈ [x, d₁, d₂]) :
    ¬ Deleted deliveries d₂ ∧
    (Deleted deliveries d₁ ↔ ∃ delivery ∈ deliveries, delivery.1 = d₂ ∧ d₂.isExpiredAt delivery.2.time = false) ∧
    (Deleted deliveries x ↔
      (∃ later source earlier, deliveries = later ++ (d₁, source) :: earlier ∧ d₁.isExpiredAt source.time = false ∧
        ∀ delivery ∈ earlier, delivery.1 = d₂ → d₂.isExpiredAt delivery.2.time = true) ∨
      d₂.Names x ∧ ∃ delivery ∈ deliveries, delivery.1 = d₂ ∧ d₂.isExpiredAt delivery.2.time = false) := by
  have hne : d₁ ≠ d₂ := fun he => hS (he ▸ hU)
  induction deliveries with
  | nil => simp [Deleted]
  | cons delivery earlier ih =>
    obtain ⟨hM, hL⟩ := List.forall_mem_cons.mp hL
    obtain ⟨ih₂, ih₁, ihx⟩ := ih hL
    have hk : (∀ delivery ∈ earlier, delivery.1 = d₂ → d₂.isExpiredAt delivery.2.time = true) ↔ ¬ Deleted earlier d₁ := by
      simp only [ih₁, not_exists, not_and, Bool.not_eq_false]
    simp only [mem_cons, not_mem_nil, or_false, forall_eq_or_imp, forall_eq] at hM hX hF
    have hnx : x ≠ d₁ ∧ x ≠ d₂ := ⟨fun he => hF.1 (he ▸ hNames), fun he => hF.2 (he ▸ hNames)⟩
    simp only [Deleted, exists_split, List.exists_mem_cons_iff, hk, ← ih₁, ihx]
    rcases hM with he | he | he <;> rw [he]
    · by_cases hD : x.isDeletion = true
      · simp [hnx, hX hD, ih₂]
      · simp [hnx, hD, ih₂]
    · simp only [h₁, hF, hne, hNames, ih₂, true_and, false_and, and_false, or_false, false_or, not_false_eq_true, iff_self]
      exact or_comm.trans or_assoc.symm
    · simp only [h₂, hS, hU, hne.symm, ih₂, true_and, false_and, and_false, and_true, or_false, false_or, not_false_eq_true]
      rw [or_assoc, ← and_or_left, or_comm (b := d₂.isExpiredAt delivery.2.time = false)]
      exact ⟨.rfl, .rfl⟩

omit [ShardHash] in
theorem names_deletion {o ev : Event} (h : o.isDeletion = true) (hN : ev.Names o) : o.id ∈ ev.tags.eventIds := by
  rcases hN with hN | ⟨_, -, hA, -⟩
  · exact hN.1
  · cases (addressOf_isDeletion h).symm.trans hA

/-- Of an event, its deletion and the deletion of that, delivered in any order and number, the event is kept out for good
exactly if its deletion came in time and before any timely deletion of it, or the second deletion names the event too and
came in time. -/
theorem undeletion_iff_first (h₁ : d₁.isDeletion = true) (h₂ : d₂.isDeletion = true) (hAuthor : d₁.pubkey = d₂.pubkey)
    (hTag : d₁.id ∈ d₂.tags.eventIds) (hNames : d₁.Names x) (hBodies : ∀ event ∈ [x, d₁, d₂], Authentic bodies event)
    (hHash : ∃ rank : EventId → Nat, ∀ event ∈ [x, d₁, d₂], ∀ id ∈ event.tags.eventIds, rank id < rank event.id)
    (hL : ∀ delivery ∈ deliveries, delivery.1 ∈ [x, d₁, d₂]) (hOk : deliver {} deliveries = .ok s) :
    (∀ later, Relation.ReflTransGen (Step bodies) s later → later.events.rowOf x.id = none ∧
      ∀ source, ∃ reason, later.insertWithTables x source = .ok (.refused reason, later)) ↔
    (∃ before source after, deliveries = before ++ (d₁, source) :: after ∧ d₁.isExpiredAt source.time = false ∧
      ∀ delivery ∈ before, delivery.1 = d₂ → d₂.isExpiredAt delivery.2.time = true) ∨
    d₂.Names x ∧ ∃ delivery ∈ deliveries, delivery.1 = d₂ ∧ d₂.isExpiredAt delivery.2.time = false := by
  have hB : ∀ delivery ∈ deliveries, Authentic bodies delivery.1 := fun delivery hM => hBodies _ (hL delivery hM)
  have hX : Authentic bodies x := hBodies x (by simp)
  obtain ⟨hs, hR⟩ := deliver_refuses hB hOk x
  obtain ⟨rank, hHash⟩ := hHash
  simp only [mem_cons, not_mem_nil, or_false, forall_eq_or_imp, forall_eq] at hHash
  obtain ⟨hRx, hR₁, hR₂⟩ := hHash
  have hU := hR₂ _ hTag
  -- an event that names one of the others stands above it, so naming does not run in a circle
  have hD := deleted_iff h₁ h₂ hNames (.inl ⟨hTag, hAuthor⟩) (fun hd event hM hN => ?_)
    (fun event hM hN => ?_) (fun hN => (hR₂ _ (names_deletion h₂ hN)).false) (show ∀ delivery ∈ deliveries.reverse, _ by simpa using hL)
  · calc (∀ later, Relation.ReflTransGen (Step bodies) s later → _) ↔ s.tombstones.refuses x = true := by
          refine ⟨fun h => (hs.keeps_out hX).mpr (h s .refl), fun hT later hl => ?_⟩
          obtain ⟨ho, hK⟩ := hs.later hl
          exact (ho.keeps_out hX).mp (hK x hT)
      _ ↔ Deleted deliveries.reverse x := hR
      _ ↔ _ := hD.2.2
      _ ↔ _ := by
          simp only [List.mem_reverse]
          refine or_congr_left ⟨?_, ?_⟩
          · rintro ⟨later, source, earlier, he, hF, hP⟩
            have he := congrArg List.reverse he
            exact ⟨earlier.reverse, source, later.reverse, by simpa using he, hF, by simpa using hP⟩
          · rintro ⟨before, source, after, rfl, hF, hP⟩
            exact ⟨after.reverse, source, before.reverse, by simp, hF, by simpa using hP⟩
  · have hn := hR₁ _ (names_deletion hd hNames)
    simp only [mem_cons, not_mem_nil, or_false] at hM
    rcases hM with rfl | rfl | rfl
    · exact (hRx _ (names_deletion hd hN)).false
    · exact (hn.trans (hRx _ (names_deletion h₁ hN))).false
    · exact (hn.trans (hU.trans (hRx _ (names_deletion h₂ hN)))).false
  · simp only [mem_cons, not_mem_nil, or_false] at hM
    rcases hM with rfl | rfl
    · exact (hR₁ _ (names_deletion h₁ hN)).false
    · exact (hU.trans (hR₁ _ (names_deletion h₂ hN))).false

omit [ShardHash]

def undeletion : Event := { noteDeletion with id := 9, tags := { eventIds := [8] } }

def relayAt (time : Nat) : RelayObserved := ⟨"wss://relay", time⟩

theorem undeletion_iff_first_note :
    ∃ s, @deliver oneShard {} [(noteDeletion, relayAt 21), (undeletion, relayAt 22), (expiringNote, relayAt 23)] = .ok s ∧
      s.events.rowOf 7 = none := by
  let _ := oneShard
  have hR : (deliver {} [(noteDeletion, relayAt 21), (undeletion, relayAt 22),
      (expiringNote, relayAt 23)]).toOption.isSome = true := by decide +kernel
  obtain ⟨s, ho⟩ := isSome_iff_exists.mp hR
  have ho := toOption_some.mp ho
  let bodies : Bodies := fun id => if id = 8 then noteDeletion else if id = 9 then undeletion else expiringNote
  refine ⟨s, ho, ?_⟩
  have hA : noteDeletion.pubkey = undeletion.pubkey := rfl
  have hT : noteDeletion.id ∈ undeletion.tags.eventIds := mem_cons_self
  have hN : noteDeletion.Names expiringNote := .inl ⟨by simp [noteDeletion, expiringNote, Event.bare], rfl⟩
  have hB : ∀ evn ∈ [expiringNote, noteDeletion, undeletion], Authentic bodies evn := by
    simp [bodies, Authentic, expiringNote, Event.bare, noteDeletion, undeletion, Event.SameBody]
  have hH : ∀ evn ∈ [expiringNote, noteDeletion, undeletion], ∀ id ∈ evn.tags.eventIds, id < evn.id := by decide
  exact (((undeletion_iff_first rfl rfl hA hT hN hB ⟨id, hH⟩ (by simp) ho).mpr
    (.inl ⟨[], relayAt 21, _, rfl, rfl, by simp⟩)) s .refl).1

/-- The deletion of the deletion comes first: the note stays. -/
theorem undeletion_comes_first : (@deliver oneShard {} [(undeletion, relayAt 21), (noteDeletion, relayAt 22),
    (expiringNote, relayAt 23)]).toOption.any (fun s => (s.events.rowOf 7).isSome) = true := by
  let _ := oneShard
  decide +kernel

end NmpStore.Store
