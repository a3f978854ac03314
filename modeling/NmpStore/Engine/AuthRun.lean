import NmpStore.Engine.Auth

/-! # Readiness is earned in one epoch

For every session a history keeps, newest first, what was received and given since the last challenge of the session.
-/

namespace NmpStore.Engine

inductive AuthNote where
  | got (message : AuthMessage)
  | gave (effect : AuthEffect)
  deriving DecidableEq

structure AuthWorld where
  state : AuthState := {}
  heard : RelaySessionKey → List AuthNote := fun _ => []

def AuthState.begins (s : AuthState) (message : AuthMessage) (session : RelaySessionKey) : Bool :=
  match message with
  | .challenge handle asked _ => asked = session && s.occupies handle asked
  | _ => false

def notesOf (message : AuthMessage) (effects : List AuthEffect) : List AuthNote := effects.reverse.map .gave ++ [.got message]

def AuthWorld.receive [AuthCrypto] (w : AuthWorld) (message : AuthMessage) : AuthWorld where
  state := (w.state.onMessage message).1
  heard := fun session => notesOf message (w.state.onMessage message).2 ++ if w.state.begins message session then [] else w.heard session

def AuthWorld.after (w : AuthWorld) (message : AuthMessage) (result : AuthState × List AuthEffect) : AuthWorld :=
  ⟨result.1, fun session => notesOf message result.2 ++ w.heard session⟩

def AuthState.OneSlot (s : AuthState) : AuthMessage → Prop
  | .connected handle session => ∀ (slot : Nat) (entry : RelayHandle × RelaySessionKey), s.slotToRelay[slot]? = some entry →
      entry.2 = session → slot = handle.slot
  | _ => True

inductive AuthWorld.Reached [AuthCrypto] : AuthWorld → Prop where
  | start : Reached {}
  | receive {w : AuthWorld} (message : AuthMessage) : Reached w → w.state.OneSlot message → Reached (w.receive message)

/-- A policy allows to answer the challenge, a signer signs the answer and the transport is given it. -/
structure AuthCourse where
  epoch : AuthEpoch
  challenge : String
  policyToken : AuthOpToken
  policy : AuthCapabilityInstance
  signToken : AuthOpToken
  signer : AuthCapabilityInstance
  event : SignedAuth
  sendToken : AuthOpToken

def allowedNotes (epoch : AuthEpoch) (challenge : String) (token : AuthOpToken) (policy : AuthCapabilityInstance) : List AuthNote :=
  [.got (.policyCompleted token (some policy) .allow), .got (.bound token .policy policy),
    .got (.challenge epoch.handle epoch.session challenge)]

namespace AuthCourse

def sentNotes (c : AuthCourse) : List AuthNote :=
  [.gave (.send c.sendToken c.event), .got (.signerCompleted c.signToken (some c.signer) (.signed c.event)),
    .got (.bound c.signToken .signer c.signer)] ++ allowedNotes c.epoch c.challenge c.policyToken c.policy

def accepted (c : AuthCourse) : AuthNote := .got (.sendCompleted c.epoch.handle c.epoch.session c.sendToken.sequence .accepted)

def answered (c : AuthCourse) (status : Bool) (message : String) : AuthNote :=
  .got (.ok c.epoch.handle c.epoch.session c.event.id status message)

/-- All tokens are of one epoch, and the event is a valid signature of the template for the challenge. -/
structure Valid [AuthCrypto] (c : AuthCourse) (state : AuthSessionState) (eventId : EventId) : Prop where
  epoch : c.epoch = state.epoch
  challenge : c.challenge ≠ ""
  policyToken : c.policyToken.epoch = c.epoch
  signToken : c.signToken.epoch = c.epoch
  sendToken : c.sendToken.epoch = c.epoch
  policy : state.policyInstance = some c.policy
  signer : state.signerInstance = some c.signer
  eventId : c.event.id = eventId
  event : ∃ pubkey createdAt, c.epoch.session.2 = some pubkey ∧
    signedAuthMatchesFrozen (authTemplate c.challenge c.epoch.session.1 pubkey createdAt) c.event = true

end AuthCourse

def Backed [AuthCrypto] (heard : List AuthNote) (state : AuthSessionState) : Prop :=
  match state.phase with
  | .awaitingPolicy token => token.epoch = state.epoch ∧ state.challenge ≠ "" ∧ state.signerInstance = none ∧
    ((state.policyInstance.map fun policy => AuthNote.got (.bound token .policy policy)).toList ++
      [AuthNote.got (.challenge state.epoch.handle state.epoch.session state.challenge)]).Sublist heard
  | .awaitingSignature token unsigned => token.epoch = state.epoch ∧ state.challenge ≠ "" ∧
    (∃ pubkey createdAt, state.epoch.session.2 = some pubkey ∧ unsigned = authTemplate state.challenge state.epoch.session.1 pubkey createdAt) ∧
    ∃ policyToken policy, policyToken.epoch = state.epoch ∧ state.policyInstance = some policy ∧
      ((state.signerInstance.map fun signer => AuthNote.got (.bound token .signer signer)).toList ++
        allowedNotes state.epoch state.challenge policyToken policy).Sublist heard
  | .awaitingSend token eventId earlyOk => ∃ c : AuthCourse, c.Valid state eventId ∧ c.sendToken = token ∧
    ((earlyOk.map fun answer => c.answered answer.1 answer.2).toList ++ c.sentNotes).Sublist heard
  | .awaitingOk eventId => ∃ c : AuthCourse, c.Valid state eventId ∧ (c.accepted :: c.sentNotes).Sublist heard
  | .ready eventId => ∃ (c : AuthCourse) (message : String), c.Valid state eventId ∧
    ((c.answered true message :: c.accepted :: c.sentNotes).Sublist heard ∨
      (c.accepted :: c.answered true message :: c.sentNotes).Sublist heard)
  | _ => True

theorem Backed.mono [AuthCrypto] (h : Backed heard st)
    (hB : heard.Sublist heard') : Backed heard' st := by
  unfold Backed at h ⊢
  split at h
  · exact ⟨h.1, h.2.1, h.2.2.1, h.2.2.2.trans hB⟩
  · obtain ⟨ht, hC, hT, policyToken, policy, hP, hI, hN⟩ := h
    exact ⟨ht, hC, hT, policyToken, policy, hP, hI, hN.trans hB⟩
  · obtain ⟨c, hV, ht, hN⟩ := h
    exact ⟨c, hV, ht, hN.trans hB⟩
  · obtain ⟨c, hV, hN⟩ := h
    exact ⟨c, hV, hN.trans hB⟩
  · obtain ⟨c, message, hV, hN⟩ := h
    exact ⟨c, message, hV, hN.imp (·.trans hB) (·.trans hB)⟩
  · trivial

def readyOn (state : Option AuthSessionState) : Option RelayHandle :=
  state.bind fun state => if AuthState.isReady state.phase then some state.epoch.handle else none

structure SessionFits [AuthCrypto] (session : RelaySessionKey) (heard : List AuthNote) (state : Option AuthSessionState)
    (ready : Option RelayHandle) : Prop where
  ready : ready = readyOn state
  own : ∀ st ∈ state, st.epoch.session = session ∧ session.2.isSome = true
  backed : ∀ st ∈ state, Backed heard st

structure Fits [AuthCrypto] (w : AuthWorld) : Prop where
  sessions : ∀ session : RelaySessionKey,
    SessionFits session (w.heard session) w.state.authSessions[session]? w.state.authReadySessions[session]?
  slots : ∀ (a b : Nat) (x y : RelayHandle × RelaySessionKey), w.state.slotToRelay[a]? = some x → w.state.slotToRelay[b]? = some y →
    x.2 = y.2 → a = b

section

variable [AuthCrypto] {w : AuthWorld} {session : RelaySessionKey}

theorem SessionFits.mono {rd : Option RelayHandle}
    (h : SessionFits session heard st rd) (hB : heard.Sublist heard') : SessionFits session heard' st rd :=
  ⟨h.ready, h.own, fun x hx => (h.backed x hx).mono hB⟩

variable {s : AuthState}

structure AuthState.Keeps (s next : AuthState) : Prop where
  slots : next.slotToRelay = s.slotToRelay
  sessions : next.authSessions = s.authSessions
  ready : next.authReadySessions = s.authReadySessions

section
omit [AuthCrypto]

theorem AuthState.Keeps.refl : s.Keeps s := ⟨rfl, rfl, rfl⟩

theorem AuthState.Keeps.trans {m next : AuthState} (h : s.Keeps m) (h' : m.Keeps next) : s.Keeps next :=
  ⟨h'.slots.trans h.slots, h'.sessions.trans h.sessions, h'.ready.trans h.ready⟩

end

/-- A step that concerns one session is judged there. -/
theorem Fits.at_session (h : Fits w) {heard : RelaySessionKey → List AuthNote} (session : RelaySessionKey)
    (hS : s.slotToRelay = w.state.slotToRelay)
    (hX : ∀ o, o ≠ session → s.authSessions[o]? = w.state.authSessions[o]? ∧
      s.authReadySessions[o]? = w.state.authReadySessions[o]? ∧ (w.heard o).Sublist (heard o))
    (hH : SessionFits session (heard session) s.authSessions[session]? s.authReadySessions[session]?) :
    Fits { state := s, heard := heard } := by
  refine ⟨fun o => ?_, by rw [hS]; exact h.slots⟩
  by_cases hE : o = session
  · exact hE ▸ hH
  obtain ⟨hState, hR, hB⟩ := hX o hE
  simp only [hState, hR]
  exact (h.sessions o).mono hB

/-- Nothing happens but that something is heard. -/
theorem Fits.quiet (h : Fits w) {heard : RelaySessionKey → List AuthNote} (hK : w.state.Keeps s)
    (hH : ∀ o, (w.heard o).Sublist (heard o)) : Fits { state := s, heard := heard } :=
  ⟨fun o => by simp only [hK.sessions, hK.ready]; exact (h.sessions o).mono (hH o),
    by rw [hK.slots]; exact h.slots⟩

variable {next : AuthSessionState}

/-- A session goes on to a phase that is not ready. -/
theorem Fits.goes_on (h : Fits w)
    (hState : w.state.authSessions[session]? = some state) (hW : AuthState.isReady state.phase = false)
    (hK : w.state.Keeps s) (hE : next.epoch = state.epoch)
    (hN : AuthState.isReady next.phase = false) (hB : Backed (notesOf msg effects ++ w.heard session) next) :
    Fits (w.after msg (s.setSession session next, effects)) := by
  have hF := h.sessions session
  rw [hState] at hF
  have hI : (s.setSession session next).authSessions = w.state.authSessions.insert session next := by
    rw [← hK.sessions]; rfl
  refine h.at_session session hK.slots (fun o hn => ?_) ?_
  · exact ⟨by rw [hI, get_insert, if_neg hn.symm], congrArg (·[o]?) hK.ready,
      sublist_append_right _ _⟩
  rw [hI, show (s.setSession session next).authReadySessions = _ from hK.ready, get_insert, if_pos rfl]
  refine ⟨?_, fun st hs => ?_, fun st hs => ?_⟩
  · rw [hF.ready]
    simp [readyOn, hW, hN]
  · cases hs
    rw [hE]
    exact hF.own state rfl
  · cases hs
    exact hB

/-- Readiness and the state of a session go, and it may get a new state that is not ready. -/
theorem Fits.starts_over (h : Fits w) {s : AuthState} {heard : RelaySessionKey → List AuthNote}
    (hS : s.slotToRelay = w.state.slotToRelay)
    (hE : ∀ o, o ≠ session → s.authSessions[o]? = w.state.authSessions[o]?)
    (hR : s.authReadySessions = w.state.authReadySessions.erase session)
    (hH : ∀ o, o ≠ session → (w.heard o).Sublist (heard o))
    (hN : ∀ st ∈ s.authSessions[session]?, (st.epoch.session = session ∧ session.2.isSome = true) ∧
      AuthState.isReady st.phase = false ∧ Backed (heard session) st) : Fits { state := s, heard := heard } := by
  refine h.at_session session hS (fun o hn => ⟨hE o hn, ?_, hH o hn⟩) ⟨?_, ?_, ?_⟩
  · rw [hR, get_erase, if_neg hn.symm]
  · rw [hR, get_erase, if_pos rfl]
    cases hA : s.authSessions[session]? with
    | none => rfl
    | some st => simp [readyOn, (hN st hA).2.1]
  · exact fun st hs => (hN st hs).1
  · exact fun st hs => (hN st hs).2.2

omit [AuthCrypto] in
theorem epoch_of_exact (hE : s.exactCurrentAuthEpoch epoch = true)
    (hState : s.authSessions[epoch.session]? = some st) : st.epoch = epoch ∧ s.occupies epoch.handle epoch.session = true := by
  simp only [AuthState.exactCurrentAuthEpoch, and_eq_true, hState, any_some, decide_eq_true_eq] at hE
  exact ⟨hE.2, hE.1.2⟩

/-- A session becomes ready on the handle of its epoch. -/
theorem Fits.gets_ready (h : Fits w)
    (hState : w.state.authSessions[session]? = some state) (hS : s.slotToRelay = w.state.slotToRelay)
    (hE : s.authSessions = w.state.authSessions.insert session { state with phase := .ready eid })
    (hR : s.authReadySessions = w.state.authReadySessions.insert session state.epoch.handle)
    (hB : Backed (news ++ w.heard session) { state with phase := .ready eid }) :
    Fits { state := s, heard := fun o => news ++ w.heard o } := by
  refine h.at_session session hS (fun o hN => ?_) ?_
  · exact ⟨by rw [hE, get_insert, if_neg hN.symm], by rw [hR, get_insert, if_neg hN.symm],
      sublist_append_right news _⟩
  rw [hE, hR, get_insert, if_pos rfl, get_insert, if_pos rfl]
  refine ⟨rfl, fun st hs => ?_, fun st hs => ?_⟩
  · cases hs
    exact (h.sessions session).own state hState
  · cases hs
    exact hB

theorem Fits.unchanged (h : Fits w) (ms : AuthMessage) : Fits (w.after ms (w.state, [])) :=
  h.quiet ⟨rfl, rfl, rfl⟩ fun _ => sublist_append_right _ _

omit [AuthCrypto] in
theorem mintAuthOperation_spec {next : AuthState}
    (hM : s.mintAuthOperation epoch = (minted, next)) : s.Keeps next ∧ ∀ tk ∈ minted, tk.epoch = epoch := by
  cases hM
  refine ⟨⟨rfl, rfl, rfl⟩, fun tk hT => ?_⟩
  obtain ⟨sq, _, rfl⟩ := map_eq_some_iff.1 hT
  rfl

/-- The phase ends in a refusal or an error. -/
theorem Fits.ends (h : Fits w) (ms : AuthMessage)
    (hState : w.state.authSessions[session]? = some st) (hW : AuthState.isReady st.phase = false)
    (hK : w.state.Keeps s) (hP : phase = .error ∨ ∃ sr reason, phase = .denied sr reason) :
    Fits (w.after ms (s.setPhase session st phase, [])) := by
  refine h.goes_on hState hW hK rfl ?_ ?_
  · rcases hP with rfl | ⟨sr, reason, rfl⟩ <;> rfl
  · rcases hP with rfl | ⟨sr, reason, rfl⟩ <;> trivial

theorem Fits.policyCompleted (h : Fits w) (token : AuthOpToken) (is : Option AuthCapabilityInstance)
    (o : AuthPolicyOutcome) : Fits (w.after (.policyCompleted token is o)
      (w.state.onAuthPolicyCompleted token is o)) := by
  unfold AuthState.onAuthPolicyCompleted
  dsimp only
  split
  · exact h.unchanged _
  rename_i st hState
  split
  · exact h.unchanged _
  rename_i hG
  simp only [or_eq_true, not_or, not_eq_true', Bool.not_eq_false, decide_eq_true_eq, not_not, ne_eq,
    Bool.or_eq_false_iff] at hG
  obtain ⟨⟨hE, hP⟩, hI⟩ := hG
  have hW : AuthState.isReady st.phase = false := by rw [hP]; rfl
  have ho := (h.sessions _).own st hState
  have hB := (h.sessions _).backed st hState
  simp only [Backed, hP] at hB
  obtain ⟨hT, hc, hS, hN⟩ := hB
  split
  · split
    · next hn => rw [ho.1] at hn; simp [hn] at ho
    · exact h.ends _ hState hW .refl (.inl rfl)
    rename_i pb createdAt hp hC
    split
    · next hM =>
      obtain ⟨hK, _⟩ := mintAuthOperation_spec hM
      exact h.ends _ hState hW hK (.inl rfl)
    next sg next hM =>
    obtain ⟨hK, he⟩ := mintAuthOperation_spec hM
    have hb : is.isSome = true ∧ is = st.policyInstance := by simpa using hI
    obtain ⟨policy, rfl⟩ := isSome_iff_exists.1 hb.1
    refine h.goes_on hState hW hK rfl rfl ?_
    refine ⟨he sg rfl, hc, ⟨pb, createdAt, hp, rfl⟩, token, policy, hT, rfl, ?_⟩
    rw [← hb.2] at hN
    simp only [hS]
    exact (List.Sublist.cons_cons _ hN).cons _
  · exact h.ends _ hState hW .refl (.inr ⟨_, _, rfl⟩)
  · exact h.ends _ hState hW .refl (.inl rfl)

theorem Fits.signerCompleted (h : Fits w) (tk : AuthOpToken) (is : Option AuthCapabilityInstance)
    (o : AuthSignerOutcome) : Fits (w.after (.signerCompleted tk is o)
      (w.state.onAuthSignerCompleted tk is o)) := by
  unfold AuthState.onAuthSignerCompleted
  dsimp only
  split
  · exact h.unchanged _
  rename_i st hState
  split
  case h_2 => exact h.unchanged _
  rename_i current un hP
  split
  · exact h.unchanged _
  rename_i hG
  simp only [or_eq_true, not_or, not_eq_true', Bool.not_eq_false, decide_eq_true_eq, not_not, ne_eq,
    Bool.or_eq_false_iff] at hG
  obtain ⟨⟨hE, rfl⟩, hI⟩ := hG
  have hW : AuthState.isReady st.phase = false := by rw [hP]; rfl
  have hb := (h.sessions _).backed st hState
  simp only [Backed, hP] at hb
  obtain ⟨hT, hC, ⟨pubkey, createdAt, hu, hU⟩, policyToken, policy, hp, hO, hN⟩ := hb
  split
  · split
    · next event hm =>
      split
      · next hM =>
        obtain ⟨hK, _⟩ := mintAuthOperation_spec hM
        exact h.ends _ hState hW hK (.inl rfl)
      next sn next hM =>
      obtain ⟨hK, he⟩ := mintAuthOperation_spec hM
      have hB : is.isSome = true ∧ is = st.signerInstance := by simpa using hI
      obtain ⟨signer, rfl⟩ := isSome_iff_exists.1 hB.1
      refine h.goes_on hState hW hK rfl rfl ?_
      rw [← hB.2] at hN
      refine ⟨⟨st.epoch, st.challenge, policyToken, policy, current, signer, event, sn⟩,
        ⟨rfl, hC, hp, hT, he sn rfl, hO, hB.2.symm, rfl, pubkey, createdAt, hu, ?_⟩,
        rfl, (List.Sublist.cons_cons _ hN).cons_cons _⟩
      rw [← hU]
      exact hm
    · exact h.ends _ hState hW .refl (.inl rfl)
  · exact h.ends _ hState hW .refl (.inr ⟨_, _, rfl⟩)
  · exact h.ends _ hState hW .refl (.inl rfl)

theorem Fits.bound (h : Fits w) (tk : AuthOpToken) (c : AuthCapability) (is : AuthCapabilityInstance) :
    Fits (w.after (.bound tk c is) (w.state.onAuthCapabilityBound tk c is, [])) := by
  unfold AuthState.onAuthCapabilityBound
  dsimp only
  split
  · exact h.unchanged _
  rename_i st hState
  have hB := (h.sessions _).backed st hState
  split
  · exact h.unchanged _
  split
  · next cr hH =>
    split
    · next hF =>
      obtain ⟨rfl, hF⟩ := hF
      simp only [Backed, hH, hF] at hB
      obtain ⟨hT, hC, hS, hN⟩ := hB
      refine h.goes_on hState (by rw [hH]; rfl) .refl rfl (by simp only [hH]; rfl) ?_
      simp only [Backed, hH]
      exact ⟨hT, hC, hS, List.Sublist.cons_cons _ hN⟩
    · exact h.unchanged _
  · next cr un hH =>
    split
    · next hF =>
      obtain ⟨rfl, hF⟩ := hF
      simp only [Backed, hH, hF] at hB
      obtain ⟨hT, hC, ht, policyToken, policy, hP, hp, hN⟩ := hB
      refine h.goes_on hState (by rw [hH]; rfl) .refl rfl (by simp only [hH]; rfl) ?_
      simp only [Backed, hH]
      exact ⟨hT, hC, ht, policyToken, policy, hP, hp, List.Sublist.cons_cons _ hN⟩
    · exact h.unchanged _
  · exact h.unchanged _

/-- The answer `true` makes the session ready if the course is complete. -/
theorem Fits.finishes (h : Fits w) (ms : AuthMessage)
    (hState : w.state.authSessions[session]? = some st) (hW : AuthState.isReady st.phase = false)
    (hB : status = true → ∀ ef : List AuthEffect,
      Backed (notesOf ms ef ++ w.heard session) { st with phase := .ready eid }) :
    Fits (w.after ms (w.state.finishAuthOk session st eid status text)) := by
  cases status with
  | false => exact h.ends _ hState hW .refl (.inr ⟨_, _, rfl⟩)
  | true => exact h.gets_ready hState rfl rfl rfl (hB rfl _)

omit [AuthCrypto] in
theorem cons_sublist_notes (ef : List AuthEffect)
    (h : notes.Sublist heard) : (AuthNote.got msg :: notes).Sublist (notesOf msg ef ++ heard) := by
  rw [notesOf, append_assoc]
  exact (List.Sublist.cons_cons _ h).trans (sublist_append_right _ _)

theorem Fits.sendCompleted (h : Fits w) (hd : RelayHandle) (session : RelaySessionKey) (op : Nat)
    (o : AuthSendOutcome) : Fits (w.after (.sendCompleted hd session op o)
      (w.state.onAuthSendCompleted hd session op o)) := by
  unfold AuthState.onAuthSendCompleted
  split
  · exact h.unchanged _
  rename_i st hState
  split
  case h_2 => exact h.unchanged _
  rename_i tk ed er hP
  split
  · exact h.unchanged _
  rename_i hG
  simp only [not_or, not_not] at hG
  obtain ⟨rfl, rfl, rfl, _⟩ := hG
  have hW : AuthState.isReady st.phase = false := by rw [hP]; rfl
  have hB := (h.sessions _).backed st hState
  simp only [Backed, hP] at hB
  obtain ⟨c, hV, rfl, hN⟩ := hB
  have hA : c.accepted = .got (.sendCompleted c.sendToken.epoch.handle c.sendToken.epoch.session c.sendToken.sequence .accepted) := by
    rw [AuthCourse.accepted, hV.sendToken]
  split
  · next stt text =>
    refine h.finishes _ hState hW fun hT ef => ⟨c, text, { hV with }, .inr ?_⟩
    subst hT
    rw [hA]
    exact cons_sublist_notes ef hN
  · refine h.goes_on hState hW .refl rfl rfl ⟨c, { hV with }, ?_⟩
    rw [hA]
    exact List.Sublist.cons_cons _ hN
  · exact h.ends _ hState hW .refl (.inl rfl)

/-- The connected relay is the one of the epoch: a session has one slot. -/
theorem Fits.handle_of_epoch (h : Fits w) (hH : w.state.occupies hd session = true)
    (hState : w.state.authSessions[session]? = some st) (hE : w.state.exactCurrentAuthEpoch st.epoch = true) :
    hd = st.epoch.handle := by
  have ho := ((h.sessions session).own st hState).1
  have he := (epoch_of_exact hE (ho ▸ hState)).2
  simp only [AuthState.occupies, decide_eq_true_eq] at hH he
  have hS := h.slots _ _ _ _ hH he ho.symm
  rw [hS, he] at hH
  exact (congrArg Prod.fst (Option.some.inj hH)).symm

theorem Fits.ok (h : Fits w) (hH : w.state.occupies hd session = true) (ed : EventId)
    (stt : Bool) (text : String) :
    Fits (w.after (.ok hd session ed stt text) (w.state.onAuthOk session ed stt text)) := by
  unfold AuthState.onAuthOk
  split
  · exact h.unchanged _
  rename_i st hState
  split
  · exact h.unchanged _
  rename_i hE
  obtain rfl := h.handle_of_epoch hH hState (by simpa using hE)
  have ho := ((h.sessions session).own st hState).1
  have hB := (h.sessions _).backed st hState
  have hA : ∀ c : AuthCourse, c.Valid st ed →
      c.answered stt text = .got (.ok st.epoch.handle session ed stt text) := fun c hV => by
    rw [AuthCourse.answered, hV.epoch, hV.eventId, ho]
  split
  · next cr hP =>
    split
    · next hC =>
      subst hC
      simp only [Backed, hP] at hB
      obtain ⟨c, hV, hN⟩ := hB
      refine h.finishes _ hState (by rw [hP]; rfl) fun hT ef => ⟨c, text, { hV with }, .inl ?_⟩
      rw [← hT, hA c hV]
      exact cons_sublist_notes ef hN
    · exact h.unchanged _
  · next tk cr er hP =>
    split
    · next hC =>
      obtain ⟨rfl, rfl⟩ := hC
      simp only [Backed, hP] at hB
      obtain ⟨c, hV, ht, hN⟩ := hB
      refine h.goes_on hState (by rw [hP]; rfl) .refl rfl rfl ⟨c, { hV with }, ht, ?_⟩
      simp only [map_some, Option.toList_some, hA c hV]
      exact List.Sublist.cons_cons _ hN
    · exact h.unchanged _
  · exact h.unchanged _

omit [AuthCrypto] in
theorem mintAuthEpoch_spec {next : AuthState}
    (hM : s.mintAuthEpoch hd session = (minted, next)) :
    s.Keeps next ∧ ∀ ep ∈ minted, ep.handle = hd ∧ ep.session = session := by
  cases hM
  refine ⟨⟨rfl, rfl, rfl⟩, fun ep hE => ?_⟩
  obtain ⟨sq, _, rfl⟩ := map_eq_some_iff.1 hE
  exact ⟨rfl, rfl⟩

/-- The session loses its readiness and gets a new state. -/
theorem Fits.renews (h : Fits w) {heard : RelaySessionKey → List AuthNote}
    (hK : (w.state.invalidateAuthEpoch session).Keeps s)
    (hH : ∀ o, o ≠ session → (w.heard o).Sublist (heard o)) (hP : session.2.isSome = true)
    (ho : next.epoch.session = session) (hn : AuthState.isReady next.phase = false) (hB : Backed (heard session) next) :
    Fits { state := s.setSession session next, heard := heard } := by
  refine @Fits.starts_over _ w session h _ heard hK.slots (fun o hN => ?_) hK.ready hH fun st hs => ?_
  · show (s.authSessions.insert session next)[o]? = _
    rw [get_insert, if_neg hN.symm, hK.sessions]
    exact (get_erase ..).trans (if_neg hN.symm)
  have hA : (s.authSessions.insert session next)[session]? = some st := hs
  rw [get_insert, if_pos rfl] at hA
  cases hA
  exact ⟨⟨ho, hP⟩, hn, hB⟩

theorem Fits.restricted (h : Fits w) (hd : RelayHandle) (session : RelaySessionKey) (tx : String) :
    Fits (w.after (.restricted hd session tx) (w.state.onAuthRestricted hd session tx)) := by
  unfold AuthState.onAuthRestricted
  split
  case h_2 => exact h.unchanged _
  rename_i st hState
  split
  case isFalse => exact h.unchanged _
  have ho := (h.sessions session).own st hState
  cases hM : (w.state.invalidateAuthEpoch session).mintAuthEpoch hd session with
  | mk mn next =>
    obtain ⟨hK, hE⟩ := mintAuthEpoch_spec hM
    refine h.renews hK (fun _ _ => sublist_append_right _ _) ho.2 ?_ rfl trivial
    cases mn with
    | none => exact ho.1
    | some ep => exact (hE ep rfl).2

theorem Fits.challenge (h : Fits w) (hh : w.state.occupies hd session = true) (ch : String) :
    Fits (w.receive (.challenge hd session ch)) := by
  have hB : ∀ o, o ≠ session → w.state.begins (.challenge hd session ch) o = false := fun o hN => by
    simp [AuthState.begins, Ne.symm hN]
  have hH : ∀ o, o ≠ session → (w.heard o).Sublist ((w.receive (.challenge hd session ch)).heard o) :=
    fun o hN => by
      simp only [AuthWorld.receive, hB o hN]
      exact sublist_append_right _ _
  have hG : [AuthNote.got (.challenge hd session ch)].Sublist
      ((w.receive (.challenge hd session ch)).heard session) :=
    List.singleton_sublist.2 (by simp [AuthWorld.receive, notesOf])
  have hR : (w.receive (.challenge hd session ch)).state = (w.state.onAuthChallenge hd session ch).1 := by
    simp [AuthWorld.receive, AuthState.onMessage, hh]
  suffices hA : ∀ hr : RelaySessionKey → List AuthNote, (∀ o, o ≠ session → (w.heard o).Sublist (hr o)) →
      [AuthNote.got (.challenge hd session ch)].Sublist (hr session) →
      Fits ⟨(w.state.onAuthChallenge hd session ch).1, hr⟩ by
    have hF := hA _ hH hG
    rw [← hR] at hF
    exact hF
  intro hr hH hG
  unfold AuthState.onAuthChallenge
  split
  · next hp =>
    refine h.at_session session rfl (fun o hN => ⟨rfl, rfl, hH o hN⟩) ?_
    have hF := h.sessions session
    refine ⟨hF.ready, hF.own, fun st hs => ?_⟩
    have hS := (hF.own st hs).2
    simp [isNone_iff_eq_none.1 hp] at hS
  rename_i hP
  have hP : session.2.isSome = true := by simpa [isSome_iff_ne_none] using hP
  split
  · next next hM =>
    obtain ⟨hK, _⟩ := mintAuthEpoch_spec hM
    refine h.renews hK hH hP ?_ rfl trivial
    cases hv : w.state.authSessions[session]? with
    | none => rfl
    | some stt => exact ((h.sessions session).own stt hv).1
  next ep next hM =>
  obtain ⟨hK, hE⟩ := mintAuthEpoch_spec hM
  have ho := (hE ep rfl).2
  split
  · exact h.renews hK hH hP ho rfl trivial
  rename_i hf
  split
  · next hM' =>
    obtain ⟨hK', _⟩ := mintAuthOperation_spec hM'
    exact h.renews (hK.trans hK') hH hP ho rfl trivial
  next tk last hM' =>
  obtain ⟨hK', hT⟩ := mintAuthOperation_spec hM'
  refine h.renews (hK.trans hK') hH hP ho rfl ?_
  refine ⟨hT tk rfl, hf, rfl, ?_⟩
  obtain ⟨rfl, rfl⟩ := hE ep rfl
  exact hG

theorem Fits.invalidated (h : Fits w) (pb : PublicKey) (c : AuthCapability) (is : AuthCapabilityInstance) :
    Fits (w.after (.invalidated pb c is)
      (w.state.onAuthCapabilityInvalidated pb c is, [])) := by
  refine ⟨fun session => ?_, h.slots⟩
  refine SessionFits.mono ?_ (sublist_append_right _ (w.heard session))
  have hF := h.sessions session
  simp only [AuthWorld.after, AuthState.onAuthCapabilityInvalidated, get_filter, getElem?_map]
  cases hState : w.state.authSessions[session]? with
  | none =>
    rw [hState] at hF
    refine ⟨?_, fun _ hs => by simp at hs, fun _ hs => by simp at hs⟩
    rw [hF.ready]
    rfl
  | some stt =>
    rw [hState] at hF
    by_cases hO : AuthState.owns pb c is session stt
    · simp only [any_some, hO, map_some, if_true]
      refine ⟨by simp [readyOn, AuthState.isReady], fun st hs => ?_, fun st hs => ?_⟩
      · cases hs
        exact hF.own stt rfl
      · cases hs
        trivial
    · have hK : w.state.authReadySessions[session]?.filter (fun _ => true) = w.state.authReadySessions[session]? := by
        cases w.state.authReadySessions[session]? <;> rfl
      simpa [hO, hK] using hF

/-- The session is gone, and only it. -/
theorem Fits.leaves (h : Fits w) (session : RelaySessionKey) (cn : ExtTreeSet RelaySessionKey) :
    Fits { w with state := { w.state.invalidateAuthEpoch session with connectedRelays := cn } } := by
  refine @Fits.starts_over _ w session h _ w.heard rfl (fun o hN => ?_) rfl (fun _ _ => .refl _) fun st hs => ?_
  · exact (get_erase ..).trans (if_neg hN.symm)
  · have hG : (w.state.authSessions.erase session)[session]? = some st := hs
    simp at hG

theorem Fits.disconnected (h : Fits w) (hd : RelayHandle) (session : RelaySessionKey) :
    Fits (w.after (.disconnected hd session) (w.state.onRelayDisconnected hd session, [])) := by
  unfold AuthState.onRelayDisconnected
  split
  · exact (h.leaves session _).unchanged _
  · exact h.unchanged _

/-- A slot gets a session that has no other. -/
theorem Fits.seats (h : Fits w) (hd : RelayHandle) (session : RelaySessionKey) (cn : ExtTreeSet RelaySessionKey)
    (ho : ∀ (sl : Nat) (e : RelayHandle × RelaySessionKey), w.state.slotToRelay[sl]? = some e → e.2 = session →
      sl = hd.slot) :
    Fits { w with state := { w.state with
      slotToRelay := w.state.slotToRelay.insert hd.slot (hd, session), connectedRelays := cn } } := by
  refine ⟨h.sessions, fun a b x y hx hy hS => ?_⟩
  simp only [get_insert] at hx hy
  split at hx <;> split at hy
  · omega
  · cases hx
    have := ho b y hy hS.symm
    omega
  · cases hy
    have := ho a x hx hS
    omega
  · exact h.slots a b x y hx hy hS

theorem Fits.displaces (h : Fits w) (hd : RelayHandle) (session : RelaySessionKey) :
    Fits { w with state := w.state.displaceSlot hd session } ∧
      (w.state.displaceSlot hd session).slotToRelay = w.state.slotToRelay := by
  unfold AuthState.displaceSlot
  split
  · split
    · exact ⟨h.leaves _ _, rfl⟩
    · exact ⟨h, rfl⟩
  · exact ⟨h, rfl⟩

theorem Fits.restarts (h : Fits w) (session : RelaySessionKey) : Fits { w with state := w.state.restartAuth session } ∧
    (w.state.restartAuth session).slotToRelay = w.state.slotToRelay := by
  unfold AuthState.restartAuth
  split
  · exact ⟨h.leaves session _, rfl⟩
  · exact ⟨h, rfl⟩

theorem Fits.connected (h : Fits w) (hd : RelayHandle) (session : RelaySessionKey)
    (ho : w.state.OneSlot (.connected hd session)) :
    Fits (w.after (.connected hd session) (w.state.onRelayConnected hd session, [])) := by
  unfold AuthState.onRelayConnected
  split
  · exact h.unchanged _
  obtain ⟨hD, hS⟩ := h.displaces hd session
  obtain ⟨hR, hS'⟩ := hD.restarts session
  refine (hR.seats hd session _ ?_).unchanged _
  simp only [hS', hS]
  exact ho

theorem Fits.receive (h : Fits w) (ms : AuthMessage) (ho : w.state.OneSlot ms) : Fits (w.receive ms) := by
  cases ms with
  | tick cl => exact h.quiet ⟨rfl, rfl, rfl⟩ fun _ => sublist_append_right _ _
  | notHandedOff session => exact h.quiet ⟨rfl, rfl, rfl⟩ fun _ => sublist_append_right _ _
  | challenge hd session challenge =>
    by_cases hH : w.state.occupies hd session = true
    · exact h.challenge hH challenge
    · refine h.quiet ⟨?_, ?_, ?_⟩ fun _ => ?_ <;> simp [AuthState.onMessage, AuthState.begins, hH]
  | restricted hd session tx =>
    show Fits (w.after _ (if _ then _ else _))
    split
    · exact h.restricted hd session tx
    · exact h.unchanged _
  | ok hd session ed st tx =>
    show Fits (w.after _ (if _ then _ else _))
    split
    · next hH => exact h.ok hH ed st tx
    · exact h.unchanged _
  | policyCompleted tk is o => exact h.policyCompleted tk is o
  | signerCompleted tk is o => exact h.signerCompleted tk is o
  | bound tk c is => exact h.bound tk c is
  | sendCompleted hd session op o => exact h.sendCompleted hd session op o
  | invalidated pb c is => exact h.invalidated pb c is
  | connected hd session => exact h.connected hd session ho
  | disconnected hd session => exact h.disconnected hd session

theorem AuthWorld.Reached.fits (h : w.Reached) : Fits w := by
  induction h with
  | start =>
    refine ⟨fun session => ⟨?_, fun _ hs => ?_, fun _ hs => ?_⟩, fun a b x y hx _ _ => ?_⟩
    · simp [readyOn]
    · simp at hs
    · simp at hs
    · simp at hx
  | receive ms _ ho ih => exact ih.receive ms ho

/-- The session is asked again, loses its connection or is connected anew, or something that it depends on is invalid. -/
def AuthState.ousts (s : AuthState) (message : AuthMessage) (session : RelaySessionKey) : Bool :=
  match message with
  | .challenge handle asked _ => asked = session && s.occupies handle asked
  | .connected handle asked =>
    !s.isStaleConnect handle && (asked = session || s.slotToRelay[handle.slot]?.any fun entry => entry.2 = session)
  | .disconnected handle asked => asked = session && s.occupies handle asked
  | .invalidated pubkey capability instance_ => s.authSessions[session]?.any (AuthState.owns pubkey capability instance_ session)
  | _ => false

/-- Only a session of a public key is ready. -/
theorem Fits.unready (h : Fits w) (ho : session.2.isSome = false) : w.state.authReadySessions[session]? = none := by
  rw [(h.sessions session).ready]
  cases hState : w.state.authSessions[session]? with
  | none => rfl
  | some st => simp [((h.sessions session).own st hState).2] at ho

section
omit [AuthCrypto]

theorem onAuthChallenge_ready (hd : RelayHandle) (ch : String) (hP : session.2.isSome = true) :
    (s.onAuthChallenge hd session ch).1.authReadySessions = s.authReadySessions.erase session := by
  unfold AuthState.onAuthChallenge
  rw [if_neg (by simpa [isSome_iff_ne_none] using hP)]
  split
  · next hM => exact (mintAuthEpoch_spec hM).1.ready
  next hM =>
  split
  · exact (mintAuthEpoch_spec hM).1.ready
  split
  · next hM' => exact ((mintAuthEpoch_spec hM).1.trans (mintAuthOperation_spec hM').1).ready
  · next hM' => exact ((mintAuthEpoch_spec hM).1.trans (mintAuthOperation_spec hM').1).ready

theorem restartAuth_ready (s : AuthState) (session o : RelaySessionKey) (hG : s.authReadySessions[o]? = none) :
    (s.restartAuth session).authReadySessions[o]? = none := by
  unfold AuthState.restartAuth
  split
  · show (s.authReadySessions.erase session)[o]? = none
    rw [get_erase, hG, ite_self]
  · exact hG

end

theorem Fits.ousted (h : Fits w) (ho : w.state.ousts msg session = true) :
    (w.state.onMessage msg).1.authReadySessions[session]? = none := by
  cases msg with
  | challenge hd as challenge =>
    simp only [AuthState.ousts, and_eq_true, decide_eq_true_eq] at ho
    obtain ⟨rfl, hH⟩ := ho
    simp only [AuthState.onMessage, hH, if_true]
    cases hP : as.2.isSome with
    | true => rw [onAuthChallenge_ready hd challenge hP, get_erase, if_pos rfl]
    | false =>
      rw [AuthState.onAuthChallenge, if_pos (by simpa using hP)]
      exact h.unready hP
  | connected hd as =>
    simp only [AuthState.ousts, and_eq_true, not_eq_true', or_eq_true, decide_eq_true_eq] at ho
    obtain ⟨hF, ho⟩ := ho
    simp only [AuthState.onMessage, AuthState.onRelayConnected, hF, false_eq_true, if_false]
    rcases Classical.em (as = session) with rfl | hN
    · cases hP : as.2.isSome with
      | true =>
        simp only [AuthState.restartAuth, hP, if_true]
        show ((w.state.displaceSlot hd as).authReadySessions.erase as)[as]? = none
        rw [get_erase, if_pos rfl]
      | false => exact restartAuth_ready _ _ _ ((h.displaces hd as).1.unready hP)
    refine restartAuth_ready _ _ _ ?_
    have ho := ho.resolve_left hN
    cases hE : w.state.slotToRelay[hd.slot]? with
    | none => simp [hE] at ho
    | some e =>
      obtain ⟨_, ds⟩ := e
      obtain rfl : ds = session := by simpa [hE] using ho
      simp only [AuthState.displaceSlot, hE, ne_eq, Ne.symm hN, not_false_eq_true, if_true]
      show (w.state.authReadySessions.erase ds)[ds]? = none
      rw [get_erase, if_pos rfl]
  | disconnected hd as =>
    simp only [AuthState.ousts, and_eq_true, decide_eq_true_eq] at ho
    obtain ⟨rfl, hH⟩ := ho
    simp only [AuthState.onMessage, AuthState.onRelayDisconnected, hH, if_true]
    show (w.state.authReadySessions.erase as)[as]? = none
    rw [get_erase, if_pos rfl]
  | invalidated pb c is =>
    have hw : w.state.authSessions[session]?.any (AuthState.owns pb c is session) = true := ho
    simp [AuthState.onMessage, AuthState.onAuthCapabilityInvalidated, hw]
  | _ => simp [AuthState.ousts] at ho

end

/-- A session is ready on a handle if and only if its state is ready in an epoch of the handle. It gets there only if in this
epoch a challenge came, the bound policy allowed it, the bound signer signed the answer, and the answer was sent; the
transport has accepted it and the relay has answered `true`, in one order or the other. A new challenge, a new or a lost
connection and the invalidation of a bound capability end it. -/
theorem authReady_earned [AuthCrypto] {w : AuthWorld} (h : w.Reached) (session : RelaySessionKey) :
    (∀ handle, w.state.authReadySessions[session]? = some handle ↔
      ∃ state eventId, w.state.authSessions[session]? = some state ∧ state.phase = .ready eventId ∧ state.epoch.handle = handle) ∧
    (∀ state eventId, w.state.authSessions[session]? = some state → state.phase = .ready eventId →
      state.epoch.session = session ∧ ∃ (c : AuthCourse) (message : String), c.Valid state eventId ∧
        ((c.answered true message :: c.accepted :: c.sentNotes).Sublist (w.heard session) ∨
          (c.accepted :: c.answered true message :: c.sentNotes).Sublist (w.heard session))) ∧
    ∀ message, w.state.ousts message session = true → (w.receive message).state.authReadySessions[session]? = none := by
  have hF := h.fits.sessions session
  refine ⟨fun handle => ?_, fun state eventId hState hP => ⟨(hF.own state hState).1, ?_⟩, fun message => h.fits.ousted⟩
  · rw [hF.ready]
    constructor
    · intro hR
      obtain ⟨state, hState, hR⟩ := bind_eq_some_iff.1 hR
      refine ⟨state, ?_⟩
      cases hP : state.phase with
      | ready eventId =>
        rw [hP] at hR
        exact ⟨eventId, hState, rfl, Option.some.inj hR⟩
      | _ => simp [hP, AuthState.isReady] at hR
    · rintro ⟨state, eventId, hState, hP, rfl⟩
      simp [readyOn, hState, hP, AuthState.isReady]
  · have hB := hF.backed state hState
    simp only [Backed, hP] at hB
    exact hB

@[reducible]
def oneEventCrypto : AuthCrypto := ⟨fun _ => 5, fun _ => true⟩

def readyHandle : RelayHandle := ⟨0, 1⟩

def readySession : RelaySessionKey := ("wss://r", some 7)

def authRun (answers : List AuthMessage) : List AuthMessage :=
  let epoch : AuthEpoch := ⟨readyHandle, readySession, 1⟩
  [.connected readyHandle readySession, .challenge readyHandle readySession "c", .bound ⟨epoch, 1⟩ .policy 1,
    .policyCompleted ⟨epoch, 1⟩ (some 1) .allow, .bound ⟨epoch, 2⟩ .signer 2,
    .signerCompleted ⟨epoch, 2⟩ (some 2) (.signed ⟨authTemplate "c" "wss://r" 7 0, 5, 0⟩)] ++ answers

def sendAccepted : AuthMessage := .sendCompleted readyHandle readySession 3 .accepted

def answeredTrue : AuthMessage := .ok readyHandle readySession 5 true ""

theorem authRun_reached (first sc : AuthMessage) (hF : ∀ s : AuthState, s.OneSlot first)
    (hS : ∀ s : AuthState, s.OneSlot sc) :
    @AuthWorld.Reached oneEventCrypto ((authRun [first, sc]).foldl (@AuthWorld.receive oneEventCrypto) {}) := by
  let _ := oneEventCrypto
  refine .receive _ (.receive _ (.receive _ (.receive _ (.receive _ (.receive _ (.receive _ (.receive _ .start ?_)
    (by exact trivial)) (by exact trivial)) (by exact trivial)) (by exact trivial)) (by exact trivial)) (hF _)) (hS _)
  intro sl e hE
  simp at hE

/-- The relay may answer before the transport has reported that the event is sent: the session is ready, and no answer
follows the acceptance. -/
theorem authReady_answered_first :
    let w := (authRun [answeredTrue, sendAccepted]).foldl (@AuthWorld.receive oneEventCrypto) {}
    @AuthWorld.Reached oneEventCrypto w ∧ w.state.authReadySessions[readySession]? = some readyHandle ∧
      ∀ (c : AuthCourse) (message : String),
        ¬(c.answered true message :: c.accepted :: c.sentNotes).Sublist (w.heard readySession) := by
  intro w
  refine ⟨authRun_reached _ _ (fun _ => trivial) (fun _ => trivial), by decide +kernel, fun c message hS => ?_⟩
  have hH : w.heard readySession = .gave (.releaseInitialRead readyHandle) :: .got sendAccepted ::
      (w.heard readySession).drop 2 := by decide +kernel
  have hB : ((w.heard readySession).drop 2).all (fun nt => match nt with
      | .got (.sendCompleted ..) => false
      | _ => true) = true := by decide +kernel
  rw [hH] at hS
  -- the answer is neither of the two newest notes, so the acceptance would be older than them
  simp only [AuthCourse.answered, sendAccepted, List.cons_sublist_cons', reduceCtorEq, false_and, or_false,
    AuthNote.got.injEq] at hS
  have ho := hS.subset (.tail _ (.head _))
  simpa [AuthCourse.accepted] using all_eq_true.1 hB _ ho

theorem authReady_earned_answered :
    let w := (authRun [sendAccepted, answeredTrue]).foldl (@AuthWorld.receive oneEventCrypto) {}
    w.state.authReadySessions[readySession]? = some readyHandle ∧
      (∃ state eventId, w.state.authSessions[readySession]? = some state ∧ state.phase = .ready eventId ∧
        state.epoch.handle = readyHandle) ∧
      (@AuthWorld.receive oneEventCrypto w (.disconnected readyHandle readySession)).state.authReadySessions[readySession]? = none := by
  intro w
  have hR : w.state.authReadySessions[readySession]? = some readyHandle := by decide +kernel
  have hE := @authReady_earned oneEventCrypto w (authRun_reached _ _ (fun _ => trivial) (fun _ => trivial)) readySession
  exact ⟨hR, (hE.1 readyHandle).1 hR, hE.2.2 _ (by decide +kernel)⟩

end NmpStore.Engine
