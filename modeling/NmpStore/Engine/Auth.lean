import NmpStore.Coverage.Interval

/-! # Authentication of relay sessions

A relay asks a session to authenticate by a challenge, and the session is ready once its answer is accepted.
-/

namespace NmpStore.Engine

structure RelayHandle where
  slot : Nat
  generation : Nat
  deriving DecidableEq

structure AuthEpoch where
  handle : RelayHandle
  session : RelaySessionKey
  sequence : Nat
  deriving DecidableEq

structure AuthOpToken where
  epoch : AuthEpoch
  sequence : Nat
  deriving DecidableEq

structure UnsignedAuth where
  pubkey : PublicKey
  createdAt : Nat
  kind : Nat
  tags : List (List String)
  content : String
  deriving DecidableEq

structure SignedAuth extends UnsignedAuth where
  id : EventId
  sig : Signature
  deriving DecidableEq

class AuthCrypto where
  eventId : UnsignedAuth → EventId
  verify : SignedAuth → Bool

def authTemplate (challenge : String) (relay : RelayUrl) (pubkey : PublicKey) (createdAt : Nat) : UnsignedAuth :=
  ⟨pubkey, createdAt, 22242, [["challenge", challenge], ["relay", relay]], ""⟩

def signedAuthMatchesFrozen [AuthCrypto] (unsigned : UnsignedAuth) (signed : SignedAuth) : Bool :=
  AuthCrypto.eventId unsigned = signed.id && unsigned = signed.toUnsignedAuth && AuthCrypto.verify signed

inductive AuthCapability where
  | policy
  | signer
  deriving DecidableEq

abbrev AuthCapabilityInstance := Nat

inductive AuthPolicyOutcome where
  | allow
  | deny (reason : String)
  | unavailable
  | error (reason : String)
  deriving DecidableEq

inductive AuthSignerOutcome where
  | signed (event : SignedAuth)
  | unavailable
  | rejected (reason : String)
  | error (reason : String)
  deriving DecidableEq

inductive AuthSendOutcome where
  | accepted
  | unavailable
  deriving DecidableEq

inductive AuthDenialSource where
  | policy
  | signer
  | relay
  deriving DecidableEq

inductive AuthSessionPhase where
  | awaitingPolicy (token : AuthOpToken)
  | awaitingSignature (token : AuthOpToken) (unsigned : UnsignedAuth)
  | awaitingSend (token : AuthOpToken) (eventId : EventId) (earlyOk : Option (Bool × String))
  | awaitingOk (eventId : EventId)
  | ready (eventId : EventId)
  | denied (source : AuthDenialSource) (reason : String)
  | error
  deriving DecidableEq

structure AuthSessionState where
  epoch : AuthEpoch
  challenge : String
  lastCreatedAt : Option Nat := none
  policyInstance : Option AuthCapabilityInstance := none
  signerInstance : Option AuthCapabilityInstance := none
  phase : AuthSessionPhase
  deriving DecidableEq

inductive AuthEffect where
  | cancel (epoch : AuthEpoch)
  | requestPolicy (token : AuthOpToken) (challenge : String)
  | requestSignature (token : AuthOpToken) (unsigned : UnsignedAuth)
  | send (token : AuthOpToken) (event : SignedAuth)
  | releaseInitialRead (handle : RelayHandle)
  deriving DecidableEq

structure AuthState where
  clock : Nat := 0
  nextAuthEpoch : Option Nat := some 1
  nextAuthOperation : Option Nat := some 1
  slotToRelay : Table Nat (RelayHandle × RelaySessionKey) := ∅
  connectedRelays : ExtTreeSet RelaySessionKey := ∅
  authSessions : Table RelaySessionKey AuthSessionState := ∅
  authReadySessions : Table RelaySessionKey RelayHandle := ∅

inductive AuthMessage where
  | tick (clock : Nat)
  | challenge (handle : RelayHandle) (session : RelaySessionKey) (challenge : String)
  | restricted (handle : RelayHandle) (session : RelaySessionKey) (message : String)
  | ok (handle : RelayHandle) (session : RelaySessionKey) (eventId : EventId) (status : Bool) (message : String)
  | policyCompleted (token : AuthOpToken) (instance_ : Option AuthCapabilityInstance) (outcome : AuthPolicyOutcome)
  | signerCompleted (token : AuthOpToken) (instance_ : Option AuthCapabilityInstance) (outcome : AuthSignerOutcome)
  | bound (token : AuthOpToken) (capability : AuthCapability) (instance_ : AuthCapabilityInstance)
  | sendCompleted (handle : RelayHandle) (session : RelaySessionKey) (operation : Nat) (outcome : AuthSendOutcome)
  | invalidated (pubkey : PublicKey) (capability : AuthCapability) (instance_ : AuthCapabilityInstance)
  | connected (handle : RelayHandle) (session : RelaySessionKey)
  | disconnected (handle : RelayHandle) (session : RelaySessionKey)
  | notHandedOff (session : RelaySessionKey)
  deriving DecidableEq

def mintAuthSequence : Option Nat → Option Nat × Option Nat
  | none => (none, none)
  | some issued => if issued = u64Max then (none, none) else (some issued, some (issued + 1))

def authMaxFutureSecs : Nat := 600

namespace AuthState

variable (s : AuthState) (handle : RelayHandle) (session : RelaySessionKey)

def occupies : Bool :=
  s.slotToRelay[handle.slot]? = some (handle, session)

def exactCurrentAuthEpoch (epoch : AuthEpoch) : Bool :=
  s.connectedRelays.contains epoch.session && s.occupies epoch.handle epoch.session &&
    s.authSessions[epoch.session]?.any fun state => state.epoch = epoch

variable (state : AuthSessionState)

def setSession : AuthState :=
  { s with authSessions := s.authSessions.insert session state }

def setPhase (phase : AuthSessionPhase) : AuthState :=
  s.setSession session { state with phase }

def mintAuthOperation (epoch : AuthEpoch) : Option AuthOpToken × AuthState :=
  let (issued, next) := mintAuthSequence s.nextAuthOperation
  (issued.map fun sequence => ⟨epoch, sequence⟩, { s with nextAuthOperation := next })

def mintAuthEpoch : Option AuthEpoch × AuthState :=
  let (issued, next) := mintAuthSequence s.nextAuthEpoch
  (issued.map fun sequence => ⟨handle, session, sequence⟩, { s with nextAuthEpoch := next })

def invalidateAuthEpoch : AuthState :=
  { s with authReadySessions := s.authReadySessions.erase session, authSessions := s.authSessions.erase session }

def cancels : List AuthEffect :=
  (s.authSessions[session]?.map fun state => AuthEffect.cancel state.epoch).toList

def onAuthChallenge (challenge : String) : AuthState × List AuthEffect :=
  if session.2.isNone then (s, [])
  else
    let previous := s.authSessions[session]?
    let lastCreatedAt := previous.bind (·.lastCreatedAt)
    let cancelled := s.cancels session
    match (s.invalidateAuthEpoch session).mintAuthEpoch handle session with
    | (none, s) =>
      -- the counter is exhausted
      let epoch := (previous.map (·.epoch)).getD ⟨handle, session, u64Max⟩
      (s.setSession session { epoch, challenge, lastCreatedAt, phase := .error }, cancelled)
    | (some epoch, s) =>
      if challenge = "" then (s.setSession session { epoch, challenge, lastCreatedAt, phase := .error }, cancelled)
      else
        match s.mintAuthOperation epoch with
        | (none, s) => (s.setSession session { epoch, challenge, lastCreatedAt, phase := .error }, cancelled)
        | (some token, s) =>
          (s.setSession session { epoch, challenge, lastCreatedAt, phase := .awaitingPolicy token },
            cancelled ++ [.requestPolicy token challenge])

def isReady : AuthSessionPhase → Bool
  | .ready _ => true
  | _ => false

/-- A relay that refuses a request of an authenticated session denies it; otherwise the demand to authenticate stands. -/
def onAuthRestricted (message : String) :
    AuthState × List AuthEffect :=
  match s.authSessions[session]? with
  | some state =>
    if session.2.isSome && isReady state.phase then
      let (minted, next) := (s.invalidateAuthEpoch session).mintAuthEpoch handle session
      (next.setSession session
        { epoch := minted.getD state.epoch, challenge := "", lastCreatedAt := state.lastCreatedAt, phase := .denied .relay message },
        s.cancels session)
    else (s, [])
  | none => (s, [])

def authCreatedAt (clock : Nat) (lastCreatedAt : Option Nat) : Option Nat :=
  let minimum := match lastCreatedAt with
    | some last => if last < u64Max then some (max (last + 1) clock) else none
    | none => some clock
  minimum.filter fun minimum => clock + authMaxFutureSecs ≤ u64Max && minimum ≤ clock + authMaxFutureSecs

variable (token : AuthOpToken)

def onAuthPolicyCompleted (instance_ : Option AuthCapabilityInstance)
    (outcome : AuthPolicyOutcome) : AuthState × List AuthEffect :=
  let session := token.epoch.session
  match s.authSessions[session]? with
  | none => (s, [])
  | some state =>
    let missingCapability := instance_.isNone && state.policyInstance.isNone && outcome = .unavailable
    let exactBound := instance_.isSome && instance_ = state.policyInstance
    if !s.exactCurrentAuthEpoch token.epoch || state.phase ≠ .awaitingPolicy token || !(missingCapability || exactBound) then (s, [])
    else
      match outcome with
      | .allow =>
        match state.epoch.session.2, authCreatedAt s.clock state.lastCreatedAt with
        | none, _ => ({ s with authSessions := s.authSessions.erase session }, [])
        | some _, none => (s.setPhase session state .error, [])
        | some pubkey, some createdAt =>
          let unsigned := authTemplate state.challenge state.epoch.session.1 pubkey createdAt
          match s.mintAuthOperation state.epoch with
          | (none, s) => (s.setPhase session state .error, [])
          | (some signToken, s) =>
            (s.setSession session { state with
              lastCreatedAt := some createdAt, policyInstance := instance_, phase := .awaitingSignature signToken unsigned },
              [.requestSignature signToken unsigned])
      | .deny reason => (s.setPhase session state (.denied .policy reason), [])
      | _ => (s.setPhase session state .error, [])

def onAuthSignerCompleted [AuthCrypto] (s : AuthState) (token : AuthOpToken) (instance_ : Option AuthCapabilityInstance)
    (outcome : AuthSignerOutcome) : AuthState × List AuthEffect :=
  let session := token.epoch.session
  match s.authSessions[session]? with
  | none => (s, [])
  | some state =>
    match state.phase with
    | .awaitingSignature current unsigned =>
      let missingCapability := instance_.isNone && state.signerInstance.isNone && outcome = .unavailable
      let exactBound := instance_.isSome && instance_ = state.signerInstance
      if !s.exactCurrentAuthEpoch token.epoch || current ≠ token || !(missingCapability || exactBound) then (s, [])
      else
        match outcome with
        | .signed event =>
          if signedAuthMatchesFrozen unsigned event then
            match s.mintAuthOperation state.epoch with
            | (none, s) => (s.setPhase session state .error, [])
            | (some sendToken, s) => (s.setPhase session state (.awaitingSend sendToken event.id none), [.send sendToken event])
          else (s.setPhase session state .error, [])
        | .rejected reason => (s.setPhase session state (.denied .signer reason), [])
        | _ => (s.setPhase session state .error, [])
    | _ => (s, [])

def onAuthCapabilityBound (capability : AuthCapability) (instance_ : AuthCapabilityInstance) :
    AuthState :=
  let session := token.epoch.session
  match s.authSessions[session]? with
  | none => s
  | some state =>
    if !s.exactCurrentAuthEpoch token.epoch then s
    else
      match state.phase, capability with
      | .awaitingPolicy current, .policy =>
        if current = token ∧ state.policyInstance = none then s.setSession session { state with policyInstance := some instance_ } else s
      | .awaitingSignature current _, .signer =>
        if current = token ∧ state.signerInstance = none then s.setSession session { state with signerInstance := some instance_ } else s
      | _, _ => s

def finishAuthOk (eventId : EventId) (status : Bool)
    (message : String) : AuthState × List AuthEffect :=
  if status then
    ({ s.setPhase session state (.ready eventId) with
      authReadySessions := s.authReadySessions.insert session state.epoch.handle }, [.releaseInitialRead state.epoch.handle])
  else (s.setPhase session state (.denied .relay message), [])

def onAuthSendCompleted (operation : Nat)
    (outcome : AuthSendOutcome) : AuthState × List AuthEffect :=
  match s.authSessions[session]? with
  | none => (s, [])
  | some state =>
    match state.phase with
    | .awaitingSend token eventId earlyOk =>
      if token.sequence ≠ operation ∨ token.epoch.handle ≠ handle ∨ token.epoch.session ≠ session ∨
          !s.exactCurrentAuthEpoch token.epoch then (s, [])
      else
        match outcome, earlyOk with
        | .accepted, some (status, message) => s.finishAuthOk session state eventId status message
        | .accepted, none => (s.setPhase session state (.awaitingOk eventId), [])
        | .unavailable, _ => (s.setPhase session state .error, [])
    | _ => (s, [])

def onAuthOk (eventId : EventId) (status : Bool) (message : String) :
    AuthState × List AuthEffect :=
  match s.authSessions[session]? with
  | none => (s, [])
  | some state =>
    if !s.exactCurrentAuthEpoch state.epoch then (s, [])
    else
      match state.phase with
      | .awaitingOk current => if current = eventId then s.finishAuthOk session state eventId status message else (s, [])
      | .awaitingSend token current earlyOk =>
        if current = eventId ∧ earlyOk = none then (s.setPhase session state (.awaitingSend token current (some (status, message))), [])
        else (s, [])
      | _ => (s, [])

def owns (pubkey : PublicKey) (capability : AuthCapability) (instance_ : AuthCapabilityInstance) (session : RelaySessionKey)
    (state : AuthSessionState) : Bool :=
  session.2 = some pubkey && match capability with
    | .policy => state.policyInstance = some instance_
    | .signer => state.signerInstance = some instance_

def onAuthCapabilityInvalidated (pubkey : PublicKey) (capability : AuthCapability)
    (instance_ : AuthCapabilityInstance) : AuthState :=
  { s with
    authReadySessions := s.authReadySessions.filter fun session _ =>
      !s.authSessions[session]?.any (owns pubkey capability instance_ session)
    authSessions := s.authSessions.map fun session state =>
      if owns pubkey capability instance_ session state then { state with phase := .error } else state }

def displaceSlot : AuthState :=
  match s.slotToRelay[handle.slot]? with
  | some (_, displaced) =>
    if displaced ≠ session then
      { s.invalidateAuthEpoch displaced with connectedRelays := s.connectedRelays.erase displaced }
    else s
  | none => s

def restartAuth : AuthState :=
  if session.2.isSome then s.invalidateAuthEpoch session else s

def isStaleConnect : Bool :=
  s.slotToRelay[handle.slot]?.any fun entry => handle.generation < entry.1.generation

def onRelayConnected : AuthState :=
  if s.isStaleConnect handle then s
  else
    let s := (s.displaceSlot handle session).restartAuth session
    { s with
      slotToRelay := s.slotToRelay.insert handle.slot (handle, session), connectedRelays := s.connectedRelays.insert session }

def onRelayDisconnected : AuthState :=
  if s.occupies handle session then
    { s.invalidateAuthEpoch session with connectedRelays := s.connectedRelays.erase session }
  else s

def onMessage [AuthCrypto] (s : AuthState) : AuthMessage → AuthState × List AuthEffect
  | .tick clock => ({ s with clock }, [])
  | .challenge handle session challenge => if s.occupies handle session then s.onAuthChallenge handle session challenge else (s, [])
  | .restricted handle session message => if s.occupies handle session then s.onAuthRestricted handle session message else (s, [])
  | .ok handle session eventId status message =>
    if s.occupies handle session then s.onAuthOk session eventId status message else (s, [])
  | .policyCompleted token instance_ outcome => s.onAuthPolicyCompleted token instance_ outcome
  | .signerCompleted token instance_ outcome => s.onAuthSignerCompleted token instance_ outcome
  | .bound token capability instance_ => (s.onAuthCapabilityBound token capability instance_, [])
  | .sendCompleted handle session operation outcome => s.onAuthSendCompleted handle session operation outcome
  | .invalidated pubkey capability instance_ => (s.onAuthCapabilityInvalidated pubkey capability instance_, [])
  | .connected handle session => (s.onRelayConnected handle session, [])
  | .disconnected handle session => (s.onRelayDisconnected handle session, [])
  | .notHandedOff session => ({ s with connectedRelays := s.connectedRelays.erase session }, [])

end AuthState

end NmpStore.Engine
