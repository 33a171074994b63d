import Mathlib.Data.List.Range
import Mathlib.Logic.Function.Basic

/-! # The profile store

What the app shows of the active account, and how it is filled after a launch and after a switch of accounts. A run of
`bootstrap` goes on when the storage, a timer or the ledger answers, each at any later time; a call to the storage takes
effect when it is made, and only its answer is late. What the user edits in the profile is left out. -/

namespace SpiritChat

/-! ### The native side -/

/-- What an identity in the Keychain shows of itself. -/
structure Identity where
  fingerprint : String
  publicKeyBase64 : String
  peerId : String

/-- An account of the switcher. -/
structure AccountSlot where
  slot : ℕ
  fingerprint : String
deriving DecidableEq

/-- The blobs on disk: what `blobReserve` returns while P2P is up, and where a blob lies. -/
class BlobStore where
  reserve : String → Except String Bool
  localPath : String → Option String

/-- The slots that are complete, the node that runs and the avatar pointer that it serves. -/
structure NativeSession where
  slots : ℕ → Option Identity
  activeSlot : ℕ
  node : Option Identity
  avatarPointer : Option (Option String)
  lastStartupError : Option String

namespace NativeSession

def maxSlots : ℕ := 3

/-- `IdentitySession.shared` -/
def identity (n : NativeSession) : Option Identity := n.slots n.activeSlot

def occupiedSlots (n : NativeSession) : List ℕ := (List.range maxSlots).filter fun slot => (n.slots slot).isSome

def accountSlots (n : NativeSession) : List AccountSlot :=
  n.occupiedSlots.map fun slot => ⟨slot, ((n.slots slot).map (·.fingerprint)).getD ""⟩

/-- `P2pSession.shared`, with what starting a node would come to. -/
def shared (n : NativeSession) (spawn : Except String Unit) : NativeSession × Option Identity :=
  match n.node with
  | some node => (n, some node)
  | none =>
    match n.identity with
    | none => (n, none)
    | some identity =>
      match spawn with
      | .ok () => ({ n with node := some identity, lastStartupError := none }, some identity)
      | .error error => ({ n with lastStartupError := some error }, none)

/-- `P2pSession.signOut`; what the node serves goes with it. -/
def signOutP2p (n : NativeSession) : NativeSession := { n with node := none, avatarPointer := none }

/-- `switchAccount`, and whether it returns. -/
def switchAccount (n : NativeSession) (slot : ℕ) : NativeSession × Bool :=
  match n.slots slot with
  | none => (n.signOutP2p, false)
  | some _ => ({ n.signOutP2p with activeSlot := slot }, true)

/-- `removeAccountSlot` -/
def removeAccountSlot (n : NativeSession) (slot : ℕ) : NativeSession :=
  if slot = n.activeSlot then
    let removed := { n.signOutP2p with slots := Function.update n.slots slot none }
    match removed.occupiedSlots with
    | [] => removed
    | fallback :: _ => { removed with activeSlot := fallback }
  else { n with slots := Function.update n.slots slot none }

/-- `publishOwnAvatarPointer`; without a node it does nothing. -/
def publishOwnAvatarPointer (n : NativeSession) (avatarId : Option String) : NativeSession :=
  match n.node with
  | none => n
  | some _ => { n with avatarPointer := some avatarId }

end NativeSession

/-! ### The store -/

/-- What the storage has under the four keys of a fingerprint. -/
structure StoredProfile where
  displayName : Option String
  bio : Option String
  avatarId : Option String
  username : Option String
deriving DecidableEq

/-- `ProfileState` -/
structure Profile where
  isReady : Bool
  fingerprint : String
  publicKey : String
  peerId : String
  p2pStartupError : Option String
  displayName : String
  bio : String
  avatarId : Option String
  avatarLocalPath : Option String
  username : Option String
  accounts : List AccountSlot
  activeSlot : ℕ

/-- The state before onboarding. -/
def Profile.empty : Profile := ⟨false, "", "", "", none, "", "", none, none, none, [], 0⟩

/-- What a run of `bootstrap` has read, and keeps for its continuations. -/
structure BootstrapRun where
  fingerprint : String
  accounts : List AccountSlot
  activeSlot : ℕ
  stored : StoredProfile
deriving DecidableEq

/-- Where a run of `bootstrap` goes on. -/
inductive BootstrapTask where
  /-- it awaits the storage -/
  | loading (run : BootstrapRun)
  /-- its retry loop waits for the timer -/
  | retrying (run : BootstrapRun) (attempt : ℕ)
  /-- it awaits the owner of the username -/
  | reconciling (run : BootstrapRun) (username : String)
deriving DecidableEq

def BootstrapTask.run : BootstrapTask → BootstrapRun
  | loading run | retrying run _ | reconciling run _ => run

/-- How `queryLedgerUsernameOwner` ends. -/
inductive LedgerUsernameOwner where
  | found (ownerPublicKeyBase64 : String)
  | notFound
  | rejected

/-- The stores of the app, with what is on its way to them. -/
structure ProfileApp where
  native : NativeSession
  storage : String → StoredProfile
  profile : Profile
  pending : List BootstrapTask
  /-- the usernames handed to `submitLedgerUsernameClaim` -/
  submitted : List String

def p2pRetryAttempts : ℕ := 30

/-- A value that a condition takes for true: neither null nor the empty string. -/
def truthy (value : Option String) : Option String := value.filter (· ≠ "")

namespace ProfileApp

/-- A device that was just launched. -/
def launch (slots : ℕ → Option Identity) (activeSlot : ℕ) (storage : String → StoredProfile) : ProfileApp where
  native := ⟨slots, activeSlot, none, none, none⟩
  storage := storage
  profile := .empty
  pending := []
  submitted := []

/-- `bootstrap` up to where it awaits the storage; `fingerprint` throws without an identity. -/
def bootstrap (a : ProfileApp) : ProfileApp :=
  match a.native.identity with
  | none => a
  | some identity =>
    let run := ⟨identity.fingerprint, a.native.accountSlots, a.native.activeSlot, a.storage identity.fingerprint⟩
    { a with pending := a.pending ++ [.loading run] }

def afterAccountChange (a : ProfileApp) : ProfileApp :=
  if a.native.identity.isSome then a.bootstrap else { a with profile := .empty }

def signOut (a : ProfileApp) : ProfileApp :=
  afterAccountChange { a with native := a.native.removeAccountSlot a.native.activeSlot }

def switchAccount (a : ProfileApp) (slot : ℕ) : ProfileApp :=
  match a.native.switchAccount slot with
  | (native, true) => afterAccountChange { a with native }
  | (native, false) => { a with native }

def removeAccount (a : ProfileApp) (slot : ℕ) : ProfileApp :=
  afterAccountChange { a with native := a.native.removeAccountSlot slot }

variable [BlobStore]

/-- The avatar that `bootstrap` shows and publishes, or the error that `blobReserve` throws. -/
def reservedAvatar (stored : StoredProfile) (p2pReady : Bool) : Except String (Option String) :=
  match truthy stored.avatarId with
  | none => .ok none
  | some id =>
    if p2pReady then (BlobStore.reserve id).map fun reserved => if reserved then some id else none
    else .ok none

/-- The `set` of `bootstrap` and the continuations that it leaves: the retry loop if there is no peer id, and the
reconciliation if there is a username. -/
def shown (a : ProfileApp) (run : BootstrapRun) (identity : Identity) (node : Option Identity) (avatarId : Option String) :
    ProfileApp :=
  let retry := if node.isSome then [] else [.retrying run 0]
  let reconcile := (truthy run.stored.username).toList.map (.reconciling run)
  { a with
    profile :=
      { isReady := true
        fingerprint := run.fingerprint
        publicKey := identity.publicKeyBase64
        peerId := (node.map (·.peerId)).getD ""
        p2pStartupError := if node.isSome then none else a.native.lastStartupError
        displayName := run.stored.displayName.getD ""
        bio := run.stored.bio.getD ""
        avatarId := avatarId
        avatarLocalPath := avatarId.bind BlobStore.localPath
        username := run.stored.username
        accounts := run.accounts
        activeSlot := run.activeSlot }
    pending := a.pending ++ retry ++ reconcile }

/-- `bootstrap` from the answers of the storage on. -/
def loaded (a : ProfileApp) (run : BootstrapRun) (spawn : Except String Unit) : ProfileApp :=
  let (native, node) := a.native.shared spawn
  match reservedAvatar run.stored node.isSome with
  | .error _ => { a with native }
  | .ok avatarId =>
    let native := if node.isSome then native.publishOwnAvatarPointer avatarId else native
    match native.identity with
    -- `publicKeyBase64` throws
    | none => { a with native }
    | some identity => shown { a with native } run identity node avatarId

/-- The avatar that a turn of the retry loop takes up because `bootstrap` could not; an error of `blobReserve` is caught. -/
def deferredAvatar (stored : StoredProfile) (shown : Option String) : Option String :=
  match truthy stored.avatarId, truthy shown with
  | some id, none => if BlobStore.reserve id = .ok true then some id else none
  | _, _ => none

/-- A turn of the retry loop. -/
def retried (a : ProfileApp) (run : BootstrapRun) (attempt : ℕ) (spawn : Except String Unit) : ProfileApp :=
  let (native, node) := a.native.shared spawn
  match node with
  | none =>
    let again := if attempt + 1 < p2pRetryAttempts then [.retrying run (attempt + 1)] else []
    { a with native, profile := { a.profile with p2pStartupError := native.lastStartupError }, pending := a.pending ++ again }
  | some node =>
    let avatarId := deferredAvatar run.stored a.profile.avatarId
    let profile := { a.profile with peerId := node.peerId, p2pStartupError := none }
    { a with
      native := native.publishOwnAvatarPointer (avatarId.or a.profile.avatarId)
      profile :=
        match avatarId with
        | none => profile
        | some id => { profile with avatarId := some id, avatarLocalPath := BlobStore.localPath id } }

omit [BlobStore] in
/-- The reconciliation of the username with what the ledger names as its owner. -/
def reconciled (a : ProfileApp) (run : BootstrapRun) (username : String) : LedgerUsernameOwner → ProfileApp
  | .found ownerPublicKeyBase64 =>
    if ownerPublicKeyBase64 = a.profile.publicKey then a
    else
      { a with
        storage := Function.update a.storage run.fingerprint { a.storage run.fingerprint with username := none }
        profile := { a.profile with username := none } }
  | .notFound => { a with submitted := a.submitted ++ [username] }
  | .rejected => a

end ProfileApp

/-! ### What can happen -/

/-- What happens next. -/
inductive ProfileEvent where
  | bootstrap
  | signOut
  | switchAccount (slot : ℕ)
  | removeAccount (slot : ℕ)
  /-- the event pump, or a call that needs the node, asks for it -/
  | pump (spawn : Except String Unit)
  | loaded (run : BootstrapRun) (spawn : Except String Unit)
  | timer (run : BootstrapRun) (attempt : ℕ) (spawn : Except String Unit)
  | ledger (run : BootstrapRun) (username : String) (owner : LedgerUsernameOwner)

/-- The continuation that an event wakes. -/
def ProfileEvent.task? : ProfileEvent → Option BootstrapTask
  | loaded run _ => some (.loading run)
  | timer run attempt _ => some (.retrying run attempt)
  | ledger run username _ => some (.reconciling run username)
  | _ => none

namespace ProfileApp
variable [BlobStore]

/-- A continuation is woken once. -/
def taken (a : ProfileApp) (e : ProfileEvent) : ProfileApp :=
  { a with pending := e.task?.elim a.pending a.pending.erase }

def step (a : ProfileApp) (e : ProfileEvent) : ProfileApp :=
  match e with
  | .bootstrap => a.bootstrap
  | .signOut => a.signOut
  | .switchAccount slot => a.switchAccount slot
  | .removeAccount slot => a.removeAccount slot
  | .pump spawn => { a with native := (a.native.shared spawn).1 }
  | .loaded run spawn => (a.taken e).loaded run spawn
  | .timer run attempt spawn => (a.taken e).retried run attempt spawn
  | .ledger run username owner => (a.taken e).reconciled run username owner

/-- Only a continuation that waits is woken. -/
def Enabled (a : ProfileApp) (e : ProfileEvent) : Prop := ∀ task ∈ e.task?, task ∈ a.pending

instance (a : ProfileApp) (e : ProfileEvent) : Decidable (a.Enabled e) := by
  unfold Enabled
  infer_instance

end ProfileApp
end SpiritChat
