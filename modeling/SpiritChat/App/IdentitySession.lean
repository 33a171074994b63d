import SpiritChat.Lib.Program
import SpiritChat.Lib.Table

/-! # Accounts in the Keychain

`KeychainStore` and the functions of `IdentitySession` that read or write a slot, as programs over the calls of the
Keychain. Each of them can fail. The session in memory is left out, and so are the checks of what is read back: an item
that was written is taken to be readable. -/

namespace SpiritChat
open Lib

/-- The result of a Security call; zero is success. -/
abbrev OSStatus := ℤ

def errSecSuccess : OSStatus := 0

def errSecItemNotFound : OSStatus := -25300

def errSecDuplicateItem : OSStatus := -25299

/-- The names of the items, four for each slot. -/
inductive KeychainAccount where
  | identity (slot : ℕ)
  | agreement (slot : ℕ)
  | prekeys (slot : ℕ)
  | recoveryPhrase (slot : ℕ)
  | activeSlot
deriving DecidableEq

/-- What an item holds. A part of an account is known by the account and by the call of `writeSlot` that wrote it, which
generated the agreement key and the prekeys. -/
inductive KeychainItem (Identity : Type) where
  | written (call : ℕ) (identity : Identity)
  | index (slot : ℕ)

/-- The Keychain of a device, and how often keys were generated. -/
structure Keychain (Identity : Type) where
  items : Table KeychainAccount (KeychainItem Identity)
  generated : ℕ

/-- The operations on the Keychain. -/
inductive KeychainOp (Identity : Type) where
  | secItemDelete (account : KeychainAccount)
  | secItemAdd (account : KeychainAccount) (data : KeychainItem Identity)
  | secItemCopyMatching (account : KeychainAccount)
  /-- a new agreement key and a new prekey store -/
  | generate

namespace KeychainOp
variable {Identity : Type}

@[reducible] def Res : KeychainOp Identity → Type
  | secItemDelete _ => Unit
  | secItemAdd _ _ => OSStatus
  | secItemCopyMatching _ => OSStatus × Option (KeychainItem Identity)
  | generate => ℕ

end KeychainOp

@[reducible] def keychainOps (Identity : Type) : Signature := ⟨KeychainOp Identity, KeychainOp.Res⟩

namespace Keychain
variable {Identity : Type}

def empty : Keychain Identity := ⟨Table.empty, 0⟩

/-- What an operation gives back and leaves behind. The status is success, or what the call of the Keychain fails with. -/
def exec : (o : (keychainOps Identity).Op) → OSStatus → Keychain Identity → (keychainOps Identity).Res o × Keychain Identity
  | .secItemDelete account, status, k => ((), if status = errSecSuccess then { k with items := k.items.remove account } else k)
  | .secItemAdd account data, status, k =>
    if status ≠ errSecSuccess then (status, k)
    else if (k.items account).isSome then (errSecDuplicateItem, k)
    else (errSecSuccess, { k with items := k.items.insert account data })
  | .secItemCopyMatching account, status, k =>
    if status ≠ errSecSuccess then ((status, none), k)
    else if (k.items account).isSome then ((errSecSuccess, k.items account), k)
    else ((errSecItemNotFound, none), k)
  | .generate, _, k => (k.generated, { k with generated := k.generated + 1 })

end Keychain

/-- What the calls throw. -/
inductive IdentitySessionError where
  | saveFailed (status : OSStatus)
  | loadFailed (status : OSStatus)
  | noFreeSlot
  | slotEmpty (slot : ℕ)
deriving DecidableEq

abbrev KeychainProg (Identity α : Type) := Prog (keychainOps Identity) α

/-! ### `KeychainStore` -/

namespace KeychainStore
variable {Identity : Type}

/-- One call of the Keychain. -/
abbrev call (o : KeychainOp Identity) : KeychainProg Identity o.Res := Prog.ask (S := keychainOps Identity) o

def save (data : KeychainItem Identity) (account : KeychainAccount) : KeychainProg Identity (Except IdentitySessionError Unit) := do
  call (.secItemDelete account)
  let status ← call (.secItemAdd account data)
  if status = errSecSuccess then return .ok () else return .error (.saveFailed status)

def load (account : KeychainAccount) : KeychainProg Identity (Except IdentitySessionError (Option (KeychainItem Identity))) := do
  let (status, result) ← call (.secItemCopyMatching account)
  if status = errSecItemNotFound then return .ok none
  else if status ≠ errSecSuccess then return .error (.loadFailed status)
  else return .ok result

/-- `try? load` -/
def tryLoad (account : KeychainAccount) : KeychainProg Identity (Option (KeychainItem Identity)) := do
  match ← load account with
  | .ok result => return result
  | .error _ => return none

def delete (account : KeychainAccount) : KeychainProg Identity Unit := call (.secItemDelete account)

end KeychainStore

/-! ### `IdentitySession` -/

namespace IdentitySession
open KeychainStore
variable {Identity Fingerprint : Type}

def slots : List ℕ := [0, 1, 2]

def setActiveSlot (slot : ℕ) : KeychainProg Identity Unit := do
  let _ ← save (.index slot) .activeSlot

def hasStoredIdentity (slot : ℕ) : KeychainProg Identity Bool := do
  return (← tryLoad (.identity slot)).isSome

def isSlotComplete (slot : ℕ) : KeychainProg Identity Bool := do
  if ← hasStoredIdentity slot then
    if (← tryLoad (.agreement slot)).isSome then
      return (← tryLoad (.prekeys slot)).isSome
    else return false
  else return false

def loadExisting (slot : ℕ) : KeychainProg Identity (Except IdentitySessionError Unit) := do
  match ← load (.identity slot) with
  | .error e => return .error e
  | .ok none => return .error (.slotEmpty slot)
  | .ok (some _) =>
    match ← load (.agreement slot) with
    | .error e => return .error e
    | .ok none => return .error (.slotEmpty slot)
    | .ok (some _) =>
      match ← load (.prekeys slot) with
      | .error e => return .error e
      | .ok none => return .error (.slotEmpty slot)
      | .ok (some _) => return .ok ()

def switchTo (slot : ℕ) : KeychainProg Identity (Except IdentitySessionError Unit) := do
  match ← loadExisting slot with
  | .error e => return .error e
  | .ok () =>
    setActiveSlot slot
    return .ok ()

/-- Writes one item after the other and stops at the first that cannot be saved. -/
def saveAll : List (KeychainItem Identity × KeychainAccount) → KeychainProg Identity (Except IdentitySessionError Unit)
  | [] => return .ok ()
  | (data, account) :: rest => do
    match ← save data account with
    | .error e => return .error e
    | .ok () => saveAll rest

def writeSlot (slot : ℕ) (identity : Identity) : KeychainProg Identity (Except IdentitySessionError Unit) := do
  let call ← call .generate
  saveAll [(.written call identity, .identity slot), (.written call identity, .agreement slot),
    (.written call identity, .prekeys slot), (.written call identity, .recoveryPhrase slot)]

def removeSlot (slot : ℕ) : KeychainProg Identity Unit := do
  delete (.identity slot)
  delete (.agreement slot)
  delete (.prekeys slot)
  delete (.recoveryPhrase slot)

/-- `writeSlot`, and the slot becomes the active one. -/
def writeActiveSlot (slot : ℕ) (identity : Identity) : KeychainProg Identity (Except IdentitySessionError Unit) := do
  match ← writeSlot slot identity with
  | .error e => return .error e
  | .ok () =>
    setActiveSlot slot
    return .ok ()

/-- The first slot that holds no identity. -/
def firstFree : List ℕ → KeychainProg Identity (Option ℕ)
  | [] => return none
  | slot :: rest => do
    if ← hasStoredIdentity slot then firstFree rest else return some slot

section
variable [DecidableEq Fingerprint] (fingerprint : Identity → Fingerprint)

def peekFingerprint (slot : ℕ) : KeychainProg Identity (Option Fingerprint) := do
  match ← tryLoad (.identity slot) with
  | some (.written _ identity) => return some (fingerprint identity)
  | _ => return none

/-- The loop of `begin(withPhrase:)` over the slots, if it returns from one of them. -/
def beginStored (identity : Identity) : List ℕ → KeychainProg Identity (Option (Except IdentitySessionError Unit))
  | [] => return none
  | slot :: rest => do
    if ← hasStoredIdentity slot then
      if (← peekFingerprint fingerprint slot) = some (fingerprint identity) then
        if ← isSlotComplete slot then return some (← switchTo slot)
        -- A write into this slot was interrupted: it is repaired.
        else return some (← writeActiveSlot slot identity)
      else beginStored identity rest
    else beginStored identity rest

/-- `begin(withPhrase:)`, with the identity that the phrase stands for. -/
def beginWithPhrase (identity : Identity) : KeychainProg Identity (Except IdentitySessionError Unit) := do
  match ← beginStored fingerprint identity slots with
  | some result => return result
  | none =>
    match ← firstFree slots with
    | none => return .error .noFreeSlot
    | some freeSlot => writeActiveSlot freeSlot identity

end
end IdentitySession
end SpiritChat
