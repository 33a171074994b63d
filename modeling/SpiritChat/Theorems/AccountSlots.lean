import SpiritChat.App.IdentitySession
import SpiritChat.Lib.Run

/-! # Accounts that look complete

The items of a slot are written and deleted one by one. What a write finds in the slot can be left from another account, and
then the slot looks complete as soon as the new items fill the gap. -/

namespace SpiritChat
open Lib

/-! ### The app and the Keychain -/

/-- A call of `IdentitySession` that changes a slot. -/
inductive AccountCall (Identity : Type) where
  /-- a new account, or one whose slot is repaired -/
  | beginWithPhrase (identity : Identity)
  | switchTo (slot : ℕ)
  | removeSlot (slot : ℕ)

/-- What happens on a phone. -/
inductive PhoneAct (Identity : Type) where
  | call (c : AccountCall Identity)
  /-- the call under way performs its next operation -/
  | step (status : OSStatus)
  /-- the app is killed, and started anew -/
  | kill

/-- A Keychain, and what is left of the call under way. -/
structure Phone (Identity : Type) where
  keychain : Keychain Identity
  running : Option (KeychainProg Identity Unit)

section
variable {Identity Fingerprint : Type} [DecidableEq Fingerprint] (fingerprint : Identity → Fingerprint)

def AccountCall.program : AccountCall Identity → KeychainProg Identity Unit
  | .beginWithPhrase identity => do let _ ← IdentitySession.beginWithPhrase fingerprint identity
  | .switchTo slot => do let _ ← IdentitySession.switchTo slot
  | .removeSlot slot => IdentitySession.removeSlot slot

def Phone.next (p : Phone Identity) : PhoneAct Identity → Phone Identity
  | .call c =>
    match p.running with
    | none => { p with running := some (c.program fingerprint) }
    | some _ => p
  | .step status =>
    match p.running with
    | none => p
    | some (.pure _) => { p with running := none }
    | some (.op o k) =>
      ⟨(Keychain.exec o status p.keychain).2, some (k (Keychain.exec o status p.keychain).1)⟩
  | .kill => { p with running := none }

end

variable {Identity : Type}

def Phone.start : Phone Identity := ⟨.empty, none⟩

namespace Keychain

/-- The call that wrote an item of an account. -/
def writer (k : Keychain Identity) (account : KeychainAccount) : Option ℕ :=
  match k.items account with
  | some (.written call _) => some call
  | _ => none

end Keychain

/-- The items that make a slot complete. -/
def parts (slot : ℕ) : List KeychainAccount := [.identity slot, .agreement slot, .prekeys slot]

namespace Keychain

/-- One call of `writeSlot` wrote the identity, the agreement key and the prekeys of the slot. -/
def OneWriter (k : Keychain Identity) (slot : ℕ) : Prop := ∃ call, ∀ account ∈ parts slot, k.writer account = some call

/-- Every slot that looks complete has one writer. -/
def Consistent (k : Keychain Identity) : Prop :=
  ∀ slot env, ((IdentitySession.isSlotComplete slot).run exec env k).1 = true → k.OneWriter slot

/-- What is left in a slot does not make it look complete with the new item: a new identity does not find both other parts,
and a new agreement key finds no prekeys. -/
def Fits (k : Keychain Identity) : KeychainAccount → Prop
  | .identity slot => k.items (.agreement slot) = none ∨ k.items (.prekeys slot) = none
  | .agreement slot => k.items (.prekeys slot) = none
  | _ => True

/-- An item that is going to be added fits. -/
def Admits (k : Keychain Identity) (status : OSStatus) : KeychainOp Identity → Prop
  | .secItemAdd account _ => status = errSecSuccess → k.items account = none → k.Fits account
  | _ => True

end Keychain

namespace Phone

/-- In each step what is added fits. -/
def AddsWhatFits (p : Phone Identity) : PhoneAct Identity → Prop
  | .step status =>
    match p.running with
    | some (.op o _) => p.keychain.Admits status o
    | _ => True
  | _ => True

end Phone

/-! ### What is read -/

namespace Keychain
variable {k : Keychain Identity} {slot : ℕ} {env : ℕ → OSStatus}

theorem run_call_bind {α : Type} (o : KeychainOp Identity) (f : o.Res → KeychainProg Identity α) :
    (KeychainStore.call o >>= f).run exec env k =
      (f (exec o (env 0) k).1).run exec (fun i => env (i + 1)) (exec o (env 0) k).2 := rfl

theorem run_tryLoad_bind {α : Type} (account : KeychainAccount) (f : Option (KeychainItem Identity) → KeychainProg Identity α) :
    (KeychainStore.tryLoad account >>= f).run exec env k =
      (f (if env 0 = errSecSuccess then k.items account else none)).run exec (fun i => env (i + 1)) k := by
  have hfound : errSecSuccess ≠ errSecItemNotFound := by decide
  unfold KeychainStore.tryLoad KeychainStore.load
  rw [Prog.bind_assoc, Prog.bind_assoc, run_call_bind]
  by_cases h : env 0 = errSecSuccess
  · cases hk : k.items account with
    | none => simp [exec, h, hk]; rfl
    | some item => simp [exec, h, hk, hfound]; rfl
  · by_cases hnone : env 0 = errSecItemNotFound
    · simp [exec, hnone, hfound.symm]; rfl
    · simp [exec, h, hnone]; rfl

theorem run_isSlotComplete : ((IdentitySession.isSlotComplete slot).run exec env k).1 = true ↔
    (env 0 = errSecSuccess ∧ (k.items (.identity slot)).isSome) ∧ (env 1 = errSecSuccess ∧ (k.items (.agreement slot)).isSome) ∧
      env 2 = errSecSuccess ∧ (k.items (.prekeys slot)).isSome := by
  unfold IdentitySession.isSlotComplete IdentitySession.hasStoredIdentity
  rw [Prog.bind_assoc, run_tryLoad_bind, Prog.bind_of_pure]
  have hread (i : ℕ) (account : KeychainAccount) : (if env i = errSecSuccess then k.items account else none).isSome = true ↔
      env i = errSecSuccess ∧ (k.items account).isSome = true := by
    by_cases h : env i = errSecSuccess <;> simp [h]
  rw [← hread, ← hread, ← hread]
  by_cases h0 : (if env 0 = errSecSuccess then k.items (.identity slot) else none).isSome = true
  · rw [if_pos h0, run_tryLoad_bind]
    by_cases h1 : (if env 1 = errSecSuccess then k.items (.agreement slot) else none).isSome = true
    · rw [if_pos h1, run_tryLoad_bind, and_iff_right h0, and_iff_right h1]
      rfl
    · rw [if_neg h1]
      exact iff_of_false (fun h => by cases h) fun h => h1 h.2.1
  · rw [if_neg h0]
    exact iff_of_false (fun h => by cases h) fun h => h0 h.1

/-- What looks complete if nothing is in the way of the reads. -/
def Complete (k : Keychain Identity) (slot : ℕ) : Prop := ∀ account ∈ parts slot, (k.items account).isSome

theorem complete_iff : k.Complete slot ↔
    (k.items (.identity slot)).isSome ∧ (k.items (.agreement slot)).isSome ∧ (k.items (.prekeys slot)).isSome := by
  simp [Complete, parts]

theorem consistent_iff : k.Consistent ↔ ∀ slot, k.Complete slot → k.OneWriter slot := by
  constructor
  · intro h slot hc
    obtain ⟨h0, h1, h2⟩ := complete_iff.mp hc
    exact h slot (fun _ => errSecSuccess) (run_isSlotComplete.mpr ⟨⟨rfl, h0⟩, ⟨rfl, h1⟩, rfl, h2⟩)
  · intro h slot env hrun
    obtain ⟨⟨-, h0⟩, ⟨-, h1⟩, -, h2⟩ := run_isSlotComplete.mp hrun
    exact h slot (complete_iff.mpr ⟨h0, h1, h2⟩)

end Keychain

/-! ### What a call may do -/

/-- How far `writeSlot` is. -/
inductive Writing where
  | settled
  | generated (call : ℕ)
  | identityAdded (slot call : ℕ)
  | agreementAdded (slot call : ℕ)
  | prekeysAdded (slot call : ℕ)

namespace Writing

/-- The items that it has added. -/
def added : Writing → List KeychainAccount
  | settled => []
  | generated _ => []
  | identityAdded slot _ => [.identity slot]
  | agreementAdded slot _ => [.identity slot, .agreement slot]
  | prekeysAdded slot _ => parts slot

/-- The number of the call, while it adds items. -/
def call? : Writing → Option ℕ
  | settled => none
  | generated call => some call
  | identityAdded _ call => some call
  | agreementAdded _ call => some call
  | prekeysAdded _ call => some call

/-- The item that comes next, and the call that it comes from. -/
def Adds (w : Writing) (call : ℕ) : KeychainAccount → Prop
  | .identity _ => w = generated call
  | .agreement slot => w = identityAdded slot call
  | .prekeys slot => w = agreementAdded slot call
  | .recoveryPhrase slot => w = prekeysAdded slot call
  | .activeSlot => False

/-- Nothing is deleted that was added, and items are added one after the other. -/
def Allowed (w : Writing) : KeychainOp Identity → Prop
  | .secItemDelete account => account ∉ w.added
  | .secItemAdd account (.written call _) => w.Adds call account
  | .secItemAdd account (.index _) => account = .activeSlot
  | .secItemCopyMatching _ => True
  | .generate => w = settled

/-- After an item was added. -/
def after (call : ℕ) : KeychainAccount → Writing
  | .identity slot => identityAdded slot call
  | .agreement slot => agreementAdded slot call
  | .prekeys slot => prekeysAdded slot call
  | _ => settled

def next : (o : KeychainOp Identity) → o.Res → Writing → Writing
  | .generate, call, _ => generated call
  | .secItemAdd account (.written call _), status, w => if status = errSecSuccess then after call account else w
  | _, _, w => w

/-- The program keeps to this. -/
abbrev Keeps {α : Type} (w : Writing) (p : KeychainProg Identity α) : Prop := p.Keeps Allowed next (fun _ _ => True) w

theorem activeSlot_notMem_added (w : Writing) : .activeSlot ∉ w.added := by
  cases w <;> simp [added, parts]

end Writing

/-! ### The programs -/

section Programs
open KeychainStore IdentitySession Prog
variable {Fingerprint : Type} [DecidableEq Fingerprint] {fingerprint : Identity → Fingerprint} {w : Writing} {slot : ℕ}

theorem keeps_save {data : KeychainItem Identity} {account : KeychainAccount} {post : Except IdentitySessionError Unit → Writing → Prop}
    (hdelete : account ∉ w.added) (hadd : w.Allowed (.secItemAdd account data))
    (hok : post (.ok ()) (Writing.next (.secItemAdd account data) errSecSuccess w))
    (herror : ∀ e, post (.error e) w) : (save data account).Keeps Writing.Allowed Writing.next post w := by
  refine keeps_bind.2 ⟨hdelete, fun _ => keeps_bind.2 ⟨hadd, fun status => ?_⟩⟩
  rw [keeps_pure]
  split
  · rename_i h
    rw [h]
    exact hok
  · rename_i h
    have hkept : Writing.next (.secItemAdd account data) status w = w := by
      cases data with
      | written call identity => exact if_neg h
      | index slot => rfl
    show post _ (Writing.next (.secItemAdd account data) status w)
    rw [hkept]
    exact herror _

/-- An operation that only reads. -/
def Reads (o : KeychainOp Identity) : Prop := ∃ account, o = .secItemCopyMatching account

theorem reads_load (account : KeychainAccount) : Only (S := keychainOps Identity) Reads (load account) :=
  (only_ask ⟨account, rfl⟩).bind fun _ => .ite trivial (.ite trivial trivial)

theorem reads_tryLoad (account : KeychainAccount) : Only (S := keychainOps Identity) Reads (tryLoad account) :=
  (reads_load account).bind fun r => by cases r <;> trivial

theorem reads_hasStoredIdentity (slot : ℕ) : Only (S := keychainOps Identity) Reads (hasStoredIdentity slot) :=
  (reads_tryLoad _).bind fun _ => trivial

theorem reads_isSlotComplete (slot : ℕ) : Only (S := keychainOps Identity) Reads (isSlotComplete slot) :=
  (reads_hasStoredIdentity slot).bind fun _ => .ite
    ((reads_tryLoad _).bind fun _ => .ite ((reads_tryLoad _).bind fun _ => trivial) trivial) trivial

omit [DecidableEq Fingerprint] in
theorem reads_peekFingerprint (slot : ℕ) : (peekFingerprint fingerprint slot).Only Reads :=
  (reads_tryLoad _).bind fun r => by rcases r with _ | _ | _ <;> trivial

theorem reads_loadExisting (slot : ℕ) : Only (S := keychainOps Identity) Reads (loadExisting slot) := by
  refine (reads_load _).bind fun r => ?_
  rcases r with e | _ | _
  · trivial
  · trivial
  · refine (reads_load _).bind fun r => ?_
    rcases r with e | _ | _
    · trivial
    · trivial
    · refine (reads_load _).bind fun r => ?_
      rcases r with e | _ | _ <;> trivial

theorem reads_firstFree (rest : List ℕ) : Only (S := keychainOps Identity) Reads (firstFree rest) := by
  induction rest with
  | nil => trivial
  | cons slot rest ih => exact (reads_hasStoredIdentity slot).bind fun _ => .ite ih trivial

/-- What is read first does not matter to what may be done next. -/
theorem keeps_of_reads {α β : Type} {p : KeychainProg Identity α} {f : α → KeychainProg Identity β} {post : β → Writing → Prop}
    (hp : p.Only Reads) (hf : ∀ a, (f a).Keeps Writing.Allowed Writing.next post w) :
    (p >>= f).Keeps Writing.Allowed Writing.next post w := by
  have h : p.Keeps Writing.Allowed Writing.next (fun _ m => m = w) w := by
    refine hp.keeps (show (fun m => m = w) w from rfl) ?_
    rintro _ m ⟨account, rfl⟩ rfl
    exact ⟨trivial, fun _ => rfl⟩
  refine keeps_bind.2 (h.imp ?_)
  rintro a m rfl
  exact hf a

/-- A program whose result is not looked at. -/
theorem keeps_then {α β : Type} {p : KeychainProg Identity α} {f : α → KeychainProg Identity β} (hp : w.Keeps p)
    (hf : ∀ a w, Writing.Keeps w (f a)) : w.Keeps (p >>= f) :=
  keeps_bind.2 (hp.imp fun a m _ => hf a m)

theorem keeps_setActiveSlot : w.Keeps (setActiveSlot slot : KeychainProg Identity Unit) :=
  keeps_bind.2 (keeps_save w.activeSlot_notMem_added rfl trivial fun _ => trivial)

theorem keeps_switchTo : w.Keeps (switchTo slot : KeychainProg Identity (Except IdentitySessionError Unit)) := by
  refine keeps_of_reads (reads_loadExisting slot) fun r => ?_
  cases r with
  | error e => trivial
  | ok => exact keeps_then keeps_setActiveSlot fun _ _ => trivial

theorem keeps_writeSlot (identity : Identity) : Writing.settled.Keeps (writeSlot slot identity) := by
  refine keeps_bind.2 ⟨rfl, fun call => ?_⟩
  rw [keeps_pure]
  refine keeps_bind.2 (keeps_save List.not_mem_nil rfl ?_ fun _ => trivial)
  refine keeps_bind.2 (keeps_save (by simp [Writing.next, Writing.after, Writing.added]) rfl ?_ fun _ => trivial)
  refine keeps_bind.2 (keeps_save (by simp [Writing.next, Writing.after, Writing.added]) rfl ?_ fun _ => trivial)
  refine keeps_bind.2 (keeps_save (by simp [Writing.next, Writing.after, Writing.added, parts]) rfl ?_ fun _ => trivial)
  trivial

theorem keeps_writeActiveSlot (identity : Identity) : Writing.settled.Keeps (writeActiveSlot slot identity) := by
  refine keeps_then (keeps_writeSlot identity) fun r _ => ?_
  cases r with
  | error e => trivial
  | ok => exact keeps_then keeps_setActiveSlot fun _ _ => trivial

/-- The loop over the slots has written nothing if it does not return. -/
theorem keeps_beginStored (identity : Identity) (rest : List ℕ) : (beginStored fingerprint identity rest).Keeps Writing.Allowed
    Writing.next (fun result w => result = none → w = .settled) .settled := by
  induction rest with
  | nil => exact fun _ => rfl
  | cons slot rest ih =>
    refine keeps_of_reads (reads_hasStoredIdentity slot) fun stored => ?_
    split
    · refine keeps_of_reads (reads_peekFingerprint slot) fun print => ?_
      split
      · refine keeps_of_reads (reads_isSlotComplete slot) fun complete => ?_
        split
        · exact keeps_bind.2 (Keeps.imp keeps_switchTo fun _ _ _ h => nomatch h)
        · exact keeps_bind.2 ((keeps_writeActiveSlot identity).imp fun _ _ _ h => nomatch h)
      · exact ih
    · exact ih

theorem keeps_beginWithPhrase (identity : Identity) : Writing.settled.Keeps (beginWithPhrase fingerprint identity) := by
  refine keeps_bind.2 ((keeps_beginStored identity slots).imp fun result w h => ?_)
  cases result with
  | some result => trivial
  | none =>
    obtain rfl := h rfl
    refine keeps_of_reads (reads_firstFree slots) fun free => ?_
    cases free with
    | none => trivial
    | some slot => exact keeps_writeActiveSlot identity

theorem keeps_program (c : AccountCall Identity) : Writing.settled.Keeps (c.program fingerprint) := by
  cases c with
  | beginWithPhrase identity => exact keeps_then (keeps_beginWithPhrase identity) fun _ _ => trivial
  | switchTo slot => exact keeps_then keeps_switchTo fun _ _ => trivial
  | removeSlot slot =>
    have hnot : ∀ account, account ∉ Writing.settled.added := fun _ => List.not_mem_nil
    exact ⟨hnot _, fun _ => ⟨hnot _, fun _ => ⟨hnot _, fun _ => ⟨hnot _, fun _ => trivial⟩⟩⟩⟩

end Programs

/-! ### The invariant -/

namespace Keychain
variable {k : Keychain Identity} {account a : KeychainAccount} {item : KeychainItem Identity}

def insert (k : Keychain Identity) (account : KeychainAccount) (item : KeychainItem Identity) : Keychain Identity :=
  { k with items := k.items.insert account item }

def remove (k : Keychain Identity) (account : KeychainAccount) : Keychain Identity := { k with items := k.items.remove account }

theorem items_insert_of_ne (h : a ≠ account) : (k.insert account item).items a = k.items a := Table.insert_of_ne h

theorem items_insert_self : (k.insert account item).items account = some item := Table.insert_self

theorem writer_insert_of_ne (h : a ≠ account) : (k.insert account item).writer a = k.writer a := by
  simp [writer, items_insert_of_ne h]

theorem items_remove_of_ne (h : a ≠ account) : (k.remove account).items a = k.items a := by
  simp [remove, Table.remove_apply, h]

theorem writer_remove_of_ne (h : a ≠ account) : (k.remove account).writer a = k.writer a := by
  simp [writer, items_remove_of_ne h]

theorem items_remove_self : (k.remove account).items account = none := Table.remove_self

theorem writer_remove_self : (k.remove account).writer account = none := by simp [writer, items_remove_self]

/-- A slot whose parts are what they were has one writer if it had. -/
theorem OneWriter.of_parts {k' : Keychain Identity} {slot : ℕ} (h : k.OneWriter slot)
    (hparts : ∀ a ∈ parts slot, k'.writer a = k.writer a) : k'.OneWriter slot := by
  obtain ⟨call, hone⟩ := h
  exact ⟨call, fun a ha => (hparts a ha).trans (hone a ha)⟩

end Keychain

/-- Of a Keychain and a call that is so far. The items that the call has added are those with its number. -/
structure Writing.Holds (w : Writing) (k : Keychain Identity) : Prop where
  consistent : ∀ slot, k.Complete slot → k.OneWriter slot
  older : ∀ account call, k.writer account = some call → call < k.generated
  added : ∀ account ∈ w.added, k.writer account = w.call?
  fresh : ∀ call, w.call? = some call → call < k.generated ∧ ∀ account, k.writer account = some call → account ∈ w.added

namespace Writing.Holds
open Writing
variable {w : Writing} {k k' : Keychain Identity} {account : KeychainAccount} {call slot : ℕ} {identity : Identity}

theorem settle (h : w.Holds k) : settled.Holds k where
  consistent := h.consistent
  older := h.older
  added _ hmem := absurd hmem List.not_mem_nil
  fresh _ hcall := by cases hcall

/-- An item that the call has not added. -/
theorem delete (h : w.Holds k) (hadded : account ∉ w.added) : w.Holds (k.remove account) := by
  have hne : ∀ a call, (k.remove account).writer a = some call → a ≠ account := by
    rintro a call ha rfl
    rw [Keychain.writer_remove_self] at ha
    cases ha
  refine ⟨fun slot hc => ?_, fun a call ha => ?_, fun a ha => ?_, fun call hcall => ?_⟩
  · have hpart : ∀ a ∈ parts slot, a ≠ account := by
      rintro a ha rfl
      have := hc a ha
      rw [Keychain.items_remove_self] at this
      cases this
    refine (h.consistent slot fun a ha => ?_).of_parts fun a ha => Keychain.writer_remove_of_ne (hpart a ha)
    exact Keychain.items_remove_of_ne (hpart a ha) ▸ hc a ha
  · exact h.older a call ((Keychain.writer_remove_of_ne (hne a call ha)).symm.trans ha)
  · exact (Keychain.writer_remove_of_ne fun he : a = account => hadded (he ▸ ha)).trans (h.added a ha)
  · obtain ⟨hlt, hmem⟩ := h.fresh call hcall
    exact ⟨hlt, fun a ha => hmem a ((Keychain.writer_remove_of_ne (hne a call ha)).symm.trans ha)⟩

/-- The keys of a call of `writeSlot` are new. -/
theorem generate (h : w.Holds k) : (generated k.generated).Holds { k with generated := k.generated + 1 } where
  consistent := h.consistent
  older a call ha := Nat.lt_succ_of_lt (h.older a call ha)
  added _ hmem := absurd hmem List.not_mem_nil
  fresh call hcall := by
    obtain rfl := Option.some.inj hcall
    exact ⟨Nat.lt_succ_self _, fun a ha => absurd (h.older a _ ha) (Nat.lt_irrefl _)⟩

/-- The item that belongs to no account. -/
theorem addIndex (h : w.Holds k) (index : ℕ) : w.Holds (k.insert .activeSlot (.index index)) := by
  have hpart : ∀ slot, ∀ a ∈ parts slot, a ≠ .activeSlot := by simp [parts]
  have hne : ∀ a call, (k.insert .activeSlot (.index index)).writer a = some call → a ≠ .activeSlot := by
    rintro a call ha rfl
    simp [Keychain.writer, Keychain.items_insert_self] at ha
  refine ⟨fun slot hc => ?_, fun a call ha => ?_, fun a ha => ?_, fun call hcall => ?_⟩
  · refine (h.consistent slot fun a ha => ?_).of_parts fun a ha => Keychain.writer_insert_of_ne (hpart slot a ha)
    exact Keychain.items_insert_of_ne (hpart slot a ha) ▸ hc a ha
  · exact h.older a call ((Keychain.writer_insert_of_ne (hne a call ha)).symm.trans ha)
  · exact (Keychain.writer_insert_of_ne fun he : a = .activeSlot => w.activeSlot_notMem_added (he ▸ ha)).trans (h.added a ha)
  · obtain ⟨hlt, hmem⟩ := h.fresh call hcall
    exact ⟨hlt, fun a ha => hmem a ((Keychain.writer_insert_of_ne (hne a call ha)).symm.trans ha)⟩

/-- After the next item was added, the items with the call's number are that one and those before it. -/
theorem writer_insert_iff (h : w.Holds k) (hcall : w.call? = some call) (a : KeychainAccount) :
    (k.insert account (.written call identity)).writer a = some call ↔ a = account ∨ a ∈ w.added := by
  by_cases he : a = account
  · subst he
    exact iff_of_true (by simp [Keychain.writer, Keychain.items_insert_self]) (.inl rfl)
  · rw [Keychain.writer_insert_of_ne he, or_iff_right he]
    exact ⟨(h.fresh call hcall).2 a, fun ha => (h.added a ha).trans hcall⟩

/-- Only the slot of the item can become inconsistent. -/
theorem consistent_insert_iff (h : w.Holds k) (hcall : w.call? = some call) (hpart : account ∈ parts slot)
    (honly : ∀ slot', account ∈ parts slot' → slot' = slot) :
    (∀ slot', (k.insert account (.written call identity)).Complete slot' → (k.insert account (.written call identity)).OneWriter slot') ↔
      ((k.insert account (.written call identity)).Complete slot → ∀ a ∈ parts slot, a = account ∨ a ∈ w.added) := by
  constructor
  · intro hall hc a ha
    obtain ⟨call', hone⟩ := hall slot hc
    have hself := hone account hpart
    rw [(h.writer_insert_iff hcall account).mpr (.inl rfl)] at hself
    obtain rfl := Option.some.inj hself
    exact (h.writer_insert_iff hcall a).mp (hone a ha)
  · intro hslot slot' hc
    by_cases hmem : account ∈ parts slot'
    · obtain rfl := honly slot' hmem
      exact ⟨call, fun a ha => (h.writer_insert_iff hcall a).mpr (hslot hc a ha)⟩
    · have hne : ∀ a ∈ parts slot', a ≠ account := fun a ha he => hmem (he ▸ ha)
      refine (h.consistent slot' fun a ha => ?_).of_parts fun a ha => Keychain.writer_insert_of_ne (hne a ha)
      exact Keychain.items_insert_of_ne (hne a ha) ▸ hc a ha

theorem call?_of_adds (h : w.Adds call account) : w.call? = some call := by
  cases account <;> first | exact h ▸ rfl | cases h

/-- The next item leaves the slots consistent exactly if it fits. -/
theorem consistent_add_iff (h : w.Holds k) (hadds : w.Adds call account) :
    (∀ slot, (k.insert account (.written call identity)).Complete slot → (k.insert account (.written call identity)).OneWriter slot) ↔
      k.Fits account := by
  have hcall := call?_of_adds hadds
  cases account with
  | identity slot =>
    obtain rfl : w = generated call := hadds
    have hpart : .identity slot ∈ parts slot := by simp [parts]
    rw [h.consistent_insert_iff hcall hpart (by simp [parts, eq_comm]), Keychain.complete_iff,
      Keychain.items_insert_self, Keychain.items_insert_of_ne (by simp), Keychain.items_insert_of_ne (by simp)]
    have hrest : ¬∀ a ∈ parts slot, a = .identity slot ∨ a ∈ (generated call).added := by simp [parts, Writing.added]
    simp only [hrest, imp_false, Option.isSome_some, true_and, not_and_or, Option.not_isSome_iff_eq_none]
    rfl
  | agreement slot =>
    obtain rfl : w = identityAdded slot call := hadds
    have hpart : .agreement slot ∈ parts slot := by simp [parts]
    rw [h.consistent_insert_iff hcall hpart (by simp [parts, eq_comm]), Keychain.complete_iff,
      Keychain.items_insert_self, Keychain.items_insert_of_ne (by simp), Keychain.items_insert_of_ne (by simp)]
    have hrest : ¬∀ a ∈ parts slot, a = .agreement slot ∨ a ∈ (identityAdded slot call).added := by simp [parts, Writing.added]
    have hidentity : (k.items (.identity slot)).isSome := by
      have hwriter := h.added (.identity slot) List.mem_cons_self
      cases hi : k.items (.identity slot) with
      | none => simp [Keychain.writer, hi, call?] at hwriter
      | some item => rfl
    simp only [hrest, imp_false, hidentity, Option.isSome_some, true_and, Option.not_isSome_iff_eq_none]
    rfl
  | prekeys slot =>
    obtain rfl : w = agreementAdded slot call := hadds
    have hpart : .prekeys slot ∈ parts slot := by simp [parts]
    rw [h.consistent_insert_iff hcall hpart (by simp [parts, eq_comm])]
    exact iff_of_true (fun _ => by simp [parts, Writing.added]) trivial
  | recoveryPhrase slot =>
    refine iff_of_true (fun slot' hc => ?_) trivial
    have hne : ∀ a ∈ parts slot', a ≠ .recoveryPhrase slot := by simp [parts]
    refine (h.consistent slot' fun a ha => ?_).of_parts fun a ha => Keychain.writer_insert_of_ne (hne a ha)
    exact Keychain.items_insert_of_ne (hne a ha) ▸ hc a ha
  | activeSlot => cases hadds

theorem after_eq (hadds : w.Adds call account) : after call account = settled ∨
    ((after call account).call? = some call ∧ ∀ a, a ∈ (after call account).added ↔ a = account ∨ a ∈ w.added) := by
  cases account with
  | identity slot | agreement slot | prekeys slot =>
    have hw := hadds
    simp only [Adds] at hw
    subst hw
    exact .inr ⟨rfl, fun a => by grind [after, Writing.added, parts]⟩
  | recoveryPhrase slot => exact .inl rfl
  | activeSlot => cases hadds

/-- The next item is added. -/
theorem add (h : w.Holds k) (hadds : w.Adds call account) (hfits : k.Fits account) :
    (after call account).Holds (k.insert account (.written call identity)) := by
  have hcall := call?_of_adds hadds
  have hlt := (h.fresh call hcall).1
  have hwriter : ∀ a, (k.insert account (.written call identity)).writer a = some call ↔ a = account ∨ a ∈ w.added :=
    h.writer_insert_iff hcall
  refine ⟨(h.consistent_add_iff hadds).mpr hfits, fun a call' ha => ?_, fun a ha => ?_, fun call' hcall' => ?_⟩
  · by_cases he : a = account
    · rw [(hwriter a).mpr (.inl he)] at ha
      obtain rfl := Option.some.inj ha
      exact hlt
    · exact h.older a call' ((Keychain.writer_insert_of_ne he).symm.trans ha)
  · rcases after_eq hadds with he | ⟨hafter, hmem⟩
    · rw [he] at ha
      cases ha
    · rw [hafter]
      exact (hwriter a).mpr ((hmem a).mp ha)
  · rcases after_eq hadds with he | ⟨hafter, hmem⟩
    · rw [he] at hcall'
      cases hcall'
    · obtain rfl := Option.some.inj (hafter.symm.trans hcall')
      exact ⟨hlt, fun a ha => (hmem a).mpr ((hwriter a).mp ha)⟩

/-- An operation leaves the Keychain consistent exactly if what it adds fits. -/
theorem exec_iff (h : w.Holds k) {o : KeychainOp Identity} (hallowed : w.Allowed o) (status : OSStatus) :
    ((Keychain.exec o status k).2.Consistent ↔ k.Admits status o) ∧
      (k.Admits status o → (next o (Keychain.exec o status k).1 w).Holds (Keychain.exec o status k).2) := by
  have hconsistent : ∀ {w' : Writing} {k' : Keychain Identity}, w'.Holds k' → k'.Consistent := fun h' =>
    Keychain.consistent_iff.mpr h'.consistent
  cases o with
  | secItemDelete account =>
    have h' : w.Holds (Keychain.exec (.secItemDelete account) status k).2 := by
      dsimp only [Keychain.exec]
      split
      · exact h.delete hallowed
      · exact h
    exact ⟨iff_of_true (hconsistent h') trivial, fun _ => h'⟩
  | secItemCopyMatching account =>
    have h' : w.Holds (Keychain.exec (.secItemCopyMatching account) status k).2 := by
      dsimp only [Keychain.exec]
      split
      · exact h
      · split <;> exact h
    exact ⟨iff_of_true (hconsistent h') trivial, fun _ => h'⟩
  | generate => exact ⟨iff_of_true (hconsistent h.generate) trivial, fun _ => h.generate⟩
  | secItemAdd account data =>
    by_cases hlands : status = errSecSuccess ∧ k.items account = none
    · obtain ⟨rfl, hfree⟩ := hlands
      have hexec : Keychain.exec (.secItemAdd account data) errSecSuccess k = (errSecSuccess, k.insert account data) := by
        simp [Keychain.exec, hfree, Keychain.insert]
      have hadmits : k.Admits errSecSuccess (.secItemAdd account data) ↔ k.Fits account :=
        ⟨fun hadmits => hadmits rfl hfree, fun hfits _ _ => hfits⟩
      rw [hexec, hadmits]
      cases data with
      | written call identity => exact ⟨Keychain.consistent_iff.trans (h.consistent_add_iff hallowed), h.add hallowed⟩
      | index slot =>
        obtain rfl : account = .activeSlot := hallowed
        exact ⟨iff_of_true (hconsistent (h.addIndex slot)) trivial, fun _ => h.addIndex slot⟩
    · obtain ⟨e, he, hexec⟩ : ∃ e ≠ errSecSuccess, Keychain.exec (.secItemAdd account data) status k = (e, k) := by
        by_cases hs : status = errSecSuccess
        · have hpresent : (k.items account).isSome := Option.isSome_iff_ne_none.mpr fun hfree => hlands ⟨hs, hfree⟩
          exact ⟨errSecDuplicateItem, by decide, by simp [Keychain.exec, hs, hpresent]⟩
        · exact ⟨status, hs, by simp [Keychain.exec, hs]⟩
      have hkept : next (.secItemAdd account data) e w = w := by
        cases data with
        | written call identity => exact if_neg he
        | index slot => rfl
      rw [hexec]
      dsimp only
      rw [hkept]
      exact ⟨iff_of_true (hconsistent h) fun hs hfree => absurd ⟨hs, hfree⟩ hlands, fun _ => h⟩

end Writing.Holds

/-! ### Runs -/

namespace Phone
variable {Fingerprint : Type} [DecidableEq Fingerprint] {fingerprint : Identity → Fingerprint} {p : Phone Identity}

/-- The call under way keeps to what it may do. -/
def Orderly (p : Phone Identity) : Prop := ∃ w : Writing, w.Holds p.keychain ∧ ∀ program ∈ p.running, w.Keeps program

/-- The Keychain is consistent after the act. -/
def StaysConsistent (fingerprint : Identity → Fingerprint) (p : Phone Identity) (a : PhoneAct Identity) : Prop :=
  (p.next fingerprint a).keychain.Consistent

theorem orderly_start : (start : Phone Identity).Orderly := by
  refine ⟨.settled, ⟨fun slot hc => ?_, fun a call ha => ?_, fun _ h => absurd h List.not_mem_nil, fun _ h => ?_⟩, fun _ h => ?_⟩
  · have := hc (.identity slot) List.mem_cons_self
    cases this
  · cases ha
  · cases h
  · cases h

/-- An act leaves the Keychain consistent exactly if what it adds fits. -/
theorem Orderly.act_iff (ho : p.Orderly) (a : PhoneAct Identity) :
    (p.StaysConsistent fingerprint a ↔ p.AddsWhatFits a) ∧ (p.AddsWhatFits a → (p.next fingerprint a).Orderly) := by
  obtain ⟨w, h, hkeeps⟩ := ho
  have hsettled : ∀ running : Option (KeychainProg Identity Unit), (∀ program ∈ running, Writing.settled.Keeps program) →
      (⟨p.keychain, running⟩ : Phone Identity).Orderly := fun running hr => ⟨.settled, h.settle, hr⟩
  have hsame : ∀ p' : Phone Identity, p'.keychain = p.keychain → p'.keychain.Consistent := fun p' hp' =>
    hp' ▸ Keychain.consistent_iff.mpr h.consistent
  cases a with
  | call c =>
    rcases hr : p.running with _ | program
    · have hnext : p.next fingerprint (.call c) = ⟨p.keychain, some (c.program fingerprint)⟩ := by simp [next, hr]
      rw [StaysConsistent, hnext]
      refine ⟨iff_of_true (hsame _ rfl) trivial, fun _ => hsettled _ fun program hp => ?_⟩
      obtain rfl := Option.some.inj hp
      exact keeps_program c
    · have hnext : p.next fingerprint (.call c) = p := by simp [next, hr]
      rw [StaysConsistent, hnext]
      exact ⟨iff_of_true (hsame p rfl) trivial, fun _ => ⟨w, h, hkeeps⟩⟩
  | kill => exact ⟨iff_of_true (hsame _ rfl) trivial, fun _ => hsettled none fun _ hp => by cases hp⟩
  | step status =>
    rcases hr : p.running with _ | _ | ⟨o, k⟩
    · have hnext : p.next fingerprint (.step status) = p := by simp [next, hr]
      rw [StaysConsistent, hnext, AddsWhatFits, hr]
      exact ⟨iff_of_true (hsame p rfl) trivial, fun _ => ⟨w, h, hkeeps⟩⟩
    · have hnext : p.next fingerprint (.step status) = ⟨p.keychain, none⟩ := by simp [next, hr]
      rw [StaysConsistent, hnext, AddsWhatFits, hr]
      exact ⟨iff_of_true (hsame _ rfl) trivial, fun _ => hsettled none fun _ hp => by cases hp⟩
    · have hnext : p.next fingerprint (.step status) =
          ⟨(Keychain.exec o status p.keychain).2, some (k (Keychain.exec o status p.keychain).1)⟩ := by simp [next, hr]
      obtain ⟨hallowed, hrest⟩ := hkeeps _ hr
      obtain ⟨hiff, hholds⟩ := h.exec_iff hallowed status
      rw [StaysConsistent, hnext, AddsWhatFits, hr]
      refine ⟨hiff, fun hadmits => ⟨_, hholds hadmits, fun program hp => ?_⟩⟩
      obtain rfl := Option.some.inj hp
      exact hrest _

/-- In a run of calls, failures and kills the Keychain is consistent after every act, exactly if everything that is added
in it fits. -/
theorem complete_slots_consistent_iff (acts : List (PhoneAct Identity)) : Run.Follows (next fingerprint) (StaysConsistent fingerprint) start acts ↔
    Run.Follows (next fingerprint) AddsWhatFits start acts :=
  Run.follows_congr (Run.follows_of_forall fun _ _ => trivial) orderly_start fun _ a ho _ => ho.act_iff a

end Phone

/-! ### An interrupted removal -/

/-- An account is created, its removal is interrupted after the first item, and the creation of the next one after the
first item too. -/
def interrupted : List (PhoneAct ℕ) :=
  .call (.beginWithPhrase 0) :: List.replicate 16 (.step errSecSuccess) ++
    [.call (.removeSlot 0), .step errSecSuccess, .kill] ++
    .call (.beginWithPhrase 1) :: List.replicate 7 (.step errSecSuccess) ++ [.kill]

/-- The slot looks complete, with the identity of one account and the keys of another. -/
theorem mixed_interrupted :
    ((IdentitySession.isSlotComplete 0).run Keychain.exec (fun _ => errSecSuccess) (interrupted.foldl (Phone.next id) .start).keychain).1 =
      true ∧ ¬(interrupted.foldl (Phone.next id) .start).keychain.OneWriter 0 := by
  refine ⟨by decide +kernel, ?_⟩
  have hidentity : (interrupted.foldl (Phone.next id) .start).keychain.writer (.identity 0) = some 1 := by decide +kernel
  have hagreement : (interrupted.foldl (Phone.next id) .start).keychain.writer (.agreement 0) = some 0 := by decide +kernel
  rintro ⟨call, hone⟩
  have h := (hidentity.symm.trans (hone _ (by simp [parts]))).trans (hagreement.symm.trans (hone _ (by simp [parts]))).symm
  cases h

end SpiritChat
