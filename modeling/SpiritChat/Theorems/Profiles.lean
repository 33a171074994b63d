import SpiritChat.App.Profile
import SpiritChat.Lib.Run

/-! # Whose profile is shown

A continuation of `bootstrap` has part of what it needs from the account that it was started for, and reads the rest
when it resumes. While each resumes for the account that is active and shown, no profile is mixed with another. -/

namespace SpiritChat
open Lib

namespace ProfileApp
variable {a : ProfileApp} {run : BootstrapRun} {spawn : Except String Unit}

/-- What is shown is stored under the fingerprint that is shown, and the avatar that peers are pointed to is the active
account's. -/
structure OwnProfile (a : ProfileApp) : Prop where
  displayName : a.profile.displayName = "" ∨ (a.storage a.profile.fingerprint).displayName = some a.profile.displayName
  bio : a.profile.bio = "" ∨ (a.storage a.profile.fingerprint).bio = some a.profile.bio
  avatarId : ∀ id, a.profile.avatarId = some id → (a.storage a.profile.fingerprint).avatarId = some id
  username : ∀ name, a.profile.username = some name → (a.storage a.profile.fingerprint).username = some name
  avatarPointer : ∀ id, a.native.avatarPointer = some (some id) →
    ∃ identity, a.native.identity = some identity ∧ (a.storage identity.fingerprint).avatarId = some id

/-- What a run has read is what the storage has, but for a username that was removed since. -/
def Current (a : ProfileApp) (run : BootstrapRun) : Prop :=
  (a.storage run.fingerprint).displayName = run.stored.displayName ∧ (a.storage run.fingerprint).bio = run.stored.bio ∧
    (a.storage run.fingerprint).avatarId = run.stored.avatarId ∧
    ∀ name, (a.storage run.fingerprint).username = some name → run.stored.username = some name

/-- A task has what its run needs of the storage, and asks the ledger for the username that was read. -/
structure Waits (a : ProfileApp) : Prop where
  current : ∀ task ∈ a.pending, a.Current task.run
  asked : ∀ run name, .reconciling run name ∈ a.pending → run.stored.username = some name

/-- The account that a continuation was started for is the one that it meets. `device` has the identities that were
there at the launch. -/
def Timely (device : ℕ → Option Identity) (a : ProfileApp) : ProfileEvent → Prop
  | .loaded run spawn => ∀ identity, a.native.identity = some identity →
      (run.fingerprint = identity.fingerprint ∨ run.stored.avatarId = none ∨ (a.native.shared spawn).2 = none) ∧
        ∀ name, run.stored.username = some name → (a.storage run.fingerprint).username = some name
  | .timer run _ spawn => (a.native.shared spawn).2 ≠ none →
      (run.stored.avatarId = none ∧ a.profile.avatarId = none) ∨
        ∃ identity, a.native.identity = some identity ∧ a.profile.fingerprint = identity.fingerprint ∧
          (run.fingerprint = identity.fingerprint ∨ run.stored.avatarId = none ∨ truthy a.profile.avatarId ≠ none)
  | .ledger run _ (.found owner) => ∀ slot identity, device slot = some identity →
      identity.fingerprint = run.fingerprint → owner = identity.publicKeyBase64 →
        a.profile.publicKey = owner ∨ (a.storage run.fingerprint).username = none
  | _ => True

theorem shared_same (n : NativeSession) (spawn : Except String Unit) :
    (n.shared spawn).1.identity = n.identity ∧ (n.shared spawn).1.avatarPointer = n.avatarPointer ∧
      (n.shared spawn).1.node = (n.shared spawn).2 := by
  unfold NativeSession.shared
  split
  · rename_i hnode
    exact ⟨rfl, rfl, hnode⟩
  · rename_i hnode
    split
    · exact ⟨rfl, rfl, hnode⟩
    · split
      · exact ⟨rfl, rfl, rfl⟩
      · exact ⟨rfl, rfl, hnode⟩

/-- A node runs for the active account. -/
def NodeOwn (n : NativeSession) : Prop := ∀ identity, n.node = some identity → n.identity = some identity

theorem nodeOwn_shared {n : NativeSession} (h : NodeOwn n) (spawn : Except String Unit) : NodeOwn (n.shared spawn).1 := by
  unfold NativeSession.shared
  split
  · exact h
  · split
    · exact h
    · rename_i hidentity
      split
      · rintro _ ⟨⟩
        exact hidentity
      · exact h

theorem nodeOwn_switchAccount (n : NativeSession) (slot : ℕ) : NodeOwn (n.switchAccount slot).1 := by
  unfold NativeSession.switchAccount
  split <;> exact fun _ h => by cases h

theorem nodeOwn_removeAccountSlot {n : NativeSession} (h : NodeOwn n) (slot : ℕ) : NodeOwn (n.removeAccountSlot slot) := by
  unfold NativeSession.removeAccountSlot
  split
  · dsimp only
    split <;> exact fun _ h => by cases h
  · rename_i hslot
    exact fun identity hnode => (Function.update_of_ne (Ne.symm hslot) _ _).trans (h identity hnode)

/-- What the active account was pointed to by is gone, or it is still the active account. -/
def PointerKept (n n' : NativeSession) : Prop :=
  n'.avatarPointer = none ∨ n'.avatarPointer = n.avatarPointer ∧ n'.identity = n.identity

theorem pointerKept_switchAccount (n : NativeSession) (slot : ℕ) : PointerKept n (n.switchAccount slot).1 := by
  unfold NativeSession.switchAccount
  split <;> exact .inl rfl

theorem pointerKept_removeAccountSlot (n : NativeSession) (slot : ℕ) : PointerKept n (n.removeAccountSlot slot) := by
  unfold NativeSession.removeAccountSlot
  split
  · dsimp only
    split <;> exact .inl rfl
  · rename_i hslot
    exact .inr ⟨rfl, Function.update_of_ne (Ne.symm hslot) _ _⟩

theorem pointerKept_shared (n : NativeSession) (spawn : Except String Unit) : PointerKept n (n.shared spawn).1 :=
  .inr ⟨(shared_same n spawn).2.1, (shared_same n spawn).1⟩

theorem publishOwnAvatarPointer_same (n : NativeSession) (avatarId : Option String) :
    (n.publishOwnAvatarPointer avatarId).node = n.node ∧ (n.publishOwnAvatarPointer avatarId).identity = n.identity := by
  unfold NativeSession.publishOwnAvatarPointer
  split <;> exact ⟨rfl, rfl⟩

theorem NodeOwn.of_same {n n' : NativeSession} (h : NodeOwn n) (hnode : n'.node = n.node) (hidentity : n'.identity = n.identity) :
    NodeOwn n' := fun identity hn => hidentity.trans (h identity (hnode ▸ hn))

/-! ### What does not touch the profile -/

variable {b : ProfileApp}

/-- The labels and the avatar that are shown are the same. -/
def SameShown (p p' : Profile) : Prop :=
  p'.fingerprint = p.fingerprint ∧ p'.displayName = p.displayName ∧ p'.bio = p.bio ∧ p'.avatarId = p.avatarId ∧
    p'.username = p.username

theorem SameShown.of_eq {p p' : Profile} (h : p' = p) : SameShown p p' := h ▸ ⟨rfl, rfl, rfl, rfl, rfl⟩

theorem OwnProfile.pointer_of_kept (h : a.OwnProfile) (hstorage : b.storage = a.storage)
    (hnative : PointerKept a.native b.native) : ∀ id, b.native.avatarPointer = some (some id) →
      ∃ identity, b.native.identity = some identity ∧ (b.storage identity.fingerprint).avatarId = some id := by
  intro id hid
  rcases hnative with hnone | ⟨hpointer, hidentity⟩
  · rw [hnone] at hid
    cases hid
  · rw [hpointer] at hid
    rw [hidentity, hstorage]
    exact h.avatarPointer id hid

theorem OwnProfile.of_kept (h : a.OwnProfile) (hstorage : b.storage = a.storage) (hshown : SameShown a.profile b.profile)
    (hnative : PointerKept a.native b.native) : b.OwnProfile := by
  obtain ⟨hfingerprint, hname, hbio, hid, huser⟩ := hshown
  refine ⟨?_, ?_, ?_, ?_, h.pointer_of_kept hstorage hnative⟩
  · rw [hname, hfingerprint, hstorage]
    exact h.displayName
  · rw [hbio, hfingerprint, hstorage]
    exact h.bio
  · rw [hid, hfingerprint, hstorage]
    exact h.avatarId
  · rw [huser, hfingerprint, hstorage]
    exact h.username

/-- The empty profile shows nothing. -/
theorem OwnProfile.of_empty (h : a.OwnProfile) (hstorage : b.storage = a.storage) (hprofile : b.profile = .empty)
    (hnative : PointerKept a.native b.native) : b.OwnProfile := by
  refine ⟨.inl (by rw [hprofile]; rfl), .inl (by rw [hprofile]; rfl), ?_, ?_, h.pointer_of_kept hstorage hnative⟩
  · rw [hprofile]
    exact fun id hid => by cases hid
  · rw [hprofile]
    exact fun id hid => by cases hid

theorem Waits.of_subset (h : a.Waits) (hstorage : b.storage = a.storage)
    (hpending : ∀ task ∈ b.pending, task ∈ a.pending ∨ a.Current task.run ∧
      ∀ name, task = .reconciling task.run name → task.run.stored.username = some name) : b.Waits := by
  refine ⟨fun task htask => ?_, fun run name htask => ?_⟩
  · rw [Current, hstorage]
    exact (hpending task htask).elim (h.current task) And.left
  · exact (hpending _ htask).elim (h.asked run name) fun hnew => hnew.2 name rfl

theorem Current.refl (fingerprint : String) (accounts : List AccountSlot) (slot : ℕ) :
    a.Current ⟨fingerprint, accounts, slot, a.storage fingerprint⟩ :=
  ⟨rfl, rfl, rfl, fun _ h => h⟩

/-! ### The account changes -/

/-- What `bootstrap` does before it awaits the storage. -/
theorem bootstrap_same (a : ProfileApp) :
    a.bootstrap.storage = a.storage ∧ a.bootstrap.profile = a.profile ∧ a.bootstrap.native = a.native ∧
      (a.Waits → a.bootstrap.Waits) := by
  unfold ProfileApp.bootstrap
  split
  · exact ⟨rfl, rfl, rfl, id⟩
  · refine ⟨rfl, rfl, rfl, fun h => h.of_subset rfl fun task htask => ?_⟩
    rcases List.mem_append.mp htask with htask | htask
    · exact .inl htask
    · obtain rfl := List.mem_singleton.mp htask
      exact .inr ⟨Current.refl _ _ _, fun name hname => by cases hname⟩

theorem afterAccountChange_same (a : ProfileApp) :
    a.afterAccountChange.storage = a.storage ∧ (a.afterAccountChange.profile = a.profile ∨ a.afterAccountChange.profile = .empty) ∧
      a.afterAccountChange.native = a.native ∧ (a.Waits → a.afterAccountChange.Waits) := by
  unfold afterAccountChange
  split
  · obtain ⟨hstorage, hprofile, hnative, hwaits⟩ := bootstrap_same a
    exact ⟨hstorage, .inl hprofile, hnative, hwaits⟩
  · exact ⟨rfl, .inr rfl, rfl, fun h => ⟨h.current, h.asked⟩⟩

/-- A change of accounts leaves the profile, or empties it. -/
theorem OwnProfile.afterAccountChange (h : a.OwnProfile) (hw : a.Waits) {native : NativeSession}
    (hnative : PointerKept a.native native) :
    (ProfileApp.afterAccountChange { a with native }).OwnProfile ∧ (ProfileApp.afterAccountChange { a with native }).Waits ∧
      (ProfileApp.afterAccountChange { a with native }).storage = a.storage := by
  obtain ⟨hstorage, hprofile, hn, hwaits⟩ := afterAccountChange_same { a with native }
  refine ⟨?_, hwaits ⟨hw.current, hw.asked⟩, hstorage⟩
  have hkept : PointerKept a.native (ProfileApp.afterAccountChange { a with native }).native := hn ▸ hnative
  rcases hprofile with hsame | hempty
  · exact h.of_kept hstorage (.of_eq hsame) hkept
  · exact h.of_empty hstorage hempty hkept

/-! ### The continuations -/

section
variable [BlobStore]

omit [BlobStore] in
theorem eq_some_of_truthy {value : Option String} {id : String} (h : truthy value = some id) : value = some id :=
  (Option.filter_eq_some_iff.mp h).1

theorem stored_of_reserved {stored : StoredProfile} {ready : Bool} {id : String}
    (h : reservedAvatar stored ready = .ok (some id)) : stored.avatarId = some id ∧ ready = true := by
  unfold reservedAvatar at h
  split at h
  · cases h
  · rename_i id' hid
    cases ready with
    | false => cases h
    | true =>
      rw [if_pos rfl] at h
      cases hres : BlobStore.reserve id' with
      | error e => rw [hres] at h; cases h
      | ok reserved =>
        rw [hres] at h
        cases reserved with
        | false => cases h
        | true =>
          obtain rfl : id' = id := Option.some.inj (Except.ok.inj h)
          exact ⟨eq_some_of_truthy hid, rfl⟩

theorem stored_of_deferred {stored : StoredProfile} {shown : Option String} {id : String}
    (h : deferredAvatar stored shown = some id) : stored.avatarId = some id ∧ truthy shown = none := by
  unfold deferredAvatar at h
  split at h
  · rename_i id' hid hshown
    split at h
    · obtain rfl := Option.some.inj h
      exact ⟨eq_some_of_truthy hid, hshown⟩
    · cases h
  · cases h

/-- A turn of the retry loop that finds the store at its account. -/
theorem OwnProfile.retried (h : a.OwnProfile) (hw : a.Waits) (hcur : a.Current run) {attempt : ℕ}
    (htimely : (a.native.shared spawn).2 ≠ none → (run.stored.avatarId = none ∧ a.profile.avatarId = none) ∨
      ∃ identity, a.native.identity = some identity ∧ a.profile.fingerprint = identity.fingerprint ∧
        (run.fingerprint = identity.fingerprint ∨ run.stored.avatarId = none ∨ truthy a.profile.avatarId ≠ none)) :
    (a.retried run attempt spawn).OwnProfile ∧ (a.retried run attempt spawn).Waits ∧
      (a.retried run attempt spawn).storage = a.storage := by
  obtain ⟨hidentity, hpointer, hnode⟩ := shared_same a.native spawn
  unfold ProfileApp.retried
  rcases hshared : a.native.shared spawn with ⟨native, _ | node⟩
  · rw [hshared] at hidentity hpointer
    refine ⟨h.of_kept rfl ⟨rfl, rfl, rfl, rfl, rfl⟩ (.inr ⟨hpointer, hidentity⟩), hw.of_subset rfl fun task htask => ?_, rfl⟩
    rcases List.mem_append.mp htask with htask | htask
    · exact .inl htask
    · obtain rfl : task = .retrying run (attempt + 1) := by
        split at htask
        · exact List.mem_singleton.mp htask
        · exact absurd htask List.not_mem_nil
      exact .inr ⟨hcur, fun name hname => by cases hname⟩
  · rw [hshared] at hidentity hpointer hnode
    have hmeets := htimely (by rw [hshared]; exact Option.some_ne_none node)
    have hpublished (avatarId : Option String) :
        native.publishOwnAvatarPointer avatarId = { native with avatarPointer := some avatarId } := by
      rw [NativeSession.publishOwnAvatarPointer, show native.node = some node from hnode]
    -- An avatar that the loop takes up belongs to the account that is active and shown.
    have hdeferred : ∀ id, deferredAvatar run.stored a.profile.avatarId = some id → ∃ identity,
        a.native.identity = some identity ∧ a.profile.fingerprint = identity.fingerprint ∧
          (a.storage identity.fingerprint).avatarId = some id := by
      intro id hid
      obtain ⟨hstored, hshown⟩ := stored_of_deferred hid
      rcases hmeets with ⟨hnone, -⟩ | ⟨identity, hact, hfp, hrun | hnone | hne⟩
      · rw [hstored] at hnone; cases hnone
      · exact ⟨identity, hact, hfp, by rw [← hrun, hcur.2.2.1, hstored]⟩
      · rw [hstored] at hnone; cases hnone
      · exact absurd hshown hne
    rcases hdef : deferredAvatar run.stored a.profile.avatarId with _ | avatarId
    · refine ⟨⟨h.displayName, h.bio, h.avatarId, h.username, fun id hid => ?_⟩,
        hw.of_subset rfl fun task htask => .inl htask, rfl⟩
      dsimp only at hid
      rw [hpublished] at hid
      have hshown : a.profile.avatarId = some id := Option.some.inj hid
      rcases hmeets with ⟨-, hnone⟩ | ⟨identity, hact, hfp, -⟩
      · rw [hshown] at hnone; cases hnone
      · exact ⟨identity, by dsimp only; rw [hpublished]; exact hidentity.trans hact, hfp ▸ h.avatarId id hshown⟩
    · obtain ⟨identity, hact, hfp, hstored⟩ := hdeferred avatarId hdef
      refine ⟨⟨h.displayName, h.bio, fun id hid => ?_, h.username, fun id hid => ?_⟩,
        hw.of_subset rfl fun task htask => .inl htask, rfl⟩
      · obtain rfl : avatarId = id := Option.some.inj hid
        show (a.storage a.profile.fingerprint).avatarId = some avatarId
        rw [hfp, hstored]
      · dsimp only at hid
        rw [hpublished] at hid
        obtain rfl : avatarId = id := Option.some.inj (Option.some.inj hid)
        exact ⟨identity, by dsimp only; rw [hpublished]; exact hidentity.trans hact, hstored⟩

/-- The profile that `bootstrap` sets is the one of its run. -/
theorem OwnProfile.shown (h : a.OwnProfile) (hw : a.Waits) (hcur : a.Current run) {identity : Identity}
    {node : Option Identity} {avatarId : Option String} (havatar : ∀ id, avatarId = some id → run.stored.avatarId = some id)
    (huser : ∀ name, run.stored.username = some name → (a.storage run.fingerprint).username = some name) :
    (a.shown run identity node avatarId).OwnProfile ∧ (a.shown run identity node avatarId).Waits ∧
      (a.shown run identity node avatarId).storage = a.storage := by
  refine ⟨⟨?_, ?_, fun id hid => ?_, huser, h.avatarPointer⟩, hw.of_subset rfl fun task htask => ?_, rfl⟩
  · rcases hname : run.stored.displayName with _ | name
    · exact .inl (by simp [ProfileApp.shown, hname])
    · exact .inr (by simp [ProfileApp.shown, hname, hcur.1])
  · rcases hbio : run.stored.bio with _ | bio
    · exact .inl (by simp [ProfileApp.shown, hbio])
    · exact .inr (by simp [ProfileApp.shown, hbio, hcur.2.1])
  · show (a.storage run.fingerprint).avatarId = some id
    rw [hcur.2.2.1, havatar id hid]
  · rcases List.mem_append.mp htask with htask | hreconcile
    · rcases List.mem_append.mp htask with htask | hretry
      · exact .inl htask
      · obtain rfl : task = .retrying run 0 := by
          split at hretry
          · exact absurd hretry List.not_mem_nil
          · exact List.mem_singleton.mp hretry
        exact .inr ⟨hcur, fun name hname => by cases hname⟩
    · obtain ⟨name, hname, rfl⟩ := List.mem_map.mp hreconcile
      refine .inr ⟨hcur, fun name' heq => ?_⟩
      obtain rfl : name = name' := (BootstrapTask.reconciling.inj heq).2
      exact eq_some_of_truthy (Option.mem_toList.mp hname)

theorem OwnProfile.loaded (h : a.OwnProfile) (hw : a.Waits) (hnode : NodeOwn a.native) (hcur : a.Current run)
    (htimely : ∀ identity, a.native.identity = some identity →
      (run.fingerprint = identity.fingerprint ∨ run.stored.avatarId = none ∨ (a.native.shared spawn).2 = none) ∧
        ∀ name, run.stored.username = some name → (a.storage run.fingerprint).username = some name) :
    (a.loaded run spawn).OwnProfile ∧ (a.loaded run spawn).Waits ∧ (a.loaded run spawn).storage = a.storage := by
  obtain ⟨hidentity, hpointer, hshares⟩ := shared_same a.native spawn
  have hown := nodeOwn_shared hnode spawn
  unfold ProfileApp.loaded
  rcases hshared : a.native.shared spawn with ⟨native, node⟩
  rw [hshared] at hidentity hpointer hshares hown htimely
  dsimp only at hidentity hpointer hshares hown htimely ⊢
  have hsame : PointerKept a.native native := .inr ⟨hpointer, hidentity⟩
  rcases hres : reservedAvatar run.stored node.isSome with error | avatarId
  · exact ⟨h.of_kept rfl (.of_eq rfl) hsame, hw.of_subset rfl fun task htask => .inl htask, rfl⟩
  rcases node with _ | node
  · -- Without a node nothing is published, and no avatar is shown.
    obtain rfl : avatarId = none := by
      rcases avatarId with _ | id
      · rfl
      · cases (stored_of_reserved hres).2
    rcases hact : native.identity with _ | identity
    · simp only [Option.isSome_none, Bool.false_eq_true, if_false, hact]
      exact ⟨h.of_kept rfl (.of_eq rfl) hsame, hw.of_subset rfl fun task htask => .inl htask, trivial⟩
    · simp only [Option.isSome_none, Bool.false_eq_true, if_false, hact]
      have hk : OwnProfile { a with native } := h.of_kept rfl (.of_eq rfl) hsame
      exact hk.shown ⟨hw.current, hw.asked⟩ hcur (fun _ hid => by cases hid) (htimely identity (hidentity.symm.trans hact)).2
  · have hact : native.identity = some node := hown node hshares
    have hpublished : native.publishOwnAvatarPointer avatarId = { native with avatarPointer := some avatarId } := by
      rw [NativeSession.publishOwnAvatarPointer, hshares]
    have hmeets := htimely node (hidentity.symm.trans hact)
    have hpointed : OwnProfile { a with native := { native with avatarPointer := some avatarId } } := by
      refine ⟨h.displayName, h.bio, h.avatarId, h.username, fun id hid => ⟨node, hact, ?_⟩⟩
      have hstored := (stored_of_reserved ((Option.some.inj hid) ▸ hres)).1
      rcases hmeets.1 with hrun | hnone | hnone
      · show (a.storage node.fingerprint).avatarId = some id
        rw [← hrun, hcur.2.2.1, hstored]
      · rw [hstored] at hnone; cases hnone
      · cases hnone
    have hact' : ({ native with avatarPointer := some avatarId } : NativeSession).identity = some node := hact
    simp only [Option.isSome_some, if_true, hpublished, hact']
    exact hpointed.shown ⟨hw.current, hw.asked⟩ hcur (fun id hid => (stored_of_reserved (hid ▸ hres)).1) hmeets.2

theorem nodeOwn_loaded (h : NodeOwn a.native) : NodeOwn (a.loaded run spawn).native := by
  have hshared := nodeOwn_shared h spawn
  unfold ProfileApp.loaded
  dsimp only
  split
  · exact hshared
  · have hpublished (avatarId : Option String) : NodeOwn (if (a.native.shared spawn).2.isSome then
        (a.native.shared spawn).1.publishOwnAvatarPointer avatarId else (a.native.shared spawn).1) := by
      split
      · exact hshared.of_same (publishOwnAvatarPointer_same _ _).1 (publishOwnAvatarPointer_same _ _).2
      · exact hshared
    split <;> exact hpublished _

theorem nodeOwn_retried (h : NodeOwn a.native) {attempt : ℕ} : NodeOwn (a.retried run attempt spawn).native := by
  have hshared := nodeOwn_shared h spawn
  unfold ProfileApp.retried
  dsimp only
  split
  · exact hshared
  · exact hshared.of_same (publishOwnAvatarPointer_same _ _).1 (publishOwnAvatarPointer_same _ _).2

omit [BlobStore] in
/-- The reconciliation takes a username out, and nothing else. -/
theorem reconciled_removes (a : ProfileApp) (run : BootstrapRun) (name owner : String) (hne : owner ≠ a.profile.publicKey)
    (fingerprint : String) :
    ((a.reconciled run name (.found owner)).storage fingerprint).displayName = (a.storage fingerprint).displayName ∧
      ((a.reconciled run name (.found owner)).storage fingerprint).bio = (a.storage fingerprint).bio ∧
      ((a.reconciled run name (.found owner)).storage fingerprint).avatarId = (a.storage fingerprint).avatarId ∧
      ((a.reconciled run name (.found owner)).storage fingerprint).username =
        if fingerprint = run.fingerprint then none else (a.storage fingerprint).username := by
  rw [reconciled, if_neg hne]
  by_cases hfp : fingerprint = run.fingerprint
  · subst hfp
    simp
  · simp [hfp]

omit [BlobStore] in
theorem OwnProfile.reconciled (h : a.OwnProfile) (hw : a.Waits) (name : String) (owner : LedgerUsernameOwner) :
    (a.reconciled run name owner).OwnProfile ∧ (a.reconciled run name owner).Waits := by
  cases owner with
  | notFound => exact ⟨h.of_kept rfl (.of_eq rfl) (.inr ⟨rfl, rfl⟩), hw.of_subset rfl fun task htask => .inl htask⟩
  | rejected => exact ⟨h, hw⟩
  | found owner =>
    by_cases hkey : owner = a.profile.publicKey
    · rw [ProfileApp.reconciled, if_pos hkey]
      exact ⟨h, hw⟩
    · have hremoves := reconciled_removes a run name owner hkey
      have hprofile : (a.reconciled run name (.found owner)).profile = { a.profile with username := none } := by
        rw [ProfileApp.reconciled, if_neg hkey]
      have hnative : (a.reconciled run name (.found owner)).native = a.native := by rw [ProfileApp.reconciled, if_neg hkey]
      have hpending : (a.reconciled run name (.found owner)).pending = a.pending := by rw [ProfileApp.reconciled, if_neg hkey]
      refine ⟨⟨?_, ?_, ?_, ?_, ?_⟩, fun task htask => ?_, fun run' name' htask => ?_⟩
      · rw [hprofile, (hremoves _).1]
        exact h.displayName
      · rw [hprofile, (hremoves _).2.1]
        exact h.bio
      · rw [hprofile, (hremoves _).2.2.1]
        exact h.avatarId
      · rw [hprofile]
        exact fun _ hnone => by cases hnone
      · intro id hid
        rw [hnative] at hid
        obtain ⟨identity, hact, hstored⟩ := h.avatarPointer id hid
        exact ⟨identity, hnative ▸ hact, by rw [(hremoves _).2.2.1, hstored]⟩
      · rw [hpending] at htask
        obtain ⟨h1, h2, h3, h4⟩ := hw.current task htask
        rw [Current, (hremoves _).1, (hremoves _).2.1, (hremoves _).2.2.1, (hremoves _).2.2.2]
        refine ⟨h1, h2, h3, fun name' hname => h4 name' ?_⟩
        split at hname
        · cases hname
        · exact hname
      · rw [hpending] at htask
        exact hw.asked run' name' htask

/-! ### Steps -/

omit [BlobStore] in
theorem OwnProfile.taken (h : a.OwnProfile) (hw : a.Waits) (e : ProfileEvent) : (a.taken e).OwnProfile ∧ (a.taken e).Waits := by
  refine ⟨⟨h.displayName, h.bio, h.avatarId, h.username, h.avatarPointer⟩, hw.of_subset rfl fun task htask => .inl ?_⟩
  unfold ProfileApp.taken at htask
  cases he : e.task? with
  | none => rwa [he] at htask
  | some task' =>
    rw [he] at htask
    exact List.mem_of_mem_erase htask

omit [BlobStore] in
/-- A continuation that waits has what the storage has. -/
theorem Waits.enabled (hw : a.Waits) {e : ProfileEvent} {task : BootstrapTask} (he : a.Enabled e) (htask : e.task? = some task) :
    a.Current task.run := hw.current task (he task htask)

/-- A step in which a continuation meets its account. -/
theorem OwnProfile.step {device : ℕ → Option Identity} {e : ProfileEvent} (h : a.OwnProfile) (hw : a.Waits)
    (hnode : NodeOwn a.native) (he : a.Enabled e) (htimely : a.Timely device e) :
    (a.step e).OwnProfile ∧ (a.step e).Waits ∧ NodeOwn (a.step e).native := by
  obtain ⟨ht, htw⟩ := h.taken hw e
  cases e with
  | bootstrap =>
    obtain ⟨hstorage, hprofile, hnative, hwaits⟩ := bootstrap_same a
    exact ⟨h.of_kept hstorage (.of_eq hprofile) (hnative ▸ .inr ⟨rfl, rfl⟩), hwaits hw, hnative ▸ hnode⟩
  | signOut =>
    obtain ⟨hown, hwaits, -⟩ := h.afterAccountChange hw (pointerKept_removeAccountSlot a.native a.native.activeSlot)
    refine ⟨hown, hwaits, ?_⟩
    rw [ProfileApp.step, ProfileApp.signOut, (afterAccountChange_same _).2.2.1]
    exact nodeOwn_removeAccountSlot hnode _
  | removeAccount slot =>
    obtain ⟨hown, hwaits, -⟩ := h.afterAccountChange hw (pointerKept_removeAccountSlot a.native slot)
    refine ⟨hown, hwaits, ?_⟩
    rw [ProfileApp.step, ProfileApp.removeAccount, (afterAccountChange_same _).2.2.1]
    exact nodeOwn_removeAccountSlot hnode _
  | switchAccount slot =>
    have hkept := pointerKept_switchAccount a.native slot
    have hnode' := nodeOwn_switchAccount a.native slot
    rw [ProfileApp.step, ProfileApp.switchAccount]
    rcases hswitch : a.native.switchAccount slot with ⟨native, _ | _⟩
    · rw [hswitch] at hkept hnode'
      exact ⟨h.of_kept rfl (.of_eq rfl) hkept, hw.of_subset rfl fun task htask => .inl htask, hnode'⟩
    · rw [hswitch] at hkept hnode'
      obtain ⟨hown, hwaits, -⟩ := h.afterAccountChange hw hkept
      refine ⟨hown, hwaits, ?_⟩
      dsimp only
      rw [(afterAccountChange_same _).2.2.1]
      exact hnode'
  | pump spawn =>
    exact ⟨h.of_kept rfl (.of_eq rfl) (pointerKept_shared a.native spawn), hw.of_subset rfl fun task htask => .inl htask,
      nodeOwn_shared hnode spawn⟩
  | loaded run spawn =>
    obtain ⟨hown, hwaits, -⟩ := ht.loaded htw hnode (hw.enabled he rfl) htimely
    exact ⟨hown, hwaits, nodeOwn_loaded hnode⟩
  | timer run attempt spawn =>
    obtain ⟨hown, hwaits, -⟩ := ht.retried htw (hw.enabled he rfl) htimely
    exact ⟨hown, hwaits, nodeOwn_retried (a := a.taken _) hnode⟩
  | ledger run name owner =>
    obtain ⟨hown, hwaits⟩ := ht.reconciled htw name owner
    refine ⟨hown, hwaits, ?_⟩
    have hnative : ((a.taken (.ledger run name owner)).reconciled run name owner).native = a.native := by
      unfold ProfileApp.reconciled
      split
      · split <;> rfl
      · rfl
      · rfl
    rw [ProfileApp.step, hnative]
    exact hnode

end

end ProfileApp

/-! ### Runs -/

section
variable [BlobStore]

end

section

/-- Each blob is on disk. -/
@[reducible] def cachedBlobs : BlobStore := ⟨fun _ => .ok true, fun id => some id⟩

attribute [local instance] cachedBlobs

end
end SpiritChat
