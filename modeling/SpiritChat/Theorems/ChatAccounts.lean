import SpiritChat.Theorems.ChatHistory

/-! # Chats of several accounts

The store attributes what happens to the fingerprint that it was last loaded for. That is the right account as long as
no event, message or read of one account is handled while another one is loaded. -/

namespace SpiritChat.App
open Lib

/-- The chats in memory belong to the account whose they are said to be. -/
structure ChatState.Separate (s : ChatState) : Prop where
  messages : ∀ peerId list, s.messages.get peerId = some list → ∀ m ∈ list, m.account = s.myFingerprint
  conversations : ∀ c ∈ s.conversations.values, c.account = s.myFingerprint

/-- What is stored under the keys of an account belongs to it. -/
structure Storage.Separate (s : Storage) : Prop where
  messages : ∀ myFingerprint peerId, ∀ m ∈ s.history myFingerprint peerId, m.account = myFingerprint
  conversations : ∀ myFingerprint, ∀ c ∈ (s.conversations myFingerprint).getD [], c.account = myFingerprint

/-- Whose messages `openConversation` goes on with. -/
def Continuation.reader? : Continuation → Option String
  | .openConversation myFingerprint _ (_ :: _) => some myFingerprint
  | _ => none

/-- What the active account sends, receives or reads is handled while the store is loaded for it. -/
def AtHome (a : App) : Action → Prop
  | .deliver => a.store.myFingerprint ≠ "" → ∀ e ∈ a.emitted.head?, e.2.sender?.isSome → e.1 = a.store.myFingerprint
  | .sendMessage peerId text localId _ => a.Sends peerId text localId → a.native = some a.store.myFingerprint
  | .resume i => ∀ reader ∈ a.resumable[i]?.bind Continuation.reader?, reader = a.store.myFingerprint
  | _ => True

/-! ### What a run knows of accounts -/

/-- A write holds its own account's data only. -/
def Request.Separate : Request → Prop
  | .setMessages myFingerprint _ list => ∀ m ∈ list, m.account = myFingerprint
  | .setConversations myFingerprint list => ∀ c ∈ list, c.account = myFingerprint
  | _ => True

/-- What was read for an account is of that account. -/
def Continuation.Separate : Continuation → Prop
  | .loadForFingerprint myFingerprint list => ∀ c ∈ list, c.account = myFingerprint
  | .openConversation myFingerprint _ list => ∀ m ∈ list, m.account = myFingerprint

/-- Each conversation and message, in memory, on disk and on its way, is under its account's fingerprint. -/
structure AccountInv (a : App) : Prop where
  store : a.store.Separate
  storage : a.storage.Separate
  requests : ∀ r ∈ a.requests, r.Separate
  resumable : ∀ c ∈ a.resumable, c.Separate

variable {a : App} {s : ChatState} {peerId : String}

namespace ChatState.Separate

theorem initial : ChatState.initial.Separate where
  messages _ _ h := absurd h (by simp [ChatState.initial])
  conversations _ h := absurd h (by simp [ChatState.initial])

/-- What a function of the store leaves in memory and asks of the storage. -/
def Result (r : ChatState × List Request) : Prop := r.1.Separate ∧ ∀ request ∈ r.2, request.Separate

theorem idle (h : s.Separate) : Result (s, []) := ⟨h, fun _ h => absurd h List.not_mem_nil⟩

theorem setMessages (h : s.Separate) {list : List ChatMessage} (hl : ∀ m ∈ list, m.account = s.myFingerprint) :
    ({ s with messages := s.messages.set peerId list } : ChatState).Separate := by
  refine ⟨fun p l hp => ?_, h.conversations⟩
  change (s.messages.set peerId list).get p = some l at hp
  rw [Record.get_set] at hp
  split at hp
  · obtain rfl := Option.some.inj hp
    exact hl
  · exact h.messages p l hp

theorem history (h : s.Separate) {m : ChatMessage} (hm : m ∈ s.history peerId) : m.account = s.myFingerprint := by
  unfold ChatState.history at hm
  rcases hp : s.messages.get peerId with _ | list
  · rw [hp] at hm
    exact absurd hm List.not_mem_nil
  · rw [hp] at hm
    exact h.messages peerId list hp m hm

theorem addMessage (h : s.Separate) (peer : PeerInfo) {message : ChatMessage} (hm : message.account = s.myFingerprint) :
    Result (s.addMessage peerId peer message) := by
  have hlist : ∀ m ∈ s.history peerId ++ [message], m.account = s.myFingerprint :=
    List.forall_mem_append.2 ⟨fun _ => h.history, List.forall_mem_singleton.2 hm⟩
  have hconversations : ∀ c ∈ (s.conversations.set peerId { peer with
      account := message.account, lastMessageText := message.text, lastMessageAt := message.atMillis }).values,
      c.account = s.myFingerprint := by
    intro c hc
    rcases Record.mem_values_set hc with rfl | hc
    · exact hm
    · exact h.conversations c hc
  refine ⟨⟨(h.setMessages hlist).messages, hconversations⟩, fun request hr => ?_⟩
  rcases List.mem_cons.1 hr with rfl | hr
  · exact hlist
  · obtain rfl := List.mem_singleton.1 hr
    exact hconversations

theorem updateStatus (h : s.Separate) (localId : String) (status : MessageStatus) :
    Result (s.updateStatus peerId localId status) := by
  unfold ChatState.updateStatus
  split
  · exact h.idle
  · rename_i list hlist
    have hl : ∀ m ∈ list.map fun m => if m.localId = localId then { m with status } else m,
        m.account = s.myFingerprint := by
      intro m hm
      obtain ⟨m, hmem, rfl⟩ := List.mem_map.1 hm
      split
      · exact h.messages peerId list hlist m hmem
      · exact h.messages peerId list hlist m hmem
    exact ⟨h.setMessages hl, List.forall_mem_singleton.2 hl⟩

theorem handleChatEvent (h : s.Separate) {account : String} {event : ChatEvent}
    (ha : s.myFingerprint ≠ "" → event.sender?.isSome → account = s.myFingerprint) :
    Result (s.handleChatEvent account event) := by
  unfold ChatState.handleChatEvent
  split
  · exact h.idle
  · rename_i hactive
    split
    · have hs : ∀ activePeers, ({ s with activePeers } : ChatState).Separate := fun _ => ⟨h.messages, h.conversations⟩
      exact (hs _).addMessage _ (ha hactive rfl)
    · exact h.updateStatus _ _
    · exact h.updateStatus _ _

theorem resume (h : s.Separate) {c : Continuation} (hc : c.Separate)
    (hr : ∀ reader ∈ c.reader?, reader = s.myFingerprint) : (s.resume c).Separate := by
  cases c with
  | loadForFingerprint f list =>
    refine ⟨fun p l hl => absurd hl (by simp [ChatState.resume]), fun c hmem => ?_⟩
    have hentry := Record.mem_values_fromEntries hmem
    rw [List.map_map, List.mem_map] at hentry
    obtain ⟨c', hc', rfl⟩ := hentry
    exact hc c' hc'
  | openConversation f p list =>
    refine h.setMessages ?_
    cases list with
    | nil => exact fun m hm => absurd hm List.not_mem_nil
    | cons m list =>
      obtain rfl := hr f rfl
      exact hc

end ChatState.Separate

namespace AccountInv

theorem start (native : Option String) {storage : Storage} (h : storage.Separate) : AccountInv (start native storage) where
  store := .initial
  storage := h
  requests _ h := absurd h List.not_mem_nil
  resumable _ h := absurd h List.not_mem_nil

theorem ran (h : AccountInv a) {r : ChatState × List Request} (hr : ChatState.Separate.Result r) : AccountInv (a.ran r) :=
  { h with store := hr.1, requests := List.forall_mem_append.2 ⟨h.requests, hr.2⟩ }

/-- A request is served. -/
theorem served {storage : Storage} (h : storage.Separate) {request : Request} (hr : request.Separate) :
    (storage.serve request).1.Separate ∧ ∀ c ∈ (storage.serve request).2, c.Separate := by
  cases request with
  | getConversations f => exact ⟨h, List.forall_mem_singleton.2 (h.conversations f)⟩
  | getMessages f p => exact ⟨h, List.forall_mem_singleton.2 (h.messages f p)⟩
  | setConversations f list =>
    refine ⟨⟨h.messages, fun f' => ?_⟩, fun _ h => absurd h List.not_mem_nil⟩
    dsimp only [Storage.serve]
    rw [Table.insert_apply]
    split
    · rename_i hf
      exact hf ▸ hr
    · exact h.conversations f'
  | setMessages f p list =>
    refine ⟨⟨fun f' p' => ?_, h.conversations⟩, fun _ h => absurd h List.not_mem_nil⟩
    rw [HistoryInv.history_setMessages]
    split
    · rename_i he
      exact (Prod.mk.inj he).1 ▸ hr
    · exact h.messages f' p'

theorem step (h : AccountInv a) {action : Action} (ha : a.AtHome action) : AccountInv (a.step action) := by
  cases action with
  | switchAccount account => exact { h with }
  | emit event =>
    unfold App.step
    dsimp only
    split
    · exact h
    · exact { h with }
  | deliver =>
    unfold App.step
    dsimp only
    split
    · exact h
    · rename_i account event emitted he
      have hinv : AccountInv { a with emitted } := { h with }
      exact hinv.ran (h.store.handleChatEvent fun hactive hsender => ha hactive (account, event) (by rw [he]; rfl) hsender)
  | loadForFingerprint f =>
    unfold App.step ChatState.loadForFingerprint
    dsimp only
    split
    · exact h.ran h.store.idle
    · exact h.ran ⟨h.store, List.forall_mem_singleton.2 trivial⟩
  | reset => exact { h with store := .initial }
  | openConversation peer =>
    have hs : ∀ activePeers, ({ a.store with activePeers } : ChatState).Separate :=
      fun _ => ⟨h.store.messages, h.store.conversations⟩
    unfold App.step ChatState.openConversation
    dsimp only
    split
    · exact h.ran (hs _).idle
    · exact h.ran ⟨hs _, List.forall_mem_singleton.2 trivial⟩
  | sendMessage peerId text localId now =>
    unfold App.step ChatState.sendMessage
    dsimp only
    split
    · exact h.ran h.store.idle
    · rename_i htext
      split
      · rename_i peer account id hpeer hnative
        obtain ⟨active, hactive, hid⟩ := Option.bind_eq_some_iff.1 hnative
        obtain ⟨id, hid, hpair⟩ := Option.map_eq_some_iff.1 hid
        have hhome := ha (sends htext hpeer hactive hid)
        have haccount : account = a.store.myFingerprint :=
          (congrArg Prod.fst hpair).symm.trans (Option.some.inj (hactive.symm.trans hhome))
        exact h.ran (h.store.addMessage _ haccount)
      · exact h.ran h.store.idle
  | serve i =>
    unfold App.step
    dsimp only
    split
    · exact h
    · rename_i request hi
      obtain ⟨hstorage, hnew⟩ := served h.storage (h.requests request (List.mem_of_getElem? hi))
      exact { h with
        storage := hstorage
        requests := fun r hr => h.requests r (List.mem_of_mem_eraseIdx hr)
        resumable := List.forall_mem_append.2 ⟨h.resumable, hnew⟩ }
  | fail i => exact { h with requests := fun r hr => h.requests r (List.mem_of_mem_eraseIdx hr) }
  | resume i =>
    unfold App.step
    dsimp only
    split
    · exact h
    · rename_i continuation hi
      refine { h with
        store := h.store.resume (h.resumable _ (List.mem_of_getElem? hi)) fun reader hr => ha reader ?_
        resumable := fun c hc => h.resumable c (List.mem_of_mem_eraseIdx hc) }
      rw [hi]
      exact hr
  | restart =>
    exact { h with
      store := .initial
      requests := fun _ h => absurd h List.not_mem_nil
      resumable := fun _ h => absurd h List.not_mem_nil }

end AccountInv

/-- No chat of one account is in memory for another one or under its keys. -/
theorem accounts_separate {native : Option String} {storage : Storage} (hs : storage.Separate)
    (h : Run step AtHome (start native storage) a) : a.store.Separate ∧ a.storage.Separate := by
  have hinv : AccountInv a := h.invariant AccountInv (.start native hs) fun _ _ hi ha => hi.step ha
  exact ⟨hinv.store, hinv.storage⟩

/-! ### Accounts that mix -/

instance (a : App) : ∀ action, Decidable (a.AtHome action)
  | .deliver => inferInstanceAs (Decidable (_ ≠ "" → ∀ e : _ × ChatEvent, e ∈ _ → e.2.sender?.isSome → e.1 = _))
  | .sendMessage _ _ _ _ => inferInstanceAs (Decidable (_ ∧ _ ∧ _ ∧ _ → a.native = _))
  | .resume _ => inferInstanceAs (Decidable (∀ reader ∈ _, reader = a.store.myFingerprint))
  | .switchAccount _ | .emit _ | .loadForFingerprint _ | .reset | .openConversation _ | .serve _ | .fail _ | .restart =>
    .isTrue trivial

namespace Mixed

def fresh : App := start none ⟨.empty, .empty⟩

def login (account : String) : List Action := [.switchAccount (some account), .loadForFingerprint account, .serve 0, .resume 0]

/-- `p` writes to the active account. -/
def receive : List Action := [.emit (.messageReceived "p" "f" "k" "hello" 1), .deliver]

def store : List Action := [.serve 0, .serve 0]

def switch (account : String) : List Action := [.switchAccount (some account)]

def reopen : List Action :=
  .restart :: login "A" ++ [.openConversation ⟨"p", "f", "k", none⟩, .serve 0]

/-- `B` is loaded, and `openConversation` goes on only then. -/
def goOn : List Action := [.loadForFingerprint "B", .serve 0, .resume 1, .resume 0]

/-- `B` is active natively and receives a message while `A` is still loaded. -/
def early : App := (login "A" ++ switch "B" ++ receive ++ store).foldl step fresh

/-- The chat with `p` is opened for `A`, and goes on when `B` is loaded. -/
def late : App := (login "A" ++ receive ++ store ++ reopen ++ switch "B" ++ goOn).foldl step fresh

def apart : App := (login "A" ++ receive ++ store ++ login "B" ++ receive).foldl step fresh

theorem fresh_separate : Storage.Separate ⟨.empty, .empty⟩ where
  messages _ _ _ h := absurd h List.not_mem_nil
  conversations _ _ h := absurd h List.not_mem_nil

end Mixed

open Mixed in
theorem accounts_separate_apart : (apart.store.Separate ∧ apart.storage.Separate) ∧
    apart.store.myFingerprint = "B" ∧ (apart.store.history "p").length = 1 ∧ (apart.storage.history "A" "p").length = 1 :=
  ⟨accounts_separate fresh_separate (Run.of_follows (by decide +kernel)), by decide +kernel, by decide +kernel, by decide +kernel⟩

open Mixed in
/-- A message of `B` is held and stored for `A`; a message of `A` is held for `B`. -/
theorem accounts_mix :
    (Run step (fun _ _ => True) fresh early ∧ ¬early.store.Separate ∧ ¬early.storage.Separate) ∧
    Run step (fun _ _ => True) fresh late ∧ ¬late.store.Separate := by
  refine ⟨⟨Run.of_follows (by decide +kernel), fun h => ?_, fun h => ?_⟩, Run.of_follows (by decide +kernel), fun h => ?_⟩
  · have hmem : (⟨"B", "in-p-1", false, "hello", 1000, .sent⟩ : ChatMessage) ∈ early.store.history "p" := by decide +kernel
    exact absurd (h.history hmem) (by decide +kernel)
  · have hmem : (⟨"B", "in-p-1", false, "hello", 1000, .sent⟩ : ChatMessage) ∈ early.storage.history "A" "p" := by decide +kernel
    exact absurd (h.messages "A" "p" _ hmem) (by decide +kernel)
  · have hmem : (⟨"A", "in-p-1", false, "hello", 1000, .sent⟩ : ChatMessage) ∈ late.store.history "p" := by decide +kernel
    exact absurd (h.history hmem) (by decide +kernel)

end SpiritChat.App
