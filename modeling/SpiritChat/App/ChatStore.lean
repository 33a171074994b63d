import SpiritChat.Lib.Record
import SpiritChat.Lib.Run
import SpiritChat.Lib.Table

/-! # The chat store of the app

`store/chat.ts`: the chats of the active account as the screens see them, and their copies in `AsyncStorage`. The
store runs one function at a time, up to its next `await`. What it asks of the storage is served later, in any order,
and the function that waits for a read goes on later still. Stored values are kept decoded. -/

namespace SpiritChat.App
open Lib

/-- How far a message got. -/
inductive MessageStatus where
  | sending
  | sent
  | queued
deriving DecidableEq

/-- `account` is not in the source: the account whose `ChatManager` sent or received the message. -/
structure ChatMessage where
  account : String
  localId : String
  outgoing : Bool
  text : String
  atMillis : ℕ
  status : MessageStatus
deriving DecidableEq

/-- What the app knows of a peer. -/
structure PeerInfo where
  peerId : String
  peerFingerprint : String
  peerPublicKeyBase64 : String
  peerUsername : Option String
deriving DecidableEq

/-- `account` is the one of the last message. -/
structure Conversation extends PeerInfo where
  account : String
  lastMessageText : String
  lastMessageAt : ℕ
deriving DecidableEq

/-- What the native side sends to the app's listener. -/
inductive ChatEvent where
  | messageReceived (peerId peerFingerprint peerPublicKeyBase64 plaintext : String) (atSeconds : ℕ)
  | messageSent (peerId localId : String)
  | messageFailed (peerId localId : String)
deriving DecidableEq

/-- The state of `useChatStore`. -/
structure ChatState where
  myFingerprint : String
  conversations : Record Conversation
  activePeers : Record PeerInfo
  messages : Record (List ChatMessage)
deriving DecidableEq

/-- What the store has asked of `AsyncStorage`. -/
inductive Request where
  | getConversations (myFingerprint : String)
  | getMessages (myFingerprint peerId : String)
  | setConversations (myFingerprint : String) (conversations : List Conversation)
  | setMessages (myFingerprint peerId : String) (messages : List ChatMessage)
deriving DecidableEq

/-- A function that goes on with what was read for it. -/
inductive Continuation where
  | loadForFingerprint (myFingerprint : String) (list : List Conversation)
  | openConversation (myFingerprint peerId : String) (list : List ChatMessage)
deriving DecidableEq

/-- What JavaScript's `trim` takes away at both ends. -/
def isWhiteSpace (c : Char) : Bool :=
  (0x9 ≤ c.toNat && c.toNat ≤ 0xd) || (0x2000 ≤ c.toNat && c.toNat ≤ 0x200a) ||
    [0x20, 0xa0, 0x1680, 0x2028, 0x2029, 0x202f, 0x205f, 0x3000, 0xfeff].contains c.toNat

def trim (text : String) : String :=
  .ofList (((text.toList.dropWhile isWhiteSpace).reverse.dropWhile isWhiteSpace).reverse)

namespace ChatState

/-- The store as it is created, and as `reset` leaves it. -/
def initial : ChatState := ⟨"", .empty, .empty, .empty⟩

def loadForFingerprint (s : ChatState) (myFingerprint : String) : ChatState × List Request :=
  if s.myFingerprint = myFingerprint then (s, []) else (s, [.getConversations myFingerprint])

def openConversation (s : ChatState) (peer : PeerInfo) : ChatState × List Request :=
  let opened := { s with activePeers := s.activePeers.set peer.peerId peer }
  match s.messages.get peer.peerId with
  | some _ => (opened, [])
  | none => (opened, [.getMessages s.myFingerprint peer.peerId])

/-- The list that a new message is added to. -/
def history (s : ChatState) (peerId : String) : List ChatMessage := (s.messages.get peerId).getD []

def peer? (s : ChatState) (peerId : String) : Option PeerInfo :=
  (s.activePeers.get peerId).or ((s.conversations.get peerId).map Conversation.toPeerInfo)

/-- The message joins the list and the conversation in memory, and both are written. -/
def addMessage (s : ChatState) (peerId : String) (peer : PeerInfo) (message : ChatMessage) : ChatState × List Request :=
  let nextMessages := s.history peerId ++ [message]
  let nextConversations := s.conversations.set peerId
    { peer with account := message.account, lastMessageText := message.text, lastMessageAt := message.atMillis }
  ({ s with messages := s.messages.set peerId nextMessages, conversations := nextConversations },
    [.setMessages s.myFingerprint peerId nextMessages, .setConversations s.myFingerprint nextConversations.values])

/-- `native` is what `chatSendMessage` makes of the message: the active account and the local id, unless it throws. -/
def sendMessage (s : ChatState) (peerId text : String) (native : Option (String × String)) (now : ℕ) :
    ChatState × List Request :=
  let trimmed := trim text
  if trimmed = "" then (s, [])
  else
    match s.peer? peerId, native with
    | some peer, some (account, localId) =>
      s.addMessage peerId peer ⟨account, localId, true, trimmed, now, .sending⟩
    | _, _ => (s, [])

def updateStatus (s : ChatState) (peerId localId : String) (status : MessageStatus) : ChatState × List Request :=
  match s.messages.get peerId with
  | none => (s, [])
  | some list =>
    let next := list.map fun m => if m.localId = localId then { m with status } else m
    ({ s with messages := s.messages.set peerId next }, [.setMessages s.myFingerprint peerId next])

/-- `account` is the one that the event is about. -/
def handleChatEvent (s : ChatState) (account : String) (event : ChatEvent) : ChatState × List Request :=
  if s.myFingerprint = "" then (s, [])
  else
    match event with
    | .messageReceived peerId peerFingerprint peerPublicKeyBase64 plaintext atSeconds =>
      let known := ((s.conversations.get peerId).map Conversation.toPeerInfo).or (s.activePeers.get peerId)
      let peer : PeerInfo := ⟨peerId, peerFingerprint, peerPublicKeyBase64, known.bind PeerInfo.peerUsername⟩
      let localId := "in-" ++ peerId ++ "-" ++ toString atSeconds
      { s with activePeers := s.activePeers.set peerId peer }.addMessage peerId peer
        ⟨account, localId, false, plaintext, atSeconds * 1000, .sent⟩
    | .messageSent peerId localId => s.updateStatus peerId localId .sent
    | .messageFailed peerId localId => s.updateStatus peerId localId .queued

/-- A function goes on after its `await`. -/
def resume (s : ChatState) : Continuation → ChatState
  | .loadForFingerprint myFingerprint list =>
    ⟨myFingerprint, .fromEntries (list.map fun c => (c.peerId, c)), .empty, .empty⟩
  | .openConversation _ peerId list => { s with messages := s.messages.set peerId list }

end ChatState

def conversationsKey (myFingerprint : String) : String := "chat." ++ myFingerprint ++ ".conversations"

def messagesKey (myFingerprint peerId : String) : String := "chat." ++ myFingerprint ++ ".messages." ++ peerId

theorem append_dot_inj {l l' r r' : List Char} (h : '.' ∉ l) (h' : '.' ∉ l') (he : l ++ '.' :: r = l' ++ '.' :: r') :
    l = l' ∧ r = r' := by
  induction l generalizing l' with
  | nil =>
    cases l' with
    | nil => exact ⟨rfl, (List.cons.inj he).2⟩
    | cons c l' => exact absurd (List.mem_cons.2 (.inl (List.cons.inj he).1)) h'
  | cons c l ih =>
    cases l' with
    | nil => exact absurd (List.mem_cons.2 (.inl (List.cons.inj he).1.symm)) h
    | cons c' l' =>
      obtain ⟨rfl, htail⟩ := List.cons.inj he
      obtain ⟨rfl, hr⟩ := ih (fun hc => h (List.mem_cons_of_mem _ hc)) (fun hc => h' (List.mem_cons_of_mem _ hc)) htail
      exact ⟨rfl, hr⟩

section
variable {f f' p p' : String}

/-- A fingerprint is made of digits and spaces, so the keys of different lists are different. -/
theorem messagesKey_inj (hf : '.' ∉ f.toList) (hf' : '.' ∉ f'.toList) (h : messagesKey f p = messagesKey f' p') :
    f = f' ∧ p = p' := by
  have hl := congrArg String.toList h
  simp only [messagesKey, String.toList_append, List.append_assoc] at hl
  obtain ⟨hff, hrest⟩ := append_dot_inj hf hf' (List.append_cancel_left hl)
  exact ⟨String.toList_injective hff, String.toList_injective (List.append_cancel_left hrest)⟩

theorem conversationsKey_inj (h : conversationsKey f = conversationsKey f') : f = f' := by
  have hl := congrArg String.toList h
  simp only [conversationsKey, String.toList_append, List.append_assoc] at hl
  exact String.toList_injective (List.append_cancel_right (List.append_cancel_left hl))

theorem conversationsKey_ne_messagesKey (hf : '.' ∉ f.toList) (hf' : '.' ∉ f'.toList) :
    conversationsKey f ≠ messagesKey f' p' := by
  intro h
  have hl := congrArg String.toList h
  simp only [conversationsKey, messagesKey, String.toList_append, List.append_assoc] at hl
  exact absurd (List.cons.inj (append_dot_inj hf hf' (List.append_cancel_left hl)).2).1 (by decide)

end

/-- What is stored under `conversationsKey` and `messagesKey`. -/
structure Storage where
  conversations : Table String (List Conversation)
  messages : Table (String × String) (List ChatMessage)

/-- The stored list of a conversation. -/
def Storage.history (s : Storage) (myFingerprint peerId : String) : List ChatMessage :=
  (s.messages (myFingerprint, peerId)).getD []

/-- Serves a request. A read leaves something for its caller. -/
def Storage.serve (s : Storage) : Request → Storage × List Continuation
  | .getConversations myFingerprint =>
    (s, [.loadForFingerprint myFingerprint ((s.conversations myFingerprint).getD [])])
  | .getMessages myFingerprint peerId => (s, [.openConversation myFingerprint peerId (s.history myFingerprint peerId)])
  | .setConversations myFingerprint list => ({ s with conversations := s.conversations.insert myFingerprint list }, [])
  | .setMessages myFingerprint peerId list => ({ s with messages := s.messages.insert (myFingerprint, peerId) list }, [])

end SpiritChat.App

namespace SpiritChat
open Lib App

/-- The app with the account that is active on the native side, and the events that were emitted for an account and
not handled yet. -/
structure App where
  native : Option String
  emitted : List (String × App.ChatEvent)
  store : ChatState
  storage : Storage
  requests : List Request
  resumable : List Continuation

namespace App

/-- What the app, the native side and the storage do next. -/
inductive Action where
  /-- `switchAccount`, or a sign-out without another account -/
  | switchAccount (account : Option String)
  /-- the `ChatManager` of the active account emits -/
  | emit (event : App.ChatEvent)
  /-- the listener is called with the next event -/
  | deliver
  | loadForFingerprint (myFingerprint : String)
  | reset
  | openConversation (peer : PeerInfo)
  /-- `localId` is what `chatSendMessage` returns, unless it throws -/
  | sendMessage (peerId text : String) (localId : Option String) (now : ℕ)
  /-- `AsyncStorage` serves a request -/
  | serve (i : ℕ)
  /-- `AsyncStorage` fails a request -/
  | fail (i : ℕ)
  /-- a function goes on with what it read -/
  | resume (i : ℕ)
  /-- the process ends and is started again -/
  | restart

/-- A function of the store has run. -/
def ran (a : App) (r : ChatState × List Request) : App := { a with store := r.1, requests := a.requests ++ r.2 }

def step (a : App) : Action → App
  | .switchAccount account => { a with native := account }
  | .emit event =>
    match a.native with
    | none => a
    | some account => { a with emitted := a.emitted ++ [(account, event)] }
  | .deliver =>
    match a.emitted with
    | [] => a
    | (account, event) :: emitted => { a with emitted }.ran (a.store.handleChatEvent account event)
  | .loadForFingerprint myFingerprint => a.ran (a.store.loadForFingerprint myFingerprint)
  | .reset => { a with store := .initial }
  | .openConversation peer => a.ran (a.store.openConversation peer)
  | .sendMessage peerId text localId now =>
    a.ran (a.store.sendMessage peerId text (a.native.bind fun account => localId.map (account, ·)) now)
  | .serve i =>
    match a.requests[i]? with
    | none => a
    | some request =>
      let (storage, continuations) := a.storage.serve request
      { a with storage, requests := a.requests.eraseIdx i, resumable := a.resumable ++ continuations }
  | .fail i => { a with requests := a.requests.eraseIdx i }
  | .resume i =>
    match a.resumable[i]? with
    | none => a
    | some continuation => { a with store := a.store.resume continuation, resumable := a.resumable.eraseIdx i }
  | .restart => { a with emitted := [], store := .initial, requests := [], resumable := [] }

/-- Nothing has happened yet since the app was started. -/
def start (native : Option String) (storage : Storage) : App := ⟨native, [], .initial, storage, [], []⟩

end App
end SpiritChat
