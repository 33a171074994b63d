import SpiritChat.App.ChatStore

/-! # Stored chat history

A write replaces the whole stored list of a conversation by one from memory. Nothing is lost as long as no such list
misses a message of the lists that were written before it. -/

namespace SpiritChat.App
open Lib

/-- A message without its status, which changes as the message is sent. -/
def ChatMessage.body (m : ChatMessage) : ChatMessage := { m with status := .sending }

/-- The messages of `list` are those that `list'` starts with. -/
def Kept (list list' : List ChatMessage) : Prop := list.map ChatMessage.body <+: list'.map ChatMessage.body

def Request.history? (myFingerprint peerId : String) : Request → Option (List ChatMessage)
  | .setMessages f p list => if f = myFingerprint ∧ p = peerId then some list else none
  | _ => none

/-- The conversation that a request writes. -/
def Request.written? : Request → Option (String × String)
  | .setMessages myFingerprint peerId _ => some (myFingerprint, peerId)
  | _ => none

/-- The peer that sent the message of an event. -/
def ChatEvent.sender? : ChatEvent → Option String
  | .messageReceived peerId _ _ _ _ => some peerId
  | _ => none

/-- The peer and the list that `openConversation` goes on with. -/
def Continuation.opened? : Continuation → Option (String × List ChatMessage)
  | .openConversation _ peerId list => some (peerId, list)
  | _ => none

/-- The lists of a conversation that are stored or about to be stored, in the order of their writes. -/
def versions (a : App) (myFingerprint peerId : String) : List (List ChatMessage) :=
  a.storage.history myFingerprint peerId :: a.requests.filterMap (Request.history? myFingerprint peerId)

/-- The list misses nothing of the active account's conversation with the peer. -/
def UpToDate (a : App) (peerId : String) (list : List ChatMessage) : Prop :=
  ∀ v ∈ a.versions a.store.myFingerprint peerId, Kept v list

/-- The peer's list is in memory, or nothing is stored of it and nothing about to be. -/
def Loaded (a : App) (peerId : String) : Prop :=
  (a.store.messages.get peerId).isSome ∨ ∀ v ∈ a.versions a.store.myFingerprint peerId, v = []

/-- `sendMessage` comes to its end: there is a text, the peer is known, and `chatSendMessage` does not throw. -/
def Sends (a : App) (peerId text : String) (localId : Option String) : Prop :=
  trim text ≠ "" ∧ (a.store.peer? peerId).isSome ∧ a.native.isSome ∧ localId.isSome

/-- Messages are added to lists that are in memory, a list that was read is still up to date when `openConversation`
goes on, and the writes of a conversation are served in turn. -/
def InTurn (a : App) : Action → Prop
  | .deliver => a.store.myFingerprint ≠ "" → ∀ peerId ∈ a.emitted.head?.bind fun e => e.2.sender?, a.Loaded peerId
  | .sendMessage peerId text localId _ => a.Sends peerId text localId → a.Loaded peerId
  | .resume i => ∀ opened ∈ a.resumable[i]?.bind Continuation.opened?, a.UpToDate opened.1 opened.2
  | .serve i => ∀ written ∈ a.requests[i]?.bind Request.written?, ∀ r ∈ a.requests.take i, r.written? ≠ some written
  | _ => True

/-! ### Lists that keep others -/

section
variable {list list' list'' : List ChatMessage} {message : ChatMessage}

theorem Kept.refl (list : List ChatMessage) : Kept list list := List.prefix_refl _

theorem Kept.trans (h : Kept list list') (h' : Kept list' list'') : Kept list list'' := List.IsPrefix.trans h h'

theorem kept_nil : Kept [] list := List.nil_prefix

theorem kept_concat (message : ChatMessage) : Kept list (list ++ [message]) := by
  unfold Kept
  rw [List.map_append]
  exact List.prefix_append _ _

theorem kept_map {f : ChatMessage → ChatMessage} (hf : ∀ m, (f m).body = m.body) : Kept list (list.map f) := by
  have hbody : (list.map f).map ChatMessage.body = list.map ChatMessage.body := by
    rw [List.map_map]
    exact List.map_congr_left fun m _ => hf m
  exact ⟨[], (List.append_nil _).trans hbody.symm⟩

end

/-! ### What a run knows of the lists of a conversation -/

variable {a : App}

theorem sends {peerId text account id : String} {peer : PeerInfo} {localId : Option String} (htext : trim text ≠ "")
    (hpeer : a.store.peer? peerId = some peer) (hnative : a.native = some account) (hid : localId = some id) :
    a.Sends peerId text localId := by
  refine ⟨htext, ?_, ?_, ?_⟩
  · rw [hpeer]
    rfl
  · rw [hnative]
    rfl
  · rw [hid]
    rfl

/-- Each list of a conversation keeps those written before it, and the one in memory keeps them all. -/
structure HistoryInv (a : App) : Prop where
  ordered : ∀ myFingerprint peerId, (a.versions myFingerprint peerId).Pairwise Kept
  loaded : ∀ peerId list, a.store.messages.get peerId = some list → a.UpToDate peerId list

namespace HistoryInv
variable {s : ChatState} {requests : List Request} {peerId : String} {list : List ChatMessage}

theorem start (native : Option String) (storage : Storage) : HistoryInv (start native storage) where
  ordered _ _ := List.pairwise_singleton _ _
  loaded peerId list h := absurd h (by simp [App.start, ChatState.initial])

theorem versions_ran {myFingerprint : String} : (a.ran (s, requests)).versions myFingerprint peerId =
    a.versions myFingerprint peerId ++ requests.filterMap (Request.history? myFingerprint peerId) := by
  unfold versions ran
  rw [List.filterMap_append]
  rfl

theorem filterMap_setMessages {f p myFingerprint : String} : (Request.setMessages f p list :: requests).filterMap
    (Request.history? myFingerprint peerId) =
      (if f = myFingerprint ∧ p = peerId then [list] else []) ++ requests.filterMap (Request.history? myFingerprint peerId) := by
  by_cases h : f = myFingerprint ∧ p = peerId
  · have hsome : (Request.setMessages f p list).history? myFingerprint peerId = some list := if_pos h
    rw [List.filterMap_cons_some hsome, if_pos h]
    rfl
  · have hnone : (Request.setMessages f p list).history? myFingerprint peerId = none := if_neg h
    rw [List.filterMap_cons_none hnone, if_neg h]
    rfl

/-- The list that a message is added to misses nothing. -/
theorem upToDate_history (h : HistoryInv a) (hl : a.Loaded peerId) : a.UpToDate peerId (a.store.history peerId) := by
  unfold ChatState.history
  rcases hm : a.store.messages.get peerId with _ | list
  · have hempty := hl.resolve_left (by rw [hm]; exact Bool.false_ne_true)
    intro v hv
    rw [hempty v hv]
    exact kept_nil
  · exact h.loaded peerId list hm

/-- A function of the store that leaves the lists alone. -/
theorem idle (h : HistoryInv a) (hs : s.myFingerprint = a.store.myFingerprint) (hm : s.messages = a.store.messages)
    (hr : ∀ f p, requests.filterMap (Request.history? f p) = []) : HistoryInv (a.ran (s, requests)) := by
  have hv : ∀ f p, (a.ran (s, requests)).versions f p = a.versions f p := by
    intro f p
    rw [versions_ran, hr, List.append_nil]
  refine ⟨fun f p => hv f p ▸ h.ordered f p, fun p l hl => ?_⟩
  unfold UpToDate
  change s.messages.get p = some l at hl
  change ∀ v ∈ (a.ran (s, requests)).versions s.myFingerprint p, Kept v l
  rw [hv, hs]
  exact h.loaded p l (hm ▸ hl)

/-- A function of the store that puts a list in the place of one that misses nothing. -/
theorem write (h : HistoryInv a) {base : List ChatMessage} (hbase : a.UpToDate peerId base) (hk : Kept base list)
    (hs : s.myFingerprint = a.store.myFingerprint) (hm : s.messages = a.store.messages.set peerId list)
    (hr : ∀ f p, requests.filterMap (Request.history? f p) =
      if a.store.myFingerprint = f ∧ peerId = p then [list] else []) : HistoryInv (a.ran (s, requests)) := by
  have hnew : ∀ v ∈ a.versions a.store.myFingerprint peerId, Kept v list := fun v hv => (hbase v hv).trans hk
  have hv : ∀ f p, (a.ran (s, requests)).versions f p =
      a.versions f p ++ if a.store.myFingerprint = f ∧ peerId = p then [list] else [] := by
    intro f p
    rw [versions_ran, hr]
  refine ⟨fun f p => ?_, fun p l hl => ?_⟩
  · rw [hv]
    split
    · rename_i heq
      obtain ⟨rfl, rfl⟩ := heq
      exact List.pairwise_append.2 ⟨h.ordered _ _, List.pairwise_singleton _ _, fun v hmem w hw =>
        List.mem_singleton.1 hw ▸ hnew v hmem⟩
    · rw [List.append_nil]
      exact h.ordered f p
  · change s.messages.get p = some l at hl
    change ∀ v ∈ (a.ran (s, requests)).versions s.myFingerprint p, Kept v l
    rw [hm, Record.get_set] at hl
    rw [hv, hs]
    split at hl
    · rename_i hp
      obtain rfl := Option.some.inj hl
      rw [if_pos ⟨rfl, hp⟩, ← hp]
      intro v hmem
      rcases List.mem_append.1 hmem with hmem | hmem
      · exact hnew v hmem
      · rw [List.mem_singleton.1 hmem]
        exact .refl _
    · rename_i hp
      rw [if_neg fun he => hp he.2, List.append_nil]
      exact h.loaded p l hl

theorem addMessage (h : HistoryInv a) (hl : a.Loaded peerId) (hs : s.myFingerprint = a.store.myFingerprint)
    (hm : s.messages = a.store.messages) (peer : PeerInfo) (message : ChatMessage) :
    HistoryInv (a.ran (s.addMessage peerId peer message)) := by
  have hhistory : s.history peerId = a.store.history peerId := by
    unfold ChatState.history
    rw [hm]
  refine h.write (h.upToDate_history hl) (kept_concat message) hs ?_ fun f p => ?_
  · dsimp only
    rw [hm, hhistory]
  · rw [filterMap_setMessages, hs, hhistory]
    exact List.append_nil _

theorem updateStatus (h : HistoryInv a) (localId : String) (status : MessageStatus) :
    HistoryInv (a.ran (a.store.updateStatus peerId localId status)) := by
  unfold ChatState.updateStatus
  split
  · exact h.idle rfl rfl fun _ _ => rfl
  · rename_i list hlist
    refine h.write (h.loaded peerId list hlist) (kept_map fun m => ?_) rfl rfl fun f p => ?_
    · split
      · rfl
      · rfl
    · rw [filterMap_setMessages]
      exact List.append_nil _

/-! ### What the storage does -/

/-- A request is taken out of the queue. -/
theorem erase {i : ℕ} {storage : Storage} {resumable : List Continuation} (h : HistoryInv a)
    (hs : ∀ f p, storage.history f p = a.storage.history f p) :
    HistoryInv { a with storage, requests := a.requests.eraseIdx i, resumable } := by
  have hsub : ∀ f p, (versions { a with storage, requests := a.requests.eraseIdx i, resumable } f p).Sublist
      (a.versions f p) := by
    intro f p
    unfold versions
    rw [hs]
    exact ((List.eraseIdx_sublist _ _).filterMap _).cons_cons _
  exact ⟨fun f p => (h.ordered f p).sublist (hsub f p), fun p l hl v hv => h.loaded p l hl v ((hsub _ p).subset hv)⟩

theorem history_setMessages {storage : Storage} {f p f' p' : String} :
    (storage.serve (.setMessages f p list)).1.history f' p' = if (f', p') = (f, p) then list else storage.history f' p' := by
  unfold Storage.history Storage.serve
  dsimp only
  rw [Table.insert_apply]
  split
  · rfl
  · rfl

theorem history?_eq_none {request : Request} {f p : String} (h : request.written? ≠ some (f, p)) :
    request.history? f p = none := by
  cases request with
  | setMessages f' p' list =>
    refine if_neg fun he => h ?_
    rw [← he.1, ← he.2]
    rfl
  | _ => rfl

/-- The first write of a conversation is served. -/
theorem served (h : HistoryInv a) {i : ℕ} {f p : String} (hi : a.requests[i]? = some (.setMessages f p list))
    (hfirst : ∀ request ∈ a.requests.take i, request.written? ≠ some (f, p)) :
    Kept (a.storage.history f p) list ∧
      HistoryInv { a with
        storage := (a.storage.serve (.setMessages f p list)).1
        requests := a.requests.eraseIdx i } := by
  obtain ⟨hlt, hget⟩ := List.getElem?_eq_some_iff.1 hi
  have hsplit : a.requests = a.requests.take i ++ .setMessages f p list :: a.requests.drop (i + 1) := by
    rw [← hget, List.getElem_cons_drop, List.take_append_drop]
  have herase : a.requests.eraseIdx i = a.requests.take i ++ a.requests.drop (i + 1) := List.eraseIdx_eq_take_drop_succ _ _
  have hnone : (a.requests.take i).filterMap (Request.history? f p) = [] :=
    List.filterMap_eq_nil_iff.2 fun r hr => history?_eq_none (hfirst r hr)
  have hself : a.versions f p =
      a.storage.history f p :: list :: (a.requests.eraseIdx i).filterMap (Request.history? f p) := by
    unfold versions
    rw [herase]
    nth_rewrite 1 [hsplit]
    rw [List.filterMap_append, List.filterMap_append, hnone, filterMap_setMessages, if_pos ⟨rfl, rfl⟩]
    rfl
  have hsub : ∀ f' p', (versions { a with
      storage := (a.storage.serve (.setMessages f p list)).1
      requests := a.requests.eraseIdx i } f' p').Sublist (a.versions f' p') := by
    intro f' p'
    by_cases he : (f', p') = (f, p)
    · obtain ⟨rfl, rfl⟩ := Prod.mk.inj he
      rw [hself]
      unfold versions
      rw [history_setMessages, if_pos rfl]
      exact List.sublist_cons_self _ _
    · unfold versions
      rw [history_setMessages, if_neg he]
      exact ((List.eraseIdx_sublist _ _).filterMap _).cons_cons _
  have hordered := h.ordered f p
  rw [hself] at hordered
  refine ⟨(List.pairwise_cons.1 hordered).1 list List.mem_cons_self, ?_⟩
  exact ⟨fun f p => (h.ordered f p).sublist (hsub f p), fun p l hl v hv => h.loaded p l hl v ((hsub _ p).subset hv)⟩

/-- A function of the store goes on. -/
theorem resumed (h : HistoryInv a) {continuation : Continuation} {resumable : List Continuation}
    (hc : ∀ f p l, continuation = .openConversation f p l → a.UpToDate p l) :
    HistoryInv { a with store := a.store.resume continuation, resumable } := by
  cases continuation with
  | loadForFingerprint f conversations => exact ⟨h.ordered, fun p l hl => absurd hl (by simp [ChatState.resume])⟩
  | openConversation f p l =>
    refine ⟨h.ordered, fun p' l' hl => ?_⟩
    change (a.store.messages.set p l).get p' = some l' at hl
    rw [Record.get_set] at hl
    split at hl
    · rename_i hp
      obtain rfl := Option.some.inj hl
      exact hp ▸ hc f p l rfl
    · exact h.loaded p' l' hl

/-! ### One step -/

theorem step (h : HistoryInv a) {action : Action} (ha : a.InTurn action) :
    HistoryInv (a.step action) ∧ ∀ f p, Kept (a.storage.history f p) ((a.step action).storage.history f p) := by
  cases action with
  | switchAccount account => exact ⟨⟨h.ordered, h.loaded⟩, fun f p => .refl _⟩
  | emit event =>
    unfold App.step
    dsimp only
    split
    · exact ⟨h, fun f p => .refl _⟩
    · exact ⟨⟨h.ordered, h.loaded⟩, fun f p => .refl _⟩
  | deliver =>
    unfold App.step
    dsimp only
    split
    · exact ⟨h, fun f p => .refl _⟩
    · rename_i account event emitted he
      refine ⟨?_, fun f p => .refl _⟩
      have hinv : HistoryInv { a with emitted } := ⟨h.ordered, h.loaded⟩
      unfold ChatState.handleChatEvent
      split
      · exact hinv.idle rfl rfl fun _ _ => rfl
      · rename_i hactive
        split
        · rename_i peerId peerFingerprint peerPublicKeyBase64 plaintext atSeconds
          have hl : a.Loaded peerId := ha hactive peerId (by rw [he]; rfl)
          refine hinv.addMessage hl ?_ ?_ _ _
          · rfl
          · rfl
        · exact hinv.updateStatus _ _
        · exact hinv.updateStatus _ _
  | loadForFingerprint f =>
    refine ⟨?_, fun f p => .refl _⟩
    unfold App.step ChatState.loadForFingerprint
    dsimp only
    split
    · exact h.idle rfl rfl fun _ _ => rfl
    · exact h.idle rfl rfl fun _ _ => rfl
  | reset => exact ⟨⟨h.ordered, fun p l hl => absurd hl (by simp [App.step, ChatState.initial])⟩, fun f p => .refl _⟩
  | openConversation peer =>
    refine ⟨?_, fun f p => .refl _⟩
    unfold App.step ChatState.openConversation
    dsimp only
    split
    · exact h.idle rfl rfl fun _ _ => rfl
    · exact h.idle rfl rfl fun _ _ => rfl
  | sendMessage peerId text localId now =>
    refine ⟨?_, fun f p => .refl _⟩
    unfold App.step ChatState.sendMessage
    dsimp only
    split
    · exact h.idle rfl rfl fun _ _ => rfl
    · rename_i htext
      split
      · rename_i peer account id hpeer hnative
        obtain ⟨active, hactive, hid⟩ := Option.bind_eq_some_iff.1 hnative
        obtain ⟨id, hid, -⟩ := Option.map_eq_some_iff.1 hid
        exact h.addMessage (ha (sends htext hpeer hactive hid)) rfl rfl _ _
      · exact h.idle rfl rfl fun _ _ => rfl
  | serve i =>
    unfold App.step
    dsimp only
    split
    · exact ⟨h, fun f p => .refl _⟩
    · rename_i request hi
      cases request with
      | getConversations f => exact ⟨h.erase fun _ _ => rfl, fun f p => .refl _⟩
      | getMessages f p => exact ⟨h.erase fun _ _ => rfl, fun f p => .refl _⟩
      | setConversations f list => exact ⟨h.erase fun _ _ => rfl, fun f p => .refl _⟩
      | setMessages f p list =>
        obtain ⟨hkept, hinv⟩ := h.served hi (ha (f, p) (by rw [hi]; rfl))
        refine ⟨⟨hinv.ordered, hinv.loaded⟩, fun f' p' => ?_⟩
        dsimp only
        rw [history_setMessages]
        split
        · rename_i he
          obtain ⟨rfl, rfl⟩ := Prod.mk.inj he
          exact hkept
        · exact .refl _
  | fail i => exact ⟨h.erase fun _ _ => rfl, fun f p => .refl _⟩
  | resume i =>
    unfold App.step
    dsimp only
    split
    · exact ⟨h, fun f p => .refl _⟩
    · rename_i continuation hi
      exact ⟨h.resumed fun f p l hc => ha (p, l) (by rw [hi, hc]; rfl), fun f p => .refl _⟩
  | restart =>
    refine ⟨⟨fun f p => ?_, fun p l hl => absurd hl (by simp [App.step, ChatState.initial])⟩, fun f p => .refl _⟩
    exact List.pairwise_singleton _ _

end HistoryInv

/-- What is stored of a conversation stays stored, in its place, in every run whose steps are in turn. -/
theorem history_append_only {native : Option String} {storage : Storage} {a a' : App}
    (h : Run step InTurn (start native storage) a) (h' : Run step InTurn a a') (myFingerprint peerId : String) :
    Kept (a.storage.history myFingerprint peerId) (a'.storage.history myFingerprint peerId) := by
  have hinv : HistoryInv a := h.invariant HistoryInv (.start native storage) fun _ _ hi ha => (hi.step ha).1
  exact h'.related HistoryInv (fun b c => Kept (b.storage.history myFingerprint peerId) (c.storage.history myFingerprint peerId))
    hinv (fun _ _ hi ha => (hi.step ha).1) (fun _ => .refl _) (fun _ _ _ => .trans) fun _ _ hi ha => (hi.step ha).2 _ _

/-! ### A message that is lost -/

namespace Lost

def greeting : ChatMessage := ⟨"A", "in-p-1", false, "hello", 1000, .sent⟩

/-- Account `A` has a stored message from `p`. -/
def stored : App := start (some "A") ⟨.empty, .insert .empty ("A", "p") [greeting]⟩

/-- The app loads the account and `p` writes again, with the chat screen closed or open. -/
def arrival : Action := .emit (.messageReceived "p" "f" "k" "are you there?" 2)

def loading : List Action := [.loadForFingerprint "A", .serve 0, .resume 0]

def opening : List Action := [.openConversation ⟨"p", "f", "k", none⟩, .serve 0, .resume 0]

def receiving : List Action := [arrival, .deliver, .serve 0]

def closed : App := (loading ++ receiving).foldl step stored

def opened : App := (loading ++ opening ++ receiving).foldl step stored

end Lost

instance (list list' : List ChatMessage) : Decidable (Kept list list') := inferInstanceAs (Decidable (_ <+: _))

instance (a : App) (peerId : String) (list : List ChatMessage) : Decidable (a.UpToDate peerId list) :=
  inferInstanceAs (Decidable (∀ v ∈ _, Kept v list))

instance (a : App) (peerId : String) : Decidable (a.Loaded peerId) := inferInstanceAs (Decidable (_ ∨ ∀ v ∈ _, v = []))

instance (a : App) : ∀ action, Decidable (a.InTurn action)
  | .deliver => inferInstanceAs (Decidable (_ ≠ "" → ∀ peerId ∈ _, a.Loaded peerId))
  | .sendMessage peerId _ _ _ => inferInstanceAs (Decidable (_ ∧ _ ∧ _ ∧ _ → a.Loaded peerId))
  | .resume _ => inferInstanceAs (Decidable (∀ o : _ × _, o ∈ _ → a.UpToDate o.1 o.2))
  | .serve i => inferInstanceAs (Decidable (∀ written ∈ _, ∀ r ∈ a.requests.take i, r.written? ≠ some written))
  | .switchAccount _ | .emit _ | .loadForFingerprint _ | .reset | .openConversation _ | .fail _ | .restart => .isTrue trivial

open Lost in
theorem history_append_only_opened : Kept [greeting] (opened.storage.history "A" "p") ∧
    (opened.storage.history "A" "p").length = 2 := by
  exact ⟨history_append_only (a := stored) .refl (Run.of_follows (by decide +kernel)) "A" "p", by decide +kernel⟩

open Lost in
/-- The message that arrives is written without the one that is stored. -/
theorem history_overwritten : Run step (fun _ _ => True) stored closed ∧
    ¬Kept (stored.storage.history "A" "p") (closed.storage.history "A" "p") := by
  exact ⟨Run.of_follows (by decide +kernel), by decide +kernel⟩

end SpiritChat.App
