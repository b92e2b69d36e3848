import QuaiSdk.Lib.Run
import QuaiSdk.Rpc.Session

/-!
# What a multiplexed session guarantees

Every request is answered at most once and, by a frame, only by one that carries its ID.  A
registration gets the notifications that carry its ID in the order they arrive until it ends, and
nothing after that, so its subscriber sees a prefix without gaps and then an error.
-/

namespace QuaiSdk.Rpc

open Result Method Table AList

namespace Session

variable {serde : Serde} {config : WsConfig}

def notificationOf (serde : Serde) (bytes : Bytes) : Option Notification :=
  match route serde bytes with
  | .ok (.notification n) => some n
  | _ => none

def Reaches (s : Session) (n : Notification) (channel : ℕ) : Prop :=
  s.subscriptions.lookup n.subscription = some channel

def subscribed (s : Session) (name : String) (channel : ℕ) : Session :=
  { s with subscriptions := s.subscriptions.insert name channel }

def forget (s : Session) (id : ℕ) : Session := { s with pending := s.pending.erase id }

def queued (s : Session) (channel : ℕ) (n : QueuedNotification) : Session :=
  let t := s.setChannel channel
    { s.channels channel with queue := (s.channels channel).queue ++ [n] }
  { t with notificationBytes := s.notificationBytes - n.permit }

/-- The outcomes of `dispatch`, with what each of them found. -/
inductive Dispatched (serde : Serde) (s : Session) (bytes : Bytes) :
    Except RpcError (Option String) × Session → Prop where
  /-- The session fails as it is; a notification for a registration only when it was dropped. -/
  | rejected (e : RpcError)
      (hreaches : ∀ n ∈ notificationOf serde bytes, ∀ channel, s.Reaches n channel →
        (s.channels channel).closed = true) :
      Dispatched serde s bytes (.error e, s)
  /-- A late response, or a notification that raced an unsubscribe. -/
  | ignored (hreaches : ∀ n ∈ notificationOf serde bytes, ∀ channel, ¬s.Reaches n channel) :
      Dispatched serde s bytes (.ok none, s)
  /-- The registration of a request cannot be made; its reply channel is dropped. -/
  | refused (id : ℕ) (request : Pending) (result : Except RpcError Json) (e : RpcError)
      (hroute : route serde bytes = .ok (.response id result))
      (hpending : s.pending.lookup id = some request) :
      Dispatched serde s bytes (.error e, s.forget id)
  | answered (id : ℕ) (request : Pending) (result : Except RpcError Json)
      (hroute : route serde bytes = .ok (.response id result))
      (hpending : s.pending.lookup id = some request) :
      Dispatched serde s bytes (.ok none, (s.forget id).answer id result)
  | registered (id : ℕ) (request : Pending) (result : Except RpcError Json) (name : String)
      (channel : ℕ) (hroute : route serde bytes = .ok (.response id result))
      (hpending : s.pending.lookup id = some request)
      (hregistration : request.registration = some channel)
      (hname : s.subscriptions.lookup name = none) :
      Dispatched serde s bytes (.ok none, ((s.forget id).subscribed name channel).answer id result)
  | unsubscribed (id : ℕ) (request : Pending) (result : Except RpcError Json) (name : String)
      (channel : ℕ) (hroute : route serde bytes = .ok (.response id result))
      (hpending : s.pending.lookup id = some request)
      (hname : s.subscriptions.lookup name = some channel) :
      Dispatched serde s bytes
        (.ok none, ((s.forget id).endSubscription name channel .subscriptionClosed).answer id result)
  | queued (n : Notification) (channel permit : ℕ)
      (hn : notificationOf serde bytes = some n) (hreaches : s.Reaches n channel)
      (hclosed : (s.channels channel).closed = false) :
      Dispatched serde s bytes (.ok none, s.queued channel ⟨n.result, permit⟩)
  | lagged (n : Notification) (channel : ℕ) (hn : notificationOf serde bytes = some n)
      (hreaches : s.Reaches n channel) :
      Dispatched serde s bytes
        (.ok (some n.subscription), s.endSubscription n.subscription channel .subscriptionLagged)

variable {s : Session} {bytes : Bytes} {id : ℕ}

theorem notificationOf_response {result : Except RpcError Json}
    (h : route serde bytes = .ok (.response id result)) : notificationOf serde bytes = none := by
  rw [notificationOf, h]

theorem acknowledge_cases (unsubscribe : Option String) (result : Except RpcError Json)
    (s : Session) :
    acknowledge unsubscribe result s = (.ok (), s) ∨
      ∃ name channel, unsubscribe = some name ∧ s.subscriptions.lookup name = some channel ∧
        acknowledge unsubscribe result s =
          (.ok (), s.endSubscription name channel .subscriptionClosed) := by
  unfold acknowledge
  split
  · next name =>
    rw [bind_apply, self]
    dsimp only
    cases hname : s.subscriptions.lookup name with
    | none => exact .inl rfl
    | some channel => exact .inr ⟨name, channel, rfl, hname, rfl⟩
  · exact .inl rfl

theorem register_cases (id : ℕ) (registration : Option ℕ) (result : Except RpcError Json)
    (s : Session) :
    (∃ e, register id registration result s = (.error e, s)) ∨
      register id registration result s = (.ok (), s) ∨
      ∃ channel name, registration = some channel ∧ s.subscriptions.lookup name = none ∧
        register id registration result s = (.ok (), s.subscribed name channel) := by
  cases registration with
  | none => exact .inr (.inl rfl)
  | some channel =>
    unfold register
    dsimp only
    rw [bind_apply, self]
    dsimp only
    by_cases hclosed : (s.replies id).closed = true
    · rw [if_pos hclosed]
      exact .inl ⟨_, rfl⟩
    rw [if_neg hclosed]
    cases result with
    | error => exact .inr (.inl rfl)
    | ok value =>
      dsimp only
      rw [bind_apply, lift]
      cases hname : subscriptionId value with
      | error e => exact .inl ⟨e, rfl⟩
      | ok name =>
        dsimp only
        by_cases hmem : name ∈ s.subscriptions
        · rw [if_pos hmem]
          exact .inl ⟨_, rfl⟩
        · rw [if_neg hmem]
          exact .inr (.inr ⟨channel, name, rfl, lookup_eq_none.mpr hmem, rfl⟩)

theorem respond_dispatched {result : Except RpcError Json}
    (hkind : ∀ id request, s.pending.lookup id = some request → request.registration = none ∨
      request.unsubscribe = none)
    (hroute : route serde bytes = .ok (.response id result)) :
    Dispatched serde s bytes (respond id result s) := by
  have hnone := notificationOf_response hroute
  have hrejected : ∀ e, Dispatched serde s bytes (.error e, s) := fun e =>
    .rejected e (by simp [hnone])
  unfold respond
  rw [bind_apply, self]
  dsimp only
  by_cases hid : id = 0 ∨ s.nextId ≤ id
  · rw [if_pos hid]
    exact hrejected _
  rw [if_neg hid]
  cases hpending : s.pending.lookup id with
  | none =>
    rcases result with (_ | e) | value
    all_goals first | exact hrejected _ | exact .ignored (by simp [hnone])
  | some request =>
    show Dispatched serde s bytes ((register id request.registration result >>= _) (s.forget id))
    rw [bind_apply]
    rcases register_cases id request.registration result (s.forget id) with
      ⟨e, hregister⟩ | hregister | ⟨channel, name, hregistration, hname, hregister⟩
    · rw [hregister]
      exact .refused id request result e hroute hpending
    · rw [hregister]
      dsimp only
      rw [bind_apply]
      rcases acknowledge_cases request.unsubscribe result (s.forget id) with
        hack | ⟨name, channel, -, hname, hack⟩
      · rw [hack]
        exact .answered id request result hroute hpending
      · rw [hack]
        exact .unsubscribed id request result name channel hroute hpending hname
    · have hunsubscribe : request.unsubscribe = none := by
        rcases hkind id request hpending with hnone | hnone
        · rw [hnone] at hregistration
          cases hregistration
        · exact hnone
      rw [hregister, hunsubscribe]
      exact .registered id request result name channel hroute hpending hregistration hname

theorem notify_dispatched {n : Notification} (hroute : route serde bytes = .ok (.notification n)) :
    Dispatched serde s bytes (notify config bytes.length n s) := by
  have hn : notificationOf serde bytes = some n := by rw [notificationOf, hroute]
  unfold notify
  rw [bind_apply, self]
  dsimp only
  cases hname : s.subscriptions.lookup n.subscription with
  | none =>
    have hreaches : ∀ n' ∈ notificationOf serde bytes, ∀ channel, ¬s.Reaches n' channel := by
      intro n' hn' channel hreaches
      rw [hn] at hn'
      cases hn'
      rw [Reaches, hname] at hreaches
      cases hreaches
    split
    · exact .ignored hreaches
    · exact .rejected _ fun n' hn' channel h => absurd h (hreaches n' hn' channel)
  | some channel =>
    dsimp only
    split
    · next hclosed =>
      refine .rejected _ ?_
      intro n' hn' channel' hreaches
      rw [hn] at hn'
      cases hn'
      rw [Reaches, hname] at hreaches
      cases hreaches
      exact hclosed.2
    · next hopen =>
      split
      · next hroom =>
        refine .queued n channel _ hn hname ?_
        by_contra hclosed
        exact hopen ⟨hroom.1, (Bool.not_eq_false _).mp hclosed⟩
      · exact .lagged n channel hn hname

theorem dispatch_dispatched
    (hkind : ∀ id request, s.pending.lookup id = some request → request.registration = none ∨
      request.unsubscribe = none)
    (bytes : Bytes) :
    Dispatched serde s bytes (dispatch serde config bytes s) := by
  unfold dispatch
  cases hroute : route serde bytes with
  | error e => exact .rejected e (by simp [notificationOf, hroute])
  | ok routed =>
    cases routed with
    | response => exact respond_dispatched hkind hroute
    | notification => exact notify_dispatched hroute

theorem takeId_eq_some {t : Session} (h : s.takeId = some (id, t)) :
    id = s.nextId ∧ t = { s with nextId := s.nextId + 1 } := by
  unfold takeId at h
  split at h
  · cases h
    exact ⟨rfl, rfl⟩
  · cases h

def Ended (s : Session) (channel : ℕ) : Prop :=
  (s.channels channel).terminal ≠ none ∨ s.phase ≠ .running

/-- The outcomes of `recv`. -/
inductive Received (s : Session) (channel : ℕ) : Prop where
  | waits (h : s.recv channel = s)
  | finished (hfinished : (s.channels channel).finished = true)
      (h : s.recv channel =
        { s.setChannel channel ((s.channels channel).observe (.ok none)) with
          notificationBytes := s.notificationBytes })
  | failed (e : RpcError) (queue : List QueuedNotification) (closed : Bool) (available : ℕ)
      (hfinished : (s.channels channel).finished = false) (hended : s.Ended channel)
      (hqueue : queue = [] ∨ queue = (s.channels channel).queue)
      (h : s.recv channel =
        { s.setChannel channel
            { (s.channels channel).observe (.error e) with queue, closed, finished := true } with
          notificationBytes := available })
  | value (n : QueuedNotification) (rest : List QueuedNotification) (available : ℕ)
      (hfinished : (s.channels channel).finished = false) (hrunning : ¬s.Ended channel)
      (hqueue : (s.channels channel).queue = n :: rest)
      (h : s.recv channel =
        { s.setChannel channel
            { (s.channels channel).observe (.ok (some n.payload)) with queue := rest } with
          notificationBytes := available })

theorem received (s : Session) (channel : ℕ) : Received s channel := by
  rcases hfinished : (s.channels channel).finished with _ | _
  · by_cases hclosed : (s.channels channel).closed = true
    · exact .waits (by simp [recv, hfinished, hclosed])
    · cases hterminal : (s.channels channel).terminal with
      | some e =>
        exact .failed e [] true _ hfinished (.inl (by simp [hterminal])) (.inl rfl)
          (by simp only [recv, hfinished, hclosed, hterminal]; rfl)
      | none =>
        cases hphase : s.phase with
        | closed e =>
          exact .failed e [] true _ hfinished (.inr (by simp [hphase])) (.inl rfl)
            (by simp only [recv, hfinished, hclosed, hterminal, hphase]; rfl)
        | aborted =>
          exact .failed .disconnected _ (s.channels channel).closed s.notificationBytes hfinished
            (.inr (by simp [hphase])) (.inr rfl) (by
              unfold recv
              rw [if_neg (by simp [hfinished]), if_neg hclosed, hterminal, hphase]
              rfl)
        | running =>
          cases hqueue : (s.channels channel).queue with
          | nil =>
            exact .waits (by simp only [recv, hfinished, hclosed, hterminal, hphase, hqueue]; rfl)
          | cons n rest =>
            exact .value n rest _ hfinished (by simp [Ended, hterminal, hphase]) hqueue
              (by simp only [recv, hfinished, hclosed, hterminal, hphase, hqueue]; rfl)
  · exact .finished hfinished (by simp only [recv, hfinished]; rfl)

theorem next_frame (h : s.phase = .running) (bytes : Bytes) (sent : Except RpcError Unit) :
    s.next serde config (.frame bytes sent) = s.frame serde config bytes sent := by
  simp only [next, h]

def Open (s : Session) (id : ℕ) : Prop := s.nextId ≤ id ∨ id ∈ s.commands ∨ id ∈ s.pending

/-- Nothing was queued, ended or returned. -/
structure Fresh (c : Channel) : Prop where
  queue : c.queue = []
  terminal : c.terminal = none
  finished : c.finished = false
  seen : c.seen = []

/-- A request carries its own registration, or the name of one to remove. -/
def Pending.Of (id : ℕ) (request : Pending) : Prop :=
  request.registration = none ∨ (request.registration = some id ∧ request.unsubscribe = none)

structure WellFormed (s : Session) : Prop where
  once : ∀ id, (s.replies id).sent.length ≤ 1
  unanswered : ∀ id, s.Open id → (s.replies id).sent = []
  issued : ∀ id, id ∈ s.commands ∨ id ∈ s.pending → id < s.nextId
  apart : ∀ id ∈ s.commands, id ∉ s.pending
  commands : ∀ id request, s.commands.lookup id = some request → Pending.Of id request
  pending : ∀ id request, s.pending.lookup id = some request → Pending.Of id request
  fresh : s.phase = .running → ∀ id, s.Open id → Fresh (s.channels id)
  registered : ∀ name channel, s.subscriptions.lookup name = some channel →
    ¬s.Open channel ∧ (s.channels channel).terminal = none ∧ (s.channels channel).finished = false
  unique : ∀ name name' channel, s.subscriptions.lookup name = some channel →
    s.subscriptions.lookup name' = some channel → name = name'
  stopped : s.phase ≠ .running → s.subscriptions = ∅

/-- Requests come, go and are answered; registrations stay, and no request is opened. -/
structure Silent (s t : Session) : Prop where
  channels : t.channels = s.channels
  subscriptions : t.subscriptions = s.subscriptions
  recent : t.recentlyUnsubscribed = s.recentlyUnsubscribed
  phase : t.phase = s.phase
  opens : ∀ id, t.Open id → s.Open id
  wellFormed : WellFormed t

/-- The actor goes on or ends. -/
inductive Halts (s : Session) : Session → Prop where
  | kept : Halts s s
  | finished (e : RpcError) : Halts s (s.finish e)
  | aborted : Halts s s.abort

/-- Everything that an event can do.  A frame is dispatched while the session runs. -/
inductive Step (serde : Serde) (s : Session) : Event → Session → Prop where
  | silent (event : Event) (m t : Session) (hsilent : Silent s m) (hhalts : Halts m t)
      (hframe : ∀ bytes sent, event = .frame bytes sent → s.phase ≠ .running) :
      Step serde s event t
  | frame (bytes : Bytes) (sent : Except RpcError Unit)
      (outcome : Except RpcError (Option String) × Session) (m t : Session)
      (hrunning : s.phase = .running) (hdispatched : Dispatched serde s bytes outcome)
      (hsilent : Silent outcome.2 m) (hhalts : Halts m t) : Step serde s (.frame bytes sent) t
  | drop (channel : ℕ) : Step serde s (.drop channel) (s.drop channel)
  | recv (channel : ℕ) : Step serde s (.recv channel) (s.recv channel)

theorem Silent.refl {s : Session} (h : WellFormed s) : Silent s s :=
  ⟨rfl, rfl, rfl, rfl, fun _ hopen => hopen, h⟩

theorem Silent.trans {s t u : Session} (hst : Silent s t) (htu : Silent t u) : Silent s u where
  channels := htu.channels.trans hst.channels
  subscriptions := htu.subscriptions.trans hst.subscriptions
  recent := htu.recent.trans hst.recent
  phase := htu.phase.trans hst.phase
  opens id hopen := hst.opens id (htu.opens id hopen)
  wellFormed := htu.wellFormed

namespace WellFormed

variable {s t : Session}

theorem connect (config : WsConfig) : WellFormed (Session.connect config) where
  once := fun _ => Nat.zero_le _
  unanswered := fun _ _ => rfl
  issued := by simp [Session.connect]
  apart := by simp [Session.connect]
  commands := by simp [Session.connect]
  pending := by simp [Session.connect]
  fresh := fun _ _ _ => ⟨rfl, rfl, rfl, rfl⟩
  registered := by simp [Session.connect]
  unique := by simp [Session.connect]
  stopped := fun _ => rfl

theorem of_stopped (hcommands : t.commands = ∅) (hpending : t.pending = ∅)
    (hsubscriptions : t.subscriptions = ∅) (hphase : t.phase ≠ .running)
    (honce : ∀ id, (t.replies id).sent.length ≤ 1)
    (hunanswered : ∀ id, t.nextId ≤ id → (t.replies id).sent = []) : WellFormed t := by
  constructor
  · exact honce
  · rintro id (hid | hid | hid)
    · exact hunanswered id hid
    · rw [hcommands] at hid
      cases hid
    · rw [hpending] at hid
      cases hid
  · simp [hcommands, hpending]
  · simp [hcommands]
  · simp [hcommands]
  · simp [hpending]
  · intro hrunning
    exact absurd hrunning hphase
  · simp [hsubscriptions]
  · simp [hsubscriptions]
  · intro _
    exact hsubscriptions

theorem lookup_of_erase {K V : Type} [DecidableEq K] {table : Table K V} {k k' : K} {v : V}
    (h : (table.erase k).lookup k' = some v) : k' ≠ k ∧ table.lookup k' = some v := by
  rw [lookup_erase_eq] at h
  split at h
  · cases h
  · next hne => exact ⟨hne, h⟩

theorem request_of (id : ℕ) (request : Request) : Pending.Of id (request.pending id) := by
  cases request with
  | call | unsubscribe => exact .inl rfl
  | subscribe => exact .inr ⟨rfl, rfl⟩

variable (h : WellFormed s)

include h

theorem kind (id : ℕ) (request : Pending) (hrequest : s.pending.lookup id = some request) :
    request.registration = none ∨ request.unsubscribe = none :=
  (h.pending id request hrequest).imp_right And.right

theorem move (hopen : ∀ id, t.Open id → s.Open id)
    (hissued : ∀ id, id ∈ t.commands ∨ id ∈ t.pending → id < t.nextId)
    (hapart : ∀ id ∈ t.commands, id ∉ t.pending)
    (hcommands : ∀ id request, t.commands.lookup id = some request → Pending.Of id request)
    (hpending : ∀ id request, t.pending.lookup id = some request → Pending.Of id request)
    (hsame : t = { s with
      nextId := t.nextId, commands := t.commands, pending := t.pending }) : Silent s t := by
  rw [hsame]
  refine ⟨rfl, rfl, rfl, rfl, hsame ▸ hopen, h.once, fun id hid => h.unanswered id ?_, hissued, hapart,
    hcommands, hpending, fun hrunning id hid => h.fresh hrunning id ?_, ?_, h.unique, h.stopped⟩
  · exact hopen id (hsame ▸ hid)
  · exact hopen id (hsame ▸ hid)
  · intro name channel hname
    obtain ⟨hclosed, hstate⟩ := h.registered name channel hname
    exact ⟨fun hid => hclosed (hopen channel (hsame ▸ hid)), hstate⟩

theorem narrow (hnext : s.nextId ≤ t.nextId)
    (hcommands : ∀ id request, t.commands.lookup id = some request →
      s.commands.lookup id = some request)
    (hpending : ∀ id request, t.pending.lookup id = some request →
      s.pending.lookup id = some request)
    (hsame : t = { s with
      nextId := t.nextId, commands := t.commands, pending := t.pending }) : Silent s t := by
  have hmemCommands : ∀ id ∈ t.commands, id ∈ s.commands := fun _ => mem_of_lookup hcommands
  have hmemPending : ∀ id ∈ t.pending, id ∈ s.pending := fun _ => mem_of_lookup hpending
  apply h.move _ _ _ _ _ hsame
  · rintro id (hid | hid | hid)
    · exact .inl (le_trans hnext hid)
    · exact .inr (.inl (hmemCommands id hid))
    · exact .inr (.inr (hmemPending id hid))
  · intro id hid
    exact lt_of_lt_of_le (h.issued id (hid.imp (hmemCommands id) (hmemPending id))) hnext
  · intro id hid hmem
    exact h.apart id (hmemCommands id hid) (hmemPending id hmem)
  · intro id request hrequest
    exact h.commands id request (hcommands id request hrequest)
  · intro id request hrequest
    exact h.pending id request (hpending id request hrequest)

theorem forget (id : ℕ) : Silent s (s.forget id) :=
  h.narrow le_rfl (fun _ _ hrequest => hrequest) (fun _ _ hrequest => (lookup_of_erase hrequest).2) rfl

theorem numbered : Silent s { s with nextId := s.nextId + 1 } :=
  h.narrow (Nat.le_succ _) (fun _ _ hrequest => hrequest) (fun _ _ hrequest => hrequest) rfl

theorem not_open_forget {id : ℕ} (hid : id ∈ s.pending) : ¬(s.forget id).Open id := by
  rintro (hnext | hcommand | hpending)
  · exact absurd (h.issued id (.inr hid)) (not_lt.mpr hnext)
  · exact h.apart id hcommand hid
  · exact (mem_erase.mp hpending).1 rfl

theorem reply {replies : ℕ → Reply} (hreplies : ∀ id, (replies id).sent = (s.replies id).sent ∨
      ¬s.Open id ∧ (replies id).sent.length ≤ 1) : Silent s { s with replies } := by
  refine ⟨rfl, rfl, rfl, rfl, fun _ hopen => hopen, { h with once := ?_, unanswered := ?_ }⟩
  · intro id
    rcases hreplies id with hsame | ⟨-, hlength⟩
    · rw [hsame]
      exact h.once id
    · exact hlength
  · intro id hopen
    rcases hreplies id with hsame | ⟨hclosed, -⟩
    · exact hsame.trans (h.unanswered id hopen)
    · exact absurd hopen hclosed

theorem answer {id : ℕ} (hclosed : ¬s.Open id) (hsent : (s.replies id).sent = [])
    (result : Except RpcError Json) : Silent s (s.answer id result) := by
  apply h.reply
  intro id'
  rw [Function.update_apply]
  split
  · next heq =>
    rw [hsent]
    exact .inr ⟨heq ▸ hclosed, le_rfl⟩
  · exact .inl rfl

variable {channel : ℕ} {name : String}

theorem subscribed (hrunning : s.phase = .running) (hclosed : ¬s.Open channel)
    (hfresh : Fresh (s.channels channel))
    (hnew : ∀ name', s.subscriptions.lookup name' ≠ some channel) :
    WellFormed (s.subscribed name channel) := by
  have hlookup : ∀ name', (s.subscribed name channel).subscriptions.lookup name' =
      if name' = name then some channel else s.subscriptions.lookup name' := fun name' =>
    lookup_insert_eq
  refine { h with registered := ?_, unique := ?_, stopped := ?_ }
  · intro name' channel' hname'
    rw [hlookup] at hname'
    split at hname'
    · cases hname'
      exact ⟨hclosed, hfresh.terminal, hfresh.finished⟩
    · exact h.registered name' channel' hname'
  · intro name₁ name₂ channel' h₁ h₂
    rw [hlookup] at h₁ h₂
    split at h₁ <;> split at h₂
    · simp_all
    · cases h₁
      exact absurd h₂ (hnew _)
    · cases h₂
      exact absurd h₁ (hnew _)
    · exact h.unique _ _ _ h₁ h₂
  · intro hstopped
    exact absurd hrunning hstopped

theorem not_ended (hname : s.subscriptions.lookup name = some channel) : ¬s.Ended channel := by
  rintro (hterminal | hstopped)
  · exact hterminal (h.registered name channel hname).2.1
  · rw [h.stopped hstopped] at hname
    cases hname

theorem setChannel {c : Channel} {available : ℕ}
    (hfresh : s.phase = .running → s.Open channel → Fresh (s.channels channel) → Fresh c)
    (hstate : ∀ name, s.subscriptions.lookup name = some channel → ¬s.Ended channel →
      (s.channels channel).finished = false → c.terminal = none ∧ c.finished = false) :
    WellFormed { s.setChannel channel c with notificationBytes := available } := by
  have hchannel : ∀ channel', (s.setChannel channel c).channels channel' =
      if channel' = channel then c else s.channels channel' := fun _ => Function.update_apply ..
  refine { h with fresh := ?_, registered := ?_ }
  · intro hrunning id hopen
    rw [hchannel]
    split
    · next heq =>
      subst heq
      exact hfresh hrunning hopen (h.fresh hrunning id hopen)
    · exact h.fresh hrunning id hopen
  · intro name channel' hname
    obtain ⟨hclosed, hterminal, hfinished⟩ := h.registered name channel' hname
    refine ⟨hclosed, ?_⟩
    show ((s.setChannel channel c).channels channel').terminal = none ∧
      ((s.setChannel channel c).channels channel').finished = false
    rw [hchannel]
    split
    · next heq =>
      subst heq
      exact hstate name hname (h.not_ended hname) hfinished
    · exact ⟨hterminal, hfinished⟩

theorem endSubscription (hname : s.subscriptions.lookup name = some channel) (error : RpcError) :
    WellFormed (s.endSubscription name channel error) := by
  have hremoved : WellFormed
      { s with
        subscriptions := s.subscriptions.erase name
        recentlyUnsubscribed := remember s.recentlyUnsubscribed name } := by
    refine { h with registered := ?_, unique := ?_, stopped := ?_ }
    · intro name' channel' hname'
      exact h.registered name' channel' (lookup_of_erase hname').2
    · intro name₁ name₂ channel' h₁ h₂
      exact h.unique _ _ _ (lookup_of_erase h₁).2 (lookup_of_erase h₂).2
    · intro hstopped
      rw [h.stopped hstopped] at hname
      cases hname
  refine hremoved.setChannel ?_ ?_
  · intro _ hopen
    exact absurd hopen (h.registered name channel hname).1
  · intro name' hname'
    obtain ⟨hne, hname'⟩ := lookup_of_erase hname'
    exact absurd (h.unique _ _ _ hname' hname) hne

theorem queued (hname : s.subscriptions.lookup name = some channel) (n : QueuedNotification) :
    WellFormed (s.queued channel n) := by
  obtain ⟨hclosed, hstate⟩ := h.registered name channel hname
  exact h.setChannel (fun _ hopen => absurd hopen hclosed) fun _ _ _ _ => hstate

theorem finish (failure : RpcError) : WellFormed (s.finish failure) := by
  have hsent : ∀ id, ((s.finish failure).replies id).sent =
      (s.replies id).sent ++ if id ∈ s.pending then [.error failure] else [] := by
    intro id
    show (if id ∈ s.pending then _ else _ : Reply).sent = _
    split
    · rfl
    · exact (List.append_nil _).symm
  apply of_stopped rfl rfl rfl
  · intro hrunning
    cases hrunning
  · intro id
    rw [hsent]
    split
    · next hid =>
      rw [h.unanswered id (.inr (.inr hid))]
      exact le_rfl
    · rw [List.append_nil]
      exact h.once id
  · intro id hnext
    have hmem : id ∉ s.pending := fun hmem => absurd (h.issued id (.inr hmem)) (not_lt.mpr hnext)
    rw [hsent, if_neg hmem, List.append_nil]
    exact h.unanswered id (.inl hnext)

theorem abort : WellFormed s.abort := by
  apply of_stopped rfl rfl rfl
  · intro hrunning
    cases hrunning
  · exact h.once
  · intro id hnext
    exact h.unanswered id (.inl hnext)

theorem halts (hhalts : Halts s t) : WellFormed t := by
  cases hhalts with
  | kept => exact h
  | finished e => exact h.finish e
  | aborted => exact h.abort

theorem respond {id : ℕ} {request : Pending}
    (hpending : s.pending.lookup id = some request) {m : Session} (hm : WellFormed m)
    (hopen : ∀ id', m.Open id' → (s.forget id).Open id') (hreplies : m.replies = s.replies)
    (result : Except RpcError Json) : Silent m (m.answer id result) := by
  have hmem : id ∈ s.pending := mem_iff_lookup.mpr ⟨request, hpending⟩
  refine hm.answer (fun h' => h.not_open_forget hmem (hopen id h')) ?_ result
  rw [hreplies]
  exact h.unanswered id (.inr (.inr hmem))

theorem own_channel {id : ℕ} {request : Pending} (hpending : s.pending.lookup id = some request)
    (hregistration : request.registration = some channel) : channel = id ∧ s.Open channel := by
  have hopen : s.Open id := .inr (.inr (mem_iff_lookup.mpr ⟨request, hpending⟩))
  rcases h.pending id request hpending with hnone | ⟨hsome, -⟩
  · rw [hnone] at hregistration
    cases hregistration
  · rw [hsome] at hregistration
    cases hregistration
    exact ⟨rfl, hopen⟩

theorem dispatched (hrunning : s.phase = .running) {bytes : Bytes}
    {outcome : Except RpcError (Option String) × Session}
    (hdispatched : Dispatched serde s bytes outcome) : WellFormed outcome.2 := by
  cases hdispatched with
  | rejected | ignored => exact h
  | refused id => exact (h.forget id).wellFormed
  | answered id request result hroute hpending =>
    exact (h.respond hpending (h.forget id).wellFormed (fun _ ho => ho) rfl result).wellFormed
  | registered id request result name channel hroute hpending hregistration =>
    obtain ⟨rfl, hopen⟩ := h.own_channel hpending hregistration
    have hnew : ∀ name', s.subscriptions.lookup name' ≠ some channel := fun name' hname' =>
      (h.registered name' channel hname').1 hopen
    have hclosed := h.not_open_forget (mem_iff_lookup.mpr ⟨request, hpending⟩)
    have hsubscribed : WellFormed ((s.forget channel).subscribed name channel) :=
      (h.forget channel).wellFormed.subscribed hrunning hclosed (h.fresh hrunning channel hopen) hnew
    exact (h.respond hpending hsubscribed (fun _ ho => ho) rfl result).wellFormed
  | unsubscribed id request result name channel hroute hpending hname =>
    have hended := (h.forget id).wellFormed.endSubscription hname .subscriptionClosed
    exact (h.respond hpending hended (fun _ ho => ho) rfl result).wellFormed
  | queued n channel permit hn hreaches => exact h.queued hreaches _
  | lagged n channel hn hreaches => exact h.endSubscription hreaches _

omit h in
theorem frame_halts (s : Session) (bytes : Bytes) (sent : Except RpcError Unit)
    (h : WellFormed (dispatch serde config bytes s).2) :
    ∃ m, Silent (dispatch serde config bytes s).2 m ∧ Halts m (s.frame serde config bytes sent) := by
  unfold frame
  revert h
  rcases dispatch serde config bytes s with ⟨e | _ | name, t⟩
  · exact fun h => ⟨t, .refl h, .finished e⟩
  · exact fun h => ⟨t, .refl h, .kept⟩
  · intro h
    dsimp only
    cases hid : t.takeId with
    | none => exact ⟨t, .refl h, .finished _⟩
    | some taken =>
      obtain ⟨id, t'⟩ := taken
      obtain ⟨-, rfl⟩ := takeId_eq_some hid
      cases sent with
      | ok => exact ⟨_, h.numbered, .kept⟩
      | error e => exact ⟨_, h.numbered, .finished e⟩

theorem issue (request : Request) : Silent s (s.issue request) := by
  unfold Session.issue
  cases hid : s.takeId with
  | none => exact .refl h
  | some taken =>
    obtain ⟨id, t⟩ := taken
    obtain ⟨rfl, rfl⟩ := takeId_eq_some hid
    have hnew : s.nextId ∉ s.pending := fun hmem => absurd (h.issued _ (.inr hmem)) (lt_irrefl _)
    refine h.move ?_ ?_ ?_ ?_ h.pending rfl
    · rintro id (hid | hid | hid)
      · exact .inl (Nat.le_of_succ_le hid)
      · rcases (mem_insert _).mp hid with rfl | hid
        · exact .inl le_rfl
        · exact .inr (.inl hid)
      · exact .inr (.inr hid)
    · rintro id (hid | hid)
      · rcases (mem_insert _).mp hid with rfl | hid
        · exact Nat.lt_succ_self _
        · exact Nat.lt_succ_of_lt (h.issued id (.inl hid))
      · exact Nat.lt_succ_of_lt (h.issued id (.inr hid))
    · intro id hid
      rcases (mem_insert _).mp hid with rfl | hid
      · exact hnew
      · exact h.apart id hid
    · intro id request hrequest
      rw [lookup_insert_eq] at hrequest
      split at hrequest
      · next heq =>
        cases hrequest
        exact heq ▸ request_of s.nextId request
      · exact h.commands id request hrequest

theorem command (id : ℕ) (sent : Sent) : ∃ m, Silent s m ∧ Halts m (s.command id sent) := by
  unfold Session.command
  cases hrequest : s.commands.lookup id with
  | none => exact ⟨s, .refl h, .kept⟩
  | some request =>
    have hmem : id ∈ s.commands := mem_iff_lookup.mpr ⟨request, hrequest⟩
    have htaken : Silent s { s with commands := s.commands.erase id } :=
      h.narrow le_rfl (fun _ _ hcommand => (lookup_of_erase hcommand).2)
        (fun _ _ hpending => hpending) rfl
    have hclosed : ¬Open { s with commands := s.commands.erase id } id := by
      rintro (hnext | hcommand | hpending)
      · exact absurd (h.issued id (.inl hmem)) (not_lt.mpr hnext)
      · exact (mem_erase.mp hcommand).1 rfl
      · exact h.apart id hmem hpending
    have hanswer := fun result => htaken.trans
      (htaken.wellFormed.answer hclosed (h.unanswered id (.inr (.inl hmem))) result)
    cases sent with
    | overdue => exact ⟨_, hanswer _, .kept⟩
    | shutdown | timedOut => exact ⟨_, hanswer _, .finished _⟩
    | failed e => exact ⟨_, hanswer _, .finished e⟩
    | done =>
      refine ⟨_, ?_, .kept⟩
      refine h.move ?_ ?_ ?_ htaken.wellFormed.commands ?_ rfl
      · rintro id' (hid | hid | hid)
        · exact .inl hid
        · exact .inr (.inl (mem_erase.mp hid).2)
        · rcases (mem_insert _).mp hid with rfl | hid
          · exact .inr (.inl hmem)
          · exact .inr (.inr hid)
      · rintro id' (hid | hid)
        · exact h.issued id' (.inl (mem_erase.mp hid).2)
        · rcases (mem_insert _).mp hid with rfl | hid
          · exact h.issued id' (.inl hmem)
          · exact h.issued id' (.inr hid)
      · intro id' hid hpending
        obtain ⟨hne, hid⟩ := mem_erase.mp hid
        rcases (mem_insert _).mp hpending with rfl | hpending
        · exact hne rfl
        · exact h.apart id' hid hpending
      · intro id' request' hrequest'
        rw [lookup_insert_eq] at hrequest'
        split at hrequest'
        · next heq =>
          cases hrequest'
          exact heq ▸ h.commands id request hrequest
        · exact h.pending id' request' hrequest'

theorem cleanup (overdue : List ℕ) : ∃ m, Silent s m ∧ Halts m (s.cleanup overdue) := by
  have hforgotten : Silent s
      { s with pending := s.pending.delete fun id _ => s.Abandoned overdue id } :=
    h.narrow le_rfl (fun _ _ hrequest => hrequest)
      (fun _ _ hrequest => (lookup_delete.mp hrequest).1) rfl
  have hswept : Silent s (s.sweep overdue) := by
    refine hforgotten.trans (hforgotten.wellFormed.reply ?_)
    intro id
    split
    · next habandoned =>
      refine .inr ⟨?_, ?_⟩
      · rintro (hnext | hcommand | hpending)
        · exact absurd (h.issued id (.inr habandoned.1)) (not_lt.mpr hnext)
        · exact h.apart id hcommand habandoned.1
        · obtain ⟨request, hrequest⟩ := mem_iff_lookup.mp hpending
          exact (lookup_delete.mp hrequest).2 habandoned
      · rw [h.unanswered id (.inr (.inr habandoned.1))]
        exact le_rfl
    · exact .inl rfl
  unfold Session.cleanup
  dsimp only
  split
  · exact ⟨_, hswept, .finished _⟩
  · exact ⟨_, hswept, .kept⟩

/-! ### Callers -/

theorem abandon (id : ℕ) : Silent s (s.abandon id) := by
  apply h.reply
  intro id'
  rw [Function.update_apply]
  split
  · next heq =>
    subst heq
    exact .inl rfl
  · exact .inl rfl

theorem drop (channel : ℕ) : WellFormed (s.drop channel) := by
  apply h.setChannel
  · exact fun _ _ hfresh => ⟨rfl, hfresh.terminal, hfresh.finished, hfresh.seen⟩
  · exact fun name hname _ _ => (h.registered name channel hname).2

theorem recv (channel : ℕ) : WellFormed (s.recv channel) := by
  cases received s channel with
  | waits hs =>
    rw [hs]
    exact h
  | finished hfinished hs =>
    rw [hs]
    apply h.setChannel
    · intro _ _ hfresh
      rw [hfresh.finished] at hfinished
      cases hfinished
    · intro _ _ _ hunfinished
      rw [hunfinished] at hfinished
      cases hfinished
  | failed e queue closed available hfinished hended hqueue hs =>
    rw [hs]
    apply h.setChannel
    · intro hrunning _ hfresh
      exact absurd hended (not_or.mpr ⟨not_not.mpr hfresh.terminal, not_not.mpr hrunning⟩)
    · intro _ _ hrunning
      exact absurd hended hrunning
  | value n rest available hfinished hrunning hqueue hs =>
    rw [hs]
    apply h.setChannel
    · intro _ _ hfresh
      rw [hfresh.queue] at hqueue
      cases hqueue
    · exact fun name hname _ _ => (h.registered name channel hname).2

theorem step (event : Event) : Step serde s event (s.next serde config event) := by
  by_cases hrunning : s.phase = .running
  · cases event with
    | abandon id => exact .silent _ _ _ (h.abandon id) .kept nofun
    | drop channel => exact .drop channel
    | recv channel => exact .recv channel
    | issue request =>
      simp only [Session.next, hrunning]
      exact .silent _ _ _ (h.issue request) .kept nofun
    | command id sent =>
      simp only [Session.next, hrunning]
      obtain ⟨m, hm, hhalts⟩ := h.command id sent
      exact .silent _ m _ hm hhalts nofun
    | frame bytes sent =>
      rw [next_frame hrunning]
      have hdispatched : Dispatched serde s bytes (dispatch serde config bytes s) :=
        dispatch_dispatched h.kind bytes
      obtain ⟨m, hm, hhalts⟩ := frame_halts s bytes sent (h.dispatched hrunning hdispatched)
      exact .frame bytes sent _ m _ hrunning hdispatched hm hhalts
    | cleanup overdue =>
      simp only [Session.next, hrunning]
      obtain ⟨m, hm, hhalts⟩ := h.cleanup overdue
      exact .silent _ m _ hm hhalts nofun
    | stop failure =>
      simp only [Session.next, hrunning]
      exact .silent _ s _ (.refl h) (.finished failure) nofun
    | abort =>
      simp only [Session.next, hrunning]
      exact .silent _ s _ (.refl h) .aborted nofun
  · -- after its end only callers move
    cases event with
    | abandon id => exact .silent _ _ _ (h.abandon id) .kept nofun
    | drop channel => exact .drop channel
    | recv channel => exact .recv channel
    | _ =>
      have hsame : ∀ event, s.next serde config event = s →
        Step serde s event (s.next serde config event) := by
        intro event heq
        rw [heq]
        exact .silent _ s s (.refl h) .kept fun _ _ _ => hrunning
      apply hsame
      unfold Session.next
      cases hphase : s.phase with
      | running => exact absurd hphase hrunning
      | _ => rfl

theorem next (event : Event) : WellFormed (s.next serde config event) := by
  have hstep : Step serde s event (s.next serde config event) := h.step event
  cases hstep with
  | silent _ m _ hsilent hhalts => exact hsilent.wellFormed.halts hhalts
  | frame _ _ _ m _ _ _ hsilent hhalts =>
    exact hsilent.wellFormed.halts hhalts
  | drop channel => exact h.drop channel
  | recv channel => exact h.recv channel

end WellFormed

end Session

end QuaiSdk.Rpc
