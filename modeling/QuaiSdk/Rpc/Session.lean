import QuaiSdk.Json
import QuaiSdk.Lib.Method
import QuaiSdk.Lib.Table

/-!
# A multiplexed WebSocket session

`websocket.rs`: requests and subscriptions that share one connection.  An actor owns the maps of
pending requests and of registrations; callers hold the receiving ends of reply channels and of
notification queues.  What the scheduler, the clock, the socket and the callers do is a list of
events.
-/

namespace QuaiSdk.Rpc

open Result
open Method (self lift assign fail)

structure RemoteError where
  code : Int
  message : String
  data : Option Json

inductive RpcError where
  | disconnected
  | subscriptionLagged
  | subscriptionClosed
  | requestTooLarge
  | timeout
  | httpStatus (status : UInt16)
  | responseTooLarge
  | invalidResponse (reason : String)
  | remote (error : RemoteError)
  | requestIdExhausted
  | invalidConfig

/-- Fields stay raw text until they are routed; `none` is an absent one. -/
structure WireEnvelope where
  jsonrpc : String
  id : Option String
  method : Option String
  params : Option String
  result : Option String
  error : Option String

structure Notification where
  subscription : String
  result : Json

/-- What `serde_json` reads. -/
structure Serde where
  envelope : Bytes → Option WireEnvelope
  u64 : String → Option UInt64
  text : String → Option String
  value : String → Option Json
  remoteError : String → Option RemoteError
  notification : String → Option Notification

/-- `response_value`: exactly one of the two is allowed. -/
def responseValue (serde : Serde) (result error : Option String) : Except RpcError Json :=
  match result, error with
  | some result, none => okOr (serde.value result) (.invalidResponse "malformed envelope")
  | none, some error =>
    match serde.remoteError error with
    | some error => .error (.remote error)
    | none => .error (.invalidResponse "malformed error")
  | _, _ => .error (.invalidResponse "expected exactly one result or error")

/-- `subscription_id`. -/
def subscriptionId (value : Json) : Except RpcError String := do
  let id ← okOr value.asStr (.invalidResponse "invalid subscription ID")
  if id.isEmpty = false ∧ (utf8 id).length ≤ 256 ∧ ∀ byte ∈ utf8 id, 0x21 ≤ byte ∧ byte ≤ 0x7e then
    .ok id
  else .error (.invalidResponse "invalid subscription ID")

inductive Routed where
  | response (id : ℕ) (result : Except RpcError Json)
  | notification (n : Notification)

def route (serde : Serde) (bytes : Bytes) : Except RpcError Routed :=
  if ¬(ByteArray.mk bytes.toArray).IsValidUTF8 then
    .error (.invalidResponse "malformed WebSocket envelope")
  else do
    let envelope ← okOr (serde.envelope bytes) (.invalidResponse "malformed WebSocket envelope")
    if envelope.jsonrpc ≠ "2.0" then .error (.invalidResponse "wrong protocol version")
    else
      match envelope.id, envelope.method, envelope.params, envelope.result, envelope.error with
      | some id, none, none, result, error => do
        let id ← okOr (serde.u64 id) (.invalidResponse "invalid response ID")
        .ok (.response id.toNat (responseValue serde result error))
      | none, some method, some params, none, none =>
        if serde.text method = some "quai_subscription" then do
          let n ← okOr (serde.notification params)
            (.invalidResponse "malformed subscription notification")
          .ok (.notification n)
        else .error (.invalidResponse "unexpected WebSocket envelope")
      | _, _, _, _, _ => .error (.invalidResponse "unexpected WebSocket envelope")

structure WsConfig where
  subscriptionCapacity : ℕ
  maxNotificationBytes : ℕ

structure Pending where
  registration : Option ℕ
  unsubscribe : Option String

/-- A reply channel: whether its receiver is gone, and what was sent. -/
structure Reply where
  closed : Bool
  sent : List (Except RpcError Json)

structure QueuedNotification where
  payload : Json
  permit : ℕ

/-- A registration's queue and terminal, with the subscriber at the other end: whether it finished
and what its calls of `recv` returned. -/
structure Channel where
  queue : List QueuedNotification
  closed : Bool
  terminal : Option RpcError
  finished : Bool
  seen : List (Except RpcError (Option Json))

/-- A `recv` returns. -/
def Channel.observe (c : Channel) (outcome : Except RpcError (Option Json)) : Channel :=
  { c with seen := c.seen ++ [outcome] }

inductive Phase where
  | running
  | closed (failure : RpcError)
  | aborted

/-- The value of the `closed` watch channel. -/
def Phase.failure : Phase → Option RpcError
  | .closed failure => some failure
  | _ => none

/-- `commands` are the requests that have an ID and that the actor has not received. -/
structure Session where
  nextId : ℕ
  commands : Table ℕ Pending
  pending : Table ℕ Pending
  subscriptions : Table String ℕ
  recentlyUnsubscribed : List String
  notificationBytes : ℕ
  replies : ℕ → Reply
  channels : ℕ → Channel
  phase : Phase

namespace Session

def connect (config : WsConfig) : Session where
  nextId := 1
  commands := ∅
  pending := ∅
  subscriptions := ∅
  recentlyUnsubscribed := []
  notificationBytes := config.maxNotificationBytes
  replies := fun _ => ⟨false, []⟩
  channels := fun _ => ⟨[], false, none, false, []⟩
  phase := .running

/-- `reply.send`. -/
def answer (s : Session) (id : ℕ) (result : Except RpcError Json) : Session :=
  { s with
    replies := Function.update s.replies id
      { s.replies id with sent := (s.replies id).sent ++ [result] } }

def setChannel (s : Session) (channel : ℕ) (c : Channel) : Session :=
  { s with channels := Function.update s.channels channel c }

/-- `terminal.send`. -/
def terminate (s : Session) (channel : ℕ) (error : RpcError) : Session :=
  s.setChannel channel { s.channels channel with terminal := some error }

def maxRecentlyUnsubscribed : ℕ := 64

def remember (recent : List String) (name : String) : List String :=
  (if recent.length = maxRecentlyUnsubscribed then recent.tail else recent) ++ [name]

def endSubscription (s : Session) (name : String) (channel : ℕ) (error : RpcError) : Session :=
  { s.terminate channel error with
    subscriptions := s.subscriptions.erase name
    recentlyUnsubscribed := remember s.recentlyUnsubscribed name }

def late (result : Except RpcError Json) : Except RpcError (Option String) :=
  match result with
  | .ok _ => .ok none
  | .error (.remote _) => .ok none
  | .error e => .error e

def register (id : ℕ) (registration : Option ℕ) (result : Except RpcError Json) :
    Method RpcError Session Unit :=
  match registration with
  | none => pure ()
  | some channel => do
    let s ← self
    if (s.replies id).closed = true then fail .disconnected
    else
      match result with
      | .error _ => pure ()
      | .ok value => do
        let name ← lift (subscriptionId value)
        if name ∈ s.subscriptions then fail (.invalidResponse "duplicate subscription ID")
        else assign { s with subscriptions := s.subscriptions.insert name channel }

def acknowledge (unsubscribe : Option String) (result : Except RpcError Json) :
    Method RpcError Session Unit :=
  match unsubscribe, result with
  | some name, .ok (.bool true) => do
    let s ← self
    match s.subscriptions.lookup name with
    | some channel => assign (s.endSubscription name channel .subscriptionClosed)
    | none => pure ()
  | _, _ => pure ()

def respond (id : ℕ) (result : Except RpcError Json) :
    Method RpcError Session (Option String) := do
  let s ← self
  if id = 0 ∨ s.nextId ≤ id then fail (.invalidResponse "unissued response ID")
  else
    match s.pending.lookup id with
    | none => lift (late result)
    | some request => do
      assign { s with pending := s.pending.erase id }
      register id request.registration result
      acknowledge request.unsubscribe result
      let s ← self
      assign (s.answer id result)
      pure none

/-- `try_acquire_many_owned` and `try_send`; a full queue gives the bytes back. -/
def notify (config : WsConfig) (size : ℕ) (n : Notification) :
    Method RpcError Session (Option String) := do
  let s ← self
  match s.subscriptions.lookup n.subscription with
  | none =>
    if n.subscription ∈ s.recentlyUnsubscribed then pure none
    else fail (.invalidResponse "unknown subscription ID")
  | some channel =>
    let c := s.channels channel
    let permit := size % 2 ^ 32
    if permit ≤ s.notificationBytes ∧ c.closed = true then fail .disconnected
    else if permit ≤ s.notificationBytes ∧ c.queue.length < config.subscriptionCapacity then do
      let s := s.setChannel channel { c with queue := c.queue ++ [⟨n.result, permit⟩] }
      assign { s with notificationBytes := s.notificationBytes - permit }
      pure none
    else do
      assign (s.endSubscription n.subscription channel .subscriptionLagged)
      pure (some n.subscription)

def dispatch (serde : Serde) (config : WsConfig) (bytes : Bytes) :
    Method RpcError Session (Option String) := do
  let routed ← lift (route serde bytes)
  match routed with
  | .response id result => respond id result
  | .notification n => notify config bytes.length n

def finish (s : Session) (failure : RpcError) : Session :=
  { s with
    commands := ∅
    pending := ∅
    subscriptions := ∅
    replies := fun id =>
      if id ∈ s.pending then { s.replies id with sent := (s.replies id).sent ++ [.error failure] }
      else s.replies id
    channels := fun channel =>
      if channel ∈ s.subscriptions.values ∧ (s.channels channel).terminal.isNone = true then
        { s.channels channel with terminal := some failure }
      else s.channels channel
    phase := .closed failure }

/-- `fetch_update` with `checked_add`; exhausted after the last ID but one. -/
def takeId (s : Session) : Option (ℕ × Session) :=
  if s.nextId + 1 < 2 ^ 64 then some (s.nextId, { s with nextId := s.nextId + 1 }) else none

/-- One frame; a lagged registration is unsubscribed on the node, with `sent` the outcome of writing
that request. -/
def frame (serde : Serde) (config : WsConfig) (s : Session) (bytes : Bytes)
    (sent : Except RpcError Unit) : Session :=
  match dispatch serde config bytes s with
  | (.error e, s) => s.finish e
  | (.ok none, s) => s
  | (.ok (some _), s) =>
    match s.takeId with
    | none => s.finish .requestIdExhausted
    | some (_, s) =>
      match sent with
      | .ok () => s
      | .error e => s.finish e

inductive Request where
  | call
  | subscribe
  | unsubscribe (name : String)

def Request.pending (id : ℕ) : Request → Pending
  | .call => ⟨none, none⟩
  | .subscribe => ⟨some id, none⟩
  | .unsubscribe name => ⟨none, some name⟩

/-- `request_at` up to the command queue. -/
def issue (s : Session) (request : Request) : Session :=
  match s.takeId with
  | none => s
  | some (id, s) => { s with commands := s.commands.insert id (request.pending id) }

/-- How the actor's write of a request went: not tried for an overdue one, stopped by a shutdown,
done, failed or timed out. -/
inductive Sent where
  | overdue
  | shutdown
  | done
  | failed (e : RpcError)
  | timedOut

def command (s : Session) (id : ℕ) (sent : Sent) : Session :=
  match s.commands.lookup id with
  | none => s
  | some request =>
    let s := { s with commands := s.commands.erase id }
    match sent with
    | .overdue => s.answer id (.error .timeout)
    | .shutdown => (s.answer id (.error .disconnected)).finish .disconnected
    | .done => { s with pending := s.pending.insert id request }
    | .failed e => (s.answer id (.error e)).finish e
    | .timedOut => (s.answer id (.error .timeout)).finish .disconnected

def Abandoned (s : Session) (overdue : List ℕ) (id : ℕ) : Prop :=
  id ∈ s.pending ∧ ((s.replies id).closed = true ∨ id ∈ overdue)

instance decidableAbandoned (s : Session) (overdue : List ℕ) (id : ℕ) :
    Decidable (s.Abandoned overdue id) :=
  inferInstanceAs (Decidable (_ ∧ _))

def sweep (s : Session) (overdue : List ℕ) : Session :=
  { s with
    pending := s.pending.delete fun id _ => s.Abandoned overdue id
    replies := fun id =>
      if s.Abandoned overdue id then
        { s.replies id with sent := (s.replies id).sent ++ [.error .timeout] }
      else s.replies id }

def cleanup (s : Session) (overdue : List ℕ) : Session :=
  let close := s.subscriptions.values.any (fun channel => (s.channels channel).closed) ||
    s.pending.rows.any fun row => decide (s.Abandoned overdue row.1) &&
      (row.2.registration.isSome || row.2.unsubscribe.isSome)
  if close = true then (s.sweep overdue).finish .disconnected else s.sweep overdue

def abort (s : Session) : Session :=
  { s with commands := ∅, pending := ∅, subscriptions := ∅, phase := .aborted }

def abandon (s : Session) (id : ℕ) : Session :=
  { s with replies := Function.update s.replies id { s.replies id with closed := true } }

def release (queue : List QueuedNotification) : ℕ := (queue.map QueuedNotification.permit).sum

def drop (s : Session) (channel : ℕ) : Session :=
  let c := s.channels channel
  let s := s.setChannel channel { c with queue := [], closed := true }
  { s with notificationBytes := s.notificationBytes + release c.queue }

/-- `recv`, up to its next return; it waits on an empty queue.  A terminal error goes before
notifications that are still queued. -/
def recv (s : Session) (channel : ℕ) : Session :=
  let c := s.channels channel
  if c.finished = true then s.setChannel channel (c.observe (.ok none))
  else if c.closed = true then s
  else
    match c.terminal <|> s.phase.failure with
    | some error =>
      let s := s.setChannel channel
        { c.observe (.error error) with queue := [], closed := true, finished := true }
      { s with notificationBytes := s.notificationBytes + release c.queue }
    | none =>
      match s.phase, c.queue with
      | .aborted, _ =>
        s.setChannel channel { c.observe (.error .disconnected) with finished := true }
      | _, n :: rest =>
        let s := s.setChannel channel { c.observe (.ok (some n.payload)) with queue := rest }
        { s with notificationBytes := s.notificationBytes + n.permit }
      | _, [] => s

/-- A call on a subscription that its caller does not have yet is allowed: it finds nothing. -/
inductive Event where
  | issue (request : Request)
  | command (id : ℕ) (sent : Sent)
  | frame (bytes : Bytes) (sent : Except RpcError Unit)
  | cleanup (overdue : List ℕ)
  | stop (failure : RpcError)
  | abort
  | abandon (id : ℕ)
  | drop (channel : ℕ)
  | recv (channel : ℕ)

/-- Callers go on after the actor has ended. -/
def next (serde : Serde) (config : WsConfig) (s : Session) : Event → Session
  | .abandon id => s.abandon id
  | .drop channel => s.drop channel
  | .recv channel => s.recv channel
  | event =>
    match s.phase, event with
    | .running, .issue request => s.issue request
    | .running, .command id sent => s.command id sent
    | .running, .frame bytes sent => s.frame serde config bytes sent
    | .running, .cleanup overdue => s.cleanup overdue
    | .running, .stop failure => s.finish failure
    | .running, .abort => s.abort
    | _, _ => s

end Session

end QuaiSdk.Rpc
