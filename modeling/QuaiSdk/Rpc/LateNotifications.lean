import QuaiSdk.Rpc.SessionSafe

/-!
# Late notifications

A node may still notify under an ID whose registration has ended.  Dispatch drops such a notification
while it remembers the ID, and it remembers the last 64 that ended.
-/

namespace QuaiSdk.Rpc

open Run

namespace Session

variable {serde : Serde} {config : WsConfig} {s t u : Session} {name : String}

def ended (s t : Session) : List String :=
  s.subscriptions.keys.filter fun name => name ∉ t.subscriptions

def endedIn (serde : Serde) (config : WsConfig) (s : Session) : List Event → List String
  | [] => []
  | event :: events =>
    ended s (s.next serde config event) ++ endedIn serde config (s.next serde config event) events

theorem mem_ended : name ∈ ended s t ↔ name ∈ s.subscriptions ∧ name ∉ t.subscriptions := by
  rw [ended, List.mem_filter, decide_eq_true_iff]
  exact and_congr_left' AList.mem_keys.symm

/-- Nothing ends, or one registration does and is remembered. -/
def Recalls (s u : Session) : Prop :=
  (u.recentlyUnsubscribed = s.recentlyUnsubscribed ∧
    ∀ name ∈ s.subscriptions, name ∈ u.subscriptions) ∨
  ∃ name ∈ s.subscriptions, u.recentlyUnsubscribed = remember s.recentlyUnsubscribed name ∧
    u.subscriptions = s.subscriptions.erase name

theorem recalls_of_same (hrecent : u.recentlyUnsubscribed = s.recentlyUnsubscribed)
    (hsubscriptions : u.subscriptions = s.subscriptions) : Recalls s u :=
  .inl ⟨hrecent, fun _ hname => hsubscriptions ▸ hname⟩

theorem dispatched_recalls {bytes : Bytes} {outcome : Except RpcError (Option String) × Session}
    (h : Dispatched serde s bytes outcome) : Recalls s outcome.2 := by
  cases h with
  | registered =>
    exact .inl ⟨rfl, fun other hother => (AList.mem_insert _).mpr (.inr hother)⟩
  | unsubscribed id request result name channel hroute hpending hname =>
    exact .inr ⟨name, Table.mem_iff_lookup.mpr ⟨channel, hname⟩, rfl, rfl⟩
  | lagged n channel hn hreaches =>
    exact .inr ⟨n.subscription, Table.mem_iff_lookup.mpr ⟨channel, hreaches⟩, rfl, rfl⟩
  | _ => exact recalls_of_same rfl rfl

theorem recv_recalls (s : Session) (channel : ℕ) : Recalls s (s.recv channel) := by
  cases received s channel with
  | waits heq => exact recalls_of_same (by rw [heq]) (by rw [heq])
  | finished _ heq | failed _ _ _ _ _ _ _ heq | value _ _ _ _ _ _ heq =>
    exact recalls_of_same (by rw [heq]; rfl) (by rw [heq]; rfl)

theorem halts_recent {m : Session} (hsilent : Silent u m) (hhalts : Halts m t) :
    t.recentlyUnsubscribed = u.recentlyUnsubscribed ∧
      (t.subscriptions = u.subscriptions ∨ t.subscriptions = ∅ ∧ t.phase ≠ .running) := by
  cases hhalts with
  | kept => exact ⟨hsilent.recent, .inl hsilent.subscriptions⟩
  | finished | aborted => exact ⟨hsilent.recent, .inr ⟨rfl, nofun⟩⟩

theorem next_recalls (hs : WellFormed s) (event : Event) :
    ∃ u, Recalls s u ∧ (s.next serde config event).recentlyUnsubscribed = u.recentlyUnsubscribed ∧
      ((s.next serde config event).subscriptions = u.subscriptions ∨
        (s.next serde config event).subscriptions = ∅ ∧
          (s.next serde config event).phase ≠ .running) := by
  have hstep : Step serde s event (s.next serde config event) := hs.step event
  generalize s.next serde config event = t at hstep ⊢
  cases hstep with
  | silent _ m _ hsilent hhalts => exact ⟨s, recalls_of_same rfl rfl, halts_recent hsilent hhalts⟩
  | frame _ _ outcome m _ _ hdispatched hsilent hhalts =>
    exact ⟨_, dispatched_recalls hdispatched, halts_recent hsilent hhalts⟩
  | drop => exact ⟨_, recalls_of_same rfl rfl, rfl, .inl rfl⟩
  | recv channel => exact ⟨_, recv_recalls s channel, rfl, .inl rfl⟩

theorem next_recent (hs : WellFormed s) (event : Event) :
    (s.next serde config event).recentlyUnsubscribed = s.recentlyUnsubscribed ∨
      ∃ name ∈ ended s (s.next serde config event),
        (s.next serde config event).recentlyUnsubscribed = remember s.recentlyUnsubscribed name := by
  obtain ⟨u, ⟨hsame, -⟩ | ⟨name, hname, hrecent, herased⟩, hnext, hcases⟩ :=
    @next_recalls serde config s hs event
  · exact .inl (hnext.trans hsame)
  · refine .inr ⟨name, mem_ended.mpr ⟨hname, ?_⟩, hnext.trans hrecent⟩
    rcases hcases with hleft | ⟨hempty, -⟩
    · rw [hleft, herased, AList.mem_erase]
      exact fun h => h.1 rfl
    · rw [hempty]
      exact AList.notMem_empty name

theorem recent_of_ended (hs : WellFormed s) {event : Event}
    (hname : name ∈ s.subscriptions) (hended : name ∉ (s.next serde config event).subscriptions)
    (hrunning : (s.next serde config event).phase = .running) :
    (s.next serde config event).recentlyUnsubscribed = remember s.recentlyUnsubscribed name := by
  obtain ⟨u, hrecalls, hnext, hcases⟩ := @next_recalls serde config s hs event
  rw [hcases.resolve_right fun h => h.2 hrunning] at hended
  obtain ⟨-, hkept⟩ | ⟨other, -, hrecent, herased⟩ := hrecalls
  · exact absurd (hkept name hname) hended
  · rw [herased, AList.mem_erase, not_and] at hended
    have heq : name = other := by
      by_contra hne
      exact hended hne hname
    rw [hnext, hrecent, heq]

theorem remember_keeps {before after : List String} (hroom : after.length + 1 < 64) (other : String) :
    ∃ front, remember (before ++ name :: after) other = front ++ name :: (after ++ [other]) := by
  unfold remember
  split
  · rename_i hfull
    cases before with
    | nil =>
      rw [List.nil_append, List.length_cons, maxRecentlyUnsubscribed] at hfull
      omega
    | cons first before => exact ⟨before, by simp⟩
  · exact ⟨before, by simp⟩

theorem run_remembers (hs : WellFormed s) (events : List Event) {before after : List String}
    (hrecent : s.recentlyUnsubscribed = before ++ name :: after)
    (hfew : after.length + (endedIn serde config s events).length < 64) :
    name ∈ (run (next serde config) s events).recentlyUnsubscribed := by
  induction events generalizing s before after with
  | nil =>
    rw [run_nil, hrecent]
    exact List.mem_append_right _ List.mem_cons_self
  | cons event events ih =>
    rw [endedIn, List.length_append] at hfew
    rcases @next_recent serde config s hs event with hsame | ⟨other, hother, hnext⟩
    · exact ih (hs.next event) (hsame.trans hrecent) (by omega)
    · -- the new ID is one of those counted
      have hpos := List.length_pos_of_mem hother
      obtain ⟨front, hfront⟩ := @remember_keeps name before after (by omega) other
      refine ih (hs.next event) (by rw [hnext, hrecent, hfront]) ?_
      rw [List.length_append, List.length_singleton]
      omega

/-- In every run: under an ID that was registered, has ended while the session went on and is not
registered again, a notification is dropped and changes nothing, as long as fewer than 64 further
registrations ended since. -/
theorem late_notification_dropped (serde : Serde) (config : WsConfig) (before : List Event)
    (event : Event) (later : List Event) (name : String) (n : Notification) (bytes : Bytes)
    (hregistered : name ∈ (run (next serde config) (connect config) before).subscriptions)
    (hended : name ∉ (run (next serde config) (connect config) (before ++ [event])).subscriptions)
    (hrunning :
      (run (next serde config) (connect config) (before ++ [event])).phase = .running)
    (hfew : (endedIn serde config
      (run (next serde config) (connect config) (before ++ [event])) later).length < 64)
    (hgone : name ∉ (run (next serde config) (connect config)
      (before ++ event :: later)).subscriptions)
    (hroute : route serde bytes = .ok (.notification n)) (hname : n.subscription = name) :
    dispatch serde config bytes
      (run (next serde config) (connect config) (before ++ event :: later)) =
        (.ok none, run (next serde config) (connect config) (before ++ event :: later)) := by
  have hbefore := run_wellFormed serde config before
  rw [run_append, run_cons, run_nil] at hended hrunning hfew
  have hrecent : (next serde config (run (next serde config) (connect config) before)
      event).recentlyUnsubscribed = _ ++ [name] :=
    recent_of_ended hbefore hregistered hended hrunning
  have hmem := run_remembers (hbefore.next event) later hrecent (by simpa using hfew)
  rw [← run_cons, ← run_append] at hmem
  generalize run (next serde config) (connect config) (before ++ event :: later) = s at *
  unfold dispatch
  rw [Method.bind_apply, Method.lift, hroute]
  show notify config bytes.length n s = _
  unfold notify
  rw [Method.bind_apply, Method.self]
  dsimp only
  rw [hname, AList.lookup_eq_none.mpr hgone]
  rw [if_pos hmem]
  rfl

/-- A session that takes notifications of one byte, with its next request ID, live registrations and
ended ones. -/
structure Live (s : Session) (n : ℕ) (live : String → Option ℕ) (recent : List String) : Prop where
  phase : s.phase = .running
  nextId : s.nextId = n
  subscriptions : ∀ name, s.subscriptions.lookup name = live name
  recent : s.recentlyUnsubscribed = recent
  bytes : s.notificationBytes = 1
  replies : ∀ id, n ≤ id → (s.replies id).closed = false

theorem next_subscribe (hrunning : s.phase = .running) (hid : s.nextId + 1 < 2 ^ 64) :
    s.next serde config (.issue .subscribe) =
      { s with
        nextId := s.nextId + 1
        commands := s.commands.insert s.nextId ⟨some s.nextId, none⟩ } := by
  simp only [next, hrunning, issue, takeId, if_pos hid, Request.pending]

theorem next_done {id : ℕ} {request : Pending} (hrunning : s.phase = .running)
    (hrequest : s.commands.lookup id = some request) :
    s.next serde config (.command id .done) =
      { s with commands := s.commands.erase id, pending := s.pending.insert id request } := by
  simp only [next, hrunning, command, hrequest]

theorem respond_registered {id channel : ℕ} (hid : id ≠ 0 ∧ id < s.nextId)
    (hpending : s.pending.lookup id = some ⟨some channel, none⟩)
    (hclosed : (s.replies id).closed = false) (hname : subscriptionId (.string name) = .ok name)
    (hnew : s.subscriptions.lookup name = none) :
    respond id (.ok (.string name)) s =
      (.ok none, ((s.forget id).subscribed name channel).answer id (.ok (.string name))) := by
  have hissued : ¬(id = 0 ∨ s.nextId ≤ id) := by omega
  have hregister : register id (some channel) (.ok (.string name)) (s.forget id) =
      (.ok (), (s.forget id).subscribed name channel) := by
    simp [register, Method.bind_apply, Method.self, Method.lift, hname, forget, hclosed,
      AList.lookup_eq_none.mp hnew, Method.assign, subscribed]
  unfold respond
  rw [Method.bind_apply, Method.self]
  dsimp only
  rw [if_neg hissued, hpending]
  show (register id (some channel) (.ok (.string name)) >>= _) (s.forget id) = _
  rw [Method.bind_apply, hregister]
  rfl

theorem notify_lagged {n : Notification} {size channel : ℕ}
    (hname : s.subscriptions.lookup n.subscription = some channel)
    (hsize : s.notificationBytes < size % 2 ^ 32) :
    notify config size n s =
      (.ok (some n.subscription), s.endSubscription n.subscription channel .subscriptionLagged) := by
  simp only [notify, Method.bind_apply, Method.self, hname]
  rw [if_neg (by omega), if_neg (by omega)]
  rfl

def registration (n : ℕ) (response : Bytes) : List Event :=
  [.issue .subscribe, .command n .done, .frame response (.ok ())]

section

variable {n : ℕ} {live : String → Option ℕ} {recent : List String} {bytes : Bytes}

theorem Live.register (h : Live s n live recent) (hpos : n ≠ 0) (hroom : n + 1 < 2 ^ 64)
    (hroute : route serde bytes = .ok (.response n (.ok (.string name))))
    (hname : subscriptionId (.string name) = .ok name) (hnew : live name = none) :
    Live (run (next serde config) s (registration n bytes)) (n + 1)
      (Function.update live name (some n)) recent := by
  obtain ⟨hphase, rfl, hlive, rfl, hbytes, hreplies⟩ := h
  rw [registration, run_cons, run_cons, run_cons, run_nil, next_subscribe hphase hroom, next_done,
    next_frame, frame, dispatch, Method.bind_apply, Method.lift, hroute]
  · dsimp only
    rw [respond_registered]
    · refine ⟨hphase, rfl, fun other => ?_, rfl, hbytes, fun id hid => ?_⟩
      · show (AList.insert name _ s.subscriptions).lookup other = _
        rw [Table.lookup_insert_eq, hlive, Function.update_apply]
      · show (Function.update s.replies s.nextId _ id).closed = false
        rw [Function.update_of_ne (by omega)]
        exact hreplies id (by omega)
    · exact ⟨hpos, Nat.lt_succ_self _⟩
    · exact AList.lookup_insert _
    · exact hreplies _ le_rfl
    · exact hname
    · exact (hlive name).trans hnew
  · exact hphase
  · exact hphase
  · exact AList.lookup_insert _

theorem Live.lag (h : Live s n live recent) {channel : ℕ} (hroom : n + 1 < 2 ^ 64)
    (hroute : route serde bytes = .ok (.notification ⟨name, .null⟩))
    (hname : live name = some channel) (hsize : 1 < bytes.length % 2 ^ 32) :
    Live (s.next serde config (.frame bytes (.ok ()))) (n + 1) (Function.update live name none)
      (remember recent name) := by
  obtain ⟨hphase, rfl, hlive, rfl, hbytes, hreplies⟩ := h
  rw [next_frame hphase, frame, dispatch, Method.bind_apply, Method.lift, hroute]
  dsimp only
  rw [notify_lagged ((hlive name).trans hname) (hbytes ▸ hsize)]
  dsimp only
  rw [takeId, if_pos (show (s.endSubscription _ _ _).nextId + 1 < 2 ^ 64 from hroom)]
  refine ⟨hphase, rfl, fun other => ?_, rfl, hbytes, fun id hid => hreplies id (by omega)⟩
  show (AList.erase name s.subscriptions).lookup other = _
  rw [Table.lookup_erase_eq, hlive, Function.update_apply]

theorem Live.forgotten (h : Live s n live recent)
    (hroute : route serde bytes = .ok (.notification ⟨name, .null⟩)) (hname : live name = none)
    (hrecent : name ∉ recent) :
    dispatch serde config bytes s = (.error (.invalidResponse "unknown subscription ID"), s) := by
  obtain ⟨-, rfl, hlive, rfl, -, -⟩ := h
  rw [dispatch, Method.bind_apply, Method.lift, hroute]
  simp only [notify, Method.bind_apply, Method.self, hlive, hname]
  rw [if_neg hrecent]
  rfl

end

def lagName (n : ℕ) : String := "0x" ++ n.repr

def lagResponse (n : ℕ) : String :=
  "\x7b\"jsonrpc\":\"2.0\",\"id\":" ++ n.repr ++ ",\"result\":\"" ++ lagName n ++ "\"\x7d"

def lagParams (n : ℕ) : String :=
  "\x7b\"subscription\":\"" ++ lagName n ++ "\",\"result\":null\x7d"

def lagNotification (n : ℕ) : String :=
  "\x7b\"jsonrpc\":\"2.0\",\"method\":\"quai_subscription\",\"params\":" ++ lagParams n ++ "\x7d"

def lagQuoted (n : ℕ) : String := "\"" ++ lagName n ++ "\""

/-- The last decimal of a text. -/
def lagNumber (bytes : Bytes) : ℕ :=
  bytes.foldl (fun n byte => if byte = 0x78 then 0
    else if 0x30 ≤ byte ∧ byte ≤ 0x39 then 10 * n + (byte.toNat - 0x30) else n) 0

/-- Known answers: what is read from each of the texts `key 0`, `key 1`, …. -/
def lagAnswer {α : Type} (key : ℕ → String) (value : ℕ → α) (bytes : Bytes) : Option α :=
  if bytes = utf8 (key (lagNumber bytes)) then some (value (lagNumber bytes)) else none

def lagSerde : Serde where
  envelope bytes :=
    lagAnswer lagResponse (fun n => ⟨"2.0", some n.repr, none, none, some (lagQuoted n), none⟩)
      bytes <|>
    lagAnswer lagNotification
      (fun n => ⟨"2.0", none, some "\"quai_subscription\"", some (lagParams n), none, none⟩) bytes
  u64 raw := lagAnswer Nat.repr UInt64.ofNat (utf8 raw)
  text raw := if raw = "\"quai_subscription\"" then some "quai_subscription" else none
  value raw := lagAnswer lagQuoted (fun n => .string (lagName n)) (utf8 raw)
  remoteError _ := none
  notification raw := lagAnswer lagParams (fun n => ⟨lagName n, .null⟩) (utf8 raw)

/-- What is evaluated of the texts: they keep their number, and what the session checks of them. -/
theorem lagTexts : ∀ n < 131,
    (lagNumber (utf8 n.repr) = n ∧ lagNumber (utf8 (lagQuoted n)) = n ∧
      lagNumber (utf8 (lagParams n)) = n ∧ lagNumber (utf8 (lagResponse n)) = n ∧
      lagNumber (utf8 (lagNotification n)) = n) ∧
    utf8 (lagNotification n) ≠ utf8 (lagResponse n) ∧
    ((lagName n).isEmpty = false ∧ (utf8 (lagName n)).length ≤ 256 ∧
      ∀ byte ∈ utf8 (lagName n), 0x21 ≤ byte ∧ byte ≤ 0x7e) ∧
    1 < (utf8 (lagNotification n)).length % 2 ^ 32 := by
  decide +kernel

theorem lagAnswer_key {α : Type} {key : ℕ → String} {n : ℕ} (value : ℕ → α)
    (h : lagNumber (utf8 (key n)) = n) : lagAnswer key value (utf8 (key n)) = some (value n) := by
  rw [lagAnswer, h, if_pos rfl]

section

variable {n : ℕ} (hn : n < 131)

include hn

theorem route_lagResponse :
    route lagSerde (utf8 (lagResponse n)) = .ok (.response n (.ok (.string (lagName n)))) := by
  obtain ⟨⟨hrepr, hquoted, -, hresponse, -⟩, -⟩ := lagTexts n hn
  rw [route, if_neg (not_not.mpr (utf8_valid _))]
  simp [lagSerde, lagAnswer_key _ hresponse, Result.okOr, lagAnswer_key _ hrepr, responseValue,
    lagAnswer_key _ hquoted]
  omega

theorem route_lagNotification :
    route lagSerde (utf8 (lagNotification n)) = .ok (.notification ⟨lagName n, .null⟩) := by
  obtain ⟨⟨-, -, hparams, -, hnotification⟩, hne, -⟩ := lagTexts n hn
  have hresponse : ∀ value : ℕ → WireEnvelope,
      lagAnswer lagResponse value (utf8 (lagNotification n)) = none :=
    fun _ => if_neg (hnotification.symm ▸ hne)
  rw [route, if_neg (not_not.mpr (utf8_valid _))]
  simp [lagSerde, hresponse, lagAnswer_key _ hnotification, Result.okOr, lagAnswer_key _ hparams]

end

def lagConfig : WsConfig := ⟨1, 1⟩

def lagFrame (n : ℕ) : Event := .frame (utf8 (lagNotification n)) (.ok ())

def lagRegistered (n : ℕ) : List Event := registration n (utf8 (lagResponse n))

def lagCycle (n : ℕ) : List Event := lagRegistered n ++ [lagFrame n]

def lagRun (count : ℕ) : List Event := (List.range count).flatMap fun i => lagCycle (2 * i + 1)

def lagState (events : List Event) : Session :=
  run (next lagSerde lagConfig) (connect lagConfig) events

def lagRecent (count : ℕ) : List String :=
  (List.range count).foldl (fun recent i => remember recent (lagName (2 * i + 1))) []

theorem Live.lagCycle {n : ℕ} {recent : List String} (hn : n < 131) (hpos : n ≠ 0)
    (h : Live s n (fun _ => none) recent) :
    lagName n ∈ (run (next lagSerde lagConfig) s (lagRegistered n)).subscriptions ∧
      Live (run (next lagSerde lagConfig) s (lagCycle n)) (n + 2) (fun _ => none)
        (remember recent (lagName n)) := by
  obtain ⟨-, -, hname, hlength⟩ := lagTexts n hn
  have hregistered : Live (run (next lagSerde lagConfig) s (lagRegistered n)) _ _ _ :=
    h.register hpos (by omega) (route_lagResponse hn) (if_pos hname) rfl
  have hlagged : Live (Session.next lagSerde lagConfig _ _) _ _ _ :=
    hregistered.lag (by omega) (route_lagNotification hn) (Function.update_self ..)
      hlength
  rw [Function.update_idem, Function.update_eq_self] at hlagged
  refine ⟨Table.mem_iff_lookup.mpr
    ⟨_, (hregistered.subscriptions _).trans (Function.update_self ..)⟩, ?_⟩
  rwa [Session.lagCycle, run_append, run_cons, run_nil]

theorem Live.start : Live (connect lagConfig) 1 (fun _ => none) [] :=
  ⟨rfl, rfl, fun _ => rfl, rfl, rfl, fun _ _ => rfl⟩

theorem lagRun_live {count : ℕ} (hcount : count ≤ 65) :
    Live (lagState (lagRun count)) (2 * count + 1) (fun _ => none) (lagRecent count) := by
  induction count with
  | zero => exact Live.start
  | succ count ih =>
    rw [lagRun, List.range_succ, List.flatMap_append, List.flatMap_singleton, lagState, run_append,
      lagRecent, List.range_succ, List.foldl_append]
    exact ((ih (by omega)).lagCycle (by omega) (by omega)).2

/-- The first of 65 subscriptions that lagged is forgotten, and a late notification for it closes the
session. -/
theorem forgotten_notification_fails :
    lagName 1 ∈ (lagState (lagRegistered 1)).subscriptions ∧
      lagName 1 ∉ (lagState (lagCycle 1)).subscriptions ∧
      (lagState (lagRun 65)).phase = .running ∧
      dispatch lagSerde lagConfig (utf8 (lagNotification 1)) (lagState (lagRun 65)) =
        (.error (.invalidResponse "unknown subscription ID"), lagState (lagRun 65)) ∧
      (lagState (lagRun 65 ++ [lagFrame 1])).phase =
        .closed (.invalidResponse "unknown subscription ID") := by
  obtain ⟨hregistered, hended⟩ := Live.start.lagCycle (by decide) (by decide)
  have hlive := lagRun_live le_rfl
  have hforgotten : lagName 1 ∉ lagRecent 65 := by
    decide +kernel
  have hdispatch := @Live.forgotten _ lagConfig _ _ _ _ _ _ hlive
    (route_lagNotification (by decide)) rfl hforgotten
  refine ⟨hregistered, AList.lookup_eq_none.mp (hended.subscriptions _), hlive.phase, hdispatch, ?_⟩
  rw [lagState, run_append, ← lagState, run_cons, run_nil, lagFrame, next_frame hlive.phase, frame,
    hdispatch]
  rfl

theorem ended_nil (h : ∀ name, s.subscriptions.lookup name = none) : ended s t = [] :=
  List.eq_nil_iff_forall_not_mem.mpr fun name hname =>
    AList.lookup_eq_none.mp (h name) (mem_ended.mp hname).1

/-- Another request is out when the notification comes. -/
theorem late_notification_dropped_lag :
    dispatch lagSerde lagConfig (utf8 (lagNotification 1))
        (lagState (lagCycle 1 ++ [.issue .subscribe])) =
      (.ok none, lagState (lagCycle 1 ++ [.issue .subscribe])) := by
  obtain ⟨hregistered, hended⟩ := Live.start.lagCycle (by decide) (by decide)
  have hgone : lagName 1 ∉ (lagState (lagCycle 1 ++ [.issue .subscribe])).subscriptions := by
    rw [lagState, run_append, run_cons, run_nil, next_subscribe hended.phase
      (by rw [hended.nextId]; decide)]
    exact AList.lookup_eq_none.mp (hended.subscriptions _)
  refine late_notification_dropped lagSerde lagConfig (lagRegistered 1) (lagFrame 1)
    [.issue .subscribe] (lagName 1) ⟨lagName 1, .null⟩ (utf8 (lagNotification 1)) hregistered
    (AList.lookup_eq_none.mp (hended.subscriptions _)) hended.phase ?_ hgone
    (route_lagNotification (by decide)) rfl
  rw [endedIn, endedIn, List.append_nil]
  exact lt_of_eq_of_lt (congrArg List.length (ended_nil hended.subscriptions)) (by decide)

end Session

end QuaiSdk.Rpc
