import QuaiSdk.Rpc.Multiplex

/-!
# What subscribers see

From its registration on a channel is tracked together with the notifications that arrive under its
name.  While it is registered, what its subscriber saw and what is queued are all of them; after it
ended, a prefix that no longer grows.
-/

namespace QuaiSdk.Rpc

open Result List Function

namespace Session

variable {serde : Serde} {config : WsConfig}

def arrivals (serde : Serde) (name : String) : Event → List Json
  | .frame bytes _ =>
    match notificationOf serde bytes with
    | some n => if n.subscription = name then [n.result] else []
    | none => []
  | _ => []

def payloads (c : Channel) : List Json := c.queue.map QueuedNotification.payload

/-- A subscriber saw notifications and then, once it finished, one error and nothing after it. -/
def Saw (c : Channel) (values : List Json) : Prop :=
  ∃ ending, c.seen = values.map (fun v => .ok (some v)) ++ ending ∧
    if c.finished = true then ∃ e n, ending = .error e :: replicate n (.ok none)
    else ending = []

theorem saw_unfinished {c : Channel} {values : List Json} (h : c.finished = false) :
    Saw c values ↔ c.seen = values.map fun v => .ok (some v) := by
  simp only [Saw, h, Bool.false_eq_true, if_false, exists_eq_right, append_nil]

structure Tracked (s : Session) (name : String) (channel : ℕ) (arrived : List Json) : Prop where
  gone : ¬s.Open channel
  only : ∀ name', s.subscriptions.lookup name' = some channel → name' = name
  ended : s.subscriptions.lookup name ≠ some channel → s.Ended channel
  delivered : ∃ values, Saw (s.channels channel) values ∧
    values ++ payloads (s.channels channel) <+: arrived ∧
    (s.subscriptions.lookup name = some channel → (s.channels channel).closed = false →
      values ++ payloads (s.channels channel) = arrived)

/-- The two differ in the terminal at most. -/
structure SameDelivery (c d : Channel) : Prop where
  queue : d.queue = c.queue
  closed : d.closed = c.closed
  finished : d.finished = c.finished
  seen : d.seen = c.seen

theorem sameDelivery_terminate (s : Session) (channel' : ℕ) (error : RpcError) (channel : ℕ) :
    SameDelivery (s.channels channel) ((s.terminate channel' error).channels channel) := by
  show SameDelivery _ (update s.channels channel' _ channel)
  rw [update_apply]
  split
  · next heq =>
    subst heq
    exact ⟨rfl, rfl, rfl, rfl⟩
  · exact ⟨rfl, rfl, rfl, rfl⟩

namespace Tracked

variable {s t : Session} {name : String} {channel : ℕ} {arrived : List Json}
  (h : Tracked s name channel arrived)

include h

theorem keep (hsame : SameDelivery (s.channels channel) (t.channels channel))
    (hopen : t.Open channel → s.Open channel)
    (hlookup : ∀ name', t.subscriptions.lookup name' = some channel →
      s.subscriptions.lookup name' = some channel)
    (hended : t.subscriptions.lookup name ≠ some channel → t.Ended channel) (more : List Json)
    (hmore : t.subscriptions.lookup name = some channel → (s.channels channel).closed = false →
      more = []) : Tracked t name channel (arrived ++ more) := by
  obtain ⟨values, ⟨ending, hseen, hending⟩, hpart, hall⟩ := h.delivered
  have hpayloads : payloads (t.channels channel) = payloads (s.channels channel) := by
    rw [payloads, hsame.queue, payloads]
  refine ⟨fun h' => h.gone (hopen h'), fun name' hname' => h.only name' (hlookup name' hname'),
    hended, values, ⟨ending, ?_, ?_⟩, ?_, ?_⟩
  · rw [hsame.seen, hseen]
  · rw [hsame.finished]
    exact hending
  · rw [hpayloads]
    exact hpart.trans (prefix_append _ _)
  · intro hname hclosed
    rw [hsame.closed] at hclosed
    rw [hpayloads, hmore hname hclosed, append_nil]
    exact hall (hlookup name hname) hclosed

theorem quiet (hchannels : t.channels = s.channels)
    (hsubscriptions : t.subscriptions = s.subscriptions) (hphase : t.phase = s.phase)
    (hopen : t.Open channel → s.Open channel) : Tracked t name channel arrived := by
  have hkeep : Tracked t name channel (arrived ++ []) := by
    refine h.keep ?_ hopen ?_ ?_ [] (fun _ _ => rfl)
    · rw [hchannels]
      exact ⟨rfl, rfl, rfl, rfl⟩
    · rw [hsubscriptions]
      exact fun _ hname => hname
    · rw [hsubscriptions, Ended, hchannels, hphase]
      exact h.ended
  rwa [append_nil] at hkeep

theorem silent (hsilent : Silent s t) : Tracked t name channel arrived :=
  h.quiet hsilent.channels hsilent.subscriptions hsilent.phase (hsilent.opens channel)

theorem halts (hhalts : Halts s t) : Tracked t name channel arrived := by
  have hstop : ∀ {t : Session}, SameDelivery (s.channels channel) (t.channels channel) →
      (t.Open channel → s.nextId ≤ channel) → t.subscriptions = ∅ → t.phase ≠ .running →
      Tracked t name channel arrived := by
    intro t hsame hopen hsubscriptions hphase
    rw [← append_nil arrived]
    refine h.keep hsame (fun hid => .inl (hopen hid)) ?_ (fun _ => .inr hphase) [] (fun _ _ => rfl)
    rw [hsubscriptions]
    intro name' hname'
    cases hname'
  have hnew : ∀ id, s.nextId ≤ id ∨ id ∈ (∅ : Table ℕ Pending) ∨ id ∈ (∅ : Table ℕ Pending) →
      s.nextId ≤ id := by simp
  cases hhalts with
  | kept => exact h
  | finished e =>
    refine hstop ?_ (hnew channel) rfl nofun
    show SameDelivery _ (if _ then _ else _)
    split <;> exact ⟨rfl, rfl, rfl, rfl⟩
  | aborted => exact hstop ⟨rfl, rfl, rfl, rfl⟩ (hnew channel) rfl nofun

variable {channel' : ℕ} {bytes : Bytes} {outcome : Except RpcError (Option String) × Session}

theorem endSubscription {name' : String}
    (hname' : s.subscriptions.lookup name' = some channel') (error : RpcError) (more : List Json)
    (hmore : name ≠ name' → more = []) :
    Tracked (s.endSubscription name' channel' error) name channel (arrived ++ more) := by
  have hlookup : ∀ name₁, (s.endSubscription name' channel' error).subscriptions.lookup name₁ =
      if name₁ = name' then none else s.subscriptions.lookup name₁ := fun _ =>
    Table.lookup_erase_eq
  have hchannel : (s.endSubscription name' channel' error).channels channel =
      if channel = channel' then { s.channels channel' with terminal := some error }
      else s.channels channel := update_apply ..
  have hsame : SameDelivery (s.channels channel)
      ((s.endSubscription name' channel' error).channels channel) :=
    sameDelivery_terminate s channel' error channel
  refine h.keep hsame id ?_ ?_ more ?_
  · intro name₁ hname₁
    rw [hlookup] at hname₁
    split at hname₁
    · cases hname₁
    · exact hname₁
  · intro hgone
    rw [Ended, hchannel]
    by_cases heq : channel = channel'
    · rw [if_pos heq]
      exact .inl (by simp)
    · rw [if_neg heq]
      refine h.ended fun hname => ?_
      have hne : name ≠ name' := by
        rintro rfl
        rw [hname] at hname'
        cases hname'
        exact heq rfl
      exact hgone (by rw [hlookup, if_neg hne, hname])
  · intro hname _
    apply hmore
    rintro rfl
    rw [hlookup, if_pos rfl] at hname
    cases hname

theorem queued_self (hname : s.subscriptions.lookup name = some channel)
    (hclosed : (s.channels channel).closed = false) (n : QueuedNotification) :
    Tracked (s.queued channel n) name channel (arrived ++ [n.payload]) := by
  have hchannel : (s.queued channel n).channels channel =
      { s.channels channel with queue := (s.channels channel).queue ++ [n] } :=
    update_self ..
  obtain ⟨values, hsaw, -, hall⟩ := h.delivered
  have hqueue : values ++ payloads ((s.queued channel n).channels channel) =
      arrived ++ [n.payload] := by
    rw [hchannel, payloads, map_append, ← append_assoc]
    exact congrArg (· ++ [n.payload]) (hall hname hclosed)
  refine ⟨h.gone, h.only, fun hgone => absurd hname hgone, values, ?_, ?_, fun _ _ => hqueue⟩
  · rw [hchannel]
    exact hsaw
  · exact hqueue ▸ prefix_refl _

theorem queued_other (hne : channel ≠ channel') (n : QueuedNotification) (more : List Json)
    (hmore : s.subscriptions.lookup name = some channel → more = []) :
    Tracked (s.queued channel' n) name channel (arrived ++ more) := by
  have hchannel : (s.queued channel' n).channels channel = s.channels channel :=
    update_of_ne hne _ _
  have hsame : SameDelivery (s.channels channel) ((s.queued channel' n).channels channel) := by
    rw [hchannel]
    exact ⟨rfl, rfl, rfl, rfl⟩
  refine h.keep hsame id (fun _ hname => hname) ?_ more (fun hname _ => hmore hname)
  intro hgone
  rw [Ended, hchannel]
  exact h.ended hgone

theorem subscribed {name' : String}
    (hname' : s.subscriptions.lookup name' = none) (hne : channel ≠ channel') :
    Tracked (s.subscribed name' channel') name channel arrived := by
  have hlookup : ∀ name₁, (s.subscribed name' channel').subscriptions.lookup name₁ =
      if name₁ = name' then some channel' else s.subscriptions.lookup name₁ := fun _ =>
    Table.lookup_insert_eq
  have hkeep : Tracked (s.subscribed name' channel') name channel (arrived ++ []) := by
    refine h.keep (t := s.subscribed name' channel') ⟨rfl, rfl, rfl, rfl⟩ id ?_ ?_ []
      (fun _ _ => rfl)
    · intro name₁ hname₁
      rw [hlookup] at hname₁
      split at hname₁
      · cases hname₁
        exact absurd rfl hne
      · exact hname₁
    · intro hgone
      refine h.ended fun hname => hgone ?_
      rw [hlookup, if_neg, hname]
      rintro rfl
      rw [hname] at hname'
      cases hname'
  rwa [append_nil] at hkeep

theorem dispatched (hs : WellFormed s)
    (hdispatched : Dispatched serde s bytes outcome) (sent : Except RpcError Unit) :
    Tracked outcome.2 name channel (arrived ++ arrivals serde name (.frame bytes sent)) := by
  have hnone : ∀ id result, route serde bytes = .ok (.response id result) →
      arrived ++ arrivals serde name (.frame bytes sent) = arrived := by
    intro id result hroute
    rw [arrivals, notificationOf_response hroute, append_nil]
  have hmine : ∀ n, notificationOf serde bytes = some n →
      arrivals serde name (.frame bytes sent) = if n.subscription = name then [n.result] else [] := by
    intro n hn
    rw [arrivals, hn]
  have hunreached : (∀ n ∈ notificationOf serde bytes, ¬s.Reaches n channel) →
      s.subscriptions.lookup name = some channel →
      arrivals serde name (.frame bytes sent) = [] := by
    intro hreaches hname
    cases hn : notificationOf serde bytes with
    | none => rw [arrivals, hn]
    | some n =>
      rw [hmine n hn, if_neg]
      rintro rfl
      exact hreaches n hn hname
  cases hdispatched with
  | rejected e hreaches =>
    refine h.keep ⟨rfl, rfl, rfl, rfl⟩ id (fun _ hname => hname) h.ended _ ?_
    intro hname hclosed
    refine hunreached (fun n hn hreach => ?_) hname
    rw [hreaches n hn channel hreach] at hclosed
    cases hclosed
  | ignored hreaches =>
    refine h.keep ⟨rfl, rfl, rfl, rfl⟩ id (fun _ hname => hname) h.ended _ ?_
    intro hname _
    exact hunreached (fun n hn => hreaches n hn channel) hname
  | refused id request result e hroute =>
    rw [hnone id result hroute]
    exact h.silent (hs.forget id)
  | answered id request result hroute =>
    rw [hnone id result hroute]
    exact (h.silent (hs.forget id)).quiet rfl rfl rfl fun hopen => hopen
  | registered id request result name' channel' hroute hpending hregistration hname =>
    -- the channel that is registered was open until now
    have hne : channel ≠ channel' := by
      rintro rfl
      exact h.gone (hs.own_channel hpending hregistration).2
    rw [hnone id result hroute]
    exact ((h.silent (hs.forget id)).subscribed hname hne).quiet rfl rfl rfl fun hopen => hopen
  | unsubscribed id request result name' channel' hroute hpending hname =>
    rw [arrivals, notificationOf_response hroute]
    exact ((h.silent (hs.forget id)).endSubscription hname _ [] (fun _ => rfl)).quiet rfl rfl rfl
      fun hopen => hopen
  | queued n channel' permit hn hreaches hclosed =>
    rw [hmine n hn]
    by_cases heq : channel = channel'
    · subst heq
      have hname : n.subscription = name := h.only _ hreaches
      rw [if_pos hname]
      exact h.queued_self (hname ▸ hreaches) hclosed ⟨n.result, permit⟩
    · refine h.queued_other heq _ _ fun hname => ?_
      rw [if_neg]
      rintro rfl
      rw [Reaches, hname] at hreaches
      cases hreaches
      exact heq rfl
  | lagged n channel' hn hreaches =>
    rw [hmine n hn]
    exact h.endSubscription hreaches _ _ fun hne => if_neg hne.symm

/-! ### Subscribers -/

theorem call_other (hne : channel ≠ channel') (c : Channel) (available : ℕ) :
    Tracked { s.setChannel channel' c with notificationBytes := available } name channel
      arrived := by
  have hchannel : (s.setChannel channel' c).channels channel = s.channels channel :=
    update_of_ne hne _ _
  refine ⟨h.gone, h.only, ?_, ?_⟩
  · intro hgone
    show ((s.setChannel channel' c).channels channel).terminal ≠ none ∨ _
    rw [hchannel]
    exact h.ended hgone
  · show ∃ values, Saw ((s.setChannel channel' c).channels channel) values ∧
      values ++ payloads ((s.setChannel channel' c).channels channel) <+: arrived ∧
        (_ → ((s.setChannel channel' c).channels channel).closed = false →
          values ++ payloads ((s.setChannel channel' c).channels channel) = arrived)
    rw [hchannel]
    exact h.delivered

theorem call_self {c : Channel} {available : ℕ}
    (hterminal : c.terminal = (s.channels channel).terminal)
    (hdelivered : ∀ values, Saw (s.channels channel) values → ∃ values', Saw c values' ∧
      values' ++ payloads c <+: values ++ payloads (s.channels channel) ∧
      (s.subscriptions.lookup name = some channel → c.closed = false →
        (s.channels channel).closed = false ∧
          values' ++ payloads c = values ++ payloads (s.channels channel))) :
    Tracked { s.setChannel channel c with notificationBytes := available } name channel
      arrived := by
  have hchannel : (s.setChannel channel c).channels channel = c := update_self ..
  obtain ⟨values, hsaw, hpart, hall⟩ := h.delivered
  obtain ⟨values', hsaw', hpart', hall'⟩ := hdelivered values hsaw
  refine ⟨h.gone, h.only, ?_, values', ?_, ?_, ?_⟩
  · intro hgone
    show ((s.setChannel channel c).channels channel).terminal ≠ none ∨ _
    rw [hchannel, hterminal]
    exact h.ended hgone
  · rw [hchannel]
    exact hsaw'
  · rw [hchannel]
    exact hpart'.trans hpart
  · intro hname
    show ((s.setChannel channel c).channels channel).closed = false →
      values' ++ payloads ((s.setChannel channel c).channels channel) = arrived
    rw [hchannel]
    intro hclosed
    obtain ⟨hclosed', hsame⟩ := hall' hname hclosed
    rw [hsame]
    exact hall hname hclosed'

theorem drop (channel' : ℕ) : Tracked (s.drop channel') name channel arrived := by
  by_cases hne : channel = channel'
  · subst hne
    refine h.call_self rfl fun values hsaw => ⟨values, hsaw, ?_, ?_⟩
    · exact prefix_append_right_inj values |>.mpr nil_prefix
    · intro _ hclosed
      cases hclosed
  · exact h.call_other hne _ _

section

variable (hs : WellFormed s)
include hs

theorem recv (channel' : ℕ) : Tracked (s.recv channel') name channel arrived := by
  by_cases hne : channel = channel'
  · subst hne
    cases received s channel with
    | waits heq =>
      rw [heq]
      exact h
    | finished hfinished heq =>
      -- the error was delivered, and `None` follows it once more
      rw [heq]
      refine h.call_self rfl fun values hsaw => ⟨values, ?_, prefix_refl _, ?_⟩
      · obtain ⟨ending, hseen, hending⟩ := hsaw
        rw [if_pos hfinished] at hending
        obtain ⟨e, n, rfl⟩ := hending
        refine ⟨.error e :: replicate (n + 1) (.ok none), ?_, ?_⟩
        · show (s.channels channel).seen ++ [.ok none] = _
          rw [hseen, replicate_succ', append_assoc, cons_append]
        · rw [if_pos (by exact hfinished)]
          exact ⟨e, n + 1, rfl⟩
      · intro _ hclosed
        exact ⟨hclosed, rfl⟩
    | failed e queue closed available hfinished hended hqueue heq =>
      rw [heq]
      refine h.call_self rfl fun values hsaw => ⟨values, ?_, ?_, ?_⟩
      · refine ⟨[.error e], ?_, e, 0, rfl⟩
        show (s.channels channel).seen ++ [.error e] = _
        rw [(saw_unfinished hfinished).mp hsaw]
      · rw [prefix_append_right_inj]
        rcases hqueue with rfl | rfl
        · exact nil_prefix
        · exact prefix_refl _
      · intro hname
        exact absurd hended (hs.not_ended hname)
    | value n rest available hfinished hrunning hqueue heq =>
      rw [heq]
      refine h.call_self rfl fun values hsaw => ⟨values ++ [n.payload], ?_, ?_⟩
      · refine (saw_unfinished ?_).mpr ?_
        · exact hfinished
        · show (s.channels channel).seen ++ [.ok (some n.payload)] = _
          rw [(saw_unfinished hfinished).mp hsaw, map_append]
          rfl
      · have hsame : values ++ [n.payload] ++ rest.map QueuedNotification.payload =
            values ++ payloads (s.channels channel) := by
          rw [payloads, hqueue, append_assoc]
          rfl
        refine ⟨?_, ?_⟩
        · exact hsame ▸ prefix_refl _
        · intro _ hclosed
          exact ⟨hclosed, hsame⟩
  · cases received s channel' with
    | waits heq =>
      rw [heq]
      exact h
    | finished hfinished heq | failed e queue closed available hfinished hended hqueue heq
    | value n rest available hfinished hrunning hqueue heq =>
      rw [heq]
      exact h.call_other hne _ _

theorem late (event : Event)
    (hframe : ∀ bytes sent, event = .frame bytes sent → s.phase ≠ .running) :
    Tracked s name channel (arrived ++ arrivals serde name event) := by
  refine h.keep ⟨rfl, rfl, rfl, rfl⟩ id (fun _ hname => hname) h.ended _ ?_
  intro hname _
  cases event with
  | frame bytes sent =>
    rw [hs.stopped (hframe bytes sent rfl)] at hname
    cases hname
  | _ => rfl

theorem next (event : Event) :
    Tracked (s.next serde config event) name channel (arrived ++ arrivals serde name event) := by
  have hstep : Step serde s event (s.next serde config event) := hs.step event
  cases hstep with
  | silent _ m _ hsilent hhalts hframe => exact ((h.late hs _ hframe).silent hsilent).halts hhalts
  | frame bytes sent outcome m _ _ hdispatched hsilent hhalts =>
    exact ((h.dispatched hs hdispatched sent).silent hsilent).halts hhalts
  | drop channel' => exact (h.late hs (.drop channel') nofun).drop channel'
  | recv channel' => exact (h.late hs (.recv channel') nofun).recv hs channel'

theorem run (events : List Event) :
    Tracked (Run.run (Session.next serde config) s events) name channel
      (arrived ++ events.flatMap (arrivals serde name)) := by
  induction events generalizing s arrived with
  | nil =>
    rw [flatMap_nil, append_nil]
    exact h
  | cons event events ih =>
    rw [flatMap_cons, ← append_assoc]
    exact ih (h.next hs event) (hs.next event)

end

omit h

end Tracked

section

variable {s : Session} {channel : ℕ}

section

variable (hunregistered : ∀ name, s.subscriptions.lookup name ≠ some channel)
include hunregistered

theorem finish_channels
    (failure : RpcError) : (s.finish failure).channels channel = s.channels channel := by
  refine if_neg ?_
  rintro ⟨hmem, -⟩
  obtain ⟨name, hname⟩ := Table.mem_values.mp hmem
  exact hunregistered name hname

theorem dispatched_channels
    {bytes : Bytes} {outcome : Except RpcError (Option String) × Session}
    (hdispatched : Dispatched serde s bytes outcome) :
    outcome.2.channels channel = s.channels channel ∧ outcome.2.phase = s.phase := by
  have hne : ∀ {name channel'}, s.subscriptions.lookup name = some channel' →
      channel ≠ channel' := by
    rintro name channel' hname rfl
    exact hunregistered name hname
  cases hdispatched with
  | unsubscribed id request result name channel' hroute hpending hname =>
    exact ⟨update_of_ne (hne hname) _ _, rfl⟩
  | queued n channel' permit hn hreaches =>
    exact ⟨update_of_ne (hne hreaches) _ _, rfl⟩
  | lagged n channel' hn hreaches => exact ⟨update_of_ne (hne hreaches) _ _, rfl⟩
  | _ => exact ⟨rfl, rfl⟩

end

/-- What a step leaves of a channel that has ended. -/
structure Stays (s t : Session) (channel : ℕ) : Prop where
  ended : s.Ended channel → t.Ended channel
  queue : (t.channels channel).queue <:+ (s.channels channel).queue

theorem Stays.of_eq {t : Session} (hchannel : t.channels channel = s.channels channel)
    (hphase : s.phase ≠ .running → t.phase ≠ .running) : Stays s t channel := by
  constructor
  · rw [Ended, Ended, hchannel]
    exact Or.imp_right hphase
  · exact hchannel ▸ suffix_refl _

theorem Stays.setChannel {channel' : ℕ} {c : Channel} {available : ℕ}
    (hterminal : c.terminal = (s.channels channel').terminal)
    (hqueue : c.queue <:+ (s.channels channel').queue) :
    Stays s { s.setChannel channel' c with notificationBytes := available } channel := by
  have hchannel : (s.setChannel channel' c).channels channel =
      if channel = channel' then c else s.channels channel := update_apply ..
  constructor
  · show _ → ((s.setChannel channel' c).channels channel).terminal ≠ none ∨ s.phase ≠ .running
    rw [hchannel]
    split
    · next heq =>
      rw [hterminal, ← heq]
      exact fun hended => hended
    · exact fun hended => hended
  · rw [hchannel]
    split
    · next heq =>
      rw [heq]
      exact hqueue
    · exact suffix_refl _

theorem Stays.recv (s : Session) (channel' channel : ℕ) : Stays s (s.recv channel') channel := by
  cases received s channel' with
  | waits heq =>
    rw [heq]
    exact .of_eq rfl fun hstopped => hstopped
  | finished hfinished heq =>
    rw [heq]
    exact .setChannel rfl (suffix_refl _)
  | failed e queue closed available hfinished hended hqueue heq =>
    rw [heq]
    refine .setChannel rfl ?_
    rcases hqueue with rfl | rfl
    · exact nil_suffix
    · exact suffix_refl _
  | value n rest available hfinished hrunning hqueue heq =>
    rw [heq]
    refine .setChannel rfl ?_
    rw [hqueue]
    exact suffix_cons n rest

theorem halts_channels {t : Session}
    (hunregistered : ∀ name, s.subscriptions.lookup name ≠ some channel) (hhalts : Halts s t) :
    t.channels channel = s.channels channel ∧ (s.phase ≠ .running → t.phase ≠ .running) := by
  cases hhalts with
  | kept => exact ⟨rfl, id⟩
  | finished e => exact ⟨finish_channels hunregistered e, fun _ => nofun⟩
  | aborted => exact ⟨rfl, fun _ => nofun⟩

theorem Stays.next (hs : WellFormed s) (hended : s.Ended channel) (event : Event) :
    Stays s (s.next serde config event) channel := by
  have hunregistered : ∀ {t : Session}, WellFormed t → t.Ended channel →
      ∀ name, t.subscriptions.lookup name ≠ some channel := fun ht hend name hname =>
    ht.not_ended hname hend
  have hrest : ∀ {m m' t : Session}, m.channels channel = s.channels channel →
      (s.phase ≠ .running → m.phase ≠ .running) → Silent m m' → Halts m' t → Stays s t channel := by
    intro m m' t hchannel hphase hsilent hhalts
    have hend : m'.Ended channel := by
      rw [Ended, hsilent.channels, hchannel, hsilent.phase]
      exact hended.imp_right hphase
    obtain ⟨hlast, hstopped⟩ := halts_channels (hunregistered hsilent.wellFormed hend) hhalts
    refine .of_eq (by rw [hlast, hsilent.channels, hchannel]) fun hnot => hstopped ?_
    rw [hsilent.phase]
    exact hphase hnot
  have hstep : Step serde s event (s.next serde config event) := hs.step event
  cases hstep with
  | silent _ m _ hsilent hhalts => exact hrest rfl id hsilent hhalts
  | frame bytes sent outcome m _ _ hdispatched hsilent hhalts =>
    obtain ⟨hchannel, hphase⟩ := dispatched_channels (hunregistered hs hended) hdispatched
    exact hrest hchannel (hphase ▸ id) hsilent hhalts
  | drop channel' => exact .setChannel rfl nil_suffix
  | recv channel' => exact .recv s channel' channel

theorem Stays.run (hs : WellFormed s) (hended : s.Ended channel) (events : List Event) :
    Stays s (Run.run (Session.next serde config) s events) channel := by
  induction events generalizing s with
  | nil => exact .of_eq rfl fun hstopped => hstopped
  | cons event events ih =>
    have hnext : Stays s (s.next serde config event) channel := .next hs hended event
    have hrest := ih (hs.next event) (hnext.ended hended)
    exact ⟨fun h => hrest.ended (hnext.ended h), hrest.queue.trans hnext.queue⟩

end

end Session

end QuaiSdk.Rpc
