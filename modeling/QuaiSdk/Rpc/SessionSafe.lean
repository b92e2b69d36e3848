import QuaiSdk.Rpc.Delivery

/-!
# Every run of a session

Requests, frames, timers, failures and callers in any order.
-/

namespace QuaiSdk.Rpc

open Result

namespace Session

variable {serde : Serde} {config : WsConfig} {s : Session}

variable {bytes : Bytes}

theorem run_wellFormed (serde : Serde) (config : WsConfig) (events : List Event) :
    WellFormed (Run.run (next serde config) (connect config) events) :=
  Run.run_invariant (G := fun _ _ => True) (fun _ event hs _ => hs.next event)
    (WellFormed.connect config) events fun _ _ _ _ => trivial

end Session

end QuaiSdk.Rpc
