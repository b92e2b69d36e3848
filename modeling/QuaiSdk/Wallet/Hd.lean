import QuaiSdk.Consensus.Crypto
import QuaiSdk.Lib.Result

/-!
# Watch-only accounts

`hd.rs` of `quai-wallet`: account public keys, exact child addresses and the bounded search for the
next child of a zone.  BIP32 arithmetic belongs to the backend; batches are consumed one candidate
at a time, so the search is modelled candidate by candidate.  The cancellation callback answers its
`n`-th poll with `cancelled n`.
-/

namespace QuaiSdk.Wallet

open Result

inductive CoinType where
  | quai | qi
  deriving DecidableEq

def CoinType.ledger : CoinType → Ledger
  | quai => .quai
  | qi => .qi

structure HdCrypto extends Crypto where
  ExtendedKey : Type
  BranchKey : Type
  importKey : String → Option ExtendedKey
  exportKey : ExtendedKey → String
  -- depth three and this hardened account number
  isAccount : ExtendedKey → ℕ → Bool
  branch : ExtendedKey → Bool → Option BranchKey
  childKey : BranchKey → ℕ → Option PublicKey

structure KnownKeys where
  accounts : List (String × ℕ)
  children : List ((String × Bool × ℕ) × Bytes)

def KnownKeys.hd (keys : KnownKeys) (answers : KnownAnswers) : HdCrypto where
  toCrypto := answers.crypto
  ExtendedKey := String
  BranchKey := String × Bool
  importKey encoded := if encoded ∈ keys.accounts.map Prod.fst then some encoded else none
  exportKey key := key
  isAccount key account := decide ((key, account) ∈ keys.accounts)
  branch key change := some (key, change)
  childKey branch index := do
    let b ← keys.children.lookup (branch.1, branch.2, index)
    if h : b.length = 33 then some ⟨b, h⟩ else none

inductive WalletError where
  | invalidExtendedKey
  | invalidIndex
  | hardenedPublicChild
  | derivation
  | invalidAccountOrigin
  | invalidDerivedAddress
  | invalidSearchLimit
  | cancelled (attempts nextIndex : ℕ)
  | searchExhausted (attempts : ℕ) (nextIndex : Option ℕ)
  deriving DecidableEq

def hardened : ℕ := 2 ^ 31

structure AccountPublic (W : HdCrypto) where
  key : W.ExtendedKey
  coin : CoinType
  account : ℕ

structure DerivedAddress where
  address : Address
  publicKey : Bytes
  coin : CoinType
  account : ℕ
  change : Bool
  index : ℕ
  zone : Zone
  deriving DecidableEq

structure Search where
  zone : Zone
  startIndex : ℕ
  maxAttempts : ℕ

inductive WindowStop where
  | filled | exhausted | cancelled
  deriving DecidableEq

structure SearchWindow where
  addresses : List DerivedAddress
  attempts : ℕ
  nextIndex : Option ℕ
  stop : WindowStop
  deriving DecidableEq

structure SearchResult where
  address : DerivedAddress
  attempts : ℕ
  nextIndex : Option ℕ
  deriving DecidableEq

namespace AccountPublic

variable {W : HdCrypto}

/-- `AccountPublic::import`; `import` is a keyword here. -/
def importXpub (W : HdCrypto) (encoded : String) (coin : CoinType) (account : ℕ) :
    Except WalletError (AccountPublic W) :=
  if hardened ≤ account then .error .invalidIndex
  else do
    let key ← okOr (W.importKey encoded) WalletError.invalidExtendedKey
    if W.isAccount key account then .ok ⟨key, coin, account⟩ else .error .invalidAccountOrigin

/-- `AccountPublic::export`. -/
def exportXpub (a : AccountPublic W) : String := W.exportKey a.key

def addressFromKey (a : AccountPublic W) (key : W.PublicKey) (change : Bool) (index : ℕ) :
    Except WalletError DerivedAddress :=
  let address := W.address key
  match address.zone with
  | .error _ => .error .invalidDerivedAddress
  | .ok zone =>
    if address.ledger ≠ a.coin.ledger then .error .invalidDerivedAddress
    else .ok
      { address, publicKey := W.toCompressed key, coin := a.coin, account := a.account, change, index,
        zone }

/-- `ScanBranch::child_public_key`. -/
def childPublicKey (branch : W.BranchKey) (index : ℕ) : Except WalletError W.PublicKey :=
  if hardened ≤ index then .error .hardenedPublicChild
  else okOr (W.childKey branch index) WalletError.derivation

def deriveAddress (a : AccountPublic W) (change : Bool) (index : ℕ) :
    Except WalletError DerivedAddress := do
  let branch ← okOr (W.branch a.key change) WalletError.derivation
  let key ← childPublicKey branch index
  a.addressFromKey key change index

/-- `index.checked_add(1).filter(|next| *next < HARDENED)`. -/
def nextChild (index : ℕ) : Option ℕ := if index + 1 < hardened then some (index + 1) else none

/-- The candidate loop of `search_window`; the fuel is `max_attempts` less the attempts made. -/
def searchLoop (a : AccountPublic W) (branch : W.BranchKey) (change : Bool) (zone : Zone) (count : ℕ)
    (cancelled : ℕ → Bool) : ℕ → ℕ → SearchWindow → Except WalletError (SearchWindow × ℕ)
  | 0, polls, window => .ok (window, polls)
  | fuel + 1, polls, window =>
    match window.nextIndex with
    | none => .ok (window, polls)
    | some index =>
      if cancelled polls then .ok ({ window with stop := .cancelled }, polls + 1)
      else
        match childPublicKey branch index with
        | .error e => .error e
        | .ok key =>
          let window := { window with attempts := window.attempts + 1, nextIndex := nextChild index }
          match a.addressFromKey key change index with
          | .ok address =>
            if address.zone = zone then
              let window := { window with addresses := window.addresses ++ [address] }
              if window.addresses.length = count then
                .ok ({ window with stop := .filled }, polls + 1)
              else searchLoop a branch change zone count cancelled fuel (polls + 1) window
            else searchLoop a branch change zone count cancelled fuel (polls + 1) window
          | .error .invalidDerivedAddress =>
            searchLoop a branch change zone count cancelled fuel (polls + 1) window
          | .error e => .error e

/-- Up to `count` consecutive matching addresses; also the number of polls made so far. -/
def searchWindow (a : AccountPublic W) (change : Bool) (search : Search) (count : ℕ)
    (cancelled : ℕ → Bool) (polls : ℕ) : Except WalletError (SearchWindow × ℕ) :=
  if hardened ≤ search.startIndex then .error .invalidIndex
  else if count = 0 ∨ search.maxAttempts = 0 ∨ 10000000 < search.maxAttempts then
    .error .invalidSearchLimit
  else do
    let branch ← okOr (W.branch a.key change) WalletError.derivation
    a.searchLoop branch change search.zone count cancelled search.maxAttempts polls
      { addresses := [], attempts := 0, nextIndex := some search.startIndex, stop := .exhausted }

/-- How `search` reads the window of one address. -/
def searchOutcome (window : SearchWindow) : Except WalletError SearchResult :=
  match window.stop, window.addresses.getLast? with
  | .filled, some address =>
    .ok { address, attempts := window.attempts, nextIndex := window.nextIndex }
  | .cancelled, _ => do
    let nextIndex ← okOr window.nextIndex WalletError.invalidSearchLimit
    .error (.cancelled window.attempts nextIndex)
  | _, _ => .error (.searchExhausted window.attempts window.nextIndex)

def search (a : AccountPublic W) (change : Bool) (search : Search) (cancelled : ℕ → Bool)
    (polls : ℕ) : Except WalletError (SearchResult × ℕ) := do
  let (window, polls) ← a.searchWindow change search 1 cancelled polls
  let found ← searchOutcome window
  .ok (found, polls)

variable {a : AccountPublic W} {change : Bool}

theorem addressFromKey_eq_ok {key : W.PublicKey} {index : ℕ} {d : DerivedAddress}
    (h : a.addressFromKey key change index = .ok d) :
    d.coin = a.coin ∧ d.account = a.account ∧ d.change = change ∧ d.index = index ∧
      d.address.zone = .ok d.zone := by
  simp only [addressFromKey] at h
  split at h
  · cases h
  · rename_i zone hzone
    rw [ite_error_eq_ok] at h
    obtain ⟨-, h⟩ := h
    cases h
    exact ⟨rfl, rfl, rfl, rfl, hzone⟩

theorem deriveAddress_eq_ok {index : ℕ} {d : DerivedAddress}
    (h : a.deriveAddress change index = .ok d) :
    d.coin = a.coin ∧ d.account = a.account ∧ d.change = change ∧ d.index = index ∧
      d.address.zone = .ok d.zone := by
  simp only [deriveAddress, bind_eq_ok] at h
  obtain ⟨branch, -, key, -, h⟩ := h
  exact addressFromKey_eq_ok h

theorem importXpub_eq_ok {encoded : String} {coin : CoinType} {account : ℕ}
    (h : importXpub W encoded coin account = .ok a) : a.coin = coin ∧ a.account = account := by
  simp only [importXpub, eq_ok] at h
  obtain ⟨-, key, -, h⟩ := h
  split at h <;> cases h
  exact ⟨rfl, rfl⟩

structure WindowWithin (a : AccountPublic W) (change : Bool) (zone : Zone) (start limit : ℕ)
    (window : SearchWindow) : Prop where
  found : ∀ d ∈ window.addresses, start ≤ d.index ∧ d.index < limit ∧ d.zone = zone ∧
    a.deriveAddress change d.index = .ok d
  next : ∀ i ∈ window.nextIndex, start ≤ i

theorem searchLoop_within {branch : W.BranchKey} {zone : Zone} {count : ℕ} {cancelled : ℕ → Bool}
    {start limit fuel polls polls' : ℕ} {window window' : SearchWindow}
    (hbranch : W.branch a.key change = some branch)
    (hw : WindowWithin a change zone start limit window)
    (hfuel : ∀ i ∈ window.nextIndex, i + fuel ≤ limit)
    (h : a.searchLoop branch change zone count cancelled fuel polls window = .ok (window', polls')) :
    WindowWithin a change zone start limit window' := by
  induction fuel generalizing polls window with
  | zero =>
    cases h
    exact hw
  | succ fuel ih =>
    rw [searchLoop] at h
    split at h
    · cases h
      exact hw
    · rename_i index hindex
      have hstart := hw.next index hindex
      have hlimit := hfuel index hindex
      have hnext : ∀ i ∈ nextChild index, i = index + 1 := by
        intro i hi
        unfold nextChild at hi
        split at hi
        · exact (Option.some.inj hi).symm
        · cases hi
      split at h
      · cases h
        exact ⟨hw.found, hw.next⟩
      · split at h
        · cases h
        · rename_i key hkey
          -- the candidate is consumed: the next index moves on whatever it was
          have hadvance : ∀ i ∈ nextChild index, i + fuel ≤ limit := by
            intro i hi
            rw [hnext i hi]
            omega
          have hmoved : ∀ i ∈ nextChild index, start ≤ i := by
            intro i hi
            rw [hnext i hi]
            omega
          split at h
          · rename_i d hd
            obtain ⟨-, -, -, hdindex, -⟩ := addressFromKey_eq_ok hd
            have hderive : a.deriveAddress change d.index = .ok d := by
              rw [deriveAddress, hbranch, okOr_some, ok_bind, hdindex, hkey, ok_bind, hd]
            split at h
            · rename_i hzone
              have hpushed : ∀ e ∈ window.addresses ++ [d], start ≤ e.index ∧ e.index < limit ∧
                  e.zone = zone ∧ a.deriveAddress change e.index = .ok e := by
                intro e he
                rcases List.mem_append.mp he with he | he
                · exact hw.found e he
                · rw [List.mem_singleton.mp he]
                  exact ⟨by omega, by omega, hzone, hderive⟩
              dsimp only at h
              split at h
              · cases h
                exact ⟨hpushed, hmoved⟩
              · exact ih ⟨hpushed, hmoved⟩ hadvance h
            · apply ih _ hadvance h
              exact ⟨hw.found, hmoved⟩
          · apply ih _ hadvance h
            exact ⟨hw.found, hmoved⟩
          · cases h

/-- A successful search returns an exact child inside its range, in the requested zone. -/
theorem search_spec {s : Search} {cancelled : ℕ → Bool} {polls polls' : ℕ} {found : SearchResult}
    (h : a.search change s cancelled polls = .ok (found, polls')) :
    s.startIndex ≤ found.address.index ∧
      found.address.index < s.startIndex + s.maxAttempts ∧ found.address.zone = s.zone ∧
      a.deriveAddress change found.address.index = .ok found.address := by
  simp only [search, bind_eq_ok] at h
  obtain ⟨⟨window, n⟩, hwindow, result, hresult, hok⟩ := h
  cases hok
  simp only [searchWindow, eq_ok] at hwindow
  obtain ⟨-, -, branch, hbranch, hloop⟩ := hwindow
  have hinitial : WindowWithin a change s.zone s.startIndex (s.startIndex + s.maxAttempts)
      { addresses := [], attempts := 0, nextIndex := some s.startIndex, stop := .exhausted } :=
    ⟨by simp, by simp⟩
  have hwithin := searchLoop_within hbranch hinitial (by simp) hloop
  simp only [searchOutcome] at hresult
  split at hresult
  · rename_i d _ hlast
    cases hresult
    have hmem := List.mem_of_getLast? hlast
    exact hwithin.found d hmem
  · obtain ⟨_, _, habs⟩ := bind_eq_ok.mp hresult
    cases habs
  · cases hresult

end AccountPublic

end QuaiSdk.Wallet
