import QuaiSdk.Sdk.AccountReplacement
import QuaiSdk.Sdk.Prepared
import QuaiSdk.Sdk.QiReplacement
import QuaiSdk.Storage.FamilyGrowth

/-!
# Replacement quotes and families

The quoting code and the custody layer state the replacement rules apart from each other.  A quote,
once signed, is a child that custody accepts.
-/

namespace QuaiSdk.Sdk

open Result Wallet Storage Denomination Hash32

variable {C : Crypto}

/-- A validated family with room for one more edge. -/
structure OpenFamily (C : Crypto) (root : Bytes) (variants : List QuaiReplacement) : Prop where
  valid : validateFamily C root variants = .ok ()
  room : variants.length < 32

def NewHash (C : Crypto) (root : Bytes) (variants : List QuaiReplacement) (hash : Hash32) : Prop :=
  ∀ b ∈ familyPayloads root variants, ScopeTables.candidateHash C b ≠ .ok hash

theorem outputValue_signed (op : SignedQiOperation C) :
    outputValue op.transaction = .ok (valueOf op.transaction.outputs) := by
  obtain ⟨zone, hvalid⟩ := op.exists_validateFor
  have hmessages := (validateFor_spec hvalid).messages
  unfold QiTransaction.messages maxTransactionMessages at hmessages
  rw [outputValue, checkedSum_eq_ok (by norm_num), Nat.zero_add]
  refine ⟨rfl, ?_⟩
  have hbound := total_le (op.transaction.outputs.map QiOutput.denomination)
  rw [List.length_map] at hbound
  calc valueOf op.transaction.outputs ≤ op.transaction.outputs.length * 1000000000 := hbound
    _ ≤ 16384 * 1000000000 := Nat.mul_le_mul_right _ (by omega)
    _ < 2 ^ 256 := by norm_num

def signingKey (signed : SignedQuaiTransaction C) : Option C.PublicKey :=
  match signed.transaction.signingDigest C with
  | .error _ => none
  | .ok digest => C.recoverPrehash signed.signature digest

theorem sender_of_signingKey {a b : SignedQuaiTransaction C} (h : signingKey a = signingKey b) :
    a.sender = b.sender := by
  have hrecovered : ∀ s : SignedQuaiTransaction C, ∃ key, signingKey s = some key ∧
      LedgerAddress.tryFrom .quai (C.address key) = .ok s.sender := by
    intro s
    have hs := s.recovered
    simp only [QuaiTransaction.recoverSender, eq_ok] at hs
    obtain ⟨-, -, digest, hdigest, key, hkey, sender, hsender, ⟨⟩, -, rfl⟩ := hs
    refine ⟨key, ?_, hsender⟩
    rw [signingKey, hdigest]
    exact hkey
  obtain ⟨key, hkey, hsender⟩ := hrecovered a
  obtain ⟨key', hkey', hsender'⟩ := hrecovered b
  rw [hkey, hkey', Option.some.injEq] at h
  rw [h, hsender', Except.ok.injEq] at hsender
  exact hsender.symm

/-- A quote keeps what the family rules keep, within the caller's limits, and custody accepts it as a
child of its parent once it is signed by the same keys. -/
theorem replacement_quotes_admissible (C : Crypto) :
    (∀ (p : Provider C) (source : QiSource) (parent : SignedQiOperation C)
      (intent : QiReplacementIntent) (policy : QiPolicy) (fees : QiFeeMode)
      (quote : QiReplacementQuote C),
      quoteQiReplacement p source parent intent policy fees = .ok quote →
      QiAdmissible source parent intent policy quote ∧
      ∀ (root payload : Bytes) (variants : List QuaiReplacement) (signed : SignedQiOperation C)
        (hash : Hash32), OpenFamily C root variants →
        (∃ b ∈ familyPayloads root variants, SignedQiOperation.decode C b = .ok parent) →
        signed.transaction = quote.transaction → signed.signedBytes = .ok payload →
        signed.hash = .ok hash → NewHash C root variants hash →
        validateFamily C root (variants ++ [⟨quote.parent, payload⟩]) = .ok ()) ∧
    ∀ (p : AccountProvider C) (scope : NetworkScope) (parent : SignedQuaiTransaction C)
      (observation : AccountObservationPolicy) (policy : ReplacementPolicy)
      (quote : AccountReplacementQuote),
      quoteAccountReplacement p scope parent observation policy = .ok quote →
      AccountAdmissible parent policy quote ∧
      ∀ (root payload : Bytes) (variants : List QuaiReplacement) (signed : SignedQuaiTransaction C)
        (hash : Hash32), OpenFamily C root variants →
        (∃ b ∈ familyPayloads root variants, SignedQuaiTransaction.decode C b = .ok parent) →
        signed.transaction = quote.transaction → signingKey signed = signingKey parent →
        signed.signedBytes = .ok payload → signed.hash = .ok hash → NewHash C root variants hash →
        validateFamily C root (variants ++ [⟨quote.parent, payload⟩]) = .ok () := by
  constructor
  · intro p source parent intent policy fees quote hquote
    have hadmissible := quoteQiReplacement_admissible hquote
    refine ⟨hadmissible, ?_⟩
    intro root payload variants signed hash hfamily hmember htransaction hpayload hhash hnew
    have hlower := hadmissible.lower
    rw [← htransaction] at hlower
    have hsame : signed.transaction.chainId = parent.transaction.chainId ∧
        signed.transaction.inputs = parent.transaction.inputs ∧
        signed.transaction.data = parent.transaction.data := by
      rw [htransaction]
      exact ⟨hadmissible.chainId, hadmissible.inputs, hadmissible.data⟩
    exact validateFamily_qi_child hfamily.valid hfamily.room hnew hmember hadmissible.identity
      hpayload hhash ⟨hsame, _, outputValue_signed signed, _, outputValue_signed parent, hlower⟩
  · intro p scope parent observation policy quote hquote
    have hadmissible := quoteAccountReplacement_admissible hquote
    refine ⟨hadmissible, ?_⟩
    intro root payload variants signed hash hfamily hmember htransaction hkey hpayload hhash hnew
    have hhigher := hadmissible.higher
    have hfields := hadmissible.fields
    rw [← htransaction] at hhigher hfields
    exact validateFamily_quai_child hfamily.valid hfamily.room hnew hmember hadmissible.identity
      hpayload hhash ⟨sender_of_signingKey hkey, hhigher, hfields⟩

/-- An accepted family is a tree of its ledger.  Whatever the depth of a candidate, an account one has
the root's sender and fields at a higher price than its parent's, a Qi one the root's chain, inputs and
data with a lower output total. -/
theorem families_are_trees (C : Crypto) (root : Bytes) (variants : List QuaiReplacement)
    (h : validateFamily C root variants = .ok ()) :
    variants.length ≤ 32 ∧
    (∀ front, front <+: variants → validateFamily C root front = .ok ()) ∧
    ((∃ first h₀ nodes, SignedQuaiTransaction.decode C root = .ok first ∧ first.hash = .ok h₀ ∧
        TreeOf (SignedQuaiTransaction.decode C) SignedQuaiTransaction.hash (h₀, first) variants
          nodes ∧
        (∀ n ∈ nodes, n.2.sender = first.sender ∧
          n.2.transaction = { first.transaction with gasPrice := n.2.transaction.gasPrice }) ∧
        List.Forall₂ (fun v n => ∃ parent, (v.parent, parent) ∈ (h₀, first) :: nodes ∧
          parent.transaction.gasPrice.toNat < n.2.transaction.gasPrice.toNat) variants nodes) ∨
      ∃ first h₀ nodes, SignedQiOperation.decode C root = .ok first ∧ first.hash = .ok h₀ ∧
        TreeOf (SignedQiOperation.decode C) SignedQiOperation.hash (h₀, first) variants nodes ∧
        (∀ n ∈ nodes, n.2.transaction.chainId = first.transaction.chainId ∧
          n.2.transaction.inputs = first.transaction.inputs ∧
          n.2.transaction.data = first.transaction.data) ∧
        List.Forall₂ (fun v n => ∃ parent, (v.parent, parent) ∈ (h₀, first) :: nodes ∧
          valueOf n.2.transaction.outputs < valueOf parent.transaction.outputs) variants nodes) := by
  obtain ⟨hlength, hcases⟩ := validateFamily_cases h
  have hshort : ∀ front, front <+: variants → front.length ≤ 32 :=
    fun front hfront => hfront.length_le.trans hlength
  refine ⟨hlength, ?_, ?_⟩
  · intro front hfront
    rcases hcases with ⟨first, h₀, nodes, hroot, hh₀, hnodes⟩ | ⟨first, h₀, nodes, hroot, hh₀, hnodes⟩
    · exact (validateFamily_qi_iff hroot hh₀).mpr ⟨hshort front hfront, hnodes.front hfront⟩
    · exact (validateFamily_quai_iff hroot hh₀).mpr ⟨hshort front hfront, hnodes.front hfront⟩
  rcases hcases with ⟨first, h₀, nodes, hroot, hh₀, hnodes⟩ | ⟨first, h₀, nodes, hroot, hh₀, hnodes⟩
  · have hsame := hnodes.invariant
      (P := fun x => x.transaction.chainId = first.transaction.chainId ∧
        x.transaction.inputs = first.transaction.inputs ∧
        x.transaction.data = first.transaction.data) ⟨rfl, rfl, rfl⟩
      fun p x hp hx => ⟨hx.1.1.trans hp.1, hx.1.2.1.trans hp.2.1, hx.1.2.2.trans hp.2.2⟩
    refine .inr ⟨first, h₀, nodes, hroot, hh₀, hnodes.treeOf,
      (List.forall_mem_cons.mp hsame).2, hnodes.edges.imp ?_⟩
    rintro v n ⟨parent, hmem, -, value, hvalue, bound, hbound, hlt⟩
    rw [outputValue_signed, Except.ok.injEq] at hvalue hbound
    exact ⟨parent, hmem, by rwa [hvalue, hbound]⟩
  · have hsame := hnodes.invariant
      (P := fun x => x.sender = first.sender ∧
        x.transaction = { first.transaction with gasPrice := x.transaction.gasPrice }) ⟨rfl, rfl⟩
      fun p x hp hx => ⟨hx.1.trans hp.1, by rw [hx.2.2, hp.2]⟩
    refine .inl ⟨first, h₀, nodes, hroot, hh₀, hnodes.treeOf,
      (List.forall_mem_cons.mp hsame).2, hnodes.edges.imp ?_⟩
    rintro v n ⟨parent, hmem, -, hlt, -⟩
    exact ⟨parent, hmem, hlt⟩

def replacementBytes : Bytes :=
  coinSpent ++ BigEndian.toBytes 31
    0x82011c0a1a0804121400803333333333333333333333333333333333331a00

def replacementSignature : Bytes := BigEndian.toBytes 64
  0x4887b473b9d74dee1f171b5d25c064af8f797ea13fc14acf4818685aae7bd9e24ea778af7f89af5e7c336adee3d4580b328ab61bc598d5689ae51b417a058ae9

def replacementSignedBytes : Bytes := signedWith replacementBytes replacementSignature

def replacementDigest : Hash32 :=
  ofNat 0x4ef63eaf170d40b96c5c0358fce22a12d283d688cac5e39d2a877e57b72c10ac

def replacementHash : Hash32 :=
  ofNat 0xfa56bc80c29bb4ddc989663cff2fb824bb29f20fdc9cfffb728f87558949f9a2

def loweredBytes : Bytes :=
  coinSpent ++ BigEndian.toBytes 31
    0x82011c0a1a0803121400803333333333333333333333333333333333331a00

def loweredSignature : Bytes := BigEndian.toBytes 64
  0x857eb390b016b04c60b1849a0299ba2c90408fdea4b4a7b9b7bba6a87344fac13e28b07660898040489707db5d827bcf8aac07a27e90b955fbeb07b3e8596e0b

def loweredSignedBytes : Bytes := signedWith loweredBytes loweredSignature

def loweredDigest : Hash32 :=
  ofNat 0x016dfe4558c340004975e88e08c84d7de006f86df31779a23b93ce4e35aa274f

def loweredHash : Hash32 :=
  ofNat 0x00cc3f25f5a6522017012e2b57ceae83891a66a65556e3c2af56127e6019da49

def bumpedDigest : Hash32 :=
  ofNat 0xb1186c214c3f8d98a019856d06979b04cbf5347f07cd9bed839c9f568c2acb0d

def bumpedHash : Hash32 :=
  ofNat 0xe80c87668a22cd45c045baefb1e1b5106ac921bb70e82b6bcac73d58c693ccec

def bumpedR : Hash32 :=
  ofNat 0x0fa970d0913d6fd2ab53ac35c9e1b7802b6520dea4a157ab26b759e2f335bdcd

def bumpedS : Hash32 :=
  ofNat 0x1eab6141943a6bf5319dc2eced4b9cce020bf6a86798971abc47c6cbe2b5db4b

def bumpedSignedBytes : Bytes := recoverableWith (pricedBytes 2) [0x01, 0x01] bumpedR bumpedS

def raisedDigest : Hash32 :=
  ofNat 0x317fd6e68f3034fb88f3681c2596d6d45fb03b57497235050e40f6561907d567

def raisedHash : Hash32 :=
  ofNat 0xfe3a4821c4b1fc677b7752ecf47bc311e30b08292a6d8b8c43246fe44819c0e5

def raisedR : Hash32 :=
  ofNat 0x87ac6731b474492a255a66a19bde4d110dcb7f0d41ce231e3a436c5d16e2844e

def raisedS : Hash32 :=
  ofNat 0x3d5911ac32c97b014f3ae06607d3592fd7540b28c6374592ef7859e6a7a99bd0

def raisedSignedBytes : Bytes := recoverableWith (pricedBytes 3) [0x01, 0x01] raisedR raisedS

def replacer : Crypto := KnownAnswers.crypto
  { addresses := [(coinOwnerKey, ownerAddress),
      (sampleKeyBytes, sampleSender.address)]
    digests := [(paymentBytes, paymentDigest), (paymentSignedBytes, paymentHash),
      (replacementBytes, replacementDigest), (replacementSignedBytes, replacementHash),
      (sampleUnsignedBytes, sampleDigest), (sampleSignedBytes, sampleHash),
      (pricedBytes 2, bumpedDigest), (bumpedSignedBytes, bumpedHash),
      (loweredBytes, loweredDigest), (loweredSignedBytes, loweredHash),
      (pricedBytes 3, raisedDigest), (raisedSignedBytes, raisedHash)]
    schnorr := [([coinOwnerKey], paymentDigest, paymentSignature),
      ([coinOwnerKey], replacementDigest, replacementSignature),
      ([coinOwnerKey], loweredDigest, loweredSignature)]
    recoveries := [((sampleR, sampleS, 0, sampleDigest), sampleKeyBytes),
      ((bumpedR, bumpedS, 1, bumpedDigest), sampleKeyBytes),
      ((raisedR, raisedS, 1, raisedDigest), sampleKeyBytes)] }

def spendCoin (outputs : List QiOutput) : QiTransaction replacer where
  chainId := U256.ofNat 9
  inputs := [⟨walletOutpoint, ⟨coinOwnerKey, coinOwnerKey_length⟩⟩]
  outputs
  data := []

def oldPayment : SignedQiOperation replacer := .transfer
  { transaction := spendCoin
      [⟨recipient.address, .hundred⟩, ⟨System.changeAddress, .ten⟩]
    signature := ⟨paymentSignature, paymentSignature_length⟩
    verified := by decide +kernel }

def newPayment : SignedQiOperation replacer := .transfer
  { transaction := spendCoin [⟨recipient.address, .hundred⟩]
    signature := ⟨replacementSignature, by decide +kernel⟩
    verified := by decide +kernel }

def oldTransfer : SignedQuaiTransaction replacer :=
  ⟨sampleTransfer, (sampleR, sampleS, (0 : UInt8)), sampleSender, by decide +kernel⟩

def newTransfer : SignedQuaiTransaction replacer :=
  ⟨{ sampleTransfer with gasPrice := U256.ofNat 2 }, (bumpedR, bumpedS, (1 : UInt8)), sampleSender,
    by decide +kernel⟩

def replacementNode : AccountProvider replacer where
  expectedChainId := sampleScope.chainId
  genesisHash _ := .ok sampleScope.genesis
  headers _ := .ok [some (walletHeader 7 10), some (walletHeader 8 11)]
  estimateFeeForQi _ _ := .ok 400
  sampleSpecialFee _ _ := .ok ⟨400, 400⟩
  latestHeader _ := .ok (some (walletHeader 8 11))
  headerAt _ := .ok (some (walletHeader 8 11))
  transactionCount _ _ := .ok 3
  gasPrice := .ok (U256.ofNat 1)
  estimateGas _ _ _ := .ok 21000
  quaiToQi _ _ _ := .error .failed
  balance _ _ := .ok (U256.ofNat 100000)

def replacementSource : QiSource :=
  { paymentRequest.source with
    owners := [⟨ownerAddress, coinOwnerKey, .importedPublic⟩, System.changeChild] }

/-! Identities: the digests of the signed bytes, marked with the zones. -/

def oldPaymentHash : Hash32 :=
  ofNat 0x00b900ce70293bc1ebcd4be4985ca7e1a2ff140478eaca03f81a2690af8d81c0

def newPaymentHash : Hash32 :=
  ofNat 0x00d60080c29bb4ddc989663cff2fb824bb29f20fdc9cfffb728f87558949f9a2

def oldTransferHash : Hash32 :=
  ofNat 0x004c004826e07da8065f8cda2abea5567a1a6416892214bb0e4484180f3ec148

def newTransferHash : Hash32 :=
  ofNat 0x000c00668a22cd45c045baefb1e1b5106ac921bb70e82b6bcac73d58c693ccec

def replacementIntent : QiReplacementIntent := ⟨oldPaymentHash, [1], [], false⟩

def replacementPolicy : ReplacementPolicy := ⟨10, ⟨30000, 10, 50000, 0⟩⟩

theorem oldPayment_signedBytes : oldPayment.signedBytes = .ok paymentSignedBytes := by
  decide +kernel

theorem oldTransfer_signedBytes : oldTransfer.signedBytes = .ok sampleSignedBytes := by
  decide +kernel

/-- The payment gives up its change of 10 for a fee of 400, and the transfer doubles its price; both
children are accepted. -/
theorem replacement_quotes_admissible_payment :
    (∃ quote, quoteQiReplacement replacementNode.toProvider replacementSource oldPayment
        replacementIntent (walletPolicy 400) .node = .ok quote ∧
      validateFamily replacer paymentSignedBytes [⟨quote.parent, replacementSignedBytes⟩] =
        .ok ()) ∧
    ∃ quote, quoteAccountReplacement replacementNode sampleScope oldTransfer .pinnedLatest
        replacementPolicy = .ok quote ∧
      validateFamily replacer sampleSignedBytes [⟨quote.parent, bumpedSignedBytes⟩] = .ok () := by
  constructor
  · obtain ⟨quote, hquote⟩ := exists_of_isOk
      (show (quoteQiReplacement replacementNode.toProvider replacementSource oldPayment
        replacementIntent (walletPolicy 400) .node).isOk = true by decide +kernel)
    refine ⟨quote, hquote, ?_⟩
    obtain ⟨hadmissible, hchild⟩ := (replacement_quotes_admissible replacer).1 _ _ _ _ _ _ _ hquote
    have htransaction : newPayment.transaction = quote.transaction := by
      have hchain := hadmissible.chainId
      have hinputs := hadmissible.inputs
      have houtputs := hadmissible.kept rfl
      have hdata := hadmissible.data
      generalize quote.transaction = transaction at hchain hinputs houtputs hdata ⊢
      cases transaction
      cases hchain
      cases hinputs
      cases houtputs
      cases hdata
      rfl
    exact hchild _ _ [] newPayment newPaymentHash ⟨by decide +kernel, by decide⟩
      ⟨_, List.mem_cons_self, SignedQiOperation.decode_signedBytes oldPayment_signedBytes⟩
      htransaction (by decide +kernel) (by decide +kernel)
      (fun b hb => by rw [List.mem_singleton.mp hb]; decide +kernel)
  · have hquote : quoteAccountReplacement replacementNode sampleScope oldTransfer
        .pinnedLatest replacementPolicy =
        .ok ⟨newTransfer.transaction, oldTransferHash, 42000, 21000, bumpedDigest⟩ := by
      decide +kernel
    obtain ⟨-, hchild⟩ := (replacement_quotes_admissible replacer).2 _ _ _ _ _ _ hquote
    refine ⟨_, hquote, ?_⟩
    exact hchild _ _ [] newTransfer newTransferHash ⟨by decide +kernel, by decide⟩
      ⟨_, List.mem_cons_self, SignedQuaiTransaction.decode_signedBytes oldTransfer_signedBytes⟩
      rfl (by decide +kernel) (by decide +kernel) (by decide +kernel)
      (fun b hb => by rw [List.mem_singleton.mp hb]; decide +kernel)

/-- A price raised twice. -/
def transferChain : List QuaiReplacement :=
  [⟨oldTransferHash, bumpedSignedBytes⟩, ⟨newTransferHash, raisedSignedBytes⟩]

/-- Two children of one payment. -/
def paymentFork : List QuaiReplacement :=
  [⟨oldPaymentHash, replacementSignedBytes⟩, ⟨oldPaymentHash, loweredSignedBytes⟩]

theorem families_are_trees_payment :
    ((∀ front, front <+: transferChain → validateFamily replacer sampleSignedBytes front = .ok ()) ∧
      ∃ nodes, nodes.length = 2 ∧
        TreeOf (SignedQuaiTransaction.decode replacer) SignedQuaiTransaction.hash
          (oldTransferHash, oldTransfer) transferChain nodes ∧
        ∀ n ∈ nodes, n.2.sender = sampleSender ∧
          n.2.transaction = { sampleTransfer with gasPrice := n.2.transaction.gasPrice }) ∧
    (∀ front, front <+: paymentFork → validateFamily replacer paymentSignedBytes front = .ok ()) ∧
      ∃ nodes, nodes.length = 2 ∧
        TreeOf (SignedQiOperation.decode replacer) SignedQiOperation.hash
          (oldPaymentHash, oldPayment) paymentFork nodes ∧
        ∀ n ∈ nodes, n.2.transaction.inputs = oldPayment.transaction.inputs := by
  have htransfer := SignedQuaiTransaction.decode_signedBytes oldTransfer_signedBytes
  have hpayment := SignedQiOperation.decode_signedBytes oldPayment_signedBytes
  have hquai : (SignedQiOperation.decode replacer sampleSignedBytes).isOk = false := by decide +kernel
  have hqi : (SignedQuaiTransaction.decode replacer paymentSignedBytes).isOk = false := by
    decide +kernel
  constructor
  · obtain ⟨-, hfronts, hcases⟩ := families_are_trees replacer sampleSignedBytes transferChain
      (by decide +kernel)
    refine ⟨hfronts, ?_⟩
    rcases hcases with ⟨first, h₀, nodes, hfirst, hhash, htree, hsame, -⟩ | ⟨first, _, _, hfirst, -⟩
    · obtain rfl : oldTransfer = first := Except.ok.inj (htransfer.symm.trans hfirst)
      obtain rfl : oldTransferHash = h₀ :=
        Except.ok.inj (Eq.trans (by decide +kernel) hhash)
      exact ⟨nodes, htree.reads.length_eq.symm, htree, hsame⟩
    · rw [hfirst] at hquai
      cases hquai
  · obtain ⟨-, hfronts, hcases⟩ := families_are_trees replacer paymentSignedBytes paymentFork
      (by decide +kernel)
    refine ⟨hfronts, ?_⟩
    rcases hcases with ⟨first, _, _, hfirst, -⟩ | ⟨first, h₀, nodes, hfirst, hhash, htree, hsame, -⟩
    · rw [hfirst] at hqi
      cases hqi
    · obtain rfl : oldPayment = first := Except.ok.inj (hpayment.symm.trans hfirst)
      obtain rfl : oldPaymentHash = h₀ := Except.ok.inj (Eq.trans (by decide +kernel) hhash)
      exact ⟨nodes, htree.reads.length_eq.symm, htree, fun n hn => (hsame n hn).2.1⟩

end QuaiSdk.Sdk
