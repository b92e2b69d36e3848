import QuaiSdk.Consensus.MessageGuard
import QuaiSdk.Sdk.PoolHygiene
import QuaiSdk.Sdk.Replacement
import QuaiSdk.Books.QiJournal
import QuaiSdk.Books.PaymentAllocation
import QuaiSdk.Provider.TrieBuild
import QuaiSdk.Provider.HeaderBinding
import QuaiSdk.Sdk.Recovery
import QuaiSdk.Rpc.LateNotifications
import QuaiSdk.Abi.Defaults
import QuaiSdk.Abi.Spelling
import QuaiSdk.Wallet.FeeLoop
import QuaiSdk.Wallet.Aggregate
import QuaiSdk.Storage.SnapshotConsistent
import QuaiSdk.Storage.Fenced
import QuaiSdk.Storage.ReleasedSafe
import QuaiSdk.FixedBytes
import QuaiSdk.Provider.ConversionGas
