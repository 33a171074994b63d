import SpiritChat.Lib.Program
import SpiritChat.Theorems.KeySchedule
import SpiritChat.Theorems.Sessions
import SpiritChat.Theorems.Cards
import SpiritChat.Crypto.Persistence
import SpiritChat.Crypto.Header
import SpiritChat.Theorems.Catchup
import SpiritChat.Theorems.ForkChoice
import SpiritChat.Theorems.FailedWrite
import SpiritChat.Ledger.Exact
import SpiritChat.Ledger.Store
import SpiritChat.Theorems.Mail
import SpiritChat.Theorems.ChatAccounts
import SpiritChat.Theorems.Pruning
import SpiritChat.Theorems.Mempool
import SpiritChat.Theorems.DiskIndex
import SpiritChat.Crypto.RatchetBytes
import SpiritChat.Theorems.Resume
import SpiritChat.Theorems.KeyAgreement
import SpiritChat.Theorems.Mined
import SpiritChat.Theorems.Bindings
import SpiritChat.Theorems.Completed
import SpiritChat.Theorems.Stale
import SpiritChat.Theorems.Answers
import SpiritChat.Theorems.Skipping
import SpiritChat.Theorems.EndAt
import SpiritChat.Theorems.Conversation
import SpiritChat.Theorems.Shadowed
import SpiritChat.Theorems.Targets
import SpiritChat.Theorems.Retarget
import SpiritChat.Theorems.SyncRange
import SpiritChat.Theorems.MailStore
import SpiritChat.Theorems.MailBudget
import SpiritChat.Theorems.Retention
import SpiritChat.Theorems.Profiles
import SpiritChat.Theorems.Walk
import SpiritChat.Theorems.NoPanic
import SpiritChat.Theorems.Reordered
import SpiritChat.Theorems.OnSchedule
import SpiritChat.Theorems.Connections
import SpiritChat.Theorems.AccountSlots
import SpiritChat.Theorems.MixPaths
