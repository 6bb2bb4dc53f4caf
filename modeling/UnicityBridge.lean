import UnicityBridge.Conservation
import UnicityBridge.GuestTotals
import UnicityBridge.Preimages
import UnicityBridge.RelayerLog
import UnicityBridge.VaultCustody
import UnicityBridge.VaultLocks
import UnicityBridge.VaultLog
import UnicityBridge.VaultPayable
import UnicityBridge.VaultReplay
import UnicityBridge.Service.Assembly
import UnicityBridge.Service.Recovery
import UnicityBridge.Service.Flight
import UnicityBridge.Service.Orchestrator
import UnicityBridge.CheckedWire
import UnicityBridge.Quorum
import UnicityBridge.AnchorCache
import UnicityBridge.BurnReason
import UnicityBridge.Lib.Rounding
import UnicityBridge.Service.Commands
import UnicityBridge.LockJustification
import UnicityBridge.LockAbsence
import UnicityBridge.Service.Truth
import UnicityBridge.Service.Attempts
import UnicityBridge.Service.Reuse
import UnicityBridge.Service.LedgerShape
import UnicityBridge.VaultRecord
import UnicityBridge.Lib.Numerals
import UnicityBridge.Service.Fees
import UnicityBridge.FeeTerms
import UnicityBridge.WitnessBuild
import UnicityBridge.Lib.Handlers
import UnicityBridge.Service.Api
import UnicityBridge.Service.Posting
import UnicityBridge.Service.Publication
import UnicityBridge.Lib.Radix
import UnicityBridge.Addresses
