import PerceptronSoc.Lib.BitBlocks
import PerceptronSoc.Lib.Clocked
import PerceptronSoc.Lib.Grouped
import PerceptronSoc.Lib.Handshake
import PerceptronSoc.Lib.IdPool
import PerceptronSoc.Lib.Masked
import PerceptronSoc.Lib.Online
import PerceptronSoc.Lib.Overlay
import PerceptronSoc.Lib.Region
import PerceptronSoc.Lib.Renewal
import PerceptronSoc.Lib.Saturate
import PerceptronSoc.Lib.Settle
import PerceptronSoc.Lib.Vectors
import PerceptronSoc.Lib.Worklist
import PerceptronSoc.Spec.BlackBox
import PerceptronSoc.Spec.Clocking
import PerceptronSoc.Spec.Debug
import PerceptronSoc.Spec.Decode
import PerceptronSoc.Spec.Hart
import PerceptronSoc.Spec.Icache
import PerceptronSoc.Spec.Memory
import PerceptronSoc.Spec.Mmu
import PerceptronSoc.Spec.PageWalk
import PerceptronSoc.Spec.Perceptron
import PerceptronSoc.Spec.PerceptronBank
import PerceptronSoc.Spec.Pmp
import PerceptronSoc.Spec.Privilege
import PerceptronSoc.Spec.Processor
import PerceptronSoc.Spec.Soc
import PerceptronSoc.Spec.SramBist
import PerceptronSoc.Spec.SramBistTop
import PerceptronSoc.Spec.Tage
import PerceptronSoc.Spec.Tcm
import PerceptronSoc.Spec.Tile
import PerceptronSoc.Spec.Uniquify
import PerceptronSoc.Spec.Words
import PerceptronSoc.Proofs.BankArithmetic
import PerceptronSoc.Proofs.BankPipeline
import PerceptronSoc.Proofs.BistResult
import PerceptronSoc.Proofs.BistTop
import PerceptronSoc.Proofs.BistVerdict
import PerceptronSoc.Proofs.BranchNotes
import PerceptronSoc.Proofs.CacheUnit
import PerceptronSoc.Proofs.ClockDivider
import PerceptronSoc.Proofs.Coherence
import PerceptronSoc.Proofs.DecodeCache
import PerceptronSoc.Proofs.EbreakDebug
import PerceptronSoc.Proofs.Handshakes
import PerceptronSoc.Proofs.HartRun
import PerceptronSoc.Proofs.History
import PerceptronSoc.Proofs.Hybrid
import PerceptronSoc.Proofs.IcacheTransparent
import PerceptronSoc.Proofs.PageWalk
import PerceptronSoc.Proofs.PerceptronRange
import PerceptronSoc.Proofs.PerceptronRegret
import PerceptronSoc.Proofs.PerceptronSettles
import PerceptronSoc.Proofs.PerceptronStep
import PerceptronSoc.Proofs.PllReference
import PerceptronSoc.Proofs.PmpLock
import PerceptronSoc.Proofs.PmpRegion
import PerceptronSoc.Proofs.PrivilegeInvariant
import PerceptronSoc.Proofs.PrivilegeIsolation
import PerceptronSoc.Proofs.ReleaseOrder
import PerceptronSoc.Proofs.Roi
import PerceptronSoc.Proofs.RoiInstret
import PerceptronSoc.Proofs.SharedMemory
import PerceptronSoc.Proofs.SingleWriter
import PerceptronSoc.Proofs.StoreInvalidates
import PerceptronSoc.Proofs.StoreQueue
import PerceptronSoc.Proofs.TageAllocation
import PerceptronSoc.Proofs.TageBounds
import PerceptronSoc.Proofs.TageDecision
import PerceptronSoc.Proofs.TageLookup
import PerceptronSoc.Proofs.TageRange
import PerceptronSoc.Proofs.TageSaturated
import PerceptronSoc.Proofs.TageSettles
import PerceptronSoc.Proofs.TageShape
import PerceptronSoc.Proofs.TageStored
import PerceptronSoc.Proofs.TageUpdate
import PerceptronSoc.Proofs.TageView
import PerceptronSoc.Proofs.TcmMemory
import PerceptronSoc.Proofs.TcmResponses
import PerceptronSoc.Proofs.TileRun
import PerceptronSoc.Proofs.TlbTransparent
import PerceptronSoc.Proofs.UniquifyConsistent
import PerceptronSoc.Proofs.UniquifyFiles
import PerceptronSoc.Proofs.UniquifyHierarchy
import PerceptronSoc.Proofs.Writeback
