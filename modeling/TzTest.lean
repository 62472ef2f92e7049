import TzTest.Library.Coroutine
import TzTest.Library.RadixForest
import TzTest.Library.RadixMap
import TzTest.Library.RadixSelf
import TzTest.Library.RadixStores
import TzTest.Library.RadixDirect
import TzTest.Library.BitField
import TzTest.Library.Slots
import TzTest.Library.Chain
import TzTest.Library.Nesting
import TzTest.Arch
import TzTest.Interop
import TzTest.State
import TzTest.Exceptions
import TzTest.El3
import TzTest.El1
import TzTest.El0
import TzTest.Protocol.Answers
import TzTest.Protocol.Services
import TzTest.Protocol.Rounds
import TzTest.Protocol.Requests
import TzTest.Protocol.TestTable
import TzTest.Protocol.HandlerLookup
import TzTest.Protocol.InteropTest
import TzTest.Protocol.Memory
import TzTest.Protocol.Session
import TzTest.Protocol.UnownedDispatch
import TzTest.Protocol.Verdicts
import TzTest.Protocol.BufferRequests
import TzTest.Protocol.SharedBuffer
import TzTest.Paging.MemUtil
import TzTest.Paging.Aarch64
import TzTest.Paging.Arm
import TzTest.Paging.Tables
import TzTest.Paging.Operations
import TzTest.Paging.Refinement
import TzTest.Paging.Termination
import TzTest.Paging.Spaces
import TzTest.Paging.Sharing
import TzTest.Paging.ArmRefinement
import TzTest.Paging.Accesses
import TzTest.Paging.SelfMapping
import TzTest.Paging.Listing
import TzTest.Paging.TableCalls
import TzTest.Paging.Heap
import TzTest.Paging.Beside
import TzTest.Protocol.SharedMap
import TzTest.Protocol.Coverage
import TzTest.Monitor.Requests
import TzTest.Monitor.Contexts
import TzTest.Monitor.Aarch64
import TzTest.Monitor.SaveRestore
import TzTest.Monitor.Switch
import TzTest.Monitor.Vector
import TzTest.Monitor.Boot
import TzTest.Monitor.WorldSwitch
import TzTest.Monitor.Arm
import TzTest.Monitor.ArmSaveRestore
import TzTest.Monitor.ArmSwitch
import TzTest.Monitor.ArmVector
import TzTest.Monitor.ArmBoot
import TzTest.Monitor.ArmWorldSwitch
import TzTest.Monitor.Runs
import TzTest.Monitor.Resumption
import TzTest.Monitor.ArmResumption
import TzTest.Monitor.El1Vector
import TzTest.Monitor.SvcReturn
import TzTest.InitUtil.Memcpy
import TzTest.InitUtil.Pools
import TzTest.InitUtil.MapVaToPa
import TzTest.InitUtil.Agreement
import TzTest.InitUtil.ArmMapVaToPa
import TzTest.InitUtil.ArmCalls
import TzTest.InitUtil.RamContents
import TzTest.Monitor.ExceptionRecord
import TzTest.Monitor.Trap
import TzTest.Monitor.TrapReturn
import TzTest.Monitor.ArmTrap
import TzTest.Monitor.ResumeAddress
import TzTest.Protocol.El3Isolation
import TzTest.Protocol.RegisterCells
import TzTest.Loader.Rejection
import TzTest.Loader.Memory
import TzTest.Loader.Copy
import TzTest.Loader.Contents
import TzTest.Loader.Loading
import TzTest.Loader.Sections
import TzTest.Loader.Loaded
import TzTest.Paging.Truthful
import TzTest.InitUtil.El1Relocation
import TzTest.InitUtil.El3Relocation
import TzTest.Boot.Sharing
import TzTest.Libcflat.RoundTrip
import TzTest.Libcflat.Strings
