import Pinion.Exit
import Pinion.Partition
import Pinion.PauseResume
import Pinion.Driver
import Pinion.Images
import Pinion.Fpu
import Pinion.Leaks
import Pinion.Contexts
import Pinion.FrameMap
import Pinion.Buckets
import Pinion.Timer
import Pinion.IrqLines
import Pinion.RoundRobin
import Pinion.Modes
import Pinion.Faults
import Pinion.BootMap
import Pinion.Elf
import Pinion.Mapping
import Pinion.Copying
import Pinion.Image
import Pinion.Loader
import Pinion.Confined
import Pinion.PageCalls
import Pinion.FrameNumbers
import Pinion.GetSet
import Pinion.Walks
import Pinion.Refusals
import Pinion.Indices
import Pinion.WaitRace
import Pinion.FreeSpace
import Pinion.Ledger
import Pinion.ContextRuns
import Pinion.HeapPages
import Pinion.InitPages
import Pinion.SharedHeap
import Pinion.SystemLayer
import Pinion.LiveContexts
import Pinion.Itoa
import Pinion.Asm
import Pinion.CallStub
import Pinion.Console
import Pinion.Fairness
import Pinion.Formats
import Pinion.HeapCalls
import Pinion.Keyboard
import Pinion.Printf
