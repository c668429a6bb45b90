import PenOS.PmmRegions
import PenOS.KernelHalf
import PenOS.SwapFlags
import PenOS.DoubleFree
import PenOS.VirtqueueRings
import PenOS.InputEvents
import PenOS.AhciPorts
import PenOS.P9Checks
import PenOS.ElfAccess
import PenOS.SpawnUndo
import PenOS.RoundRobin
import PenOS.TaskEnds
import PenOS.CloneEviction
import PenOS.SwapIn
import PenOS.ShmAttach
import PenOS.RingFrames
import PenOS.Keyboard
import PenOS.P9Paths
import PenOS.Numerals
import PenOS.Mouse
import PenOS.Rectangles
import PenOS.Gates
import PenOS.Pci
