import PenOS.HeapLive

/-!
# Hot-plugging of AHCI ports (`src/drivers/ahci.c`)

`ahci_port_rebase` gives a drive that appears 34 blocks of the heap; the interrupt handler and
`ahci_scan_ports` notice drives that come and go. `held` records the blocks taken for a port, it is
no variable of the driver. The waits for the command engine end when it has stopped.
-/

namespace PenOS

/-- The registers of `hba_port_t` that are used here. -/
structure HbaPort where
  clb : ℕ
  clbu : ℕ
  fb : ℕ
  fbu : ℕ
  is : ℕ
  ie : ℕ
  cmd : ℕ
  sig : ℕ
  ssts : ℕ

/-- The entries of `port_virt`. -/
structure PortVirt where
  clb : ℕ
  fb : ℕ
  ctba : ℕ → ℕ

/-- The controller and the variables of the driver; `mapped` says that `abar` is set. -/
structure Ahci (D : Type) where
  heap : Heap D
  mapped : Bool
  is : ℕ
  pi : ℕ
  ports : ℕ → HbaPort
  portStatus : ℕ → Bool
  portInitialized : ℕ → Bool
  portVirt : ℕ → PortVirt
  portCount : ℕ
  held : ℕ → List (ℕ × ℕ)

/-- `AHCI_CMD_ST` -/
abbrev ahciCmdSt : ℕ := 1
/-- `AHCI_CMD_FRE` -/
abbrev ahciCmdFre : ℕ := 1 <<< 4
/-- `AHCI_CMD_FR` -/
abbrev ahciCmdFr : ℕ := 1 <<< 14
/-- `AHCI_CMD_CR` -/
abbrev ahciCmdCr : ℕ := 1 <<< 15
/-- `AHCI_PORT_IS_PCS` -/
abbrev ahciPortIsPcs : ℕ := 1 <<< 6
/-- `AHCI_PORT_IS_PRCS` -/
abbrev ahciPortIsPrcs : ℕ := 1 <<< 22

/-- The interrupts that are enabled for a port with a drive. -/
def ahciPortIe : ℕ :=
  [0, 1, 2, 3, 4, 5, 6, 22, 30, 29, 27, 26, 24].foldl (fun mask bit => mask ||| 1 <<< bit) 0

namespace HbaPort

/-- `check_type`: 1 for a SATA drive, 0 for no device. -/
def checkType (port : HbaPort) : ℕ :=
  let ipm := (port.ssts >>> 8) &&& 0x0F
  let det := port.ssts &&& 0x0F
  if det ≠ 3 then 0
  else if ipm ≠ 1 then 0
  else if port.sig = 0xEB140101 then 2
  else if port.sig = 0xC33C0101 then 3
  else if port.sig = 0x96690101 then 4
  else 1

/-- `stop_cmd`; the controller has cleared the last two bits when the wait ends. -/
def stopCmd (port : HbaPort) : HbaPort :=
  { port with
    cmd := port.cmd &&& not32 ahciCmdSt &&& not32 ahciCmdFre &&& not32 ahciCmdFr &&&
      not32 ahciCmdCr }

/-- `start_cmd` -/
def startCmd (port : HbaPort) : HbaPort :=
  { port with cmd := port.cmd ||| ahciCmdFre ||| ahciCmdSt }

end HbaPort

/-- `memset` to zero. -/
def Heap.memset {D : Type} (h : Heap D) (a n : ℕ) : Heap D :=
  { h with window := h.window.fill a n 0 }

/-- The live blocks that were not live before. -/
def Heap.newBlocks {D : Type} (h h' : Heap D) : List (ℕ × ℕ) :=
  h'.liveBlocks.filter fun u => u ∉ h.liveBlocks

namespace Ahci

variable {D : Type} [Disk D]

/-- One round of the loop of `ahci_port_rebase`: the header `i` of the command list gets a
command table. -/
def rebaseTable (cmdList : ℕ) (s : Heap D × (ℕ → ℕ)) (i : ℕ) :
    Except Halt (Heap D × (ℕ → ℕ)) :=
  let header := cmdList + 32 * i
  let h := { s.1 with window := s.1.window.paste (header + 2) 2 (Mem.byteOf 8) }
  match h.kmallocAligned 256 256 with
  | .error e => .error e
  | .ok (h, table) =>
    let h := { h with
      window := (h.window.store32 (header + 8) (h.paging.pagingVirtToPhys table)).store32
        (header + 12) 0 }
    .ok (h.memset table 256, Function.update s.2 i table)

/-- `ahci_port_rebase` -/
def ahciPortRebase (a : Ahci D) (portno : ℕ) : Except Halt (Ahci D) :=
  let port := (a.ports portno).stopCmd
  match a.heap.kmallocAligned 1024 1024 with
  | .error e => .error e
  | .ok (h, cmdList) =>
    let port := { port with clb := h.paging.pagingVirtToPhys cmdList, clbu := 0 }
    match (h.memset cmdList 1024).kmallocAligned 256 256 with
    | .error e => .error e
    | .ok (h, fis) =>
      let port := { port with fb := h.paging.pagingVirtToPhys fis, fbu := 0 }
      match (List.range 32).foldlM (rebaseTable cmdList)
          (h.memset fis 256, (a.portVirt portno).ctba) with
      | .error e => .error e
      | .ok (h, ctba) =>
        .ok { a with
          heap := h
          ports := Function.update a.ports portno { port with ie := ahciPortIe }.startCmd
          portVirt := Function.update a.portVirt portno ⟨cmdList, fis, ctba⟩ }

/-- A drive is found on a port. -/
def connect (a : Ahci D) (i : ℕ) : Except Halt (Ahci D) :=
  match a.ahciPortRebase i with
  | .error e => .error e
  | .ok a' => .ok { a' with
      portStatus := Function.update a.portStatus i true
      portInitialized := Function.update a.portInitialized i true
      held := Function.update a.held i (a.held i ++ a.heap.newBlocks a'.heap) }

/-- What the handler and the scan do with a port. The memory of a removed drive stays. -/
def updatePort (a : Ahci D) (i : ℕ) : Except Halt (Ahci D) :=
  if (a.ports i).checkType = 1 then
    if a.portStatus i = false then a.connect i else .ok a
  else if a.portStatus i = true then
    .ok { a with
      ports := Function.update a.ports i (a.ports i).stopCmd
      portStatus := Function.update a.portStatus i false }
  else .ok a

/-- One round of the loop of `ahci_handler`. Writing the interrupt bits back clears them. -/
def handlePort (is : ℕ) (a : Ahci D) (i : ℕ) : Except Halt (Ahci D) :=
  if is.testBit i then
    let pis := (a.ports i).is
    let a := { a with ports := Function.update a.ports i { a.ports i with is := 0 } }
    if pis &&& (ahciPortIsPcs ||| ahciPortIsPrcs) ≠ 0 then a.updatePort i else .ok a
  else .ok a

/-- `ahci_handler` -/
def ahciHandler (a : Ahci D) : Except Halt (Ahci D) :=
  if !a.mapped then .ok a
  else if a.is = 0 then .ok a
  else (List.range 32).foldlM (handlePort a.is) { a with is := 0 }

/-- One round of the loop of `ahci_scan_ports`. -/
def scanPort (pi : ℕ) (a : Ahci D) (i : ℕ) : Except Halt (Ahci D) :=
  if pi.testBit i then a.updatePort i else .ok a

/-- `ahci_scan_ports` -/
def ahciScanPorts (a : Ahci D) : Except Halt (Ahci D) :=
  if !a.mapped then .ok a else (List.range 32).foldlM (scanPort a.pi) a

/-- One round of the last loop of `ahci_init`: the ports without a drive wait for one. -/
def initPort (pi : ℕ) (a : Ahci D) (i : ℕ) : Except Halt (Ahci D) :=
  if pi.testBit i then
    if (a.ports i).checkType = 1 then
      match a.connect i with
      | .error e => .error e
      | .ok a => .ok { a with portCount := a.portCount + 1 }
    else
      .ok { a with
        ports := Function.update a.ports i
          { a.ports i with is := 0, ie := ahciPortIsPcs ||| ahciPortIsPrcs } }
  else .ok a

/-- `ahci_init` from the scan of the ports on. -/
def ahciInitPorts (a : Ahci D) : Except Halt (Ahci D) := (List.range 32).foldlM (initPort a.pi) a

end Ahci

end PenOS
